import Ember.Proofs.Node.Alike
import Ember.Proofs.Scoping
import Ember.Proofs.Store.Congruence

/-!
# Store — stores that differ in empty frames

A block around a single statement adds a frame in which nothing is ever bound. Two runs that differ
in such blocks have stores whose frames correspond to each other except for these. A world says
which frames correspond, and which ones one of the stores has on top; it grows as the runs go on.
Arrays and functions have the same addresses in both stores, so that values are the same.

* `World`, `World.Scope`: frames that correspond, directly or through frames with nothing in them.
* `World.Stores`: two stores that differ in empty frames only.
* `World.Stores.lookup`, `World.Stores.assignable`: names mean the same in both.
* `World.Stores.addPair` and so on: what single operations make of the two stores.
-/

namespace Ember

namespace Store

variable {s s' : Store} {e : Nat} {f : Frame} {name : String}

/-- A frame is the first one of its chain, and the others are the chain of the frame around it. -/
theorem chain_of_frame (hs : s.Layered) (hf : s.frame? e = some f) :
    s.chain e = e :: f.parent.elim [] s.chain := by
  rw [chain, chainFrom, hf]
  cases hp : f.parent with
  | none => simp [hp]
  | some p => simp [hp, chainFrom_eq_chain hs (hs e f p hf hp)]

/-- The innermost frame that binds a name is this one, or the one seen from the frame around it. -/
theorem find?_of_frame (hs : s.Layered) (hf : s.frame? e = some f) (name : String) :
    s.find? e name = if f.binds name then some e else f.parent.bind fun p => s.find? p name := by
  have hbinds : s.binds name e = f.binds name := by simp [binds, hf]
  rw [find?, chain_of_frame hs hf, List.find?_cons, hbinds]
  cases f.binds name with
  | true => rfl
  | false => cases f.parent <;> rfl

end Store

/-! ### Worlds -/

/-- How the frames of two stores are related. -/
structure World where
  /-- The two frames correspond to each other. -/
  pair : Nat → Nat → Prop
  /-- The first store has the first frame on top, inside the second one; nothing is bound in it. -/
  left : Nat → Nat → Prop
  /-- The second store has the first frame on top, inside the second one. -/
  right : Nat → Nat → Prop

namespace World

variable {W W' W'' : World} {s s' : Store} {e e' p p' : Nat}

/-- The second world knows all that the first one does. -/
structure Grows (W W' : World) : Prop where
  pair : ∀ {e e'}, W.pair e e' → W'.pair e e'
  left : ∀ {e p}, W.left e p → W'.left e p
  right : ∀ {e p}, W.right e p → W'.right e p

theorem Grows.refl (W : World) : W.Grows W := ⟨id, id, id⟩

theorem Grows.trans (h : W.Grows W') (h' : W'.Grows W'') : W.Grows W'' :=
  ⟨h'.pair ∘ h.pair, h'.left ∘ h.left, h'.right ∘ h.right⟩

/-- The same names are seen from the two frames: they correspond, up to frames with nothing in
them. -/
inductive Scope (W : World) : Nat → Nat → Prop where
  | pair {e e' : Nat} (h : W.pair e e') : Scope W e e'
  | left {e p e' : Nat} (h : W.left e p) (hp : Scope W p e') : Scope W e e'
  | right {e e' p' : Nat} (h : W.right e' p') (hp : Scope W e p') : Scope W e e'

/-- Frames that see the same names still do in a grown world. -/
theorem Scope.grow (h : W.Scope e e') (hW : W.Grows W') : W'.Scope e e' := by
  induction h with
  | pair h => exact .pair (hW.pair h)
  | left h _ ih => exact .left (hW.left h) ih
  | right h _ ih => exact .right (hW.right h) ih

/-- The frames around two frames: there are none, or the same names are seen from them. -/
inductive Parents (W : World) : Option Nat → Option Nat → Prop where
  | none : Parents W none none
  | some {p p' : Nat} (h : W.Scope p p') : Parents W (some p) (some p')

theorem Parents.grow {o o' : Option Nat} (h : W.Parents o o') (hW : W.Grows W') :
    W'.Parents o o' := by
  cases h with
  | none => exact .none
  | some h => exact .some (h.grow hW)

/-- Two functions that do the same: their bodies are alike, and see the same names. -/
structure Functions (W : World) (c c' : Closure) : Prop where
  name : c'.name = c.name
  params : c'.params = c.params
  body : Node.Alike .block c.body c'.body
  scope : W.Scope c.frame c'.frame

/-- Two frames with the same bindings, inside of frames from which the same names are seen. -/
structure Frames (W : World) (f f' : Frame) : Prop where
  bindings : f'.bindings = f.bindings
  parents : W.Parents f.parent f'.parent

/-- Functions that correspond still do in a grown world. -/
theorem Functions.grow {c c' : Closure} (h : W.Functions c c') (hW : W.Grows W') :
    W'.Functions c c' := ⟨h.name, h.params, h.body, h.scope.grow hW⟩

/-- Frames with the same bindings and corresponding parents still have them in a grown world. -/
theorem Frames.grow {f f' : Frame} (h : W.Frames f f') (hW : W.Grows W') : W'.Frames f f' :=
  ⟨h.bindings, h.parents.grow hW⟩

/-- Two stores that differ in empty frames only. -/
structure Stores (W : World) (s s' : Store) : Prop where
  layered : s.Layered
  layered' : s'.Layered
  arrays : s'.arrays = s.arrays
  count : s'.closures.size = s.closures.size
  closures : ∀ f c c', s.closure? f = some c → s'.closure? f = some c' → W.Functions c c'
  pair : ∀ e e', W.pair e e' →
    ∃ f f', s.frame? e = some f ∧ s'.frame? e' = some f' ∧ W.Frames f f'
  left : ∀ e p, W.left e p → s.frame? e = some ⟨some p, []⟩
  right : ∀ e p, W.right e p → s'.frame? e = some ⟨some p, []⟩
  functional : ∀ e a b, W.pair e a → W.pair e b → a = b
  injective : ∀ a b e, W.pair a e → W.pair b e → a = b
  apart : ∀ e e' p, W.pair e e' → ¬ W.left e p
  apart' : ∀ e e' p, W.pair e e' → ¬ W.right e' p

namespace Stores

variable {name : String}

theorem frame_lt {f : Frame} (h : s.frame? e = some f) : e < s.frames.size :=
  (Array.getElem?_eq_some_iff.mp h).1

/-- Frames from which names are seen are there. -/
theorem lt_size (hs : W.Stores s s') (h : W.Scope e e') :
    e < s.frames.size ∧ e' < s'.frames.size := by
  induction h with
  | pair h =>
      obtain ⟨f, f', hf, hf', -⟩ := hs.pair _ _ h
      exact ⟨frame_lt hf, frame_lt hf'⟩
  | left h _ ih => exact ⟨frame_lt (hs.left _ _ h), ih.2⟩
  | right h _ ih => exact ⟨ih.1, frame_lt (hs.right _ _ h)⟩

/-! ### Names -/

/-- **The same name is bound in corresponding frames**, if it is bound. -/
theorem find? (hs : W.Stores s s') (h : W.Scope e e') (name : String) :
    (s.find? e name = none ∧ s'.find? e' name = none) ∨
      ∃ g g', s.find? e name = some g ∧ s'.find? e' name = some g' ∧ W.pair g g' := by
  -- outwards: a frame that is passed makes one of the addresses smaller
  induction hsum : e + e' using Nat.strongRecOn generalizing e e' with
  | _ sum ih =>
      cases h with
      | pair h =>
          obtain ⟨f, f', hf, hf', hframes⟩ := hs.pair _ _ h
          have hbinds : f'.binds name = f.binds name := by
            rw [Frame.binds, Frame.binds, hframes.bindings]
          rw [Store.find?_of_frame hs.layered hf, Store.find?_of_frame hs.layered' hf', hbinds]
          by_cases hb : f.binds name
          · exact .inr ⟨e, e', by simp [hb], by simp [hb], h⟩
          · have hparents := hframes.parents
            cases hp : f.parent with
            | none =>
                rw [hp] at hparents
                cases hp' : f'.parent with
                | none => exact .inl ⟨by simp [hb], by simp [hb]⟩
                | some p' =>
                    rw [hp'] at hparents
                    cases hparents
            | some p =>
                rw [hp] at hparents
                cases hp' : f'.parent with
                | none =>
                    rw [hp'] at hparents
                    cases hparents
                | some p' =>
                    rw [hp'] at hparents
                    cases hparents with
                    | some hscope =>
                        have hpe := hs.layered e f p hf hp
                        have hpe' := hs.layered' e' f' p' hf' hp'
                        simpa [hb] using ih (p + p') (by omega) hscope rfl
      | @left _ p _ h hp =>
          have hf := hs.left _ _ h
          have hpe := hs.layered e _ p hf rfl
          rw [Store.find?_of_frame hs.layered hf]
          exact ih (p + e') (by omega) hp rfl
      | @right _ _ p' h hp =>
          have hf := hs.right _ _ h
          have hpe := hs.layered' e' _ p' hf rfl
          rw [Store.find?_of_frame hs.layered' hf]
          exact ih (e + p') (by omega) hp rfl

/-- A name has the same binding in both stores. -/
theorem binding? (hs : W.Stores s s') (h : W.Scope e e') (name : String) :
    s'.binding? e' name = s.binding? e name := by
  rcases hs.find? h name with ⟨hnone, hnone'⟩ | ⟨g, g', hg, hg', hpair⟩
  · rw [Store.binding?, Store.binding?, hnone, hnone']
    rfl
  · obtain ⟨f, f', hf, hf', hframes⟩ := hs.pair _ _ hpair
    simp only [Store.binding?, hg, hg', hf, hf', Option.bind_some, Frame.get?, hframes.bindings]

/-- **A name means the same** where the same names are seen. -/
theorem lookup (hs : W.Stores s s') (h : W.Scope e e') (name : String) :
    s'.lookup e' name = s.lookup e name := by
  rw [Store.lookup, Store.lookup, hs.binding? h]

/-- **An assignment is refused in both stores**, or changes corresponding frames. -/
theorem assignable (hs : W.Stores s s') (h : W.Scope e e') (name : String) :
    (∃ f, s.assignable e name = .error f ∧ s'.assignable e' name = .error f) ∨
      ∃ g g', s.assignable e name = .ok g ∧ s'.assignable e' name = .ok g' ∧ W.pair g g' := by
  rcases hs.find? h name with ⟨hnone, hnone'⟩ | ⟨g, g', hg, hg', hpair⟩
  · exact .inl ⟨_, by rw [Store.assignable, hnone], by rw [Store.assignable, hnone']⟩
  · obtain ⟨f, f', hf, hf', hframes⟩ := hs.pair _ _ hpair
    have hget : f'.get? name = f.get? name := by rw [Frame.get?, Frame.get?, hframes.bindings]
    simp only [Store.assignable, hg, hg', hf, hf', Option.bind_some, hget]
    by_cases hm : (f.get? name).any (·.mutable)
    · exact .inr ⟨g, g', by simp [hm], by simp [hm], hpair⟩
    · exact .inl ⟨.immutable name, by simp [hm], by simp [hm]⟩

/-! ### Values -/

/-- Arrays have the same elements in both stores. -/
theorem elements (hs : W.Stores s s') (a : Nat) : s'.elements a = s.elements a := by
  rw [Store.elements, Store.elements, hs.arrays]

/-- A function is at an address of both stores or of none. -/
theorem closure? (hs : W.Stores s s') (f : Nat) :
    (s.closure? f = none ∧ s'.closure? f = none) ∨
      ∃ c c', s.closure? f = some c ∧ s'.closure? f = some c' ∧ W.Functions c c' := by
  by_cases hf : f < s.closures.size
  · obtain ⟨c, hc⟩ : ∃ c, s.closure? f = some c := ⟨_, Array.getElem?_eq_getElem hf⟩
    obtain ⟨c', hc'⟩ : ∃ c', s'.closure? f = some c' :=
      ⟨_, Array.getElem?_eq_getElem (hs.count ▸ hf)⟩
    exact .inr ⟨c, c', hc, hc', hs.closures f c c' hc hc'⟩
  · refine .inl ⟨Array.getElem?_eq_none (by omega), Array.getElem?_eq_none ?_⟩
    rw [hs.count]
    omega

/-- Functions have the same names in both stores. -/
theorem closureName (hs : W.Stores s s') (f : Nat) (nameless : String) :
    s'.closureName f nameless = s.closureName f nameless := by
  rcases hs.closure? f with ⟨hc, hc'⟩ | ⟨c, c', hc, hc', hcc⟩
  · rw [Store.closureName, Store.closureName, hc, hc']
  · simp only [Store.closureName, hc, hc', Option.bind_some, hcc.name]

/-- Values are shown alike in both stores, level by level. -/
theorem showAt (hs : W.Stores s s') (steps : Nat) (path : List Nat) (nested : Bool) (v : Value) :
    s'.showAt steps path nested v = s.showAt steps path nested v :=
  Store.showAt_congr hs.arrays hs.closureName steps path nested v

/-- Values are displayed alike in both stores. -/
theorem display (hs : W.Stores s s') (limit : Nat) (nested : Bool) (v : Value) :
    s'.display limit nested v = s.display limit nested v :=
  hs.showAt _ _ _ v

end Stores

/-! ### Single operations -/

/-- The world in which two more frames correspond. -/
def addPair (W : World) (a b : Nat) : World :=
  { W with pair := fun e e' => W.pair e e' ∨ e = a ∧ e' = b }

/-- The world in which the first store has one more frame. -/
def addLeft (W : World) (a q : Nat) : World :=
  { W with left := fun e p => W.left e p ∨ e = a ∧ p = q }

/-- The world in which the second store has one more frame. -/
def addRight (W : World) (a q : Nat) : World :=
  { W with right := fun e p => W.right e p ∨ e = a ∧ p = q }

theorem grows_addPair (W : World) (a b : Nat) : W.Grows (W.addPair a b) := ⟨.inl, id, id⟩

theorem grows_addLeft (W : World) (a q : Nat) : W.Grows (W.addLeft a q) := ⟨id, .inl, id⟩

theorem grows_addRight (W : World) (a q : Nat) : W.Grows (W.addRight a q) := ⟨id, id, .inl⟩

namespace Stores

/-- What is at an address of a store stays there when a frame is added. -/
theorem frame?_addFrame_of_some {f : Frame} (hf : s.frame? e = some f) (p : Option Nat) :
    (s.addFrame p).1.frame? e = some f := by
  rw [Store.frame?_addFrame, if_neg (Nat.ne_of_lt (frame_lt hf))]
  exact hf

theorem frame?_addFrame_self (s : Store) (p : Option Nat) :
    (s.addFrame p).1.frame? s.frames.size = some ⟨p, []⟩ := by
  rw [Store.frame?_addFrame, if_pos rfl]

/-- A frame is added to both stores. -/
theorem addPair (hs : W.Stores s s') (h : W.Scope e e') :
    (W.addPair s.frames.size s'.frames.size).Stores (s.addFrame (some e)).1
      (s'.addFrame (some e')).1 := by
  obtain ⟨he, he'⟩ := hs.lt_size h
  have hW := W.grows_addPair s.frames.size s'.frames.size
  have hold : ∀ {a b}, W.pair a b → a < s.frames.size ∧ b < s'.frames.size :=
    fun hab => hs.lt_size (.pair hab)
  refine ⟨hs.layered.addFrame he, hs.layered'.addFrame he', hs.arrays, hs.count, ?_, ?_, ?_, ?_, ?_,
    ?_, ?_, ?_⟩
  · exact fun f c c' hc hc' => (hs.closures f c c' hc hc').grow hW
  · rintro a b (hab | ⟨rfl, rfl⟩)
    · obtain ⟨f, f', hf, hf', hframes⟩ := hs.pair a b hab
      exact ⟨f, f', frame?_addFrame_of_some hf _, frame?_addFrame_of_some hf' _, hframes.grow hW⟩
    · exact ⟨_, _, frame?_addFrame_self s _, frame?_addFrame_self s' _, rfl, .some (h.grow hW)⟩
  · exact fun a p hap => frame?_addFrame_of_some (hs.left a p hap) _
  · exact fun a p hap => frame?_addFrame_of_some (hs.right a p hap) _
  · rintro x a b (ha | ⟨rfl, rfl⟩) (hb | ⟨hx, rfl⟩)
    · exact hs.functional x a b ha hb
    · exact absurd (hold ha).1 (by omega)
    · exact absurd (hold hb).1 (by omega)
    · rfl
  · rintro a b x (ha | ⟨rfl, rfl⟩) (hb | ⟨rfl, hx⟩)
    · exact hs.injective a b x ha hb
    · exact absurd (hold ha).2 (by omega)
    · exact absurd (hold hb).2 (by omega)
    · rfl
  · rintro a b p (hab | ⟨rfl, rfl⟩) hap
    · exact hs.apart a b p hab hap
    · exact absurd (frame_lt (hs.left _ p hap)) (by omega)
  · rintro a b p (hab | ⟨rfl, rfl⟩) hbp
    · exact hs.apart' a b p hab hbp
    · exact absurd (frame_lt (hs.right _ p hbp)) (by omega)

/-- A frame in which nothing will be bound is added to the first store. -/
theorem addLeft (hs : W.Stores s s') (h : W.Scope e e') :
    (W.addLeft s.frames.size e).Stores (s.addFrame (some e)).1 s' := by
  have he := (hs.lt_size h).1
  have hW := W.grows_addLeft s.frames.size e
  refine ⟨hs.layered.addFrame he, hs.layered', hs.arrays, hs.count, ?_, ?_, ?_, hs.right,
    hs.functional, hs.injective, ?_, hs.apart'⟩
  · exact fun f c c' hc hc' => (hs.closures f c c' hc hc').grow hW
  · intro a b hab
    obtain ⟨f, f', hf, hf', hframes⟩ := hs.pair a b hab
    exact ⟨f, f', frame?_addFrame_of_some hf _, hf', hframes.grow hW⟩
  · rintro a p (hap | ⟨rfl, rfl⟩)
    · exact frame?_addFrame_of_some (hs.left a p hap) _
    · exact frame?_addFrame_self s _
  · rintro a b p hab (hap | ⟨rfl, rfl⟩)
    · exact hs.apart a b p hab hap
    · exact absurd (hs.lt_size (.pair hab)).1 (by omega)

/-- A frame in which nothing will be bound is added to the second store. -/
theorem addRight (hs : W.Stores s s') (h : W.Scope e e') :
    (W.addRight s'.frames.size e').Stores s (s'.addFrame (some e')).1 := by
  have he' := (hs.lt_size h).2
  have hW := W.grows_addRight s'.frames.size e'
  refine ⟨hs.layered, hs.layered'.addFrame he', hs.arrays, hs.count, ?_, ?_, hs.left, ?_,
    hs.functional, hs.injective, hs.apart, ?_⟩
  · exact fun f c c' hc hc' => (hs.closures f c c' hc hc').grow hW
  · intro a b hab
    obtain ⟨f, f', hf, hf', hframes⟩ := hs.pair a b hab
    exact ⟨f, f', hf, frame?_addFrame_of_some hf' _, hframes.grow hW⟩
  · rintro a p (hap | ⟨rfl, rfl⟩)
    · exact frame?_addFrame_of_some (hs.right a p hap) _
    · exact frame?_addFrame_self s' _
  · rintro a b p hab (hbp | ⟨rfl, rfl⟩)
    · exact hs.apart' a b p hab hbp
    · exact absurd (hs.lt_size (.pair hab)).2 (by omega)

/-- Corresponding frames change in the same way. -/
theorem modifyFrames (hs : W.Stores s s') (h : W.pair e e') {g : Frame → Frame}
    (hparent : ∀ f, (g f).parent = f.parent)
    (hbindings : ∀ f f' : Frame, f'.bindings = f.bindings → (g f').bindings = (g f).bindings) :
    W.Stores { s with frames := s.frames.modify e g }
      { s' with frames := s'.frames.modify e' g } := by
  refine ⟨hs.layered.modifyFrame e hparent, hs.layered'.modifyFrame e' hparent, hs.arrays, hs.count,
    hs.closures, ?_, ?_, ?_, hs.functional, hs.injective, hs.apart, hs.apart'⟩
  · intro a b hab
    obtain ⟨f, f', hf, hf', hframes⟩ := hs.pair a b hab
    rw [Store.frame?_modify, Store.frame?_modify]
    by_cases hae : e = a
    · subst hae
      obtain rfl := hs.functional e e' b h hab
      refine ⟨g f, g f', by simp [hf], by simp [hf'], hbindings f f' hframes.bindings, ?_⟩
      rw [hparent, hparent]
      exact hframes.parents
    · have hbe : e' ≠ b := fun hbe => hae (hs.injective e a b (hbe ▸ h) hab)
      exact ⟨f, f', by rw [if_neg hae, hf], by rw [if_neg hbe, hf'], hframes⟩
  · intro a p hap
    have hae : e ≠ a := fun hae => hs.apart e e' p h (hae ▸ hap)
    rw [Store.frame?_modify, if_neg hae]
    exact hs.left a p hap
  · intro a p hap
    have hae : e' ≠ a := fun hae => hs.apart' e e' p h (hae ▸ hap)
    rw [Store.frame?_modify, if_neg hae]
    exact hs.right a p hap

/-- Declaring the same value in corresponding frames keeps the stores alike. -/
theorem declare (hs : W.Stores s s') (h : W.pair e e') (name : String) (v : Value)
    (mutable : Bool) : W.Stores (s.declare e name v mutable) (s'.declare e' name v mutable) :=
  hs.modifyFrames h (fun _ => rfl) fun f f' hff => by simp only [Frame.declare, hff]

/-- Assigning the same value in corresponding frames keeps the stores alike. -/
theorem update (hs : W.Stores s s') (h : W.pair e e') (name : String) (v : Value) :
    W.Stores (s.update e name v) (s'.update e' name v) :=
  hs.modifyFrames h (fun _ => rfl) fun f f' hff => by simp only [Frame.update, hff]

/-- The arrays of both stores change in the same way. -/
theorem withArrays (hs : W.Stores s s') {as as' : Array (Array Value)} (h : as' = as) :
    W.Stores { s with arrays := as } { s' with arrays := as' } :=
  ⟨hs.layered, hs.layered', h, hs.count, hs.closures, hs.pair, hs.left, hs.right, hs.functional,
    hs.injective, hs.apart, hs.apart'⟩

/-- Functions that do the same are added to both stores. -/
theorem addClosure (hs : W.Stores s s') {c c' : Closure} (h : W.Functions c c') :
    W.Stores (s.addClosure c).1 (s'.addClosure c').1 := by
  refine ⟨hs.layered, hs.layered', hs.arrays, ?_, ?_, hs.pair, hs.left, hs.right, hs.functional,
    hs.injective, hs.apart, hs.apart'⟩
  · simp [Store.addClosure, hs.count]
  · intro f d d' hd hd'
    rw [Store.closure?_addClosure] at hd hd'
    rw [hs.count] at hd'
    by_cases hf : f = s.closures.size
    · rw [if_pos hf] at hd hd'
      cases hd
      cases hd'
      exact h
    · rw [if_neg hf] at hd hd'
      exact hs.closures f d d' hd hd'

end Stores

end World

end Ember
