import Mathlib.Data.List.Forall2
import Ember.Proofs.Discipline.Eval

/-!
# Bindings — what a run leaves of the frames it finds

A run can declare names in frames that it makes itself, and assign to mutable variables. So of a
frame that was there before, it leaves the parent, the names in their order, which of them are
mutable, and the values of the others. Only a statement that declares a name adds or replaces one
binding, in the frame it is executed in.

* `Frame.Kept`: what a frame may have become, if the binding of at most one name is left open.
* `run_keeps_frames`: evaluating and executing keep the frames, whatever the program is and however
  the run ends.
-/

namespace Ember

/-! ### Bindings and frames that are kept -/

/-- What may have become of a binding: if it is mutable, it may have another value. -/
structure Binding.Kept (b b' : Binding) : Prop where
  name : b'.name = b.name
  mutable : b'.mutable = b.mutable
  value : b.mutable = false → b'.value = b.value

namespace Frame

/-- The names of a frame in order. -/
def names (f : Frame) : List String := f.bindings.map (·.name)

/-- The bindings of a frame besides that of a name, if one is left open. -/
def besides (f : Frame) (but : Option String) : List Binding :=
  f.bindings.filter fun b => some b.name ≠ but

/-- What may have become of a frame if the binding of a name may have been added or replaced. All
other bindings are kept, in order; the open one is where it was or comes last. -/
structure Kept (but : Option String) (f f' : Frame) : Prop where
  parent : f'.parent = f.parent
  names : f'.names = f.names ∨ ∃ n ∈ but, n ∉ f.names ∧ f'.names = f.names ++ [n]
  others : List.Forall₂ Binding.Kept (f.besides but) (f'.besides but)

end Frame

theorem Binding.Kept.refl (b : Binding) : b.Kept b := ⟨rfl, rfl, fun _ => rfl⟩

theorem Binding.Kept.trans {a b c : Binding} (h₁ : a.Kept b) (h₂ : b.Kept c) : a.Kept c where
  name := h₂.name.trans h₁.name
  mutable := h₂.mutable.trans h₁.mutable
  value := fun ha => (h₂.value (h₁.mutable.trans ha)).trans (h₁.value ha)

namespace Frame

variable {f f' f'' : Frame} {but : Option String} {n : String} {v : Value}

/-- Bindings that are kept keep their names and their order. -/
theorem names_eq {bs bs' : List Binding} (h : List.Forall₂ Binding.Kept bs bs') :
    bs'.map (·.name) = bs.map (·.name) := by
  induction h with
  | nil => rfl
  | cons hb _ ih => rw [List.map_cons, List.map_cons, hb.name, ih]

theorem forall₂_kept_trans {as bs cs : List Binding} (h₁ : List.Forall₂ Binding.Kept as bs)
    (h₂ : List.Forall₂ Binding.Kept bs cs) : List.Forall₂ Binding.Kept as cs := by
  induction h₁ generalizing cs with
  | nil => exact h₂
  | cons hab _ ih =>
      cases h₂ with
      | cons hbc hrest => exact .cons (hab.trans hbc) (ih hrest)

theorem Kept.refl (but : Option String) (f : Frame) : f.Kept but f :=
  ⟨rfl, .inl rfl, List.forall₂_same.mpr fun b _ => .refl b⟩

theorem Kept.trans (h₁ : f.Kept but f') (h₂ : f'.Kept but f'') : f.Kept but f'' := by
  refine ⟨h₂.parent.trans h₁.parent, ?_, forall₂_kept_trans h₁.others h₂.others⟩
  rcases h₁.names with e₁ | ⟨n, hn, hnew, e₁⟩
  · rw [← e₁]
    exact h₂.names
  · rcases h₂.names with e₂ | ⟨k, hk, hnew', -⟩
    · exact .inr ⟨n, hn, hnew, e₂.trans e₁⟩
    -- one name is left open, and it is there already
    · have hkn : k = n := Option.mem_unique hk hn
      exact absurd (by simp [e₁, hkn]) hnew'

/-! ### Declaring and assigning -/

/-- An update of a mutable binding keeps every binding: the one it changes may change. -/
theorem forall₂_updateIn {bs : List Binding} {b : Binding}
    (h : bs.find? (·.name == n) = some b) (hb : b.mutable = true) :
    List.Forall₂ Binding.Kept bs (updateIn n v bs) := by
  induction bs with
  | nil => cases h
  | cons a rest ih =>
      rw [updateIn]
      by_cases ha : a.name == n
      · obtain rfl : a = b := by simpa [List.find?_cons, ha] using h
        rw [if_pos ha]
        refine .cons ⟨rfl, rfl, fun hfalse => ?_⟩ (List.forall₂_same.mpr fun x _ => .refl x)
        exact absurd (hb.symm.trans hfalse) (by decide)
      · rw [if_neg ha]
        exact .cons (.refl a) (ih (by simpa [List.find?_cons, ha] using h))

/-- Assigning to a mutable variable keeps its frame. -/
theorem kept_update (but : Option String) {b : Binding} (h : f.get? n = some b)
    (hb : b.mutable = true) : f.Kept but (f.update n v) := by
  have hall := forall₂_updateIn (v := v) h hb
  refine ⟨rfl, .inl (names_eq hall), ?_⟩
  exact List.rel_filter (fun a a' haa' => by simp [haa'.name]) hall

/-- A declaration either rebinds a name in place or adds it after all others. -/
theorem names_declareIn (b : Binding) (bs : List Binding) :
    (declareIn b bs).map (·.name) = bs.map (·.name) ∨
      b.name ∉ bs.map (·.name) ∧ (declareIn b bs).map (·.name) = bs.map (·.name) ++ [b.name] := by
  induction bs with
  | nil => exact .inr ⟨by simp, rfl⟩
  | cons a rest ih =>
      rw [declareIn]
      by_cases ha : a.name = b.name
      · exact .inl (by simp [ha])
      · rcases ih with ih | ⟨hnew, ih⟩
        · exact .inl (by simp [ha, ih])
        · exact .inr ⟨by simp_all [Ne.symm ha], by simp [ha, ih]⟩

/-- A declaration leaves every binding of another name as it was. -/
theorem filter_declareIn (b : Binding) (bs : List Binding) :
    (declareIn b bs).filter (fun a => some a.name ≠ some b.name) =
      bs.filter fun a => some a.name ≠ some b.name := by
  induction bs with
  | nil => simp [declareIn]
  | cons a rest ih =>
      rw [declareIn]
      by_cases ha : a.name = b.name
      · simp [ha]
      · simp_all

/-- Declaring a name keeps the frame but for the binding of the name. -/
theorem kept_declare (f : Frame) (n : String) (v : Value) (m : Bool) :
    f.Kept (some n) (f.declare n v m) := by
  refine ⟨rfl, ?_, ?_⟩
  · rcases names_declareIn ⟨n, v, m⟩ f.bindings with h | ⟨hnew, h⟩
    · exact .inl h
    · exact .inr ⟨n, rfl, hnew, h⟩
  · have hsame : (f.declare n v m).besides (some n) = f.besides (some n) :=
      filter_declareIn ⟨n, v, m⟩ f.bindings
    rw [hsame]
    exact List.forall₂_same.mpr fun b _ => .refl b

end Frame

/-! ### The frames of a store -/

namespace Store

variable {s₀ s s' : Store} {e : Nat} {but : Option String}

/-- The frames of `s₀` are kept in `s`, but for the binding of a name in the frame `e`, if one is
left open. -/
def FramesKept (s₀ : Store) (e : Nat) (but : Option String) (s : Store) : Prop :=
  ∀ i f, s₀.frame? i = some f →
    ∃ f', s.frame? i = some f' ∧ f.Kept (if i = e then but else none) f'

theorem FramesKept.refl (s₀ : Store) (e : Nat) (but : Option String) : s₀.FramesKept e but s₀ :=
  fun _ f hf => ⟨f, hf, .refl _ f⟩

/-- Frames are never removed. -/
theorem FramesKept.size_le (h : s₀.FramesKept e but s) : s₀.frames.size ≤ s.frames.size := by
  by_contra hlt
  obtain ⟨f', hf', -⟩ := h s.frames.size _ (Array.getElem?_eq_getElem (Nat.not_le.mp hlt))
  simp [frame?] at hf'

/-- One frame is changed, and kept. -/
theorem FramesKept.modify {x : Nat} {g : Frame → Frame} (h : s₀.FramesKept e but s)
    (hg : ∀ f, x < s₀.frames.size → s.frame? x = some f →
      f.Kept (if x = e then but else none) (g f)) :
    s₀.FramesKept e but { s with frames := s.frames.modify x g } := by
  intro i f hf
  obtain ⟨f', hf', hkept⟩ := h i f hf
  have hi : i < s₀.frames.size := (Array.getElem?_eq_some_iff.mp hf).1
  have hget := s.frame?_modify x g i
  by_cases hx : x = i
  · subst hx
    exact ⟨g f', by simp [hget, hf'], hkept.trans (hg f' hi hf')⟩
  · exact ⟨f', by rw [hget, if_neg hx, hf'], hkept⟩

/-- A new frame leaves the frames before it as they were. -/
theorem FramesKept.addFrame (h : s₀.FramesKept e but s) (p : Option Nat) :
    s₀.FramesKept e but (s.addFrame p).1 := by
  intro i f hf
  obtain ⟨f', hf', hkept⟩ := h i f hf
  have hi : i ≠ s.frames.size := Nat.ne_of_lt (Array.getElem?_eq_some_iff.mp hf').1
  exact ⟨f', by rw [frame?_addFrame, if_neg hi, hf'], hkept⟩

end Store

/-- The frames of a store are kept. Names may be declared in frames that it did not have, and one
name may be left open in one frame. -/
def Discipline.keepingFrames (s₀ : Store) (e : Nat) (but : Option String) : Discipline where
  strict := False
  Inv := s₀.FramesKept e but
  Good _ _ := True
  Scope _ _ := True
  Local _ x n := s₀.frames.size ≤ x ∨ x = e ∧ n ∈ but
  good_mono := fun _ _ => trivial
  scope_mono := fun _ _ => trivial
  local_mono := fun _ h => h
  good_plain := fun _ => trivial
  good_between := fun _ _ _ _ => trivial
  good_length := fun _ => trivial
  good_size := fun _ _ => trivial
  good_lookup := fun _ _ _ => trivial
  good_element := fun _ _ _ => trivial
  closure := fun _ _ _ => ⟨trivial, False.elim⟩
  addFrame := fun hs _ => ⟨hs.addFrame _, trivial, fun _ => .inl hs.size_le⟩
  addArray := fun hs _ => ⟨hs, trivial⟩
  addClosure := fun hs _ _ => ⟨hs, trivial⟩
  declare := by
    intro s x n v m hs hx _
    refine hs.modify fun f hlt _ => ?_
    obtain ⟨rfl, rfl⟩ := hx.resolve_left (Nat.not_le.mpr hlt)
    rw [if_pos rfl]
    exact f.kept_declare n v m
  update := by
    intro s x n v g hs _ _ hg
    obtain ⟨-, f, b, hf, hb, hm⟩ := Store.find?_of_assignable hg
    refine hs.modify fun f' _ hf' => ?_
    obtain rfl : f = f' := Option.some.inj (hf.symm.trans hf')
    exact Frame.kept_update _ hb hm
  push := fun hs _ _ => hs
  pop := fun hs _ => hs
  setElement := fun hs _ _ => hs
  known := False.elim
  present := False.elim

/-! ### Whole runs -/

/-- **Running keeps the frames it finds.** However evaluating an expression or executing a
statement ends, every frame that was there before is kept, but for the binding of the name that the
statement itself declares in the frame it is executed in. -/
theorem run_keeps_frames (cfg : Settings) (fuel : Nat) (m : Machine) (n : Node) (e : Nat) :
    (∀ i f, m.store.frame? i = some f →
      ∃ f', ((eval cfg fuel n e).run.run m).2.store.frame? i = some f' ∧ f.Kept none f') ∧
    ∀ i f, m.store.frame? i = some f →
      ∃ f', ((exec cfg fuel n e).run.run m).2.store.frame? i = some f' ∧
        f.Kept (if i = e then n.declared? else none) f' := by
  refine ⟨fun i f hf => ?_, fun i f hf => ?_⟩
  · let D := Discipline.keepingFrames m.store e none
    have hstart : D.Inv m.store := .refl m.store e none
    have hrun : D.Holds m.store (eval cfg fuel n e) D.Good :=
      (D.sound cfg fuel).eval hstart trivial False.elim
    simpa using hrun.inv.1 i f hf
  -- the statement itself may declare its name, and nothing else may be declared
  · let D := Discipline.keepingFrames m.store e n.declared?
    have hstart : D.Inv m.store := .refl m.store e n.declared?
    have hrun : D.Holds m.store (exec cfg fuel n e) (D.Ended false) :=
      (D.sound cfg fuel).exec hstart trivial (fun _ hx => .inr ⟨rfl, hx⟩) False.elim
    exact hrun.inv.1 i f hf

end Ember
