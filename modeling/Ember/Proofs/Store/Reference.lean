import Ember.Store

/-!
# Store — references between objects

A store holds three sorts of objects: frames, arrays and functions. A value refers to at most one
of them, a frame to its parent and to what its bindings refer to, an array to what its elements
refer to, and a function to the frame in which it was made.

* `Store.Resolves`: every reference of an object of the store is to an object of the store.
* `Store.Reach`: the objects that can be reached from given ones.
* `Store.Holds`: an array holds its elements.
* `Store.Writes`: one object is changed or added, all others are as they were. Every operation on
  stores is of this form, and the lemmas `writes_…` say for each of them which object it is and what
  that object can newly refer to.
* `Store.Extends`: what no operation undoes.
-/

namespace Ember

/-- What can be referred to. -/
inductive Ref where
  | frame (address : Nat)
  | array (address : Nat)
  | closure (address : Nat)
deriving DecidableEq, Repr

/-- An object of a store. -/
inductive Object where
  | frame (f : Frame)
  | array (elements : Array Value)
  | closure (c : Closure)

/-- What a value refers to. -/
def Value.refs : Value → List Ref
  | .array a => [.array a]
  | .function f => [.closure f]
  | _ => []

/-- What a frame refers to. -/
def Frame.refs (f : Frame) : List Ref :=
  f.parent.toList.map .frame ++ f.bindings.flatMap (·.value.refs)

namespace Object

/-- What an object refers to. -/
def refs : Object → List Ref
  | frame f => f.refs
  | array vs => vs.toList.flatMap Value.refs
  | closure c => [.frame c.frame]

/-- What an object can become: frames keep their parents, and functions do not change. -/
def Evolves : Object → Object → Prop
  | frame f, frame g => g.parent = f.parent
  | array _, array _ => True
  | closure c, closure d => d = c
  | _, _ => False

theorem Evolves.refl (x : Object) : x.Evolves x := by
  cases x with
  | frame f => rfl
  | array vs => trivial
  | closure c => rfl

theorem Evolves.trans {x y z : Object} (h₁ : x.Evolves y) (h₂ : y.Evolves z) : x.Evolves z := by
  cases x <;> cases y <;> cases z <;> simp_all [Evolves]

end Object

namespace Store

/-! ### Objects and references -/

/-- The object that is referred to. -/
def object? (s : Store) : Ref → Option Object
  | .frame e => (s.frame? e).map .frame
  | .array a => (s.array? a).map .array
  | .closure f => (s.closure? f).map .closure

/-- The reference is to an object of the store. -/
def Has (s : Store) (r : Ref) : Prop := (s.object? r).isSome

/-- What the object that is referred to refers to in turn. -/
def refs (s : Store) (r : Ref) : List Ref := (s.object? r).elim [] Object.refs

/-- Every reference of an object of the store is to an object of the store. -/
def Resolves (s : Store) : Prop := ∀ r, ∀ t ∈ s.refs r, s.Has t

/-- The objects that can be reached from `roots`, through references of any number of objects. -/
inductive Reach (s : Store) (roots : List Ref) : Ref → Prop where
  | root {r : Ref} : r ∈ roots → Reach s roots r
  | step {r t : Ref} : Reach s roots r → t ∈ s.refs r → Reach s roots t

/-- A set that holds the roots and whatever its members refer to holds what can be reached. -/
theorem Reach.subset {s : Store} {roots : List Ref} {P : Ref → Prop} (hroots : ∀ r ∈ roots, P r)
    (hstep : ∀ r, P r → ∀ t ∈ s.refs r, P t) {r : Ref} (h : Reach s roots r) : P r := by
  induction h with
  | root h => exact hroots _ h
  | step _ ht ih => exact hstep _ ih _ ht

theorem has_frame {s : Store} {e : Nat} : s.Has (.frame e) ↔ e < s.frames.size := by
  simp [Has, object?, frame?]

theorem has_array {s : Store} {a : Nat} : s.Has (.array a) ↔ a < s.arrays.size := by
  simp [Has, object?, array?]

theorem has_closure {s : Store} {f : Nat} : s.Has (.closure f) ↔ f < s.closures.size := by
  simp [Has, object?, closure?]

/-- A frame refers to what its bindings and its parent link refer to. -/
theorem mem_refs_frame {s : Store} {e : Nat} {f : Frame} (h : s.frame? e = some f) {r : Ref} :
    r ∈ s.refs (.frame e) ↔ r ∈ f.refs := by
  simp [refs, object?, h, Object.refs]

/-- An array refers to what its elements refer to. -/
theorem refs_array (s : Store) (a : Nat) :
    s.refs (.array a) = (s.elements a).toList.flatMap Value.refs := by
  unfold refs object? array? elements
  cases h : s.arrays[a]? <;> simp [Array.getD_eq_getD_getElem?, h, Object.refs]

/-- An array with an element is an array of the store: an index out of range reads as empty. -/
theorem array?_of_mem {s : Store} {a : Nat} {v : Value} (h : v ∈ s.elements a) :
    s.array? a = some (s.elements a) := by
  unfold array? elements at *
  cases hvs : s.arrays[a]? with
  | none => simp [Array.getD_eq_getD_getElem?, hvs] at h
  | some vs => simp [Array.getD_eq_getD_getElem?, hvs]

/-- A closure refers to its frame and to nothing else. -/
theorem mem_refs_closure {s : Store} {f : Nat} {c : Closure} (h : s.closure? f = some c) {r : Ref} :
    r ∈ s.refs (.closure f) ↔ r = .frame c.frame := by
  simp [refs, object?, h, Object.refs]

/-! ### Elements -/

/-- An array holds a value. -/
inductive Holds (s : Store) : Value → Value → Prop where
  | element {a : Nat} {v : Value} (h : v ∈ (s.elements a).toList) : Holds s (.array a) v

/-! ### Extension -/

/-- What no operation undoes: objects stay, and change only as objects can. -/
def Extends (s s' : Store) : Prop :=
  ∀ r x, s.object? r = some x → ∃ y, s'.object? r = some y ∧ x.Evolves y

theorem Extends.refl (s : Store) : s.Extends s := fun _ x h => ⟨x, h, .refl x⟩

theorem Extends.trans {s₁ s₂ s₃ : Store} (h₁ : s₁.Extends s₂) (h₂ : s₂.Extends s₃) :
    s₁.Extends s₃ := by
  intro r x hx
  obtain ⟨y, hy, hxy⟩ := h₁ r x hx
  obtain ⟨z, hz, hyz⟩ := h₂ r y hy
  exact ⟨z, hz, hxy.trans hyz⟩

/-- Objects never disappear from a store that is extended. -/
theorem Extends.has {s s' : Store} (h : s.Extends s') {r : Ref} (hr : s.Has r) : s'.Has r := by
  obtain ⟨x, hx⟩ := Option.isSome_iff_exists.mp hr
  obtain ⟨y, hy, -⟩ := h r x hx
  exact Option.isSome_iff_exists.mpr ⟨y, hy⟩

/-! ### Writing one object -/

/-- `s'` is `s` with the object at `o` changed or added; it refers to what it referred to before or
to something in `new`. -/
structure Writes (s s' : Store) (o : Ref) (new : List Ref) : Prop where
  others : ∀ r, r ≠ o → s'.object? r = s.object? r
  evolves : ∀ x, s.object? o = some x → ∃ y, s'.object? o = some y ∧ x.Evolves y
  refs : ∀ t ∈ s'.refs o, t ∈ s.refs o ∨ t ∈ new

namespace Writes

variable {s s' : Store} {o : Ref} {new : List Ref}

/-- A write to one object extends the store. -/
theorem toExtends (h : Writes s s' o new) : s.Extends s' := by
  intro r x hx
  by_cases hr : r = o
  · subst hr; exact h.evolves x hx
  · exact ⟨x, (h.others r hr).trans hx, .refl x⟩

/-- What an object refers to afterwards it referred to before, or it is new at the written one. -/
theorem mem_refs (h : Writes s s' o new) {r t : Ref} (ht : t ∈ s'.refs r) :
    t ∈ s.refs r ∨ (r = o ∧ t ∈ new) := by
  by_cases hr : r = o
  · subst hr
    rcases h.refs t ht with ht | ht
    · exact .inl ht
    · exact .inr ⟨rfl, ht⟩
  · exact .inl (by simpa only [Store.refs, h.others r hr] using ht)

/-- A write keeps every reference resolving if the references it brings in resolve. -/
theorem resolves (h : Writes s s' o new) (hs : s.Resolves) (hnew : ∀ t ∈ new, s.Has t) :
    s'.Resolves := by
  intro r t ht
  rcases h.mem_refs ht with ht | ⟨-, ht⟩
  · exact h.toExtends.has (hs r t ht)
  · exact h.toExtends.has (hnew t ht)

end Writes

/-- Modifying one frame is seen at that frame only. -/
theorem frame?_modify (s : Store) (e : Nat) (g : Frame → Frame) (x : Nat) :
    ({ s with frames := s.frames.modify e g } : Store).frame? x
      = if e = x then (s.frame? x).map g else s.frame? x :=
  Array.getElem?_modify ..

/-- Modifying one array is seen at that array only. -/
theorem array?_modify (s : Store) (a : Nat) (g : Array Value → Array Value) (x : Nat) :
    ({ s with arrays := s.arrays.modify a g } : Store).array? x
      = if a = x then (s.array? x).map g else s.array? x :=
  Array.getElem?_modify ..

/-- A frame that is changed, and whose parent is not. -/
theorem writes_modifyFrame (s : Store) (e : Nat) (g : Frame → Frame) {new : List Ref}
    (hparent : ∀ f, (g f).parent = f.parent) (hrefs : ∀ f, ∀ t ∈ (g f).refs, t ∈ f.refs ∨ t ∈ new) :
    Writes s { s with frames := s.frames.modify e g } (.frame e) new := by
  have hget := s.frame?_modify e g
  refine ⟨fun r hr => ?_, fun x hx => ?_, fun t ht => ?_⟩
  · cases r with
    | frame x =>
        have hx : e ≠ x := fun h => hr (h ▸ rfl)
        simp only [object?, hget, if_neg hx]
    | array _ | closure _ => rfl
  · simp only [object?, Option.map_eq_some_iff] at hx
    obtain ⟨f, hf, rfl⟩ := hx
    exact ⟨.frame (g f), by simp [object?, hget, hf], hparent f⟩
  · cases hf : s.frame? e with
    | none => simp [refs, object?, hget, hf] at ht
    | some f =>
        have ht' : t ∈ (g f).refs := by simpa [refs, object?, hget, hf, Object.refs] using ht
        rw [mem_refs_frame hf]
        exact hrefs f t ht'

/-- An array that is changed. -/
theorem writes_modifyArray (s : Store) (a : Nat) (g : Array Value → Array Value) {new : List Ref}
    (hrefs : ∀ vs, ∀ v ∈ g vs, v ∈ vs ∨ ∀ t ∈ v.refs, t ∈ new) :
    Writes s { s with arrays := s.arrays.modify a g } (.array a) new := by
  have hget := s.array?_modify a g
  refine ⟨fun r hr => ?_, fun x hx => ?_, fun t ht => ?_⟩
  · cases r with
    | array x =>
        have hx : a ≠ x := fun h => hr (h ▸ rfl)
        simp only [object?, hget, if_neg hx]
    | frame _ | closure _ => rfl
  · simp only [object?, Option.map_eq_some_iff] at hx
    obtain ⟨vs, hvs, rfl⟩ := hx
    exact ⟨.array (g vs), by simp [object?, hget, hvs], trivial⟩
  · cases hvs : s.array? a with
    | none => simp [refs, object?, hget, hvs] at ht
    | some vs =>
        have ht' : ∃ v ∈ g vs, t ∈ v.refs := by
          simpa [refs, object?, hget, hvs, Object.refs] using ht
        obtain ⟨v, hv, htv⟩ := ht'
        rcases hrefs vs v hv with h | h
        · exact .inl (by simpa [refs, object?, hvs, Object.refs] using ⟨v, h, htv⟩)
        · exact .inr (h t htv)

/-! ### The operations -/

/-- After a declaration, each binding is an old one or the declared one. -/
theorem mem_declareIn {b : Binding} {bs : List Binding} {x : Binding}
    (h : x ∈ Frame.declareIn b bs) : x ∈ bs ∨ x = b := by
  induction bs with
  | nil => exact .inr (List.mem_singleton.mp h)
  | cons a rest ih =>
      simp only [Frame.declareIn] at h
      split at h
      · rcases List.mem_cons.mp h with rfl | h
        · exact .inr rfl
        · exact .inl (List.mem_cons_of_mem _ h)
      · rcases List.mem_cons.mp h with rfl | h
        · exact .inl List.mem_cons_self
        · rcases ih h with h | h
          · exact .inl (List.mem_cons_of_mem _ h)
          · exact .inr h

/-- After an update, each binding is an old one or holds the new value. -/
theorem mem_updateIn {n : String} {v : Value} {bs : List Binding} {x : Binding}
    (h : x ∈ Frame.updateIn n v bs) : x ∈ bs ∨ x.value = v := by
  induction bs with
  | nil => exact absurd h (by simp [Frame.updateIn])
  | cons a rest ih =>
      simp only [Frame.updateIn] at h
      split at h
      · rcases List.mem_cons.mp h with rfl | h
        · exact .inr rfl
        · exact .inl (List.mem_cons_of_mem _ h)
      · rcases List.mem_cons.mp h with rfl | h
        · exact .inl List.mem_cons_self
        · rcases ih h with h | h
          · exact .inl (List.mem_cons_of_mem _ h)
          · exact .inr h

/-- A frame whose bindings hold what they held before or `v` refers to nothing else. -/
theorem mem_refs_of_bindings (f g : Frame) {v : Value} (hparent : g.parent = f.parent)
    (hval : ∀ b ∈ g.bindings, b ∈ f.bindings ∨ b.value = v) {t : Ref} (ht : t ∈ g.refs) :
    t ∈ f.refs ∨ t ∈ v.refs := by
  simp only [Frame.refs, hparent, List.mem_append, List.mem_flatMap] at ht ⊢
  rcases ht with ht | ⟨b, hb, ht⟩
  · exact .inl (.inl ht)
  · rcases hval b hb with hb | rfl
    · exact .inl (.inr ⟨b, hb, ht⟩)
    · exact .inr ht

/-- A declaration writes one frame, and brings in only the references of the declared value. -/
theorem writes_declare (s : Store) (e : Nat) (n : String) (v : Value) (m : Bool) :
    Writes s (s.declare e n v m) (.frame e) v.refs := by
  refine writes_modifyFrame s e _ (fun _ => rfl) fun f t ht => ?_
  refine mem_refs_of_bindings f (f.declare n v m) rfl (fun b hb => ?_) ht
  rcases mem_declareIn hb with hb | rfl
  · exact .inl hb
  · exact .inr rfl

/-- An assignment writes one frame, and brings in only the references of the assigned value. -/
theorem writes_update (s : Store) (e : Nat) (n : String) (v : Value) :
    Writes s (s.update e n v) (.frame e) v.refs :=
  writes_modifyFrame s e _ (fun _ => rfl)
    fun f _ ht => mem_refs_of_bindings f (f.update n v) rfl (fun _ hb => mem_updateIn hb) ht

/-- Appending to an array writes that array, and brings in only the references of the new element.
-/
theorem writes_push (s : Store) (a : Nat) (v : Value) :
    Writes s (s.push a v) (.array a) v.refs := by
  refine writes_modifyArray s a _ fun vs w hw => ?_
  rcases Array.mem_push.mp hw with hw | rfl
  · exact .inl hw
  · exact .inr fun _ ht => ht

theorem mem_of_mem_pop {vs : Array Value} {v : Value} (h : v ∈ vs.pop) : v ∈ vs := by
  rw [← Array.mem_toList_iff, Array.toList_pop] at h
  exact Array.mem_toList_iff.mp (List.dropLast_subset _ h)

/-- Removing the last element writes one array and brings in no reference. -/
theorem writes_pop (s : Store) (a : Nat) : Writes s (s.pop a) (.array a) [] :=
  writes_modifyArray s a _ fun _ _ hw => .inl (mem_of_mem_pop hw)

/-- Assigning an element writes one array, and brings in only the references of the new element. -/
theorem writes_setElement (s : Store) (a i : Nat) (v : Value) :
    Writes s (s.setElement a i v) (.array a) v.refs := by
  refine writes_modifyArray s a _ fun vs w hw => ?_
  rcases Array.mem_or_eq_of_mem_setIfInBounds hw with hw | rfl
  · exact .inl hw
  · exact .inr fun _ ht => ht

/-- A new frame is empty and stands after all others, which are as before. -/
theorem frame?_addFrame (s : Store) (p : Option Nat) (e : Nat) :
    (s.addFrame p).1.frame? e = if e = s.frames.size then some ⟨p, []⟩ else s.frame? e :=
  Array.getElem?_push

/-- A new array stands after all others, which are as before. -/
theorem array?_addArray (s : Store) (vs : Array Value) (a : Nat) :
    (s.addArray vs).1.array? a = if a = s.arrays.size then some vs else s.array? a :=
  Array.getElem?_push

/-- A new closure stands after all others, which are as before. -/
theorem closure?_addClosure (s : Store) (c : Closure) (f : Nat) :
    (s.addClosure c).1.closure? f = if f = s.closures.size then some c else s.closure? f :=
  Array.getElem?_push

/-- Adding a frame brings in the reference to its parent only. -/
theorem writes_addFrame (s : Store) (p : Option Nat) :
    Writes s (s.addFrame p).1 (.frame s.frames.size) (p.toList.map .frame) := by
  refine ⟨fun r hr => ?_, fun x hx => ?_, fun t ht => .inr ?_⟩
  · cases r with
    | frame e =>
        have he : e ≠ s.frames.size := fun h => hr (h ▸ rfl)
        simp only [object?, frame?_addFrame, if_neg he]
    | array _ | closure _ => rfl
  · simp [object?, frame?] at hx
  · simpa [refs, object?, frame?_addFrame, Object.refs, Frame.refs] using ht

/-- Adding an array brings in the references of its elements only. -/
theorem writes_addArray (s : Store) (vs : Array Value) :
    Writes s (s.addArray vs).1 (.array s.arrays.size) (vs.toList.flatMap Value.refs) := by
  refine ⟨fun r hr => ?_, fun x hx => ?_, fun t ht => .inr ?_⟩
  · cases r with
    | array a =>
        have ha : a ≠ s.arrays.size := fun h => hr (h ▸ rfl)
        simp only [object?, array?_addArray, if_neg ha]
    | frame _ | closure _ => rfl
  · simp [object?, array?] at hx
  · simpa [refs, object?, array?_addArray, Object.refs] using ht

/-- Adding a closure brings in the reference to its frame only. -/
theorem writes_addClosure (s : Store) (c : Closure) :
    Writes s (s.addClosure c).1 (.closure s.closures.size) [.frame c.frame] := by
  refine ⟨fun r hr => ?_, fun x hx => ?_, fun t ht => .inr ?_⟩
  · cases r with
    | closure f =>
        have hf : f ≠ s.closures.size := fun h => hr (h ▸ rfl)
        simp only [object?, closure?_addClosure, if_neg hf]
    | frame _ | array _ => rfl
  · simp [object?, closure?] at hx
  · simpa [refs, object?, closure?_addClosure, Object.refs] using ht

theorem has_addFrame (s : Store) (p : Option Nat) :
    (s.addFrame p).1.Has (.frame s.frames.size) := by
  simp [Has, object?, frame?_addFrame]

theorem has_addArray (s : Store) (vs : Array Value) :
    (s.addArray vs).1.Has (.array s.arrays.size) := by
  simp [Has, object?, array?_addArray]

theorem has_addClosure (s : Store) (c : Closure) :
    (s.addClosure c).1.Has (.closure s.closures.size) := by
  simp [Has, object?, closure?_addClosure]

/-! ### Looking up -/

/-- The frames of a chain can be reached from its start. -/
theorem reach_of_mem_chainFrom {s : Store} {steps e g : Nat} (h : g ∈ s.chainFrom steps e) :
    Reach s [.frame e] (.frame g) := by
  induction steps generalizing e with
  | zero => simp [chainFrom] at h
  | succ steps ih =>
      simp only [chainFrom] at h
      cases hf : s.frame? e with
      | none => simp [hf] at h
      | some f =>
          cases hp : f.parent with
          | none =>
              simp only [hf, hp, List.mem_singleton] at h
              exact h ▸ .root (List.mem_singleton.mpr rfl)
          | some p =>
              simp only [hf, hp, List.mem_cons] at h
              rcases h with rfl | h
              · exact .root (List.mem_singleton.mpr rfl)
              -- what the parent reaches is one step further away
              · refine (ih h).subset (fun r hr => ?_) fun _ hr _ ht => .step hr ht
                have hfp : r ∈ s.refs (.frame e) := by
                  rw [mem_refs_frame hf, List.mem_singleton.mp hr]
                  simp [Frame.refs, hp]
                exact .step (.root (List.mem_singleton.mpr rfl)) hfp

/-- The frame in which a name is found is reachable from the frame that looks it up. -/
theorem reach_of_find? {s : Store} {e g : Nat} {n : String} (h : s.find? e n = some g) :
    Reach s [.frame e] (.frame g) :=
  reach_of_mem_chainFrom (List.mem_of_find?_eq_some h)

/-- What a name is bound to, the innermost frame binding it holds. -/
theorem binding_of_lookup {s : Store} {e : Nat} {n : String} {v : Value}
    (h : s.lookup e n = .ok v) :
    ∃ g f b, s.find? e n = some g ∧ s.frame? g = some f ∧ b ∈ f.bindings ∧ b.value = v := by
  unfold lookup binding? at h
  cases hg : s.find? e n with
  | none => simp [hg] at h
  | some g =>
      cases hf : s.frame? g with
      | none => simp [hg, hf] at h
      | some f =>
          cases hb : f.get? n with
          | none => simp [hg, hf, hb] at h
          | some b =>
              have hv : b.value = v := by simpa [hg, hf, hb] using h
              exact ⟨g, f, b, rfl, hf, List.mem_of_find?_eq_some hb, hv⟩

/-- What a looked-up value refers to is reachable from the frame that looks it up. -/
theorem reach_of_lookup {s : Store} {e : Nat} {n : String} {v : Value}
    (h : s.lookup e n = .ok v) {r : Ref} (hr : r ∈ v.refs) : Reach s [.frame e] r := by
  obtain ⟨g, f, b, hg, hf, hb, rfl⟩ := binding_of_lookup h
  refine .step (reach_of_find? hg) ((mem_refs_frame hf).mpr ?_)
  exact List.mem_append_right _ (List.mem_flatMap.mpr ⟨b, hb, hr⟩)

/-- The frame an assignment goes to is the one where the name is found, and the binding there is
mutable. -/
theorem find?_of_assignable {s : Store} {e g : Nat} {n : String} (h : s.assignable e n = .ok g) :
    s.find? e n = some g ∧ ∃ f b, s.frame? g = some f ∧ f.get? n = some b ∧ b.mutable = true := by
  unfold assignable at h
  cases hg : s.find? e n with
  | none => simp [hg] at h
  | some k =>
      cases hf : s.frame? k with
      | none => simp [hg, hf] at h
      | some f =>
          cases hb : f.get? n with
          | none => simp [hg, hf, hb] at h
          | some b =>
              cases hm : b.mutable with
              | false => simp [hg, hf, hb, hm] at h
              | true =>
                  have hk : k = g := by simpa [hg, hf, hb, hm] using h
                  subst hk
                  exact ⟨rfl, f, b, hf, hb, hm⟩

end Store

end Ember
