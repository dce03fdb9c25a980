import Mathlib.Logic.Basic
import Ember.Proofs.Discipline.Eval

/-!
# Encapsulation — what a call can change

A call gets at the objects of the store through the function and its arguments, and through
nothing else. What cannot be reached from these is as it was when the call is over, and what can be
reached from its result, or from what it was given, either could be reached before or is new.

The proof follows the call with the set of objects that it may use: what could be reached before,
and every address that was not in use. That set is closed under the references of the store at any
time (`Store.Confined`).

* `call_encapsulated`: calls are encapsulated, whatever the function does and however it ends.
-/

namespace Ember

namespace Store

variable {s₀ s s' : Store} {P : Ref → Prop}

/-- The store `s` is `s₀` but for the objects in `P`, and these refer only to such. -/
structure Confined (s₀ : Store) (P : Ref → Prop) (s : Store) : Prop where
  resolves : s.Resolves
  stays : ∀ r, s₀.Has r → s.Has r
  outside : ∀ r, ¬ P r → s.object? r = s₀.object? r
  closed : ∀ r, P r → ∀ t ∈ s.refs r, P t

/-- A write inside `P` of references into `P`. -/
theorem Confined.write {o : Ref} {new : List Ref} (h : s₀.Confined P s) (hw : s.Writes s' o new)
    (ho : P o) (hnew : ∀ t ∈ new, P t ∧ s.Has t) : s₀.Confined P s' where
  resolves := hw.resolves h.resolves fun t ht => (hnew t ht).2
  stays r hr := hw.toExtends.has (h.stays r hr)
  outside r hr := (hw.others r fun hro => hr (hro ▸ ho)).trans (h.outside r hr)
  closed r hr t ht := by
    rcases hw.mem_refs ht with ht | ⟨-, ht⟩
    · exact h.closed r hr t ht
    · exact (hnew t ht).1

/-- What can be reached from objects in `P` is in `P`. -/
theorem Confined.reach {roots : List Ref} (h : s₀.Confined P s)
    (hroots : ∀ r ∈ roots, P r ∧ s.Has r) {r : Ref} (hr : s.Reach roots r) : P r ∧ s.Has r :=
  hr.subset hroots fun x hx t ht => ⟨h.closed x hx.1 t ht, h.resolves x t ht⟩

end Store

/-- What the value refers to is in `P` and in the store. -/
def Value.Within (P : Ref → Prop) (s : Store) (v : Value) : Prop := ∀ r ∈ v.refs, P r ∧ s.Has r

theorem Value.Plain.within {P : Ref → Prop} {s : Store} {v : Value} (h : v.Plain) :
    v.Within P s := by
  cases v with
  | unit | bool _ | int _ | float _ | str _ => exact fun r hr => absurd hr List.not_mem_nil
  | array _ | function _ | builtin _ _ | «foreign» _ _ | bare _ => exact h.elim

theorem Value.within_refs {P : Ref → Prop} {s : Store} {vs : List Value}
    (h : ∀ v ∈ vs, v.Within P s) : ∀ r ∈ vs.flatMap Value.refs, P r ∧ s.Has r := by
  intro r hr
  obtain ⟨v, hv, hr⟩ := List.mem_flatMap.mp hr
  exact h v hv r hr

/-- Only objects in `P` are used, where `P` has all addresses that `s₀` does not use. -/
def Discipline.confining (s₀ : Store) (P : Ref → Prop) (hP : ∀ r, ¬ s₀.Has r → P r) :
    Discipline where
  strict := False
  Inv := s₀.Confined P
  Good s v := v.Within P s
  Scope s e := P (.frame e) ∧ s.Has (.frame e)
  Local s e _ := P (.frame e) ∧ s.Has (.frame e)
  good_mono := fun hext h r hr => ⟨(h r hr).1, hext.has (h r hr).2⟩
  scope_mono := fun hext h => ⟨h.1, hext.has h.2⟩
  local_mono := fun hext h => ⟨h.1, hext.has h.2⟩
  good_plain := Value.Plain.within
  good_between := fun _ _ _ _ _ hr => absurd hr List.not_mem_nil
  good_length := fun _ _ hr => absurd hr List.not_mem_nil
  good_size := fun _ _ _ hr => absurd hr List.not_mem_nil
  good_lookup := by
    intro s e n v hs he hv r hr
    exact hs.reach (fun t ht => List.mem_singleton.mp ht ▸ he) (Store.reach_of_lookup hv hr)
  good_element := by
    intro s a v hs ha hv r hr
    have hmem : r ∈ s.refs (.array a) := by
      rw [Store.refs_array]
      exact List.mem_flatMap.mpr ⟨v, Array.mem_toList_iff.mpr hv, hr⟩
    exact hs.reach ha (.step (.root List.mem_cons_self) hmem)
  closure := by
    intro s f c hs hf hc
    have hmem : .frame c.frame ∈ s.refs (.closure f) := (Store.mem_refs_closure hc).mpr rfl
    exact ⟨hs.reach hf (.step (.root List.mem_cons_self) hmem), False.elim⟩
  addFrame := by
    intro s p hs hp
    have hnew : P (.frame s.frames.size) :=
      hP _ fun h => Nat.lt_irrefl _ (Store.has_frame.mp (hs.stays _ h))
    have hframe := And.intro hnew (Store.has_addFrame s (some p))
    refine ⟨hs.write (Store.writes_addFrame s (some p)) hnew fun t ht => ?_, hframe,
      fun _ => hframe⟩
    exact List.mem_singleton.mp ht ▸ hp
  addArray := by
    intro s vs hs hvs
    have hnew : P (.array s.arrays.size) :=
      hP _ fun h => Nat.lt_irrefl _ (Store.has_array.mp (hs.stays _ h))
    refine ⟨hs.write (Store.writes_addArray s vs) hnew
      (Value.within_refs fun v hv => hvs v (Array.mem_toList_iff.mp hv)), fun r hr => ?_⟩
    exact List.mem_singleton.mp hr ▸ ⟨hnew, Store.has_addArray s vs⟩
  addClosure := by
    intro s c hs hc _
    have hnew : P (.closure s.closures.size) :=
      hP _ fun h => Nat.lt_irrefl _ (Store.has_closure.mp (hs.stays _ h))
    refine ⟨hs.write (Store.writes_addClosure s c) hnew fun t ht => ?_, fun r hr => ?_⟩
    · exact List.mem_singleton.mp ht ▸ hc
    · exact List.mem_singleton.mp hr ▸ ⟨hnew, Store.has_addClosure s c⟩
  declare := fun hs he hv => hs.write (Store.writes_declare ..) he.1 hv
  update := by
    intro s e n v g hs he hv hg
    have hreach := Store.reach_of_find? (Store.find?_of_assignable hg).1
    have hgP := hs.reach (fun t ht => List.mem_singleton.mp ht ▸ he) hreach
    exact hs.write (Store.writes_update ..) hgP.1 hv
  push := fun hs ha hv => hs.write (Store.writes_push ..) (ha _ List.mem_cons_self).1 hv
  pop := fun hs ha => hs.write (Store.writes_pop ..) (ha _ List.mem_cons_self).1
    fun _ ht => absurd ht List.not_mem_nil
  setElement := fun hs ha hv => hs.write (Store.writes_setElement ..) (ha _ List.mem_cons_self).1 hv
  known := False.elim
  present := False.elim

/-! ### Calls -/

/-- **Calls are encapsulated.** However a call ends, it leaves every object as it was that cannot
be reached from the function and the arguments. Whatever can be reached afterwards from one that
can, or from the result, could be reached before or is new. -/
theorem call_encapsulated (cfg : Settings) (fuel : Nat) (m : Machine) (f : Value)
    (args : List Value) (hstore : m.store.Resolves)
    (hgiven : ∀ r ∈ (f :: args).flatMap Value.refs, m.store.Has r) :
    let Reached := m.store.Reach ((f :: args).flatMap Value.refs)
    let (result, m') := (applyFunction cfg fuel f args).run.run m
    (∀ r, m.store.Has r → ¬ Reached r → m'.store.object? r = m.store.object? r) ∧
    (∀ r t, Reached r → m'.store.Reach [r] t →
      Reached t ∨ ¬ m.store.Has t ∧ m'.store.Has t) ∧
    ∀ v t, result = .ok v → m'.store.Reach v.refs t →
      Reached t ∨ ¬ m.store.Has t ∧ m'.store.Has t := by
  intro Reached
  let P : Ref → Prop := fun r => Reached r ∨ ¬ m.store.Has r
  let D := Discipline.confining m.store P fun _ => .inr
  have hhas : ∀ {r}, Reached r → m.store.Has r := fun hr =>
    hr.subset hgiven fun x _ t ht => hstore x t ht
  have hgood : ∀ v ∈ f :: args, D.Good m.store v := fun v hv r hr =>
    have hmem := List.mem_flatMap.mpr ⟨v, hv, hr⟩
    ⟨.inl (.root hmem), hgiven r hmem⟩
  have hstart : D.Inv m.store := {
    resolves := hstore
    stays := fun _ hr => hr
    outside := fun _ _ => rfl
    closed := by
      intro r hr t ht
      rcases hr with hr | hr
      · exact .inl (.step hr ht)
      -- an address that is not in use refers to nothing
      · simp [Store.refs, Option.not_isSome_iff_eq_none.mp hr] at ht }
  have hrun : D.Holds m.store (applyFunction cfg fuel f args) D.Good :=
    (D.sound cfg fuel).applyFunction hstart (hgood f List.mem_cons_self)
      fun v hv => hgood v (List.mem_cons_of_mem _ hv)
  obtain ⟨hinv, hext⟩ := hrun.inv
  have hnew : ∀ {t}, P t ∧ ((applyFunction cfg fuel f args).run.run m).2.store.Has t →
      Reached t ∨ ¬ m.store.Has t ∧
        ((applyFunction cfg fuel f args).run.run m).2.store.Has t := by
    rintro t ⟨ht | ht, hthas⟩
    · exact .inl ht
    · exact .inr ⟨ht, hthas⟩
  refine ⟨fun r hr hout => hinv.outside r ?_, fun r t hr ht => ?_, fun v t hv ht => ?_⟩
  · exact not_or.mpr ⟨hout, not_not.mpr hr⟩
  · refine hnew (hinv.reach (fun x hx => ?_) ht)
    rw [List.mem_singleton.mp hx]
    exact ⟨.inl hr, hext.has (hhas hr)⟩
  · exact hnew (hinv.reach (hrun.of_ok hv) ht)

/-- A function that pushes to its argument gets one of two arrays; the other one, which a frame
refers to that the function does not see, is as it was. -/
theorem push_leaves_other_array :
    let push : Node := .exprStmt (.call (.identifier "push" none)
      [.identifier "xs" none, .literal (.int 1) .int none] none) none
    let s : Store := {
      frames := #[⟨none, [⟨"push", .builtin .push 0, false⟩]⟩, ⟨some 0, [⟨"ys", .array 0, false⟩]⟩]
      arrays := #[#[], #[]]
      closures := #[⟨none, ["xs"], .block [push] none, 0⟩] }
    let s' :=
      ((applyFunction ⟨10, false⟩ 9 (.function 0) [.array 1]).run.run ⟨s, "", "", 0⟩).2.store
    (s'.elements 1).size = 1 ∧ s'.object? (.array 0) = s.object? (.array 0) := by
  intro push s s'
  have hrefs : ∀ r, ∀ t ∈ s.refs r, t = .frame 0 ∨ r = .frame 1 ∧ t = .array 0 := by
    rintro ((_ | _ | e) | (_ | _ | a) | (_ | f)) t ht <;>
      simp_all [s, Store.refs, Store.object?, Store.frame?, Store.array?, Store.closure?,
        Object.refs, Frame.refs, Value.refs]
  have hstore : s.Resolves := fun r t ht => by
    rcases hrefs r t ht with rfl | ⟨-, rfl⟩ <;> rfl
  have hgiven : ∀ r ∈ [Value.function 0, .array 1].flatMap Value.refs, s.Has r := by
    simp [s, Value.refs, Store.has_closure, Store.has_array]
  refine ⟨by rfl, ?_⟩
  refine (call_encapsulated ⟨10, false⟩ 9 ⟨s, "", "", 0⟩ (.function 0) [.array 1] hstore hgiven).1
    (.array 0) rfl fun hreach => ?_
  -- neither the frame that refers to the array nor the array can be reached
  have hout : Ref.array 0 ≠ .frame 1 ∧ Ref.array 0 ≠ .array 0 := by
    refine hreach.subset (P := fun r => r ≠ .frame 1 ∧ r ≠ .array 0) ?_ fun r hr t ht => ?_
    · simp [Value.refs]
    · rcases hrefs r t ht with rfl | ⟨rfl, -⟩
      · simp
      · exact absurd rfl hr.1
  exact hout.2 rfl

end Ember
