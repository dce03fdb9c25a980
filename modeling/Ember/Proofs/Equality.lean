import Mathlib.Data.List.Perm.Subperm
import Mathlib.Data.List.ProdSigma
import Mathlib.Logic.Relation
import Ember.Eval
import Ember.Proofs.Decimal.Amount
import Ember.Proofs.Store.Reference

/-!
# Equality — the comparison of cyclic data

Arrays are compared by their elements, and they may contain themselves and each other. The
comparison keeps the pairs of arrays it is in the middle of: a pair that comes up again is taken to
be equal. It ends all the same, because no pair is ever there twice, and it finds out whether two
values can be told apart by going to elements of elements any number of times.

* `Store.Differ`, `Store.Apart`: values that differ at once, or after going to elements.
* `Store.Compares`: the comparison, without a bound on its steps.
* `Store.compares_equal`: it ends with what `Store.equal` says.
* `Store.equal_iff_never_apart`: values that are not apart, and no others, are equal.
-/

namespace Ember

open Relation (ReflTransGen)

namespace Store

variable {s : Store} {x y z u v : Value} {path : List Nat} {progress : List (Nat × Nat)}

/-! ### Differences -/

/-- What there is to a value before one looks at elements: the amount of a number, the size of an
array, which function it is. -/
inductive Face where
  | unit
  | bool (b : Bool)
  | number (amount : Option Amount)
  | text (t : String)
  | array (size : Nat)
  | function (address : Nat)
  | builtin (which : Builtin) (tag : Nat)
  | foreign
deriving DecidableEq

/-- The face of a value. -/
def face (s : Store) : Value → Face
  | .unit => .unit
  | .bool b => .bool b
  | .int i => .number (Value.int i).amount?
  | .float r => .number (Value.float r).amount?
  | .str t => .text t
  | .array a => .array (s.elements a).size
  | .function f => .function f
  | .builtin b tag => .builtin b tag
  | .foreign .. | .bare _ => .foreign

/-- The values differ at once: they are of different kinds, and not both numbers, or they are
different numbers, truth values or texts, arrays of different sizes, or not the same function. -/
def Differ (s : Store) (u v : Value) : Prop := s.face u ≠ s.face v

/-- What is found by going from a value to an element, to an element of that one, and so on. -/
def follow (s : Store) : Value → List Nat → Option Value
  | v, [] => some v
  | .array a, i :: path => (s.elements a)[i]?.bind fun v => s.follow v path
  | _, _ :: _ => none

/-- The indices lead from the two values to values that differ at once. -/
def Apart (s : Store) (path : List Nat) (x y : Value) : Prop :=
  ∃ u v, s.follow x path = some u ∧ s.follow y path = some v ∧ s.Differ u v

/-- From the value one can only get to values of the language, and to no NaN. -/
structure Ordinary (s : Store) (x : Value) : Prop where
  known : ∀ v, ReflTransGen s.Holds x v → v.kind?.isSome
  number : ∀ r, ReflTransGen s.Holds x (.float r) → r.isNaN = false

theorem Ordinary.element (h : s.Ordinary x) (hv : s.Holds x v) : s.Ordinary v where
  known w hw := h.known w (.head hv hw)
  number r hr := h.number r (.head hv hr)

theorem Ordinary.at {a i : Nat} (h : s.Ordinary (.array a)) (hv : (s.elements a)[i]? = some v) :
    s.Ordinary v :=
  h.element (.element (Array.mem_toList_iff.mpr (Array.mem_of_getElem? hv)))

theorem not_differ_self : ¬ s.Differ x x := fun h => h rfl

theorem Differ.symm (h : s.Differ x y) : s.Differ y x := fun heq => h (Eq.symm heq)

theorem apart_nil : s.Apart [] x y ↔ s.Differ x y := by
  simp [Apart, follow]

/-- A path that leads somewhere leads to an element first. -/
theorem follow_cons {i : Nat} (h : s.follow x (i :: path) = some u) :
    ∃ a v, x = .array a ∧ (s.elements a)[i]? = some v ∧ s.follow v path = some u := by
  cases x with
  | array a =>
      obtain ⟨v, hv, hu⟩ := Option.bind_eq_some_iff.mp h
      exact ⟨a, v, rfl, hv, hu⟩
  | _ => cases h

/-- Two arrays are apart along a path if elements at its first index are apart along the rest. -/
theorem apart_cons {a b i : Nat} : s.Apart (i :: path) (.array a) (.array b) ↔
    ∃ u v, (s.elements a)[i]? = some u ∧ (s.elements b)[i]? = some v ∧ s.Apart path u v := by
  constructor
  · rintro ⟨u, v, hu, hv, hdiffer⟩
    obtain ⟨_, u', ⟨⟩, hu', hu⟩ := follow_cons hu
    obtain ⟨_, v', ⟨⟩, hv', hv⟩ := follow_cons hv
    exact ⟨u', v', hu', hv', u, v, hu, hv, hdiffer⟩
  · rintro ⟨u', v', hu', hv', u, v, hu, hv, hdiffer⟩
    exact ⟨u, v, by rw [follow, hu', Option.bind_some, hu],
      by rw [follow, hv', Option.bind_some, hv], hdiffer⟩

theorem Apart.symm (h : s.Apart path x y) : s.Apart path y x := by
  obtain ⟨u, v, hu, hv, hdiffer⟩ := h
  exact ⟨v, u, hv, hu, hdiffer.symm⟩

/-- No value is apart from itself. -/
theorem not_apart_self : ¬ s.Apart path x x := by
  rintro ⟨u, v, hu, hv, hdiffer⟩
  cases hu.symm.trans hv
  exact not_differ_self hdiffer

/-- Values with the face of an array are arrays. -/
theorem eq_array_of_face {n : Nat} (h : s.face x = .array n) :
    ∃ a, x = .array a ∧ (s.elements a).size = n := by
  cases x with
  | array a => exact ⟨a, rfl, Face.array.inj h⟩
  | _ => cases h

/-- Values are not apart if the same faces are found at the same places. -/
theorem never_apart_iff : (∀ path, ¬ s.Apart path x y) ↔
    ∀ path, (s.follow x path).map s.face = (s.follow y path).map s.face := by
  constructor
  · intro h path
    induction path generalizing x y with
    | nil => exact congrArg some (not_not.mp (mt apart_nil.mpr (h [])))
    | cons i path ih =>
        have hface : s.face x = s.face y := not_not.mp (mt apart_nil.mpr (h []))
        by_cases harray : ∃ n, s.face x = .array n
        · obtain ⟨n, hn⟩ := harray
          obtain ⟨a, rfl, ha⟩ := eq_array_of_face hn
          obtain ⟨b, rfl, hb⟩ := eq_array_of_face (hface.symm.trans hn)
          rw [follow, follow]
          by_cases hi : i < n
          · have hu := Array.getElem?_eq_getElem (ha ▸ hi : i < (s.elements a).size)
            have hv := Array.getElem?_eq_getElem (hb ▸ hi : i < (s.elements b).size)
            rw [hu, hv]
            exact ih fun path happ => h (i :: path) (apart_cons.mpr ⟨_, _, hu, hv, happ⟩)
          · rw [Array.getElem?_eq_none (by omega), Array.getElem?_eq_none (by omega)]
        · have hnone : ∀ {v : Value}, s.face v = s.face x → s.follow v (i :: path) = none := by
            intro v hv
            by_contra hsome
            obtain ⟨u, hu⟩ := Option.ne_none_iff_exists'.mp hsome
            obtain ⟨a, _, rfl, -, -⟩ := follow_cons hu
            exact harray ⟨_, hv.symm⟩
          rw [hnone rfl, hnone hface.symm]
  · rintro h path ⟨u, v, hu, hv, hdiffer⟩
    have hsame := h path
    rw [hu, hv] at hsame
    exact hdiffer (Option.some.inj hsame)

/-! ### The comparison -/

/-- The elements of two arrays, side by side. -/
def pairs (s : Store) (a b : Nat) : List (Value × Value) :=
  (s.elements a).toList.zip (s.elements b).toList

/-- The comparison of two values while the pairs of arrays in `progress` are being compared, and
what it ends with. -/
inductive Compares (s : Store) : (progress : List (Nat × Nat)) → Value → Value → Bool → Prop where
  | scalars {progress : List (Nat × Nat)} {x y : Value} (h : ¬ ∃ a b, x = .array a ∧ y = .array b) :
      Compares s progress x y (equalScalars x y)
  | same {progress : List (Nat × Nat)} {a : Nat} : Compares s progress (.array a) (.array a) true
  | sizes {progress : List (Nat × Nat)} {a b : Nat} (hne : a ≠ b)
      (hsize : (s.elements a).size ≠ (s.elements b).size) :
      Compares s progress (.array a) (.array b) false
  | again {progress : List (Nat × Nat)} {a b : Nat} (hne : a ≠ b)
      (hsize : (s.elements a).size = (s.elements b).size) (hmem : (a, b) ∈ progress) :
      Compares s progress (.array a) (.array b) true
  | elements {progress : List (Nat × Nat)} {a b : Nat} (hne : a ≠ b)
      (hsize : (s.elements a).size = (s.elements b).size) (hnew : (a, b) ∉ progress)
      (h : ∀ p ∈ s.pairs a b, Compares s ((a, b) :: progress) p.1 p.2 true) :
      Compares s progress (.array a) (.array b) true
  | element {progress : List (Nat × Nat)} {a b i : Nat} {p : Value × Value} (hne : a ≠ b)
      (hsize : (s.elements a).size = (s.elements b).size) (hnew : (a, b) ∉ progress)
      (hi : (s.pairs a b)[i]? = some p)
      (hbefore : ∀ q ∈ (s.pairs a b).take i, Compares s ((a, b) :: progress) q.1 q.2 true)
      (h : Compares s ((a, b) :: progress) p.1 p.2 false) :
      Compares s progress (.array a) (.array b) false

/-- A comparison ends with one thing only. -/
theorem Compares.unique {b c : Bool} (h : s.Compares progress x y b)
    (h' : s.Compares progress x y c) : b = c := by
  induction h generalizing c with
  | scalars h =>
      cases h' with
      | scalars => rfl
      | _ => exact absurd ⟨_, _, rfl, rfl⟩ h
  | same =>
      cases h' with
      | scalars h => exact absurd ⟨_, _, rfl, rfl⟩ h
      | same => rfl
      | sizes hne | again hne | elements hne | element hne => exact absurd rfl hne
  | sizes hne hsize =>
      cases h' with
      | scalars h => exact absurd ⟨_, _, rfl, rfl⟩ h
      | same => exact absurd rfl hne
      | sizes => rfl
      | again _ hsize' | elements _ hsize' | element _ hsize' => exact absurd hsize' hsize
  | again hne hsize hmem =>
      cases h' with
      | scalars h => exact absurd ⟨_, _, rfl, rfl⟩ h
      | same | again => rfl
      | sizes _ hsize' => exact absurd hsize hsize'
      | elements _ _ hnew | element _ _ hnew => exact absurd hmem hnew
  | elements hne hsize hnew h ih =>
      cases h' with
      | scalars h => exact absurd ⟨_, _, rfl, rfl⟩ h
      | same | again | elements => rfl
      | sizes _ hsize' => exact absurd hsize hsize'
      | element _ _ _ hi _ hp => exact ih _ (List.mem_of_getElem? hi) hp
  | element hne hsize hnew hi hbefore h _ ih =>
      cases h' with
      | scalars h => exact absurd ⟨_, _, rfl, rfl⟩ h
      | same => exact absurd rfl hne
      | sizes | element => rfl
      | again _ _ hmem => exact absurd hmem hnew
      | elements _ _ _ hall => exact ih (hall _ (List.mem_of_getElem? hi))

/-- The pairs of arrays that are being compared: arrays of the store, and no pair twice. -/
structure Progress (s : Store) (progress : List (Nat × Nat)) : Prop where
  nodup : progress.Nodup
  present : ∀ p ∈ progress, p.1 < s.arrays.size ∧ p.2 < s.arrays.size

/-- There are not more such pairs than pairs of arrays. -/
theorem Progress.length_le (h : s.Progress progress) :
    progress.length ≤ s.arrays.size * s.arrays.size := by
  have hsub : progress ⊆ List.range s.arrays.size ×ˢ List.range s.arrays.size := fun p hp =>
    have ⟨hleft, hright⟩ := h.present p hp
    List.mem_product.mpr ⟨List.mem_range.mpr hleft, List.mem_range.mpr hright⟩
  simpa [List.length_product] using (h.nodup.subperm hsub).length_le

/-- A pair of arrays that is new may be added to the pairs in progress. -/
theorem Progress.cons {a b : Nat} (h : s.Progress progress) (hnew : (a, b) ∉ progress)
    (ha : a < s.arrays.size) (hb : b < s.arrays.size) : s.Progress ((a, b) :: progress) where
  nodup := List.nodup_cons.mpr ⟨hnew, h.nodup⟩
  present := List.forall_mem_cons.mpr ⟨⟨ha, hb⟩, h.present⟩

/-- Where there are elements there is an array. -/
theorem lt_size_of_mem {a : Nat} (h : v ∈ (s.elements a).toList) : a < s.arrays.size := by
  by_contra hout
  rw [elements, Array.getD_eq_getD_getElem?, Array.getElem?_eq_none (by omega)] at h
  simp at h

theorem present_of_mem_pairs {a b : Nat} {p : Value × Value} (h : p ∈ s.pairs a b) :
    a < s.arrays.size ∧ b < s.arrays.size :=
  ⟨lt_size_of_mem (List.of_mem_zip h).1, lt_size_of_mem (List.of_mem_zip h).2⟩

theorem getElem?_of_pairs {a b i : Nat} {p : Value × Value} (h : (s.pairs a b)[i]? = some p) :
    (s.elements a)[i]? = some p.1 ∧ (s.elements b)[i]? = some p.2 := by
  simpa [pairs] using List.getElem?_zip_eq_some.mp h

/-- Elements at the same position are one of the pairs to compare. -/
theorem mem_pairs {a b i : Nat} (hu : (s.elements a)[i]? = some u)
    (hv : (s.elements b)[i]? = some v) : (u, v) ∈ s.pairs a b := by
  have hi : (s.pairs a b)[i]? = some (u, v) :=
    List.getElem?_zip_eq_some.mpr ⟨by simpa using hu, by simpa using hv⟩
  exact List.mem_of_getElem? hi

/-- Of things that are not all right, one is the first. -/
theorem exists_first {α : Type} {f : α → Bool} {xs : List α} (h : ¬ xs.all f = true) :
    ∃ i x, xs[i]? = some x ∧ f x = false ∧ ∀ y ∈ xs.take i, f y = true := by
  induction xs with
  | nil => exact absurd rfl h
  | cons x xs ih =>
      cases hx : f x with
      | false => exact ⟨0, x, rfl, hx, by simp⟩
      | true =>
          obtain ⟨i, y, hi, hy, hbefore⟩ := ih (by simpa [hx] using h)
          exact ⟨i + 1, y, hi, hy, by simpa [hx] using hbefore⟩

/-- Only two arrays that are compared for the first time take steps. -/
theorem compares_unless_new {steps : Nat}
    (h : ∀ a b, x = .array a → y = .array b → a ≠ b → (s.elements a).size = (s.elements b).size →
      (a, b) ∉ progress → s.Compares progress x y (s.equalAt steps progress x y)) :
    s.Compares progress x y (s.equalAt steps progress x y) := by
  by_cases harrays : ∃ a b, x = .array a ∧ y = .array b
  · obtain ⟨a, b, rfl, rfl⟩ := harrays
    by_cases hne : a = b
    · rw [hne, equalAt, if_pos rfl]
      exact .same
    · by_cases hsize : (s.elements a).size = (s.elements b).size
      · by_cases hmem : (a, b) ∈ progress
        · rw [equalAt, if_neg hne, if_neg (not_not.mpr hsize), if_pos hmem]
          exact .again hne hsize hmem
        · exact h a b rfl rfl hne hsize hmem
      · rw [equalAt, if_neg hne, if_pos hsize]
        exact .sizes hne hsize
  · have hscalars : s.equalAt steps progress x y = equalScalars x y := by
      unfold equalAt
      split
      · exact absurd ⟨_, _, rfl, rfl⟩ harrays
      · rfl
    rw [hscalars]
    exact .scalars harrays

/-- **The comparison ends**, with what is computed in bounded steps. -/
theorem compares_equalAt {steps : Nat} (hprogress : s.Progress progress)
    (hsteps : s.arrays.size * s.arrays.size ≤ steps + progress.length) (x y : Value) :
    s.Compares progress x y (s.equalAt steps progress x y) := by
  -- by induction on the steps; each pair in progress has taken one, so one is left for another
  induction steps generalizing progress x y with
  | zero =>
      refine compares_unless_new fun a b hx hy hne hsize hnew => ?_
      subst hx hy
      rw [equalAt, if_neg hne, if_neg (not_not.mpr hsize), if_neg hnew]
      refine .elements hne hsize hnew fun p hp => ?_
      obtain ⟨ha, hb⟩ := present_of_mem_pairs hp
      have hlength := (hprogress.cons hnew ha hb).length_le
      rw [List.length_cons] at hlength
      omega
  | succ steps ih =>
      refine compares_unless_new fun a b hx hy hne hsize hnew => ?_
      subst hx hy
      have hrun : s.equalAt (steps + 1) progress (.array a) (.array b)
          = (s.pairs a b).all fun p => s.equalAt steps ((a, b) :: progress) p.1 p.2 := by
        rw [equalAt, if_neg hne, if_neg (not_not.mpr hsize), if_neg hnew]
        rfl
      have helement : ∀ p ∈ s.pairs a b, s.Compares ((a, b) :: progress) p.1 p.2
          (s.equalAt steps ((a, b) :: progress) p.1 p.2) := by
        intro p hp
        obtain ⟨ha, hb⟩ := present_of_mem_pairs hp
        exact ih (hprogress.cons hnew ha hb) (by rw [List.length_cons]; omega) p.1 p.2
      rw [hrun]
      by_cases hall : ((s.pairs a b).all fun p =>
          s.equalAt steps ((a, b) :: progress) p.1 p.2) = true
      · rw [hall]
        refine .elements hne hsize hnew fun p hp => ?_
        rw [← List.all_eq_true.mp hall p hp]
        exact helement p hp
      · rw [Bool.not_eq_true] at hall
        obtain ⟨i, p, hi, hp, hbefore⟩ := exists_first (by rw [hall]; exact Bool.false_ne_true)
        rw [hall]
        refine .element hne hsize hnew hi (fun q hq => ?_) ?_
        · rw [← hbefore q hq]
          exact helement q (List.mem_of_mem_take hq)
        · rw [← hp]
          exact helement p (List.mem_of_getElem? hi)

/-- The comparison of two values ends, with whether they are equal. -/
theorem compares_equal (s : Store) (x y : Value) : s.Compares [] x y (s.equal x y) :=
  compares_equalAt ⟨List.nodup_nil, nofun⟩ (by simp) x y

/-! ### What the comparison finds -/

theorem face_of_isNumber (h : x.isNumber = true) : s.face x = .number x.amount? := by
  cases x <;> first | rfl | cases h

/-- An ordinary number stands for something. -/
theorem Ordinary.exists_amount (hx : s.Ordinary x) (h : x.isNumber = true) :
    ∃ q, x.amount? = some q := by
  cases x with
  | int i => exact ⟨_, rfl⟩
  | float r => exact ⟨_, Decimal.amount?_eq_some (hx.number r .refl)⟩
  | _ => cases h

/-- Numbers are equal for the program exactly when their faces are, whatever kind of number they
are. -/
theorem equalScalars_numbers (hx : s.Ordinary x) (hnumx : x.isNumber = true)
    (hnumy : y.isNumber = true) : equalScalars x y = true ↔ s.face x = s.face y := by
  have hcompare : equalScalars x y = true ↔ compareNumbers x y = some .eq := by
    cases x <;> cases y <;> first | exact beq_iff_eq | cases hnumx
  rw [hcompare, compareNumbers_iff_amount, face_of_isNumber hnumx, face_of_isNumber hnumy,
    Face.number.injEq]
  constructor
  · rintro ⟨q, hq, hq'⟩
    exact hq.trans hq'.symm
  · intro heq
    obtain ⟨q, hq⟩ := hx.exists_amount hnumx
    exact ⟨q, hq, heq ▸ hq⟩

/-- Values that are not both arrays are equal if they have the same face. -/
theorem equalScalars_iff (hx : s.Ordinary x) (hy : s.Ordinary y)
    (harrays : ¬ ∃ a b, x = .array a ∧ y = .array b) :
    equalScalars x y = true ↔ s.face x = s.face y := by
  by_cases hnumbers : x.isNumber = true ∧ y.isNumber = true
  · exact equalScalars_numbers hx hnumbers.1 hnumbers.2
  · have hknown := hx.known x .refl
    cases x <;> cases y <;>
      first
        | exact absurd ⟨_, _, rfl, rfl⟩ harrays
        | exact absurd ⟨rfl, rfl⟩ hnumbers
        | exact absurd hknown Bool.false_ne_true
        | simp [equalScalars, compareNumbers, face]

/-- What ends with a difference has found one. -/
theorem Compares.exists_apart {b : Bool} (h : s.Compares progress x y b) (hb : b = false)
    (hx : s.Ordinary x) (hy : s.Ordinary y) : ∃ path, s.Apart path x y := by
  induction h with
  | scalars harrays =>
      exact ⟨[], apart_nil.mpr (mt (equalScalars_iff hx hy harrays).mpr (by rw [hb]; decide))⟩
  | sizes hne hsize => exact ⟨[], apart_nil.mpr fun hface => hsize (Face.array.inj hface)⟩
  | same | again | elements => cases hb
  | @element progress a b i p hne hsize hnew hi hbefore h _ ih =>
      obtain ⟨hu, hv⟩ := getElem?_of_pairs hi
      obtain ⟨path, hapart⟩ := ih hb (hx.at hu) (hy.at hv)
      exact ⟨i :: path, apart_cons.mpr ⟨_, _, hu, hv, hapart⟩⟩

/-- A difference that was not found lies below a pair that was in progress, and no farther away. -/
theorem Compares.exists_progress {b : Bool} (h : s.Compares progress x y b) (hb : b = true)
    (hx : s.Ordinary x) (hy : s.Ordinary y) (hapart : s.Apart path x y) :
    ∃ p ∈ progress, ∃ path', path'.length ≤ path.length ∧
      s.Apart path' (.array p.1) (.array p.2) := by
  induction h generalizing path with
  | scalars harrays =>
      cases path with
      | nil => exact absurd ((equalScalars_iff hx hy harrays).mp hb) (apart_nil.mp hapart)
      | cons i path =>
          obtain ⟨u, v, hu, hv, -⟩ := hapart
          obtain ⟨a, -, hxa, -⟩ := follow_cons hu
          obtain ⟨b, -, hyb, -⟩ := follow_cons hv
          exact absurd ⟨a, b, hxa, hyb⟩ harrays
  | same => exact absurd hapart not_apart_self
  | sizes | element => cases hb
  | again hne hsize hmem => exact ⟨_, hmem, path, le_refl _, hapart⟩
  | @elements progress a b hne hsize hnew h ih =>
      -- a difference below the new pair is nearer than the given one, so by induction on how far
      -- it is away there is one below an older pair
      induction hn : path.length using Nat.strong_induction_on generalizing path with
      | _ n ihn =>
          cases path with
          | nil => exact absurd (congrArg Face.array hsize) (apart_nil.mp hapart)
          | cons i path =>
              obtain ⟨u, v, hu, hv, hbelow⟩ := apart_cons.mp hapart
              obtain ⟨p, hp, path', hlength, happ⟩ :=
                ih (u, v) (mem_pairs hu hv) rfl (hx.at hu) (hy.at hv) hbelow
              rw [List.length_cons] at hn
              rcases List.mem_cons.mp hp with rfl | hp
              · obtain ⟨q, hq, path'', hlength', hq'⟩ := ihn path'.length (by omega) happ rfl
                exact ⟨q, hq, path'', by omega, hq'⟩
              · exact ⟨p, hp, path', by omega, happ⟩

/-- **Equality is not to be told apart.** -/
theorem equal_iff_never_apart (hx : s.Ordinary x) (hy : s.Ordinary y) :
    s.equal x y = true ↔ ∀ path, ¬ s.Apart path x y := by
  have hcompares := s.compares_equal x y
  constructor
  · intro hequal path hapart
    obtain ⟨p, hp, -⟩ := hcompares.exists_progress hequal hx hy hapart
    cases hp
  · intro hnever
    by_contra hdiffer
    rw [Bool.not_eq_true] at hdiffer
    obtain ⟨path, hapart⟩ := hcompares.exists_apart hdiffer hx hy
    exact hnever path hapart

/-- **Equality of cyclic data.** Whichever arrays contain themselves and each other, the comparison
of two values ends, and in one way only; `==` gives what it ends with, and `!=` the opposite. Where
no NaN can be reached, values are equal if and only if no indices lead from them to values that
differ at once. So equality is reflexive, symmetric and transitive there. -/
theorem equality_of_cyclic_data (s : Store) :
    (∀ x y, (∀ b, s.Compares [] x y b ↔ b = s.equal x y) ∧
      (binaryOperator? "==").map (fun op => op s x y) = some (.ok (.bool (s.equal x y))) ∧
      (binaryOperator? "!=").map (fun op => op s x y) = some (.ok (.bool !(s.equal x y)))) ∧
    (∀ x y, s.Ordinary x → s.Ordinary y →
      (s.equal x y = true ↔ ¬ ∃ path, s.Apart path x y)) ∧
    Equivalence fun x y : { v : Value // s.Ordinary v } => s.equal x y = true := by
  refine ⟨fun x y => ⟨fun b => ⟨fun h => h.unique (s.compares_equal x y), ?_⟩, rfl, rfl⟩,
    fun x y hx hy => (equal_iff_never_apart hx hy).trans not_exists.symm, ⟨?_, ?_, ?_⟩⟩
  · rintro rfl
    exact s.compares_equal x y
  · exact fun x => (equal_iff_never_apart x.2 x.2).mpr fun path => not_apart_self
  · intro x y h
    have hnever := (equal_iff_never_apart x.2 y.2).mp h
    exact (equal_iff_never_apart y.2 x.2).mpr fun path hapart => hnever path hapart.symm
  · intro x y z hxy hyz
    have hfaces := never_apart_iff.mp ((equal_iff_never_apart x.2 y.2).mp hxy)
    have hfaces' := never_apart_iff.mp ((equal_iff_never_apart y.2 z.2).mp hyz)
    exact (equal_iff_never_apart x.2 z.2).mpr
      (never_apart_iff.mpr fun path => (hfaces path).trans (hfaces' path))

/-- An array that contains `1` and itself, and two that contain `1` and each other. -/
def cycles : Store :=
  ⟨#[], #[#[.int 1, .array 0], #[.int 1, .array 2], #[.float 1.0, .array 1]], #[]⟩

theorem ordinary_cycles {a : Nat} (ha : a < 3) : cycles.Ordinary (.array a) := by
  have hreach : ∀ v, ReflTransGen cycles.Holds (.array a) v →
      v = .int 1 ∨ v = .float 1.0 ∨ ∃ b < 3, v = .array b := by
    intro v hv
    induction hv with
    | refl => exact .inr (.inr ⟨a, ha, rfl⟩)
    | @tail v w _ hholds ih =>
        obtain @⟨b, w, hw⟩ := hholds
        obtain ⟨c, hc, ⟨⟩⟩ : ∃ c < 3, Value.array b = .array c := by simpa using ih
        have hb : b = 0 ∨ b = 1 ∨ b = 2 := by omega
        obtain rfl | rfl | rfl := hb
        · obtain rfl | rfl : w = .int 1 ∨ w = .array 0 := by simpa [cycles, elements] using hw
          · exact .inl rfl
          · exact .inr (.inr ⟨0, by decide, rfl⟩)
        · obtain rfl | rfl : w = .int 1 ∨ w = .array 2 := by simpa [cycles, elements] using hw
          · exact .inl rfl
          · exact .inr (.inr ⟨2, by decide, rfl⟩)
        · obtain rfl | rfl : w = .float 1.0 ∨ w = .array 1 := by simpa [cycles, elements] using hw
          · exact .inr (.inl rfl)
          · exact .inr (.inr ⟨1, by decide, rfl⟩)
  have hone : (1.0 : Float).isNaN = false := by decide
  refine ⟨fun v hv => ?_, fun r hr => ?_⟩
  · rcases hreach v hv with rfl | rfl | ⟨b, -, rfl⟩ <;> rfl
  · obtain ⟨⟩ : r = 1.0 := by simpa using hreach _ hr
    exact hone

/-- Cycles of different lengths with the same contents are equal, and nothing tells them apart. -/
theorem cycles_equal : cycles.Ordinary (.array 0) ∧ cycles.Ordinary (.array 1) ∧
    cycles.equal (.array 0) (.array 1) = true ∧
    ¬ ∃ path, cycles.Apart path (.array 0) (.array 1) := by
  have hequal : cycles.equal (.array 0) (.array 1) = true := by decide
  have hzero := ordinary_cycles (a := 0) (by decide)
  have hone := ordinary_cycles (a := 1) (by decide)
  exact ⟨hzero, hone, hequal, ((equality_of_cyclic_data cycles).2.1 _ _ hzero hone).mp hequal⟩

end Store

end Ember
