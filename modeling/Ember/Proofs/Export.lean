import Mathlib.Data.Finset.Filter
import Mathlib.Logic.Equiv.Basic
import Ember.Proofs.Equality
import Ember.Store.Export

/-!
# Export — plain data mirrors values

An array that leaves the language becomes a list, which is made before it is filled: its elements
may lead back to the array, and then they find the list. The conversion ends whatever the arrays
contain, and what it makes has the shape of what it is made from: arrays and lists correspond to
each other one to one, and everything else stands at the same positions as before.

* `Store.Converts`: the conversion of values one after the other, without a bound on its steps.
* `Store.Exports.Grows`, `Store.Exports.Numbered`: what it keeps while lists are still being filled.
* `Store.Converts.finished`: what it has filled when it ends.
* `Store.Mirrors`: arrays and lists correspond to each other.
* `Store.exportValue_mirrors`: the conversion ends, and its result mirrors the value.
-/

namespace Ember

open Relation (ReflTransGen)

namespace Store

variable {s : Store} {v w : Value} {vs : List Value} {e : Exported} {es items : List Exported}
  {x y z : Exports} {a b m n : Nat}

/-! ### Lists that are made and filled -/

namespace Exports

/-- Reserving a list for an array is seen at that array only. -/
theorem number?_reserve (x : Exports) (a b : Nat) :
    (x.reserve a).1.number? b = if a = b then some x.lists.size else x.number? b := by
  rw [reserve, number?, List.find?_cons]
  by_cases h : a = b
  · simp [h]
  · have hbeq : (a == b) = false := beq_eq_false_iff_ne.mpr h
    rw [if_neg h, hbeq]
    rfl

@[simp] theorem size_fill (x : Exports) (n : Nat) (items : List Exported) :
    (x.fill n items).lists.size = x.lists.size := Array.size_setIfInBounds

@[simp] theorem size_reserve (x : Exports) (a : Nat) :
    (x.reserve a).1.lists.size = x.lists.size + 1 := Array.size_push _

/-- A list that was made for an array has nothing in it yet. -/
theorem fill_reserve_nil (x : Exports) (a : Nat) :
    (x.reserve a).1.fill (x.reserve a).2 [] = (x.reserve a).1 := by
  have hlists : (x.lists.push #[]).setIfInBounds x.lists.size #[] = x.lists.push #[] := by
    refine Array.ext (by simp) fun i hi hi' => ?_
    rw [Array.getElem_setIfInBounds hi']
    split
    · subst i
      simp
    · rfl
  exact congrArg (Exports.mk · _) hlists

/-- From the first state on, lists have been made and filled, but none that was there already. -/
structure Grows (x y : Exports) : Prop where
  number : ∀ {a n}, x.number? a = some n → y.number? a = some n
  size : x.lists.size ≤ y.lists.size
  kept : ∀ {n}, n < x.lists.size → y.lists[n]? = x.lists[n]?

theorem Grows.refl (x : Exports) : x.Grows x := ⟨id, le_refl _, fun _ => rfl⟩

theorem Grows.trans (h : x.Grows y) (h' : y.Grows z) : x.Grows z where
  number ha := h'.number (h.number ha)
  size := h.size.trans h'.size
  kept hn := (h'.kept (hn.trans_le h.size)).trans (h.kept hn)

/-- A reserved list comes after all others. -/
theorem grows_reserve (h : x.number? a = none) : x.Grows (x.reserve a).1 where
  number {b n} hb := by
    have hne : a ≠ b := by
      rintro rfl
      cases h.symm.trans hb
    rw [number?_reserve, if_neg hne, hb]
  size := by simp
  kept hn := (Array.getElem?_push_lt hn).trans (Array.getElem?_eq_getElem hn).symm

/-- Filling a list made since leaves the earlier lists as they were. -/
theorem Grows.fill (h : x.Grows y) (hn : x.lists.size ≤ n) (items : List Exported) :
    x.Grows (y.fill n items) where
  number := h.number
  size := by simpa using h.size
  kept hm := (Array.getElem?_setIfInBounds_ne (by omega)).trans (h.kept hm)

/-- The lists from `base` on have been made for arrays, one list for each array. -/
structure Numbered (base : Nat) (x : Exports) : Prop where
  bounds : ∀ {a n}, x.number? a = some n → base ≤ n ∧ n < x.lists.size
  injective : ∀ {a b n}, x.number? a = some n → x.number? b = some n → a = b
  onto : ∀ {n}, base ≤ n → n < x.lists.size → ∃ a, x.number? a = some n

variable {base : Nat}

/-- Filling a list does not change which list belongs to which array. -/
theorem Numbered.fill (h : x.Numbered base) (n : Nat) (items : List Exported) :
    (x.fill n items).Numbered base where
  bounds ha := by simpa using h.bounds ha
  injective := h.injective
  onto hn hlt := h.onto hn (by simpa using hlt)

/-- Each array still has a list of its own after one is reserved for a new array. -/
theorem Numbered.reserve (h : x.Numbered base) (hbase : base ≤ x.lists.size)
    (ha : x.number? a = none) : (x.reserve a).1.Numbered base where
  bounds {b n} hb := by
    rw [number?_reserve] at hb
    rw [size_reserve]
    split at hb
    · cases hb
      omega
    · have := h.bounds hb
      omega
  injective {b c n} hb hc := by
    rw [number?_reserve] at hb hc
    split at hb <;> split at hc
    · omega
    · cases hb
      exact absurd (h.bounds hc).2 (lt_irrefl _)
    · cases hc
      exact absurd (h.bounds hb).2 (lt_irrefl _)
    · exact h.injective hb hc
  onto {n} hn hlt := by
    rw [size_reserve] at hlt
    by_cases hlast : n = x.lists.size
    · exact ⟨a, by rw [number?_reserve, if_pos rfl, hlast]⟩
    · obtain ⟨b, hb⟩ := h.onto hn (by omega)
      exact ⟨b, (grows_reserve ha).number hb⟩

end Exports

/-! ### The conversion -/

/-- The conversion of values one after the other, which starts with some lists and arrives at other
ones. -/
inductive Converts (s : Store) : List Value → Exports → List Exported → Exports → Prop where
  | nil {x : Exports} : Converts s [] x [] x
  | scalar {v : Value} {vs : List Value} {x y : Exports} {es : List Exported}
      (hv : ∀ a, v ≠ .array a) (hvs : Converts s vs x es y) :
      Converts s (v :: vs) x (.datum (s.exportScalar v) :: es) y
  | again {a n : Nat} {vs : List Value} {x y : Exports} {es : List Exported}
      (ha : x.number? a = some n) (hvs : Converts s vs x es y) :
      Converts s (.array a :: vs) x (.list n :: es) y
  | array {a : Nat} {vs : List Value} {x y z : Exports} {items es : List Exported}
      (ha : x.number? a = none)
      (hitems : Converts s (s.elements a).toList (x.reserve a).1 items y)
      (hvs : Converts s vs (y.fill x.lists.size items) es z) :
      Converts s (.array a :: vs) x (.list x.lists.size :: es) z

/-- A conversion arrives at one end only. -/
theorem Converts.unique {es' : List Exported} {y' : Exports} (h : s.Converts vs x es y)
    (h' : s.Converts vs x es' y') : es = es' ∧ y = y' := by
  induction h generalizing es' y' with
  | nil =>
      cases h'
      exact ⟨rfl, rfl⟩
  | scalar hv _ ih =>
      cases h' with
      | scalar _ hvs' =>
          obtain ⟨rfl, rfl⟩ := ih hvs'
          exact ⟨rfl, rfl⟩
      | again | array => exact absurd rfl (hv _)
  | again ha _ ih =>
      cases h' with
      | scalar hv' => exact absurd rfl (hv' _)
      | again ha' hvs' =>
          cases ha.symm.trans ha'
          obtain ⟨rfl, rfl⟩ := ih hvs'
          exact ⟨rfl, rfl⟩
      | array ha' => cases ha.symm.trans ha'
  | array ha _ _ ihitems ih =>
      cases h' with
      | scalar hv' => exact absurd rfl (hv' _)
      | again ha' => cases ha.symm.trans ha'
      | array _ hitems' hvs' =>
          obtain ⟨rfl, rfl⟩ := ihitems hitems'
          obtain ⟨rfl, rfl⟩ := ih hvs'
          exact ⟨rfl, rfl⟩

/-- A conversion leaves the lists that were there as they were. -/
theorem Converts.grows (h : s.Converts vs x es y) : x.Grows y := by
  induction h with
  | nil => exact .refl _
  | scalar _ _ ih | again _ _ ih => exact ih
  | array ha _ _ ihitems ih =>
      exact (((Exports.grows_reserve ha).trans ihitems).fill (le_refl _) _).trans ih

/-- A conversion gives each array a list of its own. -/
theorem Converts.numbered {base : Nat} (h : s.Converts vs x es y) (hx : x.Numbered base)
    (hbase : base ≤ x.lists.size) : y.Numbered base := by
  induction h with
  | nil => exact hx
  | scalar _ _ ih | again _ _ ih => exact ih hx hbase
  | array ha hitems _ ihitems ih =>
      have hmade := hx.reserve hbase ha
      have hsize := hitems.grows.size
      rw [Exports.size_reserve] at hsize
      refine ih ((ihitems hmade ?_).fill _ _) ?_
      · rw [Exports.size_reserve]
        omega
      · rw [Exports.size_fill]
        omega

/-- The conversion of a first value, and then that of others. -/
theorem Converts.cons (h : s.Converts [v] x [e] y) (hvs : s.Converts vs y es z) :
    s.Converts (v :: vs) x (e :: es) z := by
  cases h with
  | scalar hv h =>
      cases h
      exact .scalar hv hvs
  | again ha h =>
      cases h
      exact .again ha hvs
  | array ha hitems h =>
      cases h
      exact .array ha hitems hvs

/-! ### Its end -/

/-- The arrays of the store for which no list has been made. -/
def unseen (s : Store) (x : Exports) : Finset Nat :=
  (Finset.range s.arrays.size).filter fun a => x.number? a = none

/-- A conversion makes no array unseen again. -/
theorem unseen_grows (h : x.Grows y) : s.unseen y ⊆ s.unseen x := by
  refine Finset.monotone_filter_right _ fun a _ ha => ?_
  cases hx : x.number? a with
  | none => rfl
  | some n => cases ha.symm.trans (h.number hx)

/-- Reserving a list leaves one array fewer unseen; this bounds the depth of a conversion. -/
theorem unseen_reserve (ha : x.number? a = none) (hlt : a < s.arrays.size) :
    (s.unseen (x.reserve a).1).card < (s.unseen x).card := by
  refine Finset.card_lt_card ⟨unseen_grows (Exports.grows_reserve ha), fun hsub => ?_⟩
  have hmem : a ∈ s.unseen x := Finset.mem_filter.mpr ⟨Finset.mem_range.mpr hlt, ha⟩
  have hnone := (Finset.mem_filter.mp (hsub hmem)).2
  rw [Exports.number?_reserve, if_pos rfl] at hnone
  cases hnone

/-- The conversion of the elements of an array, as it is computed. -/
def exportAll (s : Store) (steps : Nat) (vs : List Value) (x : Exports) :
    List Exported × Exports :=
  vs.foldl
    (fun acc v =>
      let (item, x) := s.exportAt steps v acc.2
      (item :: acc.1, x))
    ([], x)

/-- What is no array becomes plain data at once. -/
theorem exportAt_scalar (hv : ∀ a, v ≠ .array a) (steps : Nat) (x : Exports) :
    s.exportAt steps v x = (.datum (s.exportScalar v), x) := by
  unfold exportAt
  split
  · exact absurd rfl (hv _)
  · rfl

/-- An array that has a list becomes that list again. -/
theorem exportAt_again (ha : x.number? a = some n) (steps : Nat) :
    s.exportAt steps (.array a) x = (.list n, x) := by
  rw [exportAt, ha]

theorem exportAt_zero (ha : x.number? a = none) :
    s.exportAt 0 (.array a) x = (.list x.lists.size, (x.reserve a).1) := by
  rw [exportAt, ha]
  rfl

/-- An array without a list gets one, which is filled after its elements have been converted. -/
theorem exportAt_succ (ha : x.number? a = none) (steps : Nat) :
    s.exportAt (steps + 1) (.array a) x =
      (.list x.lists.size,
        (s.exportAll steps (s.elements a).toList (x.reserve a).1).2.fill x.lists.size
          (s.exportAll steps (s.elements a).toList (x.reserve a).1).1.reverse) := by
  rw [exportAt, ha]
  rfl

/-- Elements are converted one after the other, given that each of them is. -/
theorem converts_exportAll {steps : Nat} (hunseen : (s.unseen x).card ≤ steps)
    (h : ∀ v x, (s.unseen x).card ≤ steps →
      s.Converts [v] x [(s.exportAt steps v x).1] (s.exportAt steps v x).2) (vs : List Value) :
    s.Converts vs x (s.exportAll steps vs x).1.reverse (s.exportAll steps vs x).2 := by
  -- what has been converted already is in the way of the induction
  suffices hacc : ∀ (acc : List Exported) x, (s.unseen x).card ≤ steps →
      ∃ es y, s.Converts vs x es y ∧ vs.foldl (fun acc v =>
        let (item, x) := s.exportAt steps v acc.2
        (item :: acc.1, x)) (acc, x) = (es.reverse ++ acc, y) by
    obtain ⟨es, y, hconverts, heq⟩ := hacc [] x hunseen
    rw [exportAll, heq]
    simpa using hconverts
  clear hunseen
  induction vs with
  | nil => exact fun acc x _ => ⟨[], x, .nil, rfl⟩
  | cons v vs ih =>
      intro acc x hx
      have hv := h v x hx
      have hcard := Finset.card_le_card (unseen_grows (s := s) hv.grows)
      obtain ⟨es, y, hvs, heq⟩ := ih ((s.exportAt steps v x).1 :: acc) _ (hcard.trans hx)
      refine ⟨_, y, hv.cons hvs, ?_⟩
      rw [List.foldl_cons, List.reverse_cons, List.append_assoc]
      exact heq

/-- Only an array that is met for the first time takes steps. -/
theorem converts_unless_new {steps : Nat}
    (h : ∀ a, v = .array a → x.number? a = none →
      s.Converts [v] x [(s.exportAt steps v x).1] (s.exportAt steps v x).2) :
    s.Converts [v] x [(s.exportAt steps v x).1] (s.exportAt steps v x).2 := by
  by_cases harray : ∃ a, v = .array a
  · obtain ⟨a, rfl⟩ := harray
    cases ha : x.number? a with
    | none => exact h a rfl ha
    | some n =>
        rw [exportAt_again ha]
        exact .again ha .nil
  · have hv : ∀ a, v ≠ .array a := fun a ha => harray ⟨a, ha⟩
    rw [exportAt_scalar hv]
    exact .scalar hv .nil

/-- Where there is no array there are no elements. -/
theorem toList_elements_of_le (h : s.arrays.size ≤ a) : (s.elements a).toList = [] := by
  by_contra hne
  obtain ⟨w, hw⟩ := List.exists_mem_of_ne_nil _ hne
  exact absurd (lt_size_of_mem hw) (not_lt.mpr h)

/-- **The conversion ends**, with what is computed in bounded steps. -/
theorem converts_exportAt {steps : Nat} (v : Value) (x : Exports)
    (hunseen : (s.unseen x).card ≤ steps) :
    s.Converts [v] x [(s.exportAt steps v x).1] (s.exportAt steps v x).2 := by
  -- by induction on the steps: below an array of the store there is one array less to be met
  induction steps generalizing v x with
  | zero =>
      refine converts_unless_new fun a hv ha => ?_
      subst hv
      have hout : s.arrays.size ≤ a := by
        by_contra hlt
        have hcard := unseen_reserve ha (not_le.mp hlt)
        omega
      rw [exportAt_zero ha, ← Exports.fill_reserve_nil]
      refine .array ha ?_ .nil
      rw [toList_elements_of_le hout]
      exact .nil
  | succ steps ih =>
      refine converts_unless_new fun a hv ha => ?_
      subst hv
      rw [exportAt_succ ha]
      refine .array ha ?_ .nil
      by_cases hlt : a < s.arrays.size
      · have hcard := unseen_reserve ha hlt
        exact converts_exportAll (by omega) ih _
      · rw [toList_elements_of_le (not_lt.mp hlt)]
        exact .nil

/-! ### What has been filled -/

/-- A value and the plain data it becomes, where arrays become lists of these numbers. -/
inductive Becomes (s : Store) (number? : Nat → Option Nat) : Value → Exported → Prop where
  | scalar {v : Value} (hv : ∀ a, v ≠ .array a) : Becomes s number? v (.datum (s.exportScalar v))
  | array {a n : Nat} (ha : number? a = some n) : Becomes s number? (.array a) (.list n)

theorem Becomes.mono (h : s.Becomes x.number? v e) (hxy : x.Grows y) :
    s.Becomes y.number? v e := by
  cases h with
  | scalar hv => exact .scalar hv
  | array ha => exact .array (hxy.number ha)

/-- The list has been filled with what the elements of the array become. -/
def Filled (s : Store) (x : Exports) (a n : Nat) : Prop :=
  ∃ items, x.lists[n]? = some items ∧
    List.Forall₂ (s.Becomes x.number?) (s.elements a).toList items.toList

/-- A filled list stays filled. -/
theorem Filled.mono (h : s.Filled x a n) (hxy : x.Grows y) : s.Filled y a n := by
  obtain ⟨items, hitems, helements⟩ := h
  have hlt := (Array.getElem?_eq_some_iff.mp hitems).1
  exact ⟨items, (hxy.kept hlt).trans hitems, helements.imp fun _ _ hv => hv.mono hxy⟩

/-- Filling one list leaves the others as they are. -/
theorem Filled.fill (h : s.Filled x a n) (hne : m ≠ n) (items : List Exported) :
    s.Filled (x.fill m items) a n := by
  obtain ⟨filled, hfilled, helements⟩ := h
  exact ⟨filled, (Array.getElem?_setIfInBounds_ne hne).trans hfilled, helements⟩

/-- Each value has become its item, seen from the state at the end. -/
theorem Converts.becomes (h : s.Converts vs x es y) :
    List.Forall₂ (s.Becomes y.number?) vs es := by
  induction h with
  | nil => exact .nil
  | scalar hv _ ih => exact .cons (.scalar hv) ih
  | again ha hvs ih => exact .cons (.array (hvs.grows.number ha)) ih
  | @array a vs x y z items es ha hitems hvs _ ih =>
      have hmade : (x.reserve a).1.number? a = some x.lists.size := by
        rw [Exports.number?_reserve, if_pos rfl]
      exact .cons (.array (hvs.grows.number (hitems.grows.number hmade))) ih

/-- **When a conversion ends**, every list that it has made is filled, and belongs to an array that
it has come to. Lists that were made before may still be half-built. -/
theorem Converts.finished {base : Nat} (h : s.Converts vs x es y) (hx : x.Numbered base)
    (hbase : base ≤ x.lists.size) (hnew : x.number? b = none) (hb : y.number? b = some n) :
    s.Filled y b n ∧ ∃ v ∈ vs, ReflTransGen s.Holds v (.array b) := by
  induction h with
  | nil => cases hnew.symm.trans hb
  | scalar _ _ ih | again _ _ ih =>
      obtain ⟨hfilled, v, hv, hreach⟩ := ih hx hbase hnew hb
      exact ⟨hfilled, v, List.mem_cons_of_mem _ hv, hreach⟩
  | @array a vs x y z items es ha hitems hvs ihitems ih =>
      have hmade := hx.reserve hbase ha
      have hbase' : base ≤ (x.reserve a).1.lists.size := by
        rw [Exports.size_reserve]
        omega
      have hy := hitems.numbered hmade hbase'
      have hself : y.number? a = some x.lists.size := by
        refine hitems.grows.number ?_
        rw [Exports.number?_reserve, if_pos rfl]
      cases hyb : y.number? b with
      -- the list has been made for something after the array
      | none =>
          have hsize : base ≤ (y.fill x.lists.size items).lists.size := by
            have hgrows := hitems.grows.size
            rw [Exports.size_fill]
            omega
          obtain ⟨hfill, v, hv, hreach⟩ := ih (hy.fill _ _) hsize hyb hb
          exact ⟨hfill, v, List.mem_cons_of_mem _ hv, hreach⟩
      | some m =>
          obtain rfl : m = n := Option.some.inj ((hvs.grows.number hyb).symm.trans hb)
          by_cases heq : a = b
          -- the list of the array itself is filled last
          · subst heq
            cases hself.symm.trans hyb
            have hfill : s.Filled (y.fill x.lists.size items) a x.lists.size :=
              ⟨items.toArray, Array.getElem?_setIfInBounds_self_of_lt (hy.bounds hself).2,
                hitems.becomes⟩
            exact ⟨hfill.mono hvs.grows, _, List.mem_cons_self, .refl⟩
          · have hnew' : (x.reserve a).1.number? b = none := by
              rw [Exports.number?_reserve, if_neg heq, hnew]
            obtain ⟨hfill, w, hw, hreach⟩ := ihitems hmade hbase' hnew' hyb
            have hne : x.lists.size ≠ m := fun h => heq (hy.injective (h ▸ hself) hyb)
            refine ⟨(hfill.fill hne items).mono hvs.grows, _, List.mem_cons_self, ?_⟩
            exact .head (.element hw) hreach

/-! ### Values and plain data -/

/-- A value that is no array, and plain data for it; functions are given as they are shown. -/
inductive PlainData (s : Store) : Value → Datum → Prop where
  | unit : PlainData s .unit .null
  | bool (b : Bool) : PlainData s (.bool b) (.bool b)
  | int (i : Int) : PlainData s (.int i) (.int i)
  | float (r : Float) : PlainData s (.float r) (.float r)
  | str (t : String) : PlainData s (.str t) (.str t)
  | function {f : Nat} {t : String} (h : s.showValue false (.function f) = .ok t) :
      PlainData s (.function f) (.str t)
  | builtin {b : Builtin} {tag : Nat} {t : String}
      (h : s.showValue false (.builtin b tag) = .ok t) : PlainData s (.builtin b tag) (.str t)

theorem plainData_exportScalar (hknown : v.kind?.isSome) (hv : ∀ a, v ≠ .array a) :
    s.PlainData v (s.exportScalar v) := by
  cases v with
  | unit => exact .unit
  | bool b => exact .bool b
  | int i => exact .int i
  | float r => exact .float r
  | str t => exact .str t
  | array a => exact absurd rfl (hv a)
  | function f =>
      have hshown : s.showValue false (.function f)
          = .ok ("<fun " ++ s.closureName f "anonymous" ++ ">") := by
        rw [showValue, showAt]
      rw [exportScalar, hshown]
      · exact .function hshown
      all_goals nofun
  | builtin b tag =>
      have hshown : s.showValue false (.builtin b tag) = .ok ("<builtin " ++ b.name ++ ">") := by
        rw [showValue, showAt]
      rw [exportScalar, hshown]
      · exact .builtin hshown
      all_goals nofun
  | foreign | bare => cases hknown

/-- A list of the table holds an item. -/
inductive Exported.Holds (table : Array (Array Exported)) : Exported → Exported → Prop where
  | item {n : Nat} {e : Exported} (h : e ∈ (table.getD n #[]).toList) :
      Exported.Holds table (.list n) e

/-- What is found by going from plain data to an item, to an item of that one, and so on. -/
def Exported.follow (table : Array (Array Exported)) : Exported → List Nat → Option Exported
  | e, [] => some e
  | .list n, i :: path => (table.getD n #[])[i]?.bind fun e => Exported.follow table e path
  | .datum _, _ :: _ => none

/-- The arrays that can be reached from a value. -/
def ArraysFrom (s : Store) (v : Value) : Type := { a : Nat // ReflTransGen s.Holds v (.array a) }

/-- The lists that can be reached from plain data. -/
def ListsFrom (table : Array (Array Exported)) (e : Exported) : Type :=
  { n : Nat // ReflTransGen (Exported.Holds table) e (.list n) }

/-- A value and its image, where arrays are mapped to lists. -/
inductive Image (s : Store) {v : Value} {table : Array (Array Exported)} {e : Exported}
    (f : s.ArraysFrom v → ListsFrom table e) : Value → Exported → Prop where
  | data {w : Value} {d : Datum} (h : s.PlainData w d) : Image s f w (.datum d)
  | list (a : s.ArraysFrom v) : Image s f (.array a.1) (.list (f a).1)

/-- The arrays and the lists that can be reached correspond to each other one to one: each list has
as many items as its array has elements, and the images of these at the same positions. -/
structure Mirrors (s : Store) {v : Value} {table : Array (Array Exported)} {e : Exported}
    (f : s.ArraysFrom v ≃ ListsFrom table e) : Prop where
  root : s.Image f v e
  items : ∀ a : s.ArraysFrom v,
    List.Forall₂ (s.Image f) (s.elements a.1).toList (table.getD (f a).1 #[]).toList

variable {table : Array (Array Exported)} {f : s.ArraysFrom v ≃ ListsFrom table e}

/-- At each position there are related things in both lists, or nothing in either. -/
theorem rel_getElem? {α β : Type} {R : α → β → Prop} {xs : List α} {ys : List β}
    (h : List.Forall₂ R xs ys) (i : Nat) : Option.Rel R xs[i]? ys[i]? := by
  induction h generalizing i with
  | nil => exact .none
  | cons hxy _ ih =>
      cases i with
      | zero => exact .some hxy
      | succ i => exact ih i

/-- The same positions lead to a value and to its image, or nowhere in both. -/
theorem Mirrors.follow (h : s.Mirrors f) (path : List Nat) :
    Option.Rel (s.Image f) (s.follow v path) (Exported.follow table e path) := by
  suffices hall : ∀ w d, s.Image f w d →
      Option.Rel (s.Image f) (s.follow w path) (Exported.follow table d path) from
    hall v e h.root
  induction path with
  | nil => exact fun w d hd => .some hd
  | cons i path ih =>
      intro w d hd
      cases hd with
      | data hplain => cases hplain <;> exact .none
      | list a =>
          rw [Store.follow, Exported.follow, ← Array.getElem?_toList, ← Array.getElem?_toList]
          have hitem := rel_getElem? (h.items a) i
          generalize (s.elements a.1).toList[i]? = u at hitem
          generalize (table.getD (f a).1 #[]).toList[i]? = d at hitem
          cases hitem with
          | some hd => exact ih _ _ hd
          | none => exact .none

/-- Two positions of the image are the same list if and only if the array is the same. -/
theorem Mirrors.same_list_iff (h : s.Mirrors f) {p q : List Nat}
    (hp : Exported.follow table e p = some (.list m))
    (hq : Exported.follow table e q = some (.list n)) :
    m = n ↔ s.follow v p = s.follow v q := by
  have hsource {p : List Nat} {m : Nat} (hp : Exported.follow table e p = some (.list m)) :
      ∃ a : s.ArraysFrom v, s.follow v p = some (.array a.1) ∧ (f a).1 = m := by
    have hrel := h.follow p
    rw [hp] at hrel
    generalize s.follow v p = u at hrel
    cases hrel with
    | some himage =>
        cases himage with
        | list a => exact ⟨a, rfl, rfl⟩
  obtain ⟨a, ha, rfl⟩ := hsource hp
  obtain ⟨b, hb, rfl⟩ := hsource hq
  rw [ha, hb]
  constructor
  · intro heq
    rw [f.injective (Subtype.ext heq)]
  · intro heq
    cases a
    cases b
    cases heq
    rfl

/-! ### The whole conversion -/

/-- An item for each element, and so an element for each item. -/
theorem Filled.items_getD (h : s.Filled x a n) :
    List.Forall₂ (s.Becomes x.number?) (s.elements a).toList (x.lists.getD n #[]).toList := by
  obtain ⟨items, hitems, helements⟩ := h
  rwa [Array.getD_eq_getD_getElem?, hitems, Option.getD_some]

theorem exists_of_mem_left {α β : Type} {R : α → β → Prop} {xs : List α} {ys : List β} {a : α}
    (h : List.Forall₂ R xs ys) (ha : a ∈ xs) : ∃ b ∈ ys, R a b := by
  induction h with
  | nil => cases ha
  | cons hab _ ih =>
      rcases List.mem_cons.mp ha with rfl | ha
      · exact ⟨_, List.mem_cons_self, hab⟩
      · obtain ⟨b, hb, hab⟩ := ih ha
        exact ⟨b, List.mem_cons_of_mem _ hb, hab⟩

section

variable (hfilled : ∀ {a n}, x.number? a = some n → s.Filled x a n)
  (hroot : s.Becomes x.number? v e)
include hfilled hroot

/-- What can be reached from a value has become something that can be reached. -/
theorem becomes_of_reach (h : ReflTransGen s.Holds v w) :
    ∃ d, s.Becomes x.number? w d ∧ ReflTransGen (Exported.Holds x.lists) e d := by
  induction h with
  | refl => exact ⟨e, hroot, .refl⟩
  | tail _ hholds ih =>
      obtain ⟨d, hd, hreach⟩ := ih
      cases hholds with
      | element hu =>
          cases hd with
          | scalar hv => exact absurd rfl (hv _)
          | array ha =>
              obtain ⟨c, hc, hbecomes⟩ := exists_of_mem_left (hfilled ha).items_getD hu
              exact ⟨c, hbecomes, hreach.tail (.item hc)⟩

/-- What can be reached from plain data comes from something that can be reached. -/
theorem exists_becomes_of_reach {d : Exported} (h : ReflTransGen (Exported.Holds x.lists) e d) :
    ∃ u, s.Becomes x.number? u d ∧ ReflTransGen s.Holds v u := by
  induction h with
  | refl => exact ⟨v, hroot, .refl⟩
  | tail _ hholds ih =>
      obtain ⟨u, hu, hreach⟩ := ih
      cases hholds with
      | item hd =>
          cases hu with
          | array ha =>
              obtain ⟨w, hw, hbecomes⟩ := exists_of_mem_left (hfilled ha).items_getD.flip hd
              exact ⟨w, hbecomes, hreach.tail (.element hw)⟩

end

/-- The value has a known kind, and so has everything that can be reached from it. -/
def Known (s : Store) (v : Value) : Prop := ∀ w, ReflTransGen s.Holds v w → w.kind?.isSome

/-- Arrays and lists correspond to each other if every list has been filled. -/
theorem exists_mirrors {base : Nat} (hv : s.Known v) (hroot : s.Becomes x.number? v e)
    (hx : x.Numbered base) (hfilled : ∀ {a n}, x.number? a = some n → s.Filled x a n) :
    ∃ f : s.ArraysFrom v ≃ ListsFrom x.lists e, s.Mirrors f ∧ ∀ a, base ≤ (f a).1 := by
  have hlist (a : s.ArraysFrom v) :
      ∃ n : ListsFrom x.lists e, x.number? a.1 = some n.1 := by
    obtain ⟨d, hd, hreach⟩ := becomes_of_reach hfilled hroot a.2
    cases hd with
    | scalar hv => exact absurd rfl (hv _)
    | array ha => exact ⟨⟨_, hreach⟩, ha⟩
  choose f hf using hlist
  have hbijective : Function.Bijective f := by
    constructor
    · intro a b hab
      have hb := hf b
      rw [← hab] at hb
      exact Subtype.ext (hx.injective (hf a) hb)
    · rintro ⟨n, hreach⟩
      obtain ⟨u, hu, hsource⟩ := exists_becomes_of_reach hfilled hroot hreach
      cases hu with
      | @array a _ ha =>
          exact ⟨⟨a, hsource⟩, Subtype.ext (Option.some.inj ((hf ⟨a, hsource⟩).symm.trans ha))⟩
  have himage {w : Value} {d : Exported} (hreach : ReflTransGen s.Holds v w)
      (hd : s.Becomes x.number? w d) : s.Image (Equiv.ofBijective f hbijective) w d := by
    cases hd with
    | scalar hw => exact .data (plainData_exportScalar (hv w hreach) hw)
    | @array a n ha =>
        obtain rfl : (f ⟨a, hreach⟩).1 = n :=
          Option.some.inj ((hf ⟨a, hreach⟩).symm.trans ha)
        exact .list ⟨a, hreach⟩
  refine ⟨Equiv.ofBijective f hbijective, ⟨himage .refl hroot, fun a => ?_⟩, fun a => ?_⟩
  · have hitems := (hfilled (hf a)).items_getD
    have hreach : ∀ w ∈ (s.elements a.1).toList, ReflTransGen s.Holds v w :=
      fun w hw => a.2.tail (.element hw)
    exact ((List.forall₂_and_left _ _).mpr ⟨hreach, hitems⟩).imp fun w d h => himage h.1 h.2
  · exact (hx.bounds (hf a)).1

/-- **Plain data mirrors values.** Whatever arrays contain, themselves and each other included, the
conversion of a value of which only known kinds can be reached ends, and in one way only; the store
is only read. The arrays that can be reached from the value and the lists that can be reached from
the result correspond to each other one to one, with images of the elements at the same positions.
So the same positions lead somewhere in both, and two of them lead to one list if and only if they
lead to one array. Nothing but these lists is made, and lists made before stay as they are. -/
theorem exportValue_mirrors (s : Store) (v : Value) (hv : s.Known v)
    (lists : Array (Array Exported)) :
    ∃ e table, s.exportValue v lists = (e, table) ∧
      (∀ es y, s.Converts [v] ⟨lists, []⟩ es y → es = [e] ∧ y.lists = table) ∧
      (∃ y, s.Converts [v] ⟨lists, []⟩ [e] y) ∧
      (∃ f : s.ArraysFrom v ≃ ListsFrom table e, s.Mirrors f ∧
        (∀ path, Option.Rel (s.Image f) (s.follow v path) (Exported.follow table e path)) ∧
        ∀ a, lists.size ≤ (f a).1) ∧
      (∀ p q m n, Exported.follow table e p = some (.list m) →
        Exported.follow table e q = some (.list n) → (m = n ↔ s.follow v p = s.follow v q)) ∧
      (∀ n, lists.size ≤ n → n < table.size → ReflTransGen (Exported.Holds table) e (.list n)) ∧
      ∀ n, n < lists.size → table[n]? = lists[n]? := by
  have hunseen : (s.unseen ⟨lists, []⟩).card ≤ s.arrays.size :=
    (Finset.card_filter_le _ _).trans (Finset.card_range _).le
  have hconverts := s.converts_exportAt v ⟨lists, []⟩ hunseen
  have hexport : s.exportValue v lists = ((s.exportAt s.arrays.size v ⟨lists, []⟩).1,
      (s.exportAt s.arrays.size v ⟨lists, []⟩).2.lists) := rfl
  generalize s.exportAt s.arrays.size v ⟨lists, []⟩ = out at hconverts hexport
  obtain ⟨e, y⟩ := out
  have hstart : Exports.Numbered lists.size ⟨lists, []⟩ :=
    ⟨nofun, nofun, fun hn hlt => absurd hlt (not_lt.mpr hn)⟩
  have hend := hconverts.numbered hstart (le_refl _)
  have hfilled {a n : Nat} (ha : y.number? a = some n) : s.Filled y a n :=
    (hconverts.finished hstart (le_refl _) rfl ha).1
  obtain ⟨hroot, -⟩ := List.forall₂_cons.mp hconverts.becomes
  obtain ⟨f, hf, hbase⟩ := exists_mirrors hv hroot hend hfilled
  refine ⟨e, y.lists, hexport, fun es z h => ?_, ⟨y, hconverts⟩, ⟨f, hf, hf.follow, hbase⟩,
    fun p q m n => hf.same_list_iff, fun n hn hlt => ?_, fun n hn => hconverts.grows.kept hn⟩
  · obtain ⟨rfl, rfl⟩ := hconverts.unique h
    exact ⟨rfl, rfl⟩
  · obtain ⟨a, ha⟩ := hend.onto hn hlt
    obtain ⟨-, u, hu, hreach⟩ := hconverts.finished hstart (le_refl _) rfl ha
    obtain rfl := List.mem_singleton.mp hu
    obtain ⟨d, hd, hlist⟩ := becomes_of_reach hfilled hroot hreach
    cases hd with
    | scalar hnone => exact absurd rfl (hnone _)
    | array ha' =>
        cases ha.symm.trans ha'
        exact hlist

/-- Two arrays that contain each other become two lists that contain each other. -/
theorem cycles_exported : cycles.Known (.array 1) ∧
    cycles.exportValue (.array 1) #[]
      = (.list 0, #[#[.datum (.int 1), .list 1], #[.datum (.float 1.0), .list 0]]) ∧
    ∃ f : cycles.ArraysFrom (.array 1) ≃
      ListsFrom #[#[.datum (.int 1), .list 1], #[.datum (.float 1.0), .list 0]] (.list 0),
      cycles.Mirrors f := by
  have hknown : cycles.Known (.array 1) := (ordinary_cycles (by decide)).known
  have hexport : cycles.exportValue (.array 1) #[]
      = (.list 0, #[#[.datum (.int 1), .list 1], #[.datum (.float 1.0), .list 0]]) := rfl
  obtain ⟨e, table, heq, -, -, ⟨f, hf, -⟩, -⟩ := exportValue_mirrors cycles (.array 1) hknown #[]
  cases hexport.symm.trans heq
  exact ⟨hknown, hexport, f, hf⟩

end Store

end Ember
