import Mathlib.Data.Finset.Dedup
import Ember.Proofs.Export
import Ember.Store.Display

/-!
# Picture — the display of arrays that contain themselves

While an array is being shown it is open, and an array that is open is shown as dots. The open
arrays are kept in one set, to which an array is added before its elements are shown and from which
it is taken afterwards. So the dots stand where an array is its own element, or an element of an
element, and not where an array merely occurs again.

* `Picture`: what is shown of a value, before it is put into text.
* `Store.Renders`: the display as it runs, with the set of open arrays and no bound on its steps.
* `Store.Draws`: the picture of a value below open arrays.
* `Store.Depicts`: a picture shows at each place what is found there.
* `Store.display_of_cyclic_arrays`: the display ends, and dots stand exactly for open arrays.
-/

namespace Ember

open Relation (ReflTransGen TransGen)

/-! ### Pictures -/

/-- What is shown of a value, before it is put into text. -/
inductive Picture where
  /-- The text of a value that is no array. -/
  | plain (t : String)
  /-- An array that is open. -/
  | dots
  /-- An array with its elements. -/
  | row (items : List Picture)

namespace Picture

/-- The texts of elements in brackets. -/
def bracketed (ts : List String) : String := "[" ++ String.intercalate ", " ts ++ "]"

mutual

/-- The text of a picture. -/
def text : Picture → String
  | plain t => t
  | dots => "[...]"
  | row items => bracketed (texts items)

/-- The texts of pictures. -/
def texts : List Picture → List String
  | [] => []
  | p :: ps => p.text :: texts ps

end

mutual

/-- How deep arrays are nested in a picture. -/
def depth : Picture → Nat
  | plain _ | dots => 0
  | row items => maxDepth items + 1

/-- How deep arrays are nested in one of the pictures. -/
def maxDepth : List Picture → Nat
  | [] => 0
  | p :: ps => max p.depth (maxDepth ps)

end

/-- The part of a picture to which the indices lead. -/
def at? : Picture → List Nat → Option Picture
  | p, [] => some p
  | row items, i :: place => items[i]?.bind fun p => p.at? place
  | _, _ :: _ => none

/-- A place below the top of a picture is a place of one of its items. -/
theorem at?_cons {p q : Picture} {i : Nat} {place : List Nat} (h : p.at? (i :: place) = some q) :
    ∃ items p', p = row items ∧ items[i]? = some p' ∧ p'.at? place = some q := by
  cases p with
  | row items =>
      obtain ⟨p', hp', hq⟩ := Option.bind_eq_some_iff.mp h
      exact ⟨items, p', rfl, hp', hq⟩
  | plain | dots => cases h

/-- A place in a picture of a row is a place in one of its items. -/
theorem at?_row {p q : Picture} {items : List Picture} {i : Nat} {place : List Nat}
    (hp : items[i]? = some p) (hq : p.at? place = some q) :
    (row items).at? (i :: place) = some q := by
  rw [at?, hp, Option.bind_some, hq]

theorem texts_eq_map (ps : List Picture) : texts ps = ps.map text := by
  induction ps with
  | nil => rfl
  | cons p ps ih => rw [texts, ih, List.map_cons]

/-- No picture is deeper than the deepest one. -/
theorem maxDepth_le {ps : List Picture} {n : Nat} (h : ∀ p ∈ ps, p.depth ≤ n) :
    maxDepth ps ≤ n := by
  induction ps with
  | nil => exact Nat.zero_le n
  | cons p ps ih =>
      obtain ⟨hp, hps⟩ := List.forall_mem_cons.mp h
      exact max_le hp (ih hps)

end Picture

namespace Store

variable {s : Store} {v w : Value} {vs : List Value} {p q : Picture} {items : List Picture}
  {marks marks' : Finset Nat} {nested : Bool} {place : List Nat} {a b : Nat}

/-! ### The display as it runs -/

/-- What is shown of a value that is no array; texts are quoted inside arrays. -/
def plainText? (s : Store) (nested : Bool) : Value → Option String
  | .unit => some "nil"
  | .bool b => some (if b then "true" else "false")
  | .int i => some (toString i)
  | .float x => some (Decimal.floatText x)
  | .str t => some (if nested then Text.literal t else t)
  | .function f => some ("<fun " ++ s.closureName f "anonymous" ++ ">")
  | .builtin b _ => some ("<builtin " ++ b.name ++ ">")
  | .array _ | .foreign .. | .bare _ => none

/-- The display of values one after the other, which starts with some arrays open and leaves some
open. -/
inductive Renders (s : Store) :
    (nested : Bool) → List Value → Finset Nat → List String → Finset Nat → Prop where
  | nil {nested : Bool} {marks : Finset Nat} : Renders s nested [] marks [] marks
  | plain {nested : Bool} {v : Value} {vs : List Value} {marks marks' : Finset Nat} {t : String}
      {ts : List String} (hv : s.plainText? nested v = some t)
      (hvs : Renders s nested vs marks ts marks') :
      Renders s nested (v :: vs) marks (t :: ts) marks'
  | again {nested : Bool} {a : Nat} {vs : List Value} {marks marks' : Finset Nat}
      {ts : List String} (ha : a ∈ marks) (hvs : Renders s nested vs marks ts marks') :
      Renders s nested (.array a :: vs) marks ("[...]" :: ts) marks'
  | array {nested : Bool} {a : Nat} {vs : List Value} {marks marks₁ marks' : Finset Nat}
      {items ts : List String} (ha : a ∉ marks)
      (hitems : Renders s true (s.elements a).toList (insert a marks) items marks₁)
      (hvs : Renders s nested vs (marks₁.erase a) ts marks') :
      Renders s nested (.array a :: vs) marks (Picture.bracketed items :: ts) marks'

/-- The display arrives at one end only. -/
theorem Renders.unique {ts ts' : List String} {marks'' : Finset Nat}
    (h : s.Renders nested vs marks ts marks') (h' : s.Renders nested vs marks ts' marks'') :
    ts = ts' ∧ marks' = marks'' := by
  induction h generalizing ts' marks'' with
  | nil =>
      cases h'
      exact ⟨rfl, rfl⟩
  | plain hv _ ih =>
      cases h' with
      | plain hv' hvs' =>
          cases hv.symm.trans hv'
          obtain ⟨rfl, rfl⟩ := ih hvs'
          exact ⟨rfl, rfl⟩
      | again | array => cases hv
  | again ha _ ih =>
      cases h' with
      | plain hv' => cases hv'
      | again _ hvs' =>
          obtain ⟨rfl, rfl⟩ := ih hvs'
          exact ⟨rfl, rfl⟩
      | array ha' => exact absurd ha ha'
  | array ha _ _ ihitems ih =>
      cases h' with
      | plain hv' => cases hv'
      | again ha' => exact absurd ha' ha
      | array _ hitems' hvs' =>
          obtain ⟨rfl, rfl⟩ := ihitems hitems'
          obtain ⟨rfl, rfl⟩ := ih hvs'
          exact ⟨rfl, rfl⟩

/-- The display of a first value, and then that of others. -/
theorem Renders.cons {t : String} {ts : List String} {marks'' : Finset Nat}
    (h : s.Renders nested [v] marks [t] marks') (hvs : s.Renders nested vs marks' ts marks'') :
    s.Renders nested (v :: vs) marks (t :: ts) marks'' := by
  cases h with
  | plain hv h =>
      cases h
      exact .plain hv hvs
  | again ha h =>
      cases h
      exact .again ha hvs
  | array ha hitems h =>
      cases h
      exact .array ha hitems hvs

/-! ### What is drawn -/

/-- The picture of a value while the arrays of `marks` are open. -/
inductive Draws (s : Store) : (marks : Finset Nat) → (nested : Bool) → Value → Picture → Prop where
  | plain {marks : Finset Nat} {nested : Bool} {v : Value} {t : String}
      (hv : s.plainText? nested v = some t) : Draws s marks nested v (.plain t)
  | dots {marks : Finset Nat} {nested : Bool} {a : Nat} (ha : a ∈ marks) :
      Draws s marks nested (.array a) .dots
  | row {marks : Finset Nat} {nested : Bool} {a : Nat} {items : List Picture} (ha : a ∉ marks)
      (hsize : (s.elements a).toList.length = items.length)
      (hitems : ∀ e ∈ (s.elements a).toList.zip items, Draws s (insert a marks) true e.1 e.2) :
      Draws s marks nested (.array a) (.row items)

/-- Lists of one length are related if what stands side by side in them is. -/
theorem forall₂_of_zip {α β : Type} {R : α → β → Prop} {xs : List α} {ys : List β}
    (hlength : xs.length = ys.length) (h : ∀ e ∈ xs.zip ys, R e.1 e.2) : List.Forall₂ R xs ys :=
  List.forall₂_iff_zip.mpr ⟨hlength, fun he => h _ he⟩

theorem mem_zip_elements {i : Nat} (hv : (s.elements a)[i]? = some v)
    (hp : items[i]? = some p) : (v, p) ∈ (s.elements a).toList.zip items :=
  List.mem_of_getElem? (List.getElem?_zip_eq_some.mpr ⟨by simpa using hv, hp⟩)

theorem exists_forall₂ {α β : Type} {R : α → β → Prop} {xs : List α} (h : ∀ x ∈ xs, ∃ y, R x y) :
    ∃ ys, List.Forall₂ R xs ys := by
  induction xs with
  | nil => exact ⟨[], .nil⟩
  | cons x xs ih =>
      obtain ⟨⟨y, hy⟩, hxs⟩ := List.forall_mem_cons.mp h
      obtain ⟨ys, hys⟩ := ih hxs
      exact ⟨y :: ys, .cons hy hys⟩

/-- Values shown one after the other leave the marks as they were if each does. -/
theorem renders_all
    (h : List.Forall₂ (fun v p => s.Renders nested [v] marks [p.text] marks) vs items) :
    s.Renders nested vs marks (Picture.texts items) marks := by
  induction h with
  | nil => exact .nil
  | cons hv _ ih => exact hv.cons ih

/-- The display of a value shows its picture, and leaves open what was open. -/
theorem Draws.renders (h : s.Draws marks nested v p) :
    s.Renders nested [v] marks [p.text] marks := by
  induction h with
  | plain hv => exact .plain hv .nil
  | dots ha => exact .again ha .nil
  | @row marks nested a items ha hsize _ ih =>
      have hitems := renders_all (forall₂_of_zip
        (R := fun v p => s.Renders true [v] (insert a marks) [p.text] (insert a marks)) hsize ih)
      have hrenders : s.Renders nested [.array a] marks [_] _ := Renders.array ha hitems .nil
      rwa [Finset.erase_insert ha] at hrenders

/-- What is computed in bounded steps is not bounded by them where arrays are not open. -/
theorem showAt_of_plainText? {t : String} (h : s.plainText? nested v = some t) (steps : Nat)
    (path : List Nat) : s.showAt steps path nested v = .ok t := by
  cases v <;> cases h
  all_goals
    unfold showAt
    rfl

/-- An array that is being shown is shown as dots. -/
theorem showAt_open {path : List Nat} (ha : a ∈ path) (steps : Nat) :
    s.showAt steps path nested (.array a) = .ok "[...]" := by
  unfold showAt
  exact if_pos ha

/-- With no levels left an array cannot be shown. -/
theorem showAt_zero {path : List Nat} (ha : a ∉ path) :
    s.showAt 0 path nested (.array a) = .error .tooDeep := by
  unfold showAt
  exact if_neg ha

/-- An array is shown as its elements between brackets, with itself on the path. -/
theorem showAt_succ {path : List Nat} (ha : a ∉ path) (steps : Nat) :
    s.showAt (steps + 1) path nested (.array a)
      = ((s.elements a).toList.mapM (s.showAt steps (a :: path) true)).map Picture.bracketed := by
  rw [showAt.eq_def]
  exact if_neg ha

/-- Elements are shown one by one if the deepest of them can be shown. -/
theorem mapM_showAt {f : Value → Except ShowFault String} {n : Nat}
    (h : List.Forall₂ (fun v p => f v = if p.depth ≤ n then .ok p.text else .error .tooDeep)
      vs items) :
    vs.mapM f =
      if Picture.maxDepth items ≤ n then .ok (Picture.texts items) else .error .tooDeep := by
  induction h with
  | nil => rfl
  | @cons v p vs items hv _ ih =>
      rw [List.mapM_cons, hv, ih, Picture.maxDepth, Picture.texts]
      by_cases hp : p.depth ≤ n
      · by_cases hitems : Picture.maxDepth items ≤ n
        · rw [if_pos hp, if_pos hitems, if_pos (max_le hp hitems)]
          rfl
        · rw [if_pos hp, if_neg hitems, if_neg fun hmax => hitems (le_of_max_le_right hmax)]
          rfl
      · rw [if_neg hp, if_neg fun hmax => hp (le_of_max_le_left hmax)]
        rfl

/-- **What is computed in bounded steps** is the picture, or that arrays are nested too deep. -/
theorem Draws.showAt (h : s.Draws marks nested v p) (steps : Nat) {path : List Nat}
    (hpath : path.toFinset = marks) :
    s.showAt steps path nested v = if p.depth ≤ steps then .ok p.text else .error .tooDeep := by
  induction h generalizing steps path with
  | plain hv => exact showAt_of_plainText? hv steps path
  | @dots marks nested a ha =>
      exact showAt_open (List.mem_toFinset.mp (hpath ▸ ha)) steps
  | @row marks nested a items ha hsize _ ih =>
      have hnew : a ∉ path := fun hmem => ha (hpath ▸ List.mem_toFinset.mpr hmem)
      cases steps with
      | zero => exact showAt_zero hnew
      | succ steps =>
          have hitems : (s.elements a).toList.mapM (s.showAt steps (a :: path) true)
              = if Picture.maxDepth items ≤ steps then .ok (Picture.texts items)
                else .error .tooDeep := by
            refine mapM_showAt (forall₂_of_zip hsize fun e he => ih e he steps ?_)
            rw [List.toFinset_cons, hpath]
          rw [showAt_succ hnew, hitems, apply_ite (Except.map Picture.bracketed), Picture.depth,
            Picture.text]
          simp only [Nat.add_le_add_iff_right]
          rfl

/-- **A value is shown inside of something else** if and only if the arrays of its picture are
nested no deeper than the host allows. -/
theorem Draws.shows_iff {limit : Nat} (h : s.Draws ∅ true v p) :
    s.Shows limit v ↔ p.depth ≤ limit := by
  unfold Shows display
  rw [h.showAt limit List.toFinset_nil]
  split <;> simp [*]

/-- The arrays of the store that are not open. -/
def shut (s : Store) (marks : Finset Nat) : Finset Nat := Finset.range s.arrays.size \ marks

/-- Marking an array leaves one fewer unmarked; this bounds the levels of a display. -/
theorem card_shut_insert (ha : a ∉ marks) (hlt : a < s.arrays.size) :
    (s.shut (insert a marks)).card < (s.shut marks).card := by
  refine Finset.card_lt_card ⟨Finset.sdiff_subset_sdiff subset_rfl (Finset.subset_insert a marks),
    fun hsub => ?_⟩
  have hmem : a ∈ s.shut marks := Finset.mem_sdiff.mpr ⟨Finset.mem_range.mpr hlt, ha⟩
  exact (Finset.mem_sdiff.mp (hsub hmem)).2 (Finset.mem_insert_self a marks)

/-- **The display of a value ends**: below an array that is opened there is one array less that is
not open. So arrays are not nested deeper in the picture than there are such arrays. -/
theorem exists_draws (hknown : s.Known v)
    (hpresent : ∀ a, ReflTransGen s.Holds v (.array a) → s.Has (.array a)) (nested : Bool)
    (marks : Finset Nat) : ∃ p, s.Draws marks nested v p ∧ p.depth ≤ (s.shut marks).card := by
  induction hn : (s.shut marks).card using Nat.strong_induction_on
    generalizing v nested marks with
  | _ n ih =>
      by_cases harray : ∃ a, v = .array a
      · obtain ⟨a, rfl⟩ := harray
        by_cases ha : a ∈ marks
        · exact ⟨.dots, .dots ha, Nat.zero_le n⟩
        · have hcard := card_shut_insert ha (has_array.mp (hpresent a .refl))
          have helement : ∀ v ∈ (s.elements a).toList,
              ∃ p, s.Draws (insert a marks) true v p ∧
                p.depth ≤ (s.shut (insert a marks)).card := by
            intro v hv
            exact ih _ (hn ▸ hcard) (fun w hw => hknown w (.head (.element hv) hw))
              (fun b hb => hpresent b (.head (.element hv) hb)) true _ rfl
          obtain ⟨items, hitems⟩ := exists_forall₂ helement
          obtain ⟨hsize, hzip⟩ := List.forall₂_iff_zip.mp hitems
          have hdepth : Picture.maxDepth items ≤ (s.shut (insert a marks)).card := by
            refine Picture.maxDepth_le fun p hp => ?_
            obtain ⟨v, -, hv⟩ := exists_of_mem_left hitems.flip hp
            exact hv.2
          exact ⟨.row items, .row ha hsize fun e he => (hzip he).1, by rw [Picture.depth]; omega⟩
      · have hkind := hknown v .refl
        obtain ⟨t, ht⟩ : ∃ t, s.plainText? nested v = some t := by
          cases v with
          | array a => exact absurd ⟨a, rfl⟩ harray
          | foreign | bare => cases hkind
          | _ => exact ⟨_, rfl⟩
        exact ⟨.plain t, .plain ht, Nat.zero_le n⟩

/-! ### What a picture shows -/

/-- The indices lead to the array before they have all been used. -/
def Above (s : Store) (v : Value) (place : List Nat) (a : Nat) : Prop :=
  ∃ before, before <+: place ∧ before ≠ place ∧ s.follow v before = some (.array a)

/-- A picture shows what is found: at each place that it has there is a value, an array that is
above the place already as dots, another array with all its elements, and a value that is no array
as its text. -/
structure Depicts (s : Store) (nested : Bool) (v : Value) (p : Picture) : Prop where
  plain : ∀ {place t}, p.at? place = some (.plain t) →
    ∃ w, s.follow v place = some w ∧ s.plainText? (nested || !place.isEmpty) w = some t
  dots : ∀ {place}, p.at? place = some .dots →
    ∃ a, s.follow v place = some (.array a) ∧ s.Above v place a
  row : ∀ {place items}, p.at? place = some (.row items) →
    ∃ a, s.follow v place = some (.array a) ∧ ¬ s.Above v place a ∧
      items.length = (s.elements a).size

theorem not_above_nil : ¬ s.Above v [] a := by
  rintro ⟨before, hbefore, hne, -⟩
  exact hne (List.prefix_nil.mp hbefore)

/-- What is above a place in an array is the array, or above the place in its element. -/
theorem above_cons {i : Nat} (hv : (s.elements a)[i]? = some v) :
    s.Above (.array a) (i :: place) b ↔ b = a ∨ s.Above v place b := by
  have hfollow : ∀ before, s.follow (.array a) (i :: before) = s.follow v before := by
    intro before
    rw [follow, hv, Option.bind_some]
  constructor
  · rintro ⟨before, hbefore, hne, hb⟩
    cases before with
    | nil =>
        cases hb
        exact .inl rfl
    | cons j before =>
        obtain ⟨rfl, htail⟩ := List.cons_prefix_cons.mp hbefore
        exact .inr ⟨before, htail, fun heq => hne (heq ▸ rfl), hfollow before ▸ hb⟩
  · rintro (rfl | ⟨before, hbefore, hne, hb⟩)
    · exact ⟨[], List.nil_prefix, (List.cons_ne_nil _ _).symm, rfl⟩
    · exact ⟨i :: before, List.cons_prefix_cons.mpr ⟨rfl, hbefore⟩,
        fun heq => hne (List.cons.inj heq).2, (hfollow before).trans hb⟩

/-- **What is drawn at a place** is drawn while the arrays above it are open as well. -/
theorem Draws.at (h : s.Draws marks nested v p) (hq : p.at? place = some q) :
    ∃ w opened, s.follow v place = some w ∧ s.Draws opened (nested || !place.isEmpty) w q ∧
      ∀ b, b ∈ opened ↔ b ∈ marks ∨ s.Above v place b := by
  induction place generalizing marks nested v p with
  | nil =>
      cases hq
      rw [List.isEmpty_nil, Bool.not_true, Bool.or_false]
      exact ⟨v, marks, rfl, h, fun b => (or_iff_left not_above_nil).symm⟩
  | cons i place ih =>
      obtain ⟨items, p', rfl, hp', hq⟩ := Picture.at?_cons hq
      cases h with
      | @row _ _ a _ ha hsize hitems =>
          obtain ⟨hi, -⟩ := List.getElem?_eq_some_iff.mp hp'
          rw [← hsize, Array.length_toList] at hi
          have hv' := Array.getElem?_eq_getElem hi
          obtain ⟨w, opened, hw, hdraws, hopened⟩ := ih (hitems _ (mem_zip_elements hv' hp')) hq
          refine ⟨w, opened, by rw [follow, hv', Option.bind_some, hw], ?_, fun b => ?_⟩
          · simpa using hdraws
          · rw [hopened, above_cons hv', Finset.mem_insert]
            tauto

/-- A drawing from no marks at all is a picture of the value. -/
theorem Draws.depicts (h : s.Draws ∅ nested v p) : s.Depicts nested v p where
  plain hq := by
    obtain ⟨w, opened, hw, hdraws, -⟩ := h.at hq
    cases hdraws with
    | plain ht => exact ⟨w, hw, ht⟩
  dots hq := by
    obtain ⟨w, opened, hw, hdraws, hopened⟩ := h.at hq
    cases hdraws with
    | @dots _ _ a ha => exact ⟨a, hw, by simpa using (hopened a).mp ha⟩
  row hq := by
    obtain ⟨w, opened, hw, hdraws, hopened⟩ := h.at hq
    cases hdraws with
    | @row _ _ a _ ha hsize =>
        exact ⟨a, hw, fun habove => ha ((hopened a).mpr (.inr habove)), by simpa using hsize.symm⟩

/-- **Dots stand for arrays that are above the place**, and for nothing else. -/
theorem Depicts.dots_iff (h : s.Depicts nested v p) (hq : p.at? place = some q)
    (ha : s.follow v place = some (.array a)) : q = .dots ↔ s.Above v place a := by
  cases q with
  | plain t =>
      obtain ⟨w, hw, ht⟩ := h.plain hq
      cases ha.symm.trans hw
      cases ht
  | dots =>
      obtain ⟨b, hb, habove⟩ := h.dots hq
      cases ha.symm.trans hb
      exact iff_of_true rfl habove
  | row items =>
      obtain ⟨b, hb, hnot, -⟩ := h.row hq
      cases ha.symm.trans hb
      exact iff_of_false nofun hnot

/-! ### Arrays that do not contain themselves -/

/-- The display of a value that asks for no open arrays: every array is shown with its elements. -/
inductive PlainShow (s : Store) : (nested : Bool) → Value → String → Prop where
  | plain {nested : Bool} {v : Value} {t : String} (hv : s.plainText? nested v = some t) :
      PlainShow s nested v t
  | array {nested : Bool} {a : Nat} {ts : List String}
      (hsize : (s.elements a).toList.length = ts.length)
      (hitems : ∀ e ∈ (s.elements a).toList.zip ts, PlainShow s true e.1 e.2) :
      PlainShow s nested (.array a) (Picture.bracketed ts)

theorem PlainShow.unique {t t' : String} (h : s.PlainShow nested v t)
    (h' : s.PlainShow nested v t') : t = t' := by
  induction h generalizing t' with
  | plain hv =>
      cases h' with
      | plain hv' => exact Option.some.inj (hv.symm.trans hv')
      | array => cases hv
  | @array nested a ts hsize _ ih =>
      cases h' with
      | plain hv' => cases hv'
      | @array _ _ ts' hsize' hitems' =>
          refine congrArg Picture.bracketed (List.ext_getElem (hsize.symm.trans hsize') ?_)
          intro i hi hi'
          have hv := List.getElem?_eq_getElem (hsize ▸ hi : i < (s.elements a).toList.length)
          have ht := List.getElem?_eq_getElem hi
          have ht' := List.getElem?_eq_getElem hi'
          exact ih (_, ts[i]) (List.mem_of_getElem? (List.getElem?_zip_eq_some.mpr ⟨hv, ht⟩))
            (hitems' (_, ts'[i]) (List.mem_of_getElem? (List.getElem?_zip_eq_some.mpr ⟨hv, ht'⟩)))

/-- A picture without dots is the plain display. -/
theorem Draws.plainShow (h : s.Draws marks nested v p) (hdots : ∀ place, p.at? place ≠ some .dots) :
    s.PlainShow nested v p.text := by
  induction h with
  | plain hv => exact .plain hv
  | dots => exact absurd rfl (hdots [])
  | @row marks nested a items ha hsize hitems ih =>
      rw [Picture.text, Picture.texts_eq_map]
      refine .array (by rwa [List.length_map]) fun e he => ?_
      rw [List.zip_map_right] at he
      obtain ⟨⟨v, p⟩, hmem, rfl⟩ := List.mem_map.mp he
      obtain ⟨i, hi⟩ := List.mem_iff_getElem?.mp (List.of_mem_zip hmem).2
      exact ih _ hmem fun place hplace => hdots (i :: place) (Picture.at?_row hi hplace)

/-- Going along two paths is going along one and then the other. -/
theorem follow_append (before rest : List Nat) (v : Value) :
    s.follow v (before ++ rest) = (s.follow v before).bind fun w => s.follow w rest := by
  induction before generalizing v with
  | nil => rfl
  | cons i before ih =>
      cases v with
      | array a =>
          rw [List.cons_append, follow, follow, Option.bind_assoc]
          exact congrArg _ (funext fun w => ih w)
      | _ => rfl

/-- What a path leads to is reachable. -/
theorem reaches_of_follow (h : s.follow v place = some w) : ReflTransGen s.Holds v w := by
  induction place generalizing v with
  | nil =>
      cases h
      exact .refl
  | cons i place ih =>
      obtain ⟨a, u, rfl, hu, hw⟩ := follow_cons h
      exact .head (.element (Array.mem_toList_iff.mpr (Array.mem_of_getElem? hu))) (ih hw)

/-- An array that is above itself contains itself. -/
theorem Above.holds_self (h : s.Above v place a) (ha : s.follow v place = some (.array a)) :
    ReflTransGen s.Holds v (.array a) ∧ TransGen s.Holds (.array a) (.array a) := by
  obtain ⟨before, ⟨rest, rfl⟩, hne, hbefore⟩ := h
  rw [follow_append, hbefore, Option.bind_some] at ha
  cases rest with
  | nil => exact absurd (List.append_nil before).symm hne
  | cons i rest =>
      obtain ⟨_, u, ⟨⟩, hu, hrest⟩ := follow_cons ha
      refine ⟨reaches_of_follow hbefore, .head' ?_ (reaches_of_follow hrest)⟩
      exact .element (Array.mem_toList_iff.mpr (Array.mem_of_getElem? hu))

/-! ### The whole display -/

/-- **The display of arrays that contain themselves.** Whichever arrays contain themselves and each
other, the display of a value of which only known kinds can be reached ends, with one text, and
leaves the open arrays as they were. From none it shows a picture in which every place has what is
found there, and dots if and only if that is an array that is above the place already; an array that
merely occurs again is shown again. With steps for a depth of arrays it fails only if there are more
in the picture. If no array contains itself, there are no dots, and what is shown is the plain
display, which asks for no open arrays. -/
theorem display_of_cyclic_arrays (s : Store) (nested : Bool) (v : Value) (hknown : s.Known v)
    (hpresent : ∀ a, ReflTransGen s.Holds v (.array a) → s.Has (.array a)) :
    (∀ marks, ∃ text, ∀ ts marks',
      s.Renders nested [v] marks ts marks' ↔ ts = [text] ∧ marks' = marks) ∧
    ∃ p, s.showValue nested v = .ok p.text ∧ s.Renders nested [v] ∅ [p.text] ∅ ∧
      s.Depicts nested v p ∧
      (∀ place q a, p.at? place = some q → s.follow v place = some (.array a) →
        (q = .dots ↔ s.Above v place a)) ∧
      (∀ steps, s.showAt steps [] nested v =
        if p.depth ≤ steps then .ok p.text else .error .tooDeep) ∧
      ((∀ a, ReflTransGen s.Holds v (.array a) → ¬ TransGen s.Holds (.array a) (.array a)) →
        (∀ place, p.at? place ≠ some .dots) ∧ ∀ t, s.PlainShow nested v t ↔ t = p.text) := by
  constructor
  · intro marks
    obtain ⟨p, hp, -⟩ := exists_draws hknown hpresent nested marks
    refine ⟨p.text, fun ts marks' => ⟨fun h => ?_, ?_⟩⟩
    · obtain ⟨rfl, rfl⟩ := h.unique hp.renders
      exact ⟨rfl, rfl⟩
    · rintro ⟨rfl, rfl⟩
      exact hp.renders
  · obtain ⟨p, hp, hdepth⟩ := exists_draws hknown hpresent nested ∅
    have hsize : (s.shut ∅).card = s.arrays.size := by
      rw [shut, Finset.sdiff_empty, Finset.card_range]
    refine ⟨p, ?_, hp.renders, hp.depicts, fun place q a => hp.depicts.dots_iff,
      fun steps => hp.showAt steps List.toFinset_nil, fun hacyclic => ?_⟩
    · rw [showValue, hp.showAt _ List.toFinset_nil, if_pos (hsize ▸ hdepth)]
    · have hdots : ∀ place, p.at? place ≠ some .dots := by
        intro place hplace
        obtain ⟨a, ha, habove⟩ := hp.depicts.dots hplace
        obtain ⟨hreach, hself⟩ := habove.holds_self ha
        exact hacyclic a hreach hself
      have hplain := hp.plainShow hdots
      refine ⟨hdots, fun t => ⟨fun ht => ht.unique hplain, ?_⟩⟩
      rintro rfl
      exact hplain

/-- An array that occurs twice is shown twice. -/
example : (⟨#[], #[#[.array 1, .array 1], #[.int 1]], #[]⟩ : Store).showValue false (.array 0)
    = .ok "[[1], [1]]" := by
  decide +kernel

/-- Where references resolve, the arrays that can be reached are there. -/
theorem has_of_reaches (hs : s.Resolves) (hv : ∀ r ∈ v.refs, s.Has r)
    (h : ReflTransGen s.Holds v (.array a)) : s.Has (.array a) := by
  suffices hall : ∀ w, ReflTransGen s.Holds v w → ∀ r ∈ w.refs, s.Has r from
    hall _ h _ (List.mem_singleton.mpr rfl)
  intro w hw
  cases hw with
  | refl => exact hv
  | tail _ hholds =>
      cases hholds with
      | element hmem =>
          intro r hr
          exact hs _ r (refs_array s _ ▸ List.mem_flatMap.mpr ⟨_, hmem, hr⟩)

theorem resolves_cycles : cycles.Resolves := by
  intro r t ht
  cases r with
  | frame | closure => cases ht
  | array a =>
      rw [refs_array] at ht
      obtain ⟨v, hv, -⟩ := List.mem_flatMap.mp ht
      have ha : a < 3 := lt_size_of_mem hv
      interval_cases a <;>
        obtain rfl : t = _ := by simpa [cycles, elements, Value.refs] using ht
      all_goals exact has_array.mpr (by decide)

/-- Two arrays that contain each other: the first is shown as dots where the second has it. -/
theorem cycles_shown : cycles.Known (.array 1) ∧
    (∀ a, ReflTransGen cycles.Holds (.array 1) (.array a) → cycles.Has (.array a)) ∧
    cycles.showValue false (.array 1) = .ok "[1, [1.0, [...]]]" ∧
    ∃ p, p.text = "[1, [1.0, [...]]]" ∧ cycles.Depicts false (.array 1) p := by
  have hshown : cycles.showValue false (.array 1) = .ok "[1, [1.0, [...]]]" := by decide +kernel
  have hknown := (ordinary_cycles (a := 1) (by decide)).known
  have hroot : ∀ r ∈ (Value.array 1).refs, cycles.Has r :=
    List.forall_mem_singleton.mpr (has_array.mpr (by decide))
  have hpresent : ∀ a, ReflTransGen cycles.Holds (.array 1) (.array a) → cycles.Has (.array a) :=
    fun a => has_of_reaches resolves_cycles hroot
  obtain ⟨-, p, hp, -, hdepicts, -⟩ :=
    display_of_cyclic_arrays cycles false (.array 1) hknown hpresent
  exact ⟨hknown, hpresent, hshown, p, Except.ok.inj (hp.symm.trans hshown), hdepicts⟩

end Store

end Ember
