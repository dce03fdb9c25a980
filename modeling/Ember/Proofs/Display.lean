import Mathlib.Data.List.Forall2
import Mathlib.Data.List.Perm.Subperm
import Mathlib.Logic.Relation
import Ember.Eval
import Ember.Proofs.Analysis
import Ember.Proofs.Discipline
import Ember.Proofs.RoundTrip
import Ember.Proofs.Store.Reference

/-!
# Display — what is shown reads back

Values made of integers, truth values, texts, nothing and arrays are shown as the expressions that
denote them. Reading such a text, analyzing it and evaluating it makes an equal value, with arrays
of its own. So the text of a value tells it from every value that is not equal to it.

* `Store.Denotable`: the values this is about; no array in them contains itself.
* `Spells`: the trees that denote a value.
* `Store.Alike`: values that no program tells apart by their contents.
* `display_reads_back`: what is shown is read, analyzed and evaluated to an equal value.
-/

namespace Ember

open Relation (ReflTransGen TransGen)

/-! ### Values that have literals -/

namespace Store

/-- The value is an integer of 64 bits, a truth value, a text, nothing, or an array of the store. -/
def IsDatum (s : Store) : Value → Prop
  | .unit | .bool _ | .str _ => True
  | .int i => intMin ≤ i ∧ i ≤ intMax
  | .array a => a < s.arrays.size
  | _ => False

/-- The value and everything in it is such a datum, and no array in it contains itself. -/
structure Denotable (s : Store) (v : Value) : Prop where
  datum : ∀ w, ReflTransGen s.Holds v w → s.IsDatum w
  acyclic : ∀ w, ReflTransGen s.Holds v w → ¬ TransGen s.Holds w w

/-- An element of a denotable array is denotable. -/
theorem Denotable.element {s : Store} {v w : Value} (h : s.Denotable v) (hw : s.Holds v w) :
    s.Denotable w where
  datum u hu := h.datum u (.head hw hu)
  acyclic u hu := h.acyclic u (.head hw hu)

/-- A datum that is no array is denotable, since nothing is in it. -/
theorem denotable_scalar {s : Store} {v : Value} (h : s.IsDatum v) (harray : ∀ a, v ≠ .array a) :
    s.Denotable v := by
  have hnone : ∀ w, ¬ s.Holds v w := by
    rintro w ⟨-⟩
    exact harray _ rfl
  have honly : ∀ w, ReflTransGen s.Holds v w → w = v := by
    intro w hw
    rcases hw.cases_head with rfl | ⟨u, hu, -⟩
    · rfl
    · exact absurd hu (hnone u)
  refine ⟨fun w hw => honly w hw ▸ h, fun w hw hcycle => ?_⟩
  rw [honly w hw] at hcycle
  obtain ⟨u, hu, -⟩ := TransGen.head'_iff.mp hcycle
  exact hnone u hu

/-- An array of such values is one. -/
theorem denotable_array {s : Store} {a : Nat} (ha : a < s.arrays.size)
    (h : ∀ v ∈ (s.elements a).toList, s.Denotable v) : s.Denotable (.array a) := by
  have hholds : ∀ w, s.Holds (.array a) w → s.Denotable w := by
    rintro w ⟨hw⟩
    exact h w hw
  refine ⟨fun w hw => ?_, fun w hw hcycle => ?_⟩
  · rcases hw.cases_head with rfl | ⟨u, hu, huw⟩
    · exact ha
    · exact (hholds u hu).datum w huw
  · rcases hw.cases_head with rfl | ⟨u, hu, huw⟩
    -- a cycle through the array goes through one of its elements
    · obtain ⟨u, hu, huw⟩ := TransGen.head'_iff.mp hcycle
      exact (hholds u hu).acyclic _ huw hcycle
    · exact (hholds u hu).acyclic w huw hcycle

end Store

/-- The tree denotes the value, wherever it stands. -/
inductive Spells (s : Store) : Value → Tree → Prop where
  | unit {p : Option Span} : Spells s .unit (.node .nil .null [] p)
  | bool {b : Bool} {p : Option Span} : Spells s (.bool b) (.node .bool (.bool b) [] p)
  | natural {n : Nat} {p : Option Span} (hn : (n : Int) ≤ intMax) :
      Spells s (.int n) (.node .number (.int n) [] p)
  | negative {n : Nat} {p q : Option Span} (hpos : 0 < n) (hn : intMin ≤ -(n : Int)) :
      Spells s (.int (-n)) (.node .unary (.str "-") [.node .number (.int n) [] p] q)
  | str {t : String} {p : Option Span} : Spells s (.str t) (.node .string (.str t) [] p)
  | array {a : Nat} {ts : List Tree} {p : Option Span} (ha : a < s.arrays.size)
      (hlength : (s.elements a).toList.length = ts.length)
      (hparts : ∀ x ∈ (s.elements a).toList.zip ts, Spells s x.1 x.2) :
      Spells s (.array a) (.node .array .null ts p)

variable {s : Store} {v : Value} {t : Tree}

theorem spells_array {a : Nat} {ts : List Tree} {p : Option Span} (ha : a < s.arrays.size)
    (h : List.Forall₂ (Spells s) (s.elements a).toList ts) :
    Spells s (.array a) (.node .array .null ts p) :=
  .array ha h.length_eq fun _ hx => (List.forall₂_iff_zip.mp h).2 hx

/-- Every integer of 64 bits has a literal, the negative ones after a sign. -/
theorem spells_int {i : Int} (hmin : intMin ≤ i) (hmax : i ≤ intMax) :
    ∃ t, Spells s (.int i) t ∧ toString i = String.ofList t.write := by
  rcases Int.lt_or_le i 0 with hneg | hpos
  · obtain ⟨n, rfl⟩ : ∃ n : Nat, i = -(n + 1 : Nat) := ⟨(-i).toNat - 1, by omega⟩
    refine ⟨_, .negative (p := none) (q := none) (Nat.succ_pos n) hmin, ?_⟩
    have hrepr : toString (-((n + 1 : Nat) : Int)) = "-" ++ Nat.repr (n + 1) := rfl
    rw [hrepr, Nat.repr_eq_ofList_toDigits]
    exact (@String.ofList_append ['-'] _).symm
  · obtain ⟨n, rfl⟩ := Int.eq_ofNat_of_zero_le hpos
    refine ⟨_, .natural (p := none) hmax, ?_⟩
    have hrepr : toString (n : Int) = Nat.repr n := rfl
    rw [hrepr, Nat.repr_eq_ofList_toDigits]
    rfl

/-- Texts joined by a comma and a blank are the texts as the writer of trees separates them. -/
theorem Tree.intercalate_eq_separated (texts : List (List Char)) :
    ", ".toList.intercalate texts = separated texts := by
  induction texts with
  | nil => rfl
  | cons x texts ih =>
      cases texts with
      | nil => simp [List.intercalate, separated]
      | cons y texts => simp [List.intercalate_cons_cons, separated, ← ih]

/-- The elements of an array are shown one by one. -/
theorem mapM_spelled {f : Value → Except Store.ShowFault String} {vs : List Value}
    (h : ∀ v ∈ vs, ∃ t, Spells s v t ∧ f v = .ok (String.ofList t.write)) :
    ∃ ts, List.Forall₂ (Spells s) vs ts ∧
      vs.mapM f = .ok (ts.map fun t => String.ofList t.write) := by
  induction vs with
  | nil => exact ⟨[], .nil, rfl⟩
  | cons v vs ih =>
      obtain ⟨t, ht, hshow⟩ := h v List.mem_cons_self
      obtain ⟨ts, hts, hshows⟩ := ih fun w hw => h w (List.mem_cons_of_mem _ hw)
      refine ⟨t :: ts, .cons ht hts, ?_⟩
      rw [List.mapM_cons, hshow, hshows]
      rfl

/-- What is no array is shown as its literal, below any path. -/
theorem showAt_scalar (hdatum : s.IsDatum v) (harray : ∀ a, v ≠ .array a) :
    ∃ t, Spells s v t ∧
      ∀ steps path, s.showAt steps path true v = .ok (String.ofList t.write) := by
  cases v with
  | unit => exact ⟨_, .unit (p := none), fun _ _ => by rw [Store.showAt]; rfl⟩
  | bool b =>
      refine ⟨_, .bool (p := none), fun _ _ => ?_⟩
      rw [Store.showAt]
      cases b <;> rfl
  | int i =>
      obtain ⟨t, ht, hi⟩ := spells_int hdatum.1 hdatum.2
      exact ⟨t, ht, fun _ _ => by rw [Store.showAt, hi]⟩
  | str t =>
      refine ⟨_, .str (p := none), fun _ _ => ?_⟩
      rw [Store.showAt, if_pos rfl]
      exact congrArg Except.ok String.ofList_toList.symm
  | array a => exact absurd rfl (harray a)
  | float x => exact hdatum.elim
  | function f => exact hdatum.elim
  | builtin b i => exact hdatum.elim
  | foreign k d => exact hdatum.elim
  | bare d => exact hdatum.elim

/-- An array is shown if its elements are. -/
theorem showAt_array {steps : Nat} {path : List Nat} {a : Nat} (ha : a < s.arrays.size)
    (hnew : a ∉ path)
    (h : ∀ w ∈ (s.elements a).toList, ∃ t, Spells s w t ∧
      s.showAt steps (a :: path) true w = .ok (String.ofList t.write)) :
    ∃ t, Spells s (.array a) t ∧
      s.showAt (steps + 1) path true (.array a) = .ok (String.ofList t.write) := by
  obtain ⟨ts, hts, hshow⟩ := mapM_spelled h
  refine ⟨_, spells_array (p := none) ha hts, ?_⟩
  rw [Store.showAt, if_neg hnew]
  simp only [hshow]
  refine congrArg Except.ok (String.toList_inj.mp ?_)
  have htexts : (ts.map fun t => String.ofList t.write).map String.toList = ts.map Tree.write := by
    simp
  simp [Tree.write_array, String.toList_intercalate, htexts, ← Tree.intercalate_eq_separated]

/-- The arrays of `path` are being shown, one inside the other, and `v` inside all of them. -/
structure Store.Below (s : Store) (path : List Nat) (v : Value) : Prop where
  nodup : path.Nodup
  present : ∀ a ∈ path, a < s.arrays.size
  holds : ∀ a ∈ path, TransGen s.Holds (.array a) v

/-- An array below others is none of them. -/
theorem Store.Below.not_mem {path : List Nat} {a : Nat} (h : s.Below path (.array a))
    (ha : s.Denotable (.array a)) : a ∉ path :=
  fun hmem => ha.acyclic _ .refl (h.holds a hmem)

/-- An element of an array below a path is below the path with the array on top. -/
theorem Store.Below.element {path : List Nat} {a : Nat} (h : s.Below path (.array a))
    (ha : s.Denotable (.array a)) {w : Value} (hw : w ∈ (s.elements a).toList) :
    s.Below (a :: path) w where
  nodup := List.nodup_cons.mpr ⟨h.not_mem ha, h.nodup⟩
  present := List.forall_mem_cons.mpr ⟨ha.datum _ .refl, h.present⟩
  holds := List.forall_mem_cons.mpr
    ⟨.single (.element hw), fun b hb => (h.holds b hb).tail (.element hw)⟩

/-- Fewer arrays are being shown than there are. -/
theorem Store.Below.length_lt {path : List Nat} {a : Nat} (h : s.Below path (.array a))
    (ha : s.Denotable (.array a)) : path.length < s.arrays.size := by
  have hnodup : (a :: path).Nodup := List.nodup_cons.mpr ⟨h.not_mem ha, h.nodup⟩
  have hin : ∀ b ∈ a :: path, b < s.arrays.size :=
    List.forall_mem_cons.mpr ⟨ha.datum _ .refl, h.present⟩
  have hsub : a :: path ⊆ List.range s.arrays.size := fun b hb => List.mem_range.mpr (hin b hb)
  simpa [Nat.succ_le_iff] using (hnodup.subperm hsub).length_le

/-- **A value is shown as the text of a tree that denotes it.** -/
theorem showAt_eq_write {steps : Nat} {path : List Nat} (hv : s.Denotable v)
    (hpath : s.Below path v) (hsteps : steps + path.length = s.arrays.size) :
    ∃ t, Spells s v t ∧ s.showAt steps path true v = .ok (String.ofList t.write) := by
  -- by induction on the steps; each array on the path has taken one, so one is left for another
  induction steps generalizing path v with
  | zero =>
      have harray : ∀ a, v ≠ .array a := by
        rintro a rfl
        have hlt := hpath.length_lt hv
        omega
      obtain ⟨t, ht, hshow⟩ := showAt_scalar (hv.datum v .refl) harray
      exact ⟨t, ht, hshow 0 path⟩
  | succ steps ih =>
      by_cases harray : ∀ a, v ≠ .array a
      · obtain ⟨t, ht, hshow⟩ := showAt_scalar (hv.datum v .refl) harray
        exact ⟨t, ht, hshow (steps + 1) path⟩
      · obtain ⟨a, rfl⟩ : ∃ a, v = .array a := by simpa using harray
        refine showAt_array (hv.datum _ .refl) (hpath.not_mem hv) fun w hw => ?_
        exact ih (hv.element (.element hw)) (hpath.element hv hw)
          (by rw [List.length_cons]; omega)

/-! ### Reading -/

theorem exists_mem_zip {α β : Type} {xs : List α} {ys : List β} (h : xs.length = ys.length)
    {y : β} (hy : y ∈ ys) : ∃ x, (x, y) ∈ xs.zip ys := by
  rw [← List.map_snd_zip h.ge] at hy
  obtain ⟨⟨x, z⟩, hz, rfl⟩ := List.mem_map.mp hy
  exact ⟨x, hz⟩

/-- The tree of a value is one that the grammar can read as an expression. -/
theorem Spells.shaped (h : Spells s v t) : Tree.Shaped Tree.IsLiteral .expression t := by
  have hdigits : ∀ n : Nat, n < 10 ^ 20 → Tree.IsLiteral (.int n) := by
    intro n hn
    have hlength : (Nat.toDigits 10 n).length ≤ 20 :=
      (Nat.length_toDigits_le_iff (by decide) (by decide)).mpr hn
    exact ⟨n, rfl, hlength.trans (by decide)⟩
  induction h with
  | unit => exact .nil
  | bool => exact .bool
  | natural hn =>
      rw [intMax] at hn
      exact .number (hdigits _ (by omega))
  | negative _ hn =>
      rw [intMin] at hn
      exact .unary (by decide) (.number (hdigits _ (by omega)))
  | str => exact .string
  | array ha hlength hparts ih =>
      refine .array fun t ht => ?_
      obtain ⟨v, hv⟩ := exists_mem_zip hlength ht
      exact ih (v, t) hv

/-- What holds of trees wherever they stand holds of the same trees at other places. -/
theorem forall₂_of_unplaced {R : Value → Tree → Prop} {vs : List Value} {ts ts' : List Tree}
    (h : List.Forall₂ (fun v t => ∀ t' : Tree, t'.unplaced = t.unplaced → R v t') vs ts)
    (hts : ts'.map Tree.unplaced = ts.map Tree.unplaced) : List.Forall₂ R vs ts' := by
  induction h generalizing ts' with
  | nil =>
      obtain rfl := List.map_eq_nil_iff.mp hts
      exact .nil
  | cons ht _ ih =>
      obtain ⟨t', us, rfl, ht', hus⟩ := List.map_eq_cons_iff.mp hts
      exact .cons (ht t' ht') (ih hus)

/-- What a tree denotes does not depend on its places. -/
theorem Spells.of_unplaced (h : Spells s v t) {t' : Tree} (ht : t'.unplaced = t.unplaced) :
    Spells s v t' := by
  induction h generalizing t' with
  | unit =>
      obtain ⟨ts, p, rfl, hts⟩ := Grammar.node_of_unplaced ht
      obtain rfl := List.map_eq_nil_iff.mp hts
      exact .unit
  | bool =>
      obtain ⟨ts, p, rfl, hts⟩ := Grammar.node_of_unplaced ht
      obtain rfl := List.map_eq_nil_iff.mp hts
      exact .bool
  | natural hn =>
      obtain ⟨ts, p, rfl, hts⟩ := Grammar.node_of_unplaced ht
      obtain rfl := List.map_eq_nil_iff.mp hts
      exact .natural hn
  | negative hpos hn =>
      obtain ⟨ts, p, rfl, hts⟩ := Grammar.node_of_unplaced ht
      obtain ⟨u, rfl, hu⟩ := List.map_eq_singleton_iff.mp hts
      obtain ⟨us, q, rfl, hus⟩ := Grammar.node_of_unplaced hu
      obtain rfl := List.map_eq_nil_iff.mp hus
      exact .negative hpos hn
  | str =>
      obtain ⟨ts, p, rfl, hts⟩ := Grammar.node_of_unplaced ht
      obtain rfl := List.map_eq_nil_iff.mp hts
      exact .str
  | array ha hlength hparts ih =>
      obtain ⟨ts', p, rfl, hts⟩ := Grammar.node_of_unplaced ht
      have hall := List.forall₂_iff_zip.mpr ⟨hlength, fun hx t' ht' => @ih _ hx t' ht'⟩
      exact spells_array ha (forall₂_of_unplaced hall hts)

theorem follow_nil : Grammar.Follow 0 [] where
  delimited := by simp [Grammar.Delimited]
  quiet := rfl
  suffix := by simp
  operators := by simp [Grammar.levels, Grammar.operatorAt?]

/-- **A tree that denotes a value is read from its text.** -/
theorem parseExpression_write (filename : String) (h : Spells s v t) :
    parseExpression filename (String.ofList t.write) = .error (.error (.tooDeep filename)) ∨
      ∃ t', parseExpression filename (String.ofList t.write) = .ok t' ∧ Spells s v t' := by
  have hscanned : scanned (String.ofList t.write) = t.write := by
    rw [scanned, String.toList_ofList]
    exact expandTabs_of_tabless (tabless_write h.shaped)
  have hreadable := readings_of_shaped h.shaped
  have hopens : Grammar.Opens (t.write ++ []) := hreadable.opens [] follow_nil.delimited
  have hat : Cursor.At (t.write ++ []) (Cursor.start filename t.write) :=
    Cursor.at_here (List.append_nil _).symm hopens.starts rfl
  have hread := hreadable.expression Grammar.maxDepth .read follow_nil hat
  have hsettles : (Grammar.soleExpression (Cursor.start filename t.write)).Settles
      fun t' _ => t'.unplaced = t.unplaced := by
    refine Grammar.settles_bind hread fun t' c hc => ?_
    have hend : (Grammar.endOfText c).Settles fun _ _ => True := by
      have hskip : c.skip.rest = [] := by
        rw [Cursor.skip_rest (by rw [hc.2]; exact follow_nil.quiet), hc.2]
        rfl
      simp only [Grammar.endOfText, hskip]
      exact Grammar.Outcome.settles_ok.mpr trivial
    exact Grammar.settles_bind hend fun _ _ _ => Grammar.settles_pure hc.1
  simp only [parseExpression, parseWith, hscanned]
  rcases hsettles with ⟨t', c, hp, ht'⟩ | hp
  · simp only [hp]
    exact .inr ⟨t', rfl, h.of_unplaced ht'⟩
  · simp only [hp]
    exact .inl trivial

/-! ### Values with the same contents -/

namespace Store

/-- The values have the same contents, element by element. -/
inductive Alike (s : Store) : Value → Value → Prop where
  | unit : Alike s .unit .unit
  | bool (b : Bool) : Alike s (.bool b) (.bool b)
  | int (i : Int) : Alike s (.int i) (.int i)
  | str (t : String) : Alike s (.str t) (.str t)
  | array {a b : Nat} (ha : a < s.arrays.size) (hb : b < s.arrays.size)
      (hlength : (s.elements a).toList.length = (s.elements b).toList.length)
      (hparts : ∀ x ∈ (s.elements a).toList.zip (s.elements b).toList, Alike s x.1 x.2) :
      Alike s (.array a) (.array b)

/-- Arrays with alike elements are alike. -/
theorem alike_array {a b : Nat} (ha : a < s.arrays.size) (hb : b < s.arrays.size)
    (h : List.Forall₂ s.Alike (s.elements a).toList (s.elements b).toList) :
    s.Alike (.array a) (.array b) :=
  .array ha hb h.length_eq fun _ hx => (List.forall₂_iff_zip.mp h).2 hx

/-- Values with the same contents are equal. -/
theorem Alike.equalAt {v w : Value} (h : s.Alike v w) (steps : Nat) (path : List (Nat × Nat)) :
    s.equalAt steps path v w = true := by
  induction h generalizing steps path with
  | unit => simp [Store.equalAt, equalScalars]
  | bool b => simp [Store.equalAt, equalScalars]
  | int i => simp [Store.equalAt, equalScalars, compareNumbers]
  | str t => simp [Store.equalAt, equalScalars]
  | @array a b _ _ hlength hparts ih =>
      have hsize : (s.elements a).size = (s.elements b).size := by simpa using hlength
      cases steps with
      | zero => simp [Store.equalAt, hsize]
      | succ steps =>
          have hall : ((s.elements a).toList.zip (s.elements b).toList).all fun p =>
              s.equalAt steps ((a, b) :: path) p.1 p.2 :=
            List.all_eq_true.mpr fun p hp => ih p hp steps _
          unfold Store.equalAt
          simp [hsize, hall]

/-- Alike values are equal for the program. -/
theorem Alike.equal {v w : Value} (h : s.Alike v w) : s.equal v w = true := h.equalAt _ _

/-- The arrays of a store are in another one, as they are. -/
def ArraysIn (s s' : Store) : Prop :=
  ∀ a < s.arrays.size, a < s'.arrays.size ∧ s'.elements a = s.elements a

theorem ArraysIn.refl (s : Store) : s.ArraysIn s := fun _ ha => ⟨ha, rfl⟩

theorem ArraysIn.trans {s₁ s₂ s₃ : Store} (h₁ : s₁.ArraysIn s₂) (h₂ : s₂.ArraysIn s₃) :
    s₁.ArraysIn s₃ := by
  intro a ha
  obtain ⟨ha₂, heq₂⟩ := h₁ a ha
  obtain ⟨ha₃, heq₃⟩ := h₂ a ha₂
  exact ⟨ha₃, heq₃.trans heq₂⟩

/-- Alike values stay alike when no array of the store changes. -/
theorem Alike.mono {s' : Store} {v w : Value} (h : s.Alike v w) (hin : s.ArraysIn s') :
    s'.Alike v w := by
  induction h with
  | unit => exact .unit
  | bool b => exact .bool b
  | int i => exact .int i
  | str t => exact .str t
  | @array a b ha hb hlength hparts ih =>
      obtain ⟨ha', hea⟩ := hin a ha
      obtain ⟨hb', heb⟩ := hin b hb
      exact .array ha' hb' (by rw [hea, heb]; exact hlength) (by rw [hea, heb]; exact ih)

/-- A new array has the elements it is made of. -/
theorem elements_addArray (s : Store) (vs : Array Value) :
    (s.addArray vs).1.elements s.arrays.size = vs := by
  simp [addArray, elements, Array.getD_eq_getD_getElem?]

/-- A new array leaves the arrays before it as they were. -/
theorem arraysIn_addArray (s : Store) (vs : Array Value) : s.ArraysIn (s.addArray vs).1 := by
  intro a ha
  refine ⟨by simp [addArray]; omega, ?_⟩
  simp [addArray, elements, Array.getD_eq_getD_getElem?, Array.getElem?_push, Nat.ne_of_lt ha]

end Store

/-! ### Evaluation -/

namespace Run

variable {α β : Type}

/-- The computation ends well, with a result and a store that satisfy `Q`. -/
def Returns (r : Run α) (m : Machine) (Q : α → Store → Prop) : Prop :=
  ∃ a m', r.run.run m = (.ok a, m') ∧ Q a m'.store

variable {r : Run α} {m : Machine} {Q : α → Store → Prop}

theorem returns_pure {a : α} (h : Q a m.store) : (pure a : Run α).Returns m Q := ⟨a, m, rfl, h⟩

/-- A run that returns, followed by one that returns on what it gives, returns. -/
theorem Returns.bind {f : α → Run β} {P : β → Store → Prop} (h : r.Returns m Q)
    (hf : ∀ a m', Q a m'.store → (f a).Returns m' P) : (r >>= f).Returns m P := by
  obtain ⟨a, m', hrun, ha⟩ := h
  obtain ⟨b, m'', hrun', hb⟩ := hf a m' ha
  exact ⟨b, m'', by simp only [run_bind, hrun, hrun'], hb⟩

/-- What is traced and where a fault would be do not matter to what ends well. -/
theorem returns_enter (cfg : Settings) (line : Machine → String) (span : Option Span)
    (h : ∀ m', m'.store = m.store → r.Returns m' Q) :
    Returns (do traceLine cfg line; locate span r) m Q := by
  have htrace : (traceLine cfg line).Returns m fun _ s => s = m.store := by
    unfold traceLine
    split
    · exact ⟨_, _, rfl, rfl⟩
    · exact ⟨_, _, rfl, rfl⟩
  refine htrace.bind fun _ m' hm' => ?_
  obtain ⟨a, m'', hrun, ha⟩ := h m' hm'
  exact ⟨a, m'', by simp only [run_locate, hrun], ha⟩

end Run

/-- With enough fuel the node evaluates, in any frame, to a value with the contents of `v`. -/
def Rebuilds (s : Store) (v : Value) (n : Node) : Prop :=
  ∃ enough, ∀ fuel ≥ enough, ∀ cfg e m, s.ArraysIn m.store →
    (eval cfg fuel n e).Returns m fun w s' => m.store.ArraysIn s' ∧ s'.Alike v w

/-- A literal makes the value of its datum, and changes no array. -/
theorem rebuilds_literal {d : Datum} {k : Kind} {p : Option Span} (hd : Value.ofDatum d = v)
    (hv : s.IsDatum v) (halike : ∀ s' : Store, s'.Alike v v) :
    Rebuilds s v (.literal d k p) := by
  refine ⟨1, fun fuel hfuel cfg e m _ => ?_⟩
  obtain ⟨fuel, rfl⟩ := Nat.exists_eq_add_of_le' hfuel
  rw [eval]
  refine Run.returns_enter cfg _ p fun m' hm' => ?_
  have hresult : m.store.ArraysIn m'.store ∧ m'.store.Alike v v :=
    ⟨by rw [hm']; exact .refl _, halike _⟩
  rw [hd]
  cases v with
  | int i =>
      have hconfine : confine i "integer literal" = .ok i := if_pos hv
      simp only [hconfine]
      exact Run.returns_pure hresult
  | _ => exact Run.returns_pure hresult

/-- Rebuilds, of several nodes from left to right. -/
theorem evalAll_rebuilds {vs : List Value} {ns : List Node} (h : List.Forall₂ (Rebuilds s) vs ns) :
    ∃ enough, ∀ fuel ≥ enough, ∀ cfg e m, s.ArraysIn m.store →
      (evalAll cfg fuel ns e).Returns m fun ws s' =>
        m.store.ArraysIn s' ∧ List.Forall₂ s'.Alike vs ws := by
  induction h with
  | nil =>
      refine ⟨1, fun fuel hfuel cfg e m _ => ?_⟩
      obtain ⟨fuel, rfl⟩ := Nat.exists_eq_add_of_le' hfuel
      rw [evalAll]
      exact Run.returns_pure ⟨.refl _, .nil⟩
  | cons hn _ ih =>
      obtain ⟨k₁, hn⟩ := hn
      obtain ⟨k₂, hns⟩ := ih
      refine ⟨max k₁ k₂ + 1, fun fuel hfuel cfg e m hm => ?_⟩
      obtain ⟨fuel, rfl⟩ : ∃ n, fuel = n + 1 := ⟨fuel - 1, by omega⟩
      rw [evalAll]
      refine (hn fuel (by omega) cfg e m hm).bind fun w m' hw => ?_
      refine (hns fuel (by omega) cfg e m' (hm.trans hw.1)).bind fun ws m'' hws => ?_
      exact Run.returns_pure ⟨hw.1.trans hws.1, .cons (hw.2.mono hws.1) hws.2⟩

/-- If the elements are made again, an array of them is made again. -/
theorem rebuilds_array {a : Nat} {ns : List Node} {p : Option Span} (ha : a < s.arrays.size)
    (h : List.Forall₂ (Rebuilds s) (s.elements a).toList ns) :
    Rebuilds s (.array a) (.array ns p) := by
  obtain ⟨k, hns⟩ := evalAll_rebuilds h
  refine ⟨k + 1, fun fuel hfuel cfg e m hm => ?_⟩
  obtain ⟨fuel, rfl⟩ : ∃ n, fuel = n + 1 := ⟨fuel - 1, by omega⟩
  rw [eval]
  refine Run.returns_enter cfg _ p fun m' hm' => ?_
  refine (hns fuel (by omega) cfg e m' (hm' ▸ hm)).bind fun ws m'' hws => ?_
  have hadd := Store.arraysIn_addArray m''.store ws.toArray
  obtain ⟨ha', helements⟩ := (hm' ▸ hm).trans (hws.1.trans hadd) a ha
  have halike : (m''.store.addArray ws.toArray).1.Alike (.array a)
      (.array m''.store.arrays.size) := by
    refine Store.alike_array ha' (by simp [Store.addArray]) ?_
    rw [helements, Store.elements_addArray, List.toList_toArray]
    exact hws.2.imp fun _ _ hvw => hvw.mono hadd
  exact ⟨_, _, rfl, (hm' ▸ hws.1).trans hadd, halike⟩

/-- Trees that are analyzed and make their values again do so one after the other. -/
theorem analyzeAll_rebuilds {vs : List Value} {ts : List Tree} {inF : Bool}
    (h : List.Forall₂ (fun v t => ∃ n, Analysis.analyze inF t = .ok n ∧ Rebuilds s v n) vs ts) :
    ∃ ns, Analysis.analyzeAll inF ts = .ok ns ∧ List.Forall₂ (Rebuilds s) vs ns := by
  induction h with
  | nil => exact ⟨[], by rw [Analysis.analyzeAll], .nil⟩
  | cons hn _ ih =>
      obtain ⟨n, hn, hrebuilds⟩ := hn
      obtain ⟨ns, hns, hall⟩ := ih
      exact ⟨n :: ns, by rw [Analysis.analyzeAll, hn, hns]; rfl, .cons hrebuilds hall⟩

/-- **The analysis takes a tree that denotes a value to a node that rebuilds it.** -/
theorem Spells.analyze (h : Spells s v t) (inF : Bool) :
    ∃ n, Analysis.analyze inF t = .ok n ∧ Rebuilds s v n := by
  induction h with
  | unit => exact ⟨_, by rw [Analysis.analyze], rebuilds_literal rfl trivial fun _ => .unit⟩
  | bool => exact ⟨_, by rw [Analysis.analyze], rebuilds_literal rfl trivial fun _ => .bool _⟩
  | natural hn =>
      refine ⟨_, by rw [Analysis.analyze], rebuilds_literal rfl ⟨?_, hn⟩ fun _ => .int _⟩
      rw [intMin]
      omega
  | negative hpos hn =>
      refine ⟨_, by rw [Analysis.analyze]; rfl, rebuilds_literal rfl ⟨hn, ?_⟩ fun _ => .int _⟩
      rw [intMax]
      omega
  | str => exact ⟨_, by rw [Analysis.analyze], rebuilds_literal rfl trivial fun _ => .str _⟩
  | array ha hlength hparts ih =>
      obtain ⟨ns, hns, hall⟩ := analyzeAll_rebuilds
        (List.forall₂_iff_zip.mpr ⟨hlength, fun hx => ih _ hx⟩)
      exact ⟨_, by rw [Analysis.analyze, hns]; rfl, rebuilds_array ha hall⟩

/-! ### Different texts for different values -/

open Grammar (Delimited delimited_cons)

/-- What the text of a value starts with; any digit counts as zero. -/
def Value.mark : Value → Char
  | .unit => 'n'
  | .bool b => if b then 't' else 'f'
  | .int i => if 0 ≤ i then '0' else '-'
  | .str _ => Text.doubleQuote
  | _ => '['

theorem Value.mark_ne_bracket (v : Value) : v.mark ≠ ']' := by
  unfold mark
  split
  · decide
  · split <;> decide
  · split <;> decide
  · decide
  · decide

/-- The first character of a literal tells what kind of value it denotes. -/
theorem Spells.mark (h : Spells s v t) :
    ∃ x xs, t.write = x :: xs ∧ (if x.isDigit then '0' else x) = v.mark := by
  cases h with
  | unit => exact ⟨_, _, rfl, by decide⟩
  | @bool b p => cases b <;> exact ⟨_, _, rfl, by decide⟩
  | @natural n p hn =>
      obtain ⟨x, xs, hxs, hx⟩ := Grammar.exists_digit n
      exact ⟨x, xs, hxs, by simp [Value.mark, hx]⟩
  | negative hpos hn =>
      refine ⟨'-', _, rfl, ?_⟩
      rw [Value.mark, if_neg (by decide), if_neg (by omega)]
  | str => exact ⟨_, _, String.toList_ofList, rfl⟩
  | array => exact ⟨_, _, Tree.write_array .., rfl⟩

/-- The first character tells the kind of a value, and the sign of a number. -/
theorem Spells.mark_eq (h : Spells s v t) {w : Value} {u : Tree} (h' : Spells s w u)
    {r r' : List Char} (htext : t.write ++ r = u.write ++ r') : v.mark = w.mark := by
  obtain ⟨x, xs, hxs, hx⟩ := h.mark
  obtain ⟨y, ys, hys, hy⟩ := h'.mark
  rw [hxs, hys, List.cons_append, List.cons_append, List.cons.injEq] at htext
  rw [← hx, ← hy, htext.1]

/-- Digits that end where no digit follows tell the number. -/
theorem digits_prefix {n k : Nat} {r r' : List Char} (hr : Delimited r) (hr' : Delimited r')
    (h : Nat.toDigits 10 n ++ r = Nat.toDigits 10 k ++ r') : n = k ∧ r = r' := by
  have hlength : (Nat.toDigits 10 n).length = (Nat.toDigits 10 k).length := by
    have hn := Grammar.number?_toDigits n hr
    rw [h, Grammar.number?_toDigits k hr'] at hn
    exact (Option.some.inj hn).symm
  obtain ⟨hdigits, hrest⟩ := List.append_inj h hlength
  refine ⟨?_, hrest⟩
  rw [← Grammar.digitsValue_toDigits n, hdigits, Grammar.digitsValue_toDigits]

/-- A quoted text tells the text, whatever follows its closing quote. -/
theorem literal_prefix {t u : String} {r r' : List Char}
    (h : (Text.literal t).toList ++ r = (Text.literal u).toList ++ r') : t = u ∧ r = r' := by
  have hlength : (Text.literal t).toList.length = (Text.literal u).toList.length := by
    have ht := Grammar.string?_literal t r
    rw [h, Grammar.string?_literal u r'] at ht
    exact (Option.some.inj ht).symm
  obtain ⟨hliteral, hrest⟩ := List.append_inj h hlength
  refine ⟨String.toList_inj.mp ?_, hrest⟩
  have hinside := congrArg (Text.unescape ∘ Grammar.stringInside) hliteral
  simpa [Grammar.stringInside_literal, Grammar.unescape_literal] using hinside

/-- What follows one of several texts in brackets, of which `more` are left. -/
def afterItem (more : List (List Char)) (r : List Char) : List Char :=
  match more with
  | [] => ']' :: r
  | more => ',' :: ' ' :: (Tree.separated more ++ ']' :: r)

/-- Separated items before a closing bracket are the first item and what comes after it. -/
theorem separated_cons (x : List Char) (more : List (List Char)) (r : List Char) :
    Tree.separated (x :: more) ++ ']' :: r = x ++ afterItem more r := by
  cases more with
  | nil => rfl
  | cons y ys => simp [Tree.separated, afterItem]

/-- What comes after an item delimits it: a comma or the closing bracket. -/
theorem delimited_afterItem (more : List (List Char)) (r : List Char) :
    Delimited (afterItem more r) := by
  cases more with
  | nil => exact delimited_cons (by decide)
  | cons y ys => exact delimited_cons (by decide)

theorem Spells.ne_bracket (h : Spells s v t) (xs r : List Char) : t.write ++ xs ≠ ']' :: r := by
  intro htext
  obtain ⟨x, ys, hys, hx⟩ := h.mark
  rw [hys, List.cons_append, List.cons.injEq] at htext
  rw [htext.1] at hx
  exact v.mark_ne_bracket hx.symm

/-- The text of a value tells its contents and its end. -/
def Unique (s : Store) (v : Value) (t : Tree) : Prop :=
  ∀ {w u r r'}, Spells s w u → Delimited r → Delimited r' → t.write ++ r = u.write ++ r' →
    s.Alike v w ∧ r = r'

/-- Separated literals before a closing bracket tell their values, by induction on the items. -/
theorem separated_unique {vs ws : List Value} {ts us : List Tree} {r r' : List Char}
    (h : List.Forall₂ (fun v t => Spells s v t ∧ Unique s v t) vs ts)
    (h' : List.Forall₂ (Spells s) ws us)
    (htext : Tree.separated (ts.map Tree.write) ++ ']' :: r
      = Tree.separated (us.map Tree.write) ++ ']' :: r') :
    List.Forall₂ s.Alike vs ws ∧ r = r' := by
  induction h generalizing ws us with
  | nil =>
      cases h' with
      | nil => exact ⟨.nil, (List.cons.inj htext).2⟩
      | cons hw hws =>
          rw [List.map_cons, separated_cons] at htext
          exact absurd htext.symm (hw.ne_bracket _ _)
  | cons hv hvs ih =>
      rw [List.map_cons, separated_cons] at htext
      cases h' with
      | nil => exact absurd htext (hv.1.ne_bracket _ _)
      | cons hw hws =>
          rw [List.map_cons, separated_cons] at htext
          obtain ⟨halike, hafter⟩ :=
            hv.2 hw (delimited_afterItem _ _) (delimited_afterItem _ _) htext
          -- both lists end here, or both go on
          cases hvs with
          | nil =>
              cases hws with
              | nil => exact ⟨.cons halike .nil, (List.cons.inj hafter).2⟩
              | cons => simp [afterItem] at hafter
          | cons =>
              cases hws with
              | nil => simp [afterItem] at hafter
              | cons hw' hws' =>
                  obtain ⟨hmore, hr⟩ := ih (.cons hw' hws')
                    (List.cons.inj (List.cons.inj hafter).2).2
                  exact ⟨.cons halike hmore, hr⟩

/-- **The text of a value is no beginning of the text of a value with other contents.** -/
theorem Spells.unique (h : Spells s v t) : Unique s v t := by
  induction h with
  | unit =>
      intro w u r r' h' hr hr' htext
      have hmark := Spells.unit.mark_eq h' htext
      cases h' with
      | unit => exact ⟨.unit, List.append_cancel_left htext⟩
      | _ => grind [Value.mark, Text.doubleQuote]
  | @bool b p =>
      intro w u r r' h' hr hr' htext
      have hmark := (Spells.bool (p := p)).mark_eq h' htext
      cases h' with
      | @bool b' p' =>
          obtain rfl : b = b' := by
            cases b <;> cases b' <;> simp [Value.mark] at hmark <;> rfl
          exact ⟨.bool b, List.append_cancel_left htext⟩
      | _ => grind [Value.mark, Text.doubleQuote]
  | natural hn =>
      intro w u r r' h' hr hr' htext
      have hmark := (Spells.natural hn).mark_eq h' htext
      cases h' with
      | natural hn' =>
          obtain ⟨rfl, rfl⟩ := digits_prefix hr hr' htext
          exact ⟨.int _, rfl⟩
      | _ => grind [Value.mark, Text.doubleQuote]
  | negative hpos hn =>
      intro w u r r' h' hr hr' htext
      have hmark := (Spells.negative hpos hn).mark_eq h' htext
      cases h' with
      | negative hpos' hn' =>
          obtain ⟨rfl, rfl⟩ := digits_prefix hr hr' (List.cons.inj htext).2
          exact ⟨.int _, rfl⟩
      | _ => grind [Value.mark, Text.doubleQuote]
  | str =>
      intro w u r r' h' hr hr' htext
      have hmark := Spells.str.mark_eq h' htext
      cases h' with
      | str =>
          obtain ⟨rfl, rfl⟩ := literal_prefix htext
          exact ⟨.str _, rfl⟩
      | _ => grind [Value.mark, Text.doubleQuote]
  | array ha hlength hparts ih =>
      intro w u r r' h' hr hr' htext
      have hmark := (Spells.array ha hlength hparts).mark_eq h' htext
      cases h' with
      | array ha' hlength' hparts' =>
          simp only [Tree.write_array, List.cons_append, List.append_assoc, List.nil_append,
            List.cons.injEq, true_and] at htext
          obtain ⟨hall, rfl⟩ := separated_unique
            (List.forall₂_iff_zip.mpr ⟨hlength, fun hx => ⟨hparts _ hx, ih _ hx⟩⟩)
            (List.forall₂_iff_zip.mpr ⟨hlength', fun hx => hparts' _ hx⟩) htext
          exact ⟨Store.alike_array ha ha' hall, rfl⟩
      | _ => grind [Value.mark, Text.doubleQuote]

/-! ### The round trip -/

/-- **What is shown reads back.** The text of a value is read as an expression, unless it is nested
too deeply; analyzing the expression and evaluating it in any frame gives an equal value. Values
with the same text are equal. -/
theorem display_reads_back (cfg : Settings) (filename : String) (m : Machine) (e : Nat) (v : Value)
    (hv : m.store.Denotable v) :
    ∃ text, m.store.showValue true v = .ok text ∧
      (parseExpression filename text = .error (.error (.tooDeep filename)) ∨
        ∃ t n, parseExpression filename text = .ok t ∧ analyzeTree t = .ok n ∧
          ∃ enough, ∀ fuel ≥ enough, ∃ w m',
            (eval cfg fuel n e).run.run m = (.ok w, m') ∧ m'.store.equal v w = true) ∧
      ∀ w, m.store.Denotable w → m.store.showValue true w = .ok text →
        m.store.equal v w = true := by
  have hshow : ∀ w, m.store.Denotable w → ∃ t, Spells m.store w t ∧
      m.store.showValue true w = .ok (String.ofList t.write) := fun w hw =>
    showAt_eq_write hw ⟨.nil, by simp, by simp⟩ (by simp)
  obtain ⟨t, ht, htext⟩ := hshow v hv
  refine ⟨_, htext, ?_, fun w hw hsame => ?_⟩
  · rcases parseExpression_write filename ht with hdeep | ⟨t', hparse, ht'⟩
    · exact .inl hdeep
    · obtain ⟨n, hn, enough, heval⟩ := ht'.analyze false
      refine .inr ⟨t', n, hparse, by rw [analyzeTree, hn]; rfl, enough, fun fuel hfuel => ?_⟩
      obtain ⟨w, m', hrun, -, halike⟩ := heval fuel hfuel cfg e m (.refl _)
      exact ⟨w, m', hrun, halike.equal⟩
  · obtain ⟨u, hu, hutext⟩ := hshow w hw
    rw [hutext] at hsame
    have hwrite : t.write ++ [] = u.write ++ [] := by
      rw [String.ofList_inj.mp (Except.ok.inj hsame)]
    exact (ht.unique hu follow_nil.delimited follow_nil.delimited hwrite).1.equal

/-- Two arrays, of which the first holds the second, the least integer and a text with marks. -/
def twoArrays : Machine :=
  { Machine.fresh with store := { Store.fresh with arrays := #[
      #[.array 1, .int intMin, .str "a\"\\\n\t, ]"], #[.bool true, .unit, .int 7]] } }

theorem twoArrays_denotable : twoArrays.store.Denotable (.array 0) := by
  refine Store.denotable_array (by decide) ?_
  refine List.forall_mem_cons.mpr ⟨Store.denotable_array (by decide) ?_, ?_⟩
  · refine List.forall_mem_cons.mpr ⟨Store.denotable_scalar trivial nofun, ?_⟩
    refine List.forall_mem_cons.mpr ⟨Store.denotable_scalar trivial nofun, ?_⟩
    exact List.forall_mem_singleton.mpr (Store.denotable_scalar ⟨by decide, by decide⟩ nofun)
  · refine List.forall_mem_cons.mpr ⟨Store.denotable_scalar ⟨by decide, by decide⟩ nofun, ?_⟩
    exact List.forall_mem_singleton.mpr (Store.denotable_scalar trivial nofun)

/-- The marks inside the text are escaped, and the least integer is read with its sign. -/
theorem twoArrays_read_back :
    ∃ text t n, text = "[[true, nil, 7], -9223372036854775808, \"a\\\"\\\\\\n\\t, ]\"]" ∧
      twoArrays.store.showValue true (.array 0) = .ok text ∧
      parseExpression "main" text = .ok t ∧ analyzeTree t = .ok n ∧
      ∃ enough, ∀ fuel ≥ enough, ∃ w m', (eval default fuel n 0).run.run twoArrays = (.ok w, m') ∧
        m'.store.equal (.array 0) w = true := by
  obtain ⟨text, hshow, hread, -⟩ :=
    display_reads_back default "main" twoArrays 0 (.array 0) twoArrays_denotable
  have htext : (twoArrays.store.showValue true (.array 0)).toOption
      = some "[[true, nil, 7], -9223372036854775808, \"a\\\"\\\\\\n\\t, ]\"]" := by
    decide +kernel
  have hok : (parseExpression "main"
      "[[true, nil, 7], -9223372036854775808, \"a\\\"\\\\\\n\\t, ]\"]").isOk = true := by
    decide +kernel
  rw [hshow] at htext
  obtain rfl := Option.some.inj htext
  rcases hread with hdeep | ⟨t, n, hparse, hanalyze, heval⟩
  · rw [hdeep] at hok
    cases hok
  · exact ⟨_, t, n, rfl, hshow, hparse, hanalyze, heval⟩

end Ember
