import Ember.Proofs.Grammar.Scan

/-!
# Grammar — what reading does to the text

A parser that succeeds goes from a text to a rest of it. It closes the brackets that it opens, and
when it reads, it does not get over what dooms the text: a text that is doomed before is doomed
after.

* `Passage`: a parser may go from a text to a rest of it.
* `Consumes`: the same for a parser that starts with a token of its own.
* `Opened`: inside a bracket.
* `Pending`: after something that needs something else after it.
-/

namespace Ember.Grammar

open Cursor (isSpace isInlineSpace)
open Lexeme

variable {mode : Mode} {cs ds es : List Char} {x : Char} {xs : List Char} {n : Nat} {w : String}

/-! ### Passages -/

/-- The brackets in between are balanced, and in reading nothing in between is what dooms the
text. -/
structure Passage (mode : Mode) (cs ds : List Char) : Prop where
  scan : Scan cs ds
  balance : balance cs = balance ds
  doomed : mode = .read → Doomed cs → Doomed ds

/-- Passing nothing. -/
theorem Passage.refl (mode : Mode) (cs : List Char) : Passage mode cs cs :=
  ⟨.refl cs, rfl, fun _ h => h⟩

/-- Two passages one after the other. -/
theorem Passage.trans (h₁ : Passage mode cs ds) (h₂ : Passage mode ds es) : Passage mode cs es :=
  ⟨h₁.scan.trans h₂.scan, h₁.balance.trans h₂.balance,
    fun hmode h => h₂.doomed hmode (h₁.doomed hmode h)⟩

/-- A passage leaves no longer text. -/
theorem Passage.length_le (h : Passage mode cs ds) : ds.length ≤ cs.length :=
  h.scan.suffix.length_le

/-- One lexeme that is no bracket. -/
structure Inert (cs ds : List Char) : Prop where
  scan : Scan cs ds
  balance : balance cs = balance ds
  doomed : Doomed cs → Dangling cs ∨ Doomed ds
  shorter : ds.length < cs.length

/-- A lexeme that is no bracket is inert, -/
theorem inert_next (hx : weight x = 0) : Inert (x :: xs) (after (x :: xs)) := by
  have hbalance : balance (x :: xs) = balance (after (x :: xs)) := by
    rw [balance_cons, hx, Int.zero_add]
  refine ⟨.next (.refl _), hbalance, fun h => ?_, after_length_lt x xs⟩
  rcases h.cases with (hun | hun) | hrest
  · exact .inr (doomed_of_balance (hbalance ▸ hun))
  · exact .inl hun
  · exact .inr hrest

/-- be it a mark -/
theorem inert_mark (hmark : isMark x) (hx : weight x = 0) : Inert (x :: xs) xs := by
  have hnext : Inert (x :: xs) (after (x :: xs)) := inert_next hx
  rwa [after_of_mark hmark] at hnext

/-- or a name. -/
theorem inert_name (h : name? cs = some n) : Inert cs (cs.drop n) := by
  obtain ⟨x, xs, rfl, hx, -⟩ := exists_of_name? h
  rw [← size_of_name h]
  exact inert_next (weight_of_not_special (not_special_of_isNameStart hx))

/-- What needs nothing after it. -/
theorem Inert.passage (h : Inert cs ds) (hneeds : mode = .read → ¬ Dangling cs) :
    Passage mode cs ds := by
  refine ⟨h.scan, h.balance, fun hmode hdoomed => ?_⟩
  rcases h.doomed hdoomed with hdangling | hrest
  · exact (hneeds hmode hdangling).elim
  · exact hrest

/-- A mark that is no bracket and no operator. -/
theorem passage_mark (hmark : isMark x) (hx : x ∉ special) : Passage mode (x :: xs) xs :=
  (inert_mark hmark (weight_of_not_special hx)).passage
    fun _ => not_dangling_of_mark hmark (not_operatorChar hx) xs

/-- Blank space does not matter. -/
theorem passage_dropWhile {p : Char → Bool} (hp : ∀ x, p x → isSpace x) (cs : List Char) :
    Passage mode cs (cs.dropWhile p) := by
  induction cs with
  | nil => exact .refl _ _
  | cons x xs ih =>
      by_cases hx : p x
      · rw [List.dropWhile_cons_of_pos hx]
        have hspace := hp x hx
        exact (passage_mark (isMark_of_isSpace hspace) (not_special (.inr hspace))).trans ih
      · rw [List.dropWhile_cons_of_neg hx]
        exact .refl _ _

theorem passage_skip (cs : List Char) : Passage mode cs (cs.dropWhile isSpace) :=
  passage_dropWhile (fun _ h => h) cs

/-- Blank space that stays on its line is blank space. -/
theorem isSpace_of_isInlineSpace (x : Char) (h : isInlineSpace x) : isSpace x := by
  simp only [isInlineSpace, isSpace, Bool.or_eq_true, beq_iff_eq] at h ⊢
  rcases h with rfl | rfl <;> simp

theorem passage_skipInLine (cs : List Char) : Passage mode cs (cs.dropWhile isInlineSpace) :=
  passage_dropWhile isSpace_of_isInlineSpace cs

/-- The words after which something is needed. -/
theorem dangling_word (hcs : cs = x :: xs) (hx : Text.isNameStart x) (h : Dangling cs) :
    ∃ w ∈ ["fun", "return"], WordAt w cs := by
  cases h with
  | operator hop _ =>
      cases hcs
      exact (not_operatorChar (not_special_of_isNameStart hx) hop).elim
  | function hword _ => exact ⟨_, by simp, hword⟩
  | nothing hword _ _ => exact ⟨_, by simp, hword⟩

/-- A name. In reading it is no keyword. -/
theorem passage_name (h : name? cs = some n)
    (hfree : mode = .read → String.ofList (cs.take n) ∉ keywords) :
    Passage mode cs (cs.drop n) := by
  refine (inert_name h).passage fun hmode hdangling => ?_
  obtain ⟨x, xs, hcs, hx, -⟩ := exists_of_name? h
  obtain ⟨w, hw, hword⟩ := dangling_word hcs hx hdangling
  have hall : ∀ w ∈ ["fun", "return"], w ∈ keywords := by decide
  have hn : n = w.length := Option.some.inj (h.symm.trans hword.size)
  refine hfree hmode ?_
  rw [hn, ← String.length_toList, ← List.prefix_iff_eq_take.mp hword.text, String.ofList_toList]
  exact hall w hw

/-- A word that is neither that of functions nor that of returns. -/
theorem passage_word (h : WordAt w cs) (hw : w ∉ ["fun", "return"]) :
    Passage mode cs (cs.drop w.length) := by
  refine (inert_name h.size).passage fun _ hdangling => ?_
  obtain ⟨x, xs, hcs, hx, -⟩ := exists_of_name? h.size
  obtain ⟨v, hv, hword⟩ := dangling_word hcs hx hdangling
  exact hw (h.unique hword ▸ hv)

/-- A word starts as a name does. -/
theorem not_wordAt_of_not_isNameStart (hx : Text.isNameStart x = false) (w : String)
    (xs : List Char) : ¬ WordAt w (x :: xs) := by
  intro h
  have hsize := h.size
  rw [name?_eq_none hx] at hsize
  cases hsize

/-- A number needs nothing after it, -/
theorem passage_number (h : number? cs = some n) : Passage mode cs (cs.drop n) := by
  cases cs with
  | nil => cases h
  | cons x xs =>
      have hx : Text.isDigit x := by
        by_contra hx
        rw [number?_eq_none (by simpa using hx)] at h
        cases h
      have hstart : Text.isNameStart x = false := by
        by_contra hstart
        rw [not_isDigit_of_isNameStart (by simpa using hstart)] at hx
        cases hx
      have hspecial : x ∉ special := not_special (.inl (by simp [isMark, hx]))
      rw [← size_of_number h]
      refine (inert_next (weight_of_not_special hspecial)).passage fun _ => ?_
      exact not_dangling (not_operatorChar hspecial) (not_wordAt_of_not_isNameStart hstart _ _)
        (not_wordAt_of_not_isNameStart hstart _ _)

/-- nor does a string literal. -/
theorem passage_string (h : string? cs = some n) : Passage mode cs (cs.drop n) := by
  obtain ⟨xs, m, rfl, -, -⟩ := exists_of_string? h
  rw [← size_of_string h]
  refine (inert_next (by decide)).passage fun _ => ?_
  exact not_dangling (by decide) (not_wordAt_of_not_isNameStart (by decide) _ _)
    (not_wordAt_of_not_isNameStart (by decide) _ _)

/-! ### Beginnings -/

/-- The first token is none that goes on with a statement. -/
def Begins (mode : Mode) (cs : List Char) : Prop :=
  ∃ x xs, cs.dropWhile isSpace = x :: xs ∧ x ≠ ';' ∧ x ≠ '=' ∧
    (mode = .read → ¬ WordAt "else" (x :: xs))

/-- Blank space is no token. -/
theorem Begins.not_blank (h : Begins mode cs) : ¬ Blank cs := by
  obtain ⟨x, xs, hcs, -⟩ := h
  rw [blank_iff, hcs]
  exact List.cons_ne_nil x xs

/-- A mark that is none of two does not go on with a statement. -/
theorem begins_of_mark (hcs : cs.dropWhile isSpace = x :: xs)
    (hx : Text.isNameStart x = false) (hsemicolon : x ≠ ';') (hequal : x ≠ '=') :
    Begins mode cs :=
  ⟨x, xs, hcs, hsemicolon, hequal, fun _ => not_wordAt_of_not_isNameStart hx _ _⟩

/-- Nor does a word, except for one in reading. -/
theorem begins_of_nameStart (hcs : cs.dropWhile isSpace = x :: xs) (hx : Text.isNameStart x)
    (hword : mode = .read → ¬ WordAt "else" (x :: xs)) : Begins mode cs := by
  refine ⟨x, xs, hcs, ?_, ?_, hword⟩ <;> rintro rfl <;> exact absurd hx (by decide)

theorem begins_of_word (h : WordAt w (cs.dropWhile isSpace)) (hw : w ≠ "else") :
    Begins mode cs := by
  obtain ⟨x, xs, hcs, hx, -⟩ := exists_of_name? h.size
  rw [hcs] at h
  exact begins_of_nameStart hcs hx fun _ hword => hw (h.unique hword)

/-- The parser starts with a token of its own, and a passage follows. -/
structure Consumes (mode : Mode) (cs ds : List Char) : Prop extends Passage mode cs ds where
  begins : Begins mode cs
  shorter : ds.length < cs.length

/-- What comes after the first token may be passed. -/
theorem Consumes.trans (h : Consumes mode cs ds) (h' : Passage mode ds es) :
    Consumes mode cs es :=
  ⟨h.toPassage.trans h', h.begins, Nat.lt_of_le_of_lt h'.length_le h.shorter⟩

theorem dropWhile_dropWhile (p : Char → Bool) (cs : List Char) :
    (cs.dropWhile p).dropWhile p = cs.dropWhile p := by
  induction cs with
  | nil => rfl
  | cons x xs ih =>
      by_cases hx : p x
      · rw [List.dropWhile_cons_of_pos hx, ih]
      · rw [List.dropWhile_cons_of_neg hx, List.dropWhile_cons_of_neg hx]

/-- Blank space before the first token does not matter. -/
theorem begins_skip : Begins mode (cs.dropWhile isSpace) ↔ Begins mode cs := by
  rw [Begins, Begins, dropWhile_dropWhile]

/-- Blank space before the first token does not matter. -/
theorem Consumes.of_skip (h : Consumes mode (cs.dropWhile isSpace) ds) : Consumes mode cs ds :=
  ⟨(passage_skip cs).trans h.toPassage, begins_skip.mp h.begins,
    Nat.lt_of_lt_of_le h.shorter (List.dropWhile_suffix _).length_le⟩

/-! ### Brackets -/

/-- A bracket has been opened, and since then the brackets are balanced. -/
structure Opened (mode : Mode) (cs ds : List Char) : Prop where
  scan : Scan cs ds
  balance : balance cs = balance ds + 1
  doomed : mode = .read → Doomed cs → Doomed ds ∨ 0 ≤ Lexeme.balance ds
  shorter : ds.length < cs.length

/-- An opening bracket is open once it has been passed. -/
theorem opened_bracket (hx : x ∈ ['(', '[', '\x7b']) : Opened mode (x :: xs) xs := by
  have hall : ∀ y ∈ ['(', '[', '\x7b'], isMark y = true ∧ weight y = 1 ∧ y ∉ operatorChars :=
    forall_of_all (by decide)
  obtain ⟨hmark, hweight, hop⟩ := hall x hx
  have hafter := after_of_mark hmark xs
  have hbalance : balance (x :: xs) = balance xs + 1 := by
    rw [balance_cons, hweight, hafter, Int.add_comm]
  have hscan : Scan (x :: xs) xs := by
    refine .next ?_
    rw [hafter]
    exact .refl xs
  refine ⟨hscan, hbalance, fun _ h => ?_, Nat.lt_succ_self _⟩
  rcases h.cases with (hun | hun) | hrest
  · exact .inr (by omega)
  · exact (not_dangling_of_mark hmark hop xs hun).elim
  · exact .inl (hafter ▸ hrest)

/-- A bracket is opened after a passage, -/
theorem Passage.opened (h : Passage mode cs ds) (h' : Opened mode ds es) : Opened mode cs es :=
  ⟨h.scan.trans h'.scan, h.balance.trans h'.balance,
    fun hmode hdoomed => h'.doomed hmode (h.doomed hmode hdoomed),
    Nat.lt_of_lt_of_le h'.shorter h.length_le⟩

/-- and stays open during another one. -/
theorem Opened.trans (h : Opened mode cs ds) (h' : Passage mode ds es) : Opened mode cs es := by
  refine ⟨h.scan.trans h'.scan, h'.balance ▸ h.balance, fun hmode hdoomed => ?_,
    Nat.lt_of_le_of_lt h'.length_le h.shorter⟩
  rcases h.doomed hmode hdoomed with hds | hds
  · exact .inl (h'.doomed hmode hds)
  · exact .inr (h'.balance ▸ hds)

/-- The bracket is closed. -/
theorem Opened.close (h : Opened mode cs ds) (hds : ds.dropWhile isSpace = x :: es)
    (hx : x ∈ [')', ']', '\x7d']) : Passage mode cs es := by
  have hall : ∀ y ∈ [')', ']', '\x7d'], isMark y = true ∧ weight y = -1 ∧ y ∉ operatorChars :=
    forall_of_all (by decide)
  obtain ⟨hmark, hweight, hop⟩ := hall x hx
  have hafter := after_of_mark hmark es
  have hopen : Opened mode cs (x :: es) := hds ▸ h.trans (passage_skip ds)
  have hbalance : Lexeme.balance (x :: es) = Lexeme.balance es - 1 := by
    rw [balance_cons, hweight, hafter]
    omega
  have hscan : Scan (x :: es) es := by
    refine .next ?_
    rw [hafter]
    exact .refl es
  refine ⟨hopen.scan.trans hscan, ?_, fun hmode hdoomed => ?_⟩
  · rw [hopen.balance, hbalance]
    omega
  · rcases hopen.doomed hmode hdoomed with hrest | hrest
    · rcases hrest.cases with (hun | hun) | hrest
      · exact Lexeme.doomed_of_balance (by omega)
      · exact (not_dangling_of_mark hmark hop es hun).elim
      · exact hafter ▸ hrest
    · exact Lexeme.doomed_of_balance (by omega)

/-- A bracket that stays open dooms the text. -/
theorem Opened.doomed_of_balance (h : Opened mode cs ds) (hds : Lexeme.balance ds = 0) :
    Doomed cs := by
  refine Lexeme.doomed_of_balance ?_
  rw [h.balance, hds]
  decide

/-! ### What needs something after it -/

/-- What has been read needs a text after it that satisfies `N`. -/
structure Pending (mode : Mode) (N : List Char → Prop) (cs ds : List Char) : Prop where
  scan : Scan cs ds
  balance : balance cs = balance ds
  lacking : ¬ N ds → Doomed cs
  doomed : mode = .read → N ds → Doomed cs → Doomed ds
  shorter : ds.length < cs.length

variable {N : List Char → Prop}

/-- What needs something may come after a passage. -/
theorem Passage.pending (h : Passage mode cs ds) (h' : Pending mode N ds es) :
    Pending mode N cs es :=
  ⟨h.scan.trans h'.scan, h.balance.trans h'.balance,
    fun hlacks => .of_scan h.scan (h'.lacking hlacks),
    fun hmode hN hdoomed => h'.doomed hmode hN (h.doomed hmode hdoomed),
    Nat.lt_of_lt_of_le h'.shorter h.length_le⟩

/-- What is needed is there. -/
theorem Pending.passage (h : Pending mode N cs ds) (hN : N ds) : Passage mode cs ds :=
  ⟨h.scan, h.balance, fun hmode => h.doomed hmode hN⟩

/-- What needs a text that satisfies `N` after it. -/
theorem Inert.pending (h : Inert cs ds) (hlacks : ¬ N ds → Dangling cs)
    (hmore : N ds → ¬ Dangling cs) : Pending mode N cs ds := by
  refine ⟨h.scan, h.balance, fun hN => ⟨cs, .refl cs, .inr (hlacks hN)⟩,
    fun _ hN hdoomed => ?_, h.shorter⟩
  rcases h.doomed hdoomed with hdangling | hrest
  · exact (hmore hN hdangling).elim
  · exact hrest

/-- The last character of an operator needs an operand after it. -/
theorem pending_operatorChar (hx : x ∈ operatorChars) :
    Pending mode (¬ Blank ·) (x :: xs) xs := by
  have hall : ∀ y ∈ operatorChars, isMark y = true ∧ weight y = 0 := forall_of_all (by decide)
  obtain ⟨hmark, hweight⟩ := hall x hx
  refine (inert_mark hmark hweight).pending (fun h => .operator hx (not_not.mp h)) fun hmore h => ?_
  cases h with
  | operator _ hblank => exact hmore hblank
  | function hword _ => exact not_wordAt_of_mark hmark _ _ hword
  | nothing hword _ _ => exact not_wordAt_of_mark hmark _ _ hword

/-- An operator needs an operand after it. -/
theorem pending_operator {op : List Char} (hop : ∀ x ∈ op, x ∈ operatorChars) (hne : op ≠ []) :
    Pending mode (¬ Blank ·) (op ++ ds) ds := by
  induction op with
  | nil => exact (hne rfl).elim
  | cons x op ih =>
      obtain ⟨hx, hop⟩ := List.forall_mem_cons.mp hop
      by_cases hlast : op = []
      · subst hlast
        exact pending_operatorChar hx
      · have hmore : ¬ Blank (op ++ ds) := by
          obtain ⟨y, ys, rfl⟩ := List.exists_cons_of_ne_nil hlast
          intro hblank
          have hspecial : y ∈ special := List.mem_append_left _ (hop y List.mem_cons_self)
          exact not_special (.inr (hblank y (by simp))) hspecial
        exact ((pending_operatorChar hx).passage hmore).pending (ih hop hlast)

/-- The word of a function needs a block after it. -/
theorem pending_function (h : WordAt "fun" cs) : Pending mode ('\x7b' ∈ ·) cs (cs.drop 3) := by
  refine (inert_name h.size).pending (fun hlacks => .function h fun hmem => hlacks ?_)
    fun hbody hdangling => ?_
  · obtain ⟨rest, rfl⟩ := h.text
    have hrest : '\x7b' ∈ rest := by simpa using hmem
    exact hrest
  · obtain ⟨x, xs, hcs, hx, -⟩ := exists_of_name? h.size
    cases hdangling with
    | operator hop _ =>
        cases hcs
        exact not_operatorChar (not_special_of_isNameStart hx) hop
    | function _ hno => exact hno (List.mem_of_mem_drop hbody)
    | nothing hword _ _ => exact absurd (h.unique hword) (by decide)

/-- What dangles at the word of returns. -/
theorem dangling_return (h : WordAt "return" cs) (hdangling : Dangling cs) :
    Blank (cs.drop 6) ∧ endsStatement (cs.drop 6) = false := by
  obtain ⟨x, xs, hcs, hx, -⟩ := exists_of_name? h.size
  cases hdangling with
  | operator hop _ =>
      cases hcs
      exact (not_operatorChar (not_special_of_isNameStart hx) hop).elim
  | function hword _ => exact absurd (h.unique hword) (by decide)
  | nothing _ hblank hopen => exact ⟨hblank, hopen⟩

/-- A return that does not end needs an expression after it. -/
theorem pending_return (h : WordAt "return" cs) (hopen : endsStatement (cs.drop 6) = false) :
    Pending mode (¬ Blank ·) cs (cs.drop 6) :=
  (inert_name h.size).pending (fun hblank => .nothing h (not_not.mp hblank) hopen)
    fun hmore hdangling => hmore (dangling_return h hdangling).1

/-- A return that ends needs nothing after it. -/
theorem passage_return (h : WordAt "return" cs) (hends : endsStatement (cs.drop 6) = true) :
    Passage mode cs (cs.drop 6) := by
  refine (inert_name h.size).passage fun _ hdangling => ?_
  rw [(dangling_return h hdangling).2] at hends
  cases hends

/-- What has no brace in it leaves the need for a block. -/
theorem Pending.trans (h : Pending mode ('\x7b' ∈ ·) cs ds) (h' : Passage mode ds es)
    (hclean : '\x7b' ∈ ds → '\x7b' ∈ es) : Pending mode ('\x7b' ∈ ·) cs es :=
  ⟨h.scan.trans h'.scan, h.balance.trans h'.balance, fun hlacks => h.lacking fun hmem =>
      hlacks (hclean hmem),
    fun hmode hmem hdoomed => h'.doomed hmode (h.doomed hmode (h'.scan.suffix.subset hmem) hdoomed),
    Nat.lt_of_le_of_lt h'.length_le h.shorter⟩

end Ember.Grammar
