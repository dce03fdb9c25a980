import Mathlib.Data.List.TakeWhile
import Ember.Proofs.Grammar.Canonical

/-!
# Grammar — texts that are cut short

A text can be gone through lexeme by lexeme without reading it. What is left of it at some point
may show that nothing reads the text to its end: a bracket is opened and not closed, an operator has
nothing after it, or the word of a function has no block after it. Such a text is doomed.

* `Lexeme.Scan`: a text and what is left of it after some lexemes.
* `Lexeme.balance`: the brackets that are opened in a text, less those that are closed.
* `Lexeme.Doomed`: what is left of the text at some point is unfinished.
-/

namespace Ember.Lexeme

open Cursor (isSpace)
open Grammar (forall_of_all)

variable {cs ds es : List Char} {x : Char} {xs : List Char} {n : Nat} {w : String}

/-! ### Lexemes -/

/-- The length of the lexeme that starts a text: a number, a name, a string literal, or else a
single character. -/
def size (cs : List Char) : Nat := ((number? cs).or ((name? cs).or (string? cs))).getD 1

/-- The character is a lexeme of its own. -/
def isMark (x : Char) : Bool :=
  !Text.isDigit x && !Text.isNameStart x && x != Text.doubleQuote

/-- What starts with no digit is no number. -/
theorem number?_eq_none (hx : Text.isDigit x = false) (xs : List Char) :
    number? (x :: xs) = none := by
  simp [number?, digits, hx]

/-- What starts with no letter and no underscore is no name. -/
theorem name?_eq_none (hx : Text.isNameStart x = false) (xs : List Char) :
    name? (x :: xs) = none := by
  simp [name?, hx]

/-- What starts with no quotation mark is no string literal. -/
theorem string?_eq_none (hx : x ≠ Text.doubleQuote) (xs : List Char) :
    string? (x :: xs) = none := by
  simp [string?, hx]

/-- A mark is one character long. -/
theorem size_of_mark (hx : isMark x) (xs : List Char) : size (x :: xs) = 1 := by
  simp only [isMark, Bool.and_eq_true, Bool.not_eq_true', bne_iff_ne] at hx
  rw [size, number?_eq_none hx.1.1, name?_eq_none hx.1.2, string?_eq_none hx.2]
  rfl

/-- Where a number starts, it is the lexeme, -/
theorem size_of_number (h : number? cs = some n) : size cs = n := by
  rw [size, h]
  rfl

/-- What a name starts with. -/
theorem exists_of_name? (h : name? cs = some n) :
    ∃ x xs, cs = x :: xs ∧ Text.isNameStart x ∧ n = 1 + (xs.takeWhile Text.isNameChar).length := by
  cases cs with
  | nil => cases h
  | cons x xs =>
      rw [name?] at h
      split at h
      · rename_i hx
        cases h
        exact ⟨x, xs, rfl, hx, rfl⟩
      · cases h

/-- and so is a name -/
theorem size_of_name (h : name? cs = some n) : size cs = n := by
  obtain ⟨x, xs, rfl, hx, -⟩ := exists_of_name? h
  rw [size, number?_eq_none (Grammar.not_isDigit_of_isNameStart hx), h]
  rfl

/-- What a string literal starts with. -/
theorem exists_of_string? (h : string? cs = some n) :
    ∃ xs m, cs = Text.doubleQuote :: xs ∧ stringBody? xs = some m ∧ n = m + 1 := by
  cases cs with
  | nil => cases h
  | cons x xs =>
      rw [string?] at h
      split at h
      · rename_i hx
        obtain ⟨m, hm, rfl⟩ := Option.map_eq_some_iff.mp h
        exact ⟨xs, m, by rw [hx], hm, rfl⟩
      · cases h

/-- and a string literal. -/
theorem size_of_string (h : string? cs = some n) : size cs = n := by
  obtain ⟨xs, m, rfl, -, -⟩ := exists_of_string? h
  rw [size, number?_eq_none (by decide), name?_eq_none (by decide), h]
  rfl

theorem number?_pos (h : number? cs = some n) : 0 < n := by
  rw [number?] at h
  split at h
  · cases h
  · cases h
    omega

/-- A lexeme has a character at least. -/
theorem size_pos (cs : List Char) : 0 < size cs := by
  cases hnumber : number? cs with
  | some n =>
      rw [size_of_number hnumber]
      exact number?_pos hnumber
  | none =>
      cases hname : name? cs with
      | some n =>
          obtain ⟨x, xs, -, -, rfl⟩ := exists_of_name? hname
          rw [size_of_name hname]
          omega
      | none =>
          cases hstring : string? cs with
          | some n =>
              obtain ⟨xs, m, -, -, rfl⟩ := exists_of_string? hstring
              rw [size_of_string hstring]
              omega
          | none =>
              rw [size, hnumber, hname, hstring]
              exact Nat.one_pos

/-- The text after its first lexeme. -/
def after (cs : List Char) : List Char := cs.drop (size cs)

theorem after_of_mark (hx : isMark x) (xs : List Char) : after (x :: xs) = xs := by
  rw [after, size_of_mark hx]
  rfl

/-- So the text after it is shorter. -/
theorem after_length_lt (x : Char) (xs : List Char) :
    (after (x :: xs)).length < (x :: xs).length := by
  have hpos := size_pos (x :: xs)
  rw [after, List.length_drop, List.length_cons]
  omega

/-- The text starts with a word. -/
structure WordAt (w : String) (cs : List Char) : Prop where
  size : name? cs = some w.length
  text : w.toList <+: cs

/-- A text starts with one word at most. -/
theorem WordAt.unique {v : String} (hw : WordAt w cs) (hv : WordAt v cs) : w = v := by
  have hlength : w.length = v.length := Option.some.inj (hw.size.symm.trans hv.size)
  have htake : w.toList = v.toList := by
    rw [List.prefix_iff_eq_take.mp hw.text, List.prefix_iff_eq_take.mp hv.text,
      String.length_toList, String.length_toList, hlength]
  exact String.toList_inj.mp htake

/-- A mark is no word. -/
theorem not_wordAt_of_mark (hx : isMark x) (w : String) (xs : List Char) :
    ¬ WordAt w (x :: xs) := by
  intro h
  simp only [isMark, Bool.and_eq_true, Bool.not_eq_true'] at hx
  have hsize := h.size
  rw [name?_eq_none hx.1.2] at hsize
  cases hsize

/-! ### Scanning -/

/-- What is left of a text after some lexemes. -/
inductive Scan : List Char → List Char → Prop where
  | refl (cs : List Char) : Scan cs cs
  | next {x : Char} {xs ds : List Char} : Scan (after (x :: xs)) ds → Scan (x :: xs) ds

theorem Scan.trans (h₁ : Scan cs ds) (h₂ : Scan ds es) : Scan cs es := by
  induction h₁ with
  | refl => exact h₂
  | next _ ih => exact .next (ih h₂)

/-- What is left after some lexemes is the end of the text. -/
theorem Scan.suffix (h : Scan cs ds) : ds <:+ cs := by
  induction h with
  | refl => exact List.suffix_refl _
  | next _ ih => exact ih.trans (List.drop_suffix _ _)

/-! ### Brackets -/

/-- What a character adds to the brackets that are open. -/
def weight (x : Char) : Int :=
  if x ∈ ['(', '[', '\x7b'] then 1 else if x ∈ [')', ']', '\x7d'] then -1 else 0

/-- The brackets that are opened in a text, less those that are closed; those in string literals do
not count. -/
def balance : List Char → Int
  | [] => 0
  | x :: xs => weight x + balance (after (x :: xs))
termination_by cs => cs.length
decreasing_by exact after_length_lt x xs

theorem balance_nil : balance [] = 0 := by rw [balance]

theorem balance_cons (x : Char) (xs : List Char) :
    balance (x :: xs) = weight x + balance (after (x :: xs)) := by rw [balance]

/-! ### Blank text -/

/-- The characters of operators. -/
def operatorChars : List Char := "+-*/%<>=!&|".toList

/-- The characters of operators and brackets. -/
def special : List Char := operatorChars ++ ['(', '[', '\x7b', ')', ']', '\x7d']

/-- Operators and brackets are marks, and not blank. -/
theorem not_special (h : isMark x = false ∨ isSpace x) : x ∉ special := by
  have hall : ∀ y ∈ special, isMark y = true ∧ isSpace y = false := forall_of_all (by decide)
  intro hmem
  obtain ⟨hmark, hspace⟩ := hall x hmem
  rcases h with h | h
  · rw [hmark] at h
    cases h
  · rw [hspace] at h
    cases h

theorem not_special_of_isNameStart (h : Text.isNameStart x) : x ∉ special :=
  not_special (.inl (by simp [isMark, h]))

/-- What is no bracket opens and closes none. -/
theorem weight_of_not_special (h : x ∉ special) : weight x = 0 := by
  simp only [special, List.mem_append, List.mem_cons, List.not_mem_nil, or_false, not_or] at h
  simp [weight, h]

theorem isMark_of_isSpace (hx : isSpace x) : isMark x := by
  simp only [isSpace, Bool.or_eq_true, beq_iff_eq] at hx
  rcases hx with ((rfl | rfl) | rfl) | rfl <;> decide

/-- There is nothing but blank space. -/
def Blank (cs : List Char) : Prop := ∀ x ∈ cs, isSpace x

/-- There is nothing but blank space if nothing is left after it. -/
theorem blank_iff : Blank cs ↔ cs.dropWhile isSpace = [] := by
  rw [List.dropWhile_eq_nil_iff]
  rfl

/-- Blank space opens no bracket. -/
theorem Blank.balance (h : Blank cs) : balance cs = 0 := by
  induction cs with
  | nil => exact balance_nil
  | cons x xs ih =>
      obtain ⟨hx, hxs⟩ := List.forall_mem_cons.mp h
      rw [balance_cons, weight_of_not_special (not_special (.inr hx)),
        after_of_mark (isMark_of_isSpace hx), ih hxs]
      rfl

theorem Blank.not_brace (h : Blank cs) : '\x7b' ∉ cs := fun hmem => absurd (h _ hmem) (by decide)

/-! ### Unfinished texts -/

/-- The first lexeme needs something after it that is not there. -/
inductive Dangling : List Char → Prop where
  /-- An operator has no right operand. -/
  | operator {x : Char} {bs : List Char} (hx : x ∈ operatorChars) (hbs : Blank bs) :
      Dangling (x :: bs)
  /-- A function has no body. -/
  | function {cs : List Char} (hword : WordAt "fun" cs) (hbody : '\x7b' ∉ cs) : Dangling cs
  /-- Nothing is given back, and yet the statement does not end. -/
  | nothing {cs : List Char} (hword : WordAt "return" cs) (hblank : Blank (cs.drop 6))
      (hopen : endsStatement (cs.drop 6) = false) : Dangling cs

/-- The text cannot be read to its end from here on. -/
def Unfinished (cs : List Char) : Prop := 0 < balance cs ∨ Dangling cs

/-- What is left of the text at some point is unfinished. -/
def Doomed (cs : List Char) : Prop := ∃ ds, Scan cs ds ∧ Unfinished ds

/-- A text that is doomed later on is doomed. -/
theorem Doomed.of_scan (hscan : Scan cs ds) (h : Doomed ds) : Doomed cs := by
  obtain ⟨es, hes, hun⟩ := h
  exact ⟨es, hscan.trans hes, hun⟩

/-- A bracket that stays open dooms the text. -/
theorem doomed_of_balance (h : 0 < balance cs) : Doomed cs := ⟨cs, .refl cs, .inl h⟩

/-- A text is doomed at its first lexeme or after it. -/
theorem Doomed.cases (h : Doomed (x :: xs)) :
    Unfinished (x :: xs) ∨ Doomed (after (x :: xs)) := by
  obtain ⟨ds, hscan, hun⟩ := h
  cases hscan with
  | refl => exact .inl hun
  | next hscan => exact .inr ⟨ds, hscan, hun⟩

theorem not_dangling_nil : ¬ Dangling [] := by
  rintro (_ | h | h)
  · cases h.size
  · cases h.size

/-- A lexeme that is no operator and neither of two words needs nothing after it. -/
theorem not_dangling (hx : x ∉ operatorChars) (hfun : ¬ WordAt "fun" (x :: xs))
    (hreturn : ¬ WordAt "return" (x :: xs)) : ¬ Dangling (x :: xs) := by
  rintro (hmem | h | h)
  · exact hx hmem
  · exact hfun h
  · exact hreturn h

/-- A mark that is no operator needs nothing after it. -/
theorem not_dangling_of_mark (hx : isMark x) (hop : x ∉ operatorChars) (xs : List Char) :
    ¬ Dangling (x :: xs) :=
  not_dangling hop (not_wordAt_of_mark hx _ _) (not_wordAt_of_mark hx _ _)

theorem not_operatorChar (h : x ∉ special) : x ∉ operatorChars :=
  fun hmem => h (List.mem_append_left _ hmem)

/-- Blank space can be read to its end. -/
theorem Blank.not_doomed (h : Blank cs) : ¬ Doomed cs := by
  induction cs with
  | nil =>
      rintro ⟨ds, hscan, hun⟩
      cases hscan
      rcases hun with hun | hun
      · rw [balance_nil] at hun
        omega
      · exact not_dangling_nil hun
  | cons x xs ih =>
      have hzero := h.balance
      obtain ⟨hx, hxs⟩ := List.forall_mem_cons.mp h
      have hmark := isMark_of_isSpace hx
      intro hdoomed
      rcases hdoomed.cases with hun | hrest
      · rcases hun with hun | hun
        · omega
        · exact not_dangling_of_mark hmark (not_operatorChar (not_special (.inr hx))) xs hun
      · rw [after_of_mark hmark] at hrest
        exact ih hxs hrest

end Ember.Lexeme
