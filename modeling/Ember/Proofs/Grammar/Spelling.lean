import Mathlib.Data.List.Induction
import Ember.Proofs.Grammar.Settles
import Ember.Proofs.Tree.Shaped
import Ember.Proofs.Tree.Write

/-!
# Grammar — tokens in canonical text

For each sort of token: it is read where it is written, and the parsers of the other sorts fail
there. A word ends where a delimiter follows it.

* `Delimited`: a text starts with a delimiter, or is over.
* `symbol_settles`, `operator_settles`, `keyword_settles`, `name_settles`: tokens that are read.
* `keyword_fails_at_word`: words that start with a keyword are no keywords.
* `digitsValue_toDigits`, `unescape_literal`: literals denote what they were written for.
-/

namespace Ember.Grammar

open Cursor (At Ready Starts Quiet)
open Lexeme (IsWord)

/-- A property of the characters of a list is decided character by character. -/
theorem forall_of_all {P : Char → Prop} [DecidablePred P] {cs : List Char}
    (h : cs.all (P ·) = true) : ∀ x ∈ cs, P x := by
  simpa using h

/-- The characters that can follow a word in canonical text. -/
def delimiters : List Char := [' ', '\n', ',', '(', ')', '[', ']']

/-- The text starts with a delimiter, or is over. -/
def Delimited (cs : List Char) : Prop := ∀ x ∈ cs.head?, x ∈ delimiters

/-- A delimiter ends words and numbers. -/
theorem delimited_cons {x : Char} {cs : List Char} (h : x ∈ delimiters) : Delimited (x :: cs) := by
  intro y hy
  cases hy
  exact h

variable {c : Cursor} {cs rest xs : List Char} {x : Char}

/-! ### Lexemes and marks -/

/-- A lexeme of a class is read where it is spelled out. -/
theorem lexeme_settles {size? : List Char → Option Nat} {cause : Cause} (h : At (xs ++ rest) c)
    (hsize : size? (xs ++ rest) = some xs.length) :
    (lexeme size? cause c).Settles fun t c' =>
      t.text = xs ∧ c'.rest = rest ∧ c'.prev = xs.getLast?.or c.skip.prev := by
  obtain ⟨hrest, hprev⟩ := Cursor.advance_append h.rest
  simp only [lexeme, h.rest, hsize]
  exact Outcome.settles_ok.mpr ⟨by rw [h.rest, List.take_left], hrest, hprev⟩

/-- None is read where none is there. -/
theorem lexeme_fails {size? : List Char → Option Nat} {cause : Cause} (h : c.skip.rest = cs)
    (hsize : size? cs = none) : (lexeme size? cause c).Fails := by
  simp only [lexeme, h, hsize]
  exact ⟨_, rfl⟩

/-- A mark of one character. -/
theorem symbol_settles {text : String} (h : At (x :: rest) c) (htext : text.toList = [x]) :
    (symbol text c).Settles fun _ c' => c'.rest = rest ∧ c'.prev = some x := by
  have h' : At ([x] ++ rest) c := h
  refine (lexeme_settles h' ?_).mono fun t c' ht => ⟨ht.2.1, ht.2.2⟩
  rw [← String.length_toList, htext]
  simp

/-- A mark is not read where another character is. -/
theorem symbol_fails {text : String} (htext : text.toList = [x]) (h : At cs c)
    (hx : cs.head? ≠ some x) : (symbol text c).Fails := by
  refine lexeme_fails h.rest ?_
  rw [htext, if_neg]
  cases cs with
  | nil => simp
  | cons y ys =>
      have hy : x ≠ y := fun hxy => hx (by simp [hxy])
      simp [List.isPrefixOf, hy]

/-- A mark that stands right here. -/
theorem symbolInLine_settles {text : String} (hrest : c.rest = x :: rest)
    (htext : text.toList = [x]) (hx : Starts (x :: rest))
    (hspace : Cursor.isInlineSpace x = false) :
    (symbolInLine text c).Settles fun _ c' => c'.rest = rest ∧ c'.prev = some x := by
  have hquiet : Quiet c.rest := by
    rw [hrest]
    exact hx.quiet (b := []) (by simp)
  have hskip : c.skipInLine = c := by
    rw [Cursor.skipInLine_of_quiet hquiet, hrest, List.takeWhile_cons_of_neg (by simp [hspace])]
    rfl
  have hsplit : c.rest = [x] ++ rest := hrest
  obtain ⟨hafter, hprev⟩ := Cursor.advance_append hsplit
  have hspelled : text.toList.isPrefixOf c.rest = true := by simp [htext, hrest]
  have hlength : text.length = [x].length := by rw [← String.length_toList, htext]
  simp only [symbolInLine, hskip]
  rw [if_pos hspelled, hlength]
  exact Outcome.settles_ok.mpr ⟨hafter, hprev⟩

/-- Nor is it on the line. -/
theorem symbolInLine_fails {text : String} (htext : text.toList = [x]) (hq : Quiet c.rest)
    (hx : (c.rest.dropWhile Cursor.isInlineSpace).head? ≠ some x) :
    (symbolInLine text c).Fails := by
  have hspelled : ¬ text.toList.isPrefixOf c.skipInLine.rest = true := by
    rw [Cursor.skipInLine_rest hq, htext]
    cases hcs : c.rest.dropWhile Cursor.isInlineSpace with
    | nil => simp
    | cons y ys =>
        have hy : x ≠ y := fun hxy => hx (by simp [hcs, hxy])
        simp [List.isPrefixOf, hy]
  simp only [symbolInLine, if_neg hspelled]
  exact ⟨_, rfl⟩

/-! ### Operators -/

/-- Between blanks an operator is found: it is no comment, and no longer operator fits. -/
theorem operator_between_blanks {ops : List String} (hops : ops ∈ levels) {op : String}
    (hop : op ∈ ops) (rest : List Char) :
    Quiet (' ' :: (op.toList ++ ' ' :: rest)) ∧
      (' ' :: (op.toList ++ ' ' :: rest)).takeWhile Cursor.isInlineSpace = [' '] ∧
      operatorAt? ops (op.toList ++ ' ' :: rest) = some op := by
  simp only [levels, List.mem_cons, List.not_mem_nil, or_false] at hops
  rcases hops with rfl | rfl | rfl | rfl | rfl | rfl <;>
    simp only [List.mem_cons, List.not_mem_nil, or_false] at hop <;>
    rcases hop with rfl | rfl | rfl | rfl <;> exact ⟨rfl, rfl, rfl⟩

/-- A binary operator is read between spaces. -/
theorem operator_settles {ops : List String} (hops : ops ∈ levels) {op : String} (hop : op ∈ ops)
    (hrest : c.rest = ' ' :: (op.toList ++ ' ' :: rest)) :
    (operator ops c).Settles fun t c' => t.string = op ∧ c'.rest = ' ' :: rest := by
  obtain ⟨hquiet, hblank, hat⟩ := operator_between_blanks hops hop rest
  have hskip : c.skipInLine = c.advance [' '].length := by
    rw [Cursor.skipInLine_of_quiet (hrest ▸ hquiet), hrest, hblank]
  have hblanks : c.rest = [' '] ++ (op.toList ++ ' ' :: rest) := hrest
  have hhere : c.skipInLine.rest = op.toList ++ ' ' :: rest := by
    rw [hskip, (Cursor.advance_append hblanks).1]
  simp only [operator, hhere, hat, Token.take, ← String.length_toList, List.take_left]
  exact Outcome.settles_ok.mpr
    ⟨by rw [Token.string, String.ofList_toList], (Cursor.advance_append hhere).1⟩

/-- None is read where none is on the line. -/
theorem operator_fails {ops : List String} (hq : Quiet c.rest)
    (hops : operatorAt? ops (c.rest.dropWhile Cursor.isInlineSpace) = none) :
    (operator ops c).Fails := by
  simp only [operator, Cursor.skipInLine_rest hq, hops]
  exact ⟨_, rfl⟩

/-- A sign before an operand. -/
theorem prefixOperator_settles {op : String} (hop : op ∈ prefixOperators)
    (h : At (op.toList ++ rest) c) :
    (prefixOperator prefixOperators c).Settles fun t c' =>
      t.string = op ∧ c'.rest = rest ∧ c'.Clear := by
  have hat : operatorAt? prefixOperators (op.toList ++ rest) = some op := by
    simp only [prefixOperators, List.mem_cons, List.not_mem_nil, or_false] at hop
    rcases hop with rfl | rfl <;> rfl
  obtain ⟨hafter, hprev⟩ := Cursor.advance_append h.rest
  have hclear : (c.skip.advance op.toList.length).Clear := by
    simp only [prefixOperators, List.mem_cons, List.not_mem_nil, or_false] at hop
    rcases hop with rfl | rfl <;> exact Cursor.clear_of_prev hprev (by decide)
  simp only [prefixOperator, h.rest, hat, Token.take, ← String.length_toList, List.take_left]
  exact Outcome.settles_ok.mpr ⟨by rw [Token.string, String.ofList_toList], hafter, hclear⟩

/-- A prefix operator is one of two marks. -/
theorem prefixOperator_fails (h : At cs c) (hcs : ∀ y ∈ cs.head?, y ≠ '-' ∧ y ≠ '!') :
    (prefixOperator prefixOperators c).Fails := by
  have hnone : operatorAt? prefixOperators cs = none := by
    cases cs with
    | nil => rfl
    | cons y ys =>
        obtain ⟨hminus, hbang⟩ := hcs y rfl
        simp [operatorAt?, prefixOperators, List.isPrefixOf, Ne.symm hminus, Ne.symm hbang]
  simp only [prefixOperator, h.rest, hnone]
  exact ⟨_, rfl⟩

/-! ### Words -/

/-- What ends words does not run into a keyword. -/
theorem not_startsWord (h : Delimited cs) : startsWord cs = false := by
  have hall : ∀ x ∈ delimiters, Text.isKeywordChar x = false := forall_of_all (by decide)
  cases cs with
  | nil => rfl
  | cons x xs => exact hall x (h x rfl)

theorem isNameChar_of_isNameStart {x : Char} (h : Text.isNameStart x) : Text.isNameChar x := by
  simp only [Text.isNameStart, Text.isNameChar, Char.isAlphanum, Bool.or_eq_true] at h ⊢
  rcases h with h | h
  · exact .inl (.inl h)
  · exact .inr h

/-- A word consists of name characters. -/
theorem isNameChar_of_isWord {n : String} (h : IsWord n) :
    ∀ x ∈ n.toList, Text.isNameChar x := by
  obtain ⟨x, xs, hn, hx, hxs⟩ := h
  rw [hn]
  exact List.forall_mem_cons.mpr ⟨isNameChar_of_isNameStart hx, hxs⟩

/-- Keywords are words. -/
theorem isWord_of_mem_keywords {word : String} (h : word ∈ Lexeme.keywords) : IsWord word := by
  simp only [Lexeme.keywords, List.mem_cons, List.not_mem_nil, or_false] at h
  rcases h with rfl | rfl | rfl | rfl | rfl | rfl | rfl | rfl | rfl | rfl | rfl <;>
    exact ⟨_, _, rfl, by decide, forall_of_all (by decide)⟩

/-- A word touches no word before it. -/
theorem clear_of_isWord {n : String} (hn : IsWord n) (h : At (n.toList ++ rest) c) :
    ¬ c.skip.prev.any Text.isKeywordChar = true := by
  obtain ⟨x, xs, hcs, hx, -⟩ := hn
  have hword : Text.isKeywordChar x := by
    simp [Text.isKeywordChar, isNameChar_of_isNameStart hx]
  rw [h.clear x (by simp [hcs]) hword]
  decide

/-- A keyword is read where it is spelled out and ends. -/
theorem keyword_settles {word : String} (hword : IsWord word) (h : At (word.toList ++ rest) c)
    (hrest : Delimited rest) : (keyword word c).Settles fun _ c' => c'.rest = rest := by
  have hspelled : word.toList.isPrefixOf (word.toList ++ rest) = true :=
    List.isPrefixOf_iff_prefix.mpr (List.prefix_append _ _)
  have hclear := clear_of_isWord hword h
  have hends : ¬ startsWord ((word.toList ++ rest).drop word.toList.length) = true := by
    rw [List.drop_left, not_startsWord hrest]
    decide
  simp only [keyword, h.rest, if_pos hspelled, if_neg hclear, if_neg hends, Token.take,
    ← String.length_toList]
  exact Outcome.settles_ok.mpr (Cursor.advance_append h.rest).1

/-- It is not read where it is not spelled out, -/
theorem keyword_fails {word : String} (h : At cs c) (hcs : ¬ word.toList.isPrefixOf cs) :
    (keyword word c).Fails := by
  simp only [keyword, h.rest, if_neg hcs]
  exact ⟨_, rfl⟩

/-- A word starts with no mark. -/
theorem not_isPrefixOf_of_not_isNameStart {word : String} (hword : IsWord word)
    (hx : ∀ x ∈ cs.head?, Text.isNameStart x = false) : ¬ word.toList.isPrefixOf cs = true := by
  obtain ⟨y, ys, hy, hstart, -⟩ := hword
  intro hspelled
  obtain ⟨more, rfl⟩ := List.isPrefixOf_iff_prefix.mp hspelled
  rw [hx y (by simp [hy])] at hstart
  cases hstart

/-- in particular not at a mark. -/
theorem keyword_fails_at_mark {word : String} (hword : IsWord word) (h : At cs c)
    (hx : ∀ x ∈ cs.head?, Text.isNameStart x = false) : (keyword word c).Fails :=
  keyword_fails h (not_isPrefixOf_of_not_isNameStart hword hx)

/-- A mark is no word. -/
theorem word?_mark {word : String} (hword : IsWord word)
    (hx : ∀ x ∈ cs.head?, Text.isNameStart x = false) : Lexeme.word? word cs = none := by
  simp [Lexeme.word?, not_isPrefixOf_of_not_isNameStart hword hx]

/-- A word that starts with another one goes on after it. -/
theorem append_of_isPrefixOf {word n : String} (hword : IsWord word) (hn : IsWord n)
    (hne : n ≠ word) (hrest : Delimited rest)
    (hspelled : word.toList.isPrefixOf (n.toList ++ rest) = true) :
    ∃ y ys, n.toList = word.toList ++ y :: ys ∧ Text.isNameChar y := by
  obtain ⟨more, hmore⟩ := List.isPrefixOf_iff_prefix.mp hspelled
  rcases List.append_eq_append_iff.mp hmore with ⟨as, has, -⟩ | ⟨bs, hbs, hrest'⟩
  · cases as with
    | nil => exact absurd (String.toList_injective (by simpa using has)) hne
    | cons y ys => exact ⟨y, ys, has, isNameChar_of_isWord hn y (by simp [has])⟩
  -- a delimiter would have to continue the first word
  · cases bs with
    | nil => exact absurd (String.toList_injective (by simpa using hbs.symm)) hne
    | cons y ys =>
        have hall : ∀ x ∈ delimiters, Text.isNameChar x = false := forall_of_all (by decide)
        have hy := isNameChar_of_isWord hword y (by simp [hbs])
        rw [hall y (hrest y (by simp [hrest']))] at hy
        cases hy

/-- Another word is no keyword, even if it starts with one. -/
theorem keyword_fails_at_word {word n : String} (hword : IsWord word) (hn : IsWord n)
    (hne : n ≠ word) (h : At (n.toList ++ rest) c) (hrest : Delimited rest) :
    (keyword word c).Fails := by
  by_cases hspelled : word.toList.isPrefixOf (n.toList ++ rest) = true
  · obtain ⟨y, ys, hmore, hy⟩ := append_of_isPrefixOf hword hn hne hrest hspelled
    have hends : startsWord ((n.toList ++ rest).drop word.toList.length) = true := by
      rw [hmore, List.append_assoc, List.drop_left]
      simp [startsWord, Text.isKeywordChar, hy]
    simp only [keyword, h.rest, if_pos hspelled, if_neg (clear_of_isWord hn h),
      ← String.length_toList, if_pos hends]
    exact ⟨_, rfl⟩
  · exact keyword_fails h hspelled

/-- Another word is no mark that is spelled as a word. -/
theorem word?_word {word n : String} (hword : IsWord word) (hn : IsWord n) (hne : n ≠ word)
    (hrest : Delimited rest) : Lexeme.word? word (n.toList ++ rest) = none := by
  rw [Lexeme.word?]
  by_cases hspelled : word.toList.isPrefixOf (n.toList ++ rest) = true
  · obtain ⟨y, ys, hmore, hy⟩ := append_of_isPrefixOf hword hn hne hrest hspelled
    have hends : Lexeme.endsName ((n.toList ++ rest).drop word.toList.length) = false := by
      rw [hmore, List.append_assoc, List.drop_left]
      simp [Lexeme.endsName, hy]
    simp [hends]
  · simp [hspelled]

/-! ### Names -/

/-- A word that ends is a name, as far as its length goes. -/
theorem name?_word {n : String} (h : IsWord n) (hrest : Delimited rest) :
    Lexeme.name? (n.toList ++ rest) = some n.toList.length := by
  obtain ⟨x, xs, hn, hx, hxs⟩ := h
  have hall : ∀ x ∈ delimiters, Text.isNameChar x = false := forall_of_all (by decide)
  have hend : rest.takeWhile Text.isNameChar = [] := by
    cases rest with
    | nil => rfl
    | cons y ys => rw [List.takeWhile_cons_of_neg (by simp [hall y (hrest y rfl)])]
  rw [hn, List.cons_append, Lexeme.name?, if_pos hx, List.takeWhile_append_of_pos hxs, hend,
    List.append_nil, List.length_cons, Nat.add_comm]

/-- A name is read where it is spelled out and ends. -/
theorem name_settles {n : String} (hn : Lexeme.IsName n) (mode : Mode) (h : At (n.toList ++ rest) c)
    (hrest : Delimited rest) :
    (name mode c).Settles fun t c' => t.string = n ∧ c'.rest = rest := by
  refine settles_bind (lexeme_settles h (name?_word hn.word hrest)) fun t c' ht => ?_
  have hstring : t.string = n := by rw [Token.string, ht.1, String.ofList_toList]
  have hfree : ¬ (mode = .read ∧ t.string ∈ Lexeme.keywords) := fun hkey =>
    hn.free (hstring ▸ hkey.2)
  exact settles_ite_neg hfree (settles_pure ⟨hstring, ht.2.1⟩)

/-- None is read where no letter is. -/
theorem name_fails (mode : Mode) (h : At cs c) (hcs : ∀ x ∈ cs.head?, Text.isNameStart x = false) :
    (name mode c).Fails := by
  refine bind_fails (lexeme_fails h.rest ?_)
  cases cs with
  | nil => rfl
  | cons x xs => rw [Lexeme.name?, if_neg (by simp [hcs x rfl])]

/-! ### Numbers -/

/-- A decimal digit has its value. -/
theorem digit?_of_isDigit (h : x.isDigit) : Text.digit? x = some (x.toNat - '0'.toNat) := by
  have hrange : 48 ≤ x.toNat ∧ x.toNat ≤ 57 := by
    simpa [Char.isDigit, UInt32.le_iff_toNat_le] using h
  have hfind : Text.digitZeros.find? (fun z => z ≤ x.toNat && x.toNat < z + 10) = some 48 := by
    rw [Text.digitZeros, List.find?_cons_of_pos]
    simp only [Bool.and_eq_true, decide_eq_true_eq]
    omega
  rw [Text.digit?, hfind]
  rfl

/-- Another digit makes ten times as much, and the digit. -/
theorem digitsValue_concat (h : x.isDigit) :
    Text.digitsValue (cs ++ [x]) = 10 * Text.digitsValue cs + (x.toNat - '0'.toNat) := by
  simp [Text.digitsValue, digit?_of_isDigit h]

/-- Digits are valued as the library does it. -/
theorem digitsValue_eq (h : ∀ x ∈ cs, x.isDigit) :
    Text.digitsValue cs = Nat.ofDigitChars 10 cs 0 := by
  induction cs using List.reverseRecOn with
  | nil => rfl
  | append_singleton cs x ih =>
      obtain ⟨hcs, hx⟩ := List.forall_mem_append.mp h
      rw [digitsValue_concat (hx x List.mem_cons_self), ih hcs, Nat.ofDigitChars_append,
        Nat.ofDigitChars_cons, Nat.ofDigitChars_nil]

/-- Numbers are written in decimal digits. -/
theorem isDigit_of_mem_toDigits {n : Nat} (h : x ∈ Nat.toDigits 10 n) : x.isDigit :=
  Nat.isDigit_of_mem_toDigits (by decide) (by decide) h

/-- So what is written has the value that was written. -/
theorem digitsValue_toDigits (n : Nat) : Text.digitsValue (Nat.toDigits 10 n) = n := by
  rw [digitsValue_eq fun x hx => isDigit_of_mem_toDigits hx,
    Nat.ofDigitChars_toDigits (by decide) (by decide)]

theorem isDigit_of_isDigit (h : x.isDigit) : Text.isDigit x := by
  rw [Text.isDigit, digit?_of_isDigit h]
  rfl

/-- A number of digits alone is as long as its digits. -/
theorem number?_digits {ds : List Char} (hds : ∀ x ∈ ds, x.isDigit) (hne : ds ≠ [])
    (hrest : Delimited rest) : Lexeme.number? (ds ++ rest) = some ds.length := by
  have hall : ∀ x ∈ delimiters, Text.isDigit x = false ∧ x ≠ '.' ∧ ¬ (x = 'e' ∨ x = 'E') :=
    forall_of_all (by decide)
  have hend : rest.takeWhile Text.isDigit = [] ∧ Lexeme.fraction? rest = none ∧
      Lexeme.exponent? rest = none := by
    cases rest with
    | nil => exact ⟨rfl, rfl, rfl⟩
    | cons y ys =>
        obtain ⟨hy, hpoint, hmark⟩ := hall y (hrest y rfl)
        refine ⟨List.takeWhile_cons_of_neg (by simp [hy]), ?_, ?_⟩
        · unfold Lexeme.fraction?
          split
          · rename_i heq
            cases heq
            exact absurd rfl hpoint
          · rfl
        · simp only [Lexeme.exponent?, if_neg hmark]
  have hdigits : Lexeme.digits (ds ++ rest) = ds.length := by
    rw [Lexeme.digits, List.takeWhile_append_of_pos fun x hx => isDigit_of_isDigit (hds x hx),
      hend.1, List.append_nil]
  obtain ⟨m, hm⟩ : ∃ m, ds.length = m + 1 :=
    Nat.exists_eq_add_one.mpr (List.length_pos_of_ne_nil hne)
  have hdrop : (ds ++ rest).drop (m + 1) = rest := by rw [← hm, List.drop_left]
  rw [Lexeme.number?, hdigits, hm]
  simp only [hdrop, hend.2.1, hend.2.2, Option.getD_none, Nat.add_zero]

/-- Digits alone are no floating-point number. -/
theorem isFloat_digits {ds : List Char} (hds : ∀ x ∈ ds, x.isDigit) :
    Lexeme.isFloat ds = false := by
  have hall : ∀ x ∈ ['.', 'e', 'E'], x.isDigit = false := forall_of_all (by decide)
  rw [Lexeme.isFloat, List.any_eq_false]
  intro x hx hmark
  have hfalse := hall x (by simpa [or_assoc] using hmark)
  rw [hds x hx] at hfalse
  cases hfalse

/-- A number that is written and ends is read whole. -/
theorem number?_toDigits (n : Nat) (hrest : Delimited rest) :
    Lexeme.number? (Nat.toDigits 10 n ++ rest) = some (Nat.toDigits 10 n).length :=
  number?_digits (fun _ hx => isDigit_of_mem_toDigits hx)
    (List.ne_nil_of_length_pos Nat.length_toDigits_pos) hrest

/-! ### String literals -/

/-- In a literal a character is escaped, or stands for itself. -/
theorem literalChar_cases (x : Char) :
    (∃ d, Text.literalChar x = ['\\', d] ∧ d ≠ '\n' ∧ Text.escapeOf? d = some x) ∨
      (Text.literalChar x = [x] ∧ x ≠ '\\' ∧ x ≠ Text.doubleQuote ∧ x ≠ '\n') := by
  unfold Text.literalChar
  split
  next h => rcases h with rfl | rfl <;> exact .inl ⟨_, rfl, by decide, rfl⟩
  next h =>
    split
    next hline => exact .inl ⟨'n', rfl, by decide, by rw [hline]; rfl⟩
    next hline =>
      split
      next htab => exact .inl ⟨'t', rfl, by decide, by rw [htab]; rfl⟩
      next => exact .inr ⟨rfl, fun hx => h (.inl hx), fun hx => h (.inr hx), hline⟩

/-- The first mark that is not escaped ends a string literal, -/
theorem stringBody?_literal (ts rest : List Char) :
    Lexeme.stringBody? (ts.flatMap Text.literalChar ++ Text.doubleQuote :: rest)
      = some ((ts.flatMap Text.literalChar).length + 1) := by
  induction ts with
  | nil => rfl
  | cons x ts ih =>
      rw [List.flatMap_cons, List.append_assoc]
      -- an escape is two characters, and its second one closes no literal
      rcases literalChar_cases x with ⟨d, hx, hd, -⟩ | ⟨hx, hslash, hquote, hline⟩
      · rw [hx, List.cons_append, List.cons_append, List.nil_append, Lexeme.stringBody?,
          if_neg hd, ih, List.length_append]
        simp [Nat.add_comm, Nat.add_left_comm]
      · rw [hx, List.cons_append, List.nil_append, Lexeme.stringBody?, if_neg hquote,
          if_neg (by simp [hslash, hline]), ih]
        · rfl
        · intro y ys heq
          exact absurd heq hslash

/-- so that it is read whole. -/
theorem string?_literal (t : String) (rest : List Char) :
    Lexeme.string? ((Text.literal t).toList ++ rest) = some (Text.literal t).toList.length := by
  rw [Text.literal, String.toList_ofList, List.cons_append, List.append_assoc, Lexeme.string?,
    if_pos rfl, List.cons_append, List.nil_append, stringBody?_literal]
  simp

/-- What a literal denotes is the text it was written for. -/
theorem unescape_literal (ts : List Char) : Text.unescape (ts.flatMap Text.literalChar) = ts := by
  induction ts with
  | nil => rfl
  | cons x ts ih =>
      rw [List.flatMap_cons]
      rcases literalChar_cases x with ⟨d, hx, -, hd⟩ | ⟨hx, hslash, -, -⟩
      · rw [hx, List.cons_append, List.cons_append, List.nil_append, Text.unescape, hd]
        simp only [ih]
      · rw [hx, List.cons_append, List.nil_append, Text.unescape, ih]
        intro y ys heq
        exact absurd heq hslash

/-- Its inside is the text, escaped. -/
theorem stringInside_literal (t : String) :
    stringInside (Text.literal t).toList = t.toList.flatMap Text.literalChar := by
  rw [stringInside, Text.literal, String.toList_ofList, List.drop_one, List.tail_cons,
    List.dropLast_concat]

end Ember.Grammar
