import Mathlib.Data.List.Forall2
import Ember.Proofs.Grammar.Reading

/-!
# Grammar — canonical expressions

Each construct of expressions is read from its canonical text, if its parts are.

* `readable_number`, `readable_string`, `readable_constant`, `readable_identifier`: leaves.
* `readable_array`, `readable_functionExpr`, `Readable.inParentheses`: bracketed constructs.
* `readable_call`, `readable_index`, `readable_unary`, `readable_binary`: operations.
-/

namespace Ember.Grammar

open Cursor (At Ready Starts Quiet)
open Lexeme (IsWord)
open Outcome (settles_ok)

variable {inner : Nest} {mode : Mode} {t : Tree} {s : Option Span} {text cs rest : List Char}
  {c : Cursor} {x : Char}

/-! ### Leaves -/

theorem not_isDigit_of_isNameStart (h : Text.isNameStart x) : Text.isDigit x = false := by
  have hzeros : ∀ z ∈ Text.digitZeros, z = 48 ∨ 128 ≤ z := by decide
  have hrange : 65 ≤ x.toNat ∧ x.toNat < 128 := by
    change ((decide (65 ≤ x.val ∧ x.val ≤ 90) || (decide (97 ≤ x.val) && decide (x.val ≤ 122)))
      || x == '_') = true at h
    simp only [Bool.or_eq_true, Bool.and_eq_true, decide_eq_true_eq, beq_iff_eq,
      UInt32.le_iff_toNat_le] at h
    change ((65 ≤ x.toNat ∧ x.toNat ≤ 90) ∨ (97 ≤ x.toNat ∧ x.toNat ≤ 122)) ∨ x = '_' at h
    rcases h with (h | h) | rfl
    · omega
    · omega
    · decide
  have hnone : Text.digitZeros.find? (fun z => z ≤ x.toNat && x.toNat < z + 10) = none := by
    rw [List.find?_eq_none]
    intro z hz
    simp only [Bool.and_eq_true, decide_eq_true_eq]
    rcases hzeros z hz with rfl | hz <;> omega
  rw [Text.isDigit, Text.digit?, hnone]
  rfl

/-- The text starts with no number and no string. -/
def Wordlike (cs : List Char) : Prop :=
  ∀ x ∈ cs.head?, Text.isDigit x = false ∧ x ≠ Text.doubleQuote

/-- A text that opens with a word opens like a word, whatever follows it. -/
theorem wordlike_of_isWord {n : String} (hn : IsWord n) (rest : List Char) :
    Wordlike (n.toList ++ rest) := by
  obtain ⟨y, ys, hy, hstart, -⟩ := hn
  intro x hx
  rw [hy] at hx
  cases hx
  refine ⟨not_isDigit_of_isNameStart hstart, fun heq => ?_⟩
  rw [heq] at hstart
  cases hstart

/-- No number is read where a word begins. -/
theorem number_fails (h : At cs c) (hcs : Wordlike cs) : (number mode c).Fails := by
  refine bind_fails (lexeme_fails h.rest ?_)
  have hdigits : Lexeme.digits cs = 0 := by
    cases cs with
    | nil => rfl
    | cons x xs => rw [Lexeme.digits, List.takeWhile_cons_of_neg (by simp [(hcs x rfl).1])]; rfl
  rw [Lexeme.number?, hdigits]

/-- No string literal is read where the text does not open with a double quote. -/
theorem string_fails (h : At cs c) (hcs : ∀ x ∈ cs.head?, x ≠ Text.doubleQuote) :
    (string c).Fails := by
  refine bind_fails (lexeme_fails h.rest ?_)
  cases cs with
  | nil => rfl
  | cons x xs => rw [Lexeme.string?, if_neg (hcs x rfl)]

/-- A primary expression settles as the ordered choice of its forms does, since skipping blanks
first changes nothing. -/
theorem primary_settles {Q : Tree → Cursor → Prop}
    (h : (firstOf [number mode, string, constant "true" .bool (.bool true),
      constant "false" .bool (.bool false), constant "nil" .nil .null, functionExpr inner mode,
      array inner mode, parenthesized inner mode, identifier mode] c.skip).Settles Q) :
    (primary inner mode c).Settles Q := by
  rw [primary, choice]
  exact h.relabel c.skip.offset (.construct "primary")

/-- What starts with no number and no string is one of the other primary expressions. -/
theorem primary_settles_later {Q : Tree → Cursor → Prop} (hat : At cs c) (hcs : Wordlike cs)
    (h : (firstOf [constant "true" .bool (.bool true), constant "false" .bool (.bool false),
      constant "nil" .nil .null, functionExpr inner mode, array inner mode,
      parenthesized inner mode, identifier mode] c.skip).Settles Q) :
    (primary inner mode c).Settles Q := by
  refine primary_settles (settles_later (number_fails hat.at hcs).passes (by simp) ?_)
  exact settles_later (string_fails hat.at fun x hx => (hcs x hx).2).passes (by simp) h

/-- No character of the text is part of a word. -/
def Unworded (cs : List Char) : Prop := ∀ x ∈ cs.head?, Text.isNameStart x = false

/-- A keyword that denotes a value, a function or a name is not read where no word starts. -/
theorem primary_settles_at_mark {Q : Tree → Cursor → Prop} (hat : At cs c) (hcs : Wordlike cs)
    (hmark : Unworded cs)
    (h : (firstOf [array inner mode, parenthesized inner mode, identifier mode] c.skip).Settles Q) :
    (primary inner mode c).Settles Q := by
  have hfails : ∀ word ∈ Lexeme.keywords, (keyword word c.skip).Passes := fun word hword =>
    (keyword_fails_at_mark (isWord_of_mem_keywords hword) hat.at hmark).passes
  refine primary_settles_later hat hcs ?_
  refine settles_later (bind_passes (hfails "true" (by decide))) (by simp) ?_
  refine settles_later (bind_passes (hfails "false" (by decide))) (by simp) ?_
  refine settles_later (bind_passes (hfails "nil" (by decide))) (by simp) ?_
  exact settles_later (bind_passes (hfails "fun" (by decide))) (by simp) h

/-- The decimal spelling of a number is never empty and opens with a digit. -/
theorem exists_digit (n : Nat) : ∃ x xs, Nat.toDigits 10 n = x :: xs ∧ x.isDigit := by
  obtain ⟨x, xs, hxs⟩ := List.exists_cons_of_length_pos (Nat.length_toDigits_pos (b := 10) (n := n))
  exact ⟨x, xs, hxs, isDigit_of_mem_toDigits (hxs ▸ List.mem_cons_self)⟩

theorem openers_of_isDigit (h : x.isDigit) : x ∈ openers := by
  have hall : ∀ n < 58, 48 ≤ n → Char.ofNat n ∈ openers := by decide
  have hrange : 48 ≤ x.toNat ∧ x.toNat ≤ 57 := by
    simpa [Char.isDigit, UInt32.le_iff_toNat_le] using h
  have hmem := hall x.toNat (by omega) hrange.1
  rwa [Char.ofNat_toNat] at hmem

/-- A number written in decimal, and not longer than the reader allows, is read back as that number.
-/
theorem number_settles {n : Nat} (hn : (Nat.toDigits 10 n).length ≤ Decimal.maxDigits)
    (hrest : Delimited rest) (h : At (Nat.toDigits 10 n ++ rest) c) :
    (number mode c).Settles (Reads (.node .number (.int n) [] s) rest) := by
  refine settles_bind (lexeme_settles h (number?_toDigits n hrest)) fun t c' ht => ?_
  have hint : ¬ Lexeme.isFloat t.text = true := by
    rw [ht.1, isFloat_digits fun x hx => isDigit_of_mem_toDigits hx]
    exact Bool.false_ne_true
  have hsmall : ¬ (mode = .read ∧ Decimal.maxDigits < t.text.length) := by
    rw [ht.1]
    omega
  refine settles_ite_neg hint (settles_ite_neg hsmall (settles_pure ⟨?_, ht.2.1⟩))
  rw [ht.1, digitsValue_toDigits, Token.leaf, Tree.unplaced_node, Tree.unplaced_node]

/-- A leaf stands wherever a primary expression does. -/
theorem readable_of_primary (hopens : ∀ rest, Delimited rest → Opens (text ++ rest))
    (hsign : Unsigned text) (h : Primary t text) : Readable 7 t text :=
  readable_of_postfix hopens hsign h.suffixed

/-- A number literal is readable at the tightest level, as its digits. -/
theorem readable_number {n : Nat} (hn : (Nat.toDigits 10 n).length ≤ Decimal.maxDigits) :
    Readable 7 (.node .number (.int n) [] s) (Nat.toDigits 10 n) := by
  obtain ⟨x, xs, hxs, hx⟩ := exists_digit n
  refine readable_of_primary (fun rest _ => ?_) ⟨x, xs, hxs, ?_⟩ fun m mode c rest hrest hat => ?_
  · rw [hxs]
    exact .mark (openers_of_isDigit hx)
  · constructor <;> rintro rfl <;> cases hx
  · exact primary_settles (settles_first (number_settles hn hrest hat.at))

/-- A quoted and escaped text is read back as that text, with no condition on what follows the
closing quote. -/
theorem string_settles {u : String} (h : At ((Text.literal u).toList ++ rest) c) :
    (string c).Settles (Reads (.node .string (.str u) [] s) rest) := by
  refine settles_bind (lexeme_settles h (string?_literal u rest)) fun t c' ht =>
    settles_pure ⟨?_, ht.2.1⟩
  rw [ht.1, stringInside_literal, unescape_literal, String.ofList_toList, Token.leaf,
    Tree.unplaced_node, Tree.unplaced_node]

/-- A written string literal opens with its double quote. -/
theorem literal_eq_cons (u : String) : ∃ xs, (Text.literal u).toList = Text.doubleQuote :: xs :=
  ⟨_, String.toList_ofList⟩

/-- A string literal is readable at the tightest level. -/
theorem readable_string {u : String} :
    Readable 7 (.node .string (.str u) [] s) (Text.literal u).toList := by
  obtain ⟨xs, hxs⟩ := literal_eq_cons u
  refine readable_of_primary (fun rest _ => ?_) ⟨_, xs, hxs, by decide, by decide⟩
    fun n mode c rest hrest hat => ?_
  · rw [hxs]
    exact .mark (by decide)
  · have hdigits : Lexeme.digits ((Text.literal u).toList ++ rest) = 0 := by
      rw [hxs]
      rfl
    have hnumber : (number mode c.skip).Fails :=
      bind_fails (lexeme_fails hat.at.rest (by rw [Lexeme.number?, hdigits]))
    exact primary_settles (settles_later hnumber.passes (by simp)
      (settles_first (string_settles hat.at)))

/-- A word does not open with a sign, so no prefix operator claims it. -/
theorem unsigned_of_isWord {n : String} (hn : IsWord n) : Unsigned n.toList := by
  obtain ⟨x, xs, hxs, hx, -⟩ := hn
  refine ⟨x, xs, hxs, ?_⟩
  constructor <;> rintro rfl <;> cases hx

/-- A word that is no command opens an expression. -/
theorem readable_of_word {n : String} (hn : IsWord n) (hfree : n ∉ "fun" :: commands)
    (h : Primary t n.toList) : Readable 7 t n.toList :=
  readable_of_primary (fun _ hrest => .word hn hfree hrest) (unsigned_of_isWord hn) h

/-- A word that stands for a constant is read back as that constant. -/
theorem constant_settles {word : String} {kind : Tree.Kind} {value : Datum} (hword : IsWord word)
    (h : At (word.toList ++ rest) c) (hrest : Delimited rest) :
    (constant word kind value c).Settles (Reads (.node kind value [] s) rest) := by
  refine settles_bind (keyword_settles hword h hrest) fun t c' ht => settles_pure ⟨?_, ht⟩
  rw [Token.leaf, Tree.unplaced_node, Tree.unplaced_node]

/-- The reader of a constant passes over every other word, so that the next form has its turn. -/
theorem constant_passes {word n : String} {kind : Tree.Kind} {value : Datum}
    (hword : word ∈ Lexeme.keywords) (hn : IsWord n) (hne : n ≠ word)
    (h : At (n.toList ++ rest) c) (hrest : Delimited rest) :
    (constant word kind value c).Passes :=
  bind_passes (keyword_fails_at_word (isWord_of_mem_keywords hword) hn hne h hrest).passes

theorem readable_true : Readable 7 (.node .bool (.bool true) [] s) "true".toList := by
  have hword : IsWord "true" := isWord_of_mem_keywords (by decide)
  refine readable_of_word hword (by decide) fun n mode c rest hrest hat => ?_
  refine primary_settles_later hat (wordlike_of_isWord hword rest) ?_
  exact settles_first (constant_settles hword hat.at hrest)

theorem readable_false : Readable 7 (.node .bool (.bool false) [] s) "false".toList := by
  have hword : IsWord "false" := isWord_of_mem_keywords (by decide)
  refine readable_of_word hword (by decide) fun n mode c rest hrest hat => ?_
  refine primary_settles_later hat (wordlike_of_isWord hword rest) ?_
  refine settles_later (constant_passes (by decide) hword (by decide) hat.at hrest) (by simp) ?_
  exact settles_first (constant_settles hword hat.at hrest)

theorem readable_nil : Readable 7 (.node .nil .null [] s) "nil".toList := by
  have hword : IsWord "nil" := isWord_of_mem_keywords (by decide)
  refine readable_of_word hword (by decide) fun n mode c rest hrest hat => ?_
  refine primary_settles_later hat (wordlike_of_isWord hword rest) ?_
  refine settles_later (constant_passes (by decide) hword (by decide) hat.at hrest) (by simp) ?_
  refine settles_later (constant_passes (by decide) hword (by decide) hat.at hrest) (by simp) ?_
  exact settles_first (constant_settles hword hat.at hrest)

/-- A mark is not read where a word starts. -/
theorem symbol_fails_at_word {n mark : String} (hn : IsWord n) (hmark : mark.toList = [x])
    (hx : Text.isNameStart x = false) (h : At (n.toList ++ rest) c) : (symbol mark c).Fails := by
  obtain ⟨y, ys, hy, hstart, -⟩ := hn
  refine symbol_fails hmark h fun heq => ?_
  rw [hy, List.cons_append, List.head?_cons, Option.some.injEq] at heq
  rw [heq, hx] at hstart
  cases hstart

/-- A name is readable at the tightest level, as an identifier. -/
theorem readable_identifier {n : String} (hn : Lexeme.IsName n) :
    Readable 7 (.node .identifier (.str n) [] s) n.toList := by
  have hkeyword : ∀ word ∈ Lexeme.keywords, n ≠ word := fun word hword heq =>
    hn.free (heq ▸ hword)
  have hcommands : n ∉ "fun" :: commands := fun hmem => by
    have hall : ∀ word ∈ "fun" :: commands, word ∈ Lexeme.keywords := by decide
    exact hn.free (hall n hmem)
  refine readable_of_word hn.word hcommands fun m mode c rest hrest hat => ?_
  have hconstant : ∀ word kind value, word ∈ Lexeme.keywords →
      (constant word kind value c.skip).Passes := fun word kind value hword =>
    constant_passes hword hn.word (hkeyword word hword) hat.at hrest
  have hfun := keyword_fails_at_word isWord_fun hn.word (hkeyword "fun" (by decide)) hat.at hrest
  -- names come last: whatever else a word can be is tried before
  refine primary_settles_later hat (wordlike_of_isWord hn.word rest) ?_
  refine settles_later (hconstant "true" _ _ (by decide)) (by simp) ?_
  refine settles_later (hconstant "false" _ _ (by decide)) (by simp) ?_
  refine settles_later (hconstant "nil" _ _ (by decide)) (by simp) ?_
  refine settles_later (bind_passes hfun.passes) (by simp) ?_
  have hbracket : (symbol "[" c.skip).Fails :=
    symbol_fails_at_word hn.word rfl (by decide) hat.at
  have hparen : (symbol "(" c.skip).Fails := symbol_fails_at_word hn.word rfl (by decide) hat.at
  refine settles_later (bind_passes hbracket.passes) (by simp) ?_
  refine settles_later (bind_passes hparen.passes) (by simp) ?_
  refine settles_first (settles_bind (name_settles hn mode hat.at hrest) fun t c' ht =>
    settles_pure ⟨?_, ht.2⟩)
  rw [Token.leaf, ht.1, Tree.unplaced_node, Tree.unplaced_node]

/-! ### Where no expression starts -/

/-- The text starts with a mark that closes a list or a block, or is over. -/
def Ends (cs : List Char) : Prop := ∀ x ∈ cs.head?, x ∈ '\x7d' :: closers

/-- No primary expression begins with a sign, a closing character or at the end of the text. -/
theorem primary_fails (h : At cs c) (hcs : ∀ x ∈ cs.head?, x ∈ '-' :: '!' :: '\x7d' :: closers) :
    (primary inner mode c).Fails := by
  have hall : ∀ x ∈ '-' :: '!' :: '\x7d' :: closers, Text.isNameStart x = false ∧
      Text.isDigit x = false ∧ x ∉ [Text.doubleQuote, '[', '('] := forall_of_all (by decide)
  have hmark : Unworded cs := fun x hx => (hall x (hcs x hx)).1
  have hforeign : ∀ y ∈ [Text.doubleQuote, '[', '('], cs.head? ≠ some y := fun y hy heq =>
    (hall y (hcs y heq)).2.2 hy
  have hword : Wordlike cs := fun x hx =>
    ⟨(hall x (hcs x hx)).2.1, fun heq => hforeign _ List.mem_cons_self (heq ▸ hx)⟩
  have hkeyword : ∀ word ∈ Lexeme.keywords, (keyword word c.skip).Fails := fun word hword =>
    keyword_fails_at_mark (isWord_of_mem_keywords hword) h.at hmark
  rw [primary, choice]
  refine (firstOf_fails fun p hp => ?_).relabel c.skip.offset (.construct "primary")
  simp only [List.mem_cons, List.not_mem_nil, or_false] at hp
  rcases hp with rfl | rfl | rfl | rfl | rfl | rfl | rfl | rfl | rfl
  · exact number_fails h.at hword
  · exact string_fails h.at fun x hx => (hword x hx).2
  · exact bind_fails (hkeyword "true" (by decide))
  · exact bind_fails (hkeyword "false" (by decide))
  · exact bind_fails (hkeyword "nil" (by decide))
  · exact bind_fails (hkeyword "fun" (by decide))
  · exact bind_fails (symbol_fails rfl h.at (hforeign '[' (by decide)))
  · exact bind_fails (symbol_fails rfl h.at (hforeign '(' (by decide)))
  · exact bind_fails (name_fails mode h.at hmark)

theorem primary_passes (h : At cs c) (hcs : ∀ x ∈ cs.head?, x ∈ '-' :: '!' :: '\x7d' :: closers) :
    (primary inner mode c).Passes := (primary_fails h hcs).passes

/-- An expression passes over a text that ends what stands before it, which is how an optional
expression is left out. -/
theorem expression_passes (h : At cs c) (hcs : Ends cs) : (expression inner mode c).Passes := by
  have hall : ∀ x ∈ '\x7d' :: closers, x ≠ '-' ∧ x ≠ '!' := forall_of_all (by decide)
  rw [expression_eq h.skip]
  refine tower_passes fun mode => unary_passes ?_ (bind_passes (primary_passes h.at.at ?_))
  · exact prefixed_passes h.at.at fun x hx => hall x (hcs x hx)
  · exact fun x hx => List.mem_cons_of_mem _ (List.mem_cons_of_mem _ (hcs x hx))

/-! ### Lists -/

section

variable {α β : Type} {item : Parser α} {write : β → List Char} {P : β → α → Prop} {xs : List β}
  {y : Char}

/-- Each of some values is read from its text, and nothing is read where a bracket is closed. -/
structure Items (item : Parser α) (write : β → List Char) (P : β → α → Prop) (xs : List β) :
    Prop where
  starts : ∀ x ∈ xs, ∀ rest, Delimited rest → Starts (write x ++ rest)
  reads : ∀ x ∈ xs, ∀ c y rest, y ∈ closers → At (write x ++ y :: rest) c →
    (item c).Settles fun a c' => P x a ∧ c'.rest = y :: rest
  ends : ∀ c y rest, y ∈ closers → At (y :: rest) c → (item c).Passes

/-- What holds of written items holds of the items after the first. -/
theorem Items.tail {x : β} (h : Items item write P (x :: xs)) : Items item write P xs where
  starts x hx := h.starts x (List.mem_cons_of_mem _ hx)
  reads x hx := h.reads x (List.mem_cons_of_mem _ hx)
  ends := h.ends

/-- Texts that are not empty are no more in number than the characters they are joined to; this
bounds the rounds of a repetition. -/
theorem length_le_flatMap {f : β → List Char} (hf : ∀ x, f x ≠ []) (xs : List β) :
    xs.length ≤ (xs.flatMap f).length := by
  induction xs with
  | nil => exact Nat.le_refl 0
  | cons x xs ih =>
      have hpos := List.length_pos_iff.mpr (hf x)
      rw [List.flatMap_cons, List.length_append, List.length_cons]
      omega

theorem map_eq_of_forall₂ {γ : Type} {f : β → γ} {g : α → γ} {xs : List β} {ys : List α}
    (h : List.Forall₂ (fun x y => g y = f x) xs ys) : ys.map g = xs.map f := by
  induction h with
  | nil => rfl
  | cons hx _ ih => rw [List.map_cons, List.map_cons, hx, ih]

/-- A closing character delimits the token before it. -/
theorem delimited_closer (hy : y ∈ closers) (rest : List Char) : Delimited (y :: rest) := by
  have hall : ∀ y ∈ closers, y ∈ delimiters := forall_of_all (by decide)
  exact delimited_cons (hall y hy)

theorem at_closer (hy : y ∈ closers) (h : c.rest = y :: rest) : At (y :: rest) c := by
  have hall : ∀ y ∈ closers, Text.isKeywordChar y = false := forall_of_all (by decide)
  exact Cursor.at_mark h (starts_closer hy rest) (hall y hy)

/-- Items separated by commas are the first item and then, for each further one, a comma, a blank
and the item. -/
theorem separated_cons (text : List Char) (texts : List (List Char)) :
    Tree.separated (text :: texts) = text ++ texts.flatMap (',' :: ' ' :: ·) := by
  induction texts generalizing text with
  | nil => simp [Tree.separated]
  | cons text' texts ih =>
      rw [Tree.separated, ih, List.flatMap_cons, List.cons_append, List.cons_append]
      intro hnil
      cases hnil

/-- Where the values after the first one start, and where they end. -/
theorem later_items (texts : List (List Char)) (hy : y ∈ closers) (rest : List Char) :
    ∃ z zs, z ∈ closers ∧ texts.flatMap (',' :: ' ' :: ·) ++ y :: rest = z :: zs := by
  cases texts with
  | nil => exact ⟨y, rest, hy, rfl⟩
  | cons text texts => exact ⟨',', _, by decide, rfl⟩

/-- Written items followed by a closing character start with something other than a blank. -/
theorem Items.starts_separated (h : Items item write P xs) (hy : y ∈ closers) (rest : List Char) :
    Starts (Tree.separated (xs.map write) ++ y :: rest) := by
  cases xs with
  | nil => exact starts_closer hy rest
  | cons x xs =>
      obtain ⟨z, zs, hz, hlater⟩ := later_items (xs.map write) hy rest
      rw [List.map_cons, separated_cons, List.append_assoc, hlater]
      exact h.starts x List.mem_cons_self (z :: zs) (delimited_closer hz zs)

/-- The values after the first one. -/
theorem settles_items (h : Items item write P xs) (hy : y ∈ [')', ']'])
    (hrest : c.rest = (xs.map write).flatMap (',' :: ' ' :: ·) ++ y :: rest) {before : List β}
    {acc : List α} (hacc : List.Forall₂ P before acc.reverse) {rounds : List Char}
    (hrounds : xs.length ≤ rounds.length) :
    (iterate (fun items => do
      let _ ← symbol ","
      let next ← item
      pure (next :: items)) rounds acc c).Settles fun items c' =>
        List.Forall₂ P (before ++ xs) items.reverse ∧ c'.rest = y :: rest := by
  have hall : ∀ y ∈ [')', ']'], y ∈ closers ∧ y ≠ ',' := forall_of_all (by decide)
  obtain ⟨hclose, hcomma⟩ := hall y hy
  induction xs generalizing c before acc rounds with
  | nil =>
      rw [List.append_nil]
      have hend : c.rest = y :: rest := hrest
      have hcomma : (y :: rest).head? ≠ some ',' := by simpa using hcomma
      exact iterate_stops ⟨hacc, hend⟩
        (bind_fails (symbol_fails rfl (at_closer hclose hend) hcomma)).passes rounds
  | cons x xs ih =>
      cases rounds with
      | nil => simp at hrounds
      | cons r rounds =>
          obtain ⟨z, zs, hz, hlater⟩ := later_items (xs.map write) hclose rest
          have hitem : c.rest = ',' :: ' ' :: (write x ++ z :: zs) := by
            rw [hrest, List.map_cons, List.flatMap_cons, ← hlater]
            simp
          have hstarts := h.starts x List.mem_cons_self (z :: zs) (delimited_closer hz zs)
          refine iterate_step (S := fun items c' => (∃ a, P x a ∧ items = a :: acc) ∧
            c'.rest = z :: zs) ?_ ?_
          -- a step reads a comma, the blank after it and the next value
          · refine settles_bind (symbol_settles (at_closer (by decide) hitem) rfl)
              fun _ d hd => ?_
            have hat := Cursor.at_after_blank hd.1 (by decide) hstarts
            refine settles_bind (h.reads x List.mem_cons_self d z zs hz hat) fun a e ha => ?_
            exact settles_pure ⟨⟨a, ha.1, rfl⟩, ha.2⟩
          · rintro items d ⟨⟨a, ha, rfl⟩, hd⟩
            have hacc' : List.Forall₂ P (before ++ [x]) (a :: acc).reverse := by
              rw [List.reverse_cons]
              exact List.rel_append hacc (.cons ha .nil)
            have hlength : xs.length ≤ rounds.length := by simpa using hrounds
            simpa using ih h.tail (hd.trans hlater.symm) hacc' hlength

/-- **Values separated by commas are read one by one.** -/
theorem commaList_settles (h : Items item write P xs) (hy : y ∈ [')', ']'])
    (hat : At (Tree.separated (xs.map write) ++ y :: rest) c) :
    (commaList item c).Settles fun as c' => List.Forall₂ P xs as ∧ At (y :: rest) c' := by
  have hall : ∀ y ∈ [')', ']'], y ∈ closers := forall_of_all (by decide)
  have hclose := hall y hy
  unfold commaList
  cases xs with
  | nil =>
      refine settles_bind (optional_of_passes (h.ends c y rest hclose hat)) fun o d hd => ?_
      obtain ⟨rfl, rfl⟩ := hd
      exact settles_pure ⟨.nil, hat⟩
  | cons x xs =>
      obtain ⟨z, zs, hz, hlater⟩ := later_items (xs.map write) hclose rest
      rw [List.map_cons, separated_cons, List.append_assoc, hlater] at hat
      have hfirst := h.reads x List.mem_cons_self c z zs hz hat
      refine settles_bind (settles_optional hfirst) fun o d hd => ?_
      obtain ⟨a, rfl, ha, hrest⟩ := hd
      have hrest' := hrest.trans hlater.symm
      have hrounds : xs.length ≤ d.rest.length := by
        have hlength := length_le_flatMap (f := (',' :: ' ' :: ·)) (by simp) (xs.map write)
        rw [List.length_map] at hlength
        rw [hrest', List.length_append]
        omega
      refine settles_bind (settles_items h.tail hy hrest' (.cons ha .nil) hrounds) fun as e he => ?_
      exact settles_pure ⟨he.1, at_closer hclose he.2⟩

end

/-! ### Brackets -/

/-- Leaving the places out of a node that was read leaves the places out of its children. -/
@[simp] theorem unplaced_nodeAt (start : Cursor) (kind : Tree.Kind) (value : Datum)
    (ts : List Tree) :
    (nodeAt start kind value ts).unplaced = .node kind value (ts.map Tree.unplaced) none := by
  rw [nodeAt, Tree.unplaced_node]

/-- Expressions between commas. -/
theorem items_of_readable {es : List Tree} (h : ∀ e ∈ es, Readable e.precedence e e.write)
    (n : Nat) (mode : Mode) :
    Items ((nest n).expression mode) Tree.write (fun e e' => e'.unplaced = e.unplaced) es where
  starts e he rest hrest := ((h e he).opens rest hrest).starts
  reads e he _ _ rest hy hat :=
    nest_expression fun m => (h e he).expression m mode (follow_closer hy rest) hat
  ends _ y rest hy hat := nest_expression_passes fun m => expression_passes hat fun x hx => by
    cases hx
    exact List.mem_cons_of_mem _ hy

/-- Written items between square brackets are read back as an array of these items. -/
theorem array_settles {es : List Tree} {n : Nat} (h : ∀ e ∈ es, Readable e.precedence e e.write)
    (hat : At ('[' :: (Tree.separated (es.map Tree.write) ++ ']' :: rest)) c) :
    (array (nest n) mode c).Settles (Reads (.node .array .null es s) rest) := by
  have hitems := items_of_readable h n mode
  unfold array
  refine settles_bind (symbol_settles hat rfl) fun t d hd => ?_
  have hclear := Cursor.clear_of_prev hd.2 (by decide)
  have hd' := Cursor.at_here hd.1 (hitems.starts_separated (by decide) rest) hclear
  refine settles_bind (commaList_settles hitems (by decide) hd') fun es' e he => ?_
  have hnode : ∀ start, (nodeAt start .array .null es').unplaced
      = (Tree.node .array .null es s).unplaced := fun start => by
    rw [unplaced_nodeAt, Tree.unplaced_node, map_eq_of_forall₂ he.1]
  have hclose : ∀ {e'}, At (']' :: rest) e' → (symbol "]" e').Settles fun _ d => d.rest = rest :=
    fun h => (symbol_settles h rfl).mono fun _ d hd => hd.1
  -- a comma after the last element is asked for, but never written
  refine settles_ite ?_ ?_
  · have hcomma : (symbol "," e).Fails := symbol_fails (x := ',') rfl he.2 (by simp)
    refine settles_bind (optional_of_passes hcomma.passes) fun o e' he' => ?_
    obtain ⟨-, rfl⟩ := he'
    exact settles_bind (hclose he.2) fun _ d hd => settles_pure ⟨hnode t.start, hd⟩
  · exact settles_bind (hclose he.2) fun _ d hd => settles_pure ⟨hnode t.start, hd⟩

/-- An array of readable items is readable at the tightest level. -/
theorem readable_array {es : List Tree} (h : ∀ e ∈ es, Readable e.precedence e e.write) :
    Readable 7 (.node .array .null es s)
      ('[' :: (Tree.separated (es.map Tree.write) ++ [']'])) := by
  refine readable_of_primary (fun rest _ => .mark (by decide)) ⟨_, _, rfl, by decide, by decide⟩
    fun n mode c rest hrest hat => ?_
  rw [List.cons_append, List.append_assoc] at hat
  refine primary_settles_at_mark hat ?_ ?_ (settles_first (array_settles h hat.at))
  · intro x hx
    cases hx
    decide
  · intro x hx
    cases hx
    decide

/-- An expression in parentheses may stand anywhere. -/
theorem Readable.inParentheses {p : Nat} (h : Readable p t text) :
    Readable 7 t ('(' :: (text ++ [')'])) := by
  refine readable_of_primary (fun rest _ => .mark (by decide)) ⟨_, _, rfl, by decide, by decide⟩
    fun n mode c rest hrest hat => ?_
  rw [List.cons_append, List.append_assoc] at hat
  have hbracket : (symbol "[" c.skip).Fails := symbol_fails (x := '[') rfl hat.at (by simp)
  have hread : (parenthesized (nest n) mode c.skip).Settles (Reads t rest) := by
    unfold parenthesized
    refine settles_bind (symbol_settles hat.at rfl) fun _ d hd => ?_
    have hclear := Cursor.clear_of_prev hd.2 (by decide)
    have hclose : ')' ∈ closers := by decide
    have hd' := Cursor.at_here hd.1 (h.opens _ (delimited_closer hclose rest)).starts hclear
    have hinside := nest_expression (n := n) fun m =>
      h.expression m mode (follow_closer hclose rest) hd'
    refine settles_bind hinside fun t' e he => ?_
    refine settles_bind (symbol_settles (at_closer hclose he.2) rfl) fun _ d hd => ?_
    exact settles_pure ⟨he.1, hd.1⟩
  refine primary_settles_at_mark hat ?_ ?_
    (settles_later (bind_passes hbracket.passes) (by simp) (settles_first hread))
  · intro x hx
    cases hx
    decide
  · intro x hx
    cases hx
    decide

/-! ### Functions -/

/-- The text is that of a block. -/
structure BlockReadable (t : Tree) (text : List Char) : Prop where
  opens : ∃ xs, text = '\x7b' :: xs
  reads : ∀ n mode c rest, At (text ++ rest) c → (block (nest n) mode c).Settles (Reads t rest)

theorem BlockReadable.starts (h : BlockReadable t text) (rest : List Char) :
    Starts (text ++ rest) := by
  obtain ⟨xs, rfl⟩ := h.opens
  intro x hx
  cases hx
  decide

/-- A block is read after a space. -/
theorem BlockReadable.after_space {n : Nat} (h : BlockReadable t text) (mode : Mode)
    (hrest : c.rest = ' ' :: (text ++ rest)) :
    ((nest n).block mode c).Settles (Reads t rest) :=
  nest_block fun m =>
    h.reads m mode c rest (Cursor.at_after_blank hrest (by decide) (h.starts rest))

/-- Names are items of a list, so the parameter list is a case of the separated list. -/
theorem items_of_names {ps : List String} (h : ∀ p ∈ ps, Lexeme.IsName p) (mode : Mode) :
    Items (name mode) String.toList (fun p token => token.string = p) ps where
  starts p hp rest _ := starts_of_isWord (h p hp).word rest
  reads p hp _ _ rest hy hat := name_settles (h p hp) mode hat (delimited_closer hy rest)
  ends _ y rest hy hat := by
    have hall : ∀ y ∈ closers, Text.isNameStart y = false := forall_of_all (by decide)
    refine (name_fails mode hat fun x hx => ?_).passes
    cases hx
    exact hall y hy

theorem writeParameters_str (ps : List String) :
    Tree.writeParameters (ps.map .str)
      = '(' :: (Tree.separated (ps.map String.toList) ++ [')']) := by
  rw [Tree.writeParameters, List.map_map]
  rfl

/-- A written parameter list is read back as the same names in the same order. -/
theorem parameters_settles {ps : List String} (h : ∀ p ∈ ps, Lexeme.IsName p)
    (hrest : c.rest = Tree.writeParameters (ps.map .str) ++ rest) :
    (parameters mode c).Settles fun ps' c' => ps' = ps ∧ c'.rest = rest := by
  have hitems := items_of_names h mode
  rw [writeParameters_str, List.cons_append, List.append_assoc] at hrest
  have hat := Cursor.at_mark hrest (by simp [Starts, Cursor.isSpace]) (by decide)
  unfold parameters
  refine settles_bind (symbol_settles hat rfl) fun _ d hd => ?_
  have hclear := Cursor.clear_of_prev hd.2 (by decide)
  have hd' := Cursor.at_here hd.1 (hitems.starts_separated (by decide) rest) hclear
  refine settles_bind (commaList_settles hitems (by decide) hd') fun tokens e he => ?_
  refine settles_bind (symbol_settles he.2 rfl) fun _ e' he' => settles_pure ⟨?_, he'.1⟩
  have hnames := map_eq_of_forall₂ (f := id) he.1
  rwa [List.map_id] at hnames

/-- The head of a function does not depend on where its body was read. -/
theorem functionHead_unplaced {ps : List String} {b b' : Tree} (hb : b'.unplaced = b.unplaced)
    (start : Cursor) (kind : Tree.Kind) (value : Datum) :
    (nodeAt start kind (functionHead value ps) [b']).unplaced
      = (Tree.node kind (functionHead value ps) [b] s).unplaced := by
  rw [unplaced_nodeAt, Tree.unplaced_node, List.map_singleton, List.map_singleton, hb]

/-- A written function expression is read back with its parameters and its body. -/
theorem functionExpr_settles {ps : List String} {b : Tree} {n : Nat}
    (hps : ∀ p ∈ ps, Lexeme.IsName p) (hb : BlockReadable b text)
    (hat : At ("fun".toList ++ (Tree.writeParameters (ps.map .str) ++ ' ' :: (text ++ rest))) c) :
    (functionExpr (nest n) mode c).Settles
      (Reads (.node .functionExpr (functionHead .null ps) [b] s) rest) := by
  unfold functionExpr
  refine settles_bind (keyword_settles isWord_fun hat (delimited_cons (by decide))) fun t d hd => ?_
  refine settles_bind (parameters_settles hps hd) fun ps' e he => ?_
  obtain ⟨rfl, he⟩ := he
  refine settles_bind (hb.after_space mode he) fun b' e' hb' => ?_
  exact settles_pure ⟨functionHead_unplaced hb'.1 t.start .functionExpr .null, hb'.2⟩

/-- A function expression whose body is readable as a block is readable at the tightest level. -/
theorem readable_functionExpr {ps : List String} {b : Tree} (hps : ∀ p ∈ ps, Lexeme.IsName p)
    (hb : BlockReadable b text) :
    Readable 7 (.node .functionExpr (functionHead .null ps) [b] s)
      ("fun".toList ++ (Tree.writeParameters (ps.map .str) ++ ' ' :: text)) := by
  refine readable_of_primary (fun rest _ => .function) ⟨_, _, rfl, by decide, by decide⟩
    fun n mode c rest hrest hat => ?_
  rw [List.append_assoc, List.append_assoc, List.cons_append] at hat
  have hdelimited : Delimited (Tree.writeParameters (ps.map .str) ++ ' ' :: (text ++ rest)) :=
    delimited_cons (by decide)
  have hconstant : ∀ word kind value, word ∈ Lexeme.keywords → "fun" ≠ word →
      (constant word kind value c.skip).Passes := fun word kind value hword hne =>
    constant_passes hword isWord_fun hne hat.at hdelimited
  refine primary_settles_later hat (wordlike_of_isWord isWord_fun _) ?_
  refine settles_later (hconstant "true" _ _ (by decide) (by decide)) (by simp) ?_
  refine settles_later (hconstant "false" _ _ (by decide) (by decide)) (by simp) ?_
  refine settles_later (hconstant "nil" _ _ (by decide) (by decide)) (by simp) ?_
  exact settles_first (functionExpr_settles hps hb hat.at)

/-! ### Calls and indexes -/

theorem Unsigned.append (h : Unsigned text) (more : List Char) : Unsigned (text ++ more) := by
  obtain ⟨x, xs, rfl, hx⟩ := h
  exact ⟨x, xs ++ more, rfl, hx⟩

/-- What a call or an index continues is read first. -/
theorem readable_of_suffix {u : Tree} {x : Char} {more : List Char} (hx : x ∈ delimiters)
    (ht : Readable 7 t text)
    (h : ∀ n mode t' c rest, t'.unplaced = t.unplaced → c.rest = x :: (more ++ rest) →
      (suffix (nest n) mode t' c).Settles (Reads u rest)) :
    Readable 7 u (text ++ x :: more) := by
  obtain ⟨m, hm⟩ := ht.suffixed (Nat.le_refl 7)
  have hopens : ∀ rest, Delimited rest → Opens (text ++ x :: more ++ rest) := by
    intro rest hrest
    rw [List.append_assoc]
    exact ht.opens _ (delimited_cons hx)
  refine readable_of_postfix hopens ((ht.unsigned (Nat.le_refl 7)).append _)
    ⟨m + 1, fun n mode c rest hrest hat => ?_⟩
  rw [List.append_assoc, List.cons_append] at hat
  refine (hm n mode c _ (delimited_cons hx) hat).next ?_ fun t' d ht' hd => ?_
  · simp only [List.length_cons, List.length_append]
    omega
  · exact h n mode t' d rest ht' hd

/-- Written arguments between parentheses are read back as a call of the tree to their left. -/
theorem callSuffix_settles {f f' : Tree} {args : List Tree} {n : Nat}
    (hf : f'.unplaced = f.unplaced) (hargs : ∀ a ∈ args, Readable a.precedence a a.write)
    (hrest : c.rest = '(' :: (Tree.separated (args.map Tree.write) ++ ')' :: rest)) :
    (callSuffix (nest n) mode f' c).Settles
      (Reads (.node .call .null (f :: args) s) rest) := by
  have hitems := items_of_readable hargs n mode
  have hstarts : Starts ('(' :: (Tree.separated (args.map Tree.write) ++ ')' :: rest)) := by
    simp [Starts, Cursor.isSpace]
  unfold callSuffix
  refine settles_bind (symbolInLine_settles hrest rfl hstarts (by decide)) fun t d hd => ?_
  have hclear := Cursor.clear_of_prev hd.2 (by decide)
  have hd' := Cursor.at_here hd.1 (hitems.starts_separated (by decide) rest) hclear
  refine settles_bind (commaList_settles hitems (by decide) hd') fun args' e he => ?_
  refine settles_bind (symbol_settles he.2 rfl) fun _ e' he' => settles_pure ⟨?_, he'.1⟩
  rw [Tree.unplaced_node, Tree.unplaced_node, List.map_cons, List.map_cons, hf,
    map_eq_of_forall₂ he.1]

/-- **A call is read after what is called.** -/
theorem readable_call {f : Tree} {args : List Tree} (hf : Readable 7 f text)
    (hargs : ∀ a ∈ args, Readable a.precedence a a.write) :
    Readable 7 (.node .call .null (f :: args) s)
      (text ++ '(' :: (Tree.separated (args.map Tree.write) ++ [')'])) := by
  refine readable_of_suffix (by decide) hf fun n mode f' c rest hf' hrest => ?_
  rw [List.append_assoc] at hrest
  exact settles_first (callSuffix_settles hf' hargs hrest)

/-- A written index between square brackets is read back as an index into the tree to its left. -/
theorem indexSuffix_settles {t t' i : Tree} {p n : Nat} (ht : t'.unplaced = t.unplaced)
    (hi : Readable p i text) (hrest : c.rest = '[' :: (text ++ ']' :: rest)) :
    (indexSuffix (nest n) mode t' c).Settles (Reads (.node .index .null [t, i] s) rest) := by
  have hclose : ']' ∈ closers := by decide
  have hstarts : Starts ('[' :: (text ++ ']' :: rest)) := by simp [Starts, Cursor.isSpace]
  unfold indexSuffix
  refine settles_bind (symbolInLine_settles hrest rfl hstarts (by decide)) fun token d hd => ?_
  have hclear := Cursor.clear_of_prev hd.2 (by decide)
  have hd' := Cursor.at_here hd.1 (hi.opens _ (delimited_closer hclose rest)).starts hclear
  have hinside := nest_expression (n := n) fun m =>
    hi.expression m mode (follow_closer hclose rest) hd'
  refine settles_bind hinside fun i' e he => ?_
  refine settles_bind (symbol_settles (at_closer hclose he.2) rfl) fun _ e' he' =>
    settles_pure ⟨?_, he'.1⟩
  simp [ht, he.1]

/-- **An index is read after what is indexed.** -/
theorem readable_index {t i : Tree} {p : Nat} {inside : List Char} (ht : Readable 7 t text)
    (hi : Readable p i inside) :
    Readable 7 (.node .index .null [t, i] s) (text ++ '[' :: (inside ++ [']'])) := by
  refine readable_of_suffix (by decide) ht fun n mode t' c rest ht' hrest => ?_
  rw [List.append_assoc] at hrest
  have hstarts : Starts c.rest := by
    rw [hrest]
    simp [Starts, Cursor.isSpace]
  have hcall : (callSuffix (nest n) mode t' c).Fails := by
    unfold callSuffix
    refine bind_fails (symbolInLine_fails (x := '(') rfl (hstarts.quiet (b := []) (by simp)) ?_)
    rw [hrest]
    simp [Cursor.isInlineSpace]
  exact settles_later hcall.passes (by simp) (settles_first (indexSuffix_settles ht' hi hrest))

/-! ### Operators -/

/-- The tree of a prefix operator depends on its operand up to places only. -/
theorem unaryTree_unplaced {op : Token} {e e' : Tree} (he : e'.unplaced = e.unplaced) :
    (unaryTree op e').unplaced = (Tree.node .unary (.str op.string) [e] s).unplaced := by
  rw [unaryTree, Tree.unplaced_node, Tree.unplaced_node, List.map_singleton, List.map_singleton, he]

/-- The operand of a prefix operator is read after it has been probed. -/
theorem prefixed_settles {op : String} {e : Tree} {n : Nat} (hop : op ∈ prefixOperators)
    (he : Readable 6 e text) (hrest : Follow 6 rest)
    (hat : At (op.toList ++ (text ++ rest)) c) :
    (prefixed (nest n) mode c).Settles (Reads (.node .unary (.str op) [e] s) rest) := by
  unfold prefixed
  refine settles_bind (prefixOperator_settles hop hat) fun token d hd => ?_
  obtain ⟨rfl, hd, hclear⟩ := hd
  have hd' := Cursor.at_here hd (he.opens rest hrest.delimited).starts hclear
  have hread : ∀ mode, ((nest n).unary mode d).Settles (Reads e rest) := fun mode =>
    nest_unary fun m => he.operand (Nat.le_refl 6) m mode d rest hrest hd'
  dsimp only
  rcases (hread .probe).tentative token.start.offset (.operation prefixOperators) with
    ⟨e', d', ho, he'⟩ | ho
  · rw [ho]
    cases mode with
    | probe => exact settles_ok.mpr ⟨unaryTree_unplaced he'.1, he'.2⟩
    | read =>
        rcases hread .read with ⟨u, d', hu, hread⟩ | hu
        · simp only [hu]
          exact settles_ok.mpr ⟨unaryTree_unplaced hread.1, hread.2⟩
        · simp only [hu]
          exact Outcome.settles_tooDeep
  · rw [ho]
    cases mode <;> exact Outcome.settles_tooDeep

/-- **A prefix operator is read with its operand.** -/
theorem readable_unary {op : String} {e : Tree} (hop : op ∈ prefixOperators)
    (he : Readable 6 e text) :
    Readable 6 (.node .unary (.str op) [e] s) (op.toList ++ text) := by
  obtain ⟨x, hx, hsign⟩ : ∃ x, op.toList = [x] ∧ x ∈ ['-', '!'] := by
    simp only [prefixOperators, List.mem_cons, List.not_mem_nil, or_false] at hop
    rcases hop with rfl | rfl
    · exact ⟨'-', rfl, by decide⟩
    · exact ⟨'!', rfl, by decide⟩
  have hall : ∀ x ∈ ['-', '!'], x ∈ openers ∧ x ∈ '-' :: '!' :: '\x7d' :: closers :=
    forall_of_all (by decide)
  refine readable_of_operand (fun rest _ => ?_) (fun n mode c rest _ _ hat => ?_)
    fun n mode c rest hrest hat => ?_
  · rw [hx]
    exact .mark (hall x hsign).1
  · rw [hx] at hat
    refine assignFrom_passes_of_passes (bind_passes (primary_passes hat.at fun y hy => ?_)) c
    cases hy
    exact (hall x hsign).2
  · rw [List.append_assoc] at hat
    unfold unary unaryFrom
    exact (prefixed_settles hop he hrest hat.at).or.relabel c.skip.offset _

/-- The tree of a binary operator depends on its operands up to places only, and its kind on the
operator alone. -/
theorem binaryTree_unplaced {op : Token} {start : Cursor} {kind : Tree.Kind} {l l' r r' : Tree}
    (hkind : kind = if op.string = "&&" ∨ op.string = "||" then .logical else .binary)
    (hl : l'.unplaced = l.unplaced) (hr : r'.unplaced = r.unplaced) :
    (binaryTree start op l' r').unplaced
      = (Tree.node kind (.str op.string) [l, r] s).unplaced := by
  simp [binaryTree, hkind, hl, hr]

/-- **An operator is read after a chain of its level**, with an operand that binds tighter. -/
theorem readable_binary {op : String} {kind : Tree.Kind} {l r : Tree} {k : Nat}
    {left right : List Char} (hk : k < 6) (hop : op ∈ operatorsAt k)
    (hkind : kind = if op = "&&" ∨ op = "||" then .logical else .binary)
    (hl : Readable k l left) (hr : Readable (k + 1) r right) :
    Readable k (.node kind (.str op) [l, r] s) (left ++ ' ' :: (op.toList ++ ' ' :: right)) := by
  obtain ⟨m, hm⟩ := hl.chain k hk (Nat.le_refl k)
  have hopens : ∀ rest, Delimited rest →
      Opens (left ++ ' ' :: (op.toList ++ ' ' :: right) ++ rest) := by
    intro rest hrest
    rw [List.append_assoc]
    exact hl.opens _ (delimited_cons (by decide))
  refine readable_of_chain hk hopens ?_ ⟨m + 1, fun n mode c rest hrest hat => ?_⟩
  -- read as a target, the text ends before the operator, which is no sign of an assignment
  · intro n mode c rest hrest hsign hat
    rw [List.append_assoc, List.cons_append, List.append_assoc, List.cons_append] at hat
    have hfollow := follow_operator hk hop (right ++ rest)
    exact hl.unassigned n mode c _ (hfollow.mono (by omega)) (operator_unassigned hk hop _) hat
  · rw [List.append_assoc, List.cons_append, List.append_assoc, List.cons_append] at hat
    refine (hm n mode c _ (follow_operator hk hop _) hat).next ?_ fun l' d hl' hd => ?_
    · simp only [List.length_cons, List.length_append]
      omega
    · unfold link
      refine settles_bind (operator_settles (operatorsAt_mem hk) hop hd) fun token e he => ?_
      obtain ⟨rfl, he⟩ := he
      have hat' := Cursor.at_after_blank he (by decide)
        (hr.opens rest hrest.delimited).starts
      have hright := hr.level (Nat.le_refl (k + 1)) hk n mode e.skip rest hrest hat'
      refine settles_bind hright fun r' e' hr' => settles_pure ⟨?_, hr'.2⟩
      exact binaryTree_unplaced hkind hl' hr'.1

/-! ### Operands -/

/-- An operand is read from its text, in parentheses if it needs them. -/
theorem Readable.enclosed {level : Nat} (h : Readable t.precedence t text) (hlevel : level ≤ 7) :
    Readable level t (Tree.enclosed level t text) := by
  unfold Tree.enclosed
  split
  · exact h.inParentheses.mono hlevel
  · exact h.mono (by omega)

end Ember.Grammar
