import Mathlib.Tactic.IntervalCases
import Ember.Proofs.Grammar.Spelling

/-!
# Grammar — what stands around an expression

An expression is read to its end, and not beyond it, if what follows cannot continue it; and it is
taken for an expression if it starts like none of the statements.

* `Follow`: a text cannot continue an expression of a level.
* `Opens`: a text starts like an expression.
* `Fresh`: a text starts like a statement, or ends a block.
-/

namespace Ember.Grammar

open Cursor (At Ready Starts Quiet)
open Lexeme (IsWord)

variable {c : Cursor} {cs rest : List Char} {x : Char} {k : Nat}

/-! ### After an expression -/

/-- The text can continue no expression whose operators are of level `k` or tighter. -/
structure Follow (k : Nat) (rest : List Char) : Prop where
  delimited : Delimited rest
  quiet : Quiet rest
  suffix : ∀ x ∈ (rest.dropWhile Cursor.isInlineSpace).head?, x ≠ '(' ∧ x ≠ '['
  operators : ∀ ops ∈ levels.drop k, operatorAt? ops (rest.dropWhile Cursor.isInlineSpace) = none

/-- What no loose operator goes on with, no tight one does either. -/
theorem Follow.mono {j : Nat} (h : Follow k rest) (hj : k ≤ j) : Follow j rest where
  delimited := h.delimited
  quiet := h.quiet
  suffix := h.suffix
  operators ops hops := h.operators ops ((List.drop_sublist_drop_left levels hj).subset hops)

/-- The marks that end a part of an expression. -/
def closers : List Char := [',', ')', ']']

/-- A closing bracket is a token. -/
theorem starts_closer (hx : x ∈ closers) (rest : List Char) : Starts (x :: rest) := by
  have hall : ∀ x ∈ closers, Cursor.isSpace x = false ∧ x ≠ '/' := forall_of_all (by decide)
  intro y hy
  cases hy
  exact hall x hx

/-- Nothing goes on at a closing bracket, -/
theorem follow_closer (hx : x ∈ closers) (rest : List Char) : Follow 0 (x :: rest) := by
  have hquiet := (starts_closer hx rest).quiet (b := []) (by simp)
  simp only [closers, List.mem_cons, List.not_mem_nil, or_false] at hx
  rcases hx with rfl | rfl | rfl <;>
    exact ⟨delimited_cons (by decide), hquiet, by simp [Cursor.isInlineSpace],
      by simp [levels, operatorAt?, Cursor.isInlineSpace]⟩

/-- at the end of a line, -/
theorem follow_newline (h : Starts rest) : Follow 0 ('\n' :: rest) where
  delimited := delimited_cons (by decide)
  quiet := h.quiet (b := ['\n']) (by simp [Cursor.isSpace])
  suffix := by simp [Cursor.isInlineSpace]
  operators := by simp [levels, operatorAt?, Cursor.isInlineSpace]

/-- or at a brace; -/
theorem follow_brace (rest : List Char) : Follow 0 (' ' :: '\x7b' :: rest) where
  delimited := delimited_cons (by decide)
  quiet := rfl
  suffix := by simp [Cursor.isInlineSpace]
  operators := by simp [levels, operatorAt?, Cursor.isInlineSpace]

/-- and no operator does at the sign of an assignment. -/
theorem follow_assignment (rest : List Char) : Follow 6 (' ' :: '=' :: ' ' :: rest) where
  delimited := delimited_cons (by decide)
  quiet := rfl
  suffix := by simp [Cursor.isInlineSpace]
  operators := by simp [levels]

/-- The operators of a level. -/
def operatorsAt (k : Nat) : List String := levels.getD k []

/-- A level, and the tighter ones. -/
theorem drop_levels (hk : k < 6) : levels.drop k = operatorsAt k :: levels.drop (k + 1) := by
  interval_cases k <;> rfl

theorem operatorsAt_mem (hk : k < 6) : operatorsAt k ∈ levels := by
  interval_cases k <;> decide

/-- An operator continues only looser expressions. -/
theorem follow_operator {op : String} (hk : k < 6) (hop : op ∈ operatorsAt k)
    (rest : List Char) : Follow (k + 1) (' ' :: (op.toList ++ ' ' :: rest)) := by
  refine ⟨delimited_cons (by decide), (operator_between_blanks (operatorsAt_mem hk) hop rest).1,
    ?_, ?_⟩ <;>
    interval_cases k <;>
    simp only [operatorsAt, levels, List.getD_cons_zero, List.getD_cons_succ, List.mem_cons,
      List.not_mem_nil, or_false] at hop <;>
    rcases hop with rfl | rfl | rfl | rfl <;>
    simp [levels, operatorAt?, Cursor.isInlineSpace]

/-- An operator is no sign of an assignment. -/
theorem operator_unassigned {op : String} (hk : k < 6) (hop : op ∈ operatorsAt k)
    (rest : List Char) :
    Lexeme.assignSign? ((' ' :: (op.toList ++ ' ' :: rest)).dropWhile Cursor.isSpace) = none := by
  have hmem := operatorsAt_mem hk
  generalize operatorsAt k = ops at hop hmem
  simp only [levels, List.mem_cons, List.not_mem_nil, or_false] at hmem
  rcases hmem with rfl | rfl | rfl | rfl | rfl | rfl <;>
    simp only [List.mem_cons, List.not_mem_nil, or_false] at hop <;>
    rcases hop with rfl | rfl | rfl | rfl <;> rfl

/-! ### Where an expression starts -/

/-- The words that start statements or go on with them, except for that of functions. -/
def commands : List String := ["let", "if", "else", "while", "for", "in", "return"]

/-- The marks and digits that expressions start with. -/
def openers : List Char := "0123456789\"[(-!".toList

/-- The text starts like an expression. The word of functions has to be followed by parameters. -/
inductive Opens : List Char → Prop where
  | word {n : String} {rest : List Char} (hn : IsWord n) (hfree : n ∉ "fun" :: commands)
      (hrest : Delimited rest) : Opens (n.toList ++ rest)
  | function {rest : List Char} : Opens ("fun".toList ++ '(' :: rest)
  | mark {x : Char} {rest : List Char} (hx : x ∈ openers) : Opens (x :: rest)

/-- The marks that no expression starts with. -/
def foreign : List Char := [' ', '\n', '\t', '\r', '/', '\x7b', '\x7d', ';', '=', ',', ')', ']']

/-- What a name starts with is not foreign. -/
theorem not_foreign_of_isNameStart (hx : Text.isNameStart x) : x ∉ foreign := by
  have hall : ∀ y ∈ foreign, Text.isNameStart y = false := forall_of_all (by decide)
  intro hmem
  rw [hall x hmem] at hx
  cases hx

/-- What opens an expression is not empty. -/
theorem Opens.exists_cons (h : Opens cs) : ∃ x xs, cs = x :: xs ∧ x ∉ foreign := by
  cases h with
  | @word n rest hn hfree hrest =>
      obtain ⟨y, ys, hy, hstart, -⟩ := hn
      exact ⟨y, ys ++ rest, by rw [hy, List.cons_append], not_foreign_of_isNameStart hstart⟩
  | function => exact ⟨_, _, rfl, by decide⟩
  | @mark x rest hx =>
      have hall : ∀ y ∈ openers, y ∉ foreign := forall_of_all (by decide)
      exact ⟨x, rest, rfl, hall x hx⟩

/-- It starts with no foreign character. -/
theorem Opens.not_foreign (h : Opens cs) : ∀ x ∈ cs.head?, x ∉ foreign := by
  obtain ⟨x, xs, rfl, hx⟩ := h.exists_cons
  intro y hy
  cases hy
  exact hx

/-- What starts with no foreign character starts with a token. -/
theorem starts_of_not_foreign (h : ∀ x ∈ cs.head?, x ∉ foreign) : Starts cs := by
  intro x hx
  have hfree := h x hx
  simp only [foreign, List.mem_cons, List.not_mem_nil, or_false, not_or] at hfree
  simp [Cursor.isSpace, hfree]

/-- A word is a token. -/
theorem starts_of_isWord {n : String} (hn : IsWord n) (rest : List Char) :
    Starts (n.toList ++ rest) := by
  obtain ⟨y, ys, hy, hstart, -⟩ := hn
  refine starts_of_not_foreign fun x hx => ?_
  rw [hy] at hx
  cases hx
  exact not_foreign_of_isNameStart hstart

theorem Opens.starts (h : Opens cs) : Starts cs := starts_of_not_foreign h.not_foreign

/-- What opens an expression without being a word is no word. -/
theorem not_isNameStart_of_openers (hx : x ∈ openers) (rest : List Char) :
    ∀ y ∈ (x :: rest).head?, Text.isNameStart y = false := by
  have hall : ∀ x ∈ openers, Text.isNameStart x = false := forall_of_all (by decide)
  intro y hy
  cases hy
  exact hall x hx

/-- The words that start statements are words. -/
theorem isWord_of_mem_commands {word : String} (h : word ∈ commands) : IsWord word := by
  have hall : ∀ w ∈ commands, w ∈ Lexeme.keywords := by decide
  exact isWord_of_mem_keywords (hall word h)

theorem isWord_fun : IsWord "fun" := isWord_of_mem_keywords (by decide)

/-- No expression starts with the word of a statement. -/
theorem Opens.keyword_fails {word : String} (hcs : Opens cs) (hword : word ∈ commands)
    (h : At cs c) : (keyword word c).Fails := by
  have hisWord := isWord_of_mem_commands hword
  cases hcs with
  | word hn hfree hrest =>
      refine keyword_fails_at_word hisWord hn (fun heq => hfree ?_) h hrest
      rw [heq]
      exact List.mem_cons_of_mem _ hword
  | function =>
      have hne : "fun" ≠ word := fun heq => absurd (heq ▸ hword) (by decide)
      exact keyword_fails_at_word hisWord isWord_fun hne h (delimited_cons (by decide))
  | mark hx => exact keyword_fails_at_mark hisWord h (not_isNameStart_of_openers hx _)

/-- A function without a name is no statement of a function. -/
theorem functionDef_passes (hcs : Opens cs) (h : At cs c) (inner : Nest) (mode : Mode) :
    (functionDef inner mode c).Passes := by
  cases hcs with
  | word hn hfree hrest =>
      have hne := fun heq => hfree (List.mem_cons.mpr (.inl heq))
      exact (bind_fails (keyword_fails_at_word isWord_fun hn hne h hrest)).passes
  | function =>
      refine bind_passes_after (keyword_settles isWord_fun h (delimited_cons (by decide)))
        fun t c' hc' => (bind_fails ?_).passes
      have hat := Cursor.at_mark hc' (by simp [Starts, Cursor.isSpace]) (by decide)
      exact name_fails mode hat (by simp [Text.isNameStart])
  | @mark y ys hx =>
      have hstart := not_isNameStart_of_openers hx ys
      exact (bind_fails (keyword_fails_at_mark isWord_fun h hstart)).passes

/-- What opens an expression is no return. -/
theorem bareReturn_fails (hcs : Opens cs) (h : At cs c) : (bareReturn c).Fails := by
  have hreturn : IsWord "return" := isWord_of_mem_keywords (by decide)
  refine bind_fails (lexeme_fails h.rest ?_)
  cases hcs with
  | word hn hfree hrest =>
      have hnone := word?_word hreturn hn (fun heq => by simp [heq, commands] at hfree) hrest
      rw [Lexeme.bareReturn?, hnone]
      rfl
  | @function ys =>
      have hdelimited : Delimited ('(' :: ys) := delimited_cons (by decide)
      rw [Lexeme.bareReturn?, word?_word hreturn isWord_fun (by decide) hdelimited]
      rfl
  | @mark y ys hx =>
      have hstart := not_isNameStart_of_openers hx ys
      rw [Lexeme.bareReturn?, word?_mark hreturn hstart]
      rfl

/-! ### Where a statement starts -/

/-- The text starts like a statement, or ends the statements of a block. Nothing of it can continue
a statement before it. -/
structure Fresh (cs : List Char) : Prop where
  starts : Starts cs
  plain : ∀ x ∈ cs.head?, x ≠ ';' ∧ x ≠ '='
  noElse : ∀ c, At cs c → (keyword "else" c).Fails

theorem isWord_else : IsWord "else" := isWord_of_mem_keywords (by decide)

/-- After the last line there is nothing that goes on with it. -/
theorem fresh_nil : Fresh [] where
  starts := by simp [Starts]
  plain := by simp
  noElse _ h := keyword_fails h (by decide)

/-- A brace does not go on with the line before. -/
theorem fresh_brace (hx : x = '\x7b' ∨ x = '\x7d') (rest : List Char) : Fresh (x :: rest) where
  starts := by rcases hx with rfl | rfl <;> simp [Starts, Cursor.isSpace]
  plain := by rcases hx with rfl | rfl <;> simp
  noElse _ h := by
    refine keyword_fails_at_mark isWord_else h ?_
    rcases hx with rfl | rfl <;> simp [Text.isNameStart]

/-- Nor does a word, except for `else`. -/
theorem fresh_word {n : String} (hn : IsWord n) (hne : n ≠ "else") (hrest : Delimited rest) :
    Fresh (n.toList ++ rest) := by
  have hfree : ∀ x ∈ (n.toList ++ rest).head?, x ∉ foreign := by
    obtain ⟨y, ys, hy, hstart, -⟩ := hn
    intro x hx
    rw [hy] at hx
    cases hx
    exact not_foreign_of_isNameStart hstart
  refine ⟨starts_of_not_foreign hfree, fun x hx => ?_,
    fun c h => keyword_fails_at_word isWord_else hn hne h hrest⟩
  have hmem := hfree x hx
  simp only [foreign, List.mem_cons, List.not_mem_nil, or_false, not_or] at hmem
  simp [hmem]

/-- Nor does an expression. -/
theorem Opens.fresh (h : Opens cs) : Fresh cs := by
  refine ⟨h.starts, fun x hx => ?_, fun c hc => h.keyword_fails (by decide) hc⟩
  have hmem := h.not_foreign x hx
  simp only [foreign, List.mem_cons, List.not_mem_nil, or_false, not_or] at hmem
  simp [hmem]

end Ember.Grammar
