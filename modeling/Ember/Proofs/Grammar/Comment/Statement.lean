import Ember.Proofs.Grammar.Comment.Expression

/-!
# Grammar — statements of a text with comments as blank space

A statement is read as the same tree from a text and from the same text with comments as blank
space. Only for a return it matters what stands between two lexemes, and there a comment that would
be taken for something else is left as it is.

* `agree_statement`: if the parsers inside of it agree, so does that of a statement.
* `agrees_nest`: the parsers of every nesting depth agree.
* `agree_program`: so does the one of a whole program.
-/

namespace Ember.Grammar

open Cursor (Veiled SamePlace)
open Lexeme

variable {before after : Bool} {inner : Nest} {mode : Mode} {c d : Cursor}

/-! ### Bindings, functions and loops -/

/-- A binding: the name before the sign ends no operand that goes on. -/
theorem agree_letStatement (h : inner.Agrees) (mode : Mode) :
    Agree before false Eq (letStatement inner mode) (letStatement inner mode) := by
  refine (agree_keyword (by decide)).bind fun t t' ht => Agree.cut ?_
  refine (agree_lexeme shared_mutMark).optional.bind fun m m' hm => ?_
  refine (agree_name mode).bind fun n n' hn => ?_
  refine (agree_lexeme shared_assignSign).bind fun _ _ _ => ?_
  refine (agree_expression h mode).weaken.bind fun e e' he => ?_
  have hmark : m'.isSome = m.isSome := by cases hm <;> rfl
  rw [hmark, hn.string, he]
  exact .pure (nodeAt_congr ht.place _ _ _).symm

/-- A function with a name, parameters and a body. -/
theorem agree_functionDef (h : inner.Agrees) (mode : Mode) :
    Agree before false Eq (functionDef inner mode) (functionDef inner mode) := by
  refine (agree_keyword (by decide)).bind fun t t' ht => (agree_name mode).bind fun n n' hn => ?_
  refine (agree_parameters mode).bind fun ps ps' hps => (h.block mode).weaken.cut.bind
    fun b b' hb => ?_
  rw [hn.string, hps, hb, nodeAt_congr ht.place]
  exact .pure rfl

/-- What follows `else` is a conditional or a block. -/
theorem agree_elseBranch (h : inner.Agrees) (mode : Mode) :
    Agree before false Eq (elseBranch inner mode) (elseBranch inner mode) := by
  refine (agree_keyword (by decide)).bind fun _ _ _ => (agree_choice _ fun p hp => ?_).cut
  simp only [List.mem_cons, List.not_mem_nil, or_false] at hp
  rcases hp with rfl | rfl
  · exact h.conditional mode
  · exact (h.block mode).weaken

/-- A conditional, with a second branch or without one. -/
theorem agree_ifStatement (h : inner.Agrees) (mode : Mode) :
    Agree before false Eq (ifStatement inner mode) (ifStatement inner mode) := by
  refine (agree_keyword (by decide)).bind fun t t' ht => ?_
  refine (agree_expression h mode).weaken.cut.bind fun e e' he => ?_
  refine (h.block mode).weaken.cut.bind fun b b' hb => ?_
  refine (agree_elseBranch h mode).optional.bind fun no no' hno => ?_
  have hno : no = no' := by
    cases hno with
    | none => rfl
    | some h => rw [h]
  rw [he, hb, hno, nodeAt_congr ht.place]
  exact .pure rfl

/-- A loop with a condition. -/
theorem agree_whileStatement (h : inner.Agrees) (mode : Mode) :
    Agree before false Eq (whileStatement inner mode) (whileStatement inner mode) := by
  refine (agree_keyword (by decide)).bind fun t t' ht => ?_
  refine (agree_expression h mode).weaken.cut.bind fun e e' he => ?_
  refine (h.block mode).weaken.cut.bind fun b b' hb => ?_
  rw [he, hb, nodeAt_congr ht.place]
  exact .pure rfl

/-- A loop over an array. -/
theorem agree_forStatement (h : inner.Agrees) (mode : Mode) :
    Agree before false Eq (forStatement inner mode) (forStatement inner mode) := by
  refine (agree_keyword (by decide)).bind fun t t' ht => Agree.cut ?_
  refine (agree_name mode).bind fun n n' hn => (agree_keyword (by decide)).bind fun _ _ _ => ?_
  refine (agree_expression h mode).weaken.bind fun e e' he => (h.block mode).weaken.bind
    fun b b' hb => ?_
  rw [hn.string, he, hb, nodeAt_congr ht.place]
  exact .pure rfl

/-! ### Returns and blocks -/

/-- A return without a value: no comment after the word decides otherwise. -/
theorem agree_bareReturn : Agree before false Eq bareReturn bareReturn :=
  (agree_lexeme shared_bareReturn).bind fun _ _ ht => .pure (nodeAt_congr ht.place _ _ _).symm

/-- A return with a value. -/
theorem agree_valueReturn (h : inner.Agrees) (mode : Mode) :
    Agree before false Eq (valueReturn inner mode) (valueReturn inner mode) := by
  refine (agree_keyword (by decide)).bind fun t t' ht => ?_
  refine (agree_expression h mode).weaken.bind fun e e' he => ?_
  rw [he, nodeAt_congr ht.place]
  exact .pure rfl

theorem agree_blockStatement (h : inner.Agrees) (mode : Mode) :
    Agree false false Eq (blockStatement inner mode) (blockStatement inner mode) :=
  (h.block mode).weaken.bind fun _ _ hb => .pure (by rw [hb])

/-! ### Assignments and expressions -/

/-- The tree of an assignment does not depend on which of the texts it is from. -/
theorem assignTree?_congr {start start' : Cursor} (h : SamePlace start start') (t e : Tree) :
    assignTree? start' t e = assignTree? start t e := by
  unfold assignTree?
  split <;> simp only [nodeAt_congr h]

/-- An assignment, of which the target has been read. -/
theorem agrees_assignFrom {target target' : Outcome Tree} (h : inner.Agrees) (mode : Mode)
    (hcd : Veiled before c d) (htarget : target.Agrees true Eq target') :
    (assignFrom inner mode target c).Agrees false Eq (assignFrom inner mode target' d) := by
  cases htarget with
  | ok ht hcd' =>
      subst ht
      refine Agree.bind (agree_lexeme shared_assignSign) (fun _ _ _ => ?_) _ _ hcd'
      refine Agree.bind (agree_expression h mode).weaken fun e e' he => ?_
      subst he
      rw [assignTree?_congr hcd.toSamePlace]
      cases assignTree? c _ e with
      | some tree => exact .pure rfl
      | none =>
          cases mode with
          | probe => exact .pure rfl
          | read => exact .fail _ _
  | fail f f' => exact .fail f f'
  | fatal f f' => exact .fatal f f'
  | stop s => exact .stop s

/-- An expression as a statement. -/
theorem agrees_expressionStatementFrom {plain plain' : Outcome Tree} (h : inner.Agrees)
    (mode : Mode) (hcd : Veiled before c d) (hplain : plain.Agrees true Eq plain') :
    (expressionStatementFrom inner mode plain c).Agrees false Eq
      (expressionStatementFrom inner mode plain' d) := by
  have hexpression := agrees_expressionFrom h mode hcd hplain
  unfold expressionStatementFrom
  generalize expressionFrom inner mode plain c = o at hexpression
  generalize expressionFrom inner mode plain' d = o' at hexpression
  cases hexpression with
  | ok he hcd' =>
      refine .ok ?_ hcd'.weaken
      rw [he, nodeAt_congr hcd.toSamePlace]
  | fail f f' => exact .fail f f'
  | fatal f f' => exact .fatal f f'
  | stop s => exact .stop s

/-! ### Statements -/

/-- The statements that start with a keyword or a brace. -/
theorem agree_commands (h : inner.Agrees) (mode : Mode) :
    Agree false false Eq (firstOf (commandStatements inner mode))
      (firstOf (commandStatements inner mode)) := by
  refine agree_firstOf fun p hp => ?_
  simp only [commandStatements, wordStatements, List.cons_append, List.nil_append, List.mem_cons,
    List.not_mem_nil, or_false] at hp
  rcases hp with rfl | rfl | rfl | rfl | rfl | rfl | rfl | rfl
  · exact agree_letStatement h mode
  · exact agree_functionDef h mode
  · exact agree_ifStatement h mode
  · exact agree_whileStatement h mode
  · exact agree_forStatement h mode
  · exact agree_bareReturn
  · exact agree_valueReturn h mode
  · exact agree_blockStatement h mode

/-- The statements, one by one; an expression is tried last. -/
theorem agree_bareStatement (h : inner.Agrees) (mode : Mode) :
    Agree before false Eq (bareStatement inner mode) (bareStatement inner mode) := by
  intro c d hcd
  obtain ⟨hcd', -⟩ := hcd.skip
  have hcommands := agree_commands h mode _ _ hcd'
  have hplain : (postfixed inner mode c.skip).Agrees true Eq (postfixed inner mode d.skip) :=
    agree_postfixed h mode _ _ hcd'
  have hassign := agrees_assignFrom h mode hcd' hplain
  have hexpression := agrees_expressionStatementFrom h mode hcd' hplain
  simp only [commandStatements, wordStatements, List.cons_append, List.nil_append] at hcommands
  simp only [bareStatement]
  generalize firstOf _ c.skip = o at hcommands ⊢
  generalize firstOf _ d.skip = o' at hcommands ⊢
  cases hcommands with
  | ok ht hcd₁ => exact .ok ht hcd₁
  | fail f f' =>
      dsimp only
      generalize assignFrom inner mode _ c.skip = a at hassign ⊢
      generalize assignFrom inner mode _ d.skip = a' at hassign ⊢
      cases hassign with
      | ok ht hcd₁ => exact .ok ht hcd₁
      | fail g g' => exact Outcome.Agrees.or (.fail _ _) hexpression
      | fatal g g' => exact .fatal g g'
      | stop s => exact .stop s
  | fatal f f' => exact .fatal f f'
  | stop s => exact .stop s

theorem agree_statement (h : inner.Agrees) (mode : Mode) :
    Agree before false Eq (statement inner mode) (statement inner mode) :=
  (agree_bareStatement h mode).bind fun _ _ hs =>
    (agree_symbol rfl (by decide)).optional.bind fun _ _ _ => .pure hs

/-- Statements, each with a semicolon or without one. -/
theorem agree_statements (h : inner.Agrees) (mode : Mode) :
    Agree false false Eq (statements inner mode) (statements inner mode) := by
  refine (agree_repeatedly (fun ss ss' hss => ?_) rfl).bind fun ss ss' hss => .pure (by rw [hss])
  exact (agree_statement h mode).bind fun s s' hs => .pure (by rw [hs, hss])

theorem agree_block (h : inner.Agrees) (mode : Mode) :
    Agree before true Eq (block inner mode) (block inner mode) := by
  refine (agree_symbol rfl (by decide)).bind fun t t' ht => ?_
  refine (agree_statements h mode).bind fun ss ss' hss => (agree_closing rfl (by decide)).cut.bind
    fun _ _ _ => ?_
  rw [hss, nodeAt_congr ht.place]
  exact .pure rfl

/-! ### Programs -/

/-- The parsers of every nesting depth agree. -/
theorem agrees_nest (n : Nat) : (nest n).Agrees := by
  induction n with
  | zero => exact ⟨fun _ => .stop _, fun _ => .stop _, fun _ => .stop _, fun _ => .stop _⟩
  | succ n ih =>
      exact ⟨agree_expression ih, agree_unary ih, agree_block ih, agree_ifStatement ih⟩

/-- A program is read alike on both texts. -/
theorem agree_program : Agree false false Eq program program :=
  (agree_statements (agrees_nest maxDepth) .read).bind fun _ _ hss =>
    agree_endOfText.bind fun _ _ _ => .pure hss

end Ember.Grammar
