import Ember.Proofs.Grammar.Canonical

/-!
# Grammar — canonical statements

Each statement is read from its canonical text, up to the end of its line. What follows on the next
line starts afresh, so nothing of it can continue the statement: no semicolon, no sign of an
assignment, no `else`.

* `LineReadable`, `ConditionalReadable`, `BranchReadable`: texts of statements and of their parts.
* `line_let`, `line_assign` and so on: the statements.
* `statements_settle`: a text is read line by line.
-/

namespace Ember.Grammar

open Cursor (At Ready Starts Quiet)
open Lexeme (IsWord)
open Outcome (settles_ok)

variable {inner : Nest} {mode : Mode} {t e b : Tree} {s : Option Span}
  {text text' cs rest : List Char} {c : Cursor} {n : Nat}

/-- The text is that of a statement, on a line of its own. -/
structure LineReadable (t : Tree) (text : List Char) : Prop where
  fresh : ∀ rest, Fresh (text ++ '\n' :: rest)
  reads : ∀ n mode c rest, Fresh rest → At (text ++ '\n' :: rest) c →
    (bareStatement (nest n) mode c).Settles (Reads t ('\n' :: rest))

/-- At the end of a line a cursor skips to what is fresh. -/
theorem Fresh.at_newline (h : Fresh rest) (hrest : c.rest = '\n' :: rest) : At rest c :=
  Cursor.at_after_blank hrest (by decide) h.starts

/-- What is fresh does not go on with an expression in the line before. -/
theorem Fresh.follow (h : Fresh rest) : Follow 0 ('\n' :: rest) := follow_newline h.starts

/-- A line ends words and numbers, -/
theorem delimited_newline (rest : List Char) : Delimited ('\n' :: rest) :=
  delimited_cons (by decide)

/-- and so does a space. -/
theorem delimited_space (rest : List Char) : Delimited (' ' :: rest) := delimited_cons (by decide)

/-! ### Alternatives -/

/-- The statements that start with a keyword. -/
def wordStatements (inner : Nest) (mode : Mode) : List (Parser Tree) := [
  letStatement inner mode, functionDef inner mode, ifStatement inner mode,
  whileStatement inner mode, forStatement inner mode, bareReturn, valueReturn inner mode]

/-- The statements that start with a keyword or a brace. -/
def commandStatements (inner : Nest) (mode : Mode) : List (Parser Tree) :=
  wordStatements inner mode ++ [blockStatement inner mode]

variable {Q : Tree → Cursor → Prop}

/-- A statement that starts with a word of its own, or with a brace. -/
theorem settles_command (h : (firstOf (commandStatements inner mode) c.skip).Settles Q) :
    (bareStatement inner mode c).Settles Q := by
  simp only [commandStatements, wordStatements, List.cons_append, List.nil_append] at h
  rcases h with ⟨t, d, h, ht⟩ | h
  · simp only [bareStatement, h]
    exact settles_ok.mpr ht
  · simp only [bareStatement, h]
    exact Outcome.settles_tooDeep

/-- What is no command may be an assignment. -/
theorem settles_assignment (h : (firstOf (commandStatements inner mode) c.skip).Passes)
    (hassign : (assignFrom inner mode (postfixed inner mode c.skip) c.skip).Settles Q) :
    (bareStatement inner mode c).Settles Q := by
  simp only [commandStatements, wordStatements, List.cons_append, List.nil_append] at h
  rcases h with ⟨f, h⟩ | h
  · rcases hassign with ⟨t, d, ha, ht⟩ | ha
    · simp only [bareStatement, h, ha]
      exact settles_ok.mpr ht
    · simp only [bareStatement, h, ha]
      exact Outcome.settles_tooDeep
  · simp only [bareStatement, h]
    exact Outcome.settles_tooDeep

/-- What is neither a command nor an assignment is an expression. -/
theorem settles_expression (h : (firstOf (commandStatements inner mode) c.skip).Passes)
    (hassign : (assignFrom inner mode (postfixed inner mode c.skip) c.skip).Passes)
    (hexpr : (expressionStatementFrom inner mode (postfixed inner mode c.skip) c.skip).Settles Q) :
    (bareStatement inner mode c).Settles Q := by
  simp only [commandStatements, wordStatements, List.cons_append, List.nil_append] at h
  rcases h with ⟨f, h⟩ | h
  · rcases hassign with ⟨g, ha⟩ | ha
    · simp only [bareStatement, h, ha]
      exact (Outcome.fails_fail _).passes.or hexpr
    · simp only [bareStatement, h, ha]
      exact Outcome.settles_tooDeep
  · simp only [bareStatement, h]
    exact Outcome.settles_tooDeep

/-- Where no command, no assignment and no expression starts, no statement does. -/
theorem bareStatement_passes (h : (firstOf (commandStatements inner mode) c.skip).Passes)
    (hassign : (assignFrom inner mode (postfixed inner mode c.skip) c.skip).Passes)
    (hexpr : (expressionStatementFrom inner mode (postfixed inner mode c.skip) c.skip).Passes) :
    (bareStatement inner mode c).Passes := by
  simp only [commandStatements, wordStatements, List.cons_append, List.nil_append] at h
  rcases h with ⟨f, h⟩ | h
  · rcases hassign with ⟨g, ha⟩ | ha
    · simp only [bareStatement, h, ha]
      exact (Outcome.fails_fail _).passes.or_passes hexpr
    · simp only [bareStatement, h, ha]
      exact Outcome.passes_tooDeep
  · simp only [bareStatement, h]
    exact Outcome.passes_tooDeep

/-- A block does not start with anything but a brace. -/
theorem nest_block_passes (h : At cs c) (hcs : cs.head? ≠ some '\x7b') :
    ((nest n).block mode c).Passes := by
  cases n with
  | zero => exact Outcome.passes_tooDeep
  | succ m =>
      rw [nest, enclose_block]
      unfold block
      exact (bind_fails (symbol_fails (x := '\x7b') rfl h hcs)).passes

/-- No command starts like an expression. -/
theorem commands_pass_at_expression (h : At cs c) (hcs : Opens cs) :
    (firstOf (commandStatements (nest n) mode) c).Passes := by
  have hbrace : cs.head? ≠ some '\x7b' := fun heq =>
    absurd (hcs.not_foreign _ heq) (by decide)
  refine firstOf_passes fun p hp => ?_
  simp only [commandStatements, wordStatements, List.cons_append, List.nil_append, List.mem_cons,
    List.not_mem_nil, or_false] at hp
  rcases hp with rfl | rfl | rfl | rfl | rfl | rfl | rfl | rfl
  · exact (bind_fails (hcs.keyword_fails (by decide) h)).passes
  · exact functionDef_passes hcs h _ mode
  · exact (bind_fails (hcs.keyword_fails (by decide) h)).passes
  · exact (bind_fails (hcs.keyword_fails (by decide) h)).passes
  · exact (bind_fails (hcs.keyword_fails (by decide) h)).passes
  · exact (bareReturn_fails hcs h).passes
  · exact (bind_fails (hcs.keyword_fails (by decide) h)).passes
  · exact bind_passes (nest_block_passes h hbrace)

/-- No statement that starts with a keyword starts with a mark. -/
theorem words_pass_at_mark (h : At cs c) (hcs : Unworded cs) :
    ∀ p ∈ wordStatements inner mode, (p c).Passes := by
  have hfails : ∀ word ∈ Lexeme.keywords, (keyword word c).Passes := fun word hword =>
    (keyword_fails_at_mark (isWord_of_mem_keywords hword) h hcs).passes
  have hreturn : Lexeme.bareReturn? cs = none := by
    rw [Lexeme.bareReturn?, word?_mark (isWord_of_mem_keywords (by decide)) hcs]
    rfl
  intro p hp
  simp only [wordStatements, List.mem_cons, List.not_mem_nil, or_false] at hp
  rcases hp with rfl | rfl | rfl | rfl | rfl | rfl | rfl
  · exact bind_passes (hfails "let" (by decide))
  · exact bind_passes (hfails "fun" (by decide))
  · exact bind_passes (hfails "if" (by decide))
  · exact bind_passes (hfails "while" (by decide))
  · exact bind_passes (hfails "for" (by decide))
  · exact (bind_fails (lexeme_fails h.rest hreturn)).passes
  · exact bind_passes (hfails "return" (by decide))

/-- Keywords are told apart. -/
theorem other_keyword_passes {word word' : String} (h : At (word.toList ++ rest) c)
    (hrest : Delimited rest) (hword : word ∈ Lexeme.keywords) (hword' : word' ∈ Lexeme.keywords)
    (hne : word ≠ word') : (keyword word' c).Passes :=
  (keyword_fails_at_word (isWord_of_mem_keywords hword') (isWord_of_mem_keywords hword) hne h
    hrest).passes

/-- The text of a statement that starts with a keyword. -/
theorem fresh_command {word : String} (hword : word ∈ Lexeme.keywords) (hne : word ≠ "else")
    (text rest : List Char) : Fresh (word.toList ++ ' ' :: text ++ '\n' :: rest) := by
  rw [List.append_assoc]
  exact fresh_word (isWord_of_mem_keywords hword) hne (delimited_space _)

/-! ### Bindings -/

/-- What settles settles where failures are final. -/
theorem settles_cut {α : Type} {p : Parser α} {Q : α → Cursor → Prop} (h : (p c).Settles Q) :
    (p.cut c).Settles Q := h.cut

/-- A name is no mark of a mutable binding. -/
theorem mutMark?_name {name : String} (hn : IsWord name) (rest : List Char) :
    Lexeme.mutMark? (name.toList ++ rest) = none := by
  obtain ⟨x, xs, hxs, hx, -⟩ := hn
  have hne : ¬ '@' = x := by
    rintro rfl
    cases hx
  simp [Lexeme.mutMark?, Lexeme.word?, hxs, hne]

/-- Before the name of a binding stands its mark, if there is one. -/
theorem mark_settles {name : String} (hn : IsWord name) {m : Bool}
    (hrest : c.rest = ' ' :: ((if m then "@mut".toList ++ [' '] else [])
      ++ (name.toList ++ rest))) :
    ((lexeme Lexeme.mutMark? (.construct "mark")).optional c).Settles fun mark c' =>
      mark.isSome = m ∧ At (name.toList ++ rest) c' := by
  have hstarts := starts_of_isWord hn rest
  cases m with
  | false =>
      have hat : At (name.toList ++ rest) c := Cursor.at_after_blank hrest (by decide) hstarts
      refine (optional_of_passes (lexeme_fails hat.rest (mutMark?_name hn rest)).passes).mono ?_
      rintro mark c' ⟨rfl, rfl⟩
      exact ⟨rfl, hat⟩
  | true =>
      have hat : At ("@mut".toList ++ ' ' :: (name.toList ++ rest)) c :=
        Cursor.at_after_blank hrest (by decide) (by simp [Starts, Cursor.isSpace])
      refine (settles_optional (lexeme_settles hat rfl)).mono ?_
      rintro mark c' ⟨t, rfl, ht⟩
      exact ⟨rfl, Cursor.at_after_blank ht.2.1 (by decide) hstarts⟩

/-- What is assigned follows the sign of the assignment. -/
theorem assigned_settles {p : Nat} (he : Readable p e text) (hfresh : Fresh rest)
    (hrest : c.rest = ' ' :: '=' :: ' ' :: (text ++ '\n' :: rest)) {α : Type}
    {f : Tree → Parser α} {R : α → Cursor → Prop}
    (hf : ∀ e' c', Reads e ('\n' :: rest) e' c' → (f e' c').Settles R) :
    ((lexeme Lexeme.assignSign? .assignSign >>= fun _ => expression (nest n) mode >>= f)
      c).Settles R := by
  have hat : At (['='] ++ ' ' :: (text ++ '\n' :: rest)) c :=
    Cursor.at_after_blank hrest (by decide) (by simp [Starts, Cursor.isSpace])
  refine settles_bind (lexeme_settles hat rfl) fun _ d hd => ?_
  have hstarts := (he.opens _ (delimited_newline rest)).starts
  have hd' := Cursor.at_after_blank hd.2.1 (by decide) hstarts
  exact settles_bind (he.expression n mode hfresh.follow hd') hf

/-- The payload of a binding is as in the tree. -/
theorem line_let {name : String} {m : Bool} {p : Nat} (hn : Lexeme.IsName name)
    (he : Readable p e text) :
    LineReadable (.node .letStmt (Tree.letHead name m) [e] s)
      ("let".toList ++ ' ' :: ((if m then "@mut".toList ++ [' '] else [])
        ++ (name.toList ++ ' ' :: '=' :: ' ' :: text))) := by
  refine ⟨fresh_command (by decide) (by decide) _, fun n mode c rest hfresh hat => ?_⟩
  have hword : IsWord "let" := isWord_of_mem_keywords (by decide)
  have hat' : At ("let".toList ++ ' ' :: ((if m then "@mut".toList ++ [' '] else [])
      ++ (name.toList ++ ' ' :: '=' :: ' ' :: (text ++ '\n' :: rest)))) c := by simpa using hat
  refine settles_command (settles_first ?_)
  unfold letStatement
  refine settles_bind (keyword_settles hword hat'.at (delimited_space _)) fun t d hd => ?_
  refine settles_cut (settles_bind (mark_settles hn.word hd) fun mark d' hd' => ?_)
  obtain ⟨rfl, hd'⟩ := hd'
  refine settles_bind (name_settles hn mode hd' (delimited_space _)) fun token d'' hname => ?_
  obtain ⟨rfl, hname⟩ := hname
  refine assigned_settles he hfresh hname fun e' c' he' => settles_pure ⟨?_, he'.2⟩
  simp [Tree.letHead, he'.1]

/-! ### Functions and loops -/

/-- A function with a name can be read back, -/
theorem line_functionDef {name : String} {ps : List String} (hn : Lexeme.IsName name)
    (hps : ∀ p ∈ ps, Lexeme.IsName p) (hb : BlockReadable b text) :
    LineReadable (.node .functionDef (functionHead (.str name) ps) [b] s)
      ("fun".toList ++ ' ' :: (name.toList ++ (Tree.writeParameters (ps.map .str)
        ++ ' ' :: text))) := by
  refine ⟨fresh_command (by decide) (by decide) _, fun n mode c rest hfresh hat => ?_⟩
  have hat' : At ("fun".toList ++ ' ' :: (name.toList ++ (Tree.writeParameters (ps.map .str)
      ++ ' ' :: (text ++ '\n' :: rest)))) c := by simpa using hat
  have hlet : (keyword "let" c.skip).Passes :=
    other_keyword_passes hat'.at (delimited_space _) (by decide) (by decide) (by decide)
  refine settles_command (settles_later (bind_passes hlet) (by simp) (settles_first ?_))
  unfold functionDef
  refine settles_bind (keyword_settles isWord_fun hat'.at (delimited_space _)) fun t d hd => ?_
  have hd' := Cursor.at_after_blank hd (by decide) (starts_of_isWord hn.word _)
  have hdelimited : Delimited (Tree.writeParameters (ps.map .str)
      ++ ' ' :: (text ++ '\n' :: rest)) := delimited_cons (by decide)
  refine settles_bind (name_settles hn mode hd' hdelimited) fun token e he => ?_
  obtain ⟨rfl, he⟩ := he
  refine settles_bind (parameters_settles hps he) fun ps' e' he' => ?_
  obtain ⟨rfl, he'⟩ := he'
  refine settles_bind (settles_cut (hb.after_space mode he')) fun b' d' hb' => ?_
  exact settles_pure ⟨functionHead_unplaced hb'.1 t.start .functionDef _, hb'.2⟩

/-- An expression is read after a space, before a block. -/
theorem condition_settles {p : Nat} (he : Readable p e text) (hb : BlockReadable b text')
    (hrest : c.rest = ' ' :: (text ++ ' ' :: (text' ++ rest))) :
    (expression (nest n) mode c).Settles (Reads e (' ' :: (text' ++ rest))) := by
  have hopens := he.opens _ (delimited_space (text' ++ rest))
  have hat := Cursor.at_after_blank hrest (by decide) hopens.starts
  obtain ⟨xs, rfl⟩ := hb.opens
  exact he.expression n mode (follow_brace (xs ++ rest)) hat

/-- a loop with a condition, -/
theorem line_while {p : Nat} (he : Readable p e text) (hb : BlockReadable b text') :
    LineReadable (.node .whileStmt .null [e, b] s)
      ("while".toList ++ ' ' :: (text ++ ' ' :: text')) := by
  refine ⟨fresh_command (by decide) (by decide) _, fun n mode c rest hfresh hat => ?_⟩
  have hat' : At ("while".toList ++ ' ' :: (text ++ ' ' :: (text' ++ '\n' :: rest))) c := by
    simpa using hat
  have hother : ∀ word ∈ Lexeme.keywords, "while" ≠ word → (keyword word c.skip).Passes :=
    fun word hword => other_keyword_passes hat'.at (delimited_space _) (by decide) hword
  have hword : IsWord "while" := isWord_of_mem_keywords (by decide)
  refine settles_command ?_
  refine settles_later (bind_passes (hother "let" (by decide) (by decide))) (by simp) ?_
  refine settles_later (bind_passes (hother "fun" (by decide) (by decide))) (by simp) ?_
  refine settles_later (bind_passes (hother "if" (by decide) (by decide))) (by simp) ?_
  refine settles_first ?_
  unfold whileStatement
  refine settles_bind (keyword_settles hword hat'.at (delimited_space _)) fun t d hd => ?_
  refine settles_bind (settles_cut (condition_settles he hb hd)) fun e' d' he' => ?_
  refine settles_bind (settles_cut (hb.after_space mode he'.2)) fun b' d'' hb' => ?_
  exact settles_pure ⟨by simp [he'.1, hb'.1], hb'.2⟩

/-- and a loop over an array. -/
theorem line_for {name : String} {p : Nat} (hn : Lexeme.IsName name) (he : Readable p e text)
    (hb : BlockReadable b text') :
    LineReadable (.node .forStmt (.str name) [e, b] s)
      ("for".toList ++ ' ' :: (name.toList ++ ' ' :: ("in".toList
        ++ ' ' :: (text ++ ' ' :: text')))) := by
  refine ⟨fresh_command (by decide) (by decide) _, fun n mode c rest hfresh hat => ?_⟩
  have hat' : At ("for".toList ++ ' ' :: (name.toList ++ ' ' :: ("in".toList
      ++ ' ' :: (text ++ ' ' :: (text' ++ '\n' :: rest))))) c := by simpa using hat
  have hother : ∀ word ∈ Lexeme.keywords, "for" ≠ word → (keyword word c.skip).Passes :=
    fun word hword => other_keyword_passes hat'.at (delimited_space _) (by decide) hword
  have hword : IsWord "for" := isWord_of_mem_keywords (by decide)
  have hin : IsWord "in" := isWord_of_mem_keywords (by decide)
  refine settles_command ?_
  refine settles_later (bind_passes (hother "let" (by decide) (by decide))) (by simp) ?_
  refine settles_later (bind_passes (hother "fun" (by decide) (by decide))) (by simp) ?_
  refine settles_later (bind_passes (hother "if" (by decide) (by decide))) (by simp) ?_
  refine settles_later (bind_passes (hother "while" (by decide) (by decide))) (by simp) ?_
  refine settles_first ?_
  unfold forStatement
  refine settles_bind (keyword_settles hword hat'.at (delimited_space _)) fun t d hd => ?_
  have hd' := Cursor.at_after_blank hd (by decide) (starts_of_isWord hn.word _)
  refine settles_cut (settles_bind (name_settles hn mode hd' (delimited_space _))
    fun token d' hname => ?_)
  obtain ⟨rfl, hname⟩ := hname
  have hat'' := Cursor.at_after_blank hname (by decide) (starts_of_isWord hin _)
  refine settles_bind (keyword_settles hin hat'' (delimited_space _)) fun _ d'' hd'' => ?_
  refine settles_bind (condition_settles he hb hd'') fun e' c' he' => ?_
  refine settles_bind (hb.after_space mode he'.2) fun b' c'' hb' => ?_
  exact settles_pure ⟨by simp [he'.1, hb'.1], hb'.2⟩

/-! ### Conditionals -/

/-- The text is that of a conditional, on a line of its own. -/
structure ConditionalReadable (t : Tree) (text : List Char) : Prop where
  opens : ∃ text', text = "if".toList ++ ' ' :: text'
  reads : ∀ n mode c rest, Fresh rest → At (text ++ '\n' :: rest) c →
    (ifStatement (nest n) mode c).Settles (Reads t ('\n' :: rest))

/-- The text is that of what stands after `else`. -/
structure BranchReadable (t : Tree) (text : List Char) : Prop where
  starts : ∀ rest, Starts (text ++ rest)
  reads : ∀ n mode c rest, Fresh rest → At (text ++ '\n' :: rest) c →
    (choice .elseBranch [(nest n).conditional mode, (nest n).block mode] c).Settles
      (Reads t ('\n' :: rest))

theorem isWord_if : IsWord "if" := isWord_of_mem_keywords (by decide)

/-- A block can be read back after `else`, -/
theorem branch_of_block (h : BlockReadable t text) : BranchReadable t text := by
  refine ⟨h.starts, fun n mode c rest _ hat => ?_⟩
  obtain ⟨xs, hxs⟩ := h.opens
  have hmark : Unworded (text ++ '\n' :: rest) := fun x hx => by
    rw [hxs] at hx
    cases hx
    decide
  have hcond : ((nest n).conditional mode c.skip).Passes := by
    cases n with
    | zero => exact Outcome.passes_tooDeep
    | succ m =>
        rw [nest, enclose_conditional]
        unfold ifStatement
        exact (bind_fails (keyword_fails_at_mark isWord_if hat.at hmark)).passes
  have hblock := nest_block (n := n) fun m => h.reads m mode c.skip ('\n' :: rest) hat.at
  rw [choice]
  exact (settles_later hcond (by simp) (settles_first hblock)).relabel c.skip.offset .elseBranch

/-- and so can another conditional. -/
theorem branch_of_conditional (h : ConditionalReadable t text) : BranchReadable t text := by
  refine ⟨fun rest => ?_, fun n mode c rest hfresh hat => ?_⟩
  · obtain ⟨text', rfl⟩ := h.opens
    rw [List.append_assoc]
    exact starts_of_isWord isWord_if _
  · have hcond : ((nest n).conditional mode c.skip).Settles (Reads t ('\n' :: rest)) := by
      cases n with
      | zero => exact Outcome.settles_tooDeep
      | succ m =>
          rw [nest, enclose_conditional]
          exact h.reads m mode c.skip rest hfresh hat.at
    rw [choice]
    exact (settles_first hcond).relabel c.skip.offset .elseBranch

/-- A conditional without a second branch, which is not there because a line ends. -/
theorem conditional_ifThen {p : Nat} (he : Readable p e text) (hb : BlockReadable b text') :
    ConditionalReadable (.node .ifStmt .null [e, b] s)
      ("if".toList ++ ' ' :: (text ++ ' ' :: text')) := by
  refine ⟨⟨_, rfl⟩, fun n mode c rest hfresh hat => ?_⟩
  have hat' : At ("if".toList ++ ' ' :: (text ++ ' ' :: (text' ++ '\n' :: rest))) c := by
    simpa using hat
  unfold ifStatement
  refine settles_bind (keyword_settles isWord_if hat' (delimited_space _)) fun t d hd => ?_
  refine settles_bind (settles_cut (condition_settles he hb hd)) fun e' d' he' => ?_
  refine settles_bind (settles_cut (hb.after_space mode he'.2)) fun b' d'' hb' => ?_
  -- nothing on the next line can continue the conditional
  have helse : (elseBranch (nest n) mode d'').Passes :=
    (bind_fails (hfresh.noElse d'' (hfresh.at_newline hb'.2))).passes
  refine settles_bind (optional_of_passes helse) fun o c' ho => ?_
  obtain ⟨rfl, rfl⟩ := ho
  exact settles_pure ⟨by simp [he'.1, hb'.1], hb'.2⟩

/-- A conditional with a second branch. -/
theorem conditional_ifElse {u : Tree} {branch : List Char} {p : Nat} (he : Readable p e text)
    (hb : BlockReadable b text') (hu : BranchReadable u branch) :
    ConditionalReadable (.node .ifStmt .null [e, b, u] s)
      ("if".toList ++ ' ' :: (text ++ ' ' :: (text' ++ ' ' :: ("else".toList
        ++ ' ' :: branch)))) := by
  refine ⟨⟨_, rfl⟩, fun n mode c rest hfresh hat => ?_⟩
  have hat' : At ("if".toList ++ ' ' :: (text ++ ' ' :: (text' ++ ' ' :: ("else".toList
      ++ ' ' :: (branch ++ '\n' :: rest))))) c := by simpa using hat
  unfold ifStatement
  refine settles_bind (keyword_settles isWord_if hat' (delimited_space _)) fun t d hd => ?_
  refine settles_bind (settles_cut (condition_settles he hb hd)) fun e' d' he' => ?_
  refine settles_bind (settles_cut (hb.after_space mode he'.2)) fun b' d'' hb' => ?_
  have hbranch : (elseBranch (nest n) mode d'').Settles (Reads u ('\n' :: rest)) := by
    have hat'' := Cursor.at_after_blank hb'.2 (by decide) (starts_of_isWord isWord_else _)
    unfold elseBranch
    refine settles_bind (keyword_settles isWord_else hat'' (delimited_space _)) fun _ c' hc' => ?_
    exact settles_cut (hu.reads n mode c' rest hfresh
      (Cursor.at_after_blank hc' (by decide) (hu.starts _)))
  refine settles_bind (settles_optional hbranch) fun o c' ho => ?_
  obtain ⟨u', rfl, hu'⟩ := ho
  exact settles_pure ⟨by simp [he'.1, hb'.1, hu'.1], hu'.2⟩

/-- A conditional stands in a line. -/
theorem line_conditional (h : ConditionalReadable t text) : LineReadable t text := by
  obtain ⟨text', htext⟩ := h.opens
  refine ⟨fun rest => ?_, fun n mode c rest hfresh hat => ?_⟩
  · rw [htext]
    exact fresh_command (by decide) (by decide) text' rest
  · have hat' : At ("if".toList ++ ' ' :: (text' ++ '\n' :: rest)) c := by simpa [htext] using hat
    have hother : ∀ word ∈ Lexeme.keywords, "if" ≠ word → (keyword word c.skip).Passes :=
      fun word hword => other_keyword_passes hat'.at (delimited_space _) (by decide) hword
    refine settles_command ?_
    refine settles_later (bind_passes (hother "let" (by decide) (by decide))) (by simp) ?_
    refine settles_later (bind_passes (hother "fun" (by decide) (by decide))) (by simp) ?_
    exact settles_first (h.reads n mode c.skip rest hfresh hat.at)

/-! ### Returns -/

theorem isWord_return : IsWord "return" := isWord_of_mem_keywords (by decide)

/-- A return is none of the statements that are tried before it. -/
theorem return_settles (hat : At ("return".toList ++ rest) c) (hrest : Delimited rest)
    (h : (firstOf [bareReturn, valueReturn inner mode, blockStatement inner mode]
      c.skip).Settles Q) : (bareStatement inner mode c).Settles Q := by
  have hother : ∀ word ∈ Lexeme.keywords, "return" ≠ word → (keyword word c.skip).Passes :=
    fun word hword => other_keyword_passes hat.at hrest (by decide) hword
  refine settles_command ?_
  refine settles_later (bind_passes (hother "let" (by decide) (by decide))) (by simp) ?_
  refine settles_later (bind_passes (hother "fun" (by decide) (by decide))) (by simp) ?_
  refine settles_later (bind_passes (hother "if" (by decide) (by decide))) (by simp) ?_
  refine settles_later (bind_passes (hother "while" (by decide) (by decide))) (by simp) ?_
  exact settles_later (bind_passes (hother "for" (by decide) (by decide))) (by simp) h

/-- A return without a value can be read back, since its line ends, -/
theorem line_bareReturn : LineReadable (.node .returnStmt .null [] s) "return".toList := by
  refine ⟨fun rest => fresh_word isWord_return (by decide) (delimited_newline rest),
    fun n mode c rest hfresh hat => ?_⟩
  refine return_settles hat (delimited_newline rest) (settles_first ?_)
  unfold bareReturn
  exact settles_bind (lexeme_settles hat.at rfl) fun t d hd => settles_pure ⟨by simp, hd.2.1⟩

/-- What opens an expression may be given back. -/
theorem not_endsStatement {x : Char} (hx : x ∉ foreign) (xs : List Char) :
    Lexeme.endsStatement (' ' :: x :: xs) = false := by
  simp only [foreign, List.mem_cons, List.not_mem_nil, or_false, not_or] at hx
  have hdrop : (' ' :: x :: xs).dropWhile (fun c => c == ' ' || c == '\t') = x :: xs := by
    simp [hx]
  unfold Lexeme.endsStatement
  rw [hdrop]
  split <;> simp_all

/-- and one with a value. -/
theorem line_valueReturn {p : Nat} (he : Readable p e text) :
    LineReadable (.node .returnStmt .null [e] s) ("return".toList ++ ' ' :: text) := by
  refine ⟨fresh_command (by decide) (by decide) _, fun n mode c rest hfresh hat => ?_⟩
  have hat' : At ("return".toList ++ ' ' :: (text ++ '\n' :: rest)) c := by simpa using hat
  have hopens := he.opens _ (delimited_newline rest)
  have hbare : Lexeme.bareReturn? ("return".toList ++ ' ' :: (text ++ '\n' :: rest)) = none := by
    obtain ⟨x, xs, hxs, hx⟩ := hopens.exists_cons
    have hword : Lexeme.word? "return" ("return".toList ++ ' ' :: x :: xs) = some 6 := rfl
    have hdrop : ("return".toList ++ ' ' :: x :: xs).drop 6 = ' ' :: x :: xs := rfl
    rw [hxs, Lexeme.bareReturn?, hword, Option.bind_some, hdrop, not_endsStatement hx xs]
    rfl
  -- a return without a value is tried first, and sees that an expression follows
  refine return_settles hat' (delimited_space _) ?_
  refine settles_later (bind_fails (lexeme_fails hat'.at.rest hbare)).passes (by simp) ?_
  refine settles_first ?_
  unfold valueReturn
  refine settles_bind (keyword_settles isWord_return hat'.at (delimited_space _)) fun t d hd => ?_
  have hd' := Cursor.at_after_blank hd (by decide) hopens.starts
  refine settles_bind (he.expression n mode hfresh.follow hd') fun e' c' he' => ?_
  exact settles_pure ⟨by simp [he'.1], he'.2⟩

/-! ### Blocks and expressions -/

/-- A block can be read back. -/
theorem line_block (hb : BlockReadable b text) :
    LineReadable (.node .blockStmt .null [b] s) text := by
  obtain ⟨xs, hxs⟩ := hb.opens
  refine ⟨fun rest => ?_, fun n mode c rest hfresh hat => ?_⟩
  · rw [hxs]
    exact fresh_brace (.inl rfl) _
  · have hmark : Unworded (text ++ '\n' :: rest) := fun x hx => by
      rw [hxs] at hx
      cases hx
      decide
    refine settles_command (settles_append (words_pass_at_mark hat.at hmark) (by simp) ?_)
    refine settles_first ?_
    unfold blockStatement
    have hblock := nest_block (n := n) fun m => hb.reads m mode c.skip _ hat.at
    exact settles_bind hblock fun b' d hb' => settles_pure ⟨by simp [hb'.1], hb'.2⟩

/-- What is fresh is no sign of an assignment. -/
theorem Fresh.unassigned (h : Fresh rest) :
    Lexeme.assignSign? (('\n' :: rest).dropWhile Cursor.isSpace) = none := by
  have hdrop : ('\n' :: rest).dropWhile Cursor.isSpace = rest := by
    rw [List.dropWhile_cons_of_pos (by decide), h.starts.dropWhile]
  rw [hdrop]
  unfold Lexeme.assignSign?
  split
  · rfl
  · exact absurd rfl (h.plain '=' rfl).2
  · rfl

/-- An expression can be read back as a statement, -/
theorem line_expression {p : Nat} (he : Readable p e text) :
    LineReadable (.node .exprStmt .null [e] s) text := by
  refine ⟨fun rest => (he.opens _ (delimited_newline rest)).fresh,
    fun n mode c rest hfresh hat => ?_⟩
  have hopens := he.opens _ (delimited_newline rest)
  have hassign := he.unassigned n mode c.skip ('\n' :: rest) (hfresh.follow.mono (by decide))
    hfresh.unassigned hat
  refine settles_expression (commands_pass_at_expression hat.at hopens) hassign ?_
  have hexpr := he.expression n mode hfresh.follow hat
  change (expressionFrom (nest n) mode (postfixed (nest n) mode c.skip) c.skip).Settles _ at hexpr
  rw [expressionStatementFrom]
  rcases hexpr with ⟨e', d, ho, he'⟩ | ho
  · rw [ho]
    exact settles_ok.mpr ⟨by simp [he'.1], he'.2⟩
  · rw [ho]
    exact Outcome.settles_tooDeep

/-! ### Assignments -/

/-- What was read is a node if it is one up to places. -/
theorem node_of_unplaced {kind : Tree.Kind} {value : Datum} {ts : List Tree}
    (h : t.unplaced = (Tree.node kind value ts s).unplaced) :
    ∃ ts' s', t = .node kind value ts' s' ∧ ts'.map Tree.unplaced = ts.map Tree.unplaced := by
  rw [Tree.unplaced_node] at h
  cases t with
  | node kind' value' ts' s' =>
      rw [Tree.unplaced_node, Tree.node.injEq] at h
      obtain ⟨rfl, rfl, hts, -⟩ := h
      exact ⟨ts', s', rfl, hts⟩
  | stray d => cases h

/-- An assignment is read after its target. -/
theorem assignFrom_settles {o : Outcome Tree} {target tree : Tree} {p : Nat}
    (ho : o.Settles (Reads target (' ' :: '=' :: ' ' :: (text ++ '\n' :: rest))))
    (he : Readable p e text) (hfresh : Fresh rest) (start : Cursor)
    (htree : ∀ t' e', t'.unplaced = target.unplaced → e'.unplaced = e.unplaced →
      ∃ tree', assignTree? start t' e' = some tree' ∧ tree'.unplaced = tree.unplaced) :
    (assignFrom (nest n) mode o start).Settles (Reads tree ('\n' :: rest)) := by
  rcases ho with ⟨t', d, rfl, ht', hd⟩ | rfl
  · rw [assignFrom]
    refine assigned_settles he hfresh hd fun e' c' he' => ?_
    obtain ⟨tree', htree', hplace⟩ := htree t' e' ht' he'.1
    rw [htree']
    exact settles_pure ⟨hplace, he'.2⟩
  · exact Outcome.settles_tooDeep

/-- an assignment to a name, -/
theorem line_assign {name : String} {p : Nat} (hn : Lexeme.IsName name) (he : Readable p e text) :
    LineReadable (.node .assign (.str name) [e] s)
      (name.toList ++ ' ' :: '=' :: ' ' :: text) := by
  -- the place of the target is lost, so any will do
  have hname : Readable 7 (.node .identifier (.str name) [] none) name.toList :=
    readable_identifier hn
  have hopens : ∀ rest, Opens (name.toList ++ ' ' :: '=' :: ' ' :: text ++ '\n' :: rest) := by
    intro rest
    rw [List.append_assoc]
    exact hname.opens _ (delimited_space _)
  refine ⟨fun rest => (hopens rest).fresh, fun n mode c rest hfresh hat => ?_⟩
  refine settles_assignment (commands_pass_at_expression hat.at (hopens rest)) ?_
  have hat' : At (name.toList ++ ' ' :: '=' :: ' ' :: (text ++ '\n' :: rest)) c := by
    simpa using hat
  have htarget := (hname.suffixed (Nat.le_refl 7)).settles n mode
    (follow_assignment (text ++ '\n' :: rest)) hat'.at
  refine assignFrom_settles htarget he hfresh c.skip fun t' e' ht' he' => ?_
  obtain ⟨ts, s', rfl, -⟩ := node_of_unplaced ht'
  exact ⟨_, rfl, by simp [he']⟩

/-- and one to an element. -/
theorem line_indexAssign {target i : Tree} {p q : Nat} {left inside : List Char}
    (ht : Readable 7 target left) (hi : Readable q i inside) (he : Readable p e text) :
    LineReadable (.node .indexAssign .null [target, i, e] s)
      (left ++ '[' :: (inside ++ ']' :: ' ' :: '=' :: ' ' :: text)) := by
  have hindex : Readable 7 (.node .index .null [target, i] none)
      (left ++ '[' :: (inside ++ [']'])) := readable_index ht hi
  have hsplit : ∀ rest, left ++ '[' :: (inside ++ ']' :: ' ' :: '=' :: ' ' :: text) ++ '\n' :: rest
      = (left ++ '[' :: (inside ++ [']'])) ++ ' ' :: '=' :: ' ' :: (text ++ '\n' :: rest) := by
    intro rest
    simp
  have hopens : ∀ rest, Opens (left ++ '[' :: (inside ++ ']' :: ' ' :: '=' :: ' ' :: text)
      ++ '\n' :: rest) := by
    intro rest
    rw [hsplit]
    exact hindex.opens _ (delimited_space _)
  refine ⟨fun rest => (hopens rest).fresh, fun n mode c rest hfresh hat => ?_⟩
  refine settles_assignment (commands_pass_at_expression hat.at (hopens rest)) ?_
  rw [hsplit] at hat
  have htarget := (hindex.suffixed (Nat.le_refl 7)).settles n mode
    (follow_assignment (text ++ '\n' :: rest)) hat.at
  refine assignFrom_settles htarget he hfresh c.skip fun t' e' ht' he' => ?_
  obtain ⟨ts, s', rfl, hts⟩ := node_of_unplaced ht'
  exact ⟨_, rfl, by simp [hts, he']⟩

/-! ### Line by line -/

/-- A statement ends with its line, without a semicolon. -/
theorem statement_settles (h : LineReadable t text) (n : Nat) (mode : Mode) (hfresh : Fresh rest)
    (hat : At (text ++ '\n' :: rest) c) :
    (statement (nest n) mode c).Settles (Reads t ('\n' :: rest)) := by
  unfold statement
  refine settles_bind (h.reads n mode c rest hfresh hat) fun t' d ht' => ?_
  have hsemicolon : (symbol ";" d).Fails :=
    symbol_fails (x := ';') rfl (hfresh.at_newline ht'.2) fun hx => (hfresh.plain _ hx).1 rfl
  refine settles_bind (optional_of_passes hsemicolon.passes) fun o d' hd' => ?_
  obtain ⟨-, rfl⟩ := hd'
  exact settles_pure ht'

theorem statement_passes (hat : At cs c) (hcs : Ends cs) :
    (statement (nest n) mode c).Passes := by
  have hall : ∀ x ∈ '\x7d' :: closers, Text.isNameStart x = false ∧ x ≠ '\x7b' :=
    forall_of_all (by decide)
  have hmark : Unworded cs := fun x hx => (hall x (hcs x hx)).1
  have hbrace : cs.head? ≠ some '\x7b' := fun heq => (hall _ (hcs _ heq)).2 rfl
  have hcommands : (firstOf (commandStatements (nest n) mode) c.skip).Passes := by
    refine firstOf_passes fun p hp => ?_
    rcases List.mem_append.mp hp with hp | hp
    · exact words_pass_at_mark hat.at hmark p hp
    · rw [List.mem_singleton.mp hp]
      exact bind_passes (nest_block_passes hat.at hbrace)
  have hplain : (postfixed (nest n) mode c.skip).Passes :=
    bind_passes (primary_passes hat.at fun x hx =>
      List.mem_cons_of_mem _ (List.mem_cons_of_mem _ (hcs x hx)))
  have hexpr : (expression (nest n) mode c).Passes := expression_passes hat hcs
  change (expressionFrom (nest n) mode (postfixed (nest n) mode c.skip) c.skip).Passes at hexpr
  refine bind_passes (bareStatement_passes hcommands (assignFrom_passes_of_passes hplain _) ?_)
  rw [expressionStatementFrom]
  rcases hexpr with ⟨f, ho⟩ | ho
  · rw [ho]
    exact (Outcome.fails_fail f).passes
  · rw [ho]
    exact Outcome.passes_tooDeep

/-- Where lines start afresh. -/
theorem fresh_lines {ts : List Tree} (h : ∀ t ∈ ts, LineReadable t t.write) (hrest : Fresh rest) :
    Fresh (Tree.inLines (ts.map Tree.write) ++ rest) := by
  cases ts with
  | nil => exact hrest
  | cons t ts =>
      rw [List.map_cons, Tree.inLines, List.flatMap_cons, List.append_assoc, List.append_assoc]
      exact (h t List.mem_cons_self).fresh _

/-- Statements are read as long as there are lines. -/
theorem settles_lines {ts before acc : List Tree} (h : ∀ t ∈ ts, LineReadable t t.write)
    (hrest : Fresh rest) (hends : Ends rest)
    (hacc : List.Forall₂ (fun t t' => t'.unplaced = t.unplaced) before acc.reverse)
    (hat : At (Tree.inLines (ts.map Tree.write) ++ rest) c) {rounds : List Char}
    (hrounds : ts.length ≤ rounds.length) :
    (iterate (fun ss => do
      let s ← statement (nest n) mode
      pure (s :: ss)) rounds acc c).Settles fun ss c' =>
        List.Forall₂ (fun t t' => t'.unplaced = t.unplaced) (before ++ ts) ss.reverse ∧
          At rest c' := by
  induction ts generalizing before acc c rounds with
  | nil =>
      rw [List.append_nil]
      exact iterate_stops ⟨hacc, hat⟩ (bind_passes (statement_passes hat hends)) rounds
  | cons t ts ih =>
      cases rounds with
      | nil => simp at hrounds
      | cons x rounds =>
          -- the line ends where the next one, or the end of the block, starts afresh
          obtain ⟨ht, hts⟩ := List.forall_mem_cons.mp h
          have hfresh := fresh_lines hts hrest
          have hline : At (t.write ++ '\n' :: (Tree.inLines (ts.map Tree.write) ++ rest)) c := by
            simpa [Tree.inLines] using hat
          refine iterate_step (S := fun ss d => (∃ t', t'.unplaced = t.unplaced ∧
            ss = t' :: acc) ∧ At (Tree.inLines (ts.map Tree.write) ++ rest) d) ?_ ?_
          · refine settles_bind (statement_settles ht n mode hfresh hline) fun t' d ht' => ?_
            exact settles_pure ⟨⟨t', ht'.1, rfl⟩, hfresh.at_newline ht'.2⟩
          · rintro ss d ⟨⟨t', ht', rfl⟩, hd⟩
            have hacc' : List.Forall₂ (fun t t' => t'.unplaced = t.unplaced) (before ++ [t])
                (t' :: acc).reverse := by
              rw [List.reverse_cons]
              exact List.rel_append hacc (.cons ht' .nil)
            have hlength : ts.length ≤ rounds.length := by simpa using hrounds
            simpa using ih hts hacc' hd hlength

/-- **A text is read line by line.** -/
theorem statements_settle {ts : List Tree} (h : ∀ t ∈ ts, LineReadable t t.write)
    (hrest : Fresh rest) (hends : Ends rest)
    (hat : At (Tree.inLines (ts.map Tree.write) ++ rest) c) :
    (statements (nest n) mode c).Settles fun ts' c' =>
      List.Forall₂ (fun t t' => t'.unplaced = t.unplaced) ts ts' ∧ At rest c' := by
  have hrounds : ts.length ≤ c.rest.length := by
    have hlength := length_le_flatMap (f := (· ++ ['\n'])) (by simp) (ts.map Tree.write)
    have hskip := Cursor.skip_rest_length c
    rw [hat.rest, Tree.inLines, List.length_append] at hskip
    rw [List.length_map] at hlength
    omega
  have hnone : List.Forall₂ (fun t t' : Tree => t'.unplaced = t.unplaced) [] [].reverse := .nil
  unfold statements
  refine settles_bind (settles_lines h hrest hends hnone hat hrounds) fun ss d hd => ?_
  exact settles_pure hd

/-- **A block is read line by line.** -/
theorem block_readable {ts : List Tree} (h : ∀ t ∈ ts, LineReadable t t.write) :
    BlockReadable (.node .block .null ts s)
      ('\x7b' :: '\n' :: (Tree.inLines (ts.map Tree.write) ++ ['\x7d'])) := by
  refine ⟨⟨_, rfl⟩, fun n mode c rest hat => ?_⟩
  rw [List.cons_append, List.cons_append, List.append_assoc] at hat
  have hfresh : Fresh ('\x7d' :: rest) := fresh_brace (.inr rfl) rest
  have hends : Ends ('\x7d' :: rest) := fun x hx => by
    cases hx
    decide
  unfold block
  refine settles_bind (symbol_settles hat rfl) fun t d hd => ?_
  have hd' := (fresh_lines h hfresh).at_newline hd.1
  refine settles_bind (statements_settle h hfresh hends hd') fun ss e he => ?_
  refine settles_bind (settles_cut (symbol_settles he.2 rfl)) fun _ e' he' => ?_
  exact settles_pure ⟨by simp [map_eq_of_forall₂ he.1], he'.1⟩

end Ember.Grammar
