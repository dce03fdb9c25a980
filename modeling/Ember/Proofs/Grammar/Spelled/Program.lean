import Ember.Proofs.Grammar.Spelled

/-!
# Grammar — trees show the lexemes that they are read from

For each parser there is a lemma that says which lexemes are shown by what it gives. Most parsers
give a tree and add the lexemes of that tree. A call or an index goes on after the lexemes of what
is called or indexed, and an assignment drops the lexeme that its target consists of.

* `NestAdds`: the parsers of a depth add the lexemes of their trees.
* `adds_nest`: those of every depth do.
* `spelled_program`: the lexemes of a program stand in its text one after the other.
-/

namespace Ember.Grammar

open Ember.Tree (Label lexemes lexemesAll lexemesAll_eq_flatMap lexemesAll_sublist
  lexemes_of_not_isLexeme)
open Lexeme (StandsFor)

variable {α : Type} {inner : Nest} {b : Cursor} {ls xs : List Label}

/-- The parsers add the lexemes of their trees when they read. -/
structure NestAdds (inner : Nest) : Prop where
  expression : (inner.expression .read).Adds lexemes
  unary : (inner.unary .read).Adds lexemes
  block : (inner.block .read).Adds lexemes
  conditional : (inner.conditional .read).Adds lexemes

/-- The lexemes of a node that shows none of its own. -/
theorem lexemes_nodeAt {start : Cursor} {kind : Tree.Kind} {value : Datum} {ts : List Tree}
    (h : kind.isLexeme = false) : lexemes (nodeAt start kind value ts) = lexemesAll ts :=
  lexemes_of_not_isLexeme h

/-- A node around what has been read. -/
theorem spells_nodeAt {start : Cursor} {kind : Tree.Kind} {value : Datum} {ts : List Tree}
    (h : kind.isLexeme = false) :
    (pure (nodeAt start kind value ts) : Parser Tree).Spells (lexemesAll ts) lexemes :=
  spells_pure (by rw [lexemes_nodeAt h])

/-- A node of a kind that shows nothing shows what its part shows. -/
theorem lexemes_around {start : Cursor} {kind : Tree.Kind} {value : Datum} {t : Tree}
    (h : kind.isLexeme = false) : lexemes (nodeAt start kind value [t]) = lexemes t := by
  rw [lexemes_nodeAt h, Tree.lexemesAll_cons, Tree.lexemesAll_nil, List.append_nil]

/-- A node around a tree that has been read. -/
theorem spells_around {start : Cursor} {kind : Tree.Kind} {value : Datum} {t : Tree}
    (h : kind.isLexeme = false) :
    (pure (nodeAt start kind value [t]) : Parser Tree).Spells ([] ++ lexemes t) lexemes :=
  spells_pure (by rw [lexemes_around h, List.nil_append])

/-- A node around two trees that have been read. -/
theorem spells_beside {start : Cursor} {kind : Tree.Kind} {value : Datum} {t u : Tree}
    (h : kind.isLexeme = false) :
    (pure (nodeAt start kind value [t, u]) : Parser Tree).Spells ([] ++ lexemes t ++ lexemes u)
      lexemes :=
  spells_pure (by rw [lexemes_nodeAt h, Tree.lexemesAll_cons, Tree.lexemesAll_cons,
    Tree.lexemesAll_nil, List.append_nil, List.nil_append])

/-! ### Lists -/

/-- The items of a list show their lexemes in turn; commas show none. -/
theorem adds_commaList {item : Parser α} {f : α → List Label} (h : item.Adds f) :
    (commaList item).Adds fun items => items.flatMap f := by
  refine h.optional.bind fun first => ?_
  cases first with
  | none => exact spells_pure (List.Sublist.refl _)
  | some a =>
      have hstep : ∀ items : List α, Parser.Spells
          (do let _ ← symbol ","; let next ← item; pure (next :: items))
          (items.reverse.flatMap f) fun items => items.reverse.flatMap f := by
        intro items
        refine (finds_symbol ",").idle.andThen fun _ => h.bind fun next => spells_pure ?_
        rw [List.reverse_cons, List.flatMap_append, List.flatMap_singleton]
      have hitems := spells_repeatedly hstep [a]
      rw [List.reverse_singleton, List.flatMap_singleton] at hitems
      rw [Option.toList_some, List.flatMap_singleton, List.nil_append]
      exact hitems.bind fun items => spells_pure (List.Sublist.refl _)

/-- Items that show nothing make a list that shows nothing. -/
theorem idle_commaList {item : Parser α} (h : item.Idle) : (commaList item).Idle :=
  (adds_commaList h).mono fun _ => by simp

/-- Arguments and elements show their lexemes in turn. -/
theorem adds_expressions (h : NestAdds inner) :
    (commaList (inner.expression .read)).Adds lexemesAll :=
  (adds_commaList h.expression).mono fun _ => by rw [lexemesAll_eq_flatMap]

/-! ### Expressions -/

/-- A number is shown, and stands for its value. -/
theorem adds_number : (number .read).Adds lexemes := by
  refine (finds_lexeme Lexeme.number?_le).bind .number
    (fun w => if Lexeme.isFloat w then .float (Decimal.readFloat w)
      else .int (Text.digitsValue w)) (fun w hw => ?_) fun t ht => ?_
  · obtain ⟨rest, hw⟩ := hw
    split
    · exact .float hw ‹_›
    · rename_i hint
      exact .integer hw (Bool.eq_false_iff.mpr hint)
  · refine spells_ite (fun hfloat => ?_) fun hint =>
      spells_ite (fun _ => fun _ _ _ _ => Outcome.spells_stop _) fun _ => ?_
    · rw [if_pos hfloat]
      exact spells_leaf rfl
    · rw [if_neg hint]
      exact spells_leaf rfl

/-- So is a string literal. -/
theorem adds_string : string.Adds lexemes := by
  refine (finds_lexeme Lexeme.string?_le).bind .string
    (fun w => .str (String.ofList (Text.unescape (stringInside w)))) (fun w hw => ?_)
    fun t ht => spells_leaf rfl
  obtain ⟨rest, hw⟩ := hw
  exact Lexeme.standsFor_string hw

theorem adds_constant {word : String} {kind : Tree.Kind} {value : Datum}
    (h : StandsFor kind word.toList value) : (constant word kind value).Adds lexemes := by
  exact (finds_keyword word).bind kind (fun _ => value) (fun w hw => hw ▸ h)
    fun t ht => spells_leaf h.isLexeme

/-- So is a name in an expression. -/
theorem adds_identifier : (identifier .read).Adds lexemes := by
  refine finds_name.bind .identifier (fun w => .str (String.ofList w)) (fun w hw => ?_)
    fun t ht => spells_leaf rfl
  have hname := StandsFor.identifier hw
  rwa [String.toList_ofList] at hname

/-- Parameters are not shown. -/
theorem idle_parameters : (parameters .read).Idle := by
  refine (finds_symbol "(").idle.andThen fun _ => ?_
  refine (idle_commaList finds_name.idle).andThen fun _ => ?_
  exact (finds_symbol ")").idle.andThen fun _ => spells_pure (List.Sublist.refl _)

/-- A function shows what its body shows. -/
theorem adds_functionExpr (h : NestAdds inner) : (functionExpr inner .read).Adds lexemes := by
  refine (finds_keyword "fun").idle.andThen fun t => idle_parameters.andThen fun params => ?_
  exact h.block.bind fun body => spells_around rfl

/-- An array shows what its elements show. -/
theorem adds_array (h : NestAdds inner) : (array inner .read).Adds lexemes := by
  refine (finds_symbol "[").idle.andThen fun t => (adds_expressions h).bind fun items => ?_
  have hclose : Parser.Spells
      (do let _ ← symbol "]"; pure (nodeAt t.start .array .null items)) (lexemesAll items)
      lexemes := (finds_symbol "]").idle.andThen fun _ => spells_nodeAt rfl
  refine spells_ite (fun _ => ?_) fun _ => hclose
  exact (finds_symbol ",").idle.optional.andThen fun _ => hclose

/-- The primary expressions, one by one. -/
theorem adds_primary (h : NestAdds inner) : (primary inner .read).Adds lexemes := by
  refine adds_choice _ fun p hp => ?_
  simp only [List.mem_cons, List.not_mem_nil, or_false] at hp
  rcases hp with rfl | rfl | rfl | rfl | rfl | rfl | rfl | rfl | rfl
  · exact adds_number
  · exact adds_string
  · exact adds_constant .trueWord
  · exact adds_constant .falseWord
  · exact adds_constant .nilWord
  · exact adds_functionExpr h
  · exact adds_array h
  · refine (finds_symbol "(").idle.andThen fun _ => h.expression.bind fun e => ?_
    exact (finds_symbol ")").idle.andThen fun _ => spells_pure (List.Sublist.refl _)
  · exact adds_identifier

/-- A call goes on after the lexemes of what is called. -/
theorem spells_callSuffix (h : NestAdds inner) (callee : Tree) :
    (callSuffix inner .read callee).Spells (lexemes callee) lexemes := by
  refine (finds_symbolInLine "(").bind .call (fun _ => .null)
    (fun w hw => hw ▸ .call) fun t ht => (adds_expressions h).bind fun args => ?_
  refine (finds_symbol ")").idle.andThen fun _ => spells_pure ?_
  have hopen : t.string = "(" := by rw [Token.string, ht, String.ofList_toList]
  rw [← hopen]
  exact List.Sublist.refl _

/-- An index shows its bracket after what is indexed. -/
theorem spells_indexSuffix (h : NestAdds inner) (target : Tree) :
    (indexSuffix inner .read target).Spells (lexemes target) lexemes := by
  refine (finds_symbolInLine "[").bind .index (fun _ => .null)
    (fun w hw => hw ▸ .index) fun t ht => h.expression.bind fun i => ?_
  refine (finds_symbol "]").idle.andThen fun _ => spells_pure ?_
  have hopen : t.string = "[" := by rw [Token.string, ht, String.ofList_toList]
  rw [← hopen, ← List.append_nil (lexemes i)]
  exact List.Sublist.refl _

/-- Calls and indexes go on after what they are applied to. -/
theorem adds_postfixed (h : NestAdds inner) : (postfixed inner .read).Adds lexemes := by
  refine (adds_primary h).bind fun t => spells_repeatedly (fun t => ?_) t
  refine spells_firstOf fun p hp => ?_
  simp only [List.mem_cons, List.not_mem_nil, or_false] at hp
  rcases hp with rfl | rfl
  · exact spells_callSuffix h t
  · exact spells_indexSuffix h t

/-- A prefix operator is shown before its operand. -/
theorem lexemes_unaryTree (op : Token) (t : Tree) :
    lexemes (unaryTree op t) = [op.label .unary (.str (String.ofList op.text))] ++ lexemes t := by
  rw [← List.append_nil (lexemes t)]
  rfl

/-- A prefix operator and its operand, which is read where it has been probed. -/
theorem adds_prefixed (h : NestAdds inner) : (prefixed inner .read).Adds lexemes := by
  refine (finds_prefixOperator prefixOperators).bind .unary
    (fun w => .str (String.ofList w)) (fun w hw => ?_) fun op _ => ?_
  · obtain ⟨s, hs, rfl⟩ := hw
    rw [String.ofList_toList]
    exact .unary hs
  · intro b ls c hc t c' ht
    dsimp only at ht
    split at ht
    · rename_i e d he
      cases ht
      split at he
      · have hends : Spelled b (ls ++ lexemes (unaryTree op e)) c' := by
          rw [lexemes_unaryTree]
          exact h.unary.after _ b ls c hc e c' he
        exact hends
      · rename_i hne
        exact (hne _ _ rfl he).elim
    · rename_i hne
      exact (hne _ _ ht).elim

/-- With a prefix operator or without one. -/
theorem spells_unaryFrom (h : NestAdds inner) {plain : Outcome Tree} {c : Cursor}
    (hc : Spelled b ls c) (hplain : plain.Spells b fun t => ls ++ lexemes t) :
    (unaryFrom inner .read plain c).Spells b fun t => ls ++ lexemes t :=
  (((adds_prefixed h).spells hc).or hplain).relabel _ _

theorem adds_unary (h : NestAdds inner) : (unary inner .read).Adds lexemes := by
  intro b ls c hc
  rw [List.append_nil] at hc
  exact spells_unaryFrom h hc.skip ((adds_postfixed h).spells hc.skip)

/-- A binary operator is not shown, since its place is that of its chain. -/
theorem lexemes_binaryTree (start : Cursor) (op : Token) (l r : Tree) :
    lexemes (binaryTree start op l r) = lexemes l ++ lexemes r := by
  rw [binaryTree, lexemes_of_not_isLexeme, Tree.lexemesAll_cons, Tree.lexemesAll_cons,
    Tree.lexemesAll_nil, List.append_nil]
  split <;> rfl

/-- A chain goes on after the lexemes of its left operand. -/
theorem spells_link {ops : List String} {operand : Parser Tree} (h : operand.Adds lexemes)
    (start : Cursor) (l : Tree) : (link ops operand start l).Spells (lexemes l) lexemes := by
  refine (finds_operator ops).idle.andThen fun op => h.bind fun r => spells_pure ?_
  rw [lexemes_binaryTree]

/-- A chain of operators, level by level; what is only probed is not passed. -/
theorem spells_readFrom (h : NestAdds inner) {levels : List (List String)}
    {probed leaf : Outcome Tree} (hleaf : leaf.Spells b fun t => ls ++ lexemes t)
    (start : Cursor) :
    (readFrom inner levels probed leaf start).Spells b fun t => ls ++ lexemes t := by
  induction levels generalizing b ls probed leaf start with
  | nil => exact hleaf
  | cons ops tighter ih =>
      rw [readFrom]
      split
      · exact Outcome.spells_stop _
      · exact ((Outcome.spells_fail _).or (ih hleaf start)).relabel _ _
      · split
        · rename_i t c ht
          refine spells_repeatedly (spells_link ?_ start) t b ls c (ih hleaf start t c ht)
          intro b ls c hc
          rw [List.append_nil] at hc
          exact ih ((adds_unary h).spells hc.skip) c.skip
        · exact (ih hleaf start).relabel _ _

/-- An expression of which the first part has been read. -/
theorem spells_expressionFrom (h : NestAdds inner) {plain : Outcome Tree} {c : Cursor}
    (hc : Spelled b ls c) (hplain : plain.Spells b fun t => ls ++ lexemes t) :
    (expressionFrom inner .read plain c).Spells b fun t => ls ++ lexemes t :=
  spells_readFrom h (spells_unaryFrom h hc hplain) c

theorem adds_expression (h : NestAdds inner) : (expression inner .read).Adds lexemes := by
  intro b ls c hc
  rw [List.append_nil] at hc
  have hplain := (adds_postfixed h).spells hc.skip
  have hexpression : (expressionFrom inner .read (postfixed inner .read c.skip) c.skip).Spells b
      fun t => ls ++ lexemes t := spells_expressionFrom h hc.skip hplain
  exact hexpression

/-! ### Statements -/

/-- The mark of a mutable binding is not shown. -/
theorem idle_mutMark : (lexeme Lexeme.mutMark? (.construct "mark")).Idle :=
  (finds_lexeme Lexeme.word?_le).idle

/-- The sign of an assignment is no longer than the text, -/
theorem assignSign?_le {cs : List Char} {n : Nat} (h : Lexeme.assignSign? cs = some n) :
    n ≤ cs.length := by
  obtain ⟨rest, rfl, rfl⟩ := Lexeme.exists_of_assignSign? h
  exact Nat.succ_le_succ (Nat.zero_le _)

/-- Nor is the sign of an assignment. -/
theorem idle_assignSign : (lexeme Lexeme.assignSign? .assignSign).Idle :=
  (finds_lexeme assignSign?_le).idle

/-- nor is a return without a value. -/
theorem bareReturn?_le {cs : List Char} {n : Nat} (h : Lexeme.bareReturn? cs = some n) :
    n ≤ cs.length := by
  obtain ⟨k, hk, hn⟩ := Option.bind_eq_some_iff.mp h
  split at hn
  · cases hn
    exact Lexeme.word?_le hk
  · cases hn

/-- A binding shows what its expression shows. -/
theorem adds_letStatement (h : NestAdds inner) : (letStatement inner .read).Adds lexemes := by
  refine (finds_keyword "let").idle.andThen fun t => Parser.Spells.cut ?_
  refine idle_mutMark.optional.andThen fun mark => finds_name.idle.andThen fun n => ?_
  exact idle_assignSign.andThen fun _ => (adds_expression h).bind fun init => spells_around rfl

/-- A function with a name shows what its body shows. -/
theorem adds_functionDef (h : NestAdds inner) : (functionDef inner .read).Adds lexemes := by
  refine (finds_keyword "fun").idle.andThen fun t => finds_name.idle.andThen fun n => ?_
  refine idle_parameters.andThen fun params => ?_
  exact Parser.Adds.bind (Parser.Spells.cut h.block) fun body => spells_around rfl

/-- What follows `else` is a conditional or a block. -/
theorem adds_elseBranch (h : NestAdds inner) : (elseBranch inner .read).Adds lexemes := by
  refine (finds_keyword "else").idle.andThen fun _ =>
    Parser.Spells.cut (adds_choice _ fun p hp => ?_)
  simp only [List.mem_cons, List.not_mem_nil, or_false] at hp
  rcases hp with rfl | rfl
  · exact h.conditional
  · exact h.block

/-- A conditional shows its condition and its branches in turn. -/
theorem adds_ifStatement (h : NestAdds inner) : (ifStatement inner .read).Adds lexemes := by
  refine (finds_keyword "if").idle.andThen fun t => ?_
  refine Parser.Adds.bind (Parser.Spells.cut (adds_expression h)) fun condition => ?_
  refine Parser.Adds.bind (Parser.Spells.cut h.block) fun yes => ?_
  refine (adds_elseBranch h).optional.bind fun no => spells_pure ?_
  rw [lexemes_nodeAt rfl, Tree.lexemesAll_append, Tree.lexemesAll_cons, Tree.lexemesAll_cons,
    Tree.lexemesAll_nil, List.append_nil, List.nil_append, lexemesAll_eq_flatMap]

/-- A loop shows its condition and its body in turn. -/
theorem adds_whileStatement (h : NestAdds inner) :
    (whileStatement inner .read).Adds lexemes := by
  refine (finds_keyword "while").idle.andThen fun t => ?_
  refine Parser.Adds.bind (Parser.Spells.cut (adds_expression h)) fun condition => ?_
  exact Parser.Adds.bind (Parser.Spells.cut h.block) fun body => spells_beside rfl

/-- A loop over an array shows the array and its body in turn. -/
theorem adds_forStatement (h : NestAdds inner) : (forStatement inner .read).Adds lexemes := by
  refine (finds_keyword "for").idle.andThen fun t => Parser.Spells.cut ?_
  refine finds_name.idle.andThen fun n => (finds_keyword "in").idle.andThen fun _ => ?_
  exact (adds_expression h).bind fun iterable => h.block.bind fun body => spells_beside rfl

/-- A return without a value shows nothing. -/
theorem adds_bareReturn : bareReturn.Adds lexemes := by
  refine (finds_lexeme bareReturn?_le).idle.andThen fun t => spells_pure ?_
  rw [lexemes_nodeAt rfl, Tree.lexemesAll_nil]

theorem adds_valueReturn (h : NestAdds inner) : (valueReturn inner .read).Adds lexemes := by
  refine (finds_keyword "return").idle.andThen fun t => ?_
  exact (adds_expression h).bind fun e => spells_around rfl

/-- A block as a statement shows what the block shows. -/
theorem adds_blockStatement (h : NestAdds inner) :
    (blockStatement inner .read).Adds lexemes := by
  refine h.block.bind fun b => spells_pure ?_
  rw [lexemes_of_not_isLexeme rfl, Tree.lexemesAll_cons, Tree.lexemesAll_nil, List.append_nil,
    List.nil_append]

/-- An assignment drops the lexeme that its target consists of, or the bracket of an element. -/
theorem lexemes_assignTree? {start : Cursor} {target value tree : Tree}
    (h : assignTree? start target value = some tree) :
    (lexemes tree).Sublist (lexemes target ++ lexemes value) := by
  unfold assignTree? at h
  split at h
  · cases h
    rw [lexemes_around rfl]
    exact List.sublist_append_right _ _
  · cases h
    rw [lexemes_nodeAt rfl, Tree.lexemesAll_append, Tree.lexemesAll_cons, Tree.lexemesAll_nil,
      List.append_nil]
    exact lexemesAll_sublist.append (List.Sublist.refl _)
  · cases h

/-- An assignment takes over what its target shows, or drops it. -/
theorem spells_assignFrom (h : NestAdds inner) {target : Outcome Tree}
    (htarget : target.Spells b fun t => ls ++ lexemes t) (start : Cursor) :
    (assignFrom inner .read target start).Spells b fun t => ls ++ lexemes t := by
  cases target with
  | fail => exact Outcome.spells_fail _
  | stop => exact Outcome.spells_stop _
  | ok t c =>
      refine idle_assignSign.andThen (q := fun _ => Parser.bind _ _)
        (fun _ => (adds_expression h).bind fun value => ?_) b ls c (htarget t c rfl)
      cases hassign : assignTree? start t value with
      | none => exact fun _ _ _ _ => Outcome.spells_fail _
      | some tree => exact spells_pure (lexemes_assignTree? hassign)

/-- An expression as a statement shows what the expression shows. -/
theorem spells_expressionStatementFrom (h : NestAdds inner) {plain : Outcome Tree} {c : Cursor}
    (hc : Spelled b ls c) (hplain : plain.Spells b fun t => ls ++ lexemes t) :
    (expressionStatementFrom inner .read plain c).Spells b fun t => ls ++ lexemes t := by
  intro t c' ht
  unfold expressionStatementFrom at ht
  split at ht
  · rename_i e d he
    cases ht
    have hends : Spelled b (ls ++ lexemes (nodeAt c .exprStmt .null [e])) c' := by
      rw [lexemes_around rfl]
      exact spells_expressionFrom h hc hplain e c' he
    exact hends
  · rename_i hne
    exact (hne _ _ ht).elim

/-- The statements, one by one; an expression is tried last. -/
theorem adds_bareStatement (h : NestAdds inner) : (bareStatement inner .read).Adds lexemes := by
  intro b ls c hc t c' ht
  rw [List.append_nil] at hc
  have hplain := (adds_postfixed h).spells hc.skip
  unfold bareStatement at ht
  dsimp only at ht
  split at ht
  · split at ht
    · have hexpression := spells_expressionStatementFrom h hc.skip hplain
      exact ((Outcome.spells_fail _).or hexpression) t c' ht
    · exact spells_assignFrom h hplain _ t c' ht
  · obtain ⟨p, hp, ht⟩ := firstOf_eq_ok ht
    have hadds : p.Adds lexemes := by
      simp only [List.mem_cons, List.not_mem_nil, or_false] at hp
      rcases hp with rfl | rfl | rfl | rfl | rfl | rfl | rfl | rfl
      · exact adds_letStatement h
      · exact adds_functionDef h
      · exact adds_ifStatement h
      · exact adds_whileStatement h
      · exact adds_forStatement h
      · exact adds_bareReturn
      · exact adds_valueReturn h
      · exact adds_blockStatement h
    exact hadds.spells hc.skip t c' ht

theorem adds_statement (h : NestAdds inner) : (statement inner .read).Adds lexemes := by
  refine (adds_bareStatement h).bind fun s => ?_
  exact (finds_symbol ";").idle.optional.andThen fun _ => spells_pure (List.Sublist.refl _)

/-- Statements show their lexemes in turn. -/
theorem adds_statements (h : NestAdds inner) : (statements inner .read).Adds lexemesAll := by
  have hstep : ∀ ss : List Tree, Parser.Spells
      (do let s ← statement inner .read; pure (s :: ss))
      (lexemesAll ss.reverse) fun ss => lexemesAll ss.reverse := by
    intro ss
    refine (adds_statement h).bind fun s => spells_pure ?_
    rw [List.reverse_cons, Tree.lexemesAll_append, Tree.lexemesAll_cons, Tree.lexemesAll_nil,
      List.append_nil]
  refine Parser.Spells.bind (spells_repeatedly hstep []) fun ss => ?_
  exact spells_pure (List.Sublist.refl _)

/-- A block shows what its statements show. -/
theorem adds_block (h : NestAdds inner) : (block inner .read).Adds lexemes := by
  refine (finds_symbol "\x7b").idle.andThen fun t => (adds_statements h).bind fun ss => ?_
  refine Parser.Idle.andThen (Parser.Spells.cut (finds_symbol "\x7d").idle) fun _ => ?_
  exact spells_nodeAt rfl

/-- One depth further out. -/
theorem adds_enclose (h : NestAdds inner) : NestAdds (enclose inner) := by
  refine ⟨?_, ?_, ?_, ?_⟩
  · rw [enclose_expression]
    exact adds_expression h
  · rw [enclose_unary]
    exact adds_unary h
  · rw [enclose_block]
    exact adds_block h
  · rw [enclose_conditional]
    exact adds_ifStatement h

/-- The parsers of every depth add the lexemes of their trees. -/
theorem adds_nest (n : Nat) : NestAdds (nest n) := by
  induction n with
  | zero =>
      exact ⟨fun _ _ _ _ => Outcome.spells_stop _, fun _ _ _ _ => Outcome.spells_stop _,
        fun _ _ _ _ => Outcome.spells_stop _, fun _ _ _ _ => Outcome.spells_stop _⟩
  | succ n ih => exact adds_enclose ih

/-- The lexemes that a program shows stand one after the other in its text. -/
theorem spelled_program {c c' : Cursor} {ts : List Tree} (h : program c = .ok ts c') :
    ∃ d, Spelled c (lexemesAll ts) d := by
  obtain ⟨ss, d, hs, h⟩ := bind_eq_ok.mp h
  obtain ⟨_, _, -, h⟩ := bind_eq_ok.mp h
  cases h
  exact ⟨d, (adds_statements (adds_nest maxDepth)).spells .start ts d hs⟩

end Ember.Grammar
