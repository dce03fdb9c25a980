import Mathlib.Data.List.TakeWhile
import Ember.Grammar.Statement
import Ember.Parse
import Ember.Proofs.Tree.Shaped

/-!
# Grammar — what is read is well-shaped

Whatever the text is, the parser gives only well-shaped trees when it reads. Each parser has a
lemma that says what it can give; none of them looks at where the text goes on.

* `Parser.Yields`: everything that a parser can give satisfies a predicate.
* `yields_nest`: the parsers of every depth give well-shaped trees.
* `parseProgram_shaped`: so does reading a whole program.
-/

namespace Ember

namespace Grammar

variable {α β : Type}

/-- What the parser gives satisfies `P`. -/
def Parser.Yields (p : Parser α) (P : α → Prop) : Prop := ∀ c a c', p c = .ok a c' → P a

/-- If the outcome is a success, it satisfies `P`. -/
def Outcome.Gives (o : Outcome α) (P : α → Prop) : Prop := ∀ a c, o = .ok a c → P a

namespace Outcome

variable {o o' : Outcome α} {P : α → Prop}

/-- It does not matter to a success whether failures are final. -/
theorem Gives.cut (h : o.Gives P) : o.cut.Gives P := by
  rintro a c ha
  cases o with
  | ok b d => exact h a c ha
  | fail | stop => cases ha

/-- Nor do the names of failures. -/
theorem Gives.relabel (h : o.Gives P) (start : Nat) (label : Cause) :
    (o.relabel start label).Gives P := by
  rintro a c ha
  cases o with
  | ok b d => exact h a c ha
  | fail | stop => cases ha

/-- Of two outcomes one is the success. -/
theorem Gives.or (h : o.Gives P) (h' : o'.Gives P) : (o.or o').Gives P := by
  rintro a c ha
  cases o with
  | ok b d => exact h a c ha
  | fail f =>
      cases o' with
      | ok b d => exact h' a c ha
      | fail | stop => cases ha
  | stop => cases ha

theorem gives_fail (f : Failure) : (fail f : Outcome α).Gives P := fun _ _ h => by cases h

theorem gives_stop (s : Stop) : (stop s : Outcome α).Gives P := fun _ _ h => by cases h

end Outcome

/-! ### Combinators -/

variable {P : α → Prop} {Q : β → Prop} {p : Parser α}

theorem Parser.Yields.gives (h : p.Yields P) (c : Cursor) : (p c).Gives P := fun a c' => h c a c'

/-- Less may be said of what is given. -/
theorem Parser.Yields.mono {P' : α → Prop} (h : p.Yields P) (hP : ∀ a, P a → P' a) :
    p.Yields P' := fun c a c' ha => hP a (h c a c' ha)

/-- What is given without reading. -/
theorem yields_pure {a : α} (ha : P a) : (pure a : Parser α).Yields P := by
  rintro c b c' hb
  cases hb
  exact ha

/-- The second parser knows what the first one gave. -/
theorem Parser.Yields.bind {f : α → Parser β} (h : p.Yields P) (hf : ∀ a, P a → (f a).Yields Q) :
    (p >>= f).Yields Q := by
  intro c b c' hb
  change Parser.bind p f c = .ok b c' at hb
  unfold Parser.bind at hb
  split at hb
  · rename_i a d ha
    exact hf a (h c a d ha) d b c' hb
  · cases hb
  · cases hb

/-- Each choice may rely on why it was made. -/
theorem yields_ite {c : Prop} [Decidable c] {q : Parser α} (hp : c → p.Yields P)
    (hq : ¬ c → q.Yields P) : (if c then p else q).Yields P := by
  by_cases h : c
  · rw [if_pos h]
    exact hp h
  · rw [if_neg h]
    exact hq h

/-- What comes first does not matter. -/
theorem yields_after {f : α → Parser β} (hf : ∀ a, (f a).Yields Q) : (p >>= f).Yields Q :=
  Parser.Yields.bind (P := fun _ => True) (fun _ _ _ _ => trivial) fun a _ => hf a

theorem Parser.Yields.cut (h : p.Yields P) : p.cut.Yields P := fun c => (h.gives c).cut

/-- What may be left out is as it should be if it is there. -/
theorem Parser.Yields.optional (h : p.Yields P) : p.optional.Yields fun o => ∀ a ∈ o, P a := by
  rintro c o c' ho a rfl
  unfold Parser.optional at ho
  split at ho
  · cases ho
    exact h c a _ (by assumption)
  · cases ho
  · cases ho

/-- All alternatives give what they should. -/
theorem yields_firstOf {ps : List (Parser α)} (h : ∀ p ∈ ps, p.Yields P) :
    (firstOf ps).Yields P := by
  induction ps with
  | nil => exact fun _ => Outcome.gives_fail _
  | cons p ps ih =>
      have hp := h p List.mem_cons_self
      cases ps with
      | nil => exact hp
      | cons q qs =>
          have hrest := ih fun r hr => h r (List.mem_cons_of_mem _ hr)
          intro c a c' ha
          rw [firstOf] at ha
          · split at ha
            · exact ((Outcome.gives_fail _).or (hrest.gives c)) a c' ha
            · exact hp c a c' ha
          · intro hnil
            cases hnil

/-- Alternatives under a name, which start with skipping. -/
theorem yields_choice {ps : List (Parser α)} (label : Cause) (h : ∀ p ∈ ps, p.Yields P) :
    (choice label ps).Yields P :=
  fun c => ((yields_firstOf h).gives c.skip).relabel c.skip.offset label

/-- What a step keeps is kept, however often the step is made. -/
theorem yields_iterate {step : α → Parser α} (hstep : ∀ a, P a → (step a).Yields P)
    (rounds : List Char) {a : α} (ha : P a) : (iterate step rounds a).Yields P := by
  induction rounds generalizing a with
  | nil => exact yields_pure ha
  | cons x rounds ih =>
      intro c b c' hb
      rw [iterate] at hb
      dsimp only at hb
      split at hb
      · exact ih (hstep a ha c _ _ (by assumption)) _ _ _ hb
      · cases hb
        exact ha
      · cases hb

/-- What a step keeps, its repetition keeps. -/
theorem yields_repeatedly {step : α → Parser α} (hstep : ∀ a, P a → (step a).Yields P) {a : α}
    (ha : P a) : (repeatedly step a).Yields P :=
  fun c => yields_iterate hstep c.rest ha c

/-- All items of a list are as they should be. -/
theorem yields_commaList {item : Parser α} (h : item.Yields P) :
    (commaList item).Yields fun items => ∀ a ∈ items, P a := by
  refine h.optional.bind fun first hfirst => ?_
  cases first with
  | none => exact yields_pure fun a ha => absurd ha List.not_mem_nil
  | some x =>
      have hone : ∀ a ∈ [x], P a := fun a ha => hfirst a (by rw [List.mem_singleton.mp ha]; rfl)
      refine (yields_repeatedly (P := fun items => ∀ a ∈ items, P a) (fun items hitems => ?_)
        hone).bind fun items hitems => ?_
      · refine yields_after fun _ => h.bind fun next hnext => yields_pure ?_
        exact List.forall_mem_cons.mpr ⟨hnext, hitems⟩
      · exact yields_pure fun a ha => hitems a (List.mem_reverse.mp ha)

/-! ### Tokens -/

/-- What a lexeme of a class consists of. -/
theorem yields_lexeme {size? : List Char → Option Nat} {cause : Cause} {P : Token → Prop}
    (h : ∀ c n, size? c.rest = some n → P ⟨c, c.rest.take n⟩) : (lexeme size? cause).Yields P := by
  intro c t c' ht
  simp only [lexeme] at ht
  split at ht
  · cases ht
    exact h _ _ (by assumption)
  · cases ht

/-- The text of a token that is spelled out. -/
theorem take_of_isPrefixOf {text : String} {cs : List Char} (h : text.toList.isPrefixOf cs) :
    String.ofList (cs.take text.length) = text := by
  obtain ⟨rest, rfl⟩ := List.isPrefixOf_iff_prefix.mp h
  rw [← String.length_toList, List.take_left, String.ofList_toList]

/-- An operator is one of those that were asked for. -/
theorem operatorAt?_spec {ops : List String} {cs : List Char} {op : String}
    (h : operatorAt? ops cs = some op) : op ∈ ops ∧ op.toList.isPrefixOf cs := by
  unfold operatorAt? at h
  exact ⟨List.mem_of_find?_eq_some h, by simpa using List.find?_some h⟩

/-- The text of an operator is one of those that were asked for, -/
theorem gives_operator (ops : List String) (c : Cursor) :
    (match operatorAt? ops c.rest with
      | some op => Token.take c op.length
      | none => .fail ⟨c.offset, .operator ops⟩).Gives fun t => t.string ∈ ops := by
  intro t c' ht
  cases hop : operatorAt? ops c.rest with
  | none =>
      rw [hop] at ht
      cases ht
  | some op =>
      rw [hop] at ht
      cases ht
      obtain ⟨hmem, hprefix⟩ := operatorAt?_spec hop
      rw [Token.string, take_of_isPrefixOf hprefix]
      exact hmem

/-- be it a binary operator -/
theorem yields_operator (ops : List String) : (operator ops).Yields fun t => t.string ∈ ops :=
  fun c => gives_operator ops c.skipInLine

/-- or a prefix operator. -/
theorem yields_prefixOperator (ops : List String) :
    (prefixOperator ops).Yields fun t => t.string ∈ ops :=
  fun c => gives_operator ops c.skip

/-- The characters of the lexeme of a name. -/
theorem take_name? {cs : List Char} {n : Nat} (h : Lexeme.name? cs = some n) :
    ∃ x xs, cs.take n = x :: xs ∧ Text.isNameStart x ∧ ∀ y ∈ xs, Text.isNameChar y := by
  cases cs with
  | nil => cases h
  | cons x rest =>
      rw [Lexeme.name?] at h
      split at h
      · cases h
        refine ⟨x, rest.takeWhile Text.isNameChar, ?_, by assumption,
          fun y hy => List.mem_takeWhile_imp hy⟩
        have htake := List.prefix_iff_eq_take.mp (List.takeWhile_prefix Text.isNameChar (l := rest))
        rw [Nat.add_comm, List.take_succ_cons, ← htake]
      · cases h

/-- A name that is read is a word, and no keyword. -/
theorem yields_name : (name .read).Yields fun t => Lexeme.IsName t.string := by
  refine Parser.Yields.bind (yields_lexeme (P := fun t => ∃ x xs, t.text = x :: xs ∧
    Text.isNameStart x ∧ ∀ y ∈ xs, Text.isNameChar y) fun c n hn => take_name? hn) fun t ht => ?_
  refine yields_ite (fun _ _ => Outcome.gives_fail _) fun hkey => ?_
  obtain ⟨x, xs, hxs, hx, hrest⟩ := ht
  have hword : Lexeme.IsWord t.string :=
    ⟨x, xs, by rw [Token.string, String.toList_ofList, hxs], hx, hrest⟩
  exact yields_pure ⟨hword, fun hmem => hkey ⟨rfl, hmem⟩⟩

/-! ### Expressions -/

/-- What a number that is read denotes. -/
def IsNumber (d : Datum) : Prop := (∃ i, d = .int i) ∨ ∃ x, d = .float x

/-- The trees of a role. -/
abbrev Read (role : Tree.Role) : Tree → Prop := Tree.Shaped IsNumber role

/-- The parsers give trees of their roles when they read. -/
structure NestYields (inner : Nest) : Prop where
  expression : (inner.expression .read).Yields (Read .expression)
  unary : (inner.unary .read).Yields (Read .expression)
  block : (inner.block .read).Yields (Read .block)
  conditional : (inner.conditional .read).Yields (Read .branch)

/-- A number has the value of an integer or of a floating-point number. -/
theorem yields_number : (number .read).Yields (Read .expression) := by
  refine yields_after fun t => yields_ite (fun _ => ?_) fun _ =>
    yields_ite (fun _ _ => Outcome.gives_stop _) fun _ => ?_
  · exact yields_pure (.number (.inr ⟨_, rfl⟩))
  · exact yields_pure (.number (.inl ⟨_, rfl⟩))

/-- Parameters are names. -/
theorem yields_parameters : (parameters .read).Yields fun ps => ∀ p ∈ ps, Lexeme.IsName p := by
  refine yields_after fun _ => (yields_commaList yields_name).bind fun ts hts => ?_
  refine yields_after fun _ => yields_pure fun p hp => ?_
  obtain ⟨t, ht, rfl⟩ := List.mem_map.mp hp
  exact hts t ht

variable {inner : Nest}

/-- The elements of an array are expressions. -/
theorem yields_array (h : NestYields inner) : (array inner .read).Yields (Read .expression) := by
  refine yields_after fun _ => (yields_commaList h.expression).bind fun items hitems => ?_
  refine yields_ite (fun _ => ?_) fun _ => ?_
  · exact yields_after fun _ => yields_after fun _ => yields_pure (.array hitems)
  · exact yields_after fun _ => yields_pure (.array hitems)

/-- The primary expressions, one by one. -/
theorem yields_primary (h : NestYields inner) :
    (primary inner .read).Yields (Read .expression) := by
  refine yields_choice _ fun p hp => ?_
  simp only [List.mem_cons, List.not_mem_nil, or_false] at hp
  rcases hp with rfl | rfl | rfl | rfl | rfl | rfl | rfl | rfl | rfl
  · exact yields_number
  · exact yields_after fun _ => yields_pure .string
  · exact yields_after fun _ => yields_pure .bool
  · exact yields_after fun _ => yields_pure .bool
  · exact yields_after fun _ => yields_pure .nil
  · refine yields_after fun _ => yields_parameters.bind fun ps hps => ?_
    exact h.block.bind fun b hb => yields_pure (.functionExpr hps hb)
  · exact yields_array h
  · exact yields_after fun _ => h.expression.bind fun e he => yields_after fun _ => yields_pure he
  · exact yields_name.bind fun t ht => yields_pure (.identifier ht)

/-- What is called or indexed is an expression, and so are arguments and indexes. -/
theorem yields_postfixed (h : NestYields inner) :
    (postfixed inner .read).Yields (Read .expression) := by
  refine (yields_primary h).bind fun t ht => yields_repeatedly (fun t ht => ?_) ht
  refine yields_firstOf fun p hp => ?_
  simp only [List.mem_cons, List.not_mem_nil, or_false] at hp
  rcases hp with rfl | rfl
  · refine yields_after fun _ => (yields_commaList h.expression).bind fun args hargs => ?_
    exact yields_after fun _ => yields_pure (.call ht hargs)
  · refine yields_after fun _ => h.expression.bind fun i hi => ?_
    exact yields_after fun _ => yields_pure (.index ht hi)

/-- The operator is a prefix operator, the operand is read where it has been probed. -/
theorem yields_prefixed (h : NestYields inner) :
    (prefixed inner .read).Yields (Read .expression) := by
  refine (yields_prefixOperator prefixOperators).bind fun op hop => ?_
  intro c t c' ht
  dsimp only at ht
  split at ht
  · rename_i e d he
    cases ht
    refine .unary hop ?_
    split at he
    · exact h.unary c e _ he
    · rename_i hne
      exact (hne _ _ rfl he).elim
  · rename_i hne
    exact (hne _ _ ht).elim

/-- With a prefix operator or without one. -/
theorem gives_unaryFrom (h : NestYields inner) {plain : Outcome Tree}
    (hplain : plain.Gives (Read .expression)) (c : Cursor) :
    (unaryFrom inner .read plain c).Gives (Read .expression) :=
  (((yields_prefixed h).gives c).or hplain).relabel _ _

theorem yields_unary (h : NestYields inner) : (unary inner .read).Yields (Read .expression) :=
  fun c => gives_unaryFrom h ((yields_postfixed h).gives c.skip) c.skip

/-- The operators of the levels are of two sorts. -/
theorem mem_levels {ops : List String} (hops : ops ∈ levels) {op : String} (hop : op ∈ ops) :
    (op ∈ Tree.lazyOperators ∧ (op = "&&" ∨ op = "||")) ∨
      (op ∈ Tree.strictOperators ∧ ¬ (op = "&&" ∨ op = "||")) := by
  simp only [levels, List.mem_cons, List.not_mem_nil, or_false] at hops
  rcases hops with rfl | rfl | rfl | rfl | rfl | rfl <;>
    simp only [List.mem_cons, List.not_mem_nil, or_false] at hop <;>
    rcases hop with rfl | rfl | rfl | rfl <;> decide

/-- The operator tells whether the node is a logical one. -/
theorem binaryTree_read {ops : List String} (hops : ops ∈ levels) {start : Cursor} {op : Token}
    {l r : Tree} (hop : op.string ∈ ops) (hl : Read .expression l) (hr : Read .expression r) :
    Read .expression (binaryTree start op l r) := by
  unfold binaryTree
  rcases mem_levels hops hop with ⟨hmem, hif⟩ | ⟨hmem, hif⟩
  · rw [if_pos hif]
    exact .logical hmem hl hr
  · rw [if_neg hif]
    exact .binary hmem hl hr

/-- A chain of operators, level by level. -/
theorem gives_readFrom (h : NestYields inner) {ls : List (List String)} (hls : ls ⊆ levels)
    {probed leaf : Outcome Tree} (hleaf : leaf.Gives (Read .expression)) (start : Cursor) :
    (readFrom inner ls probed leaf start).Gives (Read .expression) := by
  induction ls generalizing probed leaf start with
  | nil => exact hleaf
  | cons ops tighter ih =>
      have hops : ops ∈ levels := hls List.mem_cons_self
      have htighter : tighter ⊆ levels := fun x hx => hls (List.mem_cons_of_mem _ hx)
      rw [readFrom]
      split
      · exact Outcome.gives_stop _
      · exact ((Outcome.gives_fail _).or (ih htighter hleaf start)).relabel _ _
      · split
        · rename_i t c ht
          refine (yields_repeatedly (fun l hl => ?_) (ih htighter hleaf start t c ht)).gives c
          refine (yields_operator ops).bind fun op hop => ?_
          refine Parser.Yields.bind (P := Read .expression) (fun c => ?_)
            fun r hr => yields_pure (binaryTree_read hops hop hl hr)
          exact ih htighter ((yields_unary h).gives c.skip) c.skip
        · exact (ih htighter hleaf start).relabel _ _

/-- An expression of which the first part has been read. -/
theorem gives_expressionFrom (h : NestYields inner) {plain : Outcome Tree}
    (hplain : plain.Gives (Read .expression)) (c : Cursor) :
    (expressionFrom inner .read plain c).Gives (Read .expression) :=
  gives_readFrom h (fun _ => id) (gives_unaryFrom h hplain c) c

theorem yields_expression (h : NestYields inner) :
    (expression inner .read).Yields (Read .expression) :=
  fun c => gives_expressionFrom h ((yields_postfixed h).gives c.skip) c.skip

/-! ### Statements -/

/-- A binding has a name and an expression. -/
theorem yields_letStatement (h : NestYields inner) :
    (letStatement inner .read).Yields (Read .statement) := by
  refine yields_after fun _ => Parser.Yields.cut ?_
  refine yields_after fun _ => yields_name.bind fun n hn => ?_
  refine yields_after fun _ => (yields_expression h).bind fun e he => ?_
  exact yields_pure (.letStmt hn he)

/-- A function with a name has parameters and a block. -/
theorem yields_functionDef (h : NestYields inner) :
    (functionDef inner .read).Yields (Read .statement) := by
  refine yields_after fun _ => yields_name.bind fun n hn => ?_
  refine yields_parameters.bind fun ps hps => h.block.cut.bind fun b hb => ?_
  exact yields_pure (.functionDef hn hps hb)

/-- What follows `else` is a conditional or a block. -/
theorem yields_elseBranch (h : NestYields inner) :
    (elseBranch inner .read).Yields (Read .branch) := by
  refine yields_after fun _ => Parser.Yields.cut (yields_choice _ fun p hp => ?_)
  simp only [List.mem_cons, List.not_mem_nil, or_false] at hp
  rcases hp with rfl | rfl
  · exact h.conditional
  · exact h.block.mono fun b hb => .elseBlock hb

/-- A conditional is one as a statement and after `else`. -/
theorem yields_ifStatement (h : NestYields inner) :
    (ifStatement inner .read).Yields fun t => Read .statement t ∧ Read .branch t := by
  refine yields_after fun _ => (yields_expression h).cut.bind fun c hc => ?_
  refine h.block.cut.bind fun y hy => (yields_elseBranch h).optional.bind fun n hn => ?_
  refine yields_pure ?_
  cases n with
  | none => exact ⟨.ifThen hc hy, .elseIf (.ifThen hc hy)⟩
  | some n => exact ⟨.ifElse hc hy (hn n rfl), .elseIf (.ifElse hc hy (hn n rfl))⟩

/-- A loop has a condition and a block. -/
theorem yields_whileStatement (h : NestYields inner) :
    (whileStatement inner .read).Yields (Read .statement) := by
  refine yields_after fun _ => (yields_expression h).cut.bind fun c hc => ?_
  exact h.block.cut.bind fun b hb => yields_pure (.whileStmt hc hb)

/-- A loop over an array has a name, an expression and a block. -/
theorem yields_forStatement (h : NestYields inner) :
    (forStatement inner .read).Yields (Read .statement) := by
  refine yields_after fun _ => Parser.Yields.cut (yields_name.bind fun n hn => ?_)
  refine yields_after fun _ => (yields_expression h).bind fun e he => ?_
  exact h.block.bind fun b hb => yields_pure (.forStmt hn he hb)

/-- An assignment to a name or to an element. -/
theorem assignTree?_read {start : Cursor} {t v tree : Tree} (ht : Read .expression t)
    (hv : Read .expression v) (h : assignTree? start t v = some tree) : Read .statement tree := by
  unfold assignTree? at h
  split at h
  · cases h
    cases ht with
    | identifier hn => exact .assign hn hv
  · cases h
    cases ht with
    | index ht hi => exact .indexAssign ht hi hv
  · cases h

/-- An assignment, of which the target has been read. -/
theorem gives_assignFrom (h : NestYields inner) {target : Outcome Tree}
    (htarget : target.Gives (Read .expression)) (start : Cursor) :
    (assignFrom inner .read target start).Gives (Read .statement) := by
  cases target with
  | fail => exact Outcome.gives_fail _
  | stop => exact Outcome.gives_stop _
  | ok t c =>
      intro tree c' htree
      refine yields_after (p := lexeme Lexeme.assignSign? .assignSign) (fun _ =>
        (yields_expression h).bind fun v hv => ?_) c tree c' htree
      cases hassign : assignTree? start t v with
      | none => exact fun _ => Outcome.gives_fail _
      | some tree => exact yields_pure (assignTree?_read (htarget t c rfl) hv hassign)

theorem gives_expressionStatementFrom (h : NestYields inner) {plain : Outcome Tree}
    (hplain : plain.Gives (Read .expression)) (start : Cursor) :
    (expressionStatementFrom inner .read plain start).Gives (Read .statement) := by
  have he := gives_expressionFrom h hplain start
  intro t c ht
  unfold expressionStatementFrom at ht
  split at ht
  · cases ht
    exact .exprStmt (he _ _ (by assumption))
  · rename_i hne
    exact (hne _ _ ht).elim

/-- The statements, one by one; an expression is tried last. -/
theorem yields_bareStatement (h : NestYields inner) :
    (bareStatement inner .read).Yields (Read .statement) := by
  intro c t c' ht
  have hplain := (yields_postfixed h).gives c.skip
  unfold bareStatement at ht
  dsimp only at ht
  split at ht
  · split at ht
    · exact ((Outcome.gives_fail _).or (gives_expressionStatementFrom h hplain _)) t c' ht
    · exact gives_assignFrom h hplain _ t c' ht
  · refine yields_firstOf (fun p hp => ?_) c.skip t c' ht
    simp only [List.mem_cons, List.not_mem_nil, or_false] at hp
    rcases hp with rfl | rfl | rfl | rfl | rfl | rfl | rfl | rfl
    · exact yields_letStatement h
    · exact yields_functionDef h
    · exact (yields_ifStatement h).mono fun t ht => ht.1
    · exact yields_whileStatement h
    · exact yields_forStatement h
    · exact yields_after fun _ => yields_pure .bareReturn
    · refine yields_after fun _ => (yields_expression h).bind fun e he => ?_
      exact yields_pure (.valueReturn he)
    · exact h.block.bind fun b hb => yields_pure (.blockStmt hb)

theorem yields_statement (h : NestYields inner) :
    (statement inner .read).Yields (Read .statement) :=
  (yields_bareStatement h).bind fun _ ht => yields_after fun _ => yields_pure ht

/-- Statements, each with a semicolon or without one. -/
theorem yields_statements (h : NestYields inner) :
    (statements inner .read).Yields fun ts => ∀ t ∈ ts, Read .statement t := by
  refine (yields_repeatedly (P := fun ts => ∀ t ∈ ts, Read .statement t) (fun ts hts => ?_)
    (fun _ ht => absurd ht List.not_mem_nil)).bind fun ts hts => ?_
  · refine (yields_statement h).bind fun t ht => yields_pure ?_
    exact List.forall_mem_cons.mpr ⟨ht, hts⟩
  · exact yields_pure fun t ht => hts t (List.mem_reverse.mp ht)

/-- A block has statements in it. -/
theorem yields_block (h : NestYields inner) : (block inner .read).Yields (Read .block) := by
  refine yields_after fun _ => (yields_statements h).bind fun ts hts => ?_
  exact yields_after fun _ => yields_pure (.block hts)

/-- One depth further out. -/
theorem yields_enclose (h : NestYields inner) : NestYields (enclose inner) := by
  refine ⟨?_, ?_, ?_, ?_⟩
  · rw [enclose_expression]
    exact yields_expression h
  · rw [enclose_unary]
    exact yields_unary h
  · rw [enclose_block]
    exact yields_block h
  · rw [enclose_conditional]
    exact (yields_ifStatement h).mono fun _ ht => ht.2

/-- The parsers of every depth give well-shaped trees. -/
theorem yields_nest (n : Nat) : NestYields (nest n) := by
  induction n with
  | zero =>
      exact ⟨fun _ => Outcome.gives_stop _, fun _ => Outcome.gives_stop _,
        fun _ => Outcome.gives_stop _, fun _ => Outcome.gives_stop _⟩
  | succ n ih => exact yields_enclose ih

end Grammar

/-- **What is read is well-shaped.** -/
theorem parseProgram_shaped {filename source : String} {ts : List Tree}
    (h : parseProgram filename source = .ok ts) :
    ∀ t ∈ ts, Tree.Shaped Grammar.IsNumber .statement t := by
  unfold parseProgram parseWith at h
  dsimp only at h
  split at h
  · cases h
    rename_i ts c hts
    have hyields : Grammar.program.Yields fun ts => ∀ t ∈ ts, Grammar.Read .statement t :=
      (Grammar.yields_statements (Grammar.yields_nest Grammar.maxDepth)).bind fun ts hts =>
        Grammar.yields_after fun _ => Grammar.yields_pure hts
    exact hyields _ _ _ hts
  all_goals cases h

/-- What can be found out about a result shows that there is one. -/
theorem exists_ok_of_any {ε α : Type} {x : Except ε α} {p : α → Bool} (h : x.toOption.any p) :
    ∃ a, x = .ok a ∧ p a := by
  cases x with
  | error _ => cases h
  | ok a => exact ⟨a, rfl, h⟩

end Ember
