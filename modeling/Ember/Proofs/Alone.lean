import Ember.Proofs.Grammar.Crossing
import Ember.Proofs.Grammar.Joined
import Ember.Proofs.Grammar.Yields

/-!
# Alone — an expression on its own is a program

A text can be read as an expression or as a program. A program tries every other sort of statement
before it takes an expression for one, and some of them do not give back what they have begun with.
But the first token of an expression starts none of them, and no sign of an assignment comes after
the first operand of an expression that takes up the whole text.

* `readFrom_eq_ok`: after the first operand, the text is over or goes on with an operator.
* `unclaimed_of_operand`: where an operand starts, no other statement does.
* `statement_of_expression`: an expression that ends the text is read as a statement.
* `parseProgram_of_expression`: both ways of reading a text agree.
-/

namespace Ember.Grammar

open Cursor (isSpace)
open Lexeme

variable {inner : Nest} {mode : Mode} {c c' d : Cursor} {e t u : Tree} {tok : Token} {n : Nat}
  {w : String} {cs xs : List Char} {x : Char}

/-! ### The first operand -/

/-- A link of a chain of operators was read only where an operator of that level stands. -/
theorem link_eq_ok {ops : List String} {operand : Parser Tree} {start : Cursor}
    (h : link ops operand start t c = .ok u c') : (operatorAt? ops c.skipInLine.rest).isSome := by
  obtain ⟨op, d, hop, -⟩ := bind_eq_ok.mp h
  obtain ⟨s, hs, -⟩ := operator_eq_ok.mp hop
  exact Option.isSome_of_mem hs

/-- An expression starts with its first operand. Either that is all of it, or an operator comes
next. -/
theorem readFrom_eq_ok {ls : List (List String)} {probed leaf : Outcome Tree}
    (h : readFrom inner ls probed leaf c = .ok e c') :
    ∃ t d, leaf = .ok t d ∧
      ((e = t ∧ c' = d) ∨ ∃ ops ∈ ls, (operatorAt? ops d.skipInLine.rest).isSome) := by
  induction ls generalizing e c' with
  | nil => exact ⟨e, c', h, .inl ⟨rfl, rfl⟩⟩
  | cons ops ls ih =>
      have hlater : ∀ {e c'}, readFrom inner ls probed leaf c = .ok e c' →
          ∃ t d, leaf = .ok t d ∧ ((e = t ∧ c' = d) ∨
            ∃ ops' ∈ ops :: ls, (operatorAt? ops' d.skipInLine.rest).isSome) := by
        intro e c' h
        obtain ⟨t, d, hleaf, hend⟩ := ih h
        refine ⟨t, d, hleaf, hend.imp_right ?_⟩
        rintro ⟨ops', hmem, hop⟩
        exact ⟨ops', List.mem_cons_of_mem ops hmem, hop⟩
      rw [readFrom] at h
      split at h
      · cases h
      · rw [Outcome.relabel_eq_ok, Outcome.or_eq_ok] at h
        rcases h with h | ⟨-, h⟩
        · cases h
        · exact hlater h
      · split at h
        · rename_i left d hleft
          rcases repeatedly_eq_ok h with ⟨rfl, rfl⟩ | ⟨_, _, hlink⟩
          · exact hlater hleft
          · obtain ⟨t, d', hleaf, ⟨-, rfl⟩ | hop⟩ := hlater hleft
            · exact ⟨t, d, hleaf, .inr ⟨ops, List.mem_cons_self, link_eq_ok hlink⟩⟩
            · exact ⟨t, d', hleaf, .inr hop⟩
        · exact hlater (Outcome.relabel_eq_ok.mp h)

/-! ### What an operand starts with -/

/-- A mark is next wherever it comes after blank space and comments. -/
theorem at_of_skip_rest (h : c.skip.rest = cs)
    (hcs : ∀ x ∈ cs.head?, Text.isKeywordChar x = false) : Cursor.At cs c :=
  ⟨h, skip_skip c, fun x hx hword => by rw [hcs x hx] at hword; cases hword⟩

/-- A cursor with nothing but blanks before it is at the end of the text. -/
theorem at_end_of_skip_rest (h : c.skip.rest = []) : Cursor.At [] c :=
  at_of_skip_rest h fun x hx => by cases hx

/-- A keyword was read only where that word stands. -/
theorem wordAt_of_keyword (hw : IsWord w) (h : keyword w c = .ok tok c') :
    WordAt w c.skip.rest := by
  obtain ⟨hspelled, hends, -⟩ := keyword_eq_ok h
  obtain ⟨ds, hds⟩ := List.isPrefixOf_iff_prefix.mp hspelled
  rw [← hds, ← String.length_toList, List.drop_left] at hends
  rw [← hds]
  exact wordAt_append hw (endsName_of_startsWord hends)

/-- A name was read only where that word stands. -/
theorem wordAt_of_name (h : name mode c = .ok tok c') : WordAt tok.string c.skip.rest := by
  obtain ⟨n, hn, htake, -⟩ := name_eq_ok h
  obtain ⟨rfl, -⟩ := take_eq_ok.mp htake
  have hlength : (c.skip.rest.take n).length = n := by
    rw [List.length_take, Nat.min_eq_left (name?_le hn)]
  refine ⟨?_, ?_⟩
  · rw [hn, Token.string, ← String.length_toList, String.toList_ofList, hlength]
  · rw [Token.string, String.toList_ofList]
    exact List.take_prefix n _

/-- A symbol of one character was read only where that character stands. -/
theorem head_of_symbol {text : String} (htext : text.toList = [x])
    (h : symbol text c = .ok tok c') : ∃ xs, c.skip.rest = x :: xs := by
  have hspelled := (symbol_eq_ok.mp h).1
  rwa [htext, isPrefixOf_singleton] at hspelled

theorem brace_of_wordAt (h : WordAt w cs) : cs.head? ≠ some '\x7b' := by
  obtain ⟨x, xs, rfl, hx, -⟩ := exists_of_name? h.size
  rintro ⟨⟩
  exact absurd hx (by decide)

/-- No statement but an expression begins with a word that is not one of the statement keywords. -/
theorem unclaimed_of_word (h : WordAt w c.skip.rest) (hw : w ∉ "fun" :: commands) :
    Unclaimed mode c := by
  refine ⟨fun v hv hvw => ?_, fun tok d hfun => ?_, brace_of_wordAt h⟩
  · exact hw (List.mem_cons_of_mem _ (hvw.unique h ▸ hv))
  · have hword : WordAt "fun" c.skip.rest :=
      wordAt_of_keyword (isWord_of_mem_keywords (by decide)) hfun
    exact absurd (hword.unique h ▸ List.mem_cons_self) hw

/-- A mark other than a brace starts no other statement. -/
theorem unclaimed_of_head (hrest : c.skip.rest = x :: xs)
    (hx : Text.isNameStart x = false ∧ x ≠ '\x7b') : Unclaimed mode c := by
  refine unclaimed_of_mark fun y hy => ?_
  rw [hrest] at hy
  cases hy
  exact hx

/-- No statement but an expression begins with a symbol other than an opening brace. -/
theorem unclaimed_of_symbol {text : String} (htext : text.toList = [x])
    (hx : Text.isNameStart x = false ∧ x ≠ '\x7b') (h : symbol text c = .ok tok c') :
    Unclaimed mode c := by
  obtain ⟨xs, hrest⟩ := head_of_symbol htext h
  exact unclaimed_of_head hrest hx

/-- No statement but an expression begins with a number. -/
theorem unclaimed_of_number (h : number mode c = .ok t c') : Unclaimed mode c := by
  obtain ⟨tok, d, htok, -⟩ := bind_eq_ok.mp h
  obtain ⟨n, hn, -⟩ := lexeme_eq_ok.mp htok
  refine unclaimed_of_mark fun x hx => ?_
  obtain ⟨xs, hrest⟩ := List.head?_eq_some_iff.mp hx
  rw [hrest] at hn
  have hdigit : Text.isDigit x := by
    by_contra hfalse
    rw [number?_eq_none (by simpa using hfalse)] at hn
    cases hn
  constructor
  · by_contra hstart
    rw [not_isDigit_of_isNameStart (by simpa using hstart)] at hdigit
    cases hdigit
  · rintro rfl
    exact absurd hdigit (by decide)

/-- No statement but an expression begins with a string literal. -/
theorem unclaimed_of_string (h : string c = .ok t c') : Unclaimed mode c := by
  obtain ⟨tok, d, htok, -⟩ := bind_eq_ok.mp h
  obtain ⟨n, hn, -⟩ := lexeme_eq_ok.mp htok
  obtain ⟨xs, m, hrest, -, -⟩ := exists_of_string? hn
  exact unclaimed_of_head hrest (by decide)

theorem unclaimed_of_constant {kind : Tree.Kind} {value : Datum} (hw : w ∈ keywords)
    (hfree : w ∉ "fun" :: commands) (h : constant w kind value c = .ok t c') :
    Unclaimed mode c := by
  obtain ⟨tok, d, htok, -⟩ := bind_eq_ok.mp h
  exact unclaimed_of_word (wordAt_of_keyword (isWord_of_mem_keywords hw) htok) hfree

/-- No statement but an expression begins with a name that is read: the names of variables are no
keywords. -/
theorem unclaimed_of_identifier (h : identifier .read c = .ok t c') : Unclaimed mode c := by
  have hall : ∀ w ∈ "fun" :: commands, w ∈ keywords := by decide
  obtain ⟨tok, d, htok, -⟩ := bind_eq_ok.mp h
  obtain ⟨-, -, -, hfree⟩ := name_eq_ok htok
  exact unclaimed_of_word (wordAt_of_name htok) fun hmem => hfree ⟨rfl, hall _ hmem⟩

/-- A function without a name is not taken for one that has a name. -/
theorem unclaimed_of_functionExpr (h : functionExpr inner mode c = .ok t c') :
    Unclaimed mode c := by
  obtain ⟨tok, d, hfun, h⟩ := bind_eq_ok.mp h
  obtain ⟨params, d', hparams, -⟩ := bind_eq_ok.mp h
  obtain ⟨par, d'', hopen, -⟩ := bind_eq_ok.mp hparams
  obtain ⟨xs, hrest⟩ := head_of_symbol (x := '(') rfl hopen
  have hword : WordAt "fun" c.skip.rest :=
    wordAt_of_keyword (isWord_of_mem_keywords (by decide)) hfun
  refine ⟨fun w hw hat => ?_, fun tok' e hfun' => ?_, brace_of_wordAt hword⟩
  · exact absurd (hat.unique hword ▸ hw) (by decide)
  · cases hfun.symm.trans hfun'
    have hall : ∀ x ∈ ('(' :: xs).head?, Text.isKeywordChar x = false ∧
        Text.isNameStart x = false := by
      rintro x ⟨⟩
      decide
    exact name_fails mode (at_of_skip_rest hrest fun x hx => (hall x hx).1) fun x hx =>
      (hall x hx).2

theorem Unclaimed.of_skip (h : Unclaimed mode c.skip) : Unclaimed mode c := by
  obtain ⟨hword, hfunction, hbrace⟩ := h
  rw [skip_skip] at hword hbrace
  refine ⟨hword, fun tok d hfun => hfunction tok d ?_, hbrace⟩
  rw [← hfun]
  simp only [keyword, skip_skip]

/-- The first token of a primary expression starts no other statement. -/
theorem unclaimed_of_primary (h : primary inner .read c = .ok t c') : Unclaimed .read c := by
  obtain ⟨p, hp, h⟩ := choice_eq_ok h
  refine Unclaimed.of_skip ?_
  simp only [List.mem_cons, List.not_mem_nil, or_false] at hp
  rcases hp with rfl | rfl | rfl | rfl | rfl | rfl | rfl | rfl | rfl
  · exact unclaimed_of_number h
  · exact unclaimed_of_string h
  · exact unclaimed_of_constant (by decide) (by decide) h
  · exact unclaimed_of_constant (by decide) (by decide) h
  · exact unclaimed_of_constant (by decide) (by decide) h
  · exact unclaimed_of_functionExpr h
  · obtain ⟨tok, d, hopen, -⟩ := bind_eq_ok.mp h
    exact unclaimed_of_symbol (x := '[') rfl (by decide) hopen
  · obtain ⟨tok, d, hopen, -⟩ := bind_eq_ok.mp h
    exact unclaimed_of_symbol (x := '(') rfl (by decide) hopen
  · exact unclaimed_of_identifier h

/-- A prefix operator was read only where a minus sign or an exclamation mark stands. -/
theorem head_of_prefixOperator (h : prefixOperator prefixOperators c = .ok tok c') :
    ∃ x xs, c.skip.rest = x :: xs ∧ x ∈ ['-', '!'] := by
  obtain ⟨op, hop, -⟩ := prefixOperator_eq_ok.mp h
  obtain ⟨hmem, rest, hrest⟩ := operatorAt?_some hop
  have hall : ∀ op ∈ prefixOperators, ∃ x xs, op.toList = x :: xs ∧ x ∈ ['-', '!'] := by
    simp [prefixOperators]
  obtain ⟨x, xs, hspelled, hx⟩ := hall op hmem
  exact ⟨x, xs ++ rest, by rw [hrest, hspelled, List.cons_append], hx⟩

/-- The first token of an operand starts no other statement. If it is no prefix operator, the
operand is a primary expression with its calls and indexes. -/
theorem unclaimed_of_operand {plain : Outcome Tree} (hplain : plain = postfixed inner .read c)
    (h : unaryFrom inner .read plain c = .ok t d) :
    Unclaimed .read c ∧ (plain.Fails ∨ plain = .ok t d) := by
  rw [unaryFrom, Outcome.relabel_eq_ok, Outcome.or_eq_ok] at h
  rcases h with h | ⟨-, rfl⟩
  · obtain ⟨op, d', hop, -⟩ := bind_eq_ok.mp h
    obtain ⟨x, xs, hrest, hx⟩ := head_of_prefixOperator hop
    have hall : ∀ x ∈ ['-', '!'], Text.isKeywordChar x = false ∧
        (Text.isNameStart x = false ∧ x ≠ '\x7b') ∧ x ∈ '-' :: '!' :: '\x7d' :: closers :=
      forall_of_all (by decide)
    obtain ⟨hkeyword, hmark, hforeign⟩ := hall x hx
    refine ⟨unclaimed_of_head hrest hmark, .inl ?_⟩
    rw [hplain]
    refine bind_fails (primary_fails (at_of_skip_rest hrest fun y hy => ?_) fun y hy => ?_)
    · cases hy
      exact hkeyword
    · cases hy
      exact hforeign
  · obtain ⟨head, d', hhead, -⟩ := bind_eq_ok.mp hplain.symm
    exact ⟨unclaimed_of_primary hhead, .inr rfl⟩

/-! ### What comes after an operand -/

/-- No comment and no blank space of any kind come before what stands on the line. -/
theorem skip_rest_of_skipInLine (h : c.skipInLine.rest = x :: xs) (hx : isSpace x = false) :
    c.skip.rest = x :: xs := by
  have hinline : c.skipInLine.rest = c.skipComments.rest.dropWhile Cursor.isInlineSpace :=
    (Cursor.advance_rest _ _).trans (Cursor.drop_takeWhile _ _)
  have hskip : c.skip.rest = c.skipComments.rest.dropWhile isSpace :=
    (Cursor.advance_rest _ _).trans (Cursor.drop_takeWhile _ _)
  rw [hskip, ← dropWhile_dropWhile_of_imp isSpace_of_isInlineSpace, ← hinline, h,
    List.dropWhile_cons_of_neg (by simp [hx])]

/-- An operator is no sign of an assignment, nor does one start with that sign. -/
theorem assignSign?_of_operator {ops : List String} (hops : ops ∈ levels)
    (h : (operatorAt? ops c.skipInLine.rest).isSome) : assignSign? c.skip.rest = none := by
  obtain ⟨op, hop⟩ := Option.isSome_iff_exists.mp h
  obtain ⟨hmem, rest, hrest⟩ := operatorAt?_some hop
  have hall : ∀ ops ∈ levels, ∀ op ∈ ops, ∃ x xs, op.toList = x :: xs ∧ isSpace x = false ∧
      assignSign? (op.toList ++ rest) = none := by
    simp [levels, assignSign?, isSpace]
  obtain ⟨x, xs, hx, hspace, hnone⟩ := hall ops hops op hmem
  rw [hx, List.cons_append] at hrest
  rw [skip_rest_of_skipInLine hrest hspace, ← List.cons_append, ← hx]
  exact hnone

/-- After the first operand of an expression that ends the text, nothing is assigned. -/
theorem assignFrom_fails (hc' : c'.skip.rest = [])
    (hnext : (e = t ∧ c' = d) ∨ ∃ ops ∈ levels, (operatorAt? ops d.skipInLine.rest).isSome) :
    (assignFrom inner mode (.ok t d) c).Fails := by
  have hsign : assignSign? d.skip.rest = none := by
    rcases hnext with ⟨-, rfl⟩ | ⟨ops, hops, hop⟩
    · rw [hc']
      rfl
    · exact assignSign?_of_operator hops hop
  exact bind_fails (lexeme_fails rfl hsign)

/-! ### Statements and programs -/

/-- An expression that ends the text is read as a statement. -/
theorem statement_of_expression (hn : 0 < n) (h : expression (nest n) .read c = .ok e c')
    (hc' : c'.skip.rest = []) :
    statement (nest n) .read c = .ok (nodeAt c.skip .exprStmt .null [e]) c' := by
  obtain ⟨n, rfl⟩ : ∃ m, n = m + 1 := Nat.exists_eq_add_one.mpr hn
  have hexpression : expressionFrom (nest (n + 1)) .read
      (postfixed (nest (n + 1)) .read c.skip) c.skip = .ok e c' := h
  obtain ⟨t, d, hoperand, hnext⟩ := readFrom_eq_ok h
  obtain ⟨hunclaimed, hplain⟩ := unclaimed_of_operand rfl hoperand
  obtain ⟨f, hf⟩ : (firstOf (commandStatements (nest (n + 1)) .read) c.skip).Fails :=
    hunclaimed.commandStatements_fail
  simp only [commandStatements, wordStatements, List.cons_append, List.nil_append] at hf
  obtain ⟨g, hg⟩ : (assignFrom (nest (n + 1)) .read
      (postfixed (nest (n + 1)) .read c.skip) c.skip).Fails := by
    rcases hplain with ⟨k, hk⟩ | hok
    · rw [hk]
      exact ⟨k, rfl⟩
    · rw [hok]
      exact assignFrom_fails hc' hnext
  have hbare : bareStatement (nest (n + 1)) .read c
      = .ok (nodeAt c.skip .exprStmt .null [e]) c' := by
    simp only [bareStatement, hf, hg, expressionStatementFrom, hexpression]
    rfl
  obtain ⟨k, hk⟩ : (symbol ";" c').Fails :=
    symbol_fails rfl (at_end_of_skip_rest hc') (Option.some_ne_none _).symm
  simp only [statement, bind_eq, Parser.bind, hbare, Parser.optional, hk]
  rfl

/-- An expression that is the whole text is a program of one statement. -/
theorem program_of_soleExpression (h : soleExpression c = .ok e c') :
    program c = .ok [nodeAt c.skip .exprStmt .null [e]] c' := by
  obtain ⟨e, d, he, h⟩ := bind_eq_ok.mp h
  obtain ⟨_, d', hend, h⟩ := bind_eq_ok.mp h
  cases h
  have hrest := (endOfText_eq_ok.mp hend).1
  have hover : Cursor.At [] d := at_end_of_skip_rest hrest
  have hrow : Row maxDepth c [nodeAt c.skip .exprStmt .null [e]] d :=
    .cons (statement_of_expression (by decide) he hrest) (.nil d)
  have hrounds : 1 ≤ c.rest.length := by
    by_contra hshort
    have hnil : c.rest = [] := List.length_eq_zero_iff.mp (by omega)
    have hover : Cursor.At [] c := at_nil (hnil ▸ nofun)
    obtain ⟨f, hf⟩ : (expression (nest maxDepth) .read c).Fails := expression_fails_at_end hover
    cases hf.symm.trans he
  have hs : statements (nest maxDepth) .read c = .ok [nodeAt c.skip .exprStmt .null [e]] d := by
    rw [statements_eq_ok, hrow.iterate (by decide) hover hrounds]
    rfl
  exact bind_eq_ok.mpr ⟨_, d, hs, bind_eq_ok.mpr ⟨(), _, hend, rfl⟩⟩

end Ember.Grammar

namespace Ember

/-- **An expression on its own is a program.** A text that can be read as an expression can be read
as a program, and that has a single statement with the very tree of the expression. This holds
however deeply the expression is nested, since both follow it equally far. -/
theorem parseProgram_of_expression {filename source : String} {e : Tree}
    (h : parseExpression filename source = .ok e) :
    ∃ s, parseProgram filename source = .ok [.node .exprStmt .null [e] s] := by
  unfold parseExpression parseWith at h
  dsimp only at h
  split at h
  · rename_i e c he
    cases h
    have hprogram := Grammar.program_of_soleExpression he
    exact ⟨_, by simp only [parseProgram, parseWith, hprogram]; rfl⟩
  all_goals cases h

/-- A function with a body is called after a comment, over several lines. -/
theorem call_of_function_is_program : ∃ e s,
    parseExpression "sample" " -a[0] /* b */ + fun(x) \x7b\n return x; // c\n\x7d(2)\n" = .ok e ∧
    parseProgram "sample" " -a[0] /* b */ + fun(x) \x7b\n return x; // c\n\x7d(2)\n"
      = .ok [.node .exprStmt .null [e] s] := by
  have hok : (parseExpression "sample"
      " -a[0] /* b */ + fun(x) \x7b\n return x; // c\n\x7d(2)\n").toOption.any
        fun _ => true := by decide +kernel
  obtain ⟨e, he, -⟩ := exists_ok_of_any hok
  obtain ⟨s, hs⟩ := parseProgram_of_expression he
  exact ⟨e, s, he, hs⟩

end Ember
