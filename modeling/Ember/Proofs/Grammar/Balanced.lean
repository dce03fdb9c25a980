import Ember.Proofs.Grammar.Crossing
import Ember.Proofs.Grammar.Success
import Ember.Proofs.Grammar.Yields

/-!
# Grammar — what is read has as many closing brackets as opening ones

Each parser that reads something goes through the text lexeme by lexeme, and closes in lexemes what
it opens in lexemes. As with the shapes of trees there is one lemma for each parser, but here it is
about the text alone, and none looks at what is read.

* `Parser.Crosses`: the parser goes through the text and opens so many more brackets than it closes.
* `crosses_symbol`, `crosses_keyword`, …: single tokens.
* `crosses_nest`: the parsers of every depth close what they open.
* `parseProgram_crosses`: so does reading a whole program.
-/

namespace Ember

namespace Grammar

open Cursor (commentLength? skip_eq_advance skipInLine_eq_advance advance_rest)
open Lexeme (IsWord Sign anyBracket isMark isSign sign_of_isSign weight weightOf)

variable {α β : Type} {j k : Int} {cs : List Char} {counted : Char → Bool}

/-- If the outcome is a success, so many more brackets are opened than closed from the text on. -/
def Outcome.Crosses (counted : Char → Bool) (o : Outcome α) (k : Int) (cs : List Char) : Prop :=
  ∀ a c, o = .ok a c → Lexeme.Crosses counted k cs c.rest

/-- Where the parser succeeds, it opens so many more brackets than it closes. -/
def Parser.Crosses (counted : Char → Bool) (p : Parser α) (k : Int) : Prop :=
  ∀ c, (p c).Crosses counted k c.rest

namespace Outcome

variable {o o' : Outcome α}

theorem crosses_fail (f : Failure) :
    (fail f : Outcome α).Crosses counted k cs := fun _ _ h => by cases h

theorem crosses_stop (s : Stop) :
    (stop s : Outcome α).Crosses counted k cs := fun _ _ h => by cases h

/-- Failures that become final do not matter to a success. -/
theorem Crosses.cut (h : o.Crosses counted k cs) : o.cut.Crosses counted k cs := by
  rintro a c ha
  cases o with
  | ok b d => exact h a c ha
  | fail | stop => cases ha

/-- Nor do the names that they bear. -/
theorem Crosses.relabel (h : o.Crosses counted k cs) (start : Nat) (label : Cause) :
    (o.relabel start label).Crosses counted k cs := by
  rintro a c ha
  cases o with
  | ok b d => exact h a c ha
  | fail | stop => cases ha

/-- Of two outcomes one is the success. -/
theorem Crosses.or (h : o.Crosses counted k cs) (h' : o'.Crosses counted k cs) :
    (o.or o').Crosses counted k cs := by
  rintro a c ha
  cases o with
  | ok b d => exact h a c ha
  | fail f =>
      cases o' with
      | ok b d => exact h' a c ha
      | fail | stop => cases ha
  | stop => cases ha

/-- What is skipped before opens no brackets. -/
theorem Crosses.skipped {ds : List Char} (h : o.Crosses counted k ds)
    (hskip : Lexeme.Crosses counted 0 cs ds) :
    o.Crosses counted k cs := fun a c ha => (h a c ha).after hskip

end Outcome

/-! ### Combinators -/

variable {p : Parser α}

/-- Reading nothing opens no bracket. -/
theorem crosses_pure (a : α) : (pure a : Parser α).Crosses counted 0 := by
  rintro c b c' hb
  cases hb
  exact .refl _

/-- What is opened by two parsers one after the other adds up. -/
theorem Parser.Crosses.bind {f : α → Parser β} (h : p.Crosses counted j)
    (hf : ∀ a, (f a).Crosses counted k) :
    (p >>= f).Crosses counted (j + k) := by
  intro c b c' hb
  change Parser.bind p f c = .ok b c' at hb
  unfold Parser.bind at hb
  split at hb
  · rename_i a d ha
    exact (h c a d ha).trans (hf a d b c' hb)
  · cases hb
  · cases hb

/-- What comes first closes what it opens. -/
theorem Parser.Crosses.andThen {f : α → Parser β} (h : p.Crosses counted 0)
    (hf : ∀ a, (f a).Crosses counted k) :
    (p >>= f).Crosses counted k := by
  have hbind := h.bind hf
  rwa [Int.zero_add] at hbind

/-- What is done with the outcome does not matter. -/
theorem Parser.Crosses.map {f : α → Parser β} (h : p.Crosses counted k)
    (hf : ∀ a, (f a).Crosses counted 0) :
    (p >>= f).Crosses counted k := by
  have hbind := h.bind hf
  rwa [Int.add_zero] at hbind

/-- Either choice opens the same. -/
theorem crosses_ite {c : Prop} [Decidable c] {q : Parser α} (hp : p.Crosses counted k)
    (hq : q.Crosses counted k) :
    (if c then p else q).Crosses counted k := by
  split
  · exact hp
  · exact hq

theorem Parser.Crosses.cut (h : p.Crosses counted k) : p.cut.Crosses counted k := fun c => (h c).cut

/-- What closes what it opens may be left out. -/
theorem Parser.Crosses.optional (h : p.Crosses counted 0) : p.optional.Crosses counted 0 := by
  rintro c o c' ho
  unfold Parser.optional at ho
  split at ho
  · cases ho
    exact h c _ _ (by assumption)
  · cases ho
    exact .refl _
  · cases ho

/-- All alternatives open the same. -/
theorem crosses_firstOf {ps : List (Parser α)} (h : ∀ p ∈ ps, p.Crosses counted k) :
    (firstOf ps).Crosses counted k := by
  induction ps with
  | nil => exact fun _ => Outcome.crosses_fail _
  | cons p ps ih =>
      have hp := h p List.mem_cons_self
      cases ps with
      | nil => exact hp
      | cons q qs =>
          have hrest := ih fun r hr => h r (List.mem_cons_of_mem _ hr)
          intro c a c' ha
          rw [firstOf] at ha
          · split at ha
            · exact ((Outcome.crosses_fail _).or (hrest c)) a c' ha
            · exact hp c a c' ha
          · intro hnil
            cases hnil

/-- A step that closes what it opens may be made any number of times. -/
theorem crosses_iterate {step : α → Parser α} (hstep : ∀ a, (step a).Crosses counted 0)
    (rounds : List Char) (a : α) : (iterate step rounds a).Crosses counted 0 := by
  induction rounds generalizing a with
  | nil => exact crosses_pure a
  | cons x rounds ih =>
      intro c b c' hb
      rw [iterate] at hb
      dsimp only at hb
      split at hb
      · exact (ih _ _ _ _ hb).after (hstep a c _ _ (by assumption))
      · cases hb
        exact .refl _
      · cases hb

/-- So it may as long as it succeeds. -/
theorem crosses_repeatedly {step : α → Parser α} (hstep : ∀ a, (step a).Crosses counted 0) (a : α) :
    (repeatedly step a).Crosses counted 0 :=
  fun c => crosses_iterate hstep c.rest a c

/-! ### Tokens -/

/-- Blank space and comments before a token. -/
theorem crosses_skip (c : Cursor) :
    Lexeme.Crosses counted 0 c.rest c.skip.rest ∧ commentLength? c.skip.rest = none := by
  rw [skip_eq_advance, advance_rest]
  exact Lexeme.crosses_pass (fun _ => id) c.rest

/-- The same within a line. -/
theorem crosses_skipInLine (c : Cursor) :
    Lexeme.Crosses counted 0 c.rest c.skipInLine.rest ∧
      commentLength? c.skipInLine.rest = none := by
  rw [skipInLine_eq_advance, advance_rest]
  exact Lexeme.crosses_pass isSpace_of_isInlineSpace c.rest

/-- A token of a given length. -/
theorem crosses_take {c : Cursor} {n : Nat} (h : Lexeme.Crosses counted k c.rest (c.rest.drop n)) :
    (Token.take c n).Crosses counted k c.rest := by
  rintro t c' ht
  cases ht
  rwa [advance_rest]

/-- Alternatives under a name, which start with skipping. -/
theorem crosses_choice {ps : List (Parser α)} (label : Cause) (h : ∀ p ∈ ps, p.Crosses counted k) :
    (choice label ps).Crosses counted k := fun c =>
  ((crosses_firstOf h c.skip).relabel c.skip.offset label).skipped (crosses_skip c).1

/-- A lexeme of a class all of which open the same. -/
theorem crosses_lexeme {size? : List Char → Option Nat} {cause : Cause}
    (h : ∀ cs n, commentLength? cs = none → size? cs = some n →
      Lexeme.Crosses counted k cs (cs.drop n)) :
    (lexeme size? cause).Crosses counted k := by
  intro c
  obtain ⟨hskip, hplain⟩ := crosses_skip c
  refine Outcome.Crosses.skipped ?_ hskip
  simp only [lexeme]
  split
  · exact crosses_take (h _ _ hplain (by assumption))
  · exact Outcome.crosses_fail _

/-- A mark that is spelled out. -/
theorem crosses_spelled {text : String} {x : Char}
    (htext : text.toList = [x] ∧ isMark x ∧ weightOf counted x = k)
    (hplain : commentLength? cs = none) (h : text.toList.isPrefixOf cs) :
    Lexeme.Crosses counted k cs (cs.drop text.length) := by
  obtain ⟨hx, hmark, rfl⟩ := htext
  rw [hx] at h
  obtain ⟨xs, rfl⟩ := (isPrefixOf_singleton cs).mp h
  rw [length_of_toList hx]
  exact Lexeme.crosses_mark hmark hplain

/-- A mark opens what it says. -/
theorem crosses_symbol {text : String} (x : Char)
    (htext : text.toList = [x] ∧ isMark x ∧ weightOf counted x = k) :
    (symbol text).Crosses counted k := by
  refine crosses_lexeme fun cs n hplain hn => ?_
  split at hn
  · cases hn
    exact crosses_spelled htext hplain (by assumption)
  · cases hn

/-- The same within a line. -/
theorem crosses_symbolInLine {text : String} (x : Char)
    (htext : text.toList = [x] ∧ isMark x ∧ weightOf counted x = k) :
    (symbolInLine text).Crosses counted k := by
  intro c
  obtain ⟨hskip, hplain⟩ := crosses_skipInLine c
  refine Outcome.Crosses.skipped ?_ hskip
  simp only [symbolInLine]
  split
  · exact crosses_take (crosses_spelled htext hplain (by assumption))
  · exact Outcome.crosses_fail _

/-- The operator is a sign without brackets. -/
def isUnbracketed (op : String) : Bool := isSign op.toList && op.toList.all (weight · == 0)

/-- None of these operators is a bracket or has one in it. -/
theorem crosses_operatorAt {ops : List String} (hops : ∀ op ∈ ops, isUnbracketed op) {c : Cursor}
    (hplain : commentLength? c.rest = none) :
    (match operatorAt? ops c.rest with
      | some op => Token.take c op.length
      | none => .fail ⟨c.offset, .operator ops⟩).Crosses counted 0 c.rest := by
  split
  · rename_i op hop
    obtain ⟨hmem, rest, hrest⟩ := operatorAt?_some hop
    obtain ⟨hsign, hweight⟩ := Bool.and_eq_true_iff.mp (hops op hmem)
    have hweight : ∀ x ∈ op.toList, weight x = 0 := by simpa using hweight
    have hcounted : ∀ x ∈ op.toList, weightOf counted x = 0 :=
      fun x hx => Lexeme.weightOf_of_weight (hweight x hx)
    refine crosses_take ?_
    rw [hrest, ← String.length_toList, List.drop_left]
    exact Lexeme.crosses_sign (hrest ▸ hplain) (sign_of_isSign hsign) hcounted
  · exact Outcome.crosses_fail _

/-- A binary operator, which has to stand on the line. -/
theorem crosses_operator {ops : List String} (hops : ∀ op ∈ ops, isUnbracketed op) :
    (operator ops).Crosses counted 0 := by
  intro c
  obtain ⟨hskip, hplain⟩ := crosses_skipInLine c
  exact (crosses_operatorAt hops hplain).skipped hskip

/-- The operators of the language have no brackets in them. -/
theorem unbracketed_operators :
    ∀ ops ∈ prefixOperators :: levels, ∀ op ∈ ops, isUnbracketed op := by decide

/-- A prefix operator, which may start a line. -/
theorem crosses_prefixOperator : (prefixOperator prefixOperators).Crosses counted 0 := by
  have hops := unbracketed_operators prefixOperators List.mem_cons_self
  intro c
  obtain ⟨hskip, hplain⟩ := crosses_skip c
  exact (crosses_operatorAt hops hplain).skipped hskip

/-- A keyword is a word. -/
theorem crosses_keyword {word : String} (hmem : word ∈ Lexeme.keywords) :
    (keyword word).Crosses counted 0 := by
  intro c
  refine Outcome.Crosses.skipped ?_ (crosses_skip c).1
  simp only [keyword]
  split
  · rename_i hspelled
    obtain ⟨rest, hrest⟩ := List.isPrefixOf_iff_prefix.mp hspelled
    have hdrop : c.skip.rest.drop word.length = rest := by
      rw [← hrest, ← String.length_toList, List.drop_left]
    split
    · exact Outcome.crosses_fail _
    · split
      · exact Outcome.crosses_fail _
      · rename_i hfree
        rw [hdrop] at hfree
        refine crosses_take ?_
        rw [hdrop, ← hrest]
        exact Lexeme.crosses_word (isWord_of_mem_keywords hmem)
          (endsName_of_startsWord (by simpa using hfree))
  · exact Outcome.crosses_fail _

/-- So is a name. -/
theorem crosses_name (mode : Mode) : (name mode).Crosses counted 0 := by
  refine (crosses_lexeme fun cs n _ hn => Lexeme.crosses_name hn).andThen fun t => ?_
  exact crosses_ite (fun _ => Outcome.crosses_fail _) (crosses_pure t)

/-- The mark of a mutable binding is a mark and a word. -/
theorem crosses_mutMark : (lexeme Lexeme.mutMark? (.construct "mark")).Crosses counted 0 := by
  refine crosses_lexeme fun cs n hplain hn => ?_
  obtain ⟨rest, rfl, rfl, hrest⟩ := Lexeme.exists_of_word? hn
  have hword : IsWord "mut" := ⟨'m', ['u', 't'], rfl, by decide, forall_of_all (by decide)⟩
  have hmark : Lexeme.Crosses counted 0 ('@' :: ("mut".toList ++ rest)) ("mut".toList ++ rest) :=
    Lexeme.crosses_plainMark (by decide) (by decide) hplain
  exact (Lexeme.crosses_word hword hrest).after hmark

/-- The sign of an assignment is a mark that is no bracket. -/
theorem crosses_assignSign : (lexeme Lexeme.assignSign? .assignSign).Crosses counted 0 := by
  refine crosses_lexeme fun cs n hplain hn => ?_
  obtain ⟨rest, rfl, rfl⟩ := Lexeme.exists_of_assignSign? hn
  exact Lexeme.crosses_plainMark (by decide) (by decide) hplain

/-- A return without a value is its word. -/
theorem crosses_bareReturn : bareReturn.Crosses counted 0 := by
  refine (crosses_lexeme fun cs n hplain hn => ?_).andThen fun t => crosses_pure _
  obtain ⟨rest, rfl, rfl, hrest, -⟩ := Lexeme.exists_of_bareReturn? hn
  exact Lexeme.crosses_word (isWord_of_mem_keywords (by decide)) hrest

/-- At the end of the text blank space and comments are skipped. -/
theorem crosses_endOfText : endOfText.Crosses counted 0 := by
  intro c
  refine Outcome.Crosses.skipped ?_ (crosses_skip c).1
  simp only [endOfText]
  split
  · exact crosses_pure () c.skip
  · exact Outcome.crosses_fail _

/-! ### Expressions -/

/-- The parsers close what they open when they read. -/
structure NestCrosses (inner : Nest) : Prop where
  expression : (inner.expression .read).Crosses anyBracket 0
  unary : (inner.unary .read).Crosses anyBracket 0
  block : (inner.block .read).Crosses anyBracket 0
  conditional : (inner.conditional .read).Crosses anyBracket 0

/-- Commas do not matter, so a list closes what its items close. -/
theorem crosses_commaList {item : Parser α} (h : item.Crosses anyBracket 0) :
    (commaList item).Crosses anyBracket 0 := by
  refine h.optional.andThen fun first => ?_
  cases first with
  | none => exact crosses_pure []
  | some x =>
      have hcomma : (symbol ",").Crosses anyBracket 0 := crosses_symbol ',' (by decide)
      refine (crosses_repeatedly (fun items => ?_) [x]).andThen fun items => crosses_pure _
      exact hcomma.andThen fun _ => h.andThen fun next => crosses_pure _

/-- A number, which may still be refused for its digits. -/
theorem crosses_number : (number .read).Crosses anyBracket 0 := by
  refine (crosses_lexeme fun cs n _ hn => Lexeme.crosses_number hn).andThen fun t => ?_
  refine crosses_ite (crosses_pure _) (crosses_ite (fun _ => Outcome.crosses_stop _) ?_)
  exact crosses_pure _

/-- A string literal; the brackets in it do not count. -/
theorem crosses_string : string.Crosses anyBracket 0 :=
  (crosses_lexeme fun _ _ _ hn => Lexeme.crosses_string hn).andThen fun _ => crosses_pure _

theorem crosses_constant {word : String} (hmem : word ∈ Lexeme.keywords) (kind : Tree.Kind)
    (value : Datum) : (constant word kind value).Crosses anyBracket 0 :=
  (crosses_keyword hmem).andThen fun _ => crosses_pure _

theorem crosses_open : (symbol "(").Crosses anyBracket 1 := crosses_symbol '(' (by decide)

theorem crosses_close : (symbol ")").Crosses anyBracket (-1) := crosses_symbol ')' (by decide)

/-- Parameters open a parenthesis and close it. -/
theorem crosses_parameters : (parameters .read).Crosses anyBracket 0 := by
  have hnames := crosses_commaList (crosses_name .read)
  refine crosses_open.bind (k := -1) fun _ => hnames.andThen fun _ => ?_
  exact crosses_close.map fun _ => crosses_pure _

variable {inner : Nest}

/-- An array opens a bracket and closes it, after a comma or without one. -/
theorem crosses_array (h : NestCrosses inner) : (array inner .read).Crosses anyBracket 0 := by
  have hopen : (symbol "[").Crosses anyBracket 1 := crosses_symbol '[' (by decide)
  have hclose : (symbol "]").Crosses anyBracket (-1) := crosses_symbol ']' (by decide)
  have hcomma : (symbol ",").Crosses anyBracket 0 := crosses_symbol ',' (by decide)
  refine hopen.bind (k := -1) fun _ => (crosses_commaList h.expression).andThen fun items => ?_
  refine crosses_ite ?_ (hclose.map fun _ => crosses_pure _)
  exact hcomma.optional.andThen fun _ => hclose.map fun _ => crosses_pure _

/-- The primary expressions, one by one. -/
theorem crosses_primary (h : NestCrosses inner) : (primary inner .read).Crosses anyBracket 0 := by
  refine crosses_choice _ fun p hp => ?_
  simp only [List.mem_cons, List.not_mem_nil, or_false] at hp
  rcases hp with rfl | rfl | rfl | rfl | rfl | rfl | rfl | rfl | rfl
  · exact crosses_number
  · exact crosses_string
  · exact crosses_constant (by decide) _ _
  · exact crosses_constant (by decide) _ _
  · exact crosses_constant (by decide) _ _
  · refine (crosses_keyword (by decide)).andThen fun _ => crosses_parameters.andThen fun _ => ?_
    exact h.block.andThen fun _ => crosses_pure _
  · exact crosses_array h
  · refine crosses_open.bind (k := -1) fun _ => h.expression.andThen fun e => ?_
    exact crosses_close.map fun _ => crosses_pure e
  · exact (crosses_name _).andThen fun _ => crosses_pure _

/-- A call and an index each close what they open. -/
theorem crosses_postfixed (h : NestCrosses inner) :
    (postfixed inner .read).Crosses anyBracket 0 := by
  refine (crosses_primary h).andThen fun t => crosses_repeatedly (fun t => ?_) t
  refine crosses_firstOf fun p hp => ?_
  simp only [List.mem_cons, List.not_mem_nil, or_false] at hp
  rcases hp with rfl | rfl
  · have hopen : (symbolInLine "(").Crosses anyBracket 1 := crosses_symbolInLine '(' (by decide)
    refine hopen.bind (k := -1) fun _ => (crosses_commaList h.expression).andThen fun _ => ?_
    exact crosses_close.map fun _ => crosses_pure _
  · have hopen : (symbolInLine "[").Crosses anyBracket 1 := crosses_symbolInLine '[' (by decide)
    have hclose : (symbol "]").Crosses anyBracket (-1) := crosses_symbol ']' (by decide)
    refine hopen.bind (k := -1) fun _ => h.expression.andThen fun _ => ?_
    exact hclose.map fun _ => crosses_pure _

/-- A prefix operator and its operand, which is read where it has been probed. -/
theorem crosses_prefixed (h : NestCrosses inner) : (prefixed inner .read).Crosses anyBracket 0 := by
  refine crosses_prefixOperator.andThen fun op => ?_
  intro c t c' ht
  dsimp only at ht
  split at ht
  · rename_i e d he
    cases ht
    split at he
    · exact h.unary c e _ he
    · rename_i hne
      exact (hne _ _ rfl he).elim
  · rename_i hne
    exact (hne _ _ ht).elim

/-- With a prefix operator or without one. -/
theorem crosses_unaryFrom (h : NestCrosses inner) {plain : Outcome Tree} {c : Cursor}
    (hplain : plain.Crosses anyBracket 0 c.rest) :
    (unaryFrom inner .read plain c).Crosses anyBracket 0 c.rest :=
  ((crosses_prefixed h c).or hplain).relabel _ _

theorem crosses_unary (h : NestCrosses inner) : (unary inner .read).Crosses anyBracket 0 := fun c =>
  (crosses_unaryFrom h (crosses_postfixed h c.skip)).skipped (crosses_skip c).1

/-- A chain of operators, level by level; what is only probed is not passed. -/
theorem crosses_readFrom (h : NestCrosses inner) {ls : List (List String)} (hls : ls ⊆ levels)
    {probed leaf : Outcome Tree} (hleaf : leaf.Crosses anyBracket 0 cs) (start : Cursor) :
    (readFrom inner ls probed leaf start).Crosses anyBracket 0 cs := by
  induction ls generalizing probed leaf start cs with
  | nil => exact hleaf
  | cons ops tighter ih =>
      have hops : ∀ op ∈ ops, isUnbracketed op :=
        unbracketed_operators ops (List.mem_cons_of_mem _ (hls List.mem_cons_self))
      have htighter : tighter ⊆ levels := fun x hx => hls (List.mem_cons_of_mem _ hx)
      rw [readFrom]
      split
      · exact Outcome.crosses_stop _
      · exact ((Outcome.crosses_fail _).or (ih htighter hleaf start)).relabel _ _
      · split
        · rename_i t c ht
          refine Outcome.Crosses.skipped ?_ (ih htighter hleaf start t c ht)
          refine crosses_repeatedly (fun l => (crosses_operator hops).andThen fun op => ?_) t c
          refine Parser.Crosses.andThen (fun c => ?_) fun r => crosses_pure _
          exact (ih htighter (crosses_unary h c.skip) c.skip).skipped (crosses_skip c).1
        · exact (ih htighter hleaf start).relabel _ _

/-- An expression of which the first part has been read. -/
theorem crosses_expressionFrom (h : NestCrosses inner) {plain : Outcome Tree} {c : Cursor}
    (hplain : plain.Crosses anyBracket 0 c.rest) :
    (expressionFrom inner .read plain c).Crosses anyBracket 0 c.rest :=
  crosses_readFrom h (fun _ => id) (crosses_unaryFrom h hplain) c

theorem crosses_expression (h : NestCrosses inner) :
    (expression inner .read).Crosses anyBracket 0 := fun c =>
  (crosses_expressionFrom h (crosses_postfixed h c.skip)).skipped (crosses_skip c).1

/-! ### Statements -/

/-- A binding: its expression closes what it opens. -/
theorem crosses_letStatement (h : NestCrosses inner) :
    (letStatement inner .read).Crosses anyBracket 0 := by
  refine (crosses_keyword (by decide)).andThen fun _ => Parser.Crosses.cut ?_
  refine crosses_mutMark.optional.andThen fun _ => (crosses_name _).andThen fun _ => ?_
  refine crosses_assignSign.andThen fun _ => (crosses_expression h).andThen fun _ => ?_
  exact crosses_pure _

/-- A function: so do its parameters and its body. -/
theorem crosses_functionDef (h : NestCrosses inner) :
    (functionDef inner .read).Crosses anyBracket 0 := by
  refine (crosses_keyword (by decide)).andThen fun _ => (crosses_name _).andThen fun _ => ?_
  refine crosses_parameters.andThen fun _ => h.block.cut.andThen fun _ => ?_
  exact crosses_pure _

/-- What follows `else` is a conditional or a block. -/
theorem crosses_elseBranch (h : NestCrosses inner) :
    (elseBranch inner .read).Crosses anyBracket 0 := by
  refine (crosses_keyword (by decide)).andThen fun _ =>
    Parser.Crosses.cut (crosses_choice _ fun p hp => ?_)
  simp only [List.mem_cons, List.not_mem_nil, or_false] at hp
  rcases hp with rfl | rfl
  · exact h.conditional
  · exact h.block

/-- A conditional, with a second branch or without one. -/
theorem crosses_ifStatement (h : NestCrosses inner) :
    (ifStatement inner .read).Crosses anyBracket 0 := by
  refine (crosses_keyword (by decide)).andThen fun _ => ?_
  refine (crosses_expression h).cut.andThen fun _ => ?_
  refine h.block.cut.andThen fun _ => (crosses_elseBranch h).optional.andThen fun _ => ?_
  exact crosses_pure _

theorem crosses_whileStatement (h : NestCrosses inner) :
    (whileStatement inner .read).Crosses anyBracket 0 := by
  refine (crosses_keyword (by decide)).andThen fun _ => ?_
  refine (crosses_expression h).cut.andThen fun _ => ?_
  exact h.block.cut.andThen fun _ => crosses_pure _

theorem crosses_forStatement (h : NestCrosses inner) :
    (forStatement inner .read).Crosses anyBracket 0 := by
  refine (crosses_keyword (by decide)).andThen fun _ => Parser.Crosses.cut ?_
  refine (crosses_name _).andThen fun _ => (crosses_keyword (by decide)).andThen fun _ => ?_
  exact (crosses_expression h).andThen fun _ => h.block.andThen fun _ => crosses_pure _

/-- An assignment, of which the target has been read. -/
theorem crosses_assignFrom (h : NestCrosses inner) {target : Outcome Tree}
    (htarget : target.Crosses anyBracket 0 cs) (start : Cursor) :
    (assignFrom inner .read target start).Crosses anyBracket 0 cs := by
  cases target with
  | fail => exact Outcome.crosses_fail _
  | stop => exact Outcome.crosses_stop _
  | ok t c =>
      refine Outcome.Crosses.skipped ?_ (htarget t c rfl)
      refine crosses_assignSign.andThen (f := fun _ => Parser.bind _ _) (fun _ =>
        (crosses_expression h).andThen fun v => ?_) c
      split
      · exact crosses_pure _
      · exact crosses_pure _
      · exact fun _ => Outcome.crosses_fail _

theorem crosses_expressionStatementFrom (h : NestCrosses inner) {plain : Outcome Tree} {c : Cursor}
    (hplain : plain.Crosses anyBracket 0 c.rest) :
    (expressionStatementFrom inner .read plain c).Crosses anyBracket 0 c.rest := by
  have he := crosses_expressionFrom h hplain
  intro t c' ht
  unfold expressionStatementFrom at ht
  split at ht
  · cases ht
    exact he _ _ (by assumption)
  · rename_i hne
    exact (hne _ _ ht).elim

/-- The statements, one by one; an expression is tried last. -/
theorem crosses_bareStatement (h : NestCrosses inner) :
    (bareStatement inner .read).Crosses anyBracket 0 := by
  intro c
  refine Outcome.Crosses.skipped ?_ (crosses_skip c).1
  have hplain := crosses_postfixed h c.skip
  unfold bareStatement
  dsimp only
  split
  · split
    · exact (Outcome.crosses_fail _).or (crosses_expressionStatementFrom h hplain)
    · exact crosses_assignFrom h hplain _
  · refine crosses_firstOf (fun p hp => ?_) c.skip
    simp only [List.mem_cons, List.not_mem_nil, or_false] at hp
    rcases hp with rfl | rfl | rfl | rfl | rfl | rfl | rfl | rfl
    · exact crosses_letStatement h
    · exact crosses_functionDef h
    · exact crosses_ifStatement h
    · exact crosses_whileStatement h
    · exact crosses_forStatement h
    · exact crosses_bareReturn
    · refine (crosses_keyword (by decide)).andThen fun _ => ?_
      exact (crosses_expression h).andThen fun _ => crosses_pure _
    · exact h.block.andThen fun _ => crosses_pure _

/-- Statements, each with a semicolon or without one. -/
theorem crosses_statements (h : NestCrosses inner) :
    (statements inner .read).Crosses anyBracket 0 := by
  have hsemicolon : (symbol ";").Crosses anyBracket 0 := crosses_symbol ';' (by decide)
  have hstatement : (statement inner .read).Crosses anyBracket 0 :=
    (crosses_bareStatement h).andThen fun _ => hsemicolon.optional.andThen fun _ => crosses_pure _
  refine (crosses_repeatedly (fun _ => ?_) []).andThen fun _ => crosses_pure _
  exact hstatement.andThen fun _ => crosses_pure _

/-- A block opens a brace and closes it. -/
theorem crosses_block (h : NestCrosses inner) : (block inner .read).Crosses anyBracket 0 := by
  have hopen : (symbol "\x7b").Crosses anyBracket 1 := crosses_symbol '\x7b' (by decide)
  have hclose : (symbol "\x7d").Crosses anyBracket (-1) := crosses_symbol '\x7d' (by decide)
  refine hopen.bind (k := -1) fun _ => (crosses_statements h).andThen fun _ => ?_
  exact hclose.cut.map fun _ => crosses_pure _

/-- One depth further out. -/
theorem crosses_enclose (h : NestCrosses inner) : NestCrosses (enclose inner) := by
  refine ⟨?_, ?_, ?_, ?_⟩
  · rw [enclose_expression]
    exact crosses_expression h
  · rw [enclose_unary]
    exact crosses_unary h
  · rw [enclose_block]
    exact crosses_block h
  · rw [enclose_conditional]
    exact crosses_ifStatement h

/-- The parsers of every depth close what they open. -/
theorem crosses_nest (n : Nat) : NestCrosses (nest n) := by
  induction n with
  | zero =>
      exact ⟨fun _ => Outcome.crosses_stop _, fun _ => Outcome.crosses_stop _,
        fun _ => Outcome.crosses_stop _, fun _ => Outcome.crosses_stop _⟩
  | succ n ih => exact crosses_enclose ih

/-- A program is its statements and the end of the text. -/
theorem crosses_program : program.Crosses anyBracket 0 :=
  (crosses_statements (crosses_nest maxDepth)).andThen fun _ =>
    crosses_endOfText.andThen fun _ => crosses_pure _

/-- What is read to its end is read whole. -/
theorem rest_of_program {c c' : Cursor} {ts : List Tree} (h : program c = .ok ts c') :
    c'.rest = [] := by
  obtain ⟨ss, d, -, h⟩ := bind_eq_ok.mp h
  obtain ⟨_, d', hend, h⟩ := bind_eq_ok.mp h
  cases h
  obtain ⟨hrest, rfl⟩ := endOfText_eq_ok.mp hend
  exact hrest

end Grammar

/-- **A program closes in lexemes what it opens in lexemes.** -/
theorem parseProgram_crosses {filename source : String} {ts : List Tree}
    (h : parseProgram filename source = .ok ts) :
    Lexeme.Crosses Lexeme.anyBracket 0 (scanned source) [] := by
  unfold parseProgram parseWith at h
  dsimp only at h
  split at h
  · cases h
    rename_i ts c hts
    exact Grammar.rest_of_program hts ▸ Grammar.crosses_program _ _ _ hts
  all_goals cases h

end Ember
