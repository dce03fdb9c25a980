import Ember.Proofs.Grammar.Comment.Token

/-!
# Grammar — expressions of a text with comments as blank space

An expression is read as the same tree from a text and from the same text with comments as blank
space. Each parser of expressions ends with a lexeme that may end an operand, so what goes on with
it is looked for up to the same place of the line.

* `Nest.Agrees`: the parsers of a nesting depth agree on both texts.
* `agree_primary`, `agree_unary`, `agree_expression`: if the inner parsers agree, so do those of
  expressions.
-/

namespace Ember.Grammar

open Cursor (Veiled SamePlace)
open Lexeme

variable {α : Type} {before after : Bool} {r : α → α → Prop} {item : Parser α} {inner : Nest}
  {mode : Mode} {c d : Cursor}

/-- The parsers of a nesting depth agree. -/
structure Nest.Agrees (inner : Nest) : Prop where
  expression : ∀ mode, Agree false true Eq (inner.expression mode) (inner.expression mode)
  unary : ∀ mode, Agree false true Eq (inner.unary mode) (inner.unary mode)
  block : ∀ mode, Agree false true Eq (inner.block mode) (inner.block mode)
  conditional : ∀ mode, Agree false false Eq (inner.conditional mode) (inner.conditional mode)

/-! ### Lists -/

/-- A list of items is as long on both texts. -/
theorem agree_commaList (h : Agree false after r item item) :
    Agree false false (List.Forall₂ r) (commaList item) (commaList item) := by
  refine h.optional.bind fun a a' ha => ?_
  cases ha with
  | none => exact .pure .nil
  | some ha =>
      refine (agree_repeatedly (fun as as' has => ?_) (.cons ha .nil)).bind fun as as' has =>
        .pure (List.rel_reverse has)
      refine (agree_symbol rfl (by decide)).bind fun _ _ _ => ?_
      exact h.weaken.bind fun b b' hb => .pure (.cons hb has)

theorem agree_expressions (h : inner.Agrees) (mode : Mode) :
    Agree false false Eq (commaList (inner.expression mode))
      (commaList (inner.expression mode)) := by
  have hlist := agree_commaList (h.expression mode)
  rwa [List.forall₂_eq_eq_eq] at hlist

/-! ### Primary expressions -/

/-- A number may end an operand. -/
theorem agree_number (mode : Mode) : Agree before true Eq (number mode) (number mode) := by
  refine (agree_lexeme shared_number).bind fun t t' ht => ?_
  rw [ht.text, ht.leaf, ht.leaf]
  exact .ite Iff.rfl (.pure rfl) (.ite Iff.rfl (.stop _) (.pure rfl))

/-- So may a string literal, -/
theorem agree_string : Agree before true Eq string string := by
  refine (agree_lexeme shared_string).bind fun t t' ht => ?_
  rw [ht.text, ht.leaf]
  exact .pure rfl

/-- a keyword that denotes a value, -/
theorem agree_constant {word : String} (hword : word ∈ keywords) (kind : Tree.Kind)
    (value : Datum) : Agree before true Eq (constant word kind value) (constant word kind value) :=
  (agree_keyword hword).bind fun _ _ ht => .pure (ht.leaf kind value).symm

/-- and a name. -/
theorem agree_identifier (mode : Mode) :
    Agree before true Eq (identifier mode) (identifier mode) := by
  refine (agree_name mode).bind fun t t' ht => ?_
  rw [ht.string, ht.leaf]
  exact .pure rfl

/-- Parameters are the same names. -/
theorem agree_parameters (mode : Mode) :
    Agree before false Eq (parameters mode) (parameters mode) := by
  refine (agree_symbol rfl (by decide)).bind fun _ _ _ => ?_
  refine (agree_commaList (agree_name mode)).bind fun ns ns' hns => ?_
  refine (agree_symbol rfl (by decide)).bind fun _ _ _ => ?_
  exact .pure (map_eq_of_forall₂ (hns.imp fun _ _ h => h.string)).symm

/-- A function ends with its block. -/
theorem agree_functionExpr (h : inner.Agrees) (mode : Mode) :
    Agree before true Eq (functionExpr inner mode) (functionExpr inner mode) := by
  refine (agree_keyword (by decide)).bind fun t t' ht => ?_
  refine (agree_parameters mode).bind fun ps ps' hps => ?_
  refine (h.block mode).bind fun b b' hb => ?_
  rw [hps, hb, nodeAt_congr ht.place]
  exact .pure rfl

/-- An array ends with its bracket, after a comma or without one. -/
theorem agree_array (h : inner.Agrees) (mode : Mode) :
    Agree before true Eq (array inner mode) (array inner mode) := by
  have hclose : Agree false true Token.Same (symbol "]") (symbol "]") :=
    agree_closing rfl (by decide)
  refine (agree_symbol rfl (by decide)).bind fun t t' ht => ?_
  refine (agree_expressions h mode).bind fun es es' hes => ?_
  subst hes
  rw [nodeAt_congr ht.place]
  refine .ite Iff.rfl ?_ (hclose.bind fun _ _ _ => .pure rfl)
  exact (agree_symbol rfl (by decide)).optional.bind fun _ _ _ => hclose.bind fun _ _ _ => .pure rfl

/-- Parentheses leave no trace on either text. -/
theorem agree_parenthesized (h : inner.Agrees) (mode : Mode) :
    Agree before true Eq (parenthesized inner mode) (parenthesized inner mode) := by
  refine (agree_symbol rfl (by decide)).bind fun _ _ _ => (h.expression mode).bind fun e e' he => ?_
  exact (agree_closing rfl (by decide)).bind fun _ _ _ => .pure he

/-- The primary expressions, one by one. -/
theorem agree_primary (h : inner.Agrees) (mode : Mode) :
    Agree before true Eq (primary inner mode) (primary inner mode) := by
  refine agree_choice _ fun p hp => ?_
  simp only [List.mem_cons, List.not_mem_nil, or_false] at hp
  rcases hp with rfl | rfl | rfl | rfl | rfl | rfl | rfl | rfl | rfl
  · exact agree_number mode
  · exact agree_string
  · exact agree_constant (by decide) _ _
  · exact agree_constant (by decide) _ _
  · exact agree_constant (by decide) _ _
  · exact agree_functionExpr h mode
  · exact agree_array h mode
  · exact agree_parenthesized h mode
  · exact agree_identifier mode

/-! ### Calls and indexing -/

/-- A call goes on with an operand, so its parenthesis has to be one in both texts. -/
theorem agree_callSuffix (h : inner.Agrees) (mode : Mode) (f : Tree) :
    Agree true true Eq (callSuffix inner mode f) (callSuffix inner mode f) := by
  refine (agree_symbolInLine rfl (by decide) (by decide)).bind fun t t' ht => ?_
  refine (agree_expressions h mode).bind fun es es' hes => ?_
  refine (agree_closing rfl (by decide)).bind fun _ _ _ => ?_
  rw [hes, ht.place.span]
  exact .pure rfl

/-- So has the bracket of an index. -/
theorem agree_indexSuffix (h : inner.Agrees) (mode : Mode) (t₀ : Tree) :
    Agree true true Eq (indexSuffix inner mode t₀) (indexSuffix inner mode t₀) := by
  refine (agree_symbolInLine rfl (by decide) (by decide)).bind fun t t' ht => ?_
  refine (h.expression mode).bind fun e e' he => (agree_closing rfl (by decide)).bind
    fun _ _ _ => ?_
  rw [he, ht.place.span]
  exact .pure rfl

/-- Calls and indexes are applied as often on both texts. -/
theorem agree_postfixed (h : inner.Agrees) (mode : Mode) :
    Agree before true Eq (postfixed inner mode) (postfixed inner mode) := by
  refine (agree_primary h mode).bind fun t t' ht => agree_repeatedly (fun t t' ht => ?_) ht
  subst ht
  refine agree_firstOf fun p hp => ?_
  simp only [List.mem_cons, List.not_mem_nil, or_false] at hp
  rcases hp with rfl | rfl
  · exact agree_callSuffix h mode t
  · exact agree_indexSuffix h mode t

/-! ### Prefix operators -/

/-- What a prefix operator makes of its operand. -/
theorem agrees_unaryTree {op op' : Token} {o o' : Outcome Tree} (hop : op.Same op') :
    o.Agrees after Eq o' →
      Outcome.Agrees after Eq
        (match o with | .ok t c => .ok (unaryTree op t) c | r => r)
        (match o' with | .ok t c => .ok (unaryTree op' t) c | r => r) := by
  intro h
  cases h with
  | ok ht hcd =>
      refine .ok ?_ hcd
      rw [unaryTree, unaryTree, hop.string, hop.place.span, ht]
  | fail f f' => exact .fail f f'
  | fatal f f' => exact .fatal f f'
  | stop s => exact .stop s

/-- A prefix operator and its operand, probed and read. -/
theorem agree_prefixed (h : inner.Agrees) (mode : Mode) :
    Agree before true Eq (prefixed inner mode) (prefixed inner mode) := by
  refine agree_prefixOperator.bind fun op op' hop c d hcd => ?_
  have hprobe := (h.unary .probe c d hcd).tentative op.start.offset op'.start.offset
    (.operation prefixOperators) (.operation prefixOperators)
  cases mode with
  | probe => exact agrees_unaryTree hop hprobe
  | read =>
      dsimp only
      generalize Outcome.tentative op.start.offset (.operation prefixOperators) _ = o at hprobe
      generalize Outcome.tentative op'.start.offset (.operation prefixOperators) _ = o' at hprobe
      cases hprobe with
      | ok _ _ => exact agrees_unaryTree hop (h.unary .read c d hcd)
      | fail f f' => exact .fail f f'
      | fatal f f' => exact .fatal f f'
      | stop s => exact .stop s

/-- With a prefix operator or without one. -/
theorem agrees_unaryFrom {plain plain' : Outcome Tree} (h : inner.Agrees) (mode : Mode)
    (hcd : Veiled before c d) (hplain : plain.Agrees true Eq plain') :
    (unaryFrom inner mode plain c).Agrees true Eq (unaryFrom inner mode plain' d) :=
  ((agree_prefixed h mode c d hcd).or hplain).relabel _ _ _ _

theorem agree_unary (h : inner.Agrees) (mode : Mode) :
    Agree before true Eq (unary inner mode) (unary inner mode) := by
  intro c d hcd
  obtain ⟨hcd', -⟩ := hcd.skip
  exact agrees_unaryFrom h mode hcd' (agree_postfixed h mode _ _ hcd')

/-! ### Binary operators -/

variable {ops : List String} {start start' : Cursor} {p : Parser Tree}

/-- The tree of an operator does not depend on which of the texts it is from. -/
theorem binaryTree_congr {op op' : Token} (hstart : SamePlace start start') (hop : op.Same op')
    (t u : Tree) : binaryTree start' op' t u = binaryTree start op t u := by
  simp only [binaryTree, hop.string, hstart.span]

/-- One more operand of a chain. -/
theorem agree_link (hops : ∀ op ∈ ops, op ∈ continuations) (hp : Agree false true Eq p p)
    (hstart : SamePlace start start') {t t' : Tree} (ht : t = t') :
    Agree true true Eq (link ops p start t) (link ops p start' t') := by
  refine (agree_operator hops).bind fun op op' hop => hp.bind fun u u' hu => ?_
  rw [binaryTree_congr hstart hop, ht, hu]
  exact .pure rfl

/-- A chain goes on as far on both texts. -/
theorem agree_probeLinks (hops : ∀ op ∈ ops, op ∈ continuations) (hp : Agree false true Eq p p)
    (hstart : SamePlace start start') {t t' : Tree} (ht : t = t') :
    Agree true true Eq (probeLinks (link ops p start) t) (probeLinks (link ops p start') t') := by
  intro c d hcd
  have hlink := (agree_link hops hp hstart ht c d hcd).tentative c.offset d.offset
    (.construct "link") (.construct "link")
  unfold probeLinks
  generalize Outcome.tentative c.offset (.construct "link") _ = o at hlink
  generalize Outcome.tentative d.offset (.construct "link") _ = o' at hlink
  cases hlink with
  | ok hu hcd' =>
      exact agree_repeatedly (fun _ _ ht => agree_link hops hp hstart ht) hu _ _ hcd'
  | fail f f' => exact .ok ht hcd
  | fatal f f' => exact .fatal f f'
  | stop s => exact .stop s

/-! ### Expressions -/

variable {ls : List (List String)} {probed probed' leaf leaf' : Outcome Tree}

/-- Probing goes level by level. -/
theorem agrees_probeFrom (h : inner.Agrees) (hls : ∀ ops ∈ ls, ∀ op ∈ ops, op ∈ continuations)
    (hcd : Veiled before c d) (hleaf : leaf.Agrees true Eq leaf') :
    (probeFrom inner ls leaf c).Agrees true Eq (probeFrom inner ls leaf' d) := by
  induction ls generalizing before c d leaf leaf' with
  | nil => exact hleaf
  | cons ops ls ih =>
      obtain ⟨hops, hls⟩ := List.forall_mem_cons.mp hls
      have hoperand : Agree false true Eq (operand inner .probe ls) (operand inner .probe ls) :=
        Agree.skip fun c d hcd => ih hls hcd (agree_unary h .probe c d hcd)
      have hfirst := ih hls hcd hleaf
      simp only [probeFrom]
      generalize probeFrom inner ls leaf c = o at hfirst
      generalize probeFrom inner ls leaf' d = o' at hfirst
      cases hfirst with
      | ok ht hcd' => exact agree_probeLinks hops hoperand hcd.toSamePlace ht _ _ hcd'
      | fail f f' => exact .fail _ _
      | fatal f f' => exact .fatal f f'
      | stop s => exact .stop s

theorem agree_probeAt (h : inner.Agrees) (hls : ∀ ops ∈ ls, ∀ op ∈ ops, op ∈ continuations) :
    Agree before true Eq (probeAt inner ls) (probeAt inner ls) := by
  intro c d hcd
  obtain ⟨hcd', -⟩ := hcd.skip
  exact agrees_probeFrom h hls hcd' (agree_unary h .probe _ _ hcd')

/-- A first operator and its right operand, which are looked for ahead. -/
theorem agrees_ahead (h : inner.Agrees) (hops : ∀ op ∈ ops, op ∈ continuations)
    (hls : ∀ ops ∈ ls, ∀ op ∈ ops, op ∈ continuations) (hcd : Veiled before c d)
    (hprobed : probed.Agrees true Eq probed') :
    Outcome.Agrees true Eq
      (match probeFrom inner ls probed c with
        | .ok t c₁ => link ops (probeAt inner ls) c t c₁
        | r => r)
      (match probeFrom inner ls probed' d with
        | .ok t d₁ => link ops (probeAt inner ls) d t d₁
        | r => r) := by
  have hfirst := agrees_probeFrom h hls hcd hprobed
  generalize probeFrom inner ls probed c = o at hfirst
  generalize probeFrom inner ls probed' d = o' at hfirst
  cases hfirst with
  | ok ht hcd' => exact agree_link hops (agree_probeAt h hls) hcd.toSamePlace ht _ _ hcd'
  | fail f f' => exact .fail f f'
  | fatal f f' => exact .fatal f f'
  | stop s => exact .stop s

/-- So does reading. -/
theorem agrees_readFrom (h : inner.Agrees) (hls : ∀ ops ∈ ls, ∀ op ∈ ops, op ∈ continuations)
    (hcd : Veiled before c d) (hprobed : probed.Agrees true Eq probed')
    (hleaf : leaf.Agrees true Eq leaf') :
    (readFrom inner ls probed leaf c).Agrees true Eq (readFrom inner ls probed' leaf' d) := by
  induction ls generalizing before c d probed probed' leaf leaf' with
  | nil => exact hleaf
  | cons ops ls ih =>
      obtain ⟨hops, hls⟩ := List.forall_mem_cons.mp hls
      have hoperand : Agree false true Eq (operand inner .read ls) (operand inner .read ls) :=
        Agree.skip fun c d hcd =>
          ih hls hcd (agree_unary h .probe c d hcd) (agree_unary h .read c d hcd)
      have hahead := (agrees_ahead h hops hls hcd hprobed).tentative c.offset d.offset
        (.operation ops) (.operation ops)
      have hread := ih hls hcd hprobed hleaf
      simp only [readFrom]
      generalize Outcome.tentative c.offset (.operation ops) _ = o at hahead ⊢
      generalize Outcome.tentative d.offset (.operation ops) _ = o' at hahead ⊢
      cases hahead with
      | ok _ _ =>
          dsimp only
          generalize readFrom inner ls probed leaf c = q at hread
          generalize readFrom inner ls probed' leaf' d = q' at hread
          cases hread with
          | ok ht hcd' =>
              exact agree_repeatedly
                (fun _ _ ht => agree_link hops hoperand hcd.toSamePlace ht) ht _ _ hcd'
          | fail f f' => exact .fail _ _
          | fatal f f' => exact .fatal f f'
          | stop s => exact .stop s
      | fail f f' => exact (Outcome.Agrees.or (.fail f f') hread).relabel _ _ _ _
      | fatal f f' => exact .fatal f f'
      | stop s => exact .stop s

/-- The binary operators go on with an operand. -/
theorem levels_continue : ∀ ops ∈ levels, ∀ op ∈ ops, op ∈ continuations := by decide

/-- An expression of which the first part has been read. -/
theorem agrees_expressionFrom {plain plain' : Outcome Tree} (h : inner.Agrees) (mode : Mode)
    (hcd : Veiled before c d) (hplain : plain.Agrees true Eq plain') :
    (expressionFrom inner mode plain c).Agrees true Eq (expressionFrom inner mode plain' d) := by
  have hunary := agrees_unaryFrom h mode hcd hplain
  cases mode with
  | probe => exact agrees_probeFrom h levels_continue hcd hunary
  | read => exact agrees_readFrom h levels_continue hcd (agree_unary h .probe c d hcd) hunary

theorem agree_expression (h : inner.Agrees) (mode : Mode) :
    Agree before true Eq (expression inner mode) (expression inner mode) := by
  intro c d hcd
  obtain ⟨hcd', -⟩ := hcd.skip
  exact agrees_expressionFrom h mode hcd' (agree_postfixed h mode _ _ hcd')

end Ember.Grammar
