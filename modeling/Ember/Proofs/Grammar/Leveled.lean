import Ember.Proofs.Grammar.Balanced
import Ember.Proofs.Grammar.Spelled

/-!
# Grammar — how many braces are open where something starts

Each parser notes where it starts, and it closes the braces that it opens. So the tree that it gives
starts with as many braces open as there were when the parser was asked, and so do the parts of the
tree, except that the statements of a block are behind one more brace. The place of a node tells
where it starts, and with that how many braces are open there.

As with the shapes of trees there is one lemma for each parser. Here a lemma follows the cursor and
looks at what is read at once, since a part is placed at the cursor where its parser was asked.

* `Cursor.Reached`: a cursor further on in a text, with the braces that are open on the way.
* `Cursor.Opens`: a place with the braces that are open there; `Cursor.Opens.unique`.
* `Tree.Leveled`: a tree whose parts start where the braces around them say.
* `leads_nest`: the parsers of every depth give such trees.
* `parseProgram_leveled`: so does reading a whole program.
-/

namespace Ember

/-! ### Places in a text -/

/-- Of the brackets only braces are counted. -/
def Lexeme.isBrace (x : Char) : Bool := x == '\x7b' || x == '\x7d'

namespace Cursor

open Lexeme (Crosses isBrace)

variable {b b' c d : Cursor} {j k : Int} {s : Option Span}

/-- The second cursor is further on in the text, and on the way `k` more braces are opened than
closed. -/
def Reached (b : Cursor) (k : Int) (c : Cursor) : Prop :=
  (∃ n, c = b.advance n) ∧ Crosses isBrace k b.rest c.rest

/-- The place is that of something that starts with `k` braces open. -/
def Opens (b : Cursor) (k : Int) (s : Option Span) : Prop :=
  ∃ c text, b.Reached k c ∧ s = some (c.span text)

/-- Where nothing has been passed, no brace is open. -/
theorem reached_self (b : Cursor) : b.Reached 0 b := ⟨⟨0, rfl⟩, .refl b.rest⟩

/-- Going on from a cursor that was reached. -/
theorem Reached.go (h : b.Reached j c) (hn : ∃ n, d = c.advance n)
    (hcross : Crosses isBrace k c.rest d.rest) : b.Reached (j + k) d := by
  obtain ⟨⟨m, rfl⟩, hway⟩ := h
  obtain ⟨n, rfl⟩ := hn
  exact ⟨⟨m + n, advance_advance b m n⟩, hway.trans hcross⟩

/-- Skipping opens no brace. -/
theorem Reached.skip (h : b.Reached j c) : b.Reached j c.skip := by
  have hgo := h.go (Grammar.exists_skip_eq_advance c) (Grammar.crosses_skip c).1
  rwa [Int.add_zero] at hgo

/-- Nor does skipping within a line. -/
theorem Reached.skipInLine (h : b.Reached j c) : b.Reached j c.skipInLine := by
  have hgo := h.go (Grammar.exists_skipInLine_eq_advance c) (Grammar.crosses_skipInLine c).1
  rwa [Int.add_zero] at hgo

/-- What starts at a cursor has the braces open that are open there. -/
theorem Reached.opens (h : b.Reached k c) (text : String) : b.Opens k (some (c.span text)) :=
  ⟨c, text, h, rfl⟩

/-- A place of which the braces are known is there. -/
theorem Opens.isSome (h : b.Opens k s) : s.isSome := by
  obtain ⟨c, text, -, rfl⟩ := h
  rfl

/-- The place names the file of the text. -/
theorem Opens.filename (h : b.Opens k s) : s.map (·.filename) = some b.filename := by
  obtain ⟨c, text, ⟨⟨n, rfl⟩, -⟩, rfl⟩ := h
  exact congrArg some (filename_advance b n)

/-- **A place tells how many braces are open.** -/
theorem Opens.unique (h : b.Opens j s) (h' : b.Opens k s) : j = k := by
  obtain ⟨c, text, ⟨⟨m, rfl⟩, hway⟩, rfl⟩ := h
  obtain ⟨c', text', ⟨⟨n, rfl⟩, hway'⟩, hspan⟩ := h'
  simp only [span, Span.ofToken, Option.some.injEq, Span.mk.injEq] at hspan
  obtain ⟨-, hline, hcol, -⟩ := hspan
  rw [rest_eq_of_place hline hcol] at hway
  exact hway.unique hway'

end Cursor

/-! ### Trees -/

/-- The tree starts with `k` braces open, and so do its parts, those of a block behind one more
brace. -/
inductive Tree.Leveled (b : Cursor) : Int → Tree → Prop where
  | node {k : Int} {kind : Tree.Kind} {value : Datum} {ts : List Tree} {s : Option Span}
      (hkind : kind ≠ .block) (hs : b.Opens k s) (h : ∀ t ∈ ts, Leveled b k t) :
      Leveled b k (.node kind value ts s)
  | block {k : Int} {value : Datum} {ts : List Tree} {s : Option Span} (hs : b.Opens k s)
      (h : ∀ t ∈ ts, Leveled b (k + 1) t) : Leveled b k (.node .block value ts s)

namespace Tree.Leveled

variable {b : Cursor} {k : Int} {kind : Tree.Kind} {value : Datum} {t : Tree} {ts : List Tree}
  {s : Option Span}

/-- The braces that are open where a node starts. -/
theorem opens (h : Leveled b k (.node kind value ts s)) : b.Opens k s := by
  cases h <;> assumption

/-- They are open where its parts start, if it is no block. -/
theorem part (h : Leveled b k (.node kind value ts s)) (hkind : kind ≠ .block) (ht : t ∈ ts) :
    Leveled b k t := by
  cases h with
  | node _ _ hts => exact hts t ht
  | block => exact absurd rfl hkind

/-- One more is open where the statements of a block start. -/
theorem statement (h : Leveled b k (.node .block value ts s)) (ht : t ∈ ts) :
    Leveled b (k + 1) t := by
  cases h with
  | node hkind => exact absurd rfl hkind
  | block _ hts => exact hts t ht

/-- The braces that are open where a tree starts. -/
theorem span (h : Leveled b k t) : b.Opens k t.span := by
  cases h <;> assumption

end Tree.Leveled

namespace Grammar

open Cursor (Reached)
open Ember.Tree (Leveled)
open Lexeme (isBrace)

variable {α β : Type} {b c : Cursor} {i j k : Int}

/-- If the outcome is a success, it satisfies `P` and leads to where `k` braces are open. -/
def Outcome.Leads (o : Outcome α) (b : Cursor) (k : Int) (P : α → Prop) : Prop :=
  ∀ a c, o = .ok a c → b.Reached k c ∧ P a

/-- Asked where `j` braces are open, the parser leads to where `k` are open, and what it gives
satisfies `P`. -/
def Parser.Leads (p : Parser α) (b : Cursor) (j k : Int) (P : α → Prop) : Prop :=
  ∀ c, b.Reached j c → (p c).Leads b k P

namespace Outcome

variable {o o' : Outcome α} {P Q : α → Prop}

theorem leads_fail (f : Failure) : (fail f : Outcome α).Leads b k P := fun _ _ h => by cases h

theorem leads_stop (s : Stop) : (stop s : Outcome α).Leads b k P := fun _ _ h => by cases h

/-- Of two outcomes one is the success. -/
theorem Leads.or (h : o.Leads b k P) (h' : o'.Leads b k P) : (o.or o').Leads b k P := by
  intro a c ha
  rcases or_eq_ok.mp ha with ha | ⟨-, ha⟩
  · exact h a c ha
  · exact h' a c ha

/-- The names of failures do not matter to a success. -/
theorem Leads.relabel (h : o.Leads b k P) (start : Nat) (label : Cause) :
    (o.relabel start label).Leads b k P := fun a c ha => h a c (relabel_eq_ok.mp ha)

/-- Nor does it matter whether they are final. -/
theorem Leads.cut (h : o.Leads b k P) : o.cut.Leads b k P := by
  intro a c ha
  cases o with
  | ok a' d => exact h a c ha
  | fail | stop => cases ha

end Outcome

/-! ### Combinators -/

variable {P : α → Prop} {Q : β → Prop} {p : Parser α}

/-- Reading nothing leads nowhere else. -/
theorem leads_pure {a : α} (ha : P a) : (pure a : Parser α).Leads b k k P := by
  rintro c hc a' c' ⟨⟩
  exact ⟨hc, ha⟩

/-- The second parser is asked where the first one leads to. -/
theorem Parser.Leads.bind {f : α → Parser β} (h : p.Leads b i j P)
    (hf : ∀ a, P a → (f a).Leads b j k Q) : (p >>= f).Leads b i k Q := by
  intro c hc r c' hr
  obtain ⟨a, d, ha, hr⟩ := bind_eq_ok.mp hr
  obtain ⟨hd, hP⟩ := h c hc a d ha
  exact hf a hP d hd r c' hr

/-- Either choice leads to the same. -/
theorem leads_ite {C : Prop} [Decidable C] {q : Parser α} (hp : p.Leads b j k P)
    (hq : q.Leads b j k P) : (if C then p else q).Leads b j k P := by
  split
  · exact hp
  · exact hq

theorem Parser.Leads.cut (h : p.Leads b j k P) : p.cut.Leads b j k P := fun c hc => (h c hc).cut

/-- What leads back to as many braces may be left out. -/
theorem Parser.Leads.optional (h : p.Leads b k k P) :
    p.optional.Leads b k k fun o => ∀ a ∈ o, P a := by
  intro c hc o c' ho
  unfold Parser.optional at ho
  split at ho
  · rename_i a _ ha
    cases ho
    obtain ⟨hc', hP⟩ := h c hc a c' ha
    exact ⟨hc', fun a' ha' => Option.some.inj ha' ▸ hP⟩
  · cases ho
    exact ⟨hc, fun _ ha => nomatch ha⟩
  · cases ho

/-- All alternatives lead to the same. -/
theorem leads_firstOf {ps : List (Parser α)} (h : ∀ p ∈ ps, p.Leads b j k P) :
    (firstOf ps).Leads b j k P := by
  intro c hc a c' ha
  obtain ⟨p, hp, ha⟩ := firstOf_eq_ok ha
  exact h p hp c hc a c' ha

/-- Alternatives under a name, which start with skipping. -/
theorem leads_choice {ps : List (Parser α)} (label : Cause) (h : ∀ p ∈ ps, p.Leads b j k P) :
    (choice label ps).Leads b j k P := by
  intro c hc a c' ha
  obtain ⟨p, hp, ha⟩ := choice_eq_ok ha
  exact h p hp c.skip hc.skip a c' ha

/-- A step that leads back to as many braces may be made any number of times. -/
theorem leads_iterate {step : α → Parser α} (hstep : ∀ a, P a → (step a).Leads b k k P)
    (rounds : List Char) {a : α} (ha : P a) : (iterate step rounds a).Leads b k k P := by
  induction rounds generalizing a with
  | nil => exact leads_pure ha
  | cons x rounds ih =>
      intro c hc a' c' ha'
      rw [iterate] at ha'
      dsimp only at ha'
      split at ha'
      · rename_i r d hr
        obtain ⟨hd, hP⟩ := hstep a ha c hc r d hr
        exact ih hP d hd a' c' ha'
      · cases ha'
        exact ⟨hc, ha⟩
      · cases ha'

/-- So it may as long as it succeeds. -/
theorem leads_repeatedly {step : α → Parser α} (hstep : ∀ a, P a → (step a).Leads b k k P) {a : α}
    (ha : P a) : (repeatedly step a).Leads b k k P :=
  fun c => leads_iterate hstep c.rest ha c

/-! ### Tokens -/

/-- The parser of a single token skips to its token and goes on after it. -/
def Parser.Takes (p : Parser Token) : Prop :=
  ∀ c t c', p c = .ok t c' →
    (t.start = c.skip ∨ t.start = c.skipInLine) ∧ ∃ n, c' = t.start.advance n

/-- A lexeme of a class. -/
theorem takes_lexeme (size? : List Char → Option Nat) (cause : Cause) :
    (lexeme size? cause).Takes := by
  intro c t c' ht
  obtain ⟨n, -, htake⟩ := lexeme_eq_ok.mp ht
  obtain ⟨rfl, rfl⟩ := take_eq_ok.mp htake
  exact ⟨.inl rfl, n, rfl⟩

/-- A mark. -/
theorem takes_symbol (text : String) : (symbol text).Takes := takes_lexeme _ _

/-- A mark that has to stand on the line. -/
theorem takes_symbolInLine (text : String) : (symbolInLine text).Takes := by
  intro c t c' ht
  obtain ⟨rfl, rfl⟩ := take_eq_ok.mp (symbolInLine_eq_ok.mp ht).2
  exact ⟨.inr rfl, _, rfl⟩

/-- A binary operator, which has to stand on the line. -/
theorem takes_operator (ops : List String) : (operator ops).Takes := by
  intro c t c' ht
  obtain ⟨op, -, htake⟩ := operator_eq_ok.mp ht
  obtain ⟨rfl, rfl⟩ := take_eq_ok.mp htake
  exact ⟨.inr rfl, _, rfl⟩

/-- A prefix operator, which may start a line. -/
theorem takes_prefixOperator (ops : List String) : (prefixOperator ops).Takes := by
  intro c t c' ht
  obtain ⟨op, -, htake⟩ := prefixOperator_eq_ok.mp ht
  obtain ⟨rfl, rfl⟩ := take_eq_ok.mp htake
  exact ⟨.inl rfl, _, rfl⟩

theorem takes_keyword (word : String) : (keyword word).Takes := by
  intro c t c' ht
  obtain ⟨rfl, rfl⟩ := take_eq_ok.mp (keyword_eq_ok ht).2.2
  exact ⟨.inl rfl, _, rfl⟩

theorem takes_name (mode : Mode) : (name mode).Takes := by
  intro c t c' ht
  obtain ⟨n, -, htake, -⟩ := name_eq_ok ht
  obtain ⟨rfl, rfl⟩ := take_eq_ok.mp htake
  exact ⟨.inl rfl, n, rfl⟩

/-- A token starts where it was asked for, up to what is skipped. -/
theorem Parser.Takes.leadsBy {p : Parser Token} (h : p.Takes) (hp : p.Crosses isBrace k) :
    p.Leads b j (j + k) fun t => b.Reached j t.start := by
  intro c hc t c' ht
  obtain ⟨hstart, n, rfl⟩ := h c t c' ht
  have hreached : b.Reached j t.start := by
    rcases hstart with hstart | hstart
    · exact hstart ▸ hc.skip
    · exact hstart ▸ hc.skipInLine
  obtain ⟨m, hm⟩ : ∃ m, t.start = c.advance m := by
    rcases hstart with hstart | hstart
    · exact hstart ▸ exists_skip_eq_advance c
    · exact hstart ▸ exists_skipInLine_eq_advance c
  refine ⟨hc.go ⟨m + n, ?_⟩ (hp c t _ ht), hreached⟩
  rw [hm, Cursor.advance_advance]

/-- A token that is no brace. -/
theorem Parser.Takes.leads {p : Parser Token} (h : p.Takes) (hp : p.Crosses isBrace 0) :
    p.Leads b k k fun t => b.Reached k t.start := by
  have hleads : p.Leads b k (k + 0) fun t => b.Reached k t.start := h.leadsBy hp
  rwa [Int.add_zero] at hleads

/-- A mark that is no brace. -/
theorem leads_symbol {text : String} (x : Char)
    (htext : text.toList = [x] ∧ Lexeme.isMark x ∧ Lexeme.weightOf isBrace x = 0) :
    (symbol text).Leads b k k fun t => b.Reached k t.start :=
  (takes_symbol text).leads (crosses_symbol x htext)

theorem leads_keyword {word : String} (hmem : word ∈ Lexeme.keywords) :
    (keyword word).Leads b k k fun t => b.Reached k t.start :=
  (takes_keyword word).leads (crosses_keyword hmem)

theorem leads_name (mode : Mode) : (name mode).Leads b k k fun t => b.Reached k t.start :=
  (takes_name mode).leads (crosses_name mode)

/-- At the end of the text blank space and comments are skipped. -/
theorem leads_endOfText : endOfText.Leads b k k fun _ => True := by
  intro c hc u c' hu
  obtain ⟨-, rfl⟩ := endOfText_eq_ok.mp hu
  exact ⟨hc.skip, trivial⟩

/-- A list of items that all start with the same braces open. -/
theorem leads_commaList {item : Parser α} (h : item.Leads b k k P) :
    (commaList item).Leads b k k fun items => ∀ a ∈ items, P a := by
  refine h.optional.bind fun first hfirst => ?_
  cases first with
  | none => exact leads_pure fun a ha => absurd ha List.not_mem_nil
  | some x =>
      have hone : ∀ a ∈ [x], P a := List.forall_mem_singleton.mpr (hfirst x rfl)
      refine (leads_repeatedly (P := fun items => ∀ a ∈ items, P a) (fun items hitems => ?_)
        hone).bind fun items hitems => ?_
      · refine (leads_symbol ',' (by decide)).bind fun _ _ => h.bind fun next hnext => ?_
        exact leads_pure (List.forall_mem_cons.mpr ⟨hnext, hitems⟩)
      · exact leads_pure fun a ha => hitems a (List.mem_reverse.mp ha)

/-- Parameters are in parentheses, which do not count. -/
theorem leads_parameters : (parameters .read).Leads b k k fun _ => True := by
  refine (leads_symbol '(' (by decide)).bind fun _ _ => ?_
  refine (leads_commaList (leads_name .read)).bind fun _ _ => ?_
  exact (leads_symbol ')' (by decide)).bind fun _ _ => leads_pure trivial

/-! ### Trees -/

/-- A node that is no block, with a part in it or without one. -/
theorem leveled_node {start : Cursor} {kind : Tree.Kind} {value : Datum} {ts : List Tree}
    {text : String} (hkind : kind ≠ .block) (hstart : b.Reached k start)
    (hts : ∀ t ∈ ts, Leveled b k t) : Leveled b k (.node kind value ts (some (start.span text))) :=
  .node hkind (hstart.opens text) hts

/-- A node without parts. -/
theorem leveled_leaf {start : Cursor} {kind : Tree.Kind} {value : Datum} {text : String}
    (hkind : kind ≠ .block) (hstart : b.Reached k start) :
    Leveled b k (.node kind value [] (some (start.span text))) :=
  leveled_node hkind hstart fun _ ht => absurd ht List.not_mem_nil

/-- A node with a single part. -/
theorem leveled_one {start : Cursor} {kind : Tree.Kind} {value : Datum} {t : Tree} {text : String}
    (hkind : kind ≠ .block) (hstart : b.Reached k start) (ht : Leveled b k t) :
    Leveled b k (.node kind value [t] (some (start.span text))) :=
  leveled_node hkind hstart (List.forall_mem_singleton.mpr ht)

/-- A node with two parts. -/
theorem leveled_two {start : Cursor} {kind : Tree.Kind} {value : Datum} {t u : Tree} {text : String}
    (hkind : kind ≠ .block) (hstart : b.Reached k start) (ht : Leveled b k t)
    (hu : Leveled b k u) : Leveled b k (.node kind value [t, u] (some (start.span text))) :=
  leveled_node hkind hstart (List.forall_mem_cons.mpr ⟨ht, List.forall_mem_singleton.mpr hu⟩)

/-- When they read, the parsers lead to where as many braces are open as before, and the trees that
they give start there as well. -/
structure NestLeads (b : Cursor) (inner : Nest) : Prop where
  expression : ∀ k, (inner.expression .read).Leads b k k (Leveled b k)
  unary : ∀ k, (inner.unary .read).Leads b k k (Leveled b k)
  block : ∀ k, (inner.block .read).Leads b k k (Leveled b k)
  conditional : ∀ k, (inner.conditional .read).Leads b k k (Leveled b k)

variable {inner : Nest}

/-! ### Expressions -/

/-- A number, which may still be refused for its digits. -/
theorem leads_number : (number .read).Leads b k k (Leveled b k) := by
  refine ((takes_lexeme _ _).leads
    (crosses_lexeme fun _ _ _ hn => Lexeme.crosses_number hn)).bind fun t ht => ?_
  have hleaf (value : Datum) : (pure (t.leaf .number value) : Parser Tree).Leads b k k
      (Leveled b k) := leads_pure (leveled_leaf (by decide) ht)
  exact leads_ite (hleaf _) (leads_ite (fun _ _ => Outcome.leads_stop _) (hleaf _))

/-- A string literal; the braces in it do not count. -/
theorem leads_string : string.Leads b k k (Leveled b k) :=
  ((takes_lexeme _ _).leads (crosses_lexeme fun _ _ _ hn => Lexeme.crosses_string hn)).bind
    fun _ ht => leads_pure (leveled_leaf (by decide) ht)

theorem leads_constant {word : String} (hmem : word ∈ Lexeme.keywords) {kind : Tree.Kind}
    (hkind : kind ≠ .block) (value : Datum) :
    (constant word kind value).Leads b k k (Leveled b k) :=
  (leads_keyword hmem).bind fun _ ht => leads_pure (leveled_leaf hkind ht)

/-- A function starts at its word, and its body at the brace. -/
theorem leads_functionExpr (h : NestLeads b inner) :
    (functionExpr inner .read).Leads b k k (Leveled b k) := by
  refine (leads_keyword (by decide)).bind fun t ht => leads_parameters.bind fun ps _ => ?_
  exact (h.block k).bind fun body hbody => leads_pure (leveled_one (by decide) ht hbody)

/-- An array, with a comma after the last element or without one. -/
theorem leads_array (h : NestLeads b inner) : (array inner .read).Leads b k k (Leveled b k) := by
  refine (leads_symbol '[' (by decide)).bind fun t ht => ?_
  refine (leads_commaList (h.expression k)).bind fun items hitems => ?_
  have hclose : (symbol "]" >>= fun _ => pure (nodeAt t.start .array .null items)).Leads b k k
      (Leveled b k) := (leads_symbol ']' (by decide)).bind fun _ _ =>
    leads_pure (leveled_node (by decide) ht hitems)
  refine leads_ite ?_ hclose
  exact (leads_symbol ',' (by decide)).optional.bind fun _ _ => hclose

/-- An expression in parentheses starts within them. -/
theorem leads_parenthesized (h : NestLeads b inner) :
    (parenthesized inner .read).Leads b k k (Leveled b k) := by
  refine (leads_symbol '(' (by decide)).bind fun _ _ => (h.expression k).bind fun e he => ?_
  exact (leads_symbol ')' (by decide)).bind fun _ _ => leads_pure he

/-- The primary expressions, one by one. -/
theorem leads_primary (h : NestLeads b inner) :
    (primary inner .read).Leads b k k (Leveled b k) := by
  refine leads_choice _ fun p hp => ?_
  simp only [List.mem_cons, List.not_mem_nil, or_false] at hp
  rcases hp with rfl | rfl | rfl | rfl | rfl | rfl | rfl | rfl | rfl
  · exact leads_number
  · exact leads_string
  · exact leads_constant (by decide) (by decide) _
  · exact leads_constant (by decide) (by decide) _
  · exact leads_constant (by decide) (by decide) _
  · exact leads_functionExpr h
  · exact leads_array h
  · exact leads_parenthesized h
  · exact (leads_name .read).bind fun _ ht => leads_pure (leveled_leaf (by decide) ht)

/-- A call is placed at its parenthesis, after what is called. -/
theorem leads_callSuffix (h : NestLeads b inner) {t : Tree} (ht : Leveled b k t) :
    (callSuffix inner .read t).Leads b k k (Leveled b k) := by
  refine ((takes_symbolInLine "(").leads (crosses_symbolInLine '(' (by decide))).bind
    fun mark hmark => (leads_commaList (h.expression k)).bind fun args hargs => ?_
  refine (leads_symbol ')' (by decide)).bind fun _ _ => leads_pure ?_
  exact leveled_node (by decide) hmark (List.forall_mem_cons.mpr ⟨ht, hargs⟩)

/-- An index is placed at its bracket, after what is indexed. -/
theorem leads_indexSuffix (h : NestLeads b inner) {t : Tree} (ht : Leveled b k t) :
    (indexSuffix inner .read t).Leads b k k (Leveled b k) := by
  refine ((takes_symbolInLine "[").leads (crosses_symbolInLine '[' (by decide))).bind
    fun mark hmark => (h.expression k).bind fun i hi => ?_
  refine (leads_symbol ']' (by decide)).bind fun _ _ => leads_pure ?_
  exact leveled_two (by decide) hmark ht hi

/-- Calls and indexes are applied from left to right. -/
theorem leads_postfixed (h : NestLeads b inner) :
    (postfixed inner .read).Leads b k k (Leveled b k) := by
  refine (leads_primary h).bind fun t ht => leads_repeatedly (fun t ht => ?_) ht
  refine leads_firstOf fun p hp => ?_
  simp only [List.mem_cons, List.not_mem_nil, or_false] at hp
  rcases hp with rfl | rfl
  · exact leads_callSuffix h ht
  · exact leads_indexSuffix h ht

/-- A prefix operator and its operand, which is read where it has been probed. -/
theorem leads_prefixed (h : NestLeads b inner) :
    (prefixed inner .read).Leads b k k (Leveled b k) := by
  refine ((takes_prefixOperator _).leads crosses_prefixOperator).bind fun op hop => ?_
  intro c hc t c' ht
  dsimp only at ht
  split at ht
  · rename_i e d he
    cases ht
    split at he
    · obtain ⟨hd, he⟩ := h.unary k c hc e _ he
      exact ⟨hd, leveled_one (by decide) hop he⟩
    · rename_i hne
      exact (hne _ _ rfl he).elim
  · rename_i hne
    exact (hne _ _ ht).elim

/-- With a prefix operator or without one. -/
theorem leads_unaryFrom (h : NestLeads b inner) {plain : Outcome Tree}
    (hplain : plain.Leads b k (Leveled b k)) (hc : b.Reached k c) :
    (unaryFrom inner .read plain c).Leads b k (Leveled b k) :=
  ((leads_prefixed h c hc).or hplain).relabel _ _

theorem leads_unary (h : NestLeads b inner) : (unary inner .read).Leads b k k (Leveled b k) :=
  fun c hc => leads_unaryFrom h (leads_postfixed h c.skip hc.skip) hc.skip

/-- A binary operator is placed where its chain starts. -/
theorem leveled_binaryTree {start : Cursor} {op : Token} {l r : Tree} (hstart : b.Reached k start)
    (hl : Leveled b k l) (hr : Leveled b k r) : Leveled b k (binaryTree start op l r) := by
  refine leveled_two ?_ hstart hl hr
  split <;> decide

/-- A chain of operators, level by level; what is only probed is not passed. -/
theorem leads_readFrom (h : NestLeads b inner) {ls : List (List String)} (hls : ls ⊆ levels)
    {probed leaf : Outcome Tree} (hleaf : leaf.Leads b k (Leveled b k)) {start : Cursor}
    (hstart : b.Reached k start) :
    (readFrom inner ls probed leaf start).Leads b k (Leveled b k) := by
  induction ls generalizing probed leaf start with
  | nil => exact hleaf
  | cons ops tighter ih =>
      have hops : ∀ op ∈ ops, isUnbracketed op :=
        unbracketed_operators ops (List.mem_cons_of_mem _ (hls List.mem_cons_self))
      have htighter : tighter ⊆ levels := fun x hx => hls (List.mem_cons_of_mem _ hx)
      rw [readFrom]
      split
      · exact Outcome.leads_stop _
      · exact ((Outcome.leads_fail _).or (ih htighter hleaf hstart)).relabel _ _
      · split
        · rename_i t c ht
          obtain ⟨hc, ht⟩ := ih htighter hleaf hstart t c ht
          -- each operand of the chain is read in turn, from where the one before has ended
          refine leads_repeatedly (fun l hl => ?_) ht c hc
          refine ((takes_operator ops).leads (crosses_operator hops)).bind fun op _ => ?_
          refine Parser.Leads.bind (P := Leveled b k) (fun c hc => ?_) fun r hr =>
            leads_pure (leveled_binaryTree hstart hl hr)
          exact ih htighter (leads_unary h c.skip hc.skip) hc.skip
        · exact (ih htighter hleaf hstart).relabel _ _

/-- An expression of which the first part has been read. -/
theorem leads_expressionFrom (h : NestLeads b inner) {plain : Outcome Tree}
    (hplain : plain.Leads b k (Leveled b k)) (hc : b.Reached k c) :
    (expressionFrom inner .read plain c).Leads b k (Leveled b k) :=
  leads_readFrom h (fun _ => id) (leads_unaryFrom h hplain hc) hc

theorem leads_expression (h : NestLeads b inner) :
    (expression inner .read).Leads b k k (Leveled b k) := by
  intro c hc
  have hplain := leads_postfixed h c.skip hc.skip
  have hfrom := leads_expressionFrom h hplain hc.skip
  unfold expression
  dsimp only
  exact hfrom

/-! ### Statements -/

/-- A binding starts at its word. -/
theorem leads_letStatement (h : NestLeads b inner) :
    (letStatement inner .read).Leads b k k (Leveled b k) := by
  refine (leads_keyword (by decide)).bind fun t ht => Parser.Leads.cut ?_
  refine ((takes_lexeme _ _).leads crosses_mutMark).optional.bind fun _ _ => ?_
  refine (leads_name .read).bind fun _ _ => ?_
  refine ((takes_lexeme _ _).leads crosses_assignSign).bind fun _ _ => ?_
  exact (leads_expression h).bind fun e he => leads_pure (leveled_one (by decide) ht he)

/-- So does a function with a name. -/
theorem leads_functionDef (h : NestLeads b inner) :
    (functionDef inner .read).Leads b k k (Leveled b k) := by
  refine (leads_keyword (by decide)).bind fun t ht => (leads_name .read).bind fun _ _ => ?_
  refine leads_parameters.bind fun _ _ => (h.block k).cut.bind fun body hbody => ?_
  exact leads_pure (leveled_one (by decide) ht hbody)

/-- What follows `else` is a conditional or a block. -/
theorem leads_elseBranch (h : NestLeads b inner) :
    (elseBranch inner .read).Leads b k k (Leveled b k) := by
  refine (leads_keyword (by decide)).bind fun _ _ =>
    Parser.Leads.cut (leads_choice _ fun p hp => ?_)
  simp only [List.mem_cons, List.not_mem_nil, or_false] at hp
  rcases hp with rfl | rfl
  · exact h.conditional k
  · exact h.block k

/-- A conditional, with a second branch or without one. -/
theorem leads_ifStatement (h : NestLeads b inner) :
    (ifStatement inner .read).Leads b k k (Leveled b k) := by
  refine (leads_keyword (by decide)).bind fun t ht => ?_
  refine (leads_expression h).cut.bind fun c hc => (h.block k).cut.bind fun y hy => ?_
  refine (leads_elseBranch h).optional.bind fun n hn => leads_pure (leveled_node (by decide) ht ?_)
  have hparts : ∀ t ∈ n.toList, Leveled b k t := fun t ht => hn t (Option.mem_toList.mp ht)
  exact List.forall_mem_cons.mpr ⟨hc, List.forall_mem_cons.mpr ⟨hy, hparts⟩⟩

theorem leads_whileStatement (h : NestLeads b inner) :
    (whileStatement inner .read).Leads b k k (Leveled b k) := by
  refine (leads_keyword (by decide)).bind fun t ht => (leads_expression h).cut.bind fun c hc => ?_
  exact (h.block k).cut.bind fun body hbody => leads_pure (leveled_two (by decide) ht hc hbody)

theorem leads_forStatement (h : NestLeads b inner) :
    (forStatement inner .read).Leads b k k (Leveled b k) := by
  refine (leads_keyword (by decide)).bind fun t ht => Parser.Leads.cut ?_
  refine (leads_name .read).bind fun _ _ => (leads_keyword (by decide)).bind fun _ _ => ?_
  refine (leads_expression h).bind fun e he => (h.block k).bind fun body hbody => ?_
  exact leads_pure (leveled_two (by decide) ht he hbody)

theorem leads_bareReturn : bareReturn.Leads b k k (Leveled b k) := by
  refine ((takes_lexeme _ _).leads (crosses_lexeme fun cs n _ hn => ?_)).bind fun _ ht =>
    leads_pure (leveled_leaf (by decide) ht)
  obtain ⟨rest, rfl, rfl, hrest, -⟩ := Lexeme.exists_of_bareReturn? hn
  exact Lexeme.crosses_word (isWord_of_mem_keywords (by decide)) hrest

/-- An assignment to an element takes over the parts of its target. -/
theorem leveled_assignTree? {start : Cursor} {t v tree : Tree} (hstart : b.Reached k start)
    (ht : Leveled b k t) (hv : Leveled b k v) (h : assignTree? start t v = some tree) :
    Leveled b k tree := by
  unfold assignTree? at h
  split at h
  · cases h
    exact leveled_one (by decide) hstart hv
  · cases h
    refine leveled_node (by decide) hstart (List.forall_mem_append.mpr ⟨fun u hu => ?_, ?_⟩)
    · exact ht.part (by decide) hu
    · exact List.forall_mem_singleton.mpr hv
  · cases h

/-- An assignment starts where its target does. -/
theorem leads_assignFrom (h : NestLeads b inner) {target : Outcome Tree}
    (htarget : target.Leads b k (Leveled b k)) {start : Cursor} (hstart : b.Reached k start) :
    (assignFrom inner .read target start).Leads b k (Leveled b k) := by
  cases target with
  | fail => exact Outcome.leads_fail _
  | stop => exact Outcome.leads_stop _
  | ok t c =>
      obtain ⟨hc, ht⟩ := htarget t c rfl
      refine ((takes_lexeme _ _).leads crosses_assignSign).bind (f := fun _ => Parser.bind _ _)
        (fun _ _ => (leads_expression h).bind fun v hv => ?_) c hc
      cases hassign : assignTree? start t v with
      | none => exact fun _ _ => Outcome.leads_fail _
      | some tree => exact leads_pure (leveled_assignTree? hstart ht hv hassign)

/-- A statement of an expression starts where the expression does. -/
theorem leads_expressionStatementFrom (h : NestLeads b inner) {plain : Outcome Tree}
    (hplain : plain.Leads b k (Leveled b k)) {start : Cursor} (hstart : b.Reached k start) :
    (expressionStatementFrom inner .read plain start).Leads b k (Leveled b k) := by
  intro t c ht
  unfold expressionStatementFrom at ht
  split at ht
  · rename_i e d he
    cases ht
    obtain ⟨hd, he⟩ := leads_expressionFrom h hplain hstart e _ he
    exact ⟨hd, leveled_one (by decide) hstart he⟩
  · rename_i hne
    exact (hne _ _ ht).elim

/-- A block that stands as a statement is placed where the block is. -/
theorem leads_blockStatement (h : NestLeads b inner) :
    (blockStatement inner .read).Leads b k k (Leveled b k) :=
  (h.block k).bind fun _ hbody =>
    leads_pure (.node (by decide) hbody.span (List.forall_mem_singleton.mpr hbody))

/-- The statements, one by one; an expression is tried last. -/
theorem leads_bareStatement (h : NestLeads b inner) :
    (bareStatement inner .read).Leads b k k (Leveled b k) := by
  intro c hc
  have hplain := leads_postfixed h c.skip hc.skip
  unfold bareStatement
  dsimp only
  split
  · split
    · exact (Outcome.leads_fail _).or (leads_expressionStatementFrom h hplain hc.skip)
    · exact leads_assignFrom h hplain hc.skip
  · refine leads_firstOf (fun p hp => ?_) c.skip hc.skip
    simp only [List.mem_cons, List.not_mem_nil, or_false] at hp
    rcases hp with rfl | rfl | rfl | rfl | rfl | rfl | rfl | rfl
    · exact leads_letStatement h
    · exact leads_functionDef h
    · exact leads_ifStatement h
    · exact leads_whileStatement h
    · exact leads_forStatement h
    · exact leads_bareReturn
    · refine (leads_keyword (by decide)).bind fun t ht => ?_
      exact (leads_expression h).bind fun e he => leads_pure (leveled_one (by decide) ht he)
    · exact leads_blockStatement h

/-- Statements, each with a semicolon or without one. -/
theorem leads_statements (h : NestLeads b inner) :
    (statements inner .read).Leads b k k fun ts => ∀ t ∈ ts, Leveled b k t := by
  have hstatement : (statement inner .read).Leads b k k (Leveled b k) :=
    (leads_bareStatement h).bind fun _ ht =>
      (leads_symbol ';' (by decide)).optional.bind fun _ _ => leads_pure ht
  refine (leads_repeatedly (P := fun ts => ∀ t ∈ ts, Leveled b k t) (fun ts hts => ?_)
    (fun _ ht => absurd ht List.not_mem_nil)).bind fun ts hts => ?_
  · exact hstatement.bind fun t ht => leads_pure (List.forall_mem_cons.mpr ⟨ht, hts⟩)
  · exact leads_pure fun t ht => hts t (List.mem_reverse.mp ht)

/-- The statements of a block are behind its brace. -/
theorem leads_block (h : NestLeads b inner) : (block inner .read).Leads b k k (Leveled b k) := by
  have hopen : (symbol "\x7b").Leads b k (k + 1) fun t => b.Reached k t.start :=
    (takes_symbol _).leadsBy (crosses_symbol '\x7b' (by decide))
  have hclose : (symbol "\x7d").Leads b (k + 1) (k + 1 + -1) fun t => b.Reached (k + 1) t.start :=
    (takes_symbol _).leadsBy (crosses_symbol '\x7d' (by decide))
  rw [Int.add_neg_cancel_right] at hclose
  refine hopen.bind fun t ht => (leads_statements h).bind fun ts hts => ?_
  exact hclose.cut.bind fun _ _ => leads_pure (.block (ht.opens _) hts)

/-- One depth further out. -/
theorem leads_enclose (h : NestLeads b inner) : NestLeads b (enclose inner) := by
  refine ⟨fun k => ?_, fun k => ?_, fun k => ?_, fun k => ?_⟩
  · rw [enclose_expression]
    exact leads_expression h
  · rw [enclose_unary]
    exact leads_unary h
  · rw [enclose_block]
    exact leads_block h
  · rw [enclose_conditional]
    exact leads_ifStatement h

/-- The parsers of every depth lead to where as many braces are open as before. -/
theorem leads_nest (b : Cursor) (n : Nat) : NestLeads b (nest n) := by
  induction n with
  | zero =>
      exact ⟨fun _ _ _ => Outcome.leads_stop _, fun _ _ _ => Outcome.leads_stop _,
        fun _ _ _ => Outcome.leads_stop _, fun _ _ _ => Outcome.leads_stop _⟩
  | succ n ih => exact leads_enclose ih

/-- A program is its statements and the end of the text. -/
theorem leads_program : program.Leads b k k fun ts => ∀ t ∈ ts, Leveled b k t :=
  (leads_statements (leads_nest b maxDepth)).bind fun _ hts =>
    leads_endOfText.bind fun _ _ => leads_pure hts

end Grammar

/-- **The place of a node tells how many braces are open around it.** The statements of a program
start with none. -/
theorem parseProgram_leveled {filename source : String} {ts : List Tree}
    (h : parseProgram filename source = .ok ts) :
    ∀ t ∈ ts, t.Leveled (.start filename (scanned source)) 0 := by
  unfold parseProgram parseWith at h
  dsimp only at h
  split at h
  · cases h
    rename_i ts c hts
    exact (Grammar.leads_program _ (Cursor.reached_self _) _ _ hts).2
  all_goals cases h

end Ember
