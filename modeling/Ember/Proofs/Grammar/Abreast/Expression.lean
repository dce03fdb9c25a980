import Ember.Proofs.Grammar.Abreast.Token

/-!
# Grammar — expressions of a text and of a longer one

An expression that is read from a text is read from the longer text as well, and ends at the same
point. An operator or an opening bracket that goes on with it would have to stand on its line, and
inside brackets a text that is over is doomed.

* `Steady`: a parser of trees goes abreast on both texts.
* `steady_primary`, `steady_unary`, `steady_expression`: if the inner parsers are steady, so are
  those of expressions.
-/

namespace Ember.Grammar

open Cursor (isSpace isInlineSpace Prolongs)
open Lexeme
open Outcome (Abreast)

variable {α : Type} {mode : Mode} {w cs ds : List Char} {c d : Cursor} {x : Char} {n : Nat}
  {p : Parser Tree} {inner : Nest}

/-- The parser starts with a token of its own and goes abreast, unless the shorter text is doomed or
over. -/
def Steady (w : List Char) (mode : Mode) (p : Parser Tree) : Prop :=
  ∀ c d, Prolongs w c d →
    Abreast w (Consumes mode c.rest) (Astray c.rest) Tree.Alike (p c) (p d)

/-- The parsers of a nesting depth go abreast. -/
structure Nest.Calm (w : List Char) (inner : Nest) : Prop where
  expression : ∀ mode, Steady w mode (inner.expression mode)
  unary : ∀ mode, Steady w mode (inner.unary mode)
  block : ∀ mode, Steady w mode (inner.block mode)
  brace : ∀ mode c t c', Cursor.Uncommented c.rest → inner.block mode c = .ok t c' → '\x7b' ∈ c.rest
  conditional : ∀ mode c d, Prolongs w c d → (w ≠ [] → ¬ Blank c.rest) →
    Abreast w (Consumes mode c.rest) (Halted c.rest) Tree.Alike (inner.conditional mode c)
      (inner.conditional mode d)

/-- Where the text is not over, only a doomed text differs. -/
theorem Steady.doomed (h : Steady w mode p) (hcd : Prolongs w c d)
    (hne : w ≠ [] → ¬ Blank c.rest) :
    Abreast w (Consumes mode c.rest) (fun _ => Doomed c.rest) Tree.Alike (p c) (p d) :=
  (h c d hcd).lose fun hw ho => ho.resolve_right fun hover => hne hw hover.blank

/-- Where there is more than blank space, both cursors skip to the same token. -/
theorem prolongs_skip (hcd : Prolongs w c d) (hne : w ≠ [] → ¬ Blank c.rest) :
    Prolongs w c.skip d.skip ∧ (w ≠ [] → ¬ Blank c.skip.rest) := by
  have hskip : c.skip.rest = c.rest.dropWhile isSpace := Cursor.skip_rest hcd.left.quiet
  refine ⟨hcd.skip fun hw hnil => hne hw (blank_iff.mpr hnil), fun hw hblank => hne hw ?_⟩
  rw [hskip, blank_iff, dropWhile_dropWhile] at hblank
  exact blank_iff.mpr hblank

/-- What is known after skipping is known before. -/
theorem abreast_of_skip {o o' : Outcome Tree} (hcd : Prolongs w c d)
    (h : Abreast w (Consumes mode c.skip.rest) (fun _ => Doomed c.skip.rest) Tree.Alike o o') :
    Abreast w (Consumes mode c.rest) (fun _ => Doomed c.rest) Tree.Alike o o' := by
  rw [Cursor.skip_rest hcd.left.quiet] at h
  exact (h.mono fun ds hds => hds.of_skip).lose fun _ hdoomed =>
    .of_scan (passage_skip c.rest : Passage mode _ _).scan hdoomed

/-- A steady parser may start after skipping. -/
theorem Steady.skip (h : Steady w mode p) (hcd : Prolongs w c d)
    (hne : w ≠ [] → ¬ Blank c.rest) :
    Abreast w (Consumes mode c.rest) (fun _ => Doomed c.rest) Tree.Alike (p c.skip) (p d.skip) := by
  obtain ⟨hcd', hne'⟩ := prolongs_skip hcd hne
  exact abreast_of_skip hcd (h.doomed hcd' hne')

/-- A parser that reads nothing from a text that is over. -/
theorem steady_of_misses (hmisses : ∀ c : Cursor, Blank c.rest → (p c).Misses)
    (h : ∀ c d, Prolongs w c d → (w ≠ [] → ¬ Blank c.rest) →
      Abreast w (Consumes mode c.rest) (fun _ => Doomed c.rest) Tree.Alike (p c) (p d)) :
    Steady w mode p := by
  intro c d hcd
  by_cases hover : w ≠ [] ∧ Blank c.rest
  · exact .lost hover.1 (.inr ⟨hover.2, hmisses c hover.2⟩)
  · exact (h c d hcd fun hw hblank => hover ⟨hw, hblank⟩).lose fun _ hdoomed => .inl hdoomed

/-! ### Numbers, strings and names -/

/-- A number starts with a token of its own, -/
theorem consumes_number (h : number? (cs.dropWhile isSpace) = some n) :
    Consumes mode cs ((cs.dropWhile isSpace).drop n) := by
  have hpos := number?_pos h
  have hle := number?_le h
  have hshorter : ((cs.dropWhile isSpace).drop n).length < (cs.dropWhile isSpace).length := by
    rw [List.length_drop]
    omega
  refine Consumes.of_skip ⟨passage_number h, begins_skip.mpr ?_, hshorter⟩
  cases hcs : cs.dropWhile isSpace with
  | nil =>
      rw [hcs] at h
      cases h
  | cons x xs =>
      rw [hcs] at h
      have hx : Text.isDigit x := by
        by_contra hx
        rw [number?_eq_none (by simpa using hx)] at h
        cases h
      refine begins_of_mark hcs ?_ ?_ ?_
      · by_contra hstart
        rw [not_isDigit_of_isNameStart (by simpa using hstart)] at hx
        cases hx
      · rintro rfl
        exact absurd hx (by decide)
      · rintro rfl
        exact absurd hx (by decide)

/-- A number ends with its line, so more lines do not make it longer. -/
theorem steady_number (hw : NewLine w) (mode : Mode) : Steady w mode (number mode) := by
  intro c d hcd
  refine (abreast_lexeme hcd rfl (fun _ => number?_append hw.boundary _)
    fun cs n h => number?_le h).bind (fun _ h => .inr h.bind) fun t t' c₁ d₁ _ ht hcd₁ hrest => ?_
  obtain ⟨n, hn, hrest⟩ := hrest
  have hc : Consumes mode c.rest c₁.rest := hrest ▸ consumes_number hn
  rw [ht.text]
  refine .ite Iff.rfl (fun _ => .ok ht.leaf hcd₁ hc) fun _ => ?_
  exact .ite Iff.rfl (fun _ => .stop _) fun _ => .ok ht.leaf hcd₁ hc

/-- and so does a string literal. -/
theorem consumes_string (h : string? (cs.dropWhile isSpace) = some n) :
    Consumes mode cs ((cs.dropWhile isSpace).drop n) := by
  obtain ⟨xs, m, hcs, hm, rfl⟩ := exists_of_string? h
  have hshorter : ((cs.dropWhile isSpace).drop (m + 1)).length < (cs.dropWhile isSpace).length := by
    rw [hcs, List.drop_succ_cons, List.length_cons, List.length_drop]
    omega
  exact Consumes.of_skip ⟨passage_string h,
    begins_skip.mpr (begins_of_mark hcs (by decide) (by decide) (by decide)), hshorter⟩

/-- A string literal does so, too. -/
theorem steady_string (hw : NewLine w) (mode : Mode) : Steady w mode string := by
  intro c d hcd
  refine (abreast_lexeme hcd rfl (string?_append hw) fun cs n h => string?_le h).bind
    (fun _ h => .inr h.bind) fun t t' c₁ d₁ _ ht hcd₁ hrest => ?_
  obtain ⟨n, hn, hrest⟩ := hrest
  rw [ht.text]
  exact .ok ht.leaf hcd₁ (hrest ▸ consumes_string hn)

/-- A keyword that denotes a value needs nothing after it. -/
theorem steady_constant {word : String} {kind : Tree.Kind} {value : Datum} (hw : NewLine w)
    (hword : IsWord word) (hfree : word ∉ ["else", "fun", "return"]) (mode : Mode) :
    Steady w mode (constant word kind value) := by
  intro c d hcd
  refine (abreast_keyword hw hword hcd).bind (fun _ h => .inr h.bind)
    fun t t' c₁ d₁ _ ht hcd₁ hrest => .ok ht.leaf hcd₁ ?_
  exact hrest.2 ▸ consumes_word hrest.1 hfree

/-- Nor does a name. -/
theorem steady_identifier (hw : NewLine w) (mode : Mode) : Steady w mode (identifier mode) := by
  intro c d hcd
  refine (abreast_name hw hcd).bind (fun _ h => .inr h.bind) fun t t' c₁ d₁ _ ht hcd₁ hrest => ?_
  rw [ht.string]
  exact .ok ht.leaf hcd₁ hrest.toConsumes

/-! ### Brackets -/

/-- An opening bracket is open once it has been read. -/
theorem opened_symbol (hx : x ∈ ['(', '[', '\x7b']) (h : cs.dropWhile isSpace = x :: ds) :
    Opened mode cs ds :=
  (passage_skip cs).opened (h ▸ opened_bracket hx)

/-- It is no token that goes on with a statement. -/
theorem begins_bracket (hx : x ∈ ['(', '[', '\x7b']) (h : cs.dropWhile isSpace = x :: ds) :
    Begins mode cs := by
  have hall : ∀ y ∈ ['(', '[', '\x7b'], Text.isNameStart y = false ∧ y ≠ ';' ∧ y ≠ '=' :=
    forall_of_all (by decide)
  obtain ⟨hstart, hsemicolon, hequal⟩ := hall x hx
  exact begins_of_mark h hstart hsemicolon hequal

/-- What has been read up to the closing bracket. -/
theorem Opened.consumes {es : List Char} (h : Opened mode cs ds)
    (hds : ds.dropWhile isSpace = x :: es) (hx : x ∈ [')', ']', '\x7d'])
    (hbegins : Begins mode cs) : Consumes mode cs es := by
  refine ⟨h.close hds hx, hbegins, Nat.lt_trans ?_ h.shorter⟩
  have hle : (ds.dropWhile isSpace).length ≤ ds.length := (List.dropWhile_suffix _).length_le
  rw [hds, List.length_cons] at hle
  omega

/-- Items between commas, inside of brackets. -/
theorem abreast_commaList {item : Parser α} {r : α → α → Prop} {J : List Char → Prop} {P : Prop}
    (hw : NewLine w) (hover : ∀ cs, J cs → Blank cs → P)
    (hcomma : ∀ cs ds, J cs → cs.dropWhile isSpace = ',' :: ds → J ds)
    (hitem : ∀ c d, Prolongs w c d → J c.rest →
      Abreast w (fun ds => J ds ∧ ds.length ≤ c.rest.length) (fun _ => P) r (item c) (item d))
    (hcd : Prolongs w c d) (hJ : J c.rest) :
    Abreast w J (fun _ => P) (List.Forall₂ r) (commaList item c) (commaList item d) := by
  have hfirst : Abreast w J (fun _ => P) (Option.Rel r) (item.optional c) (item.optional d) :=
    (hitem c d hcd hJ).optional hcd (fun ds hds => hds.1) hJ fun _ h => h
  refine hfirst.bind (fun _ h => h) fun a a' c₁ d₁ _ ha hcd₁ hJ₁ => ?_
  cases ha with
  | none => exact .ok .nil hcd₁ hJ₁
  | some ha =>
      refine (abreast_repeatedly (r := List.Forall₂ r) ?_ (fun _ _ c d _ hJ hnil => ?_)
        (.cons ha .nil) hcd₁ hJ₁).bind (fun _ h => h) fun as as' c₂ d₂ _ has hcd₂ hJ₂ => ?_
      · intro as as' c d has hcd hJ
        refine (abreast_symbol hw (x := ',') rfl (by decide) hcd).bind
          (fun _ h => hover _ hJ h.blank) fun _ _ c₁ d₁ _ _ hcd₁ hrest => ?_
        refine (hitem c₁ d₁ hcd₁ (hcomma _ _ hJ hrest)).bind (fun _ h => h)
          fun b b' c₂ d₂ _ hb hcd₂ hJ₂ => .ok (.cons hb has) hcd₂ ⟨hJ₂.1, ?_⟩
        have hle : (c.rest.dropWhile isSpace).length ≤ c.rest.length :=
          (List.dropWhile_suffix _).length_le
        rw [hrest, List.length_cons] at hle
        have := hJ₂.2
        omega
      · exact .inr (hover _ hJ (hnil ▸ by simp [Blank]))
      · exact .ok (List.rel_reverse has) hcd₂ hJ₂

/-- A comma is passed. -/
theorem passage_comma (h : cs.dropWhile isSpace = ',' :: ds) : Passage mode cs ds := by
  have hskip : Passage mode cs (',' :: ds) := h ▸ passage_skip cs
  exact hskip.trans (passage_mark (by decide) (by decide))

/-- Expressions between commas, inside of brackets. -/
theorem abreast_expressions {c₀ : List Char} (hw : NewLine w) (h : inner.Calm w)
    (hcd : Prolongs w c d) (hopened : Opened mode c₀ c.rest) :
    Abreast w (Opened mode c₀) (fun _ => Doomed c₀) (List.Forall₂ Tree.Alike)
      (commaList (inner.expression mode) c) (commaList (inner.expression mode) d) := by
  refine abreast_commaList hw (fun cs hJ hblank => hJ.doomed_of_balance hblank.balance)
    (fun cs ds hJ hcomma => hJ.trans (passage_comma hcomma)) (fun c d hcd hJ => ?_) hcd hopened
  refine ((h.expression mode c d hcd).mono fun ds hds => ?_).lose fun _ ho =>
    hJ.doomed_of_astray ho
  exact ⟨hJ.trans hds.toPassage, hds.toPassage.length_le⟩

/-- The parameters of a function. -/
theorem abreast_parameters (hw : NewLine w) (hcd : Prolongs w c d) :
    Abreast w (Plain mode c.rest) (Astray c.rest) Eq (parameters mode c) (parameters mode d) := by
  refine (abreast_symbol hw (x := '(') rfl (by decide) hcd).bind (fun _ h => .inr h.bind)
    fun _ _ c₁ d₁ _ _ hcd₁ hrest => ?_
  have hopened : Opened mode c.rest c₁.rest := opened_symbol (by decide) hrest
  have hbrace : '\x7b' ∈ c.rest → '\x7b' ∈ c₁.rest := fun hmem => by
    have hdrop := brace_dropWhile hmem
    rw [hrest] at hdrop
    simpa using hdrop
  have hnames : Abreast w (fun ds => Opened mode c.rest ds ∧ ('\x7b' ∈ c.rest → '\x7b' ∈ ds))
      (fun _ => Doomed c.rest) (List.Forall₂ Token.Alike) (commaList (name mode) c₁)
      (commaList (name mode) d₁) := by
    refine abreast_commaList hw (fun cs hJ hblank => hJ.1.doomed_of_balance hblank.balance)
      (fun cs ds hJ hcomma => ⟨hJ.1.trans (passage_comma hcomma), fun hmem => ?_⟩)
      (fun c d hcd hJ => ?_) hcd₁ ⟨hopened, hbrace⟩
    · have hdrop := brace_dropWhile (hJ.2 hmem)
      rw [hcomma] at hdrop
      simpa using hdrop
    · refine ((abreast_name hw hcd).mono fun ds hds => ?_).lose fun _ ho =>
        hJ.1.doomed_of_astray (.inr ho)
      exact ⟨⟨hJ.1.trans hds.toPassage, fun hmem => hds.brace (hJ.2 hmem)⟩,
        hds.toPassage.length_le⟩
  refine hnames.bind (fun _ h => .inl h) fun ns ns' c₂ d₂ _ hns hcd₂ hJ₂ => ?_
  refine (abreast_symbol hw (x := ')') rfl (by decide) hcd₂).bind
    (fun _ h => .inl (hJ₂.1.doomed_of_astray (.inr h))) fun _ _ c₃ d₃ _ _ hcd₃ hclose => ?_
  refine .ok ?_ hcd₃ ⟨hJ₂.1.consumes hclose (by decide) (begins_bracket (by decide) hrest),
    fun hmem => ?_⟩
  · exact (map_eq_of_forall₂ (hns.imp fun _ _ h => h.string)).symm
  · have hdrop := brace_dropWhile (hJ₂.2 hmem)
    rw [hclose] at hdrop
    simpa using hdrop

/-- The word of a function needs a block after it. -/
theorem pending_fun (h : WordAt "fun" (cs.dropWhile isSpace)) :
    Pending mode ('\x7b' ∈ ·) cs ((cs.dropWhile isSpace).drop 3) :=
  (passage_skip cs).pending (pending_function h)

/-- A function that lacks its parameters or its body dooms the text. -/
theorem steady_functionExpr (hw : NewLine w) (h : inner.Calm w) (mode : Mode) :
    Steady w mode (functionExpr inner mode) := by
  intro c d hcd
  refine (abreast_keyword hw (isWord_of_mem_keywords (by decide)) hcd).bind
    (fun _ h => .inr h.bind) fun t t' c₁ d₁ _ ht hcd₁ hrest => ?_
  have hpending : Pending mode ('\x7b' ∈ ·) c.rest c₁.rest := hrest.2 ▸ pending_fun hrest.1
  refine (abreast_parameters hw hcd₁).bind
    (fun _ ho => .inl (hpending.doomed_of_astray (fun hb => hb.not_brace) ho))
    fun ps ps' c₂ d₂ _ hps hcd₂ hrest₂ => ?_
  have hpending₂ := hpending.trans hrest₂.toPassage hrest₂.brace
  refine (h.block mode c₂ d₂ hcd₂).bind
    (fun _ ho => .inl (hpending₂.doomed_of_astray (fun hb => hb.not_brace) ho))
    fun b b' c₃ d₃ hok hb hcd₃ hrest₃ => ?_
  have hpassage := hpending₂.passage (h.brace mode c₂ b c₃ hcd₂.left hok)
  rw [hps]
  refine .ok (ht.nodeAt (.cons hb .nil)) hcd₃ ⟨hpassage.trans hrest₃.toPassage,
    begins_of_word hrest.1 (by decide), Nat.lt_trans hrest₃.shorter hpending₂.shorter⟩

/-- An array that is not closed dooms the text. -/
theorem steady_array (hw : NewLine w) (h : inner.Calm w) (mode : Mode) :
    Steady w mode (array inner mode) := by
  intro c d hcd
  refine (abreast_symbol hw (x := '[') rfl (by decide) hcd).bind (fun _ h => .inr h.bind)
    fun t t' c₁ d₁ _ ht hcd₁ hrest => ?_
  have hopened : Opened mode c.rest c₁.rest := opened_symbol (by decide) hrest
  refine (abreast_expressions hw h hcd₁ hopened).bind (fun _ h => .inl h)
    fun es es' c₂ d₂ _ hes hcd₂ hopened₂ => ?_
  have hclose : ∀ c₃ d₃, Prolongs w c₃ d₃ → Opened mode c.rest c₃.rest →
      Abreast w (Consumes mode c.rest) (Astray c.rest) Tree.Alike
        ((do let _ ← symbol "]"; pure (nodeAt t.start .array .null es) : Parser Tree) c₃)
        ((do let _ ← symbol "]"; pure (nodeAt t'.start .array .null es') : Parser Tree) d₃) := by
    intro c₃ d₃ hcd₃ hopened₃
    refine (abreast_symbol hw (x := ']') rfl (by decide) hcd₃).bind
      (fun _ ho => .inl (hopened₃.doomed_of_astray (.inr ho))) fun _ _ c₄ d₄ _ _ hcd₄ hclose => ?_
    exact .ok (ht.nodeAt hes) hcd₄
      (hopened₃.consumes hclose (by decide) (begins_bracket (by decide) hrest))
  refine .ite ?_ (fun _ => ?_) fun _ => hclose c₂ d₂ hcd₂ hopened₂
  · cases hes <;> simp
  · have hcomma : Abreast w (Opened mode c.rest) (fun _ => Doomed c.rest) (Option.Rel Token.Alike)
        ((symbol ",").optional c₂) ((symbol ",").optional d₂) :=
      (abreast_symbol hw (x := ',') rfl (by decide) hcd₂).optional hcd₂
        (fun ds hds => hopened₂.trans (passage_comma hds)) hopened₂
        fun _ ho => hopened₂.doomed_of_astray (.inr ho)
    exact hcomma.bind (fun _ h => .inl h) fun _ _ c₃ d₃ _ _ hcd₃ hopened₃ =>
      hclose c₃ d₃ hcd₃ hopened₃

/-- So does an expression in parentheses that is not closed. -/
theorem steady_parenthesized (hw : NewLine w) (h : inner.Calm w) (mode : Mode) :
    Steady w mode (parenthesized inner mode) := by
  intro c d hcd
  refine (abreast_symbol hw (x := '(') rfl (by decide) hcd).bind (fun _ h => .inr h.bind)
    fun _ _ c₁ d₁ _ _ hcd₁ hrest => ?_
  have hopened : Opened mode c.rest c₁.rest := opened_symbol (by decide) hrest
  refine (h.expression mode c₁ d₁ hcd₁).bind (fun _ ho => .inl (hopened.doomed_of_astray ho))
    fun e e' c₂ d₂ _ he hcd₂ hrest₂ => ?_
  have hopened₂ := hopened.trans hrest₂.toPassage
  refine (abreast_symbol hw (x := ')') rfl (by decide) hcd₂).bind
    (fun _ ho => .inl (hopened₂.doomed_of_astray (.inr ho))) fun _ _ c₃ d₃ _ _ hcd₃ hclose => ?_
  exact .ok he hcd₃ (hopened₂.consumes hclose (by decide) (begins_bracket (by decide) hrest))

/-! ### Primary expressions with calls and indexes -/

/-- The primary expressions, one by one. -/
theorem steady_primary (hw : NewLine w) (h : inner.Calm w) (mode : Mode) :
    Steady w mode (primary inner mode) := by
  refine steady_of_misses (fun c hblank => (primary_passes (at_nil hblank) (by simp)).misses)
    fun c d hcd hne => ?_
  have hL := lasting_const (α := Tree) (Doomed c.rest)
  refine Abreast.relabel (L := fun _ => Doomed c.rest) ?_ _ _ _ _ fun _ h => h
  refine abreast_firstOf hL ((steady_number hw mode).skip hcd hne) fun _ => ?_
  refine abreast_firstOf hL ((steady_string hw mode).skip hcd hne) fun _ => ?_
  refine abreast_firstOf hL ((steady_constant hw (isWord_of_mem_keywords (by decide)) (by decide)
    mode).skip hcd hne) fun _ => ?_
  refine abreast_firstOf hL ((steady_constant hw (isWord_of_mem_keywords (by decide)) (by decide)
    mode).skip hcd hne) fun _ => ?_
  refine abreast_firstOf hL ((steady_constant hw (isWord_of_mem_keywords (by decide)) (by decide)
    mode).skip hcd hne) fun _ => ?_
  refine abreast_firstOf hL ((steady_functionExpr hw h mode).skip hcd hne) fun _ => ?_
  refine abreast_firstOf hL ((steady_array hw h mode).skip hcd hne) fun _ => ?_
  refine abreast_firstOf hL ((steady_parenthesized hw h mode).skip hcd hne) fun _ => ?_
  exact (steady_identifier hw mode).skip hcd hne

/-- What goes on with an operand: it starts on the same line, and a bracket that it opens is
closed. -/
structure Extends (mode : Mode) (cs ds : List Char) : Prop extends Passage mode cs ds where
  shorter : ds.length < cs.length

/-- An opening bracket on the line is open once it has been read. -/
theorem opened_symbolInLine (hx : x ∈ ['(', '[', '\x7b'])
    (h : cs.dropWhile isInlineSpace = x :: ds) : Opened mode cs ds :=
  (passage_skipInLine cs).opened (h ▸ opened_bracket hx)

/-- A bracket that is closed again goes on with an operand. -/
theorem Opened.extends {es : List Char} (h : Opened mode cs ds)
    (hds : ds.dropWhile isSpace = x :: es) (hx : x ∈ [')', ']', '\x7d']) :
    Extends mode cs es := by
  refine ⟨h.close hds hx, Nat.lt_trans ?_ h.shorter⟩
  have hle : (ds.dropWhile isSpace).length ≤ ds.length := (List.dropWhile_suffix _).length_le
  rw [hds, List.length_cons] at hle
  omega

/-- A call that is not closed dooms the text. -/
theorem abreast_callSuffix {f f' : Tree} (hw : NewLine w) (h : inner.Calm w) (hf : f.Alike f')
    (hcd : Prolongs w c d) :
    Abreast w (Extends mode c.rest) (fun _ => Doomed c.rest) Tree.Alike
      (callSuffix inner mode f c) (callSuffix inner mode f' d) := by
  refine (abreast_symbolInLine (L := fun _ => Doomed c.rest) hw (x := '(') rfl (by decide)
    hcd).bind (fun _ h => h)
    fun t t' c₁ d₁ _ ht hcd₁ hrest => ?_
  have hopened : Opened mode c.rest c₁.rest := opened_symbolInLine (by decide) hrest
  refine (abreast_expressions hw h hcd₁ hopened).bind (fun _ h => h)
    fun es es' c₂ d₂ _ hes hcd₂ hopened₂ => ?_
  refine (abreast_symbol hw (x := ')') rfl (by decide) hcd₂).bind
    (fun _ ho => hopened₂.doomed_of_astray (.inr ho)) fun _ _ c₃ d₃ _ _ hcd₃ hclose => ?_
  exact .ok (Tree.alike_node (.cons hf hes) (unlined_span ht.col _)) hcd₃
    (hopened₂.extends hclose (by decide))

/-- So does an index. -/
theorem abreast_indexSuffix {t₀ t₀' : Tree} (hw : NewLine w) (h : inner.Calm w)
    (ht₀ : t₀.Alike t₀') (hcd : Prolongs w c d) :
    Abreast w (Extends mode c.rest) (fun _ => Doomed c.rest) Tree.Alike
      (indexSuffix inner mode t₀ c) (indexSuffix inner mode t₀' d) := by
  refine (abreast_symbolInLine (L := fun _ => Doomed c.rest) hw (x := '[') rfl (by decide)
    hcd).bind (fun _ h => h)
    fun t t' c₁ d₁ _ ht hcd₁ hrest => ?_
  have hopened : Opened mode c.rest c₁.rest := opened_symbolInLine (by decide) hrest
  refine (h.expression mode c₁ d₁ hcd₁).bind (fun _ ho => hopened.doomed_of_astray ho)
    fun e e' c₂ d₂ _ he hcd₂ hrest₂ => ?_
  have hopened₂ := hopened.trans hrest₂.toPassage
  refine (abreast_symbol hw (x := ']') rfl (by decide) hcd₂).bind
    (fun _ ho => hopened₂.doomed_of_astray (.inr ho)) fun _ _ c₃ d₃ _ _ hcd₃ hclose => ?_
  exact .ok (Tree.alike_node (.cons ht₀ (.cons he .nil)) (unlined_span ht.col _)) hcd₃
    (hopened₂.extends hclose (by decide))

/-- Nothing of a new line goes on with an operand. -/
theorem suffixes_fail {t : Tree} (hw : NewLine w) (hd : d.rest = w) (hq : Cursor.Quiet d.rest) :
    (firstOf [callSuffix inner mode t, indexSuffix inner mode t] d).Fails := by
  have hhead : ∀ x ∈ ['(', '['], (d.rest.dropWhile isInlineSpace).head? ≠ some x := by
    intro x hx
    rw [hd]
    rcases hw with rfl | ⟨v, rfl⟩
    · simp
    · have hall : ∀ x ∈ ['(', '['], x ≠ '\n' := forall_of_all (by decide)
      rw [List.dropWhile_cons_of_neg (by decide)]
      simpa using (hall x hx).symm
  obtain ⟨f, hf⟩ : (callSuffix inner mode t d).Fails :=
    bind_fails (symbolInLine_fails rfl hq (hhead '(' (by decide)))
  obtain ⟨g, hg⟩ : (indexSuffix inner mode t d).Fails :=
    bind_fails (symbolInLine_fails rfl hq (hhead '[' (by decide)))
  rw [firstOf_cons (List.cons_ne_nil _ _), hf, firstOf, hg]
  exact ⟨_, rfl⟩

/-- What goes on with an operand is part of it. -/
theorem Consumes.extend (h : Consumes mode cs ds) {es : List Char} (h' : Extends mode ds es) :
    Consumes mode cs es :=
  h.trans h'.toPassage

/-- Calls and indexes are read as long as there are any. -/
theorem steady_postfixed (hw : NewLine w) (h : inner.Calm w) (mode : Mode) :
    Steady w mode (postfixed inner mode) := by
  intro c d hcd
  refine ((steady_primary hw h mode) c d hcd).bind (fun _ ho => ?_)
    fun t t' c₁ d₁ _ ht hcd₁ hrest => ?_
  · exact ho.imp id Over.bind
  · refine (abreast_repeatedly (J := Consumes mode c.rest) (P := Doomed c.rest) ?_ ?_ ht hcd₁
      hrest).lose fun _ h => .inl h
    · intro t t' c₂ d₂ ht hcd₂ hJ
      refine Abreast.lose (L := fun _ => Doomed c₂.rest) ?_ fun _ h => .of_scan hJ.scan h
      refine Abreast.mono (Q := Extends mode c₂.rest) ?_ fun ds hds => ⟨hJ.extend hds, hds.shorter⟩
      exact abreast_firstOf (lasting_const _) (abreast_callSuffix hw h ht hcd₂) fun _ =>
        abreast_indexSuffix hw h ht hcd₂
    · intro _ t' c₂ d₂ hcd₂ _ hnil
      refine .inl (suffixes_fail hw ?_ hcd₂.right.quiet)
      rw [hcd₂.rest, hnil, List.nil_append]

/-! ### Prefix operators -/

/-- What a prefix operator makes of its operand. -/
theorem abreast_unaryTree {Q : List Char → Prop} {L : Outcome Tree → Prop} {P : Prop}
    {op op' : Token} {o o' : Outcome Tree} (hop : op.Alike op') (hP : ∀ o, P → L o) :
    Abreast w Q (fun _ => P) Tree.Alike o o' →
      Abreast w Q L Tree.Alike
        (match o with | .ok t c => .ok (unaryTree op t) c | r => r)
        (match o' with | .ok t c => .ok (unaryTree op' t) c | r => r) := by
  intro h
  cases h with
  | ok ht hcd hQ =>
      refine .ok ?_ hcd hQ
      rw [unaryTree, unaryTree, hop.string]
      exact Tree.alike_node (.cons ht .nil) (unlined_span hop.col _)
  | fail f f' => exact .fail f f'
  | fatal f f' => exact .fatal f f'
  | stop s => exact .stop s
  | lost hw h => exact .lost hw (hP _ h)

/-- An operator needs an operand after it. -/
theorem pending_spelled {op : String} (hop : op ∈ operators) {p : Char → Bool}
    (hp : ∀ x, p x → isSpace x) (h : cs.dropWhile p = op.toList ++ ds) :
    Pending mode (¬ Blank ·) cs ds := by
  obtain ⟨-, hne, hchars⟩ := operators_spelled op hop
  exact (passage_dropWhile hp cs).pending (h ▸ pending_operator hchars hne)

/-- A prefix operator without an operand dooms the text. -/
theorem steady_prefixed (hw : NewLine w) (h : inner.Calm w) (mode : Mode) :
    Steady w mode (prefixed inner mode) := by
  intro c d hcd
  refine (abreast_prefixOperator hw hcd).bind (fun _ h => .inr h.bind)
    fun op op' c₁ d₁ _ hop hcd₁ hrest => ?_
  obtain ⟨sign, hsign, hrest⟩ := hrest
  have hpending : ∀ mode, Pending mode (¬ Blank ·) c.rest c₁.rest := fun mode =>
    pending_spelled (List.mem_append_left _ hsign) (fun _ h => h) hrest
  have hbegins : Begins mode c.rest := by
    simp only [prefixOperators, List.mem_cons, List.not_mem_nil, or_false] at hsign
    rcases hsign with rfl | rfl <;>
      exact begins_of_mark hrest (by decide) (by decide) (by decide)
  have hoperand : ∀ m, Abreast w (Consumes m c₁.rest) (fun _ => Doomed c.rest) Tree.Alike
      (inner.unary m c₁) (inner.unary m d₁) := fun m =>
    (h.unary m c₁ d₁ hcd₁).lose fun _ ho =>
      (hpending m).doomed_of_astray (fun hb hmore => hmore hb) ho
  have hprobe := (hoperand .probe).tentative op.start.offset op'.start.offset
    (.operation prefixOperators) (.operation prefixOperators)
  have hconsumes : ∀ ds, Consumes mode c₁.rest ds → Consumes mode c.rest ds := fun ds hds =>
    ⟨((hpending mode).passage hds.begins.not_blank).trans hds.toPassage, hbegins,
      Nat.lt_trans hds.shorter (hpending mode).shorter⟩
  cases mode with
  | probe => exact abreast_unaryTree hop (fun _ h => .inl h) (hprobe.mono hconsumes)
  | read =>
      dsimp only
      generalize (inner.unary .probe c₁).tentative op.start.offset (.operation prefixOperators) = o
        at hprobe
      generalize (inner.unary .probe d₁).tentative op'.start.offset (.operation prefixOperators)
        = o' at hprobe
      cases hprobe with
      | ok _ _ _ =>
          exact abreast_unaryTree hop (fun _ h => .inl h) ((hoperand .read).mono hconsumes)
      | fail f f' => exact .fail f f'
      | fatal f f' => exact .fatal f f'
      | stop s => exact .stop s
      | lost hw h => exact .lost hw (.inl h)

/-- With a prefix operator or without one. -/
theorem abreast_unaryFrom {plain plain' : Outcome Tree} (hw : NewLine w) (h : inner.Calm w)
    (hcd : Prolongs w c d) (hne : w ≠ [] → ¬ Blank c.rest)
    (hplain : Abreast w (Consumes mode c.rest) (fun _ => Doomed c.rest) Tree.Alike plain plain') :
    Abreast w (Consumes mode c.rest) (fun _ => Doomed c.rest) Tree.Alike
      (unaryFrom inner mode plain c) (unaryFrom inner mode plain' d) := by
  have hsigned := (steady_prefixed hw h mode).doomed hcd hne
  exact (hsigned.or (lasting_const _) fun _ => hplain).relabel _ _ _ _ fun _ h => h

/-- Where the text is over there is no operand. -/
theorem unary_misses (hblank : Blank c.rest) : (unary inner mode c).Misses := by
  have hat := at_nil hblank
  refine (unary_passes (prefixed_passes hat.at (by simp)) ?_).misses
  exact bind_passes (primary_passes hat.at (by simp))

theorem steady_unary (hw : NewLine w) (h : inner.Calm w) (mode : Mode) :
    Steady w mode (unary inner mode) := by
  refine steady_of_misses (fun c hblank => unary_misses hblank) fun c d hcd hne => ?_
  obtain ⟨hcd', hne'⟩ := prolongs_skip hcd hne
  exact abreast_of_skip hcd
    (abreast_unaryFrom hw h hcd' hne' ((steady_postfixed hw h mode).doomed hcd' hne'))

/-! ### Binary operators -/

variable {ops : List String} {start start' : Cursor}

/-- Trees of operators are alike if their operands are. -/
theorem alike_binaryTree {op op' : Token} {l l' r r' : Tree} (hstart : start'.col = start.col)
    (hop : op.Alike op') (hl : l.Alike l') (hr : r.Alike r') :
    (binaryTree start op l r).Alike (binaryTree start' op' l' r') := by
  simp only [binaryTree, hop.string]
  exact Tree.alike_node (.cons hl (.cons hr .nil)) (unlined_span hstart _)

/-- An operator stands on the line of its left operand, and dooms the text if it has no right
one. -/
theorem abreast_link {l l' : Tree} (hw : NewLine w) (hops : ∀ op ∈ ops, op ∈ operators)
    (hp : Steady w mode p) (hstart : start'.col = start.col) (hl : l.Alike l')
    (hcd : Prolongs w c d) :
    Abreast w (Extends mode c.rest) (fun _ => Doomed c.rest) Tree.Alike
      (link ops p start l c) (link ops p start' l' d) := by
  refine (abreast_operator (L := fun _ => Doomed c.rest) hw hops hcd).bind (fun _ h => h)
    fun op op' c₁ d₁ _ hop hcd₁ hrest => ?_
  obtain ⟨sign, hsign, hrest⟩ := hrest
  have hpending : Pending mode (¬ Blank ·) c.rest c₁.rest :=
    pending_spelled (hops sign hsign) isSpace_of_isInlineSpace hrest
  refine (hp c₁ d₁ hcd₁).bind
    (fun _ ho => hpending.doomed_of_astray (fun hb hmore => hmore hb) ho)
    fun r r' c₂ d₂ _ hr hcd₂ hrest₂ => ?_
  refine .ok (alike_binaryTree hstart hop hl hr) hcd₂ ⟨?_, ?_⟩
  · exact (hpending.passage hrest₂.begins.not_blank).trans hrest₂.toPassage
  · exact Nat.lt_trans hrest₂.shorter hpending.shorter

/-- One more operand of a chain that starts at `cs`. -/
theorem abreast_chain {t t' : Tree} (hw : NewLine w) (hops : ∀ op ∈ ops, op ∈ operators)
    (hp : Steady w mode p) (hstart : start'.col = start.col) (ht : t.Alike t')
    (hcd : Prolongs w c d) (hc : Consumes mode cs c.rest) :
    Abreast w (fun ds => Consumes mode cs ds ∧ ds.length < c.rest.length) (fun _ => Doomed cs)
      Tree.Alike (link ops p start t c) (link ops p start' t' d) := by
  refine ((abreast_link hw hops hp hstart ht hcd).mono fun ds hds => ?_).lose
    fun _ h => .of_scan hc.scan h
  exact ⟨hc.extend hds, hds.shorter⟩

/-- No operator of a new line goes on with an operand. -/
theorem link_fails {t : Tree} (hw : NewLine w) (hops : ∀ op ∈ ops, op ∈ operators)
    (hcd : Prolongs w c d) (hc : c.rest = []) : (link ops p start t d).Fails := by
  refine bind_fails (operator_fails hcd.right.quiet ?_)
  have hinline : w.dropWhile isInlineSpace = w := by
    rcases hw with rfl | ⟨v, rfl⟩
    · rfl
    · exact List.dropWhile_cons_of_neg (by decide)
  rw [hcd.rest, hc, List.nil_append, hinline]
  have happend := operatorAt?_append hw (fun op hop => (operators_spelled op (hops op hop)).1) []
  rw [List.nil_append] at happend
  rw [happend, operatorAt?_nil hops]

/-- A chain of operators that is only probed; an operator at the end dooms the text. -/
theorem abreast_probeLinks {t t' : Tree} (hw : NewLine w) (hops : ∀ op ∈ ops, op ∈ operators)
    (hp : Steady w mode p) (hstart : start'.col = start.col) (ht : t.Alike t')
    (hcd : Prolongs w c d) (hc : Consumes mode cs c.rest) :
    Abreast w (Consumes mode cs) (fun _ => Doomed cs) Tree.Alike
      (probeLinks (link ops p start) t c) (probeLinks (link ops p start') t' d) := by
  have hlink := (abreast_chain hw hops hp hstart ht hcd hc).tentative c.offset d.offset
    (.construct "link") (.construct "link")
  unfold probeLinks
  generalize (link ops p start t c).tentative c.offset (.construct "link") = o at hlink
  generalize (link ops p start' t' d).tentative d.offset (.construct "link") = o' at hlink
  cases hlink with
  | ok ht₁ hcd₁ hc₁ =>
      exact abreast_repeatedly
        (fun _ _ _ _ ht hcd hc => abreast_chain hw hops hp hstart ht hcd hc)
        (fun _ _ _ _ hcd _ hnil => .inl (link_fails hw hops hcd hnil)) ht₁ hcd₁ hc₁.1
  | fail f f' => exact .ok ht hcd hc
  | fatal f f' => exact .fatal f f'
  | stop s => exact .stop s
  | lost hw h => exact .lost hw h

/-! ### Expressions -/

variable {ls : List (List String)} {probed probed' leaf leaf' : Outcome Tree}

/-- The operands of a chain, if expressions of tighter levels go abreast. -/
theorem steady_operand
    (hlevel : ∀ c d, Prolongs w c d → (w ≠ [] → ¬ Blank c.rest) →
      Abreast w (Consumes mode c.rest) (fun _ => Doomed c.rest) Tree.Alike
        (tower inner mode ls c) (tower inner mode ls d)) :
    Steady w mode (operand inner mode ls) := by
  refine steady_of_misses (fun c hblank => ?_) fun c d hcd hne => ?_
  · have hat := at_nil hblank
    refine (tower_passes fun mode => unary_passes (prefixed_passes hat.at.at (by simp)) ?_).misses
    exact bind_passes (primary_passes hat.at.at (by simp))
  · obtain ⟨hcd', hne'⟩ := prolongs_skip hcd hne
    exact abreast_of_skip hcd (hlevel c.skip d.skip hcd' hne')

/-- Probing goes level by level. -/
theorem abreast_probeFrom (hw : NewLine w) (h : inner.Calm w)
    (hls : ∀ ops ∈ ls, ∀ op ∈ ops, op ∈ operators) (hcd : Prolongs w c d)
    (hleaf : Abreast w (Consumes .probe c.rest) (fun _ => Doomed c.rest) Tree.Alike leaf leaf') :
    Abreast w (Consumes .probe c.rest) (fun _ => Doomed c.rest) Tree.Alike
      (probeFrom inner ls leaf c) (probeFrom inner ls leaf' d) := by
  induction ls generalizing c d leaf leaf' with
  | nil => exact hleaf
  | cons ops ls ih =>
      obtain ⟨hops, hls⟩ := List.forall_mem_cons.mp hls
      have hoperand : Steady w .probe (operand inner .probe ls) :=
        steady_operand fun c d hcd hne => ih hls hcd ((steady_unary hw h .probe).doomed hcd hne)
      have hfirst := ih hls hcd hleaf
      simp only [probeFrom]
      generalize probeFrom inner ls leaf c = o at hfirst
      generalize probeFrom inner ls leaf' d = o' at hfirst
      cases hfirst with
      | ok ht hcd₁ hc₁ => exact abreast_probeLinks hw hops hoperand hcd.col ht hcd₁ hc₁
      | fail f f' => exact .fail _ _
      | fatal f f' => exact .fatal f f'
      | stop s => exact .stop s
      | lost hw h => exact .lost hw h

theorem steady_probeAt (hw : NewLine w) (h : inner.Calm w)
    (hls : ∀ ops ∈ ls, ∀ op ∈ ops, op ∈ operators) : Steady w .probe (probeAt inner ls) :=
  steady_operand fun _ _ hcd hne =>
    abreast_probeFrom hw h hls hcd ((steady_unary hw h .probe).doomed hcd hne)

/-- A first operator and its right operand, which are looked for ahead. -/
theorem abreast_ahead (hw : NewLine w) (h : inner.Calm w) (hops : ∀ op ∈ ops, op ∈ operators)
    (hls : ∀ ops ∈ ls, ∀ op ∈ ops, op ∈ operators) (hcd : Prolongs w c d)
    (hprobed : Abreast w (Consumes .probe c.rest) (fun _ => Doomed c.rest) Tree.Alike
      probed probed') :
    Abreast w (fun _ => True) (fun _ => Doomed c.rest) Tree.Alike
      (match probeFrom inner ls probed c with
        | .ok t c₁ => link ops (probeAt inner ls) c t c₁
        | r => r)
      (match probeFrom inner ls probed' d with
        | .ok t d₁ => link ops (probeAt inner ls) d t d₁
        | r => r) := by
  have hfirst := abreast_probeFrom hw h hls hcd hprobed
  generalize probeFrom inner ls probed c = o at hfirst
  generalize probeFrom inner ls probed' d = o' at hfirst
  cases hfirst with
  | ok ht hcd₁ hc₁ =>
      exact (abreast_chain hw hops (steady_probeAt hw h hls) hcd.col ht hcd₁ hc₁).mono
        fun _ _ => trivial
  | fail f f' => exact .fail f f'
  | fatal f f' => exact .fatal f f'
  | stop s => exact .stop s
  | lost hw h => exact .lost hw h

/-- Reading a chain, too, after it has been probed. -/
theorem abreast_readFrom (hw : NewLine w) (h : inner.Calm w)
    (hls : ∀ ops ∈ ls, ∀ op ∈ ops, op ∈ operators) (hcd : Prolongs w c d)
    (hprobed : Abreast w (Consumes .probe c.rest) (fun _ => Doomed c.rest) Tree.Alike
      probed probed')
    (hleaf : Abreast w (Consumes .read c.rest) (fun _ => Doomed c.rest) Tree.Alike leaf leaf') :
    Abreast w (Consumes .read c.rest) (fun _ => Doomed c.rest) Tree.Alike
      (readFrom inner ls probed leaf c) (readFrom inner ls probed' leaf' d) := by
  induction ls generalizing c d probed probed' leaf leaf' with
  | nil => exact hleaf
  | cons ops ls ih =>
      obtain ⟨hops, hls⟩ := List.forall_mem_cons.mp hls
      have hoperand : Steady w .read (operand inner .read ls) :=
        steady_operand fun c d hcd hne => ih hls hcd ((steady_unary hw h .probe).doomed hcd hne)
          ((steady_unary hw h .read).doomed hcd hne)
      have hahead := (abreast_ahead hw h hops hls hcd hprobed).tentative c.offset d.offset
        (.operation ops) (.operation ops)
      have hread := ih hls hcd hprobed hleaf
      simp only [readFrom]
      generalize Outcome.tentative c.offset (.operation ops) _ = o at hahead ⊢
      generalize Outcome.tentative d.offset (.operation ops) _ = o' at hahead ⊢
      cases hahead with
      | ok _ _ _ =>
          dsimp only
          generalize readFrom inner ls probed leaf c = q at hread
          generalize readFrom inner ls probed' leaf' d = q' at hread
          cases hread with
          | ok ht hcd₁ hc₁ =>
              exact abreast_repeatedly
                (fun _ _ _ _ ht hcd₂ hc₂ => abreast_chain hw hops hoperand hcd.col ht hcd₂ hc₂)
                (fun _ _ _ _ hcd _ hnil => .inl (link_fails hw hops hcd hnil)) ht hcd₁ hc₁
          | fail f f' => exact .fail _ _
          | fatal f f' => exact .fatal f f'
          | stop s => exact .stop s
          | lost hw h => exact .lost hw h
      | fail f f' =>
          exact (Abreast.or (lasting_const _) (.fail f f') fun _ => hread).relabel _ _ _ _
            fun _ h => h
      | fatal f f' => exact .fatal f f'
      | stop s => exact .stop s
      | lost hw h => exact .lost hw h

/-- The levels have the operators of the language. -/
theorem levels_spelled : ∀ ops ∈ levels, ∀ op ∈ ops, op ∈ operators := by decide

/-- An expression of which the first part has been read. -/
theorem abreast_expressionFrom {plain plain' : Outcome Tree} (hw : NewLine w) (h : inner.Calm w)
    (hcd : Prolongs w c d) (hne : w ≠ [] → ¬ Blank c.rest)
    (hplain : Abreast w (Consumes mode c.rest) (fun _ => Doomed c.rest) Tree.Alike plain plain') :
    Abreast w (Consumes mode c.rest) (fun _ => Doomed c.rest) Tree.Alike
      (expressionFrom inner mode plain c) (expressionFrom inner mode plain' d) := by
  have hunary := abreast_unaryFrom hw h hcd hne hplain
  cases mode with
  | probe => exact abreast_probeFrom hw h levels_spelled hcd hunary
  | read =>
      exact abreast_readFrom hw h levels_spelled hcd
        ((steady_unary hw h .probe).doomed hcd hne) hunary

theorem steady_expression (hw : NewLine w) (h : inner.Calm w) (mode : Mode) :
    Steady w mode (expression inner mode) := by
  refine steady_of_misses
    (fun c hblank => (expression_passes (at_nil hblank) (by simp [Ends])).misses)
    fun c d hcd hne => ?_
  obtain ⟨hcd', hne'⟩ := prolongs_skip hcd hne
  exact abreast_of_skip hcd
    (abreast_expressionFrom hw h hcd' hne' ((steady_postfixed hw h mode).doomed hcd' hne'))

end Ember.Grammar
