import Ember.Proofs.Grammar.Abreast
import Ember.Proofs.Grammar.Success

/-!
# Grammar — tokens of a text and of a longer one

A token that is read from a text is read from the longer text as well. The two can differ only
where the shorter text is over.

* `Token.Alike`: tokens with the same text, in the same column.
* `Over`: the text is over, and nothing is read.
* `abreast_lexeme`, `abreast_keyword`, `abreast_name`, …: each kind of token on both texts.
-/

namespace Ember.Grammar

open Cursor (isSpace isInlineSpace Prolongs)
open Lexeme
open Outcome (Abreast)

variable {α β : Type} {mode : Mode} {w cs ds : List Char} {c d : Cursor} {x : Char} {n : Nat}
  {Q : List Char → Prop} {r : α → α → Prop} {L : Outcome Token → Prop} {p : Parser α}
  {word text : String}

/-! ### Tokens and their trees -/

/-- The tokens have the same text and stand in the same column. -/
structure Token.Alike (t t' : Token) : Prop where
  text : t'.text = t.text
  col : t'.start.col = t.start.col

variable {t t' : Token} {kind : Tree.Kind} {value : Datum} {ts ts' : List Tree}

/-- The same text, as a string. -/
theorem Token.Alike.string (h : t.Alike t') : t'.string = t.string := by
  rw [Token.string, Token.string, h.text]

/-- Places in the same column are the same up to lines. -/
theorem unlined_span {start start' : Cursor} (h : start'.col = start.col) (text : String) :
    (some (start.span text)).map Span.unlined = (some (start'.span text)).map Span.unlined := by
  simp [Cursor.span, Span.ofToken, Span.unlined, h]

/-- So leaves that show tokens that are alike are alike, -/
theorem Token.Alike.leaf (h : t.Alike t') : (t.leaf kind value).Alike (t'.leaf kind value) := by
  rw [Token.leaf, Token.leaf, h.string]
  exact Tree.alike_node .nil (unlined_span h.col _)

/-- and so are nodes that start at such tokens. -/
theorem Token.Alike.nodeAt (h : t.Alike t') (hts : List.Forall₂ Tree.Alike ts ts') :
    (nodeAt t.start kind value ts).Alike (nodeAt t'.start kind value ts') :=
  Tree.alike_node hts (unlined_span h.col _)

/-! ### The end of the shorter text -/

/-- The text is over, and nothing is read. -/
structure Over (cs : List Char) (o : Outcome α) : Prop where
  blank : Blank cs
  misses : o.Misses

/-- Where the text is over, nothing comes after. -/
theorem Over.bind {f : α → Parser β} (h : Over cs (p c)) : Over cs ((p >>= f) c) :=
  ⟨h.blank, h.misses.bind⟩

/-- Where an expression is read, a text can differ from a longer one if it is doomed or over. -/
def Astray (cs : List Char) (o : Outcome α) : Prop := Doomed cs ∨ Over cs o

/-- A bracket that is open when the text goes astray dooms the text. -/
theorem Opened.doomed_of_astray {o : Outcome α} (h : Opened mode cs ds) (ho : Astray ds o) :
    Doomed cs := by
  rcases ho with hdoomed | hover
  · exact .of_scan h.scan hdoomed
  · exact h.doomed_of_balance hover.blank.balance

/-- So does something that still needs more when the text goes astray. -/
theorem Pending.doomed_of_astray {N : List Char → Prop} {o : Outcome α}
    (h : Pending mode N cs ds) (hN : Blank ds → ¬ N ds) (ho : Astray ds o) : Doomed cs := by
  rcases ho with hdoomed | hover
  · exact .of_scan h.scan hdoomed
  · exact h.lacking (hN hover.blank)

/-- Where a statement is read, a text can also differ because it lacks something and the parse
stops. -/
def Halted (cs : List Char) (o : Outcome α) : Prop := Doomed cs ∨ (balance cs = 0 ∧ o.Halts)

/-- Something is lacking, so nothing is read. -/
def Broken (cs : List Char) (o : Outcome α) : Prop := Doomed cs ∨ (balance cs = 0 ∧ o.Misses)

/-- No alternative is tried after a stop. -/
theorem lasting_halted (cs : List Char) : Lasting (Halted cs : Outcome α → Prop) where
  first o o₁ h := h.imp_right fun ⟨hzero, s, hs⟩ => ⟨hzero, s, by rw [hs]; rfl⟩
  later f o h := h.imp_right fun ⟨hzero, s, hs⟩ => ⟨hzero, s, by rw [hs]; rfl⟩

/-- A stop comes through sequences, -/
theorem Halted.bind {f : α → Parser β} (h : Halted cs (p c)) : Halted cs ((p >>= f) c) :=
  h.imp_right fun h => ⟨h.1, h.2.bind⟩

/-- where failures are final, -/
theorem Halted.cut {o : Outcome α} (h : Halted cs o) : Halted cs o.cut :=
  h.imp_right fun ⟨hzero, s, hs⟩ => ⟨hzero, s, by rw [hs]; rfl⟩

/-- where they bear other names, -/
theorem Halted.relabel {o : Outcome α} (h : Halted cs o) (start : Nat) (label : Cause) :
    Halted cs (o.relabel start label) :=
  h.imp_right fun ⟨hzero, s, hs⟩ => ⟨hzero, s, by rw [hs]; rfl⟩

/-- and where nothing has to be read. -/
theorem Halted.optional (h : Halted cs (p c)) : Halted cs (p.optional c) :=
  h.imp_right fun h => ⟨h.1, h.2.optional⟩

/-- What lacks something reads nothing, whatever comes after. -/
theorem Broken.bind {f : α → Parser β} (h : Broken cs (p c)) : Broken cs ((p >>= f) c) :=
  h.imp_right fun h => ⟨h.1, h.2.bind⟩

/-- Where failures are final, what lacks something stops the parse. -/
theorem Broken.cut {o : Outcome α} (h : Broken cs o) : Halted cs o.cut :=
  h.imp_right fun h => ⟨h.1, h.2.cut⟩

theorem Halted.broken {o : Outcome α} (h : Halted cs o) : Broken cs o :=
  h.imp_right fun h => ⟨h.1, h.2.misses⟩

/-- Text that is passed with balanced brackets does not matter to a stop later on. -/
theorem Passage.halted {o : Outcome α} (h : Passage mode cs ds) (ho : Halted ds o) : Halted cs o :=
  ho.imp (.of_scan h.scan) fun ho => ⟨h.balance.trans ho.1, ho.2⟩

/-- Where a text goes astray after a passage, something is lacking. -/
theorem Passage.broken {o : Outcome α} (h : Passage mode cs ds) (ho : Astray ds o) :
    Broken cs o :=
  ho.imp (.of_scan h.scan) fun ho => ⟨h.balance.trans ho.blank.balance, ho.misses⟩

/-- At the end of the text no token comes next. -/
theorem at_nil (hblank : Blank c.rest) : Cursor.At [] c :=
  Cursor.at_of_rest (b := c.rest) (List.append_nil _).symm hblank (by simp [Cursor.Starts])
    (by simp)

/-- A parser that starts by skipping. -/
theorem abreast_skip (hcd : Prolongs w c d) (hend : ∀ c' : Cursor, c'.rest = [] → (p c').Fails)
    (h : c.skip.rest = c.rest.dropWhile isSpace → c.skip.rest ≠ [] → Prolongs w c.skip d.skip →
      Abreast w Q (Over c.rest) r (p c.skip) (p d.skip)) :
    Abreast w Q (Over c.rest) r (p c.skip) (p d.skip) := by
  have hskip : c.skip.rest = c.rest.dropWhile isSpace := Cursor.skip_rest hcd.left.quiet
  by_cases hnil : c.skip.rest = []
  · have hfails := hend _ hnil
    by_cases hw : w = []
    · -- the longer text is over, too
      refine .of_fails hfails (hend _ ?_)
      rw [Cursor.skip_rest hcd.right.quiet, hcd.rest, hw, List.append_nil, ← hskip, hnil]
    · exact .lost hw ⟨blank_iff.mpr (hskip ▸ hnil), hfails.passes.misses⟩
  · exact h hskip hnil (hcd.skip fun _ => hskip ▸ hnil)

/-- A lexeme that ends within the shorter text is taken from both. -/
theorem abreast_take (hcd : Prolongs w c d) (hn : n ≤ c.rest.length) :
    Abreast w (· = c.rest.drop n) L Token.Alike (Token.take c n) (Token.take d n) := by
  refine .ok ⟨?_, hcd.col⟩ (hcd.advance hn) (Cursor.advance_rest c n)
  rw [hcd.rest, List.take_append_of_le_length hn]

/-! ### Lexemes -/

/-- A lexeme of a class of which the longer text makes no longer one. -/
theorem abreast_lexeme {size? : List Char → Option Nat} {cause : Cause} (hcd : Prolongs w c d)
    (hnil : size? [] = none)
    (hsize : c.rest.dropWhile isSpace ≠ [] →
      size? (c.rest.dropWhile isSpace ++ w) = size? (c.rest.dropWhile isSpace))
    (hle : ∀ cs n, size? cs = some n → n ≤ cs.length) :
    Abreast w (fun ds => ∃ n, size? (c.rest.dropWhile isSpace) = some n ∧
        ds = (c.rest.dropWhile isSpace).drop n)
      (Over c.rest) Token.Alike (lexeme size? cause c) (lexeme size? cause d) := by
  let here (c : Cursor) : Outcome Token :=
    (size? c.rest).elim (.fail ⟨c.offset, cause⟩) (Token.take c)
  have hhere : ∀ c, lexeme size? cause c = here c.skip := by
    intro c
    simp only [lexeme, here]
    cases size? c.skip.rest <;> rfl
  rw [hhere, hhere]
  refine abreast_skip hcd (fun c' hc' => ?_) fun hskip hne hcd' => ?_
  · simp only [here, hc', hnil]
    exact ⟨_, rfl⟩
  · rw [hskip] at hne
    simp only [here, hcd'.rest, hskip, hsize hne]
    cases hn : size? (c.rest.dropWhile isSpace) with
    | none => exact .fail _ _
    | some n =>
        refine (abreast_take hcd' (hskip ▸ hle _ _ hn)).mono fun ds hds => ?_
        exact ⟨n, rfl, hskip ▸ hds⟩

/-- What is read of a lexeme. -/
theorem lexeme_text {size? : List Char → Option Nat} {cause : Cause} {c₁ : Cursor}
    (hc : c.skip.rest = cs) (h : lexeme size? cause c = .ok t c₁) :
    ∃ n, size? cs = some n ∧ t.text = cs.take n := by
  simp only [lexeme, hc] at h
  cases hn : size? cs with
  | none =>
      rw [hn] at h
      cases h
  | some n =>
      rw [hn] at h
      cases h
      exact ⟨n, rfl, by rw [hc]⟩

theorem length_of_toList (htext : text.toList = [x]) : text.length = 1 := by
  rw [← String.length_toList, htext, List.length_singleton]

/-- A text starts with a mark. -/
theorem isPrefixOf_singleton (cs : List Char) :
    [x].isPrefixOf cs = true ↔ ∃ ds, cs = x :: ds := by
  rw [List.isPrefixOf_iff_prefix]
  constructor
  · rintro ⟨ds, rfl⟩
    exact ⟨ds, rfl⟩
  · rintro ⟨ds, rfl⟩
    exact List.prefix_append [x] ds

/-- A mark of one character. -/
theorem abreast_symbol (hw : NewLine w) (htext : text.toList = [x]) (hx : x ≠ '\n')
    (hcd : Prolongs w c d) :
    Abreast w (fun ds => c.rest.dropWhile isSpace = x :: ds) (Over c.rest) Token.Alike
      (symbol text c) (symbol text d) := by
  have hfree : '\n' ∉ text.toList := by
    rw [htext, List.mem_singleton]
    exact Ne.symm hx
  refine (abreast_lexeme hcd ?_ ?_ ?_).mono ?_
  · simp [htext]
  · intro _
    rw [isPrefixOf_append hw hfree]
  · intro cs n hn
    rw [htext] at hn
    split at hn
    · rename_i hspelled
      obtain ⟨ds, rfl⟩ := (isPrefixOf_singleton cs).mp hspelled
      cases hn
      rw [length_of_toList htext, List.length_cons]
      omega
    · cases hn
  · rintro ds ⟨n, hn, rfl⟩
    rw [htext] at hn
    split at hn
    · rename_i hspelled
      obtain ⟨ds, hds⟩ := (isPrefixOf_singleton _).mp hspelled
      cases hn
      rw [hds, length_of_toList htext]
      rfl
    · cases hn

/-! ### Marks and operators on their line -/

/-- A parser that starts by skipping within its line. -/
theorem skipInLine_prolongs (hw : NewLine w) (hcd : Prolongs w c d) :
    d.skipInLine.rest = c.skipInLine.rest ++ w ∧
      (c.skipInLine.rest ≠ [] → Prolongs w c.skipInLine d.skipInLine) := by
  have hc := Cursor.skipInLine_rest hcd.left.quiet
  have hd := Cursor.skipInLine_rest hcd.right.quiet
  refine ⟨?_, fun hne => hcd.skipInLine fun _ => hc ▸ hne⟩
  rw [hc, hd, hcd.rest, ← Cursor.drop_takeWhile, takeWhile_append_newLine hw (by decide),
    drop_append (List.takeWhile_prefix _).length_le, Cursor.drop_takeWhile]

/-- A mark that has to stand on the line. -/
theorem abreast_symbolInLine (hw : NewLine w) (htext : text.toList = [x]) (hx : x ≠ '\n')
    (hcd : Prolongs w c d) :
    Abreast w (fun ds => c.rest.dropWhile isInlineSpace = x :: ds) L Token.Alike
      (symbolInLine text c) (symbolInLine text d) := by
  have hfree : '\n' ∉ text.toList := by
    rw [htext, List.mem_singleton]
    exact Ne.symm hx
  obtain ⟨hrest, hprolongs⟩ := skipInLine_prolongs hw hcd
  have hc := Cursor.skipInLine_rest hcd.left.quiet
  simp only [symbolInLine, hrest, isPrefixOf_append hw hfree]
  split
  · rename_i hspelled
    rw [htext] at hspelled
    obtain ⟨ds, hds⟩ := (isPrefixOf_singleton _).mp hspelled
    have hcd' := hprolongs (by simp [hds])
    refine (abreast_take hcd' ?_).mono fun es hes => ?_
    · rw [length_of_toList htext, hds, List.length_cons]
      omega
    · rw [← hc, hds, hes, hds, length_of_toList htext]
      rfl
  · exact .fail _ _

/-- Lines after a text do not turn its end into an operator. -/
theorem operatorAt?_append {ops : List String} (hw : NewLine w)
    (hops : ∀ op ∈ ops, '\n' ∉ op.toList) (cs : List Char) :
    operatorAt? ops (cs ++ w) = operatorAt? ops cs := by
  unfold operatorAt?
  induction ops with
  | nil => rfl
  | cons op ops ih =>
      obtain ⟨hop, hops⟩ := List.forall_mem_cons.mp hops
      rw [List.find?_cons, List.find?_cons, isPrefixOf_append hw hop, ih hops]

/-- The operators of the language. -/
def operators : List String := prefixOperators ++ levels.flatten

/-- Operators are spelled on one line, in characters of their own. -/
theorem operators_spelled : ∀ op ∈ operators,
    '\n' ∉ op.toList ∧ op.toList ≠ [] ∧ ∀ x ∈ op.toList, x ∈ operatorChars := by
  have hall : ∀ op ∈ operators, '\n' ∉ op.toList ∧ op.toList ≠ [] ∧
      op.toList.all (· ∈ operatorChars) = true := by decide
  exact fun op hop => ⟨(hall op hop).1, (hall op hop).2.1, forall_of_all (hall op hop).2.2⟩

theorem operatorAt?_nil {ops : List String} (hops : ∀ op ∈ ops, op ∈ operators) :
    operatorAt? ops [] = none := by
  cases h : operatorAt? ops [] with
  | none => rfl
  | some op =>
      obtain ⟨hop, ds, hds⟩ := operatorAt?_some h
      exact ((operators_spelled op (hops op hop)).2.1 (List.append_eq_nil_iff.mp hds.symm).1).elim

/-- A binary operator, which has to stand on the line. -/
theorem abreast_operator {ops : List String} (hw : NewLine w) (hops : ∀ op ∈ ops, op ∈ operators)
    (hcd : Prolongs w c d) :
    Abreast w (fun ds => ∃ op ∈ ops, c.rest.dropWhile isInlineSpace = op.toList ++ ds) L
      Token.Alike (operator ops c) (operator ops d) := by
  have hfree : ∀ op ∈ ops, '\n' ∉ op.toList := fun op hop => (operators_spelled op (hops op hop)).1
  obtain ⟨hrest, hprolongs⟩ := skipInLine_prolongs hw hcd
  have hc := Cursor.skipInLine_rest hcd.left.quiet
  simp only [operator, hrest, operatorAt?_append hw hfree]
  cases hop : operatorAt? ops c.skipInLine.rest with
  | none => exact .fail _ _
  | some op =>
      obtain ⟨hmem, ds, hds⟩ := operatorAt?_some hop
      have hne := (operators_spelled op (hops op hmem)).2.1
      have hcd' := hprolongs (by simp [hds, hne])
      refine (abreast_take hcd' ?_).mono fun es hes => ⟨op, hmem, ?_⟩
      · rw [hds, List.length_append, String.length_toList]
        omega
      · rw [← hc, hds, hes, hds, ← String.length_toList, List.drop_left]

/-- A prefix operator, which may start a line. -/
theorem abreast_prefixOperator (hw : NewLine w) (hcd : Prolongs w c d) :
    Abreast w (fun ds => ∃ op ∈ prefixOperators, c.rest.dropWhile isSpace = op.toList ++ ds)
      (Over c.rest) Token.Alike (prefixOperator prefixOperators c)
      (prefixOperator prefixOperators d) := by
  have hmem : ∀ op ∈ prefixOperators, op ∈ operators := fun op hop => List.mem_append_left _ hop
  have hfree : ∀ op ∈ prefixOperators, '\n' ∉ op.toList := fun op hop =>
    (operators_spelled op (hmem op hop)).1
  let here (c : Cursor) : Outcome Token := (operatorAt? prefixOperators c.rest).elim
    (.fail ⟨c.offset, .operator prefixOperators⟩) fun op => Token.take c op.length
  have hhere : ∀ c, prefixOperator prefixOperators c = here c.skip := by
    intro c
    simp only [prefixOperator, here]
    cases operatorAt? prefixOperators c.skip.rest <;> rfl
  rw [hhere, hhere]
  refine abreast_skip hcd (fun c' hc' => ?_) fun hskip hne hcd' => ?_
  · simp only [here, hc', operatorAt?_nil hmem]
    exact ⟨_, rfl⟩
  · simp only [here, hcd'.rest, operatorAt?_append hw hfree]
    cases hop : operatorAt? prefixOperators c.skip.rest with
    | none => exact .fail _ _
    | some op =>
        obtain ⟨hop, ds, hds⟩ := operatorAt?_some hop
        refine (abreast_take hcd' ?_).mono fun es hes => ⟨op, hop, ?_⟩
        · rw [hds, List.length_append, String.length_toList]
          omega
        · rw [← hskip, hds, hes, hds, ← String.length_toList, List.drop_left]

/-! ### Words -/

/-- A keyword that is not run into ends as a name does. -/
theorem endsName_of_startsWord (h : startsWord cs = false) : endsName cs = true := by
  cases cs with
  | nil => rfl
  | cons x xs =>
      simp only [startsWord, Text.isKeywordChar, Bool.or_eq_false_iff] at h
      simp [endsName, h.1]

/-- A word stands on one line. -/
theorem not_newline_of_isWord (hword : IsWord word) : '\n' ∉ word.toList := fun hmem =>
  absurd (isNameChar_of_isWord hword _ hmem) (by decide)

/-- A keyword, which is none if the text after it runs into it. -/
theorem abreast_keyword (hw : NewLine w) (hword : IsWord word) (hcd : Prolongs w c d) :
    Abreast w (fun ds => WordAt word (c.rest.dropWhile isSpace) ∧
        ds = (c.rest.dropWhile isSpace).drop word.length)
      (Over c.rest) Token.Alike (keyword word c) (keyword word d) := by
  refine abreast_skip (p := fun c => if word.toList.isPrefixOf c.rest then
      if c.prev.any Text.isKeywordChar then .fail ⟨c.offset - 1, .keywordPreceded word⟩
      else if startsWord (c.rest.drop word.length) then
        .fail ⟨c.offset + word.length, .keywordFollowed word⟩
      else Token.take c word.length
    else .fail ⟨c.offset, .keyword word⟩) hcd (fun c' hc' => ?_) fun hskip hne hcd' => ?_
  · obtain ⟨y, ys, hy, -⟩ := hword
    simp only [hc', hy, List.isPrefixOf]
    exact ⟨_, rfl⟩
  · simp only [hcd'.rest, isPrefixOf_append hw (not_newline_of_isWord hword), hcd'.clear]
    split
    · rename_i hspelled
      obtain ⟨ds, hds⟩ := List.isPrefixOf_iff_prefix.mp hspelled
      have hle : word.length ≤ c.skip.rest.length := by
        rw [← hds, List.length_append, String.length_toList]
        omega
      split
      · exact .fail _ _
      · rw [drop_append hle, startsWord_append hw.boundary]
        split
        · exact .fail _ _
        · rename_i hstarts
          refine (abreast_take hcd' hle).mono fun es hes => ?_
          rw [← hskip]
          refine ⟨?_, hes⟩
          rw [← hds, ← String.length_toList, List.drop_left] at hstarts
          rw [← hds]
          exact wordAt_append hword (endsName_of_startsWord (by simpa using hstarts))
    · exact .fail _ _

/-- A keyword that needs nothing after it. -/
theorem consumes_word (h : WordAt word (cs.dropWhile isSpace))
    (hword : word ∉ ["else", "fun", "return"]) :
    Consumes mode cs ((cs.dropWhile isSpace).drop word.length) := by
  obtain ⟨helse, hword⟩ := not_or.mp (fun hmem => hword (List.mem_cons.mpr hmem))
  have hinert := inert_name h.size
  exact Consumes.of_skip ⟨passage_word h hword, begins_skip.mpr (begins_of_word h helse),
    hinert.shorter⟩

/-! ### Names -/

/-- A passage that goes over no brace. -/
structure Plain (mode : Mode) (cs ds : List Char) : Prop extends Consumes mode cs ds where
  brace : '\x7b' ∈ cs → '\x7b' ∈ ds

/-- Skipping passes no brace. -/
theorem brace_dropWhile (h : '\x7b' ∈ cs) : '\x7b' ∈ cs.dropWhile isSpace := by
  rw [← List.takeWhile_append_dropWhile (p := isSpace) (l := cs), List.mem_append] at h
  rcases h with h | h
  · exact absurd (List.mem_takeWhile_imp h) (by decide)
  · exact h

/-- Nor does a name. -/
theorem brace_drop_name (h : name? cs = some n) (hmem : '\x7b' ∈ cs) : '\x7b' ∈ cs.drop n := by
  obtain ⟨x, xs, rfl, hx, rfl⟩ := exists_of_name? h
  rw [Nat.add_comm, List.drop_succ_cons, Cursor.drop_takeWhile]
  rcases List.mem_cons.mp hmem with rfl | hmem
  · exact absurd hx (by decide)
  · rw [← List.takeWhile_append_dropWhile (p := Text.isNameChar) (l := xs), List.mem_append] at hmem
    rcases hmem with hmem | hmem
    · exact absurd (List.mem_takeWhile_imp hmem) (by decide)
    · exact hmem

/-- What is read of a name. -/
theorem plain_name (h : name? (cs.dropWhile isSpace) = some n)
    (hfree : mode = .read → String.ofList ((cs.dropWhile isSpace).take n) ∉ keywords) :
    Plain mode cs ((cs.dropWhile isSpace).drop n) := by
  obtain ⟨x, xs, hcs, hx, -⟩ := exists_of_name? h
  have hbegins : Begins mode cs := by
    refine begins_of_nameStart hcs hx fun hmode hword => hfree hmode ?_
    rw [← hcs] at hword
    have hn : n = "else".length := Option.some.inj (h.symm.trans hword.size)
    rw [hn, ← String.length_toList, ← List.prefix_iff_eq_take.mp hword.text, String.ofList_toList]
    decide
  exact ⟨Consumes.of_skip ⟨passage_name h hfree, begins_skip.mpr hbegins,
    (inert_name h).shorter⟩, fun hmem => brace_drop_name h (brace_dropWhile hmem)⟩

/-- A name, which goes on to the end of the shorter text at most. -/
theorem abreast_name (hw : NewLine w) (hcd : Prolongs w c d) :
    Abreast w (Plain mode c.rest) (Over c.rest) Token.Alike (name mode c) (name mode d) := by
  refine (abreast_lexeme hcd rfl (name?_append hw.boundary) fun cs n h => name?_le h).bind
    (fun _ h => h.bind) fun t t' c₁ d₁ hok ht hcd₁ hrest => ?_
  obtain ⟨n, hn, htext⟩ := lexeme_text (Cursor.skip_rest hcd.left.quiet) hok
  obtain ⟨m, hm, hrest⟩ := hrest
  obtain rfl : n = m := Option.some.inj (hn.symm.trans hm)
  refine .ite (by rw [ht.string]) (fun _ => .fail _ _) fun hfree => .ok ht hcd₁ ?_
  refine hrest ▸ plain_name hn fun hmode hmem => hfree ⟨hmode, ?_⟩
  rw [Token.string, htext]
  exact hmem

end Ember.Grammar
