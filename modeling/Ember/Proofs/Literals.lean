import Ember.Parse
import Ember.Proofs.Grammar.Canonical
import Ember.Proofs.Tree.Tabs

/-!
# Literals — what a string literal denotes

The inside of a string literal is a row of characters and escapes. `Text.Denotes` says which text it
stands for: six escapes stand for a character each, and everything else stands for itself, the
backslash of an unknown escape included.

The parser does not see the text as it was written, but with its tabs replaced by spaces. So a
literal has the value that its inside denotes if and only if no tab was typed into it; a tab that is
written as an escape is kept.

* `expression_of_primary`: a primary expression that ends the text is the whole expression.
* `Text.Denotes`: what the inside of a literal stands for.
* `literal_value`: the tree of a literal.
-/

namespace Ember.Grammar

open Cursor (Quiet)

variable {inner : Nest} {mode : Mode} {t : Tree} {c d : Cursor} {cs : List Char}

/-! ### A primary expression at the end of a text -/

/-- No operator is read at the end of the text. -/
theorem operator_fails_at_end {ops : List String} (hops : ops ∈ levels) (hd : d.rest = []) :
    (operator ops d).Fails := by
  have hnone : ∀ ops ∈ levels, operatorAt? ops [] = none := by decide
  refine operator_fails ?_ ?_
  · rw [hd]
    rfl
  · rw [hd]
    exact hnone ops hops

/-- At the end of the text a primary expression has no call or index after it. -/
theorem postfixed_of_primary (h : primary inner mode c = .ok t d) (hd : d.rest = []) :
    postfixed inner mode c = .ok t d := by
  rw [postfixed, bind_eq, Parser.bind, h]
  simp only [repeatedly, hd, iterate]
  rfl

/-- A primary expression with no sign before it, and at the end of the text, is the whole unary
expression. -/
theorem unary_of_primary (hskip : c.skip = c)
    (hsign : (prefixOperator prefixOperators c).Fails) (h : primary inner mode c = .ok t d)
    (hd : d.rest = []) : unary inner mode c = .ok t d := by
  obtain ⟨f, hf⟩ : (prefixed inner mode c).Fails := by
    unfold prefixed
    exact bind_fails hsign
  simp only [unary, unaryFrom, hskip, hf, postfixed_of_primary h hd]
  rfl

/-- At the end of the text there are no links to probe. -/
theorem probeFrom_at_end {ls : List (List String)} (hls : ls ⊆ levels) (hd : d.rest = []) :
    probeFrom inner ls (.ok t d) c = .ok t d := by
  induction ls with
  | nil => rfl
  | cons ops ls ih =>
      obtain ⟨hops, hls⟩ := List.cons_subset.mp hls
      simp only [probeFrom, ih hls, probeLinks, link]
      obtain ⟨f, hf⟩ := operator_fails_at_end hops hd
      simp only [bind_eq, Parser.bind, hf, Outcome.tentative]

/-- At the end of the text there are no links to read. -/
theorem readFrom_at_end {ls : List (List String)} (hls : ls ⊆ levels) (hd : d.rest = []) :
    readFrom inner ls (.ok t d) (.ok t d) c = .ok t d := by
  induction ls with
  | nil => rfl
  | cons ops ls ih =>
      obtain ⟨hops, hls⟩ := List.cons_subset.mp hls
      obtain ⟨f, hf⟩ := operator_fails_at_end hops hd
      simp only [readFrom, probeFrom_at_end hls hd, ih hls, link, bind_eq, Parser.bind, hf,
        Outcome.tentative, Outcome.or, Outcome.relabel]

/-- **A primary expression that ends the text is the whole expression**, and nothing in it is
nested. -/
theorem expression_of_primary (hskip : c.skip = c)
    (hsign : (prefixOperator prefixOperators c).Fails)
    (h : ∀ mode, primary inner mode c = .ok t d) (hd : d.rest = []) :
    expression inner .read c = .ok t d := by
  have hunary : ∀ mode, unary inner mode c = .ok t d := fun mode =>
    unary_of_primary hskip hsign (h mode) hd
  rw [expression_eq (by rw [hskip, hskip]), hskip]
  simp only [tower, hunary]
  exact readFrom_at_end (List.Subset.refl levels) hd

theorem number_fails_at_quote (hskip : c.skip = c) (h : c.rest = Text.doubleQuote :: cs) :
    (number mode c).Fails := by
  have hrest : c.skip.rest = Text.doubleQuote :: cs := by rw [hskip, h]
  exact bind_fails (lexeme_fails hrest rfl)

/-- Where a double quote stands, the string literal is the form of primary expression that is read.
-/
theorem primary_of_string (hskip : c.skip = c) (h : c.rest = Text.doubleQuote :: cs)
    (ht : string c = .ok t d) : primary inner mode c = .ok t d := by
  obtain ⟨f, hf⟩ : (number mode c).Fails := number_fails_at_quote hskip h
  simp only [primary, choice, hskip, firstOf, hf, ht, Outcome.or, Outcome.relabel]

/-- An expression that reaches the end of the text is the whole of it. -/
theorem soleExpression_eq_ok (h : expression (nest maxDepth) .read c = .ok t d)
    (hd : d.rest = []) : ∃ d', soleExpression c = .ok t d' := by
  have hend : d.skip.rest = [] := by
    have hlength := d.skip_rest_length
    rw [hd] at hlength
    exact List.length_eq_zero_iff.mp (Nat.le_zero.mp hlength)
  refine ⟨d.skip, ?_⟩
  simp only [soleExpression, bind_eq, Parser.bind, h, endOfText, hend]
  rfl

end Ember.Grammar

namespace Ember.Text

/-! ### What the inside of a literal denotes -/

/-- The inside of a string literal stands for a text. What it is made of are characters other than
the quotation mark, the backslash and the newline, and backslashes each with a character on the same
line. -/
inductive Denotes : List Char → List Char → Prop where
  | nil : Denotes [] []
  | plain {x : Char} {cs vs : List Char} (hx : x ≠ doubleQuote ∧ x ≠ '\\' ∧ x ≠ '\n')
      (h : Denotes cs vs) : Denotes (x :: cs) (x :: vs)
  | escape {x y : Char} {cs vs : List Char}
      (hx : (x, y) ∈ [('n', '\n'), ('t', '\t'), ('r', '\r'), ('\\', '\\'),
        (doubleQuote, doubleQuote), ('0', '\x00')])
      (h : Denotes cs vs) : Denotes ('\\' :: x :: cs) (y :: vs)
  | unknown {x : Char} {cs vs : List Char} (hx : x ∉ ['n', 't', 'r', '\\', doubleQuote, '0'])
      (hline : x ≠ '\n') (h : Denotes cs vs) : Denotes ('\\' :: x :: cs) ('\\' :: x :: vs)

variable {x y : Char} {cs vs ws : List Char}

/-- The six escapes are the documented ones. -/
theorem escapeOf?_of_mem (h : (x, y) ∈ [('n', '\n'), ('t', '\t'), ('r', '\r'), ('\\', '\\'),
    (doubleQuote, doubleQuote), ('0', '\x00')]) : escapeOf? x = some y ∧ x ≠ '\n' ∧ x ≠ '\t' := by
  simp only [List.mem_cons, Prod.mk.injEq, List.not_mem_nil, or_false] at h
  rcases h with ⟨rfl, rfl⟩ | ⟨rfl, rfl⟩ | ⟨rfl, rfl⟩ | ⟨rfl, rfl⟩ | ⟨rfl, rfl⟩ | ⟨rfl, rfl⟩ <;>
    decide

/-- Every character besides the six stands for no escape. -/
theorem escapeOf?_eq_none (h : x ∉ ['n', 't', 'r', '\\', doubleQuote, '0']) :
    escapeOf? x = none := by
  simp only [List.mem_cons, List.not_mem_nil, or_false, not_or] at h
  obtain ⟨hn, ht, hr, hslash, hquote, hzero⟩ := h
  rw [escapeOf?.eq_7 x hn ht hr hslash hquote hzero]

/-- A character other than a backslash stands for itself. -/
theorem unescape_cons (hx : x ≠ '\\') (cs : List Char) : unescape (x :: cs) = x :: unescape cs := by
  rw [unescape]
  intro y ys heq
  exact absurd heq hx

/-- The scan for escapes computes what a literal denotes. The character after an unknown escape's
backslash is scanned again, but it starts no escape. -/
theorem Denotes.unescape_eq (h : Denotes cs vs) : unescape cs = vs := by
  induction h with
  | nil => rfl
  | plain hx _ ih => rw [unescape_cons hx.2.1, ih]
  | escape hx _ ih =>
      rw [unescape, (escapeOf?_of_mem hx).1]
      exact congrArg _ ih
  | @unknown x cs vs hx _ _ ih =>
      have hslash : x ≠ '\\' := fun heq => hx (by rw [heq]; decide)
      rw [unescape, escapeOf?_eq_none hx]
      exact congrArg _ ((unescape_cons hslash cs).trans (congrArg _ ih))

/-- The inside of a literal ends at the first quotation mark that is not escaped. -/
theorem Denotes.stringBody? (h : Denotes cs vs) (rest : List Char) :
    Lexeme.stringBody? (cs ++ doubleQuote :: rest) = some (cs.length + 1) := by
  have hescape : ∀ (x : Char) (cs : List Char), x ≠ '\n' →
      Lexeme.stringBody? (cs ++ doubleQuote :: rest) = some (cs.length + 1) →
      Lexeme.stringBody? ('\\' :: x :: cs ++ doubleQuote :: rest)
        = some (('\\' :: x :: cs).length + 1) := by
    intro x cs hx ih
    rw [List.cons_append, List.cons_append, Lexeme.stringBody?, if_neg hx, ih]
    rfl
  induction h with
  | nil => rfl
  | @plain x cs vs hx _ ih =>
      rw [List.cons_append, Lexeme.stringBody?, if_neg hx.1, if_neg (by simp [hx.2]), ih]
      · rfl
      · intro y ys heq
        exact absurd heq hx.2.1
  | escape hx _ ih => exact hescape _ _ (escapeOf?_of_mem hx).2.1 ih
  | unknown _ hline _ ih => exact hescape _ _ hline ih

/-! ### Tabs inside a literal -/

theorem denotes_spaces (k : Nat) (h : Denotes cs vs) :
    Denotes (List.replicate k ' ' ++ cs) (List.replicate k ' ' ++ vs) := by
  induction k with
  | zero => exact h
  | succ k ih => exact .plain (by decide) ih

/-- A text of single characters followed by what tab expansion makes of the rest. -/
theorem expandTabsFrom_cons (hx : x ≠ '\t') (column : Nat) (cs : List Char) :
    ∃ column', expandTabsFrom column (x :: cs) = x :: expandTabsFrom column' cs := by
  rw [expandTabsFrom, if_neg hx]
  split
  · exact ⟨0, rfl⟩
  · exact ⟨column + 1, rfl⟩

/-- A tab becomes one blank or more. -/
theorem expandTabsFrom_tab (column : Nat) (cs : List Char) :
    ∃ k column', expandTabsFrom column ('\t' :: cs)
      = ' ' :: (List.replicate k ' ' ++ expandTabsFrom column' cs) := by
  have hgap : 0 < tabWidth - column % tabWidth := Nat.sub_pos_of_lt (Nat.mod_lt _ (by decide))
  obtain ⟨k, hk⟩ := Nat.exists_eq_add_one.mpr hgap
  exact ⟨k, _, by rw [expandTabsFrom, if_pos rfl, hk]; rfl⟩

/-- Tabs are expanded from left to right: the second part starts at the column where the first ends.
-/
theorem expandTabsFrom_append (column : Nat) (as bs : List Char) :
    ∃ column', expandTabsFrom column (as ++ bs)
      = expandTabsFrom column as ++ expandTabsFrom column' bs := by
  induction as generalizing column with
  | nil => exact ⟨column, rfl⟩
  | cons x as ih =>
      rw [List.cons_append, expandTabsFrom, expandTabsFrom]
      split
      · obtain ⟨column', h⟩ := ih (column + (tabWidth - column % tabWidth))
        exact ⟨column', by simp only [h, List.append_assoc]⟩
      · split
        · obtain ⟨column', h⟩ := ih 0
          exact ⟨column', by rw [h, List.cons_append]⟩
        · obtain ⟨column', h⟩ := ih (column + 1)
          exact ⟨column', by rw [h, List.cons_append]⟩

theorem tabless_cons : Tabless (x :: cs) ↔ x ≠ '\t' ∧ Tabless cs := List.forall_mem_cons

/-- Without its tabs a literal is still one, and it denotes the same text if and only if there were
none. -/
theorem Denotes.expandTabs (h : Denotes cs vs) (column : Nat) :
    ∃ ws, Denotes (expandTabsFrom column cs) ws ∧ (ws = vs ↔ Tabless cs) := by
  induction h generalizing column with
  | nil => exact ⟨[], .nil, by decide⟩
  | @plain x cs vs hx h ih =>
      by_cases htab : x = '\t'
      · subst htab
        obtain ⟨k, column', heq⟩ := expandTabsFrom_tab column cs
        obtain ⟨ws, hws, -⟩ := ih column'
        refine ⟨' ' :: (List.replicate k ' ' ++ ws), ?_, by simp [tabless_cons]⟩
        rw [heq]
        exact .plain (by decide) (denotes_spaces k hws)
      · obtain ⟨column', heq⟩ := expandTabsFrom_cons htab column cs
        obtain ⟨ws, hws, hsame⟩ := ih column'
        exact ⟨x :: ws, heq ▸ .plain hx hws, by simp [tabless_cons, htab, hsame]⟩
  | @escape x y cs vs hx h ih =>
      obtain ⟨-, -, htab⟩ := escapeOf?_of_mem hx
      obtain ⟨column', heq⟩ := expandTabsFrom_cons (x := '\\') (by decide) column (x :: cs)
      obtain ⟨column'', heq'⟩ := expandTabsFrom_cons htab column' cs
      obtain ⟨ws, hws, hsame⟩ := ih column''
      refine ⟨y :: ws, ?_, by simp [tabless_cons, htab, hsame]⟩
      rw [heq, heq']
      exact .escape hx hws
  | @unknown x cs vs hx hline h ih =>
      obtain ⟨column', heq⟩ := expandTabsFrom_cons (x := '\\') (by decide) column (x :: cs)
      by_cases htab : x = '\t'
      -- a backslash before a tab is left before the first of the spaces
      · subst htab
        obtain ⟨k, column'', heq'⟩ := expandTabsFrom_tab column' cs
        obtain ⟨ws, hws, -⟩ := ih column''
        refine ⟨'\\' :: ' ' :: (List.replicate k ' ' ++ ws), ?_, by simp [tabless_cons]⟩
        rw [heq, heq']
        exact .unknown (by decide) (by decide) (denotes_spaces k hws)
      · obtain ⟨column'', heq'⟩ := expandTabsFrom_cons htab column' cs
        obtain ⟨ws, hws, hsame⟩ := ih column''
        refine ⟨'\\' :: x :: ws, ?_, by simp [tabless_cons, htab, hsame]⟩
        rw [heq, heq']
        exact .unknown hx hline hws

/-- A text without quotation marks, backslashes and newlines denotes itself. -/
theorem denotes_self (h : ∀ x ∈ cs, x ≠ doubleQuote ∧ x ≠ '\\' ∧ x ≠ '\n') : Denotes cs cs := by
  induction cs with
  | nil => exact .nil
  | cons x cs ih =>
      obtain ⟨hx, hcs⟩ := List.forall_mem_cons.mp h
      exact .plain hx (ih hcs)

end Ember.Text

namespace Ember

open Text (Denotes doubleQuote)

variable {inside value : List Char}

/-! ### Parsing a literal -/

/-- A text between quotation marks, as it is typed. -/
def enquoted (inside : List Char) : List Char := doubleQuote :: (inside ++ [doubleQuote])

/-- A quoted text is scanned with the tabs inside expanded from the column after its quote. -/
theorem scanned_enquoted (inside : List Char) :
    scanned (String.ofList (enquoted inside)) = enquoted (Text.expandTabsFrom 1 inside) := by
  obtain ⟨column, hlast⟩ := Text.expandTabsFrom_append 1 inside [doubleQuote]
  rw [scanned, String.toList_ofList, enquoted, enquoted]
  exact congrArg _ hlast

/-- A quoted text that denotes a value is read as that value, over its whole length. -/
theorem string_enquoted (h : Denotes inside value) (filename : String) :
    ∃ c, c.rest = [] ∧ Grammar.string (.start filename (enquoted inside)) = .ok (.node .string
      (.str (String.ofList value)) []
      (some (Span.ofToken filename 1 1 (String.ofList (enquoted inside))))) c := by
  have hsize : Lexeme.string? (enquoted inside) = some (enquoted inside).length := by
    rw [enquoted, Lexeme.string?, if_pos rfl, h.stringBody?]
    simp
  have hinside : Grammar.stringInside (enquoted inside) = inside := by
    rw [Grammar.stringInside, enquoted, List.drop_one, List.tail_cons, List.dropLast_concat]
  have hskip : (Cursor.start filename (enquoted inside)).skip
      = .start filename (enquoted inside) := rfl
  refine ⟨(Cursor.start filename (enquoted inside)).advance (enquoted inside).length, ?_, ?_⟩
  · rw [Cursor.advance_rest]
    exact List.drop_length
  · simp only [Grammar.string, Grammar.bind_eq, Grammar.Parser.bind, Grammar.lexeme, hskip]
    simp only [Cursor.start, hsize, Grammar.Token.take, List.take_length, hinside, h.unescape_eq]
    rfl

/-- A literal on its own has the value that its inside denotes once its tabs are replaced. -/
theorem parseExpression_enquoted (filename : String)
    (h : Denotes (Text.expandTabsFrom 1 inside) value) :
    parseExpression filename (String.ofList (enquoted inside)) = .ok (.node .string
      (.str (String.ofList value)) []
      (some (Span.ofToken filename 1 1
        (String.ofList (enquoted (Text.expandTabsFrom 1 inside)))))) := by
  obtain ⟨c, hc, hstring⟩ := string_enquoted h filename
  have hsign : (Grammar.prefixOperator Grammar.prefixOperators
      (.start filename (enquoted (Text.expandTabsFrom 1 inside)))).Fails := ⟨_, rfl⟩
  obtain ⟨d, hsole⟩ := Grammar.soleExpression_eq_ok (Grammar.expression_of_primary rfl hsign
    (fun mode => Grammar.primary_of_string rfl rfl hstring) hc) hc
  simp only [parseExpression, parseWith, scanned_enquoted, hsole]

/-- **What a string literal denotes**: a literal on its own is read as a string. The tabs in it are
replaced by spaces first, so its value is what its inside denotes if and only if no tab was typed
into it. A text without quotation marks, backslashes and newlines denotes itself. -/
theorem literal_value (filename : String) (h : Denotes inside value) :
    (∃ read, Denotes (Text.expandTabsFrom 1 inside) read ∧
      parseExpression filename (String.ofList (enquoted inside)) = .ok (.node .string
        (.str (String.ofList read)) []
        (some (Span.ofToken filename 1 1
          (String.ofList (enquoted (Text.expandTabsFrom 1 inside)))))) ∧
      (read = value ↔ Tabless inside)) ∧
    ((∀ x ∈ inside, x ≠ doubleQuote ∧ x ≠ '\\' ∧ x ≠ '\n') → value = inside) := by
  constructor
  · obtain ⟨read, hread, hsame⟩ := h.expandTabs 1
    exact ⟨read, hread, parseExpression_enquoted filename hread, hsame⟩
  · intro hplain
    rw [← h.unescape_eq, (Text.denotes_self hplain).unescape_eq]

/-- A tab that is written as an escape is kept, and so is the backslash of an unknown escape. -/
theorem escapedTab_kept :
    ∃ span, parseExpression "main" "\"a\\tb\\q\""
      = .ok (.node .string (.str "a\tb\\q") [] span) := by
  have hdenotes : Denotes ['a', '\\', 't', 'b', '\\', 'q'] ['a', '\t', 'b', '\\', 'q'] :=
    .plain (by decide) (.escape (by decide) (.plain (by decide)
      (.unknown (by decide) (by decide) .nil)))
  obtain ⟨⟨read, -, hparse, hsame⟩, -⟩ := literal_value "main" hdenotes
  obtain rfl := hsame.mpr (by decide)
  exact ⟨_, hparse⟩

/-- A tab that is typed between the quotation marks denotes itself, but is read as spaces. -/
theorem typedTab_replaced :
    Denotes ['a', '\t', 'b'] ['a', '\t', 'b'] ∧
      ¬ ∃ span, parseExpression "main" (String.ofList (enquoted ['a', '\t', 'b']))
        = .ok (.node .string (.str (String.ofList ['a', '\t', 'b'])) [] span) := by
  refine ⟨Text.denotes_self (Grammar.forall_of_all (by decide)), fun ⟨span, hparse⟩ => ?_⟩
  have hspaces : Denotes (Text.expandTabsFrom 1 ['a', '\t', 'b']) "a      b".toList :=
    Text.denotes_self (Grammar.forall_of_all (by decide))
  rw [parseExpression_enquoted "main" hspaces] at hparse
  simp at hparse

end Ember
