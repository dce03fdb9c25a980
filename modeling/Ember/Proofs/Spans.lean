import Ember.Proofs.Grammar.Spelled.Program

/-!
# Spans — places show the lexemes that stand there

A node that was read from a text has a place. If it shows a lexeme, its place tells the line and the
columns of that lexeme in the text that the parser scans, where tabs have been replaced by spaces.
And the lexemes of its leaves come in the text as the leaves come in the trees.

The parser knows of lines and columns only what its cursor counts. So what is shown here first is
that a cursor counts right wherever it moves.

* `Cursor.Located`: the line and the column of a cursor are where it stands in a text.
* `Span.Quotes`: a text reads what a place shows, there where it shows it.
* `Spelled.pairwise`: lexemes that are met one after the other do not overlap.
* `parseProgram_spans`: the places of a program.
-/

namespace Ember

/-! ### Lines -/

namespace Text

variable {cs w l : List Char} {ls : List (List Char)} {x : Char}

/-- A text has at least one line. -/
theorem exists_lines (cs : List Char) : ∃ l ls, lines cs = l :: ls := by
  cases cs with
  | nil => exact ⟨[], [], rfl⟩
  | cons x xs =>
      rw [lines]
      split
      · exact ⟨_, _, rfl⟩
      · split <;> exact ⟨_, _, rfl⟩

theorem lines_newline (cs : List Char) : lines ('\n' :: cs) = [] :: lines cs := by
  rw [lines, if_pos rfl]

/-- A character other than a line end goes to the first line. -/
theorem lines_cons (hx : x ≠ '\n') (h : lines cs = l :: ls) :
    lines (x :: cs) = (x :: l) :: ls := by
  rw [lines, if_neg hx, h]

/-- What has no newline is the start of the line that it stands in. -/
theorem lines_append (hw : '\n' ∉ w) (h : lines cs = l :: ls) :
    lines (w ++ cs) = (w ++ l) :: ls := by
  induction w with
  | nil => exact h
  | cons x xs ih =>
      rw [List.mem_cons, not_or] at hw
      exact lines_cons (Ne.symm hw.1) (ih hw.2)

end Text

/-! ### Cursors -/

namespace Cursor

variable {cs w : List Char} {c : Cursor}

/-- In the text, the cursor stands in the line and the column that it counts. -/
structure Located (cs : List Char) (c : Cursor) : Prop where
  line : 0 < c.line
  col : 0 < c.col
  rest : ∃ l ls, (Text.lines cs).drop (c.line - 1) = l :: ls ∧
    Text.lines c.rest = l.drop (c.col - 1) :: ls

theorem located_start (filename : String) (cs : List Char) : Located cs (.start filename cs) := by
  obtain ⟨l, ls, h⟩ := Text.exists_lines cs
  exact ⟨Nat.one_pos, Nat.one_pos, l, ls, h, h⟩

/-- A cursor that is located stays so after one character. -/
theorem Located.next (h : Located cs c) : Located cs c.next := by
  unfold Cursor.next
  split
  · exact h
  · rename_i x xs hc
    obtain ⟨hline, hcol, l, ls, hl, hrest⟩ := h
    rw [hc] at hrest
    by_cases hx : x = '\n'
    · -- the line is over, and the next one starts
      subst hx
      rw [Text.lines_newline, List.cons.injEq] at hrest
      obtain ⟨l', ls', hxs⟩ := Text.exists_lines xs
      refine ⟨Nat.succ_pos _, Nat.one_pos, l', ls', ?_, ?_⟩
      · have hdrop : (Text.lines cs).drop (c.line - 1 + 1) = ls := by
          rw [← List.drop_drop, hl]
          rfl
        rw [if_pos rfl, Nat.add_sub_cancel, ← Nat.sub_add_cancel hline, hdrop, ← hrest.2, hxs]
      · rw [if_pos rfl, hxs]
        rfl
    · obtain ⟨l', ls', hxs⟩ := Text.exists_lines xs
      rw [Text.lines_cons hx hxs, List.cons.injEq] at hrest
      obtain ⟨hhead, rfl⟩ := hrest
      rw [if_neg hx, if_neg hx]
      refine ⟨hline, Nat.succ_pos _, l, ls', hl, ?_⟩
      have hdrop : l.drop (c.col - 1 + 1) = l' := by
        rw [← List.drop_drop, ← hhead]
        rfl
      rw [Nat.add_sub_cancel, ← Nat.sub_add_cancel hcol, hdrop, hxs]

/-- A cursor that is located stays so as it advances. -/
theorem Located.advance (h : Located cs c) (n : Nat) : Located cs (c.advance n) := by
  induction n generalizing c with
  | zero => exact h
  | succ n ih => exact ih h.next

/-- What stands on the line does not move the cursor out of it. -/
theorem advance_in_line (hw : '\n' ∉ w) (h : w <+: c.rest) :
    (c.advance w.length).line = c.line ∧ (c.advance w.length).col = c.col + w.length := by
  induction w generalizing c with
  | nil => exact ⟨rfl, rfl⟩
  | cons x xs ih =>
      rw [List.mem_cons, not_or] at hw
      obtain ⟨ys, hys⟩ := h
      rw [List.cons_append] at hys
      have hnext : c.next.rest = xs ++ ys ∧ c.next.line = c.line ∧ c.next.col = c.col + 1 := by
        simp [Cursor.next, ← hys, Ne.symm hw.1]
      obtain ⟨hline, hcol⟩ := ih hw.2 (hnext.1 ▸ List.prefix_append xs ys)
      refine ⟨hline.trans hnext.2.1, ?_⟩
      rw [List.length_cons]
      exact hcol.trans (by omega)

end Cursor

/-! ### Places -/

/-- The text reads what the place shows, in its line and from its first column to its last, which
are counted from one. -/
structure Span.Quotes (cs : List Char) (s : Span) : Prop where
  startLine : 0 < s.startLine
  startCol : 0 < s.startCol
  text : ∃ l, (Text.lines cs)[s.startLine - 1]? = some l ∧
    s.text.toList <+: l.drop (s.startCol - 1)
  endLine : s.endLine = s.startLine
  endCol : s.endCol = s.startCol + s.text.length

/-- The first place ends before the second one starts. -/
def Span.Before (s t : Span) : Prop :=
  s.endLine < t.startLine ∨ s.endLine = t.startLine ∧ s.endCol ≤ t.startCol

/-- The first node ends before the second one starts. -/
def Tree.Label.Before (l m : Tree.Label) : Prop :=
  ∃ s t, l.span = some s ∧ m.span = some t ∧ s.Before t

/-- The place ends before the cursor or right there. -/
def Span.EndsBy (s : Span) (c : Cursor) : Prop :=
  s.endLine < c.line ∨ s.endLine = c.line ∧ s.endCol ≤ c.col

section

variable {c : Cursor} {s : Span}

/-- A span that ends by a cursor ends by every later one. -/
theorem Span.EndsBy.next (h : s.EndsBy c) : s.EndsBy c.next := by
  unfold Cursor.next
  split
  · exact h
  · rename_i x xs _
    unfold Span.EndsBy at h ⊢
    by_cases hx : x = '\n'
    · simp only [hx, if_true]
      omega
    · simp only [hx, if_false]
      omega

theorem Span.EndsBy.advance (h : s.EndsBy c) (n : Nat) : s.EndsBy (c.advance n) := by
  induction n generalizing c with
  | zero => exact h
  | succ n ih => exact ih (h.next)

end

namespace Grammar

open Ember.Tree (Label)
open Lexeme (StandsFor)

variable {b c : Cursor} {ls : List Label} {l : Label} {w cs : List Char} {s : Span}

/-- The place of a lexeme starts where the lexeme does and ends where the text goes on. -/
theorem LabelAt.place (h : LabelAt l c w) :
    ∃ s, l.span = some s ∧ s.text.toList = w ∧ s.startLine = c.line ∧ s.startCol = c.col ∧
      s.endLine = s.startLine ∧ s.endCol = s.startCol + s.text.length ∧
      s.EndsBy (c.advance w.length) := by
  obtain ⟨hline, hcol⟩ := Cursor.advance_in_line h.value.not_newline h.text
  have hpos : 0 < w.length := List.length_pos_iff.mpr h.value.ne_nil
  have hlength : (String.ofList w).length = w.length := by
    rw [← String.length_toList, String.toList_ofList]
  have hend : (c.span (String.ofList w)).endCol = c.col + w.length := by
    rw [← hlength, Cursor.span, Span.ofToken, Nat.max_eq_left (by omega)]
  refine ⟨_, h.span, String.toList_ofList, rfl, rfl, rfl, ?_, .inr ⟨hline.symm, ?_⟩⟩
  · exact hlength ▸ hend
  · rw [hend, hcol]

/-- A lexeme is quoted by its place. -/
theorem LabelAt.quotes (h : LabelAt l c w) (hc : Cursor.Located cs c) :
    ∃ s, l.span = some s ∧ s.Quotes cs ∧ StandsFor l.kind s.text.toList l.value := by
  obtain ⟨s, hs, htext, hline, hcol, hendLine, hendCol, -⟩ := h.place
  obtain ⟨hpos, hpos', l', ls', hl', hrest⟩ := hc
  obtain ⟨ys, hys⟩ := h.text
  obtain ⟨m, ms, hm⟩ := Text.exists_lines ys
  rw [← hys, Text.lines_append h.value.not_newline hm, List.cons.injEq] at hrest
  refine ⟨s, hs, ⟨hline ▸ hpos, hcol ▸ hpos', ⟨l', ?_, ?_⟩, hendLine, hendCol⟩, ?_⟩
  · rw [hline, ← List.head?_drop, hl', List.head?_cons]
  · rw [htext, hcol, ← hrest.1]
    exact List.prefix_append w m
  · rw [htext]
    exact h.value

namespace Spelled

/-- Whatever is met is met by a cursor that counts right. -/
theorem located (h : Spelled b ls c) (hb : Cursor.Located cs b) :
    Cursor.Located cs c ∧ ∀ l ∈ ls, ∃ d w, Cursor.Located cs d ∧ LabelAt l d w := by
  induction h with
  | start => exact ⟨hb, nofun⟩
  | move _ n ih => exact ⟨ih.1.advance n, ih.2⟩
  | @lexeme ls c l w _ hl ih =>
      refine ⟨ih.1.advance _, List.forall_mem_append.mpr ⟨ih.2, ?_⟩⟩
      exact List.forall_mem_singleton.mpr ⟨c, w, ih.1, hl⟩

/-- Lexemes that are met one after the other do not overlap. -/
theorem pairwise (h : Spelled b ls c) :
    ls.Pairwise Label.Before ∧ ∀ l ∈ ls, ∃ s, l.span = some s ∧ s.EndsBy c := by
  induction h with
  | start => exact ⟨.nil, nofun⟩
  | move _ n ih =>
      refine ⟨ih.1, fun l hl => ?_⟩
      obtain ⟨s, hs, hends⟩ := ih.2 l hl
      exact ⟨s, hs, hends.advance n⟩
  | @lexeme ls c l w _ hl ih =>
      obtain ⟨s, hs, -, hline, hcol, -, -, hends⟩ := hl.place
      refine ⟨List.pairwise_append.mpr ⟨ih.1, List.pairwise_singleton _ _, ?_⟩,
        List.forall_mem_append.mpr ⟨fun m hm => ?_, List.forall_mem_singleton.mpr ⟨s, hs, hends⟩⟩⟩
      · -- what was met before ends where the new lexeme starts, at the latest
        intro m hm l' hl'
        obtain rfl := List.mem_singleton.mp hl'
        obtain ⟨s', hs', hends'⟩ := ih.2 m hm
        refine ⟨s', s, hs', hs, ?_⟩
        unfold Span.Before
        rw [hline, hcol]
        exact hends'
      · obtain ⟨s', hs', hends'⟩ := ih.2 m hm
        exact ⟨s', hs', hends'.advance _⟩

end Spelled

end Grammar

/-! ### Programs -/

open Ember.Tree (labelsAll lexemesAll)

/-- **Places show the lexemes that stand there.** Let a program be read from a text.

* A number, a string, a name, a truth value, nil, a prefix operator, a call and an index have a
  place that quotes the text that the parser scans, and the lexeme there stands for the value of
  the node.
* The lexemes of the leaves do not overlap, and come in the text as the leaves come in the trees. -/
theorem parseProgram_spans {filename source : String} {ts : List Tree}
    (h : parseProgram filename source = .ok ts) :
    (∀ l ∈ labelsAll ts, l.kind.isLexeme → ∃ s, l.span = some s ∧ s.Quotes (scanned source) ∧
      Lexeme.StandsFor l.kind s.text.toList l.value) ∧
    ((labelsAll ts).filter (·.kind.isLeaf)).Pairwise Tree.Label.Before := by
  unfold parseProgram parseWith at h
  dsimp only at h
  split at h
  · rename_i ts c hts
    cases h
    obtain ⟨d, hspelled⟩ := Grammar.spelled_program hts
    have hstart := Cursor.located_start filename (scanned source)
    refine ⟨fun l hl hkind => ?_, ?_⟩
    · have hmem : l ∈ lexemesAll ts := Tree.mem_lexemesAll hl hkind
      obtain ⟨d', w, hd', hat⟩ := (hspelled.located hstart).2 l hmem
      exact hat.quotes hd'
    · rw [← Tree.filter_lexemesAll]
      exact hspelled.pairwise.1.filter _
  all_goals cases h

/-- There are seven leaves on three lines, after a tab, a comment and a line end in a string. -/
theorem leaves_in_order : ∃ ts,
    parseProgram "sample" "let a = [1,\t2.5e1] // a\nf(-a[0] /* b */ == \"\\n\")\na = nil"
        = .ok ts ∧
      ((labelsAll ts).filter (·.kind.isLeaf)).length = 7 ∧
      ((labelsAll ts).filter (·.kind.isLeaf)).Pairwise Tree.Label.Before := by
  have hok : (parseProgram "sample"
      "let a = [1,\t2.5e1] // a\nf(-a[0] /* b */ == \"\\n\")\na = nil").toOption.any fun ts =>
        ((labelsAll ts).filter (·.kind.isLeaf)).length == 7 := by decide +kernel
  obtain ⟨ts, hts, hlength⟩ := exists_ok_of_any hok
  exact ⟨ts, hts, by simpa using hlength, (parseProgram_spans hts).2⟩

end Ember
