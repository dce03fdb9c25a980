import Ember.Proofs.Grammar.Joined
import Ember.Proofs.Literals
import Ember.Proofs.Spans

/-!
# Diagnosis — what a parse error quotes

The parser finds its failure in the text that it scans, where tabs have been replaced by spaces. The
error then shows a snippet and a line of the text as it was written, found there by the line and the
column of the failure. The two texts have the same lines. A column is the same in both only if the
tabs before it do not move it.

* `lines_expandTabs`: tabs are replaced line by line, so lines keep their numbers.
* `Text.Aligned`: a line has as many characters before a column with its tabs replaced as without.
* `ParseError.QuotesText`: an error shows what stands at its position in a text.
* `ParseError.quotesText_ofFailure`: the error of a failure at any offset does.
* `diagnosis_quotes_text`: the error that a rejected program ends in.
-/

namespace Ember

/-! ### Lines -/

namespace Text

variable {cs l row : List Char} {ls : List (List Char)} {c : Char} {k : Nat}

/-- A text has one line more than it has line ends. -/
theorem length_lines (cs : List Char) : (lines cs).length = 1 + cs.count '\n' := by
  induction cs with
  | nil => rfl
  | cons x xs ih =>
      obtain ⟨l, ls, hlines⟩ := exists_lines xs
      by_cases hx : x = '\n'
      · rw [hx, lines_newline, List.length_cons, ih, List.count_cons_self]
        omega
      · rw [lines_cons hx hlines, List.count_cons_of_ne hx, ← ih, hlines]
        rfl

/-- An offset is in one of the lines. -/
theorem lineOf_le_length_lines (cs : List Char) (offset : Nat) :
    lineOf cs offset ≤ (lines cs).length := by
  have hcount := (List.take_sublist offset cs).count_le '\n'
  rw [length_lines, lineOf]
  omega

/-- Expanding tabs works line by line: only the first line depends on the column at the start. -/
theorem lines_expandTabsFrom (column : Nat) (h : lines cs = l :: ls) :
    lines (expandTabsFrom column cs) = expandTabsFrom column l :: ls.map expandTabs := by
  induction cs generalizing column l ls with
  | nil =>
      cases h
      rfl
  | cons x xs ih =>
      obtain ⟨l', ls', hxs⟩ := exists_lines xs
      by_cases hnewline : x = '\n'
      · -- the next line starts in the first column
        subst hnewline
        rw [lines_newline, hxs] at h
        cases h
        exact (lines_newline _).trans (congrArg ([] :: ·) (ih 0 hxs))
      · rw [lines_cons hnewline hxs] at h
        cases h
        rw [expandTabsFrom, expandTabsFrom]
        split
        · have hgap : ∀ n, '\n' ∉ List.replicate n ' ' := fun n hmem =>
            absurd (List.eq_of_mem_replicate hmem) (by decide)
          exact lines_append (hgap _) (ih _ hxs)
        · split <;> exact lines_cons hnewline (ih _ hxs)

/-- Tabs are replaced line by line. -/
theorem lines_expandTabs (cs : List Char) : lines (expandTabs cs) = (lines cs).map expandTabs := by
  obtain ⟨l, ls, h⟩ := exists_lines cs
  rw [h]
  exact lines_expandTabsFrom 0 h

/-! ### Columns -/

/-- Before the column, counted from zero, the tabs of the line are one column wide each. -/
def Aligned (row : List Char) (k : Nat) : Prop := (expandTabs (row.take k)).length = k

instance : Decidable (Aligned row k) := by unfold Aligned; infer_instance

/-- Tabs after a column do not move it. -/
theorem aligned_of_tabless (hk : k ≤ row.length) (h : Tabless (row.take k)) :
    Aligned row k := by
  rw [Aligned, expandTabs_of_tabless h, List.length_take, Nat.min_eq_left hk]

/-- What is in an aligned column and is not blank stands in the same column as it was written. -/
theorem Aligned.getElem? (h : Aligned row k) (hc : (expandTabs row)[k]? = some c)
    (hblank : isBlank c = false) : row[k]? = some c := by
  obtain ⟨column, hsplit⟩ := expandTabsFrom_append 0 (row.take k) (row.drop k)
  have hlength : (expandTabsFrom 0 (row.take k)).length = k := h
  have hhead : (expandTabsFrom column (row.drop k)).head? = some c := by
    rw [expandTabs, ← List.take_append_drop k row, hsplit,
      List.getElem?_append_right (Nat.le_of_eq hlength), hlength, Nat.sub_self] at hc
    rwa [List.head?_eq_getElem?]
  rw [← List.head?_drop]
  rcases head?_expandTabsFrom column (row.drop k) with hsame | hspace
  · exact hsame.symm.trans hhead
  · -- a space that replaces a tab is blank
    rw [hhead] at hspace
    cases hspace
    cases hblank

/-! ### Snippets -/

/-- What is cut off at the end of a text does not reach a character that stays. -/
theorem trimWhere_cons {p : Char → Bool} (hc : p c = false) (cs : List Char) :
    ∃ rest, trimWhere p (c :: cs) = c :: rest ∧ rest <+: cs := by
  refine ⟨(cs.reverse.dropWhile p).reverse, ?_, ?_⟩
  · have hsplit : (cs.reverse ++ [c]).dropWhile p = cs.reverse.dropWhile p ++ [c] := by
      rw [List.dropWhile_append]
      split
      · rename_i hempty
        rw [List.isEmpty_iff.mp hempty]
        simp [hc]
      · rfl
    rw [trimWhere, List.dropWhile_cons_of_neg (by simp [hc]), List.reverse_cons, hsplit,
      List.reverse_append]
    rfl
  · have hsuffix := List.dropWhile_suffix p (l := cs.reverse)
    rwa [← List.reverse_prefix, List.reverse_reverse] at hsuffix

end Text

section

variable {source : String} {row : List Char} {c : Char} {n k : Nat}

/-- Lines are counted from one. -/
theorem lineAt?_succ (source : String) (n : Nat) :
    lineAt? source ((n + 1 : Nat) : Int) = (Text.lines source.toList)[n]? := by
  have hpos : (0 : Int) < ((n + 1 : Nat) : Int) := by omega
  have hindex : (((n + 1 : Nat) : Int) - 1).toNat = n := by omega
  rw [lineAt?, if_pos hpos, hindex]

/-- A snippet starts with what stands at the position, unless that is blank. -/
theorem gotAt_of_getElem? (hline : (Text.lines source.toList)[n]? = some row)
    (hc : row[k]? = some c) (hblank : Text.isBlank c = false) :
    ∃ rest, gotAt source ((n + 1 : Nat) : Int) ((k + 1 : Nat) : Int)
        = "'" ++ String.ofList (c :: rest) ++ "'" ∧
      c :: rest <+: row.drop k := by
  obtain ⟨hk, hget⟩ := List.getElem?_eq_some_iff.mp hc
  have hdrop : row.drop k = c :: row.drop (k + 1) := by
    rw [List.drop_eq_getElem_cons hk, hget]
  -- at least one character is cut out
  obtain ⟨j, hj⟩ : ∃ j, slice row (((k + 1 : Nat) : Int) - 1).toNat
      (min (row.length : Int) (((k + 1 : Nat) : Int) + 10)) = c :: (row.drop (k + 1)).take j := by
    have hstop : ¬ min (row.length : Int) (((k + 1 : Nat) : Int) + 10) < 0 := by omega
    have hwidth : (min (row.length : Int) (((k + 1 : Nat) : Int) + 10)).toNat - k
        = (min row.length (k + 11) - k - 1) + 1 := by omega
    have hstart : (((k + 1 : Nat) : Int) - 1).toNat = k := by omega
    refine ⟨min row.length (k + 11) - k - 1, ?_⟩
    rw [slice, if_neg hstop, hstart, List.drop_take, hwidth, hdrop, List.take_succ_cons]
  obtain ⟨rest, htrim, hprefix⟩ := Text.trimWhere_cons hblank ((row.drop (k + 1)).take j)
  have hcol : (((k + 1 : Nat) : Int)) ≤ row.length := by omega
  refine ⟨rest, ?_, ?_⟩
  · rw [gotAt, lineAt?_succ, hline]
    simp only [hcol, if_true, hj, Text.trim, htrim, List.isEmpty_cons, Bool.false_eq_true,
      if_false]
  · rw [hdrop]
    exact (List.cons_prefix_cons.mpr ⟨rfl, hprefix.trans (List.take_prefix _ _)⟩)

end

/-! ### Errors -/

/-- An error shows what stands at its position in a text. Its line is a line of the text. Let its
line and its column in the text that the parser scans be at a character that is not blank. Then

* the line there is the line of the text with its tabs replaced, and the error shows the latter
  without the blanks around it;
* where the tabs before it leave the column alone, the error quotes a part of that line that starts
  with the character, in its place. -/
structure ParseError.QuotesText (source : String) (e : ParseError) : Prop where
  line_pos : 1 ≤ e.line
  line_le : e.line ≤ (Text.lines source.toList).length
  quotes : ∀ l c, (Text.lines (scanned source))[e.line - 1]? = some l →
    l[e.column - 1]? = some c → Text.isBlank c = false →
    ∃ row, (Text.lines source.toList)[e.line - 1]? = some row ∧ l = Text.expandTabs row ∧
      e.context = String.ofList (Text.trim row) ∧
      (Text.Aligned row (e.column - 1) →
        ∃ rest, e.got = some ("'" ++ String.ofList (c :: rest) ++ "'") ∧
          c :: rest <+: row.drop (e.column - 1))

section

variable (filename source : String) (cs : List Char) (offset : Nat) (message : String)

@[simp] theorem ParseError.line_ofFailure :
    (ofFailure filename source cs offset message).line = Text.lineOf cs offset := rfl

@[simp] theorem ParseError.column_ofFailure :
    (ofFailure filename source cs offset message).column = Text.columnOf cs offset := rfl

@[simp] theorem ParseError.got_ofFailure : (ofFailure filename source cs offset message).got
    = some (gotAt source (Text.lineOf cs offset) (Text.columnOf cs offset)) := rfl

@[simp] theorem ParseError.context_ofFailure :
    (ofFailure filename source cs offset message).context
      = (lineAt? source (Text.lineOf cs offset)).elim "" fun l => String.ofList (Text.trim l) := rfl

/-- It does not matter where in the scanned text the failure is. -/
theorem ParseError.quotesText_ofFailure :
    (ofFailure filename source (scanned source) offset message).QuotesText source := by
  have hlines : Text.lines (scanned source) = (Text.lines source.toList).map Text.expandTabs :=
    Text.lines_expandTabs _
  obtain ⟨n, hn⟩ : ∃ n, Text.lineOf (scanned source) offset = n + 1 := ⟨_, Nat.add_comm 1 _⟩
  obtain ⟨k, hk⟩ : ∃ k, Text.columnOf (scanned source) offset = k + 1 :=
    ⟨_, (Nat.add_assoc 1 _ _).trans (Nat.add_comm 1 _)⟩
  refine ⟨?_, ?_, ?_⟩
  · simp [hn]
  · have hle := Text.lineOf_le_length_lines (scanned source) offset
    rwa [hlines, List.length_map] at hle
  · simp only [line_ofFailure, column_ofFailure, got_ofFailure, context_ofFailure, hn, hk, hlines,
      Nat.add_sub_cancel, List.getElem?_map, Option.map_eq_some_iff]
    rintro l c ⟨row, hline, rfl⟩ hc hblank
    refine ⟨row, hline, rfl, ?_, fun haligned => ?_⟩
    · rw [lineAt?_succ, hline, Option.elim_some]
    · obtain ⟨rest, hgot, hrest⟩ :=
        gotAt_of_getElem? hline (haligned.getElem? hc hblank) hblank
      exact ⟨rest, congrArg some hgot, hrest⟩

end

variable {filename source : String} {e : ParseError}

/-- A syntax error of any reader quotes the text, unless the program is nested too deeply. -/
theorem quotesText_of_parseWith {α : Type} {p : Grammar.Parser α}
    (h : parseWith p filename source = .error (.error e)) (hdeep : e ≠ .tooDeep filename) :
    e.QuotesText source := by
  unfold parseWith at h
  dsimp only at h
  split at h
  · cases h
  · cases h
    exact ParseError.quotesText_ofFailure ..
  · cases h
    exact ParseError.quotesText_ofFailure ..
  · cases h
    exact absurd rfl hdeep
  · cases h

/-- An error with a decidable property can be found by evaluation. -/
theorem exists_error_of_any {α : Type} {x : Except Rejection α} {p : ParseError → Bool}
    (h : (match x with | .error (.error e) => p e | _ => false) = true) :
    ∃ e, x = .error (.error e) ∧ p e := by
  split at h
  · exact ⟨_, rfl, h⟩
  · cases h

/-- **A parse error quotes the text where the parser failed.** Let a program be rejected for
anything but its nesting. The error's line is a line of the text. If a character that is not blank
is there where the error is placed in the text that the parser scans, the error shows the line of
the text that holds it, and, unless a tab before it has moved its column, a snippet that starts with
it. -/
theorem diagnosis_quotes_text (h : parseProgram filename source = .error (.error e))
    (hdeep : e ≠ .tooDeep filename) : e.QuotesText source :=
  quotesText_of_parseWith h hdeep

/-- A number stands where a name should, after a line with a tab and before another tab. -/
theorem number_quoted : ∃ e rest,
    parseProgram "sample" "if x \x7b\n\ty\n\x7d\nlet 3 = 4\t// c" = .error (.error e) ∧
      e.got = some ("'" ++ String.ofList ('3' :: rest) ++ "'") ∧
      e.context = "let 3 = 4\t// c" := by
  obtain ⟨e, he, hpos⟩ := exists_error_of_any (p := fun e => e.line == 4 && e.column == 5)
    (x := parseProgram "sample" "if x \x7b\n\ty\n\x7d\nlet 3 = 4\t// c") (by decide +kernel)
  obtain ⟨hline, hcol⟩ := by simpa using hpos
  have hdeep : e ≠ .tooDeep "sample" := by
    rintro rfl
    cases hline
  have hquotes := (diagnosis_quotes_text he hdeep).quotes "let 3 = 4       // c".toList '3'
  rw [hline, hcol] at hquotes
  obtain ⟨row, hat, -, hcontext, hsnippet⟩ := hquotes (by decide) (by decide) (by decide)
  obtain rfl : "let 3 = 4\t// c".toList = row := Option.some.inj (Eq.trans (by decide) hat)
  obtain ⟨rest, hrest, -⟩ := hsnippet (Text.aligned_of_tabless (by decide) (by decide))
  exact ⟨e, rest, he, hrest, hcontext⟩

/-- A tab before it moves a parenthesis past the end of its line as it was written. -/
theorem tabbedParenthesis_unquoted : ∃ e l,
    parseProgram "<input>" "\t)" = .error (.error e) ∧ e ≠ .tooDeep "<input>" ∧
      (Text.lines (scanned "\t)"))[e.line - 1]? = some l ∧ l[e.column - 1]? = some ')' ∧
      Text.isBlank ')' = false ∧ e.got = some "end of line" := by
  obtain ⟨e, he, hpos⟩ := exists_error_of_any (x := parseProgram "<input>" "\t)")
    (p := fun e => e.line == 1 && e.column == 9 && e.got == some "end of line")
    (by decide +kernel)
  obtain ⟨⟨hline, hcol⟩, hgot⟩ := by simpa using hpos
  have hdeep : e ≠ .tooDeep "<input>" := by
    rintro rfl
    cases hgot
  refine ⟨e, "        )".toList, he, hdeep, ?_, ?_, by decide, hgot⟩
  · rw [hline]
    decide
  · rw [hcol]
    decide

end Ember
