import Ember.Proofs.Diagnosis

/-!
# Surroundings — the lines shown around a position

A parse error shows the lines around its position, each after its number, and below the line of the
position a caret. A reader finds the character that is meant straight above the caret. So the caret
has to be moved to the right by what stands before the line, and that is wider than the six columns
that are set aside for it as soon as the number has more than four digits.

* `lineLabel`, `labelledLines`: what stands before a line, and the lines of a source after it.
* `ShowsAround`: a text shows the lines around a line, and one more line below that line.
* `CaretUnder`: a caret stands at the offset of a column in the labelled line.
* `showsAround_surroundings`: all lines are shown that should be, each once and in its place.
* `surroundings_caret`: the caret is under its column up to line 9999.
* `Diagnosis.context_ofFailure`: every failure that is diagnosed shows its position in this way.
-/

namespace Ember

/-! ### Lines -/

namespace Text

variable {cs row : List Char} {rows : List (List Char)}

/-- The lines are the pieces between line ends. -/
theorem lines_eq_splitOn (cs : List Char) : lines cs = cs.splitOn '\n' := by
  induction cs with
  | nil => rfl
  | cons x xs ih =>
      obtain ⟨l, ls, hxs⟩ := exists_lines xs
      rw [List.splitOn_cons_eq_if_modifyHead, ← ih]
      by_cases hx : x = '\n'
      · rw [hx, lines_newline, if_pos (by decide)]
      · rw [lines_cons hx hxs, if_neg (by simpa using hx), hxs, List.modifyHead_cons]

/-- Lines that are joined are read again. -/
theorem lines_intercalate (hrows : ∀ row ∈ rows, '\n' ∉ row) (hne : rows ≠ []) :
    lines (['\n'].intercalate rows) = rows :=
  (lines_eq_splitOn _).trans (List.splitOn_intercalate '\n' hrows hne)

theorem newline_not_mem_of_mem_lines (h : row ∈ lines cs) : '\n' ∉ row := by
  induction cs generalizing row with
  | nil => simp_all [lines]
  | cons x xs ih =>
      obtain ⟨l, ls, hxs⟩ := exists_lines xs
      rw [hxs] at ih
      by_cases hx : x = '\n'
      · rw [hx, lines_newline, hxs, List.mem_cons] at h
        rcases h with rfl | h
        · exact List.not_mem_nil
        · exact ih h
      · rw [lines_cons hx hxs, List.mem_cons] at h
        rcases h with rfl | h
        · rw [List.mem_cons, not_or]
          exact ⟨Ne.symm hx, ih List.mem_cons_self⟩
        · exact ih (List.mem_cons_of_mem l h)

end Text

/-! ### Labels -/

/-- What stands before the line with a number: the number, set to the right in four columns, a
colon and a space. -/
def lineLabel (number : Nat) : List Char :=
  let digits := Nat.toDigits 10 number
  List.replicate (4 - digits.length) ' ' ++ digits ++ [':', ' ']

/-- A label is six characters wide unless its number has more than four digits. -/
theorem length_lineLabel_eq_six_iff (number : Nat) :
    (lineLabel number).length = 6 ↔ number ≤ 9999 := by
  have hdigits : (Nat.toDigits 10 number).length ≤ 4 ↔ number < 10 ^ 4 :=
    Nat.length_toDigits_le_iff (by decide) (by decide)
  simp only [lineLabel, List.length_append, List.length_replicate, List.length_cons,
    List.length_nil]
  omega

/-- The label of a line has no line end in it. -/
theorem newline_not_mem_lineLabel (number : Nat) : '\n' ∉ lineLabel number := by
  have hdigits : '\n' ∉ Nat.toDigits 10 number := fun h =>
    absurd (Nat.isDigit_of_mem_toDigits (by decide) (by decide) h) (by decide)
  simp [lineLabel, hdigits]

/-- The lines of a source from one number to another, in order, each after its label. -/
def labelledLines (source : String) (first last : Nat) : List (List Char) :=
  (((Text.lines source.toList).zipIdx 1).filter fun l => first ≤ l.2 ∧ l.2 ≤ last).map fun l =>
    lineLabel l.2 ++ l.1

/-! ### What is shown -/

/-- A text shows the lines of a source around one of its lines: those from some lines before it to
some lines after it, in order, each after its label, and straight below the line itself one more
line, the pointer. -/
def ShowsAround (source : String) (line around : Nat) (shown : String) (pointer : List Char) :
    Prop :=
  Text.lines shown.toList
    = labelledLines source (max 1 (line - around)) line
      ++ pointer
      :: labelledLines source (line + 1)
        (min (Text.lines source.toList).length (line + around))

/-- The only caret of a pointer is at the offset that a column of the line, counted from one, has
after the line's label. -/
def CaretUnder (pointer : List Char) (line col : Nat) : Prop :=
  ∀ k, pointer[k]? = some '^' ↔ k = (lineLabel line).length + (col - 1)

/-- The pointer below a line. It leaves six columns to the label. -/
def pointerTo (col : Nat) : List Char :=
  List.replicate (6 + (col - 1)) ' ' ++ "^ Error here".toList

/-- A caret after blanks stands behind exactly as many positions as there are blanks. -/
theorem getElem?_caret {rest : List Char} (hrest : '^' ∉ rest) (n k : Nat) :
    (List.replicate n ' ' ++ '^' :: rest)[k]? = some '^' ↔ k = n := by
  rcases Nat.lt_trichotomy k n with hk | rfl | hk
  · have hspace : (List.replicate n ' ' ++ '^' :: rest)[k]? = some ' ' := by
      simp [List.getElem?_append, hk]
    simp [hspace, Nat.ne_of_lt hk]
  · simp
  · obtain ⟨j, rfl⟩ := Nat.exists_eq_add_of_lt hk
    have hafter : (List.replicate n ' ' ++ '^' :: rest)[n + j + 1]? = rest[j]? := by
      simp [List.getElem?_append, Nat.add_assoc]
    rw [hafter]
    exact iff_of_false (fun h => hrest (List.mem_of_getElem? h)) (by omega)

/-- The caret is under its column as long as the label is six characters wide. -/
theorem caretUnder_pointerTo (line col : Nat) :
    CaretUnder (pointerTo col) line col ↔ line ≤ 9999 := by
  have hcaret : ∀ k, (pointerTo col)[k]? = some '^' ↔ k = 6 + (col - 1) :=
    getElem?_caret (by decide) _
  rw [← length_lineLabel_eq_six_iff]
  constructor
  · intro h
    have := (h _).mp ((hcaret _).mpr rfl)
    omega
  · intro h k
    rw [hcaret, h]

/-! ### Windows -/

section

variable {α : Type} {xs : List α} {first middle last n : Nat}

/-- The elements of a list at the places from `first` on and before `last`, with their places. -/
def window (xs : List α) (first last : Nat) : List (α × Nat) := (xs.zipIdx.take last).drop first

/-- Cutting by position leaves the places in between. -/
theorem drop_take_zipIdx (xs : List α) (k first last : Nat) :
    ((xs.zipIdx k).take last).drop first
      = (xs.zipIdx k).filter fun x => k + first ≤ x.2 ∧ x.2 < k + last := by
  -- the places of the tail start one later, so the bounds move against the first place
  induction xs generalizing k first last with
  | nil => simp
  | cons x xs ih =>
      cases last with
      | zero =>
          rw [List.take_zero, List.drop_nil, eq_comm, List.filter_eq_nil_iff]
          intro y hy
          have hk := List.le_snd_of_mem_zipIdx hy
          rw [decide_eq_true_eq]
          omega
      | succ last =>
          rw [List.zipIdx_cons, List.take_succ_cons]
          cases first with
          | zero =>
              have htail := ih (k + 1) 0 last
              rw [List.drop_zero] at htail
              rw [List.drop_zero, List.filter_cons_of_pos (by simp), htail]
              refine congrArg _ (List.filter_congr fun y hy => ?_)
              have hk := List.le_snd_of_mem_zipIdx hy
              exact decide_eq_decide.mpr (by omega)
          | succ first =>
              rw [List.drop_succ_cons, ih, List.filter_cons_of_neg (by simp)]
              exact List.filter_congr fun y _ => decide_eq_decide.mpr (by omega)

/-- The lines of a window are those with a number in its range. -/
theorem window_eq_filter (xs : List α) (first last : Nat) :
    window xs first last = xs.zipIdx.filter fun x => first ≤ x.2 ∧ x.2 < last := by
  rw [window, drop_take_zipIdx, Nat.zero_add, Nat.zero_add]

/-- Lines of a window have numbers in its range. -/
theorem mem_window {x : α × Nat} (h : x ∈ window xs first last) : first ≤ x.2 ∧ x.2 < last := by
  simp only [window_eq_filter, List.mem_filter, decide_eq_true_eq] at h
  exact h.2

/-- Two windows that meet are one. -/
theorem window_append (hfirst : first ≤ middle) (hlast : middle ≤ last) :
    window xs first middle ++ window xs middle last = window xs first last := by
  have htake : xs.zipIdx.take middle = (xs.zipIdx.take last).take middle := by
    rw [List.take_take, Nat.min_eq_left hlast]
  obtain ⟨k, rfl⟩ := Nat.exists_eq_add_of_le hfirst
  rw [window, htake, List.drop_take, Nat.add_sub_cancel_left, window, ← List.drop_drop, window,
    List.take_append_drop]

theorem window_singleton (hn : n < xs.length) : window xs n (n + 1) = [(xs[n], n)] := by
  have hn' : n < xs.zipIdx.length := by rwa [List.length_zipIdx]
  rw [window, List.drop_take, Nat.add_sub_cancel_left, List.drop_eq_getElem_cons hn']
  simp

end

/-! ### Surroundings -/

section

variable {source : String} {n : Nat}

/-- The printed lines are the lines of a window, each behind its label. -/
theorem labelledLines_eq (source : String) (first last : Nat) :
    labelledLines source (first + 1) last
      = (window (Text.lines source.toList) first last).map fun l => lineLabel (l.2 + 1) ++ l.1 := by
  rw [labelledLines, List.zipIdx_succ, List.filter_map, List.map_map, window_eq_filter]
  simp only [Function.comp_def, Nat.succ_le_iff, Nat.lt_succ_iff]

/-- Each line has its label, and the line of the position has the pointer below it. -/
theorem toList_numberedLine (n col i : Nat) (text : List Char) :
    (numberedLine (n + 1 : Nat) col i text).map String.toList
      = (lineLabel (i + 1) ++ text) :: if i = n then [pointerTo col] else [] := by
  have hline : ((i : Int) = ((n + 1 : Nat) : Int) - 1) = (i = n) := by
    rw [eq_iff_iff]
    omega
  have hcol : ((col : Int) - 1).toNat = col - 1 := by omega
  have hlabel : (Text.padLeft 4 (toString (i + 1)) ++ ": " ++ String.ofList text).toList
      = lineLabel (i + 1) ++ text := by
    simp [Text.padLeft, lineLabel, Nat.repr_eq_ofList_toDigits]
  have hpointer : (Text.spaces 6 ++ Text.spaces (col - 1) ++ "^ Error here").toList
      = pointerTo col := by
    simp [Text.spaces, pointerTo, List.replicate_add]
  simp only [numberedLine, hline, hcol]
  split
  · rw [List.map_cons, List.map_singleton, hlabel, hpointer]
  · rw [List.map_singleton, hlabel]

/-- Lines other than the failing one are printed without a caret line. -/
theorem flatMap_numberedLine (rows : List (List Char × Nat)) (h : ∀ l ∈ rows, l.2 ≠ n)
    (col : Nat) :
    rows.flatMap (fun l => (numberedLine (n + 1 : Nat) col l.2 l.1).map String.toList)
      = rows.map fun l => lineLabel (l.2 + 1) ++ l.1 := by
  rw [List.map_eq_flatMap]
  refine List.flatMap_congr fun l hl => ?_
  rw [toList_numberedLine, if_neg (h l hl)]

/-- The pointer comes once, after the line of the position. -/
theorem flatMap_window {rows : List (List Char)} {first last : Nat} (hn : n < rows.length)
    (hfirst : first ≤ n) (hlast : n + 1 ≤ last) (col : Nat) :
    (window rows first last).flatMap
        (fun l => (numberedLine (n + 1 : Nat) col l.2 l.1).map String.toList)
      = ((window rows first (n + 1)).map fun l => lineLabel (l.2 + 1) ++ l.1)
        ++ pointerTo col :: (window rows (n + 1) last).map fun l => lineLabel (l.2 + 1) ++ l.1 := by
  have habove := flatMap_numberedLine (window rows first n)
    (fun l hl => Nat.ne_of_lt (mem_window hl).2) col
  have hbelow := flatMap_numberedLine (window rows (n + 1) last)
    (fun l hl => Nat.ne_of_gt (mem_window hl).1) col
  -- the lines above, the line itself and the lines below
  rw [← window_append (Nat.le_succ_of_le hfirst) hlast, ← window_append hfirst (Nat.le_succ n),
    window_singleton hn, List.flatMap_append, List.flatMap_append, habove, hbelow,
    List.flatMap_singleton, toList_numberedLine, if_pos rfl, List.map_append, List.map_singleton]
  simp only [List.append_assoc, List.cons_append, List.nil_append]

/-- The lines that are shown, before they are joined. -/
theorem toList_surroundings (hn : n < (Text.lines source.toList).length) (col around : Nat) :
    (surroundings source (n + 1 : Nat) col around).toList
      = ['\n'].intercalate (labelledLines source (max 1 (n + 1 - around)) (n + 1)
        ++ pointerTo col :: labelledLines source (n + 2)
          (min (Text.lines source.toList).length (n + 1 + around))) := by
  have hstart : (((n + 1 : Nat) : Int) - around - 1).toNat = n - around := by omega
  have hstop : (((n + 1 : Nat) : Int) + around).toNat = n + 1 + around := by omega
  have hfirst : max 1 (n + 1 - around) = n - around + 1 := by omega
  have hlast : n + 1 ≤ min (Text.lines source.toList).length (n + 1 + around) := by omega
  rw [hfirst, labelledLines_eq, labelledLines_eq, ← flatMap_window hn (Nat.sub_le n around) hlast,
    surroundings, String.toList_intercalate, List.map_flatMap, hstart, hstop]
  rfl

theorem newline_not_mem_labelledLines {first last : Nat} {row : List Char}
    (h : row ∈ labelledLines source first last) : '\n' ∉ row := by
  obtain ⟨l, hl, rfl⟩ := List.mem_map.mp h
  have hline := Text.newline_not_mem_of_mem_lines
    (List.fst_mem_of_mem_zipIdx (List.mem_of_mem_filter hl))
  exact List.not_mem_append (newline_not_mem_lineLabel _) hline

theorem newline_not_mem_pointerTo (col : Nat) : '\n' ∉ pointerTo col :=
  List.not_mem_append (by simp) (by decide)

/-- **All lines around a position are shown**, each once and in its place, and below the line of the
position its pointer. -/
theorem showsAround_surroundings {line : Nat} (hline : 1 ≤ line)
    (hlast : line ≤ (Text.lines source.toList).length) (col around : Nat) :
    ShowsAround source line around (surroundings source line col around) (pointerTo col) := by
  obtain ⟨n, rfl⟩ := Nat.exists_eq_add_of_le' hline
  rw [ShowsAround, toList_surroundings hlast]
  refine Text.lines_intercalate (fun row hrow => ?_) (by simp)
  rw [List.mem_append, List.mem_cons] at hrow
  rcases hrow with h | rfl | h
  · exact newline_not_mem_labelledLines h
  · exact newline_not_mem_pointerTo col
  · exact newline_not_mem_labelledLines h

/-- There is only one pointer. -/
theorem ShowsAround.unique {line around : Nat} {shown : String} {pointer pointer' : List Char}
    (h : ShowsAround source line around shown pointer)
    (h' : ShowsAround source line around shown pointer') : pointer = pointer' :=
  (List.cons.inj (List.append_cancel_left (h.symm.trans h'))).1

end

/-- **The caret is under its column.** Of a source and a line and a column of it, the lines from two
before to two after the line are shown, in order and each after its number, and straight below the
line there is one more line. The only caret in that is at the offset of the column in the line above
it exactly if the number of the line has no more than four digits. -/
theorem surroundings_caret {source : String} {line : Nat} (hline : 1 ≤ line)
    (hlast : line ≤ (Text.lines source.toList).length) (col : Nat) :
    ∃ pointer, ShowsAround source line 2 (surroundings source line col 2) pointer ∧
      (CaretUnder pointer line col ↔ line ≤ 9999) :=
  ⟨pointerTo col, showsAround_surroundings hline hlast col 2, caretUnder_pointerTo line col⟩

/-- A position in the second of three lines. -/
theorem secondLine_shown : ∃ pointer,
    Text.lines (surroundings "one\ntwo\nthree" 2 2 2).toList
      = ["   1: one".toList, "   2: two".toList, pointer, "   3: three".toList] ∧
    pointer[7]? = some '^' ∧ "   2: two".toList[7]? = some 'w' := by
  obtain ⟨pointer, hshown, hcaret⟩ :=
    @surroundings_caret "one\ntwo\nthree" 2 (by decide) (by decide) 2
  exact ⟨pointer, hshown, ((hcaret.mpr (by decide)) 7).mpr (by decide), by decide⟩

/-- A closing parenthesis after 9999 empty lines. -/
def lateParenthesis : String := String.ofList (List.replicate 9999 '\n' ++ [')'])

theorem length_lines_lateParenthesis : (Text.lines lateParenthesis.toList).length = 10000 := by
  -- for every number of lines, so that nothing unfolds this one
  have hlength (n : Nat) : (Text.lines (List.replicate n '\n' ++ [')'])).length = n + 1 := by
    simp [Text.length_lines, Nat.add_comm]
  have hchars : lateParenthesis.toList = List.replicate 9999 '\n' ++ [')'] := String.toList_ofList
  rw [hchars, hlength 9999]

/-- The label of line 10000 is wider than the room that its pointer leaves. -/
theorem lateParenthesis_missed : 10000 ≤ (Text.lines lateParenthesis.toList).length ∧
    ¬ ∃ pointer,
      ShowsAround lateParenthesis 10000 2 (surroundings lateParenthesis 10000 1 2) pointer ∧
      CaretUnder pointer 10000 1 := by
  have hlast := Nat.le_of_eq length_lines_lateParenthesis.symm
  refine ⟨hlast, ?_⟩
  rintro ⟨pointer, hshown, hcaret⟩
  have hmodel := showsAround_surroundings (by omega) hlast 1 2
  obtain rfl := hshown.unique hmodel
  rw [caretUnder_pointerTo] at hcaret
  omega

/-- Every failure that is diagnosed is in a line of the source, so it shows the lines around it and,
up to line 9999, the caret under its column. -/
theorem Diagnosis.context_ofFailure (source : String) (offset : Nat) (message : String) :
    ∃ shown pointer, (ofFailure source (scanned source) offset message).context = some shown ∧
      ShowsAround source (Text.lineOf (scanned source) offset) 2 shown pointer ∧
      (CaretUnder pointer (Text.lineOf (scanned source) offset)
          (Text.columnOf (scanned source) offset)
        ↔ Text.lineOf (scanned source) offset ≤ 9999) := by
  have hlines : (Text.lines (scanned source)).length = (Text.lines source.toList).length :=
    (congrArg List.length (Text.lines_expandTabs _)).trans (List.length_map _)
  have hlast := (Text.lineOf_le_length_lines (scanned source) offset).trans_eq hlines
  exact ⟨_, _, rfl, showsAround_surroundings (Nat.le_add_right 1 _) hlast _ 2,
    caretUnder_pointerTo _ _⟩

end Ember
