import Mathlib.Data.List.Basic
import Ember.Source.Cursor

/-!
# Source — where the next token starts

Most parsers look for their token after comments and blank space. Here it is said once where that
is, for texts without comments.

* `Cursor.Quiet`: no comment comes next.
* `Cursor.Starts`: a text starts with a token, or is over.
* `Cursor.Ready`: a cursor stands at a token; if that is a word, it touches no word before it.
* `Cursor.At`: a cursor gets there by skipping.
-/

namespace Ember.Cursor

/-! ### Moving on -/

/-- Advancing drops as many characters of the rest. -/
theorem advance_rest (c : Cursor) (n : Nat) : (c.advance n).rest = c.rest.drop n := by
  induction n generalizing c with
  | zero => rfl
  | succ n ih =>
      rw [advance, ih]
      cases hrest : c.rest with
      | nil => simp [next, hrest]
      | cons x xs => simp [next, hrest]

/-- Advancing twice is advancing once by the sum. -/
theorem advance_advance (c : Cursor) (m k : Nat) :
    (c.advance m).advance k = c.advance (m + k) := by
  induction m generalizing c with
  | zero => rw [Nat.zero_add]; rfl
  | succ m ih => rw [Nat.succ_add, advance, advance, ih]

/-- Moving over some text leaves the text after it, and its last character behind. -/
theorem advance_append {c : Cursor} {xs ys : List Char} (h : c.rest = xs ++ ys) :
    (c.advance xs.length).rest = ys ∧ (c.advance xs.length).prev = xs.getLast?.or c.prev := by
  refine ⟨by rw [advance_rest, h, List.drop_left], ?_⟩
  induction xs generalizing c with
  | nil => rfl
  | cons x xs ih =>
      have hnext : c.next.rest = xs ++ ys ∧ c.next.prev = some x := by simp [next, h]
      rw [List.length_cons, advance, ih hnext.1, hnext.2]
      cases xs with
      | nil => rfl
      | cons y ys => simp [List.getLast?_cons]

/-- The lines go up as the cursor moves on. -/
theorem line_le_advance (c : Cursor) (n : Nat) : c.line ≤ (c.advance n).line := by
  induction n generalizing c with
  | zero => exact Nat.le_refl _
  | succ n ih =>
      refine Nat.le_trans ?_ (ih c.next)
      unfold next
      split
      · exact Nat.le_refl _
      · dsimp only
        split <;> omega

/-- Within a line the columns go up. So a cursor that is still in its line and its column has passed
nothing. -/
theorem rest_advance_of_place {c : Cursor} {n : Nat} (hline : (c.advance n).line = c.line) :
    c.col ≤ (c.advance n).col ∧ ((c.advance n).col = c.col → (c.advance n).rest = c.rest) := by
  induction n generalizing c with
  | zero => exact ⟨Nat.le_refl _, fun _ => rfl⟩
  | succ n ih =>
      rw [advance] at hline ⊢
      have hle := line_le_advance c.next n
      cases hrest : c.rest with
      | nil =>
          have hnext : c.next = c := by simp [next, hrest]
          rw [hnext] at hline ⊢
          exact hrest ▸ ih hline
      | cons x xs =>
          by_cases hx : x = '\n'
          · have hnext : c.next.line = c.line + 1 := by simp [next, hrest, hx]
            omega
          · have hnext : c.next.line = c.line ∧ c.next.col = c.col + 1 := by
              simp [next, hrest, hx]
            have hcol := (ih (hline.trans hnext.1.symm)).1
            exact ⟨by omega, fun h => by omega⟩

/-- Line and column tell where in the text the cursor stands. -/
theorem rest_eq_of_place {b : Cursor} {m n : Nat}
    (hline : (b.advance m).line = (b.advance n).line)
    (hcol : (b.advance m).col = (b.advance n).col) : (b.advance m).rest = (b.advance n).rest := by
  rcases Nat.le_total m n with h | h
  · obtain ⟨k, rfl⟩ := Nat.exists_eq_add_of_le h
    rw [← advance_advance] at hline hcol ⊢
    exact ((rest_advance_of_place hline.symm).2 hcol.symm).symm
  · obtain ⟨k, rfl⟩ := Nat.exists_eq_add_of_le h
    rw [← advance_advance] at hline hcol ⊢
    exact (rest_advance_of_place hline).2 hcol

/-- A cursor stays in its file. -/
theorem filename_advance (c : Cursor) (n : Nat) : (c.advance n).filename = c.filename := by
  induction n generalizing c with
  | zero => rfl
  | succ n ih =>
      rw [advance, ih, next]
      split <;> rfl

/-! ### Skipping -/

/-- Skipping never puts characters back. -/
theorem skip_rest_length (c : Cursor) : c.skip.rest.length ≤ c.rest.length := by
  simp only [skip, skipComments, advance_rest, List.length_drop]
  omega

/-- No comment comes next. -/
def Quiet (cs : List Char) : Prop := commentLength? (cs.dropWhile isSpace) = none

/-- The text starts with a token, or is over. -/
def Starts (cs : List Char) : Prop := ∀ x ∈ cs.head?, isSpace x = false ∧ x ≠ '/'

theorem drop_takeWhile (p : Char → Bool) (cs : List Char) :
    cs.drop (cs.takeWhile p).length = cs.dropWhile p := by
  have hsplit := List.takeWhile_append_dropWhile (p := p) (l := cs)
  calc cs.drop (cs.takeWhile p).length
      = (cs.takeWhile p ++ cs.dropWhile p).drop (cs.takeWhile p).length := by rw [hsplit]
    _ = cs.dropWhile p := List.drop_left

theorem commentsLength_of_quiet {cs : List Char} (h : Quiet cs) (rounds : List Char) :
    commentsLength rounds cs = 0 := by
  cases rounds with
  | nil => rfl
  | cons _ rounds =>
      rw [commentsLength]
      simp only [drop_takeWhile]
      rw [h]

/-- Where no comment starts, skipping is advancing over the blanks. -/
theorem skip_of_quiet {c : Cursor} (h : Quiet c.rest) :
    c.skip = c.advance (c.rest.takeWhile isSpace).length := by
  simp only [skip, skipComments, commentsLength_of_quiet h, advance]

/-- Where no comment starts, skipping drops the blanks. -/
theorem skip_rest {c : Cursor} (h : Quiet c.rest) : c.skip.rest = c.rest.dropWhile isSpace := by
  rw [skip_of_quiet h, advance_rest, drop_takeWhile]

/-- Where no comment starts, skipping within the line is advancing over the blanks that end no line.
-/
theorem skipInLine_of_quiet {c : Cursor} (h : Quiet c.rest) :
    c.skipInLine = c.advance (c.rest.takeWhile isInlineSpace).length := by
  simp only [skipInLine, skipComments, commentsLength_of_quiet h, advance]

/-- Where no comment starts, skipping within the line drops the blanks that end no line. -/
theorem skipInLine_rest {c : Cursor} (h : Quiet c.rest) :
    c.skipInLine.rest = c.rest.dropWhile isInlineSpace := by
  rw [skipInLine_of_quiet h, advance_rest, drop_takeWhile]

theorem Starts.takeWhile {cs : List Char} (h : Starts cs) : cs.takeWhile isSpace = [] := by
  cases cs with
  | nil => rfl
  | cons x xs => rw [List.takeWhile_cons_of_neg (by simp [(h x rfl).1])]

theorem Starts.dropWhile {cs : List Char} (h : Starts cs) : cs.dropWhile isSpace = cs := by
  cases cs with
  | nil => rfl
  | cons x xs => rw [List.dropWhile_cons_of_neg (by simp [(h x rfl).1])]

/-- A token is no comment, also after blank space. -/
theorem Starts.quiet {b cs : List Char} (h : Starts cs) (hb : ∀ x ∈ b, isSpace x) :
    Quiet (b ++ cs) := by
  rw [Quiet, List.dropWhile_append_of_pos hb, h.dropWhile]
  cases cs with
  | nil => rfl
  | cons x xs =>
      unfold commentLength?
      split
      · rename_i heq
        cases heq
        exact absurd rfl (h '/' rfl).2
      · rename_i heq
        cases heq
        exact absurd rfl (h '/' rfl).2
      · rfl

/-! ### Tokens -/

/-- The cursor does not stand right after a character of a word. -/
def Clear (c : Cursor) : Prop := c.prev.any Text.isKeywordChar = false

/-- The cursor stands at the start of the text `cs` and of a token. If the token is a word, it
touches no word before it. -/
structure Ready (cs : List Char) (c : Cursor) : Prop where
  rest : c.rest = cs
  skip : c.skip = c
  clear : ∀ x ∈ cs.head?, Text.isKeywordChar x → c.Clear

/-- The next token is the start of the text `cs`. -/
def At (cs : List Char) (c : Cursor) : Prop := Ready cs c.skip

/-- A cursor with nothing to skip is at its own rest. -/
theorem Ready.at {cs : List Char} {c : Cursor} (h : Ready cs c) : At cs c := by
  rw [At, h.skip]
  exact h

/-- After a character that belongs to no word, a keyword may begin. -/
theorem clear_of_prev {c : Cursor} {x : Char} (h : c.prev = some x)
    (hx : Text.isKeywordChar x = false) : c.Clear := by
  simp [Clear, h, hx]

theorem not_isKeywordChar_of_isSpace {x : Char} (h : isSpace x) :
    Text.isKeywordChar x = false := by
  simp only [isSpace, Bool.or_eq_true, beq_iff_eq] at h
  rcases h with ((rfl | rfl) | rfl) | rfl <;> decide

/-- What comes after blank space is next. -/
theorem at_of_rest {c : Cursor} {b cs : List Char} (h : c.rest = b ++ cs)
    (hb : ∀ x ∈ b, isSpace x) (hs : Starts cs)
    (hc : b = [] → ∀ x ∈ cs.head?, Text.isKeywordChar x → c.Clear) : At cs c := by
  have hskip : c.skip = c.advance b.length := by
    rw [skip_of_quiet (h ▸ hs.quiet hb), h, List.takeWhile_append_of_pos hb, hs.takeWhile,
      List.append_nil]
  obtain ⟨hrest, hprev⟩ := advance_append h
  have hquiet : Quiet (c.advance b.length).rest := by
    rw [hrest]
    exact hs.quiet (b := []) (by simp)
  refine ⟨by rw [hskip, hrest], ?_, fun x hx hword => ?_⟩
  · rw [hskip, skip_of_quiet hquiet, hrest, hs.takeWhile]
    rfl
  -- only a token without blanks before it can touch a word
  · rw [hskip]
    cases hlast : b.getLast? with
    | none =>
        rw [hlast, Option.none_or] at hprev
        rw [Clear, hprev]
        exact hc (List.getLast?_eq_none_iff.mp hlast) x hx hword
    | some y =>
        rw [hlast, Option.some_or] at hprev
        exact clear_of_prev hprev
          (not_isKeywordChar_of_isSpace (hb y (List.mem_of_getLast? hlast)))

/-- What comes after a blank is next. -/
theorem at_after_blank {c : Cursor} {x : Char} {cs : List Char} (h : c.rest = x :: cs)
    (hx : isSpace x) (hs : Starts cs) : At cs c :=
  at_of_rest (b := [x]) h (by simpa using hx) hs fun hnil => absurd hnil (by simp)

/-- What comes without a blank is next. -/
theorem at_here {c : Cursor} {cs : List Char} (h : c.rest = cs) (hs : Starts cs) (hc : c.Clear) :
    At cs c :=
  at_of_rest (b := []) h (by simp) hs fun _ _ _ _ => hc

/-- A mark is next wherever it stands. -/
theorem at_mark {c : Cursor} {x : Char} {cs : List Char} (h : c.rest = x :: cs)
    (hs : Starts (x :: cs)) (hx : Text.isKeywordChar x = false) : At (x :: cs) c := by
  refine at_of_rest (b := []) h (by simp) hs fun _ y hy hword => ?_
  cases hy
  rw [hx] at hword
  cases hword

end Ember.Cursor
