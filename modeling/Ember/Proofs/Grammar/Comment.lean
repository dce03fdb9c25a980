import Ember.Proofs.Grammar.LineEnd

/-!
# Grammar — comments as blank space

Comments are replaced by blank space of the same size: each character by a space, except for line
ends. String literals are left as they are, so the text is gone through lexeme by lexeme.

Two kinds of comments decide how a text is read, and are left. A comment after `return` ends the
statement, where blank space would not. And a comment on a new line carries the line on, so that an
operator or a bracket after it goes on with the operand before it.

* `whiten`: the comments that start a text, as blank space.
* `decisive`: the comments that start a text decide how it is read.
* `blankComments`: a text with its comments as blank space, except for those that are to be kept.
* `Gap`: comments between two lexemes, as they are and as blank space.
* `Veil`: a text, and one in which some comments are blank space.
-/

namespace Ember.Lexeme

open Cursor (isSpace isInlineSpace commentLength? commentsLength lineCommentLength
  blockCommentLength? Quiet)

variable {before cs ds u white rest s m r r' : List Char} {x : Char} {xs : List Char} {n : Nat}

/-! ### Definitions -/

/-- A character of a comment, as blank space. -/
def blankChar (x : Char) : Char := if x = '\n' then x else ' '

/-- The comments that start a text and the blank space before each of them, all as blank space. One
comment is looked for per element of `rounds`, so a text is as many rounds as it needs. -/
def whiten : (rounds : List Char) → List Char → List Char
  | [], _ => []
  | _ :: rounds, cs =>
    let rest := cs.dropWhile isSpace
    match commentLength? rest with
    | none => []
    | some n => cs.takeWhile isSpace ++ (rest.take n).map blankChar ++ whiten rounds (rest.drop n)

/-- The lexeme may be the last one of an operand. -/
def endsOperand (lexeme : List Char) : Bool :=
  lexeme.head?.any fun x => !isMark x || x ∈ [')', ']', '\x7d']

/-- The lexemes that go on with an operand if they stand on its line. -/
def continuations : List String := Grammar.levels.flatten ++ ["(", "["]

/-- The text starts with a lexeme that goes on with an operand. -/
def continues (cs : List Char) : Bool := (Grammar.operatorAt? continuations cs).isSome

/-- The comments that start a text decide how it is read, after the lexeme `before`: they end a
return that blank space would not end, or a line ends in them or before one of them, and what comes
after them goes on with an operand. The lexeme before tells only that it may end an operand. So the
second case also has comments in it that are read as blank space: those after a keyword, after a
name that is declared, and after the closing brace of a statement. -/
def decisive (before cs : List Char) : Bool :=
  let white := whiten cs cs
  let rest := cs.drop white.length
  (before == "return".toList && endsStatement cs != endsStatement (white ++ rest)) ||
    (endsOperand before && !white.all isInlineSpace && continues (rest.dropWhile isInlineSpace))

/-- A text with its comments as blank space, lexeme by lexeme from the lexeme `before` on. Comments
are left if `kept` says so. -/
def blankFrom (kept : (before cs : List Char) → Bool) :
    (rounds : List Char) → (before cs : List Char) → List Char
  | [], _, cs => cs
  | _ :: rounds, before, cs =>
    match whiten cs cs with
    | [] => cs.take (size cs) ++ blankFrom kept rounds (cs.take (size cs)) (cs.drop (size cs))
    | white =>
      (if kept before cs then cs.take white.length else white)
        ++ blankFrom kept rounds [] (cs.drop white.length)

/-- A text with its comments as blank space, except for those that are to be kept. -/
def blankComments (kept : (before cs : List Char) → Bool) (cs : List Char) : List Char :=
  blankFrom kept cs [] cs

/-! ### Single comments -/

/-- A line comment goes on with the next character, unless its line ends. -/
theorem lineCommentLength_cons (h : x = '\\' → xs.head? ≠ some '\n') :
    lineCommentLength (x :: xs) = if x = '\n' then 0 else lineCommentLength xs + 1 := by
  rw [lineCommentLength]
  rintro ys rfl rfl
  exact h rfl rfl

/-- It is over where the line is. -/
theorem lineCommentLength_eq_zero : lineCommentLength cs = 0 ↔ NewLine cs := by
  cases cs with
  | nil => exact iff_of_true rfl (.inl rfl)
  | cons x xs =>
      by_cases hx : x = '\n'
      · subst hx
        rw [lineCommentLength_cons (fun h => absurd h (by decide))]
        exact iff_of_true rfl (.inr ⟨xs, rfl⟩)
      · refine iff_of_false ?_ ?_
        · unfold lineCommentLength
          split <;> simp_all
        · rintro (h | ⟨v, h⟩) <;> simp_all

/-- Whether a line is over is seen from the next character. -/
theorem newLine_congr (h : NewLine r) (hr : r'.head? = r.head?) : NewLine r' := by
  cases r' with
  | nil => exact .inl rfl
  | cons y ys =>
      rcases h with rfl | ⟨v, rfl⟩
      · cases hr
      · cases hr
        exact .inr ⟨ys, rfl⟩

/-- A line comment ends where it does whatever comes after the next character. -/
theorem lineCommentLength_congr : ∀ {m : List Char}, lineCommentLength (m ++ r) = m.length →
    r'.head? = r.head? → lineCommentLength (m ++ r') = m.length
  | [], h, hr => lineCommentLength_eq_zero.mpr (newLine_congr (lineCommentLength_eq_zero.mp h) hr)
  | [x], h, hr => by
      have hx : x = '\\' → r.head? ≠ some '\n' := by
        rintro rfl hhead
        cases r with
        | nil => cases hhead
        | cons y ys =>
            cases hhead
            simp [lineCommentLength] at h
      have hx' : x = '\\' → r'.head? ≠ some '\n' := by rwa [hr]
      rw [List.singleton_append, lineCommentLength_cons hx] at h
      rw [List.singleton_append, lineCommentLength_cons hx']
      split at h
      · cases h
      · rw [if_neg ‹_›]
        have hzero := lineCommentLength_eq_zero.mp (Nat.succ.inj h)
        rw [lineCommentLength_eq_zero.mpr (newLine_congr hzero hr)]
        rfl
  | x :: y :: m, h, hr => by
      by_cases hxy : x = '\\' ∧ y = '\n'
      · obtain ⟨rfl, rfl⟩ := hxy
        have hm : lineCommentLength (m ++ r) = m.length := by
          simpa [lineCommentLength] using h
        simp [lineCommentLength, lineCommentLength_congr hm hr]
      · have hx : ∀ zs : List Char, x = '\\' → (y :: zs).head? ≠ some '\n' := by
          rintro zs rfl hhead
          exact hxy ⟨rfl, Option.some.inj hhead⟩
        rw [List.cons_append, List.cons_append, lineCommentLength_cons (hx _)] at h
        rw [List.cons_append, List.cons_append, lineCommentLength_cons (hx _)]
        split at h
        · cases h
        · rw [if_neg ‹_›]
          have hm : lineCommentLength (y :: m ++ r) = (y :: m).length := Nat.succ.inj h
          exact congrArg Nat.succ (lineCommentLength_congr hm hr)

/-- A line comment goes up to the end of its line. -/
theorem newLine_drop_lineCommentLength : ∀ cs : List Char, NewLine (cs.drop (lineCommentLength cs))
  | [] => .inl rfl
  | [x] => by
      rw [lineCommentLength_cons (by simp)]
      split
      · rename_i hx
        exact .inr ⟨[], by rw [hx]; rfl⟩
      · exact .inl rfl
  | x :: y :: cs => by
      by_cases hxy : x = '\\' ∧ y = '\n'
      · obtain ⟨rfl, rfl⟩ := hxy
        exact newLine_drop_lineCommentLength cs
      · have hx : x = '\\' → (y :: cs).head? ≠ some '\n' := by
          rintro rfl hhead
          exact hxy ⟨rfl, Option.some.inj hhead⟩
        rw [lineCommentLength_cons hx]
        split
        · rename_i hx
          exact .inr ⟨y :: cs, by rw [hx]; rfl⟩
        · exact newLine_drop_lineCommentLength (y :: cs)

/-- A line comment is followed by a new line. -/
theorem newLine_of_lineCommentLength (h : lineCommentLength (m ++ r) = m.length) : NewLine r := by
  have hdrop := newLine_drop_lineCommentLength (m ++ r)
  rwa [h, List.drop_left] at hdrop

/-- A block comment goes on with the next character, unless it is closed. -/
theorem blockCommentLength?_cons (h : x = '*' → xs.head? ≠ some '/') :
    blockCommentLength? (x :: xs) = (blockCommentLength? xs).map (· + 1) := by
  rw [blockCommentLength?]
  rintro ys rfl rfl
  exact h rfl rfl

/-- What closes a block comment takes two characters. -/
theorem blockCommentLength?_ge : ∀ {cs : List Char} {n : Nat}, blockCommentLength? cs = some n →
    2 ≤ n
  | [], _, h => by cases h
  | x :: xs, n, h => by
      unfold blockCommentLength? at h
      split at h
      · cases h
      · cases h
        exact Nat.le_refl 2
      · rename_i heq
        cases heq
        obtain ⟨k, hk, rfl⟩ := Option.map_eq_some_iff.mp h
        have := blockCommentLength?_ge hk
        omega

/-- A block comment ends where it does whatever comes after it. -/
theorem blockCommentLength?_congr : ∀ {m : List Char},
    blockCommentLength? (m ++ r) = some m.length → blockCommentLength? (m ++ r') = some m.length
  | [], h => absurd (blockCommentLength?_ge h) (by simp)
  | [x], h => absurd (blockCommentLength?_ge h) (by simp)
  | x :: y :: m, h => by
      by_cases hxy : x = '*' ∧ y = '/'
      · obtain ⟨rfl, rfl⟩ := hxy
        simpa [blockCommentLength?] using h
      · have hx : ∀ zs : List Char, x = '*' → (y :: zs).head? ≠ some '/' := by
          rintro zs rfl hhead
          exact hxy ⟨rfl, Option.some.inj hhead⟩
        rw [List.cons_append, List.cons_append, blockCommentLength?_cons (hx _)] at h
        rw [List.cons_append, List.cons_append, blockCommentLength?_cons (hx _)]
        obtain ⟨k, hk, hlength⟩ := Option.map_eq_some_iff.mp h
        have hm : blockCommentLength? (y :: m ++ r) = some (y :: m).length := by
          rw [← Nat.succ.inj hlength]
          exact hk
        rw [show y :: (m ++ r') = y :: m ++ r' from rfl, blockCommentLength?_congr hm]
        rfl

/-- What a comment is. -/
theorem exists_of_commentLength? (h : commentLength? (m ++ r) = some m.length) :
    ∃ k, (m = '/' :: '/' :: k ∧ lineCommentLength (k ++ r) = k.length) ∨
      (m = '/' :: '*' :: k ∧ blockCommentLength? (k ++ r) = some k.length) := by
  have hge : 2 ≤ m.length := by
    unfold commentLength? at h
    split at h
    · have := Option.some.inj h
      omega
    · obtain ⟨k, hk, hlength⟩ := Option.map_eq_some_iff.mp h
      omega
    · cases h
  obtain ⟨x, y, k, rfl⟩ : ∃ x y k, m = x :: y :: k := by
    rcases m with _ | ⟨x, _ | ⟨y, k⟩⟩
    · simp at hge
    · simp at hge
    · exact ⟨x, y, k, rfl⟩
  rw [List.cons_append, List.cons_append] at h
  unfold commentLength? at h
  split at h
  · rename_i heq
    cases heq
    refine ⟨k, .inl ⟨rfl, ?_⟩⟩
    simpa using h
  · rename_i heq
    cases heq
    refine ⟨k, .inr ⟨rfl, ?_⟩⟩
    obtain ⟨n, hn, hlength⟩ := Option.map_eq_some_iff.mp h
    rw [hn]
    simpa using hlength
  · cases h

/-- How long a comment is is seen from the next character after it. -/
theorem commentLength?_congr (h : commentLength? (m ++ r) = some m.length)
    (hr : r'.head? = r.head?) : commentLength? (m ++ r') = some m.length := by
  obtain ⟨k, ⟨rfl, hk⟩ | ⟨rfl, hk⟩⟩ := exists_of_commentLength? h
  · simp [commentLength?, lineCommentLength_congr hk hr]
  · have hk' : blockCommentLength? (k ++ r') = some k.length := blockCommentLength?_congr hk
    simp [commentLength?, hk']

/-- A line comment is no longer than the text, -/
theorem lineCommentLength_le : ∀ cs : List Char, lineCommentLength cs ≤ cs.length
  | [] => Nat.le_refl 0
  | [x] => by
      rw [lineCommentLength_cons (by simp)]
      split
      · exact Nat.zero_le _
      · exact Nat.le_refl 1
  | x :: y :: cs => by
      by_cases hxy : x = '\\' ∧ y = '\n'
      · obtain ⟨rfl, rfl⟩ := hxy
        have := lineCommentLength_le cs
        simp only [lineCommentLength, List.length_cons]
        omega
      · have hx : x = '\\' → (y :: cs).head? ≠ some '\n' := by
          rintro rfl hhead
          exact hxy ⟨rfl, Option.some.inj hhead⟩
        rw [lineCommentLength_cons hx]
        split
        · exact Nat.zero_le _
        · exact Nat.succ_le_succ (lineCommentLength_le (y :: cs))

/-- nor is a block comment, -/
theorem blockCommentLength?_le : ∀ {cs : List Char} {n : Nat}, blockCommentLength? cs = some n →
    n ≤ cs.length
  | [], _, h => by cases h
  | x :: xs, n, h => by
      unfold blockCommentLength? at h
      split at h
      · cases h
      · rename_i heq
        cases heq
        cases h
        simp
      · rename_i heq
        cases heq
        obtain ⟨k, hk, rfl⟩ := Option.map_eq_some_iff.mp h
        exact Nat.succ_le_succ (blockCommentLength?_le hk)

/-- and so no comment is. -/
theorem commentLength?_le (h : commentLength? cs = some n) : n ≤ cs.length := by
  unfold commentLength? at h
  split at h
  · rename_i xs
    cases h
    exact Nat.succ_le_succ (Nat.succ_le_succ (lineCommentLength_le xs))
  · obtain ⟨k, hk, rfl⟩ := Option.map_eq_some_iff.mp h
    exact Nat.succ_le_succ (Nat.succ_le_succ (blockCommentLength?_le hk))
  · cases h

/-! ### Gaps -/

/-- Comments, each after blank space, with the text after them in which no comment comes next; and
the same comments as blank space. -/
inductive Gap : (u white rest : List Char) → Prop where
  | nil {rest : List Char} (h : Quiet rest) : Gap [] [] rest
  | comment {s m u white rest : List Char} (hs : Blank s)
      (hm : commentLength? (m ++ (u ++ rest)) = some m.length) (h : Gap u white rest) :
      Gap (s ++ m ++ u) (s ++ m.map blankChar ++ white) rest

/-- A character may stand for another one, or be a blank in its place. -/
def Dims (x y : Char) : Prop := y = x ∨ (x ≠ '\n' ∧ y = ' ')

/-- What a character is blanked to takes up the same room, -/
theorem dims_blankChar (x : Char) : Dims x (blankChar x) := by
  unfold blankChar
  split
  · exact .inl rfl
  · rename_i hx
    exact .inr ⟨hx, rfl⟩

/-- and is blank space. -/
theorem isSpace_blankChar (x : Char) : isSpace (blankChar x) := by
  unfold blankChar
  split
  · rename_i hx
    rw [hx]
    rfl
  · rfl

/-- A comment starts with a slash. -/
theorem exists_cons_of_commentLength? (h : commentLength? (m ++ r) = some m.length) :
    ∃ y k, m = '/' :: y :: k := by
  obtain ⟨k, ⟨rfl, -⟩ | ⟨rfl, -⟩⟩ := exists_of_commentLength? h
  · exact ⟨_, k, rfl⟩
  · exact ⟨_, k, rfl⟩

/-- Blank space before a comment is skipped up to the comment. -/
theorem span_comment (hs : Blank s) (h : commentLength? (m ++ r) = some m.length) :
    (s ++ (m ++ r)).takeWhile isSpace = s ∧ (s ++ (m ++ r)).dropWhile isSpace = m ++ r := by
  obtain ⟨y, k, rfl⟩ := exists_cons_of_commentLength? h
  constructor
  · rw [List.takeWhile_append_of_pos hs]
    exact List.append_nil s
  · rw [List.dropWhile_append_of_pos hs]
    rfl

namespace Gap

/-- After a gap no comment comes. -/
theorem quiet (h : Gap u white rest) : Quiet rest := by
  induction h with
  | nil h => exact h
  | comment _ _ _ ih => exact ih

/-- A gap is made into blank space, -/
theorem blank (h : Gap u white rest) : Blank white := by
  induction h with
  | nil => exact fun _ hx => absurd hx List.not_mem_nil
  | comment hs _ _ ih =>
      refine List.forall_mem_append.mpr ⟨List.forall_mem_append.mpr ⟨hs, fun x hx => ?_⟩, ih⟩
      obtain ⟨y, -, rfl⟩ := List.mem_map.mp hx
      exact isSpace_blankChar y

theorem forall_dims_refl (cs : List Char) : List.Forall₂ Dims cs cs :=
  List.forall₂_same.mpr fun _ _ => .inl rfl

/-- which takes up the same room. -/
theorem dims (h : Gap u white rest) : List.Forall₂ Dims u white := by
  induction h with
  | nil => exact .nil
  | @comment s m u white rest _ _ _ ih =>
      have hm : List.Forall₂ Dims m (m.map blankChar) :=
        List.forall₂_map_right_iff.mpr (List.forall₂_same.mpr fun x _ => dims_blankChar x)
      exact List.rel_append (List.rel_append (forall_dims_refl s) hm) ih

/-- Comments end where they do whatever comes after the next character. -/
theorem congr (h : Gap u white r) (hq : Quiet r') (hr : r'.head? = r.head?) : Gap u white r' := by
  induction h with
  | nil _ => exact .nil hq
  | @comment s m u white rest hs hm _ ih =>
      refine .comment hs (commentLength?_congr hm ?_) (ih hr)
      cases u with
      | nil => exact hr
      | cons x xs => rfl

/-- The first comment. -/
theorem split (h : Gap u white rest) (hu : u ≠ []) :
    ∃ s m v white', u = s ++ m ++ v ∧ white = s ++ m.map blankChar ++ white' ∧ Blank s ∧
      commentLength? (m ++ (v ++ rest)) = some m.length := by
  cases h with
  | nil => exact absurd rfl hu
  | comment hs hm _ => exact ⟨_, _, _, _, rfl, rfl, hs, hm⟩

/-- A gap is what is skipped, -/
theorem commentsLength_eq (h : Gap u white rest) {rounds : List Char}
    (hrounds : (u ++ rest).length ≤ rounds.length) :
    commentsLength rounds (u ++ rest) = u.length := by
  induction h generalizing rounds with
  | nil h => exact Cursor.commentsLength_of_quiet h rounds
  | @comment s m u white rest hs hm _ ih =>
      obtain ⟨y, k, hmk⟩ := exists_cons_of_commentLength? hm
      have hcs : s ++ m ++ u ++ rest = s ++ (m ++ (u ++ rest)) := by simp only [List.append_assoc]
      obtain ⟨htake, hdrop⟩ := span_comment hs hm
      cases rounds with
      | nil => simp [hmk] at hrounds
      | cons z rounds =>
          have hle : (u ++ rest).length ≤ rounds.length := by
            simp only [hmk, List.length_append, List.length_cons] at hrounds ⊢
            omega
          rw [hcs, commentsLength]
          simp only [htake, List.drop_left, hm]
          rw [← List.append_assoc, ← List.length_append, List.drop_left, ih hle,
            ← List.length_append]

/-- and what is made into blank space. -/
theorem whiten_eq (h : Gap u white rest) {rounds : List Char}
    (hrounds : (u ++ rest).length ≤ rounds.length) : whiten rounds (u ++ rest) = white := by
  induction h generalizing rounds with
  | nil h =>
      cases rounds with
      | nil => rfl
      | cons z rounds =>
          rw [List.nil_append, whiten]
          simp only [show commentLength? _ = none from h]
  | @comment s m u white rest hs hm _ ih =>
      obtain ⟨y, k, hmk⟩ := exists_cons_of_commentLength? hm
      have hcs : s ++ m ++ u ++ rest = s ++ (m ++ (u ++ rest)) := by simp only [List.append_assoc]
      obtain ⟨htake, hdrop⟩ := span_comment hs hm
      cases rounds with
      | nil => simp [hmk] at hrounds
      | cons z rounds =>
          have hle : (u ++ rest).length ≤ rounds.length := by
            simp only [hmk, List.length_append, List.length_cons] at hrounds ⊢
            omega
          rw [hcs, whiten]
          simp only [htake, hdrop, hm, List.take_left, List.drop_left, ih hle]

theorem length_eq (h : Gap u white rest) : white.length = u.length := h.dims.length_eq.symm

end Gap

/-- Every text starts with a gap, if only an empty one. -/
theorem exists_gap (cs : List Char) : ∃ u white rest, cs = u ++ rest ∧ Gap u white rest := by
  induction hlength : cs.length using Nat.strongRecOn generalizing cs with
  | _ length ih =>
      cases hn : commentLength? (cs.dropWhile isSpace) with
      | none => exact ⟨[], [], cs, rfl, .nil hn⟩
      | some n =>
          have hle := commentLength?_le hn
          have hspace : Blank (cs.takeWhile isSpace) := fun x hx => List.mem_takeWhile_imp hx
          have hm : commentLength? ((cs.dropWhile isSpace).take n ++ (cs.dropWhile isSpace).drop n)
              = some ((cs.dropWhile isSpace).take n).length := by
            rw [List.take_append_drop, hn, List.length_take, Nat.min_eq_left hle]
          have hshorter : ((cs.dropWhile isSpace).drop n).length < length := by
            obtain ⟨y, k, hyk⟩ := exists_cons_of_commentLength? hm
            have hpos := congrArg List.length hyk
            have hsuffix := (List.dropWhile_suffix isSpace (l := cs)).length_le
            simp only [List.length_take, List.length_drop, List.length_cons] at *
            omega
          obtain ⟨u, white, rest, hcs, hgap⟩ := ih _ hshorter _ rfl
          rw [hcs] at hm
          refine ⟨_, _, rest, ?_, .comment hspace hm hgap⟩
          rw [List.append_assoc, List.append_assoc, ← hcs, List.take_append_drop,
            List.takeWhile_append_dropWhile]

/-- A gap that is not empty starts with a comment. -/
theorem Gap.not_quiet (h : Gap u white rest) (hu : u ≠ []) : ¬ Quiet (u ++ rest) := by
  obtain ⟨s, m, v, -, rfl, -, hs, hm⟩ := h.split hu
  have hdrop := (span_comment hs hm).2
  rw [Quiet, List.append_assoc, List.append_assoc, hdrop, hm]
  exact Option.some_ne_none m.length

/-! ### Texts with comments as blank space -/

/-- A lexeme is no longer than the text. -/
theorem size_le (x : Char) (xs : List Char) : size (x :: xs) ≤ (x :: xs).length := by
  cases hnumber : number? (x :: xs) with
  | some n => exact size_of_number hnumber ▸ number?_le hnumber
  | none =>
      cases hname : name? (x :: xs) with
      | some n => exact size_of_name hname ▸ name?_le hname
      | none =>
          cases hstring : string? (x :: xs) with
          | some n => exact size_of_string hstring ▸ string?_le hstring
          | none =>
              rw [size, hnumber, hname, hstring]
              exact Nat.succ_le_succ (Nat.zero_le _)

/-- The second text is the first one, in which some comments are blank space and those that decide
how it is read are not. The first argument is the lexeme before. -/
inductive Veil : (before cs ds : List Char) → Prop where
  | nil {before : List Char} : Veil before [] []
  | lexeme {before cs ds : List Char} (hquiet : Quiet cs) (hne : cs ≠ [])
      (h : Veil (cs.take (size cs)) (cs.drop (size cs)) ds) :
      Veil before cs (cs.take (size cs) ++ ds)
  | keep {before u white cs ds : List Char} (hgap : Gap u white cs) (hu : u ≠ [])
      (h : Veil [] cs ds) : Veil before (u ++ cs) (u ++ ds)
  | blank {before u white cs ds : List Char} (hgap : Gap u white cs) (hu : u ≠ [])
      (hfree : decisive before (u ++ cs) = false) (h : Veil [] cs ds) :
      Veil before (u ++ cs) (white ++ ds)

/-- A text of which some comments are made into blank space veils it, if those that decide stay. -/
theorem veil_blankFrom {kept : List Char → List Char → Bool}
    (hkept : ∀ before cs, decisive before cs → kept before cs) {rounds : List Char}
    (hrounds : cs.length ≤ rounds.length) (before : List Char) :
    Veil before cs (blankFrom kept rounds before cs) := by
  induction rounds generalizing before cs with
  | nil =>
      obtain rfl : cs = [] := List.length_eq_zero_iff.mp (Nat.le_zero.mp hrounds)
      exact .nil
  | cons z rounds ih =>
      obtain ⟨u, white, rest, rfl, hgap⟩ := exists_gap cs
      have hwhiten : whiten (u ++ rest) (u ++ rest) = white := hgap.whiten_eq (Nat.le_refl _)
      have hlength := hgap.length_eq
      rw [blankFrom, hwhiten]
      cases u with
      | nil =>
          obtain rfl : white = [] := List.length_eq_zero_iff.mp hlength
          rw [List.nil_append] at hrounds ⊢
          cases rest with
          | nil =>
              have hnil : ∀ rounds before, blankFrom kept rounds before [] = [] := by
                intro rounds
                induction rounds with
                | nil => exact fun _ => rfl
                | cons z rounds ih => exact fun before => by simp [blankFrom, whiten, ih]
              simp only [List.take_nil, List.drop_nil, hnil, List.append_nil]
              exact .nil
          | cons x xs =>
              have hpos := size_pos (x :: xs)
              refine .lexeme hgap.quiet (List.cons_ne_nil x xs) (ih ?_ _)
              simp only [List.length_drop, List.length_cons] at hrounds ⊢
              omega
      | cons y ys =>
          have hne : y :: ys ≠ [] := List.cons_ne_nil y ys
          have hrest : Veil [] rest (blankFrom kept rounds [] rest) := ih (by
            simp only [List.length_append, List.length_cons] at hrounds
            omega) []
          cases white with
          | nil => cases hlength
          | cons w ws =>
              simp only [hlength, List.drop_left, List.take_left]
              split
              · exact .keep hgap hne hrest
              · rename_i hfree
                refine .blank hgap hne ?_ hrest
                by_contra hdecisive
                exact hfree (hkept _ _ (by simpa using hdecisive))

namespace Veil

/-- A veiled text takes up the same room. -/
theorem dims (h : Veil before cs ds) : List.Forall₂ Dims cs ds := by
  induction h with
  | nil => exact .nil
  | @lexeme _ cs ds _ _ _ ih =>
      have hcs : List.Forall₂ Dims (cs.take (size cs) ++ cs.drop (size cs))
          (cs.take (size cs) ++ ds) := List.rel_append (Gap.forall_dims_refl _) ih
      rwa [List.take_append_drop] at hcs
  | keep _ _ _ ih => exact List.rel_append (Gap.forall_dims_refl _) ih
  | blank hgap _ _ _ ih => exact List.rel_append hgap.dims ih

theorem eq_nil (h : Veil before [] ds) : ds = [] := List.forall₂_nil_left_iff.mp h.dims

/-- Where no comment comes next, the first lexeme is the same. -/
theorem lexeme_of_quiet (h : Veil before cs ds) (hq : Quiet cs) (hne : cs ≠ []) :
    ∃ ds', ds = cs.take (size cs) ++ ds' ∧ Veil (cs.take (size cs)) (cs.drop (size cs)) ds' := by
  cases h with
  | nil => exact absurd rfl hne
  | lexeme _ _ h => exact ⟨_, rfl, h⟩
  | keep hgap hu _ => exact absurd hq (hgap.not_quiet hu)
  | blank hgap hu _ _ => exact absurd hq (hgap.not_quiet hu)

/-- A mark is not veiled. -/
theorem mark_of_quiet (h : Veil before (x :: xs) ds) (hq : Quiet (x :: xs)) (hx : isMark x) :
    ∃ ds', ds = x :: ds' ∧ Veil [x] xs ds' := by
  obtain ⟨ds', hds, h'⟩ := h.lexeme_of_quiet hq (List.cons_ne_nil x xs)
  rw [size_of_mark hx] at hds h'
  exact ⟨ds', hds, h'⟩

/-- Nor is any other character that no comment starts with. -/
theorem head?_of_quiet (h : Veil before cs ds) (hq : Quiet cs) : ds.head? = cs.head? := by
  cases cs with
  | nil => rw [h.eq_nil]
  | cons x xs =>
      obtain ⟨ds', rfl, -⟩ := h.lexeme_of_quiet hq (List.cons_ne_nil x xs)
      obtain ⟨n, hn⟩ := Nat.exists_eq_add_one.mpr (size_pos (x :: xs))
      rw [hn]
      rfl

/-- Blank space before a lexeme is the same. -/
theorem spaces_of_quiet (h : Veil before cs ds) (hq : Quiet cs) :
    ∃ b ds', ds = cs.takeWhile isSpace ++ ds' ∧ Veil b (cs.dropWhile isSpace) ds' := by
  induction cs generalizing before ds with
  | nil => exact ⟨before, ds, rfl, h⟩
  | cons x xs ih =>
      by_cases hx : isSpace x
      · obtain ⟨ds₁, rfl, h₁⟩ := h.mark_of_quiet hq (isMark_of_isSpace hx)
        have hq₁ : Quiet xs := by rwa [Quiet, List.dropWhile_cons_of_pos hx] at hq
        obtain ⟨b, ds', rfl, h'⟩ := ih h₁ hq₁
        rw [List.takeWhile_cons_of_pos hx, List.dropWhile_cons_of_pos hx]
        exact ⟨b, ds', rfl, h'⟩
      · rw [List.takeWhile_cons_of_neg hx, List.dropWhile_cons_of_neg hx]
        exact ⟨before, ds, rfl, h⟩

end Veil

/-! ### Where the next lexeme is -/

/-- The text is over or starts with a lexeme. -/
structure Settled (cs : List Char) : Prop where
  head : cs.dropWhile isSpace = cs
  comment : commentLength? cs = none

theorem Settled.quiet (h : Settled cs) : Quiet cs := by rw [Quiet, h.head, h.comment]

/-- After blank space a text is settled, where no comment comes. -/
theorem settled_dropWhile (h : Quiet cs) : Settled (cs.dropWhile isSpace) :=
  ⟨Grammar.dropWhile_dropWhile isSpace cs, h⟩

/-- A settled text does not start with blank space. -/
theorem Settled.not_isSpace (h : Settled (x :: xs)) : isSpace x = false := by
  by_contra hx
  have hlength := congrArg List.length h.head
  rw [List.dropWhile_cons_of_pos (by simpa using hx)] at hlength
  have hsuffix := (List.dropWhile_suffix isSpace (l := xs)).length_le
  rw [List.length_cons] at hlength
  omega

/-- Whether a text is settled is seen from its first character, and from comments. -/
theorem settled_of_head? (h : Settled cs) (hhead : ds.head? = cs.head?)
    (hcomment : commentLength? ds = none) : Settled ds := by
  refine ⟨?_, hcomment⟩
  cases ds with
  | nil => rfl
  | cons y ys =>
      cases cs with
      | nil => cases hhead
      | cons x xs =>
          cases hhead
          exact List.dropWhile_cons_of_neg (by simp [h.not_isSpace])

/-- What blank space and comments come before is a lexeme. -/
theorem settled_skip (c : Cursor) : Settled c.skip.rest := by
  obtain ⟨u, white, rest, hrest, hgap⟩ := exists_gap c.rest
  have hcomments : c.skipComments.rest = rest := by
    rw [Cursor.skipComments, Cursor.advance_rest, hrest, hgap.commentsLength_eq (Nat.le_refl _),
      List.drop_left]
  have hskip : c.skip.rest = c.skipComments.rest.dropWhile isSpace :=
    (Cursor.advance_rest _ _).trans (Cursor.drop_takeWhile isSpace c.skipComments.rest)
  rw [hskip, hcomments]
  exact settled_dropWhile hgap.quiet

/-- Where the text is settled there is nothing to skip. -/
theorem skip_of_settled {c : Cursor} (h : Settled c.rest) : c.skip = c := by
  have hsplit := List.takeWhile_append_dropWhile (p := isSpace) (l := c.rest)
  have hnone : c.rest.takeWhile isSpace = [] := by rwa [h.head, List.append_left_eq_self] at hsplit
  rw [Cursor.skip_of_quiet h.quiet, hnone]
  rfl

/-- After blank space and comments there is nothing more to skip. -/
theorem skip_skip (c : Cursor) : c.skip.skip = c.skip := skip_of_settled (settled_skip c)

/-- A settled text starts with no blank space of any sort. -/
theorem Settled.not_head {p : Char → Bool} (h : Settled cs) (hp : ∀ x, p x → isSpace x) :
    ∀ x ∈ cs.head?, ¬ p x := by
  intro x hx hpx
  cases cs with
  | nil => cases hx
  | cons y ys =>
      cases hx
      simpa [h.not_isSpace] using hp x hpx

/-- A comment that is not closed is not closed with others blanked in it. -/
theorem blockCommentLength?_dims (h : List.Forall₂ Dims cs ds)
    (hcs : blockCommentLength? cs = none) : blockCommentLength? ds = none := by
  induction h with
  | nil => rfl
  | @cons x y xs ys hxy hxs ih =>
      have hfree : x = '*' → xs.head? ≠ some '/' := by
        rintro rfl hhead
        cases xs with
        | nil => cases hhead
        | cons z zs =>
            cases hhead
            cases hcs
      rw [blockCommentLength?_cons hfree, Option.map_eq_none_iff] at hcs
      rw [blockCommentLength?_cons, ih hcs]
      · rfl
      · -- neither of the two characters is a blank, so both stand in the first text
        rintro rfl hhead
        obtain rfl : x = '*' := (hxy.resolve_right (fun h => absurd h.2 (by decide))).symm
        cases hxs with
        | nil => cases hhead
        | cons hz _ =>
            cases hhead
            have hz := hz.resolve_right (fun h => absurd h.2 (by decide))
            exact hfree rfl (congrArg some hz.symm)

/-- Blanks make no comment. -/
theorem commentLength?_dims (h : List.Forall₂ Dims cs ds) (hcs : commentLength? cs = none) :
    commentLength? ds = none := by
  unfold commentLength?
  split
  · rename_i ys
    cases h with
    | cons hx h =>
        cases h with
        | cons hy h =>
            have hx := hx.resolve_right (fun h => absurd h.2 (by decide))
            have hy := hy.resolve_right (fun h => absurd h.2 (by decide))
            subst hx hy
            cases hcs
  · rename_i ys
    cases h with
    | cons hx h =>
        cases h with
        | cons hy h =>
            have hx := hx.resolve_right (fun h => absurd h.2 (by decide))
            have hy := hy.resolve_right (fun h => absurd h.2 (by decide))
            subst hx hy
            rw [commentLength?, Option.map_eq_none_iff] at hcs
            rw [blockCommentLength?_dims h hcs]
            rfl
  · rfl

/-- A settled text is settled when it is veiled. -/
theorem Veil.settled (h : Veil before cs ds) (hcs : Settled cs) : Settled ds :=
  settled_of_head? hcs (h.head?_of_quiet hcs.quiet) (commentLength?_dims h.dims hcs.comment)

/-- Where no comment comes next, blank space is the same in both texts. -/
theorem Veil.parts_of_quiet (h : Veil before cs ds) (hq : Quiet cs) :
    ∃ s r r' b, cs = s ++ r ∧ ds = s ++ r' ∧ Blank s ∧ Settled r ∧ Veil b r r' ∧
      Quiet (s ++ r') ∧ (s ++ r').head? = (s ++ r).head? := by
  obtain ⟨b, ds', rfl, h'⟩ := h.spaces_of_quiet hq
  have hspace : Blank (cs.takeWhile isSpace) := fun x hx => List.mem_takeWhile_imp hx
  have hsettled := settled_dropWhile hq
  refine ⟨_, _, ds', b, (List.takeWhile_append_dropWhile).symm, rfl, hspace, hsettled, h', ?_, ?_⟩
  · rw [Quiet, List.dropWhile_append_of_pos hspace]
    exact (h'.settled hsettled).quiet
  · rw [List.takeWhile_append_dropWhile]
    exact h.head?_of_quiet hq

/-- The gap in front of the next lexeme in both texts, and the texts from there on. Either the gap
is the same, or it is blank space in the second text and does not decide how the text is read. -/
theorem Veil.parts (h : Veil before cs ds) :
    ∃ u white s r r' b, cs = u ++ (s ++ r) ∧ Gap u white (s ++ r) ∧ Blank s ∧ Settled r ∧
      Veil b r r' ∧ ((ds = u ++ (s ++ r') ∧ Gap u white (s ++ r')) ∨
        (ds = white ++ (s ++ r') ∧ decisive before cs = false)) := by
  cases h with
  | nil => exact ⟨[], [], [], [], [], before, rfl, .nil rfl, nofun, ⟨rfl, rfl⟩, .nil,
      .inl ⟨rfl, .nil rfl⟩⟩
  | lexeme hq hne h =>
      have hcs : Veil before cs _ := .lexeme hq hne h
      obtain ⟨s, r, r', b, rfl, hds, hs, hr, h', hq', -⟩ := hcs.parts_of_quiet hq
      exact ⟨[], [], s, r, r', b, rfl, .nil hq, hs, hr, h', .inl ⟨hds, .nil hq'⟩⟩
  | keep hgap hu h =>
      obtain ⟨s, r, r', b, rfl, rfl, hs, hr, h', hq', hhead⟩ := h.parts_of_quiet hgap.quiet
      exact ⟨_, _, s, r, r', b, rfl, hgap, hs, hr, h', .inl ⟨rfl, hgap.congr hq' hhead⟩⟩
  | blank hgap hu hfree h =>
      obtain ⟨s, r, r', b, rfl, rfl, hs, hr, h', -, -⟩ := h.parts_of_quiet hgap.quiet
      exact ⟨_, _, s, r, r', b, rfl, hgap, hs, hr, h', .inr ⟨rfl, hfree⟩⟩

end Ember.Lexeme
