import Ember.Proofs.Grammar.Comment.Token

/-!
# Grammar — going through a text lexeme by lexeme

A text is made of lexemes, and between them there are comments. Every parser that succeeds goes from
one lexeme to another one, and what it has passed on its way can be told from the text alone: which
brackets were opened and closed in lexemes, and which comments there were. Either all brackets are
counted or those of one kind only.

* `Lexeme.comments`: the comments of a text.
* `Lexeme.Crossing`: the way through a text, with the brackets opened and the comments on it.
* `Lexeme.Crossing.comments_eq`: the comments on the way are those of the text.
* `Lexeme.Crosses`: there is a way on which so many more brackets are opened than closed.
* `crosses_pass`, `crosses_name`, `crosses_sign`, …: what is skipped, and each class of lexemes.
-/

namespace Ember.Lexeme

open Cursor (isSpace commentLength? Quiet)
open Grammar (forall_of_all)

variable {cs ds es u white rest s text : List Char} {x : Char} {xs : List Char} {n : Nat}
  {j k : Int} {ms ms' : List (List Char)} {word : String} {p counted : Char → Bool}

/-! ### Comments -/

/-- The comments of a text. One lexeme or comment is looked for per element of `rounds`, so a text
is as many rounds as it needs. -/
def commentsFrom : (rounds : List Char) → List Char → List (List Char)
  | [], _ => []
  | _ :: rounds, cs =>
    match commentLength? cs with
    | some n => cs.take n :: commentsFrom rounds (cs.drop n)
    | none => commentsFrom rounds (after cs)

/-- The comments of a text; what looks like one in a string literal is none. -/
def comments (cs : List Char) : List (List Char) := commentsFrom cs cs

/-- A comment starts with a slash. -/
theorem commentLength?_eq_none (hx : x ≠ '/') (xs : List Char) :
    commentLength? (x :: xs) = none := by
  unfold commentLength?
  split
  · rename_i heq
    cases heq
    exact (hx rfl).elim
  · rename_i heq
    cases heq
    exact (hx rfl).elim
  · rfl

/-- Where no comment comes next, none starts right here. -/
theorem comment_of_quiet (h : Quiet cs) : commentLength? cs = none := by
  cases cs with
  | nil => rfl
  | cons x xs =>
      by_cases hx : isSpace x
      · refine commentLength?_eq_none ?_ xs
        rintro rfl
        cases hx
      · rwa [Quiet, List.dropWhile_cons_of_neg hx] at h

/-- A comment is not empty. -/
theorem commentLength?_pos (h : commentLength? cs = some n) : 0 < n := by
  have hlength : (cs.take n).length = n := List.length_take_of_le (commentLength?_le h)
  have hm : commentLength? (cs.take n ++ cs.drop n) = some (cs.take n).length := by
    rw [List.take_append_drop, hlength, h]
  obtain ⟨y, k, hyk⟩ := exists_cons_of_commentLength? hm
  rw [← hlength, hyk]
  exact Nat.succ_pos _

/-! ### Ways through a text -/

/-- What a character adds to the brackets that are open, if only some of them are counted. -/
def weightOf (counted : Char → Bool) (x : Char) : Int := if counted x then weight x else 0

/-- All brackets are counted. -/
def anyBracket : Char → Bool := fun _ => true

@[simp] theorem weightOf_anyBracket (x : Char) : weightOf anyBracket x = weight x := if_pos rfl

/-- What is no bracket is none of those that are counted. -/
theorem weightOf_of_weight (h : weight x = 0) : weightOf counted x = 0 := by
  rw [weightOf, h, ite_self]

theorem weightOf_of_not_special (h : x ∉ special) : weightOf counted x = 0 :=
  weightOf_of_weight (weight_of_not_special h)

/-- The way from a text to what is left of it after some lexemes and comments: how many more of the
counted brackets are opened than closed in the lexemes, and the comments. Every quotation mark on
the way is that of a string literal. -/
inductive Crossing (counted : Char → Bool) :
    Int → List (List Char) → List Char → List Char → Prop where
  | refl (cs : List Char) : Crossing counted 0 [] cs cs
  | lexeme {x : Char} {xs ds : List Char} {k : Int} {ms : List (List Char)}
      (hplain : commentLength? (x :: xs) = none)
      (hquote : x = Text.doubleQuote → (string? (x :: xs)).isSome)
      (h : Crossing counted k ms (after (x :: xs)) ds) :
      Crossing counted (weightOf counted x + k) ms (x :: xs) ds
  | comment {cs ds : List Char} {n : Nat} {k : Int} {ms : List (List Char)}
      (hn : commentLength? cs = some n) (h : Crossing counted k ms (cs.drop n) ds) :
      Crossing counted k (cs.take n :: ms) cs ds

namespace Crossing

/-- Two ways one after the other. -/
theorem trans (h₁ : Crossing counted j ms cs ds) (h₂ : Crossing counted k ms' ds es) :
    Crossing counted (j + k) (ms ++ ms') cs es := by
  induction h₁ with
  | refl =>
      rw [Int.zero_add]
      exact h₂
  | lexeme hplain hquote _ ih =>
      rw [Int.add_assoc]
      exact .lexeme hplain hquote (ih h₂)
  | comment hn _ ih => exact .comment hn (ih h₂)

/-- Comments are met in the order in which they stand. -/
theorem commentsFrom_eq (h : Crossing counted k ms cs ds) (hds : ds = []) (rounds : List Char)
    (hrounds : cs.length ≤ rounds.length) : commentsFrom rounds cs = ms := by
  induction h generalizing rounds with
  | refl cs =>
      subst hds
      clear hrounds
      induction rounds with
      | nil => rfl
      | cons _ rounds ih => exact ih
  | @lexeme x xs ds k ms hplain _ _ ih =>
      cases rounds with
      | nil => exact absurd hrounds (Nat.not_succ_le_zero _)
      | cons _ rounds =>
          have hlt := after_length_lt x xs
          rw [commentsFrom, hplain]
          exact ih hds rounds (by simp only [List.length_cons] at *; omega)
  | @comment cs ds n k ms hn _ ih =>
      have hpos := commentLength?_pos hn
      have hle := commentLength?_le hn
      cases rounds with
      | nil => exact absurd hrounds (by simp only [List.length_nil]; omega)
      | cons _ rounds =>
          rw [commentsFrom, hn]
          refine congrArg _ (ih hds rounds ?_)
          simp only [List.length_drop, List.length_cons] at *
          omega

/-- **The comments on a way through a whole text are those of the text.** -/
theorem comments_eq (h : Crossing counted k ms cs []) : comments cs = ms :=
  commentsFrom_eq h rfl cs (Nat.le_refl _)

/-- A way leads forward. -/
theorem length_le (h : Crossing counted k ms cs ds) : ds.length ≤ cs.length := by
  induction h with
  | refl => exact Nat.le_refl _
  | @lexeme x xs ds k ms _ _ _ ih => exact ih.trans (after_length_lt x xs).le
  | @comment cs ds n k ms _ _ ih =>
      rw [List.length_drop] at ih
      omega

/-- **There is only one way** from a text to what is left of it. -/
theorem unique (h : Crossing counted k ms cs ds) (h' : Crossing counted j ms' cs ds) : k = j := by
  induction h generalizing j ms' with
  | refl cs =>
      cases h' with
      | refl => rfl
      | @lexeme x xs _ k ms _ _ h => exact absurd h.length_le (after_length_lt x xs).not_ge
      | @comment _ _ n k ms hn h =>
          have hpos := commentLength?_pos hn
          have hle := commentLength?_le hn
          have hlength := h.length_le
          rw [List.length_drop] at hlength
          omega
  | @lexeme x xs ds k ms hplain _ h ih =>
      cases h' with
      | refl => exact absurd h.length_le (after_length_lt x xs).not_ge
      | lexeme _ _ h' => rw [ih h']
      | comment hn _ =>
          rw [hplain] at hn
          cases hn
  | @comment cs ds n k ms hn h ih =>
      cases h' with
      | refl =>
          have hpos := commentLength?_pos hn
          have hle := commentLength?_le hn
          have hlength := h.length_le
          rw [List.length_drop] at hlength
          omega
      | lexeme hplain _ _ =>
          rw [hplain] at hn
          cases hn
      | comment hn' h' =>
          cases hn.symm.trans hn'
          exact ih h'

end Crossing

/-- There is a way from the text to what is left of it on which `k` more of the counted brackets are
opened than closed. -/
def Crosses (counted : Char → Bool) (k : Int) (cs ds : List Char) : Prop :=
  ∃ ms, Crossing counted k ms cs ds

/-- So what is opened on the way is told by where it leads. -/
theorem Crosses.unique (h : Crosses counted k cs ds) (h' : Crosses counted j cs ds) : k = j := by
  obtain ⟨ms, h⟩ := h
  obtain ⟨ms', h'⟩ := h'
  exact h.unique h'

theorem Crosses.refl (cs : List Char) : Crosses counted 0 cs cs := ⟨[], .refl cs⟩

/-- What is opened on two ways one after the other adds up. -/
theorem Crosses.trans (h₁ : Crosses counted j cs ds) (h₂ : Crosses counted k ds es) :
    Crosses counted (j + k) cs es := by
  obtain ⟨ms, h₁⟩ := h₁
  obtain ⟨ms', h₂⟩ := h₂
  exact ⟨ms ++ ms', h₁.trans h₂⟩

/-- What comes first opens no brackets. -/
theorem Crosses.after (h₂ : Crosses counted k ds es) (h₁ : Crosses counted 0 cs ds) :
    Crosses counted k cs es := by
  have h := h₁.trans h₂
  rwa [Int.zero_add] at h

/-! ### Single lexemes -/

/-- The first lexeme is a mark. -/
theorem crosses_mark (hmark : isMark x) (hplain : commentLength? (x :: xs) = none) :
    Crosses counted (weightOf counted x) (x :: xs) xs := by
  have hquote : x ≠ Text.doubleQuote := by
    rintro rfl
    cases hmark
  have hafter : Crossing counted 0 [] (Lexeme.after (x :: xs)) xs := by
    rw [after_of_mark hmark]
    exact .refl xs
  have hway : Crossing counted (weightOf counted x + 0) [] (x :: xs) xs :=
    .lexeme hplain (fun h => absurd h hquote) hafter
  rw [Int.add_zero] at hway
  exact ⟨[], hway⟩

/-- The first lexeme is a mark that is no bracket. -/
theorem crosses_plainMark (hmark : isMark x) (hweight : weight x = 0)
    (hplain : commentLength? (x :: xs) = none) : Crosses counted 0 (x :: xs) xs := by
  have hway : Crosses counted (weightOf counted x) (x :: xs) xs := crosses_mark hmark hplain
  rwa [weightOf_of_weight hweight] at hway

/-- The first lexeme is none that is a bracket or contains one. -/
theorem crosses_size (hplain : commentLength? (x :: xs) = none) (hweight : weightOf counted x = 0)
    (hquote : x = Text.doubleQuote → (string? (x :: xs)).isSome) (hn : size (x :: xs) = n) :
    Crosses counted 0 (x :: xs) ((x :: xs).drop n) := by
  have hway : Crossing counted (weightOf counted x + 0) [] (x :: xs) (Lexeme.after (x :: xs)) :=
    .lexeme hplain hquote (.refl _)
  rw [hweight, Int.add_zero, Lexeme.after, hn] at hway
  exact ⟨[], hway⟩

/-- The first lexeme is a name, -/
theorem crosses_name (h : name? cs = some n) : Crosses counted 0 cs (cs.drop n) := by
  have hsize := size_of_name h
  obtain ⟨x, xs, rfl, hx, -⟩ := exists_of_name? h
  have hslash : x ≠ '/' := by
    rintro rfl
    cases hx
  have hquote : x ≠ Text.doubleQuote := by
    rintro rfl
    cases hx
  exact crosses_size (commentLength?_eq_none hslash xs)
    (weightOf_of_not_special (not_special_of_isNameStart hx)) (fun heq => absurd heq hquote) hsize

/-- a number, -/
theorem crosses_number (h : number? cs = some n) : Crosses counted 0 cs (cs.drop n) := by
  have hsize := size_of_number h
  cases cs with
  | nil => cases h
  | cons x xs =>
      have hx : Text.isDigit x := by
        by_contra hx
        rw [number?_eq_none (by simpa using hx)] at h
        cases h
      have hslash : x ≠ '/' := by
        rintro rfl
        exact absurd hx (by decide)
      have hquote : x ≠ Text.doubleQuote := by
        rintro rfl
        exact absurd hx (by decide)
      exact crosses_size (commentLength?_eq_none hslash xs)
        (weightOf_of_not_special (not_special (.inl (not_isMark_of_isDigit hx))))
        (fun heq => absurd heq hquote) hsize

/-- or a string literal, in which brackets do not count. -/
theorem crosses_string (h : string? cs = some n) : Crosses counted 0 cs (cs.drop n) := by
  have hsize := size_of_string h
  obtain ⟨xs, m, rfl, -, -⟩ := exists_of_string? h
  exact crosses_size (commentLength?_eq_none (by decide) xs)
    (weightOf_of_not_special (by decide)) (fun _ => Option.isSome_of_eq_some h) hsize

/-- A word that ends where it should. -/
theorem crosses_word (hword : IsWord word) (hrest : endsName rest) :
    Crosses counted 0 (word.toList ++ rest) rest := by
  have hway : Crosses counted 0 (word.toList ++ rest) ((word.toList ++ rest).drop word.length) :=
    crosses_name (wordAt_append hword hrest).size
  rwa [← String.length_toList, List.drop_left] at hway

/-- A sign without brackets, at which no comment starts. -/
theorem crosses_sign (hplain : commentLength? (text ++ rest) = none) (htext : Sign text)
    (hweight : ∀ x ∈ text, weightOf counted x = 0) : Crosses counted 0 (text ++ rest) rest := by
  obtain ⟨hmarks, hfree⟩ := htext
  induction text with
  | nil => exact .refl rest
  | cons x text ih =>
      obtain ⟨hx, hmarks⟩ := List.forall_mem_cons.mp hmarks
      obtain ⟨hzero, hweight⟩ := List.forall_mem_cons.mp hweight
      have hfirst : Crosses counted 0 (x :: (text ++ rest)) (text ++ rest) :=
        hzero ▸ crosses_mark hx hplain
      refine Crosses.after ?_ hfirst
      rcases hfree with hlength | hfree
      · obtain rfl : text = [] := List.length_eq_zero_iff.mp (Nat.succ.inj hlength)
        exact .refl rest
      · obtain ⟨-, hfree⟩ := List.forall_mem_cons.mp hfree
        cases text with
        | nil => exact .refl rest
        | cons y ys =>
            exact ih (commentLength?_eq_none (hfree y List.mem_cons_self).2 _) hweight hmarks
              (.inr hfree)

/-! ### What is skipped -/

/-- Blank space opens no bracket, -/
theorem crosses_blank (hs : Blank s) (rest : List Char) : Crosses counted 0 (s ++ rest) rest := by
  induction s with
  | nil => exact .refl rest
  | cons x s ih =>
      obtain ⟨hx, hs⟩ := List.forall_mem_cons.mp hs
      have hslash : x ≠ '/' := by
        rintro rfl
        cases hx
      have hfirst : Crosses counted 0 (x :: (s ++ rest)) (s ++ rest) :=
        weightOf_of_not_special (not_special (.inr hx)) ▸
          crosses_mark (isMark_of_isSpace hx) (commentLength?_eq_none hslash _)
      exact (ih hs).after hfirst

/-- nor does a gap, since what is opened in comments does not count. -/
theorem crosses_gap (h : Gap u white rest) : Crosses counted 0 (u ++ rest) rest := by
  induction h with
  | nil _ => exact .refl _
  | @comment s m u white rest hs hm _ ih =>
      obtain ⟨ms, hway⟩ := ih
      have hafter : Crossing counted 0 ms ((m ++ (u ++ rest)).drop m.length) rest := by
        rwa [List.drop_left]
      have hcomment : Crosses counted 0 (m ++ (u ++ rest)) rest := ⟨_, .comment hm hafter⟩
      rw [List.append_assoc, List.append_assoc]
      exact hcomment.after (crosses_blank hs _)

theorem dropWhile_dropWhile_of_imp {q : Char → Bool} (hp : ∀ x, p x → q x) (cs : List Char) :
    (cs.dropWhile p).dropWhile q = cs.dropWhile q := by
  induction cs with
  | nil => rfl
  | cons x xs ih =>
      by_cases hx : p x
      · rw [List.dropWhile_cons_of_pos hx, ih, List.dropWhile_cons_of_pos (hp x hx)]
      · rw [List.dropWhile_cons_of_neg hx]

/-- Comments and blank space are skipped, and no comment starts after them. -/
theorem crosses_pass (hp : ∀ x, p x → isSpace x) (cs : List Char) :
    Crosses counted 0 cs (cs.drop (passLength p cs)) ∧
      commentLength? (cs.drop (passLength p cs)) = none := by
  obtain ⟨u, white, rest, rfl, hgap⟩ := exists_gap cs
  have hdrop : (u ++ rest).drop (passLength p (u ++ rest)) = rest.dropWhile p := by
    rw [passLength, hgap.commentsLength_eq (Nat.le_refl _), List.drop_left, ← List.drop_drop,
      List.drop_left, Cursor.drop_takeWhile]
  have hblank : Blank (rest.takeWhile p) := fun x hx => hp x (List.mem_takeWhile_imp hx)
  have hspaces : Crosses counted 0 (rest.takeWhile p ++ rest.dropWhile p) (rest.dropWhile p) :=
    crosses_blank hblank _
  rw [List.takeWhile_append_dropWhile] at hspaces
  rw [hdrop]
  refine ⟨hspaces.after (crosses_gap hgap), comment_of_quiet ?_⟩
  rw [Quiet, dropWhile_dropWhile_of_imp hp]
  exact hgap.quiet

end Ember.Lexeme
