import Ember.Proofs.Grammar.Abreast
import Ember.Proofs.Grammar.Comment.Lexeme

/-!
# Grammar — parsers on a text with comments as blank space

A parser is run on a text and on the same text with comments as blank space. Blank space is as long
as the comment it stands for and has the same lines, so both runs are at the same place all along.

* `Cursor.Veiled`: two cursors at the same place of the two texts.
* `Outcome.Agrees`: both outcomes read the same, or neither reads anything.
* `Agree`: two parsers have such outcomes wherever they start. This is kept by all the ways in which
  parsers are put together.
-/

namespace Ember

open Lexeme

/-! ### Cursors -/

namespace Cursor

/-- The cursors are at the same place. -/
structure SamePlace (c d : Cursor) : Prop where
  filename : d.filename = c.filename
  line : d.line = c.line
  col : d.col = c.col

variable {operand operand' : Bool} {c d : Cursor} {before : List Char} {n : Nat}

/-- Tokens at the same place have the same place in the text. -/
theorem SamePlace.span (h : SamePlace c d) (text : String) : d.span text = c.span text := by
  rw [Cursor.span, Cursor.span, h.filename, h.line, h.col]

/-- Characters that are alike take up the same room. -/
theorem SamePlace.next (h : SamePlace c d) (hrest : List.Forall₂ Dims c.rest d.rest) :
    SamePlace c.next d.next := by
  unfold Cursor.next
  generalize c.rest = cs at hrest
  generalize d.rest = ds at hrest
  cases hrest with
  | nil => exact h
  | @cons x y xs ys hxy _ =>
      have hline : y = '\n' ↔ x = '\n' := by
        rcases hxy with rfl | ⟨hx, rfl⟩
        · exact Iff.rfl
        · exact iff_of_false (by decide) hx
      refine ⟨h.filename, ?_, ?_⟩
      · simp only [hline, h.line]
      · simp only [hline, h.col]

/-- So do texts. -/
theorem SamePlace.advance (h : SamePlace c d) (hrest : List.Forall₂ Dims c.rest d.rest) (n : Nat) :
    SamePlace (c.advance n) (d.advance n) := by
  induction n generalizing c d with
  | zero => exact h
  | succ n ih =>
      refine ih (h.next hrest) ?_
      rw [show c.next.rest = c.rest.drop 1 from advance_rest c 1,
        show d.next.rest = d.rest.drop 1 from advance_rest d 1]
      exact List.forall₂_drop 1 hrest

/-- The character before a cursor is the last one that was passed. -/
theorem advance_prev (c : Cursor) (n : Nat) :
    (c.advance n).prev = (c.rest.take n).getLast?.or c.prev := by
  induction n generalizing c with
  | zero => rfl
  | succ n ih =>
      rw [advance, ih]
      cases hrest : c.rest with
      | nil => simp [next, hrest]
      | cons x xs => simp [next, hrest, List.getLast?_cons]

/-- The cursors are at the same place of a text and of the same text with comments as blank space.
If it is so indicated, an operand may end before it. -/
structure Veiled (operand : Bool) (c d : Cursor) : Prop extends SamePlace c d where
  clear : c.rest ≠ [] → d.prev.any Text.isKeywordChar = c.prev.any Text.isKeywordChar
  rest : ∃ before, (operand → endsOperand before) ∧ Veil before c.rest d.rest

/-- A comment and the blank space in its place take up the same room. -/
theorem Veiled.dims (h : Veiled operand c d) : List.Forall₂ Dims c.rest d.rest := by
  obtain ⟨_, -, hveil⟩ := h.rest
  exact hveil.dims

/-- Nothing may be said about operands. -/
theorem Veiled.weaken (h : Veiled operand c d) : Veiled false c d := by
  obtain ⟨before, -, hveil⟩ := h.rest
  exact ⟨h.toSamePlace, h.clear, before, nofun, hveil⟩

/-! ### Skipping -/

/-- Skipping is moving over comments and blank space, -/
theorem skip_eq_advance (c : Cursor) : c.skip = c.advance (passLength isSpace c.rest) := by
  rw [skip, skipComments, advance_advance, advance_rest]
  rfl

/-- within a line over blank space of the line. -/
theorem skipInLine_eq_advance (c : Cursor) :
    c.skipInLine = c.advance (passLength isInlineSpace c.rest) := by
  rw [skipInLine, skipComments, advance_advance, advance_rest]
  rfl

/-- What is skipped ends no word. -/
theorem clear_advance_pass {p : Char → Bool} (hp : ∀ x, p x → isSpace x)
    (hpos : passLength p c.rest ≠ 0) (hsettled : Settled (c.rest.drop (passLength p c.rest)))
    (hne : c.rest.drop (passLength p c.rest) ≠ []) : (c.advance (passLength p c.rest)).Clear := by
  have hlast := last_of_pass hp hsettled hne
  have htake : c.rest.take (passLength p c.rest) ≠ [] := by
    rintro hnil
    rcases List.take_eq_nil_iff.mp hnil with hzero | hnil
    · exact hpos hzero
    · exact hne (by rw [hnil, List.drop_nil])
  obtain ⟨x, hx⟩ := Option.isSome_iff_exists.mp (List.getLast?_isSome.mpr htake)
  refine clear_of_prev (x := x) (by rw [advance_prev, hx, Option.some_or]) ?_
  rcases hlast x hx with hspace | rfl
  · exact not_isKeywordChar_of_isSpace hspace
  · decide

/-- Comments and blank space are skipped in both texts. -/
theorem Veiled.pass {p : Char → Bool} (h : Veiled operand c d) (hp : ∀ x, p x → isSpace x)
    (hlength : passLength p d.rest = passLength p c.rest)
    (hsettled : Settled (c.rest.drop (passLength p c.rest)))
    (hveil : Veil before (c.rest.drop (passLength p c.rest)) (d.rest.drop (passLength p c.rest))) :
    Veiled false (c.advance (passLength p c.rest)) (d.advance (passLength p d.rest)) := by
  refine ⟨?_, fun hne => ?_, before, nofun, ?_⟩
  · rw [hlength]
    exact h.toSamePlace.advance h.dims _
  · rw [advance_rest] at hne
    by_cases hzero : passLength p c.rest = 0
    · rw [hlength, hzero]
      rw [hzero] at hne
      exact h.clear hne
    · -- a comment or a blank is behind both cursors, so neither touches a word
      have hne' : d.rest.drop (passLength p c.rest) ≠ [] := by
        rintro hnil
        exact hne (List.forall₂_nil_right_iff.mp (hnil ▸ hveil.dims))
      have hclear := clear_advance_pass hp hzero hsettled hne
      have hclear' : (d.advance (passLength p d.rest)).Clear := by
        refine clear_advance_pass hp (hlength ▸ hzero) ?_ (hlength ▸ hne')
        rw [hlength]
        exact hveil.settled hsettled
      rw [hclear, hclear']
  · rw [hlength, advance_rest, advance_rest]
    exact hveil

/-- Both cursors skip to the same lexeme. -/
theorem Veiled.skip (h : Veiled operand c d) :
    Veiled false c.skip d.skip ∧ Settled c.skip.rest := by
  obtain ⟨_, -, hveil⟩ := h.rest
  obtain ⟨hlength, hsettled, b, hveil'⟩ := hveil.pass
  rw [skip_eq_advance, skip_eq_advance]
  refine ⟨h.pass (fun _ hx => hx) hlength hsettled hveil', ?_⟩
  rwa [advance_rest]

/-- After an operand, both cursors skip to the same lexeme of the line, unless neither text goes on
with the operand. -/
theorem Veiled.skipInLine (h : Veiled true c d) :
    (continues c.skipInLine.rest = false ∧ continues d.skipInLine.rest = false) ∨
      (Veiled false c.skipInLine d.skipInLine ∧ Settled c.skipInLine.rest) := by
  obtain ⟨before, hbefore, hveil⟩ := h.rest
  rw [skipInLine_eq_advance, skipInLine_eq_advance, advance_rest, advance_rest]
  rcases hveil.passInLine (hbefore rfl) with hstop | ⟨hlength, hsettled, b, hveil'⟩
  · exact .inl hstop
  · exact .inr ⟨h.pass Grammar.isSpace_of_isInlineSpace hlength hsettled hveil', hsettled⟩

/-- Both cursors move over the same text. -/
theorem Veiled.advance (h : Veiled operand c d) (htake : d.rest.take n = c.rest.take n)
    (hbefore : operand' → endsOperand before)
    (hveil : Veil before (c.rest.drop n) (d.rest.drop n)) :
    Veiled operand' (c.advance n) (d.advance n) := by
  refine ⟨h.toSamePlace.advance h.dims n, fun hne => ?_, before, hbefore, ?_⟩
  · rw [advance_rest] at hne
    have hclear := h.clear fun hnil => hne (by rw [hnil, List.drop_nil])
    rw [advance_prev, advance_prev, htake]
    cases (c.rest.take n).getLast? with
    | none => exact hclear
    | some x => rfl
  · rw [advance_rest, advance_rest]
    exact hveil

end Cursor

namespace Grammar

open Cursor (Veiled SamePlace)

variable {α β : Type} {operand before after last : Bool} {r : α → α → Prop} {s : β → β → Prop}
  {o o' : Outcome α} {p p' q q' : Parser α} {c d : Cursor}

/-! ### Outcomes -/

/-- Both outcomes read the same and end at the same place, or neither reads anything. Why nothing is
read may differ. -/
inductive Outcome.Agrees (operand : Bool) (r : α → α → Prop) : Outcome α → Outcome α → Prop where
  | ok {a a' : α} {c d : Cursor} (hr : r a a') (hcd : Veiled operand c d) :
      Agrees operand r (.ok a c) (.ok a' d)
  | fail (f f' : Failure) : Agrees operand r (.fail f) (.fail f')
  | fatal (f f' : Failure) : Agrees operand r (.stop (.fatal f)) (.stop (.fatal f'))
  | stop (s : Stop) : Agrees operand r (.stop s) (.stop s)

namespace Outcome.Agrees

/-- Less is said about where they end. -/
theorem weaken (h : Agrees operand r o o') : Agrees false r o o' := by
  cases h with
  | ok hr hcd => exact .ok hr hcd.weaken
  | fail f f' => exact .fail f f'
  | fatal f f' => exact .fatal f f'
  | stop s => exact .stop s

/-- Failures become final on both texts. -/
theorem cut (h : Agrees operand r o o') : Agrees operand r o.cut o'.cut := by
  cases h with
  | ok hr hcd => exact .ok hr hcd
  | fail f f' => exact .fatal f f'
  | fatal f f' => exact .fatal f f'
  | stop s => exact .stop s

theorem relabel (h : Agrees operand r o o') (start start' : Nat) (label label' : Cause) :
    Agrees operand r (o.relabel start label) (o'.relabel start' label') := by
  cases h with
  | ok hr hcd => exact .ok hr hcd
  | fail f f' => exact .fail _ _
  | fatal f f' => exact .fatal f f'
  | stop s => exact .stop s

/-- What is only tried may fail on both texts. -/
theorem tentative (h : Agrees operand r o o') (start start' : Nat) (label label' : Cause) :
    Agrees operand r (o.tentative start label) (o'.tentative start' label') := by
  cases h with
  | ok hr hcd => exact .ok hr hcd
  | fail f f' => exact .fail _ _
  | fatal f f' => exact .fail _ _
  | stop s =>
      cases s with
      | fatal f => exact .fail _ _
      | tooDeep => exact .stop _
      | hugeInteger n => exact .stop _

/-- Of two alternatives the same one is taken. -/
theorem or {o₁ o₁' : Outcome α} (h : Agrees operand r o o') (h₁ : Agrees operand r o₁ o₁') :
    Agrees operand r (o.or o₁) (o'.or o₁') := by
  cases h with
  | ok hr hcd => exact .ok hr hcd
  | fail f f' =>
      cases h₁ with
      | ok hr hcd => exact .ok hr hcd
      | fail g g' => exact .fail _ _
      | fatal g g' => exact .fatal g g'
      | stop s => exact .stop s
  | fatal f f' => exact .fatal f f'
  | stop s => exact .stop s

end Outcome.Agrees

/-! ### Parsers -/

/-- The parsers agree on a text and on the same text with comments as blank space. The arguments
`before` and `after` say whether an operand may end where they start and where they end. -/
def Agree (before after : Bool) (r : α → α → Prop) (p q : Parser α) : Prop :=
  ∀ c d, Veiled before c d → (p c).Agrees after r (q d)

namespace Agree

theorem pure {a a' : α} (h : r a a') : Agree before before r (pure a) (pure a') :=
  fun _ _ hcd => .ok h hcd

theorem fail (f f' : Failure) : Agree before after r (fun _ => .fail f) (fun _ => .fail f') :=
  fun _ _ _ => .fail f f'

theorem stop (s : Stop) : Agree before after r (fun _ => .stop s) (fun _ => .stop s) :=
  fun _ _ _ => .stop s

/-- Less is said about where the parsers end. -/
theorem weaken (h : Agree before after r p q) : Agree before false r p q :=
  fun c d hcd => (h c d hcd).weaken

/-- Two parsers one after the other, where an operand may end in between. -/
theorem bind {f g : α → Parser β} (h : Agree before after r p q)
    (hfg : ∀ a a', r a a' → Agree after last s (f a) (g a')) :
    Agree before last s (p >>= f) (q >>= g) := by
  intro c d hcd
  have hpq := h c d hcd
  rw [bind_eq, bind_eq]
  unfold Parser.bind
  generalize p c = o at hpq
  generalize q d = o' at hpq
  cases hpq with
  | ok hr hcd' => exact hfg _ _ hr _ _ hcd'
  | fail e e' => exact .fail e e'
  | fatal e e' => exact .fatal e e'
  | stop s => exact .stop s

theorem cut (h : Agree before after r p q) : Agree before after r p.cut q.cut :=
  fun c d hcd => (h c d hcd).cut

/-- Something that may be left out is left out on both texts or on none. -/
theorem optional (h : Agree before after r p q) :
    Agree before false (Option.Rel r) p.optional q.optional := by
  intro c d hcd
  have hpq := h c d hcd
  unfold Parser.optional
  generalize p c = o at hpq
  generalize q d = o' at hpq
  cases hpq with
  | ok hr hcd' => exact .ok (.some hr) hcd'.weaken
  | fail e e' => exact .ok .none hcd.weaken
  | fatal e e' => exact .fatal e e'
  | stop s => exact .stop s

/-- The same choice is made on both texts. -/
theorem ite {P P' : Prop} [Decidable P] [Decidable P'] (hP : P ↔ P')
    (hp : Agree before after r p p') (hq : Agree before after r q q') :
    Agree before after r (if P then p else q) (if P' then p' else q') := by
  by_cases h : P
  · rw [if_pos h, if_pos (hP.mp h)]
    exact hp
  · rw [if_neg h, if_neg (fun h' => h (hP.mpr h'))]
    exact hq

/-- A parser that starts by skipping. -/
theorem skip (h : Agree false after r p q) :
    Agree before after r (fun c => p c.skip) (fun c => q c.skip) :=
  fun _ _ hcd => h _ _ hcd.skip.1

end Agree

/-- The same alternative is taken on both texts. -/
theorem agree_firstOf {ps : List (Parser α)} (h : ∀ p ∈ ps, Agree before after r p p) :
    Agree before after r (firstOf ps) (firstOf ps) := by
  induction ps with
  | nil => exact fun _ _ _ => .fail _ _
  | cons p ps ih =>
      obtain ⟨hp, hps⟩ := List.forall_mem_cons.mp h
      cases ps with
      | nil => exact hp
      | cons q ps =>
          intro c d hcd
          rw [firstOf_cons (List.cons_ne_nil q ps), firstOf_cons (List.cons_ne_nil q ps)]
          exact (hp c d hcd).or (ih hps c d hcd)

/-- Alternatives under a name, which start with skipping. -/
theorem agree_choice {ps : List (Parser α)} (label : Cause)
    (h : ∀ p ∈ ps, Agree false after r p p) :
    Agree before after r (choice label ps) (choice label ps) :=
  Agree.skip (p := fun c => (firstOf ps c).relabel c.offset label)
    (q := fun c => (firstOf ps c).relabel c.offset label)
    fun c d hcd => (agree_firstOf h c d hcd).relabel _ _ _ _

/-- A step that is made as often on both texts. -/
theorem agree_iterate {step step' : α → Parser α}
    (hstep : ∀ a a', r a a' → Agree before before r (step a) (step' a'))
    {rounds rounds' : List Char} (hrounds : rounds'.length = rounds.length) {a a' : α}
    (ha : r a a') :
    Agree before before r (iterate step rounds a) (iterate step' rounds' a') := by
  induction rounds generalizing rounds' a a' with
  | nil =>
      obtain rfl : rounds' = [] := List.length_eq_zero_iff.mp hrounds
      exact .pure ha
  | cons x rounds ih =>
      obtain ⟨y, ys, rfl⟩ := List.exists_cons_of_length_eq_add_one hrounds
      intro c d hcd
      have hs := hstep a a' ha c d hcd
      simp only [iterate]
      generalize step a c = o at hs
      generalize step' a' d = o' at hs
      cases hs with
      | ok hr hcd' => exact ih (Nat.succ.inj hrounds) hr _ _ hcd'
      | fail e e' => exact .ok ha hcd
      | fatal e e' => exact .fatal e e'
      | stop s => exact .stop s

/-- A repetition takes as many rounds on both texts, for they have the same length. -/
theorem agree_repeatedly {step step' : α → Parser α}
    (hstep : ∀ a a', r a a' → Agree before before r (step a) (step' a')) {a a' : α} (ha : r a a') :
    Agree before before r (repeatedly step a) (repeatedly step' a') :=
  fun c d hcd => agree_iterate hstep hcd.dims.length_eq.symm ha c d hcd

end Grammar

end Ember
