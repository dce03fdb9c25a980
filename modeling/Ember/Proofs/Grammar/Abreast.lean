import Ember.Proofs.Grammar.LineEnd
import Ember.Proofs.Grammar.Lines
import Ember.Proofs.Tree.Unlined

/-!
# Grammar — a text and a longer one

A parser is run on a text and on the same text with more lines after it. The two runs go abreast:
they end in the same way and at the same point, or else the shorter text is doomed or over.

* `Cursor.Prolongs`: two cursors, the second one with more text after the same rest.
* `Break`: what may come after a text without going on with its last statement.
* `Outcome.Abreast`: two outcomes that correspond.
-/

namespace Ember

namespace Cursor

/-- No comment starts anywhere in the text. -/
def Uncommented (cs : List Char) : Prop := ∀ ds, ds <:+ cs → commentLength? ds = none

/-- What is left of a text without comments has none. -/
theorem Uncommented.suffix {cs ds : List Char} (h : Uncommented cs) (hds : ds <:+ cs) :
    Uncommented ds := fun _ hes => h _ (hes.trans hds)

/-- Where no comment starts, blank space alone is skipped. -/
theorem Uncommented.quiet {cs : List Char} (h : Uncommented cs) : Quiet cs :=
  h _ (List.dropWhile_suffix _)

/-- The same text is left at both cursors, with more after it at the second one. -/
structure Prolongs (w : List Char) (c d : Cursor) : Prop where
  rest : d.rest = c.rest ++ w
  col : d.col = c.col
  clear : d.prev.any Text.isKeywordChar = c.prev.any Text.isKeywordChar
  left : Uncommented c.rest
  right : Uncommented d.rest

namespace Prolongs

variable {w : List Char} {c d : Cursor}

/-- Both cursors pass the next character of the shorter text. -/
theorem next (h : Prolongs w c d) (hc : c.rest ≠ []) : Prolongs w c.next d.next := by
  obtain ⟨x, xs, hx⟩ := List.exists_cons_of_ne_nil hc
  have hd : d.rest = x :: (xs ++ w) := by rw [h.rest, hx, List.cons_append]
  have hleft : xs <:+ c.rest := hx ▸ List.suffix_cons x xs
  have hright : xs ++ w <:+ d.rest := hd ▸ List.suffix_cons x (xs ++ w)
  refine ⟨?_, ?_, ?_, ?_, ?_⟩
  · simp [Cursor.next, hx, hd]
  · simp only [Cursor.next, hx, hd, h.col]
  · simp [Cursor.next, hx, hd]
  · simpa [Cursor.next, hx] using h.left.suffix hleft
  · simpa [Cursor.next, hd] using h.right.suffix hright

/-- They pass as many characters as the shorter text has. -/
theorem advance (h : Prolongs w c d) {n : Nat} (hn : n ≤ c.rest.length) :
    Prolongs w (c.advance n) (d.advance n) := by
  induction n generalizing c d with
  | zero => exact h
  | succ n ih =>
      have hne : c.rest ≠ [] := by
        intro hnil
        rw [hnil, List.length_nil] at hn
        omega
      refine ih (h.next hne) ?_
      have hnext : c.next.rest = c.rest.drop 1 := advance_rest c 1
      rw [hnext, List.length_drop]
      omega

/-- Both cursors move over the same characters of a class, unless only the longer text goes on after
them. -/
theorem advanceWhile (h : Prolongs w c d) {p : Char → Bool}
    (hne : w ≠ [] → c.rest.dropWhile p ≠ []) :
    Prolongs w (c.advance (c.rest.takeWhile p).length) (d.advance (d.rest.takeWhile p).length) := by
  have htake : d.rest.takeWhile p = c.rest.takeWhile p := by
    by_cases hw : w = []
    · rw [h.rest, hw, List.append_nil]
    · have hlength : (c.rest.takeWhile p).length ≠ c.rest.length := by
        intro heq
        have hsplit := congrArg List.length (List.takeWhile_append_dropWhile (p := p) (l := c.rest))
        rw [List.length_append] at hsplit
        exact hne hw (List.length_eq_zero_iff.mp (by omega))
      rw [h.rest, List.takeWhile_append, if_neg hlength]
  rw [htake]
  exact h.advance (List.takeWhile_prefix p).length_le

/-- They skip to the same token, unless only the longer text has one. -/
theorem skip (h : Prolongs w c d) (hne : w ≠ [] → c.rest.dropWhile isSpace ≠ []) :
    Prolongs w c.skip d.skip := by
  rw [skip_of_quiet h.left.quiet, skip_of_quiet h.right.quiet]
  exact h.advanceWhile hne

/-- So they do within their line. -/
theorem skipInLine (h : Prolongs w c d) (hne : w ≠ [] → c.rest.dropWhile isInlineSpace ≠ []) :
    Prolongs w c.skipInLine d.skipInLine := by
  rw [skipInLine_of_quiet h.left.quiet, skipInLine_of_quiet h.right.quiet]
  exact h.advanceWhile hne

/-- Nothing is added. -/
theorem refl (h : Uncommented c.rest) : Prolongs [] c c :=
  ⟨(List.append_nil _).symm, rfl, rfl, h, h⟩

end Prolongs

end Cursor

namespace Grammar

open Cursor (isSpace isInlineSpace Uncommented Prolongs)
open Lexeme

/-- What may come after a text: nothing, or a new line with nothing on it that goes on with a
statement. -/
structure Break (w : List Char) : Prop where
  newline : NewLine w
  begins : Blank w ∨ Begins .read w

/-! ### Outcomes -/

variable {α β : Type} {w : List Char} {Q Q' : List Char → Prop} {L L' : Outcome α → Prop}
  {r r' : α → α → Prop} {o o' : Outcome α} {p p' : Parser α} {c d : Cursor}

/-- Nothing is read. -/
def Outcome.Misses (o : Outcome α) : Prop := ∀ a c, o ≠ .ok a c

/-- The parse stops. -/
def Outcome.Halts (o : Outcome α) : Prop := ∃ s, o = .stop s

/-- A failure reads nothing. -/
theorem Outcome.Passes.misses (h : o.Passes) : o.Misses := by
  rintro a c rfl
  rcases h with ⟨f, h⟩ | h <;> cases h

/-- Nor does a stop. -/
theorem Outcome.Halts.misses (h : o.Halts) : o.Misses := by
  obtain ⟨s, rfl⟩ := h
  intro a c h
  cases h

/-- Where failures are final, what reads nothing stops the parse. -/
theorem Outcome.Misses.cut (h : o.Misses) : o.cut.Halts := by
  cases o with
  | ok a c => exact (h a c rfl).elim
  | fail f => exact ⟨_, rfl⟩
  | stop s => exact ⟨s, rfl⟩

/-- Final or not, a success is a success. -/
theorem Outcome.ok_of_cut {a : α} (h : o.cut = .ok a c) : o = .ok a c := by
  cases o with
  | ok b e => exact h
  | fail f => cases h
  | stop s => cases h

/-- Where nothing is read, nothing comes after it. -/
theorem Outcome.Misses.bind {f : α → Parser β} (h : (p c).Misses) : ((p >>= f) c).Misses := by
  rw [bind_eq, Parser.bind]
  split
  · rename_i a c' heq
    exact (h a c' heq).elim
  · exact (Outcome.fails_fail _).passes.misses
  · exact Outcome.Halts.misses ⟨_, rfl⟩

/-- A stop comes through. -/
theorem Outcome.Halts.bind {f : α → Parser β} (h : (p c).Halts) : ((p >>= f) c).Halts := by
  obtain ⟨s, hs⟩ := h
  rw [bind_eq, Parser.bind, hs]
  exact ⟨s, rfl⟩

/-- A stop comes through even where nothing has to be read. -/
theorem Outcome.Halts.optional (h : (p c).Halts) : (p.optional c).Halts := by
  obtain ⟨s, hs⟩ := h
  rw [Parser.optional, hs]
  exact ⟨s, rfl⟩

/-- The outcomes on a text and on a longer one correspond. What is left of the shorter text after a
success satisfies `Q`. If the outcomes are not the same, that of the shorter text satisfies `L`. -/
inductive Outcome.Abreast (w : List Char) (Q : List Char → Prop) (L : Outcome α → Prop)
    (r : α → α → Prop) : Outcome α → Outcome α → Prop where
  | ok {a a' : α} {c d : Cursor} (hr : r a a') (hcd : Prolongs w c d) (hQ : Q c.rest) :
      Abreast w Q L r (.ok a c) (.ok a' d)
  | fail (f f' : Failure) : Abreast w Q L r (.fail f) (.fail f')
  | fatal (f f' : Failure) : Abreast w Q L r (.stop (.fatal f)) (.stop (.fatal f'))
  | stop (s : Stop) : Abreast w Q L r (.stop s) (.stop s)
  | lost {o o' : Outcome α} (hw : w ≠ []) (h : L o) : Abreast w Q L r o o'

namespace Outcome.Abreast

theorem of_fails (h : o.Fails) (h' : o'.Fails) : Abreast w Q L r o o' := by
  obtain ⟨f, rfl⟩ := h
  obtain ⟨f', rfl⟩ := h'
  exact .fail f f'

/-- What is lost otherwise may be told in another way. -/
theorem resolve (h : Abreast w Q L r o o') (hL : w ≠ [] → L o → Abreast w Q L' r o o') :
    Abreast w Q L' r o o' := by
  cases h with
  | ok ha hcd hc => exact .ok ha hcd hc
  | fail f f' => exact .fail f f'
  | fatal f f' => exact .fatal f f'
  | stop s => exact .stop s
  | lost hw h => exact hL hw h

/-- What is lost may be weakened. -/
theorem lose (h : Abreast w Q L r o o') (hL : w ≠ [] → L o → L' o) : Abreast w Q L' r o o' :=
  h.resolve fun hw h => .lost hw (hL hw h)

/-- So may what is left. -/
theorem mono (h : Abreast w Q L r o o') (hQ : ∀ ds, Q ds → Q' ds) : Abreast w Q' L r o o' := by
  cases h with
  | ok ha hcd hc => exact .ok ha hcd (hQ _ hc)
  | fail f f' => exact .fail f f'
  | fatal f f' => exact .fatal f f'
  | stop s => exact .stop s
  | lost hw h => exact .lost hw h

/-- Two parsers one after the other: the second ones go on from where the first ones got to. -/
theorem bind {L : Outcome α → Prop} {M : Outcome β → Prop} {s : β → β → Prop}
    {f f' : α → Parser β} (h : Abreast w Q L r (p c) (p' d))
    (hL : w ≠ [] → L (p c) → M ((p >>= f) c))
    (hf : ∀ a a' c₁ d₁, p c = .ok a c₁ → r a a' → Prolongs w c₁ d₁ → Q c₁.rest →
      Abreast w Q' M s (f a c₁) (f' a' d₁)) :
    Abreast w Q' M s ((p >>= f) c) ((p' >>= f') d) := by
  rw [bind_eq] at hL
  rw [bind_eq, bind_eq]
  unfold Parser.bind at hL ⊢
  generalize ho : p c = o at h hL hf
  generalize p' d = o' at h
  cases h with
  | ok ha hcd hc => exact hf _ _ _ _ rfl ha hcd hc
  | fail g g' => exact .fail g g'
  | fatal g g' => exact .fatal g g'
  | stop s => exact .stop s
  | lost hw h => exact .lost hw (hL hw h)

/-- Failures become final on both sides. -/
theorem cut (h : Abreast w Q L r o o') (hL : w ≠ [] → L o → L' o.cut) :
    Abreast w Q L' r o.cut o'.cut := by
  cases h with
  | ok ha hcd hc => exact .ok ha hcd hc
  | fail f f' => exact .fatal f f'
  | fatal f f' => exact .fatal f f'
  | stop s => exact .stop s
  | lost hw h => exact .lost hw (hL hw h)

/-- Failures may bear other names, since they need not be the same. -/
theorem relabel (h : Abreast w Q L r o o') (start start' : Nat) (label label' : Cause)
    (hL : w ≠ [] → L o → L' (o.relabel start label)) :
    Abreast w Q L' r (o.relabel start label) (o'.relabel start' label') := by
  cases h with
  | ok ha hcd hc => exact .ok ha hcd hc
  | fail f f' => exact .fail _ _
  | fatal f f' => exact .fatal f f'
  | stop s => exact .stop s
  | lost hw h => exact .lost hw (hL hw h)

/-- What is only tried fails on both sides where one would stop for good. -/
theorem tentative {P : Prop} (h : Abreast w Q (fun _ => P) r o o') (start start' : Nat)
    (label label' : Cause) :
    Abreast w Q (fun _ => P) r (o.tentative start label) (o'.tentative start' label') := by
  cases h with
  | ok ha hcd hc => exact .ok ha hcd hc
  | fail f f' => exact .fail _ _
  | fatal f f' => exact .fail _ _
  | stop s =>
      cases s with
      | fatal f => exact .fail _ _
      | tooDeep => exact .stop _
      | hugeInteger n => exact .stop _
  | lost hw h => exact .lost hw h

/-- Something that may be left out is read on both sides or on none. -/
theorem optional {L' : Outcome (Option α) → Prop} (h : Abreast w Q L r (p c) (p' d))
    (hcd : Prolongs w c d) (hQ : ∀ ds, Q ds → Q' ds) (hc : Q' c.rest)
    (hL : w ≠ [] → L (p c) → L' (p.optional c)) :
    Abreast w Q' L' (Option.Rel r) (p.optional c) (p'.optional d) := by
  unfold Parser.optional at hL ⊢
  generalize p c = o at h hL
  generalize p' d = o' at h
  cases h with
  | ok ha hcd hc => exact .ok (.some ha) hcd (hQ _ hc)
  | fail f f' => exact .ok .none hcd hc
  | fatal f f' => exact .fatal f f'
  | stop s => exact .stop s
  | lost hw h => exact .lost hw (hL hw h)

/-- Both sides make the same choice. -/
theorem ite {P P' : Prop} [Decidable P] [Decidable P'] {q q' : Parser α} (hP : P ↔ P')
    (hpos : P → Abreast w Q L r (p c) (p' d)) (hneg : ¬ P → Abreast w Q L r (q c) (q' d)) :
    Abreast w Q L r ((if P then p else q) c) ((if P' then p' else q') d) := by
  by_cases h : P
  · rw [if_pos h, if_pos (hP.mp h)]
    exact hpos h
  · rw [if_neg h, if_neg (fun h' => h (hP.mpr h'))]
    exact hneg h

end Outcome.Abreast

open Outcome (Abreast)

/-- What holds of an outcome of an alternative holds of all alternatives from there on. -/
structure Lasting (L : Outcome α → Prop) : Prop where
  first : ∀ o o₁, L o → L (o.or o₁)
  later : ∀ f o, L o → L ((Outcome.fail f).or o)

/-- What does not depend on the outcome lasts. -/
theorem lasting_const (P : Prop) : Lasting (fun _ : Outcome α => P) :=
  ⟨fun _ _ h => h, fun _ _ h => h⟩

/-- The second outcome matters only where the first one failed. -/
theorem Outcome.Abreast.or {o₁ o₁' : Outcome α} (hL : Lasting L) (h : Abreast w Q L r o o')
    (h₁ : o.Fails → Abreast w Q L r o₁ o₁') : Abreast w Q L r (o.or o₁) (o'.or o₁') := by
  cases h with
  | ok ha hcd hc => exact .ok ha hcd hc
  | fail f f' =>
      have h₁ := h₁ ⟨f, rfl⟩
      cases h₁ with
      | ok ha hcd hc => exact .ok ha hcd hc
      | fail g g' => exact .fail _ _
      | fatal g g' => exact .fatal g g'
      | stop s => exact .stop s
      | lost hw h => exact .lost hw (hL.later f _ h)
  | fatal f f' => exact .fatal f f'
  | stop s => exact .stop s
  | lost hw h => exact .lost hw (hL.first _ _ h)

/-- An alternative is tried where those before it failed. -/
theorem abreast_firstOf {q q' : Parser α} {ps ps' : List (Parser α)} (hL : Lasting L)
    (h : Abreast w Q L r (p c) (p' d))
    (hps : (p c).Fails → Abreast w Q L r (firstOf (q :: ps) c) (firstOf (q' :: ps') d)) :
    Abreast w Q L r (firstOf (p :: q :: ps) c) (firstOf (p' :: q' :: ps') d) := by
  rw [firstOf_cons (List.cons_ne_nil _ _), firstOf_cons (List.cons_ne_nil _ _)]
  exact h.or hL hps

/-- A repetition, of which every step reads something. -/
theorem abreast_iterate {step step' : α → Parser α} {J : List Char → Prop} {P : Prop}
    (hstep : ∀ a a' c d, r a a' → Prolongs w c d → J c.rest →
      Abreast w (fun ds => J ds ∧ ds.length < c.rest.length) (fun _ => P) r (step a c) (step' a' d))
    (hend : w ≠ [] → ∀ a' c d, Prolongs w c d → J c.rest → c.rest = [] → (step' a' d).Fails ∨ P)
    {rounds rounds' : List Char} {a a' : α} (ha : r a a') (hcd : Prolongs w c d) (hJ : J c.rest)
    (hrounds : c.rest.length ≤ rounds.length)
    (hrounds' : rounds'.length = rounds.length + w.length) :
    Abreast w J (fun _ => P) r (iterate step rounds a c) (iterate step' rounds' a' d) := by
  induction rounds generalizing rounds' a a' c d with
  | nil =>
      have hnil : c.rest = [] := List.length_eq_zero_iff.mp (Nat.le_zero.mp hrounds)
      cases rounds' with
      | nil => exact .ok ha hcd hJ
      | cons x rounds' =>
          have hw : w ≠ [] := by
            rintro rfl
            simp at hrounds'
          rcases hend hw a' c d hcd hJ hnil with ⟨f, hf⟩ | hP
          · simp only [iterate, hf]
            exact .ok ha hcd hJ
          · exact .lost hw hP
  | cons x rounds ih =>
      cases rounds' with
      | nil =>
          rw [List.length_nil, List.length_cons] at hrounds'
          omega
      | cons x' rounds' =>
          have hs := hstep a a' c d ha hcd hJ
          simp only [iterate]
          generalize step a c = o at hs
          generalize step' a' d = o' at hs
          cases hs with
          | ok hb hcd' hJ' =>
              refine ih hb hcd' hJ'.1 ?_ ?_
              · rw [List.length_cons] at hrounds
                have := hJ'.2
                omega
              · rw [List.length_cons, List.length_cons] at hrounds'
                omega
          | fail f f' => exact .ok ha hcd hJ
          | fatal f f' => exact .fatal f f'
          | stop s => exact .stop s
          | lost hw h => exact .lost hw h

/-- A repetition that has as many rounds as the text is long. -/
theorem abreast_repeatedly {step step' : α → Parser α} {J : List Char → Prop} {P : Prop}
    (hstep : ∀ a a' c d, r a a' → Prolongs w c d → J c.rest →
      Abreast w (fun ds => J ds ∧ ds.length < c.rest.length) (fun _ => P) r (step a c) (step' a' d))
    (hend : w ≠ [] → ∀ a' c d, Prolongs w c d → J c.rest → c.rest = [] → (step' a' d).Fails ∨ P)
    {a a' : α} (ha : r a a') (hcd : Prolongs w c d) (hJ : J c.rest) :
    Abreast w J (fun _ => P) r (repeatedly step a c) (repeatedly step' a' d) :=
  abreast_iterate hstep hend ha hcd hJ (Nat.le_refl _) (by rw [hcd.rest, List.length_append])

end Grammar

end Ember
