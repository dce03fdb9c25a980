import Ember.Grammar.Statement
import Ember.Proofs.Source.Cursor

/-!
# Grammar — parsers that are sure of their text

On a canonical text a parser can end in two ways: with what the text says, or because the text is
nested too deeply. It does not fail, and no failure is fatal.

* `Outcome.Settles`: a parser ended in one of these ways.
* `Outcome.Fails`: a parser failed, so that another alternative is tried.
* `Outcome.Passes`: a parser failed, or the text is nested too deeply.
* `Runs`: a number of steps one after the other, as a repetition makes them.
-/

namespace Ember.Grammar

variable {α β : Type}

/-- The outcome is a success that satisfies `Q`, or the text is nested too deeply. -/
def Outcome.Settles (Q : α → Cursor → Prop) (o : Outcome α) : Prop :=
  (∃ a c, o = .ok a c ∧ Q a c) ∨ o = .stop .tooDeep

/-- The outcome is a failure, and no fatal one. -/
def Outcome.Fails (o : Outcome α) : Prop := ∃ f, o = .fail f

/-- The outcome is no success: another alternative is tried, unless the text is nested too
deeply. -/
def Outcome.Passes (o : Outcome α) : Prop := o.Fails ∨ o = .stop .tooDeep

variable {o o' : Outcome α} {p : Parser α} {Q Q' : α → Cursor → Prop} {R : β → Cursor → Prop}
  {c : Cursor}

namespace Outcome

theorem fails_fail (f : Failure) : (fail f : Outcome α).Fails := ⟨f, rfl⟩

/-- Two alternatives that fail. -/
theorem Fails.or (h : o.Fails) (h' : o'.Fails) : (o.or o').Fails := by
  obtain ⟨f, rfl⟩ := h
  obtain ⟨g, rfl⟩ := h'
  exact ⟨_, rfl⟩

theorem Fails.relabel (h : o.Fails) (start : Nat) (label : Cause) :
    (o.relabel start label).Fails := by
  obtain ⟨f, rfl⟩ := h
  exact ⟨_, rfl⟩

/-- A success settles what is asked of it. -/
theorem settles_ok {a : α} : (ok a c).Settles Q ↔ Q a c := by
  constructor
  · rintro (⟨a', c', heq, h⟩ | heq)
    · cases heq
      exact h
    · cases heq
  · exact fun h => .inl ⟨a, c, rfl, h⟩

/-- Text that is nested too deeply is left aside. -/
theorem settles_tooDeep : (stop .tooDeep : Outcome α).Settles Q := .inr rfl

/-- A failure settles nothing. -/
theorem not_settles_fail (f : Failure) : ¬ (fail f : Outcome α).Settles Q := by
  rintro (⟨a, c, heq, -⟩ | heq) <;> cases heq

/-- Less may be asked of a success. -/
theorem Settles.mono (h : o.Settles Q) (hQ : ∀ a c, Q a c → Q' a c) : o.Settles Q' := by
  rcases h with ⟨a, c, rfl, h⟩ | rfl
  · exact settles_ok.mpr (hQ a c h)
  · exact settles_tooDeep

/-- A success does not fail for good. -/
theorem Settles.cut (h : o.Settles Q) : o.cut.Settles Q := by
  rcases h with ⟨a, c, rfl, h⟩ | rfl
  · exact settles_ok.mpr h
  · exact settles_tooDeep

theorem Settles.relabel (h : o.Settles Q) (start : Nat) (label : Cause) :
    (o.relabel start label).Settles Q := by
  rcases h with ⟨a, c, rfl, h⟩ | rfl
  · exact settles_ok.mpr h
  · exact settles_tooDeep

/-- Nor does it fail where it is only tried. -/
theorem Settles.tentative (h : o.Settles Q) (start : Nat) (label : Cause) :
    (o.tentative start label).Settles Q := by
  rcases h with ⟨a, c, rfl, h⟩ | rfl
  · exact settles_ok.mpr h
  · exact settles_tooDeep

/-- A failure passes on to the next alternative. -/
theorem Fails.passes (h : o.Fails) : o.Passes := .inl h

/-- So does, for our purposes, text that is nested too deeply. -/
theorem passes_tooDeep : (stop .tooDeep : Outcome α).Passes := .inr rfl

/-- The first of two outcomes decides. -/
theorem Settles.or (h : o.Settles Q) : (o.or o').Settles Q := by
  rcases h with ⟨a, c, rfl, h⟩ | rfl
  · exact settles_ok.mpr h
  · exact settles_tooDeep

/-- Where one alternative does not succeed, the other one decides. -/
theorem Passes.or (h : o.Passes) (h' : o'.Settles Q) : (o.or o').Settles Q := by
  rcases h with ⟨f, rfl⟩ | rfl
  · rcases h' with ⟨a, c, rfl, h'⟩ | rfl
    · exact settles_ok.mpr h'
    · exact settles_tooDeep
  · exact settles_tooDeep

/-- Two alternatives that pass. -/
theorem Passes.or_passes (h : o.Passes) (h' : o'.Passes) : (o.or o').Passes := by
  rcases h with ⟨f, rfl⟩ | rfl
  · rcases h' with ⟨g, rfl⟩ | rfl
    · exact .inl ⟨_, rfl⟩
    · exact passes_tooDeep
  · exact passes_tooDeep

theorem Passes.relabel (h : o.Passes) (start : Nat) (label : Cause) :
    (o.relabel start label).Passes := by
  rcases h with ⟨f, rfl⟩ | rfl
  · exact .inl ⟨_, rfl⟩
  · exact passes_tooDeep

theorem Passes.tentative (h : o.Passes) (start : Nat) (label : Cause) :
    (o.tentative start label).Passes := by
  rcases h with ⟨f, rfl⟩ | rfl
  · exact .inl ⟨f, rfl⟩
  · exact passes_tooDeep

end Outcome

open Outcome (settles_ok settles_tooDeep passes_tooDeep)

/-! ### Sequences and alternatives -/

theorem bind_eq (p : Parser α) (f : α → Parser β) (c : Cursor) :
    (p >>= f) c = p.bind f c := rfl

/-- If the first parser fails, so do both in sequence. -/
theorem bind_fails {f : α → Parser β} (h : (p c).Fails) : ((p >>= f) c).Fails := by
  obtain ⟨e, he⟩ := h
  rw [bind_eq, Parser.bind, he]
  exact ⟨e, rfl⟩

/-- The same with text that is nested too deeply. -/
theorem bind_passes {f : α → Parser β} (h : (p c).Passes) : ((p >>= f) c).Passes := by
  rcases h with h | h
  · exact (bind_fails h).passes
  · rw [bind_eq, Parser.bind, h]
    exact passes_tooDeep

/-- Two parsers one after the other. -/
theorem settles_bind {f : α → Parser β} (h : (p c).Settles Q)
    (hf : ∀ a c', Q a c' → (f a c').Settles R) : ((p >>= f) c).Settles R := by
  rw [bind_eq, Parser.bind]
  rcases h with ⟨a, c', h, ha⟩ | h
  · rw [h]
    exact hf a c' ha
  · rw [h]
    exact settles_tooDeep

/-- The second part of a sequence does not succeed. -/
theorem bind_passes_after {f : α → Parser β} (h : (p c).Settles Q)
    (hf : ∀ a c', Q a c' → (f a c').Passes) : ((p >>= f) c).Passes := by
  rw [bind_eq, Parser.bind]
  rcases h with ⟨a, c', h, ha⟩ | h
  · rw [h]
    exact hf a c' ha
  · rw [h]
    exact passes_tooDeep

/-- Reading nothing settles what holds already. -/
theorem settles_pure {a : α} (h : Q a c) : ((pure a : Parser α) c).Settles Q := settles_ok.mpr h

/-- Both choices settle the same. -/
theorem settles_ite {P : Prop} [Decidable P] {q : Parser α} (hp : (p c).Settles Q)
    (hq : (q c).Settles Q) : ((if P then p else q) c).Settles Q := by
  split
  · exact hp
  · exact hq

theorem settles_ite_neg {P : Prop} [Decidable P] {q : Parser α} (h : ¬ P)
    (hq : (q c).Settles Q) : ((if P then p else q) c).Settles Q := by
  rw [if_neg h]
  exact hq

/-- What is there is not left out. -/
theorem settles_optional (h : (p c).Settles Q) :
    (p.optional c).Settles fun o c' => ∃ a, o = some a ∧ Q a c' := by
  rw [Parser.optional]
  rcases h with ⟨a, c', h, ha⟩ | h
  · rw [h]
    exact settles_ok.mpr ⟨a, rfl, ha⟩
  · rw [h]
    exact settles_tooDeep

/-- What is optional is not there. -/
theorem optional_of_passes (h : (p c).Passes) :
    (p.optional c).Settles fun o c' => o = none ∧ c' = c := by
  rw [Parser.optional]
  rcases h with ⟨f, h⟩ | h
  · rw [h]
    exact settles_ok.mpr ⟨rfl, rfl⟩
  · rw [h]
    exact settles_tooDeep

/-- The first alternative decides. -/
theorem settles_first {ps : List (Parser α)} (h : (p c).Settles Q) :
    (firstOf (p :: ps) c).Settles Q := by
  cases ps with
  | nil => exact h
  | cons q qs =>
      rw [firstOf]
      · rcases h with ⟨a, c', h, ha⟩ | h
        · rw [h]
          exact settles_ok.mpr ha
        · rw [h]
          exact settles_tooDeep
      · intro hnil
        cases hnil

/-- The first alternative does not succeed, a later one decides. -/
theorem settles_later {ps : List (Parser α)} (h : (p c).Passes) (hps : ps ≠ [])
    (hrest : (firstOf ps c).Settles Q) : (firstOf (p :: ps) c).Settles Q := by
  rw [firstOf]
  · rcases h with ⟨f, h⟩ | h
    · rw [h]
      exact (Outcome.fails_fail f).passes.or hrest
    · rw [h]
      exact settles_tooDeep
  · exact hps

/-- The first alternatives do not succeed, later ones decide. -/
theorem settles_append {ps qs : List (Parser α)} (h : ∀ p ∈ ps, (p c).Passes) (hqs : qs ≠ [])
    (hrest : (firstOf qs c).Settles Q) : (firstOf (ps ++ qs) c).Settles Q := by
  induction ps with
  | nil => exact hrest
  | cons p ps ih =>
      refine settles_later (h p List.mem_cons_self) (by simp [hqs]) ?_
      exact ih fun q hq => h q (List.mem_cons_of_mem _ hq)

/-- The first alternative, or one of the others. -/
theorem firstOf_cons {ps : List (Parser α)} (hps : ps ≠ []) :
    firstOf (p :: ps) c = (p c).or (firstOf ps c) := by
  rw [firstOf]
  · cases p c <;> rfl
  · exact hps

/-- All alternatives fail. -/
theorem firstOf_fails {ps : List (Parser α)} (h : ∀ p ∈ ps, (p c).Fails) :
    (firstOf ps c).Fails := by
  induction ps with
  | nil => exact ⟨_, rfl⟩
  | cons p ps ih =>
      have hp := h p List.mem_cons_self
      cases ps with
      | nil => exact hp
      | cons q qs =>
          rw [firstOf_cons (List.cons_ne_nil _ _)]
          exact hp.or (ih fun r hr => h r (List.mem_cons_of_mem _ hr))

/-- No alternative succeeds. -/
theorem firstOf_passes {ps : List (Parser α)} (h : ∀ p ∈ ps, (p c).Passes) :
    (firstOf ps c).Passes := by
  induction ps with
  | nil => exact (Outcome.fails_fail _).passes
  | cons p ps ih =>
      have hp := h p List.mem_cons_self
      have hps := ih fun q hq => h q (List.mem_cons_of_mem _ hq)
      by_cases hnil : ps = []
      · subst hnil
        exact hp
      · rw [firstOf]
        · rcases hp with ⟨f, hp⟩ | hp
          · rw [hp]
            exact (Outcome.fails_fail f).passes.or_passes hps
          · rw [hp]
            exact passes_tooDeep
        · exact hnil

/-! ### Repetition -/

variable {step : α → Parser α} {a : α} {m : Nat}

/-- A repetition stops where no further step can be made. -/
theorem iterate_stops (h : Q a c) (hstop : (step a c).Passes) (rounds : List Char) :
    (iterate step rounds a c).Settles Q := by
  cases rounds with
  | nil => exact settles_ok.mpr h
  | cons x rounds =>
      rw [iterate]
      rcases hstop with ⟨f, hstop⟩ | hstop
      · simp only [hstop]
        exact settles_ok.mpr h
      · simp only [hstop]
        exact settles_tooDeep

/-- A repetition goes on after a step. -/
theorem iterate_step {S : α → Cursor → Prop} {x : Char} {rounds : List Char}
    (h : (step a c).Settles S) (hrest : ∀ b d, S b d → (iterate step rounds b d).Settles Q) :
    (iterate step (x :: rounds) a c).Settles Q := by
  rw [iterate]
  rcases h with ⟨b, d, h, hb⟩ | h
  · simp only [h]
    exact hrest b d hb
  · simp only [h]
    exact settles_tooDeep

/-- A number of steps, one after the other. -/
def steps (step : α → Parser α) : Nat → Outcome α → Outcome α
  | 0, o => o
  | m + 1, o =>
    match steps step m o with
    | .ok a c => step a c
    | r => r

/-- One more step. -/
theorem settles_step (h : (steps step m o).Settles Q)
    (hstep : ∀ a c, Q a c → (step a c).Settles Q') : (steps step (m + 1) o).Settles Q' := by
  rw [steps]
  rcases h with ⟨a, c, h, ha⟩ | h
  · rw [h]
    exact hstep a c ha
  · rw [h]
    exact settles_tooDeep

theorem steps_fail (f : Failure) (m : Nat) : steps step m (.fail f) = .fail f := by
  induction m with
  | zero => rfl
  | succ m ih => rw [steps, ih]

theorem steps_stop (s : Stop) (m : Nat) : steps step m (.stop s) = .stop s := by
  induction m with
  | zero => rfl
  | succ m ih => rw [steps, ih]

/-- The first step of several. -/
theorem steps_succ (m : Nat) (a : α) (c : Cursor) :
    steps step (m + 1) (.ok a c) = steps step m (step a c) := by
  induction m with
  | zero => rfl
  | succ m ih => rw [steps, ih, steps]

/-- After `first`, a number of steps read all text before `rest`, a character each at least. -/
structure Runs (step : α → Parser α) (m : Nat) (rest : List Char) (P : α → Prop)
    (first : Outcome α) : Prop where
  room : ∀ j ≤ m, (steps step j first).Settles fun _ c => m + rest.length ≤ j + c.rest.length
  run : (steps step m first).Settles fun a c => P a ∧ c.rest = rest

variable {P P' : α → Prop} {rest rest' : List Char}

theorem runs_zero (h : o.Settles fun a c => P a ∧ c.rest = rest) : Runs step 0 rest P o := by
  refine ⟨fun j hj => ?_, h⟩
  obtain rfl : j = 0 := by omega
  exact h.mono fun a c ha => by simp [ha.2]

/-- One more step. -/
theorem Runs.next (h : Runs step m rest P o) (hshort : rest'.length < rest.length)
    (hstep : ∀ a c, P a → c.rest = rest → (step a c).Settles fun b d => P' b ∧ d.rest = rest') :
    Runs step (m + 1) rest' P' o := by
  have hrun := settles_step h.run fun a c ha => hstep a c ha.1 ha.2
  refine ⟨fun j hj => ?_, hrun⟩
  -- the text that the new step reads was among what the earlier steps left
  by_cases hlast : j = m + 1
  · subst hlast
    exact hrun.mono fun a c ha => by simp [ha.2]
  · exact (h.room j (by omega)).mono fun a c hroom => by omega

/-- Steps follow only what has been read. -/
theorem Runs.first (h : Runs step m rest P o) :
    o.Settles fun a c => Runs step m rest P (.ok a c) := by
  have hrun := h.run
  cases o with
  | ok a c => exact settles_ok.mpr h
  | fail f =>
      rw [steps_fail] at hrun
      exact (Outcome.not_settles_fail f hrun).elim
  | stop s =>
      rw [steps_stop] at hrun
      rcases hrun with ⟨a, c, heq, -⟩ | heq
      · cases heq
      · exact .inr heq

/-- The first step of several is made. -/
theorem Runs.tail (h : Runs step (m + 1) rest P (.ok a c)) : Runs step m rest P (step a c) := by
  refine ⟨fun j hj => ?_, ?_⟩
  · rw [← steps_succ]
    exact (h.room (j + 1) (by omega)).mono fun b d hd => by omega
  · rw [← steps_succ]
    exact h.run

/-- A repetition makes the steps that can be made. -/
theorem Runs.iterate (h : Runs step m rest P (.ok a c))
    (hstop : ∀ b d, P b → d.rest = rest → (step b d).Passes) {rounds : List Char}
    (hm : m ≤ rounds.length) :
    (iterate step rounds a c).Settles fun b d => P b ∧ d.rest = rest := by
  induction m generalizing a c rounds with
  | zero =>
      have hrun : P a ∧ c.rest = rest := settles_ok.mp h.run
      exact iterate_stops hrun (hstop a c hrun.1 hrun.2) rounds
  | succ m ih =>
      cases rounds with
      | nil => simp at hm
      | cons x rounds =>
          exact iterate_step h.tail.first fun b d hb => ih hb (by simpa using hm)

/-- A run of steps that is followed by none is what a repetition does. -/
theorem Runs.repeatedly (h : Runs step m rest P (.ok a c))
    (hstop : ∀ b d, P b → d.rest = rest → (step b d).Passes) :
    (repeatedly step a c).Settles fun b d => P b ∧ d.rest = rest := by
  have hroom : m + rest.length ≤ 0 + c.rest.length := settles_ok.mp (h.room 0 (Nat.zero_le m))
  exact h.iterate hstop (by omega)

end Ember.Grammar
