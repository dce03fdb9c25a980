import Ember.Proofs.Analysis.Unfolded
import Ember.Proofs.Variation.Eval
import Ember.Proofs.Wrapping

/-!
# Folding — a negative literal is a minus sign before a literal

The analysis makes a minus sign before a number part of the number. A program means the same
without this special case, unless the number is as large as the least integer: that integer can only
be written because of it.

* `eval_integer`, `eval_minus`: what a literal and a minus sign before it evaluate to.
* `Variation.folding`: to differ in whether minus signs are part of literals.
* `folding_preserves_meaning`: the special case changes nothing but for the least integer.
-/

namespace Ember

variable {cfg : Settings}

/-! ### One literal -/

/-- The value of an integer literal: the integer, if it has 64 bits. -/
def integerLiteral (i : Int) : Except Fault Value := (confine i "integer literal").map .int

/-- A fault that is raised has no place yet, and leaves the machine as it was. -/
theorem Run.run_ofExcept {α : Type} (x : Except Fault α) (m : Machine) :
    (Run.ofExcept x).run.run m = (x.mapError (Halt.fault · none), m) := by
  cases x <;> rfl

/-- Entering a node for something that gives a result or a fault. -/
theorem Run.run_enter {α : Type} (cfg : Settings) (line : Machine → String) (s : Option Span)
    (r : Run α) (m : Machine) :
    ∃ t, (do Run.traceLine cfg line; Run.locate s r : Run α).run.run m
      = (Run.locate s r).run.run { m with trace := t } := by
  obtain ⟨t, ht⟩ := Run.run_traceLine cfg line m
  exact ⟨t, by rw [Run.run_bind, ht]⟩

/-- An integer literal gives its integer if that is in range, and a fault at the literal otherwise.
-/
theorem eval_integer (cfg : Settings) (fuel : Nat) (i : Int) (kind : Kind) (s : Option Span)
    (e : Nat) (m : Machine) :
    ∃ t, (eval cfg (fuel + 1) (.literal (.int i) kind s) e).run.run m
      = ((integerLiteral i).mapError (Halt.fault · s), { m with trace := t }) := by
  obtain ⟨t, ht⟩ := Run.run_enter cfg (fun _ => "Evaluating: LITERAL") s
    (Run.ofExcept (confine i "integer literal") >>= fun j => pure (Value.int j)) m
  refine ⟨t, Eq.trans ht ?_⟩
  rw [Run.run_locate, integerLiteral]
  cases confine i "integer literal" <;> rfl

/-- A minus sign before an integer literal negates what the literal gives. -/
theorem eval_minus (cfg : Settings) (fuel : Nat) (i : Int) (kind : Kind) (s s' : Option Span)
    (e : Nat) (m : Machine) :
    ∃ t, (eval cfg (fuel + 2) (.unary "-" (.literal (.int i) kind s') s) e).run.run m
      = (match integerLiteral i with
          | .ok v => v.negate.mapError (Halt.fault · s)
          | .error f => .error (.fault f (s'.or s)), { m with trace := t }) := by
  obtain ⟨t, ht⟩ := Run.run_enter cfg (fun _ => "Evaluating: UNARY") s
    (eval cfg (fuel + 1) (.literal (.int i) kind s') e >>= fun v => Run.ofExcept v.negate) m
  obtain ⟨t', ht'⟩ := eval_integer cfg fuel i kind s' e { m with trace := t }
  refine ⟨t', Eq.trans ht ?_⟩
  rw [Run.run_locate, Run.run_bind, ht']
  cases integerLiteral i with
  | error f => cases s' <;> rfl
  | ok v =>
      dsimp only [Except.mapError]
      rw [Run.run_ofExcept]
      cases v.negate <;> rfl

/-- Unless it is as large as the least integer, an integer and its opposite both have 64 bits or
neither does, and then the literal overflows. -/
theorem integerLiteral_neg {i : Int} (hi : i.natAbs ≠ 9223372036854775808) :
    (integerLiteral i = .ok (.int i) ∧ integerLiteral (-i) = .ok (.int (-i)) ∧
        (Value.int i).negate = .ok (.int (-i))) ∨
      (integerLiteral i = .error (.overflow "integer literal") ∧
        integerLiteral (-i) = .error (.overflow "integer literal")) := by
  unfold integerLiteral Value.negate confine
  by_cases h : intMin ≤ i ∧ i ≤ intMax
  · have hneg : intMin ≤ -i ∧ -i ≤ intMax := by
      unfold intMin intMax at *
      omega
    left
    simp only [if_pos h, if_pos hneg]
    exact ⟨rfl, rfl, rfl⟩
  · have hneg : ¬ (intMin ≤ -i ∧ -i ≤ intMax) := by
      unfold intMin intMax at *
      omega
    right
    simp only [if_neg h, if_neg hneg]
    exact ⟨rfl, rfl⟩

/-! ### Programs -/

namespace Variation

open Node (Refolded)

/-- To differ in whether minus signs are part of literals. The place of an overflow is that of the
number or that of the minus sign. -/
def folding : Variation where
  nodes := Refolded
  places _ _ := True
  same _ := trivial
  around _ _ := trivial

/-- What has been traced does not matter. -/
theorem Machines.traced {V : Variation} {m m' : Machine} (hm : V.Machines m m') (t t' : String) :
    V.Machines { m with trace := t } { m' with trace := t' } :=
  ⟨hm.stores, hm.output, hm.depth⟩

variable {i : Int} {s s' : Option Span}

/-- A folded literal does what the sign and the literal do, unless the literal is just beyond the
range. -/
theorem follows_unfolded (hi : i.natAbs ≠ 9223372036854775808) (k e : Nat) :
    folding.Follows Eq (eval cfg (k + 1) (.literal (.int (-i)) .int s) e)
      (eval cfg (k + 2) (.unary "-" (.literal (.int i) .int s') s) e) := by
  intro m m' hm
  obtain ⟨t, ht⟩ := eval_integer cfg k (-i) .int s e m
  obtain ⟨t', ht'⟩ := eval_minus cfg k i .int s s' e m'
  rw [ht, ht']
  rcases integerLiteral_neg hi with ⟨hlit, hneg, hvalue⟩ | ⟨hlit, hneg⟩
  · rw [hlit, hneg]
    dsimp only
    rw [hvalue]
    exact .done rfl (hm.traced t t')
  · rw [hlit, hneg]
    exact .halted (.fault _ trivial) (hm.traced t t')

/-- The sign and the literal do what the folded literal does, with the same exception. -/
theorem follows_folded (hi : i.natAbs ≠ 9223372036854775808) (k e : Nat) :
    folding.Follows Eq (eval cfg (k + 1) (.unary "-" (.literal (.int i) .int s') s) e)
      (eval cfg (k + 2) (.literal (.int (-i)) .int s) e) := by
  intro m m' hm
  obtain ⟨t', ht'⟩ := eval_integer cfg (k + 1) (-i) .int s e m'
  rw [ht']
  cases k with
  | zero =>
      -- the minus sign is entered, but there is no fuel left for the literal
      obtain ⟨t, ht⟩ := Run.run_enter cfg (fun _ => "Evaluating: UNARY") s
        (eval cfg 0 (.literal (.int i) .int s') e >>= fun v => Run.ofExcept v.negate) m
      have hspent : (eval cfg 1 (.unary "-" (.literal (.int i) .int s') s) e).run.run m
          = (.error .outOfFuel, { m with trace := t }) := ht
      rw [hspent]
      exact .spent
  | succ k =>
      obtain ⟨t, ht⟩ := eval_minus cfg k i .int s s' e m
      rw [ht]
      rcases integerLiteral_neg hi with ⟨hlit, hneg, hvalue⟩ | ⟨hlit, hneg⟩
      · rw [hlit, hneg]
        dsimp only
        rw [hvalue]
        exact .done rfl (hm.traced t t')
      · rw [hlit, hneg]
        exact .halted (.fault _ trivial) (hm.traced t t')

/-- Folding is a sound variation: all other nodes do the same by congruence. -/
theorem sound_folding (cfg : Settings) : folding.Sound cfg where
  expression h := by
    cases h with
    | congruent h => exact .inl h
    | unfolded hi => exact .inr fun k e _ => follows_unfolded hi k e
    | folded hi => exact .inr fun k e _ => follows_folded hi k e
  statement h := h.statement_congruent
  block h := .inl h.block_congruent
  branch h := h.branch_congruent

variable {V : Variation} {ns ns' : List Node} {out out' : Except Halt Value × Machine}

/-- Two programs start from machines that correspond. -/
theorem machines_fresh (V : Variation) : V.Machines .fresh .fresh :=
  ⟨⟨rfl, rfl, rfl, nofun⟩, rfl, rfl⟩

/-- A program comes to an end if one that differs from it does, and both end in the same way. -/
theorem runsTo_of_nodes (hV : V.Sound cfg) (h : List.Forall₂ (V.nodes .statement) ns ns')
    (hout : RunsTo cfg ns out) : ∃ out', RunsTo cfg ns' out' ∧ V.Ends Eq out out' := by
  obtain ⟨hspent, fuel, rfl⟩ := hout
  have hends : V.Ends Eq ((runProgram cfg fuel ns).run.run .fresh)
      ((runProgram cfg (fuel + 1) ns').run.run .fresh) :=
    follows_runFrom hV h fuel .unit _ _ (machines_fresh V)
  refine ⟨_, ⟨?_, fuel + 1, rfl⟩, hends⟩
  generalize (runProgram cfg fuel ns).run.run .fresh = out at hends hspent
  generalize (runProgram cfg (fuel + 1) ns').run.run .fresh = out' at hends
  cases hends with
  | spent => exact absurd rfl hspent
  | halted halts _ => cases halts <;> nofun
  | done _ _ => nofun

/-- Corresponding machines with the same result are the same outcome. -/
theorem Machines.sameOutcome {m m' : Machine} (hm : V.Machines m m')
    (result : Except Halt Value) : SameOutcome (result, m) (result, m') where
  result := rfl
  output := hm.output
  bindings := by
    simp only [Store.programBindings, Store.bindings, hm.stores.frame?]
  arrays := hm.stores.arrays
  functions f := by
    rcases hm.stores.closure? f with ⟨hc, hc'⟩ | ⟨c, c', hc, hc', hcc⟩
    · rw [hc, hc']
    · simp only [hc, hc', Option.map_some, Closure.face, hcc.name, hcc.params]

end Variation

/-- How a run has ended, but for the place of a fault. -/
def Halt.unplaced : Halt → Halt
  | .fault f _ => .fault f none
  | h => h

/-- Two programs have ended in the same way, but for the place of an error. -/
def SameOutcomeButPlace (out out' : Except Halt Value × Machine) : Prop :=
  SameOutcome (out.1.mapError Halt.unplaced, out.2) (out'.1.mapError Halt.unplaced, out'.2)

theorem SameOutcomeButPlace.symm {out out' : Except Halt Value × Machine}
    (h : SameOutcomeButPlace out out') : SameOutcomeButPlace out' out := SameOutcome.symm h

/-- Programs that differ in whether minus signs are part of literals end in the same way. -/
theorem runsTo_of_refolded {ns ns' : List Node} {out : Except Halt Value × Machine}
    (h : List.Forall₂ (Node.Refolded .statement) ns ns') (hout : RunsTo cfg ns out) :
    ∃ out', RunsTo cfg ns' out' ∧ SameOutcomeButPlace out out' := by
  obtain ⟨out', hout', hends⟩ := Variation.runsTo_of_nodes (Variation.sound_folding cfg) h hout
  refine ⟨out', hout', ?_⟩
  cases hends with
  | spent => exact absurd rfl hout.1
  | done result machines =>
      cases result
      exact machines.sameOutcome _
  | halted halts machines => cases halts <;> exact machines.sameOutcome _

/-- A minus sign before an integer. -/
def Tree.negative (i : Int) (inner outer : Option Span) : Tree :=
  .node .unary (.str "-") [.node .number (.int i) [] inner] outer

/-- `fun f(x) { return x * -5 }` and `print(f(-3))`, without places. -/
def negativeFactor : List Tree :=
  let name (n : String) : Tree := .node .identifier (.str n) [] none
  let call (f : String) (x : Tree) : Tree := .node .call .null [name f, x] none
  let product : Tree := .node .binary (.str "*") [name "x", .negative 5 none none] none
  [.node .functionDef (Grammar.functionHead (.str "f") ["x"])
      [.node .block .null [.node .returnStmt .null [product] none] none] none,
    .node .exprStmt .null [call "print" (call "f" (.negative 3 none none))] none]

theorem shaped_negativeFactor :
    ∀ t ∈ negativeFactor, Tree.Shaped Datum.IsInt .statement t := by
  have hf : Lexeme.IsName "f" := ⟨⟨'f', [], rfl, by decide, nofun⟩, by decide⟩
  have hx : Lexeme.IsName "x" := ⟨⟨'x', [], rfl, by decide, nofun⟩, by decide⟩
  have hprint : Lexeme.IsName "print" :=
    ⟨⟨'p', ['r', 'i', 'n', 't'], rfl, by decide, List.all_eq_true.mp (by decide)⟩, by decide⟩
  have hnegative (i : Int) : Tree.Shaped Datum.IsInt .expression (.negative i none none) :=
    .unary (by decide) (.number ⟨i, rfl⟩)
  have hproduct : Tree.Shaped Datum.IsInt .expression (.node .binary (.str "*")
      [.node .identifier (.str "x") [] none, .negative 5 none none] none) :=
    .binary (by decide) (.identifier hx) (hnegative 5)
  refine List.forall_mem_cons.mpr ⟨?_, List.forall_mem_singleton.mpr ?_⟩
  · refine .functionDef hf (List.forall_mem_singleton.mpr hx) ?_
    exact .block (List.forall_mem_singleton.mpr (.valueReturn hproduct))
  · have hcall : Tree.Shaped Datum.IsInt .expression (.node .call .null
        [.node .identifier (.str "f") [] none, .negative 3 none none] none) :=
      .call (.identifier hf) (List.forall_mem_singleton.mpr (hnegative 3))
    exact .exprStmt (.call (.identifier hprint) (List.forall_mem_singleton.mpr hcall))

end Ember
