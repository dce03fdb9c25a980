import Ember.Proofs.Plan

/-!
# Budget — what more of it changes

A run is given fuel and a limit on the calls in progress. If it is not stopped for want of one of
them, more of it changes nothing: the run ends in the same way, and leaves the same machine behind.

* `Run.AgreesUnless`: two computations do the same unless the first one is stopped.
* `Activity.agrees_fuel`, `runFrom_of_le`: more fuel.
* `Activity.agrees_limit`, `agrees_runFrom_limit`: a higher limit on calls.
-/

namespace Ember

/-- Ways to be stopped that no place and no call around it turns into other ones. -/
structure Halt.Final (B : Halt → Prop) : Prop where
  place : ∀ {f span}, B (.fault f none) → B (.fault f span)
  call : ¬ B .displayTooDeep

namespace Run

variable {B : Halt → Prop} {α β : Type} {r r' : Run α}

/-- The computation, started in the machine, is stopped in one of the ways of `B`. -/
def Stopped (B : Halt → Prop) (out : Except Halt α × Machine) : Prop :=
  ∃ h, out.1 = .error h ∧ B h

/-- The second computation does what the first one does, unless that is stopped. -/
def AgreesUnless (B : Halt → Prop) (r r' : Run α) : Prop :=
  ∀ m, Stopped B (r.run.run m) ∨ r'.run.run m = r.run.run m

theorem AgreesUnless.refl (r : Run α) : AgreesUnless B r r := fun _ => .inr rfl

/-- Runs that agree, followed by runs that agree, agree: a halt of the first part ends both. -/
theorem AgreesUnless.bind {f f' : α → Run β} (h : AgreesUnless B r r')
    (hf : ∀ a, AgreesUnless B (f a) (f' a)) : AgreesUnless B (r >>= f) (r' >>= f') := by
  intro m
  rw [run_bind, run_bind]
  rcases h m with ⟨halt, hhalt, hB⟩ | hm
  · left
    generalize r.run.run m = out at hhalt
    rcases out with ⟨_ | a, m'⟩ <;> cases hhalt
    exact ⟨halt, rfl, hB⟩
  · rw [hm]
    rcases r.run.run m with ⟨_ | a, m'⟩
    · exact .inr rfl
    · exact hf a m'

/-- Giving faults a place keeps runs agreeing, if the excepted halts are kept as they are. -/
theorem AgreesUnless.locate (hB : Halt.Final B) (h : AgreesUnless B r r') (span : Option Span) :
    AgreesUnless B (locate span r) (locate span r') := by
  intro m
  rw [run_locate, run_locate]
  rcases h m with ⟨halt, hhalt, hstop⟩ | hm
  · left
    generalize r.run.run m = out at hhalt
    rcases out with ⟨(⟨f, _ | s⟩ | _ | _) | a, m'⟩ <;> cases hhalt
    · exact ⟨_, rfl, hB.place hstop⟩
    · exact ⟨_, rfl, hstop⟩
    · exact ⟨_, rfl, hstop⟩
    · exact ⟨_, rfl, hstop⟩
  · rw [hm]
    exact .inr rfl

/-- The bookkeeping of a call keeps runs agreeing. -/
theorem AgreesUnless.inCall (hB : Halt.Final B) (h : AgreesUnless B r r') (name : String) :
    AgreesUnless B (inCall name r) (inCall name r') := by
  intro m
  rw [run_inCall, run_inCall]
  rcases h { m with depth := m.depth + 1 } with ⟨halt, hhalt, hstop⟩ | hm
  · left
    generalize r.run.run { m with depth := m.depth + 1 } = out at hhalt
    rcases out with ⟨(_ | _ | _) | a, m'⟩ <;> cases hhalt
    · exact ⟨_, rfl, hstop⟩
    · exact absurd hstop hB.call
    · exact ⟨_, rfl, hstop⟩
  · rw [hm]
    exact .inr rfl

end Run

open Run (AgreesUnless)

variable {B : Halt → Prop} {cfg : Settings} {fuel fuel' : Nat}

/-- A plan does the same if what it calls does. -/
theorem Plan.agrees (hB : Halt.Final B) {call call' : (a : Activity) → Run a.Result}
    (hcall : ∀ a, AgreesUnless B (call a) (call' a)) {α : Type} (p : Plan α) :
    AgreesUnless B (p.run call) (p.run call') := by
  induction p with
  | act r => exact .refl r
  | call a => exact hcall a
  | bind p f ihp ihf => exact ihp.bind ihf
  | locate span p ih => exact ih.locate hB span
  | inCall name p ih => exact ih.inCall hB name

/-- The statements of a program do the same if each of them does. -/
theorem agrees_runFrom {cfg' : Settings}
    (h : ∀ n, AgreesUnless B (exec cfg fuel n Store.root) (exec cfg' fuel' n Store.root))
    (ns : List Node) (v : Value) :
    AgreesUnless B (runFrom cfg fuel v ns) (runFrom cfg' fuel' v ns) := by
  induction ns generalizing v with
  | nil => exact .refl _
  | cons n ns ih =>
      refine (h n).bind fun signal => ?_
      rcases signal with (_ | w) | w
      · exact ih v
      · exact ih w
      · exact .refl _

/-! ### Fuel -/

/-- To be out of fuel. -/
def Halt.Spent (h : Halt) : Prop := h = .outOfFuel

theorem Halt.final_spent : Final Spent := ⟨nofun, nofun⟩

/-- **More fuel changes nothing**, unless the run is out of it. -/
theorem Activity.agrees_fuel (hle : fuel ≤ fuel') (a : Activity) :
    AgreesUnless Halt.Spent (a.run cfg fuel) (a.run cfg fuel') := by
  induction fuel generalizing fuel' a with
  | zero =>
      intro m
      have hspent : (a.run cfg 0).run.run m = (.error .outOfFuel, m) := by cases a <;> rfl
      exact .inl ⟨.outOfFuel, by rw [hspent], rfl⟩
  | succ fuel ih =>
      obtain ⟨k, rfl⟩ : ∃ k, fuel' = k + 1 := ⟨fuel' - 1, by omega⟩
      rw [run_succ, run_succ]
      exact Plan.agrees Halt.final_spent (fun b => ih (by omega) b) _

/-- A program that has come to an end does so with more fuel as well. -/
theorem runFrom_of_le (hle : fuel ≤ fuel') {ns : List Node} {v : Value} {m : Machine}
    {out : Except Halt Value × Machine} (h : (runFrom cfg fuel v ns).run.run m = out)
    (hout : out.1 ≠ .error .outOfFuel) : (runFrom cfg fuel' v ns).run.run m = out := by
  rcases agrees_runFrom (fun n => Activity.agrees_fuel hle (.exec n Store.root)) ns v m with
    ⟨_, hhalt, rfl⟩ | hsame
  · rw [h] at hhalt
    exact absurd hhalt hout
  · exact hsame.trans h

/-! ### The limit on calls -/

/-- To have more calls in progress than allowed. -/
def Halt.AtLimit (h : Halt) : Prop := ∃ limit name span, h = .fault (.callDepth limit name) span

theorem Halt.final_atLimit : Final AtLimit where
  place := by
    rintro f span ⟨limit, name, _, ⟨⟩⟩
    exact ⟨limit, name, span, rfl⟩
  call := nofun

/-- A check of the limit passes under a higher limit if it passes. -/
theorem agrees_check {d d' depth : Nat} (hd : d ≤ d') (name : String) :
    AgreesUnless Halt.AtLimit (if d ≤ depth then Run.fault (.callDepth d name) else pure ())
      (if d' ≤ depth then Run.fault (.callDepth d' name) else pure ()) := by
  by_cases hdepth : d ≤ depth
  · rw [if_pos hdepth]
    exact fun m => .inl ⟨_, rfl, d, name, none, rfl⟩
  · rw [if_neg hdepth, if_neg (by omega)]
    exact .refl _

/-- **A higher limit changes nothing**, unless the run is at the limit. Only the plan of a call
looks at it. -/
theorem Activity.agrees_limit {d : Nat} (hd : cfg.maxDepth ≤ d) (a : Activity) :
    AgreesUnless Halt.AtLimit (a.run cfg fuel) (a.run { cfg with maxDepth := d } fuel) := by
  induction fuel generalizing a with
  | zero => cases a <;> exact .refl _
  | succ fuel ih =>
      have hplan : ∀ {α : Type} (p : Plan α), AgreesUnless Halt.AtLimit
          (p.run fun b => b.run cfg fuel) (p.run fun b => b.run { cfg with maxDepth := d } fuel) :=
        Plan.agrees Halt.final_atLimit ih
      rw [run_succ, run_succ]
      cases a with
      | apply f args =>
          cases f with
          | function address =>
              refine (AgreesUnless.refl _).bind fun c => (AgreesUnless.refl _).bind fun m => ?_
              refine (AgreesUnless.refl _).bind fun _ => (agrees_check hd _).bind fun _ => ?_
              exact hplan _
          | _ => exact hplan _
      | _ => exact hplan _

/-- A higher call limit changes nothing in a sequence of statements unless the limit is hit. -/
theorem agrees_runFrom_limit (fuel : Nat) {d : Nat} (hd : cfg.maxDepth ≤ d) (ns : List Node)
    (v : Value) :
    AgreesUnless Halt.AtLimit (runFrom cfg fuel v ns)
      (runFrom { cfg with maxDepth := d } fuel v ns) :=
  agrees_runFrom (fun n => Activity.agrees_limit hd (.exec n Store.root)) ns v

end Ember
