import Ember.Proofs.Plan

/-!
# Contract — from single steps to all calls of a run

A contract says where activities may start and how they may end. If the plan of every activity that
starts as it may calls activities only where those may start, and ends as it may provided that they
do, then so does every activity that is ever called, whatever the fuel.

* `Contract`: where activities start and how they end.
* `Plan.Meets`: a plan keeps a contract, judged from its calls alone.
* `Contract.keeps`: running keeps a contract if the plans do.
-/

namespace Ember

/-- Where activities may start, and how they may end. -/
structure Contract where
  /-- The activity may start in the machine. -/
  Pre : Activity → Machine → Prop
  /-- Started in the first machine, the activity may end with a result in the second one. -/
  Post : (a : Activity) → Machine → a.Result → Machine → Prop
  /-- Started in the first machine, an activity may end early in the second one. -/
  Halted : Machine → Machine → Prop

/-- A computation has ended with a result that satisfies `Q`, or early as `H` says. -/
def Run.Ended {α : Type} (Q : α → Machine → Prop) (H : Machine → Prop) :
    Except Halt α × Machine → Prop
  | (.ok a, m) => Q a m
  | (.error _, m) => H m

theorem Run.Ended.mono {α : Type} {Q Q' : α → Machine → Prop} {H H' : Machine → Prop}
    {out : Except Halt α × Machine} (h : Run.Ended Q H out) (hQ : ∀ x m, Q x m → Q' x m)
    (hH : ∀ m, H m → H' m) : Run.Ended Q' H' out := by
  rcases out with ⟨_ | x, m⟩
  · exact hH m h
  · exact hQ x m h

namespace Plan

variable {α β : Type} {C : Contract}

/-- Started in a machine, the plan calls activities where they may start; if these end as they may,
the plan ends as `Q` and `H` say. -/
def Meets (C : Contract) {α : Type} :
    Plan α → (α → Machine → Prop) → (Machine → Prop) → Machine → Prop
  | act r, Q, H, m => Run.Ended Q H (r.run.run m)
  | call a, Q, H, m => C.Pre a m ∧ (∀ x m', C.Post a m x m' → Q x m') ∧ ∀ m', C.Halted m m' → H m'
  | bind p f, Q, H, m => p.Meets C (fun x m' => (f x).Meets C Q H m') H m
  | locate _ p, Q, H, m => p.Meets C Q H m
  | inCall _ p, Q, H, m =>
    p.Meets C (fun x m' => Q x { m' with depth := m'.depth - 1 })
      (fun m' => H { m' with depth := m'.depth - 1 }) { m with depth := m.depth + 1 }

variable {Q Q' : α → Machine → Prop} {H H' : Machine → Prop} {m : Machine}

theorem Meets.mono {p : Plan α} (h : p.Meets C Q H m) (hQ : ∀ x m', Q x m' → Q' x m')
    (hH : ∀ m', H m' → H' m') : p.Meets C Q' H' m := by
  induction p generalizing m H H' with
  | act r => exact Run.Ended.mono h hQ hH
  | call a =>
      exact ⟨h.1, fun x m' hpost => hQ _ _ (h.2.1 x m' hpost),
        fun m' hhalt => hH _ (h.2.2 m' hhalt)⟩
  | bind p f ihp ihf =>
      exact ihp h (fun x m' hx => ihf x hx hQ hH) hH
  | locate span p ih => exact ih h hQ hH
  | inCall name p ih => exact ih h (fun x m' => hQ x _) fun m' => hH _

/-- What a plan was judged to do it does, if the activities it calls end as they may. -/
theorem Meets.run {p : Plan α} (call : (a : Activity) → Run a.Result)
    (hcall : ∀ b m', p.Calls call m b m' → C.Pre b m' →
      Run.Ended (C.Post b m') (C.Halted m') ((call b).run.run m'))
    (h : p.Meets C Q H m) :
    Run.Ended Q H ((p.run call).run.run m) ∧ ∀ b m', p.Calls call m b m' → C.Pre b m' := by
  induction p generalizing m H with
  | act r => exact ⟨h, fun _ _ hb => hb.elim⟩
  | call a =>
      have hends := hcall a m ⟨rfl, rfl⟩ h.1
      refine ⟨?_, ?_⟩
      · exact hends.mono h.2.1 h.2.2
      · rintro b m' ⟨rfl, rfl⟩
        exact h.1
  | bind p f ihp ihf =>
      obtain ⟨hends, hpre⟩ := ihp (fun b m' hb => hcall b m' (.inl hb)) h
      have hlater : ∀ x m₁, (p.run call).run.run m = (.ok x, m₁) →
          Run.Ended Q H (((f x).run call).run.run m₁) ∧
            ∀ b m', (f x).Calls call m₁ b m' → C.Pre b m' := by
        intro x m₁ hx
        rw [hx] at hends
        exact ihf x (fun b m' hb => hcall b m' (.inr ⟨x, m₁, hx, hb⟩)) hends
      refine ⟨?_, ?_⟩
      · rw [Plan.run, Run.run_bind]
        generalize (p.run call).run.run m = out at hends hlater
        rcases out with ⟨_ | x, m₁⟩
        · exact hends
        · exact (hlater x m₁ rfl).1
      · rintro b m' (hb | ⟨x, m₁, hx, hb⟩)
        · exact hpre b m' hb
        · exact (hlater x m₁ hx).2 b m' hb
  | locate span p ih =>
      obtain ⟨hends, hpre⟩ := ih hcall h
      refine ⟨?_, hpre⟩
      rw [Plan.run, Run.run_locate]
      generalize (p.run call).run.run m = out at hends
      rcases out with ⟨(⟨_, _ | _⟩ | _ | _) | _, m'⟩ <;> exact hends
  | inCall name p ih =>
      obtain ⟨hends, hpre⟩ := ih hcall h
      refine ⟨?_, hpre⟩
      rw [Plan.run, Run.run_inCall]
      generalize (p.run call).run.run { m with depth := m.depth + 1 } = out at hends
      rcases out with ⟨(_ | _ | _) | _, m'⟩ <;> exact hends

end Plan

namespace Contract

variable {C : Contract} {cfg : Settings} {A : Moment → Prop}

/-- The plans keep the contract, at moments of which `A` holds. -/
structure Planned (C : Contract) (cfg : Settings) (A : Moment → Prop) : Prop where
  plan : ∀ x : Moment, A x → C.Pre x.activity x.machine →
    (x.activity.plan cfg).Meets C (C.Post x.activity x.machine) (C.Halted x.machine) x.machine
  /-- Without fuel an activity ends where it starts. -/
  stuck : ∀ x : Moment, C.Pre x.activity x.machine → C.Halted x.machine x.machine

/-- The activity of a moment starts and ends as it may. -/
def Kept (C : Contract) (cfg : Settings) (x : Moment) : Prop :=
  C.Pre x.activity x.machine ∧ Run.Ended (C.Post x.activity x.machine) (C.Halted x.machine)
    ((x.activity.run cfg x.fuel).run.run x.machine)

theorem run_zero (cfg : Settings) (a : Activity) (m : Machine) :
    (a.run cfg 0).run.run m = (.error .outOfFuel, m) := by
  cases a <;> rfl

/-- **Running keeps a contract that the plans keep**, and so does every activity that is called. -/
theorem keeps (hC : C.Planned cfg A) {x : Moment} (hA : ∀ y, x.Leads cfg y → A y)
    (hx : C.Pre x.activity x.machine) : ∀ y, x.Leads cfg y → C.Kept cfg y := by
  obtain ⟨fuel, a, m⟩ := x
  -- by induction on the fuel: calls have less of it
  induction fuel generalizing a m with
  | zero =>
      intro y hy
      rcases Relation.ReflTransGen.cases_head hy with rfl | ⟨z, hz, -⟩
      · refine ⟨hx, ?_⟩
        rw [run_zero]
        exact hC.stuck _ hx
      · cases hz.fuel
  | succ fuel ih =>
      have hmeets := hC.plan _ (hA _ .refl) hx
      have hcalls : ∀ b m', (a.plan cfg).Calls (fun b => b.run cfg fuel) m b m' → C.Pre b m' →
          ∀ y, Moment.Leads cfg ⟨fuel, b, m'⟩ y → C.Kept cfg y := by
        intro b m' hb hpre
        have hstep : Moment.Calls cfg ⟨fuel + 1, a, m⟩ ⟨fuel, b, m'⟩ := ⟨rfl, hb⟩
        exact ih b m' (fun y hy => hA y (.head hstep hy)) hpre
      obtain ⟨hends, hpre⟩ := hmeets.run (fun b => b.run cfg fuel)
        fun b m' hb hb' => (hcalls b m' hb hb' _ .refl).2
      intro y hy
      rcases Relation.ReflTransGen.cases_head hy with rfl | ⟨⟨k, b, m'⟩, hz, hzy⟩
      · refine ⟨hx, ?_⟩
        rw [Activity.run_succ]
        exact hends
      · obtain rfl : fuel = k := Nat.succ.inj hz.fuel
        exact hcalls b m' hz.call (hpre b m' hz.call) y hzy

end Contract

end Ember
