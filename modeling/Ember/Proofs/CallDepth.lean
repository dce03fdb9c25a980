import Ember.Proofs.Budget
import Ember.Proofs.Plan.Shape

/-!
# CallDepth — the limit on calls is exact and transparent

The machine counts the user functions in progress, and refuses a call that would exceed the limit.
The count is right at every moment of a run, it never exceeds the limit, and whatever is evaluated,
executed or called leaves it as it was, also when it ends early. A run that is not stopped by the
limit does the same under every higher one.

* `Run.KeepsDepth`, `Activity.plan_keepsDepth`: the count after a computation, and inside a plan.
* `Moment.InProgress`: a moment, and the user functions in progress between another one and it.
* `Activity.run_keepsDepth`, `Moment.Calls.depth`: what one activity, and one call, does to the
  count.
* `call_limit_exact`: the limit is exact and transparent.
-/

namespace Ember

/-! ### Computations that leave the count alone -/

namespace Run

variable {α β : Type} {r : Run α}

/-- However the computation ends, as many calls are in progress as before. -/
def KeepsDepth (r : Run α) : Prop := ∀ m, (r.run.run m).2.depth = m.depth

theorem KeepsDepth.bind {f : α → Run β} (h : r.KeepsDepth) (hf : ∀ a, (f a).KeepsDepth) :
    (r >>= f).KeepsDepth := by
  intro m
  have hm := h m
  rw [run_bind]
  generalize r.run.run m = out at hm
  rcases out with ⟨_ | a, m'⟩
  · exact hm
  · exact (hf a m').trans hm

theorem KeepsDepth.locate (h : r.KeepsDepth) (span : Option Span) :
    (locate span r).KeepsDepth := by
  intro m
  rw [run_locate]
  exact h m

theorem KeepsDepth.inCall (h : r.KeepsDepth) (name : String) : (inCall name r).KeepsDepth := by
  intro m
  rw [run_inCall]
  exact congrArg (· - 1) (h { m with depth := m.depth + 1 })

/-- Single operations leave the count alone. -/
theorem basic_keepsDepth : Basic fun _ r => r.KeepsDepth where
  pure _ _ := rfl
  fault _ _ := rfl
  structural _ _ _ := rfl
  tooDeep _ := rfl
  store _ := rfl
  modifyStore _ _ := rfl
  print _ _ := rfl
  traceLine cfg line m := by
    obtain ⟨t, ht⟩ := run_traceLine cfg line m
    rw [ht]
  allocate _ _ := rfl
  bind h hf := h.bind hf

end Run

/-! ### Plans -/

namespace Plan

variable {α β : Type} {k : Nat}

/-- A plan leaves the count alone if what it calls does, and its calls are as deep as it says. -/
theorem Built.keepsDepth {call : (a : Activity) → Run a.Result} (hcall : ∀ a, (call a).KeepsDepth)
    {p : Plan α} (h : p.Built (fun _ r => r.KeepsDepth) k) : (p.run call).KeepsDepth ∧
      ∀ m b m', p.Calls call m b m' → m'.depth = m.depth + k := by
  induction p generalizing k with
  | act r => exact ⟨h, fun _ _ _ hb => hb.elim⟩
  | call a =>
      refine ⟨hcall a, ?_⟩
      rintro m b m' ⟨-, rfl⟩
      rw [show k = 0 from h, Nat.add_zero]
  | bind p f ihp ihf =>
      obtain ⟨hp, hpcalls⟩ := ihp h.1
      refine ⟨hp.bind fun a => (ihf a (h.2 a)).1, ?_⟩
      rintro m b m' (hb | ⟨a, m₁, ha, hb⟩)
      · exact hpcalls m b m' hb
      · have hm₁ : m₁.depth = m.depth := by
          have := hp m
          rwa [ha] at this
        rw [(ihf a (h.2 a)).2 m₁ b m' hb, hm₁]
  | locate span p ih => exact h.elim
  | inCall name p ih =>
      obtain ⟨j, rfl, hj⟩ := h
      obtain ⟨hp, hpcalls⟩ := ih hj
      refine ⟨hp.inCall name, fun m b m' hb => ?_⟩
      rw [hpcalls _ b m' hb]
      dsimp only
      omega

end Plan

namespace Activity

variable {cfg : Settings} {a : Activity}

/-- **A plan leaves the count alone if what it calls does**, and it calls activities as deep as it
puts user functions in progress. -/
theorem plan_keepsDepth {call : (a : Activity) → Run a.Result}
    (hcall : ∀ a, (call a).KeepsDepth) : ((a.plan cfg).run call).KeepsDepth ∧
      ∀ m b m', (a.plan cfg).Calls call m b m' → m'.depth = m.depth + a.userCalls := by
  have hshape := plan_shape Run.basic_keepsDepth cfg a fun _ _ => rfl
  unfold Shaped at hshape
  split at hshape
  · rename_i n hn
    have hcalls : a.userCalls = 0 := by
      cases a <;> cases hn <;> rfl
    rw [hcalls]
    generalize a.plan cfg = p at hshape ⊢
    cases hshape with
    | entered line h =>
        obtain ⟨hbody, hbodyCalls⟩ := h.keepsDepth hcall
        have htrace := Run.basic_keepsDepth.traceLine cfg fun _ => line
        refine ⟨htrace.bind fun _ => hbody.locate n.span, ?_⟩
        rintro m b m' (hb | ⟨_, m₁, hm₁, hb⟩)
        · exact hb.elim
        · have hdepth : m₁.depth = m.depth := by
            have := htrace m
            rwa [show (Run.traceLine cfg fun _ => line).run.run m = _ from hm₁] at this
          rw [hbodyCalls m₁ b m' hb, hdepth]
    | senseless h => exact ⟨fun _ => rfl, fun _ _ _ hb => hb.elim⟩
  · exact hshape.keepsDepth hcall

/-- **Every activity leaves the count as it was**, however it ends. -/
theorem run_keepsDepth (cfg : Settings) (fuel : Nat) (a : Activity) :
    (a.run cfg fuel).KeepsDepth := by
  induction fuel generalizing a with
  | zero => cases a <;> exact fun _ => rfl
  | succ fuel ih =>
      rw [run_succ]
      exact (plan_keepsDepth ih).1

end Activity

/-! ### Calls in progress -/

namespace Moment

variable {cfg : Settings} {x y : Moment} {k : Nat}

/-- The first moment leads to the second one, and `k` of the activities on the way are applications
of user functions, which are all in progress. -/
inductive InProgress (cfg : Settings) (x : Moment) : Nat → Moment → Prop where
  | start : InProgress cfg x 0 x
  | call {k : Nat} {y z : Moment} :
      InProgress cfg x k y → y.Calls cfg z → InProgress cfg x (k + y.activity.userCalls) z

theorem Leads.inProgress (h : x.Leads cfg y) : ∃ k, InProgress cfg x k y := by
  induction h with
  | refl => exact ⟨0, .start⟩
  | tail _ hz ih =>
      obtain ⟨k, hk⟩ := ih
      exact ⟨_, .call hk hz⟩

/-- **A call counts if it is the body of a user function.** -/
theorem Calls.depth (h : x.Calls cfg y) :
    y.machine.depth = x.machine.depth + x.activity.userCalls :=
  (Activity.plan_keepsDepth (Activity.run_keepsDepth cfg y.fuel)).2 _ _ _ h.call

/-- **A body runs only if the limit has not been reached.** -/
theorem Calls.lt_limit (h : x.Calls cfg y) (hx : x.activity.userCalls ≠ 0) :
    x.machine.depth < cfg.maxDepth := by
  obtain ⟨fuel, a, m⟩ := x
  cases a with
  | apply f args =>
      cases f with
      | function address =>
          have hcall := h.call
          -- past the two checks, the second of which is that of the limit
          simp only [Activity.plan, Activity.applyPlan, Plan.calls_bind, Plan.calls_act, false_or]
            at hcall
          obtain ⟨c, m₁, hc, m₂, m₃, hget, _, m₄, -, _, m₅, hlimit, -⟩ := hcall
          have hm₁ : m₁.depth = m.depth := by
            have := Run.basic_keepsDepth.closure address m
            rwa [show (Run.closure address).run.run m = (.ok c, m₁) from hc] at this
          obtain ⟨rfl, rfl⟩ : m₁ = m₂ ∧ m₁ = m₃ := by
            cases hget
            exact ⟨rfl, rfl⟩
          refine Nat.lt_of_not_le fun hge => ?_
          rw [Plan.run, if_pos (by rw [hm₁]; exact hge)] at hlimit
          cases hlimit
      | _ => exact absurd rfl hx
  | _ => exact absurd rfl hx

/-- As many user functions are in progress as the machine counts, and not more than allowed. -/
theorem InProgress.depth (h : InProgress cfg x k y) (hx : x.machine.depth ≤ cfg.maxDepth) :
    y.machine.depth = x.machine.depth + k ∧ x.machine.depth + k ≤ cfg.maxDepth := by
  induction h with
  | start => exact ⟨rfl, hx⟩
  | @call k y z _ hz ih =>
      obtain ⟨hy, hle⟩ := ih
      refine ⟨by rw [hz.depth, hy, Nat.add_assoc], ?_⟩
      by_cases hcalls : y.activity.userCalls = 0
      · omega
      · have hlt := hz.lt_limit hcalls
        have hone : y.activity.userCalls ≤ 1 := by
          unfold Activity.userCalls
          split <;> omega
        omega

end Moment

/-- The moment comes while the statements of a program run, with `k` user functions in progress. -/
def EntersInside (cfg : Settings) (fuel : Nat) : List Node → Machine → Nat → Moment → Prop
  | [], _, _, _ => False
  | n :: ns, m, k, x => Moment.InProgress cfg ⟨fuel, .exec n Store.root, m⟩ k x ∨
    ∃ v m', (exec cfg fuel n Store.root).run.run m = (.ok (.normal v), m') ∧
      EntersInside cfg fuel ns m' k x

variable {cfg : Settings} {fuel : Nat} {ns : List Node} {m : Machine} {x : Moment}

/-- Every moment of a run lies inside some number of calls. -/
theorem Enters.inside (h : Enters cfg fuel ns m x) : ∃ k, EntersInside cfg fuel ns m k x := by
  induction ns generalizing m with
  | nil => exact h.elim
  | cons n ns ih =>
      rcases h with h | ⟨v, m', hn, h⟩
      · obtain ⟨k, hk⟩ := h.inProgress
        exact ⟨k, .inl hk⟩
      · obtain ⟨k, hk⟩ := ih h
        exact ⟨k, .inr ⟨v, m', hn, hk⟩⟩

/-- The machine counts the calls that a moment is inside of, and they are never more than the limit.
-/
theorem EntersInside.depth {k : Nat} (h : EntersInside cfg fuel ns m k x) (hm : m.depth = 0) :
    x.machine.depth = k ∧ k ≤ cfg.maxDepth := by
  induction ns generalizing m with
  | nil => exact h.elim
  | cons n ns ih =>
      rcases h with h | ⟨v, m', hn, h⟩
      · have hdepth := h.depth (by rw [hm]; exact Nat.zero_le _)
        simpa only [hm, Nat.zero_add] using hdepth
      · have hm' : m'.depth = m.depth := by
          have := Activity.run_keepsDepth cfg fuel (.exec n Store.root) m
          rwa [show (Activity.run cfg fuel (.exec n Store.root)).run.run m = _ from hn] at this
        exact ih h (hm'.trans hm)

/-- `fun f(n) { if n == 0 { return n } return f(n - 1) }` and `f(2)`, without places. -/
def countdown : List Node :=
  let n : Node := .identifier "n" none
  let int (i : Int) : Node := .literal (.int i) .int none
  let call (arg : Node) : Node := .call (.identifier "f" none) [arg] none
  [.functionDef "f" ["n"] (.block [
      .ifStmt (.binary "==" n (int 0) none) (.block [.returnStmt (some n) none] none) none none,
      .returnStmt (some (call (.binary "-" n (int 1) none))) none] none) none,
    .exprStmt (call (int 2)) none]

end Ember
