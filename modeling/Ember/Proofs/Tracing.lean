import Ember.Proofs.Contract
import Ember.Proofs.Grammar.Yields
import Ember.Proofs.Plan.Shape
import Ember.Session

/-!
# Tracing — what a traced run does differently

A traced run leaves a line for every expression, statement and call, and is otherwise meant to do
what it does without. Most lines hold nothing that could get in the way, but that of a call shows
the arguments, and these may be nested too deeply to be shown. So the two runs are the same but for
the trace, unless some user function is called with an argument that cannot be shown; in that case
the traced run is cut short.

* `Run.Shadows`: a computation does the same as another one whatever the trace holds, or is cut
  short.
* `Moment.Unshown`: a user function is called with an argument that cannot be shown.
* `Activity.shadows`: each activity, by induction on the fuel.
* `tracing_agrees_or_stops`: whole programs.
-/

namespace Ember

/-- The settings without a trace. -/
def Settings.quiet (cfg : Settings) : Settings := { cfg with debug := false }

/-- The settings with a trace. -/
def Settings.traced (cfg : Settings) : Settings := { cfg with debug := true }

/-- A run was cut short because a value could not be shown. -/
def Halt.Unshowable : Halt → Prop
  | .displayTooDeep | .fault (.tooDeep _) _ | .fault (.noHandler _) _ => True
  | _ => False

/-! ### Two computations -/

namespace Run

variable {α β : Type} {bad : Machine → Prop} {r r' : Run α}

/-- Two computations have ended in the same way and left the same machine but for the trace; or, if
`bad`, the second one was cut short. -/
def Echoes (bad : Prop) (out out' : Except Halt α × Machine) : Prop :=
  (¬ bad ∧ ∃ t, out' = (out.1, { out.2 with trace := t })) ∨
    (bad ∧ ∃ h m, out' = (.error h, m) ∧ h.Unshowable)

/-- Whatever the trace holds, the second computation does the same as the first one, or is cut short
if the first one starts in a `bad` machine. -/
def Shadows (bad : Machine → Prop) (r r' : Run α) : Prop :=
  ∀ m t, Echoes (bad m) (r.run.run m) (r'.run.run { m with trace := t })

theorem Shadows.congr {bad' : Machine → Prop} (h : Shadows bad r r') (hbad : ∀ m, bad' m ↔ bad m) :
    Shadows bad' r r' := by
  rwa [show bad' = bad from funext fun m => propext (hbad m)]

/-- Two parts shadow each other if the second ones do on whatever the first ones give. -/
theorem Shadows.bind {f f' : α → Run β} {bad' : α → Machine → Prop} (h : Shadows bad r r')
    (hf : ∀ a, Shadows (bad' a) (f a) (f' a)) :
    Shadows (fun m => bad m ∨ ∃ a m₁, r.run.run m = (.ok a, m₁) ∧ bad' a m₁)
      (r >>= f) (r' >>= f') := by
  intro m t
  rw [run_bind, run_bind]
  rcases h m t with ⟨hgood, t₁, hout⟩ | ⟨hbad, halt, m', hout, hhalt⟩
  · rw [hout]
    dsimp only
    generalize r.run.run m = out
    rcases out with ⟨halt | a, m₁⟩
    · refine .inl ⟨?_, t₁, rfl⟩
      rintro (hbad | ⟨a, m₂, ha, -⟩)
      · exact hgood hbad
      · cases ha
    · have hiff : (bad m ∨ ∃ b m₂, ((.ok a, m₁) : Except Halt α × Machine) = (.ok b, m₂) ∧
          bad' b m₂) ↔ bad' a m₁ := by
        constructor
        · rintro (hbad | ⟨b, m₂, hb, hbad⟩)
          · exact absurd hbad hgood
          · cases hb
            exact hbad
        · exact fun hbad => .inr ⟨a, m₁, rfl, hbad⟩
      rw [hiff]
      exact hf a m₁ t₁
  · rw [hout]
    exact .inr ⟨.inl hbad, halt, m', rfl, hhalt⟩

theorem Shadows.locate (h : Shadows bad r r') (span : Option Span) :
    Shadows bad (locate span r) (locate span r') := by
  intro m t
  rw [run_locate, run_locate]
  rcases h m t with ⟨hgood, t₁, hout⟩ | ⟨hbad, halt, m', hout, hhalt⟩
  · rw [hout]
    exact .inl ⟨hgood, t₁, rfl⟩
  · rw [hout]
    refine .inr ⟨hbad, ?_⟩
    rcases halt with ⟨f, _ | s⟩ | _ | _
    · exact ⟨.fault f span, m', rfl, by cases f <;> exact hhalt⟩
    · exact ⟨_, m', rfl, hhalt⟩
    · exact ⟨_, m', rfl, hhalt⟩
    · exact ⟨_, m', rfl, hhalt⟩

theorem Shadows.inCall (h : Shadows bad r r') (name : String) :
    Shadows (fun m => bad { m with depth := m.depth + 1 }) (inCall name r) (inCall name r') := by
  intro m t
  rw [run_inCall, run_inCall]
  rcases h { m with depth := m.depth + 1 } t with ⟨hgood, t₁, hout⟩ | ⟨hbad, halt, m', hout, hhalt⟩
  · rw [hout]
    exact .inl ⟨hgood, t₁, rfl⟩
  · rw [hout]
    refine .inr ⟨hbad, ?_⟩
    rcases halt with ⟨f, s⟩ | _ | _
    · exact ⟨_, _, rfl, hhalt⟩
    · exact ⟨_, _, rfl, trivial⟩
    · exact ⟨_, _, rfl, hhalt⟩

/-- A computation that the trace has no influence on. -/
def Blind (r : Run α) : Prop := Shadows (fun _ => False) r r

/-- Writing the trace changes nothing else. -/
theorem shadows_traceLine (cfg cfg' : Settings) (line : Machine → String) :
    Shadows (fun _ => False) (traceLine cfg line) (traceLine cfg' line) := by
  intro m t
  obtain ⟨t₁, h₁⟩ := run_traceLine cfg line m
  obtain ⟨t₂, h₂⟩ := run_traceLine cfg' line { m with trace := t }
  rw [h₁, h₂]
  exact .inl ⟨id, t₂, rfl⟩

/-- Single operations look at the store and at nothing else. -/
theorem basic_blind : Basic fun _ r => Blind r where
  pure _ _ t := .inl ⟨id, t, rfl⟩
  fault _ _ t := .inl ⟨id, t, rfl⟩
  structural _ _ _ t := .inl ⟨id, t, rfl⟩
  tooDeep _ t := .inl ⟨id, t, rfl⟩
  store _ t := .inl ⟨id, t, rfl⟩
  modifyStore _ _ t := .inl ⟨id, t, rfl⟩
  print _ _ t := .inl ⟨id, t, rfl⟩
  traceLine cfg line := shadows_traceLine cfg cfg line
  allocate _ _ t := .inl ⟨id, t, rfl⟩
  bind h hf := (Shadows.bind h hf).congr fun m => by simp

end Run

open Run (Shadows Blind)

/-! ### The line of a call -/

/-- Values that can be shown are shown, and with a value that cannot be shown it is over. -/
theorem Store.run_showAll (s : Store) (limit : Nat) (vs : List Value) (m : Machine) :
    let out := (vs.mapM fun v => Run.ofShow (s.display limit true v)).run.run m
    ((∀ v ∈ vs, s.Shows limit v) ∧ ∃ texts, out = (.ok texts, m)) ∨
      (∃ v ∈ vs, ¬ s.Shows limit v) ∧ ∃ h, out = (.error h, m) ∧ h.Unshowable := by
  induction vs with
  | nil => exact .inl ⟨by simp, [], rfl⟩
  | cons v vs ih =>
      dsimp only at ih ⊢
      rw [List.mapM_cons, Run.run_bind]
      cases hv : s.display limit true v with
      | error fault =>
          have hhides : ¬ s.Shows limit v := by
            rintro ⟨text, htext⟩
            cases hv.symm.trans htext
          refine .inr ⟨⟨v, List.mem_cons_self, hhides⟩, ?_⟩
          cases fault with
          | noHandler kind => exact ⟨_, rfl, trivial⟩
          | tooDeep => exact ⟨_, rfl, trivial⟩
      | ok text =>
          have htext : (Run.ofShow (.ok text)).run.run m = (.ok text, m) := rfl
          rw [htext]
          dsimp only
          rw [Run.run_bind]
          rcases ih with ⟨hall, texts, hout⟩ | ⟨⟨w, hw, hhides⟩, halt, hout, hhalt⟩
          · rw [hout]
            exact .inl ⟨List.forall_mem_cons.mpr ⟨⟨text, hv⟩, hall⟩, _, rfl⟩
          · rw [hout]
            exact .inr ⟨⟨w, List.mem_cons_of_mem _ hw, hhides⟩, _, rfl, hhalt⟩

/-- The line of a call is left in the trace if all arguments can be shown. -/
theorem run_traceCall (cfg : Settings) (hcfg : cfg.debug = true) (name : String)
    (args : List Value) (m : Machine) :
    let out := (traceCall cfg name args).run.run m
    ((∀ v ∈ args, m.store.Shows cfg.host.displayLimit v) ∧
      ∃ t, out = (.ok (), { m with trace := t })) ∨
      (∃ v ∈ args, ¬ m.store.Shows cfg.host.displayLimit v) ∧
        ∃ h, out = (.error h, m) ∧ h.Unshowable := by
  have hstore : Run.store.run.run m = (.ok m.store, m) := rfl
  dsimp only
  rw [traceCall, if_pos hcfg, Run.run_bind, showCall, Run.run_bind, hstore]
  dsimp only
  rw [Run.run_bind]
  rcases m.store.run_showAll cfg.host.displayLimit args m with
    ⟨hall, texts, hout⟩ | ⟨hhides, halt, hout, hhalt⟩
  · rw [hout]
    obtain ⟨t, ht⟩ := Run.run_traceLine cfg
      (fun _ => "Calling: " ++ name ++ "(" ++ String.intercalate ", " texts ++ ")") m
    exact .inl ⟨hall, t, ht⟩
  · rw [hout]
    exact .inr ⟨hhides, halt, rfl, hhalt⟩

/-! ### Plans -/

namespace Plan

variable {α β : Type} {D : Activity → Machine → Prop} {call call' : (a : Activity) → Run a.Result}
  {p : Plan α} {m : Machine}

/-- While the plan runs, it calls an activity of which `D` holds. -/
def Strays (D : Activity → Machine → Prop) (call : (a : Activity) → Run a.Result) {α : Type}
    (p : Plan α) (m : Machine) : Prop := ∃ b m', p.Calls call m b m' ∧ D b m'

@[simp] theorem strays_act {r : Run α} : ¬ (act r).Strays D call m := by
  rintro ⟨b, m', hb, -⟩
  exact hb

@[simp] theorem strays_call {a : Activity} : (Plan.call a).Strays D call m ↔ D a m := by
  constructor
  · rintro ⟨b, m', ⟨rfl, rfl⟩, h⟩
    exact h
  · exact fun h => ⟨a, m, ⟨rfl, rfl⟩, h⟩

theorem strays_bind {f : α → Plan β} : (p >>= f).Strays D call m ↔ p.Strays D call m ∨
    ∃ a m₁, (p.run call).run.run m = (.ok a, m₁) ∧ (f a).Strays D call m₁ := by
  constructor
  · rintro ⟨b, m', hb | ⟨a, m₁, ha, hb⟩, h⟩
    · exact .inl ⟨b, m', hb, h⟩
    · exact .inr ⟨a, m₁, ha, b, m', hb, h⟩
  · rintro (⟨b, m', hb, h⟩ | ⟨a, m₁, ha, b, m', hb, h⟩)
    · exact ⟨b, m', .inl hb, h⟩
    · exact ⟨b, m', .inr ⟨a, m₁, ha, hb⟩, h⟩

/-- A computation calls nothing itself. -/
theorem strays_act_bind {r : Run α} {f : α → Plan β} : (act r >>= f).Strays D call m ↔
    False ∨ ∃ a m₁, r.run.run m = (.ok a, m₁) ∧ (f a).Strays D call m₁ :=
  strays_bind.trans (or_congr_left (iff_false_intro strays_act))

theorem shadows_act_bind {r : Run α} {f f' : α → Plan β} (hr : Blind r)
    (hf : ∀ a, Shadows ((f a).Strays D call) ((f a).run call) ((f' a).run call')) :
    Shadows ((act r >>= f).Strays D call) ((act r >>= f).run call) ((act r >>= f').run call') :=
  (hr.bind hf).congr fun _ => strays_act_bind

/-- A look at the machine as a whole, if what follows does not depend on the trace. -/
theorem shadows_get_bind {f f' : Machine → Plan β}
    (hf : ∀ m, Shadows ((f m).Strays D call) ((f m).run call) ((f' m).run call'))
    (htrace : ∀ m t, f' { m with trace := t } = f' m) :
    Shadows ((act get >>= f).Strays D call) ((act get >>= f).run call)
      ((act get >>= f').run call') := by
  intro m t
  have hstrays : (act get >>= f).Strays D call m ↔ (f m).Strays D call m := by
    rw [strays_act_bind, false_or]
    constructor
    · rintro ⟨_, _, hm, h⟩
      cases hm
      exact h
    · exact fun h => ⟨m, m, rfl, h⟩
  have hlook : ((act get >>= f').run call').run.run { m with trace := t }
      = ((f' m).run call').run.run { m with trace := t } := by rw [← htrace m t]; rfl
  rw [hstrays, hlook]
  exact hf m m t

/-- A plan that the trace has no influence on does the same if what it calls does. -/
theorem Built.shadows {k : Nat} (h : p.Built (fun _ r => Blind r) k)
    (hcall : ∀ a, Shadows (D a) (call a) (call' a)) :
    Shadows (p.Strays D call) (p.run call) (p.run call') := by
  induction p generalizing k with
  | act r => exact h.congr fun m => by simp
  | call a => exact (hcall a).congr fun m => strays_call
  | bind p f ihp ihf => exact ((ihp h.1).bind fun a => ihf a (h.2 a)).congr fun m => strays_bind
  | locate span p => exact h.elim
  | inCall name p ih =>
      obtain ⟨j, rfl, hj⟩ := h
      exact (ih hj).inCall name

end Plan

namespace Activity

open Plan (act)

variable {α : Type} {D : Activity → Machine → Prop} {call call' : (a : Activity) → Run a.Result}
  {cfg : Settings}

/-- The plan of a node leaves a line, and then goes on as without. -/
theorem Uniform.shadows {n : Node} {p : Settings → Plan α} (h : Uniform (fun _ r => Blind r) n p)
    (hcall : ∀ a, Shadows (D a) (call a) (call' a)) (cfg cfg' : Settings) :
    Shadows ((p cfg).Strays D call) ((p cfg).run call) ((p cfg').run call') := by
  cases h with
  | entered line h =>
      have hline := Run.shadows_traceLine cfg cfg' fun _ => line
      exact (hline.bind fun _ => (h.shadows hcall).locate n.span).congr fun m =>
        Plan.strays_act_bind
  | senseless h => exact (Run.basic_blind.structural n.span h).congr fun m => by simp

/-- What is not the application of a user function does the same if what it calls does. -/
theorem plan_shadows {a : Activity} (ha : a.userCalls = 0)
    (hcall : ∀ a, Shadows (D a) (call a) (call' a)) :
    Shadows ((a.plan cfg.quiet).Strays D call) ((a.plan cfg.quiet).run call)
      ((a.plan cfg.traced).run call') := by
  have hshape := plan_shape Run.basic_blind cfg.quiet a fun h => absurd ha h
  cases a with
  | eval n e => exact (evalPlan_uniform Run.basic_blind n e).shadows hcall _ _
  | exec n e => exact (execPlan_uniform Run.basic_blind n e).shadows hcall _ _
  | apply f args =>
      cases f with
      | function address => cases ha
      | _ => exact Plan.Built.shadows (k := 0) hshape hcall
  | _ => exact Plan.Built.shadows (k := 0) hshape hcall

/-- A user function was applied to an argument that cannot be shown in the machine. -/
def Hides (limit : Nat) (m : Machine) : Activity → Prop
  | apply (.function _) args => ∃ v ∈ args, ¬ m.store.Shows limit v
  | _ => False

/-- The body of a function is run inside a call. -/
def bodyPlan (name : String) (body : Node) (frame : Nat) : Plan Value := do
  let signal ← Plan.inCall name (Plan.call (.block body frame))
  return Signal.result signal

/-- The body of a call strays where its block does, one call deeper. -/
theorem bodyPlan_strays {name : String} {body : Node} {frame : Nat} {m : Machine} :
    (bodyPlan name body frame).Strays D call m ↔
      D (.block body frame) { m with depth := m.depth + 1 } := by
  rw [bodyPlan, Plan.strays_bind]
  refine (or_iff_left ?_).trans Plan.strays_call
  rintro ⟨_, _, -, h⟩
  exact Plan.strays_act h

/-- A body starts after the line of its call has been left, if that could be done. -/
theorem bodyPlan_shadows (hcall : ∀ a, Shadows (D a) (call a) (call' a)) (name : String)
    (f : Nat) (args : List Value) (body : Node) (frame : Nat) :
    Shadows ((act (traceCall cfg.quiet name args) >>= fun _ => bodyPlan name body frame).Strays
        (fun b m => (apply (.function f) args).Hides cfg.host.displayLimit m ∨ D b m) call)
      ((act (traceCall cfg.quiet name args) >>= fun _ => bodyPlan name body frame).run call)
      ((act (traceCall cfg.traced name args) >>= fun _ => bodyPlan name body frame).run call') := by
  intro m t
  have hstrays : (act (traceCall cfg.quiet name args) >>= fun _ => bodyPlan name body frame).Strays
      (fun b m => (apply (.function f) args).Hides cfg.host.displayLimit m ∨ D b m) call m ↔
      (∃ v ∈ args, ¬ m.store.Shows cfg.host.displayLimit v) ∨
        D (.block body frame) { m with depth := m.depth + 1 } := by
    rw [Plan.strays_act_bind, false_or]
    constructor
    · rintro ⟨_, _, hm, h⟩
      cases hm
      exact bodyPlan_strays.mp h
    · exact fun h => ⟨(), m, rfl, bodyPlan_strays.mpr h⟩
  have hbuilt : (bodyPlan name body frame).Built (fun _ r => Blind r) 1 :=
    Plan.Built.bind ⟨0, rfl, Plan.built_call _⟩ fun _ => Plan.built_pure Run.basic_blind _
  rw [hstrays]
  change Run.Echoes _ (((bodyPlan name body frame).run call).run.run m)
    ((traceCall cfg.traced name args >>= fun _ => (bodyPlan name body frame).run call').run.run _)
  rw [Run.run_bind]
  rcases run_traceCall cfg.traced rfl name args { m with trace := t } with
    ⟨hall, t₁, hout⟩ | ⟨hhides, halt, hout, hhalt⟩
  · rw [hout, or_iff_right fun ⟨v, hv, hhides⟩ => hhides (hall v hv),
      ← (bodyPlan_strays : (bodyPlan name body frame).Strays D call m ↔ _)]
    exact hbuilt.shadows hcall m t₁
  · rw [hout]
    exact .inr ⟨.inl hhides, halt, _, rfl, hhalt⟩

/-- The application of a user function does the same if its body does, unless there is an argument
that cannot be shown. -/
theorem applyPlan_shadows (hcall : ∀ a, Shadows (D a) (call a) (call' a)) (f : Nat)
    (args : List Value) :
    Shadows ((applyPlan cfg.quiet (.function f) args).Strays
        (fun b m => (apply (.function f) args).Hides cfg.host.displayLimit m ∨ D b m) call)
      ((applyPlan cfg.quiet (.function f) args).run call)
      ((applyPlan cfg.traced (.function f) args).run call') := by
  have hP := Run.basic_blind
  refine Plan.shadows_act_bind (hP.closure f) fun c =>
    Plan.shadows_get_bind (fun m => ?_) fun _ _ => rfl
  refine Plan.shadows_act_bind (hP.check _) fun _ => Plan.shadows_act_bind (hP.check _) fun _ => ?_
  refine Plan.shadows_act_bind (hP.newFrame _) fun frame => ?_
  refine Plan.shadows_act_bind (hP.bindParameters frame c.params args) fun _ => ?_
  exact bodyPlan_shadows hcall _ f args c.body frame

end Activity

/-! ### Moments -/

namespace Moment

variable {cfg : Settings} {fuel : Nat} {a : Activity} {m : Machine}

/-- A user function is applied, and when its body starts there is an argument that cannot be
shown. -/
structure Unshown (cfg : Settings) (x y : Moment) : Prop where
  calls : x.Calls cfg y
  hides : x.activity.Hides cfg.host.displayLimit y.machine

/-- Some user function that the activity leads to is applied to an argument that cannot be shown. -/
def Stumbles (cfg : Settings) (x : Moment) : Prop := ∃ y z, x.Leads cfg y ∧ y.Unshown cfg z

theorem not_stumbles_zero : ¬ Stumbles cfg ⟨0, a, m⟩ := by
  rintro ⟨y, z, hy, hz⟩
  rcases Relation.ReflTransGen.cases_head hy with rfl | ⟨w, hw, -⟩
  · cases hz.calls.fuel
  · cases hw.fuel

/-- An activity stumbles in one of the calls that its plan makes. -/
theorem stumbles_succ : Stumbles cfg ⟨fuel + 1, a, m⟩ ↔ (a.plan cfg).Strays
    (fun b m' => a.Hides cfg.host.displayLimit m' ∨ Stumbles cfg ⟨fuel, b, m'⟩)
    (fun b => b.run cfg fuel) m := by
  constructor
  · rintro ⟨y, z, hy, hz⟩
    rcases Relation.ReflTransGen.cases_head hy with rfl | ⟨⟨k, b, m'⟩, hw, hwy⟩
    · obtain ⟨k, b, m'⟩ := z
      obtain rfl : fuel = k := Nat.succ.inj hz.calls.fuel
      exact ⟨b, m', hz.calls.call, .inl hz.hides⟩
    · obtain rfl : fuel = k := Nat.succ.inj hw.fuel
      exact ⟨b, m', hw.call, .inr ⟨y, z, hwy, hz⟩⟩
  · rintro ⟨b, m', hb, h⟩
    have hcalls : Calls cfg ⟨fuel + 1, a, m⟩ ⟨fuel, b, m'⟩ := ⟨rfl, hb⟩
    rcases h with h | ⟨y, z, hy, hz⟩
    · exact ⟨_, _, .refl, ⟨hcalls, h⟩⟩
    · exact ⟨y, z, .head hcalls hy, hz⟩

end Moment

/-- **A traced activity does the same as without a trace**, unless it leads to the application of a
user function to an argument that cannot be shown. -/
theorem Activity.shadows (cfg : Settings) (fuel : Nat) (a : Activity) :
    Shadows (fun m => Moment.Stumbles cfg.quiet ⟨fuel, a, m⟩) (a.run cfg.quiet fuel)
      (a.run cfg.traced fuel) := by
  -- by induction on the fuel: the plans are compared call by call
  induction fuel generalizing a with
  | zero =>
      intro m t
      rw [Contract.run_zero, Contract.run_zero]
      exact .inl ⟨Moment.not_stumbles_zero, t, rfl⟩
  | succ fuel ih =>
      rw [run_succ, run_succ]
      refine Shadows.congr ?_ fun m => Moment.stumbles_succ
      by_cases hcalls : a.userCalls = 0
      · have hhides : ∀ m', ¬ a.Hides cfg.quiet.host.displayLimit m' := by
          intro m' h
          unfold Hides at h
          split at h
          · cases hcalls
          · exact h
        simp only [hhides, false_or]
        exact plan_shadows hcalls ih
      · cases a with
        | apply f args =>
            cases f with
            | function address => exact applyPlan_shadows ih address args
            | _ => exact absurd rfl hcalls
        | _ => exact absurd rfl hcalls

/-! ### Programs -/

/-- The statements of a program, one after the other. -/
theorem runFrom_shadows (cfg : Settings) (fuel : Nat) (ns : List Node) (v : Value) :
    Shadows (fun m => ∃ x y, Enters cfg.quiet fuel ns m x ∧ x.Unshown cfg.quiet y)
      (runFrom cfg.quiet fuel v ns) (runFrom cfg.traced fuel v ns) := by
  induction ns generalizing v with
  | nil => exact fun m t => .inl ⟨fun ⟨_, _, h, _⟩ => h, t, rfl⟩
  | cons n ns ih =>
      let bad : Signal → Machine → Prop
        | .normal _, m => ∃ x y, Enters cfg.quiet fuel ns m x ∧ x.Unshown cfg.quiet y
        | .returned _, _ => False
      have hbad : ∀ m, (∃ x y, Enters cfg.quiet fuel (n :: ns) m x ∧ x.Unshown cfg.quiet y) ↔
          Moment.Stumbles cfg.quiet ⟨fuel, .exec n Store.root, m⟩ ∨ ∃ signal m',
            (exec cfg.quiet fuel n Store.root).run.run m = (.ok signal, m') ∧ bad signal m' := by
        intro m
        constructor
        · rintro ⟨x, y, hx | ⟨w, m', hm', hx⟩, hy⟩
          · exact .inl ⟨x, y, hx, hy⟩
          · exact .inr ⟨.normal w, m', hm', x, y, hx, hy⟩
        · rintro (⟨x, y, hx, hy⟩ | ⟨w | w, m', hm', h⟩)
          · exact ⟨x, y, .inl hx, hy⟩
          · obtain ⟨x, y, hx, hy⟩ := h
            exact ⟨x, y, .inr ⟨w, m', hm', hx⟩, hy⟩
          · exact h.elim
      rw [runFrom, runFrom]
      refine ((Activity.shadows cfg fuel (.exec n Store.root)).bind fun signal => ?_).congr hbad
      rcases signal with (_ | w) | w
      · exact ih v
      · exact ih w
      · exact fun m t => .inl ⟨id, t, rfl⟩

/-- **When tracing changes what a program does.** Let a program run on any machine, once without a
trace and once with it. If every argument that a user function is called with can be shown, both
runs end with the same value or the same error, and leave the same store and the same output
behind; otherwise the traced run is cut short, since a value could not be shown. -/
theorem tracing_agrees_or_stops (cfg : Settings) (fuel : Nat) (ns : List Node) (m : Machine) :
    let quiet := (runProgram cfg.quiet fuel ns).run.run m
    let traced := (runProgram cfg.traced fuel ns).run.run m
    (¬ (∃ x y, Enters cfg.quiet fuel ns m x ∧ x.Unshown cfg.quiet y) ∧
      traced.1 = quiet.1 ∧ traced.2 = { quiet.2 with trace := traced.2.trace }) ∨
    ((∃ x y, Enters cfg.quiet fuel ns m x ∧ x.Unshown cfg.quiet y) ∧
      ∃ h, traced.1 = .error h ∧ h.Unshowable) := by
  intro quiet traced
  have hout : Run.Echoes _ quiet traced := runFrom_shadows cfg fuel ns .unit m m.trace
  rcases hout with ⟨hgood, t, hout⟩ | ⟨hbad, h, m', hout, hh⟩
  · rw [hout]
    exact .inl ⟨hgood, rfl, rfl⟩
  · rw [hout]
    exact .inr ⟨hbad, h, rfl, hh⟩

/-! ### An argument that is nested too deeply -/

/-- A function that nests arrays in each other, one that gives back `1` whatever it is given, and a
call of the second with what the first one makes. -/
def nestingSource : String :=
  "fun nest(n) \x7b let @mut a = []\n for i in range(0, n) \x7b a = [a] \x7d\n return a \x7d\n"
    ++ "fun g(x) \x7b return 1 \x7d\nfun f() \x7b return g(nest(9)) \x7d\nf()"

/-- At most two calls, on a host with room for nine arrays inside each other; `nest(9)` makes
ten. -/
def narrow (debug : Bool) : Settings where
  maxDepth := 2
  debug := debug
  host := ⟨9, 9, 1000, 500⟩

/-- The run gave `1`. -/
def givesOne : Except Halt Value → Bool
  | .ok (.int i) => i == 1
  | _ => false

/-- The run was ended in `f`, since something was nested too deeply there. -/
def endsInF : Except Halt Value → Bool
  | .error (.fault (.tooDeep name) _) => name == "f"
  | _ => false

theorem eq_of_givesOne {x : Except Halt Value} (h : givesOne x) : x = .ok (.int 1) := by
  unfold givesOne at h
  split at h
  · rw [beq_iff_eq.mp h]
  · cases h

theorem eq_of_endsInF {x : Except Halt Value} (h : endsInF x) :
    ∃ span, x = .error (.fault (.tooDeep "f") span) := by
  unfold endsInF at h
  split at h
  · rename_i span
    exact ⟨span, by rw [beq_iff_eq.mp h]⟩
  · cases h

/-- A program that hands arrays to a function which are nested too deeply to be shown. Without a
trace it ends with a value, and with a trace it does not. -/
theorem nestingProgram_traced : ∃ ts ns, parseProgram "<input>" nestingSource = .ok ts ∧
    analyzeTrees ts = .ok ns ∧
    ((Session.fresh (narrow false)).runNodes ns).1 = .ok (.int 1) ∧
    ∃ span,
      ((Session.fresh (narrow true)).runNodes ns).1 = .error (.fault (.tooDeep "f") span) := by
  have hok : (parseProgram "<input>" nestingSource).toOption.any fun ts =>
      (analyzeTrees ts).toOption.any fun ns =>
        givesOne ((Session.fresh (narrow false)).runNodes ns).1
          && endsInF ((Session.fresh (narrow true)).runNodes ns).1 := by decide +kernel
  obtain ⟨ts, hts, hok⟩ := exists_ok_of_any hok
  obtain ⟨ns, hns, hok⟩ := exists_ok_of_any hok
  obtain ⟨hquiet, htraced⟩ := (Bool.and_eq_true ..).mp hok
  exact ⟨ts, ns, hts, hns, eq_of_givesOne hquiet, eq_of_endsInF htraced⟩

end Ember
