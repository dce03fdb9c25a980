import Ember.Proofs.Simulation

/-!
# Simulation — the evaluator on nodes that are alike

Each function of the evaluator is followed by itself on nodes that differ in blocks around single
statements. Where one of them has such a block, its run takes a few more steps and puts an empty
frame around the statement; nothing else happens in between, and an error has a place already when
it leaves the block.

* `run_inside_single`, `run_block_single`: a block around a statement is the statement, in one more
  frame.
* `World.Simulates`: what is said about all functions of the evaluator at once.
* `World.simulates`: it holds, whatever the fuel.
-/

namespace Ember

variable {cfg : Settings} {fuel : Nat}

/-! ### A block around one statement -/

/-- The halt has a place, if it is a fault. -/
def Halt.Located (h : Halt) : Prop := ∀ f, h ≠ .fault f none

/-- What fails within a place has one. -/
theorem Run.located_locate {α : Type} {r : Run α} {span : Option Span} (hspan : span.isSome)
    {m m' : Machine} {h : Halt} (hrun : (Run.locate span r).run.run m = (.error h, m')) :
    h.Located := by
  obtain ⟨s, rfl⟩ := Option.isSome_iff_exists.mp hspan
  rw [run_locate] at hrun
  generalize r.run.run m = out at hrun
  rintro f rfl
  rcases out with ⟨(⟨g, _ | t⟩ | _ | _) | a, m₁⟩ <;> cases hrun

/-- A statement with a place gives it to its faults. -/
theorem exec_located {n : Node} (hn : n.span.isSome) {e : Nat} {m m' : Machine} {h : Halt}
    (hrun : (exec cfg fuel n e).run.run m = (.error h, m')) : h.Located := by
  cases fuel with
  | zero =>
      cases hrun
      exact fun _ => nofun
  | succ fuel =>
      have hbasic : Run.Basic fun _ _ => True :=
        ⟨fun _ => trivial, fun _ => trivial, fun _ _ => trivial, trivial, trivial, fun _ => trivial,
          fun _ => trivial, fun _ _ => trivial, fun _ => trivial, fun _ _ => trivial⟩
      have hshape : Activity.Entering _ cfg n _ :=
        (Activity.execPlan_uniform hbasic n e).entering cfg
      rw [Activity.exec_succ] at hrun
      generalize Activity.execPlan cfg n e = p at hshape hrun
      cases hshape with
      | entered line _ =>
          change ((Run.traceLine cfg fun _ => line) >>= fun _ => _).run.run m = _ at hrun
          rw [Run.run_bind] at hrun
          obtain ⟨t, hm₁⟩ := Run.run_traceLine cfg (fun _ => line) m
          rw [hm₁] at hrun
          exact Run.located_locate hn hrun
      | senseless _ =>
          obtain ⟨s, hs⟩ := Option.isSome_iff_exists.mp hn
          rw [hs] at hrun
          cases hrun
          exact fun _ => nofun

/-- A block around one statement is the statement, in one more frame. -/
theorem run_inside_single (n : Node) (span : Option Span) (e k : Nat) (m : Machine) :
    (execInside cfg (k + 3) (.block [n] span) e).run.run m
      = (exec cfg k n m.store.frames.size).run.run
          { m with store := (m.store.addFrame (some e)).1 } := by
  change (execAll cfg (k + 1) [n] (.normal none) m.store.frames.size).run.run
    { m with store := (m.store.addFrame (some e)).1 } = _
  rw [execAll, Run.run_bind]
  cases k with
  | zero => rfl
  | succ k =>
      generalize (exec cfg (k + 1) n m.store.frames.size).run.run
        { m with store := (m.store.addFrame (some e)).1 } = out
      rcases out with ⟨_ | _ | _, m₁⟩ <;> rfl

/-- A block of one statement takes four steps of fuel and a frame more. -/
theorem run_block_single {n : Node} (hn : n.span.isSome) (span : Option Span) (e : Nat)
    (m : Machine) : ∃ t, ∀ k, (exec cfg (k + 4) (.block [n] span) e).run.run m
      = (exec cfg k n m.store.frames.size).run.run
          { m with store := (m.store.addFrame (some e)).1, trace := t } := by
  obtain ⟨t, ht⟩ := Run.run_traceLine cfg (fun _ => "Executing: " ++ (Node.block [n] span).type) m
  refine ⟨t, fun k => ?_⟩
  change ((Run.traceLine cfg fun _ => _) >>= fun _ =>
    Run.locate span (execInside cfg (k + 3) (.block [n] span) e)).run.run m = _
  rw [Run.run_bind, ht]
  dsimp only
  rw [Run.run_locate, run_inside_single]
  cases hout : (exec cfg k n m.store.frames.size).run.run
    { m with store := (m.store.addFrame (some e)).1, trace := t } with
  | mk result m₁ =>
      cases result with
      | ok signal => rfl
      | error h =>
          have hlocated := exec_located hn hout
          rcases h with ⟨f, _ | s⟩ | _ | _
          · exact absurd rfl (hlocated f)
          all_goals rfl

/-- A computation that is, with some more fuel, a statement in one more frame. -/
structure Unwraps (cfg : Settings) (n : Node) (e : Nat) (r : Nat → Run Signal) : Prop where
  mono : ∀ {k k'}, k ≤ k' → Run.AgreesUnless Halt.Spent (r k) (r k')
  run : ∀ m, ∃ j t, 0 < j ∧ ∀ k, (r (k + j)).run.run m
    = (exec cfg k n m.store.frames.size).run.run
        { m with store := (m.store.addFrame (some e)).1, trace := t }

theorem unwraps_inside (n : Node) (span : Option Span) (e : Nat) :
    Unwraps cfg n e fun k => execInside cfg k (.block [n] span) e where
  mono hk := Activity.agrees_fuel hk (.inside (.block [n] span) e)
  run m := ⟨3, m.trace, Nat.succ_pos _, fun k => run_inside_single n span e k m⟩

theorem unwraps_exec {n : Node} (hn : n.span.isSome) (span : Option Span) (e : Nat) :
    Unwraps cfg n e fun k => exec cfg k (.block [n] span) e where
  mono hk := Activity.agrees_fuel hk (.exec (.block [n] span) e)
  run m := by
    obtain ⟨t, ht⟩ := run_block_single hn span e m
    exact ⟨4, t, Nat.succ_pos _, ht⟩

namespace World

variable {W : World} {α : Type} {n : Node} {e e' k : Nat} {r : Nat → Run Signal}
  {Q : World → Signal → Signal → Prop}

/-- A block around a statement of the first run; running the block takes more fuel. -/
theorem sim_left {r' : Nat → Run Signal} {i : Nat} (hi : i ≤ k + 1) (hr : Unwraps cfg n e r)
    (he : W.Scope e e')
    (h : ∀ W' x, W.Grows W' → W'.left x e → W'.Sim Q (exec cfg k n x) r') : W.Sim Q (r i) r' := by
  intro m m' hm
  obtain ⟨j, t, hj, hrun⟩ := hr.run m
  have hfuel : i ≤ k + j := by omega
  rcases hr.mono hfuel m with ⟨halt, hhalt, rfl⟩ | hsame
  · generalize (r i).run.run m = out at hhalt
    rcases out with ⟨_ | _, m₁⟩ <;> cases hhalt
    exact .spent m₁
  · rw [← hsame, hrun k]
    have hW := W.grows_addLeft m.store.frames.size e
    have hmachines : (W.addLeft m.store.frames.size e).Machines
        { m with store := (m.store.addFrame (some e)).1, trace := t } m' :=
      ⟨hm.stores.addLeft he, hm.output, hm.depth⟩
    exact (h _ _ hW (.inr ⟨rfl, rfl⟩) _ _ hmachines).grow hW

/-- A block around a statement of the second run. -/
theorem sim_right {s : Run Signal} (hr : Unwraps cfg n e' r) (he : W.Scope e e')
    (h : ∀ W' x, W.Grows W' → W'.right x e' → W'.Sim Q s fun k => exec cfg k n x) :
    W.Sim Q s r := by
  intro m m' hm
  obtain ⟨j, t, -, hrun⟩ := hr.run m'
  have hW := W.grows_addRight m'.store.frames.size e'
  have hmachines : (W.addRight m'.store.frames.size e').Machines m
      { m' with store := (m'.store.addFrame (some e')).1, trace := t } :=
    ⟨hm.stores.addRight he, hm.output, hm.depth⟩
  refine ((h _ _ hW (.inr ⟨rfl, rfl⟩) _ _ hmachines).grow hW).follow fun out htends => ?_
  obtain ⟨enough, htends⟩ := htends
  exact Run.Tends.shift j ⟨enough, fun k hk => (hrun k).trans (htends k hk)⟩

/-! ### The evaluator -/

/-- With some fuel, each function of the evaluator is followed on nodes that are alike. -/
structure Simulates (cfg : Settings) (k : Nat) : Prop where
  eval : ∀ {W : World} {n n' e e'}, Node.Alike .expression n n' → W.Scope e e' →
    W.Sim Same (Ember.eval cfg k n e) fun j => Ember.eval cfg j n' e'
  evalAll : ∀ {W : World} {ns ns' e e'}, List.Forall₂ (Node.Alike .expression) ns ns' →
    W.Scope e e' → W.Sim Same (Ember.evalAll cfg k ns e) fun j => Ember.evalAll cfg j ns' e'
  apply : ∀ {W : World} f args,
    W.Sim Same (applyFunction cfg k f args) fun j => applyFunction cfg j f args
  exec : ∀ {W : World} {n n' e e'}, Node.Alike .statement n n' → W.Scope e e' →
    (W.pair e e' ∨ n.declared? = none) →
    W.Sim Same (Ember.exec cfg k n e) fun j => Ember.exec cfg j n' e'
  inside : ∀ {W : World} {b b' e e'}, Node.Alike .block b b' → W.Scope e e' →
    W.Sim Same (execInside cfg k b e) fun j => execInside cfg j b' e'
  block : ∀ {W : World} {b b' e e'}, Node.Alike .block b b' → W.pair e e' →
    W.Sim Same (execBlock cfg k b e) fun j => execBlock cfg j b' e'
  all : ∀ {W : World} {ns ns' e e'} signal, List.Forall₂ (Node.Alike .statement) ns ns' →
    W.pair e e' → W.Sim Same (execAll cfg k ns signal e) fun j => execAll cfg j ns' signal e'
  loop : ∀ {W : World} {c c' b b' e e'}, Node.Alike .expression c c' → Node.Alike .block b b' →
    W.Scope e e' → W.Sim Same (whileLoop cfg k c b e) fun j => whileLoop cfg j c' b' e'
  each : ∀ {W : World} {b b' e e'} x a i, Node.Alike .block b b' → W.Scope e e' →
    W.Sim Same (forLoop cfg k x b a i e) fun j => forLoop cfg j x b' a i e'

namespace Simulates

variable {n' b b' c c' : Node} {ns ns' : List Node}

/-- Expressions that are alike, by the kind of the node. -/
theorem evalPlan (h : Simulates cfg k) (hn : Node.Alike .expression n n') (he : W.Scope e e') :
    W.Plans cfg k Same (Activity.evalPlan cfg n e) (Activity.evalPlan cfg n' e') := by
  cases hn with
  | @literal d kind span =>
      refine Plans.entered fun W' hW => plans_act ?_
      cases Value.ofDatum d with
      | int i =>
          refine (sim_ofExcept _).bind fun _ j _ _ hj => ?_
          cases hj
          exact sim_pure rfl
      | _ => exact sim_pure rfl
  | identifier =>
      refine Plans.entered fun W' hW => plans_act (Sim.store fun s s' hs => ?_)
      rw [hs.lookup (he.grow hW)]
      exact sim_ofExcept _
  | array hes =>
      refine Plans.entered fun W' hW => ?_
      refine (plans_call (h.evalAll hes (he.grow hW))).bind fun _ vs _ _ hvs => ?_
      cases hvs
      exact plans_act (sim_newArray _)
  | @binary op l l' r r' span hl hr =>
      refine Plans.entered fun W' hW => ?_
      cases hop : binaryOperator? op with
      | none => exact plans_fault _
      | some f =>
          have he' := he.grow hW
          refine (plans_call (h.eval hl he')).bind fun W₁ x _ hW₁ hx => ?_
          refine (plans_call (h.eval hr (he'.grow hW₁))).bind fun W₂ y _ hW₂ hy => ?_
          cases hx
          cases hy
          refine plans_act (Sim.store fun s s' hs => ?_)
          rw [binaryOperator?_congr hs.arrays hop]
          exact sim_ofExcept _
  | @logical op l l' r r' span hl hr =>
      refine Plans.entered fun W' hW => ?_
      cases decisive? op with
      | none => exact plans_fault _
      | some d =>
          have he' := he.grow hW
          refine (plans_call (h.eval hl he')).bind fun W₁ x _ hW₁ hx => ?_
          cases hx
          refine (plans_act (sim_ofExcept _)).bind fun W₂ b _ hW₂ hb => ?_
          cases hb
          split
          · exact plans_pure rfl
          · have he₂ := (he'.grow hW₁).grow hW₂
            refine (plans_call (h.eval hr he₂)).bind fun W₃ y _ hW₃ hy => ?_
            cases hy
            exact (plans_act (sim_ofExcept _)).bind fun _ _ _ _ _ => plans_pure rfl
  | @unary op operand operand' span ho =>
      refine Plans.entered fun W' hW => ?_
      cases unaryOperator? op with
      | none => exact plans_fault _
      | some f =>
          refine (plans_call (h.eval ho (he.grow hW))).bind fun _ x _ _ hx => ?_
          cases hx
          exact plans_act (sim_ofExcept _)
  | index ht hi =>
      refine Plans.entered fun W' hW => ?_
      have he' := he.grow hW
      refine (plans_call (h.eval ht he')).bind fun W₁ t _ hW₁ ht => ?_
      refine (plans_call (h.eval hi (he'.grow hW₁))).bind fun W₂ i _ hW₂ hi => ?_
      cases ht
      cases hi
      refine plans_act (Sim.store fun s s' hs => ?_)
      rw [resolveIndex_congr hs.arrays]
      refine (sim_ofExcept _).bind fun _ p _ _ hp => ?_
      cases hp
      exact sim_element p.1 p.2
  | functionExpr hb =>
      exact Plans.entered fun W' hW => plans_act (sim_newFunction ⟨rfl, rfl, hb, he.grow hW⟩)
  | call hf hargs =>
      refine Plans.entered fun W' hW => ?_
      have he' := he.grow hW
      refine (plans_call (h.eval hf he')).bind fun W₁ f _ hW₁ hf => ?_
      cases hf
      cases f with
      | function _ | builtin _ _ =>
          refine (plans_call (h.evalAll hargs (he'.grow hW₁))).bind fun _ vs _ _ hvs => ?_
          cases hvs
          exact h.apply _ vs
      | _ => exact plans_fault _

/-- Expressions one after the other. -/
theorem evalAllPlan (h : Simulates cfg k) (hns : List.Forall₂ (Node.Alike .expression) ns ns')
    (he : W.Scope e e') :
    W.Plans cfg k Same (Activity.evalAllPlan ns e) (Activity.evalAllPlan ns' e') := by
  cases hns with
  | nil => exact plans_pure rfl
  | cons hn hns =>
      refine (plans_call (h.eval hn he)).bind fun W₁ v _ hW₁ hv => ?_
      refine (plans_call (h.evalAll hns (he.grow hW₁))).bind fun W₂ vs _ hW₂ hvs => ?_
      cases hv
      cases hvs
      exact plans_pure rfl

/-- A call of the same function with the same arguments. -/
theorem applyPlan (h : Simulates cfg k) (f : Value) (args : List Value) :
    W.Plans cfg k Same (Activity.applyPlan cfg f args) (Activity.applyPlan cfg f args) := by
  cases f with
  | builtin b tag =>
      refine plans_act ?_
      dsimp only
      split
      · split
        · exact Sim.bind (Q := Same) (sim_fault _) fun _ _ _ _ _ => sim_builtin b args _
        · exact sim_builtin b args _
      · exact sim_builtin b args _
  | function address =>
      refine (plans_act (sim_closure address)).bind fun W₁ c c' hW₁ hc => ?_
      refine (plans_act sim_get).bind fun W₂ m m' hW₂ hm => ?_
      simp only [hm.stores.closureName, hm.depth, hc.params]
      refine (plans_act (sim_check _)).bind fun W₃ _ _ hW₃ _ => ?_
      refine (plans_act (sim_check _)).bind fun W₄ _ _ hW₄ _ => ?_
      have hscope := ((hc.scope.grow hW₂).grow hW₃).grow hW₄
      refine (plans_act (sim_newFrame hscope)).bind fun W₅ x x' hW₅ hx => ?_
      refine (plans_act (sim_bindParameters hx c.params args)).bind fun W₆ _ _ hW₆ _ => ?_
      refine (plans_act (sim_traceCall cfg _ args)).bind fun W₇ _ _ hW₇ _ => ?_
      have hbody := h.block hc.body (hW₇.pair (hW₆.pair hx))
      refine Plans.bind (Q := Same) (hbody.inCall _) fun W₈ signal _ hW₈ hsignal => ?_
      cases hsignal
      exact plans_pure rfl
  | _ => exact plans_fault _

/-- What follows a condition that does not hold: a conditional may stand in a block of its own. -/
theorem otherwise (h : Simulates cfg k) {no no' : Node} (hno : Node.Alike .branch no no')
    (he : W.Scope e e') :
    W.Plans cfg k Same
      (match some no with
        | none => return .normal none
        | some (.ifStmt c y n s) => .call (.exec (.ifStmt c y n s) e)
        | some other => .call (.inside other e))
      (match some no' with
        | none => return .normal none
        | some (.ifStmt c y n s) => .call (.exec (.ifStmt c y n s) e')
        | some other => .call (.inside other e')) := by
  cases hno with
  | elseBlock hss => exact h.inside (.block hss) he
  | elseIf hif => exact h.exec hif he (.inr rfl)
  | elseLeft hif hn =>
      refine sim_left (r := fun k => execInside cfg k _ e) (Nat.le_succ k)
        (unwraps_inside _ _ e) he fun W' x hW hx => ?_
      exact h.exec hif (.left hx (he.grow hW)) (.inr hn.declared)
  | elseRight hif hn =>
      refine sim_right (unwraps_inside _ _ e') he fun W' x hW hx => ?_
      exact h.exec hif (.right hx (he.grow hW)) (.inr rfl)

/-- Blocks that are alike, in related frames. -/
theorem blockPlan (h : Simulates cfg k) (hb : Node.Alike .block b b') (he : W.pair e e') :
    W.Plans cfg k Same (Activity.blockPlan b e) (Activity.blockPlan b' e') := by
  cases hb with
  | block hss => exact h.all _ hss he

/-- Statements up to the first return. -/
theorem allPlan (h : Simulates cfg k) (hns : List.Forall₂ (Node.Alike .statement) ns ns')
    (signal : Signal) (he : W.pair e e') :
    W.Plans cfg k Same (Activity.allPlan ns signal e) (Activity.allPlan ns' signal e') := by
  cases hns with
  | nil => exact plans_pure rfl
  | cons hn hns =>
      refine (plans_call (h.exec hn (.pair he) (.inl he))).bind fun W₁ signal _ hW₁ hsignal => ?_
      cases hsignal
      cases signal with
      | returned v => exact plans_pure rfl
      | normal v => exact h.all _ hns (hW₁.pair he)

/-- A round of a loop with a condition, and the rounds after it. -/
theorem loopPlan (h : Simulates cfg k) (hc : Node.Alike .expression c c')
    (hb : Node.Alike .block b b') (he : W.Scope e e') :
    W.Plans cfg k Same (Activity.loopPlan c b e) (Activity.loopPlan c' b' e') := by
  refine (plans_call (h.eval hc he)).bind fun W₁ v _ hW₁ hv => ?_
  cases hv
  refine (plans_act (sim_ofExcept _)).bind fun W₂ holds _ hW₂ hholds => ?_
  cases hholds
  split
  · have he₂ := (he.grow hW₁).grow hW₂
    refine (plans_call (h.inside hb he₂)).bind fun W₃ signal _ hW₃ hsignal => ?_
    cases hsignal
    cases signal with
    | returned v => exact plans_pure rfl
    | normal v => exact h.loop hc hb (he₂.grow hW₃)
  · exact plans_pure rfl

/-- A round of a loop over the same array, and the rounds after it. -/
theorem eachPlan (h : Simulates cfg k) (x : String) (hb : Node.Alike .block b b') (a i : Nat)
    (he : W.Scope e e') :
    W.Plans cfg k Same (Activity.eachPlan x b a i e) (Activity.eachPlan x b' a i e') := by
  refine (plans_act sim_store).bind fun W₁ s s' hW₁ hs => ?_
  rw [hs.elements]
  split
  · exact plans_pure rfl
  · refine (plans_act (sim_newFrame (he.grow hW₁))).bind fun W₂ y y' hW₂ hy => ?_
    refine (plans_act (sim_declare hy x _ false)).bind fun W₃ _ _ hW₃ _ => ?_
    refine (plans_call (h.block hb (hW₃.pair hy))).bind fun W₄ signal _ hW₄ hsignal => ?_
    cases hsignal
    have he₄ := (((he.grow hW₁).grow hW₂).grow hW₃).grow hW₄
    cases signal with
    | returned v => exact plans_pure rfl
    | normal v => exact h.each x a (i + 1) hb he₄

/-- A statement that follows another one by its plan does so with one more step of fuel. -/
theorem exec_of_plans
    (h : W.Plans cfg k Same (Activity.execPlan cfg n e) (Activity.execPlan cfg n' e')) :
    W.Sim Same (Ember.exec cfg (k + 1) n e) fun j => Ember.exec cfg j n' e' :=
  Plans.sim (a := .exec n e) (b := .exec n' e') h

/-- With one more unit of fuel, statements are followed. The induction is on the blocks around the
second statement: a block around the first one takes fuel. -/
theorem execAny (h : Simulates cfg k) (hn : Node.Alike .statement n n') (he : W.Scope e e')
    (hd : W.pair e e' ∨ n.declared? = none) :
    W.Sim Same (Ember.exec cfg (k + 1) n e) fun j => Ember.exec cfg j n' e' := by
  induction hsize : sizeOf n' using Nat.strong_induction_on generalizing W n' e' with
  | _ size ih =>
  cases hn with
  | @functionDef name params b b' _ hb =>
      obtain hpair := hd.resolve_right nofun
      refine exec_of_plans (Plans.entered fun W₁ hW₁ => plans_act ?_)
      have hfun : W₁.Functions ⟨some name, params, b, e⟩ ⟨some name, params, b', e'⟩ :=
        ⟨rfl, rfl, hb, he.grow hW₁⟩
      refine (sim_newFunction hfun).bind fun W₂ f _ hW₂ hf => ?_
      cases hf
      refine (sim_declare (hW₂.pair (hW₁.pair hpair)) _ f false).bind fun _ _ _ _ _ => ?_
      exact sim_pure rfl
  | letStmt hx =>
      obtain hpair := hd.resolve_right nofun
      refine exec_of_plans (Plans.entered fun W₁ hW₁ => ?_)
      refine (plans_call (h.eval hx (he.grow hW₁))).bind fun W₂ v _ hW₂ hv => ?_
      cases hv
      refine (plans_act (sim_declare (hW₂.pair (hW₁.pair hpair)) _ v _)).bind fun _ _ _ _ _ => ?_
      exact plans_pure rfl
  | assign hx =>
      refine exec_of_plans (Plans.entered fun W₁ hW₁ => ?_)
      have he₁ := he.grow hW₁
      refine (plans_call (h.eval hx he₁)).bind fun W₂ v _ hW₂ hv => ?_
      cases hv
      refine (plans_act (sim_assignable (he₁.grow hW₂) _)).bind fun W₃ g g' hW₃ hg => ?_
      exact (plans_act (sim_update hg _ v)).bind fun _ _ _ _ _ => plans_pure rfl
  | indexAssign ht hi hx =>
      refine exec_of_plans (Plans.entered fun W₁ hW₁ => ?_)
      have he₁ := he.grow hW₁
      refine (plans_call (h.eval ht he₁)).bind fun W₂ t _ hW₂ ht => ?_
      have he₂ := he₁.grow hW₂
      refine (plans_call (h.eval hi he₂)).bind fun W₃ i _ hW₃ hi => ?_
      refine (plans_call (h.eval hx (he₂.grow hW₃))).bind fun W₄ v _ hW₄ hv => ?_
      cases ht
      cases hi
      cases hv
      refine plans_act (Sim.store fun s s' hs => ?_)
      rw [resolveIndex_congr hs.arrays]
      refine (sim_ofExcept _).bind fun _ p _ _ hp => ?_
      cases hp
      exact (sim_replaceElement _ _ v).bind fun _ _ _ _ _ => sim_pure rfl
  | ifThen hc hy =>
      refine exec_of_plans (Plans.entered fun W₁ hW₁ => ?_)
      have he₁ := he.grow hW₁
      refine (plans_call (h.eval hc he₁)).bind fun W₂ v _ hW₂ hv => ?_
      cases hv
      refine (plans_act (sim_ofExcept _)).bind fun W₃ holds _ hW₃ hholds => ?_
      cases hholds
      split
      · exact h.inside hy ((he₁.grow hW₂).grow hW₃)
      · exact plans_pure rfl
  | ifElse hc hy hno =>
      refine exec_of_plans (Plans.entered fun W₁ hW₁ => ?_)
      have he₁ := he.grow hW₁
      refine (plans_call (h.eval hc he₁)).bind fun W₂ v _ hW₂ hv => ?_
      cases hv
      refine (plans_act (sim_ofExcept _)).bind fun W₃ holds _ hW₃ hholds => ?_
      cases hholds
      have he₃ := (he₁.grow hW₂).grow hW₃
      split
      · exact h.inside hy he₃
      · exact h.otherwise hno he₃
  | whileStmt hc hb =>
      exact exec_of_plans (Plans.entered fun W₁ hW₁ => h.loop hc hb (he.grow hW₁))
  | forStmt hx hb =>
      refine exec_of_plans (Plans.entered fun W₁ hW₁ => ?_)
      have he₁ := he.grow hW₁
      refine (plans_call (h.eval hx he₁)).bind fun W₂ v _ hW₂ hv => ?_
      cases hv
      cases v with
      | array a => exact h.each _ a 0 hb (he₁.grow hW₂)
      | _ => exact plans_fault _
  | bareReturn => exact exec_of_plans (Plans.entered fun _ _ => plans_pure rfl)
  | valueReturn hx =>
      refine exec_of_plans (Plans.entered fun W₁ hW₁ => ?_)
      refine (plans_call (h.eval hx (he.grow hW₁))).bind fun _ v _ _ hv => ?_
      cases hv
      exact plans_pure rfl
  | exprStmt hx =>
      refine exec_of_plans (Plans.entered fun W₁ hW₁ => ?_)
      refine (plans_call (h.eval hx (he.grow hW₁))).bind fun _ v _ _ hv => ?_
      cases hv
      exact plans_pure rfl
  | blockStmt hss =>
      exact exec_of_plans (Plans.entered fun W₁ hW₁ => h.inside (.block hss) (he.grow hW₁))
  | @wrapLeft n _ s hn hwrap =>
      refine sim_left (r := fun k => Ember.exec cfg k _ e) (Nat.le_refl _)
        (unwraps_exec hwrap.placed s e) he fun W' x hW hx => ?_
      exact h.exec hn (.left hx (he.grow hW)) (.inr hwrap.declared)
  | @wrapRight _ n' s hn hnone hwrap =>
      refine sim_right (unwraps_exec hwrap.placed s e') he fun W' x hW hx => ?_
      exact ih (sizeOf n') (by simp [← hsize]; omega) hn (.right hx (he.grow hW)) (.inr hnone) rfl

end Simulates

/-- **What runs on nodes that are alike is followed**, whatever the fuel. -/
theorem simulates (cfg : Settings) (k : Nat) : Simulates cfg k := by
  induction k with
  | zero =>
      exact ⟨fun _ _ m _ _ => .spent m, fun _ _ m _ _ => .spent m, fun _ _ m _ _ => .spent m,
        fun _ _ _ m _ _ => .spent m, fun _ _ m _ _ => .spent m, fun _ _ m _ _ => .spent m,
        fun _ _ _ m _ _ => .spent m, fun _ _ _ m _ _ => .spent m,
        fun _ _ _ _ _ m _ _ => .spent m⟩
  | succ k ih =>
      exact {
        eval := fun hn he => Plans.sim (a := .eval _ _) (b := .eval _ _) (ih.evalPlan hn he)
        evalAll := fun hns he =>
          Plans.sim (a := .evalAll _ _) (b := .evalAll _ _) (ih.evalAllPlan hns he)
        apply := fun f args =>
          Plans.sim (a := .apply f args) (b := .apply f args) (ih.applyPlan f args)
        exec := fun hn he hd => ih.execAny hn he hd
        inside := fun hb he => Plans.sim (a := .inside _ _) (b := .inside _ _)
          ((plans_act (sim_newFrame he)).bind fun _ _ _ _ hx => ih.block hb hx)
        block := fun hb he => Plans.sim (a := .block _ _) (b := .block _ _) (ih.blockPlan hb he)
        all := fun signal hns he =>
          Plans.sim (a := .all _ _ _) (b := .all _ _ _) (ih.allPlan hns signal he)
        loop := fun hc hb he =>
          Plans.sim (a := .loop _ _ _) (b := .loop _ _ _) (ih.loopPlan hc hb he)
        each := fun x a i hb he =>
          Plans.sim (a := .each _ _ _ _ _) (b := .each _ _ _ _ _) (ih.eachPlan x hb a i he) }

end World

end Ember
