import Ember.Proofs.Plan

/-!
# Plan — what plans are made of

The plans of the evaluator are made of few single operations on the machine. A property that these
have, and that goes on from parts to the whole, is one of everything that a plan does itself. This
is said here once, so that facts of this sort need no look at the plans.

* `Run.Basic`: a property of single operations, and of what is composed of them.
* `Plan.Built`: a plan that is made of computations with a property.
* `Activity.Entering`, `Activity.plan_shape`: the shape of every plan. That of a node first leaves a
  line in the trace and then gives its place to all that follows, unless the node makes no sense.
* `Activity.Uniform`: the settings decide no more than whether that line is left.
-/

namespace Ember

/-! ### Single operations -/

/-- A property of the single operations on the machine that passes on to what is composed of them. A
fault comes without a place, unless it is that of a node put together wrongly. -/
structure Run.Basic (P : ∀ α : Type, Run α → Prop) : Prop where
  pure : ∀ {α : Type} (a : α), P α (pure a)
  fault : ∀ {α : Type} (f : Fault), P α (Run.fault f)
  structural : ∀ {α : Type} {f : Fault} (span : Option Span), f.kind = .structural →
    P α (throw (.fault f span))
  tooDeep : ∀ {α : Type}, P α (throw .displayTooDeep)
  store : P Store Run.store
  modifyStore : ∀ g, P Unit (Run.modifyStore g)
  print : ∀ text, P Unit (Run.print text)
  traceLine : ∀ cfg line, P Unit (Run.traceLine cfg line)
  allocate : ∀ add, P Nat (Run.allocate add)
  bind : ∀ {α β : Type} {r : Run α} {f : α → Run β}, P α r → (∀ a, P β (f a)) → P β (r >>= f)

/-- A line in the trace changes nothing else. -/
theorem Run.run_traceLine (cfg : Settings) (line : Machine → String) (m : Machine) :
    ∃ t, (Run.traceLine cfg line).run.run m = (.ok (), { m with trace := t }) := by
  unfold Run.traceLine
  split
  · exact ⟨_, rfl⟩
  · exact ⟨m.trace, rfl⟩

namespace Run.Basic

variable {P : ∀ α : Type, Run α → Prop} {α β : Type}

/-- An operation that does not touch the machine is a result or a fault. -/
theorem ofExcept (hP : Basic P) (x : Except Fault α) : P α (Run.ofExcept x) := by
  cases x with
  | ok a => exact hP.pure a
  | error f => exact hP.fault f

/-- A value is shown, or something is thrown. -/
theorem ofShow (hP : Basic P) (x : Except Store.ShowFault String) : P String (Run.ofShow x) := by
  rcases x with (kind | _) | t
  · exact hP.fault _
  · exact hP.tooDeep
  · exact hP.pure t

theorem newFrame (hP : Basic P) (e : Nat) : P Nat (Run.newFrame e) := hP.allocate _

/-- An array is added to the store. -/
theorem newArray (hP : Basic P) (vs : Array Value) : P Value (Run.newArray vs) :=
  hP.bind (hP.allocate _) fun _ => hP.pure _

/-- A function is added to the store. -/
theorem newFunction (hP : Basic P) (c : Closure) : P Value (Run.newFunction c) :=
  hP.bind (hP.allocate _) fun _ => hP.pure _

/-- A function is looked up. -/
theorem closure (hP : Basic P) (address : Nat) : P Closure (Run.closure address) := by
  refine hP.bind hP.store fun s => ?_
  cases s.closure? address with
  | some c => exact hP.pure c
  | none => exact hP.fault _

/-- An element is looked up. -/
theorem element (hP : Basic P) (a i : Nat) : P Value (Run.element a i) := by
  refine hP.bind hP.store fun s => ?_
  cases (s.elements a)[i]? with
  | some v => exact hP.pure v
  | none => exact hP.fault _

/-- An element is looked up and replaced. -/
theorem replaceElement (hP : Basic P) (a i : Nat) (v : Value) :
    P Unit (Run.replaceElement a i v) :=
  hP.bind (hP.element a i) fun _ => hP.modifyStore _

/-- A check that ends in a fault if it fails. -/
theorem check (hP : Basic P) {p : Prop} [Decidable p] (f : Fault) :
    P Unit (if p then Run.fault f else Pure.pure ()) := by
  split
  · exact hP.fault f
  · exact hP.pure ()

/-- The same is done for each of several values. -/
theorem mapM (hP : Basic P) {f : α → Run β} (hf : ∀ a, P β (f a)) (xs : List α) :
    P (List β) (xs.mapM f) := by
  induction xs with
  | nil => exact hP.pure _
  | cons x xs ih =>
      rw [List.mapM_cons]
      exact hP.bind (hf x) fun _ => hP.bind ih fun _ => hP.pure _

/-- A builtin looks at the store, changes it, or prints. -/
theorem perform (hP : Basic P) (b : Builtin) (limit : Nat) (args : List Value) :
    P Value (b.perform limit args) := by
  unfold Builtin.perform
  split
  · refine hP.bind hP.store fun s => hP.bind (hP.mapM (fun v => hP.ofShow _) _) fun parts => ?_
    exact hP.bind (hP.print _) fun _ => hP.pure _
  · exact hP.bind hP.store fun s => hP.pure _
  · exact hP.pure _
  · exact hP.fault _
  · exact hP.bind (hP.modifyStore _) fun _ => hP.pure _
  · refine hP.bind hP.store fun s => ?_
    split
    · exact hP.fault _
    · exact hP.bind (hP.modifyStore _) fun _ => hP.pure _
  · exact hP.bind hP.store fun s => hP.bind (hP.ofShow _) fun _ => hP.pure _
  · exact hP.pure _
  · exact hP.newArray _
  · exact hP.fault _

/-- The arguments of a call are shown, and a line is traced. -/
theorem traceCall (hP : Basic P) (cfg : Settings) (name : String) (args : List Value) :
    P Unit (traceCall cfg name args) := by
  unfold Ember.traceCall
  split
  · refine hP.bind ?_ fun line => hP.traceLine cfg _
    refine hP.bind hP.store fun s => hP.bind (hP.mapM (fun v => hP.ofShow _) _) fun shown => ?_
    exact hP.pure _
  · exact hP.pure ()

/-- A builtin does its work after a check of its arguments. -/
theorem builtin (hP : Basic P) (b : Builtin) (args : List Value) (limit : Nat) :
    P Value (b.apply args limit) := by
  unfold Builtin.apply
  split
  · exact hP.bind (hP.ofExcept _) fun _ => hP.perform b limit args
  · exact hP.perform b limit args

/-- The parameters are bound one after the other. -/
theorem bindParameters (hP : Basic P) (e : Nat) (params : List String) (args : List Value) :
    P Unit (bindParameters e params args) := by
  unfold Ember.bindParameters
  generalize params.zip args = ps
  induction ps with
  | nil => exact hP.pure ()
  | cons p ps ih => exact hP.bind (hP.modifyStore _) fun _ => ih

end Run.Basic

/-! ### Plans -/

namespace Plan

variable {P : ∀ α : Type, Run α → Prop} {α β : Type} {k : Nat}

/-- What the plan does itself has the property `P`, and it calls activities inside `k` more calls.
It gives no places to faults. -/
def Built (P : ∀ α : Type, Run α → Prop) (k : Nat) {α : Type} : Plan α → Prop
  | act r => P _ r
  | call _ => k = 0
  | bind p f => p.Built P k ∧ ∀ a, (f a).Built P k
  | locate _ _ => False
  | inCall _ p => ∃ j, k = j + 1 ∧ p.Built P j

/-- Two plans one after the other. -/
theorem Built.bind {p : Plan α} {f : α → Plan β} (h : p.Built P k) (hf : ∀ a, (f a).Built P k) :
    (p >>= f).Built P k := ⟨h, hf⟩

theorem built_act {r : Run α} (h : P α r) : (act r).Built P k := h

theorem built_pure (hP : Run.Basic P) (a : α) : (pure a : Plan α).Built P k := hP.pure a

theorem built_call (a : Activity) : (call a).Built P 0 := rfl

end Plan

namespace Activity

open Plan (act Built built_act built_pure built_call)

variable {P : ∀ α : Type, Run α → Prop} {cfg : Settings} {α : Type}

/-- The plan of a node that is evaluated or executed: a line in the trace, and then a part that has
the place of the node; or a fault at that place, if there is no such plan. -/
inductive Entering (P : ∀ α : Type, Run α → Prop) (cfg : Settings) (n : Node) : Plan α → Prop where
  | entered {body : Plan α} (line : String) (h : body.Built P 0) :
      Entering P cfg n (body.entered cfg line n.span)
  | senseless {f : Fault} (h : f.kind = .structural) :
      Entering P cfg n (act (throw (.fault f n.span)))

/-- The plans of a node under all settings, which say no more than whether a line is left in the
trace. -/
inductive Uniform (P : ∀ α : Type, Run α → Prop) (n : Node) : (Settings → Plan α) → Prop where
  | entered {body : Plan α} (line : String) (h : body.Built P 0) :
      Uniform P n fun cfg => body.entered cfg line n.span
  | senseless {f : Fault} (h : f.kind = .structural) :
      Uniform P n fun _ => act (throw (.fault f n.span))

/-- What is entered in the same way under all settings is entered under one. -/
theorem Uniform.entering {n : Node} {p : Settings → Plan α} (h : Uniform P n p) (cfg : Settings) :
    Entering P cfg n (p cfg) := by
  cases h with
  | entered line h => exact .entered line h
  | senseless h => exact .senseless h

/-- An expression is entered in the same way under all settings. -/
theorem evalPlan_uniform (hP : Run.Basic P) (n : Node) (e : Nat) :
    Uniform P n fun cfg => evalPlan cfg n e := by
  cases n with
  | literal d k span =>
      refine .entered _ (built_act ?_)
      cases Value.ofDatum d with
      | int i => exact hP.bind (hP.ofExcept _) fun _ => hP.pure _
      | _ => exact hP.pure _
  | identifier name span =>
      exact .entered _ (built_act (hP.bind hP.store fun s => hP.ofExcept _))
  | array es span =>
      exact .entered _ ((built_call _).bind fun vs => built_act (hP.newArray _))
  | binary op l r span =>
      refine .entered _ ?_
      cases binaryOperator? op with
      | none => exact built_act (hP.fault _)
      | some f =>
          refine (built_call _).bind fun x => (built_call _).bind fun y => built_act ?_
          exact hP.bind hP.store fun s => hP.ofExcept _
  | logical op l r span =>
      refine .entered _ ?_
      cases decisive? op with
      | none => exact built_act (hP.fault _)
      | some d =>
          refine (built_call _).bind fun x => (built_act (hP.ofExcept _)).bind fun b => ?_
          split
          · exact built_pure hP x
          · refine (built_call _).bind fun y => (built_act (hP.ofExcept _)).bind fun _ => ?_
            exact built_pure hP y
  | unary op operand span =>
      refine .entered _ ?_
      cases unaryOperator? op with
      | none => exact built_act (hP.fault _)
      | some f => exact (built_call _).bind fun x => built_act (hP.ofExcept _)
  | index target i span =>
      refine .entered _ ((built_call _).bind fun t => (built_call _).bind fun v => built_act ?_)
      refine hP.bind hP.store fun s => hP.bind (hP.ofExcept _) fun p => ?_
      exact hP.element p.1 p.2
  | functionExpr name params body span => exact .entered _ (built_act (hP.newFunction _))
  | call callee args span =>
      refine .entered _ ((built_call _).bind fun f => ?_)
      cases f with
      | function _ | builtin _ _ => exact (built_call _).bind fun vs => built_call _
      | _ => exact built_act (hP.fault _)
  | partialExpr type field span => exact .entered _ (built_act (hP.structural span rfl))
  | _ => exact .senseless rfl

/-- So is a statement. -/
theorem execPlan_uniform (hP : Run.Basic P) (n : Node) (e : Nat) :
    Uniform P n fun cfg => execPlan cfg n e := by
  cases n with
  | exprStmt expr span => exact .entered _ ((built_call _).bind fun v => built_pure hP _)
  | letStmt name mutable init span =>
      refine .entered _ ((built_call _).bind fun v => ?_)
      exact (built_act (hP.modifyStore _)).bind fun _ => built_pure hP _
  | assign name value span =>
      refine .entered _ ((built_call _).bind fun v => ?_)
      refine (built_act (hP.bind hP.store fun s => hP.ofExcept _)).bind fun g => ?_
      exact (built_act (hP.modifyStore _)).bind fun _ => built_pure hP _
  | indexAssign target index value span =>
      refine .entered _ ((built_call _).bind fun t => (built_call _).bind fun i => ?_)
      refine (built_call _).bind fun v => built_act ?_
      refine hP.bind hP.store fun s => hP.bind (hP.ofExcept _) fun p => ?_
      exact hP.bind (hP.replaceElement _ _ v) fun _ => hP.pure _
  | functionDef name params body span =>
      refine .entered _ (built_act (hP.bind (hP.newFunction _) fun f => ?_))
      exact hP.bind (hP.modifyStore _) fun _ => hP.pure _
  | ifStmt condition yes no span =>
      refine .entered _ ((built_call _).bind fun c => (built_act (hP.ofExcept _)).bind fun b => ?_)
      split
      · exact built_call _
      · split
        · exact built_pure hP _
        · exact built_call _
        · exact built_call _
  | whileStmt condition body span => exact .entered _ (built_call _)
  | forStmt var iterable body span =>
      refine .entered _ ((built_call _).bind fun v => ?_)
      cases v with
      | array a => exact built_call _
      | _ => exact built_act (hP.fault _)
  | returnStmt value span =>
      cases value with
      | none => exact .entered _ (built_pure hP _)
      | some value => exact .entered _ ((built_call _).bind fun v => built_pure hP _)
  | block ss span => exact .entered _ (built_call _)
  | partialStmt type field first span =>
      exact .entered _ ((built_call _).bind fun _ => built_act (hP.structural span rfl))
  | _ => exact .senseless rfl

/-- The user functions that an activity puts in progress: the one that it applies, if it does. -/
def userCalls : Activity → Nat
  | apply (.function _) _ => 1
  | _ => 0

/-- Only the application of a user function looks at the machine as a whole. -/
theorem applyPlan_built (hP : Run.Basic P) {f : Value} {args : List Value}
    (hget : userCalls (.apply f args) ≠ 0 → P Machine get) :
    (applyPlan cfg f args).Built P (userCalls (.apply f args)) := by
  cases f with
  | builtin b tag =>
      refine built_act ?_
      dsimp only
      split
      · split
        · exact hP.bind (hP.fault _) fun _ => hP.builtin b args _
        · exact hP.builtin b args _
      · exact hP.builtin b args _
  | function address =>
      refine (built_act (hP.closure address)).bind fun c => ?_
      refine (built_act (hget Nat.one_ne_zero)).bind fun m => ?_
      refine (built_act (hP.check _)).bind fun _ => (built_act (hP.check _)).bind fun _ => ?_
      refine (built_act (hP.newFrame _)).bind fun frame => ?_
      refine (built_act (hP.bindParameters frame c.params args)).bind fun _ => ?_
      refine (built_act (hP.traceCall cfg _ args)).bind fun _ => ?_
      -- the body is the only call, and it is one level further in
      exact Built.bind ⟨0, rfl, built_call _⟩ fun signal => built_pure hP _
  | _ => exact built_act (hP.fault _)

/-- The node that an activity evaluates or executes. -/
def node? : Activity → Option Node
  | eval n _ | exec n _ => some n
  | _ => none

/-- The shape of a plan: that of a node if the activity is about one, and otherwise one without
places. -/
def Shaped (P : ∀ α : Type, Run α → Prop) (cfg : Settings) (a : Activity) : Prop :=
  match a.node? with
  | some n => Entering P cfg n (a.plan cfg)
  | none => (a.plan cfg).Built P a.userCalls

/-- **The shape of every plan.** -/
theorem plan_shape (hP : Run.Basic P) (cfg : Settings) (a : Activity)
    (hget : a.userCalls ≠ 0 → P Machine get) : a.Shaped P cfg := by
  cases a with
  | eval n e => exact (evalPlan_uniform hP n e).entering cfg
  | evalAll ns e =>
      cases ns with
      | nil => exact built_pure hP _
      | cons n ns =>
          exact (built_call _).bind fun v => (built_call _).bind fun vs => built_pure hP _
  | apply f args => exact applyPlan_built hP hget
  | exec n e => exact (execPlan_uniform hP n e).entering cfg
  | inside b e => exact (built_act (hP.newFrame e)).bind fun frame => built_call _
  | block b e =>
      cases b with
      | block ss span => exact built_call _
      | _ => exact built_act (hP.structural _ rfl)
  | all ns signal e =>
      cases ns with
      | nil => exact built_pure hP _
      | cons n ns =>
          refine (built_call _).bind fun signal => ?_
          cases signal with
          | returned v => exact built_pure hP _
          | normal v => exact built_call _
  | loop c b e =>
      refine (built_call _).bind fun v => (built_act (hP.ofExcept _)).bind fun b => ?_
      split
      · refine (built_call _).bind fun signal => ?_
        cases signal with
        | returned v => exact built_pure hP _
        | normal v => exact built_call _
      · exact built_pure hP _
  | each x b a i e =>
      refine (built_act hP.store).bind fun s => ?_
      split
      · exact built_pure hP _
      · refine (built_act (hP.newFrame e)).bind fun frame => ?_
        refine (built_act (hP.modifyStore _)).bind fun _ => (built_call _).bind fun signal => ?_
        cases signal with
        | returned v => exact built_pure hP _
        | normal v => exact built_call _

end Activity

end Ember
