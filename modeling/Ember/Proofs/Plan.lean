import Mathlib.Logic.Relation
import Ember.Proofs.Discipline
import Ember.Session

/-!
# Plan — what each function of the evaluator calls, and when

The functions of the evaluator call each other, each with less fuel. To speak about every call that
is ever made, and not only about how the outermost one ends, the body of each function is written
out as a plan: computations on the machine, with the calls in between left as data.

* `Activity`: a call of one of the functions, with its arguments.
* `Plan`: a computation with calls in it; `Activity.plan` is the body of each function.
* `Activity.run_succ`: running an activity is running its plan, and its calls with less fuel.
* `Moment.Calls`, `Moment.Leads`: an activity calls another one, at once or through others.
* `Enters`: what is called while the statements of a program run.
* `History`: the machines that programs run one after the other leave behind.
-/

namespace Ember

/-! ### Activities -/

/-- A call of a function of the evaluator. -/
inductive Activity where
  /-- An expression is evaluated in a frame. -/
  | eval (n : Node) (e : Nat)
  /-- Expressions are evaluated in a frame. -/
  | evalAll (ns : List Node) (e : Nat)
  /-- A function is applied to arguments. -/
  | apply (f : Value) (args : List Value)
  /-- A statement is executed in a frame. -/
  | exec (n : Node) (e : Nat)
  /-- A block is run in a new frame inside a frame. -/
  | inside (b : Node) (e : Nat)
  /-- A block is run in a frame. -/
  | block (b : Node) (e : Nat)
  /-- Statements are executed in a frame; the last one has ended with the signal. -/
  | all (ns : List Node) (signal : Signal) (e : Nat)
  /-- A body is run as long as a condition holds. -/
  | loop (condition body : Node) (e : Nat)
  /-- A body is run for the elements of an array from a position on. -/
  | each (var : String) (body : Node) (array position : Nat) (e : Nat)

namespace Activity

/-- What an activity gives back. -/
abbrev Result : Activity → Type
  | eval .. | apply .. => Value
  | evalAll .. => List Value
  | exec .. | inside .. | block .. | all .. | loop .. | each .. => Signal

/-- The function that an activity calls. -/
def run (cfg : Settings) (fuel : Nat) : (a : Activity) → Run a.Result
  | eval n e => Ember.eval cfg fuel n e
  | evalAll ns e => Ember.evalAll cfg fuel ns e
  | apply f args => applyFunction cfg fuel f args
  | exec n e => Ember.exec cfg fuel n e
  | inside b e => execInside cfg fuel b e
  | block b e => execBlock cfg fuel b e
  | all ns signal e => execAll cfg fuel ns signal e
  | loop c b e => whileLoop cfg fuel c b e
  | each x b a i e => forLoop cfg fuel x b a i e

end Activity

/-! ### Plans -/

/-- A computation in which activities are called. -/
inductive Plan : Type → Type 1 where
  | act {α : Type} (r : Run α) : Plan α
  | call (a : Activity) : Plan a.Result
  | bind {α β : Type} (p : Plan α) (f : α → Plan β) : Plan β
  | locate {α : Type} (span : Option Span) (p : Plan α) : Plan α
  | inCall {α : Type} (name : String) (p : Plan α) : Plan α

namespace Plan

instance : Monad Plan where
  pure a := act (pure a)
  bind := bind

/-- Runs a plan, if it is known how activities run. -/
def run (call : (a : Activity) → Run a.Result) {α : Type} : Plan α → Run α
  | act r => r
  | .call a => call a
  | bind p f => p.run call >>= fun a => (f a).run call
  | locate span p => Run.locate span (p.run call)
  | inCall name p => Run.inCall name (p.run call)

/-- The plan, with a line in the trace before it and a place for its faults. -/
def entered {α : Type} (cfg : Settings) (line : String) (span : Option Span) (p : Plan α) :
    Plan α := do
  act (Run.traceLine cfg fun _ => line)
  locate span p

end Plan

namespace Activity

open Plan (act call)

/-- The body of `eval`. -/
def evalPlan (cfg : Settings) (n : Node) (e : Nat) : Plan Value :=
  let enter := Plan.entered cfg ("Evaluating: " ++ n.type) n.span
  match n with
  | .literal d _ _ => enter <| act <|
    match Value.ofDatum d with
    | .int i => do
      let i ← Run.ofExcept (confine i "integer literal")
      return .int i
    | v => return v
  | .identifier name _ => enter <| act do
    Run.ofExcept ((← Run.store).lookup e name)
  | .array elements _ => enter do
    let vs ← call (.evalAll elements e)
    act (Run.newArray (List.toArray vs))
  | .binary op left right _ => enter <|
    match binaryOperator? op with
    | none => act (Run.fault (.unknownOperator op))
    | some f => do
      let x ← call (.eval left e)
      let y ← call (.eval right e)
      act do Run.ofExcept (f (← Run.store) x y)
  | .logical op left right _ => enter <|
    match decisive? op with
    | none => act (Run.fault (.unknownLogical op))
    | some decisive => do
      let x ← call (.eval left e)
      let b ← act <| Run.ofExcept (Value.decision ("Left operand of '" ++ op ++ "'") x)
      if b = decisive then return x
      else
        let y ← call (.eval right e)
        let _ ← act <| Run.ofExcept (Value.decision ("Right operand of '" ++ op ++ "'") y)
        return y
  | .unary op operand _ => enter <|
    match unaryOperator? op with
    | none => act (Run.fault (.unknownUnary op))
    | some f => do
      let x ← call (.eval operand e)
      act (Run.ofExcept (f x))
  | .index target index _ => enter do
    let t ← call (.eval target e)
    let i ← call (.eval index e)
    act do
      let (a, n) ← Run.ofExcept (resolveIndex (← Run.store) t i)
      Run.element a n
  | .functionExpr _ params body _ => enter <| act (Run.newFunction ⟨none, params, body, e⟩)
  | .call callee args _ => enter do
    let f ← call (.eval callee e)
    match (f : Value) with
    | .function _ | .builtin .. => do
      let vs ← call (.evalAll args e)
      call (.apply f vs)
    | v => act (Run.fault (.notCallable v.kindName))
  | .partialExpr type field span => enter <| act (throw (.fault (.missingField type field) span))
  | .stray d => act (Run.fault (.notExpressionNode d.quoted))
  | .absent owner field span => act (throw (.fault (.missingField owner field) span))
  | n => act (throw (.fault (.notExpression n.type) n.span))

/-- The body of `evalAll`. -/
def evalAllPlan (ns : List Node) (e : Nat) : Plan (List Value) :=
  match ns with
  | [] => return []
  | n :: ns => do
    let v ← call (.eval n e)
    let vs ← call (.evalAll ns e)
    return v :: vs

/-- The body of `applyFunction`. -/
def applyPlan (cfg : Settings) (f : Value) (args : List Value) : Plan Value :=
  match f with
  | .builtin b _ => act do
    if let some n := b.arity? then
      if args.length ≠ n then Run.fault (.arity b.name n args.length)
    b.apply args cfg.host.displayLimit
  | .function address => do
    let c ← act (Run.closure address)
    let m ← act get
    let name := m.store.closureName address "anonymous function"
    act do if args.length ≠ c.params.length then
      Run.fault (.arity name c.params.length args.length)
    act do if cfg.maxDepth ≤ m.depth then Run.fault (.callDepth cfg.maxDepth name)
    let frame ← act (Run.newFrame c.frame)
    act (bindParameters frame c.params args)
    act (traceCall cfg name args)
    let signal ← Plan.inCall name (call (.block c.body frame))
    return Signal.result signal
  | v => act (Run.fault (.notCallable v.kindName))

/-- The body of `exec`. -/
def execPlan (cfg : Settings) (n : Node) (e : Nat) : Plan Signal :=
  let enter := Plan.entered cfg ("Executing: " ++ n.type) n.span
  match n with
  | .exprStmt expr _ => enter do
    let v ← call (.eval expr e)
    return .normal (some v)
  | .letStmt name mutable init _ => enter do
    let v ← call (.eval init e)
    act (Run.modifyStore (·.declare e name v mutable))
    return .normal none
  | .assign name value _ => enter do
    let v ← call (.eval value e)
    let g ← act do Run.ofExcept ((← Run.store).assignable e name)
    act (Run.modifyStore (·.update g name v))
    return .normal none
  | .indexAssign target index value _ => enter do
    let t ← call (.eval target e)
    let i ← call (.eval index e)
    let v ← call (.eval value e)
    act do
      let (a, n) ← Run.ofExcept (resolveIndex (← Run.store) t i)
      Run.replaceElement a n v
      return .normal none
  | .functionDef name params body _ => enter <| act do
    let f ← Run.newFunction ⟨some name, params, body, e⟩
    Run.modifyStore (·.declare e name f false)
    return .normal none
  | .ifStmt condition yes no _ => enter do
    let c ← call (.eval condition e)
    if ← act <| Run.ofExcept (Value.decision "Condition of 'if'" c) then
      call (.inside yes e)
    else match no with
      | none => return .normal none
      | some (.ifStmt c y n s) => call (.exec (.ifStmt c y n s) e)
      | some other => call (.inside other e)
  | .whileStmt condition body _ => enter (call (.loop condition body e))
  | .forStmt var iterable body _ => enter do
    let collection ← call (.eval iterable e)
    match (collection : Value) with
    | .array a => call (.each var body a 0 e)
    | v => act (Run.fault (.notIterable v.kindName))
  | .returnStmt none _ => enter (return .returned .unit)
  | .returnStmt (some value) _ => enter do
    let v ← call (.eval value e)
    return .returned v
  | .block statements span => enter (call (.inside (.block statements span) e))
  | .partialStmt type field first span => enter do
    let _ ← call (.evalAll first e)
    act (throw (.fault (.missingField type field) span))
  | .stray d => act (Run.fault (.notStatementNode d.quoted))
  | .absent owner field span => act (throw (.fault (.missingField owner field) span))
  | n => act (throw (.fault (.notStatement n.type) n.span))

/-- The body of `execBlock`. -/
def blockPlan (b : Node) (e : Nat) : Plan Signal :=
  match b with
  | .block statements _ => call (.all statements (.normal none) e)
  | .absent owner field span => act (throw (.fault (.missingField owner field) span))
  | .stray _ => act (Run.fault (.notBlock Datum.null.quoted))
  | b => act (throw (.fault (.notBlock b.type) b.span))

/-- The body of `execAll`. -/
def allPlan (ns : List Node) (signal : Signal) (e : Nat) : Plan Signal :=
  match ns with
  | [] => return signal
  | n :: ns => do
    match (← call (.exec n e) : Signal) with
    | .returned v => return .returned v
    | signal => call (.all ns signal e)

/-- The body of `whileLoop`. -/
def loopPlan (condition body : Node) (e : Nat) : Plan Signal := do
  let c ← call (.eval condition e)
  if ← act <| Run.ofExcept (Value.decision "Condition of 'while'" c) then
    match (← call (.inside body e) : Signal) with
    | .returned v => return .returned v
    | .normal _ => call (.loop condition body e)
  else return .normal none

/-- The body of `forLoop`. -/
def eachPlan (var : String) (body : Node) (a position e : Nat) : Plan Signal := do
  match ((← act Run.store).elements a)[position]? with
  | none => return .normal none
  | some v => do
    let frame ← act (Run.newFrame e)
    act (Run.modifyStore (·.declare frame var v false))
    match (← call (.block body frame) : Signal) with
    | .returned v => return .returned v
    | .normal _ => call (.each var body a (position + 1) e)

/-- The body of the function that an activity calls. -/
def plan (cfg : Settings) : (a : Activity) → Plan a.Result
  | eval n e => evalPlan cfg n e
  | evalAll ns e => evalAllPlan ns e
  | apply f args => applyPlan cfg f args
  | exec n e => execPlan cfg n e
  | inside b e => do
    let frame ← act (Run.newFrame e)
    call (.block b frame)
  | block b e => blockPlan b e
  | all ns signal e => allPlan ns signal e
  | loop c b e => loopPlan c b e
  | each x b a i e => eachPlan x b a i e

variable {cfg : Settings} {fuel : Nat}

/-- What comes after may be replaced by its equal. -/
theorem bind_congr_right {α β : Type} {r : Run α} {f g : α → Run β} (h : ∀ a, f a = g a) :
    (r >>= f) = (r >>= g) := by rw [funext h]

/-- A check before the rest. -/
theorem check_bind {α : Type} {p : Prop} [Decidable p] (f : Fault) (k : Unit → Run α) :
    (if p then Run.fault f >>= k else k ()) = ((if p then Run.fault f else pure ()) >>= k) := by
  split <;> rfl

/-- So may what is done within a node. -/
theorem enter_congr {α : Type} {r r' : Run α} {line : Machine → String} {span : Option Span}
    (h : r = r') :
    (do Run.traceLine cfg line; Run.locate span r) = (do Run.traceLine cfg line; Run.locate span r')
    := by rw [h]

/-- An expression runs by its plan. -/
theorem eval_succ (n : Node) (e : Nat) :
    Ember.eval cfg (fuel + 1) n e = (evalPlan cfg n e).run fun a => a.run cfg fuel := by
  cases n with
  | binary op l r s =>
      simp only [Ember.eval, evalPlan]
      cases binaryOperator? op <;> rfl
  | logical op l r s =>
      simp only [Ember.eval, evalPlan]
      cases decisive? op with
      | none => rfl
      | some decisive =>
          refine enter_congr (bind_congr_right fun x => bind_congr_right fun b => ?_)
          by_cases hb : b = decisive
          · simp only [hb, if_true]; rfl
          · simp only [hb, if_false]; rfl
  | unary op l s =>
      simp only [Ember.eval, evalPlan]
      cases unaryOperator? op <;> rfl
  | call f args s =>
      refine enter_congr (bind_congr_right fun f => ?_)
      cases f <;> rfl
  | _ => rfl

/-- A call runs by its plan. -/
theorem apply_succ (f : Value) (args : List Value) :
    applyFunction cfg (fuel + 1) f args = (applyPlan cfg f args).run fun a => a.run cfg fuel := by
  cases f with
  | function address =>
      refine bind_congr_right fun c => bind_congr_right fun m => ?_
      refine (check_bind _ _).trans (bind_congr_right fun _ => ?_)
      exact check_bind _ _
  | _ => rfl

/-- A statement runs by its plan. -/
theorem exec_succ (n : Node) (e : Nat) :
    Ember.exec cfg (fuel + 1) n e = (execPlan cfg n e).run fun a => a.run cfg fuel := by
  cases n with
  | ifStmt c y no s =>
      refine enter_congr (bind_congr_right fun c => bind_congr_right fun b => ?_)
      cases b with
      | true => rfl
      | false =>
          cases no with
          | none => rfl
          | some n => cases n <;> rfl
  | forStmt x c b s =>
      refine enter_congr (bind_congr_right fun v => ?_)
      cases v <;> rfl
  | returnStmt v s => cases v <;> rfl
  | _ => rfl

/-- **Running an activity is running its plan**, in which activities run with less fuel. -/
theorem run_succ (cfg : Settings) (fuel : Nat) (a : Activity) :
    a.run cfg (fuel + 1) = (a.plan cfg).run fun b => b.run cfg fuel := by
  cases a with
  | eval n e => exact eval_succ n e
  | evalAll ns e => cases ns <;> rfl
  | apply f args => exact apply_succ f args
  | exec n e => exact exec_succ n e
  | inside b e => rfl
  | block b e => cases b <;> rfl
  | all ns signal e =>
      cases ns with
      | nil => rfl
      | cons n ns =>
          refine bind_congr_right fun signal => ?_
          cases signal <;> rfl
  | loop c b e =>
      refine bind_congr_right fun v => bind_congr_right fun b => ?_
      cases b with
      | false => rfl
      | true =>
          refine bind_congr_right fun signal => ?_
          cases signal <;> rfl
  | each x b a i e =>
      refine bind_congr_right fun s => ?_
      dsimp only
      cases (s.elements a)[i]? with
      | none => rfl
      | some v =>
          refine bind_congr_right fun frame => bind_congr_right fun _ => ?_
          refine bind_congr_right fun signal => ?_
          cases signal <;> rfl

end Activity

/-! ### Calls -/

/-- The activity `b` is called in the machine `m'` while the plan runs in the machine `m`. -/
def Plan.Calls (call : (a : Activity) → Run a.Result) {α : Type} :
    Plan α → Machine → Activity → Machine → Prop
  | act _, _, _, _ => False
  | .call a, m, b, m' => b = a ∧ m' = m
  | bind p f, m, b, m' => p.Calls call m b m' ∨
    ∃ x m₁, (p.run call).run.run m = (.ok x, m₁) ∧ (f x).Calls call m₁ b m'
  | locate _ p, m, b, m' => p.Calls call m b m'
  | inCall _ p, m, b, m' => p.Calls call { m with depth := m.depth + 1 } b m'

section

variable {α β : Type} {call : (a : Activity) → Run a.Result} {m m' : Machine} {a b : Activity}

@[simp] theorem Plan.calls_act (r : Run α) : ¬ (act r).Calls call m b m' := id

@[simp] theorem Plan.calls_pure (x : α) : ¬ (pure x : Plan α).Calls call m b m' := id

@[simp] theorem Plan.calls_call : (Plan.call a).Calls call m b m' ↔ b = a ∧ m' = m := .rfl

@[simp] theorem Plan.calls_bind (p : Plan α) (f : α → Plan β) :
    (p >>= f).Calls call m b m' ↔ p.Calls call m b m' ∨
      ∃ x m₁, (p.run call).run.run m = (.ok x, m₁) ∧ (f x).Calls call m₁ b m' := .rfl

@[simp] theorem Plan.calls_locate (span : Option Span) (p : Plan α) :
    (locate span p).Calls call m b m' ↔ p.Calls call m b m' := .rfl

end

/-- An activity that starts in a machine, with the fuel that it has. -/
structure Moment where
  fuel : Nat
  activity : Activity
  machine : Machine

namespace Moment

/-- The activity of the first moment calls that of the second one. -/
structure Calls (cfg : Settings) (x y : Moment) : Prop where
  fuel : x.fuel = y.fuel + 1
  call : (x.activity.plan cfg).Calls (fun a => a.run cfg y.fuel) x.machine y.activity y.machine

/-- The activity of the first moment calls that of the second one, at once or through others, or is
the same. -/
def Leads (cfg : Settings) : Moment → Moment → Prop := Relation.ReflTransGen (Calls cfg)

end Moment

/-- The moment comes while the statements of a program run. -/
def Enters (cfg : Settings) (fuel : Nat) : List Node → Machine → Moment → Prop
  | [], _, _ => False
  | n :: ns, m, x => Moment.Leads cfg ⟨fuel, .exec n Store.root, m⟩ x ∨
    ∃ v m', (exec cfg fuel n Store.root).run.run m = (.ok (.normal v), m') ∧
      Enters cfg fuel ns m' x

/-- The machine as the next program of a session finds it: nothing printed, nothing traced. -/
def Machine.cleared (m : Machine) : Machine := { m with output := "", trace := "" }

/-- The machines that programs leave behind which run one after the other, from a fresh machine on,
each with some fuel, whether they end well or not. All that was entered satisfies `A`; the nodes are
those of all programs. -/
inductive History (cfg : Settings) (A : Moment → Prop) : List Node → Machine → Prop where
  | fresh : History cfg A [] .fresh
  | program {ns ps : List Node} {m : Machine} (fuel : Nat) (h : History cfg A ps m)
      (hA : ∀ x, Enters cfg fuel ns m.cleared x → A x) :
      History cfg A (ps ++ ns) ((runProgram cfg fuel ns).run.run m.cleared).2

/-- Each program of a session adds to its history. -/
theorem History.runNodes {A : Moment → Prop} {s : Session} {ps ns : List Node}
    (h : History s.settings A ps s.machine)
    (hA : ∀ x, Enters s.settings ampleFuel ns s.machine.cleared x → A x) :
    History s.settings A (ps ++ ns) (s.runNodes ns).2.machine :=
  .program ampleFuel h hA

end Ember
