import Ember.Host
import Ember.Store.Display
import Ember.Store.Equality

/-!
# Eval — running programs

Expressions evaluate to values; statements end normally or with a return, which passes through
blocks, branches and loops up to the call it belongs to. Running a program changes a store, prints,
and, if asked to, leaves a trace.

Every step spends fuel, so a run that does not end is one that runs out of any amount of it. Running
out of fuel is kept apart from the faults of a program.

* `eval`, `exec`, `applyFunction`: an expression, a statement, a call.
* `runProgram`: statements from the top of a program.

A fault that does not know its place takes that of the innermost node around it (`locate`).
-/

namespace Ember

/-! ### The machine -/

/-- What a run can be told. -/
structure Settings where
  /-- The most user functions in progress at once. -/
  maxDepth : Nat
  /-- Every step leaves a line in the trace. -/
  debug : Bool
  /-- What the run runs on. -/
  [host : Host]
deriving DecidableEq, Repr, Inhabited

/-- The usual limit on calls in progress. -/
def defaultMaxDepth : Nat := 1000

/-- The state of a run. -/
structure Machine where
  store : Store
  /-- What the program has printed. -/
  output : String
  /-- What the trace holds. -/
  trace : String
  /-- The number of user functions in progress. -/
  depth : Nat
deriving Inhabited

/-- A machine at rest, with the built-in functions and nothing else. -/
def Machine.fresh : Machine := ⟨.fresh, "", "", 0⟩

/-- How a run can end early. -/
inductive Halt where
  /-- A fault, at a place if that is known. -/
  | fault (f : Fault) (span : Option Span)
  /-- Something nested too deeply for the stack of the host is shown, or is about to be run. -/
  | displayTooDeep
  /-- The fuel is spent. -/
  | outOfFuel
deriving DecidableEq, Repr, Inhabited

/-- How a run ends that cannot show a value. -/
def Store.ShowFault.halt : Store.ShowFault → Halt
  | .noHandler kind => .fault (.noHandler kind) none
  | .tooDeep => .displayTooDeep

/-- A computation on the machine; what it did before it ended early stays done. -/
abbrev Run := ExceptT Halt (StateM Machine)

/-- How a statement ends. -/
inductive Signal where
  /-- Normally, with the value of an expression statement. -/
  | normal (value : Option Value)
  /-- With a return. -/
  | returned (value : Value)
deriving Inhabited

namespace Run

/-- Ends with a fault whose place is not known yet. -/
def fault {α : Type} (f : Fault) : Run α := throw (.fault f none)

/-- The result of an operation that may be faulty. -/
def ofExcept {α : Type} : Except Fault α → Run α
  | .ok a => pure a
  | .error f => fault f

/-- The text of a value that is shown. -/
def ofShow : Except Store.ShowFault String → Run String
  | .ok t => pure t
  | .error e => throw e.halt

/-- The store. -/
def store : Run Store := do return (← get).store

/-- Changes the store. -/
def modifyStore (f : Store → Store) : Run Unit :=
  modify fun m => { m with store := f m.store }

/-- Adds something to the store, which gives it an address. -/
def allocate (add : Store → Store × Nat) : Run Nat :=
  modifyGet fun ⟨store, output, trace, depth⟩ =>
    let (store, address) := add store
    (address, ⟨store, output, trace, depth⟩)

/-- Adds a frame inside another. -/
def newFrame (parent : Nat) : Run Nat := allocate (·.addFrame (some parent))

/-- Adds an array. -/
def newArray (elements : Array Value) : Run Value := do
  return .array (← allocate (·.addArray elements))

/-- Adds a function. -/
def newFunction (c : Closure) : Run Value := do
  return .function (← allocate (·.addClosure c))

/-- The function at an address, which has to be there. -/
def closure (address : Nat) : Run Closure := do
  match (← store).closure? address with
  | some c => return c
  | none => fault (.missing "function")

/-- The element at a position of an array, which has to be there. -/
def element (array position : Nat) : Run Value := do
  match ((← store).elements array)[position]? with
  | some v => return v
  | none => fault (.missing "element")

/-- Replaces the element at a position of an array, which has to be there. -/
def replaceElement (array position : Nat) (value : Value) : Run Unit := do
  let _ ← element array position
  modifyStore (·.setElement array position value)

/-- Prints. -/
def print (text : String) : Run Unit := modify fun m => { m with output := m.output ++ text }

/-- Leaves a line in the trace, indented by the number of calls in progress. -/
def traceLine (settings : Settings) (line : Machine → String) : Run Unit :=
  if settings.debug then
    modify fun m =>
      { m with trace := m.trace ++ Text.repeated ' ' (2 * m.depth) ++ line m ++ "\n" }
  else pure ()

/-- A fault without a place takes the given one. -/
def locate {α : Type} (span : Option Span) (r : Run α) : Run α :=
  ExceptT.mk do
    match ← r.run with
    | .error (.fault f none) => return .error (.fault f span)
    | result => return result

/-- Runs inside one more call in progress. What is shown too deeply in it is a fault of the
call. -/
def inCall {α : Type} (name : String) (r : Run α) : Run α :=
  ExceptT.mk do
    modify fun m => { m with depth := m.depth + 1 }
    let result ← r.run
    modify fun m => { m with depth := m.depth - 1 }
    match result with
    | .error .displayTooDeep => return .error (.fault (.tooDeep name) none)
    | result => return result

end Run

/-! ### Operators -/

/-- The binary operator of a symbol, other than the logical ones. -/
def binaryOperator? (op : String) : Option (Store → Value → Value → Except Fault Value) :=
  match op with
  | "+" => some fun _ => Arithmetic.apply .add
  | "-" => some fun _ => Arithmetic.apply .sub
  | "*" => some fun _ => Arithmetic.apply .mul
  | "/" => some fun _ => Arithmetic.apply .div
  | "%" => some fun _ => Arithmetic.apply .mod
  | "==" => some fun s x y => .ok (.bool (s.equal x y))
  | "!=" => some fun s x y => .ok (.bool !(s.equal x y))
  | "<" => some fun _ => Comparison.apply .lt
  | ">" => some fun _ => Comparison.apply .gt
  | "<=" => some fun _ => Comparison.apply .le
  | ">=" => some fun _ => Comparison.apply .ge
  | _ => none

/-- The prefix operator of a symbol. -/
def unaryOperator? (op : String) : Option (Value → Except Fault Value) :=
  match op with
  | "-" => some Value.negate
  | "!" => some Value.complement
  | _ => none

/-- The value of the left operand that decides a logical operator. -/
def decisive? (op : String) : Option Bool :=
  match op with
  | "&&" => some false
  | "||" => some true
  | _ => none

/-- The array and the position that an element is at. -/
def resolveIndex (s : Store) (target index : Value) : Except Fault (Nat × Nat) :=
  match target with
  | .array a =>
    match index with
    | .int i =>
      let length := (s.elements a).size
      if 0 ≤ i ∧ i < length then .ok (a, i.toNat) else .error (.outOfBounds i length)
    | v => .error (.indexKind v.kindName)
  | v => .error (.notIndexable v.kindName)

/-! ### Built-in functions -/

/-- The integers from one bound up to, and not including, another. -/
def intRange (start stop : Int) : Array Value :=
  Array.ofFn fun i : Fin (stop - start).toNat => .int (start + i.val)

namespace Builtin

/-- The kinds of the arguments of a built-in function; any number of any kind for `print`. -/
def signature? : Builtin → Option (List (Option String))
  | print => none
  | len | str | type => some [none]
  | push => some [some Kind.array.name, none]
  | pop => some [some Kind.array.name]
  | range => some [some Kind.int.name, some Kind.int.name]

/-- A built-in function on arguments of the right number and kinds. Arrays that it shows may be
nested `limit` deep. -/
def perform (b : Builtin) (limit : Nat) (args : List Value) : Run Value :=
  match b, args with
  | .print, args => do
    let s ← Run.store
    let parts ← args.mapM fun v => Run.ofShow (s.display limit false v)
    Run.print (String.intercalate " " parts ++ "\n")
    return .unit
  | .len, [.array a] => do
    let s ← Run.store
    return .int (s.elements a).size
  | .len, [.str t] => return .int t.length
  | .len, [v] => Run.fault (.argument "len" "argument 1" "Array or Str" v.kindName)
  | .push, [.array a, v] => do
    Run.modifyStore (·.push a v)
    return .unit
  | .pop, [.array a] => do
    let s ← Run.store
    match (s.elements a).back? with
    | none => Run.fault .emptyPop
    | some v =>
      Run.modifyStore (·.pop a)
      return v
  | .str, [v] => do
    let s ← Run.store
    let t ← Run.ofShow (s.display limit false v)
    return .str t
  | .type, [v] => return .str v.kindName
  | .range, [.int start, .int stop] => Run.newArray (intRange start stop)
  | _, _ => Run.fault (.missing "argument")

/-- A built-in function, which checks its arguments first. -/
def apply (b : Builtin) (args : List Value) (limit : Nat := Host.usual.displayLimit) :
    Run Value := do
  if let some kinds := b.signature? then
    Run.ofExcept (Value.checkArguments b.name args kinds)
  b.perform limit args

end Builtin

/-! ### Evaluation -/

/-- A call as the trace shows it, with its arguments. These are shown like everything else that a
program shows, so they may be nested too deeply for it. -/
def showCall (limit : Nat) (name : String) (args : List Value) : Run String := do
  let s ← Run.store
  let shown ← args.mapM fun v => Run.ofShow (s.display limit true v)
  return "Calling: " ++ name ++ "(" ++ String.intercalate ", " shown ++ ")"

/-- Leaves a call in the trace. -/
def traceCall (cfg : Settings) (name : String) (args : List Value) : Run Unit :=
  if cfg.debug then do
    let line ← showCall cfg.host.displayLimit name args
    Run.traceLine cfg fun _ => line
  else pure ()

/-- Binds parameters to arguments in a frame. -/
def bindParameters (e : Nat) (params : List String) (args : List Value) : Run Unit :=
  (params.zip args).forM fun p => Run.modifyStore (·.declare e p.1 p.2 true)

/-- What a call gives back: what was returned, or nothing. -/
def Signal.result : Signal → Value
  | .returned v => v
  | .normal _ => .unit

mutual

/-- Evaluates an expression in a frame. -/
def eval (cfg : Settings) : (fuel : Nat) → Node → Nat → Run Value
  | 0, _, _ => throw .outOfFuel
  | fuel + 1, node, e =>
    let enter (r : Run Value) : Run Value := do
      Run.traceLine cfg fun _ => "Evaluating: " ++ node.type
      Run.locate node.span r
    match node with
    | .literal d _ _ => enter do
      match Value.ofDatum d with
      | .int i => do
        let i ← Run.ofExcept (confine i "integer literal")
        return .int i
      | v => return v
    | .identifier name _ => enter do
      Run.ofExcept ((← Run.store).lookup e name)
    | .array elements _ => enter do
      let vs ← evalAll cfg fuel elements e
      Run.newArray vs.toArray
    | .binary op left right _ => enter do
      match binaryOperator? op with
      | none => Run.fault (.unknownOperator op)
      | some f => do
        let x ← eval cfg fuel left e
        let y ← eval cfg fuel right e
        Run.ofExcept (f (← Run.store) x y)
    | .logical op left right _ => enter do
      match decisive? op with
      | none => Run.fault (.unknownLogical op)
      | some decisive => do
        let x ← eval cfg fuel left e
        let b ← Run.ofExcept (x.decision ("Left operand of '" ++ op ++ "'"))
        if b = decisive then return x
        else
          let y ← eval cfg fuel right e
          let _ ← Run.ofExcept (y.decision ("Right operand of '" ++ op ++ "'"))
          return y
    | .unary op operand _ => enter do
      match unaryOperator? op with
      | none => Run.fault (.unknownUnary op)
      | some f => do
        let x ← eval cfg fuel operand e
        Run.ofExcept (f x)
    | .index target index _ => enter do
      let t ← eval cfg fuel target e
      let i ← eval cfg fuel index e
      let (a, n) ← Run.ofExcept (resolveIndex (← Run.store) t i)
      Run.element a n
    | .functionExpr _ params body _ => enter do
      Run.newFunction ⟨none, params, body, e⟩
    | .call callee args _ => enter do
      let f ← eval cfg fuel callee e
      match f with
      | .function _ | .builtin .. => do
        let vs ← evalAll cfg fuel args e
        applyFunction cfg fuel f vs
      | v => Run.fault (.notCallable v.kindName)
    | .partialExpr type field span => enter (throw (.fault (.missingField type field) span))
    | .stray d => Run.fault (.notExpressionNode d.quoted)
    | .absent owner field span => throw (.fault (.missingField owner field) span)
    | node => throw (.fault (.notExpression node.type) node.span)
termination_by structural fuel => fuel

/-- Evaluates expressions from left to right. -/
def evalAll (cfg : Settings) : (fuel : Nat) → List Node → Nat → Run (List Value)
  | 0, _, _ => throw .outOfFuel
  | _ + 1, [], _ => return []
  | fuel + 1, node :: nodes, e => do
    let v ← eval cfg fuel node e
    let vs ← evalAll cfg fuel nodes e
    return v :: vs
termination_by structural fuel => fuel

/-- Applies a function to arguments. The body runs in a frame inside the one in which the function
was made, not in that of the caller. -/
def applyFunction (cfg : Settings) : (fuel : Nat) → Value → List Value → Run Value
  | 0, _, _ => throw .outOfFuel
  | fuel + 1, f, args =>
    match f with
    | .builtin b _ => do
      if let some n := b.arity? then
        if args.length ≠ n then Run.fault (.arity b.name n args.length)
      b.apply args cfg.host.displayLimit
    | .function address => do
      let c ← Run.closure address
      let m ← get
      let name := m.store.closureName address "anonymous function"
      if args.length ≠ c.params.length then
        Run.fault (.arity name c.params.length args.length)
      if cfg.maxDepth ≤ m.depth then Run.fault (.callDepth cfg.maxDepth name)
      let frame ← Run.newFrame c.frame
      bindParameters frame c.params args
      traceCall cfg name args
      let signal ← Run.inCall name (execBlock cfg fuel c.body frame)
      return signal.result
    | v => Run.fault (.notCallable v.kindName)
termination_by structural fuel => fuel

/-- Executes a statement in a frame. -/
def exec (cfg : Settings) : (fuel : Nat) → Node → Nat → Run Signal
  | 0, _, _ => throw .outOfFuel
  | fuel + 1, node, e =>
    let enter (r : Run Signal) : Run Signal := do
      Run.traceLine cfg fun _ => "Executing: " ++ node.type
      Run.locate node.span r
    match node with
    | .exprStmt expr _ => enter do
      let v ← eval cfg fuel expr e
      return .normal (some v)
    | .letStmt name mutable init _ => enter do
      let v ← eval cfg fuel init e
      Run.modifyStore (·.declare e name v mutable)
      return .normal none
    | .assign name value _ => enter do
      let v ← eval cfg fuel value e
      let g ← Run.ofExcept ((← Run.store).assignable e name)
      Run.modifyStore (·.update g name v)
      return .normal none
    | .indexAssign target index value _ => enter do
      let t ← eval cfg fuel target e
      let i ← eval cfg fuel index e
      let v ← eval cfg fuel value e
      let (a, n) ← Run.ofExcept (resolveIndex (← Run.store) t i)
      Run.replaceElement a n v
      return .normal none
    | .functionDef name params body _ => enter do
      let f ← Run.newFunction ⟨some name, params, body, e⟩
      Run.modifyStore (·.declare e name f false)
      return .normal none
    | .ifStmt condition yes no _ => enter do
      let c ← eval cfg fuel condition e
      if ← Run.ofExcept (c.decision "Condition of 'if'") then
        execInside cfg fuel yes e
      else match no with
        | none => return .normal none
        | some (.ifStmt c y n s) => exec cfg fuel (.ifStmt c y n s) e
        | some other => execInside cfg fuel other e
    | .whileStmt condition body _ => enter (whileLoop cfg fuel condition body e)
    | .forStmt var iterable body _ => enter do
      let collection ← eval cfg fuel iterable e
      match collection with
      | .array a => forLoop cfg fuel var body a 0 e
      | v => Run.fault (.notIterable v.kindName)
    | .returnStmt none _ => enter (return .returned .unit)
    | .returnStmt (some value) _ => enter do
      let v ← eval cfg fuel value e
      return .returned v
    | .block statements span => enter (execInside cfg fuel (.block statements span) e)
    | .partialStmt type field first span => enter do
      let _ ← evalAll cfg fuel first e
      throw (.fault (.missingField type field) span)
    | .stray d => Run.fault (.notStatementNode d.quoted)
    | .absent owner field span => throw (.fault (.missingField owner field) span)
    | node => throw (.fault (.notStatement node.type) node.span)
termination_by structural fuel => fuel

/-- Runs a block in a new frame. -/
def execInside (cfg : Settings) : (fuel : Nat) → Node → Nat → Run Signal
  | 0, _, _ => throw .outOfFuel
  | fuel + 1, body, e => do
    let frame ← Run.newFrame e
    execBlock cfg fuel body frame
termination_by structural fuel => fuel

/-- Runs the statements of a block in a frame. -/
def execBlock (cfg : Settings) : (fuel : Nat) → Node → Nat → Run Signal
  | 0, _, _ => throw .outOfFuel
  | fuel + 1, node, e =>
    match node with
    | .block statements _ => execAll cfg fuel statements (.normal none) e
    | .absent owner field span => throw (.fault (.missingField owner field) span)
    | .stray _ => Run.fault (.notBlock Datum.null.quoted)
    | node => throw (.fault (.notBlock node.type) node.span)
termination_by structural fuel => fuel

/-- Runs statements up to the first return; the last one decides how they end. -/
def execAll (cfg : Settings) : (fuel : Nat) → List Node → Signal → Nat → Run Signal
  | 0, _, _, _ => throw .outOfFuel
  | _ + 1, [], signal, _ => return signal
  | fuel + 1, node :: nodes, _, e => do
    match ← exec cfg fuel node e with
    | .returned v => return .returned v
    | signal => execAll cfg fuel nodes signal e
termination_by structural fuel => fuel

/-- Runs a body as long as a condition holds. The condition is evaluated in the frame of the loop,
the body in a new frame each time. -/
def whileLoop (cfg : Settings) : (fuel : Nat) → (condition body : Node) → Nat → Run Signal
  | 0, _, _, _ => throw .outOfFuel
  | fuel + 1, condition, body, e => do
    let c ← eval cfg fuel condition e
    if ← Run.ofExcept (c.decision "Condition of 'while'") then
      match ← execInside cfg fuel body e with
      | .returned v => return .returned v
      | .normal _ => whileLoop cfg fuel condition body e
    else return .normal none
termination_by structural fuel => fuel

/-- Runs a body for the elements of an array from a position on, as long as there are any. Each
element is bound in a new frame. -/
def forLoop (cfg : Settings) : (fuel : Nat) → String → Node → (array position : Nat) → Nat →
    Run Signal
  | 0, _, _, _, _, _ => throw .outOfFuel
  | fuel + 1, var, body, a, position, e => do
    match ((← Run.store).elements a)[position]? with
    | none => return .normal none
    | some v => do
      let frame ← Run.newFrame e
      Run.modifyStore (·.declare frame var v false)
      match ← execBlock cfg fuel body frame with
      | .returned v => return .returned v
      | .normal _ => forLoop cfg fuel var body a (position + 1) e
termination_by structural fuel => fuel

end

/-- Runs statements from the top of a program; the value is that of the last expression
statement. -/
def runFrom (cfg : Settings) (fuel : Nat) (result : Value) : List Node → Run Value
  | [] => return result
  | node :: nodes => do
    match ← exec cfg fuel node Store.root with
    | .returned _ => throw (.fault .returnOutside node.span)
    | .normal (some v) => runFrom cfg fuel v nodes
    | .normal none => runFrom cfg fuel result nodes

/-- Runs a program. -/
def runProgram (cfg : Settings) (fuel : Nat) (nodes : List Node) : Run Value :=
  runFrom cfg fuel .unit nodes

end Ember
