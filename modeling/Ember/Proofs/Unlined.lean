import Ember.Proofs.Discipline
import Ember.Proofs.Node.Unlined
import Ember.Proofs.Store.Congruence

/-!
# Unlined — runs of programs without lines

No step of a run looks at the lines of the program or at what has been printed before. So a run of a
program without lines, on a machine that has printed something already, is the run of the program
itself, with the same text in front of what it prints.

* `Store.unlined`, `Halt.unlined`: what a run leaves behind, without lines.
* `Machine.after`: a machine without lines that has printed something before.
* `Run.Mirrors`: a computation and what it is without lines.
* `mirrored`: every function of the evaluator, on a program without lines.
-/

namespace Ember

/-! ### Stores without lines -/

/-- A function whose places name no file and no lines. -/
def Closure.unlined (c : Closure) : Closure := { c with body := c.body.unlined }

/-- The same end, at a place without lines. -/
def Halt.unlined : Halt → Halt
  | .fault f s => .fault f (s.map Span.unlined)
  | h => h

namespace Store

/-- A store whose functions have no lines. -/
def unlined (s : Store) : Store := { s with closures := s.closures.map Closure.unlined }

variable (s : Store)

/-- The functions are the same up to lines. -/
@[simp] theorem closure?_unlined (f : Nat) :
    s.unlined.closure? f = (s.closure? f).map Closure.unlined :=
  Array.getElem?_map

/-- Arrays have no lines in them. -/
@[simp] theorem elements_unlined (a : Nat) : s.unlined.elements a = s.elements a := rfl

/-- Nor have frames. -/
theorem frames_unlined : s.unlined.frames = s.frames := rfl

theorem arrays_unlined : s.unlined.arrays = s.arrays := rfl

/-- So names mean the same, -/
@[simp] theorem lookup_unlined (e : Nat) (name : String) :
    s.unlined.lookup e name = s.lookup e name :=
  lookup_congr s.frames_unlined e name

/-- and may be assigned to in the same frames. -/
@[simp] theorem assignable_unlined (e : Nat) (name : String) :
    s.unlined.assignable e name = s.assignable e name :=
  assignable_congr s.frames_unlined e name

/-- A function keeps its name. -/
@[simp] theorem closureName_unlined (f : Nat) (nameless : String) :
    s.unlined.closureName f nameless = s.closureName f nameless := by
  rw [closureName, closureName, closure?_unlined]
  cases s.closure? f <;> rfl

/-- What a value looks like does not depend on lines. -/
@[simp] theorem showAt_unlined (steps : Nat) (path : List Nat) (nested : Bool) (v : Value) :
    s.unlined.showAt steps path nested v = s.showAt steps path nested v :=
  showAt_congr s.arrays_unlined s.closureName_unlined steps path nested v

@[simp] theorem display_unlined (limit : Nat) (nested : Bool) (v : Value) :
    s.unlined.display limit nested v = s.display limit nested v :=
  showAt_unlined s _ _ _ v

end Store

/-- The machine without lines, after more has been printed and traced. -/
def Machine.after (out tr : String) (m : Machine) : Machine :=
  ⟨m.store.unlined, out ++ m.output, tr ++ m.trace, m.depth⟩

namespace Run

variable {out tr : String} {α β : Type} {r r' : Run α}

/-- How a run ends without lines, after more has been printed and traced. -/
def endAfter (out tr : String) (p : Except Halt α × Machine) : Except Halt α × Machine :=
  (p.1.mapError Halt.unlined, p.2.after out tr)

/-- The second computation is the first one without lines: it does the same, after whatever has been
printed and traced before. -/
def Mirrors (out tr : String) (r r' : Run α) : Prop :=
  ∀ m : Machine, r'.run.run (m.after out tr) = endAfter out tr (r.run.run m)

/-! ### Single computations -/

theorem mirrors_pure (a : α) : Mirrors out tr (pure a) (pure a) := fun _ => rfl

/-- An end is the same up to lines. -/
theorem mirrors_throw (h : Halt) : Mirrors out tr (throw h : Run α) (throw h.unlined) :=
  fun _ => rfl

theorem mirrors_fault (f : Fault) : Mirrors out tr (fault f : Run α) (fault f) := fun _ => rfl

/-- An operation that does not touch the machine. -/
theorem mirrors_ofExcept (x : Except Fault α) : Mirrors out tr (ofExcept x) (ofExcept x) := by
  cases x with
  | ok a => exact mirrors_pure a
  | error f => exact mirrors_fault f

/-- A value is shown, or cannot be, on either side. -/
theorem mirrors_ofShow (x : Except Store.ShowFault String) :
    Mirrors out tr (ofShow x) (ofShow x) := by
  cases x with
  | ok t => exact mirrors_pure t
  | error e =>
      cases e with
      | noHandler k => exact mirrors_fault _
      | tooDeep => exact mirrors_throw _

/-- Two computations one after the other. -/
theorem Mirrors.bind {f f' : α → Run β} (h : Mirrors out tr r r')
    (hf : ∀ a, Mirrors out tr (f a) (f' a)) : Mirrors out tr (r >>= f) (r' >>= f') := by
  intro m
  rw [run_bind, run_bind, h m]
  rcases r.run.run m with ⟨_ | a, m'⟩
  · rfl
  · exact hf a m'

/-- The machine may be looked at as far as the second one looks alike. -/
theorem Mirrors.get {f f' : Machine → Run α}
    (h : ∀ m, Mirrors out tr (f m) (f' (m.after out tr))) :
    Mirrors out tr (MonadState.get >>= f) (MonadState.get >>= f') := fun m => h m m

/-- So may the store. -/
theorem Mirrors.store {f f' : Store → Run α} (h : ∀ s, Mirrors out tr (f s) (f' s.unlined)) :
    Mirrors out tr (Run.store >>= f) (Run.store >>= f') := fun m => h m.store m

/-- A change of the machine that does not look at lines or at what was printed. -/
theorem mirrors_modify {g g' : Machine → Machine}
    (h : ∀ m, g' (m.after out tr) = (g m).after out tr) :
    Mirrors out tr (modify g) (modify g') :=
  fun m => congrArg (Prod.mk (Except.ok ())) (h m)

/-- A change of the store that does not look at lines. -/
theorem mirrors_modifyStore {g : Store → Store} (h : ∀ s, g s.unlined = (g s).unlined) :
    Mirrors out tr (modifyStore g) (modifyStore g) :=
  mirrors_modify fun m => by simp only [Machine.after, h]

/-- The same for what is added to the store. -/
theorem mirrors_allocate {add add' : Store → Store × Nat}
    (h : ∀ s, add' s.unlined = ((add s).1.unlined, (add s).2)) :
    Mirrors out tr (allocate add) (allocate add') := by
  intro m
  have hrun (add : Store → Store × Nat) (m : Machine) : (allocate add).run.run m
      = (.ok (add m.store).2, { m with store := (add m.store).1 }) := rfl
  rw [hrun, hrun, Machine.after, h]
  rfl

/-- What is printed comes after what was printed before. -/
theorem mirrors_print (text : String) : Mirrors out tr (print text) (print text) :=
  mirrors_modify fun m => by simp only [Machine.after, String.append_assoc]

/-- So does what is traced. -/
theorem mirrors_traceLine (cfg : Settings) {line line' : Machine → String}
    (h : ∀ m, line' (m.after out tr) = line m) :
    Mirrors out tr (traceLine cfg line) (traceLine cfg line') := by
  unfold traceLine
  split
  · refine mirrors_modify fun m => ?_
    rw [h m]
    simp only [Machine.after, String.append_assoc]
  · exact mirrors_pure ()

/-- A fault is placed at the same place up to lines. -/
theorem Mirrors.locate (h : Mirrors out tr r r') (s : Option Span) :
    Mirrors out tr (locate s r) (locate (s.map Span.unlined) r') := by
  intro m
  rw [run_locate, run_locate, h m]
  rcases r.run.run m with ⟨(⟨f, _ | s'⟩ | _ | _) | a, m'⟩ <;> rfl

/-- The depth counts on either side. -/
theorem Mirrors.inCall (h : Mirrors out tr r r') (name : String) :
    Mirrors out tr (inCall name r) (inCall name r') := by
  intro m
  have hm := h { m with depth := m.depth + 1 }
  rw [run_inCall, run_inCall]
  dsimp only [Machine.after] at hm ⊢
  rw [hm]
  rcases r.run.run { m with depth := m.depth + 1 } with ⟨(_ | _ | _) | a, m'⟩ <;> rfl

/-- The same is done for each of several values. -/
theorem mirrors_mapM {f f' : α → Run β} (h : ∀ a, Mirrors out tr (f a) (f' a)) (xs : List α) :
    Mirrors out tr (xs.mapM f) (xs.mapM f') := by
  induction xs with
  | nil => exact mirrors_pure []
  | cons x xs ih =>
      rw [List.mapM_cons, List.mapM_cons]
      exact (h x).bind fun y => ih.bind fun ys => mirrors_pure (y :: ys)

theorem mirrors_newFrame (e : Nat) : Mirrors out tr (newFrame e) (newFrame e) :=
  mirrors_allocate fun _ => rfl

theorem mirrors_newArray (vs : Array Value) : Mirrors out tr (newArray vs) (newArray vs) :=
  (mirrors_allocate fun _ => rfl).bind fun a => mirrors_pure (Value.array a)

/-- A function is made of the body without lines. -/
theorem mirrors_newFunction (c : Closure) :
    Mirrors out tr (newFunction c) (newFunction c.unlined) := by
  refine (mirrors_allocate fun s => ?_).bind fun f => mirrors_pure (Value.function f)
  simp [Store.addClosure, Store.unlined]

/-- A function is found on either side or on none. -/
theorem Mirrors.closure {f f' : Closure → Run α}
    (h : ∀ c, Mirrors out tr (f c) (f' c.unlined)) (address : Nat) :
    Mirrors out tr (Run.closure address >>= f) (Run.closure address >>= f') := by
  have hclosure (k : Closure → Run α) : (Run.closure address >>= k) = (Run.store >>= fun s =>
      (s.closure? address).elim (fault (.missing "function")) k) := by
    rw [Run.closure, bind_assoc]
    refine congrArg _ (funext fun s => ?_)
    cases s.closure? address <;> rfl
  rw [hclosure, hclosure]
  refine Mirrors.store fun s => ?_
  rw [Store.closure?_unlined]
  cases s.closure? address with
  | some c => exact h c
  | none => exact mirrors_fault _

theorem mirrors_element (a i : Nat) : Mirrors out tr (element a i) (element a i) := by
  refine Mirrors.store fun s => ?_
  have helements : s.unlined.elements a = s.elements a := rfl
  rw [helements]
  cases (s.elements a)[i]? with
  | some v => exact mirrors_pure v
  | none => exact mirrors_fault _

theorem mirrors_replaceElement (a i : Nat) (v : Value) :
    Mirrors out tr (replaceElement a i v) (replaceElement a i v) :=
  (mirrors_element a i).bind fun _ => mirrors_modifyStore fun _ => rfl

theorem mirrors_declare (e : Nat) (name : String) (v : Value) (mutable : Bool) :
    Mirrors out tr (modifyStore (·.declare e name v mutable))
      (modifyStore (·.declare e name v mutable)) :=
  mirrors_modifyStore fun _ => rfl

/-- A check that ends in a fault if it fails. -/
theorem Mirrors.check {p : Prop} [Decidable p] {f : Fault} {k k' : Unit → Run α}
    (h : Mirrors out tr (k ()) (k' ())) :
    Mirrors out tr (if p then fault f >>= k else k ()) (if p then fault f >>= k' else k' ()) := by
  split
  · exact (mirrors_fault f).bind fun _ => h
  · exact h

/-- Entering a node leaves a line in the trace and places its faults. -/
theorem Mirrors.enter (h : Mirrors out tr r r') (cfg : Settings) (line : String)
    (s : Option Span) :
    Mirrors out tr (do traceLine cfg fun _ => line; Run.locate s r)
      (do traceLine cfg fun _ => line; Run.locate (s.map Span.unlined) r') := by
  have hline : Mirrors out tr (traceLine cfg fun _ => line) (traceLine cfg fun _ => line) :=
    mirrors_traceLine cfg fun _ => rfl
  exact hline.bind fun _ => h.locate s

/-- A builtin does its work without looking at lines. -/
theorem mirrors_perform (b : Builtin) (limit : Nat) (args : List Value) :
    Mirrors out tr (b.perform limit args) (b.perform limit args) := by
  unfold Builtin.perform
  split
  · refine Mirrors.store fun s => (mirrors_mapM (fun v => ?_) _).bind fun parts => ?_
    · rw [Store.display_unlined]
      exact mirrors_ofShow _
    · exact (mirrors_print _).bind fun _ => mirrors_pure Value.unit
  · exact Mirrors.store fun s => mirrors_pure _
  · exact mirrors_pure _
  · exact mirrors_fault _
  · refine (mirrors_modifyStore ?_).bind fun _ => mirrors_pure Value.unit
    exact fun _ => rfl
  · refine Mirrors.store fun s => ?_
    rw [Store.elements_unlined]
    split
    · exact mirrors_fault _
    · refine (mirrors_modifyStore ?_).bind fun _ => mirrors_pure _
      exact fun _ => rfl
  · refine Mirrors.store fun s => ?_
    rw [Store.display_unlined]
    exact (mirrors_ofShow _).bind fun t => mirrors_pure (Value.str t)
  · exact mirrors_pure _
  · exact mirrors_newArray _
  · exact mirrors_fault _

/-- So it does after a check of its arguments. -/
theorem mirrors_apply (b : Builtin) (args : List Value) (limit : Nat) :
    Mirrors out tr (b.apply args limit) (b.apply args limit) := by
  unfold Builtin.apply
  cases b.signature? with
  | none => exact mirrors_perform b limit args
  | some kinds => exact (mirrors_ofExcept _).bind fun _ => mirrors_perform b limit args

/-- The parameters are bound to the same arguments. -/
theorem mirrors_bindParameters (e : Nat) (params : List String) (args : List Value) :
    Mirrors out tr (bindParameters e params args) (bindParameters e params args) := by
  unfold bindParameters
  generalize params.zip args = ps
  induction ps with
  | nil => exact mirrors_pure ()
  | cons p ps ih => exact (mirrors_declare e p.1 p.2 true).bind fun _ => ih

/-- A call is traced with the same arguments. -/
theorem mirrors_traceCall (cfg : Settings) (name : String) (args : List Value) :
    Mirrors out tr (traceCall cfg name args) (traceCall cfg name args) := by
  unfold traceCall
  split
  · refine Mirrors.bind (Mirrors.store fun s => ?_) fun line => mirrors_traceLine cfg fun _ => rfl
    refine (mirrors_mapM (fun v => ?_) _).bind fun shown => mirrors_pure _
    rw [Store.display_unlined]
    exact mirrors_ofShow _
  · exact mirrors_pure ()

end Run

/-! ### The evaluator -/

open Run (Mirrors mirrors_pure mirrors_throw mirrors_fault mirrors_ofExcept)

variable {cfg : Settings} {out tr : String} {fuel : Nat}

/-- Running with some fuel does the same without lines, function by function. -/
structure Mirrored (cfg : Settings) (out tr : String) (fuel : Nat) : Prop where
  eval : ∀ n e, Mirrors out tr (eval cfg fuel n e) (eval cfg fuel n.unlined e)
  evalAll : ∀ ns e,
    Mirrors out tr (evalAll cfg fuel ns e) (evalAll cfg fuel (ns.map Node.unlined) e)
  applyFunction : ∀ f args,
    Mirrors out tr (applyFunction cfg fuel f args) (applyFunction cfg fuel f args)
  exec : ∀ n e, Mirrors out tr (exec cfg fuel n e) (exec cfg fuel n.unlined e)
  execInside : ∀ b e, Mirrors out tr (execInside cfg fuel b e) (execInside cfg fuel b.unlined e)
  execBlock : ∀ b e, Mirrors out tr (execBlock cfg fuel b e) (execBlock cfg fuel b.unlined e)
  execAll : ∀ ns signal e, Mirrors out tr (execAll cfg fuel ns signal e)
    (execAll cfg fuel (ns.map Node.unlined) signal e)
  whileLoop : ∀ c b e, Mirrors out tr (whileLoop cfg fuel c b e)
    (whileLoop cfg fuel c.unlined b.unlined e)
  forLoop : ∀ x b a i e, Mirrors out tr (forLoop cfg fuel x b a i e)
    (forLoop cfg fuel x b.unlined a i e)

namespace Mirrored

/-- One more step of fuel for an expression, by the kind of the node. -/
theorem eval_succ (h : Mirrored cfg out tr fuel) (n : Node) (e : Nat) :
    Mirrors out tr (Ember.eval cfg (fuel + 1) n e) (Ember.eval cfg (fuel + 1) n.unlined e) := by
  cases n with
  | literal d k s =>
      refine Mirrors.enter ?_ cfg _ s
      cases Value.ofDatum d with
      | int i => exact (mirrors_ofExcept _).bind fun i => mirrors_pure (Value.int i)
      | _ => exact mirrors_pure _
  | identifier name s =>
      refine Mirrors.enter (Mirrors.store fun st => ?_) cfg _ s
      rw [Store.lookup_unlined]
      exact mirrors_ofExcept _
  | array es s =>
      simp only [Node.unlined, Node.unlinedAll_eq_map, Ember.eval]
      exact ((h.evalAll es e).bind fun vs => Run.mirrors_newArray _).enter cfg _ s
  | binary op l r s =>
      refine Mirrors.enter ?_ cfg _ s
      cases hop : binaryOperator? op with
      | none => exact mirrors_fault _
      | some f =>
          refine (h.eval l e).bind fun x => (h.eval r e).bind fun y => Mirrors.store fun st => ?_
          rw [binaryOperator?_congr st.arrays_unlined hop]
          exact mirrors_ofExcept _
  | logical op l r s =>
      refine Mirrors.enter ?_ cfg _ s
      cases decisive? op with
      | none => exact mirrors_fault _
      | some decisive =>
          refine (h.eval l e).bind fun x => (mirrors_ofExcept _).bind fun b => ?_
          split
          · exact mirrors_pure x
          · exact (h.eval r e).bind fun y => (mirrors_ofExcept _).bind fun _ => mirrors_pure y
  | unary op operand s =>
      refine Mirrors.enter ?_ cfg _ s
      cases unaryOperator? op with
      | none => exact mirrors_fault _
      | some f => exact (h.eval operand e).bind fun x => mirrors_ofExcept _
  | index target i s =>
      refine Mirrors.enter ?_ cfg _ s
      refine (h.eval target e).bind fun t => (h.eval i e).bind fun i => Mirrors.store fun st => ?_
      exact (mirrors_ofExcept _).bind fun p => Run.mirrors_element p.1 p.2
  | functionExpr name params body s =>
      exact (Run.mirrors_newFunction ⟨none, params, body, e⟩).enter cfg _ s
  | call callee args s =>
      simp only [Node.unlined, Node.unlinedAll_eq_map, Ember.eval]
      refine Mirrors.enter ((h.eval callee e).bind fun f => ?_) cfg _ s
      cases f with
      | function _ | builtin _ _ =>
          exact (h.evalAll args e).bind fun vs => h.applyFunction _ vs
      | _ => exact mirrors_fault _
  | partialExpr type field s => exact (mirrors_throw (.fault _ s)).enter cfg _ s
  | stray d => exact mirrors_fault _
  | ifStmt _ _ no s => cases no <;> exact mirrors_throw (.fault _ s)
  | returnStmt value s => cases value <;> exact mirrors_throw (.fault _ s)
  | functionDef _ _ _ s | letStmt _ _ _ s | assign _ _ s | indexAssign _ _ _ s
  | whileStmt _ _ s | forStmt _ _ _ s | block _ s | exprStmt _ s | unknown _ s
  | absent _ _ s | partialStmt _ _ _ s => exact mirrors_throw (.fault _ s)

/-- Expressions one after the other. -/
theorem evalAll_succ (h : Mirrored cfg out tr fuel) (ns : List Node) (e : Nat) :
    Mirrors out tr (Ember.evalAll cfg (fuel + 1) ns e)
      (Ember.evalAll cfg (fuel + 1) (ns.map Node.unlined) e) := by
  cases ns with
  | nil => exact mirrors_pure []
  | cons n ns =>
      exact (h.eval n e).bind fun v => (h.evalAll ns e).bind fun vs => mirrors_pure (v :: vs)

/-- A call, in which the body is the one without lines. -/
theorem applyFunction_succ (h : Mirrored cfg out tr fuel) (f : Value) (args : List Value) :
    Mirrors out tr (Ember.applyFunction cfg (fuel + 1) f args)
      (Ember.applyFunction cfg (fuel + 1) f args) := by
  cases f with
  | builtin b tag =>
      rw [Ember.applyFunction]
      split
      · exact Mirrors.check (Run.mirrors_apply b args _)
      · exact Run.mirrors_apply b args _
  | function address =>
      refine Mirrors.closure (fun c => Mirrors.get fun m => ?_) address
      simp only [Machine.after, Store.closureName_unlined]
      refine Mirrors.check ?_
      refine Mirrors.check ?_
      refine (Run.mirrors_newFrame c.frame).bind fun frame => ?_
      refine (Run.mirrors_bindParameters frame c.params args).bind fun _ => ?_
      refine (Run.mirrors_traceCall cfg _ args).bind fun _ => ?_
      exact ((h.execBlock c.body frame).inCall _).bind fun signal => mirrors_pure signal.result
  | _ => exact mirrors_fault _

/-- One more step of fuel for a statement, by the kind of the node. -/
theorem exec_succ (h : Mirrored cfg out tr fuel) (n : Node) (e : Nat) :
    Mirrors out tr (Ember.exec cfg (fuel + 1) n e) (Ember.exec cfg (fuel + 1) n.unlined e) := by
  cases n with
  | exprStmt expr s =>
      exact ((h.eval expr e).bind fun v => mirrors_pure (Signal.normal (some v))).enter cfg _ s
  | letStmt name mutable init s =>
      refine Mirrors.enter ((h.eval init e).bind fun v => ?_) cfg _ s
      exact (Run.mirrors_declare e name v mutable).bind fun _ => mirrors_pure (Signal.normal none)
  | assign name value s =>
      refine Mirrors.enter ((h.eval value e).bind fun v => Mirrors.store fun st => ?_) cfg _ s
      rw [Store.assignable_unlined]
      refine (mirrors_ofExcept _).bind fun g => (Run.mirrors_modifyStore ?_).bind fun _ =>
        mirrors_pure (Signal.normal none)
      exact fun _ => rfl
  | indexAssign target i value s =>
      refine Mirrors.enter ?_ cfg _ s
      refine (h.eval target e).bind fun t => (h.eval i e).bind fun i => ?_
      refine (h.eval value e).bind fun v => Mirrors.store fun st => ?_
      exact (mirrors_ofExcept _).bind fun p => (Run.mirrors_replaceElement p.1 p.2 v).bind fun _ =>
        mirrors_pure (Signal.normal none)
  | functionDef name params body s =>
      refine Mirrors.enter ?_ cfg _ s
      exact (Run.mirrors_newFunction ⟨some name, params, body, e⟩).bind fun f =>
        (Run.mirrors_declare e name f false).bind fun _ => mirrors_pure (Signal.normal none)
  | ifStmt c y no s =>
      cases no with
      | none =>
          refine Mirrors.enter ?_ cfg _ s
          refine (h.eval c e).bind fun v => (mirrors_ofExcept _).bind fun holds => ?_
          cases holds with
          | true => exact h.execInside y e
          | false => exact mirrors_pure _
      | some n =>
          refine Mirrors.enter ?_ cfg _ s
          refine (h.eval c e).bind fun v => (mirrors_ofExcept _).bind fun holds => ?_
          cases holds with
          | true => exact h.execInside y e
          | false =>
              -- a conditional after `else` runs in the same frame, anything else in one of its own
              cases n with
              | ifStmt c y no s => cases no <;> exact h.exec _ e
              | returnStmt value s => cases value <;> exact h.execInside _ e
              | _ => exact h.execInside _ e
  | whileStmt c b s => exact (h.whileLoop c b e).enter cfg _ s
  | forStmt x iterable b s =>
      refine Mirrors.enter ((h.eval iterable e).bind fun v => ?_) cfg _ s
      cases v with
      | array a => exact h.forLoop x b a 0 e
      | _ => exact mirrors_fault _
  | returnStmt value s =>
      cases value with
      | none => exact (mirrors_pure (Signal.returned .unit)).enter cfg _ s
      | some value =>
          exact ((h.eval value e).bind fun v => mirrors_pure (Signal.returned v)).enter cfg _ s
  | block ss s => exact (h.execInside (.block ss s) e).enter cfg _ s
  | partialStmt type field first s =>
      simp only [Node.unlined, Node.unlinedAll_eq_map, Ember.exec]
      exact ((h.evalAll first e).bind fun _ => mirrors_throw (.fault _ s)).enter cfg _ s
  | stray d => exact mirrors_fault _
  | literal _ _ s | identifier _ s | array _ s | binary _ _ _ s | logical _ _ _ s | unary _ _ s
  | call _ _ s | index _ _ s | functionExpr _ _ _ s | unknown _ s | absent _ _ s
  | partialExpr _ _ s => exact mirrors_throw (.fault _ s)

/-- Only a block has statements to run; anything else is a fault. -/
theorem execBlock_succ (h : Mirrored cfg out tr fuel) (b : Node) (e : Nat) :
    Mirrors out tr (Ember.execBlock cfg (fuel + 1) b e)
      (Ember.execBlock cfg (fuel + 1) b.unlined e) := by
  cases b with
  | block ss s =>
      simp only [Node.unlined, Node.unlinedAll_eq_map, Ember.execBlock]
      exact h.execAll ss (.normal none) e
  | stray d => exact mirrors_fault _
  | ifStmt _ _ no s => cases no <;> exact mirrors_throw (.fault _ s)
  | returnStmt value s => cases value <;> exact mirrors_throw (.fault _ s)
  | literal _ _ s | identifier _ s | array _ s | binary _ _ _ s | logical _ _ _ s | unary _ _ s
  | call _ _ s | index _ _ s | functionExpr _ _ _ s | functionDef _ _ _ s | letStmt _ _ _ s
  | assign _ _ s | indexAssign _ _ _ s | whileStmt _ _ s | forStmt _ _ _ s | exprStmt _ s
  | unknown _ s | absent _ _ s | partialExpr _ _ s | partialStmt _ _ _ s =>
      exact mirrors_throw (.fault _ s)

/-- Statements up to the first return. -/
theorem execAll_succ (h : Mirrored cfg out tr fuel) (ns : List Node) (signal : Signal) (e : Nat) :
    Mirrors out tr (Ember.execAll cfg (fuel + 1) ns signal e)
      (Ember.execAll cfg (fuel + 1) (ns.map Node.unlined) signal e) := by
  cases ns with
  | nil => exact mirrors_pure signal
  | cons n ns =>
      refine (h.exec n e).bind fun signal => ?_
      cases signal with
      | returned v => exact mirrors_pure _
      | normal v => exact h.execAll ns _ e

/-- A round of a loop with a condition, and the rounds after it. -/
theorem whileLoop_succ (h : Mirrored cfg out tr fuel) (c b : Node) (e : Nat) :
    Mirrors out tr (Ember.whileLoop cfg (fuel + 1) c b e)
      (Ember.whileLoop cfg (fuel + 1) c.unlined b.unlined e) := by
  refine (h.eval c e).bind fun v => (mirrors_ofExcept _).bind fun holds => ?_
  cases holds with
  | false => exact mirrors_pure _
  | true =>
      refine (h.execInside b e).bind fun signal => ?_
      cases signal with
      | returned v => exact mirrors_pure _
      | normal _ => exact h.whileLoop c b e

/-- A round of a loop over an array, and the rounds after it. -/
theorem forLoop_succ (h : Mirrored cfg out tr fuel) (x : String) (b : Node) (a i e : Nat) :
    Mirrors out tr (Ember.forLoop cfg (fuel + 1) x b a i e)
      (Ember.forLoop cfg (fuel + 1) x b.unlined a i e) := by
  refine Mirrors.store fun st => ?_
  rw [Store.elements_unlined]
  cases (st.elements a)[i]? with
  | none => exact mirrors_pure _
  | some v =>
      refine (Run.mirrors_newFrame e).bind fun frame => ?_
      refine (Run.mirrors_declare frame x v false).bind fun _ => ?_
      refine (h.execBlock b frame).bind fun signal => ?_
      cases signal with
      | returned v => exact mirrors_pure _
      | normal _ => exact h.forLoop x b a (i + 1) e

end Mirrored

/-- **The evaluator does not look at lines**, nor at what has been printed. -/
theorem mirrored (cfg : Settings) (out tr : String) (fuel : Nat) : Mirrored cfg out tr fuel := by
  induction fuel with
  | zero =>
      have hspent {α : Type} : Mirrors out tr (throw .outOfFuel : Run α) (throw .outOfFuel) :=
        mirrors_throw .outOfFuel
      exact ⟨fun _ _ => hspent, fun _ _ => hspent, fun _ _ => hspent, fun _ _ => hspent,
        fun _ _ => hspent, fun _ _ => hspent, fun _ _ _ => hspent, fun _ _ _ => hspent,
        fun _ _ _ _ _ => hspent⟩
  | succ fuel ih =>
      exact ⟨ih.eval_succ, ih.evalAll_succ, ih.applyFunction_succ, ih.exec_succ,
        fun b e => (Run.mirrors_newFrame e).bind fun frame => ih.execBlock b frame,
        ih.execBlock_succ, ih.execAll_succ, ih.whileLoop_succ, ih.forLoop_succ⟩

/-- A program without lines runs as the program does. -/
theorem mirrors_runFrom (ns : List Node) (v : Value) :
    Mirrors out tr (runFrom cfg fuel v ns) (runFrom cfg fuel v (ns.map Node.unlined)) := by
  induction ns generalizing v with
  | nil => exact mirrors_pure v
  | cons n ns ih =>
      refine ((mirrored cfg out tr fuel).exec n Store.root).bind fun signal => ?_
      rcases signal with (_ | w) | w
      · exact ih v
      · exact ih w
      · rw [Node.span_unlined]
        exact mirrors_throw (.fault .returnOutside n.span)

end Ember
