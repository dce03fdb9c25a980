import Ember.Proofs.Budget
import Ember.Proofs.Variation

/-!
# Variation — the evaluator on programs that differ in some nodes

Each function of the evaluator is followed by itself, with one more unit of fuel, on nodes that
differ in a way in which programs may differ. For nodes that are congruent this follows from what is
said about their parts; for the others, which are what a way of differing is about, it has to be
known.

* `Variation.Simulates`: what is said about all functions of the evaluator at once.
* `Variation.Sound`: nodes that differ otherwise than in their parts do the same.
* `Variation.simulates`: with that, everything that runs is followed, whatever the fuel.
* `Variation.follows_runFrom`: so are whole programs.
-/

namespace Ember

open Node (Congruent)

namespace Variation

/-- With the given fuel, whatever runs on nodes is followed with one more unit of fuel by what runs
on nodes from which they may differ, function by function. -/
structure Simulates (V : Variation) (cfg : Settings) (k : Nat) : Prop where
  eval : ∀ {n n'} e, V.nodes .expression n n' →
    V.Follows Eq (eval cfg k n e) (eval cfg (k + 1) n' e)
  evalAll : ∀ {ns ns'} e, List.Forall₂ (V.nodes .expression) ns ns' →
    V.Follows Eq (evalAll cfg k ns e) (evalAll cfg (k + 1) ns' e)
  apply : ∀ f args, V.Follows Eq (applyFunction cfg k f args) (applyFunction cfg (k + 1) f args)
  exec : ∀ {n n'} e, V.nodes .statement n n' →
    V.Follows Eq (exec cfg k n e) (exec cfg (k + 1) n' e)
  inside : ∀ {b b'} e, V.nodes .block b b' →
    V.Follows Eq (execInside cfg k b e) (execInside cfg (k + 1) b' e)
  block : ∀ {b b'} e, V.nodes .block b b' →
    V.Follows Eq (execBlock cfg k b e) (execBlock cfg (k + 1) b' e)
  all : ∀ {ns ns'} signal e, List.Forall₂ (V.nodes .statement) ns ns' →
    V.Follows Eq (execAll cfg k ns signal e) (execAll cfg (k + 1) ns' signal e)
  loop : ∀ {c c' b b'} e, V.nodes .expression c c' → V.nodes .block b b' →
    V.Follows Eq (whileLoop cfg k c b e) (whileLoop cfg (k + 1) c' b' e)
  each : ∀ {b b'} x a i e, V.nodes .block b b' →
    V.Follows Eq (forLoop cfg k x b a i e) (forLoop cfg (k + 1) x b' a i e)

/-- Nodes that differ otherwise than in their parts do the same. -/
structure Sound (V : Variation) (cfg : Settings) : Prop where
  expression : ∀ {n n'}, V.nodes .expression n n' → Congruent V.nodes .expression n n' ∨
    ∀ k e, V.Simulates cfg k → V.Follows Eq (eval cfg (k + 1) n e) (eval cfg (k + 2) n' e)
  statement : ∀ {n n'}, V.nodes .statement n n' → Congruent V.nodes .statement n n'
  block : ∀ {n n'}, V.nodes .block n n' → Congruent V.nodes .block n n' ∨
    ∀ k e, V.Simulates cfg k →
      V.Follows Eq (execBlock cfg (k + 1) n e) (execBlock cfg (k + 2) n' e)
  branch : ∀ {n n'}, V.nodes .branch n n' → Congruent V.nodes .branch n n'

variable {V : Variation} {cfg : Settings} {k : Nat} {n n' b b' c c' : Node} {ns ns' : List Node}

namespace Simulates

/-- One more step of fuel for an expression, by the kind of the node. -/
theorem eval_succ (h : V.Simulates cfg k) (hn : Congruent V.nodes .expression n n') (e : Nat) :
    V.Follows Eq (Ember.eval cfg (k + 1) n e) (Ember.eval cfg (k + 2) n' e) := by
  cases hn with
  | @literal d kind s =>
      refine Follows.enter ?_ cfg _ _ s
      cases Value.ofDatum d with
      | int i => exact (follows_ofExcept _).then fun i => follows_pure rfl
      | _ => exact follows_pure rfl
  | @identifier name s =>
      refine Follows.enter (Follows.store fun st st' hst => ?_) cfg _ _ s
      rw [hst.lookup]
      exact follows_ofExcept _
  | @array es es' s hes =>
      exact ((h.evalAll e hes).then fun vs => follows_newArray _).enter cfg _ _ s
  | @binary op l l' r r' s hl hr =>
      refine Follows.enter ?_ cfg _ _ s
      cases hop : binaryOperator? op with
      | none => exact follows_fault _
      | some f =>
          refine (h.eval e hl).then fun x => (h.eval e hr).then fun y => ?_
          refine Follows.store fun st st' hst => ?_
          rw [binaryOperator?_congr hst.arrays hop]
          exact follows_ofExcept _
  | @logical op l l' r r' s hl hr =>
      refine Follows.enter ?_ cfg _ _ s
      cases decisive? op with
      | none => exact follows_fault _
      | some decisive =>
          refine (h.eval e hl).then fun x => (follows_ofExcept _).then fun b => ?_
          split
          · exact follows_pure rfl
          · refine (h.eval e hr).then fun y => (follows_ofExcept _).then fun _ => ?_
            exact follows_pure rfl
  | @unary op operand operand' s ho =>
      refine Follows.enter ?_ cfg _ _ s
      cases unaryOperator? op with
      | none => exact follows_fault _
      | some f => exact (h.eval e ho).then fun x => follows_ofExcept _
  | @index t t' i i' s ht hi =>
      refine Follows.enter ?_ cfg _ _ s
      refine (h.eval e ht).then fun t => (h.eval e hi).then fun i => ?_
      refine Follows.store fun st st' hst => ?_
      rw [resolveIndex_congr hst.arrays]
      exact (follows_ofExcept _).then fun p => follows_element p.1 p.2
  | @functionExpr name params b b' s hb =>
      have hfun : V.Functions ⟨none, params, b, e⟩ ⟨none, params, b', e⟩ := ⟨rfl, rfl, rfl, hb⟩
      exact (follows_newFunction hfun).enter cfg _ _ s
  | @call f f' args args' s hf hargs =>
      refine Follows.enter ((h.eval e hf).then fun f => ?_) cfg _ _ s
      cases f with
      | function _ | builtin _ _ => exact (h.evalAll e hargs).then fun vs => h.apply _ vs
      | _ => exact follows_fault _

/-- Expressions one after the other. -/
theorem evalAll_succ (h : V.Simulates cfg k) (hns : List.Forall₂ (V.nodes .expression) ns ns')
    (e : Nat) :
    V.Follows Eq (Ember.evalAll cfg (k + 1) ns e) (Ember.evalAll cfg (k + 2) ns' e) := by
  cases hns with
  | nil => exact follows_pure rfl
  | cons hn hns =>
      exact (h.eval e hn).then fun v => (h.evalAll e hns).then fun vs => follows_pure rfl

/-- A call, in which the bodies of the functions may vary. -/
theorem apply_succ (h : V.Simulates cfg k) (f : Value) (args : List Value) :
    V.Follows Eq (applyFunction cfg (k + 1) f args) (applyFunction cfg (k + 2) f args) := by
  cases f with
  | builtin b tag =>
      rw [applyFunction, applyFunction]
      split
      · exact Follows.check (follows_apply b args _)
      · exact follows_apply b args _
  | function address =>
      refine (follows_closure address).bind fun c c' hc => Follows.get fun m m' hm => ?_
      simp only [hm.stores.closureName, hm.depth, hc.params, hc.frame]
      refine Follows.check ?_
      refine Follows.check ?_
      refine (follows_newFrame c.frame).then fun frame => ?_
      refine (follows_bindParameters frame c.params args).then fun _ => ?_
      refine (follows_traceCall cfg _ args).then fun _ => ?_
      exact ((h.block frame hc.body).inCall _).then fun signal => follows_pure rfl
  | _ => exact follows_fault _

/-- What follows a condition that does not hold: a conditional runs in the same frame, a block in
one of its own. -/
theorem otherwise (h : V.Simulates cfg k) (hn : Congruent V.nodes .branch n n') (e : Nat) :
    V.Follows Eq
      (match some n with
        | none => return .normal none
        | some (.ifStmt c y n s) => Ember.exec cfg k (.ifStmt c y n s) e
        | some other => execInside cfg k other e)
      (match some n' with
        | none => return .normal none
        | some (.ifStmt c y n s) => Ember.exec cfg (k + 1) (.ifStmt c y n s) e
        | some other => execInside cfg (k + 1) other e) := by
  cases hn with
  | elseBlock hb => exact h.inside e hb
  | elseIf hif => exact h.exec e hif

/-- One more step of fuel for a statement, by the kind of the node. -/
theorem exec_succ (h : V.Simulates cfg k) (hV : V.Sound cfg)
    (hn : Congruent V.nodes .statement n n') (e : Nat) :
    V.Follows Eq (Ember.exec cfg (k + 1) n e) (Ember.exec cfg (k + 2) n' e) := by
  cases hn with
  | @functionDef name params b b' s hb =>
      have hfun : V.Functions ⟨some name, params, b, e⟩ ⟨some name, params, b', e⟩ :=
        ⟨rfl, rfl, rfl, hb⟩
      refine Follows.enter ((follows_newFunction hfun).then fun f => ?_) cfg _ _ s
      exact (follows_modifyFrames e _).then fun _ => follows_pure rfl
  | @letStmt name mutable x x' s hx =>
      refine Follows.enter ((h.eval e hx).then fun v => ?_) cfg _ _ s
      exact (follows_modifyFrames e _).then fun _ => follows_pure rfl
  | @assign name x x' s hx =>
      refine Follows.enter ((h.eval e hx).then fun v => ?_) cfg _ _ s
      refine Follows.store fun st st' hst => ?_
      rw [hst.assignable]
      refine (follows_ofExcept _).then fun g => ?_
      exact (follows_modifyFrames g _).then fun _ => follows_pure rfl
  | @indexAssign t t' i i' x x' s ht hi hx =>
      refine Follows.enter ?_ cfg _ _ s
      refine (h.eval e ht).then fun t => (h.eval e hi).then fun i => (h.eval e hx).then fun v => ?_
      refine Follows.store fun st st' hst => ?_
      rw [resolveIndex_congr hst.arrays]
      refine (follows_ofExcept _).then fun p => ?_
      exact (follows_replaceElement p.1 p.2 v).then fun _ => follows_pure rfl
  | @ifThen c c' y y' s hc hy =>
      refine Follows.enter ?_ cfg _ _ s
      refine (h.eval e hc).then fun v => (follows_ofExcept _).then fun holds => ?_
      cases holds with
      | true => exact h.inside e hy
      | false => exact follows_pure rfl
  | @ifElse c c' y y' no no' s hc hy hno =>
      refine Follows.enter ?_ cfg _ _ s
      refine (h.eval e hc).then fun v => (follows_ofExcept _).then fun holds => ?_
      cases holds with
      | true => exact h.inside e hy
      | false => exact h.otherwise (hV.branch hno) e
  | @whileStmt c c' b b' s hc hb => exact (h.loop e hc hb).enter cfg _ _ s
  | @forStmt x it it' b b' s hit hb =>
      refine Follows.enter ((h.eval e hit).then fun v => ?_) cfg _ _ s
      cases v with
      | array a => exact h.each x a 0 e hb
      | _ => exact follows_fault _
  | @bareReturn s => exact Follows.enter (follows_pure rfl) cfg _ _ s
  | @valueReturn x x' s hx =>
      exact ((h.eval e hx).then fun v => follows_pure rfl).enter cfg _ _ s
  | @exprStmt x x' s hx =>
      exact ((h.eval e hx).then fun v => follows_pure rfl).enter cfg _ _ s
  | @blockStmt ss ss' s hb => exact (h.inside e hb).enter cfg _ _ s

/-- The statements of a block. -/
theorem block_succ (h : V.Simulates cfg k) (hb : Congruent V.nodes .block b b') (e : Nat) :
    V.Follows Eq (execBlock cfg (k + 1) b e) (execBlock cfg (k + 2) b' e) := by
  cases hb with
  | block hss => exact h.all _ e hss

/-- Statements up to the first return. -/
theorem all_succ (h : V.Simulates cfg k) (hns : List.Forall₂ (V.nodes .statement) ns ns')
    (signal : Signal) (e : Nat) :
    V.Follows Eq (execAll cfg (k + 1) ns signal e) (execAll cfg (k + 2) ns' signal e) := by
  cases hns with
  | nil => exact follows_pure rfl
  | cons hn hns =>
      refine (h.exec e hn).then fun signal => ?_
      cases signal with
      | returned v => exact follows_pure rfl
      | normal v => exact h.all _ e hns

/-- A round of a loop with a condition, and the rounds after it. -/
theorem loop_succ (h : V.Simulates cfg k) (hc : V.nodes .expression c c')
    (hb : V.nodes .block b b') (e : Nat) :
    V.Follows Eq (whileLoop cfg (k + 1) c b e) (whileLoop cfg (k + 2) c' b' e) := by
  refine (h.eval e hc).then fun v => (follows_ofExcept _).then fun holds => ?_
  cases holds with
  | false => exact follows_pure rfl
  | true =>
      refine (h.inside e hb).then fun signal => ?_
      cases signal with
      | returned v => exact follows_pure rfl
      | normal v => exact h.loop e hc hb

/-- A round of a loop over an array, and the rounds after it. -/
theorem each_succ (h : V.Simulates cfg k) (hb : V.nodes .block b b') (x : String) (a i e : Nat) :
    V.Follows Eq (forLoop cfg (k + 1) x b a i e) (forLoop cfg (k + 2) x b' a i e) := by
  refine Follows.store fun s s' hs => ?_
  rw [hs.elements]
  cases (s.elements a)[i]? with
  | none => exact follows_pure rfl
  | some v =>
      refine (follows_newFrame e).then fun frame => (follows_modifyFrames frame _).then fun _ => ?_
      refine (h.block frame hb).then fun signal => ?_
      cases signal with
      | returned v => exact follows_pure rfl
      | normal v => exact h.each x a (i + 1) e hb

end Simulates

/-- **What runs is followed**, with one more unit of fuel, if nodes that differ otherwise than in
their parts do the same. -/
theorem simulates (hV : V.Sound cfg) (k : Nat) : V.Simulates cfg k := by
  induction k with
  | zero =>
      exact ⟨fun _ _ _ _ _ => .spent, fun _ _ _ _ _ => .spent, fun _ _ _ _ _ => .spent,
        fun _ _ _ _ _ => .spent, fun _ _ _ _ _ => .spent, fun _ _ _ _ _ => .spent,
        fun _ _ _ _ _ _ => .spent, fun _ _ _ _ _ _ => .spent, fun _ _ _ _ _ _ _ _ => .spent⟩
  | succ k ih =>
      exact {
        eval := fun e hn => (hV.expression hn).elim (ih.eval_succ · e) fun h => h k e ih
        evalAll := fun e hns => ih.evalAll_succ hns e
        apply := ih.apply_succ
        exec := fun e hn => ih.exec_succ hV (hV.statement hn) e
        inside := fun e hb => (follows_newFrame e).then fun frame => ih.block frame hb
        block := fun e hb => (hV.block hb).elim (ih.block_succ · e) fun h => h k e ih
        all := fun signal e hns => ih.all_succ hns signal e
        loop := fun e hc hb => ih.loop_succ hc hb e
        each := fun x a i e hb => ih.each_succ hb x a i e }

/-- Statements at the same place differ in their parts only. -/
theorem Sound.span (hV : V.Sound cfg) (h : V.nodes .statement n n') : n'.span = n.span := by
  cases hV.statement h <;> rfl

/-- The statements of a program, one after the other. -/
theorem follows_runFrom (hV : V.Sound cfg) (h : List.Forall₂ (V.nodes .statement) ns ns')
    (k : Nat) (v : Value) :
    V.Follows Eq (runFrom cfg k v ns) (runFrom cfg (k + 1) v ns') := by
  induction h generalizing v with
  | nil => exact follows_pure rfl
  | @cons n n' ns ns' hn _ ih =>
      refine ((simulates hV k).exec Store.root hn).then fun signal => ?_
      rcases signal with (_ | w) | w
      · exact ih v
      · exact ih w
      · rw [hV.span hn]
        exact fun _ _ hm => .halted (.fault _ (V.same _)) hm

end Variation

end Ember
