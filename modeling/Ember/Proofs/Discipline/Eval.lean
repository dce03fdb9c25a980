import Ember.Proofs.Discipline.Operation

/-!
# Discipline — the evaluator keeps every discipline

One step lemma for each of the mutually recursive functions of the evaluator, and from them, by
induction on the fuel, that running keeps a discipline whatever the program is and however the run
ends.

* `Discipline.Sound`: what running with some fuel keeps, function by function.
* `Discipline.sound`: running keeps every discipline.
* `Discipline.holds_runProgram`: so does running a program from the top.
-/

namespace Ember.Discipline

variable {D : Discipline} {cfg : Settings} {fuel : Nat} {s : Store} {e : Nat} {inF : Bool}

/-! ### What is kept, function by function -/

/-- How a statement may have ended: with good values, and with a return only inside a function. -/
def Ended (D : Discipline) (inF : Bool) (s : Store) : Signal → Prop
  | .normal v => ∀ w ∈ v, D.Good s w
  | .returned v => D.Good s v ∧ (D.strict → inF = true)

/-- What running with some fuel keeps. -/
structure Sound (D : Discipline) (cfg : Settings) (fuel : Nat) : Prop where
  eval : ∀ {s n e}, D.Inv s → D.Scope s e → D.Fits .expression n →
    D.Holds s (eval cfg fuel n e) D.Good
  evalAll : ∀ {s ns e}, D.Inv s → D.Scope s e → (∀ n ∈ ns, D.Fits .expression n) →
    D.Holds s (evalAll cfg fuel ns e) fun s' vs => ∀ v ∈ vs, D.Good s' v
  applyFunction : ∀ {s f args}, D.Inv s → D.Good s f → (∀ v ∈ args, D.Good s v) →
    D.Holds s (applyFunction cfg fuel f args) D.Good
  exec : ∀ {s n e inF}, D.Inv s → D.Scope s e → (∀ x ∈ n.declared?, D.Local s e x) →
    D.Fits (.statement inF) n → D.Holds s (exec cfg fuel n e) (D.Ended inF)
  execInside : ∀ {s n e inF}, D.Inv s → D.Scope s e → D.Fits (.block inF) n →
    D.Holds s (execInside cfg fuel n e) (D.Ended inF)
  execBlock : ∀ {s n e inF}, D.Inv s → D.Scope s e → (∀ x, D.Local s e x) → D.Fits (.block inF) n →
    D.Holds s (execBlock cfg fuel n e) (D.Ended inF)
  execAll : ∀ {s ns sig e inF}, D.Inv s → D.Scope s e → (∀ x, D.Local s e x) →
    (∀ n ∈ ns, D.Fits (.statement inF) n) → D.Ended inF s sig →
    D.Holds s (execAll cfg fuel ns sig e) (D.Ended inF)
  whileLoop : ∀ {s c b e inF}, D.Inv s → D.Scope s e → D.Fits .expression c →
    D.Fits (.block inF) b → D.Holds s (whileLoop cfg fuel c b e) (D.Ended inF)
  forLoop : ∀ {s v b a i e inF}, D.Inv s → D.Scope s e → D.Good s (.array a) →
    D.Fits (.block inF) b → D.Holds s (forLoop cfg fuel v b a i e) (D.Ended inF)

/-- Whatever comes out of statements is good. -/
theorem Ended.result {sig : Signal} (h : D.Ended inF s sig) : D.Good s sig.result := by
  cases sig with
  | normal v => exact D.good_plain trivial
  | returned v => exact h.1

/-- Nothing comes of a statement. -/
theorem ended_nothing : D.Ended inF s (.normal none) := fun _ hw => by cases hw

/-- Entering a node leaves a trace and places its faults. -/
theorem holds_enter {α : Type} {r : Run α} {Q : Store → α → Prop} (hs : D.Inv s)
    (line : Machine → String) (span : Option Span) (h : D.Holds s r Q) :
    D.Holds s (do Run.traceLine cfg line; Run.locate span r) Q := by
  refine (holds_traceLine hs cfg line).bind fun s' _ _ _ hs' => ?_
  subst hs'
  exact holds_locate span h

/-! ### One step of each function -/

/-- One more step of fuel for an expression, by the kind of the node. -/
theorem eval_succ (h : Sound D cfg fuel) {n : Node} (hs : D.Inv s) (he : D.Scope s e)
    (hn : D.Fits .expression n) : D.Holds s (eval cfg (fuel + 1) n e) D.Good := by
  cases n with
  | literal d k span =>
      rw [eval]
      refine holds_enter hs _ _ ?_
      cases d with
      | int i =>
          refine Holds.bind (Q := fun s' i => D.Good s' (.int i))
            (holds_ofExcept hs (fun j hj => ?_) fun f hf _ => ?_) fun s' j hs' _ hj => ?_
          · exact D.good_plain (confine_eq_ok hj).2
          · rw [confine_eq_error hf]
            exact Fault.expected_iff.mpr (by simp [Fault.kind])
          · exact holds_pure hs' hj
      | null | bool _ | float _ | str _ | list _ | record _ =>
          exact holds_pure hs (D.good_plain trivial)
  | identifier name span =>
      rw [eval]
      refine holds_enter hs _ _ (holds_store ?_)
      exact holds_ofExcept hs (fun v hv => D.good_lookup hs he hv) fun f hf _ => lookup_expected hf
  | array es span =>
      rw [eval]
      refine holds_enter hs _ _ ?_
      have hes : ∀ n ∈ es, D.Fits .expression n := fun n hmem hstrict => by
        cases hn hstrict with | array hes => exact hes n hmem
      refine (h.evalAll hs he hes).bind fun s' vs hs' _ hvs => ?_
      exact holds_newArray hs' fun v hv => hvs v (List.mem_toArray.mp hv)
  | binary op l r span =>
      rw [eval]
      refine holds_enter hs _ _ ?_
      cases hop : binaryOperator? op with
      | none =>
          refine holds_fault hs fun hstrict => ?_
          cases hn hstrict with | binary hop' => simp [hop] at hop'
      | some f =>
          have hl : D.Fits .expression l := hn.of fun hf => by cases hf; assumption
          have hr : D.Fits .expression r := hn.of fun hf => by cases hf; assumption
          refine (h.eval hs he hl).bind fun s₁ x hs₁ hext₁ _ => ?_
          refine (h.eval hs₁ (D.scope_mono hext₁ he) hr).bind fun s₂ y hs₂ _ _ => ?_
          exact holds_store (holds_operates hs₂ (binaryOperator?_operates hop s₂ x y))
  | logical op l r span =>
      rw [eval]
      refine holds_enter hs _ _ ?_
      cases hop : decisive? op with
      | none =>
          refine holds_fault hs fun hstrict => ?_
          cases hn hstrict with | logical hop' => simp [hop] at hop'
      | some d =>
          have hl : D.Fits .expression l := hn.of fun hf => by cases hf; assumption
          have hr : D.Fits .expression r := hn.of fun hf => by cases hf; assumption
          refine (h.eval hs he hl).bind fun s₁ x hs₁ hext₁ hx => ?_
          refine (holds_decision hs₁ _ x).bind fun s₂ b _ _ hs₂ => ?_
          subst hs₂
          -- the right operand is left alone where the left one decides
          by_cases hb : b = d
          · rw [if_pos hb]
            exact holds_pure hs₁ hx
          · rw [if_neg hb]
            refine (h.eval hs₁ (D.scope_mono hext₁ he) hr).bind fun s₃ y hs₃ _ hy => ?_
            refine (holds_decision hs₃ _ y).bind fun s₄ _ _ _ hs₄ => ?_
            subst hs₄
            exact holds_pure hs₃ hy
  | unary op operand span =>
      rw [eval]
      refine holds_enter hs _ _ ?_
      cases hop : unaryOperator? op with
      | none =>
          refine holds_fault hs fun hstrict => ?_
          cases hn hstrict with | unary hop' => simp [hop] at hop'
      | some f =>
          have hx : D.Fits .expression operand := hn.of fun hf => by cases hf; assumption
          refine (h.eval hs he hx).bind fun s' x hs' _ _ => ?_
          exact holds_operates hs' (unaryOperator?_operates hop x)
  | call callee args span =>
      rw [eval]
      refine holds_enter hs _ _ ?_
      have hc : D.Fits .expression callee := hn.of fun hf => by cases hf; assumption
      have hargs : ∀ n ∈ args, D.Fits .expression n := fun n hmem hstrict => by
        cases hn hstrict with | call _ hargs => exact hargs n hmem
      refine (h.eval hs he hc).bind fun s₁ f hs₁ hext₁ hf => ?_
      -- what cannot be called is found out before the arguments are evaluated
      have happly : D.Holds s₁ (do applyFunction cfg fuel f (← evalAll cfg fuel args e))
          D.Good := by
        refine (h.evalAll hs₁ (D.scope_mono hext₁ he) hargs).bind fun s₂ vs hs₂ hext₂ hvs => ?_
        exact h.applyFunction hs₂ (D.good_mono hext₂ hf) hvs
      cases f with
      | function _ | builtin _ _ => exact happly
      | unit | bool _ | int _ | float _ | str _ | array _ | «foreign» _ _ | bare _ =>
          exact holds_fault hs₁ fun _ => Fault.expected_iff.mpr (by simp [Fault.kind])
  | index target i span =>
      rw [eval]
      refine holds_enter hs _ _ ?_
      have ht : D.Fits .expression target := hn.of fun hf => by cases hf; assumption
      have hi : D.Fits .expression i := hn.of fun hf => by cases hf; assumption
      refine (h.eval hs he ht).bind fun s₁ t hs₁ hext₁ hgood => ?_
      refine (h.eval hs₁ (D.scope_mono hext₁ he) hi).bind fun s₂ v hs₂ hext₂ _ => ?_
      refine holds_store ((holds_resolveIndex hs₂).bind fun s₃ p _ _ hp => ?_)
      obtain ⟨rfl, rfl, hlt⟩ := hp
      exact (holds_element hs₂ (D.good_mono hext₂ hgood) hlt).mono fun s' v _ hv => hv.1 ▸ hv.2
  | functionExpr name params body span =>
      rw [eval]
      refine holds_enter hs _ _ ?_
      exact holds_newFunction hs he (hn.of fun hf => by cases hf; assumption)
  | partialExpr type field span =>
      rw [eval]
      exact holds_enter hs _ _ (holds_throw hs (not_fits hn fun hf => by cases hf))
  | stray d =>
      rw [eval]
      exact holds_throw hs (not_fits hn fun hf => by cases hf)
  | functionDef _ _ _ _ | letStmt _ _ _ _ | assign _ _ _ | indexAssign _ _ _ _ | ifStmt _ _ _ _
  | whileStmt _ _ _ | forStmt _ _ _ _ | returnStmt _ _ | block _ _ | exprStmt _ _ | unknown _ _
  | absent _ _ _ | partialStmt _ _ _ _ =>
      exact holds_throw hs (not_fits hn fun hf => by cases hf)

/-- A call: a function runs its body in a new frame, a builtin does its own work. -/
theorem applyFunction_succ (h : Sound D cfg fuel) {f : Value} {args : List Value} (hs : D.Inv s)
    (hf : D.Good s f) (hargs : ∀ v ∈ args, D.Good s v) :
    D.Holds s (applyFunction cfg (fuel + 1) f args) D.Good := by
  cases f with
  | builtin b tag =>
      rw [applyFunction]
      split
      · refine holds_check hs (Fault.expected_iff.mpr ?_) (holds_builtin hs hargs)
        simp [Fault.kind]
      · exact holds_builtin hs hargs
  | function address =>
      rw [applyFunction]
      refine (holds_closure hs hf).bind fun s' c _ _ hc => ?_
      obtain ⟨rfl, hscope, hbody⟩ := hc
      refine holds_get fun m _ => ?_
      refine holds_check hs (Fault.expected_iff.mpr (by simp [Fault.kind])) ?_
      refine holds_check hs (Fault.expected_iff.mpr (by simp [Fault.kind])) ?_
      -- the body runs in a frame of its own, below the frame of the definition
      refine (holds_newFrame hs hscope).bind fun s₁ x hs₁ hext₁ hx => ?_
      refine (holds_bindParameters hs₁ hx.2 fun v hv => D.good_mono hext₁ (hargs v hv)).bind
        fun s₂ _ hs₂ hext₂ _ => ?_
      refine (holds_traceCall hs₂ cfg _ args).bind fun s₃ _ hs₃ hext₃ _ => ?_
      have hext := hext₂.trans hext₃
      refine (holds_inCall _ (h.execBlock hs₃ (D.scope_mono hext hx.1) (fun y =>
        D.local_mono hext (hx.2 y)) hbody)).bind fun s₄ sig hs₄ _ hsig => ?_
      exact holds_pure hs₄ hsig.result
  | unit | bool _ | int _ | float _ | str _ | array _ | «foreign» _ _ | bare _ =>
      exact holds_fault hs fun _ => Fault.expected_iff.mpr (by simp [Fault.kind])

/-- Expressions one after the other, where what the first ones gave stays good. -/
theorem evalAll_succ (h : Sound D cfg fuel) {ns : List Node} (hs : D.Inv s) (he : D.Scope s e)
    (hns : ∀ n ∈ ns, D.Fits .expression n) :
    D.Holds s (evalAll cfg (fuel + 1) ns e) fun s' vs => ∀ v ∈ vs, D.Good s' v := by
  cases ns with
  | nil => exact holds_pure hs fun v hv => absurd hv (by simp)
  | cons n ns =>
      rw [evalAll]
      refine (h.eval hs he (hns n List.mem_cons_self)).bind fun s₁ v hs₁ hext₁ hv => ?_
      refine (h.evalAll hs₁ (D.scope_mono hext₁ he)
        fun x hx => hns x (List.mem_cons_of_mem _ hx)).bind fun s₂ vs hs₂ hext₂ hvs => ?_
      refine holds_pure hs₂ fun w hw => ?_
      rcases List.mem_cons.mp hw with rfl | hw
      · exact D.good_mono hext₂ hv
      · exact hvs w hw

/-- Statements in a frame of their own, in which no name is bound yet. -/
theorem execInside_succ (h : Sound D cfg fuel) {n : Node} (hs : D.Inv s) (he : D.Scope s e)
    (hn : D.Fits (.block inF) n) :
    D.Holds s (execInside cfg (fuel + 1) n e) (D.Ended inF) := by
  rw [execInside]
  refine (holds_newFrame hs he).bind fun s' x hs' _ hx => ?_
  exact h.execBlock hs' hx.1 hx.2 hn

/-- A block runs its statements in the frame it is given. -/
theorem execBlock_succ (h : Sound D cfg fuel) {n : Node} (hs : D.Inv s) (he : D.Scope s e)
    (hl : ∀ x, D.Local s e x) (hn : D.Fits (.block inF) n) :
    D.Holds s (execBlock cfg (fuel + 1) n e) (D.Ended inF) := by
  cases n with
  | block ss span =>
      rw [execBlock]
      refine h.execAll hs he hl (fun n hmem hstrict => ?_) ended_nothing
      cases hn hstrict with | block hss => exact hss n hmem
  | literal _ _ _ | identifier _ _ | array _ _ | binary _ _ _ _ | logical _ _ _ _ | unary _ _ _
  | call _ _ _ | index _ _ _ | functionExpr _ _ _ _ | functionDef _ _ _ _ | letStmt _ _ _ _
  | assign _ _ _ | indexAssign _ _ _ _ | ifStmt _ _ _ _ | whileStmt _ _ _ | forStmt _ _ _ _
  | returnStmt _ _ | exprStmt _ _ | stray _ | unknown _ _ | absent _ _ _ | partialExpr _ _ _
  | partialStmt _ _ _ _ =>
      exact holds_throw hs (not_fits hn fun hf => by cases hf)

/-- Statements up to the first return. -/
theorem execAll_succ (h : Sound D cfg fuel) {ns : List Node} {sig : Signal} (hs : D.Inv s)
    (he : D.Scope s e) (hl : ∀ x, D.Local s e x) (hns : ∀ n ∈ ns, D.Fits (.statement inF) n)
    (hsig : D.Ended inF s sig) :
    D.Holds s (execAll cfg (fuel + 1) ns sig e) (D.Ended inF) := by
  cases ns with
  | nil => exact holds_pure hs hsig
  | cons n ns =>
      rw [execAll]
      refine (h.exec hs he (fun x _ => hl x) (hns n List.mem_cons_self)).bind
        fun s' sig' hs' hext hsig' => ?_
      cases sig' with
      | returned v => exact holds_pure hs' hsig'
      | normal v =>
          exact h.execAll hs' (D.scope_mono hext he) (fun x => D.local_mono hext (hl x))
            (fun x hx => hns x (List.mem_cons_of_mem _ hx)) hsig'

/-- A round of a loop with a condition, and the rounds after it. -/
theorem whileLoop_succ (h : Sound D cfg fuel) {c b : Node} (hs : D.Inv s) (he : D.Scope s e)
    (hc : D.Fits .expression c) (hb : D.Fits (.block inF) b) :
    D.Holds s (whileLoop cfg (fuel + 1) c b e) (D.Ended inF) := by
  rw [whileLoop]
  refine (h.eval hs he hc).bind fun s₁ v hs₁ hext₁ _ => ?_
  refine (holds_decision hs₁ _ v).bind fun s₂ holds _ _ hs₂ => ?_
  subst hs₂
  have he₁ : D.Scope s₂ e := D.scope_mono hext₁ he
  cases holds with
  | false => exact holds_pure hs₁ ended_nothing
  | true =>
      refine (h.execInside hs₁ he₁ hb).bind fun s₃ sig hs₃ hext₃ hsig => ?_
      cases sig with
      | returned v => exact holds_pure hs₃ hsig
      | normal v => exact h.whileLoop hs₃ (D.scope_mono hext₃ he₁) hc hb

/-- A round of a loop over an array, which may have changed since the last one. -/
theorem forLoop_succ (h : Sound D cfg fuel) {var : String} {b : Node} {a i : Nat} (hs : D.Inv s)
    (he : D.Scope s e) (ha : D.Good s (.array a)) (hb : D.Fits (.block inF) b) :
    D.Holds s (forLoop cfg (fuel + 1) var b a i e) (D.Ended inF) := by
  rw [forLoop]
  refine holds_store ?_
  cases hv : (s.elements a)[i]? with
  | none => exact holds_pure hs ended_nothing
  | some v =>
      have hgood : D.Good s v := D.good_element hs ha (Array.mem_of_getElem? hv)
      refine (holds_newFrame hs he).bind fun s₁ x hs₁ hext₁ hx => ?_
      refine (holds_declare hs₁ (hx.2 var) (D.good_mono hext₁ hgood)).bind
        fun s₂ _ hs₂ hext₂ _ => ?_
      refine (h.execBlock hs₂ (D.scope_mono hext₂ hx.1)
        (fun y => D.local_mono hext₂ (hx.2 y)) hb).bind fun s₃ sig hs₃ hext₃ hsig => ?_
      have hext : s.Extends s₃ := hext₁.trans (hext₂.trans hext₃)
      cases sig with
      | returned v => exact holds_pure hs₃ hsig
      | normal v => exact h.forLoop hs₃ (D.scope_mono hext he) (D.good_mono hext ha) hb

/-- A branch is run inside a new frame, unless it is a conditional of its own. -/
theorem holds_branch (h : Sound D cfg fuel) {n : Node} (hs : D.Inv s) (he : D.Scope s e)
    (hn : D.Fits (.branch inF) n) :
    D.Holds s (match n with
      | .ifStmt c y n s => exec cfg fuel (.ifStmt c y n s) e
      | other => execInside cfg fuel other e) (D.Ended inF) := by
  split
  · refine h.exec hs he (fun x hx => by cases hx) fun hstrict => ?_
    cases hn hstrict with | elseIf hif => exact hif
  · refine h.execInside hs he fun hstrict => ?_
    cases hn hstrict with
    | elseBlock hss => exact .block hss
    | elseIf hif => rename_i hne; exact (hne _ _ _ _ rfl).elim

/-- One more step of fuel for a statement, by the kind of the node. -/
theorem exec_succ (h : Sound D cfg fuel) {n : Node} (hs : D.Inv s) (he : D.Scope s e)
    (hl : ∀ x ∈ n.declared?, D.Local s e x) (hn : D.Fits (.statement inF) n) :
    D.Holds s (exec cfg (fuel + 1) n e) (D.Ended inF) := by
  cases n with
  | exprStmt x span =>
      rw [exec]
      refine holds_enter hs _ _ ?_
      have hx : D.Fits .expression x := hn.of fun hf => by cases hf; assumption
      refine (h.eval hs he hx).bind fun s' v hs' _ hv => ?_
      exact holds_pure hs' fun w hw => by cases hw; exact hv
  | letStmt name mutable init span =>
      rw [exec]
      refine holds_enter hs _ _ ?_
      have hl : D.Local s e name := hl name rfl
      have hi : D.Fits .expression init := hn.of fun hf => by cases hf; assumption
      refine (h.eval hs he hi).bind fun s' v hs' hext hv => ?_
      refine (holds_declare hs' (D.local_mono hext hl) hv).bind fun s₂ _ hs₂ _ _ => ?_
      exact holds_pure hs₂ ended_nothing
  | assign name value span =>
      rw [exec]
      refine holds_enter hs _ _ ?_
      have hvalue : D.Fits .expression value := hn.of fun hf => by cases hf; assumption
      refine (h.eval hs he hvalue).bind fun s' v hs' hext hv => ?_
      refine holds_store (Holds.bind (Q := fun s₂ g => s₂ = s' ∧ s'.assignable e name = .ok g)
        (holds_ofExcept hs' (fun g hg => ⟨rfl, hg⟩) fun f hf _ => assignable_expected hf)
        fun s₂ g _ _ hg => ?_)
      obtain ⟨rfl, hg⟩ := hg
      refine Holds.bind (Q := fun _ _ => True) (holds_modifyStore
        (D.update hs' (D.scope_mono hext he) hv hg) (Store.writes_update s₂ g name v).toExtends
        trivial) fun s₃ _ hs₃ _ _ => ?_
      exact holds_pure hs₃ ended_nothing
  | indexAssign target i value span =>
      rw [exec]
      refine holds_enter hs _ _ ?_
      have ht : D.Fits .expression target := hn.of fun hf => by cases hf; assumption
      have hi : D.Fits .expression i := hn.of fun hf => by cases hf; assumption
      have hvalue : D.Fits .expression value := hn.of fun hf => by cases hf; assumption
      refine (h.eval hs he ht).bind fun s₁ t hs₁ hext₁ hgood => ?_
      refine (h.eval hs₁ (D.scope_mono hext₁ he) hi).bind fun s₂ w hs₂ hext₂ _ => ?_
      refine (h.eval hs₂ (D.scope_mono (hext₁.trans hext₂) he) hvalue).bind
        fun s₃ v hs₃ hext₃ hv => ?_
      refine holds_store ((holds_resolveIndex hs₃).bind fun s₄ p _ _ hp => ?_)
      obtain ⟨rfl, rfl, hlt⟩ := hp
      refine (holds_replaceElement hs₃ (D.good_mono (hext₂.trans hext₃) hgood) hlt hv).bind
        fun s₅ _ hs₅ _ _ => ?_
      exact holds_pure hs₅ ended_nothing
  | functionDef name params body span =>
      rw [exec]
      refine holds_enter hs _ _ ?_
      have hl : D.Local s e name := hl name rfl
      have hb : D.Fits (.block true) body := hn.of fun hf => by cases hf; assumption
      refine (holds_newFunction hs he hb).bind fun s' f hs' hext hf => ?_
      refine (holds_declare hs' (D.local_mono hext hl) hf).bind fun s₂ _ hs₂ _ _ => ?_
      exact holds_pure hs₂ ended_nothing
  | ifStmt c yes no span =>
      unfold exec
      refine holds_enter hs _ _ ?_
      have hc : D.Fits .expression c := hn.of fun hf => by cases hf <;> assumption
      have hyes : D.Fits (.block inF) yes := hn.of fun hf => by cases hf <;> assumption
      refine (h.eval hs he hc).bind fun s₁ v hs₁ hext₁ _ => ?_
      refine (holds_decision hs₁ _ v).bind fun s₂ holds _ _ hs₂ => ?_
      subst hs₂
      have he₁ : D.Scope s₂ e := D.scope_mono hext₁ he
      cases holds with
      | true => exact h.execInside hs₁ he₁ hyes
      | false =>
          cases no with
          | none => exact holds_pure hs₁ ended_nothing
          | some other =>
              have hother : D.Fits (.branch inF) other := hn.of fun hf => by cases hf; assumption
              have hbranch := holds_branch h hs₁ he₁ hother
              cases other <;> exact hbranch
  | whileStmt c body span =>
      rw [exec]
      refine holds_enter hs _ _ (h.whileLoop hs he ?_ ?_)
      · exact hn.of fun hf => by cases hf; assumption
      · exact hn.of fun hf => by cases hf; assumption
  | forStmt var iterable body span =>
      rw [exec]
      refine holds_enter hs _ _ ?_
      have hi : D.Fits .expression iterable := hn.of fun hf => by cases hf; assumption
      have hb : D.Fits (.block inF) body := hn.of fun hf => by cases hf; assumption
      refine (h.eval hs he hi).bind fun s' v hs' hext hv => ?_
      cases v with
      | array a => exact h.forLoop hs' (D.scope_mono hext he) hv hb
      | unit | bool _ | int _ | float _ | str _ | function _ | builtin _ _ | «foreign» _ _
      | bare _ =>
          exact holds_fault hs' fun _ => Fault.expected_iff.mpr (by simp [Fault.kind])
  | returnStmt value span =>
      have hin : D.strict → inF = true := fun hstrict => by cases hn hstrict <;> rfl
      cases value with
      | none =>
          rw [exec]
          exact holds_enter hs _ _ (holds_pure hs ⟨D.good_plain trivial, hin⟩)
      | some value =>
          rw [exec]
          refine holds_enter hs _ _ ?_
          have hvalue : D.Fits .expression value := hn.of fun hf => by cases hf; assumption
          refine (h.eval hs he hvalue).bind fun s' v hs' _ hv => ?_
          exact holds_pure hs' ⟨hv, hin⟩
  | block ss span =>
      rw [exec]
      refine holds_enter hs _ _ (h.execInside hs he fun hstrict => ?_)
      cases hn hstrict with | blockStmt hss => exact .block hss
  | partialStmt type field first span =>
      rw [exec]
      refine holds_enter hs _ _ ?_
      refine (h.evalAll hs he fun n _ hstrict => by cases hn hstrict).bind
        fun s' _ hs' _ _ => ?_
      exact holds_throw hs' (not_fits hn fun hf => by cases hf)
  | literal _ _ _ | identifier _ _ | array _ _ | binary _ _ _ _ | logical _ _ _ _ | unary _ _ _
  | call _ _ _ | index _ _ _ | functionExpr _ _ _ _ | stray _ | unknown _ _ | absent _ _ _
  | partialExpr _ _ _ =>
      exact holds_throw hs (not_fits hn fun hf => by cases hf)

/-! ### Whole runs -/

/-- **Running keeps every discipline**, with any fuel. -/
theorem sound (D : Discipline) (cfg : Settings) (fuel : Nat) : D.Sound cfg fuel := by
  induction fuel with
  -- without fuel every function gives up, and no discipline forbids that
  | zero => constructor <;> intros <;> exact holds_throw (by assumption) fun _ => trivial
  | succ fuel ih =>
      exact {
        eval := eval_succ ih
        evalAll := evalAll_succ ih
        applyFunction := applyFunction_succ ih
        exec := exec_succ ih
        execInside := execInside_succ ih
        execBlock := execBlock_succ ih
        execAll := execAll_succ ih
        whileLoop := whileLoop_succ ih
        forLoop := forLoop_succ ih }

/-- Running statements from the top of a program. A return cannot get there if the statements are
well-formed. -/
theorem holds_runFrom {ns : List Node} {v : Value} (hs : D.Inv s) (he : D.Scope s Store.root)
    (hl : ∀ x, D.Local s Store.root x) (hns : ∀ n ∈ ns, D.Fits (.statement false) n)
    (hv : D.Good s v) :
    D.Holds s (runFrom cfg fuel v ns) D.Good := by
  induction ns generalizing s v with
  | nil => exact holds_pure hs hv
  | cons n ns ih =>
      have hrest : ∀ n ∈ ns, D.Fits (.statement false) n :=
        fun x hx => hns x (List.mem_cons_of_mem _ hx)
      rw [runFrom]
      refine ((D.sound cfg fuel).exec hs he (fun x _ => hl x) (hns n List.mem_cons_self)).bind
        fun s' sig hs' hext hsig => ?_
      have he' := D.scope_mono hext he
      have hl' := fun x => D.local_mono hext (hl x)
      -- a statement without a value leaves the value of the one before it
      rcases sig with (_ | w) | w
      · exact ih hs' he' hl' hrest (D.good_mono hext hv)
      · exact ih hs' he' hl' hrest (hsig w rfl)
      · exact holds_throw hs' fun hstrict => absurd (hsig.2 hstrict) (by decide)

/-- Running a program keeps every discipline. -/
theorem holds_runProgram {ns : List Node} (hs : D.Inv s) (he : D.Scope s Store.root)
    (hl : ∀ x, D.Local s Store.root x) (hns : ∀ n ∈ ns, D.Fits (.statement false) n) :
    D.Holds s (runProgram cfg fuel ns) D.Good :=
  holds_runFrom hs he hl hns (D.good_plain trivial)

end Ember.Discipline
