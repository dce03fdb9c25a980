import Ember.Proofs.Regime

/-!
# Regime — the evaluator keeps every regime

One lemma for each function of the evaluator says that its plan keeps a regime. From them it
follows, for every regime and every program, that each call starts and ends as the regime asks.

* `Regime.planned`: the plans of the evaluator keep every regime.
* `Regime.enters`: so do the calls that are made while the statements of a program run.
-/

namespace Ember

open Plan (act call)

variable {R : Regime} {cfg : Settings} {limit : Nat} {s : Store} {e : Nat}

namespace Regime

/-! ### Single computations -/

/-- What a signal carries is what comes out of the statements. -/
theorem Carries.result {signal : Signal} (h : R.Carries s signal) : R.Good s signal.result := by
  cases signal with
  | normal v => exact R.good_plain trivial
  | returned v => exact h

/-- A signal that carries nothing. -/
theorem carries_nothing : R.Carries s (.normal none) := fun _ hw => by cases hw

/-- A signal that carries the value of an expression. -/
theorem carries_value {v : Value} (h : R.Good s v) : R.Carries s (.normal (some v)) := by
  rintro w ⟨rfl⟩
  exact h

/-- What an operation gives is plain, and so it is good. -/
theorem holds_operates {x : Except Fault Value} (hs : R.Inv s) (h : Operates x) :
    R.Holds s (act (Run.ofExcept x)) R.Good :=
  holds_ofExcept hs fun v hv => R.good_plain (h.1 v hv)

theorem holds_decision (hs : R.Inv s) (what : String) (v : Value) :
    R.Holds s (act (Run.ofExcept (v.decision what))) fun s' _ => s' = s :=
  holds_ofExcept hs fun _ _ => rfl

/-- The value of a literal, an integer within its bounds. -/
theorem holds_literal (hs : R.Inv s) (d : Datum) :
    R.Holds s (act (match Value.ofDatum d with
      | .int i => do
        let i ← Run.ofExcept (confine i "integer literal")
        return .int i
      | v => return v)) R.Good := by
  cases d with
  | int i =>
      refine Holds.andThen (Q := fun s' j => R.Good s' (.int j))
        (holds_ofExcept hs fun j hj => R.good_plain (confine_eq_ok hj).2) fun s' j hs' _ hj => ?_
      exact holds_pure hs' hj
  | _ => exact holds_pure hs (R.good_plain trivial)

/-- The statements of a block may run in a new frame where the block may run. -/
theorem holds_newFrame {b : Node} (hs : R.Inv s) (hb : R.Fits s e b) :
    R.Holds s (act (Run.newFrame e)) fun s' x => R.Inner s' x b := by
  obtain ⟨hinv, hinner⟩ := R.addFrame hs hb
  exact holds_allocate hinv (Store.writes_addFrame s (some e)).toExtends hinner

/-- An array of good values is good. -/
theorem holds_newArray {vs : Array Value} (hs : R.Inv s) (hvs : ∀ v ∈ vs, R.Good s v) :
    R.Holds s (act (Run.newArray vs)) R.Good := by
  obtain ⟨hinv, hgood⟩ := R.addArray hs hvs
  refine Holds.andThen (Q := fun s' a => R.Good s' (.array a))
    (holds_allocate hinv (Store.writes_addArray s vs).toExtends hgood) fun s' a hs' _ ha => ?_
  exact holds_pure hs' ha

/-- A function is good if its body fits the frame in which it is made. -/
theorem holds_newFunction {c : Closure} (hs : R.Inv s) (hc : R.Fits s c.frame c.body) :
    R.Holds s (act (Run.newFunction c)) R.Good := by
  obtain ⟨hinv, hgood⟩ := R.addClosure hs hc
  refine Holds.andThen (Q := fun s' f => R.Good s' (.function f))
    (holds_allocate hinv (Store.writes_addClosure s c).toExtends hgood) fun s' f hs' _ hf => ?_
  exact holds_pure hs' hf

/-- A good value may be bound in any frame of the scope. -/
theorem holds_declare {n : String} {v : Value} {m : Bool} (hs : R.Inv s) (he : R.Scope s e)
    (hv : R.Good s v) :
    R.Holds s (act (Run.modifyStore (·.declare e n v m))) fun _ _ => True :=
  holds_modifyStore (R.declare hs he hv) (Store.writes_declare s e n v m).toExtends trivial

/-- The arguments are bound one after the other in the frame of the call. -/
theorem holds_bindParameters {b : Node} {params : List String} {args : List Value} (hs : R.Inv s)
    (he : R.Inner s e b) (hargs : ∀ v ∈ args, R.Good s v) :
    R.Holds s (act (bindParameters e params args)) fun s' _ => R.Inner s' e b := by
  unfold bindParameters
  induction params generalizing s args with
  | nil => exact holds_pure hs he
  | cons p params ih =>
      cases args with
      | nil => exact holds_pure hs he
      | cons v args =>
          refine Holds.andThen (holds_declare hs (R.inner_scope he) (hargs v List.mem_cons_self))
            fun s' _ hs' hext _ => ?_
          refine ih hs' (R.inner_mono hs hext he) fun w hw => ?_
          exact R.good_mono hext (hargs w (List.mem_cons_of_mem _ hw))

/-- A check that ends in a fault if it fails. -/
theorem holds_check {p : Prop} [Decidable p] {f : Fault} (hs : R.Inv s) :
    R.Holds s (act (if p then Run.fault f else pure ())) fun s' _ => s' = s := by
  split
  · exact holds_fault hs
  · exact holds_pure hs rfl

/-- What an index finds in a good array is good. -/
theorem holds_element {t i : Value} (hs : R.Inv s) (ht : R.Good s t) :
    R.Holds s (act do
      let (a, n) ← Run.ofExcept (resolveIndex (← Run.store) t i)
      Run.element a n) R.Good := by
  refine holds_store (Holds.andThen (Q := fun s' p => s' = s ∧ t = .array p.1)
    (holds_ofExcept hs fun p hp => ⟨rfl, (resolveIndex_eq_ok hp).1⟩) fun s' p _ _ hp => ?_)
  obtain ⟨rfl, rfl⟩ := hp
  refine holds_store ?_
  cases hv : (s'.elements p.1)[p.2]? with
  | none => exact holds_fault hs
  | some v => exact holds_pure hs (R.good_element hs ht (Array.mem_of_getElem? hv))

/-- A good value may take the place of an element. -/
theorem holds_replaceElement {t i v : Value} (hs : R.Inv s) (ht : R.Good s t) (hv : R.Good s v) :
    R.Holds s (act do
      let (a, n) ← Run.ofExcept (resolveIndex (← Run.store) t i)
      Run.replaceElement a n v
      return .normal none) R.Carries := by
  refine holds_store (Holds.andThen (Q := fun s' p => s' = s ∧ t = .array p.1)
    (holds_ofExcept hs fun p hp => ⟨rfl, (resolveIndex_eq_ok hp).1⟩) fun s' p _ _ hp => ?_)
  obtain ⟨rfl, rfl⟩ := hp
  have helement : R.Holds s' (act (Run.element p.1 p.2)) fun s'' _ => s'' = s' :=
    holds_store (by
      cases (s'.elements p.1)[p.2]? with
      | none => exact holds_fault hs
      | some v => exact holds_pure hs rfl)
  refine Holds.andThen (Q := fun _ _ => True) (helement.andThen fun s'' _ _ _ h => ?_)
    fun s'' _ hs'' _ _ => holds_pure hs'' carries_nothing
  subst h
  exact holds_modifyStore (R.setElement hs ht hv)
    (Store.writes_setElement _ _ _ v).toExtends trivial

/-! ### Built-in functions -/

theorem holds_show {x : Except Store.ShowFault String} (hs : R.Inv s) :
    R.Holds s (act (Run.ofShow x)) fun s' _ => s' = s := by
  rcases x with (_ | _) | t
  · exact holds_fault hs
  · exact holds_throw hs
  · exact holds_pure hs rfl

/-- Values are shown one after the other. -/
theorem holds_showAll {f : Value → Except Store.ShowFault String} (hs : R.Inv s)
    (args : List Value) :
    R.Holds s (act (args.mapM fun v => Run.ofShow (f v))) fun s' _ => s' = s := by
  induction args with
  | nil => exact holds_pure hs rfl
  | cons v args ih =>
      rw [List.mapM_cons]
      refine (holds_show hs).andThen fun s₁ t _ _ h₁ => ?_
      subst h₁
      refine ih.andThen fun s₂ ts _ _ h₂ => ?_
      subst h₂
      exact holds_pure hs rfl

theorem holds_traceCall (hs : R.Inv s) (cfg : Settings) (name : String) (args : List Value) :
    R.Holds s (act (traceCall cfg name args)) fun s' _ => s' = s := by
  unfold traceCall
  split
  · have hline : R.Holds s (act (showCall cfg.host.displayLimit name args)) fun s' _ => s' = s := by
      refine holds_store ((holds_showAll hs args).andThen fun s₁ shown _ _ h₁ => ?_)
      subst h₁
      exact holds_pure hs rfl
    refine hline.andThen fun s₁ line _ _ h₁ => ?_
    subst h₁
    exact holds_traceLine hs cfg _
  · exact holds_pure hs rfl

theorem holds_print {args : List Value} (hs : R.Inv s) :
    R.Holds s (act (Builtin.perform .print limit args)) R.Good := by
  refine holds_store ((holds_showAll hs args).andThen fun s₁ parts _ _ h₁ => ?_)
  subst h₁
  have hprint : R.Holds s₁ (act (Run.print (String.intercalate " " parts ++ "\n")))
      fun s' _ => s' = s₁ := holds_aside hs fun _ => rfl
  refine hprint.andThen fun s₂ _ hs₂ _ _ => ?_
  exact holds_pure hs₂ (R.good_plain trivial)

theorem holds_pop (limit : Nat) {a : Nat} (hs : R.Inv s) (ha : R.Good s (.array a)) :
    R.Holds s (act (Builtin.perform .pop limit [.array a])) R.Good := by
  refine holds_store ?_
  cases hv : (s.elements a).back? with
  | none => exact holds_fault hs
  | some v =>
      have hgood : R.Good s v := R.good_element hs ha (Array.mem_of_back? hv)
      have hext := (Store.writes_pop s a).toExtends
      refine Holds.andThen (Q := fun s' _ => R.Good s' v)
        (holds_modifyStore (R.pop hs ha) hext (R.good_mono hext hgood)) fun s' _ hs' _ hv' => ?_
      exact holds_pure hs' hv'

/-- A built-in function on arguments that it looks at without further checks. -/
theorem holds_perform {b : Builtin} {args : List Value} (hs : R.Inv s)
    (hargs : ∀ v ∈ args, R.Good s v)
    (hlen : ∀ v, b = .len → args = [v] → R.Measurable s v) :
    R.Holds s (act (b.perform limit args)) R.Good := by
  unfold Builtin.perform
  split
  · exact holds_print hs
  · rename_i a
    have hgood := hargs _ List.mem_cons_self
    exact holds_store (holds_pure hs (R.good_length hs hgood (hlen _ rfl rfl) rfl))
  · rename_i t
    have hgood := hargs _ List.mem_cons_self
    exact holds_pure hs (R.good_length hs hgood (hlen _ rfl rfl) rfl)
  · exact holds_fault hs
  · rename_i a v
    obtain ⟨ha, hv⟩ := List.forall_mem_cons.mp hargs
    have hpush := R.push hs ha (hv v List.mem_cons_self)
    refine Holds.andThen (Q := fun _ _ => True)
      (holds_modifyStore hpush (Store.writes_push s a v).toExtends trivial) fun s' _ hs' _ _ => ?_
    exact holds_pure hs' (R.good_plain trivial)
  · exact holds_pop limit hs (hargs _ List.mem_cons_self)
  · refine holds_store ((holds_show hs).andThen fun s' t hs' _ _ => ?_)
    exact holds_pure hs' (R.good_plain trivial)
  · exact holds_pure hs (R.good_plain trivial)
  · rename_i lo hi
    obtain ⟨hlo, hhi⟩ := List.forall_mem_cons.mp hargs
    refine holds_newArray hs fun v hv => ?_
    obtain ⟨k, rfl, hle, hlt⟩ := mem_intRange hv
    exact R.good_between hlo (hhi _ List.mem_cons_self) hle hlt
  · exact holds_fault hs

theorem holds_builtin (limit : Nat) {b : Builtin} {args : List Value} (hs : R.Inv s)
    (hargs : ∀ v ∈ args, R.Good s v)
    (hlen : ∀ v, b = .len → args = [v] → R.Measurable s v) :
    R.Holds s (act (b.apply args limit)) R.Good := by
  unfold Builtin.apply
  split
  · refine Holds.andThen (Q := fun s' _ => s' = s) (holds_ofExcept hs fun _ _ => rfl)
      fun s' _ _ _ hs' => ?_
    subst hs'
    exact holds_perform hs hargs hlen
  · exact holds_perform hs hargs hlen

/-! ### The plans -/

variable {α : Type}

/-- The code of a frame, after something has run. -/
theorem fits_all_mono {s' : Store} {ns : List Node} (hs : R.Inv s) (hext : s.Extends s')
    (h : ∀ n ∈ ns, R.Fits s e n) : ∀ n ∈ ns, R.Fits s' e n :=
  fun n hn => R.fits_mono hs hext (h n hn)

theorem holds_evalPlan {n : Node} (hs : R.Inv s) (hn : R.Fits s e n) :
    R.Holds s (Activity.evalPlan cfg n e) R.Good := by
  cases n with
  | literal d k span => exact holds_entered hs (holds_literal hs d)
  | identifier name span =>
      refine holds_entered hs (holds_store (holds_ofExcept hs fun v hv => ?_))
      exact R.good_lookup hs (R.fits_scope hn) hv
  | array es span =>
      have hes : ∀ n ∈ es, R.Fits s e n := fun n hmem => R.fits_part hn rfl hmem
      refine holds_entered hs
        ((holds_call (a := .evalAll es e) hs hes).bind fun s' vs hs' _ hvs => ?_)
      exact holds_newArray hs' fun v hv => hvs v (List.mem_toArray.mp hv)
  | binary op l r span =>
      have hl : R.Fits s e l := R.fits_part hn rfl List.mem_cons_self
      have hr : R.Fits s e r := R.fits_part hn rfl (List.mem_cons_of_mem _ List.mem_cons_self)
      refine holds_entered hs ?_
      cases hop : binaryOperator? op with
      | none => exact holds_fault hs
      | some f =>
          refine (holds_call (a := .eval l e) hs hl).bind fun s₁ x hs₁ hext₁ _ => ?_
          have hr₁ := R.fits_mono hs hext₁ hr
          refine (holds_call (a := .eval r e) hs₁ hr₁).bind fun s₂ y hs₂ _ _ => ?_
          exact holds_store (holds_operates hs₂ (binaryOperator?_operates hop s₂ x y))
  | logical op l r span =>
      have hl : R.Fits s e l := R.fits_part hn rfl List.mem_cons_self
      have hr : R.Fits s e r := R.fits_part hn rfl (List.mem_cons_of_mem _ List.mem_cons_self)
      refine holds_entered hs ?_
      cases hop : decisive? op with
      | none => exact holds_fault hs
      | some d =>
          refine (holds_call (a := .eval l e) hs hl).bind fun s₁ x hs₁ hext₁ hx => ?_
          refine (holds_decision hs₁ _ x).bind fun s₂ b _ _ hs₂ => ?_
          subst hs₂
          -- the right operand is left alone where the left one decides
          split
          · exact holds_return hs₁ hx
          · have hr₁ := R.fits_mono hs hext₁ hr
            refine (holds_call (a := .eval r e) hs₁ hr₁).bind fun s₃ y hs₃ _ hy => ?_
            refine (holds_decision hs₃ _ y).bind fun s₄ _ _ _ hs₄ => ?_
            subst hs₄
            exact holds_return hs₃ hy
  | unary op operand span =>
      have hx : R.Fits s e operand := R.fits_part hn rfl List.mem_cons_self
      refine holds_entered hs ?_
      cases hop : unaryOperator? op with
      | none => exact holds_fault hs
      | some f =>
          refine (holds_call (a := .eval operand e) hs hx).bind fun s' x hs' _ _ => ?_
          exact holds_operates hs' (unaryOperator?_operates hop x)
  | index target i span =>
      have ht : R.Fits s e target := R.fits_part hn rfl List.mem_cons_self
      have hi : R.Fits s e i := R.fits_part hn rfl (List.mem_cons_of_mem _ List.mem_cons_self)
      refine holds_entered hs ?_
      refine (holds_call (a := .eval target e) hs ht).bind fun s₁ t hs₁ hext₁ hgood => ?_
      have hi₁ := R.fits_mono hs hext₁ hi
      refine (holds_call (a := .eval i e) hs₁ hi₁).bind fun s₂ v hs₂ hext₂ _ => ?_
      exact holds_element hs₂ (R.good_mono hext₂ hgood)
  | functionExpr name params body span =>
      exact holds_entered hs (holds_newFunction hs (R.fits_part hn rfl List.mem_cons_self))
  | call callee args span =>
      have hc : R.Fits s e callee := R.fits_part hn rfl List.mem_cons_self
      have hargs : ∀ n ∈ args, R.Fits s e n := fun n hmem =>
        R.fits_part hn rfl (List.mem_cons_of_mem _ hmem)
      refine holds_entered hs ?_
      refine (holds_call (a := .eval callee e) hs hc).bind fun s₁ f hs₁ hext₁ hf => ?_
      have happly : R.Holds s₁ (do
          let vs ← call (.evalAll args e)
          call (.apply f vs)) R.Good := by
        have hargs₁ := fits_all_mono hs hext₁ hargs
        refine (holds_call (a := .evalAll args e) hs₁ hargs₁).bind fun s₂ vs hs₂ hext₂ hvs => ?_
        exact holds_call (a := .apply f vs) hs₂ ⟨R.good_mono hext₂ hf, hvs⟩
      cases f with
      | function _ | builtin _ _ => exact happly
      | _ => exact holds_fault hs₁
  | partialExpr type field span => exact holds_entered hs (holds_throw hs)
  | _ => exact holds_throw hs

theorem holds_applyPlan {f : Value} {args : List Value} (hs : R.Inv s) (hf : R.Good s f)
    (hargs : ∀ v ∈ args, R.Good s v)
    (hlen : ∀ tag v, f = .builtin .len tag → args = [v] → R.Measurable s v) :
    R.Holds s (Activity.applyPlan cfg f args) R.Good := by
  cases f with
  | builtin b tag =>
      have happly := holds_builtin cfg.host.displayLimit (b := b) hs hargs
        fun v hb hv => hlen tag v (by rw [hb]) hv
      unfold Activity.applyPlan
      dsimp only
      split
      · split
        · exact Holds.andThen (Q := fun _ _ => False) (holds_fault hs) fun _ _ _ _ h => h.elim
        · exact happly
      · exact happly
  | function address =>
      refine Holds.bind (Q := fun s' c => s' = s ∧ s.closure? address = some c) ?_
        fun s' c _ _ hc => ?_
      · refine holds_store ?_
        cases hc : s.closure? address with
        | none => exact holds_fault hs
        | some c => exact holds_pure hs ⟨rfl, rfl⟩
      obtain ⟨rfl, hc⟩ := hc
      refine Holds.bind (Q := fun s'' _ => s'' = s') (holds_aside hs fun _ => rfl)
        fun s'' m _ _ h => ?_
      subst h
      refine (holds_check hs).bind fun s₁ _ _ _ h => ?_
      subst h
      refine (holds_check hs).bind fun s₂ _ _ _ h => ?_
      subst h
      -- the body runs in a frame of its own, inside the frame of the definition
      obtain ⟨hinv, hinner⟩ := R.addCall hs hf hc
      refine Holds.bind (Q := fun s₃ x => R.Inner s₃ x c.body)
        (holds_allocate hinv (Store.writes_addFrame _ _).toExtends hinner)
        fun s₃ x hs₃ hext₃ hx => ?_
      refine (holds_bindParameters hs₃ hx fun v hv => R.good_mono hext₃ (hargs v hv)).bind
        fun s₄ _ hs₄ _ hx₄ => ?_
      refine (holds_traceCall hs₄ cfg _ args).bind fun s₅ _ _ _ h => ?_
      subst h
      refine (holds_inCall _ (holds_call (a := .block c.body x) hs₄ hx₄)).bind
        fun s₆ signal hs₆ _ hsignal => ?_
      exact holds_return hs₆ (Carries.result hsignal)
  | _ => exact holds_fault hs

/-- Expressions one after the other, where what the first ones gave stays good. -/
theorem holds_evalAllPlan {ns : List Node} (hs : R.Inv s) (hns : ∀ n ∈ ns, R.Fits s e n) :
    R.Holds s (Activity.evalAllPlan ns e) fun s' vs => ∀ v ∈ vs, R.Good s' v := by
  cases ns with
  | nil => exact holds_return hs fun _ hv => absurd hv List.not_mem_nil
  | cons n ns =>
      obtain ⟨hn, hns⟩ := List.forall_mem_cons.mp hns
      refine (holds_call (a := .eval n e) hs hn).bind fun s₁ v hs₁ hext₁ hv => ?_
      have hns₁ := fits_all_mono hs hext₁ hns
      refine (holds_call (a := .evalAll ns e) hs₁ hns₁).bind fun s₂ vs hs₂ hext₂ hvs => ?_
      exact holds_return hs₂ (List.forall_mem_cons.mpr ⟨R.good_mono hext₂ hv, hvs⟩)

/-- A block in a new frame. -/
theorem holds_inside {b : Node} (hs : R.Inv s) (hb : R.Fits s e b) :
    R.Holds s (call (.inside b e)) R.Carries := holds_call (a := .inside b e) hs hb

/-- What follows a condition that does not hold. -/
theorem holds_otherwise {no : Option Node} (hs : R.Inv s) (h : ∀ n ∈ no, R.Fits s e n) :
    R.Holds s (match no with
      | none => pure (.normal none)
      | some (.ifStmt c y n s) => call (.exec (.ifStmt c y n s) e)
      | some other => call (.inside other e)) R.Carries := by
  split
  · exact holds_return hs carries_nothing
  · exact holds_call (a := .exec _ e) hs (h _ rfl)
  · exact holds_inside hs (h _ rfl)

/-- A statement, by the kind of the node. -/
theorem holds_execPlan {n : Node} (hs : R.Inv s) (hn : R.Fits s e n) :
    R.Holds s (Activity.execPlan cfg n e) R.Carries := by
  cases n with
  | exprStmt expr span =>
      have hx : R.Fits s e expr := R.fits_part hn rfl List.mem_cons_self
      refine holds_entered hs ((holds_call (a := .eval expr e) hs hx).bind fun s' v hs' _ hv => ?_)
      exact holds_return hs' (carries_value hv)
  | letStmt name mutable init span =>
      have hx : R.Fits s e init := R.fits_part hn rfl List.mem_cons_self
      refine holds_entered hs ?_
      refine (holds_call (a := .eval init e) hs hx).bind fun s' v hs' hext hv => ?_
      have hscope := R.fits_scope (R.fits_mono hs hext hn)
      refine (holds_declare hs' hscope hv).bind fun s'' _ hs'' _ _ => ?_
      exact holds_return hs'' carries_nothing
  | assign name value span =>
      have hx : R.Fits s e value := R.fits_part hn rfl List.mem_cons_self
      refine holds_entered hs ?_
      refine (holds_call (a := .eval value e) hs hx).bind fun s' v hs' hext hv => ?_
      have hscope := R.fits_scope (R.fits_mono hs hext hn)
      refine Holds.bind (Q := fun s'' g => s'' = s' ∧ s'.assignable e name = .ok g)
        (holds_store (holds_ofExcept hs' fun g hg => ⟨rfl, hg⟩)) fun s'' g _ _ hg => ?_
      obtain ⟨rfl, hg⟩ := hg
      refine Holds.bind (Q := fun _ _ => True) (holds_modifyStore (R.update hs' hscope hv hg)
        (Store.writes_update _ g name v).toExtends trivial) fun s₃ _ hs₃ _ _ => ?_
      exact holds_return hs₃ carries_nothing
  | indexAssign target index value span =>
      have ht : R.Fits s e target := R.fits_part hn rfl List.mem_cons_self
      have hi : R.Fits s e index := R.fits_part hn rfl (by simp [Node.parts, Node.children])
      have hx : R.Fits s e value := R.fits_part hn rfl (by simp [Node.parts, Node.children])
      refine holds_entered hs ?_
      refine (holds_call (a := .eval target e) hs ht).bind fun s₁ t hs₁ hext₁ hgt => ?_
      have hi₁ := R.fits_mono hs hext₁ hi
      refine (holds_call (a := .eval index e) hs₁ hi₁).bind fun s₂ i hs₂ hext₂ _ => ?_
      have hx₂ := R.fits_mono hs₁ hext₂ (R.fits_mono hs hext₁ hx)
      refine (holds_call (a := .eval value e) hs₂ hx₂).bind fun s₃ v hs₃ hext₃ hv => ?_
      exact holds_replaceElement hs₃ (R.good_mono hext₃ (R.good_mono hext₂ hgt)) hv
  | functionDef name params body span =>
      have hb : R.Fits s e body := R.fits_part hn rfl List.mem_cons_self
      refine holds_entered hs ((holds_newFunction hs hb).andThen fun s' f hs' hext hf => ?_)
      have hscope := R.fits_scope (R.fits_mono hs hext hn)
      refine (holds_declare hs' hscope hf).andThen fun s'' _ hs'' _ _ => ?_
      exact holds_pure hs'' carries_nothing
  | ifStmt condition yes no span =>
      have hc : R.Fits s e condition := R.fits_part hn rfl List.mem_cons_self
      have hy : R.Fits s e yes := R.fits_part hn rfl (List.mem_cons_of_mem _ List.mem_cons_self)
      have hno : ∀ n ∈ no, R.Fits s e n := fun n hmem =>
        R.fits_part hn rfl (by simp [Node.parts, Node.children, Option.mem_def.mp hmem])
      refine holds_entered hs ?_
      refine (holds_call (a := .eval condition e) hs hc).bind fun s₁ c hs₁ hext₁ _ => ?_
      refine (holds_decision hs₁ _ c).bind fun s₂ b _ _ hs₂ => ?_
      subst hs₂
      split
      · exact holds_inside hs₁ (R.fits_mono hs hext₁ hy)
      · exact holds_otherwise hs₁ fun n hmem => R.fits_mono hs hext₁ (hno n hmem)
  | whileStmt condition body span =>
      have hc : R.Fits s e condition := R.fits_part hn rfl List.mem_cons_self
      have hb : R.Fits s e body := R.fits_part hn rfl (List.mem_cons_of_mem _ List.mem_cons_self)
      exact holds_entered hs (holds_call (a := .loop condition body e) hs ⟨hc, hb⟩)
  | forStmt var iterable body span =>
      have hi : R.Fits s e iterable := R.fits_part hn rfl List.mem_cons_self
      have hb : R.Fits s e body := R.fits_part hn rfl (List.mem_cons_of_mem _ List.mem_cons_self)
      refine holds_entered hs ?_
      refine (holds_call (a := .eval iterable e) hs hi).bind fun s₁ v hs₁ hext₁ hv => ?_
      have hb₁ := R.fits_mono hs hext₁ hb
      cases v with
      | array a => exact holds_call (a := .each var body a 0 e) hs₁ ⟨hb₁, hv⟩
      | _ => exact holds_fault hs₁
  | returnStmt value span =>
      cases value with
      | none => exact holds_entered hs (holds_return hs (R.good_plain trivial))
      | some value =>
          have hx : R.Fits s e value := R.fits_part hn rfl List.mem_cons_self
          refine holds_entered hs ((holds_call (a := .eval value e) hs hx).bind
            fun s' v hs' _ hv => ?_)
          exact holds_return hs' hv
  | block ss span => exact holds_entered hs (holds_inside hs hn)
  | partialStmt type field first span =>
      have hfirst : ∀ n ∈ first, R.Fits s e n := fun n hmem => R.fits_part hn rfl hmem
      refine holds_entered hs ((holds_call (a := .evalAll first e) hs hfirst).bind
        fun s' _ hs' _ _ => ?_)
      exact holds_throw hs'
  | _ => exact holds_throw hs

/-- Statements up to the first return. -/
theorem holds_allPlan {ns : List Node} {signal : Signal} (hs : R.Inv s)
    (hns : ∀ n ∈ ns, R.Fits s e n) (hsignal : R.Carries s signal) :
    R.Holds s (Activity.allPlan ns signal e) R.Carries := by
  cases ns with
  | nil => exact holds_return hs hsignal
  | cons n ns =>
      obtain ⟨hn, hns⟩ := List.forall_mem_cons.mp hns
      refine (holds_call (a := .exec n e) hs hn).bind fun s' signal' hs' hext hsignal' => ?_
      cases signal' with
      | returned v => exact holds_return hs' hsignal'
      | normal v =>
          exact holds_call (a := .all ns (.normal v) e) hs' ⟨fits_all_mono hs hext hns, hsignal'⟩

/-- A round of a loop with a condition, and the rounds after it. -/
theorem holds_loopPlan {c b : Node} (hs : R.Inv s) (hc : R.Fits s e c) (hb : R.Fits s e b) :
    R.Holds s (Activity.loopPlan c b e) R.Carries := by
  refine (holds_call (a := .eval c e) hs hc).bind fun s₁ v hs₁ hext₁ _ => ?_
  refine (holds_decision hs₁ _ v).bind fun s₂ b _ _ hs₂ => ?_
  subst hs₂
  split
  · refine (holds_inside hs₁ (R.fits_mono hs hext₁ hb)).bind fun s₃ signal hs₃ hext₃ hsignal => ?_
    have hext := hext₁.trans hext₃
    cases signal with
    | returned v => exact holds_return hs₃ hsignal
    | normal v =>
        exact holds_call (a := .loop _ _ e) hs₃ ⟨R.fits_mono hs hext hc, R.fits_mono hs hext hb⟩
  · exact holds_return hs₁ carries_nothing

/-- A round of a loop over an array, and the rounds after it. -/
theorem holds_eachPlan {x : String} {b : Node} {a i : Nat} (hs : R.Inv s) (hb : R.Fits s e b)
    (ha : R.Good s (.array a)) : R.Holds s (Activity.eachPlan x b a i e) R.Carries := by
  refine Holds.bind (Q := fun s' σ => s' = s ∧ σ = s) (fun m hm => ?_) fun s' σ _ _ h => ?_
  · subst hm
    exact ⟨.refl _, hs, rfl, rfl⟩
  obtain ⟨rfl, rfl⟩ := h
  cases hv : (σ.elements a)[i]? with
  | none =>
      simp only
      exact holds_return hs carries_nothing
  | some v =>
      simp only
      have hgood := R.good_element hs ha (Array.mem_of_getElem? hv)
      refine (holds_newFrame hs hb).bind fun s₁ frame hs₁ hext₁ hframe => ?_
      refine (holds_declare hs₁ (R.inner_scope hframe) (R.good_mono hext₁ hgood)).bind
        fun s₂ _ hs₂ hext₂ _ => ?_
      have hframe₂ := R.inner_mono hs₁ hext₂ hframe
      refine (holds_call (a := .block b frame) hs₂ hframe₂).bind fun s₃ signal hs₃ hext₃ hsig => ?_
      have hext := hext₁.trans (hext₂.trans hext₃)
      cases signal with
      | returned v => exact holds_return hs₃ hsig
      | normal v =>
          exact holds_call (a := .each x b a (i + 1) e) hs₃
            ⟨R.fits_mono hs hext hb, R.good_mono hext ha⟩

/-- The statements of a block, in the frame that was made for them. -/
theorem holds_blockPlan {b : Node} (hs : R.Inv s) (hb : R.Inner s e b) :
    R.Holds s (Activity.blockPlan b e) R.Carries := by
  cases b with
  | block ss span =>
      refine holds_call (a := .all ss (.normal none) e) hs ⟨fun n hn => ?_, carries_nothing⟩
      exact R.fits_statement hb hn
  | _ => exact holds_throw hs

/-- A block in a frame of its own. -/
theorem holds_insidePlan {b : Node} (hs : R.Inv s) (hb : R.Fits s e b) :
    R.Holds s (Activity.plan cfg (.inside b e)) R.Carries := by
  refine (holds_newFrame hs hb).bind fun s' frame hs' _ hframe => ?_
  exact holds_call (a := .block b frame) hs' hframe

/-- **The plans of the evaluator keep every regime.** -/
theorem planned (R : Regime) (cfg : Settings) : R.contract.Planned cfg R.Assumes where
  plan := by
    rintro ⟨fuel, a, m⟩ hA ⟨hs, ha⟩
    cases a with
    | eval n e => exact holds_evalPlan hs ha m rfl
    | evalAll ns e => exact holds_evalAllPlan hs ha m rfl
    | apply f args =>
        refine holds_applyPlan hs ha.1 ha.2 (fun tag v hf hargs => hA tag v ?_) m rfl
        rw [hf, hargs]
    | exec n e => exact holds_execPlan hs ha m rfl
    | inside b e => exact holds_insidePlan hs ha m rfl
    | block b e => exact holds_blockPlan hs ha m rfl
    | all ns signal e => exact holds_allPlan hs ha.1 ha.2 m rfl
    | loop c b e => exact holds_loopPlan hs ha.1 ha.2 m rfl
    | each x b a i e => exact holds_eachPlan hs ha.1 ha.2 m rfl
  stuck _ h := ⟨.refl _, h.1⟩

/-! ### Programs -/

/-- How a program may end: with a good value, or early, and with the invariant in any case. -/
def Concludes (R : Regime) (s : Store) : Except Halt Value × Machine → Prop :=
  Run.Ended (fun v m => s.Extends m.store ∧ R.Inv m.store ∧ R.Good m.store v)
    (fun m => s.Extends m.store ∧ R.Inv m.store)

/-- **Every call that a program makes starts and ends as the regime asks**, and so does the
program. -/
theorem enters {fuel : Nat} {ns : List Node} {m : Machine} {v : Value} (hs : R.Inv m.store)
    (hns : ∀ n ∈ ns, R.Fits m.store Store.root n) (hv : R.Good m.store v)
    (hA : ∀ x, Enters cfg fuel ns m x → R.Assumes x) :
    (∀ x, Enters cfg fuel ns m x → R.contract.Kept cfg x) ∧
      R.Concludes m.store ((runFrom cfg fuel v ns).run.run m) := by
  induction ns generalizing m v with
  | nil => exact ⟨fun _ hx => hx.elim, .refl _, hs, hv⟩
  | cons n ns ih =>
      obtain ⟨hn, hns⟩ := List.forall_mem_cons.mp hns
      have hfirst := Contract.keeps (R.planned cfg) (x := ⟨fuel, .exec n Store.root, m⟩)
        (fun y hy => hA y (.inl hy)) ⟨hs, hn⟩
      have hends := (hfirst _ .refl).2
      -- what comes after a statement starts in the machine that it leaves
      have hlater : ∀ w m', (exec cfg fuel n Store.root).run.run m = (.ok (.normal w), m') →
          ∀ u, R.Good m'.store u → (∀ x, Enters cfg fuel ns m' x → R.contract.Kept cfg x) ∧
            R.Concludes m.store ((runFrom cfg fuel u ns).run.run m') := by
        intro w m' hw u hu
        obtain ⟨hext, hs', -⟩ : m.store.Extends m'.store ∧ R.Inv m'.store ∧ _ := by
          change Run.Ended _ _ ((exec cfg fuel n Store.root).run.run m) at hends
          rw [hw] at hends
          exact hends
        obtain ⟨hkept, hconcludes⟩ := ih hs' (fits_all_mono hs hext hns) hu
          fun x hx => hA x (.inr ⟨w, m', hw, hx⟩)
        exact ⟨hkept, hconcludes.mono (fun _ _ h => ⟨hext.trans h.1, h.2⟩)
          fun _ h => ⟨hext.trans h.1, h.2⟩⟩
      refine ⟨?_, ?_⟩
      · rintro x (hx | ⟨w, m', hw, hx⟩)
        · exact hfirst x hx
        · exact (hlater w m' hw .unit (R.good_plain trivial)).1 x hx
      · rw [runFrom, Run.run_bind]
        change Run.Ended _ _ ((exec cfg fuel n Store.root).run.run m) at hends
        generalize (exec cfg fuel n Store.root).run.run m = out at hends hlater
        rcases out with ⟨_ | signal, m'⟩
        · exact hends
        · obtain ⟨hext, hs', hsignal⟩ := hends
          cases signal with
          | returned w => exact ⟨hext, hs'⟩
          | normal w =>
              cases w with
              | none => exact (hlater none m' rfl v (R.good_mono hext hv)).2
              | some w => exact (hlater _ m' rfl w (hsignal w rfl)).2

end Regime

/-- **A regime that goes on with the programs of a session holds between them.** -/
theorem History.inv {A : Moment → Prop} {ps : List Node} {m : Machine}
    (R : List Node → Regime) (hfresh : (R []).Inv .fresh)
    (hgrow : ∀ {ps s} (ns : List Node), (R ps).Inv s → (R (ps ++ ns)).Inv s)
    (hroot : ∀ {ps s n}, (R ps).Inv s → n ∈ ps → (R ps).Fits s Store.root n)
    (hA : ∀ ps x, A x → (R ps).Assumes x) (h : History cfg A ps m) : (R ps).Inv m.store := by
  induction h with
  | fresh => exact hfresh
  | @program ns ps m fuel _ hns ih =>
      have hs : (R (ps ++ ns)).Inv m.cleared.store := hgrow ns ih
      have hfits : ∀ n ∈ ns, (R (ps ++ ns)).Fits m.cleared.store Store.root n := fun n hn =>
        hroot hs (List.mem_append_right _ hn)
      have hends := (Regime.enters hs hfits ((R _).good_plain (v := .unit) trivial)
        fun x hx => hA _ x (hns x hx)).2
      rw [runProgram]
      generalize (runFrom cfg fuel .unit ns).run.run m.cleared = out at hends
      rcases out with ⟨_ | _, m'⟩
      · exact hends.2
      · exact hends.2.1

end Ember
