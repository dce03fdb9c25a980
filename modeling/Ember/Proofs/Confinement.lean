import Ember.Proofs.Regime.Eval

/-!
# Confinement — integers have 64 bits, always

Integers enter a run through literals, arithmetic, lengths and ranges, and are then handed on by
frames, arrays, arguments and signals. None of them ever leaves the 64-bit range, in no state of any
session, as long as no length is taken that lies outside of it. And arithmetic is exact: where the
result is in the range, that is the result, and elsewhere the operation overflows.

* `arithmetic_exact`, `negate_exact`: what the operations give.
* `Store.Bounded`: the integers of a store are in the range.
* `integers_confined`: every state of a session is bounded.
-/

namespace Ember

/-! ### Exact arithmetic -/

/-- The integer has 64 bits. -/
def InRange (i : Int) : Prop := intMin ≤ i ∧ i ≤ intMax

instance (i : Int) : Decidable (InRange i) := inferInstanceAs (Decidable (_ ∧ _))

/-- What the operator of a symbol gives on integers without bounds; a quotient is rounded toward
zero, and the remainder goes with it. -/
def exactOperator? : String → Option (Int → Int → Int)
  | "+" => some (· + ·)
  | "-" => some (· - ·)
  | "*" => some (· * ·)
  | "/" => some Int.tdiv
  | "%" => some Int.tmod
  | _ => none

/-- The integer if it is in the range, and otherwise an overflow. -/
def exactly (i : Int) (op : String) : Except Fault Value :=
  if InRange i then .ok (.int i) else .error (.overflow op)

/-- The check of a result in range is the one of the interpreter. -/
theorem confine_map (i : Int) (op : String) : (confine i op).map Value.int = exactly i op := by
  by_cases h : intMin ≤ i ∧ i ≤ intMax
  · rw [confine, if_pos h]
    exact (if_pos h).symm
  · rw [confine, if_neg h]
    exact (if_neg h).symm

/-- Arithmetic of integers gives the exact result or an overflow, save division by zero. -/
theorem Arithmetic.ints_exact (op : Arithmetic) {x y : Int} (hy : op.divides = true → y ≠ 0) :
    op.ints x y = exactly (op.onInts x y) op.name := by
  have hcheck : (op.divides && y == 0) = false := by
    cases hop : op.divides with
    | false => rfl
    | true => simp [hy hop]
  rw [← confine_map, Arithmetic.ints, hcheck]
  rfl

/-- **Arithmetic on integers is exact**, or overflows. -/
theorem arithmetic_exact {symbol : String} {f : Int → Int → Int}
    (hf : exactOperator? symbol = some f) {x y : Int}
    (hy : symbol = "/" ∨ symbol = "%" → y ≠ 0) :
    ∃ op name, binaryOperator? symbol = some op ∧
      ∀ s, op s (.int x) (.int y) = exactly (f x y) name := by
  unfold exactOperator? at hf
  split at hf <;> cases hf
  · exact ⟨_, _, rfl, fun _ => Arithmetic.ints_exact .add nofun⟩
  · exact ⟨_, _, rfl, fun _ => Arithmetic.ints_exact .sub nofun⟩
  · exact ⟨_, _, rfl, fun _ => Arithmetic.ints_exact .mul nofun⟩
  · exact ⟨_, _, rfl, fun _ => Arithmetic.ints_exact .div fun _ => hy (by decide)⟩
  · refine ⟨_, Arithmetic.mod.name, rfl, fun _ => ?_⟩
    rw [Int.tmod_def]
    exact Arithmetic.ints_exact .mod fun _ => hy (by decide)

/-- **The opposite of an integer is exact**, or overflows. -/
theorem negate_exact (x : Int) :
    ∃ op name, unaryOperator? "-" = some op ∧ op (.int x) = exactly (-x) name :=
  ⟨_, _, rfl, confine_map (-x) "negate"⟩

/-! ### Bounded stores -/

namespace Value

/-- If the value is an integer, it has 64 bits. -/
def Bounded (v : Value) : Prop := ∀ i, v = .int i → InRange i

/-- The integers among the plain values have 64 bits. -/
theorem Plain.bounded {v : Value} (h : v.Plain) : v.Bounded := by
  rintro i rfl
  exact h

end Value

/-- The integers of bindings and of array elements have 64 bits. -/
structure Store.Bounded (s : Store) : Prop where
  bindings : ∀ e f, s.frame? e = some f → ∀ b ∈ f.bindings, b.value.Bounded
  elements : ∀ a vs, s.array? a = some vs → ∀ v ∈ vs, v.Bounded

namespace Store.Bounded

variable {s : Store}

/-- The store at the start of a session holds no integer. -/
theorem fresh : Store.fresh.Bounded where
  bindings e f hf b hb := by
    have hf' : f ∈ Store.fresh.frames := Array.mem_of_getElem? hf
    have hbuiltin : ∀ f ∈ Store.fresh.frames, ∀ b ∈ f.bindings, ∃ c, b.value = .builtin c 0 := by
      simp [Store.fresh]
    obtain ⟨c, hc⟩ := hbuiltin f hf' b hb
    rw [hc]
    exact nofun
  elements a vs hvs := by simp [array?, Store.fresh] at hvs

/-- Integers stay in range when a frame gets bindings that are old or hold values in range. -/
theorem modifyFrame {e : Nat} {g : Frame → Frame} (h : s.Bounded)
    (hg : ∀ f, ∀ b ∈ (g f).bindings, b ∈ f.bindings ∨ b.value.Bounded) :
    ({ s with frames := s.frames.modify e g } : Store).Bounded := by
  refine ⟨fun x f hf b hb => ?_, h.elements⟩
  rw [frame?_modify] at hf
  by_cases hx : e = x
  · rw [if_pos hx] at hf
    obtain ⟨f', hf', rfl⟩ := Option.map_eq_some_iff.mp hf
    rcases hg f' b hb with hb | hb
    · exact h.bindings x f' hf' b hb
    · exact hb
  · rw [if_neg hx] at hf
    exact h.bindings x f hf b hb

/-- Integers stay in range when an array gets elements that are old or in range. -/
theorem modifyArray {a : Nat} {g : Array Value → Array Value} (h : s.Bounded)
    (hg : ∀ vs, ∀ v ∈ g vs, v ∈ vs ∨ v.Bounded) :
    ({ s with arrays := s.arrays.modify a g } : Store).Bounded := by
  refine ⟨h.bindings, fun x vs hvs v hv => ?_⟩
  rw [array?_modify] at hvs
  by_cases hx : a = x
  · rw [if_pos hx] at hvs
    obtain ⟨vs', hvs', rfl⟩ := Option.map_eq_some_iff.mp hvs
    rcases hg vs' v hv with hv | hv
    · exact h.elements x vs' hvs' v hv
    · exact hv
  · rw [if_neg hx] at hvs
    exact h.elements x vs hvs v hv

theorem addFrame (h : s.Bounded) (p : Option Nat) : (s.addFrame p).1.Bounded := by
  refine ⟨fun x f hf b hb => ?_, h.elements⟩
  rw [frame?_addFrame] at hf
  split at hf
  · cases hf
    exact absurd hb List.not_mem_nil
  · exact h.bindings x f hf b hb

theorem addArray {vs : Array Value} (h : s.Bounded) (hvs : ∀ v ∈ vs, v.Bounded) :
    (s.addArray vs).1.Bounded := by
  refine ⟨h.bindings, fun x ws hws v hv => ?_⟩
  rw [array?_addArray] at hws
  split at hws
  · cases hws
    exact hvs v hv
  · exact h.elements x ws hws v hv

end Store.Bounded

/-- **The regime of confined integers.** The lengths that are taken have to be in the range. -/
def Regime.confinement : Regime where
  Inv := Store.Bounded
  Good _ v := v.Bounded
  Scope _ _ := True
  Fits _ _ _ := True
  Inner _ _ _ := True
  Measurable s v := ∀ k : Nat, s.length? v = some k → (k : Int) ≤ intMax
  good_mono _ h := h
  fits_mono _ _ _ := trivial
  inner_mono _ _ _ := trivial
  fits_scope _ := trivial
  inner_scope _ := trivial
  fits_part _ _ _ := trivial
  fits_statement _ _ := trivial
  good_plain h := h.bounded
  good_between := by
    rintro _ lo hi i hlo hhi hle hlt _ ⟨⟩
    exact ⟨Int.le_trans (hlo lo rfl).1 hle, Int.le_trans (Int.le_of_lt hlt) (hhi hi rfl).2⟩
  good_length := by
    rintro _ _ k _ _ hm hk _ ⟨⟩
    refine ⟨?_, hm k hk⟩
    rw [intMin]
    omega
  good_lookup := by
    intro s e n v hs _ hv
    obtain ⟨g, f, b, -, hf, hb, rfl⟩ := Store.binding_of_lookup hv
    exact hs.bindings g f hf b hb
  good_element := by
    intro s a v hs _ hv
    exact hs.elements a _ (Store.array?_of_mem hv) v hv
  addFrame hs _ := ⟨hs.addFrame _, trivial⟩
  addCall hs _ _ := ⟨hs.addFrame _, trivial⟩
  addArray hs hvs := ⟨hs.addArray hvs, nofun⟩
  addClosure hs _ := ⟨⟨hs.bindings, hs.elements⟩, nofun⟩
  declare := by
    intro s e n v m hs _ hv
    refine hs.modifyFrame fun f b hb => ?_
    rcases Store.mem_declareIn hb with hb | rfl
    · exact .inl hb
    · exact .inr hv
  update := by
    intro s e n v g hs _ hv _
    refine hs.modifyFrame fun f b hb => ?_
    rcases Store.mem_updateIn hb with hb | rfl
    · exact .inl hb
    · exact .inr hv
  push := by
    intro s a v hs _ hv
    refine hs.modifyArray fun vs w hw => ?_
    rcases Array.mem_push.mp hw with hw | rfl
    · exact .inl hw
    · exact .inr hv
  pop := by
    intro s a hs _
    exact hs.modifyArray fun vs w hw => .inl (Store.mem_of_mem_pop hw)
  setElement := by
    intro s a i v hs _ hv
    refine hs.modifyArray fun vs w hw => ?_
    rcases Array.mem_or_eq_of_mem_setIfInBounds hw with hw | rfl
    · exact .inl hw
    · exact .inr hv

/-! ### Sessions -/

/-- The value of a signal, if there is one, is bounded. -/
def Signal.Bounded : Signal → Prop
  | .normal v => ∀ w ∈ v, w.Bounded
  | .returned v => v.Bounded

namespace Activity

/-- The arguments and the signal that are handed to an activity are bounded. -/
def Bounded : Activity → Prop
  | apply f args => f.Bounded ∧ ∀ v ∈ args, v.Bounded
  | all _ signal _ => signal.Bounded
  | _ => True

/-- The result of an activity is bounded, be it a value, several values or a signal. -/
def Yields : (a : Activity) → a.Result → Prop
  | eval .., v | apply .., v => v.Bounded
  | evalAll .., vs => ∀ v ∈ vs, v.Bounded
  | exec .., signal | inside .., signal | block .., signal | all .., signal | loop .., signal
  | each .., signal => signal.Bounded

end Activity

/-- A length that is taken at this moment has 64 bits. -/
def Moment.MeasuresShort (x : Moment) : Prop :=
  ∀ tag v, x.activity = .apply (.builtin .len tag) [v] →
    ∀ k : Nat, x.machine.store.length? v = some k → (k : Int) ≤ intMax

/-- A machine that an activity or a program has left, and its result if there is one, are
bounded. -/
def Settled {α : Type} (P : α → Prop) (out : Except Halt α × Machine) : Prop :=
  out.2.store.Bounded ∧ ∀ x, out.1 = .ok x → P x

/-- A run that ends within the regime ends with integers in range, however it ends. -/
theorem settled_of_ended {α : Type} {P : α → Prop} {out : Except Halt α × Machine}
    (h : Run.Ended (fun x m => m.store.Bounded ∧ P x) (fun m => m.store.Bounded) out) :
    Settled P out := by
  rcases out with ⟨_ | x, m⟩
  · exact ⟨h, nofun⟩
  · refine ⟨h.1, ?_⟩
    rintro y ⟨⟩
    exact h.2

theorem bounded_of_carries {s : Store} {signal : Signal}
    (h : Regime.confinement.Carries s signal) : signal.Bounded := by
  cases signal with
  | normal v => exact h
  | returned v => exact h

theorem bounded_of_admits {a : Activity} {s : Store} (h : Regime.confinement.Admits s a) :
    a.Bounded := by
  cases a with
  | apply f args => exact h
  | all ns signal e => exact bounded_of_carries h.2
  | _ => trivial

theorem yields_of_returns {a : Activity} {x : a.Result} {s : Store}
    (h : Regime.confinement.Returns s a x) : a.Yields x := by
  cases a with
  | eval | apply | evalAll => exact h
  | _ => exact bounded_of_carries h

/-- **Integers have 64 bits in every state of a session.** Let any programs have run one after the
other from a fresh machine, and let another one run. When one of the functions of the evaluator is
called, the store and what is handed on are bounded; when it ends, be it early, the store and its
result are; and so it is with the program as a whole. Arithmetic gives the exact result where that
is in the range, and overflows where it is not. -/
theorem integers_confined (cfg : Settings) (ps ns : List Node) (m : Machine) (fuel : Nat)
    (hm : History cfg Moment.MeasuresShort ps m)
    (hlen : ∀ x, Enters cfg fuel ns m.cleared x → x.MeasuresShort) :
    (∀ x, Enters cfg fuel ns m.cleared x → x.machine.store.Bounded ∧ x.activity.Bounded ∧
      Settled x.activity.Yields ((x.activity.run cfg x.fuel).run.run x.machine)) ∧
    Settled Value.Bounded ((runProgram cfg fuel ns).run.run m.cleared) ∧
    (∀ symbol f, exactOperator? symbol = some f →
      ∀ x y, (symbol = "/" ∨ symbol = "%" → y ≠ 0) →
        ∃ op name, binaryOperator? symbol = some op ∧
          ∀ s, op s (.int x) (.int y) = exactly (f x y) name) ∧
    ∀ x, ∃ op name, unaryOperator? "-" = some op ∧ op (.int x) = exactly (-x) name := by
  have hs : m.store.Bounded := History.inv (fun _ => Regime.confinement) .fresh
    (fun _ h => h) (fun _ _ => trivial) (fun _ _ h => h) hm
  obtain ⟨hkept, hends⟩ :
      (∀ x, Enters cfg fuel ns m.cleared x → Regime.confinement.contract.Kept cfg x) ∧
        Regime.confinement.Concludes m.store ((runFrom cfg fuel .unit ns).run.run m.cleared) :=
    Regime.enters hs (fun _ _ => trivial) nofun hlen
  refine ⟨fun x hx => ?_, settled_of_ended (hends.mono (fun _ _ h => h.2) fun _ h => h.2),
    fun _ _ hf _ _ hy => arithmetic_exact hf hy, negate_exact⟩
  obtain ⟨⟨hstore, hadmits⟩, hended⟩ := hkept x hx
  refine ⟨hstore, bounded_of_admits hadmits, settled_of_ended ?_⟩
  exact hended.mono (fun _ _ h => ⟨h.2.1, yields_of_returns h.2.2⟩) fun _ h => h.2

/-- `let x = 9223372036854775807` and `x + 1`, without places. -/
def beyondRange : List Node :=
  [.letStmt "x" false (.literal (.int intMax) .int none) none,
    .exprStmt (.binary "+" (.identifier "x" none) (.literal (.int 1) .int none) none) none]

/-- What is called while the two statements run. -/
def beyondRangeCalls : List Activity :=
  beyondRange.map (.exec · Store.root) ++
    [.eval (.literal (.int intMax) .int none) Store.root,
      .eval (.binary "+" (.identifier "x" none) (.literal (.int 1) .int none) none) Store.root,
      .eval (.identifier "x" none) Store.root, .eval (.literal (.int 1) .int none) Store.root]

/-- Running the example goes through its own few activities only. -/
theorem beyondRange_calls {cfg : Settings} {x y : Moment} (h : x.Leads cfg y)
    (hx : x.activity ∈ beyondRangeCalls) : y.activity ∈ beyondRangeCalls := by
  induction h with
  | refl => exact hx
  | @tail y z _ hz ih =>
      have hcall := hz.call
      simp only [beyondRangeCalls, beyondRange, List.map_cons, List.map_nil, List.cons_append,
        List.nil_append, List.mem_cons, List.not_mem_nil, or_false] at ih
      rcases ih with h | h | h | h | h | h <;> rw [h] at hcall <;>
        simp only [Activity.plan, Activity.execPlan, Activity.evalPlan, Plan.entered,
          binaryOperator?, Plan.calls_bind, Plan.calls_locate, Plan.calls_act, Plan.calls_pure,
          false_or, and_false, exists_false, or_false] at hcall
      · obtain ⟨-, -, -, hz, -⟩ := hcall
        rw [hz]
        simp [beyondRangeCalls]
      · obtain ⟨-, -, -, hz, -⟩ := hcall
        rw [hz]
        simp [beyondRangeCalls]
      · obtain ⟨-, -, -, ⟨hz, -⟩ | ⟨-, -, -, hz, -⟩⟩ := hcall <;> rw [hz] <;>
          simp [beyondRangeCalls]

/-- Nothing is measured in the example, so the assumption on lengths holds of it. -/
theorem beyondRange_measures {cfg : Settings} {fuel : Nat} {m : Machine} {x : Moment}
    (h : Enters cfg fuel beyondRange m x) : x.MeasuresShort := by
  have hmem : x.activity ∈ beyondRangeCalls := by
    rcases h with h | ⟨_, _, _, h | ⟨_, _, _, h⟩⟩
    · exact beyondRange_calls h (by simp [beyondRangeCalls, beyondRange])
    · exact beyondRange_calls h (by simp [beyondRangeCalls, beyondRange])
    · exact h.elim
  intro tag v hx
  rw [hx] at hmem
  simp [beyondRangeCalls, beyondRange] at hmem

/-- The greatest integer is kept, and one more is an overflow. -/
theorem beyondRange_confined :
    let out := (runProgram default 5 beyondRange).run.run Machine.fresh
    out.1 = .error (.fault (.overflow "add") none) ∧ out.2.store.Bounded ∧
      (out.2.store.programBindings.map (·.name)) = ["x"] := by
  have hconfined := (integers_confined default [] beyondRange .fresh 5 .fresh
    fun x hx => beyondRange_measures hx).2.1.1
  exact ⟨rfl, hconfined, by decide +kernel⟩

end Ember
