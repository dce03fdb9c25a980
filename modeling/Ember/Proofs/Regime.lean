import Ember.Proofs.Contract
import Ember.Proofs.Discipline.Operation

/-!
# Regime — invariants of the store at every call

A regime is an invariant of the store together with what it asks of the values in play and of the
code that runs in a frame. If the single operations on stores keep it, then the invariant holds
whenever a function of the evaluator is called and whenever one ends, and the values and the code
that are handed on are as the regime asks.

* `Regime`: the invariant, and what has to be known of the single operations.
* `Regime.contract`: what a regime asks of activities.
* `Regime.planned`: every regime is kept by the plans of the evaluator.
* `Regime.enters`: so it is at every moment of a program.
-/

namespace Ember

/-! ### Parts of nodes -/

namespace Node

/-- The parts of a node that can be run, in order. -/
def parts : Node → List Node
  | partialStmt _ _ first _ => first
  | n => n.children

/-- The node is a block. -/
def isBlock : Node → Bool
  | block .. => true
  | _ => false

end Node

/-- The length of a value that has one. -/
def Store.length? (s : Store) : Value → Option Nat
  | .array a => some (s.elements a).size
  | .str t => some t.length
  | _ => none

/-- What has to be known of the single operations. -/
structure Regime where
  /-- The invariant of the store. -/
  Inv : Store → Prop
  /-- The values in play. -/
  Good : Store → Value → Prop
  /-- The frames that code may run in. -/
  Scope : Store → Nat → Prop
  /-- The code that may run in a frame. -/
  Fits : Store → Nat → Node → Prop
  /-- The blocks of which the statements may run in a frame. -/
  Inner : Store → Nat → Node → Prop
  /-- What is assumed of values of which the length is taken. -/
  Measurable : Store → Value → Prop
  good_mono : ∀ {s s' v}, s.Extends s' → Good s v → Good s' v
  fits_mono : ∀ {s s' e n}, Inv s → s.Extends s' → Fits s e n → Fits s' e n
  inner_mono : ∀ {s s' e n}, Inv s → s.Extends s' → Inner s e n → Inner s' e n
  fits_scope : ∀ {s e n}, Fits s e n → Scope s e
  inner_scope : ∀ {s e n}, Inner s e n → Scope s e
  fits_part : ∀ {s e n c}, Fits s e n → n.isBlock = false → c ∈ n.parts → Fits s e c
  fits_statement : ∀ {s e ss span n}, Inner s e (.block ss span) → n ∈ ss → Fits s e n
  good_plain : ∀ {s v}, v.Plain → Good s v
  good_between : ∀ {s lo hi i}, Good s (.int lo) → Good s (.int hi) → lo ≤ i → i < hi →
    Good s (.int i)
  good_length : ∀ {s v k}, Inv s → Good s v → Measurable s v → s.length? v = some k →
    Good s (.int k)
  good_lookup : ∀ {s e n v}, Inv s → Scope s e → s.lookup e n = .ok v → Good s v
  good_element : ∀ {s a v}, Inv s → Good s (.array a) → v ∈ s.elements a → Good s v
  addFrame : ∀ {s e b}, Inv s → Fits s e b →
    Inv (s.addFrame (some e)).1 ∧ Inner (s.addFrame (some e)).1 s.frames.size b
  addCall : ∀ {s f c}, Inv s → Good s (.function f) → s.closure? f = some c →
    Inv (s.addFrame (some c.frame)).1 ∧
      Inner (s.addFrame (some c.frame)).1 s.frames.size c.body
  addArray : ∀ {s vs}, Inv s → (∀ v ∈ vs, Good s v) →
    Inv (s.addArray vs).1 ∧ Good (s.addArray vs).1 (.array s.arrays.size)
  addClosure : ∀ {s c}, Inv s → Fits s c.frame c.body →
    Inv (s.addClosure c).1 ∧ Good (s.addClosure c).1 (.function s.closures.size)
  declare : ∀ {s e n v m}, Inv s → Scope s e → Good s v → Inv (s.declare e n v m)
  update : ∀ {s e n v g}, Inv s → Scope s e → Good s v → s.assignable e n = .ok g →
    Inv (s.update g n v)
  push : ∀ {s a v}, Inv s → Good s (.array a) → Good s v → Inv (s.push a v)
  pop : ∀ {s a}, Inv s → Good s (.array a) → Inv (s.pop a)
  setElement : ∀ {s a i v}, Inv s → Good s (.array a) → Good s v → Inv (s.setElement a i v)

namespace Regime

variable {R : Regime} {α β : Type} {s : Store} {e : Nat}

/-! ### The contract of a regime -/

/-- A signal carries good values only. -/
def Carries (R : Regime) (s : Store) : Signal → Prop
  | .normal v => ∀ w ∈ v, R.Good s w
  | .returned v => R.Good s v

/-- The activity may start in the store. -/
def Admits (R : Regime) (s : Store) : Activity → Prop
  | .eval n e | .exec n e | .inside n e => R.Fits s e n
  | .evalAll ns e => ∀ n ∈ ns, R.Fits s e n
  | .apply f args => R.Good s f ∧ ∀ v ∈ args, R.Good s v
  | .block b e => R.Inner s e b
  | .all ns signal e => (∀ n ∈ ns, R.Fits s e n) ∧ R.Carries s signal
  | .loop c b e => R.Fits s e c ∧ R.Fits s e b
  | .each _ b a _ e => R.Fits s e b ∧ R.Good s (.array a)

/-- The activity may end with the result in the store. -/
def Returns (R : Regime) (s : Store) : (a : Activity) → a.Result → Prop
  | .eval .., v | .apply .., v => R.Good s v
  | .evalAll .., vs => ∀ v ∈ vs, R.Good s v
  | .exec .., signal | .inside .., signal | .block .., signal | .all .., signal
  | .loop .., signal | .each .., signal => R.Carries s signal

/-- What a regime asks of activities: the invariant throughout, and whatever was there stays. -/
def contract (R : Regime) : Contract where
  Pre a m := R.Inv m.store ∧ R.Admits m.store a
  Post a m x m' := m.store.Extends m'.store ∧ R.Inv m'.store ∧ R.Returns m'.store a x
  Halted m m' := m.store.Extends m'.store ∧ R.Inv m'.store

/-- What is assumed of a moment: a length that is taken is that of a measurable value. -/
def Assumes (R : Regime) (x : Moment) : Prop :=
  ∀ tag v, x.activity = .apply (.builtin .len tag) [v] → R.Measurable x.machine.store v

/-- Started in the store `s`, the plan keeps the regime; if it ends with a result, that satisfies
`Q` in the store it leaves. -/
def Holds (R : Regime) (s : Store) (p : Plan α) (Q : Store → α → Prop) : Prop :=
  ∀ m, m.store = s → p.Meets R.contract
    (fun x m' => s.Extends m'.store ∧ R.Inv m'.store ∧ Q m'.store x)
    (fun m' => s.Extends m'.store ∧ R.Inv m'.store) m

open Plan (act call)

variable {p : Plan α} {Q : Store → α → Prop} {P : Store → β → Prop}

/-! ### Plans -/

/-- One plan, then another that may use what is known of the result of the first. -/
theorem Holds.bind {f : α → Plan β} (h : R.Holds s p Q)
    (hf : ∀ s' x, R.Inv s' → s.Extends s' → Q s' x → R.Holds s' (f x) P) :
    R.Holds s (p >>= f) P := by
  intro m hm
  refine (h m hm).mono (fun x m' hx => ?_) fun _ hm' => hm'
  refine (hf m'.store x hx.2.1 hx.1 hx.2.2 m' rfl).mono (fun y m'' hy => ?_) fun m'' hm'' => ?_
  · exact ⟨hx.1.trans hy.1, hy.2⟩
  · exact ⟨hx.1.trans hm''.1, hm''.2⟩

/-- Two computations in one act. -/
theorem Holds.andThen {r : Run α} {f : α → Run β} (h : R.Holds s (act r) Q)
    (hf : ∀ s' x, R.Inv s' → s.Extends s' → Q s' x → R.Holds s' (act (f x)) P) :
    R.Holds s (act (r >>= f)) P := by
  intro m hm
  have hboth := Holds.bind (f := fun x => act (f x)) h hf m hm
  simp only [Plan.Meets] at hboth ⊢
  rw [Run.run_bind]
  change Run.Ended _ _ (r.run.run m) at hboth
  generalize r.run.run m = out at hboth
  rcases out with ⟨_ | x, m'⟩ <;> exact hboth

/-- A call is left to the regime of what is called. -/
theorem holds_call {a : Activity} (hs : R.Inv s) (ha : R.Admits s a) :
    R.Holds s (call a) fun s' x => R.Returns s' a x := by
  rintro m rfl
  exact ⟨⟨hs, ha⟩, fun _ _ hx => hx, fun _ hm' => hm'⟩

/-- A result of a single operation. -/
theorem holds_pure {x : α} (hs : R.Inv s) (hx : Q s x) : R.Holds s (act (pure x)) Q := by
  rintro m rfl
  exact ⟨.refl _, hs, hx⟩

/-- A result of a plan. -/
theorem holds_return {x : α} (hs : R.Inv s) (hx : Q s x) : R.Holds s (pure x) Q :=
  holds_pure hs hx

/-- Nothing is claimed of an end. -/
theorem holds_throw {h : Halt} (hs : R.Inv s) : R.Holds s (act (throw h)) Q := by
  rintro m rfl
  exact ⟨.refl _, hs⟩

theorem holds_fault {f : Fault} (hs : R.Inv s) : R.Holds s (act (Run.fault f)) Q := holds_throw hs

/-- An operation that does not touch the store. -/
theorem holds_ofExcept {x : Except Fault α} (hs : R.Inv s) (hok : ∀ a, x = .ok a → Q s a) :
    R.Holds s (act (Run.ofExcept x)) Q := by
  cases x with
  | ok a => exact holds_pure hs (hok a rfl)
  | error f => exact holds_fault hs

theorem holds_store {f : Store → Run α} (h : R.Holds s (act (f s)) Q) :
    R.Holds s (act (Run.store >>= f)) Q := by
  rintro m rfl
  exact h m rfl

/-- A change of the store has to keep the invariant and may not take anything away. -/
theorem holds_modifyStore {g : Store → Store} {P : Store → Unit → Prop} (hs : R.Inv (g s))
    (hext : s.Extends (g s)) (hP : P (g s) ()) : R.Holds s (act (Run.modifyStore g)) P := by
  rintro m rfl
  exact ⟨hext, hs, hP⟩

/-- The same for what is added to the store. -/
theorem holds_allocate {add : Store → Store × Nat} {P : Store → Nat → Prop}
    (hs : R.Inv (add s).1) (hext : s.Extends (add s).1) (hP : P (add s).1 (add s).2) :
    R.Holds s (act (Run.allocate add)) P := by
  rintro m rfl
  exact ⟨hext, hs, hP⟩

/-- What leaves the store alone. -/
theorem holds_aside {r : Run α} (hs : R.Inv s) (h : ∀ m, (r.run.run m).2.store = m.store) :
    R.Holds s (act r) fun s' _ => s' = s := by
  rintro m rfl
  have hm := h m
  simp only [Plan.Meets]
  generalize r.run.run m = out at hm
  rcases out with ⟨_ | x, m'⟩
  · exact ⟨hm ▸ .refl _, hm ▸ hs⟩
  · exact ⟨hm ▸ .refl _, hm ▸ hs, hm⟩

theorem holds_traceLine (hs : R.Inv s) (cfg : Settings) (line : Machine → String) :
    R.Holds s (act (Run.traceLine cfg line)) fun s' _ => s' = s := by
  refine holds_aside hs fun m => ?_
  unfold Run.traceLine
  split <;> rfl

/-- Entering a node traces a line and places faults, which changes nothing else. -/
theorem holds_entered {cfg : Settings} {line : String} {span : Option Span} (hs : R.Inv s)
    (h : R.Holds s p Q) : R.Holds s (p.entered cfg line span) Q := by
  refine (holds_traceLine hs cfg _).bind fun s' _ _ _ hs' => ?_
  subst hs'
  exact h

/-- The depth is of no account. -/
theorem holds_inCall (name : String) (h : R.Holds s p Q) : R.Holds s (.inCall name p) Q :=
  fun m hm => h { m with depth := m.depth + 1 } hm

end Regime

end Ember
