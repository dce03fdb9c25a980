import Ember.Proofs.Node.Formed
import Ember.Proofs.Store.Reference

/-!
# Discipline — what every step of a run keeps

Most facts about whole runs have one form: an invariant of the store holds at the start, every
single operation keeps it, and so it holds when the run ends, however it ends. A discipline lists
what has to be known of the single operations; `Ember.Proofs.Discipline.Eval` derives the rest
once for all disciplines.

A discipline consists of an invariant of stores, of the values that may be in play, of the frames
that code may run in and of the names that it may declare in them. All but the invariant have to
survive every later change of the store (`Store.Extends`).

A strict discipline is about well-formed programs. It also promises that a run does not halt in a
way that no well-formed program does (`Halt.Expected`); in return the program, and every function
body in the store, has to be well-formed.

* `Discipline.Holds`: a computation, started in a store, keeps a discipline.
* `Discipline.Holds.bind`: the rule for two computations, one after the other.
-/

namespace Ember

/-! ### What a program can be told -/

/-- The kinds of errors that well-formed programs can run into. -/
def ErrorKind.ofPrograms : List ErrorKind := [
  .undefinedVariable, .immutableAssignment, .typeMismatch, .divisionByZero, .indexOutOfBounds,
  .arityMismatch, .notCallable, .integerOverflow, .recursionDepthExceeded]

/-- A fault that well-formed programs can run into. -/
def Fault.Expected (f : Fault) : Prop := f.kind ∈ ErrorKind.ofPrograms

instance (f : Fault) : Decidable f.Expected := inferInstanceAs (Decidable (_ ∈ _))

/-- How a run of a well-formed program can end early. -/
def Halt.Expected : Halt → Prop
  | .fault f _ => f.Expected
  | .displayTooDeep | .outOfFuel => True

/-- A value that refers to nothing and, if it is an integer, has 64 bits. -/
def Value.Plain : Value → Prop
  | .unit | .bool _ | .float _ | .str _ => True
  | .int i => intMin ≤ i ∧ i ≤ intMax
  | .array _ | .function _ | .builtin .. | .foreign .. | .bare _ => False

/-- What has to be known of the single operations. -/
structure Discipline where
  /-- The discipline is about well-formed programs. -/
  strict : Prop
  /-- The invariant of the store. -/
  Inv : Store → Prop
  /-- The values in play. -/
  Good : Store → Value → Prop
  /-- The frames that code may run in. -/
  Scope : Store → Nat → Prop
  /-- The names that code may declare in a frame. -/
  Local : Store → Nat → String → Prop
  good_mono : ∀ {s s' v}, s.Extends s' → Good s v → Good s' v
  scope_mono : ∀ {s s' e}, s.Extends s' → Scope s e → Scope s' e
  local_mono : ∀ {s s' e n}, s.Extends s' → Local s e n → Local s' e n
  good_plain : ∀ {s v}, v.Plain → Good s v
  good_between : ∀ {s lo hi i}, Good s (.int lo) → Good s (.int hi) → lo ≤ i → i < hi →
    Good s (.int i)
  good_length : ∀ {s t}, Good s (.str t) → Good s (.int t.length)
  good_size : ∀ {s a}, Inv s → Good s (.array a) → Good s (.int (s.elements a).size)
  good_lookup : ∀ {s e n v}, Inv s → Scope s e → s.lookup e n = .ok v → Good s v
  good_element : ∀ {s a v}, Inv s → Good s (.array a) → v ∈ s.elements a → Good s v
  closure : ∀ {s f c}, Inv s → Good s (.function f) → s.closure? f = some c →
    Scope s c.frame ∧ (strict → c.body.Formed (.block true))
  addFrame : ∀ {s p}, Inv s → Scope s p →
    Inv (s.addFrame (some p)).1 ∧ Scope (s.addFrame (some p)).1 s.frames.size ∧
      ∀ n, Local (s.addFrame (some p)).1 s.frames.size n
  addArray : ∀ {s vs}, Inv s → (∀ v ∈ vs, Good s v) →
    Inv (s.addArray vs).1 ∧ Good (s.addArray vs).1 (.array s.arrays.size)
  addClosure : ∀ {s c}, Inv s → Scope s c.frame → (strict → c.body.Formed (.block true)) →
    Inv (s.addClosure c).1 ∧ Good (s.addClosure c).1 (.function s.closures.size)
  declare : ∀ {s e n v m}, Inv s → Local s e n → Good s v → Inv (s.declare e n v m)
  update : ∀ {s e n v g}, Inv s → Scope s e → Good s v → s.assignable e n = .ok g →
    Inv (s.update g n v)
  push : ∀ {s a v}, Inv s → Good s (.array a) → Good s v → Inv (s.push a v)
  pop : ∀ {s a}, Inv s → Good s (.array a) → Inv (s.pop a)
  setElement : ∀ {s a i v}, Inv s → Good s (.array a) → Good s v → Inv (s.setElement a i v)
  known : ∀ {s v}, strict → Good s v → v.kind?.isSome
  present : ∀ {s f}, strict → Inv s → Good s (.function f) → (s.closure? f).isSome

/-- Two computations, one after the other. -/
theorem Run.run_bind {α β : Type} (r : Run α) (f : α → Run β) (m : Machine) :
    (r >>= f).run.run m = match r.run.run m with
      | (.ok a, m') => (f a).run.run m'
      | (.error h, m') => (.error h, m') := by
  have hcont : (r >>= f).run.run m
      = (fun p : Except Halt α × Machine => (ExceptT.bindCont f p.1).run p.2) (r.run.run m) := rfl
  rw [hcont]
  rcases r.run.run m with ⟨_ | _, m'⟩ <;> rfl

/-- A place is added to a fault that has none; nothing else changes. -/
theorem Run.run_locate {α : Type} (span : Option Span) (r : Run α) (m : Machine) :
    (Run.locate span r).run.run m = ((match (r.run.run m).1 with
      | .error (.fault f none) => .error (.fault f span)
      | x => x), (r.run.run m).2) := by
  have hrun : (Run.locate span r).run.run m
      = StateT.run (match (r.run.run m).1 with
          | .error (.fault f none) => pure (.error (.fault f span))
          | x => pure x) (r.run.run m).2 := rfl
  rw [hrun]
  rcases r.run.run m with ⟨(⟨_, _ | _⟩ | _ | _) | _, m'⟩ <;> rfl

/-- The depth counts while the call lasts, and is back where it was however the call ends. -/
theorem Run.run_inCall {α : Type} (name : String) (r : Run α) (m : Machine) :
    (Run.inCall name r).run.run m =
      let p := r.run.run { m with depth := m.depth + 1 }
      ((match p.1 with
        | .error .displayTooDeep => .error (.fault (.tooDeep name) none)
        | x => x), { p.2 with depth := p.2.depth - 1 }) := by
  have hrun : (Run.inCall name r).run.run m =
      let p := r.run.run { m with depth := m.depth + 1 }
      StateT.run (match p.1 with
        | .error .displayTooDeep => pure (.error (.fault (.tooDeep name) none))
        | x => pure x) { p.2 with depth := p.2.depth - 1 } := rfl
  rw [hrun]
  rcases r.run.run { m with depth := m.depth + 1 } with ⟨(_ | _ | _) | _, m'⟩ <;> rfl

namespace Discipline

variable (D : Discipline) {α β : Type}

/-! ### Computations -/

/-- How a computation that was started in the store `s` may have ended. -/
def Ends (s : Store) (Q : Store → α → Prop) : Except Halt α × Machine → Prop
  | (.ok a, m) => D.Inv m.store ∧ s.Extends m.store ∧ Q m.store a
  | (.error h, m) => D.Inv m.store ∧ s.Extends m.store ∧ (D.strict → h.Expected)

/-- Started in the store `s`, the computation keeps the discipline; if it ends with a result, that
satisfies `Q` in the store it leaves. -/
def Holds (s : Store) (r : Run α) (Q : Store → α → Prop) : Prop :=
  ∀ m : Machine, m.store = s → D.Ends s Q (r.run.run m)

variable {D} {s : Store} {r : Run α} {Q Q' : Store → α → Prop}

/-- However a computation ends, the invariant holds of the store it leaves. -/
theorem Holds.inv {m : Machine} (h : D.Holds m.store r Q) :
    D.Inv (r.run.run m).2.store ∧ m.store.Extends (r.run.run m).2.store := by
  have hr := h m rfl
  generalize r.run.run m = out at hr
  rcases out with ⟨_ | _, m'⟩
  · exact ⟨hr.1, hr.2.1⟩
  · exact ⟨hr.1, hr.2.1⟩

/-- What is known of a result. -/
theorem Holds.of_ok {m : Machine} (h : D.Holds m.store r Q) {a : α}
    (ha : (r.run.run m).1 = .ok a) : Q (r.run.run m).2.store a := by
  have hr := h m rfl
  generalize r.run.run m = out at hr ha
  rcases out with ⟨_ | _, m'⟩
  · cases ha
  · cases ha
    exact hr.2.2

/-- Where the discipline is strict, a computation that fails fails for an expected reason. -/
theorem Holds.of_error {m : Machine} (h : D.Holds m.store r Q) (hstrict : D.strict) {halt : Halt}
    (hh : (r.run.run m).1 = .error halt) : halt.Expected := by
  have hr := h m rfl
  generalize r.run.run m = out at hr hh
  rcases out with ⟨_ | _, m'⟩
  · cases hh
    exact hr.2.2 hstrict
  · cases hh

/-- Less may be claimed of the result. -/
theorem Holds.mono (h : D.Holds s r Q) (hQ : ∀ s' a, s.Extends s' → Q s' a → Q' s' a) :
    D.Holds s r Q' := by
  intro m hm
  have hr := h m hm
  generalize r.run.run m = out at hr
  rcases out with ⟨_ | _, m'⟩
  · exact hr
  · exact ⟨hr.1, hr.2.1, hQ _ _ hr.2.1 hr.2.2⟩

/-- One computation, then another that may use what is known of the result of the first. -/
theorem Holds.bind {f : α → Run β} {P : Store → β → Prop} (h : D.Holds s r Q)
    (hf : ∀ s' a, D.Inv s' → s.Extends s' → Q s' a → D.Holds s' (f a) P) :
    D.Holds s (r >>= f) P := by
  intro m hm
  have hr := h m hm
  rw [Run.run_bind]
  generalize r.run.run m = out at hr
  rcases out with ⟨e | a, m'⟩
  · exact hr
  · obtain ⟨hinv, hext, hq⟩ := hr
    have hfa := hf m'.store a hinv hext hq m' rfl
    show D.Ends s P ((f a).run.run m')
    generalize (f a).run.run m' = out at hfa
    rcases out with ⟨e | b, m''⟩
    · exact ⟨hfa.1, hext.trans hfa.2.1, hfa.2.2⟩
    · exact ⟨hfa.1, hext.trans hfa.2.1, hfa.2.2⟩

/-! ### Nodes -/

/-- If the discipline is strict, the node can take the role. -/
def Fits (D : Discipline) (role : Node.Role) (n : Node) : Prop := D.strict → n.Formed role

/-- Another node fits if it is well-formed wherever the first one is. -/
theorem Fits.of {role role' : Node.Role} {n n' : Node} (h : D.Fits role n)
    (hf : n.Formed role → n'.Formed role') : D.Fits role' n' :=
  fun hstrict => hf (h hstrict)

/-- A node that fits without being well-formed is only there where the discipline is lax. -/
theorem not_fits {role : Node.Role} {n : Node} {halt : Halt} (h : D.Fits role n)
    (hn : ¬ n.Formed role) (hstrict : D.strict) : halt.Expected :=
  absurd (h hstrict) hn

/-! ### The single operations -/

/-- A result changes nothing. -/
theorem holds_pure {a : α} (hs : D.Inv s) (ha : Q s a) : D.Holds s (pure a) Q := by
  rintro m rfl
  exact ⟨hs, .refl _, ha⟩

/-- An end changes nothing, and it has to be expected where the discipline is strict. -/
theorem holds_throw {h : Halt} (hs : D.Inv s) (hh : D.strict → h.Expected) :
    D.Holds s (throw h : Run α) Q := by
  rintro m rfl
  exact ⟨hs, .refl _, hh⟩

theorem holds_fault {f : Fault} (hs : D.Inv s) (hf : D.strict → f.Expected) :
    D.Holds s (Run.fault f : Run α) Q :=
  holds_throw hs hf

/-- An operation that does not touch the store. -/
theorem holds_ofExcept {x : Except Fault α} (hs : D.Inv s) (hok : ∀ a, x = .ok a → Q s a)
    (herr : ∀ f, x = .error f → D.strict → f.Expected) : D.Holds s (Run.ofExcept x) Q := by
  cases x with
  | ok a => exact holds_pure hs (hok a rfl)
  | error f => exact holds_fault hs (herr f rfl)

/-- A value is shown, or cannot be, for a reason that is always expected. -/
theorem holds_ofShow {x : Except Store.ShowFault String} {P : Store → String → Prop}
    (hs : D.Inv s) (hok : ∀ t, x = .ok t → P s t) : D.Holds s (Run.ofShow x) P := by
  rcases x with (_ | _) | t
  · exact holds_fault hs fun _ => by simp [Fault.Expected, Fault.kind, ErrorKind.ofPrograms]
  · exact holds_throw hs fun _ => trivial
  · exact holds_pure hs (hok t rfl)

/-- The store may be looked at. -/
theorem holds_store {f : Store → Run α} (h : D.Holds s (f s) Q) :
    D.Holds s (Run.store >>= f) Q := by
  rintro m rfl
  exact h m rfl

theorem holds_get {f : Machine → Run α} (h : ∀ m : Machine, m.store = s → D.Holds s (f m) Q) :
    D.Holds s (get >>= f) Q := by
  rintro m rfl
  exact h m rfl m rfl

/-- A change of the store has to keep the invariant and may not take anything away. -/
theorem holds_modifyStore {g : Store → Store} {P : Store → Unit → Prop} (hs : D.Inv (g s))
    (hext : s.Extends (g s)) (hP : P (g s) ()) : D.Holds s (Run.modifyStore g) P := by
  rintro m rfl
  exact ⟨hs, hext, hP⟩

/-- The same for what is added to the store. -/
theorem holds_allocate {add : Store → Store × Nat} {P : Store → Nat → Prop}
    (hs : D.Inv (add s).1) (hext : s.Extends (add s).1) (hP : P (add s).1 (add s).2) :
    D.Holds s (Run.allocate add) P := by
  rintro m rfl
  exact ⟨hs, hext, hP⟩

theorem holds_print (hs : D.Inv s) (text : String) :
    D.Holds s (Run.print text) fun s' _ => s' = s := by
  rintro m rfl
  exact ⟨hs, .refl _, rfl⟩

theorem holds_traceLine (hs : D.Inv s) (cfg : Settings) (line : Machine → String) :
    D.Holds s (Run.traceLine cfg line) fun s' _ => s' = s := by
  unfold Run.traceLine
  split
  · rintro m rfl
    exact ⟨hs, .refl _, rfl⟩
  · exact holds_pure hs rfl

/-- Where a fault is placed is of no account. -/
theorem holds_locate (span : Option Span) (h : D.Holds s r Q) :
    D.Holds s (Run.locate span r) Q := by
  intro m hm
  have hr := h m hm
  rw [Run.run_locate]
  generalize r.run.run m = out at hr
  rcases out with ⟨(⟨_, _ | _⟩ | _ | _) | _, m'⟩ <;> exact hr

/-- Nor is the depth at which something runs. -/
theorem holds_inCall (name : String) (h : D.Holds s r Q) : D.Holds s (Run.inCall name r) Q := by
  intro m hm
  have hr := h { m with depth := m.depth + 1 } hm
  rw [Run.run_inCall]
  generalize r.run.run { m with depth := m.depth + 1 } = out at hr
  rcases out with ⟨(_ | _ | _) | _, m'⟩
  · exact hr
  · exact ⟨hr.1, hr.2.1, fun _ => by simp [Halt.Expected, Fault.Expected, Fault.kind,
      ErrorKind.ofPrograms]⟩
  · exact hr
  · exact hr

end Discipline

end Ember
