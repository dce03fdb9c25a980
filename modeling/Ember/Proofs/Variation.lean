import Ember.Proofs.Node.Congruent
import Ember.Proofs.Discipline
import Ember.Proofs.Store.Congruence

/-!
# Variation — runs of programs that differ in some nodes

Two programs may differ in nodes that do the same. Then each step of one of them is followed by the
other one: values, frames and arrays stay the same, and functions differ in their bodies only. One
of them may have to go one step deeper at a node where they differ, so it is given one more unit of
fuel. Nothing is said about a run that is out of fuel, nor about what is traced.

* `Variation`: the nodes in which programs may differ, and the places at which faults may.
* `Variation.Follows`: a computation, and another one that does the same.
* `Variation.Follows.bind`: the rule for two computations, one after the other.
-/

namespace Ember

/-- A way in which programs may differ. -/
structure Variation where
  /-- The nodes in which they may differ, by what these stand for. -/
  nodes : Tree.Role → Node → Node → Prop
  /-- The places at which their faults may be. -/
  places : Option Span → Option Span → Prop
  /-- Faults may be at the same place. -/
  same : ∀ s, places s s
  /-- Where places are missing, those of the nodes around are taken. -/
  around : ∀ {s s'} outer, places s s' → places (s.or outer) (s'.or outer)

namespace Variation

variable {V : Variation} {α β γ δ : Type} {s s' : Store} {m m' : Machine}

/-! ### Machines -/

/-- Functions that differ in their bodies only. -/
structure Functions (V : Variation) (c c' : Closure) : Prop where
  name : c'.name = c.name
  params : c'.params = c.params
  frame : c'.frame = c.frame
  body : V.nodes .block c.body c'.body

/-- Stores that differ in the bodies of functions only. -/
structure Stores (V : Variation) (s s' : Store) : Prop where
  frames : s'.frames = s.frames
  arrays : s'.arrays = s.arrays
  count : s'.closures.size = s.closures.size
  closures : ∀ f c c', s.closure? f = some c → s'.closure? f = some c' → V.Functions c c'

/-- Machines that differ in the bodies of functions and in what they have traced. -/
structure Machines (V : Variation) (m m' : Machine) : Prop where
  stores : V.Stores m.store m'.store
  output : m'.output = m.output
  depth : m'.depth = m.depth

namespace Stores

/-- A function is at an address of both stores or of none. -/
theorem closure? (h : V.Stores s s') (f : Nat) :
    (s.closure? f = none ∧ s'.closure? f = none) ∨
      ∃ c c', s.closure? f = some c ∧ s'.closure? f = some c' ∧ V.Functions c c' := by
  have hsize := h.count
  by_cases hf : f < s.closures.size
  · have hc : s.closure? f = some s.closures[f] := Array.getElem?_eq_getElem hf
    have hc' : s'.closure? f = some s'.closures[f] := Array.getElem?_eq_getElem (by omega)
    exact .inr ⟨_, _, hc, hc', h.closures f _ _ hc hc'⟩
  · exact .inl ⟨Array.getElem?_eq_none (by omega), Array.getElem?_eq_none (by omega)⟩

/-- A function keeps its name. -/
theorem closureName (h : V.Stores s s') (f : Nat) (nameless : String) :
    s'.closureName f nameless = s.closureName f nameless := by
  rcases h.closure? f with ⟨hc, hc'⟩ | ⟨c, c', hc, hc', hcc⟩
  · rw [Store.closureName, Store.closureName, hc, hc']
  · simp only [Store.closureName, hc, hc', Option.bind_some, hcc.name]

/-- Arrays are the same. -/
theorem elements (h : V.Stores s s') (a : Nat) : s'.elements a = s.elements a :=
  Store.elements_congr h.arrays a

/-- So are frames. -/
theorem frame? (h : V.Stores s s') (e : Nat) : s'.frame? e = s.frame? e := by
  rw [Store.frame?, Store.frame?, h.frames]

/-- So names mean the same, -/
theorem lookup (h : V.Stores s s') (e : Nat) (name : String) :
    s'.lookup e name = s.lookup e name :=
  Store.lookup_congr h.frames e name

/-- and may be assigned to in the same frames. -/
theorem assignable (h : V.Stores s s') (e : Nat) (name : String) :
    s'.assignable e name = s.assignable e name :=
  Store.assignable_congr h.frames e name

/-- Values look the same. -/
theorem showAt (h : V.Stores s s') (steps : Nat) (path : List Nat) (nested : Bool) (v : Value) :
    s'.showAt steps path nested v = s.showAt steps path nested v :=
  Store.showAt_congr h.arrays h.closureName steps path nested v

/-- Frames change in the same way. -/
theorem withFrames (h : V.Stores s s') (g : Array Frame → Array Frame) :
    V.Stores { s with frames := g s.frames } { s' with frames := g s'.frames } :=
  ⟨congrArg g h.frames, h.arrays, h.count, h.closures⟩

/-- Arrays change in the same way. -/
theorem withArrays (h : V.Stores s s') (g : Array (Array Value) → Array (Array Value)) :
    V.Stores { s with arrays := g s.arrays } { s' with arrays := g s'.arrays } :=
  ⟨h.frames, congrArg g h.arrays, h.count, h.closures⟩

/-- Related functions are added to related stores. -/
theorem addClosure (h : V.Stores s s') {c c' : Closure} (hc : V.Functions c c') :
    V.Stores (s.addClosure c).1 (s'.addClosure c').1 where
  frames := h.frames
  arrays := h.arrays
  count := by simp [Store.addClosure, h.count]
  closures f d d' hd hd' := by
    rw [Store.closure?_addClosure] at hd hd'
    rw [h.count] at hd'
    split at hd
    · rw [if_pos ‹_›] at hd'
      cases hd
      cases hd'
      exact hc
    · rw [if_neg ‹_›] at hd'
      exact h.closures f d d' hd hd'

end Stores

/-! ### Computations -/

/-- The same fault, maybe at another place, or the same other halt. -/
inductive Halts (V : Variation) : Halt → Halt → Prop where
  | fault {s s' : Option Span} (f : Fault) (h : V.places s s') : Halts V (.fault f s) (.fault f s')
  | displayTooDeep : Halts V .displayTooDeep .displayTooDeep

/-- How two computations have ended: in the same way, with results that are related by `Q`, unless
the first one was out of fuel. -/
inductive Ends (V : Variation) (Q : α → β → Prop) :
    Except Halt α × Machine → Except Halt β × Machine → Prop where
  | spent {m : Machine} {out' : Except Halt β × Machine} : Ends V Q (.error .outOfFuel, m) out'
  | halted {h h' : Halt} {m m' : Machine} (halts : V.Halts h h') (machines : V.Machines m m') :
      Ends V Q (.error h, m) (.error h', m')
  | done {a : α} {b : β} {m m' : Machine} (result : Q a b) (machines : V.Machines m m') :
      Ends V Q (.ok a, m) (.ok b, m')

/-- Started in machines that differ as programs do, the second computation does what the first one
does. -/
def Follows (V : Variation) (Q : α → β → Prop) (r : Run α) (r' : Run β) : Prop :=
  ∀ m m', V.Machines m m' → V.Ends Q (r.run.run m) (r'.run.run m')

variable {Q : α → β → Prop} {P : γ → δ → Prop} {r : Run α} {r' : Run β}

/-- Two computations one after the other. -/
theorem Follows.bind {f : α → Run γ} {f' : β → Run δ} (h : V.Follows Q r r')
    (hf : ∀ a b, Q a b → V.Follows P (f a) (f' b)) : V.Follows P (r >>= f) (r' >>= f') := by
  intro m m' hm
  have hends := h m m' hm
  rw [Run.run_bind, Run.run_bind]
  generalize r.run.run m = out at hends
  generalize r'.run.run m' = out' at hends
  cases hends with
  | spent => exact .spent
  | halted halts machines => exact .halted halts machines
  | done result machines => exact hf _ _ result _ _ machines

/-- The rule for two computations of which the first one gives the same result. -/
theorem Follows.then {r r' : Run α} {f : α → Run γ} {f' : α → Run δ} (h : V.Follows Eq r r')
    (hf : ∀ a, V.Follows P (f a) (f' a)) : V.Follows P (r >>= f) (r' >>= f') := by
  refine h.bind fun a b hab => ?_
  cases hab
  exact hf a

/-! ### Single operations -/

/-- Related results. -/
theorem follows_pure {a : α} {b : β} (h : Q a b) : V.Follows Q (pure a) (pure b) :=
  fun _ _ hm => .done h hm

theorem follows_fault (f : Fault) : V.Follows Q (Run.fault f) (Run.fault f) :=
  fun _ _ hm => .halted (.fault f (V.same none)) hm

/-- An operation that does not touch the machine. -/
theorem follows_ofExcept (x : Except Fault α) :
    V.Follows Eq (Run.ofExcept x) (Run.ofExcept x) := by
  cases x with
  | ok a => exact follows_pure rfl
  | error f => exact follows_fault f

/-- A value is shown, or cannot be, on either side. -/
theorem follows_ofShow (x : Except Store.ShowFault String) :
    V.Follows Eq (Run.ofShow x) (Run.ofShow x) := by
  rcases x with (kind | _) | t
  · exact follows_fault _
  · exact fun _ _ hm => .halted .displayTooDeep hm
  · exact follows_pure rfl

/-- The machine may be looked at. -/
theorem Follows.get {f f' : Machine → Run α}
    (h : ∀ m m', V.Machines m m' → V.Follows Eq (f m) (f' m')) :
    V.Follows Eq (MonadState.get >>= f) (MonadState.get >>= f') :=
  fun m m' hm => h m m' hm m m' hm

/-- The stores may be looked at as far as they agree. -/
theorem Follows.store {f : Store → Run α} {f' : Store → Run β}
    (h : ∀ s s', V.Stores s s' → V.Follows Q (f s) (f' s')) :
    V.Follows Q (Run.store >>= f) (Run.store >>= f') :=
  fun m m' hm => h m.store m'.store hm.stores m m' hm

/-- A change of both machines. -/
theorem follows_modify {g g' : Machine → Machine}
    (h : ∀ m m', V.Machines m m' → V.Machines (g m) (g' m')) :
    V.Follows Eq (modify g) (modify g') := fun m m' hm => .done rfl (h m m' hm)

/-- A change of both stores. -/
theorem follows_modifyStore {g g' : Store → Store}
    (h : ∀ s s', V.Stores s s' → V.Stores (g s) (g' s')) :
    V.Follows Eq (Run.modifyStore g) (Run.modifyStore g') :=
  follows_modify fun _ _ hm => ⟨h _ _ hm.stores, hm.output, hm.depth⟩

/-- Frames change in the same way. -/
theorem follows_modifyFrames (e : Nat) (g : Frame → Frame) :
    V.Follows Eq (Run.modifyStore fun s => { s with frames := s.frames.modify e g })
      (Run.modifyStore fun s => { s with frames := s.frames.modify e g }) :=
  follows_modifyStore fun _ _ hs => hs.withFrames (·.modify e g)

/-- Arrays change in the same way. -/
theorem follows_modifyArrays (a : Nat) (g : Array Value → Array Value) :
    V.Follows Eq (Run.modifyStore fun s => { s with arrays := s.arrays.modify a g })
      (Run.modifyStore fun s => { s with arrays := s.arrays.modify a g }) :=
  follows_modifyStore fun _ _ hs => hs.withArrays (·.modify a g)

theorem follows_print (text : String) : V.Follows Eq (Run.print text) (Run.print text) :=
  follows_modify fun _ _ hm => ⟨hm.stores, congrArg (· ++ text) hm.output, hm.depth⟩

/-- What is traced does not matter. -/
theorem follows_traceLine (cfg : Settings) (line line' : Machine → String) :
    V.Follows Eq (Run.traceLine cfg line) (Run.traceLine cfg line') := by
  unfold Run.traceLine
  split
  · exact follows_modify fun _ _ hm => ⟨hm.stores, hm.output, hm.depth⟩
  · exact follows_pure rfl

/-- Something is added to both stores, at the same address. -/
theorem follows_allocate {add add' : Store → Store × Nat}
    (h : ∀ s s', V.Stores s s' → V.Stores (add s).1 (add' s').1 ∧ (add s).2 = (add' s').2) :
    V.Follows Eq (Run.allocate add) (Run.allocate add') := by
  intro m m' hm
  obtain ⟨hstores, haddress⟩ := h m.store m'.store hm.stores
  have hmachines : V.Machines { m with store := (add m.store).1 }
      { m' with store := (add' m'.store).1 } := ⟨hstores, hm.output, hm.depth⟩
  exact .done haddress hmachines

/-- A frame is added at the same address. -/
theorem follows_newFrame (e : Nat) : V.Follows Eq (Run.newFrame e) (Run.newFrame e) :=
  follows_allocate fun _ _ hs => ⟨hs.withFrames (·.push _), congrArg Array.size hs.frames.symm⟩

/-- So is an array, -/
theorem follows_newArray (vs : Array Value) :
    V.Follows Eq (Run.newArray vs) (Run.newArray vs) := by
  refine (follows_allocate fun s s' hs => ⟨?_, ?_⟩).then fun _ => follows_pure rfl
  · exact hs.withArrays (·.push vs)
  · exact congrArg Array.size hs.arrays.symm

/-- and so are related functions. -/
theorem follows_newFunction {c c' : Closure} (h : V.Functions c c') :
    V.Follows Eq (Run.newFunction c) (Run.newFunction c') :=
  (follows_allocate fun _ _ hs => ⟨hs.addClosure h, hs.count.symm⟩).then fun _ => follows_pure rfl

/-- A function is found on both sides or on none. -/
theorem follows_closure (address : Nat) :
    V.Follows V.Functions (Run.closure address) (Run.closure address) := by
  refine Follows.store fun s s' hs => ?_
  rcases hs.closure? address with ⟨hc, hc'⟩ | ⟨c, c', hc, hc', hcc⟩
  · rw [hc, hc']
    exact follows_fault _
  · rw [hc, hc']
    exact follows_pure hcc

theorem follows_element (a i : Nat) : V.Follows Eq (Run.element a i) (Run.element a i) := by
  refine Follows.store fun s s' hs => ?_
  rw [hs.elements]
  cases (s.elements a)[i]? with
  | some v => exact follows_pure rfl
  | none => exact follows_fault _

theorem follows_replaceElement (a i : Nat) (v : Value) :
    V.Follows Eq (Run.replaceElement a i v) (Run.replaceElement a i v) :=
  (follows_element a i).then fun _ => follows_modifyArrays a _

/-- The same is done for each of several values. -/
theorem follows_mapM {f : α → Run γ} {f' : α → Run γ} (hf : ∀ a, V.Follows Eq (f a) (f' a))
    (xs : List α) : V.Follows Eq (xs.mapM f) (xs.mapM f') := by
  induction xs with
  | nil => exact follows_pure rfl
  | cons x xs ih =>
      rw [List.mapM_cons, List.mapM_cons]
      exact (hf x).then fun _ => ih.then fun _ => follows_pure rfl

/-- A check that ends in a fault if it fails. -/
theorem Follows.check {p : Prop} [Decidable p] {f : Fault} {k k' : Unit → Run α}
    (h : V.Follows Eq (k ()) (k' ())) :
    V.Follows Eq (if p then Run.fault f >>= k else k ())
      (if p then Run.fault f >>= k' else k' ()) := by
  split
  · exact follows_fault f
  · exact h

/-- A call is traced with the same arguments. -/
theorem follows_traceCall (cfg : Settings) (name : String) (args : List Value) :
    V.Follows Eq (traceCall cfg name args) (traceCall cfg name args) := by
  unfold traceCall
  split
  · refine (Follows.store fun s s' hs => ?_).then fun line => follows_traceLine cfg _ _
    simp only [Store.display, hs.showAt]
    exact (follows_mapM (fun v => follows_ofShow _) _).then fun _ => follows_pure rfl
  · exact follows_pure rfl

/-- A builtin does the same on both sides, since it never looks at functions. -/
theorem follows_perform (b : Builtin) (limit : Nat) (args : List Value) :
    V.Follows Eq (b.perform limit args) (b.perform limit args) := by
  unfold Builtin.perform
  split
  · refine Follows.store fun s s' hs => ?_
    simp only [Store.display, hs.showAt]
    refine (follows_mapM (fun v => follows_ofShow _) _).then fun parts => ?_
    exact (follows_print _).then fun _ => follows_pure rfl
  · refine Follows.store fun s s' hs => ?_
    rw [hs.elements]
    exact follows_pure rfl
  · exact follows_pure rfl
  · exact follows_fault _
  · exact (follows_modifyArrays _ _).then fun _ => follows_pure rfl
  · refine Follows.store fun s s' hs => ?_
    rw [hs.elements]
    split
    · exact follows_fault _
    · exact (follows_modifyArrays _ _).then fun _ => follows_pure rfl
  · refine Follows.store fun s s' hs => ?_
    rw [Store.display, Store.display, hs.showAt]
    exact (follows_ofShow _).then fun _ => follows_pure rfl
  · exact follows_pure rfl
  · exact follows_newArray _
  · exact follows_fault _

/-- So it does after a check of its arguments. -/
theorem follows_apply (b : Builtin) (args : List Value) (limit : Nat) :
    V.Follows Eq (b.apply args limit) (b.apply args limit) := by
  unfold Builtin.apply
  cases b.signature? with
  | none => exact follows_perform b limit args
  | some kinds => exact (follows_ofExcept _).then fun _ => follows_perform b limit args

/-- The parameters are bound one after the other. -/
theorem follows_bindParameters (e : Nat) (params : List String) (args : List Value) :
    V.Follows Eq (bindParameters e params args) (bindParameters e params args) := by
  unfold bindParameters
  induction params.zip args with
  | nil => exact follows_pure rfl
  | cons p ps ih => exact (follows_modifyFrames e _).then fun _ => ih

/-! ### Places and calls -/

/-- A fault is placed at the same place. -/
theorem Follows.locate (h : V.Follows Q r r') (span : Option Span) :
    V.Follows Q (Run.locate span r) (Run.locate span r') := by
  intro m m' hm
  have hends := h m m' hm
  rw [Run.run_locate, Run.run_locate]
  generalize r.run.run m = out at hends
  generalize r'.run.run m' = out' at hends
  cases hends with
  | spent => exact .spent
  | done result machines => exact .done result machines
  | halted halts machines =>
      cases halts with
      | displayTooDeep => exact .halted .displayTooDeep machines
      | @fault s s' f hplaces =>
          have hplaced := V.around span hplaces
          cases s <;> cases s' <;> exact .halted (.fault f hplaced) machines

/-- The depth counts on both sides. -/
theorem Follows.inCall (h : V.Follows Q r r') (name : String) :
    V.Follows Q (Run.inCall name r) (Run.inCall name r') := by
  intro m m' hm
  have hends := h { m with depth := m.depth + 1 } { m' with depth := m'.depth + 1 }
    ⟨hm.stores, hm.output, congrArg (· + 1) hm.depth⟩
  rw [Run.run_inCall, Run.run_inCall]
  generalize r.run.run { m with depth := m.depth + 1 } = out at hends
  generalize r'.run.run { m' with depth := m'.depth + 1 } = out' at hends
  have hleft {m₁ m₁' : Machine} (hm₁ : V.Machines m₁ m₁') :
      V.Machines { m₁ with depth := m₁.depth - 1 } { m₁' with depth := m₁'.depth - 1 } :=
    ⟨hm₁.stores, hm₁.output, congrArg (· - 1) hm₁.depth⟩
  cases hends with
  | spent => exact .spent
  | done result machines => exact .done result (hleft machines)
  | halted halts machines =>
      cases halts with
      | displayTooDeep => exact .halted (.fault _ (V.same none)) (hleft machines)
      | fault f hplaces => exact .halted (.fault f hplaces) (hleft machines)

/-- Entering a node leaves a line in the trace and places its faults. -/
theorem Follows.enter (h : V.Follows Q r r') (cfg : Settings) (line line' : String)
    (span : Option Span) :
    V.Follows Q (do Run.traceLine cfg fun _ => line; Run.locate span r)
      (do Run.traceLine cfg fun _ => line'; Run.locate span r') :=
  (follows_traceLine cfg _ _).then fun _ => h.locate span

end Variation

end Ember
