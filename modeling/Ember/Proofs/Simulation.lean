import Ember.Proofs.Budget
import Ember.Proofs.Store.Alike

/-!
# Simulation — runs on stores that differ in empty frames

One run follows another one if, given enough fuel, it ends as the other one does, on a store that
differs in empty frames only. The fuel that it takes is its own, since it may have to pass more
blocks. Nothing is said about a run that is out of fuel.

* `World.Sim`: a computation, and another one that follows it with enough fuel.
* `World.Sim.bind`: the rule for two computations, one after the other.
* `World.Plans`: the same for plans; `World.Plans.bind` and so on are the rules for them.
-/

namespace Ember

/-! ### Enough fuel -/

/-- With enough fuel, the computation ends like this. -/
def Run.Tends {α : Type} (r : Nat → Run α) (m : Machine) (out : Except Halt α × Machine) : Prop :=
  ∃ enough, ∀ k, enough ≤ k → (r k).run.run m = out

namespace Run

variable {α β : Type} {r : Nat → Run α} {m m₁ : Machine}

/-- A computation that ends well is followed by the next one, with fuel enough for both. -/
theorem Tends.bind {f : Nat → α → Run β} {a : α} {out : Except Halt β × Machine}
    (h : Tends r m (.ok a, m₁)) (hf : Tends (fun k => f k a) m₁ out) :
    Tends (fun k => r k >>= f k) m out := by
  obtain ⟨k₁, h₁⟩ := h
  obtain ⟨k₂, h₂⟩ := hf
  refine ⟨max k₁ k₂, fun k hk => ?_⟩
  rw [run_bind, h₁ k (by omega)]
  exact h₂ k (by omega)

/-- A computation that fails is followed by nothing. -/
theorem Tends.bind_error {f : Nat → α → Run β} {h : Halt} (hr : Tends r m (.error h, m₁)) :
    Tends (fun k => r k >>= f k) m (.error h, m₁) := by
  obtain ⟨k₁, h₁⟩ := hr
  refine ⟨k₁, fun k hk => ?_⟩
  rw [run_bind, h₁ k hk]

/-- Where a computation stands in another one. -/
theorem Tends.through {r' : Nat → Run β} {out : Except Halt α × Machine}
    {out' : Except Halt β × Machine} (h : Tends r m out)
    (hout : ∀ k, (r k).run.run m = out → (r' k).run.run m' = out') : Tends r' m' out' := by
  obtain ⟨enough, h⟩ := h
  exact ⟨enough, fun k hk => hout k (h k hk)⟩

/-- Some more fuel is enough as well. -/
theorem Tends.shift {out : Except Halt α × Machine} (j : Nat)
    (h : Tends (fun k => r (k + j)) m out) : Tends r m out := by
  obtain ⟨enough, h⟩ := h
  refine ⟨enough + j, fun k hk => ?_⟩
  have hfuel : k - j + j = k := by omega
  have hout : (r (k - j + j)).run.run m = out := h (k - j) (by omega)
  rwa [hfuel] at hout

end Run

namespace World

open Run (Tends)

variable {W W' : World} {α β γ δ : Type}

/-- Two machines that differ in empty frames and in what they have traced. -/
structure Machines (W : World) (m m' : Machine) : Prop where
  stores : W.Stores m.store m'.store
  output : m'.output = m.output
  depth : m'.depth = m.depth

/-- How a computation has ended, and that another one ends in the same way with enough fuel, in a
machine that differs in empty frames only; the results are related by `Q`. -/
inductive Ends (W : World) (Q : World → α → β → Prop) (r : Nat → Run β) (m' : Machine) :
    Except Halt α × Machine → Prop where
  | spent (m : Machine) : Ends W Q r m' (.error .outOfFuel, m)
  | halted {W' : World} {h : Halt} {m₁ m₁' : Machine} (grows : W.Grows W')
      (machines : W'.Machines m₁ m₁') (tends : Tends r m' (.error h, m₁')) :
      Ends W Q r m' (.error h, m₁)
  | done {W' : World} {a : α} {b : β} {m₁ m₁' : Machine} (grows : W.Grows W')
      (machines : W'.Machines m₁ m₁') (result : Q W' a b) (tends : Tends r m' (.ok b, m₁')) :
      Ends W Q r m' (.ok a, m₁)

/-- Started in machines that differ in empty frames, the second computation follows the first one
with enough fuel. -/
def Sim (W : World) (Q : World → α → β → Prop) (r : Run α) (r' : Nat → Run β) : Prop :=
  ∀ m m', W.Machines m m' → W.Ends Q r' m' (r.run.run m)

/-- The results are the same. -/
def Same (_ : World) (a b : α) : Prop := b = a

variable {Q : World → α → β → Prop} {P : World → γ → δ → Prop} {r : Run α} {r' : Nat → Run β}

/-- What is related already stays related. -/
theorem Ends.grow {m' : Machine} {out : Except Halt α × Machine} (h : W'.Ends Q r' m' out)
    (hW : W.Grows W') : W.Ends Q r' m' out := by
  cases h with
  | spent m => exact .spent m
  | halted grows machines tends => exact .halted (hW.trans grows) machines tends
  | done grows machines result tends => exact .done (hW.trans grows) machines result tends

/-- The same, if the second computation is another one from another machine on. -/
theorem Ends.follow {m' m'' : Machine} {r'' : Nat → Run β} {out : Except Halt α × Machine}
    (h : W.Ends Q r' m' out) (htends : ∀ out', Tends r' m' out' → Tends r'' m'' out') :
    W.Ends Q r'' m'' out := by
  cases h with
  | spent m => exact .spent m
  | halted grows machines tends => exact .halted grows machines (htends _ tends)
  | done grows machines result tends => exact .done grows machines result (htends _ tends)

/-- Two computations one after the other, where the worlds may grow in between. -/
theorem Sim.bind {f : α → Run γ} {f' : Nat → β → Run δ} (h : W.Sim Q r r')
    (hf : ∀ W' a b, W.Grows W' → Q W' a b → W'.Sim P (f a) fun k => f' k b) :
    W.Sim P (r >>= f) fun k => r' k >>= f' k := by
  intro m m' hm
  have hends := h m m' hm
  rw [Run.run_bind]
  generalize r.run.run m = out at hends
  cases hends with
  | spent m₁ => exact .spent m₁
  | halted grows machines tends => exact .halted grows machines tends.bind_error
  | done grows machines result tends =>
      exact ((hf _ _ _ grows result _ _ machines).grow grows).follow fun _ h => tends.bind h

/-- The second computation has one more step to take. -/
theorem Sim.succ (h : W.Sim Q r fun k => r' (k + 1)) : W.Sim Q r r' :=
  fun m m' hm => (h m m' hm).follow fun _ => Tends.shift 1

/-! ### Single operations -/

/-- A computation that takes no fuel. -/
theorem tends_const {s : Run β} {m : Machine} : Tends (fun _ => s) m (s.run.run m) :=
  ⟨0, fun _ _ => rfl⟩

/-- Related results. -/
theorem sim_pure {a : α} {b : β} (h : Q W a b) : W.Sim Q (pure a) fun _ => pure b :=
  fun _ _ hm => .done (.refl W) hm h tends_const

/-- The same end. -/
theorem sim_throw (h : Halt) : W.Sim Q (throw h) fun _ => throw h :=
  fun _ _ hm => .halted (.refl W) hm tends_const

theorem sim_fault (f : Fault) : W.Sim Q (Run.fault f) fun _ => Run.fault f := sim_throw _

/-- An operation that does not touch the machine. -/
theorem sim_ofExcept (x : Except Fault α) :
    W.Sim Same (Run.ofExcept x) fun _ => Run.ofExcept x := by
  cases x with
  | ok a => exact sim_pure rfl
  | error f => exact sim_fault f

/-- A value is shown, or cannot be, on either side. -/
theorem sim_ofShow (x : Except Store.ShowFault String) :
    W.Sim Same (Run.ofShow x) fun _ => Run.ofShow x := by
  rcases x with (kind | _) | t
  · exact sim_fault _
  · exact sim_throw _
  · exact sim_pure rfl

/-- The machine may be looked at. -/
theorem sim_get : W.Sim Machines get fun _ => get :=
  fun _ _ hm => .done (.refl W) hm hm tends_const

theorem sim_store : W.Sim Stores Run.store fun _ => Run.store :=
  fun _ _ hm => .done (.refl W) hm hm.stores tends_const

/-- The stores may be looked at as far as they agree. -/
theorem Sim.store {f : Store → Run α} {f' : Nat → Store → Run β}
    (h : ∀ s s', W.Stores s s' → W.Sim Q (f s) fun k => f' k s') :
    W.Sim Q (Run.store >>= f) fun k => Run.store >>= f' k :=
  fun m m' hm => (h m.store m'.store hm.stores m m' hm).follow fun _ ht => ht

/-- A change of both machines. -/
theorem sim_modify {g g' : Machine → Machine}
    (h : ∀ m m', W.Machines m m' → W.Machines (g m) (g' m')) :
    W.Sim Same (modify g) fun _ => modify g' :=
  fun m m' hm => .done (.refl W) (h m m' hm) rfl tends_const

/-- A change of both stores. -/
theorem sim_modifyStore {g g' : Store → Store}
    (h : ∀ s s', W.Stores s s' → W.Stores (g s) (g' s')) :
    W.Sim Same (Run.modifyStore g) fun _ => Run.modifyStore g' :=
  sim_modify fun _ _ hm => ⟨h _ _ hm.stores, hm.output, hm.depth⟩

theorem sim_print (text : String) : W.Sim Same (Run.print text) fun _ => Run.print text :=
  sim_modify fun m m' hm => ⟨hm.stores, by rw [hm.output], hm.depth⟩

/-- What is traced does not matter. -/
theorem sim_traceLine (cfg : Settings) (line line' : Machine → String) :
    W.Sim Same (Run.traceLine cfg line) fun _ => Run.traceLine cfg line' := by
  unfold Run.traceLine
  split
  · exact sim_modify fun m m' hm => ⟨hm.stores, hm.output, hm.depth⟩
  · exact sim_pure rfl

/-- The same check on both sides. -/
theorem sim_check {p : Prop} [Decidable p] (f : Fault) :
    W.Sim Same (if p then Run.fault f else pure ()) fun _ =>
      if p then Run.fault f else pure () := by
  split
  · exact sim_fault f
  · exact sim_pure rfl

/-- Something is added to both stores. -/
theorem sim_allocate {add add' : Store → Store × Nat} {R : World → Nat → Nat → Prop}
    (h : ∀ s s', W.Stores s s' → ∃ W', W.Grows W' ∧ W'.Stores (add s).1 (add' s').1 ∧
      R W' (add s).2 (add' s').2) :
    W.Sim R (Run.allocate add) fun _ => Run.allocate add' := by
  intro m m' hm
  obtain ⟨W', hW, hstores, hR⟩ := h m.store m'.store hm.stores
  have hmachines : W'.Machines { m with store := (add m.store).1 }
      { m' with store := (add' m'.store).1 } := ⟨hstores, hm.output, hm.depth⟩
  exact .done hW hmachines hR tends_const

/-- A frame is added to both stores, where the same names are seen. -/
theorem sim_newFrame {e e' : Nat} (h : W.Scope e e') :
    W.Sim (fun W' x x' => W'.pair x x') (Run.newFrame e) fun _ => Run.newFrame e' :=
  sim_allocate fun _ _ hs => ⟨_, W.grows_addPair _ _, hs.addPair h, .inr ⟨rfl, rfl⟩⟩

/-- The same array is added on both sides, at the same address. -/
theorem sim_newArray (vs : Array Value) :
    W.Sim Same (Run.newArray vs) fun _ => Run.newArray vs := by
  refine (sim_allocate (R := Same) fun s s' hs => ⟨W, .refl W, ?_, ?_⟩).bind fun _ a _ _ ha => ?_
  · exact hs.withArrays (by rw [hs.arrays])
  · exact congrArg Array.size hs.arrays
  · cases ha
    exact sim_pure rfl

/-- Related functions are added on both sides, at the same address. -/
theorem sim_newFunction {c c' : Closure} (h : W.Functions c c') :
    W.Sim Same (Run.newFunction c) fun _ => Run.newFunction c' := by
  refine (sim_allocate (R := Same) fun s s' hs => ⟨W, .refl W, ?_, ?_⟩).bind fun _ a _ _ ha => ?_
  · exact hs.addClosure h
  · exact hs.count
  · cases ha
    exact sim_pure rfl

/-- A function is found on both sides or on none. -/
theorem sim_closure (address : Nat) :
    W.Sim Functions (Run.closure address) fun _ => Run.closure address := by
  refine Sim.store fun s s' hs => ?_
  rcases hs.closure? address with ⟨hc, hc'⟩ | ⟨c, c', hc, hc', hcc⟩
  · rw [hc, hc']
    exact sim_fault _
  · rw [hc, hc']
    exact sim_pure hcc

/-- An element is found on both sides or on none. -/
theorem sim_element (a i : Nat) : W.Sim Same (Run.element a i) fun _ => Run.element a i := by
  refine Sim.store fun s s' hs => ?_
  rw [hs.elements]
  cases (s.elements a)[i]? with
  | some v => exact sim_pure rfl
  | none => exact sim_fault _

/-- Arrays change in the same way. -/
theorem sim_modifyArrays (a : Nat) (g : Array Value → Array Value) :
    W.Sim Same (Run.modifyStore fun s => { s with arrays := s.arrays.modify a g })
      fun _ => Run.modifyStore fun s => { s with arrays := s.arrays.modify a g } :=
  sim_modifyStore fun _ _ hs => hs.withArrays (by rw [hs.arrays])

/-- Nothing is replaced where no element is found. -/
theorem sim_replaceElement (a i : Nat) (v : Value) :
    W.Sim Same (Run.replaceElement a i v) fun _ => Run.replaceElement a i v :=
  (sim_element a i).bind fun _ _ _ _ _ => sim_modifyArrays a _

/-- The same binding is made in related frames. -/
theorem sim_declare {e e' : Nat} (h : W.pair e e') (name : String) (v : Value) (mutable : Bool) :
    W.Sim Same (Run.modifyStore (·.declare e name v mutable))
      fun _ => Run.modifyStore (·.declare e' name v mutable) :=
  sim_modifyStore fun _ _ hs => hs.declare h name v mutable

/-- A name may be assigned to in related frames, or in none, for the same reason. -/
theorem sim_assignable {e e' : Nat} (h : W.Scope e e') (name : String) :
    W.Sim (fun W' g g' => W'.pair g g') (do Run.ofExcept ((← Run.store).assignable e name))
      (fun _ => do Run.ofExcept ((← Run.store).assignable e' name)) := by
  refine Sim.store fun s s' hs => ?_
  rcases hs.assignable h name with ⟨f, hf, hf'⟩ | ⟨g, g', hg, hg', hpair⟩
  · rw [hf, hf']
    exact sim_fault f
  · rw [hg, hg']
    exact sim_pure hpair

/-- The same binding gets the same value in related frames. -/
theorem sim_update {e e' : Nat} (h : W.pair e e') (name : String) (v : Value) :
    W.Sim Same (Run.modifyStore (·.update e name v))
      fun _ => Run.modifyStore (·.update e' name v) :=
  sim_modifyStore fun _ _ hs => hs.update h name v

/-- The same is done for each of several values. -/
theorem sim_mapM {f : α → Run γ} (hf : ∀ W a, Sim W Same (f a) fun _ => f a) (xs : List α) :
    W.Sim Same (xs.mapM f) fun _ => xs.mapM f := by
  induction xs generalizing W with
  | nil => exact sim_pure rfl
  | cons x xs ih =>
      rw [List.mapM_cons]
      refine (hf W x).bind fun _ y _ _ hy => ih.bind fun _ ys _ _ hys => ?_
      cases hy
      cases hys
      exact sim_pure rfl

/-- The arguments of a call are shown alike, or cannot be shown in either store. -/
theorem sim_traceCall (cfg : Settings) (name : String) (args : List Value) :
    W.Sim Same (traceCall cfg name args) fun _ => traceCall cfg name args := by
  unfold traceCall
  split
  · refine Sim.bind (Q := Same) (Sim.store fun s s' hs => ?_) fun _ _ _ _ _ => sim_traceLine cfg _ _
    simp only [hs.display]
    refine (sim_mapM (fun _ v => sim_ofShow _) _).bind fun W₁ shown _ _ hshown => ?_
    cases hshown
    exact sim_pure rfl
  · exact sim_pure rfl

/-- A builtin does the same on both sides, since it never looks at frames. -/
theorem sim_perform (b : Builtin) (limit : Nat) (args : List Value) :
    W.Sim Same (b.perform limit args) fun _ => b.perform limit args := by
  unfold Builtin.perform
  split
  · refine Sim.store fun s s' hs => ?_
    simp only [hs.display]
    refine (sim_mapM (fun _ v => sim_ofShow _) _).bind fun W₁ parts _ _ hparts => ?_
    cases hparts
    exact (sim_print _).bind fun _ _ _ _ _ => sim_pure rfl
  · refine Sim.store fun s s' hs => ?_
    rw [hs.elements]
    exact sim_pure rfl
  · exact sim_pure rfl
  · exact sim_fault _
  · exact (sim_modifyArrays _ _).bind fun _ _ _ _ _ => sim_pure rfl
  · refine Sim.store fun s s' hs => ?_
    rw [hs.elements]
    split
    · exact sim_fault _
    · exact (sim_modifyArrays _ _).bind fun _ _ _ _ _ => sim_pure rfl
  · refine Sim.store fun s s' hs => ?_
    rw [hs.display]
    refine (sim_ofShow _).bind fun _ t _ _ ht => ?_
    cases ht
    exact sim_pure rfl
  · exact sim_pure rfl
  · exact sim_newArray _
  · exact sim_fault _

/-- So it does after a check of its arguments. -/
theorem sim_builtin (b : Builtin) (args : List Value) (limit : Nat) :
    W.Sim Same (b.apply args limit) fun _ => b.apply args limit := by
  unfold Builtin.apply
  split
  · exact (sim_ofExcept _).bind fun _ _ _ _ _ => sim_perform b limit args
  · exact sim_perform b limit args

/-- The parameters are bound one after the other in related frames. -/
theorem sim_bindParameters {e e' : Nat} (h : W.pair e e') (params : List String)
    (args : List Value) :
    W.Sim Same (bindParameters e params args) fun _ => bindParameters e' params args := by
  unfold bindParameters
  generalize params.zip args = ps
  induction ps generalizing W with
  | nil => exact sim_pure rfl
  | cons p ps ih =>
      exact (sim_declare h p.1 p.2 true).bind fun _ _ _ hW _ => ih (hW.pair h)

/-! ### Plans -/

/-- The first plan, in which activities run with the given fuel, is followed by the second one. -/
def Plans (W : World) (cfg : Settings) (fuel : Nat) (Q : World → α → β → Prop) (p : Plan α)
    (p' : Plan β) : Prop :=
  W.Sim Q (p.run fun a => a.run cfg fuel) fun k => p'.run fun a => a.run cfg k

variable {cfg : Settings} {fuel : Nat} {p : Plan α} {p' : Plan β}

/-- Two plans one after the other. -/
theorem Plans.bind {f : α → Plan γ} {f' : β → Plan δ} (h : W.Plans cfg fuel Q p p')
    (hf : ∀ W' a b, W.Grows W' → Q W' a b → W'.Plans cfg fuel P (f a) (f' b)) :
    W.Plans cfg fuel P (p >>= f) (p' >>= f') := Sim.bind h hf

/-- A single operation. -/
theorem plans_act {r' : Run β} (h : W.Sim Q r fun _ => r') :
    W.Plans cfg fuel Q (.act r) (.act r') := h

/-- Related results. -/
theorem plans_pure {a : α} {b : β} (h : Q W a b) : W.Plans cfg fuel Q (pure a) (pure b) :=
  sim_pure h

theorem plans_fault (f : Fault) :
    W.Plans cfg fuel Q (.act (Run.fault f)) (.act (Run.fault f)) := sim_fault f

/-- A call of another activity. -/
theorem plans_call {a b : Activity} {Q : World → a.Result → b.Result → Prop}
    (h : W.Sim Q (a.run cfg fuel) fun k => b.run cfg k) :
    W.Plans cfg fuel Q (.call a) (.call b) := h

/-- A fault is placed at the same place. -/
theorem Sim.locate (h : W.Sim Q r r') (span : Option Span) :
    W.Sim Q (Run.locate span r) fun k => Run.locate span (r' k) := by
  intro m m' hm
  have hends := h m m' hm
  rw [Run.run_locate]
  generalize r.run.run m = out at hends
  cases hends with
  | spent m₁ => exact .spent m₁
  | @halted W' h m₁ m₁' grows machines tends =>
      rcases h with ⟨f, _ | s⟩ | _ | _ <;>
        exact .halted grows machines (tends.through fun k hk => by rw [Run.run_locate, hk])
  | done grows machines result tends =>
      exact .done grows machines result (tends.through fun k hk => by rw [Run.run_locate, hk])

/-- The depth counts on both sides. -/
theorem Sim.inCall (h : W.Sim Q r r') (name : String) :
    W.Sim Q (Run.inCall name r) fun k => Run.inCall name (r' k) := by
  intro m m' hm
  have hentered : W.Machines { m with depth := m.depth + 1 } { m' with depth := m'.depth + 1 } :=
    ⟨hm.stores, hm.output, by rw [hm.depth]⟩
  have hends := h _ _ hentered
  rw [Run.run_inCall]
  generalize r.run.run { m with depth := m.depth + 1 } = out at hends
  have hleft : ∀ {W' : World} {m₁ m₁' : Machine}, W'.Machines m₁ m₁' →
      W'.Machines { m₁ with depth := m₁.depth - 1 } { m₁' with depth := m₁'.depth - 1 } :=
    fun hm₁ => ⟨hm₁.stores, hm₁.output, by rw [hm₁.depth]⟩
  cases hends with
  | spent m₁ => exact .spent _
  | @halted W' h m₁ m₁' grows machines tends =>
      rcases h with ⟨f, s⟩ | _ | _ <;>
        exact .halted grows (hleft machines) (tends.through fun k hk => by rw [Run.run_inCall, hk])
  | done grows machines result tends =>
      exact .done grows (hleft machines) result
        (tends.through fun k hk => by rw [Run.run_inCall, hk])

/-- An activity is followed if its plan is. -/
theorem Plans.sim {a b : Activity} {Q : World → a.Result → b.Result → Prop}
    (h : W.Plans cfg fuel Q (a.plan cfg) (b.plan cfg)) :
    W.Sim Q (a.run cfg (fuel + 1)) fun k => b.run cfg k := by
  refine Sim.succ ?_
  simp only [Activity.run_succ]
  exact h

/-- Nodes are entered, with whatever lines for the trace. -/
theorem Plans.entered {line line' : String} {span : Option Span}
    (h : ∀ W', W.Grows W' → W'.Plans cfg fuel Q p p') :
    W.Plans cfg fuel Q (p.entered cfg line span) (p'.entered cfg line' span) :=
  Plans.bind (plans_act (sim_traceLine cfg _ _)) fun W' _ _ hW _ => Sim.locate (h W' hW) span

end World

end Ember
