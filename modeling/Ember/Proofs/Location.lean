import Ember.Proofs.Placement
import Ember.Proofs.Safety

/-!
# Location — runtime errors are located at the innermost node

A fault that does not know its place takes one on its way out, from the nodes that it passes. To
say which node that is, the evaluator is run once more with the nodes in progress written down: a
node is put on top when it is entered, and taken off when it is left. The two runs do the same, and
a program that was read from a text fails at the node that was on top when the fault was raised.

* `Activity.track`, `trackProgram`: running with the nodes in progress written down.
* `Follows`: what the run without that list makes of a halt.
* `Activity.follows`: one activity with the list and without.
* `fault_at_innermost_node`: where faults are located.
-/

namespace Ember

/-! ### The nodes in progress -/

/-- A run has ended early while the nodes were in progress, innermost first. -/
structure Raised where
  halt : Halt
  active : List Node

/-- A computation on the machine that knows the nodes in progress. -/
abbrev Tracked := ExceptT Raised (StateM Machine)

namespace Tracked

variable {α β : Type}

/-- A computation while the nodes are in progress. -/
def ofRun (active : List Node) (r : Run α) : Tracked α := ExceptT.mk do
  return (← r.run).mapError (Raised.mk · active)

/-- Runs inside one more call in progress. What is shown too deeply in it is a fault of the call,
raised when all nodes inside of it have been left. -/
def inCall (active : List Node) (name : String) (r : Tracked α) : Tracked α := ExceptT.mk do
  modify fun m => { m with depth := m.depth + 1 }
  let result ← r.run
  modify fun m => { m with depth := m.depth - 1 }
  match result with
  | .error ⟨.displayTooDeep, _⟩ => return .error ⟨.fault (.tooDeep name) none, active⟩
  | result => return result

end Tracked

/-- Runs a plan while the nodes are in progress. Faults keep the place that they were raised
with. -/
def Plan.track (active : List Node) (call : (a : Activity) → Tracked a.Result) {α : Type} :
    Plan α → Tracked α
  | act r => Tracked.ofRun active r
  | .call a => call a
  | bind p f => p.track active call >>= fun a => (f a).track active call
  | locate _ p => p.track active call
  | inCall name p => Tracked.inCall active name (p.track active call)

/-- Runs an activity while the nodes are in progress. If it evaluates or executes a node, this is in
progress as well until the activity ends. -/
def Activity.track (cfg : Settings) : (fuel : Nat) → List Node → (a : Activity) → Tracked a.Result
  | 0, active, a => throw ⟨.outOfFuel, a.node?.toList ++ active⟩
  | fuel + 1, active, a =>
    let active := a.node?.toList ++ active
    (a.plan cfg).track active fun b => b.track cfg fuel active

/-- Runs statements from the top of a program, with nothing in progress between them. -/
def trackFrom (cfg : Settings) (fuel : Nat) (result : Value) : List Node → Tracked Value
  | [] => return result
  | n :: ns => do
    match (← Activity.track cfg fuel [] (.exec n Store.root) : Signal) with
    | .returned _ => throw ⟨.fault .returnOutside n.span, []⟩
    | .normal (some v) => trackFrom cfg fuel v ns
    | .normal none => trackFrom cfg fuel result ns

/-- Runs a program with the nodes in progress written down. -/
def trackProgram (cfg : Settings) (fuel : Nat) (ns : List Node) : Tracked Value :=
  trackFrom cfg fuel .unit ns

/-! ### Running with the list and without -/

/-- What a halt becomes on its way out of nodes: a fault without a place takes the first one. -/
def Halt.leaving : Halt → List Node → Halt
  | .fault f none, ns => .fault f (ns.findSome? Node.span)
  | h, _ => h

/-- A fault has a place of its own only if a node makes no sense. -/
def Halt.Candid : Halt → Prop
  | .fault f (some _) => f.kind = .structural
  | _ => True

@[simp] theorem Halt.leaving_nil (h : Halt) : h.leaving [] = h := by
  rcases h with ⟨f, _ | s⟩ | _ | _ <;> rfl

/-- The second run is the first one, with the nodes in progress written down. If it is halted, the
first one is in the same machine, and its halt has left the nodes that were entered since; what
halted and these nodes satisfy `Q`. -/
inductive Follows {α : Type} (active : List Node) (Q : Halt → List Node → Prop) :
    Except Halt α × Machine → Except Raised α × Machine → Prop where
  | ok (a : α) (m : Machine) : Follows active Q (.ok a, m) (.ok a, m)
  | error {h : Halt} {inner : List Node} (m : Machine) (hQ : Q h inner) :
      Follows active Q (.error (h.leaving inner), m) (.error ⟨h, inner ++ active⟩, m)

section

variable {α β : Type} {active : List Node} {Q Q' : Halt → List Node → Prop}

theorem Follows.mono {out : Except Halt α × Machine} {seen : Except Raised α × Machine}
    (h : Follows active Q out seen) (hQ : ∀ h inner, Q h inner → Q' h inner) :
    Follows active Q' out seen := by
  cases h with
  | ok a m => exact .ok a m
  | error m h => exact .error m (hQ _ _ h)

/-- A halt that has become what it becomes by leaving nodes. -/
theorem follows_error {h h' : Halt} (inner : List Node) (m : Machine) (hQ : Q h inner)
    (hh : h.leaving inner = h') :
    Follows (α := α) active Q (.error h', m) (.error ⟨h, inner ++ active⟩, m) :=
  hh ▸ .error m hQ

theorem Tracked.run_bind (r : Tracked α) (f : α → Tracked β) (m : Machine) :
    (r >>= f).run.run m = match r.run.run m with
      | (.ok a, m') => (f a).run.run m'
      | (.error h, m') => (.error h, m') := by
  have hcont : (r >>= f).run.run m
      = (fun p : Except Raised α × Machine => (ExceptT.bindCont f p.1).run p.2) (r.run.run m) := rfl
  rw [hcont]
  rcases r.run.run m with ⟨_ | _, m'⟩ <;> rfl

theorem Tracked.run_ofRun (active : List Node) (r : Run α) (m : Machine) :
    (Tracked.ofRun active r).run.run m
      = ((r.run.run m).1.mapError (Raised.mk · active), (r.run.run m).2) := rfl

/-- Two parts of a run are followed by the two parts of the other one. -/
theorem Follows.bind {r : Run α} {t : Tracked α} {f : α → Run β} {g : α → Tracked β} {m : Machine}
    (h : Follows active Q (r.run.run m) (t.run.run m))
    (hf : ∀ a m', r.run.run m = (.ok a, m') →
      Follows active Q ((f a).run.run m') ((g a).run.run m')) :
    Follows active Q ((r >>= f).run.run m) ((t >>= g).run.run m) := by
  rw [Run.run_bind, Tracked.run_bind]
  generalize r.run.run m = out at h hf
  generalize t.run.run m = seen at h
  cases h with
  | ok a m' => exact hf a m' rfl
  | error m' h => exact .error m' h

/-- The bookkeeping of a call is followed; only the call limit brings in a halt of its own. -/
theorem Follows.inCall {r : Run α} {t : Tracked α} {m : Machine} (name : String)
    (htooDeep : Q (.fault (.tooDeep name) none) [])
    (h : Follows active Q (r.run.run { m with depth := m.depth + 1 })
      (t.run.run { m with depth := m.depth + 1 })) :
    Follows active Q ((Run.inCall name r).run.run m)
      ((Tracked.inCall active name t).run.run m) := by
  have hseen : (Tracked.inCall active name t).run.run m =
      let p := t.run.run { m with depth := m.depth + 1 }
      StateT.run (match p.1 with
        | .error ⟨.displayTooDeep, _⟩ => pure (.error ⟨.fault (.tooDeep name) none, active⟩)
        | x => pure x) { p.2 with depth := p.2.depth - 1 } := rfl
  rw [Run.run_inCall, hseen]
  generalize r.run.run { m with depth := m.depth + 1 } = out at h
  generalize t.run.run { m with depth := m.depth + 1 } = seen at h
  cases h with
  | ok a m' => exact .ok a _
  | @error h inner m' hQ =>
      rcases h with ⟨f, _ | s⟩ | _ | _
      · exact .error (h := .fault f none) _ hQ
      · exact .error (h := .fault f (some s)) _ hQ
      · exact follows_error [] _ htooDeep rfl
      · exact .error (h := .outOfFuel) _ hQ

end

/-! ### Plans -/

/-- A computation in which faults have places of their own only if a node makes no sense. -/
def Run.Candid {α : Type} (r : Run α) : Prop := ∀ m h m', r.run.run m = (.error h, m') → h.Candid

theorem Run.basic_candid : Run.Basic fun _ r => r.Candid where
  pure _ _ _ _ h := by cases h
  fault _ _ _ _ h := by cases h; trivial
  structural span hf _ _ _ h := by
    cases h
    cases span with
    | none => trivial
    | some s => exact hf
  tooDeep _ _ _ h := by cases h; trivial
  store _ _ _ h := by cases h
  modifyStore _ _ _ _ h := by cases h
  print _ _ _ _ h := by cases h
  traceLine cfg line m _ _ h := by
    obtain ⟨t, ht⟩ := Run.run_traceLine cfg line m
    rw [ht] at h
    cases h
  allocate _ _ _ _ h := by cases h
  bind {_ _ r f} hr hf m h m' hrun := by
    rw [Run.run_bind] at hrun
    cases hout : r.run.run m with
    | mk x m₁ =>
        rw [hout] at hrun
        cases x with
        | error h' =>
            cases hrun
            exact hr m _ _ hout
        | ok a => exact hf a m₁ _ _ hrun

theorem follows_act {α : Type} {r : Run α} {active : List Node} {Q : Halt → List Node → Prop}
    (hr : r.Candid) (hQ : ∀ h : Halt, h.Candid → Q h []) (m : Machine) :
    Follows active Q (r.run.run m) ((Tracked.ofRun active r).run.run m) := by
  rw [Tracked.run_ofRun]
  have hcandid := hr m
  generalize r.run.run m = out at hcandid
  rcases out with ⟨h | a, m'⟩
  · exact follows_error [] m' (hQ h (hcandid h m' rfl)) h.leaving_nil
  · exact .ok a m'

/-- A plan without places, if what it calls is followed. -/
theorem Plan.Built.follows {α : Type} {p : Plan α} {k : Nat} {active : List Node} {m : Machine}
    {Q : Halt → List Node → Prop} {call : (a : Activity) → Run a.Result}
    {seen : (a : Activity) → Tracked a.Result} (h : p.Built (fun _ r => r.Candid) k)
    (hQ : ∀ h : Halt, h.Candid → Q h [])
    (hcall : ∀ b m', p.Calls call m b m' →
      Follows active Q ((call b).run.run m') ((seen b).run.run m')) :
    Follows active Q ((p.run call).run.run m) ((p.track active seen).run.run m) := by
  induction p generalizing k m with
  | act r => exact follows_act h hQ m
  | call a => exact hcall a m ⟨rfl, rfl⟩
  | bind p f ihp ihf =>
      refine (ihp h.1 fun b m' hb => hcall b m' (.inl hb)).bind fun a m₁ ha => ?_
      exact ihf a (h.2 a) fun b m' hb => hcall b m' (.inr ⟨a, m₁, ha, hb⟩)
  | locate span p ih => exact h.elim
  | inCall name p ih =>
      obtain ⟨j, -, hj⟩ := h
      exact (ih hj hcall).inCall name (hQ _ trivial)

/-! ### Activities -/

/-- What halted, and the nodes it has left: all of them are entered after the moment. -/
structure Moment.Left (cfg : Settings) (x : Moment) (h : Halt) (inner : List Node) : Prop where
  candid : h.Candid
  entered : ∀ n ∈ inner, ∃ y, x.Leads cfg y ∧ y.activity.node? = some n

/-- The nodes that are entered after a call are entered after the moment that makes it. -/
theorem Moment.Left.of_calls {cfg : Settings} {x y : Moment} {h : Halt} {inner : List Node}
    (hleft : y.Left cfg h inner) (hxy : x.Calls cfg y) : x.Left cfg h inner := by
  refine ⟨hleft.candid, fun n hn => ?_⟩
  obtain ⟨z, hz, hnode⟩ := hleft.entered n hn
  exact ⟨z, .head hxy hz, hnode⟩

/-- Leaving one more node, which gives its place to a fault. -/
theorem Halt.locate_leaving (h : Halt) (inner : List Node) (n : Node) :
    (match h.leaving inner with
      | .fault f none => .fault f n.span
      | x => x) = h.leaving (inner ++ [n]) := by
  rcases h with ⟨f, _ | s⟩ | _ | _
  · simp only [Halt.leaving, List.findSome?_append, List.findSome?_singleton]
    cases inner.findSome? Node.span <;> rfl
  · rfl
  · rfl
  · rfl

/-- The plan of a node, around a part that is followed. -/
theorem follows_entered {α : Type} {body : Plan α} {cfg : Settings} {line : String} {n : Node}
    {active : List Node} {m : Machine} {Q Q' : Halt → List Node → Prop}
    {call : (a : Activity) → Run a.Result} {seen : (a : Activity) → Tracked a.Result}
    (hbody : ∀ m', (Run.traceLine cfg fun _ => line).run.run m = (.ok (), m') →
      Follows (n :: active) Q ((body.run call).run.run m')
        ((body.track (n :: active) seen).run.run m'))
    (hQ : ∀ h inner, Q h inner → Q' h (inner ++ [n])) :
    Follows active Q' (((body.entered cfg line n.span).run call).run.run m)
      (((body.entered cfg line n.span).track (n :: active) seen).run.run m) := by
  obtain ⟨t, hm'⟩ := Run.run_traceLine cfg (fun _ => line) m
  generalize { m with trace := t } = m' at hm'
  have hrun : ((body.entered cfg line n.span).run call).run.run m
      = (Run.locate n.span (body.run call)).run.run m' := by
    change ((Run.traceLine cfg fun _ => line) >>= fun _ => _).run.run m = _
    rw [Run.run_bind, hm']
    rfl
  have hseen : ((body.entered cfg line n.span).track (n :: active) seen).run.run m
      = (body.track (n :: active) seen).run.run m' := by
    change (Tracked.ofRun (n :: active) (Run.traceLine cfg fun _ => line) >>= fun _ => _).run.run m
      = _
    rw [Tracked.run_bind, Tracked.run_ofRun, hm']
    rfl
  rw [hrun, hseen, Run.run_locate]
  have hfollows := hbody m' hm'
  generalize (body.run call).run.run m' = out at hfollows
  generalize (body.track (n :: active) seen).run.run m' = tracked at hfollows
  cases hfollows with
  | ok a m₁ => exact .ok a m₁
  | @error h inner m₁ hh =>
      have hout : Follows (α := α) active Q' _ _ :=
        follows_error _ m₁ (hQ h inner hh) (h.locate_leaving inner n).symm
      rw [List.append_assoc, List.singleton_append] at hout
      refine Eq.mp ?_ hout
      rcases h.leaving inner with ⟨f, _ | s⟩ | _ | _ <;> rfl

/-- **With the nodes in progress written down, an activity does the same.** If it halts, the nodes
that it was inside of are those that the halt has left, its own node among them. -/
theorem Activity.follows (cfg : Settings) (fuel : Nat) (active : List Node) (a : Activity)
    (m : Machine) : Follows active
      (fun h inner => Moment.Left cfg ⟨fuel, a, m⟩ h inner ∧ ∀ n ∈ a.node?, n ∈ inner)
      ((a.run cfg fuel).run.run m) ((a.track cfg fuel active).run.run m) := by
  induction fuel generalizing active a m with
  | zero =>
      rw [Contract.run_zero]
      refine .error (h := .outOfFuel) m ⟨⟨trivial, fun n hn => ?_⟩, fun n hn => ?_⟩
      · exact ⟨_, .refl, Option.mem_toList.mp hn⟩
      · exact Option.mem_toList.mpr hn
  | succ fuel ih =>
      rw [run_succ, track]
      have hnil : ∀ h : Halt, h.Candid → Moment.Left cfg ⟨fuel + 1, a, m⟩ h [] := fun h hh =>
        ⟨hh, fun _ hn => absurd hn List.not_mem_nil⟩
      have hcalls : ∀ active b m', (a.plan cfg).Calls (fun b => b.run cfg fuel) m b m' →
          Follows active (Moment.Left cfg ⟨fuel + 1, a, m⟩) ((b.run cfg fuel).run.run m')
            ((b.track cfg fuel active).run.run m') := fun active b m' hb =>
        (ih active b m').mono fun h inner hh =>
          hh.1.of_calls (x := ⟨fuel + 1, a, m⟩) (y := ⟨fuel, b, m'⟩) ⟨rfl, hb⟩
      have hshape := plan_shape Run.basic_candid cfg a fun _ _ _ _ h => by cases h
      unfold Shaped at hshape
      split at hshape
      · rename_i n hn
        rw [hn]
        -- the node is left last, and gives its place to what has none by then
        have hlast : ∀ h inner, Moment.Left cfg ⟨fuel + 1, a, m⟩ h inner →
            Moment.Left cfg ⟨fuel + 1, a, m⟩ h (inner ++ [n]) ∧ ∀ k ∈ some n, k ∈ inner ++ [n] := by
          intro h inner hh
          refine ⟨⟨hh.candid, fun k hk => ?_⟩, fun k hk => ?_⟩
          · rcases List.mem_append.mp hk with hk | hk
            · exact hh.entered k hk
            · rw [List.mem_singleton.mp hk]
              exact ⟨_, .refl, hn⟩
          · cases hk
            exact List.mem_append_right _ List.mem_cons_self
        generalize a.plan cfg = p at hshape hcalls
        cases hshape with
        | entered line h =>
            refine follows_entered (fun m' hm' => ?_) hlast
            exact h.follows hnil fun b m'' hb => hcalls (n :: active) b m'' (.inr ⟨(), m', hm', hb⟩)
        | @senseless f h =>
            have hcandid : (Halt.fault f n.span).Candid := by
              cases n.span with
              | none => trivial
              | some s => exact h
            refine follows_error [n] m (hlast _ [] (hnil _ hcandid)) ?_
            cases hspan : n.span <;> simp [Halt.leaving, hspan]
      · rename_i hn
        rw [hn]
        refine (hshape.follows hnil (hcalls active)).mono fun h inner hh => ⟨hh, ?_⟩
        exact fun n hn => absurd hn (Option.not_mem_none n)

/-! ### Programs -/

/-- What halted a program, and the nodes it has left: all of them are entered while the program
runs, and there are some unless the program makes no sense. -/
structure Unwound (cfg : Settings) (fuel : Nat) (ns : List Node) (m : Machine) (h : Halt)
    (inner : List Node) : Prop where
  candid : h.Candid
  entered : ∀ n ∈ inner, ∃ x, Enters cfg fuel ns m x ∧ x.activity.node? = some n
  inside : inner ≠ [] ∨ ∃ f span, h = .fault f span ∧ f.kind = .structural

variable {cfg : Settings} {fuel : Nat}

/-- A program as a whole is followed, from nothing in progress. -/
theorem follows_trackFrom (ns : List Node) (v : Value) (m : Machine) :
    Follows [] (Unwound cfg fuel ns m) ((runFrom cfg fuel v ns).run.run m)
      ((trackFrom cfg fuel v ns).run.run m) := by
  induction ns generalizing v m with
  | nil => exact .ok v m
  | cons n ns ih =>
      have hfirst : Follows [] (Unwound cfg fuel (n :: ns) m)
          ((exec cfg fuel n Store.root).run.run m)
          ((Activity.track cfg fuel [] (.exec n Store.root)).run.run m) := by
        refine (Activity.follows cfg fuel [] (.exec n Store.root) m).mono fun h inner hh => ?_
        refine ⟨hh.1.candid, fun k hk => ?_, .inl (List.ne_nil_of_mem (hh.2 n rfl))⟩
        obtain ⟨y, hy, hnode⟩ := hh.1.entered k hk
        exact ⟨y, .inl hy, hnode⟩
      refine hfirst.bind fun signal m' hm' => ?_
      have hlater : ∀ u w, signal = .normal w → Follows [] (Unwound cfg fuel (n :: ns) m)
          ((runFrom cfg fuel u ns).run.run m') ((trackFrom cfg fuel u ns).run.run m') := by
        rintro u w rfl
        refine (ih u m').mono fun h inner hh => ⟨hh.candid, fun k hk => ?_, hh.inside⟩
        obtain ⟨x, hx, hnode⟩ := hh.entered k hk
        exact ⟨x, .inr ⟨w, m', hm', hx⟩, hnode⟩
      rcases signal with (_ | w) | w
      · exact hlater v none rfl
      · exact hlater w (some w) rfl
      · have hcandid : (Halt.fault .returnOutside n.span).Candid := by
          cases n.span with
          | none => trivial
          | some s => exact rfl
        refine follows_error [] m' ⟨hcandid, ?_, .inr ⟨_, _, rfl, rfl⟩⟩ (Halt.leaving_nil _)
        exact fun _ hk => absurd hk List.not_mem_nil

/-- Programs that were read and analyzed run into errors of programs only. -/
theorem expected_of_halt {filename source : String} {ts : List Tree} {ns : List Node} {halt : Halt}
    (hts : parseProgram filename source = .ok ts) (hns : analyzeTrees ts = .ok ns)
    (hhalt : ((runProgram cfg fuel ns).run.run Machine.fresh).1 = .error halt) :
    halt.Expected := by
  have hformed := analyzeTrees_formed (parseProgram_shaped hts)
  rw [hns] at hformed
  have hroot : Store.fresh.Has (.frame Store.root) := rfl
  have hrun : Discipline.safety.Holds Store.fresh (runProgram cfg fuel ns)
      Discipline.safety.Good :=
    Discipline.holds_runProgram Store.fresh_safe hroot (fun _ => hroot) fun n hn _ => hformed n hn
  exact hrun.of_error (m := Machine.fresh) trivial hhalt

theorem Fault.Expected.ne_structural {f : Fault} (h : f.Expected) : f.kind ≠ .structural := by
  intro hkind
  rw [Fault.Expected, hkind] at h
  exact absurd h (by decide)

/-- **Runtime errors are located at the innermost node.** Let a program that was read from a text
and accepted by the analysis end in a runtime error. Run with the nodes in progress written down, it
ends with the same error in the same machine; nodes were in progress when the error was raised, and
the place of the error is that of the innermost one, which has a place. -/
theorem fault_at_innermost_node {filename source : String} {ts : List Tree} {ns : List Node}
    {f : Fault} {span : Option Span} {m : Machine}
    (hts : parseProgram filename source = .ok ts) (hns : analyzeTrees ts = .ok ns)
    (hrun : (runProgram cfg fuel ns).run.run .fresh = (.error (.fault f span), m)) :
    span.isSome ∧ ∃ n active,
      (trackProgram cfg fuel ns).run.run .fresh = (.error ⟨.fault f none, n :: active⟩, m) ∧
        span = n.span := by
  have hexpected : (Halt.fault f span).Expected := expected_of_halt hts hns (by rw [hrun])
  have hkind : f.kind ≠ .structural := Fault.Expected.ne_structural hexpected
  have hplaced := analyzeTrees_placed hts hns
  have hfollows : Follows [] (Unwound cfg fuel ns .fresh) _ _ :=
    follows_trackFrom ns .unit .fresh
  rw [show (runFrom cfg fuel .unit ns).run.run .fresh = _ from hrun] at hfollows
  change span.isSome ∧ ∃ n active, (trackFrom cfg fuel .unit ns).run.run .fresh = _ ∧ _
  generalize hseen : (trackFrom cfg fuel .unit ns).run.run .fresh = seen at hfollows
  generalize hout : Except.error (Halt.fault f span) = out at hfollows
  cases hfollows with
  | ok a m => cases hout
  | @error h inner m hh =>
      rcases h with ⟨g, _ | place⟩ | _ | _ <;> cases hout
      · obtain ⟨n, active, rfl⟩ : ∃ n active, inner = n :: active := by
          rcases hh.inside with hne | ⟨g, s, heq, hg⟩
          · exact List.exists_cons_of_ne_nil hne
          · cases heq
            exact absurd hg hkind
        obtain ⟨x, hx, hnode⟩ := hh.entered n List.mem_cons_self
        obtain ⟨place, hplace⟩ := Option.isSome_iff_exists.mp (hx.placed hplaced hnode).isSome
        have hspan : (n :: active).findSome? Node.span = n.span := by
          rw [List.findSome?_cons, hplace]
        refine ⟨by rw [hspan, hplace]; rfl, n, active, ?_, hspan⟩
        rw [List.append_nil]
      · exact absurd hh.candid hkind

/-- A function divides by zero: the error is located at the division, which was in progress inside
of the call. -/
theorem division_located :
    ∃ ts ns n active m, parseProgram "sample" "fun f(n) \x7b return n / 0 \x7d\nf(1)" = .ok ts ∧
      analyzeTrees ts = .ok ns ∧ n.span = some ⟨"sample", 1, 19, 1, 20, "/"⟩ ∧
        (trackProgram ⟨1000, false⟩ 40 ns).run.run .fresh
          = (.error ⟨.fault (.divisionByZero "divide" "Int") none, n :: active⟩, m) := by
  have hok : (parseProgram "sample" "fun f(n) \x7b return n / 0 \x7d\nf(1)").toOption.any
      fun ts => (analyzeTrees ts).toOption.any fun ns =>
        match ((runProgram ⟨1000, false⟩ 40 ns).run.run .fresh).1 with
        | .error h => h = .fault (.divisionByZero "divide" "Int")
            (some ⟨"sample", 1, 19, 1, 20, "/"⟩)
        | .ok _ => false := by decide +kernel
  obtain ⟨ts, hts, hok⟩ := exists_ok_of_any hok
  obtain ⟨ns, hns, hok⟩ := exists_ok_of_any hok
  cases hrun : (runProgram ⟨1000, false⟩ 40 ns).run.run .fresh with
  | mk result m =>
      rw [hrun] at hok
      cases result with
      | ok _ => cases hok
      | error h =>
          obtain rfl : h = _ := of_decide_eq_true hok
          obtain ⟨-, n, active, hseen, hspan⟩ := fault_at_innermost_node hts hns hrun
          exact ⟨ts, ns, n, active, m, hts, hns, hspan.symm, hseen⟩

end Ember
