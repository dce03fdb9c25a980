import Ember.Proofs.Grammar.Joined
import Ember.Proofs.Plan
import Ember.Proofs.Unlined

/-!
# Replay — a session is a script

The texts of a session, joined by newlines, are one program. If all steps of the session went well,
the program does what the steps did: it prints what they printed, one after the other, and binds
what they have bound.

* `Session.runAll`: a session, step by step.
* `runFrom_append`: statements in two parts.
* `Session.Replayed`: what running a program without lines does, compared with a session.
* `script_replays_session`: the joined text does what the session did.
-/

namespace Ember

variable {cfg : Settings} {fuel : Nat} {m m' : Machine} {out tr : String}

/-! ### Statements in parts -/

theorem runFrom_append (v : Value) (ns ks : List Node) :
    runFrom cfg fuel v (ns ++ ks) = (do runFrom cfg fuel (← runFrom cfg fuel v ns) ks) := by
  induction ns generalizing v with
  | nil => rw [List.nil_append, runFrom, pure_bind]
  | cons n ns ih =>
      rw [List.cons_append, runFrom, runFrom, bind_assoc]
      refine congrArg _ (funext fun signal => ?_)
      rcases signal with (_ | w) | w
      · exact ih v
      · exact ih w
      · rfl

/-- The value of the statements before matters to the value only. -/
theorem runFrom_of_ok {v w : Value} {ns : List Node}
    (h : (runFrom cfg fuel v ns).run.run m = (.ok w, m')) (v' : Value) :
    ∃ w', (runFrom cfg fuel v' ns).run.run m = (.ok w', m') := by
  induction ns generalizing v v' m with
  | nil =>
      cases h
      exact ⟨v', rfl⟩
  | cons n ns ih =>
      rw [runFrom, Run.run_bind] at h ⊢
      generalize (exec cfg fuel n Store.root).run.run m = ended at h ⊢
      rcases ended with ⟨_ | (_ | u) | u, m₁⟩
      · cases h
      · exact ih h v'
      · exact ⟨w, h⟩
      · cases h

/-! ### Sessions -/

theorem Machine.after_cleared (m : Machine) :
    m.cleared.after (out ++ m.output) (tr ++ m.trace) = m.after out tr := by
  simp only [after, cleared, String.append_empty]

namespace Session

/-- Runs programs one after the other, each given as the name of a file and a text. -/
def runAll (s : Session) : List (String × String) → List Report × Session
  | [] => ([], s)
  | step :: steps =>
    let first := s.run step.1 step.2
    let rest := first.2.runAll steps
    (first.1 :: rest.1, rest.2)

/-- A program that gives a value was read, accepted and run. -/
theorem run_of_ok {s : Session} {filename source : String} {v : Value}
    (h : (s.run filename source).1.result = .ok v) :
    ∃ ts ns m, parseProgram filename source = .ok ts ∧
      Analysis.depthAll false ts ≤ s.settings.host.analysisLimit ∧ analyzeTrees ts = .ok ns ∧
      (runProgram s.settings ampleFuel ns).run.run s.machine.cleared = (.ok v, m) ∧
      (s.run filename source).2 = { s with machine := m } ∧
      (s.run filename source).1.output = m.output ∧
      (s.run filename source).1.trace = m.trace := by
  unfold run at h ⊢
  cases hts : parseProgram filename source with
  | error r =>
      rw [hts] at h
      cases h
  | ok ts =>
      simp only [hts] at h ⊢
      split at h
      · cases h
      · rename_i hdepth
        rw [if_neg hdepth]
        cases hns : analyzeTrees ts with
        | error e =>
          simp only [hns] at h
          cases h
        | ok ns =>
          simp only [hns] at h ⊢
          change Except.mapError Failure.halted
            ((runProgram s.settings ampleFuel ns).run.run s.machine.cleared).1 = .ok v at h
          refine ⟨ts, ns, _, rfl, Nat.not_lt.mp hdepth, hns, Prod.ext ?_ rfl, rfl, rfl, rfl⟩
          cases hresult : ((runProgram s.settings ampleFuel ns).run.run s.machine.cleared).1 with
          | error halt =>
              rw [hresult] at h
              cases h
          | ok w =>
              rw [hresult] at h
              cases h
              rfl

/-- A program that is read and accepted runs on the machine. -/
theorem run_of_parse {s : Session} {filename source : String} {ts : List Tree} {ns : List Node}
    {v : Value} (hts : parseProgram filename source = .ok ts)
    (hdepth : Analysis.depthAll false ts ≤ s.settings.host.analysisLimit)
    (hns : analyzeTrees ts = .ok ns)
    (hrun : (runProgram s.settings ampleFuel ns).run.run s.machine.cleared = (.ok v, m)) :
    (s.run filename source).1.result = .ok v ∧ (s.run filename source).1.output = m.output ∧
      (s.run filename source).1.trace = m.trace ∧
      (s.run filename source).2 = { s with machine := m } := by
  unfold run
  simp only [hts, if_neg (Nat.not_lt.mpr hdepth), hns]
  have hnodes : s.runNodes ns = (.ok v, { s with machine := m }) := by
    change (((runProgram s.settings ampleFuel ns).run.run s.machine.cleared).1,
      { s with machine := ((runProgram s.settings ampleFuel ns).run.run s.machine.cleared).2 }) = _
    rw [hrun]
  rw [hnodes]
  exact ⟨rfl, rfl, rfl, rfl⟩

/-- The statements of a session, without lines and in one go: they are run after whatever has been
printed and traced, and do what the steps of the session did. -/
theorem runAll_of_ok {s : Session} {steps : List (String × String)}
    (h : ∀ r ∈ (s.runAll steps).1, ∃ v, r.result = .ok v) :
    ∃ trees nodes, List.Forall₂ (fun step ts => parseProgram step.1 step.2 = .ok ts) steps trees ∧
      List.Forall₂ (fun ts ns => analyzeTrees ts = .ok ns) trees nodes ∧
      (∀ ts ∈ trees, Analysis.depthAll false ts ≤ s.settings.host.analysisLimit) ∧
      ∀ out tr v, ∃ w, (runFrom s.settings ampleFuel v (nodes.flatten.map Node.unlined)).run.run
          (s.machine.cleared.after out tr)
        = (.ok w, (s.runAll steps).2.machine.cleared.after
            (out ++ String.join ((s.runAll steps).1.map Report.output))
            (tr ++ String.join ((s.runAll steps).1.map Report.trace))) := by
  induction steps generalizing s with
  | nil =>
      refine ⟨[], [], .nil, .nil, nofun, fun out tr v => ⟨v, ?_⟩⟩
      simp only [runAll, List.map_nil, String.join_nil, String.append_empty]
      rfl
  | cons step steps ih =>
      obtain ⟨⟨v₀, hfirst⟩, hrest⟩ := List.forall_mem_cons.mp h
      obtain ⟨ts, ns, m, hts, hdepth, hns, hrun, hnext, houtput, htrace⟩ := run_of_ok hfirst
      obtain ⟨trees, nodes, htrees, hnodes, hdepths, hreplay⟩ := ih hrest
      have hsettings : (s.run step.1 step.2).2.settings = s.settings := by rw [hnext]
      rw [hsettings] at hdepths hreplay
      refine ⟨ts :: trees, ns :: nodes, .cons hts htrees, .cons hns hnodes,
        List.forall_mem_cons.mpr ⟨hdepth, hdepths⟩, fun out tr v => ?_⟩
      have hmirror : (runFrom s.settings ampleFuel .unit (ns.map Node.unlined)).run.run
          (s.machine.cleared.after out tr) = (.ok v₀, m.after out tr) := by
        rw [mirrors_runFrom ns .unit s.machine.cleared]
        exact congrArg (Run.endAfter out tr) hrun
      obtain ⟨w₁, hw₁⟩ := runFrom_of_ok hmirror v
      obtain ⟨w, hw⟩ := hreplay (out ++ m.output) (tr ++ m.trace) w₁
      have hmachine : (s.run step.1 step.2).2.machine = m := by rw [hnext]
      rw [hmachine, Machine.after_cleared] at hw
      refine ⟨w, ?_⟩
      rw [List.flatten_cons, List.map_append, runFrom_append, Run.run_bind, hw₁]
      simp only [runAll, List.map_cons, String.join_cons, houtput, htrace]
      rw [← String.append_assoc, ← String.append_assoc]
      exact hw

/-- Two sessions have bound the same: the same names in the same order, as mutable as each other and
to the same values, which refer to the same frames and arrays and to functions that differ in lines
only. -/
structure Matches (s s' : Session) : Prop where
  bindings : s.bindings = s'.bindings
  frames : s.machine.store.frames = s'.machine.store.frames
  arrays : s.machine.store.arrays = s'.machine.store.arrays
  functions : s.machine.store.closures.map Closure.unlined
    = s'.machine.store.closures.map Closure.unlined

theorem matches_of_unlined {s s' : Session}
    (h : s.machine.store.unlined = s'.machine.store.unlined) : Matches s s' := by
  obtain ⟨hframes, harrays, hclosures⟩ := Store.mk.inj h
  refine ⟨?_, hframes, harrays, hclosures⟩
  rw [bindings, bindings, Store.programBindings, Store.programBindings, Store.bindings,
    Store.bindings, Store.frame?, Store.frame?, hframes]

end Session

/-- If a program ends well without lines, it ends well, and leaves the same behind. -/
theorem Run.eq_of_endAfter {α : Type} {p : Except Halt α × Machine} {a : α} {m : Machine}
    (h : Run.endAfter out tr p = (.ok a, m)) : ∃ m', p = (.ok a, m') ∧ m'.after out tr = m := by
  rcases p with ⟨_ | b, m'⟩
  · cases h
  · cases h
    exact ⟨m', rfl, rfl⟩

/-- **A session is a script.** If every step of a session goes well and no text has a comment in it,
then the texts, joined by newlines, are read as the statements of all steps, up to lines and file
names. They are accepted, and run in a fresh session they end well, print what the steps have
printed and leave the bindings that the session has. -/
theorem script_replays_session (settings : Settings) (steps : List (String × String))
    (filename : String) (hplain : ∀ step ∈ steps, Text.Commentless step.2.toList)
    (hok : ∀ r ∈ ((Session.fresh settings).runAll steps).1, ∃ v, r.result = .ok v) :
    let source := String.intercalate "\n" (steps.map Prod.snd)
    let played := (Session.fresh settings).runAll steps
    let script := (Session.fresh settings).run filename source
    (∃ trees ts ns, List.Forall₂ (fun step ts => parseProgram step.1 step.2 = .ok ts) steps trees ∧
      parseProgram filename source = .ok ts ∧
      ts.map Tree.unlined = trees.flatten.map Tree.unlined ∧ analyzeTrees ts = .ok ns) ∧
    (∃ v, script.1.result = .ok v) ∧
    script.1.output = String.join (played.1.map Report.output) ∧
    script.2.Matches played.2 := by
  obtain ⟨trees, nodes, htrees, hnodes, hdepths, hreplay⟩ := Session.runAll_of_ok hok
  obtain ⟨-, ts, hts, halike⟩ := parseProgram_joined htrees hplain filename
  obtain ⟨ns, hns, hunlined⟩ := analyzeTrees_of_unlined halike.symm (analyzeTrees_flatten hnodes)
  have hdepth : Analysis.depthAll false ts ≤ settings.host.analysisLimit := by
    rw [← Analysis.depthAll_unlined, halike, Analysis.depthAll_unlined]
    exact depthAll_flatten hnodes hdepths
  -- without lines, the script is what the session did
  obtain ⟨v, hv⟩ := hreplay "" "" .unit
  rw [← hunlined, mirrors_runFrom ns .unit] at hv
  obtain ⟨m, hrun, hafter⟩ := Run.eq_of_endAfter hv
  obtain ⟨hresult, houtput, -, hscript⟩ :=
    Session.run_of_parse (s := Session.fresh settings) hts hdepth hns hrun
  refine ⟨⟨trees, ts, ns, htrees, hts, halike, hns⟩, ⟨v, hresult⟩, ?_, ?_⟩
  · have houtputs := congrArg Machine.output hafter
    simp only [Machine.after, Machine.cleared, String.empty_append, String.append_empty] at houtputs
    rw [houtput, houtputs]
  · refine Session.matches_of_unlined ?_
    rw [hscript]
    exact congrArg Machine.store hafter

/-- A session whose third and fourth texts start with marks that would go on with the line
before. -/
def markedSteps : List (String × String) := [
  ("first", "let xs = [1]\nfun grow(n) \x7b push(xs, n) \x7d"),
  ("second", "let @mut ys = xs\ngrow(2)"),
  ("third", "-1\nprint(ys)"),
  ("fourth", "[3]\n(ys)")]

/-- The marks start new statements, and the array that two names share is still shared. -/
theorem markedSteps_replay :
    let played := (Session.fresh ⟨10, true⟩).runAll markedSteps
    let script := (Session.fresh ⟨10, true⟩).run "script"
      (String.intercalate "\n" (markedSteps.map Prod.snd))
    played.1.all (·.result.isOk) = true ∧ (∃ v, script.1.result = .ok v) ∧
      script.1.output = "[1, 2]\n" ∧ script.2.Matches played.2 := by
  have hplain : ∀ step ∈ markedSteps, Text.Commentless step.2.toList := by decide
  have hall : ((Session.fresh ⟨10, true⟩).runAll markedSteps).1.all (·.result.isOk) = true := by
    decide +kernel
  have hok : ∀ r ∈ ((Session.fresh ⟨10, true⟩).runAll markedSteps).1, ∃ v, r.result = .ok v := by
    intro r hr
    have hresult := List.all_eq_true.mp hall r hr
    cases heq : r.result with
    | error f =>
        rw [heq] at hresult
        cases hresult
    | ok v => exact ⟨v, rfl⟩
  have houtput : String.join (((Session.fresh ⟨10, true⟩).runAll markedSteps).1.map Report.output)
      = "[1, 2]\n" := by decide +kernel
  obtain ⟨-, hvalue, hprinted, hmatches⟩ :=
    script_replays_session ⟨10, true⟩ markedSteps "script" hplain hok
  exact ⟨hall, hvalue, hprinted.trans houtput, hmatches⟩

end Ember
