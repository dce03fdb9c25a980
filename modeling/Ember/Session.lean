import Ember.Analysis
import Ember.Eval
import Ember.Parse

/-!
# Session — programs one after the other

A session keeps its store between programs, so that each program sees what the ones before it have
bound. Every program is parsed, analyzed and run in the root frame.

* `Session.run`: a program given as text.
* `Session.runNodes`: a program given as nodes.
-/

namespace Ember

/-- More steps than a run takes that ends within anyone's patience. -/
def ampleFuel : Nat := 4611686018427387904

/-- Why a program gave no value. -/
inductive Failure where
  | parse (r : Rejection)
  | semantics (e : SemanticsError)
  | halted (h : Halt)
deriving Inhabited

/-- What a run that was cut short is reported as. -/
def Halt.message : Halt → String
  | .fault f _ => f.message
  | .displayTooDeep => "maximum recursion depth exceeded"
  | .outOfFuel => "out of steps"

/-- A machine and how it runs programs. -/
structure Session where
  settings : Settings
  machine : Machine
deriving Inhabited

/-- What a program has left behind. -/
structure Report where
  result : Except Failure Value
  /-- The program, empty if the text was rejected. -/
  nodes : List Node
  /-- What it printed. -/
  output : String
  /-- The stages it went through, one line each, if those are asked for. -/
  stages : String
  /-- The trace of its run, if that is asked for. -/
  trace : String
deriving Inhabited

/-- What the stages and the run wrote for debugging. -/
def Report.log (r : Report) : String := r.stages ++ r.trace

/-- The line of a parse that succeeded. -/
def parseLine (filename : String) (count : Nat) : String :=
  "[parse] " ++ filename ++ ": " ++ toString count ++ " top-level statements\n"

/-- The line of an analysis that succeeded. -/
def analyzeLine (count : Nat) : String :=
  "[analyze] " ++ toString count ++ " top-level statements\n"

/-- A line that is kept only for debugging. -/
def debugLine (debug : Bool) (line : String) : String := if debug then line else ""

namespace Session

/-- A session in which nothing has been bound. -/
def fresh (settings : Settings) : Session := ⟨settings, .fresh⟩

/-- Runs a program given as nodes; what it printed and traced replaces that of the program
before. -/
def runNodes (s : Session) (nodes : List Node) : Except Halt Value × Session :=
  let machine := { s.machine with output := "", trace := "" }
  let (result, machine) := (runProgram s.settings ampleFuel nodes).run.run machine
  (result, { s with machine := machine })

/-- A report of a program that did not run. -/
def rejected (f : Failure) (stages : String) : Report := ⟨.error f, [], "", stages, ""⟩

/-- Runs a program given as text, unless the stack is too small for its analysis. -/
def run (s : Session) (filename source : String) : Report × Session :=
  match parseProgram filename source with
  | .error r => (rejected (.parse r) "", s)
  | .ok trees =>
    let parsed := debugLine s.settings.debug (parseLine filename trees.length)
    if s.settings.host.analysisLimit < Analysis.depthAll false trees then
      (rejected (.halted .displayTooDeep) parsed, s)
    else match analyzeTrees trees with
    | .error e => (rejected (.semantics e) parsed, s)
    | .ok nodes =>
      let analyzed := parsed ++ debugLine s.settings.debug (analyzeLine nodes.length)
      let (result, s) := s.runNodes nodes
      (⟨result.mapError .halted, nodes, s.machine.output, analyzed, s.machine.trace⟩, s)

/-- The bindings that the programs have made. -/
def bindings (s : Session) : List Binding := s.machine.store.programBindings

end Session

end Ember
