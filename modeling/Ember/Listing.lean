import Ember.Session

/-!
# Listing — what is written out on demand, and the errors that nobody handles

Trees, nodes and bindings are written out one after the other. What is written out may be nested too
deeply for the stack of the host, and a text may hold an integer literal of too many digits. Where
programs run these errors are handled, but where something is written out on demand they are not:
it ends in a crash.

* `Crash`: an error that nobody handles.
* `writeAll`: texts up to the first one that could not be had.
* `Tree.listed`, `Node.listed`: a listing, unless the stack is too small for it.
-/

namespace Ember

/-- An error that nobody handles. -/
inductive Crash where
  /-- An integer literal of too many digits. -/
  | hugeInteger (digits : Nat)
  /-- The stack of the host is too small. -/
  | stackExhausted
  /-- A value of a kind that has no display. -/
  | noHandler (kind : String)
deriving DecidableEq, Repr, Inhabited

namespace Crash

/-- The crash that comes of a value that is not shown. -/
def ofShow : Store.ShowFault → Crash
  | .noHandler kind => .noHandler kind
  | .tooDeep => .stackExhausted

/-- The name of the kind of error. -/
def name : Crash → String
  | hugeInteger _ => "ValueError"
  | stackExhausted => "RecursionError"
  | noHandler kind => (Fault.noHandler kind).kind.name

/-- The wording of the error. -/
def message : Crash → String
  | hugeInteger digits => hugeIntegerMessage digits
  | stackExhausted => Halt.displayTooDeep.message
  | noHandler kind => (Fault.noHandler kind).message

end Crash

/-- Texts one after the other, up to the first one that could not be had. -/
def writeAll : List (Except Crash String) → String × Option Crash
  | [] => ("", none)
  | .error c :: _ => ("", some c)
  | .ok t :: ts =>
    let (written, crash) := writeAll ts
    (t ++ written, crash)

/-- The listing of something this high. -/
def listWithin (host : Host) (height : Nat) (listing : String) : Except Crash String :=
  if height ≤ host.listingLimit then .ok listing else .error .stackExhausted

/-- The listing of a tree, unless the stack is too small for it. -/
def Tree.listed (host : Host) (t : Tree) : Except Crash String := listWithin host t.height t.listing

/-- The listing of a node, unless the stack is too small for it. -/
def Node.listed (host : Host) (n : Node) : Except Crash String := listWithin host n.height n.listing

/-- The nodes of a program that is analyzed to be listed, unless the stack is too small for its
analysis. -/
def analyzeWithin (host : Host) (ts : List Tree) :
    Except Crash (Except SemanticsError (List Node)) :=
  if Analysis.depthAll false ts ≤ host.analysisLimit then .ok (analyzeTrees ts)
  else .error .stackExhausted

end Ember
