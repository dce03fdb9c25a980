/-!
# Host — how deep the stack of the host goes

Arrays inside arrays are shown by recursion, and so are trees inside trees listed and analyzed. How
deep this can go is up to the stack of the host that everything runs on. A level takes a few frames
of that stack, and how many depends on what is done there, so each kind of recursion has a limit of
its own. The limits are counted in levels: that some kinds of values or trees take a frame more than
others is left out. Programs run with a larger stack, which is taken to suffice for their
expressions and statements.

* `Host`: the limits.
* `Host.usual`: the host that is meant if no other one is named.
-/

namespace Ember

/-- How deep the stack of a host goes. -/
class Host where
  /-- How deep arrays may be nested that a running program shows. -/
  displayLimit : Nat
  /-- How deep arrays may be nested that are shown while no program runs; the stack is smaller
  then. -/
  idleDisplayLimit : Nat
  /-- How many trees or nodes may be inside each other that are listed. -/
  listingLimit : Nat
  /-- How many trees may be inside each other that are analyzed. -/
  analysisLimit : Nat
deriving DecidableEq, Repr, Inhabited

/-- A host with a thousand frames for what is shown or listed. Listing takes one frame for a level,
the analysis two, and a display three or four. -/
instance Host.usual : Host := ⟨1000, 300, 1000, 500⟩

end Ember
