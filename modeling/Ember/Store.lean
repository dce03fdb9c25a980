import Ember.Node
import Ember.Value

/-!
# Store — frames, arrays and functions

The store holds everything that values refer to. A frame is a row of bindings in the order in which
the names were first declared, with a link to the frame that encloses it. Frames are never removed,
and a frame is created after the frame that encloses it, so the chain of a frame is finite: its
addresses descend.

* `Store.chain`: a frame and the frames that enclose it, innermost first.
* `Store.find?`, `Store.lookup`: the innermost frame that binds a name, and what it is bound to.
* `Store.declare`, `Store.assign`: a new binding in a frame, and a new value for the innermost
  binding of a name.
-/

namespace Ember

/-- A name, what it is bound to, and whether that can change. -/
structure Binding where
  name : String
  value : Value
  mutable : Bool
deriving Inhabited

/-- A scope: its bindings in order, and the address of the frame that encloses it. -/
structure Frame where
  parent : Option Nat
  bindings : List Binding
deriving Inhabited

/-- A function with the frame in which it was made. -/
structure Closure where
  name : Option String
  params : List String
  body : Node
  frame : Nat
deriving Inhabited

/-- Everything that values refer to, by address. -/
structure Store where
  frames : Array Frame
  arrays : Array (Array Value)
  closures : Array Closure
deriving Inhabited

namespace Frame

/-- The binding of a name in a frame. -/
def get? (f : Frame) (name : String) : Option Binding := f.bindings.find? (·.name == name)

/-- The frame binds the name. -/
def binds (f : Frame) (name : String) : Bool := f.bindings.any (·.name == name)

/-- Replaces the binding of a name in place, or adds it at the end. -/
def declareIn (b : Binding) : List Binding → List Binding
  | [] => [b]
  | a :: rest => if a.name == b.name then b :: rest else a :: declareIn b rest

/-- The frame with a new binding; a name that is bound already keeps its position. -/
def declare (f : Frame) (name : String) (value : Value) (mutable : Bool) : Frame :=
  { f with bindings := declareIn ⟨name, value, mutable⟩ f.bindings }

/-- Gives the binding of a name a new value in place. -/
def updateIn (name : String) (value : Value) : List Binding → List Binding
  | [] => []
  | a :: rest =>
    if a.name == name then { a with value := value } :: rest else a :: updateIn name value rest

/-- The frame with a new value for a name. -/
def update (f : Frame) (name : String) (value : Value) : Frame :=
  { f with bindings := updateIn name value f.bindings }

end Frame

namespace Store

/-- A store with nothing in it. -/
def empty : Store := ⟨#[], #[], #[]⟩

/-! ### Frames -/

/-- The frame at an address. -/
def frame? (s : Store) (e : Nat) : Option Frame := s.frames[e]?

/-- At most `steps` frames of the chain that starts at an address. -/
def chainFrom (s : Store) : (steps : Nat) → Nat → List Nat
  | 0, _ => []
  | steps + 1, e =>
    match s.frame? e with
    | none => []
    | some f => e :: (match f.parent with
      | none => []
      | some p => s.chainFrom steps p)

/-- A frame and the frames that enclose it, innermost first. The addresses descend, so the first
of them bounds how many there are. -/
def chain (s : Store) (e : Nat) : List Nat := s.chainFrom (e + 1) e

/-- The number of frames from a frame outwards. -/
def depth (s : Store) (e : Nat) : Nat := (s.chain e).length

/-- The frame binds the name. -/
def binds (s : Store) (name : String) (e : Nat) : Bool := (s.frame? e).any (·.binds name)

/-- The innermost frame that binds a name, seen from a frame. -/
def find? (s : Store) (e : Nat) (name : String) : Option Nat :=
  (s.chain e).find? (s.binds name)

/-- The innermost binding of a name, seen from a frame. -/
def binding? (s : Store) (e : Nat) (name : String) : Option Binding :=
  (s.find? e name).bind fun g => (s.frame? g).bind (·.get? name)

/-- What a name is bound to, seen from a frame. -/
def lookup (s : Store) (e : Nat) (name : String) : Except Fault Value :=
  match s.binding? e name with
  | some b => .ok b.value
  | none => .error (.undefined name)

/-- The innermost binding of a name can change. -/
def isMutable (s : Store) (e : Nat) (name : String) : Except Fault Bool :=
  match s.binding? e name with
  | some b => .ok b.mutable
  | none => .error (.undefined name)

/-- The bindings of a frame itself. -/
def bindings (s : Store) (e : Nat) : List Binding := (s.frame? e).elim [] Frame.bindings

/-- Binds a name in a frame. -/
def declare (s : Store) (e : Nat) (name : String) (value : Value) (mutable : Bool) : Store :=
  { s with frames := s.frames.modify e (·.declare name value mutable) }

/-- The frame whose binding of a name an assignment changes: the innermost one, if it is
mutable. -/
def assignable (s : Store) (e : Nat) (name : String) : Except Fault Nat :=
  match s.find? e name with
  | none => .error (.assignUndefined name)
  | some g =>
    if ((s.frame? g).bind (·.get? name)).any (·.mutable) then .ok g
    else .error (.immutable name)

/-- Gives the binding of a name in a frame a new value. -/
def update (s : Store) (e : Nat) (name : String) (value : Value) : Store :=
  { s with frames := s.frames.modify e (·.update name value) }

/-- Gives the innermost binding of a name a new value. -/
def assign (s : Store) (e : Nat) (name : String) (value : Value) : Except Fault Store :=
  (s.assignable e name).map fun g => s.update g name value

/-- Adds a frame; its address comes second. -/
def addFrame (s : Store) (parent : Option Nat) : Store × Nat :=
  let address := s.frames.size
  ({ s with frames := s.frames.push ⟨parent, []⟩ }, address)

/-! ### Arrays and functions -/

/-- The elements of an array. -/
def array? (s : Store) (a : Nat) : Option (Array Value) := s.arrays[a]?

/-- The elements of an array, none if there is no array at the address. -/
def elements (s : Store) (a : Nat) : Array Value := s.arrays.getD a #[]

/-- Adds an array; its address comes second. -/
def addArray (s : Store) (elements : Array Value) : Store × Nat :=
  let address := s.arrays.size
  ({ s with arrays := s.arrays.push elements }, address)

/-- Appends an element to an array. -/
def push (s : Store) (a : Nat) (v : Value) : Store :=
  { s with arrays := s.arrays.modify a (·.push v) }

/-- Removes the last element of an array. -/
def pop (s : Store) (a : Nat) : Store :=
  { s with arrays := s.arrays.modify a (·.pop) }

/-- Replaces an element of an array. -/
def setElement (s : Store) (a i : Nat) (v : Value) : Store :=
  { s with arrays := s.arrays.modify a (·.setIfInBounds i v) }

/-- The function at an address. -/
def closure? (s : Store) (f : Nat) : Option Closure := s.closures[f]?

/-- Adds a function; its address comes second. -/
def addClosure (s : Store) (c : Closure) : Store × Nat :=
  let address := s.closures.size
  ({ s with closures := s.closures.push c }, address)

/-! ### The root frame -/

/-- The address of the root frame of a fresh store. -/
def root : Nat := 0

/-- A store with a root frame that binds the built-in functions. -/
def fresh : Store :=
  ⟨#[⟨none, Builtin.all.map fun b => ⟨b.name, .builtin b 0, false⟩⟩], #[], #[]⟩

/-- A binding that the program made: not a built-in function under the name of one. -/
def isProgramBinding (b : Binding) : Bool :=
  match b.value with
  | .builtin .. => (Builtin.ofName? b.name).isNone
  | _ => true

/-- The bindings of the root frame that the program made. -/
def programBindings (s : Store) : List Binding := (s.bindings root).filter isProgramBinding

end Store

end Ember
