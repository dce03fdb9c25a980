import Ember.Store.Display

/-!
# Store — values as plain data

A value leaves the language as plain data. An array becomes a list of its own, and all occurrences
of the array become that one list, so an array that contains itself becomes a list that contains
itself. Lists are therefore kept in a table and referred to by number, in the order in which they
are first met.

* `Store.exportAt`: a value, given the arrays that have become lists already.
* `Store.exportValue`: a value whose lists go to the end of a table.
-/

namespace Ember.Store

/-- Plain data, in which lists are referred to by number. -/
inductive Exported where
  | datum (d : Datum)
  | list (number : Nat)
deriving Inhabited

/-- The lists made so far, and which array each of them came from. -/
structure Exports where
  lists : Array (Array Exported)
  seen : List (Nat × Nat)
deriving Inhabited

/-- The number of the list that an array has become. -/
def Exports.number? (x : Exports) (a : Nat) : Option Nat :=
  (x.seen.find? (·.1 == a)).map (·.2)

/-- An array becomes a list, which is filled in later. -/
def Exports.reserve (x : Exports) (a : Nat) : Exports × Nat :=
  (⟨x.lists.push #[], (a, x.lists.size) :: x.seen⟩, x.lists.size)

/-- Fills in a list. -/
def Exports.fill (x : Exports) (n : Nat) (items : List Exported) : Exports :=
  { x with lists := x.lists.setIfInBounds n items.toArray }

/-- A value that is no array, as plain data. -/
def exportScalar (s : Store) : Value → Datum
  | .bool b => .bool b
  | .int i => .int i
  | .float x => .float x
  | .str t => .str t
  | .foreign _ d => d
  | .bare d => d
  | .unit => .null
  | v => match s.showValue false v with
    | .ok t => .str t
    | .error _ => .null

/-- A value as plain data; arrays that are met for the first time may be nested `steps` deep. -/
def exportAt (s : Store) : (steps : Nat) → Value → Exports → Exported × Exports
  | steps, .array a, x =>
    match x.number? a with
    | some n => (.list n, x)
    | none =>
      let (x, n) := x.reserve a
      match steps with
      | 0 => (.list n, x)
      | steps + 1 =>
        let (items, x) := (s.elements a).toList.foldl
          (fun acc v =>
            let (item, x) := s.exportAt steps v acc.2
            (item :: acc.1, x))
          ([], x)
        (.list n, x.fill n items.reverse)
  | _, v, x => (.datum (s.exportScalar v), x)

/-- A value as plain data, with lists of its own at the end of a table of lists. -/
def exportValue (s : Store) (v : Value) (lists : Array (Array Exported)) :
    Exported × Array (Array Exported) :=
  let (e, x) := s.exportAt s.arrays.size v ⟨lists, []⟩
  (e, x.lists)

end Ember.Store
