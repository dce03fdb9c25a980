import Ember.Store

/-!
# Store — equality of values

Numbers are equal by value, whatever their kind, and arrays by their elements; functions are equal
only to themselves. Arrays that contain themselves are equal if no difference is found before the
comparison comes back to where it is.

* `Store.equalAt`: equality below a path of pairs that are being compared.
* `Store.equal`: equality. The path never holds a pair twice, so as many steps as there are pairs of
  arrays suffice.
-/

namespace Ember.Store

/-- Equality of values that are no arrays. -/
def equalScalars (x y : Value) : Bool :=
  match x, y with
  | .unit, .unit => true
  | .bool a, .bool b => a == b
  | .str s, .str t => s == t
  | .function f, .function g => f == g
  | .builtin b i, .builtin c j => b == c && i == j
  | .foreign k d, .foreign l e => k == l && d.same e
  | .bare d, .bare e => d.same e
  | x, y => compareNumbers x y == some .eq

/-- Equality of values, below the pairs of arrays in `path`. -/
def equalAt (s : Store) : (steps : Nat) → (path : List (Nat × Nat)) → Value → Value → Bool
  | steps, path, .array a, .array b =>
    if a = b then true
    else
      let xs := s.elements a
      let ys := s.elements b
      if xs.size ≠ ys.size then false
      else if (a, b) ∈ path then true
      else match steps with
        | 0 => true
        | steps + 1 =>
          (xs.toList.zip ys.toList).all fun p => s.equalAt steps ((a, b) :: path) p.1 p.2
  | _, _, x, y => equalScalars x y

/-- Equality of values. -/
def equal (s : Store) (x y : Value) : Bool :=
  s.equalAt (s.arrays.size * s.arrays.size) [] x y

end Ember.Store
