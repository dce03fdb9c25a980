/-!
# Decimal — binary values, exactly

A finite floating-point value is a natural number times a power of two. The comparisons here are
exact: they multiply out instead of dividing or rounding.

* `Dyadic.ofBits`: the magnitude that a bit pattern stands for.
* `compareIntFloat`: how an integer compares with a floating-point value.
-/

namespace Ember.Decimal

/-- A power of two. -/
def pow2 (n : Nat) : Nat := Nat.pow 2 n

/-- A power of ten. -/
def pow10 (n : Nat) : Nat := Nat.pow 10 n

/-- The magnitude `mantissa * 2 ^ exponent` of a finite value. `narrowBelow` says that the gap to
the next smaller magnitude is half the gap to the next larger one. -/
structure Dyadic where
  mantissa : Nat
  exponent : Int
  narrowBelow : Bool
deriving DecidableEq, Repr

/-- The magnitude of a finite value, from its bit pattern. -/
def Dyadic.ofBits (bits : UInt64) : Dyadic :=
  let e := ((bits >>> 52) &&& 0x7ff).toNat
  let f := (bits &&& 0xfffffffffffff).toNat
  if e = 0 then ⟨f, -1074, false⟩
  else ⟨pow2 52 + f, (e : Int) - 1075, f == 0 && e > 1⟩

/-- The sign bit of a bit pattern. -/
def signBit (bits : UInt64) : Bool := (bits >>> 63) == 1

/-- The bit pattern is that of a finite value. -/
def isFiniteBits (bits : UInt64) : Bool := ((bits >>> 52) &&& 0x7ff) != 0x7ff

/-- Compares `a` with `m * 2 ^ q` in the integers. -/
def compareScaled (a m : Int) (q : Int) : Ordering :=
  compare (a * pow2 (-q).toNat) (m * pow2 q.toNat)

/-- How an integer compares with a floating-point value; nothing compares with a NaN. -/
def compareIntFloat (a : Int) (x : Float) : Option Ordering :=
  if x.isNaN then none
  else
    let bits := x.toBits
    if isFiniteBits bits then
      let d := Dyadic.ofBits bits
      let m : Int := if signBit bits then -(d.mantissa : Int) else d.mantissa
      some (compareScaled a m d.exponent)
    else some (if signBit bits then .gt else .lt)

/-- How two floating-point values compare; nothing compares with a NaN. -/
def compareFloats (x y : Float) : Option Ordering :=
  if x < y then some .lt
  else if x == y then some .eq
  else if y < x then some .gt
  else none

end Ember.Decimal
