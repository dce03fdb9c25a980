import Ember.Decimal.Dyadic

/-!
# Decimal — the fewest digits that read back

Reading a decimal rounds it to the nearest binary value, an exact half to the even mantissa. So
the decimals that read back as a given value fill an interval around it, whose ends belong to it
exactly if the mantissa is even.

* `Dyadic.readsBack`: the decimal lies in that interval.
* `Dyadic.shortest`: the decimal of the interval with the fewest digits, of those the nearest, and
  of two equally near the one with the even last digit.
-/

namespace Ember.Decimal

/-- The decimal `digits * 10 ^ exponent`. -/
structure Numeral where
  digits : Nat
  exponent : Int
deriving DecidableEq, Repr

/-- Compares `a * 10 ^ i` with `n * 2 ^ j`, exactly. -/
def compareWithDyadic (a : Nat) (i : Int) (n : Nat) (j : Int) : Ordering :=
  compare (a * pow10 i.toNat * pow2 (-j).toNat) (n * pow2 j.toNat * pow10 (-i).toNat)

/-- The decimal is one of the numbers that round to the binary value. -/
def Dyadic.readsBack (x : Dyadic) (d : Numeral) : Bool :=
  let low := if x.narrowBelow then 4 * x.mantissa - 1 else 4 * x.mantissa - 2
  let high := 4 * x.mantissa + 2
  let closed := x.mantissa % 2 == 0
  let below := compareWithDyadic d.digits d.exponent low (x.exponent - 2)
  let above := compareWithDyadic d.digits d.exponent high (x.exponent - 2)
  (below == .gt || (closed && below == .eq)) && (above == .lt || (closed && above == .eq))

/-- The value divided by `10 ^ g`, rounded down. -/
def Dyadic.floorAt (x : Dyadic) (g : Int) : Nat :=
  (x.mantissa * pow2 x.exponent.toNat * pow10 (-g).toNat)
    / (pow2 (-x.exponent).toNat * pow10 g.toNat)

/-- The nearest point of the grid `10 ^ g` that reads back, if one does. -/
def Dyadic.onGrid? (x : Dyadic) (g : Int) : Option Numeral :=
  let a := x.floorAt g
  let down : Numeral := ⟨a, g⟩
  let up : Numeral := ⟨a + 1, g⟩
  match x.readsBack down, x.readsBack up with
  | true, false => some down
  | false, true => some up
  | false, false => none
  | true, true =>
    match compareWithDyadic (2 * a + 1) g (2 * x.mantissa) x.exponent with
    | .gt => some down
    | .lt => some up
    | .eq => some (if a % 2 = 0 then down else up)

/-- The least `k`, at or above a first guess and within `fuel` steps of it, with `x < 10 ^ k`. -/
def Dyadic.scaleFrom (x : Dyadic) (k : Int) : (fuel : Nat) → Int
  | 0 => k
  | fuel + 1 =>
    if compareWithDyadic 1 k x.mantissa x.exponent == .gt then k else x.scaleFrom (k + 1) fuel

/-- The number of digits before the point, for a value that is not zero. The guess from the binary
logarithm is low by at most a step or two. -/
def Dyadic.scale (x : Dyadic) : Int :=
  let log2 : Int := (Nat.log2 x.mantissa : Int) + x.exponent
  x.scaleFrom (log2 * 30103 / 100000 - 1) 6

/-- Moves trailing zeros of the digits into the exponent. -/
def Numeral.strip (d : Numeral) : (fuel : Nat) → Numeral
  | 0 => d
  | fuel + 1 =>
    if d.digits ≠ 0 ∧ d.digits % 10 = 0 then
      Numeral.strip ⟨d.digits / 10, d.exponent + 1⟩ fuel
    else d

/-- The exact decimal value. -/
def Dyadic.exact (x : Dyadic) : Numeral :=
  ⟨x.mantissa * pow2 x.exponent.toNat * Nat.pow 5 (-x.exponent).toNat, min x.exponent 0⟩

/-- The decimal with the fewest digits that reads back, for a value that is not zero. -/
def Dyadic.shortest (x : Dyadic) : Numeral :=
  let k := x.scale
  let found := (List.range 17).findSome? fun (n : Nat) => x.onGrid? (k - 1 - n)
  (found.getD x.exact).strip 400

end Ember.Decimal
