import Ember.Decimal.Shortest
import Ember.Text.Lines

/-!
# Decimal — how numbers are written and read

The layout of a floating-point number is a record of decisions; the language uses one of them.

* `Layout.render`: a floating-point number as text.
* `ember`: the layout of the language.
* `readFloat`: the floating-point number that a decimal text denotes.
* `Layout.read`: the same with a sign and the words for the numbers that have no digits.
* `readInt?`: the integer that a text denotes, with the freedoms of a command line.
-/

namespace Ember.Decimal

/-- The decisions of a number layout. Numbers whose leading digit has an exponent between
`plainFrom` and `plainTo` are written positionally, with a decimal even if it is zero; the others
with an exponent of at least `exponentWidth` digits. -/
structure Layout where
  plainFrom : Int
  plainTo : Int
  exponentMark : String
  exponentWidth : Nat
  nan : String
  infinity : String

/-- Positional from `0.0001` up to sixteen digits before the point, otherwise `1.5e-10`,
`1e+16`. -/
def ember : Layout := ⟨-4, 15, "e", 2, "nan", "inf"⟩

/-- A number's digits, filled with zeros on the left. -/
def zeroFill (width : Nat) (n : Nat) : String :=
  let ds := Nat.toDigits 10 n
  String.ofList (List.replicate (width - ds.length) '0' ++ ds)

/-- The layout of a decimal that is not zero. -/
def Layout.decimal (l : Layout) (d : Numeral) : String :=
  let ds := Nat.toDigits 10 d.digits
  let lead : Int := d.exponent + ds.length - 1
  if l.plainFrom ≤ lead ∧ lead ≤ l.plainTo then
    if lead < 0 then
      "0." ++ String.ofList (List.replicate (-lead - 1).toNat '0' ++ ds)
    else
      let whole := (lead + 1).toNat
      let front := ds.take whole ++ List.replicate (whole - ds.length) '0'
      let back := ds.drop whole
      String.ofList (front ++ '.' :: (if back.isEmpty then ['0'] else back))
  else
    let mantissa := match ds with
      | [] => []
      | [c] => [c]
      | c :: cs => c :: '.' :: cs
    let sign := if lead < 0 then "-" else "+"
    String.ofList mantissa ++ l.exponentMark ++ sign ++ zeroFill l.exponentWidth lead.natAbs

/-- A floating-point number as text. -/
def Layout.render (l : Layout) (x : Float) : String :=
  if x.isNaN then l.nan
  else
    let bits := x.toBits
    let sign := if signBit bits then "-" else ""
    if isFiniteBits bits then
      let v := Dyadic.ofBits bits
      if v.mantissa = 0 then sign ++ "0.0" else sign ++ l.decimal v.shortest
    else sign ++ l.infinity

/-- A floating-point number as the language writes it. -/
def floatText (x : Float) : String := ember.render x

/-! ### Reading -/

/-- The nearest floating-point number to `m * 10 ^ e`. Beyond four hundred places on either side
of the digits the outcome no longer depends on the exponent. -/
def floatOf (m : Nat) (e : Int) : Float :=
  let size : Int := (Nat.toDigits 10 m).length
  if m = 0 ∨ size + e < -400 then 0.0
  else if 400 < size + e then 1.0 / 0.0
  else Float.ofScientific m (e < 0) e.natAbs

/-- The digits at the front of a text, and the rest. -/
def spanDigits (cs : List Char) : List Char × List Char := cs.span Text.isDigit

/-- The exponent after its mark: a sign and digits. -/
def readExponent (cs : List Char) : Int :=
  match cs with
  | '-' :: ds => -(Text.digitsValue ds : Int)
  | '+' :: ds => Text.digitsValue ds
  | ds => Text.digitsValue ds

/-- The floating-point number that digits, an optional fraction and an optional exponent
denote. -/
def readFloat (cs : List Char) : Float :=
  let (whole, rest) := spanDigits cs
  let (fraction, rest) := match rest with
    | '.' :: rest => spanDigits rest
    | rest => ([], rest)
  let exponent : Int := match rest with
    | c :: rest => if c = 'e' ∨ c = 'E' then readExponent rest else 0
    | [] => 0
  floatOf (Text.digitsValue (whole ++ fraction)) (exponent - fraction.length)

/-- The floating-point number that a text denotes in a layout: what `render` writes is read back. -/
def Layout.read (l : Layout) (text : String) : Float :=
  let unsigned (cs : List Char) : Float :=
    if String.ofList cs = l.nan then 0.0 / 0.0
    else if String.ofList cs = l.infinity then 1.0 / 0.0
    else readFloat cs
  match text.toList with
  | '-' :: cs => -unsigned cs
  | cs => unsigned cs

/-- The floating-point number that a text of the language's layout denotes. -/
def floatOfText (text : String) : Float := ember.read text

/-- The number that digits denote when single underscores may stand between them. -/
def readDigits? : List Char → Option Nat
  | [] => none
  | c :: cs => (Text.digit? c).bind fun d => go d cs
where
  /-- Continues after a digit. -/
  go (n : Nat) : List Char → Option Nat
    | [] => some n
    | '_' :: c :: cs => (Text.digit? c).bind fun d => go (10 * n + d) cs
    | c :: cs => (Text.digit? c).bind fun d => go (10 * n + d) cs

/-- The longest row of digits that is read as an integer. -/
def maxDigits : Nat := 4300

/-- The integer that a text denotes: blanks around it, a sign in front, and single underscores
between the digits are allowed. A text of more than `maxDigits` digits is refused. -/
def readInt? (cs : List Char) : Option Int :=
  let body := Text.trimWhere (fun c => Text.isBlank c && !Text.isSeparator c) cs
  if maxDigits < body.countP Text.isDigit then none
  else match body with
  | '-' :: ds => (readDigits? ds).map fun n => -(n : Int)
  | '+' :: ds => (readDigits? ds).map fun n => (n : Int)
  | ds => (readDigits? ds).map fun n => (n : Int)

end Ember.Decimal
