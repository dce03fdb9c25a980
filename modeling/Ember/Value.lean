import Ember.Datum
import Ember.Fault
import Ember.Kind

/-!
# Value — what programs compute with

Arrays and functions live in a store and are values by reference, so a value itself is flat.
Besides the values of the language there are values of kinds it does not know, and plain data that
is no value; operations refuse both by kind.

* `Value.kindName`: the kind of a value by name.
* `Value.ofDatum`: the value of a literal.
* `confine`: integers are those of 64 bits.
* `Arithmetic.apply`, `Comparison.apply`, `Value.negate`, `Value.complement`: the operations that
  need no store.
-/

namespace Ember

/-- The built-in functions. -/
inductive Builtin where
  | print | len | push | pop | str | type | range
deriving DecidableEq, Repr, Inhabited

namespace Builtin

/-- The built-in functions, in the order in which they are bound. -/
def all : List Builtin := [print, len, push, pop, str, type, range]

/-- The name of a built-in function. -/
def name : Builtin → String
  | print => "print"
  | len => "len"
  | push => "push"
  | pop => "pop"
  | str => "str"
  | type => "type"
  | range => "range"

/-- The number of arguments of a built-in function; `print` takes any number. -/
def arity? : Builtin → Option Nat
  | print => none
  | len | pop | str | type => some 1
  | push | range => some 2

/-- The built-in function of a name. -/
def ofName? (n : String) : Option Builtin := all.find? (·.name == n)

end Builtin

/-- A value. Arrays and functions are addresses in a store; the tag of a built-in function tells its
copies apart. -/
inductive Value where
  | unit
  | bool (b : Bool)
  | int (i : Int)
  | float (x : Float)
  | str (s : String)
  | array (address : Nat)
  | function (address : Nat)
  | builtin (which : Builtin) (tag : Nat)
  /-- A value of a kind the language does not know. -/
  | foreign (kind : String) (payload : Datum)
  /-- Plain data that is no value. -/
  | bare (datum : Datum)
deriving Inhabited

namespace Value

/-- The kind of a value, if it is a value of the language. -/
def kind? : Value → Option Kind
  | unit => some .unit
  | bool _ => some .bool
  | int _ => some .int
  | float _ => some .float
  | str _ => some .str
  | array _ => some .array
  | function _ => some .function
  | builtin .. => some .builtin
  | foreign .. | bare _ => none

/-- The kind of a value by name. -/
def kindName (v : Value) : String :=
  match v with
  | foreign k _ => k
  | v => (v.kind?.map Kind.name).getD "Unknown"

/-- A value, and not plain data. -/
def isValue : Value → Bool
  | bare _ => false
  | _ => true

/-- A number. -/
def isNumber : Value → Bool
  | int _ | float _ => true
  | _ => false

/-- The value of a literal. Data that is neither a number, a truth value nor nothing counts as
text. -/
def ofDatum : Datum → Value
  | .null => unit
  | .bool b => bool b
  | .int i => int i
  | .float x => float x
  | d => str d.bare

end Value

/-! ### Integers -/

/-- The least integer of 64 bits. -/
def intMin : Int := -9223372036854775808

/-- The greatest integer of 64 bits. -/
def intMax : Int := 9223372036854775807

/-- An integer of 64 bits, or an overflow of the named operation. -/
def confine (i : Int) (op : String) : Except Fault Int :=
  if intMin ≤ i ∧ i ≤ intMax then .ok i else .error (.overflow op)

/-- The quotient rounded toward zero. -/
def quotient (x y : Int) : Int := Int.tdiv x y

/-- The remainder that goes with `quotient`; its sign is that of the dividend. -/
def remainder (x y : Int) : Int := x - y * quotient x y

/-! ### Arithmetic -/

/-- The arithmetic operations. -/
inductive Arithmetic where
  | add | sub | mul | div | mod
deriving DecidableEq, Repr, Inhabited

namespace Arithmetic

/-- The name of an operation in messages. -/
def name : Arithmetic → String
  | add => "add"
  | sub => "subtract"
  | mul => "multiply"
  | div => "divide"
  | mod => "take remainder of"

/-- The operation on integers; the divisor is not zero. -/
def onInts : Arithmetic → Int → Int → Int
  | add, x, y => x + y
  | sub, x, y => x - y
  | mul, x, y => x * y
  | div, x, y => quotient x y
  | mod, x, y => remainder x y

/-- The operation on floating-point numbers; there is no remainder. -/
def onFloats? : Arithmetic → Option (Float → Float → Float)
  | add => some (· + ·)
  | sub => some (· - ·)
  | mul => some (· * ·)
  | div => some (· / ·)
  | mod => none

/-- The operation needs a divisor other than zero. -/
def divides : Arithmetic → Bool
  | div | mod => true
  | _ => false

/-- The operation on two integers. -/
def ints (op : Arithmetic) (x y : Int) : Except Fault Value := do
  if op.divides && y == 0 then throw (.divisionByZero op.name Kind.int.name)
  let i ← confine (op.onInts x y) op.name
  return .int i

/-- The operation on floating-point numbers, of which the left one came from a value of the given
kind. -/
def floats (op : Arithmetic) (left right : Kind) (x y : Float) : Except Fault Value :=
  match op.onFloats? with
  | none => .error (.operation op.name left.name (some right.name))
  | some f =>
    if op.divides && y == 0.0 then .error (.divisionByZero op.name left.name)
    else .ok (.float (f x y))

/-- The operation on two numbers; as soon as one of them is a floating-point number, both are. -/
def numbers (op : Arithmetic) (x y : Value) : Except Fault Value :=
  match x, y with
  | .int a, .int b => op.ints a b
  | .int a, .float b => op.floats .int .float (Float.ofInt a) b
  | .float a, .int b => op.floats .float .int a (Float.ofInt b)
  | .float a, .float b => op.floats .float .float a b
  | x, y => .error (.operation op.name x.kindName (some y.kindName))

/-- The operation on two values; addition also joins texts. -/
def apply (op : Arithmetic) (x y : Value) : Except Fault Value :=
  match op, x, y with
  | .add, .str s, .str t => .ok (.str (s ++ t))
  | op, x, y => op.numbers x y

end Arithmetic

/-! ### Comparison -/

/-- How two numbers compare; an integer and a floating-point number compare exactly. -/
def compareNumbers (x y : Value) : Option Ordering :=
  match x, y with
  | .int a, .int b => some (compare a b)
  | .int a, .float b => Decimal.compareIntFloat a b
  | .float a, .int b => (Decimal.compareIntFloat b a).map Ordering.swap
  | .float a, .float b => Decimal.compareFloats a b
  | _, _ => none

/-- The orderings. -/
inductive Comparison where
  | lt | gt | le | ge
deriving DecidableEq, Repr, Inhabited

namespace Comparison

/-- The comparison holds of two things that compare in a way; of things that do not compare, none
does. -/
def holds : Comparison → Option Ordering → Bool
  | _, none => false
  | lt, some o => o == .lt
  | gt, some o => o == .gt
  | le, some o => o != .gt
  | ge, some o => o != .lt

/-- How two texts compare, character by character. -/
def compareTexts (s t : String) : Ordering :=
  if s < t then .lt else if t < s then .gt else .eq

/-- The comparison of two values: numbers with numbers and texts with texts. -/
def apply (op : Comparison) (x y : Value) : Except Fault Value :=
  match x, y with
  | .str s, .str t => .ok (.bool (op.holds (some (compareTexts s t))))
  | x, y =>
    if x.isNumber && y.isNumber then .ok (.bool (op.holds (compareNumbers x y)))
    else .error (.operation "compare" x.kindName (some y.kindName))

end Comparison

/-! ### Prefix operations and conditions -/

namespace Value

/-- The number with the opposite sign. -/
def negate : Value → Except Fault Value
  | int i => do
    let j ← confine (-i) "negate"
    return int j
  | float x => .ok (float (-x))
  | v => .error (.operation "negate" v.kindName none)

/-- The opposite truth value. -/
def complement : Value → Except Fault Value
  | bool b => .ok (bool !b)
  | v => .error (.operation "apply '!' to" v.kindName none)

/-- The truth value that decides something. -/
def decision (what : String) : Value → Except Fault Bool
  | bool b => .ok b
  | v => .error (.notBool what v.kindName)

/-- Arguments of the given kinds, each of which may be left open. -/
def checkArguments (function : String) (args : List Value) (kinds : List (Option String)) :
    Except Fault Unit :=
  if args.length ≠ kinds.length then .error (.arity function kinds.length args.length)
  else
    let wrong := (args.zip kinds).zipIdx.find? fun a =>
      a.1.2.any (· != a.1.1.kindName)
    match wrong with
    | some ((v, some kind), i) =>
      .error (.argument function ("argument " ++ toString (i + 1)) kind v.kindName)
    | _ => .ok ()

/-- The first of several kinds that a value is of; otherwise the fallback, if there is one. -/
def select {α : Type} (v : Value) (handlers : List (String × α)) (fallback : Option α) :
    Except Fault α :=
  match (handlers.find? (·.1 == v.kindName)).map (·.2) <|> fallback with
  | some a => .ok a
  | none => .error (.noHandler v.kindName)

end Value

end Ember
