/-!
# Kind — the kinds of values

The names by which programs and messages speak of values.
-/

namespace Ember

/-- A kind of value. -/
inductive Kind where
  | int | float | bool | str | unit | array | function | builtin
deriving DecidableEq, Repr, Inhabited

/-- The name of a kind. -/
def Kind.name : Kind → String
  | int => "Int"
  | float => "Float"
  | bool => "Bool"
  | str => "Str"
  | unit => "Unit"
  | array => "Array"
  | function => "Function"
  | builtin => "Builtin"

end Ember
