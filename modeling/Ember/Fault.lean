import Ember.Span

/-!
# Fault — what goes wrong while a program runs

A fault is a cause, of one of the kinds that programs are told about; its wording is decided here
and nowhere else.

* `Fault.kind`, `Fault.message`: the kind and the wording of a fault.
* `RuntimeError`: a kind, a message and a place, as they are reported.
-/

namespace Ember

/-- The kinds of runtime errors. -/
inductive ErrorKind where
  | undefinedVariable | immutableAssignment | typeMismatch | divisionByZero | indexOutOfBounds
  | arityMismatch | notCallable | structural | integerOverflow | recursionDepthExceeded
  /-- An error of no particular kind. -/
  | general
deriving DecidableEq, Repr, Inhabited

/-- The name of a kind. -/
def ErrorKind.name : ErrorKind → String
  | undefinedVariable => "UndefinedVariable"
  | immutableAssignment => "ImmutableAssignment"
  | typeMismatch => "TypeMismatch"
  | divisionByZero => "DivisionByZero"
  | indexOutOfBounds => "IndexOutOfBounds"
  | arityMismatch => "ArityMismatch"
  | notCallable => "NotCallable"
  | structural => "StructuralError"
  | integerOverflow => "IntegerOverflow"
  | recursionDepthExceeded => "RecursionDepthExceeded"
  | general => "RuntimeError"

/-- What goes wrong while a program runs. Kinds of values are given by name, since values of unknown
kinds take part as well. -/
inductive Fault where
  /-- A name without a binding is read. -/
  | undefined (name : String)
  /-- A name without a binding is assigned to. -/
  | assignUndefined (name : String)
  /-- A binding that is not mutable is assigned to. -/
  | immutable (name : String)
  /-- An operation does not apply to its operand, or to its two operands. -/
  | operation (op left : String) (right : Option String)
  /-- An argument is of the wrong kind. -/
  | argument (function param expected actual : String)
  /-- Something other than a truth value decides. -/
  | notBool (what actual : String)
  /-- Something other than an array is indexed. -/
  | notIndexable (actual : String)
  /-- An index is not an integer. -/
  | indexKind (actual : String)
  /-- A loop runs over something other than an array. -/
  | notIterable (actual : String)
  /-- No rule covers values of this kind. -/
  | noHandler (kind : String)
  /-- A division by zero. -/
  | divisionByZero (op left : String)
  /-- An index beyond the ends of an array. -/
  | outOfBounds (index : Int) (length : Nat)
  /-- An element is taken from an empty array. -/
  | emptyPop
  /-- A call with the wrong number of arguments. -/
  | arity (function : String) (expected actual : Int)
  /-- Something other than a function is called. -/
  | notCallable (actual : String)
  /-- A result outside of the integers of 64 bits. -/
  | overflow (op : String)
  /-- More calls in progress than allowed. -/
  | callDepth (limit : Nat) (function : String)
  /-- A call whose work is nested too deeply. -/
  | tooDeep (function : String)
  /-- Plain data where an expression should be. -/
  | notExpressionNode (shown : String)
  /-- Plain data where a statement should be. -/
  | notStatementNode (shown : String)
  /-- A node that is no expression. -/
  | notExpression (type : String)
  /-- A node that is no statement. -/
  | notStatement (type : String)
  /-- A node that is no block. -/
  | notBlock (type : String)
  /-- A node lacks a part. -/
  | missingField (type field : String)
  /-- A binary operator that does not exist. -/
  | unknownOperator (op : String)
  /-- A logical operator that does not exist. -/
  | unknownLogical (op : String)
  /-- A prefix operator that does not exist. -/
  | unknownUnary (op : String)
  /-- A return outside of every function. -/
  | returnOutside
  /-- Something that has to be there by now is not: an element, a function or an argument. -/
  | missing (what : String)
deriving DecidableEq, Repr, Inhabited

namespace Fault

/-- The kind of a fault. -/
def kind : Fault → ErrorKind
  | undefined _ | assignUndefined _ => .undefinedVariable
  | immutable _ => .immutableAssignment
  | operation .. | argument .. | notBool .. | notIndexable _ | indexKind _ | notIterable _
  | noHandler _ => .typeMismatch
  | divisionByZero .. => .divisionByZero
  | outOfBounds .. | emptyPop => .indexOutOfBounds
  | arity .. => .arityMismatch
  | notCallable _ => .notCallable
  | overflow _ => .integerOverflow
  | callDepth .. | tooDeep _ => .recursionDepthExceeded
  | notExpressionNode _ | notStatementNode _ | notExpression _ | notStatement _ | notBlock _
  | missingField .. | unknownOperator _ | unknownLogical _ | unknownUnary _ | returnOutside =>
    .structural
  | missing _ => .general

/-- The wording of a fault. -/
def message : Fault → String
  | undefined name => "Undefined variable '" ++ name ++ "'"
  | assignUndefined name => "Cannot assign to undefined variable '" ++ name ++ "'"
  | immutable name =>
    "Cannot assign to '" ++ name
      ++ "': binding is not mutable (declare it with 'let @mut')"
  | operation op left none => "Cannot " ++ op ++ " " ++ left
  | operation op left (some right) => "Cannot " ++ op ++ " " ++ left ++ " and " ++ right
  | argument function param expected actual =>
    function ++ " requires " ++ expected ++ " for " ++ param ++ ", got " ++ actual
  | notBool what actual => what ++ " must be Bool, got " ++ actual
  | notIndexable actual => "Cannot index into " ++ actual
  | indexKind actual => "Array index must be Int, got " ++ actual
  | notIterable actual => "'for' needs an Array to iterate, got " ++ actual
  | noHandler kind => "No handler for type: " ++ kind
  | divisionByZero op left => "Cannot " ++ op ++ " " ++ left ++ " by zero"
  | outOfBounds index length =>
    "Index " ++ toString index ++ " out of bounds for array of length " ++ toString length
  | emptyPop => "Cannot pop from an empty array"
  | arity function expected actual =>
    let noun := if expected = 1 then "argument" else "arguments"
    function ++ " expects " ++ toString expected ++ " " ++ noun ++ ", got " ++ toString actual
  | notCallable actual => "Value of type " ++ actual ++ " is not callable"
  | overflow op => "Integer overflow in " ++ op ++ ": result does not fit in 64 bits"
  | callDepth limit function =>
    "Maximum call depth of " ++ toString limit ++ " exceeded in '" ++ function ++ "'"
  | tooDeep function => "Recursion too deep in '" ++ function ++ "'"
  | notExpressionNode shown => "Expected an expression node, got " ++ shown
  | notStatementNode shown => "Expected a statement node, got " ++ shown
  | notExpression type => "'" ++ type ++ "' is not an expression"
  | notStatement type => "'" ++ type ++ "' is not a statement"
  | notBlock type => "Expected a block, got " ++ type
  | missingField type field => type ++ " node is missing '" ++ field ++ "'"
  | unknownOperator op => "Unknown operator '" ++ op ++ "'"
  | unknownLogical op => "Unknown logical operator '" ++ op ++ "'"
  | unknownUnary op => "Unknown unary operator '" ++ op ++ "'"
  | returnOutside => "'return' outside of a function"
  | missing what => what ++ " is missing"

end Fault

/-- A runtime error as it is reported. -/
structure RuntimeError where
  kind : ErrorKind
  message : String
  span : Option Span
deriving DecidableEq, Repr, Inhabited

/-- The report of a fault at a place. -/
def RuntimeError.ofFault (f : Fault) (span : Option Span) : RuntimeError :=
  ⟨f.kind, f.message, span⟩

/-- An error as one text. -/
def RuntimeError.text (e : RuntimeError) : String := Span.located e.kind.name e.span e.message

end Ember
