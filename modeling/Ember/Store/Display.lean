import Ember.Store
import Ember.Text.Quoted

/-!
# Store — how values are shown

Texts are bare on their own and quoted inside an array. An array that is being shown already,
because it contains itself, is shown as dots; an array that merely occurs twice is shown twice.

* `Store.showAt`: a value, below a path of arrays that are being shown.
* `Store.showValue`: a value. The path never holds an array twice, so as many steps as there are
  arrays suffice.
* `Store.display`: a value, where the host bounds the nesting.
-/

namespace Ember.Store

/-- Why a value is not shown. -/
inductive ShowFault where
  /-- A value of a kind that has no display. -/
  | noHandler (kind : String)
  /-- Arrays inside arrays beyond the allowed depth. -/
  | tooDeep
deriving DecidableEq, Repr, Inhabited

/-- The name of a function in displays. -/
def closureName (s : Store) (f : Nat) (nameless : String) : String :=
  match (s.closure? f).bind Closure.name with
  | some n => if n.isEmpty then nameless else n
  | none => nameless

/-- A value, below the arrays of `path`; arrays may be nested `steps` deep. -/
def showAt (s : Store) : (steps : Nat) → (path : List Nat) → (nested : Bool) → Value →
    Except ShowFault String
  | _, _, _, .unit => .ok "nil"
  | _, _, _, .bool b => .ok (if b then "true" else "false")
  | _, _, _, .int i => .ok (toString i)
  | _, _, _, .float x => .ok (Decimal.floatText x)
  | _, _, nested, .str t => .ok (if nested then Text.literal t else t)
  | _, _, _, .function f => .ok ("<fun " ++ s.closureName f "anonymous" ++ ">")
  | _, _, _, .builtin b _ => .ok ("<builtin " ++ b.name ++ ">")
  | steps, path, _, .array a =>
    if a ∈ path then .ok "[...]"
    else match steps with
      | 0 => .error .tooDeep
      | steps + 1 => do
        let parts ← (s.elements a).toList.mapM (s.showAt steps (a :: path) true)
        return "[" ++ String.intercalate ", " parts ++ "]"
  | _, _, _, v => .error (.noHandler v.kindName)

/-- A value as it is shown, quoted if `nested` says so. -/
def showValue (s : Store) (nested : Bool) (v : Value) : Except ShowFault String :=
  s.showAt s.arrays.size [] nested v

/-- A value as it is shown by a host on which arrays may be nested `limit` deep. -/
def display (s : Store) (limit : Nat) (nested : Bool) (v : Value) : Except ShowFault String :=
  s.showAt limit [] nested v

/-- The value can be shown inside of something else. -/
def Shows (s : Store) (limit : Nat) (v : Value) : Prop := ∃ text, s.display limit true v = .ok text

end Ember.Store
