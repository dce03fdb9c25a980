import Ember.Grammar.Expression

/-!
# Tree — canonical text

Every well-shaped tree has a canonical text: one statement to a line, a space on either side of a
binary operator, and parentheses only where the text would be read differently without them. An
operand is put in parentheses if it binds looser than its place asks for; the right operand of a
binary operator has to bind tighter than the operator, what is called or indexed has to be a primary
expression, a call or an element.

* `Tree.unplaced`: a tree without its places.
* `Tree.precedence`: how tight an expression binds.
* `Tree.write`: the text of a tree; `Tree.writeProgram` that of a program.
-/

namespace Ember.Tree

mutual

/-- A tree without its places. -/
def unplaced : Tree → Tree
  | node kind value children _ => node kind value (unplacedAll children) none
  | stray d => stray d

/-- Trees without their places. -/
def unplacedAll : List Tree → List Tree
  | [] => []
  | t :: ts => unplaced t :: unplacedAll ts

end

/-- Leaving out the places of trees is leaving them out in each. -/
@[simp] theorem unplacedAll_eq_map (ts : List Tree) : unplacedAll ts = ts.map unplaced := by
  induction ts with
  | nil => rfl
  | cons t ts ih => rw [unplacedAll, ih, List.map_cons]

@[simp] theorem unplaced_node (kind : Kind) (value : Datum) (ts : List Tree) (s : Option Span) :
    (node kind value ts s).unplaced = node kind value (ts.map unplaced) none := by
  rw [unplaced, unplacedAll_eq_map]

/-! ### Precedence -/

/-- The level of a binary operator, the loosest level first. -/
def levelOf (op : String) : Nat := Grammar.levels.findIdx (·.contains op)

/-- How tight prefix operators bind: tighter than all levels of binary ones. -/
def prefixLevel : Nat := Grammar.levels.length

/-- How tight calls and indexes bind. -/
def postfixLevel : Nat := prefixLevel + 1

/-- How tight an expression binds. Primary expressions may stand where calls and indexes may. -/
def precedence : Tree → Nat
  | node .binary (.str op) _ _ | node .logical (.str op) _ _ => levelOf op
  | node .unary _ _ _ => prefixLevel
  | _ => postfixLevel

/-- The text of an operand, in parentheses if it binds looser than `level`. -/
def enclosed (level : Nat) (t : Tree) (text : List Char) : List Char :=
  if t.precedence < level then '(' :: (text ++ [')']) else text

/-! ### Text -/

/-- The numbers that number literals of canonical text denote: integers of no more digits than are
read. -/
def IsLiteral (d : Datum) : Prop :=
  ∃ n : Nat, d = .int n ∧ (Nat.toDigits 10 n).length ≤ Decimal.maxDigits

/-- Texts with a comma and a space between them. -/
def separated : List (List Char) → List Char
  | [] => []
  | [x] => x
  | x :: xs => x ++ ',' :: ' ' :: separated xs

/-- Texts with a newline after each of them. -/
def inLines (texts : List (List Char)) : List Char := texts.flatMap (· ++ ['\n'])

/-- The names of parameters. -/
def writeParameters (params : List Datum) : List Char :=
  '(' :: (separated (params.map (·.bare.toList)) ++ [')'])

mutual

/-- The canonical text of a tree. -/
def write : Tree → List Char
  | node .number (.int i) _ _ => Nat.toDigits 10 i.toNat
  | node .string (.str t) _ _ => (Text.literal t).toList
  | node .bool (.bool b) _ _ => if b then "true".toList else "false".toList
  | node .nil _ _ _ => "nil".toList
  | node .identifier (.str n) _ _ => n.toList
  | node .array _ es _ => '[' :: (separated (writeAll es) ++ [']'])
  | node .binary (.str op) [l, r] _ | node .logical (.str op) [l, r] _ =>
    enclosed (levelOf op) l (write l)
      ++ ' ' :: (op.toList ++ ' ' :: enclosed (levelOf op + 1) r (write r))
  | node .unary (.str op) [e] _ => op.toList ++ enclosed prefixLevel e (write e)
  | node .call _ (f :: args) _ =>
    enclosed postfixLevel f (write f) ++ '(' :: (separated (writeAll args) ++ [')'])
  | node .index _ [t, i] _ => enclosed postfixLevel t (write t) ++ '[' :: (write i ++ [']'])
  | node .functionExpr (.record [_, (_, .list ps)]) [b] _ =>
    "fun".toList ++ (writeParameters ps ++ ' ' :: write b)
  | node .functionDef (.record [(_, .str n), (_, .list ps)]) [b] _ =>
    "fun".toList ++ ' ' :: (n.toList ++ (writeParameters ps ++ ' ' :: write b))
  | node .letStmt (.record [(_, .str n), (_, .bool m)]) [e] _ =>
    "let".toList ++ ' ' :: ((if m then "@mut".toList ++ [' '] else [])
      ++ (n.toList ++ ' ' :: '=' :: ' ' :: write e))
  | node .assign (.str n) [e] _ => n.toList ++ ' ' :: '=' :: ' ' :: write e
  | node .indexAssign _ [t, i, e] _ =>
    enclosed postfixLevel t (write t) ++ '[' :: (write i ++ ']' :: ' ' :: '=' :: ' ' :: write e)
  | node .ifStmt _ [c, y] _ => "if".toList ++ ' ' :: (write c ++ ' ' :: write y)
  | node .ifStmt _ [c, y, n] _ =>
    "if".toList ++ ' ' :: (write c ++ ' ' :: (write y ++ ' ' :: ("else".toList ++ ' ' :: write n)))
  | node .whileStmt _ [c, b] _ => "while".toList ++ ' ' :: (write c ++ ' ' :: write b)
  | node .forStmt (.str n) [e, b] _ =>
    "for".toList ++ ' ' :: (n.toList ++ ' ' :: ("in".toList
      ++ ' ' :: (write e ++ ' ' :: write b)))
  | node .returnStmt _ [] _ => "return".toList
  | node .returnStmt _ [e] _ => "return".toList ++ ' ' :: write e
  | node .block _ ss _ => '\x7b' :: '\n' :: (inLines (writeAll ss) ++ ['\x7d'])
  | node .blockStmt _ [b] _ => write b
  | node .exprStmt _ [e] _ => write e
  | _ => []

/-- The canonical texts of trees. -/
def writeAll : List Tree → List (List Char)
  | [] => []
  | t :: ts => write t :: writeAll ts

end

@[simp] theorem writeAll_eq_map (ts : List Tree) : writeAll ts = ts.map write := by
  induction ts with
  | nil => rfl
  | cons t ts ih => rw [writeAll, ih, List.map_cons]

/-- An array is written as its items between square brackets. -/
theorem write_array (d : Datum) (es : List Tree) (s : Option Span) :
    (node .array d es s).write = '[' :: (separated (es.map write) ++ [']']) := by
  rw [← writeAll_eq_map]
  rfl

theorem write_call (d : Datum) (f : Tree) (args : List Tree) (s : Option Span) :
    (node .call d (f :: args) s).write
      = enclosed postfixLevel f f.write ++ '(' :: (separated (args.map write) ++ [')']) := by
  rw [← writeAll_eq_map]
  rfl

theorem write_block (d : Datum) (ss : List Tree) (s : Option Span) :
    (node .block d ss s).write = '\x7b' :: '\n' :: (inLines (ss.map write) ++ ['\x7d']) := by
  rw [← writeAll_eq_map]
  rfl

/-- The canonical text of a program. -/
def writeProgram (ts : List Tree) : String := String.ofList (inLines (ts.map write))

end Ember.Tree
