import Ember.Datum
import Ember.Span

/-!
# Tree — what the parser reads

A tree keeps what the text says: one node per construct, its payload, its parts and its place.
Trees may also be put together by hand, so a node's parts can be anything, even plain data that is
no tree.

* `Tree.height`: how many trees are inside each other.
* `Tree.listing`: a tree over several indented lines.
* `Tree.oneLine`: a tree on one line, without places.
-/

namespace Ember

/-- What a tree node is. -/
inductive Tree.Kind where
  | number | string | bool | nil | identifier | array
  | binary | logical | unary | call | index
  | functionExpr | functionDef | letStmt | assign | indexAssign
  | ifStmt | whileStmt | forStmt | returnStmt | block | blockStmt | exprStmt
  /-- A kind the language does not know. -/
  | other (name : String)
deriving DecidableEq, Repr, Inhabited

namespace Tree.Kind

/-- The name of a kind in listings. -/
def name : Kind → String
  | number => "NUMBER"
  | string => "STRING"
  | bool => "BOOL"
  | nil => "NIL"
  | identifier => "IDENTIFIER"
  | array => "ARRAY"
  | binary => "BINARY"
  | logical => "LOGICAL"
  | unary => "UNARY"
  | call => "CALL"
  | index => "INDEX"
  | functionExpr => "FUNCTION_EXPR"
  | functionDef => "FUNCTION_DEF"
  | letStmt => "LET"
  | assign => "ASSIGN"
  | indexAssign => "INDEX_ASSIGN"
  | ifStmt => "IF"
  | whileStmt => "WHILE"
  | forStmt => "FOR"
  | returnStmt => "RETURN"
  | block => "BLOCK"
  | blockStmt => "BLOCK_STMT"
  | exprStmt => "EXPR_STMT"
  | other n => n

/-- The kinds the language knows. -/
def known : List Kind := [
  number, string, bool, nil, identifier, array, binary, logical, unary, call, index,
  functionExpr, functionDef, letStmt, assign, indexAssign, ifStmt, whileStmt, forStmt, returnStmt,
  block, blockStmt, exprStmt]

/-- The kind of a name. -/
def ofName (n : String) : Kind := (known.find? (·.name == n)).getD (other n)

/-- The parts of a node of this kind are inside of a function. -/
def opensFunction (k : Kind) : Bool := k == .functionDef || k == .functionExpr

end Tree.Kind

/-- A tree: a node with its payload, parts and place, or plain data where a node should be. -/
inductive Tree where
  | node (kind : Tree.Kind) (value : Datum) (children : List Tree) (span : Option Span)
  | stray (datum : Datum)
deriving Inhabited

namespace Tree

/-- The place of a tree. -/
def span : Tree → Option Span
  | node _ _ _ s => s
  | stray _ => none

/-- The kind of a tree, if it is a node. -/
def kind? : Tree → Option Kind
  | node k _ _ _ => some k
  | stray _ => none

/-- The parts of a tree. -/
def children : Tree → List Tree
  | node _ _ cs _ => cs
  | stray _ => []

mutual

/-- How many trees are inside each other in a tree, itself included. -/
def height : Tree → Nat
  | node _ _ children _ => heightAll children + 1
  | stray _ => 1

/-- How many trees are inside each other in one of the trees. -/
def heightAll : List Tree → Nat
  | [] => 0
  | t :: ts => max t.height (heightAll ts)

end

mutual

/-- A tree as an indented listing, each node with its payload and the start of its place. -/
def listingAt (indent : Nat) : Tree → String
  | node kind value children span =>
    let payload := match value with
      | .null => ""
      | v => "(" ++ v.quoted ++ ")"
    let place := match span with
      | some s => "  @" ++ toString s.startLine ++ ":" ++ toString s.startCol
      | none => ""
    Text.repeated ' ' (2 * indent) ++ kind.name ++ payload ++ place ++ "\n"
      ++ listingsAt (indent + 1) children
  | stray d => Text.repeated ' ' (2 * indent) ++ d.bare ++ "\n"

/-- The listings of the parts of a node. -/
def listingsAt (indent : Nat) : List Tree → String
  | [] => ""
  | t :: ts => listingAt indent t ++ listingsAt indent ts

end

/-- A tree as an indented listing. -/
def listing (t : Tree) : String := listingAt 0 t

mutual

/-- A tree on one line. -/
def oneLine : Tree → String
  | node kind value children _ =>
    match children with
    | [] => kind.name ++ "(" ++ value.bare ++ ")"
    | c :: cs => kind.name ++ "(" ++ value.bare ++ ", [" ++ oneLines (c :: cs) ++ "])"
  | stray d => d.bare

/-- The parts of a node on one line. -/
def oneLines : List Tree → String
  | [] => ""
  | [t] => oneLine t
  | t :: ts => oneLine t ++ ", " ++ oneLines ts

end

end Tree

end Ember
