import Ember.Datum
import Ember.Kind
import Ember.Span
import Ember.Text.Lines

/-!
# Node — what the evaluator runs

A node is a construct of the language with its parts named. The analysis makes nodes from trees;
they may also be put together by hand, so an expression can stand where a statement belongs, a
node may be of an unknown kind or lack a part, and plain data may take its place. The evaluator
reports each of these.

* `Node.fields`, `Node.children`: a node's parts, by name and in order.
* `Node.height`: how many nodes are inside each other.
* `Node.listing`: a node over several indented lines.
-/

namespace Ember

/-- A construct of the language. -/
inductive Node where
  | literal (value : Datum) (kind : Kind) (span : Option Span)
  | identifier (name : String) (span : Option Span)
  | array (elements : List Node) (span : Option Span)
  | binary (op : String) (left right : Node) (span : Option Span)
  | logical (op : String) (left right : Node) (span : Option Span)
  | unary (op : String) (operand : Node) (span : Option Span)
  | call (callee : Node) (args : List Node) (span : Option Span)
  | index (target index : Node) (span : Option Span)
  | functionExpr (name : Option String) (params : List String) (body : Node) (span : Option Span)
  | functionDef (name : String) (params : List String) (body : Node) (span : Option Span)
  | letStmt (name : String) (mutable : Bool) (init : Node) (span : Option Span)
  | assign (name : String) (value : Node) (span : Option Span)
  | indexAssign (target index value : Node) (span : Option Span)
  | ifStmt (condition yes : Node) (no : Option Node) (span : Option Span)
  | whileStmt (condition body : Node) (span : Option Span)
  | forStmt (var : String) (iterable body : Node) (span : Option Span)
  | returnStmt (value : Option Node) (span : Option Span)
  | block (statements : List Node) (span : Option Span)
  | exprStmt (expr : Node) (span : Option Span)
  /-- Plain data where a node should be. -/
  | stray (datum : Datum)
  /-- A node of a kind the language does not know. -/
  | unknown (type : String) (span : Option Span)
  /-- The place of a part that its owner lacks. -/
  | absent (owner field : String) (span : Option Span)
  /-- An expression that lacks a part of its own. -/
  | partialExpr (type field : String) (span : Option Span)
  /-- A statement that lacks a part of its own; the parts in `first` are run before that shows. -/
  | partialStmt (type field : String) (first : List Node) (span : Option Span)
deriving Inhabited

namespace Node

/-- The name of a node's kind. -/
def type : Node → String
  | literal .. => "LITERAL"
  | identifier .. => "IDENTIFIER"
  | array .. => "ARRAY"
  | binary .. => "BINARY"
  | logical .. => "LOGICAL"
  | unary .. => "UNARY"
  | call .. => "CALL"
  | index .. => "INDEX"
  | functionExpr .. => "FUNCTION_EXPR"
  | functionDef .. => "FUNCTION_DEF"
  | letStmt .. => "LET"
  | assign .. => "ASSIGN"
  | indexAssign .. => "INDEX_ASSIGN"
  | ifStmt .. => "IF"
  | whileStmt .. => "WHILE"
  | forStmt .. => "FOR"
  | returnStmt .. => "RETURN"
  | block .. => "BLOCK"
  | exprStmt .. => "EXPR_STMT"
  | stray d => d.quoted
  | unknown t _ => t
  | absent owner _ _ => owner
  | partialExpr t _ _ | partialStmt t _ _ _ => t

/-- The place of a node. -/
def span : Node → Option Span
  | literal _ _ s | identifier _ s | array _ s | binary _ _ _ s | logical _ _ _ s | unary _ _ s
  | call _ _ s | index _ _ s | functionExpr _ _ _ s | functionDef _ _ _ s | letStmt _ _ _ s
  | assign _ _ s | indexAssign _ _ _ s | ifStmt _ _ _ s | whileStmt _ _ s | forStmt _ _ _ s
  | returnStmt _ s | block _ s | exprStmt _ s | unknown _ s | absent _ _ s
  | partialExpr _ _ s | partialStmt _ _ _ s => s
  | stray _ => none

/-- A named part of a node. -/
inductive Field where
  | datum (d : Datum)
  | node (n : Node)
  | nodes (ns : List Node)

/-- A part that may be missing. -/
def Field.option : Option Node → Field
  | some n => .node n
  | none => .datum .null

/-- A name that may be missing. -/
def nameDatum : Option String → Datum
  | some n => .str n
  | none => .null

/-- The named parts of a node, in order. Literals and identifiers have a single payload without a
name instead. -/
def fields : Node → List (String × Field)
  | array es _ => [("elements", .nodes es)]
  | binary op l r _ | logical op l r _ =>
    [("op", .datum (.str op)), ("left", .node l), ("right", .node r)]
  | unary op e _ => [("op", .datum (.str op)), ("operand", .node e)]
  | call f args _ => [("callee", .node f), ("args", .nodes args)]
  | index t i _ => [("target", .node t), ("index", .node i)]
  | functionExpr n ps b _ =>
    [("name", .datum (nameDatum n)), ("params", .datum (.list (ps.map .str))), ("body", .node b)]
  | functionDef n ps b _ =>
    [("name", .datum (.str n)), ("params", .datum (.list (ps.map .str))), ("body", .node b)]
  | letStmt n m e _ =>
    [("name", .datum (.str n)), ("mutable", .datum (.bool m)), ("init", .node e)]
  | assign n e _ => [("name", .datum (.str n)), ("value", .node e)]
  | indexAssign t i e _ => [("target", .node t), ("index", .node i), ("value", .node e)]
  | ifStmt c y n _ => [("condition", .node c), ("then", .node y), ("else", .option n)]
  | whileStmt c b _ => [("condition", .node c), ("body", .node b)]
  | forStmt v e b _ => [("var", .datum (.str v)), ("iterable", .node e), ("body", .node b)]
  | returnStmt e _ => [("value", .option e)]
  | block ss _ => [("statements", .nodes ss)]
  | exprStmt e _ => [("expr", .node e)]
  | literal .. | identifier .. | stray _ | unknown .. | absent .. | partialExpr ..
  | partialStmt .. => []

/-- The payload of a literal or an identifier. -/
def payload? : Node → Option Datum
  | literal d _ _ => some d
  | identifier n _ => some (.str n)
  | _ => none

/-- The parts of a node that are nodes, in order. -/
def children : Node → List Node
  | array es _ => es
  | binary _ l r _ | logical _ l r _ => [l, r]
  | unary _ e _ => [e]
  | call f args _ => f :: args
  | index t i _ => [t, i]
  | functionExpr _ _ b _ | functionDef _ _ b _ => [b]
  | letStmt _ _ e _ | assign _ e _ => [e]
  | indexAssign t i e _ => [t, i, e]
  | ifStmt c y n _ => c :: y :: n.toList
  | whileStmt c b _ => [c, b]
  | forStmt _ e b _ => [e, b]
  | returnStmt e _ => e.toList
  | block ss _ => ss
  | exprStmt e _ => [e]
  | literal .. | identifier .. | stray _ | unknown .. | absent .. | partialExpr ..
  | partialStmt .. => []

/-- The kind of value that a node is known to give. -/
def kind? : Node → Option Kind
  | literal _ k _ => some k
  | array .. => some .array
  | functionExpr .. | functionDef .. => some .function
  | _ => none

mutual

/-- How many nodes are inside each other in a node, itself included. -/
def height : Node → Nat
  | array es _ | block es _ => heightAll es + 1
  | binary _ l r _ | logical _ l r _ | index l r _ | whileStmt l r _ | forStmt _ l r _ =>
    max l.height r.height + 1
  | unary _ e _ | functionExpr _ _ e _ | functionDef _ _ e _ | letStmt _ _ e _ | assign _ e _
  | exprStmt e _ => e.height + 1
  | call f args _ => max f.height (heightAll args) + 1
  | indexAssign t i e _ => max t.height (max i.height e.height) + 1
  | ifStmt c y no _ =>
    max c.height (max y.height (match no with | some n => n.height | none => 0)) + 1
  | returnStmt e _ => (match e with | some e => e.height | none => 0) + 1
  | _ => 1

/-- How many nodes are inside each other in one of the nodes. -/
def heightAll : List Node → Nat
  | [] => 0
  | n :: ns => max n.height (heightAll ns)

end

/-! ### Listings -/

/-- Plain data is shown beside a node's kind unless it holds records. -/
def isScalar : Datum → Bool
  | .record _ => false
  | .list items => !items.any fun d => match d with | .record _ => true | _ => false
  | _ => true

/-- A named part that is shown beside a node's kind: plain data, or an empty row of nodes. -/
def Field.scalar? : Field → Option Datum
  | .datum d => if isScalar d then some d else none
  | .node _ => none
  | .nodes ns => if ns.isEmpty then some (.list []) else none

/-- Named data after a node's kind. -/
def showScalars (scalars : List (String × Datum)) : String :=
  String.join (scalars.map fun f => " " ++ f.1 ++ "=" ++ f.2.quoted)

/-- The line of a node in a listing: its kind, its payload and the kind of its value. -/
def label (n : Node) : String :=
  let shown := match n.payload? with
    | some (.record fs) => showScalars (fs.filter fun f => isScalar f.2)
    | some d => "(" ++ d.quoted ++ ")"
    | none => showScalars (n.fields.filterMap fun f => f.2.scalar?.map fun d => (f.1, d))
  n.type ++ shown ++ (match n.kind? with | some k => " : " ++ k.name | none => "")

/-- The line of a node at a depth. -/
def line (indent : Nat) (n : Node) : String :=
  Text.repeated ' ' (2 * indent) ++ n.label ++ "\n"

mutual

/-- A node as an indented listing, from a depth on. -/
def listingAt (indent : Nat) : Node → String
  | n@(array es _) => n.line indent ++ listingsAt (indent + 1) es
  | n@(binary _ l r _) | n@(logical _ l r _) =>
    n.line indent ++ listingAt (indent + 1) l ++ listingAt (indent + 1) r
  | n@(unary _ e _) => n.line indent ++ listingAt (indent + 1) e
  | n@(call f args _) =>
    n.line indent ++ listingAt (indent + 1) f ++ listingsAt (indent + 1) args
  | n@(index t i _) => n.line indent ++ listingAt (indent + 1) t ++ listingAt (indent + 1) i
  | n@(functionExpr _ _ b _) | n@(functionDef _ _ b _) =>
    n.line indent ++ listingAt (indent + 1) b
  | n@(letStmt _ _ e _) | n@(assign _ e _) => n.line indent ++ listingAt (indent + 1) e
  | n@(indexAssign t i e _) =>
    n.line indent ++ listingAt (indent + 1) t ++ listingAt (indent + 1) i
      ++ listingAt (indent + 1) e
  | n@(ifStmt c y no _) =>
    n.line indent ++ listingAt (indent + 1) c ++ listingAt (indent + 1) y
      ++ (match no with | some e => listingAt (indent + 1) e | none => "")
  | n@(whileStmt c b _) => n.line indent ++ listingAt (indent + 1) c ++ listingAt (indent + 1) b
  | n@(forStmt _ e b _) => n.line indent ++ listingAt (indent + 1) e ++ listingAt (indent + 1) b
  | n@(returnStmt e _) =>
    n.line indent ++ (match e with | some e => listingAt (indent + 1) e | none => "")
  | n@(block ss _) => n.line indent ++ listingsAt (indent + 1) ss
  | n@(exprStmt e _) => n.line indent ++ listingAt (indent + 1) e
  | n => n.line indent

/-- The listings of several nodes. -/
def listingsAt (indent : Nat) : List Node → String
  | [] => ""
  | n :: ns => listingAt indent n ++ listingsAt indent ns

end

/-- A node as an indented listing. -/
def listing (n : Node) : String := listingAt 0 n

end Node

end Ember
