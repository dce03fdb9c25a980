import Ember.Node
import Ember.Tree

/-!
# Analysis — from trees to nodes

The analysis names the parts of each tree and refuses the trees that are well-formed text but make
no program: a function with two parameters of one name, and a return outside of every function. A
minus sign before a number becomes part of the number, so that the least integer can be written.

* `analyze`: the node of a tree.
* `analyzeTrees`: the nodes of a program.
* `Analysis.depth`: how many trees inside each other the analysis goes into.
-/

namespace Ember

/-- Why a tree is no program. -/
inductive SemanticsFault where
  /-- Two parameters of one name, in a function that may have a name of its own. -/
  | duplicateParameter (param : String) (function : Option String)
  /-- A return outside of every function. -/
  | returnOutside
  /-- A node of an unknown kind. -/
  | unknownNode (type : String)
  /-- Plain data where a tree should be. -/
  | notATree (shown : String)
  /-- A node that lacks parts or payload of its kind. -/
  | malformed (type : String)
deriving DecidableEq, Repr, Inhabited

/-- The wording of a fault. -/
def SemanticsFault.message : SemanticsFault → String
  | duplicateParameter param function =>
    let label := match function with
      | some n => if n.isEmpty then "anonymous function" else "function '" ++ n ++ "'"
      | none => "anonymous function"
    "Duplicate parameter '" ++ param ++ "' in " ++ label
  | returnOutside => "'return' outside of a function"
  | unknownNode type => "Unknown syntax node '" ++ type ++ "'"
  | notATree shown => "Unable to analyze " ++ shown
  | malformed type => "Malformed syntax node '" ++ type ++ "'"

/-- A message about a tree, with its place if that is known. -/
structure SemanticsError where
  message : String
  span : Option Span
deriving DecidableEq, Repr, Inhabited

/-- An error as one text. -/
def SemanticsError.text (e : SemanticsError) : String :=
  Span.located "Semantics error" e.span e.message

namespace Analysis

/-- A fault and its place. -/
structure Refusal where
  fault : SemanticsFault
  span : Option Span
deriving DecidableEq, Repr, Inhabited

/-- The error that a refusal is reported as. -/
def Refusal.error (r : Refusal) : SemanticsError := ⟨r.fault.message, r.span⟩

/-- The outcome of the analysis. -/
abbrev Result (α : Type) := Except Refusal α

/-- Refuses a tree. -/
def refuse {α : Type} (fault : SemanticsFault) (span : Option Span) : Result α :=
  .error ⟨fault, span⟩

/-- The first name that occurs a second time, after those in `seen`. -/
def firstRepeated? (seen : List String) : List String → Option String
  | [] => none
  | p :: ps => if p ∈ seen then some p else firstRepeated? (p :: seen) ps

/-- The kind of value that a number literal denotes. -/
def numberKind : Datum → Kind
  | .float _ => .float
  | _ => .int

/-- The number with the opposite sign. -/
def negated? : Datum → Option Datum
  | .float x => some (.float (-x))
  | d => d.asInt?.map fun i => .int (-i)

/-- A name in the payload of a function. -/
def optionalName : Datum → Option String
  | .null => none
  | d => some d.bare

/-- The name and parameters of a function. -/
def functionHead? (value : Datum) : Option (Option String × List String) :=
  match value.field? "name", value.field? "params" with
  | some name, some (.list params) => some (optionalName name, params.map Datum.bare)
  | _, _ => none

/-- The name and mutability of a binding. -/
def letHead? (value : Datum) : Option (String × Bool) :=
  match value.field? "name", value.field? "mutable" with
  | some name, some flag => some (name.bare, flag.truthy)
  | _, _ => none

/-- A prefix minus on a number literal, as a literal. -/
def foldedNegation? (op : Datum) (operand : Tree) : Option (Option Datum) :=
  match op, operand with
  | .str "-", .node .number value _ _ => some (negated? value)
  | _, _ => none

mutual

/-- The node of a tree, inside a function or not. -/
def analyze (inFunction : Bool) : Tree → Result Node
  | .stray d => refuse (.notATree d.quoted) none
  | .node .number v _ s => .ok (.literal v (numberKind v) s)
  | .node .string v _ s => .ok (.literal v .str s)
  | .node .bool v _ s => .ok (.literal v .bool s)
  | .node .nil v _ s => .ok (.literal v .unit s)
  | .node .identifier v _ s => .ok (.identifier v.bare s)
  | .node .array _ cs s => do
    let es ← analyzeAll inFunction cs
    return .array es s
  | .node .binary v (l :: r :: _) s => do
    let left ← analyze inFunction l
    let right ← analyze inFunction r
    return .binary v.bare left right s
  | .node .logical v (l :: r :: _) s => do
    let left ← analyze inFunction l
    let right ← analyze inFunction r
    return .logical v.bare left right s
  | .node .unary v (e :: _) s =>
    match foldedNegation? v e with
    | some (some d) => .ok (.literal d (numberKind d) s)
    | some none => refuse (.malformed "NUMBER") e.span
    | none => do
      let operand ← analyze inFunction e
      return .unary v.bare operand s
  | .node .call _ (f :: cs) s => do
    let callee ← analyze inFunction f
    let args ← analyzeAll inFunction cs
    return .call callee args s
  | .node .index _ (t :: i :: _) s => do
    let target ← analyze inFunction t
    let index ← analyze inFunction i
    return .index target index s
  | .node .functionExpr v (b :: _) s =>
    match functionHead? v with
    | none => refuse (.malformed "FUNCTION_EXPR") s
    | some (name, params) =>
      match firstRepeated? [] params with
      | some p => refuse (.duplicateParameter p name) s
      | none => do
        let body ← analyzeBlock true b
        return .functionExpr name params body s
  | .node .functionDef v (b :: _) s =>
    match functionHead? v with
    | none => refuse (.malformed "FUNCTION_DEF") s
    | some (name, params) =>
      match firstRepeated? [] params with
      | some p => refuse (.duplicateParameter p name) s
      | none => do
        let body ← analyzeBlock true b
        return .functionDef (name.getD "") params body s
  | .node .letStmt v (e :: _) s => do
    let init ← analyze inFunction e
    match letHead? v with
    | none => refuse (.malformed "LET") s
    | some (name, mutable) => return .letStmt name mutable init s
  | .node .assign v (e :: _) s => do
    let value ← analyze inFunction e
    return .assign v.bare value s
  | .node .indexAssign _ [t, i, e] s => do
    let target ← analyze inFunction t
    let index ← analyze inFunction i
    let value ← analyze inFunction e
    return .indexAssign target index value s
  | .node .ifStmt _ [c, y] s => do
    let condition ← analyze inFunction c
    let yes ← analyzeBlock inFunction y
    return .ifStmt condition yes none s
  | .node .ifStmt _ (c :: y :: n :: _) s => do
    let condition ← analyze inFunction c
    let yes ← analyzeBlock inFunction y
    let no ← if n.kind? = some .ifStmt then analyze inFunction n else analyzeBlock inFunction n
    return .ifStmt condition yes (some no) s
  | .node .whileStmt _ (c :: b :: _) s => do
    let condition ← analyze inFunction c
    let body ← analyzeBlock inFunction b
    return .whileStmt condition body s
  | .node .forStmt v (e :: b :: _) s => do
    let iterable ← analyze inFunction e
    let body ← analyzeBlock inFunction b
    return .forStmt v.bare iterable body s
  | .node .returnStmt _ cs s =>
    if inFunction then
      match cs with
      | [] => .ok (.returnStmt none s)
      | e :: _ => do
        let value ← analyze inFunction e
        return .returnStmt (some value) s
    else refuse .returnOutside s
  | .node .block _ cs s => do
    let ss ← analyzeAll inFunction cs
    return .block ss s
  | .node .blockStmt _ (b :: _) _ => analyzeBlock inFunction b
  | .node .exprStmt _ (e :: _) s => do
    let expr ← analyze inFunction e
    return .exprStmt expr s
  | .node (.other n) _ _ s => refuse (.unknownNode n) s
  | .node kind _ _ s => refuse (.malformed kind.name) s

/-- The block of a tree, whatever its kind: its parts are the statements. -/
def analyzeBlock (inFunction : Bool) : Tree → Result Node
  | .node _ _ cs s => do
    let ss ← analyzeAll inFunction cs
    return .block ss s
  | .stray d => refuse (.malformed d.quoted) none

/-- The nodes of several trees, from left to right. -/
def analyzeAll (inFunction : Bool) : List Tree → Result (List Node)
  | [] => .ok []
  | t :: ts => do
    let n ← analyze inFunction t
    let ns ← analyzeAll inFunction ts
    return n :: ns

end

/-! ### How deep the analysis goes -/

/-- The analysis goes into the parts of a tree: it neither refuses the tree itself nor makes a
literal of it. -/
def entersParts (inFunction : Bool) : Tree → Bool
  | .node .returnStmt _ _ _ => inFunction
  | .node .functionExpr v _ _ | .node .functionDef v _ _ =>
    (functionHead? v).any fun head => (firstRepeated? [] head.2).isNone
  | .node .unary v (e :: _) _ => (foldedNegation? v e).isNone
  | _ => true

mutual

/-- How many trees inside each other the analysis of a tree goes into, up to the first one that it
refuses. -/
def depth (inFunction : Bool) : Tree → Nat
  | .node kind value cs s =>
    if entersParts inFunction (.node kind value cs s) then
      depthAll (inFunction || kind.opensFunction) cs + 1
    else 1
  | .stray _ => 1

/-- How many trees inside each other the analysis of several trees goes into. -/
def depthAll (inFunction : Bool) : List Tree → Nat
  | [] => 0
  | t :: ts =>
    max (depth inFunction t) (if (analyze inFunction t).isOk then depthAll inFunction ts else 0)

end

end Analysis

/-- The node of a tree outside of every function. -/
def analyzeTree (t : Tree) : Except SemanticsError Node :=
  (Analysis.analyze false t).mapError Analysis.Refusal.error

/-- The nodes of a program. -/
def analyzeTrees (ts : List Tree) : Except SemanticsError (List Node) :=
  (Analysis.analyzeAll false ts).mapError Analysis.Refusal.error

end Ember
