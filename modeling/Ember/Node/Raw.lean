import Ember.Node

/-!
# Node — nodes put together by hand

A hand-made node is a record with a type and a payload, and the payload is whatever its maker put
there. Reading it as a node decides which parts it has; a part that is not there leaves a gap that
the evaluator reports when it comes to it, in the order in which it reads the parts.

* `Raw`: a hand-made node or plain data.
* `Node.ofRaw`: the node of a hand-made one.
-/

namespace Ember

/-- A hand-made node or plain data that may hold such nodes. -/
inductive Raw where
  | plain (d : Datum)
  | list (items : List Raw)
  | record (fields : List (String × Raw))
  | node (type : String) (value : Raw) (span : Option Span)
deriving Inhabited

mutual

/-- Hand-made nodes as plain data. -/
def Raw.toDatum : Raw → Datum
  | .plain d => d
  | .list items => .list (toData items)
  | .record fields => .record (toFields fields)
  | .node type value _ => .record [("type", .str type), ("value", value.toDatum)]

/-- A row of hand-made nodes as plain data. -/
def Raw.toData : List Raw → List Datum
  | [] => []
  | r :: rs => r.toDatum :: toData rs

/-- Named hand-made nodes as plain data. -/
def Raw.toFields : List (String × Raw) → List (String × Datum)
  | [] => []
  | (k, r) :: rs => (k, r.toDatum) :: toFields rs

end

namespace Node

/-- A part of a hand-made node, read as a node, as a row of nodes and as plain data. -/
structure Part where
  node : Node
  items : List Node
  datum : Datum

/-- The named parts of a hand-made node. -/
abbrev Parts := List (String × Part)

/-- The part of a name. -/
def Parts.get? (ps : Parts) (name : String) : Option Part :=
  (List.find? (·.1 == name) ps).map (·.2)

/-- The part of a name as a node, or the gap where it should be. -/
def Parts.node (ps : Parts) (owner name : String) (span : Option Span) : Node :=
  (Parts.get? ps name).elim (.absent owner name span) Part.node

/-- The part of a name as a row of nodes, or the gap where it should be. -/
def Parts.items (ps : Parts) (owner name : String) (span : Option Span) : List Node :=
  (Parts.get? ps name).elim [.absent owner name span] Part.items

/-- The part of a name as a node that may be missing, or the gap where it should be. -/
def Parts.optionalNode (ps : Parts) (owner name : String) (span : Option Span) : Option Node :=
  match Parts.get? ps name with
  | none => some (.absent owner name span)
  | some p => match p.datum with
    | .null => none
    | _ => some p.node

/-- The part of a name as a text. -/
def Parts.text? (ps : Parts) (name : String) : Option String :=
  (Parts.get? ps name).map (·.datum.bare)

/-- The part of a name as a row of texts. -/
def Parts.texts? (ps : Parts) (name : String) : Option (List String) :=
  (Parts.get? ps name).map fun p => match p.datum with
    | .list items => items.map Datum.bare
    | .str s => s.toList.map String.singleton
    | _ => []

/-- The kind of value that a literal payload denotes. -/
def literalKind : Datum → Kind
  | .null => .unit
  | .bool _ => .bool
  | .int _ => .int
  | .float _ => .float
  | _ => .str

/-- The node of a type with the given parts. Parts that the evaluator reads before it runs anything
make the node incomplete if they are missing; the others leave a gap. -/
def build (type : String) (payload : Datum) (ps : Parts) (span : Option Span) : Node :=
  let part (name : String) : Node := Parts.node ps type name span
  let exprLacks (field : String) : Node := .partialExpr type field span
  let stmtLacks (field : String) (first : List Node) : Node := .partialStmt type field first span
  match type with
  | "LITERAL" => .literal payload (literalKind payload) span
  | "IDENTIFIER" => .identifier payload.bare span
  | "ARRAY" => .array (Parts.items ps type "elements" span) span
  | "BINARY" =>
    (Parts.text? ps "op").elim (exprLacks "op") fun op =>
      .binary op (part "left") (part "right") span
  | "LOGICAL" =>
    (Parts.text? ps "op").elim (exprLacks "op") fun op =>
      .logical op (part "left") (part "right") span
  | "UNARY" =>
    (Parts.text? ps "op").elim (exprLacks "op") fun op => .unary op (part "operand") span
  | "CALL" => .call (part "callee") (Parts.items ps type "args" span) span
  | "INDEX" => .index (part "target") (part "index") span
  | "FUNCTION_EXPR" =>
    match Parts.texts? ps "params", Parts.get? ps "body" with
    | none, _ => exprLacks "params"
    | _, none => exprLacks "body"
    | some params, some body => .functionExpr (Parts.text? ps "name") params body.node span
  | "FUNCTION_DEF" =>
    match Parts.text? ps "name", Parts.texts? ps "params", Parts.get? ps "body" with
    | none, _, _ => stmtLacks "name" []
    | _, none, _ => stmtLacks "params" []
    | _, _, none => stmtLacks "body" []
    | some name, some params, some body => .functionDef name params body.node span
  | "LET" =>
    match Parts.text? ps "name", Parts.get? ps "mutable" with
    | none, _ => stmtLacks "name" [part "init"]
    | _, none => stmtLacks "mutable" [part "init"]
    | some name, some flag => .letStmt name flag.datum.truthy (part "init") span
  | "ASSIGN" =>
    (Parts.text? ps "name").elim (stmtLacks "name" [part "value"]) fun name =>
      .assign name (part "value") span
  | "INDEX_ASSIGN" => .indexAssign (part "target") (part "index") (part "value") span
  | "IF" =>
    .ifStmt (part "condition") (part "then") (Parts.optionalNode ps type "else" span) span
  | "WHILE" =>
    match Parts.get? ps "condition", Parts.get? ps "body" with
    | none, _ => stmtLacks "condition" []
    | _, none => stmtLacks "body" []
    | some condition, some body => .whileStmt condition.node body.node span
  | "FOR" =>
    match Parts.text? ps "var", Parts.get? ps "body" with
    | none, _ => stmtLacks "var" []
    | _, none => stmtLacks "body" []
    | some var, some body => .forStmt var (part "iterable") body.node span
  | "RETURN" => .returnStmt (Parts.optionalNode ps type "value" span) span
  | "BLOCK" => .block (Parts.items ps type "statements" span) span
  | "EXPR_STMT" => .exprStmt (part "expr") span
  | _ => .unknown type span

mutual

/-- The node of a hand-made one. -/
def ofRaw : Raw → Node
  | .node type value span => build type value.toDatum (partsOf value) span
  | .plain d => .stray d
  | .list items => .stray (.list (Raw.toData items))
  | .record fields => .stray (.record (Raw.toFields fields))

/-- The named parts that a payload holds. -/
def partsOf : Raw → Parts
  | .record fields => partList fields
  | .plain _ | .list _ | .node .. => []

/-- Named parts, one by one. -/
def partList : List (String × Raw) → Parts
  | [] => []
  | (k, r) :: rs => (k, ⟨ofRaw r, itemsOf r, r.toDatum⟩) :: partList rs

/-- What a row holds: a text is a row of its characters, a record a row of its names. -/
def itemsOf : Raw → List Node
  | .list items => ofRawList items
  | .plain (.str s) => s.toList.map fun c => .stray (.str (String.singleton c))
  | .record fields => fields.map fun f => .stray (.str f.1)
  | .plain _ | .node .. => []

/-- Several hand-made nodes. -/
def ofRawList : List Raw → List Node
  | [] => []
  | r :: rs => ofRaw r :: ofRawList rs

end

end Node

end Ember
