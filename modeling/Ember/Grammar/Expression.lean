import Ember.Grammar.Token

/-!
# Grammar — expressions

An expression is a tower of operator levels over prefix operators, over calls and indexing, over
primary expressions. At each level a chain of operands is read only if probing ahead finds a first
operator and its right operand; if reading the chain then fails, the left operand stands alone.

What is nested in brackets or in a function body is read by the parsers of the next inner depth
(`Nest`), so the grammar itself is not recursive.

* `levels`: the binary operators, loosest first.
* `expression`: an expression.
* `expressionFrom`: an expression of which the part up to its first operator is known.
-/

namespace Ember.Grammar

/-- The parsers of one nesting depth. -/
structure Nest where
  /-- An expression. -/
  expression : Mode → Parser Tree
  /-- An operand with its prefix operators. -/
  unary : Mode → Parser Tree
  /-- A block in braces. -/
  block : Mode → Parser Tree
  /-- A conditional statement. -/
  conditional : Mode → Parser Tree

/-- Items separated by commas, possibly none. -/
def commaList {α : Type} (item : Parser α) : Parser (List α) := do
  match ← item.optional with
  | none => pure []
  | some first =>
    let items ← repeatedly (fun items => do
      let _ ← symbol ","
      let next ← item
      pure (next :: items)) [first]
    pure items.reverse

/-! ### Primary expressions -/

/-- A number. An integer literal of too many digits stops the parse, but only once it is read. -/
def number (mode : Mode) : Parser Tree := do
  let t ← lexeme Lexeme.number? (.construct "number")
  if Lexeme.isFloat t.text then pure (t.leaf .number (.float (Decimal.readFloat t.text)))
  else if mode = .read ∧ Decimal.maxDigits < t.text.length then
    fun _ => .stop (.hugeInteger t.text.length)
  else pure (t.leaf .number (.int (Text.digitsValue t.text)))

/-- The inside of a string literal, without its marks. -/
def stringInside (lexeme : List Char) : List Char := (lexeme.drop 1).dropLast

/-- A string literal. -/
def string : Parser Tree := do
  let t ← lexeme Lexeme.string? (.construct "string")
  pure (t.leaf .string (.str (String.ofList (Text.unescape (stringInside t.text)))))

/-- A keyword that denotes a value. -/
def constant (word : String) (kind : Tree.Kind) (value : Datum) : Parser Tree := do
  let t ← keyword word
  pure (t.leaf kind value)

/-- A name in an expression. -/
def identifier (mode : Mode) : Parser Tree := do
  let t ← name mode
  pure (t.leaf .identifier (.str t.string))

/-- Parameters in parentheses. -/
def parameters (mode : Mode) : Parser (List String) := do
  let _ ← symbol "("
  let names ← commaList (name mode)
  let _ ← symbol ")"
  pure (names.map Token.string)

/-- The payload of a function. -/
def functionHead (name : Datum) (params : List String) : Datum :=
  .record [("name", name), ("params", .list (params.map .str))]

/-- A function without a name. -/
def functionExpr (inner : Nest) (mode : Mode) : Parser Tree := do
  let t ← keyword "fun"
  let params ← parameters mode
  let body ← inner.block mode
  pure (nodeAt t.start .functionExpr (functionHead .null params) [body])

/-- An array; a comma may follow the last element. -/
def array (inner : Nest) (mode : Mode) : Parser Tree := do
  let t ← symbol "["
  let items ← commaList (inner.expression mode)
  if !items.isEmpty then
    let _ ← (symbol ",").optional
  let _ ← symbol "]"
  pure (nodeAt t.start .array .null items)

/-- An expression in parentheses, which leave no trace. -/
def parenthesized (inner : Nest) (mode : Mode) : Parser Tree := do
  let _ ← symbol "("
  let e ← inner.expression mode
  let _ ← symbol ")"
  pure e

/-- A primary expression. -/
def primary (inner : Nest) (mode : Mode) : Parser Tree :=
  choice (.construct "primary") [
    number mode, string,
    constant "true" .bool (.bool true), constant "false" .bool (.bool false),
    constant "nil" .nil .null,
    functionExpr inner mode, array inner mode, parenthesized inner mode, identifier mode]

/-! ### Calls and indexing -/

/-- A call of what has been read, on the same line. -/
def callSuffix (inner : Nest) (mode : Mode) (callee : Tree) : Parser Tree := do
  let t ← symbolInLine "("
  let args ← commaList (inner.expression mode)
  let _ ← symbol ")"
  pure (.node .call .null (callee :: args) (some (t.start.span "(")))

/-- An element of what has been read, on the same line. -/
def indexSuffix (inner : Nest) (mode : Mode) (target : Tree) : Parser Tree := do
  let t ← symbolInLine "["
  let i ← inner.expression mode
  let _ ← symbol "]"
  pure (.node .index .null [target, i] (some (t.start.span "[")))

/-- A primary expression with its calls and indexes, applied from left to right. -/
def postfixed (inner : Nest) (mode : Mode) : Parser Tree := do
  let head ← primary inner mode
  repeatedly (fun t => firstOf [callSuffix inner mode t, indexSuffix inner mode t]) head

/-! ### Operators -/

/-- The prefix operators. -/
def prefixOperators : List String := ["-", "!"]

/-- The binary operators, loosest level first. -/
def levels : List (List String) := [
  ["||"], ["&&"], ["==", "!="], ["<=", ">=", "<", ">"], ["+", "-"], ["*", "/", "%"]]

/-- The tree of a prefix operator. -/
def unaryTree (op : Token) (operand : Tree) : Tree :=
  .node .unary (.str op.string) [operand] (some (op.start.span op.string))

/-- The tree of a binary operator, placed at the start of its chain. -/
def binaryTree (start : Cursor) (op : Token) (left right : Tree) : Tree :=
  let kind := if op.string = "&&" ∨ op.string = "||" then .logical else .binary
  .node kind (.str op.string) [left, right] (some (start.span op.string))

/-- A prefix operator and its operand. The operand is probed first. -/
def prefixed (inner : Nest) (mode : Mode) : Parser Tree := do
  let op ← prefixOperator prefixOperators
  fun c =>
    let probed :=
      (inner.unary .probe c).tentative op.start.offset (.operation prefixOperators)
    let operand := match mode, probed with
      | .read, .ok _ _ => inner.unary .read c
      | _, r => r
    match operand with
    | .ok t c => .ok (unaryTree op t) c
    | r => r

/-- An operand with its prefix operators, at a position where the outcome without prefix operators
is known. -/
def unaryFrom (inner : Nest) (mode : Mode) (plain : Outcome Tree) (c : Cursor) : Outcome Tree :=
  ((prefixed inner mode c).or plain).relabel c.offset (.operation prefixOperators)

/-- An operand with its prefix operators. -/
def unary (inner : Nest) (mode : Mode) : Parser Tree := fun c =>
  let c := c.skip
  unaryFrom inner mode (postfixed inner mode c) c

/-- An operator and its right operand, joined to the left operand of a chain. -/
def link (ops : List String) (operand : Parser Tree) (start : Cursor) (left : Tree) :
    Parser Tree := do
  let op ← operator ops
  let right ← operand
  pure (binaryTree start op left right)

/-- Goes on with a chain after its first operand. The first link is only tried. -/
def probeLinks (step : Tree → Parser Tree) (first : Tree) : Parser Tree := fun c =>
  match (step first c).tentative c.offset (.construct "link") with
  | .ok t c' => repeatedly step t c'
  | .fail _ => .ok first c
  | .stop s => .stop s

/-- Probes an expression of the given levels at a position where the outcome of the operand is
known. -/
def probeFrom (inner : Nest) : List (List String) → Outcome Tree → Cursor → Outcome Tree
  | [], leaf, _ => leaf
  | ops :: tighter, leaf, start =>
    let operand : Parser Tree := fun c =>
      let c := c.skip
      probeFrom inner tighter (unary inner .probe c) c
    match probeFrom inner tighter leaf start with
    | .ok t c => probeLinks (link ops operand start) t c
    | r => r.relabel start.offset (.operation ops)

/-- Probes an expression of the given levels. -/
def probeAt (inner : Nest) (ls : List (List String)) : Parser Tree := fun c =>
  let c := c.skip
  probeFrom inner ls (unary inner .probe c) c

/-- Reads an expression of the given levels at a position where the outcomes of probing and
reading the operand are known. -/
def readFrom (inner : Nest) :
    List (List String) → (probed read : Outcome Tree) → Cursor → Outcome Tree
  | [], _, leaf, _ => leaf
  | ops :: tighter, probed, leaf, start =>
    let operand : Parser Tree := fun c =>
      let c := c.skip
      readFrom inner tighter (unary inner .probe c) (unary inner .read c) c
    let ahead := match probeFrom inner tighter probed start with
      | .ok t c => link ops (probeAt inner tighter) start t c
      | r => r
    match ahead.tentative start.offset (.operation ops) with
    | .stop s => .stop s
    | .fail f =>
      ((Outcome.fail f).or (readFrom inner tighter probed leaf start)).relabel
        start.offset (.operation ops)
    | .ok _ _ =>
      match readFrom inner tighter probed leaf start with
      | .ok t c => repeatedly (link ops operand start) t c
      | r => r.relabel start.offset (.operation ops)

/-- An expression at a position where the outcome of its first primary expression with calls and
indexes is known. -/
def expressionFrom (inner : Nest) (mode : Mode) (plain : Outcome Tree) (c : Cursor) :
    Outcome Tree :=
  match mode with
  | .probe => probeFrom inner levels (unaryFrom inner .probe plain c) c
  | .read =>
    readFrom inner levels (unary inner .probe c) (unaryFrom inner .read plain c) c

/-- An expression. -/
def expression (inner : Nest) (mode : Mode) : Parser Tree := fun c =>
  let c := c.skip
  expressionFrom inner mode (postfixed inner mode c) c

end Ember.Grammar
