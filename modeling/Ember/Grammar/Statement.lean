import Ember.Grammar.Expression

/-!
# Grammar — statements and programs

Statements are tried in a fixed order. A keyword that starts one commits the parser to it, so most
failures inside a statement stop the parse.

* `statement`: a statement with an optional semicolon.
* `nest`: the parsers of a given nesting depth, by recursion on the depth.
* `program`, `soleExpression`: a whole text.
-/

namespace Ember.Grammar

/-- A binding. -/
def letStatement (inner : Nest) (mode : Mode) : Parser Tree := do
  let t ← keyword "let"
  Parser.cut do
    let mark ← (lexeme Lexeme.mutMark? (.construct "mark")).optional
    let n ← name mode
    let _ ← lexeme Lexeme.assignSign? .assignSign
    let init ← expression inner mode
    let head := .record [("name", .str n.string), ("mutable", .bool mark.isSome)]
    pure (nodeAt t.start .letStmt head [init])

/-- A function with a name. -/
def functionDef (inner : Nest) (mode : Mode) : Parser Tree := do
  let t ← keyword "fun"
  let n ← name mode
  let params ← parameters mode
  let body ← (inner.block mode).cut
  pure (nodeAt t.start .functionDef (functionHead (.str n.string) params) [body])

/-- What follows `else`: another conditional or a block. -/
def elseBranch (inner : Nest) (mode : Mode) : Parser Tree := do
  let _ ← keyword "else"
  (choice .elseBranch [inner.conditional mode, inner.block mode]).cut

/-- A conditional. -/
def ifStatement (inner : Nest) (mode : Mode) : Parser Tree := do
  let t ← keyword "if"
  let condition ← (expression inner mode).cut
  let yes ← (inner.block mode).cut
  let no ← (elseBranch inner mode).optional
  pure (nodeAt t.start .ifStmt .null ([condition, yes] ++ no.toList))

/-- A loop with a condition. -/
def whileStatement (inner : Nest) (mode : Mode) : Parser Tree := do
  let t ← keyword "while"
  let condition ← (expression inner mode).cut
  let body ← (inner.block mode).cut
  pure (nodeAt t.start .whileStmt .null [condition, body])

/-- A loop over the elements of an array. -/
def forStatement (inner : Nest) (mode : Mode) : Parser Tree := do
  let t ← keyword "for"
  Parser.cut do
    let n ← name mode
    let _ ← keyword "in"
    let iterable ← expression inner mode
    let body ← inner.block mode
    pure (nodeAt t.start .forStmt (.str n.string) [iterable, body])

/-- A return that gives nothing back. -/
def bareReturn : Parser Tree := do
  let t ← lexeme Lexeme.bareReturn? (.construct "return")
  pure (nodeAt t.start .returnStmt .null [])

/-- A return that gives a value back. -/
def valueReturn (inner : Nest) (mode : Mode) : Parser Tree := do
  let t ← keyword "return"
  let e ← expression inner mode
  pure (nodeAt t.start .returnStmt .null [e])

/-- A block that stands as a statement. -/
def blockStatement (inner : Nest) (mode : Mode) : Parser Tree := do
  let b ← inner.block mode
  pure (.node .blockStmt .null [b] b.span)

/-- The tree of an assignment: to a name or to an element. -/
def assignTree? (start : Cursor) (target value : Tree) : Option Tree :=
  match target with
  | .node .identifier n _ _ => some (nodeAt start .assign n [value])
  | .node .index _ parts _ => some (nodeAt start .indexAssign .null (parts ++ [value]))
  | _ => none

/-- An assignment, at a position where the outcome of its target is known. What cannot be assigned
to is noticed only when reading. -/
def assignFrom (inner : Nest) (mode : Mode) (target : Outcome Tree) (start : Cursor) :
    Outcome Tree :=
  match target with
  | .ok t c => Parser.bind (lexeme Lexeme.assignSign? .assignSign) (fun _ =>
      Parser.bind (expression inner mode) fun value =>
        match assignTree? start t value, mode with
        | some tree, _ => Parser.pure tree
        | none, .probe => Parser.pure t
        | none, .read => fun _ =>
          .fail ⟨start.offset, .assignTarget (t.kind?.elim "" Tree.Kind.name)⟩) c
  | r => r

/-- An expression that stands as a statement, at a position where the outcome of its first primary
expression is known. -/
def expressionStatementFrom (inner : Nest) (mode : Mode) (plain : Outcome Tree)
    (start : Cursor) : Outcome Tree :=
  match expressionFrom inner mode plain start with
  | .ok e c => .ok (nodeAt start .exprStmt .null [e]) c
  | r => r

/-- A statement without its semicolon. -/
def bareStatement (inner : Nest) (mode : Mode) : Parser Tree := fun c =>
  let c := c.skip
  match firstOf [
      letStatement inner mode, functionDef inner mode, ifStatement inner mode,
      whileStatement inner mode, forStatement inner mode, bareReturn, valueReturn inner mode,
      blockStatement inner mode] c with
  | .fail f =>
    let plain := postfixed inner mode c
    match assignFrom inner mode plain c with
    | .fail g => (Outcome.fail (f.further g)).or (expressionStatementFrom inner mode plain c)
    | r => r
  | r => r

/-- A statement. -/
def statement (inner : Nest) (mode : Mode) : Parser Tree := do
  let s ← bareStatement inner mode
  let _ ← (symbol ";").optional
  pure s

/-- Statements as long as there are any. -/
def statements (inner : Nest) (mode : Mode) : Parser (List Tree) := do
  let ss ← repeatedly (fun ss => do
    let s ← statement inner mode
    pure (s :: ss)) []
  pure ss.reverse

/-- A block in braces. -/
def block (inner : Nest) (mode : Mode) : Parser Tree := do
  let t ← symbol "\x7b"
  let ss ← statements inner mode
  let _ ← (symbol "\x7d").cut
  pure (nodeAt t.start .block .null ss)

/-- The parsers one depth further out. -/
def enclose (inner : Nest) : Nest where
  expression := expression inner
  unary := unary inner
  block := block inner
  conditional := ifStatement inner

@[simp] theorem enclose_expression (inner : Nest) :
    (enclose inner).expression = expression inner := rfl

@[simp] theorem enclose_unary (inner : Nest) : (enclose inner).unary = unary inner := rfl

@[simp] theorem enclose_block (inner : Nest) : (enclose inner).block = block inner := rfl

@[simp] theorem enclose_conditional (inner : Nest) :
    (enclose inner).conditional = ifStatement inner := rfl

/-- The parsers that follow no nesting at all. -/
def exhausted : Nest where
  expression _ _ := .stop .tooDeep
  unary _ _ := .stop .tooDeep
  block _ _ := .stop .tooDeep
  conditional _ _ := .stop .tooDeep

/-- The parsers that follow a number of nesting depths. -/
def nest : Nat → Nest
  | 0 => exhausted
  | n + 1 => enclose (nest n)

/-- The number of nesting depths that the parser follows. -/
def maxDepth : Nat := 150

/-- A whole program. -/
def program : Parser (List Tree) := do
  let ss ← statements (nest maxDepth) .read
  endOfText
  pure ss

/-- A text that is one expression. -/
def soleExpression : Parser Tree := do
  let e ← expression (nest maxDepth) .read
  endOfText
  pure e

end Ember.Grammar
