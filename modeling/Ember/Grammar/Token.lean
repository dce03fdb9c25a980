import Ember.Grammar.Outcome
import Ember.Source.Lexeme
import Ember.Tree

/-!
# Grammar — tokens

The parsers of single tokens. Each skips to its token first, and a failure is located after the
skipping.

The parser works in two modes. When it probes ahead it only asks whether a text could be read, and
a keyword passes for a name; when it reads, keywords are no names.

* `keyword`: a word that touches no other word character.
* `operator`: a binary operator, which has to stand on the line of its left operand.
* `name`: a name.
-/

namespace Ember.Grammar

/-- Whether the parser probes ahead or reads. -/
inductive Mode where
  | probe
  | read
deriving DecidableEq, Repr, Inhabited

/-- A token: where it starts, and its text. -/
structure Token where
  start : Cursor
  text : List Char

/-- The text of a token. -/
def Token.string (t : Token) : String := String.ofList t.text

/-- A leaf of the tree, whose place shows the token. -/
def Token.leaf (t : Token) (kind : Tree.Kind) (value : Datum) : Tree :=
  .node kind value [] (some (t.start.span t.string))

/-- A node that starts at a position and shows no text. -/
def nodeAt (start : Cursor) (kind : Tree.Kind) (value : Datum) (children : List Tree) : Tree :=
  .node kind value children (some (start.span ""))

/-- The lexeme of the given length that starts here. -/
def Token.take (c : Cursor) (size : Nat) : Outcome Token :=
  .ok ⟨c, c.rest.take size⟩ (c.advance size)

/-- A lexeme of a class, after skipping. -/
def lexeme (size? : List Char → Option Nat) (cause : Cause) : Parser Token := fun c =>
  let c := c.skip
  match size? c.rest with
  | some n => Token.take c n
  | none => .fail ⟨c.offset, cause⟩

/-- A punctuation mark. -/
def symbol (text : String) : Parser Token :=
  lexeme (fun cs => if text.toList.isPrefixOf cs then some text.length else none) (.token text)

/-- A punctuation mark on this line. -/
def symbolInLine (text : String) : Parser Token := fun c =>
  let c := c.skipInLine
  if text.toList.isPrefixOf c.rest then Token.take c text.length
  else .fail ⟨c.offset, .token text⟩

/-- The first of several operators that starts a text. -/
def operatorAt? (ops : List String) (cs : List Char) : Option String :=
  ops.find? fun op => op.toList.isPrefixOf cs

/-- A binary operator on this line. -/
def operator (ops : List String) : Parser Token := fun c =>
  let c := c.skipInLine
  match operatorAt? ops c.rest with
  | some op => Token.take c op.length
  | none => .fail ⟨c.offset, .operator ops⟩

/-- A prefix operator, which may start a line. -/
def prefixOperator (ops : List String) : Parser Token := fun c =>
  let c := c.skip
  match operatorAt? ops c.rest with
  | some op => Token.take c op.length
  | none => .fail ⟨c.offset, .operator ops⟩

/-- The next character could belong to a word. -/
def startsWord : List Char → Bool
  | x :: _ => Text.isKeywordChar x
  | [] => false

/-- A keyword that touches no other word character. -/
def keyword (word : String) : Parser Token := fun c =>
  let c := c.skip
  if word.toList.isPrefixOf c.rest then
    if c.prev.any Text.isKeywordChar then .fail ⟨c.offset - 1, .keywordPreceded word⟩
    else if startsWord (c.rest.drop word.length) then
      .fail ⟨c.offset + word.length, .keywordFollowed word⟩
    else Token.take c word.length
  else .fail ⟨c.offset, .keyword word⟩

/-- A name; a keyword is one only when the parser probes ahead. -/
def name (mode : Mode) : Parser Token := do
  let t ← lexeme Lexeme.name? .name
  if mode = .read ∧ t.string ∈ Lexeme.keywords then
    fun _ => .fail ⟨t.start.offset, .keywordAsName⟩
  else pure t

/-- The end of the text. -/
def endOfText : Parser Unit := fun c =>
  let c := c.skip
  match c.rest with
  | [] => .ok () c
  | _ :: _ => .fail ⟨c.offset, .endOfText⟩

end Ember.Grammar
