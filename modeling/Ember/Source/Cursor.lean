import Ember.Span
import Ember.Text.CharClass

/-!
# Source — a position in a text

A cursor is a position in a named text: what is left of the text, how far it has come, and the
character just before it. Comments and blank space are skipped before every token.

* `Cursor.advance`: moves over a number of characters and keeps line and column.
* `Cursor.skip`: moves over comments and blank space.
* `Cursor.skipInLine`: moves over comments and the spaces and tabs of a line. Blank space of any
  kind may stand before a comment, so a comment carries the line on to where it starts.
-/

namespace Ember

/-- A position in a named text. -/
structure Cursor where
  filename : String
  rest : List Char
  offset : Nat
  line : Nat
  col : Nat
  prev : Option Char
deriving Repr, Inhabited

namespace Cursor

/-- The start of a text. -/
def start (filename : String) (text : List Char) : Cursor := ⟨filename, text, 0, 1, 1, none⟩

/-- The position after the next character, if there is one. -/
def next (c : Cursor) : Cursor :=
  match c.rest with
  | [] => c
  | x :: xs =>
    { c with
      rest := xs
      offset := c.offset + 1
      line := if x = '\n' then c.line + 1 else c.line
      col := if x = '\n' then 1 else c.col + 1
      prev := some x }

/-- The position a number of characters further on. -/
def advance (c : Cursor) : Nat → Cursor
  | 0 => c
  | n + 1 => c.next.advance n

/-- The place of a token that starts here. -/
def span (c : Cursor) (text : String) : Span := Span.ofToken c.filename c.line c.col text

/-! ### Blank space and comments -/

/-- Blank space between tokens. -/
def isSpace (x : Char) : Bool := x == ' ' || x == '\n' || x == '\t' || x == '\r'

/-- Blank space that stays on its line. -/
def isInlineSpace (x : Char) : Bool := x == ' ' || x == '\t'

/-- The length of a line comment after its slashes: up to the end of the line, where a backslash
continues the comment on the next line. -/
def lineCommentLength : List Char → Nat
  | [] => 0
  | '\\' :: '\n' :: xs => lineCommentLength xs + 2
  | x :: xs => if x = '\n' then 0 else lineCommentLength xs + 1

/-- The length of a block comment after its opening, its closing included. -/
def blockCommentLength? : List Char → Option Nat
  | [] => none
  | '*' :: '/' :: _ => some 2
  | _ :: xs => (blockCommentLength? xs).map (· + 1)

/-- The length of the comment that starts a text, if one does. -/
def commentLength? : List Char → Option Nat
  | '/' :: '/' :: xs => some (lineCommentLength xs + 2)
  | '/' :: '*' :: xs => (blockCommentLength? xs).map (· + 2)
  | _ => none

/-- The length of the comments that start a text, each after blank space of any kind. One comment
is looked for per element of `rounds`, so a text is as many rounds as it needs. -/
def commentsLength : (rounds : List Char) → List Char → Nat
  | [], _ => 0
  | _ :: rounds, xs =>
    let blank := (xs.takeWhile isSpace).length
    match commentLength? (xs.drop blank) with
    | none => 0
    | some n => blank + n + commentsLength rounds (xs.drop (blank + n))

/-- The position after the comments that start here. -/
def skipComments (c : Cursor) : Cursor := c.advance (commentsLength c.rest c.rest)

/-- The position of the next token. -/
def skip (c : Cursor) : Cursor :=
  let c := c.skipComments
  c.advance (c.rest.takeWhile isSpace).length

/-- The position of the next token that has to stand on this line. -/
def skipInLine (c : Cursor) : Cursor :=
  let c := c.skipComments
  c.advance (c.rest.takeWhile isInlineSpace).length

end Cursor

end Ember
