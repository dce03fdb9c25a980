import Ember.Source.Cursor

/-!
# Grammar — reading and failing

A parser reads from a cursor and ends in one of three ways: it reads something, it fails so that
another alternative may be tried, or it stops the whole parse. A failure knows where and why; of
several failures the furthest one is reported, and the first of those equally far.

* `Parser.cut`: from here on a failure stops the parse.
* `Outcome.tentative`: a failure while probing ahead never does.
* `choice`: alternatives in order; if none gets beyond the start, the failure bears the name of
  the choice.
* `repeatedly`: a step as often as it succeeds.
-/

namespace Ember.Grammar

/-- Why a parser failed. -/
inductive Cause where
  /-- A punctuation mark was expected. -/
  | token (text : String)
  /-- A keyword was expected. -/
  | keyword (word : String)
  /-- The keyword is there, but runs on. -/
  | keywordFollowed (word : String)
  /-- The keyword is there, but something runs into it. -/
  | keywordPreceded (word : String)
  /-- A name was expected. -/
  | name
  /-- A keyword stands where a name should. -/
  | keywordAsName
  /-- The sign of an assignment was expected. -/
  | assignSign
  /-- One of several operators was expected. -/
  | operator (ops : List String)
  /-- An operand, or a chain of these operators, was expected. -/
  | operation (ops : List String)
  /-- A branch after `else` was expected. -/
  | elseBranch
  /-- Something that is not assignable is assigned to. -/
  | assignTarget (kind : String)
  /-- The text should have ended. -/
  | endOfText
  /-- A lexeme or construct that messages never name was expected. -/
  | construct (what : String)
deriving DecidableEq, Repr, Inhabited

/-- Operators as messages list them. -/
def listOperators (ops : List String) : String :=
  String.intercalate " | " (ops.map fun op => "'" ++ op ++ "'")

/-- The wording of a cause. -/
def Cause.message : Cause → String
  | token text => "Expected '" ++ text ++ "'"
  | keyword word => "Expected Keyword '" ++ word ++ "'"
  | keywordFollowed word =>
    "Expected Keyword '" ++ word ++ "', keyword was immediately followed by keyword character"
  | keywordPreceded word =>
    "Expected Keyword '" ++ word ++ "', keyword was immediately preceded by keyword character"
  | name => "Expected Re:('[A-Za-z_][A-Za-z0-9_]*')"
  | keywordAsName => "keyword used as a name"
  | assignSign => "Expected Re:('=(?!=)')"
  | operator ops => "Expected " ++ listOperators ops
  | operation ops => "Expected " ++ listOperators ops ++ " operations"
  | elseBranch =>
    "Expected \x7bForward: \x7b\x7b\x7b\x7b\x7b'if' -\x7d Forward: None\x7d -\x7d Forward: None\x7d"
      ++ " ['else' -\x7d \x7b: ... | Forward: None]\x7d | Forward: None\x7d"
  | assignTarget kind => "Cannot assign to " ++ kind ++ " expression"
  | endOfText => "Expected end of text"
  | construct what => "Expected " ++ what

/-- Where and why a parser failed. -/
structure Failure where
  offset : Nat
  cause : Cause
deriving DecidableEq, Repr, Inhabited

/-- The failure that got further, the first one if they are equally far. -/
def Failure.further (f g : Failure) : Failure := if f.offset < g.offset then g else f

/-- A failure at the start of a choice bears the name of the choice. -/
def Failure.relabel (start : Nat) (label : Cause) (f : Failure) : Failure :=
  if f.offset = start then ⟨f.offset, label⟩ else f

/-- Why a parse stops altogether. -/
inductive Stop where
  /-- A failure past the point where another alternative could apply. -/
  | fatal (f : Failure)
  /-- The text is nested deeper than the parser follows. -/
  | tooDeep
  /-- An integer literal with more digits than are read. -/
  | hugeInteger (digits : Nat)
deriving DecidableEq, Repr, Inhabited

/-- What becomes of a parser. -/
inductive Outcome (α : Type) where
  | ok (value : α) (rest : Cursor)
  | fail (failure : Failure)
  | stop (reason : Stop)
deriving Inhabited

/-- A failure becomes fatal. -/
def Outcome.cut {α : Type} : Outcome α → Outcome α
  | .fail f => .stop (.fatal f)
  | r => r

/-- What is only probed does not stop the parse: a fatal failure counts as a failure at the start of
what was probed. -/
def Outcome.tentative {α : Type} (start : Nat) (label : Cause) : Outcome α → Outcome α
  | .stop (.fatal _) => .fail ⟨start, label⟩
  | r => r

/-- The second outcome where the first one failed; if both failed, the further failure. -/
def Outcome.or {α : Type} (a b : Outcome α) : Outcome α :=
  match a with
  | .fail f => match b with
    | .fail g => .fail (f.further g)
    | r => r
  | r => r

/-- A failure at the start bears the name of the choice. -/
def Outcome.relabel {α : Type} (start : Nat) (label : Cause) : Outcome α → Outcome α
  | .fail f => .fail (f.relabel start label)
  | r => r

/-- A parser of `α`. -/
def Parser (α : Type) : Type := Cursor → Outcome α

namespace Parser

variable {α β : Type}

/-- Reads nothing. -/
protected def pure (a : α) : Parser α := fun c => .ok a c

/-- Reads with one parser, then with the next one. -/
protected def bind (p : Parser α) (f : α → Parser β) : Parser β := fun c =>
  match p c with
  | .ok a c' => f a c'
  | .fail e => .fail e
  | .stop s => .stop s

instance : Monad Parser where
  pure := Parser.pure
  bind := Parser.bind

/-- From here on a failure stops the parse. -/
def cut (p : Parser α) : Parser α := fun c => (p c).cut

/-- Reads if the parser succeeds, and otherwise nothing. -/
def optional (p : Parser α) : Parser (Option α) := fun c =>
  match p c with
  | .ok a c' => .ok (some a) c'
  | .fail _ => .ok none c
  | .stop s => .stop s

end Parser

variable {α : Type}

/-- The first alternative that succeeds; the furthest failure if none does. -/
def firstOf : List (Parser α) → Parser α
  | [], c => .fail ⟨c.offset, .construct "nothing"⟩
  | [p], c => p c
  | p :: ps, c =>
    match p c with
    | .fail f => (Outcome.fail f).or (firstOf ps c)
    | r => r

/-- Alternatives under a name. -/
def choice (label : Cause) (ps : List (Parser α)) : Parser α := fun c =>
  let c := c.skip
  (firstOf ps c).relabel c.offset label

/-- A step as often as it succeeds, but at most once per element of `rounds`. -/
def iterate (step : α → Parser α) : (rounds : List Char) → α → Parser α
  | [], a => Parser.pure a
  | _ :: rounds, a => fun c =>
    match step a c with
    | .ok b c' => iterate step rounds b c'
    | .fail _ => .ok a c
    | .stop s => .stop s

/-- A step as often as it succeeds. Each step reads a character at least, so the rest of the text
is as many rounds as it takes. -/
def repeatedly (step : α → Parser α) (a : α) : Parser α := fun c => iterate step c.rest a c

end Ember.Grammar
