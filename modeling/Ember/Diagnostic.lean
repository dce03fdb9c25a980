import Ember.Span
import Ember.Text.Lines
import Ember.Text.Quoted

/-!
# Diagnostic — explaining why a text was not read

The parser scans a text with its tabs expanded. A failure is worded there, while the lines that
are shown to the user are cut from the text as it was written, by the line and column of the
failure.

* `failureMessage`: a failure with what was found and where.
* `surroundings`: the lines around a position, with a caret under it.
* `expectedIn`, `gotAt`, `suggestionsFor`: what was expected, what is there, and what might help.
* `Diagnosis.ofFailure`: all of these together; `Diagnosis.report` renders them.
* `ParseError`: the error that a rejected text ends in.
-/

namespace Ember

/-! ### Wording a failure -/

/-- Two backslashes in a row become one. -/
def collapseBackslashes : List Char → List Char
  | [] => []
  | '\\' :: '\\' :: cs => '\\' :: collapseBackslashes cs
  | c :: cs => c :: collapseBackslashes cs

/-- The longest word that is quoted. -/
def maxWord : Nat := 16

/-- What a text starts with: a word or else a single character. -/
def foundAt (cs : List Char) : String :=
  match cs with
  | [] => "end of text"
  | c :: _ =>
    let word := (cs.takeWhile Text.isWordChar).take maxWord
    let found := if word.isEmpty then [c] else word
    String.ofList (collapseBackslashes (Text.quotedChars found))

/-- A failure with what was found and where. An empty text holds nothing to be found. -/
def failureMessage (scanned : List Char) (offset : Nat) (message : String) : String :=
  let found := if scanned.isEmpty then "" else ", found " ++ foundAt (scanned.drop offset)
  message ++ found ++ "  (at char " ++ toString offset ++ "), (line:"
    ++ toString (Text.lineOf scanned offset) ++ ", col:" ++ toString (Text.columnOf scanned offset)
    ++ ")"

/-! ### Lines around a position -/

/-- The numbered line `i`, counted from zero, and a caret line below it if it is the line of the
position. -/
def numberedLine (line col : Int) (i : Nat) (text : List Char) : List String :=
  let shown := Text.padLeft 4 (toString (i + 1)) ++ ": " ++ String.ofList text
  if (i : Int) = line - 1 then
    [shown, Text.spaces 6 ++ Text.spaces (col - 1).toNat ++ "^ Error here"]
  else [shown]

/-- The lines up to `around` lines before and after a position, numbered, with a caret under the
position. -/
def surroundings (source : String) (line col : Int) (around : Int) : String :=
  let ls := Text.lines source.toList
  let first := (line - around - 1).toNat
  let last := min ls.length (line + around).toNat
  let shown := (ls.zipIdx.take last).drop first
  String.intercalate "\n" (shown.flatMap fun l => numberedLine line col l.2 l.1)

/-- The line of a text, counted from one. -/
def lineAt? (source : String) (line : Int) : Option (List Char) :=
  if 0 < line then (Text.lines source.toList)[(line - 1).toNat]? else none

/-- The part of a list from `start` up to `stop`; a negative `stop` counts from the end. -/
def slice (xs : List Char) (start : Nat) (stop : Int) : List Char :=
  let stop := if stop < 0 then (stop + xs.length).toNat else stop.toNat
  (xs.take stop).drop start

/-- What stands at a position: a quoted snippet, or the end of the line or of the input. -/
def gotAt (source : String) (line col : Int) : String :=
  match lineAt? source line with
  | none => "end of input"
  | some text =>
    let snippet :=
      if col ≤ text.length then
        Text.trim (slice text (col - 1).toNat (min (text.length : Int) (col + 10)))
      else []
    if snippet.isEmpty then "end of line" else "'" ++ String.ofList snippet ++ "'"

/-! ### What was expected -/

/-- What was expected ends here: before what was found, before the place, or with the text. -/
def endsExpected (cs : List Char) : Bool :=
  let afterBlank (word : String) (cs : List Char) : Bool :=
    match cs with
    | c :: _ => Text.isBlank c && word.toList.isPrefixOf (cs.dropWhile Text.isBlank)
    | [] => false
  match cs with
  | [] => true
  | ['\n'] => true
  | ',' :: rest => afterBlank "found" rest
  | _ => afterBlank "(at" cs

/-- The shortest start of a line, one character at least, after which `endsExpected` holds. -/
def expectedPhrase? : List Char → Option (List Char)
  | [] => none
  | c :: cs =>
    if c = '\n' then none
    else if endsExpected cs then some [c]
    else (expectedPhrase? cs).map (c :: ·)

/-- The phrase after blanks. All the blanks are passed over, or as many as leave a phrase. -/
def afterBlanks? (cs : List Char) : Option (List Char) :=
  let n := (cs.takeWhile Text.isBlank).length
  (List.range n).findSome? fun k => expectedPhrase? (cs.drop (n - k))

/-- The first phrase that follows the word `Expected`. -/
def expectedAfter? : List Char → Option (List Char)
  | [] => none
  | c :: cs =>
    let word := "Expected".toList
    let here :=
      if word.isPrefixOf (c :: cs) then afterBlanks? ((c :: cs).drop word.length) else none
    match here with
    | some phrase => some phrase
    | none => expectedAfter? cs

/-- What a failure message expected. -/
def expectedIn (message : String) : List String :=
  match expectedAfter? message.toList with
  | some phrase => [String.ofList phrase]
  | none => ["valid syntax"]

/-! ### Suggestions -/

/-- A text starts with another. -/
def startsWith (s start : String) : Bool := start.toList.isPrefixOf s.toList

/-- A text holds another. -/
def holds (s part : String) : Bool := Text.occursIn part.toList s.toList

/-- What might help, from what stands at the failure and what was expected. -/
def suggestionsFor (got : String) (expected : List String) : List String :=
  let wanted := String.intercalate " " expected
  let rules : List (Bool × String) := [
    (holds wanted "'\x7d'" || got == "end of input",
      "Check that every '\x7b' has a matching '\x7d'"),
    (holds wanted "')'", "Check that every '(' has a matching ')'"),
    (holds wanted "']'", "Array literals and indexes need a closing ']'"),
    (startsWith got "'mut", "Mutable bindings are written 'let @mut name = value'"),
    (startsWith got "'=" && !startsWith got "'==",
      "Use '==' to compare values; '=' only assigns"),
    (startsWith got "'then" || startsWith got "'do",
      "Conditions and loops take a '\x7b ... \x7d' block directly")]
  (rules.filter (·.1)).map (·.2)

/-! ### Diagnoses -/

/-- All that is known about a failure. -/
structure Diagnosis where
  message : String
  location : Int
  line : Int
  column : Int
  expected : List String
  got : Option String
  context : Option String
  suggestions : List String
deriving Inhabited

/-- The diagnosis of a failure at an offset of the scanned text. -/
def Diagnosis.ofFailure (source : String) (scanned : List Char) (offset : Nat)
    (message : String) : Diagnosis :=
  let line := Text.lineOf scanned offset
  let col := Text.columnOf scanned offset
  let message := failureMessage scanned offset message
  let expected := expectedIn message
  let got := gotAt source line col
  ⟨message, offset, line, col, expected, some got, some (surroundings source line col 2),
    suggestionsFor got expected⟩

/-- A line for a text that is there. -/
def reportLine (label : String) (text : Option String) : String :=
  match text with
  | some t => if t.isEmpty then "" else label ++ t ++ "\n"
  | none => ""

/-- A diagnosis as a report of several lines. -/
def Diagnosis.report (d : Diagnosis) (filename : String) : String :=
  let expected := if d.expected.isEmpty then none else some (String.intercalate ", " d.expected)
  let hints :=
    if d.suggestions.isEmpty then ""
    else "  Suggestions:\n" ++ String.join (d.suggestions.map fun s => "    - " ++ s ++ "\n")
  "Parse error in " ++ filename ++ " at line " ++ toString d.line ++ ", column "
    ++ toString d.column ++ ":\n  " ++ d.message ++ "\n"
    ++ (match expected with | some e => "  Expected: " ++ e ++ "\n" | none => "")
    ++ reportLine "  Got: " d.got ++ reportLine "  Context:\n" d.context ++ hints

/-- The error that a rejected text ends in. -/
structure ParseError where
  message : String
  span : Option Span
  context : String
  expected : List String
  got : Option String
  suggestions : List String
  report : String
deriving Inhabited

namespace ParseError

/-- An error with nothing but a message. -/
def plain (message : String) : ParseError := ⟨message, none, "", [], none, [], ""⟩

/-- The line of an error, zero if its place is not known. -/
def line (e : ParseError) : Nat := e.span.elim 0 (·.startLine)

/-- The column of an error, zero if its place is not known. -/
def column (e : ParseError) : Nat := e.span.elim 0 (·.startCol)

/-- An error as one text, with what was found and the hints. -/
def text (e : ParseError) : String :=
  let extra (label t : String) : String := if t.isEmpty then "" else "\n  " ++ label ++ ": " ++ t
  Span.located "Parse error" e.span e.message ++ extra "Context" e.context
    ++ extra "Got" (e.got.getD "")
    ++ String.join (e.suggestions.map fun s => "\n  Hint: " ++ s)

/-- The error of a failure at an offset of the scanned text. -/
def ofFailure (filename source : String) (scanned : List Char) (offset : Nat)
    (message : String) : ParseError :=
  let d := Diagnosis.ofFailure source scanned offset message
  let line := Text.lineOf scanned offset
  let col := Text.columnOf scanned offset
  let shown := (lineAt? source line).elim "" fun l => String.ofList (Text.trim l)
  ⟨d.message, some ⟨filename, line, col, line, col + 1, ""⟩, shown, d.expected, d.got,
    d.suggestions, d.report filename⟩

/-- The error of a text that is nested too deeply. -/
def tooDeep (filename : String) : ParseError :=
  let message := "Program is nested too deeply to parse"
  ⟨message, some ⟨filename, 1, 1, 1, 2, ""⟩, "", [], none, [],
    "Parse error in " ++ filename ++ ": " ++ message ++ "\n"⟩

end ParseError

end Ember
