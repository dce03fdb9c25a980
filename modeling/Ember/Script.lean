import Ember.Listing

/-!
# Script — running a file

A file is parsed, analyzed or run, and what comes of it is an exit code with what was written to
either stream.

* `describeParseError`, `describeRuntimeError`: how errors are shown for a file.
* `Script.perform`: a task on a file.
-/

namespace Ember

/-- What there is at a path. -/
inductive File where
  | missing
  | directory
  | contents (bytes : List UInt8)
deriving Inhabited

/-- What to do with a file. -/
inductive Task where
  | parse | analyze | run
deriving DecidableEq, Repr, Inhabited

/-- How a command ends: its exit code, and what it wrote. -/
structure Exit where
  code : Nat
  stdout : String
  stderr : String
deriving DecidableEq, Repr, Inhabited

/-- How a command can end. -/
inductive Ending where
  | exit (e : Exit)
  /-- In an error that nobody handles. -/
  | broken (crash : Crash)
deriving Inhabited

/-- A parse error as it is shown for a file. -/
def describeParseError (e : ParseError) (path : String) : String :=
  if e.report.isEmpty then "Parse error in '" ++ path ++ "': " ++ e.text ++ "\n" else e.report

/-- The line above and below a report. -/
def reportRule : String := Text.repeated '=' 70

/-- The source line that a span starts on, underlined from its start to its end on that line. -/
def underline (span : Span) (source : String) : String :=
  match lineAt? source span.startLine with
  | none => ""
  | some text =>
    let stop := if span.endLine = span.startLine then span.endCol else text.length + 1
    "\nSource:\n  " ++ String.ofList text ++ "\n  " ++ Text.spaces (span.startCol - 1)
      ++ Text.repeated '~' (max 1 (stop - span.startCol)) ++ "\n"

/-- A runtime error as it is shown for a file, with the source line it points to. -/
def describeRuntimeError (e : RuntimeError) (source path : String) : String :=
  "\n" ++ reportRule ++ "\nRuntime Error in '" ++ path ++ "'\n" ++ reportRule ++ "\n\n"
    ++ e.kind.name ++ ": " ++ e.message ++ "\n"
    ++ (match e.span with
      | some s => "\nLocation: " ++ s.describe ++ "\n" ++ underline s source
      | none => "")
    ++ "\n" ++ reportRule ++ "\n\n"

namespace Script

/-- The text of a file, or what is said about a file that cannot be read. -/
def read (path : String) : File → Except String String
  | .missing =>
    .error ("Error: Script file '" ++ path ++ "' not found\n"
      ++ "  Hint: Check the file path and make sure the file exists\n")
  | .directory => .error ("Error: '" ++ path ++ "' is a directory\n")
  | .contents bytes => match readText bytes with
    | .ok source => .ok source
    | .error fault =>
      .error ("Error: Cannot decode file '" ++ path ++ "': " ++ fault.message ++ "\n"
        ++ "  Hint: Make sure the file is a text file with UTF-8 encoding\n")

/-- A command that failed. -/
def failed (stdout stderr : String) : Ending := .exit ⟨1, stdout, stderr⟩

/-- Numbered listings under a heading. -/
def listings (verb : String) (texts : List String) : String :=
  verb ++ " " ++ toString texts.length ++ " top-level statements:\n" ++ Text.repeated '=' 50 ++ "\n"
    ++ String.join (texts.zipIdx.map fun t =>
      "\nStatement " ++ toString (t.2 + 1) ++ ":\n" ++ t.1)

/-- What is said about a text that the analysis refuses. -/
def semanticsReport (path : String) (e : SemanticsError) : String :=
  "Semantic analysis error in '" ++ path ++ "': " ++ e.text ++ "\n"

/-- Ends with numbered listings, unless one of them could not be had. -/
def printed (verb log : String) (texts : List (Except Crash String)) : Ending :=
  match texts.mapM id with
  | .ok texts => .exit ⟨0, listings verb texts, log⟩
  | .error crash => .broken crash

/-- Shows the trees or the nodes of a text. -/
def list (nodes : Bool) (settings : Settings) (path source : String) : Ending :=
  let debug := settings.debug
  let host := settings.host
  match parseProgram path source with
  | .error (.error e) => failed "" (describeParseError e path)
  | .error (.hugeInteger digits) => .broken (.hugeInteger digits)
  | .ok trees =>
    let parsed := debugLine debug (parseLine path trees.length)
    if nodes then
      match analyzeWithin host trees with
      | .error crash => .broken crash
      | .ok (.error e) => failed "" (parsed ++ semanticsReport path e)
      | .ok (.ok nodes) =>
        printed "Analyzed" (parsed ++ debugLine debug (analyzeLine nodes.length))
          (nodes.map (Node.listed host))
    else printed "Parsed" parsed (trees.map (Tree.listed host))

/-- What is said about an end that no program should come to. -/
def unexpected (path message : String) : String :=
  "Unexpected error while executing '" ++ path ++ "': " ++ message ++ "\n"

/-- Runs a text. -/
def runText (settings : Settings) (path source : String) : Ending :=
  let (report, s) := (Session.fresh settings).run path source
  let fail (text : String) : Ending := failed report.output (report.log ++ text)
  match report.result with
  | .ok v =>
    if settings.debug then
      match s.machine.store.display settings.host.idleDisplayLimit true v with
      | .ok shown => .exit ⟨0, report.output, report.log ++ "[run] final value: " ++ shown ++ "\n"⟩
      | .error e => .broken (.ofShow e)
    else .exit ⟨0, report.output, report.log⟩
  | .error (.parse (.error e)) => fail (describeParseError e path)
  | .error (.parse (.hugeInteger digits)) => fail (unexpected path (hugeIntegerMessage digits))
  | .error (.semantics e) => fail (semanticsReport path e)
  | .error (.halted (.fault f span)) => fail (describeRuntimeError (.ofFault f span) source path)
  | .error (.halted .displayTooDeep) => fail (unexpected path "maximum recursion depth exceeded")
  | .error (.halted .outOfFuel) => fail (unexpected path "out of steps")

/-- Does a task on a file. -/
def perform (task : Task) (settings : Settings) (path : String) (file : File) : Ending :=
  match read path file with
  | .error message => failed "" message
  | .ok source => match task with
    | .parse => list false settings path source
    | .analyze => list true settings path source
    | .run => runText settings path source

end Script

end Ember
