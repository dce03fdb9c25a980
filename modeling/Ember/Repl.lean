import Ember.Listing

/-!
# Repl — the interactive session

The user enters lines. Lines are collected while brackets are open; a complete input is a command or
a program, and a program runs in a session that lasts. Nothing that a program does ends the
conversation; a command may end it, if what it writes out is more than the host can take.

* `hasOpenBrackets`: the input has brackets that are still open.
* `Repl.step`: the reply to one line.
* `Repl.converse`: the replies to the lines of a user who then leaves.
* `completions`: the words that complete the start of a word.
-/

namespace Ember

/-- The version of the language. -/
def version : String := "0.1.0"

/-! ### Open brackets -/

/-- Where a scan for open brackets stands: how many are open, and whether it is inside a string
literal, after a backslash or not. -/
structure BracketScan where
  depth : Int
  inString : Bool
  escaped : Bool
deriving DecidableEq, Repr, Inhabited

/-- The scan after one more character. -/
def BracketScan.step (s : BracketScan) (c : Char) : BracketScan :=
  if s.inString then
    if s.escaped then { s with escaped := false }
    else if c = '\\' then { s with escaped := true }
    else if c = Text.doubleQuote then { s with inString := false }
    else s
  else if c = Text.doubleQuote then { s with inString := true }
  else if c = '(' ∨ c = '[' ∨ c = '\x7b' then { s with depth := s.depth + 1 }
  else if c = ')' ∨ c = ']' ∨ c = '\x7d' then { s with depth := s.depth - 1 }
  else s

/-- The input has brackets that are still open; comments are not told apart. -/
def hasOpenBrackets (code : String) : Bool :=
  0 < (code.toList.foldl BracketScan.step ⟨0, false, false⟩).depth

/-! ### Texts -/

/-- What the conversation opens with. -/
def banner (debug : Bool) : String :=
  "Ember v" ++ version ++ " - Interactive Mode\n"
    ++ "Type 'exit' to quit, ':help' for commands\n"
    ++ "Readline enabled: Use ↑/↓ for history, Tab for completion\n"
    ++ (if debug then "Debug mode enabled\n" else "") ++ "\n"

/-- What the conversation ends with. -/
def farewell : String := "\nGoodbye!\n"

/-- The commands and the language at a glance. -/
def replHelp : String :=
  "REPL Commands:\n"
    ++ "  :parse <src>      - Show parsed CST\n"
    ++ "  :analyze <src>    - Show analyzed AST\n"
    ++ "  :env              - Show current bindings\n"
    ++ "  :help             - Show this help\n"
    ++ "  exit              - Exit REPL\n"
    ++ "\n"
    ++ "Language features:\n"
    ++ "  let x = 5                  - Immutable binding\n"
    ++ "  let @mut n = 0; n = n + 1  - Mutable binding and assignment\n"
    ++ "  fun add(a, b) \x7b return a + b \x7d\n"
    ++ "  let inc = fun (x) \x7b return x + 1 \x7d\n"
    ++ "  for x in [1, 2, 3] \x7b print(x) \x7d\n"
    ++ "  while n < 10 \x7b n = n + 1 \x7d\n"

/-- The words that can be completed: keywords, built-in functions, commands. -/
def completable : List String := [
  "else", "false", "for", "fun", "if", "in", "let", "nil", "return", "true", "while",
  "len", "pop", "print", "push", "range", "str", "type",
  ":parse", ":analyze", ":env", ":help", "exit"]

/-- The words that start with a text, in order. -/
def completions (text : String) : List String := completable.filter (startsWith · text)

/-- The longest display of a value in a list of bindings. -/
def maxShown : Nat := 60

/-- A display cut to `maxShown` characters, dots included. -/
def shorten (s : String) : String :=
  if maxShown < s.length then String.ofList (s.toList.take (maxShown - 3)) ++ "..." else s

/-- One binding in a list of bindings, unless its value is not shown. -/
def showBinding (host : Host) (s : Store) (b : Binding) : Except Crash String :=
  match s.display host.idleDisplayLimit true b.value with
  | .ok shown => .ok ("  " ++ (if b.mutable then "@mut " else "") ++ b.name ++ " = "
      ++ shorten shown ++ " : " ++ b.value.kindName ++ "\n")
  | .error e => .error (.ofShow e)

/-- The bindings of a session, line by line. -/
def showEnvironment (s : Session) : List (Except Crash String) :=
  let store := s.machine.store
  let heading :=
    "Current environment (frame depth " ++ toString (store.depth Store.root) ++ "):\n"
  match s.bindings with
  | [] => [.ok heading, .ok "  (no user-defined bindings)\n"]
  | bs => .ok heading :: bs.map (showBinding s.settings.host store)

/-! ### Conversation -/

/-- What went wrong with a program, as the conversation words it. -/
def Failure.reply : Failure → String
  | .parse (.error e) => "Parse error: " ++ e.text ++ "\n"
  | .parse (.hugeInteger digits) => "Unexpected error: " ++ hugeIntegerMessage digits ++ "\n"
  | .semantics e => "Semantic error: " ++ e.text ++ "\n"
  | .halted (.fault f span) =>
    "\nRuntime Error:\n  " ++ f.kind.name ++ ": " ++ f.message ++ "\n"
      ++ (match span with | some s => "  Location: " ++ s.describe ++ "\n" | none => "") ++ "\n"
  | .halted h => "Unexpected error: " ++ h.message ++ "\n"

/-- The value of a program is echoed if its last statement is an expression with a value. -/
def echo (host : Host) (s : Store) (nodes : List Node) (v : Value) :
    Except Store.ShowFault String :=
  match nodes.getLast?, v with
  | _, .unit => .ok ""
  | some (.exprStmt ..), v => do
    let shown ← s.display host.idleDisplayLimit true v
    return "=> " ++ shown ++ " : " ++ v.kindName ++ "\n"
  | _, _ => .ok ""

/-- What the user does when asked. -/
inductive Input where
  | line (text : String)
  | interrupt
  | leave
deriving Inhabited

/-- A conversation: its session, and the lines of the input that is not complete yet. -/
structure Repl where
  session : Session
  buffer : List String
deriving Inhabited

/-- How a conversation goes on. -/
inductive Next where
  | more (r : Repl)
  | over
  /-- A command ended in an error that nobody handles. -/
  | broken (crash : Crash)
deriving Inhabited

/-- What is printed, what is logged, and how the conversation goes on. -/
structure Reply where
  out : String
  log : String
  next : Next
deriving Inhabited

namespace Repl

/-- A conversation that has just begun. -/
def start (settings : Settings) : Repl := ⟨.fresh settings, []⟩

/-- What the user is asked with. -/
def prompt (r : Repl) : String := if r.buffer.isEmpty then "ember> " else "  ...> "

/-- Goes on with a session, after printing. -/
def proceed (s : Session) (out log : String) : Reply := ⟨out, log, .more ⟨s, []⟩⟩

/-- Goes on with a session after writing texts, unless one of them could not be had. -/
def write (s : Session) (log : String) (texts : List (Except Crash String)) : Reply :=
  match writeAll texts with
  | (out, none) => proceed s out log
  | (out, some crash) => ⟨out, log, .broken crash⟩

/-- The command that shows trees or nodes. -/
def listingCommand (s : Session) (command source : String) : Reply :=
  let debug := s.settings.debug
  let host := s.settings.host
  match parseProgram "<repl>" source with
  | .error (.error e) => proceed s ("Error: " ++ e.text ++ "\n") ""
  | .error (.hugeInteger digits) => ⟨"", "", .broken (.hugeInteger digits)⟩
  | .ok trees =>
    let parsed := debugLine debug (parseLine "<repl>" trees.length)
    if command = ":parse" then write s parsed (trees.map (Tree.listed host))
    else match analyzeWithin host trees with
      | .error crash => ⟨"", parsed, .broken crash⟩
      | .ok (.error e) => proceed s ("Error: " ++ e.text ++ "\n") parsed
      | .ok (.ok nodes) =>
        write s (parsed ++ debugLine debug (analyzeLine nodes.length))
          (nodes.map (Node.listed host))

/-- A program in the session. -/
def evaluate (s : Session) (code : String) : Reply :=
  let (report, s) := s.run "<repl>" code
  let last := match report.result with
    | .ok v => match echo s.settings.host s.machine.store report.nodes v with
      | .ok text => text
      | .error e => (Failure.halted e.halt).reply
    | .error f => f.reply
  proceed s (report.output ++ last) report.log

/-- The reply to a complete input. -/
def respond (s : Session) (code : String) : Reply :=
  let stripped := Text.strip code
  if stripped = "" then proceed s "" ""
  else if stripped = "exit" then ⟨"", "", .over⟩
  else if stripped = ":help" then proceed s replHelp ""
  else if stripped = ":env" then write s "" (showEnvironment s)
  else if startsWith stripped ":parse " || startsWith stripped ":analyze " then
    let cs := stripped.toList
    let command := cs.takeWhile (· ≠ ' ')
    listingCommand s (String.ofList command) (String.ofList (cs.drop (command.length + 1)))
  else if startsWith stripped ":" then
    let word := String.ofList (stripped.toList.takeWhile fun c => !Text.isBlank c)
    proceed s ("Unknown command '" ++ word ++ "' (try :help)\n") ""
  else evaluate s code

/-- The reply to what the user does. -/
def step (r : Repl) : Input → Reply
  | .leave => ⟨farewell, "", .over⟩
  | .interrupt =>
    if r.buffer.isEmpty then ⟨farewell, "", .over⟩ else proceed r.session "\n" ""
  | .line text =>
    let buffer := r.buffer ++ [text]
    let code := String.intercalate "\n" buffer
    if hasOpenBrackets code then ⟨"", "", .more { r with buffer := buffer }⟩
    else respond r.session code

/-- A whole conversation: each question with what was printed after the answer, what was logged,
how many answers were left, and what broke it, if it broke. -/
structure Transcript where
  steps : List (String × String)
  log : String
  unread : Nat
  broken : Option Crash
deriving Inhabited

/-- A transcript with one more step in front. -/
def Transcript.after (t : Transcript) (prompt : String) (reply : Reply) : Transcript :=
  { t with steps := (prompt, reply.out) :: t.steps, log := reply.log ++ t.log }

/-- The conversation with a user who enters the given lines and then leaves. -/
def converse (r : Repl) : List Input → Transcript
  | [] => Transcript.after ⟨[], "", 0, none⟩ r.prompt (r.step .leave)
  | i :: is =>
    let reply := r.step i
    let rest : Transcript := match reply.next with
      | .more r => r.converse is
      | .over => ⟨[], "", is.length, none⟩
      | .broken crash => ⟨[], "", is.length, some crash⟩
    rest.after r.prompt reply

end Repl

end Ember
