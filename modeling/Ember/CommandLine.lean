import Ember.Repl
import Ember.Script

/-!
# CommandLine — options, commands and their texts

Options and the script may come in any order. A long option may be shortened as long as it stays
unique, its value may follow an equals sign, and short options may be written together; everything
after `--` is no option.

* `Arguments.ofWords`: what the words of a command line ask for.
* `Command.ofWords`: the command they amount to.
* `Command.perform`: what comes of it.
-/

namespace Ember

/-! ### Texts -/

/-- How the program is called. -/
def usage : String :=
  "usage: ember [-h] [-i] [--parse] [--analyze] [--debug] [--max-depth N]\n"
    ++ "             [--version]\n"
    ++ "             [script]\n"

/-- The program and its options. -/
def helpText : String :=
  usage
    ++ "\n"
    ++ "Ember Programming Language - dynamically typed, lexically scoped\n"
    ++ "\n"
    ++ "positional arguments:\n"
    ++ "  script             Ember script file to execute\n"
    ++ "\n"
    ++ "options:\n"
    ++ "  -h, --help         show this help message and exit\n"
    ++ "  -i, --interactive  Start interactive mode\n"
    ++ "  --parse            Parse file and show CST (for debugging)\n"
    ++ "  --analyze          Parse and analyze file, show AST (for debugging)\n"
    ++ "  --debug            Enable debug output for all stages\n"
    ++ "  --max-depth N      Maximum nesting of function calls (default: 1000)\n"
    ++ "  --version          show program's version number and exit\n"
    ++ "\n"
    ++ "Examples:\n"
    ++ "  ember script.emb                 # Run an Ember script\n"
    ++ "  ember -i                         # Interactive mode\n"
    ++ "  ember --parse script.emb         # Parse and show CST\n"
    ++ "  ember --analyze script.emb       # Parse, analyze and show AST\n"
    ++ "  ember --debug script.emb         # Run with evaluation trace on stderr\n"
    ++ "  ember --max-depth 200 script.emb # Limit nested calls to 200\n"
    ++ "        \n"

/-- The language in a few words. -/
def languageInfo : String :=
  "Ember Programming Language\n"
    ++ Text.repeated '=' 50 ++ "\n"
    ++ "A small scripting language with:\n"
    ++ "• Immutable bindings by default, 'let @mut' for mutable ones\n"
    ++ "• First-class functions and lexical closures\n"
    ++ "• Int, Float, Bool, Str and Array values\n"
    ++ "• if / while / for-in control flow\n"
    ++ "\n"

/-! ### Options -/

/-- The options of the command line. -/
inductive Switch where
  | help | interactive | parse | analyze | debug | maxDepth | version
deriving DecidableEq, Repr, Inhabited

namespace Switch

/-- Every spelling of an option, in order. -/
def spellings : List (String × Switch) := [
  ("-h", help), ("--help", help), ("-i", interactive), ("--interactive", interactive),
  ("--parse", parse), ("--analyze", analyze), ("--debug", debug), ("--max-depth", maxDepth),
  ("--version", version)]

/-- An option in messages: its spellings, joined. -/
def describe (s : Switch) : String :=
  String.intercalate "/" ((spellings.filter (·.2 = s)).map (·.1))

/-- The option of a spelling. -/
def ofName? (name : String) : Option Switch := (spellings.find? (·.1 == name)).map (·.2)

/-- The option has a value. -/
def takesValue : Switch → Bool
  | maxDepth => true
  | _ => false

end Switch

/-- What a word of the command line is. -/
inductive Word where
  | plain (text : String)
  /-- The mark after which there are no options. -/
  | separator
  /-- An option, with the value that is written to it after an equals sign. -/
  | switch (s : Switch) (value : Option String)
  /-- A short option with the letters that are written to it. -/
  | letters (s : Switch) (more : List Char)
  /-- An option that does not exist. -/
  | unknown (text : String)
deriving DecidableEq, Repr, Inhabited

/-- How reading the command line can end without a command. -/
inductive Refusal where
  | help
  | version
  | error (message : String)
deriving DecidableEq, Repr, Inhabited

/-- What the words of a command line ask for. -/
structure Arguments where
  script : Option String
  interactive : Bool
  parse : Bool
  analyze : Bool
  debug : Bool
  maxDepth : Nat
deriving DecidableEq, Repr, Inhabited

namespace Word

/-- A text cut at its first equals sign. -/
def cutAtEquals? (cs : List Char) : Option (String × String) :=
  let name := cs.takeWhile (· ≠ '=')
  if name.length < cs.length then
    some (String.ofList name, String.ofList (cs.drop (name.length + 1)))
  else none

/-- The options that a word with two dashes shortens, by their spelling. -/
def longMatches (text : String) : List (String × Word) :=
  let (start, value) := match cutAtEquals? text.toList with
    | some (n, v) => (n, some v)
    | none => (text, none)
  (Switch.spellings.filter fun s => startsWith s.1 start).map fun s => (s.1, switch s.2 value)

/-- The options that a word with one dash starts with, by their spelling. -/
def shortMatches (text : String) : List (String × Word) :=
  let short := String.ofList (text.toList.take 2)
  (Switch.spellings.filter (·.1 = short)).map fun s => (s.1, letters s.2 (text.toList.drop 2))

/-- A word looks like a negative number: digits, or a point and digits, after a minus sign. -/
def looksNegative (text : String) : Bool :=
  match text.toList with
  | '-' :: cs =>
    let body := match cs.reverse with
      | '\n' :: rest => rest.reverse
      | _ => cs
    let whole := body.takeWhile Text.isDigit
    match body.drop whole.length with
    | [] => !whole.isEmpty
    | '.' :: fraction => !fraction.isEmpty && fraction.all Text.isDigit
    | _ => false
  | _ => false

/-- What a word is, if it comes before the separator. -/
def classify (text : String) : Except Refusal Word :=
  match text.toList with
  | '-' :: _ :: _ =>
    match Switch.ofName? text with
    | some s => .ok (switch s none)
    | none =>
      let written := (cutAtEquals? text.toList).bind fun (n, v) =>
        (Switch.ofName? n).map fun s => switch s (some v)
      match written with
      | some w => .ok w
      | none =>
        match if startsWith text "--" then longMatches text else shortMatches text with
        | [m] => .ok m.2
        | [] =>
          if looksNegative text || text.toList.contains ' ' then .ok (plain text)
          else .ok (unknown text)
        | ms => .error (.error ("ambiguous option: " ++ text ++ " could match "
            ++ String.intercalate ", " (ms.map (·.1))))
  | _ => .ok (plain text)

/-- What each word is. -/
def classifyAll : List String → Except Refusal (List Word)
  | [] => .ok []
  | "--" :: texts => .ok (separator :: texts.map plain)
  | text :: texts => do
    let w ← classify text
    let ws ← classifyAll texts
    return w :: ws

end Word

namespace Arguments

/-- Nothing is asked for. -/
def unset : Arguments := ⟨none, false, false, false, false, defaultMaxDepth⟩

/-- A number that counts something: one at least. -/
def readCount (text : String) : Except String Nat :=
  match Decimal.readInt? text.toList with
  | none => .error ("'" ++ text ++ "' is not an integer")
  | some n =>
    if n < 1 then .error ("must be at least 1, got " ++ toString n) else .ok n.toNat

/-- A complaint about an option. -/
def complain {α : Type} (s : Switch) (message : String) : Except Refusal α :=
  .error (.error ("argument " ++ s.describe ++ ": " ++ message))

/-- A complaint about a value that an option does not take. -/
def ignoredValue {α : Type} (s : Switch) (value : String) : Except Refusal α :=
  complain s ("ignored explicit argument " ++ Text.quoted value)

/-- What an option without a value asks for. -/
def set (a : Arguments) : Switch → Except Refusal Arguments
  | .help => .error .help
  | .version => .error .version
  | .interactive => .ok { a with interactive := true }
  | .parse => .ok { a with parse := true }
  | .analyze => .ok { a with analyze := true }
  | .debug => .ok { a with debug := true }
  | .maxDepth => complain .maxDepth "expected one argument"

/-- What an option with a value asks for. -/
def setValue (a : Arguments) (s : Switch) (value : String) : Except Refusal Arguments :=
  match readCount value with
  | .ok n => .ok { a with maxDepth := n }
  | .error message => complain s message

/-- The short options that are written together, from one of them and the letters after it. Letters
from the first one on that is no option are left over. -/
def together (s : Switch) : List Char → Except Refusal (List Switch × Option String)
  | [] => .ok ([s], none)
  | '=' :: value => ignoredValue s (String.ofList value)
  | '-' :: more => ignoredValue s (String.ofList ('-' :: more))
  | c :: more =>
    match Switch.ofName? (String.ofList ['-', c]) with
    | some next => do
      let (rest, extra) ← together next more
      return (s :: rest, extra)
    | none => .ok ([s], some (String.ofList ('-' :: c :: more)))

/-- Reads the words one by one. `last` says that the word before was the script, and `extras`
collects the words that are left over, last one first. -/
def read (a : Arguments) (last : Bool) (extras : List String) :
    List Word → Except Refusal Arguments
  | [] =>
    if extras.isEmpty then .ok a
    else .error (.error
      ("unrecognized arguments: " ++ String.intercalate " " extras.reverse))
  | .plain text :: ws =>
    match a.script with
    | none => read { a with script := some text } true extras ws
    | some _ => a.read false (text :: extras) ws
  | .separator :: ws =>
    if a.script.isNone || last then a.read false extras ws
    else a.read false ("--" :: extras) ws
  | .unknown text :: ws => a.read false (text :: extras) ws
  | .letters s more :: ws => do
    let (switches, extra) ← together s more
    let a ← switches.foldlM set a
    a.read false (extra.toList ++ extras) ws
  | .switch s (some value) :: ws =>
    if s.takesValue then do
      let a ← a.setValue s value
      a.read false extras ws
    else ignoredValue s value
  | .switch s none :: .plain value :: ws =>
    if s.takesValue then do
      let a ← a.setValue s value
      a.read false extras ws
    else do
      let a ← a.set s
      match a.script with
      | none => read { a with script := some value } true extras ws
      | some _ => a.read false (value :: extras) ws
  | .switch s none :: ws => do
    let a ← a.set s
    a.read false extras ws

/-- What the words of a command line ask for. -/
def ofWords (words : List String) : Except Refusal Arguments := do
  let ws ← Word.classifyAll words
  unset.read false [] ws

end Arguments

/-! ### Commands -/

/-- What the program can be asked to do. -/
inductive Command where
  /-- Nothing was asked for: introduce the language and start a conversation. -/
  | welcome
  | script (task : Task) (settings : Settings) (path : String)
  | interactive (settings : Settings)
  /-- Options, but nothing to apply them to. -/
  | explain
  | help
  | version
  | refuse (message : String)
deriving DecidableEq, Repr, Inhabited

namespace Command

/-- The command that arguments amount to. -/
def ofArguments (a : Arguments) : Command :=
  let settings : Settings := ⟨a.maxDepth, a.debug⟩
  let path := a.script.getD ""
  if path ≠ "" then
    script (if a.parse then .parse else if a.analyze then .analyze else .run) settings path
  else if a.interactive then interactive settings
  else explain

/-- The command that the words of a command line amount to. -/
def ofWords (words : List String) : Command :=
  match words, Arguments.ofWords words with
  | [], _ => welcome
  | _, .ok a => ofArguments a
  | _, .error .help => help
  | _, .error .version => version
  | _, .error (.error message) => refuse message

/-- What a script comes to, if there is anything at its path. -/
def performScript (task : Task) (settings : Settings) (path : String) (file : File) : Ending :=
  match file with
  | .missing => Script.failed "" ("Error: Script file '" ++ path ++ "' does not exist\n")
  | file => Script.perform task settings path file

/-- What a conversation comes to; the questions are not part of what is written. -/
def converse (settings : Settings) (intro : String) (inputs : List Input) : Ending :=
  let t := (Repl.start settings).converse inputs
  match t.broken with
  | some crash => .broken crash
  | none =>
    .exit ⟨0, intro ++ banner settings.debug ++ String.join (t.steps.map (·.2)), t.log⟩

/-- What a command comes to, given what there is at each path and what the user enters. -/
def perform (c : Command) (file : String → File) (inputs : List Input) : Ending :=
  match c with
  | welcome => converse ⟨defaultMaxDepth, false⟩ languageInfo inputs
  | script task settings path => performScript task settings path (file path)
  | interactive settings => converse settings "" inputs
  | explain => .exit ⟨0, helpText ++ "\n" ++ languageInfo, ""⟩
  | help => .exit ⟨0, helpText, ""⟩
  | version => .exit ⟨0, "Ember v" ++ Ember.version ++ "\n", ""⟩
  | refuse message => .exit ⟨2, "", usage ++ "ember: error: " ++ message ++ "\n"⟩

end Command

end Ember
