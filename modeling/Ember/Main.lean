import Ember.CommandLine

/-!
# Main — the program

The words of the command line become a command. A script is read and done with; a conversation goes
line by line, and its questions are asked on the standard output. What a command comes to is decided
in `Command` and `Repl`.
-/

namespace Ember

/-- What there is at a path. -/
def readFile (path : String) : IO File := do
  match ← (IO.FS.readBinFile path).toBaseIO with
  | .ok bytes => return .contents bytes.toList
  | .error (.noFileOrDirectory ..) => return .missing
  | .error _ => return .directory

/-- Writes to a stream at once. -/
def emit (stream : IO.FS.Stream) (text : String) : IO Unit := do
  stream.putStr text
  stream.flush

/-- Writes what a command has written, and gives back its exit code. -/
def finish : Ending → IO UInt32
  | .exit e => do
    emit (← IO.getStdout) e.stdout
    emit (← IO.getStderr) e.stderr
    return e.code.toUInt32
  | .broken crash => do
    emit (← IO.getStderr) (crash.name ++ ": " ++ crash.message ++ "\n")
    return 1

/-- A line without its newline character; nothing if the input has ended. -/
def inputOfLine (line : String) : Input :=
  match line.toList.reverse with
  | [] => .leave
  | '\n' :: rest => .line (String.ofList rest.reverse)
  | _ => .line line

/-- Goes on with a conversation until it ends. -/
partial def talk (r : Repl) : IO UInt32 := do
  emit (← IO.getStdout) r.prompt
  let reply := r.step (inputOfLine (← (← IO.getStdin).getLine))
  emit (← IO.getStdout) reply.out
  emit (← IO.getStderr) reply.log
  match reply.next with
  | .more r => talk r
  | .over => return 0
  | .broken crash => finish (.broken crash)

/-- Opens a conversation. -/
def greet (settings : Settings) (intro : String) : IO UInt32 := do
  emit (← IO.getStdout) (intro ++ banner settings.debug)
  talk (Repl.start settings)

/-- Does what the words of a command line ask for, and gives back the exit code. -/
def runCommand (words : List String) : IO UInt32 := do
  match Command.ofWords words with
  | .welcome => greet ⟨defaultMaxDepth, false⟩ languageInfo
  | .interactive settings => greet settings ""
  | .script task settings path =>
    finish (Command.performScript task settings path (← readFile path))
  | command => finish (command.perform (fun _ => .missing) [])

end Ember

/-- The program. -/
def main (words : List String) : IO UInt32 := Ember.runCommand words
