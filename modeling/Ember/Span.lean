/-!
# Span — places in a source text

A span names the file, the first and last position and, for a token, its text. Lines and columns
count from one.
-/

namespace Ember

/-- A place in a source text. -/
structure Span where
  filename : String
  startLine : Nat
  startCol : Nat
  endLine : Nat
  endCol : Nat
  text : String
deriving DecidableEq, Repr, Inhabited

namespace Span

/-- The place of a token, or of a node that shows no text and so is one column wide. -/
def ofToken (filename : String) (line col : Nat) (text : String) : Span :=
  ⟨filename, line, col, line, col + max text.length 1, text⟩

/-- A span in messages; the end line is left out when it is the start line. -/
def describe (s : Span) : String :=
  let start := s.filename ++ ":" ++ toString s.startLine ++ ":" ++ toString s.startCol ++ "-"
  if s.startLine = s.endLine then start ++ toString s.endCol
  else start ++ toString s.endLine ++ ":" ++ toString s.endCol

/-- A message under its heading, with the place if it is known. -/
def located (heading : String) (span : Option Span) (message : String) : String :=
  match span with
  | some s => heading ++ " at " ++ s.describe ++ ": " ++ message
  | none => heading ++ ": " ++ message

end Span

end Ember
