import Ember.Diagnostic
import Ember.Grammar.Statement
import Ember.Text.Utf8

/-!
# Parse — from text to trees

* `parseProgram`, `parseExpression`: the trees of a text.
* `parseContents`: the trees of the contents of a file.
-/

namespace Ember

/-- Why a text has no trees. -/
inductive Rejection where
  /-- The text is not well-formed. -/
  | error (e : ParseError)
  /-- An integer literal has more digits than are read. -/
  | hugeInteger (digits : Nat)
deriving Inhabited

/-- What an integer literal of too many digits is refused with. -/
def hugeIntegerMessage (digits : Nat) : String :=
  "Exceeds the limit (" ++ toString Decimal.maxDigits
    ++ " digits) for integer string conversion: value has " ++ toString digits
    ++ " digits; use sys.set_int_max_str_digits() to increase the limit"

/-- The text that the parser scans. -/
def scanned (source : String) : List Char := Text.expandTabs source.toList

/-- Reads a whole text with a parser. -/
def parseWith {α : Type} (p : Grammar.Parser α) (filename source : String) :
    Except Rejection α :=
  let cs := scanned source
  let failed (f : Grammar.Failure) : Rejection :=
    .error (.ofFailure filename source cs f.offset f.cause.message)
  match p (Cursor.start filename cs) with
  | .ok a _ => .ok a
  | .fail f => .error (failed f)
  | .stop (.fatal f) => .error (failed f)
  | .stop .tooDeep => .error (.error (.tooDeep filename))
  | .stop (.hugeInteger digits) => .error (.hugeInteger digits)

/-- The statements of a program. -/
def parseProgram (filename source : String) : Except Rejection (List Tree) :=
  parseWith Grammar.program filename source

/-- The tree of an expression. -/
def parseExpression (filename source : String) : Except Rejection Tree :=
  parseWith Grammar.soleExpression filename source

/-- The characters of the contents of a file, with line ends as newline characters. -/
def readText (bytes : List UInt8) : Except Text.Utf8.Fault String :=
  (Text.Utf8.decode bytes).map fun cs => String.ofList (Text.normalizeNewlines cs)

/-- The statements of a file, of which the contents are given if it exists. -/
def parseContents (path : String) (bytes? : Option (List UInt8)) : Except Rejection (List Tree) :=
  match bytes? with
  | none => .error (.error (.plain ("File not found: " ++ path)))
  | some bytes => match readText bytes with
    | .error fault =>
      .error (.error (.plain ("Cannot decode file " ++ path ++ ": " ++ fault.message)))
    | .ok source => parseProgram path source

end Ember
