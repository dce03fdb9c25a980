import Ember.Text.CharClass
import Ember.Text.Quoted

/-!
# Source — the lengths of lexemes

Each function gives the length of the lexeme of one class that starts a text, if one does.

* `number?`: digits with an optional fraction and exponent; digits of any script.
* `string?`: a string literal with its quotation marks, on one line.
* `name?`: an ASCII name, keywords included.
* `bareReturn?`: the word `return` where nothing follows that it could give back.
-/

namespace Ember.Lexeme

/-- The words that are no names. -/
def keywords : List String :=
  ["let", "fun", "if", "else", "while", "for", "in", "return", "true", "false", "nil"]

/-- The length of the row of digits that starts a text. -/
def digits (cs : List Char) : Nat := (cs.takeWhile Text.isDigit).length

/-- The length of the exponent that starts a text: a mark, an optional sign, and digits. -/
def exponent? : List Char → Option Nat
  | m :: cs =>
    if m = 'e' ∨ m = 'E' then
      let sign := match cs with
        | s :: _ => if s = '+' ∨ s = '-' then 1 else 0
        | [] => 0
      match digits (cs.drop sign) with
      | 0 => none
      | n + 1 => some (1 + sign + (n + 1))
    else none
  | [] => none

/-- The length of the fraction that starts a text: a point and digits. -/
def fraction? : List Char → Option Nat
  | '.' :: cs =>
    match digits cs with
    | 0 => none
    | n + 1 => some (1 + (n + 1))
  | _ => none

/-- The length of a number. -/
def number? (cs : List Char) : Option Nat :=
  match digits cs with
  | 0 => none
  | n + 1 =>
    let whole := n + 1
    let fraction := (fraction? (cs.drop whole)).getD 0
    let exponent := (exponent? (cs.drop (whole + fraction))).getD 0
    some (whole + fraction + exponent)

/-- The lexeme of a number denotes a floating-point number. -/
def isFloat (cs : List Char) : Bool := cs.any fun c => c == '.' || c == 'e' || c == 'E'

/-- The length of a string literal after its opening mark, its closing mark included. -/
def stringBody? : List Char → Option Nat
  | [] => none
  | '\\' :: d :: cs => if d = '\n' then none else (stringBody? cs).map (· + 2)
  | c :: cs =>
    if c = Text.doubleQuote then some 1
    else if c = '\\' ∨ c = '\n' then none
    else (stringBody? cs).map (· + 1)

/-- The length of a string literal. -/
def string? : List Char → Option Nat
  | c :: cs => if c = Text.doubleQuote then (stringBody? cs).map (· + 1) else none
  | [] => none

/-- The length of a name. -/
def name? : List Char → Option Nat
  | c :: cs => if Text.isNameStart c then some (1 + (cs.takeWhile Text.isNameChar).length) else none
  | [] => none

/-- No name character starts the text. -/
def endsName : List Char → Bool
  | c :: _ => !Text.isNameChar c
  | [] => true

/-- The length of a word that a name character may not continue. -/
def word? (word : String) (cs : List Char) : Option Nat :=
  let w := word.toList
  if w.isPrefixOf cs && endsName (cs.drop w.length) then some w.length else none

/-- The length of the mark of a mutable binding. -/
def mutMark? (cs : List Char) : Option Nat := word? "@mut" cs

/-- The length of the sign of an assignment, which is not the start of an equality. -/
def assignSign? : List Char → Option Nat
  | '=' :: '=' :: _ => none
  | '=' :: _ => some 1
  | _ => none

/-- Nothing that could be given back follows on the line: it ends, or a semicolon, a closing brace
or a comment comes next. -/
def endsStatement (cs : List Char) : Bool :=
  match cs.dropWhile fun c => c == ' ' || c == '\t' with
  | [] => true
  | '\n' :: _ => true
  | '\r' :: '\n' :: _ => true
  | ';' :: _ => true
  | '\x7d' :: _ => true
  | '/' :: '/' :: _ => true
  | '/' :: '*' :: _ => true
  | _ => false

/-- The length of a return that gives nothing back. -/
def bareReturn? (cs : List Char) : Option Nat :=
  (word? "return" cs).bind fun n => if endsStatement (cs.drop n) then some n else none

end Ember.Lexeme
