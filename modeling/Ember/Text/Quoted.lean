import Ember.Text.Printable

/-!
# Text — quoted text

Two ways to write a text between quotation marks.

* `quoted` is for listings and messages: it picks the mark that needs fewer escapes, and writes
  every character that is not printable by its code point.
* `literal` is for program text: it is the string literal that denotes the text, and
  `unescape` reads the inside of such a literal back.
-/

namespace Ember.Text

/-- The single quotation mark. -/
def apostrophe : Char := '\x27'

/-- The double quotation mark. -/
def doubleQuote : Char := '\x22'

/-! ### Listings -/

/-- A number in lower-case hexadecimal digits, filled with zeros up to a width. -/
def hex (width : Nat) (n : Nat) : List Char :=
  let ds := Nat.toDigits 16 n
  List.replicate (width - ds.length) '0' ++ ds

/-- The mark that surrounds a listed text: a double quote exactly if the text holds an apostrophe
and no double quote. -/
def markFor (cs : List Char) : Char :=
  if cs.contains apostrophe && !cs.contains doubleQuote then doubleQuote else apostrophe

/-- One character of a listed text between the given marks. -/
def quoteChar (mark c : Char) : List Char :=
  if c = mark ∨ c = '\\' then ['\\', c]
  else if c = '\t' then ['\\', 't']
  else if c = '\n' then ['\\', 'n']
  else if c = '\r' then ['\\', 'r']
  else if isPrintable c then [c]
  else if c.toNat < 0x100 then '\\' :: 'x' :: hex 2 c.toNat
  else if c.toNat < 0x10000 then '\\' :: 'u' :: hex 4 c.toNat
  else '\\' :: 'U' :: hex 8 c.toNat

/-- A text as listings and messages show it. -/
def quotedChars (cs : List Char) : List Char :=
  let mark := markFor cs
  mark :: (cs.flatMap (quoteChar mark) ++ [mark])

/-- A string as listings and messages show it. -/
def quoted (s : String) : String := String.ofList (quotedChars s.toList)

/-! ### String literals -/

/-- The character that an escape letter stands for. -/
def escapeOf? (c : Char) : Option Char :=
  match c with
  | 'n' => some '\n'
  | 't' => some '\t'
  | 'r' => some '\r'
  | '\\' => some '\\'
  | '\x22' => some '\x22'
  | '0' => some '\x00'
  | _ => none

/-- The text that the inside of a string literal denotes. A backslash before a letter that is no
escape stands for itself. -/
def unescape : List Char → List Char
  | [] => []
  | '\\' :: d :: cs =>
    match escapeOf? d with
    | some e => e :: unescape cs
    | none => '\\' :: unescape (d :: cs)
  | c :: cs => c :: unescape cs

/-- One character inside a string literal. -/
def literalChar (c : Char) : List Char :=
  if c = '\\' ∨ c = doubleQuote then ['\\', c]
  else if c = '\n' then ['\\', 'n']
  else if c = '\t' then ['\\', 't']
  else [c]

/-- The string literal that denotes a text. -/
def literal (s : String) : String :=
  String.ofList (doubleQuote :: (s.toList.flatMap literalChar ++ [doubleQuote]))

end Ember.Text
