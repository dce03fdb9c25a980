import Ember.Text.CharClass

/-!
# Text — lines, columns and trimming

Positions count characters from one, and a line ends at a newline character only.

* `lines`: a text cut at its newlines; there is always at least one line.
* `trim`: a text without the blanks at its ends.
* `expandTabs`: a text with each tab replaced by the spaces up to the next tab stop.
* `lineOf`, `columnOf`: the line and column of an offset.
-/

namespace Ember.Text

/-- The lines of a text, without their newline characters. -/
def lines : List Char → List (List Char)
  | [] => [[]]
  | c :: cs =>
    if c = '\n' then [] :: lines cs
    else match lines cs with
      | l :: ls => (c :: l) :: ls
      | [] => [[c]]

/-- A text without the characters of a class at its ends. -/
def trimWhere (p : Char → Bool) (cs : List Char) : List Char :=
  ((cs.dropWhile p).reverse.dropWhile p).reverse

/-- A text without the blanks at its ends. -/
def trim (cs : List Char) : List Char := trimWhere isBlank cs

/-- A string without the blanks at its ends. -/
def strip (s : String) : String := String.ofList (trim s.toList)

/-- The distance between tab stops. -/
def tabWidth : Nat := 8

/-- The text from `column` on, with each tab replaced by the spaces that reach the next tab
stop; a newline or a carriage return starts a line afresh. -/
def expandTabsFrom (column : Nat) : List Char → List Char
  | [] => []
  | c :: cs =>
    if c = '\t' then
      let gap := tabWidth - column % tabWidth
      List.replicate gap ' ' ++ expandTabsFrom (column + gap) cs
    else if c = '\n' ∨ c = '\r' then c :: expandTabsFrom 0 cs
    else c :: expandTabsFrom (column + 1) cs

/-- A text with its tabs replaced by spaces. -/
def expandTabs (cs : List Char) : List Char := expandTabsFrom 0 cs

/-- A text in which every line end, written `\r\n` or `\r`, is a newline character. -/
def normalizeNewlines : List Char → List Char
  | [] => []
  | '\r' :: '\n' :: cs => '\n' :: normalizeNewlines cs
  | c :: cs => (if c = '\r' then '\n' else c) :: normalizeNewlines cs

/-- The line, counted from one, of the character at an offset. -/
def lineOf (cs : List Char) (offset : Nat) : Nat := 1 + (cs.take offset).count '\n'

/-- The column, counted from one, of the character at an offset. -/
def columnOf (cs : List Char) (offset : Nat) : Nat :=
  1 + ((cs.take offset).reverse.takeWhile (· ≠ '\n')).length + (offset - cs.length)

/-- A text set to the right in a field of the given width. -/
def padLeft (width : Nat) (s : String) : String :=
  String.ofList (List.replicate (width - s.length) ' ') ++ s

/-- A row of spaces. -/
def spaces (n : Nat) : String := String.ofList (List.replicate n ' ')

/-- A character repeated. -/
def repeated (c : Char) (n : Nat) : String := String.ofList (List.replicate n c)

/-- A text occurs inside another. -/
def occursIn (needle : List Char) : List Char → Bool
  | [] => needle.isEmpty
  | c :: cs => needle.isPrefixOf (c :: cs) || occursIn needle cs

end Ember.Text
