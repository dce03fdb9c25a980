/-!
# Text — character classes

The classes of characters that the language and its messages speak of, as ranges of code
points: blanks, decimal digits and the characters of a word.

* `isBlank`: what trimming removes from both ends of a text.
* `digit?`: the value of a decimal digit of any script.
* `isWordChar`: the letters and digits that are quoted together when a message names what was
  found.
-/

namespace Ember.Text

/-- A character lies in one of the closed ranges of code points. -/
def inRanges (ranges : List (Nat × Nat)) (c : Char) : Bool :=
  ranges.any fun r => r.1 ≤ c.toNat && c.toNat ≤ r.2

/-! ### Blanks -/

/-- The blank characters: the controls that move the cursor, the separators, and every space. -/
def blankRanges : List (Nat × Nat) := [
  (0x9, 0xd), (0x1c, 0x20), (0x85, 0x85), (0xa0, 0xa0), (0x1680, 0x1680), (0x2000, 0x200a),
  (0x2028, 0x2029), (0x202f, 0x202f), (0x205f, 0x205f), (0x3000, 0x3000)]

/-- A character that trimming removes. -/
def isBlank (c : Char) : Bool := inRanges blankRanges c

/-- A separator of information: four controls that count as blank in a text, but not around a
number. -/
def isSeparator (c : Char) : Bool := inRanges [(0x1c, 0x1f)] c

/-! ### Decimal digits -/

/-- The zero of each run of ten decimal digits. -/
def digitZeros : List Nat := [
  0x30, 0x660, 0x6f0, 0x7c0, 0x966, 0x9e6, 0xa66, 0xae6, 0xb66, 0xbe6,
  0xc66, 0xce6, 0xd66, 0xde6, 0xe50, 0xed0, 0xf20, 0x1040, 0x1090, 0x17e0,
  0x1810, 0x1946, 0x19d0, 0x1a80, 0x1a90, 0x1b50, 0x1bb0, 0x1c40, 0x1c50, 0xa620,
  0xa8d0, 0xa900, 0xa9d0, 0xa9f0, 0xaa50, 0xabf0, 0xff10, 0x104a0, 0x10d30, 0x11066,
  0x110f0, 0x11136, 0x111d0, 0x112f0, 0x11450, 0x114d0, 0x11650, 0x116c0, 0x11730, 0x118e0,
  0x11950, 0x11c50, 0x11d50, 0x11da0, 0x16a60, 0x16ac0, 0x16b50, 0x1d7ce, 0x1d7d8, 0x1d7e2,
  0x1d7ec, 0x1d7f6, 0x1e140, 0x1e2f0, 0x1e950, 0x1fbf0]

/-- The value of a decimal digit of any script. -/
def digit? (c : Char) : Option Nat :=
  (digitZeros.find? fun z => z ≤ c.toNat && c.toNat < z + 10).map (c.toNat - ·)

/-- A decimal digit of any script. -/
def isDigit (c : Char) : Bool := (digit? c).isSome

/-- The number that a row of decimal digits denotes; other characters are passed over. -/
def digitsValue (cs : List Char) : Nat :=
  cs.foldl (fun n c => match digit? c with | some d => 10 * n + d | none => n) 0

/-! ### Words -/

/-- Letters and digits of the Latin, Greek and Cyrillic scripts. -/
def wordRanges : List (Nat × Nat) := [
  (0x30, 0x39), (0x41, 0x5a), (0x61, 0x7a), (0xaa, 0xaa), (0xb2, 0xb3), (0xb5, 0xb5),
  (0xb9, 0xba), (0xc0, 0xd6), (0xd8, 0xf6), (0xf8, 0x24f), (0x370, 0x374), (0x376, 0x377),
  (0x37a, 0x37d), (0x37f, 0x37f), (0x386, 0x386), (0x388, 0x38a), (0x38c, 0x38c), (0x38e, 0x3a1),
  (0x3a3, 0x3e1), (0x3f0, 0x3f5), (0x3f7, 0x481), (0x48a, 0x52f), (0x1c80, 0x1c88),
  (0x1d26, 0x1d2b), (0x1d5e, 0x1d5e), (0x1d60, 0x1d60), (0x1d66, 0x1d6a), (0x1d78, 0x1d78),
  (0x1f00, 0x1f15), (0x1f18, 0x1f1d), (0x1f20, 0x1f45), (0x1f48, 0x1f4d), (0x1f50, 0x1f57),
  (0x1f59, 0x1f59), (0x1f5b, 0x1f5b), (0x1f5d, 0x1f5d), (0x1f5f, 0x1f7d), (0x1f80, 0x1fb4),
  (0x1fb6, 0x1fbc), (0x1fbe, 0x1fbe), (0x1fc2, 0x1fc4), (0x1fc6, 0x1fcc), (0x1fd0, 0x1fd3),
  (0x1fd6, 0x1fdb), (0x1fe0, 0x1fec), (0x1ff2, 0x1ff4), (0x1ff6, 0x1ffc), (0xa640, 0xa66e),
  (0xa67f, 0xa69d), (0xab65, 0xab65)]

/-- A letter or digit that a message quotes as part of a word. -/
def isWordChar (c : Char) : Bool := inRanges wordRanges c

/-- An ASCII letter or the underscore: what a name starts with. -/
def isNameStart (c : Char) : Bool := c.isAlpha || c == '_'

/-- An ASCII letter, digit or the underscore: what a name goes on with. -/
def isNameChar (c : Char) : Bool := c.isAlphanum || c == '_'

/-- A character that may not touch a keyword on either side. -/
def isKeywordChar (c : Char) : Bool := isNameChar c || c == '$'

end Ember.Text
