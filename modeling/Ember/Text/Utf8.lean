/-!
# Text — reading UTF-8

Bytes are read as UTF-8 in the strict sense: no overlong form, no surrogate, nothing above the
last code point. A fault is described by the bytes that take part in it.

* `decode`: the characters of a byte sequence, or its first fault.
-/

namespace Ember.Text.Utf8

/-- Why a byte sequence is not UTF-8. -/
inductive Reason where
  /-- A byte that starts no character. -/
  | invalidStart
  /-- A lead byte whose successor does not continue it. -/
  | invalidContinuation
  /-- A character cut off by the end of the data. -/
  | unexpectedEnd
deriving DecidableEq, Repr

/-- The wording of a reason. -/
def Reason.message : Reason → String
  | .invalidStart => "invalid start byte"
  | .invalidContinuation => "invalid continuation byte"
  | .unexpectedEnd => "unexpected end of data"

/-- A fault: the offset of its first byte, that byte, the number of bytes that take part, and
the reason. -/
structure Fault where
  offset : Nat
  byte : Nat
  count : Nat
  reason : Reason
deriving DecidableEq, Repr

/-- Two lower-case hexadecimal digits. -/
def hexByte (b : Nat) : String :=
  let ds := Nat.toDigits 16 b
  String.ofList (List.replicate (2 - ds.length) '0' ++ ds)

/-- A fault in words. -/
def Fault.message (f : Fault) : String :=
  if f.count = 1 then
    "'utf-8' codec can't decode byte 0x" ++ hexByte f.byte ++ " in position "
      ++ toString f.offset ++ ": " ++ f.reason.message
  else
    "'utf-8' codec can't decode bytes in position " ++ toString f.offset ++ "-"
      ++ toString (f.offset + f.count - 1) ++ ": " ++ f.reason.message

/-- What a lead byte announces: how many bytes follow, its payload bits, and the range of the
second byte. -/
structure Lead where
  follow : Nat
  bits : Nat
  secondMin : Nat
  secondMax : Nat

/-- The lead byte of a character, if the byte is one. -/
def Lead.of? (b : Nat) : Option Lead :=
  if b < 0x80 then some ⟨0, b, 0x80, 0xbf⟩
  else if b < 0xc2 then none
  else if b < 0xe0 then some ⟨1, b - 0xc0, 0x80, 0xbf⟩
  else if b = 0xe0 then some ⟨2, 0, 0xa0, 0xbf⟩
  else if b = 0xed then some ⟨2, 0xd, 0x80, 0x9f⟩
  else if b < 0xf0 then some ⟨2, b - 0xe0, 0x80, 0xbf⟩
  else if b = 0xf0 then some ⟨3, 0, 0x90, 0xbf⟩
  else if b < 0xf4 then some ⟨3, b - 0xf0, 0x80, 0xbf⟩
  else if b = 0xf4 then some ⟨3, 4, 0x80, 0x8f⟩
  else none

/-- Reads `need` continuation bytes, the first of them between `lo` and `hi`. The result is the
code point, or how many bytes were right and why the next is not. -/
def continuation (code : Nat) (lo hi : Nat) (right : Nat) :
    (need : Nat) → List Nat → Except (Nat × Reason) Nat
  | 0, _ => .ok code
  | _ + 1, [] => .error (right, .unexpectedEnd)
  | need + 1, b :: bs =>
    if lo ≤ b ∧ b ≤ hi then continuation (code * 64 + (b - 0x80)) 0x80 0xbf (right + 1) need bs
    else .error (right, .invalidContinuation)

/-- Reads the characters from an offset on; `skip` bytes belong to the character before. -/
def decodeFrom (offset : Nat) (skip : Nat) : List Nat → Except Fault (List Char)
  | [] => .ok []
  | b :: bs =>
    match skip with
    | skip + 1 => decodeFrom (offset + 1) skip bs
    | 0 =>
      match Lead.of? b with
      | none => .error ⟨offset, b, 1, .invalidStart⟩
      | some lead =>
        match continuation lead.bits lead.secondMin lead.secondMax 1 lead.follow bs with
        | .error (count, reason) => .error ⟨offset, b, count, reason⟩
        | .ok code => do
          let rest ← decodeFrom (offset + 1) lead.follow bs
          return Char.ofNat code :: rest

/-- The characters of a byte sequence, or its first fault. -/
def decode (bytes : List UInt8) : Except Fault (List Char) :=
  decodeFrom 0 0 (bytes.map (·.toNat))

end Ember.Text.Utf8
