import Packrat.Text.Quoted
set_option autoImplicit false
set_option relaxedAutoImplicit false

/-!
# Reading UTF-8

A file is a row of bytes that should spell characters in UTF-8. Where it does not, the report
names the bytes at fault: a byte that starts no character, a character that breaks off before a
byte that cannot continue it, or one that the end of the file cuts short. Overlong forms,
surrogates and numbers beyond the last code point are refused at their second byte.

## Main definitions

* `Packrat.Utf8.decode` — the characters that bytes spell, or the first fault.
* `Packrat.Utf8.Fault.message` — the wording of a fault.
-/

namespace Packrat

namespace Utf8

/-- What is wrong with bytes that spell no character. -/
inductive Cause where
  | startByte
  | continuationByte
  | endOfData
  deriving DecidableEq, Repr

/-- The first bytes of a file that spell no character. -/
structure Fault where
  cause : Cause
  /-- The first byte at fault. -/
  first : UInt8
  /-- The offset of that byte. -/
  start : Nat
  /-- The offset after the last byte at fault. -/
  stop : Nat
  deriving DecidableEq, Repr

/-- A character of which some bytes are read and others have to follow. -/
structure Pending where
  first : UInt8
  start : Nat
  /-- The bits of the code point so far. -/
  bits : Nat
  /-- The least value of the next byte. -/
  least : UInt8
  /-- The greatest value of the next byte. -/
  greatest : UInt8
  /-- The number of bytes that follow the next one. -/
  further : Nat

/-- The character that a byte of 128 or more starts, if it starts one. -/
def Pending.ofByte? (b : UInt8) (start : Nat) : Option Pending :=
  if b < 0xc2 then none
  else if b < 0xe0 then some ⟨b, start, b.toNat % 32, 0x80, 0xbf, 0⟩
  else if b < 0xf0 then
    some ⟨b, start, b.toNat % 16, if b = 0xe0 then 0xa0 else 0x80, if b = 0xed then 0x9f
      else 0xbf, 1⟩
  else if b < 0xf5 then
    some ⟨b, start, b.toNat % 8, if b = 0xf0 then 0x90 else 0x80, if b = 0xf4 then 0x8f
      else 0xbf, 2⟩
  else none

/-- The bits of the code point with those of one more byte. -/
def Pending.bitsWith (p : Pending) (b : UInt8) : Nat := p.bits * 64 + b.toNat % 64

/-- Reads bytes from an offset on, in the middle of a character or between two. -/
def decodeFrom : List UInt8 → Nat → Option Pending → Except Fault (List Char)
  | [], _, none => .ok []
  | [], offset, some p => .error ⟨.endOfData, p.first, p.start, offset⟩
  | b :: bs, offset, none =>
    if b < 0x80 then (Char.ofNat b.toNat :: ·) <$> decodeFrom bs (offset + 1) none
    else match Pending.ofByte? b offset with
      | none => .error ⟨.startByte, b, offset, offset + 1⟩
      | some p => decodeFrom bs (offset + 1) (some p)
  | b :: bs, offset, some p =>
    if b < p.least ∨ p.greatest < b then .error ⟨.continuationByte, p.first, p.start, offset⟩
    else match p.further with
      | 0 => (Char.ofNat (p.bitsWith b) :: ·) <$> decodeFrom bs (offset + 1) none
      | n + 1 =>
        decodeFrom bs (offset + 1) (some ⟨p.first, p.start, p.bitsWith b, 0x80, 0xbf, n⟩)

/-- The characters that bytes spell in UTF-8, or the first fault. -/
def decode (bytes : ByteArray) : Except Fault (List Char) := decodeFrom bytes.data.toList 0 none

/-- The wording of a cause. -/
def Cause.message : Cause → String
  | .startByte => "invalid start byte"
  | .continuationByte => "invalid continuation byte"
  | .endOfData => "unexpected end of data"

/-- The wording of a fault: a single byte is shown, a longer stretch is given by its ends. -/
def Fault.message (f : Fault) : String :=
  "'utf-8' codec can't decode " ++
    (if f.stop = f.start + 1 then
      "byte 0x" ++ String.ofList (Quoted.hexDigits 2 f.first.toNat) ++ " in position "
        ++ toString f.start
    else "bytes in position " ++ toString f.start ++ "-" ++ toString (f.stop - 1))
    ++ ": " ++ f.cause.message

end Utf8

end Packrat
