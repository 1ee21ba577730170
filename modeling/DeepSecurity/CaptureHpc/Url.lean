import DeepSecurity.Lib.Xml

/-!
# The encoding of URLs

`Url::encode` and `Url::decode`: a character that may not stand in a URL is written as the bytes of its
UTF-8 encoding, each as a percent sign and two hexadecimal digits. The characters are those of a
`std::wstring` on Windows, so that none needs more than three bytes.
-/

namespace CaptureHpc

open Xml

namespace Url

/-- A lower-case digit to the base 16. -/
def hexDigit (n : UInt16) : UInt16 := if n < 10 then 0x30 + n else 0x57 + n

/-- The entry of the table `hexenc` for a byte. -/
def hexenc (byte : UInt16) : Units := [0x25, hexDigit (byte >>> 4), hexDigit (byte &&& 0xF)]

/-- The characters that stand for themselves, apart from letters and digits: `-_.!~*'()`. -/
def marks : Units := [0x2D, 0x5F, 0x2E, 0x21, 0x7E, 0x2A, 0x27, 0x28, 0x29]

/-- What one round of the loop of `encode` appends. -/
def encodeChar (wch : UInt16) : Units :=
  if 0x41 ≤ wch ∧ wch ≤ 0x5A then [wch]
  else if 0x61 ≤ wch ∧ wch ≤ 0x7A then [wch]
  else if 0x30 ≤ wch ∧ wch ≤ 0x39 then [wch]
  else if wch = 0x20 then [0x2B]
  else if wch ∈ marks then [wch]
  else if wch ≤ 0x7F then hexenc wch
  else if wch ≤ 0x7FF then hexenc (wch >>> 6 ||| 0xC0) ++ hexenc (wch &&& 0x3F ||| 0x80)
  else
    hexenc (wch >>> 12 ||| 0xE0) ++ hexenc (wch >>> 6 &&& 0x3F ||| 0x80) ++
      hexenc (wch &&& 0x3F ||| 0x80)

/-- The text with its characters encoded one by one. -/
def encode (text : Units) : Units := text.flatMap encodeChar

/-- The digit that `wcstol` reads with the base 16. -/
def hexValue (c : UInt16) : Option UInt16 :=
  if 0x30 ≤ c ∧ c ≤ 0x39 then some (c - 0x30)
  else if 0x41 ≤ c ∧ c ≤ 0x46 then some (c - 0x37)
  else if 0x61 ≤ c ∧ c ≤ 0x66 then some (c - 0x57)
  else none

/-- `wcstol(temp, NULL, 16)` where `temp` is `0x` and the two characters; it stops at the first of them
that is not a digit. -/
def wcstol (high low : UInt16) : UInt16 :=
  match hexValue high, hexValue low with
  | none, _ => 0
  | some h, none => h
  | some h, some l => h <<< 4 ||| l

/-- The variables of the loop of `decode`: `sequence` is the number of bytes that the character
`conwch` still waits for. -/
structure Decoder where
  /-- The characters that have been decoded. -/
  decoded : Units
  /-- How many bytes are still missing. -/
  sequence : ℤ
  /-- The bits of the character that is not complete. -/
  conwch : UInt16

/-- The variables before the loop. -/
def Decoder.start : Decoder := ⟨[], 0, 0⟩

namespace Decoder

/-- A character is appended. -/
def push (d : Decoder) (wch : UInt16) : Decoder := { d with decoded := d.decoded ++ [wch] }

/-- A byte in the middle of a sequence. -/
def partialByte (d : Decoder) (bits : UInt16) : Decoder :=
  let bits := if d.sequence = 2 then bits <<< 6 else bits
  let d := { d with sequence := d.sequence - 1, conwch := d.conwch ||| bits }
  if d.sequence = 0 then d.push d.conwch else d

/-- A byte, by the length of the sequence that it begins. -/
def byte (d : Decoder) (tconwch : UInt16) : Decoder :=
  if tconwch ≤ 0x7F then d.push tconwch
  else if tconwch ≤ 0xBF then d.partialByte (tconwch &&& 0x3F)
  else if tconwch ≤ 0xDF then { d with conwch := (tconwch &&& 0x1F) <<< 6, sequence := 1 }
  else if tconwch ≤ 0xEF then { d with conwch := (tconwch &&& 0xF) <<< 12, sequence := 2 }
  else d

/-- The loop of `decode`. A percent sign with fewer than two characters behind it is an ordinary
character, as is everything that is not a percent sign. -/
def run : Decoder → Units → Decoder
  | d, [] => d
  | d, wch :: high :: low :: rest =>
    if wch = 0x25 then run (d.byte (wcstol high low)) rest
    else run (d.push wch) (high :: low :: rest)
  | d, wch :: rest => run (d.push wch) rest

end Decoder

/-- The text with its bytes decoded. -/
def decode (text : Units) : Units := (Decoder.start.run text).decoded

end Url

end CaptureHpc
