import DeepSecurity.Lib.Checked
import DeepSecurity.Lib.StandardBase64

/-!
# Base64 of the client

`Base64::encode` and `Base64::decode` of `CaptureGlobal.cpp`, on the buffers that they allocate. The
encoder writes every block of the text in full, with zeros for the bytes that are missing, and the padding
then overwrites its end. The decoder does not know of padding; what it makes of it comes behind the
bytes that have been encoded.
-/

namespace CaptureHpc

namespace Base64

/-- The characters of the encoding, by their values. -/
def b64List : List UInt8 :=
  ['A', 'B', 'C', 'D', 'E', 'F', 'G', 'H', 'I', 'J', 'K', 'L', 'M', 'N', 'O', 'P', 'Q', 'R', 'S', 'T',
    'U', 'V', 'W', 'X', 'Y', 'Z', 'a', 'b', 'c', 'd', 'e', 'f', 'g', 'h', 'i', 'j', 'k', 'l', 'm', 'n',
    'o', 'p', 'q', 'r', 's', 't', 'u', 'v', 'w', 'x', 'y', 'z', '0', '1', '2', '3', '4', '5', '6', '7',
    '8', '9', '+', '/'].map fun c => UInt8.ofNat c.toNat

/-- The allocated memory and the position of the next character. -/
structure EncodedBuffer (κ : Type) where
  /-- The bytes that have been allocated. -/
  mem : List UInt8
  /-- The position of the next character. -/
  k : κ

/-- The arithmetic of the encoder, with positions of the type `κ`. -/
structure Arithmetic (κ : Type) where
  /-- The position of the first character. -/
  zero : κ
  /-- `k + 1` -/
  next : κ → κ
  /-- The address of `encodedBuffer[k]`. -/
  address : κ → ℕ
  /-- The address of `encodedBuffer[k - (3 - i)]`. -/
  padding : κ → ℕ → ℕ
  /-- `len % 3` -/
  remainder : ℕ → ℕ
  /-- The bytes that are allocated for a text of the given length. -/
  allocated : ℕ → ℕ

/-- A store into the memory, which has to be inside of it. -/
def store (mem : List UInt8) (i : ℕ) (c : UInt8) : Checked (List UInt8) :=
  if i < mem.length then .ok (mem.set i c) else Checked.fault

/-- The 24 bits of the block that begins at position `i`. -/
def blockAt (cleartextBuffer : List UInt8) (i : ℕ) : Checked UInt32 := do
  let a ← Checked.get cleartextBuffer i
  let block := a.toUInt32 <<< 16
  let block ← if i + 1 < cleartextBuffer.length then do
      let b ← Checked.get cleartextBuffer (i + 1)
      pure (block ||| b.toUInt32 <<< 8)
    else pure block
  if i + 2 < cleartextBuffer.length then do
    let c ← Checked.get cleartextBuffer (i + 2)
    pure (block ||| c.toUInt32)
  else pure block

section Encoder

variable {κ : Type} (arith : Arithmetic κ)

/-- `encodedBuffer[k++] = c` -/
def EncodedBuffer.push (buf : EncodedBuffer κ) (c : UInt8) : Checked (EncodedBuffer κ) := do
  let mem ← store buf.mem (arith.address buf.k) c
  return ⟨mem, arith.next buf.k⟩

/-- A round of the loop. -/
def encodeBlock (cleartextBuffer : List UInt8) (buf : EncodedBuffer κ) (i : ℕ) :
    Checked (EncodedBuffer κ) := do
  let block ← blockAt cleartextBuffer i
  let buf ← buf.push arith (← Checked.get b64List (block >>> 18 &&& 0x3F).toNat)
  let buf ← buf.push arith (← Checked.get b64List (block >>> 12 &&& 0x3F).toNat)
  let buf ← buf.push arith (← Checked.get b64List (block >>> 6 &&& 0x3F).toNat)
  buf.push arith (← Checked.get b64List (block &&& 0x3F).toNat)

/-- The buffer that is returned; its `k` is `*encodedLength`. What the memory holds before does not
matter, it is zero here. -/
def encodeWith (cleartextBuffer : List UInt8) : Checked (EncodedBuffer κ) := do
  let len := cleartextBuffer.length
  let remainder := arith.remainder len
  let buf ← (List.range' 0 ((len + 2) / 3) 3).foldlM (encodeBlock arith cleartextBuffer)
    ⟨List.replicate (arith.allocated len) 0, arith.zero⟩
  if 0 < remainder then
    let mem ← (List.range' remainder (3 - remainder)).foldlM
      (fun mem i => store mem (arith.padding buf.k i) 0x3D) buf.mem
    return ⟨mem, buf.k⟩
  else return buf

end Encoder

/-- Numbers that do not overflow. -/
def natural : Arithmetic ℕ where
  zero := 0
  next k := k + 1
  address k := k
  padding k i := k - (3 - i)
  remainder len := len % 3
  allocated len := (if len % 3 ≠ 0 then len / 3 + 1 else len / 3) * 4 + 2

/-- The arithmetic of the compiled program: the position and the number of blocks are `int`s, which wrap
around when they overflow, and addresses have 32 bits, too. -/
def int32 : Arithmetic Int32 where
  zero := 0
  next k := k + 1
  address k := k.toUInt32.toNat
  padding k i := (k.toUInt32 - (3 - UInt32.ofNat i)).toNat
  remainder len := (UInt32.ofNat len % 3).toNat
  allocated len :=
    let nBlocks : Int32 := if UInt32.ofNat len % 3 ≠ 0 then (UInt32.ofNat len / 3).toInt32 + 1
      else (UInt32.ofNat len / 3).toInt32
    (nBlocks * 4 + 2).toUInt32.toNat

/-- The encoder as if nothing could overflow. -/
def encode (cleartextBuffer : List UInt8) : Checked (EncodedBuffer ℕ) := encodeWith natural cleartextBuffer

/-- The encoder in 32-bit arithmetic. -/
def encodeInt32 (cleartextBuffer : List UInt8) : Checked (EncodedBuffer Int32) :=
  encodeWith int32 cleartextBuffer

/-! ## The decoder -/

/-- The mark of the characters that are not in the encoding. -/
def xx : ℕ := 100

/-- The values of the characters. -/
def b64Index : List ℕ :=
  [xx,xx,xx,xx, xx,xx,xx,xx, xx,xx,xx,xx, xx,xx,xx,xx,
    xx,xx,xx,xx, xx,xx,xx,xx, xx,xx,xx,xx, xx,xx,xx,xx,
    xx,xx,xx,xx, xx,xx,xx,xx, xx,xx,xx,62, xx,xx,xx,63,
    52,53,54,55, 56,57,58,59, 60,61,xx,xx, xx,xx,xx,xx,
    xx, 0, 1, 2,  3, 4, 5, 6,  7, 8, 9,10, 11,12,13,14,
    15,16,17,18, 19,20,21,22, 23,24,25,xx, xx,xx,xx,xx,
    xx,26,27,28, 29,30,31,32, 33,34,35,36, 37,38,39,40,
    41,42,43,44, 45,46,47,48, 49,50,51,xx, xx,xx,xx,xx] ++ List.replicate 128 xx

/-- `b64_index[c]`. A `char` is signed, so that one above `0x7F` is an index before the table. -/
def indexOf (c : UInt8) : Checked ℕ :=
  if c < 0x80 then Checked.get b64Index c.toNat else Checked.fault

/-- The position of the first null byte; without one the search leaves the memory. -/
def strlen (text : List UInt8) : Checked ℕ :=
  match text.findIdx? (· == 0) with
  | some len => .ok len
  | none => Checked.fault

/-- The variables of the loop of `decode`. What `encoded` and the buffer hold before does not matter. -/
structure Decoding where
  /-- The buffer that is returned, over which the decoded bytes are written. -/
  buffer : List UInt8
  /-- The position of the next byte. -/
  position : ℕ
  /-- The last four characters that have been read. -/
  encoded : List UInt8

/-- `buffer[position++] = (unsigned char) n` -/
def Decoding.push (d : Decoding) (n : ℕ) : Checked Decoding := do
  let buffer ← store d.buffer d.position (UInt8.ofNat n)
  return { d with buffer, position := d.position + 1 }

/-- The three bytes of the four characters. -/
def Decoding.flush (d : Decoding) : Checked Decoding := do
  let p ← indexOf (← Checked.get d.encoded 0)
  let q ← indexOf (← Checked.get d.encoded 1)
  let r ← indexOf (← Checked.get d.encoded 2)
  let s ← indexOf (← Checked.get d.encoded 3)
  let d ← d.push (p <<< 2 ||| q >>> 4)
  let d ← d.push (q <<< 4 ||| r >>> 2)
  d.push (r <<< 6 ||| s)

/-- A round of the loop: a group of four characters is written before the next one begins. -/
def decodeStep (encodedBuffer : List UInt8) (d : Decoding) (i : ℕ) : Checked Decoding := do
  let d ← if 0 < i ∧ i % 4 = 0 then d.flush else pure d
  let c ← Checked.get encodedBuffer i
  return { d with encoded := d.encoded.set (i % 4) c }

/-- The buffer that is returned, for the memory from the beginning of the text on. -/
def decode (encodedBuffer : List UInt8) : Checked (List UInt8) := do
  let len ← strlen encodedBuffer
  let d ← (List.range (len + 1)).foldlM (decodeStep encodedBuffer)
    ⟨List.replicate len 0, 0, List.replicate 4 0⟩
  if d.position < len then store d.buffer d.position 0 else return d.buffer

end Base64

end CaptureHpc
