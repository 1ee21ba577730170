import DeepSecurity.Lib.CxxString
import DeepSecurity.Lib.SeqNum
import DeepSecurity.Lib.Trace

/-!
# The reassembly buffer of one direction of a connection

`CTcpSegBuf` of `killerfinder/src/CTcpSession.cpp`. The buffer keeps three sequence numbers: the
number of its first byte (`mStart`, with `0` for "not known yet"), the number after its last byte
(`mEnd`) and the number up to which the HTTP decoder has consumed it (`mUsed`). All three are 32-bit
numbers that wrap around, while the growth test of `insertData` adds a 64-bit size to a sequence
number and so does not wrap.

The second half of the file says what the buffer is for: a stream of bytes is cut into segments that
arrive in some order, and the buffer is to put them together again.
-/

namespace Killerfinder

/-- `tcp_seq`: a sequence number. -/
abbrev TcpSeq := UInt32

/-- The bytes of a packet or of a `std::string`. -/
abbrev Bytes := List UInt8

/-- The reassembly buffer of one direction. -/
structure CTcpSegBuf where
  /-- The sequence number of the first byte; `0` as long as it is not known. -/
  mStart : TcpSeq
  /-- The sequence number after the last byte. -/
  mEnd : TcpSeq
  /-- The sequence number up to which the bytes have been handed to the HTTP decoder. -/
  mUsed : TcpSeq
  /-- The bytes, with null bytes where nothing has arrived yet. -/
  mBuf : Bytes
deriving DecidableEq, Repr

namespace CTcpSegBuf

/-- The constructor. -/
def new : CTcpSegBuf := { mStart := 0, mEnd := 0, mUsed := 0, mBuf := [] }

/-- Called for a SYN with the number of the byte behind it. -/
def setStartSeq (b : CTcpSegBuf) (seq : TcpSeq) : CTcpSegBuf := { b with mStart := seq }

/-- Insert the payload `buf` of a packet with sequence number `seq`. `none` is the
`std::out_of_range` that `m_buf.replace` throws. -/
def insertData (b : CTcpSegBuf) (seq : TcpSeq) (buf : Bytes) : Option CTcpSegBuf := do
  let b := if b.mStart = 0 then { b with mStart := seq } else b
  -- `seq + size > m_end` is a comparison of 64-bit numbers, the assignment to `m_end` truncates
  let b := if b.mEnd.toNat < seq.toNat + buf.length then
      let mEnd := UInt32.ofNat (seq.toNat + buf.length)
      { b with mEnd, mBuf := CxxString.resize 0 b.mBuf (mEnd - b.mStart).toNat }
    else b
  let mBuf ← CxxString.replace b.mBuf (seq - b.mStart).toNat buf.length buf
  return { b with mBuf }

/-- Hand out the bytes that have not been used yet. `none` is the `std::out_of_range` that
`out.append` throws. -/
def dumpUnusedData (b : CTcpSegBuf) : Option (Bytes × CTcpSegBuf) := do
  let out ← CxxString.substr b.mBuf (b.mUsed - b.mStart).toNat
    ((b.mEnd - b.mStart) - (b.mUsed - b.mStart)).toNat
  return (out, { b with mUsed := b.mEnd })

/-- The bytes so far, with null bytes where none has arrived. -/
def getBuf (b : CTcpSegBuf) : Bytes := b.mBuf

/-- `used` counts from the start of the buffer. -/
def setUsedPos (b : CTcpSegBuf) (used : TcpSeq) : CTcpSegBuf := { b with mUsed := b.mStart + used }

end CTcpSegBuf

/-! ## Streams cut into segments -/

/-- A segment of a stream of `n` bytes, which may be empty. -/
structure Segment (n : ℕ) where
  /-- The position of the first byte in the stream. -/
  off : ℕ
  /-- The number of bytes. -/
  len : ℕ
  /-- The segment is inside the stream. -/
  le_length : off + len ≤ n
deriving DecidableEq

namespace Segment

variable {n : ℕ}

/-- The bytes of the stream `S` that the segment carries. -/
def data (g : Segment n) (S : Bytes) : Bytes := (S.drop g.off).take g.len

/-- The number of bytes of the stream up to the end of the segment that reaches furthest. -/
def top (segs : List (Segment n)) : ℕ := segs.foldl (fun m g => max m (g.off + g.len)) 0

/-- The offset of the first segment that does not begin at the start of the stream, `0` if there is
none. -/
def firstInside (segs : List (Segment n)) : ℕ :=
  match segs.find? (fun g => g.off ≠ 0) with
  | some g => g.off
  | none => 0

/-- Byte `i` of the stream is in one of the segments. -/
def Covered (segs : List (Segment n)) (i : ℕ) : Prop := ∃ g ∈ segs, g.off ≤ i ∧ i < g.off + g.len

end Segment

open Segment

variable {n : ℕ}

/-- The buffer of a session that a SYN with sequence number `s` has created, after the segments
`segs` of the stream `S` have been inserted one after the other. -/
def insertAll (S : Bytes) (s : TcpSeq) (segs : List (Segment n)) : Option CTcpSegBuf :=
  segs.foldlM (fun b g => b.insertData (s + 1 + UInt32.ofNat g.off) (g.data S))
    (CTcpSegBuf.new.setStartSeq (s + 1))

/-- The segments are put together: the buffer reaches as far as they do, and every byte that one of
them carries is in its place. -/
def Reassembled (S : Bytes) (s : TcpSeq) (segs : List (Segment n)) : Prop :=
  ∃ b, insertAll S s segs = some b ∧ b.getBuf.length = top segs ∧
    ∀ i, Covered segs i → b.getBuf[i]? = S[i]?

/-- The rule for the segment `g` that follows `pre` on a stream with start number `start`. With the
start number `0`, which `insertData` takes for "not known", every segment has to begin at the
start, or it is empty and lies inside of what has arrived; such a segment moves the start, so that only
empty segments that do not begin before it may follow. With any other start number, the first segment
must not be an empty one at the wrap. Once the numbers of the stream have wrapped around, a segment from
before the wrap has to reach the end of what has arrived, and before they have, no segment may begin
beyond the wrap. -/
def WrapSafe (start : TcpSeq) (pre : List (Segment n)) (g : Segment n) : Prop :=
  if start = 0 then
    firstInside pre = 0 ∧ g.off = 0 ∨ g.len = 0 ∧ firstInside pre ≤ g.off ∧ g.off ≤ top pre
  else if pre = [] then start.toNat + g.off = 2 ^ 32 → 0 < g.len
  else
    (start.toNat + top pre < 2 ^ 32 → start.toNat + g.off < 2 ^ 32) ∧
    (2 ^ 32 ≤ start.toNat + top pre → start.toNat + g.off < 2 ^ 32 → top pre ≤ g.off + g.len)

instance (start : TcpSeq) (pre : List (Segment n)) (g : Segment n) :
    Decidable (WrapSafe start pre g) :=
  inferInstanceAs (Decidable (if start = 0 then _ else _))

/-- The active view of a stream: after every segment the unused bytes are handed to the decoder. The
result is the buffer and all bytes handed out so far. -/
def dumpAll (S : Bytes) (start : TcpSeq) (segs : List (Segment n)) : Option (CTcpSegBuf × Bytes) :=
  segs.foldlM (fun st g => do
      let b ← st.1.insertData (start + UInt32.ofNat g.off) (g.data S)
      let (out, b) ← b.dumpUnusedData
      return (b, st.2 ++ out))
    ((CTcpSegBuf.new.setStartSeq start).setUsedPos 0, [])

/-- The active view agrees with the stream: what has been handed out is a prefix of the stream, and
all of it once all bytes have been inserted. -/
def ActiveAgrees (S : Bytes) (start : TcpSeq) (segs : List (Segment n)) : Prop :=
  ∃ b out, dumpAll S start segs = some (b, out) ∧ out <+: S ∧
    ((∀ i < n, Covered segs i) → out = S)

/-- The rule for the segment `g` that follows `pre` on a stream with start number `start` whose
numbers do not wrap around: it leaves no gap behind the bytes that have arrived. Moreover, if the
stream ends just before the wrap-around and has arrived completely, the segment has to reach its end;
and with the start number `0`, which `insertData` moves to the first segment inside the stream, it
must not begin before this one, nor end at the wrap-around. -/
def GapFree (start : TcpSeq) (pre : List (Segment n)) (g : Segment n) : Prop :=
  g.off ≤ top pre ∧
  if start = 0 then firstInside pre ≤ g.off ∧ g.off + g.len < 2 ^ 32
  else start.toNat + top pre = 2 ^ 32 → top pre ≤ g.off + g.len

instance (start : TcpSeq) (pre : List (Segment n)) (g : Segment n) :
    Decidable (GapFree start pre g) :=
  inferInstanceAs (Decidable (_ ∧ if start = 0 then _ else _))

end Killerfinder
