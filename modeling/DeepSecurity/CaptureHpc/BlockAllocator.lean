import DeepSecurity.CaptureHpc.EventList

/-!
# The blocks of the shared buffer

`ReserveSpace` of the drivers and `BufferClearBits` of the client, in any order: the drivers reserve
space, and the client releases what has been reserved, with the same size. Both work on the bitmap of
the blocks, each at the place where its own declaration of the buffer has it.
-/

namespace CaptureHpc

open ByteMem

/-- Space that `ReserveSpace` has returned. -/
structure Reservation where
  /-- Where the space begins. -/
  offset : ℕ
  /-- The size that has been asked for. -/
  size : UInt32
deriving DecidableEq

/-- The blocks that a reservation reaches into. -/
def Reservation.blocks (r : Reservation) : List ℕ :=
  List.range' ((r.offset - kernelLayout.buffer) / blockSize)
    ((r.size.toNat + (blockSize - 1)) / blockSize)

/-- The shared memory, and the reservations that have not been released. -/
structure BlockAllocator where
  /-- The shared memory. -/
  mem : Mem
  /-- What has been reserved and not released. -/
  live : List Reservation

namespace BlockAllocator

/-- `InitialiseBufferManager`. -/
def initialise : BlockAllocator where
  mem := SharedEventList.initialise.mem
  live := []

/-- A call of a driver or of the client. -/
inductive Call where
  | reserveSpace (size : UInt32)
  | bufferClearBits (r : Reservation)

variable (rtl : RtlFindClearBits)

/-- The driver keeps what it gets; without space it goes on as before. -/
def reserve (s : BlockAllocator) (size : UInt32) : BlockAllocator :=
  match reserveSpace rtl s.mem size.toNat with
  | none => s
  | some (offset, mem) => { mem, live := s.live ++ [⟨offset, size⟩] }

/-- A reservation that is not live is not released. -/
def release (s : BlockAllocator) (r : Reservation) : BlockAllocator :=
  if r ∈ s.live then
    { mem := bufferClearBits s.mem r.offset r.size.toNat, live := s.live.erase r }
  else s

/-- What a call does. -/
def step (s : BlockAllocator) : Call → BlockAllocator
  | .reserveSpace size => s.reserve rtl size
  | .bufferClearBits r => s.release r

/-- The state after the calls. -/
def run (calls : List Call) : BlockAllocator := calls.foldl (step rtl) initialise

/-- The set bits of the bitmap of the drivers are the blocks of the live reservations, and these do not
overlap. In particular, a block of a reservation that has been released is available again. -/
structure Agrees (s : BlockAllocator) : Prop where
  /-- Exactly the bits of the live reservations are set. -/
  bits : ∀ b, b < bufferBitmapSize * 32 ∧ testBit s.mem b = true ↔ ∃ r ∈ s.live, b ∈ r.blocks
  /-- No two live reservations have a block in common. -/
  apart : s.live.Pairwise fun r r' => List.Disjoint r.blocks r'.blocks

/-- No block is released. A size that `ALIGN_UP` cannot round up, so that too few blocks are asked for,
finds no space. -/
def Kept (s : BlockAllocator) : Call → Prop
  | .reserveSpace size => size.toNat + (blockSize - 1) < 2 ^ 32 ∨
      rtl.find (testBit s.mem) (blocksFor size.toNat) (read32 s.mem kernelLayout.bitmapHintIndex) = none
  | .bufferClearBits r => r ∈ s.live → r.size = 0

instance (s : BlockAllocator) : (c : Call) → Decidable (s.Kept rtl c)
  | .reserveSpace _ => inferInstanceAs (Decidable (_ ∨ _))
  | .bufferClearBits _ => inferInstanceAs (Decidable (_ → _))

end BlockAllocator

end CaptureHpc
