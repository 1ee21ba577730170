import DeepSecurity.CaptureHpc.EventList

/-!
# The bits that the client clears

What `BufferClearBits` is for: it clears the bits of the blocks of the space that is released, as far as
the bitmap goes.
-/

namespace CaptureHpc

open ByteMem

/-- Bit `i` of the bitmap, as the client sees it. -/
def userBit (m : Mem) (i : ℕ) : Bool :=
  (m (userLayout.bufferBitmap + i / 8)).toNat.testBit (i % 8)

/-- The blocks that `size` bytes from the block `index` on reach into, if the bitmap has them. -/
def Released (m : Mem) (index : ℕ) (size : UInt32) (b : ℕ) : Prop :=
  index ≤ b ∧ b < min (index + (size.toNat + (blockSize - 1)) / blockSize) (read32 m sizeOfBitMap)

instance (m : Mem) (index : ℕ) (size : UInt32) (b : ℕ) : Decidable (Released m index size b) :=
  inferInstanceAs (Decidable (_ ∧ _))

/-- The call for the block `index` comes to an end, it clears the bits of the released blocks, and
nothing else changes. -/
def ClearsExactly (m : Mem) (index : ℕ) (size : UInt32) : Prop :=
  ∃ rounds m', bufferClearBitsWithin rounds m (userLayout.buffer + blockSize * index) size.toNat =
      some m' ∧
    (∀ b, userBit m' b = (userBit m b && !decide (Released m index size b))) ∧
    ∀ a < userLayout.bufferBitmap, m' a = m a

end CaptureHpc
