import Mathlib.Data.UInt

/-!
# 32-bit sequence numbers

Positions of a stream numbered modulo `2 ^ 32` from a start number. A position is recovered from its
number by subtracting the start number, as long as it is below `2 ^ 32`.
-/

namespace SeqNum

variable (start : UInt32) (off len : ℕ)

theorem toNat_add_ofNat : (start + UInt32.ofNat off).toNat = (start.toNat + off) % 2 ^ 32 := by
  simp

/-- The number after `len` positions from `off` on, added up without wrapping and then truncated. -/
theorem toNat_ofNat_end :
    (UInt32.ofNat ((start + UInt32.ofNat off).toNat + len)).toNat =
      (start.toNat + (off + len)) % 2 ^ 32 := by
  simp only [UInt32.toNat_ofNat', toNat_add_ofNat]
  omega

theorem toNat_add_ofNat_sub (h : off < 2 ^ 32) : (start + UInt32.ofNat off - start).toNat = off := by
  have := start.toNat_lt
  rw [UInt32.toNat_sub, toNat_add_ofNat]
  omega

theorem toNat_ofNat_end_sub (h : off + len < 2 ^ 32) :
    (UInt32.ofNat ((start + UInt32.ofNat off).toNat + len) - start).toNat = off + len := by
  have := start.toNat_lt
  rw [UInt32.toNat_sub, toNat_ofNat_end]
  omega

end SeqNum
