import DeepSecurity.CaptureHpc.ClearBits

/-!
# Proofs: what `BufferClearBits` clears

One round of the loop clears the bits of one byte, from the position where the round before has stopped.
-/

namespace CaptureHpc

open ByteMem

variable {m m' : Mem} {b index : ℕ}

/-! ## One round -/

/-- What one round leaves of the byte: all bits but `count` many from `shift` on. -/
theorem testBit_mask : ∀ shift < 8, ∀ count < 9, shift + count ≤ 8 → ∀ k < 8,
    ((~~~(~~~(0xFF <<< UInt32.ofNat count) <<< UInt32.ofNat shift) : UInt32).toUInt8.toNat.testBit k) =
      !decide (shift ≤ k ∧ k < shift + count) := by
  decide +kernel

theorem writeBytes_singleton {i : ℕ} {v : UInt8} : writeBytes m i [v] i = v := by
  simp [writeBytes]

theorem userBit_of_same (h : Same m m' (userLayout.bufferBitmap + b / 8) 1) :
    userBit m' b = userBit m b := by
  have hbyte := h _ le_rfl (Nat.lt_succ_self _)
  rw [userBit, userBit, hbyte]

/-- The byte of the bit `index` loses `count` many bits from there on. -/
theorem userBit_round {count : ℕ} (hcount : index % 8 + count ≤ 8) :
    userBit (writeBytes m (userLayout.bufferBitmap + index / 8)
        [m (userLayout.bufferBitmap + index / 8) &&&
          (~~~(~~~(0xFF <<< UInt32.ofNat count) <<< UInt32.ofNat (index % 8)) : UInt32).toUInt8]) b =
      (userBit m b && !decide (index ≤ b ∧ b < index + count)) := by
  by_cases hbyte : b / 8 = index / 8
  · have hmask := testBit_mask (index % 8) (by omega) count (by omega) hcount (b % 8) (by omega)
    have hrange : decide (index % 8 ≤ b % 8 ∧ b % 8 < index % 8 + count) =
        decide (index ≤ b ∧ b < index + count) := decide_eq_decide.mpr (by omega)
    rw [userBit, userBit, hbyte, writeBytes_singleton, UInt8.toNat_and, Nat.testBit_and, hmask, hrange]
  · -- a byte that the round does not touch has none of the bits
    have hout : decide (index ≤ b ∧ b < index + count) = false := decide_eq_false (by omega)
    rw [hout, Bool.not_false, Bool.and_true]
    refine userBit_of_same (same_writeBytes ?_)
    simp only [List.length_singleton]
    omega

/-! ## The loop -/

/-- How many bits a round clears. -/
theorem count_spec (index : ℕ) {bits : ℕ} (hbits : bits ≠ 0) :
    ∃ count, (if 8 - index % 8 < bits then 8 - index % 8 else bits) = count ∧ 0 < count ∧
      count ≤ bits ∧ index % 8 + count ≤ 8 ∧ (bits - count ≠ 0 → index % 8 + count = 8) := by
  refine ⟨_, rfl, ?_⟩
  split_ifs <;> omega

theorem userBit_clearBitsLoop {rounds position bits : ℕ}
    (h : clearBitsLoop m rounds position index bits = some m')
    (hposition : bits ≠ 0 → position = userLayout.bufferBitmap + index / 8) :
    userBit m' b = (userBit m b && !decide (index ≤ b ∧ b < index + bits)) := by
  have hempty : bits = 0 → userBit m b = (userBit m b && !decide (index ≤ b ∧ b < index + bits)) := by
    intro hzero
    rw [decide_eq_false (by omega), Bool.not_false, Bool.and_true]
  -- the rounds clear adjacent ranges of bits
  induction rounds generalizing m position index bits with
  | zero =>
    rw [clearBitsLoop] at h
    split_ifs at h with hzero
    obtain rfl := Option.some.inj h
    exact hempty hzero
  | succ rounds ih =>
    unfold clearBitsLoop at h
    split_ifs at h with hzero
    · obtain rfl := Option.some.inj h
      exact hempty hzero
    obtain ⟨count, hcount, hpos, hle, hbyte, hnext⟩ := count_spec index hzero
    simp only [hcount, hposition hzero] at h
    rw [ih h (fun hne => by have := hnext hne; omega) (fun hzero => ?_), userBit_round hbyte,
      Bool.and_assoc, ← Bool.not_or, ← Bool.decide_or]
    · congr 2
      exact decide_eq_decide.mpr (by omega)
    · rw [decide_eq_false (by omega), Bool.not_false, Bool.and_true]

/-- The loop stays behind the fields before the bitmap. -/
theorem clearBitsLoop_of_lt {rounds position bits a : ℕ}
    (h : clearBitsLoop m rounds position index bits = some m') (ha : a < position) : m' a = m a := by
  induction rounds generalizing m position index bits with
  | zero =>
    rw [clearBitsLoop] at h
    split_ifs at h
    obtain rfl := Option.some.inj h
    rfl
  | succ rounds ih =>
    unfold clearBitsLoop at h
    split_ifs at h with hzero
    · obtain rfl := Option.some.inj h
      rfl
    rw [ih h (by omega)]
    exact same_writeBytes (n := 1) (Or.inl (by omega)) a le_rfl (by omega)

/-- Every round clears at least one bit, so that the loop comes to an end. -/
theorem exists_clearBitsLoop (m : Mem) {rounds position bits : ℕ} (hrounds : bits ≤ rounds) :
    ∃ m', clearBitsLoop m rounds position index bits = some m' := by
  induction rounds generalizing m position index bits with
  | zero => exact ⟨m, by rw [clearBitsLoop, if_pos (by omega)]⟩
  | succ rounds ih =>
    unfold clearBitsLoop
    split_ifs with hzero
    · exact ⟨m, rfl⟩
    obtain ⟨count, hcount, hpos, hle, -, -⟩ := count_spec index hzero
    simp only [hcount]
    exact ih _ (by omega)

/-! ## The call -/

/-- The number of the block that a pointer into the buffer of the client points to. -/
theorem index_eq (hindex : index < 2 ^ 27) :
    (userLayout.buffer + blockSize * index + 2 ^ 32 - userLayout.buffer) % 2 ^ 32 / blockSize =
      index := by
  show (4116 + 16 * index + 2 ^ 32 - 4116) % 2 ^ 32 / 16 = index
  omega

/-- The bits that the call clears are those of as many blocks as `ALIGN_UP` makes of the size. -/
theorem userBit_bufferClearBitsWithin {rounds data size : ℕ}
    (hindex : (data + 2 ^ 32 - userLayout.buffer) % 2 ^ 32 / blockSize = index)
    (h : bufferClearBitsWithin rounds m data size = some m') :
    userBit m' b =
      (userBit m b &&
        !decide (index ≤ b ∧ b < min (index + blocksFor size) (read32 m sizeOfBitMap))) := by
  unfold bufferClearBitsWithin at h
  simp only [hindex] at h
  split_ifs at h with hout hmore
  · obtain rfl := Option.some.inj h
    rw [decide_eq_false (by omega), Bool.not_false, Bool.and_true]
  · rw [userBit_clearBitsLoop h fun _ => rfl]
    congr 2
    exact decide_eq_decide.mpr (by omega)
  · rw [userBit_clearBitsLoop h fun _ => rfl]
    congr 2
    exact decide_eq_decide.mpr (by omega)

theorem bufferClearBitsWithin_of_lt {rounds data size a : ℕ}
    (h : bufferClearBitsWithin rounds m data size = some m') (ha : a < userLayout.bufferBitmap) :
    m' a = m a := by
  unfold bufferClearBitsWithin at h
  dsimp only at h
  split_ifs at h
  · obtain rfl := Option.some.inj h
    rfl
  all_goals exact clearBitsLoop_of_lt h (ha.trans_le (Nat.le_add_right _ _))

/-- The rounds of `bufferClearBits` are enough. -/
theorem bufferClearBitsWithin_eq (m : Mem) (data size : ℕ) :
    bufferClearBitsWithin (blocksFor size) m data size = some (bufferClearBits m data size) := by
  have hsome : ∃ m', bufferClearBitsWithin (blocksFor size) m data size = some m' := by
    unfold bufferClearBitsWithin
    dsimp only
    split_ifs with hout hmore
    · exact ⟨m, rfl⟩
    · exact exists_clearBitsLoop m (by omega)
    · exact exists_clearBitsLoop m le_rfl
  obtain ⟨m', hm'⟩ := hsome
  rw [bufferClearBits, hm']
  rfl

theorem userBit_bufferClearBits {data : ℕ}
    (hindex : (data + 2 ^ 32 - userLayout.buffer) % 2 ^ 32 / blockSize = index) (size : ℕ) :
    userBit (bufferClearBits m data size) b =
      (userBit m b &&
        !decide (index ≤ b ∧ b < min (index + blocksFor size) (read32 m sizeOfBitMap))) :=
  userBit_bufferClearBitsWithin hindex (bufferClearBitsWithin_eq m data size)

/-! ## What is released -/

theorem blocksFor_of_lt {size : ℕ} (hsize : size + 15 < 2 ^ 32) : blocksFor size = (size + 15) / 16 := by
  show (size + 15) % 2 ^ 32 / 16 = (size + 15) / 16
  rw [Nat.mod_eq_of_lt hsize]

/-- `ALIGN_UP` cannot round up the largest sizes, and asks for no block at all. -/
theorem blocksFor_of_ge {size : UInt32} (hsize : 2 ^ 32 ≤ size.toNat + 15) :
    blocksFor size.toNat = 0 := by
  have hlt := size.toNat_lt
  show (size.toNat + 15) % 2 ^ 32 / 16 = 0
  omega

/-- What remains to be shown are the bits. -/
theorem clearsExactly_iff_userBit (hindex : index < 2 ^ 27) (size : UInt32) :
    ClearsExactly m index size ↔
      ∀ b, (userBit m b && !decide (index ≤ b ∧
          b < min (index + blocksFor size.toNat) (read32 m sizeOfBitMap))) =
        (userBit m b && !decide (Released m index size b)) := by
  constructor
  · rintro ⟨rounds, m', hm', hbits, -⟩ b
    rw [← userBit_bufferClearBitsWithin (index_eq hindex) hm']
    exact hbits b
  · intro hbits
    have hm' := bufferClearBitsWithin_eq m (userLayout.buffer + blockSize * index) size.toNat
    refine ⟨_, _, hm', fun b => ?_, fun a ha => bufferClearBitsWithin_of_lt hm' ha⟩
    rw [userBit_bufferClearBits (index_eq hindex)]
    exact hbits b

/-- `BufferClearBits` clears the bits of the released blocks and no others, exactly if the size can be
rounded up to blocks, or if these bits are clear anyway. -/
theorem clearsExactly_iff (m : Mem) {index : ℕ} (hindex : index < bufferSize / blockSize)
    (size : UInt32) :
    ClearsExactly m index size ↔ size.toNat + (blockSize - 1) < 2 ^ 32 ∨
      ∀ b, Released m index size b → userBit m b = false := by
  have hindex' : index < 2 ^ 27 := hindex.trans (by decide)
  rw [clearsExactly_iff_userBit hindex']
  by_cases hsize : size.toNat + (blockSize - 1) < 2 ^ 32
  · -- as many blocks as the size needs
    refine iff_of_true (fun b => ?_) (Or.inl hsize)
    rw [blocksFor_of_lt hsize]
    rfl
  · -- no block at all
    have hzero := blocksFor_of_ge (not_lt.mp hsize)
    have hnone (b : ℕ) : decide (index ≤ b ∧ b < min (index + blocksFor size.toNat)
        (read32 m sizeOfBitMap)) = false := decide_eq_false (by omega)
    simp only [hnone, Bool.not_false, Bool.and_true, hsize, false_or]
    refine forall_congr' fun b => ?_
    by_cases hb : Released m index size b
    · simp [hb]
    · simp [hb]

/-- Two blocks, from the fourth one on, of eight that are marked. -/
theorem clearsExactly_two_blocks :
    3 < bufferSize / blockSize ∧
      (∀ b < 8, userBit (write32 (write32 (fun _ => 0) sizeOfBitMap 32768) userLayout.bufferBitmap 0xFF) b) ∧
      ClearsExactly (write32 (write32 (fun _ => 0) sizeOfBitMap 32768) userLayout.bufferBitmap 0xFF) 3 20 :=
  ⟨by decide, by decide, (clearsExactly_iff _ (by decide) 20).mpr (Or.inl (by decide))⟩

/-- The largest size releases nothing: the bit of the first block stays set. -/
theorem not_clearsExactly_largest : ¬ ClearsExactly
    (write32 (write32 (fun _ => 0) sizeOfBitMap 32768) userLayout.bufferBitmap 1) 0 0xFFFFFFFF := by
  rw [clearsExactly_iff_userBit (by decide)]
  intro h
  have hbit := h 0
  revert hbit
  decide

end CaptureHpc
