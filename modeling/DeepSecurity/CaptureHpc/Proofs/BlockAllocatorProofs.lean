import DeepSecurity.CaptureHpc.BlockAllocator
import DeepSecurity.CaptureHpc.Proofs.ClearBitsProofs
import DeepSecurity.CaptureHpc.Proofs.DeliveryProofs

/-!
# Proofs: the two sides do not agree on the bitmap

The client has its bitmap one word before that of the drivers, so that what it releases are the blocks
whose numbers are smaller by 32. The two agree as long as nothing is released.
-/

namespace CaptureHpc

open ByteMem Trace

variable {m : Mem} {i b n p size : ℕ}

/-! ## Setting bits -/

theorem testBit_of_same {m' : Mem} (h : Same m m' (24 + b / 8) 1) : testBit m' b = testBit m b := by
  have hbyte : m' (24 + b / 8) = m (24 + b / 8) := h _ le_rfl (by omega)
  show (m' (24 + b / 8)).toNat.testBit (b % 8) = (m (24 + b / 8)).toNat.testBit (b % 8)
  rw [hbyte]

theorem testBit_setBit : testBit (setBit m i) b = (testBit m b || decide (b = i)) := by
  by_cases hbyte : b / 8 = i / 8
  · -- the bit is in the byte that is written
    have hlt : (2 : ℕ) ^ (i % 8) < 2 ^ 8 := Nat.pow_lt_pow_right (by omega) (by omega)
    have hbit : decide (i % 8 = b % 8) = decide (b = i) := decide_eq_decide.mpr (by omega)
    show (writeBytes m (24 + i / 8) [m (24 + i / 8) ||| UInt8.ofNat (2 ^ (i % 8))]
      (24 + b / 8)).toNat.testBit (b % 8) = ((m (24 + b / 8)).toNat.testBit (b % 8) || _)
    rw [hbyte, writeBytes_singleton, UInt8.toNat_or, UInt8.toNat_ofNat', Nat.mod_eq_of_lt hlt,
      Nat.testBit_or, Nat.testBit_two_pow, hbit]
  · have hne : b ≠ i := by
      rintro rfl
      exact hbyte rfl
    rw [decide_eq_false hne, Bool.or_false]
    refine testBit_of_same (same_writeBytes ?_)
    show 24 + b / 8 + 1 ≤ 24 + i / 8 ∨ 24 + i / 8 + 1 ≤ 24 + b / 8
    omega

theorem testBit_setBits :
    testBit ((List.range' p n).foldl setBit m) b = (testBit m b || decide (p ≤ b ∧ b < p + n)) := by
  induction n generalizing p m with
  | zero => simp
  | succ n ih =>
    rw [List.range'_succ, List.foldl_cons, ih, testBit_setBit, Bool.or_assoc, ← Bool.decide_or]
    congr 1
    exact decide_eq_decide.mpr (by omega)

/-- `ReserveSpace` sets the bits of the reservation, which were clear. -/
theorem reserveSpace_bits {rtl : RtlFindClearBits} {offset : ℕ} {m' : Mem}
    (h : reserveSpace rtl m size = some (offset, m')) :
    ∃ position, offset = 4120 + 16 * position ∧ position + blocksFor size ≤ 32768 ∧
      (∀ b, position ≤ b → b < position + blocksFor size → testBit m b = false) ∧
      ∀ b, testBit m' b =
        (testBit m b || decide (position ≤ b ∧ b < position + blocksFor size)) := by
  obtain ⟨position, hoffset, hinside, hclear, rfl⟩ := exists_position_of_reserveSpace h
  refine ⟨position, hoffset, hinside, hclear, fun b => ?_⟩
  rw [← testBit_setBits]
  refine testBit_of_same (same_write32 ?_)
  show _ ∨ 20 + 4 ≤ 24 + b / 8
  omega

/-! ## Clearing bits -/

/-- The bit of the drivers with the number `b` is the one of the client with the number `b + 32`. -/
theorem testBit_eq_userBit : testBit m b = userBit m (b + 32) := by
  show (m (24 + b / 8)).toNat.testBit (b % 8) = (m (20 + (b + 32) / 8)).toNat.testBit ((b + 32) % 8)
  rw [show 20 + (b + 32) / 8 = 24 + b / 8 by omega, show (b + 32) % 8 = b % 8 by omega]

/-- What `BufferClearBits` does not release. -/
theorem testBit_bufferClearBits (hp : p < 2 ^ 27)
    (hb : ¬ (p ≤ b + 32 ∧ b + 32 < p + blocksFor size)) :
    testBit (bufferClearBits m (4120 + 16 * p) size) b = testBit m b := by
  have hindex : (4120 + 16 * p + 2 ^ 32 - userLayout.buffer) % 2 ^ 32 / blockSize = p := by
    show (4120 + 16 * p + 2 ^ 32 - 4116) % 2 ^ 32 / 16 = p
    omega
  rw [testBit_eq_userBit, testBit_eq_userBit, userBit_bufferClearBits hindex,
    decide_eq_false (by omega), Bool.not_false, Bool.and_true]

namespace BlockAllocator

variable {rtl : RtlFindClearBits} {s : BlockAllocator} {r : Reservation}

/-- The reservation lies in the buffer, with as many blocks as `ReserveSpace` has marked for it. -/
def Inside (r : Reservation) : Prop :=
  ∃ position, r.offset = 4120 + 16 * position ∧ position + blocksFor r.size.toNat ≤ 32768 ∧
    r.blocks = List.range' position (blocksFor r.size.toNat)

theorem inside_of_offset {position : ℕ} (hoffset : r.offset = 4120 + 16 * position)
    (hinside : position + blocksFor r.size.toNat ≤ 32768) (hsize : r.size.toNat + 15 < 2 ^ 32) :
    Inside r := by
  refine ⟨position, hoffset, hinside, ?_⟩
  have hposition : (r.offset - kernelLayout.buffer) / blockSize = position := by
    show (r.offset - 4120) / 16 = position
    omega
  have hblocks : (r.size.toNat + (blockSize - 1)) / blockSize = blocksFor r.size.toNat := by
    unfold blocksFor
    rw [Nat.mod_eq_of_lt (by exact hsize)]
  rw [Reservation.blocks, hposition, hblocks]

/-- The two sides agree, and the reservations are in the buffer. -/
structure Inv (s : BlockAllocator) : Prop where
  agrees : Agrees s
  inside : ∀ r ∈ s.live, Inside r

theorem inv_initialise : Inv initialise := by
  refine ⟨⟨fun b => ?_, List.Pairwise.nil⟩, by simp [initialise]⟩
  refine iff_of_false ?_ (by simp [initialise])
  rintro ⟨-, hbit⟩
  have hclear : testBit initialise.mem b = testBit (fun _ => 0) b := by
    refine testBit_of_same (same_write32 ?_)
    show _ ∨ 8 + 4 ≤ 24 + b / 8
    omega
  rw [hclear] at hbit
  simp [testBit] at hbit

theorem mem_blocks {position : ℕ} (hblocks : r.blocks = List.range' position (blocksFor r.size.toNat)) :
    b ∈ r.blocks ↔ position ≤ b ∧ b < position + blocksFor r.size.toNat := by
  rw [hblocks, List.mem_range'_1]

theorem Inv.reserve (hinv : Inv s) {size : UInt32} (hsize : size.toNat + 15 < 2 ^ 32) :
    Inv (s.reserve rtl size) := by
  unfold BlockAllocator.reserve
  rcases hreserve : reserveSpace rtl s.mem size.toNat with _ | ⟨offset, mem⟩
  · exact hinv
  obtain ⟨position, hoffset, hinside, hclear, hbits⟩ := reserveSpace_bits hreserve
  have hnew : Inside ⟨offset, size⟩ := inside_of_offset hoffset hinside hsize
  obtain ⟨position', hoffset', -, hblocks⟩ := hnew
  obtain rfl : position = position' := by
    have : offset = 4120 + 16 * position' := hoffset'
    omega
  have hcount : bufferBitmapSize * 32 = 32768 := rfl
  have hold := hinv.agrees.bits
  rw [hcount] at hold
  refine ⟨⟨fun b => ?_, ?_⟩, ?_⟩
  · show b < 32768 ∧ testBit mem b = true ↔ ∃ r ∈ s.live ++ [⟨offset, size⟩], b ∈ r.blocks
    have hnew := mem_blocks (b := b) hblocks
    simp only at hnew
    rw [hbits, Bool.or_eq_true, decide_eq_true_eq, and_or_left, hold b]
    simp only [List.mem_append, List.mem_singleton, or_and_right, exists_or, exists_eq_left, hnew]
    exact or_congr_right (and_iff_right_of_imp fun h => by omega)
  · refine List.pairwise_append.mpr ⟨hinv.agrees.apart, List.pairwise_singleton _ _, ?_⟩
    intro r hr r' hr' b hb hb'
    rw [List.mem_singleton.mp hr', mem_blocks hblocks] at hb'
    have hset := ((hold b).mpr ⟨r, hr, hb⟩).2
    rw [hclear b hb'.1 hb'.2] at hset
    exact absurd hset (by decide)
  · intro r hr
    rcases List.mem_append.mp hr with hr | hr
    · exact hinv.inside r hr
    · rw [List.mem_singleton.mp hr]
      exact ⟨position, hoffset, hinside, hblocks⟩

theorem Inv.release (hinv : Inv s) (hsize : r ∈ s.live → r.size = 0) : Inv (s.release r) := by
  unfold BlockAllocator.release
  by_cases hr : r ∈ s.live
  · rw [if_pos hr]
    -- the client finds that there is nothing to do
    have hempty : r.blocks = [] := by
      rw [Reservation.blocks, hsize hr]
      rfl
    have hmem : bufferClearBits s.mem r.offset r.size.toNat = s.mem := by
      rw [hsize hr]
      exact congrArg (Option.getD · s.mem) (if_pos (Or.inr rfl))
    refine ⟨⟨fun b => ?_, ?_⟩, fun r' hr' => hinv.inside r' (List.mem_of_mem_erase hr')⟩
    · rw [hmem, hinv.agrees.bits b]
      constructor
      · rintro ⟨r', hr', hb⟩
        have hne : r' ≠ r := by
          rintro rfl
          rw [hempty] at hb
          exact List.not_mem_nil hb
        exact ⟨r', (List.mem_erase_of_ne hne).mpr hr', hb⟩
      · rintro ⟨r', hr', hb⟩
        exact ⟨r', List.mem_of_mem_erase hr', hb⟩
    · exact hinv.agrees.apart.sublist List.erase_sublist
  · rw [if_neg hr]
    exact hinv

/-! ## Calls after which the two sides do not agree -/

/-- The size has been rounded up to a small one, and more has been handed out than is there. -/
theorem not_agrees_reserve {size : UInt32} (hsize : ¬ size.toNat + 15 < 2 ^ 32)
    (hfind : rtl.find (testBit s.mem) (blocksFor size.toNat)
      (read32 s.mem kernelLayout.bitmapHintIndex) ≠ none) : ¬ Agrees (s.reserve rtl size) := by
  intro h
  obtain ⟨position, hposition⟩ := Option.ne_none_iff_exists'.mp hfind
  obtain ⟨offset, mem, hreserve⟩ : ∃ offset mem,
      reserveSpace rtl s.mem size.toNat = some (offset, mem) := by
    simp [reserveSpace, hposition]
  have hlive : (s.reserve rtl size).live = s.live ++ [⟨offset, size⟩] := by
    unfold BlockAllocator.reserve
    rw [hreserve]
  have hblock : (offset - 4120) / 16 + 32768 ∈ Reservation.blocks ⟨offset, size⟩ := by
    show _ ∈ List.range' ((offset - 4120) / 16) ((size.toNat + 15) / 16)
    rw [List.mem_range'_1]
    omega
  have hlt : (offset - 4120) / 16 + 32768 < 32768 :=
    ((h.bits _).mpr ⟨_, by rw [hlive]; simp, hblock⟩).1
  omega

/-- The last block of the reservation is still marked. -/
theorem Inv.not_agrees_release (hinv : Inv s) (hr : r ∈ s.live) (hsize : r.size ≠ 0) :
    ¬ Agrees (s.release r) := by
  intro h
  unfold BlockAllocator.release at h
  rw [if_pos hr] at h
  obtain ⟨position, hoffset, hinside, hblocks⟩ := hinv.inside r hr
  have hpos : 0 < blocksFor r.size.toNat := by
    have hlen : (r.size.toNat + 15) / 16 = blocksFor r.size.toNat := by
      simpa [Reservation.blocks, blockSize] using congrArg List.length hblocks
    have hne : r.size.toNat ≠ 0 := fun hz => hsize (UInt32.toNat_inj.mp hz)
    omega
  have hlast : position + blocksFor r.size.toNat - 1 ∈ r.blocks := by
    rw [mem_blocks hblocks]
    omega
  obtain ⟨hlt, hset⟩ := (hinv.agrees.bits _).mpr ⟨r, hr, hlast⟩
  have hkept : testBit (bufferClearBits s.mem r.offset r.size.toNat)
      (position + blocksFor r.size.toNat - 1) = true := by
    rw [hoffset, testBit_bufferClearBits (by omega) (by omega)]
    exact hset
  obtain ⟨r', hr', hb'⟩ := (h.bits _).mp ⟨hlt, hkept⟩
  -- but it belongs to no other reservation
  have hapart := ((List.perm_cons_erase hr).pairwise_iff fun h => h.symm).mp hinv.agrees.apart
  exact (List.pairwise_cons.mp hapart).1 r' hr' hlast hb'

theorem run_snoc {calls : List Call} {c : Call} :
    run rtl (calls ++ [c]) = (run rtl calls).step rtl c := by
  simp [run]

/-- The bitmap of the drivers has the blocks of the live reservations after every call of a run exactly
if no call of the run releases a block, and none finds space for a size that is rounded up to `0`. -/
theorem agrees_iff_kept (rtl : RtlFindClearBits) (calls : List Call) :
    Always (fun pre => Agrees (run rtl pre)) calls ↔
      EachStep (fun pre c => (run rtl pre).Kept rtl c) calls := by
  refine always_iff_eachStep (I := fun pre => Inv (run rtl pre)) inv_initialise ?_
    (fun pre h => h.agrees) ?_ calls
  · intro pre c hinv hkept
    rw [run_snoc]
    cases c with
    | reserveSpace size =>
      rcases hkept with hsize | hnone
      · exact hinv.reserve hsize
      · have hsame : (run rtl pre).step rtl (.reserveSpace size) = run rtl pre := by
          have : reserveSpace rtl (run rtl pre).mem size.toNat = none := by
            simp [reserveSpace, hnone]
          show BlockAllocator.reserve rtl (run rtl pre) size = run rtl pre
          unfold BlockAllocator.reserve
          rw [this]
        rw [hsame]
        exact hinv
    | bufferClearBits r => exact hinv.release hkept
  · intro pre c hinv hbad
    rw [run_snoc]
    cases c with
    | reserveSpace size =>
      obtain ⟨hsize, hfind⟩ := not_or.mp hbad
      exact not_agrees_reserve hsize hfind
    | bufferClearBits r =>
      obtain ⟨hr, hsize⟩ := Classical.not_imp.mp hbad
      exact hinv.not_agrees_release hr hsize

/-- Two reservations, and the release of an empty one. -/
theorem agrees_two_reservations :
    Always (fun pre => Agrees (run SharedEventList.firstFit pre))
      [.reserveSpace 20, .reserveSpace 0, .bufferClearBits ⟨4120, 0⟩, .reserveSpace 40] :=
  (agrees_iff_kept _ _).mpr (by decide)

/-- After its release, the first block is still marked. -/
theorem not_agrees_released :
    ¬ Agrees (run SharedEventList.firstFit [.reserveSpace 20, .bufferClearBits ⟨4120, 20⟩]) := by
  intro h
  obtain ⟨r, hr, -⟩ := (h.bits 0).mp (by decide)
  have hnone :
      (run SharedEventList.firstFit [.reserveSpace 20, .bufferClearBits ⟨4120, 20⟩]).live = [] := by
    decide
  rw [hnone] at hr
  exact List.not_mem_nil hr

end BlockAllocator

end CaptureHpc
