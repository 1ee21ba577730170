import DeepSecurity.Killerfinder.TcpSegBuf

/-!
# Proofs: `insertData` puts a stream together, up to the wrap-around

What one call of `insertData` does is said once (`insertData_grow`, `insertData_keep` and the two
cases in which it throws); the run theorem follows by induction over the arrival order.
-/

namespace Killerfinder

open Segment Trace

/-! ## One call of `insertData` -/

namespace CTcpSegBuf

variable {b : CTcpSegBuf} {seq : TcpSeq} {buf : Bytes}

/-- The end mark that a growing segment sets. -/
abbrev newEnd (seq : TcpSeq) (buf : Bytes) : TcpSeq := UInt32.ofNat (seq.toNat + buf.length)

/-- The buffer `b` with the end mark `mEnd` and the contents `base`, over which `buf` has been
written at position `pos`. -/
def written (b : CTcpSegBuf) (mEnd : TcpSeq) (base : Bytes) (pos : ℕ) (buf : Bytes) : CTcpSegBuf :=
  { b with mEnd, mBuf := base.take pos ++ buf ++ base.drop (pos + buf.length) }

theorem written_nil {mEnd : TcpSeq} {base : Bytes} {pos : ℕ} :
    b.written mEnd base pos [] = { b with mEnd, mBuf := base } := by
  simp [written]

theorem length_written {mEnd : TcpSeq} {base : Bytes} {pos : ℕ} (h : pos ≤ base.length) :
    (b.written mEnd base pos buf).mBuf.length = max base.length (pos + buf.length) :=
  CxxString.length_replaced h

theorem getElem?_written {mEnd : TcpSeq} {base : Bytes} {pos : ℕ} (h : pos ≤ base.length) (i : ℕ) :
    (b.written mEnd base pos buf).mBuf[i]? =
      if pos ≤ i ∧ i < pos + buf.length then buf[i - pos]? else base[i]? :=
  CxxString.getElem?_replaced h i

/-- An unset start mark is set to the number of the segment before anything else happens. -/
theorem insertData_rebase (h : b.mStart = 0) :
    b.insertData seq buf = { b with mStart := seq }.insertData seq buf := by
  by_cases hseq : seq = 0
  · subst hseq
    congr 1
    cases b
    simp_all
  · simp [insertData, h, hseq]

/-- A start mark that is set, or that would be set to `0` again, stays as it is. -/
theorem rebase_eq (hs : b.mStart ≠ 0 ∨ seq = 0) :
    (if b.mStart = 0 then { b with mStart := seq } else b) = b := by
  by_cases h0 : b.mStart = 0
  · have hseq : seq = 0 := hs.resolve_left (fun h => h h0)
    rw [if_pos h0, hseq, ← h0]
  · rw [if_neg h0]

section NoRebase

variable (hs : b.mStart ≠ 0 ∨ seq = 0)
include hs

/-- A segment that reaches beyond the end mark sets it anew and resizes the buffer to it. -/
theorem insertData_grow (hg : b.mEnd.toNat < seq.toNat + buf.length)
    (hpos : (seq - b.mStart).toNat ≤ (newEnd seq buf - b.mStart).toNat) :
    b.insertData seq buf = some (b.written (newEnd seq buf)
      (CxxString.resize 0 b.mBuf (newEnd seq buf - b.mStart).toNat) (seq - b.mStart).toNat buf) := by
  simp only [insertData, rebase_eq hs, hg, if_true]
  rw [CxxString.replace_of_le (by simpa using hpos)]
  rfl

theorem insertData_grow_none (hg : b.mEnd.toNat < seq.toNat + buf.length)
    (hpos : (newEnd seq buf - b.mStart).toNat < (seq - b.mStart).toNat) :
    b.insertData seq buf = none := by
  simp only [insertData, rebase_eq hs, hg, if_true]
  rw [CxxString.replace_eq_none.mpr (by simpa using hpos)]
  rfl

/-- Any other segment is written into the buffer as it is. -/
theorem insertData_keep (hg : ¬ b.mEnd.toNat < seq.toNat + buf.length)
    (hpos : (seq - b.mStart).toNat ≤ b.mBuf.length) :
    b.insertData seq buf = some (b.written b.mEnd b.mBuf (seq - b.mStart).toNat buf) := by
  simp only [insertData, rebase_eq hs, hg, if_false]
  rw [CxxString.replace_of_le hpos]
  rfl

theorem insertData_keep_none (hg : ¬ b.mEnd.toNat < seq.toNat + buf.length)
    (hpos : b.mBuf.length < (seq - b.mStart).toNat) : b.insertData seq buf = none := by
  simp only [insertData, rebase_eq hs, hg, if_false]
  rw [CxxString.replace_eq_none.mpr hpos]
  rfl

/-- An empty segment inside the buffer changes nothing. -/
theorem insertData_nil (hg : seq.toNat ≤ b.mEnd.toNat)
    (hpos : (seq - b.mStart).toNat ≤ b.mBuf.length) : b.insertData seq [] = some b := by
  rw [insertData_keep hs (by simpa using hg) hpos, written_nil]

end NoRebase

section Moved

variable (hs : b.mStart ≠ 0) (hlen : b.mBuf.length = b.mEnd.toNat) (hb : b.mEnd.toNat < 2 ^ 31)
  (hseq : seq.toNat + buf.length < 2 ^ 31)
include hs hlen hb hseq

/-- The number of a segment before the start mark is a position beyond the end of the buffer. -/
theorem insertData_before (hstart : b.mStart.toNat ≤ b.mEnd.toNat)
    (hbefore : seq.toNat < b.mStart.toNat) : b.insertData seq buf = none := by
  have hpos : (seq - b.mStart).toNat = 2 ^ 32 + seq.toNat - b.mStart.toNat := by
    rw [UInt32.toNat_sub]
    omega
  by_cases hg : b.mEnd.toNat < seq.toNat + buf.length
  · refine insertData_grow_none (Or.inl hs) hg ?_
    rw [hpos, UInt32.toNat_sub, newEnd, UInt32.toNat_ofNat']
    omega
  · exact insertData_keep_none (Or.inl hs) hg (by omega)

/-- A segment behind the start mark is written at its distance from it. -/
theorem insertData_behind (hbehind : b.mStart.toNat ≤ seq.toNat) :
    b.insertData seq buf = some (if b.mEnd.toNat < seq.toNat + buf.length then
        b.written (newEnd seq buf)
          (CxxString.resize 0 b.mBuf (seq.toNat + buf.length - b.mStart.toNat))
          (seq.toNat - b.mStart.toNat) buf
      else b.written b.mEnd b.mBuf (seq.toNat - b.mStart.toNat) buf) := by
  have hpos : (seq - b.mStart).toNat = seq.toNat - b.mStart.toNat := by
    rw [UInt32.toNat_sub]
    omega
  have hend : (newEnd seq buf - b.mStart).toNat = seq.toNat + buf.length - b.mStart.toNat := by
    rw [UInt32.toNat_sub, newEnd, UInt32.toNat_ofNat']
    omega
  by_cases hg : b.mEnd.toNat < seq.toNat + buf.length
  · rw [insertData_grow (Or.inl hs) hg (by omega), hpos, hend, if_pos hg]
  · rw [insertData_keep (Or.inl hs) hg (by omega), hpos, if_neg hg]

end Moved

end CTcpSegBuf

/-! ## Segments -/

namespace Segment

variable {n : ℕ} {S : Bytes} {pre : List (Segment n)} {g : Segment n} {i : ℕ}

theorem length_data (hS : S.length = n) : (g.data S).length = g.len := by
  have := g.le_length
  simp [data]
  omega

theorem getElem?_data (h1 : g.off ≤ i) (h2 : i < g.off + g.len) :
    (g.data S)[i - g.off]? = S[i]? := by
  rw [data, List.getElem?_take_of_lt (by omega), List.getElem?_drop]
  congr 1
  omega

@[simp]
theorem top_nil : top ([] : List (Segment n)) = 0 := rfl

@[simp]
theorem top_snoc : top (pre ++ [g]) = max (top pre) (g.off + g.len) := by
  simp [top]

theorem top_le : top pre ≤ n := by
  induction pre using List.reverseRecOn with
  | nil => simp
  | append_singleton pre g ih =>
    have := g.le_length
    rw [top_snoc]
    omega

theorem firstInside_snoc :
    firstInside (pre ++ [g]) = if firstInside pre = 0 then g.off else firstInside pre := by
  unfold firstInside
  rw [List.find?_append]
  cases h : pre.find? (fun g => g.off ≠ 0) with
  | none =>
    by_cases hg : g.off = 0
    · simp [hg]
    · simp [hg]
  | some g' =>
    have : g'.off ≠ 0 := by simpa using List.find?_some h
    simp [this]

theorem firstInside_le_top : firstInside pre ≤ top pre := by
  induction pre using List.reverseRecOn with
  | nil => simp [firstInside]
  | append_singleton pre g ih =>
    rw [firstInside_snoc, top_snoc]
    split <;> omega

theorem covered_nil : ¬ Covered ([] : List (Segment n)) i := by simp [Covered]

theorem covered_snoc :
    Covered (pre ++ [g]) i ↔ Covered pre i ∨ (g.off ≤ i ∧ i < g.off + g.len) := by
  simp [Covered, or_and_right, exists_or]

theorem lt_top_of_covered (h : Covered pre i) : i < top pre := by
  induction pre using List.reverseRecOn with
  | nil => exact absurd h covered_nil
  | append_singleton pre g ih =>
    rw [top_snoc]
    rcases covered_snoc.mp h with h | h
    · have := ih h
      omega
    · omega

end Segment

/-! ## The run -/

section Insert

variable {n : ℕ} {S : Bytes} {s start : TcpSeq} {pre : List (Segment n)} {g : Segment n}
  {b : CTcpSegBuf}

/-- The offset of the stream at which the buffer begins. -/
def origin (start : TcpSeq) (pre : List (Segment n)) : ℕ := if start = 0 then firstInside pre else 0

/-- The start mark after the next segment: an unset one moves to it. -/
theorem insertData_origin (hst : b.mStart.toNat = start.toNat + origin start pre)
    (hoff : start = 0 → g.off < 2 ^ 32) (buf : Bytes) :
    ∃ mStart : TcpSeq, mStart.toNat = start.toNat + origin start (pre ++ [g]) ∧
      (mStart ≠ 0 ∨ start + UInt32.ofNat g.off = 0) ∧
      b.insertData (start + UInt32.ofNat g.off) buf =
        { b with mStart }.insertData (start + UInt32.ofNat g.off) buf := by
  have hseq := SeqNum.toNat_add_ofNat start g.off
  by_cases h0 : start = 0
  · have hz : start.toNat = 0 := by rw [h0]; rfl
    have hlt := hoff h0
    rw [origin, if_pos h0] at hst
    rw [origin, if_pos h0, firstInside_snoc]
    by_cases hf : firstInside pre = 0
    · have hb0 : b.mStart = 0 := UInt32.toNat_inj.mp (by rw [hst, hf, hz]; rfl)
      refine ⟨start + UInt32.ofNat g.off, ?_, (em _).symm, CTcpSegBuf.insertData_rebase hb0⟩
      rw [if_pos hf]
      omega
    · refine ⟨b.mStart, by rw [if_neg hf, hst], Or.inl ?_, rfl⟩
      intro hb0
      rw [hb0] at hst
      simp at hst
      omega
  · rw [origin, if_neg h0] at hst ⊢
    refine ⟨b.mStart, hst, Or.inl ?_, rfl⟩
    intro hb0
    exact h0 (UInt32.toNat_inj.mp (by rw [← hb0, hst]; simp))

/-- The part of the rule about the wrap-around also holds for the start number `0`. -/
theorem WrapSafe.wrap (h : WrapSafe start pre g) (hn : n < 2 ^ 31) (hpre : pre ≠ []) :
    (start.toNat + top pre < 2 ^ 32 → start.toNat + g.off < 2 ^ 32) ∧
    (2 ^ 32 ≤ start.toNat + top pre → start.toNat + g.off < 2 ^ 32 → top pre ≤ g.off + g.len) := by
  have htop : top pre ≤ n := top_le
  have hle := g.le_length
  by_cases h0 : start = 0
  · subst h0
    simp
    omega
  · rwa [WrapSafe, if_neg h0, if_neg hpre] at h

/-- A segment that moves the start mark is empty and lies inside of what has arrived. -/
theorem WrapSafe.inside (h : WrapSafe start pre g) (ho : origin start (pre ++ [g]) ≠ 0) :
    start = 0 ∧ g.len = 0 ∧ origin start (pre ++ [g]) ≤ g.off ∧ g.off ≤ top pre := by
  by_cases h0 : start = 0
  swap
  · simp [origin, h0] at ho
  rw [WrapSafe, if_pos h0] at h
  rw [origin, if_pos h0, firstInside_snoc] at ho ⊢
  rcases h with ⟨hfirst, hoff⟩ | ⟨hlen, hfirst, htop⟩
  · simp [hfirst, hoff] at ho
  · refine ⟨h0, hlen, ?_, htop⟩
    split
    · exact le_rfl
    · exact hfirst

/-- The buffer after the segments `pre` of a stream with start number `start`. -/
structure Joined (S : Bytes) (start : TcpSeq) (pre : List (Segment n)) (b : CTcpSegBuf) : Prop where
  start_eq : b.mStart.toNat = start.toNat + origin start pre
  end_nil : pre = [] → b.mEnd = 0
  end_eq : pre ≠ [] → b.mEnd.toNat = (start.toNat + top pre) % 2 ^ 32
  length_eq : b.mBuf.length = top pre
  bytes : ∀ i, Covered pre i → b.mBuf[i]? = S[i]?

/-- With the start number `0` the end mark is the end of what has arrived. -/
theorem Joined.end_of_zero (h : Joined S start pre b) (h0 : start = 0) (hn : n < 2 ^ 31) :
    b.mEnd.toNat = top pre := by
  have hz : start.toNat = 0 := by rw [h0]; rfl
  have htop : top pre ≤ n := top_le
  by_cases hpre : pre = []
  · rw [h.end_nil hpre, hpre]
    rfl
  · rw [h.end_eq hpre]
    omega

/-- As long as the buffer begins with the stream, the start mark is the start number. -/
theorem Joined.start_of_origin (h : Joined S start pre b) (ho : origin start (pre ++ [g]) = 0) :
    b.mStart = start ∧ (b.mStart ≠ 0 ∨ start + UInt32.ofNat g.off = 0) := by
  have hst := h.start_eq
  by_cases h0 : start = 0
  · rw [origin, if_pos h0, firstInside_snoc] at ho
    rw [origin, if_pos h0] at hst
    split at ho
    next hfirst =>
      have hb : b.mStart = start := UInt32.toNat_inj.mp (by rw [hst, hfirst, Nat.add_zero])
      exact ⟨hb, Or.inr (by rw [h0, ho]; rfl)⟩
    next hfirst => exact absurd ho hfirst
  · rw [origin, if_neg h0] at hst
    have hb : b.mStart = start := UInt32.toNat_inj.mp hst
    exact ⟨hb, Or.inl (hb ▸ h0)⟩

/-- Writing a segment over contents that reach to the end of all segments and hold the bytes of the
earlier ones. -/
theorem Joined.written (h : Joined S start pre b) (hS : S.length = n) {mEnd : TcpSeq} {base : Bytes}
    (ho : origin start (pre ++ [g]) = 0)
    (hend : mEnd.toNat = (start.toNat + top (pre ++ [g])) % 2 ^ 32)
    (hlen : base.length = top (pre ++ [g]))
    (hbase : ∀ i, i < top pre → base[i]? = b.mBuf[i]?) :
    Joined S start (pre ++ [g]) (b.written mEnd base g.off (g.data S)) := by
  have htop : top (pre ++ [g]) = max (top pre) (g.off + g.len) := top_snoc
  have hpos : g.off ≤ base.length := by omega
  refine ⟨?_, by simp, fun _ => hend, ?_, ?_⟩
  · rw [CTcpSegBuf.written, (h.start_of_origin ho).1, ho, Nat.add_zero]
  · rw [CTcpSegBuf.length_written hpos, length_data hS]
    omega
  · intro i hi
    rw [CTcpSegBuf.getElem?_written hpos, length_data hS]
    by_cases hg : g.off ≤ i ∧ i < g.off + g.len
    · rw [if_pos hg, getElem?_data hg.1 hg.2]
    · have hi' : Covered pre i := (covered_snoc.mp hi).resolve_right hg
      rw [if_neg hg, hbase i (lt_top_of_covered hi'), h.bytes i hi']

/-- A segment that keeps the rule and does not move the start mark is put in its place. -/
theorem Joined.step_origin (h : Joined S start pre b) (hS : S.length = n) (hn : n < 2 ^ 31)
    (hsafe : WrapSafe start pre g) (ho : origin start (pre ++ [g]) = 0) :
    ∃ b', b.insertData (start + UInt32.ofNat g.off) (g.data S) = some b' ∧
      Joined S start (pre ++ [g]) b' := by
  have hB := start.toNat_lt
  have hle := g.le_length
  have htop : top pre ≤ n := top_le
  obtain ⟨hst, hs⟩ := h.start_of_origin ho
  have hseq := SeqNum.toNat_add_ofNat start g.off
  have hoff := SeqNum.toNat_add_ofNat_sub start g.off (by omega)
  have hend := SeqNum.toNat_ofNat_end start g.off g.len
  have hend_sub := SeqNum.toNat_ofNat_end_sub start g.off g.len (by omega)
  have hlen := length_data (g := g) hS
  by_cases hg : b.mEnd.toNat < (start + UInt32.ofNat g.off).toNat + (g.data S).length
  · -- the segment moves the end mark; it does not move it back
    have hmax : top pre ≤ g.off + g.len := by
      by_cases hpre : pre = []
      · simp [hpre]
      · have := hsafe.wrap hn hpre
        have := h.end_eq hpre
        omega
    refine ⟨_, CTcpSegBuf.insertData_grow hs hg ?_, ?_⟩
    · rw [hst, CTcpSegBuf.newEnd, hlen, hoff, hend_sub]
      omega
    · rw [hst, CTcpSegBuf.newEnd, hlen, hoff, hend_sub]
      refine h.written hS ho ?_ ?_ ?_
      · rw [hend, top_snoc, max_eq_right hmax]
      · rw [CxxString.length_resize, top_snoc, max_eq_right hmax]
      · intro i hi
        exact CxxString.getElem?_resize_of_lt _ (by omega) (by rw [h.length_eq]; exact hi)
  · -- the segment ends at or before the end mark
    have hmax : b.mEnd.toNat = (start.toNat + top pre) % 2 ^ 32 ∧ g.off + g.len ≤ top pre := by
      by_cases hpre : pre = []
      · have hend0 : b.mEnd.toNat = 0 := by rw [h.end_nil hpre]; rfl
        have htop0 : top pre = 0 := by rw [hpre]; rfl
        -- the segment is empty and its number is `0`: it is at the start, as it is not at the wrap
        have hz : start.toNat = 0 := by
          by_contra hz
          rw [WrapSafe, if_neg fun h0 => hz (by rw [h0]; rfl), if_pos hpre] at hsafe
          omega
        omega
      · have := hsafe.wrap hn hpre
        have := h.end_eq hpre
        omega
    refine ⟨_, CTcpSegBuf.insertData_keep hs hg ?_, ?_⟩
    · rw [hst, hoff, h.length_eq]
      omega
    · rw [hst, hoff]
      refine h.written hS ho ?_ ?_ (fun _ _ => rfl)
      · rw [hmax.1, top_snoc, max_eq_left hmax.2]
      · rw [h.length_eq, top_snoc, max_eq_left hmax.2]

/-- A segment that keeps the rule is put in its place. -/
theorem Joined.step (h : Joined S start pre b) (hS : S.length = n) (hn : n < 2 ^ 31)
    (hsafe : WrapSafe start pre g) :
    ∃ b', b.insertData (start + UInt32.ofNat g.off) (g.data S) = some b' ∧
      Joined S start (pre ++ [g]) b' := by
  by_cases ho : origin start (pre ++ [g]) = 0
  · exact h.step_origin hS hn hsafe ho
  -- nothing is written, the start mark is moved at most
  obtain ⟨h0, hlen, hle, htop⟩ := hsafe.inside ho
  have hbound : top pre ≤ n := top_le
  obtain ⟨mStart, hst, hs, hins⟩ := insertData_origin (g := g) h.start_eq (fun _ => by omega) (g.data S)
  have hdata : g.data S = [] := List.length_eq_zero_iff.mp ((length_data hS).trans hlen)
  have hz : start.toNat = 0 := by rw [h0]; rfl
  have hseq : (start + UInt32.ofNat g.off).toNat = g.off := by
    rw [SeqNum.toNat_add_ofNat]
    omega
  have hE := h.end_of_zero h0 hn
  have hpos : (start + UInt32.ofNat g.off - mStart).toNat = g.off - origin start (pre ++ [g]) := by
    rw [UInt32.toNat_sub, hseq, hst]
    omega
  have hmax : top (pre ++ [g]) = top pre := by
    rw [top_snoc]
    omega
  rw [hdata] at hins ⊢
  have hkeep := CTcpSegBuf.insertData_nil (b := { b with mStart }) hs
    (by simp only [hseq, hE]; exact htop) (by simp only [hpos, h.length_eq]; omega)
  refine ⟨_, hins.trans hkeep, hst, by simp, fun _ => ?_, ?_, fun i hi => ?_⟩
  · rw [hmax, hE, hz]
    omega
  · rw [hmax, h.length_eq]
  · exact h.bytes i ((covered_snoc.mp hi).resolve_right (by omega))

/-- A segment that breaks the rule of a set start number makes `insertData` throw, or makes the
buffer shorter. -/
theorem Joined.step_wrap_bad (h : Joined S start pre b) (hS : S.length = n) (hn : n < 2 ^ 31)
    (hstart : start ≠ 0) (hbad : ¬ WrapSafe start pre g) :
    ∀ b', b.insertData (start + UInt32.ofNat g.off) (g.data S) = some b' →
      b'.mBuf.length ≠ top (pre ++ [g]) := by
  have hB := start.toNat_lt
  have hnz : start.toNat ≠ 0 := fun hz => hstart (UInt32.toNat_inj.mp hz)
  have hle := g.le_length
  have htop : top pre ≤ n := top_le
  obtain ⟨hst, hs⟩ := h.start_of_origin (g := g) (by rw [origin, if_neg hstart])
  have hseq := SeqNum.toNat_add_ofNat start g.off
  have hoff := SeqNum.toNat_add_ofNat_sub start g.off (by omega)
  have hend_sub := SeqNum.toNat_ofNat_end_sub start g.off g.len (by omega)
  have hlen := length_data (g := g) hS
  rw [WrapSafe, if_neg hstart] at hbad
  intro b' hb'
  by_cases hbeyond : b.mEnd.toNat < (start + UInt32.ofNat g.off).toNat + (g.data S).length
  · -- the segment lies before the wrap and ends early: the buffer is cut off at its end
    have hshort : g.off + g.len < top pre := by
      split_ifs at hbad with hpre
      · have hend0 : b.mEnd.toNat = 0 := by rw [h.end_nil hpre]; rfl
        omega
      · have hE := h.end_eq hpre
        omega
    have hgrow := CTcpSegBuf.insertData_grow hs hbeyond
      (by rw [hst, CTcpSegBuf.newEnd, hlen, hoff, hend_sub]; omega)
    rw [hst, CTcpSegBuf.newEnd, hlen, hoff, hend_sub] at hgrow
    rw [hgrow, Option.some.injEq] at hb'
    rw [← hb', CTcpSegBuf.length_written (by rw [CxxString.length_resize]; omega),
      CxxString.length_resize, hlen, top_snoc]
    omega
  · -- the segment begins at or beyond the wrap: the position is beyond the end
    have hgap : top pre < g.off := by
      split_ifs at hbad with hpre
      · have htop0 : top pre = 0 := by rw [hpre]; rfl
        omega
      · have hE := h.end_eq hpre
        omega
    rw [CTcpSegBuf.insertData_keep_none hs hbeyond (by rw [hst, hoff, h.length_eq]; omega)] at hb'
    cases hb'

/-- With the start number `0`, the start mark is moved into the stream by a segment that does not begin at
the start. If a segment breaks the rule then, `insertData` throws, the buffer is too short, or a byte is
overwritten with the first byte of the segment. -/
theorem Joined.step_zero_bad (h : Joined S 0 pre b) (hS : S.length = n) (hn : n < 2 ^ 31)
    (hbad : ¬ WrapSafe 0 pre g) :
    ∀ b', b.insertData (0 + UInt32.ofNat g.off) (g.data S) = some b' →
      b'.mBuf.length ≠ top (pre ++ [g]) ∨
        ∃ i < top pre, i ≠ g.off ∧ g.off < n ∧ b'.mBuf[i]? = S[g.off]? := by
  have hle := g.le_length
  have htop : top pre ≤ n := top_le
  have hfirst : firstInside pre ≤ top pre := firstInside_le_top
  have hlen := length_data (g := g) hS
  obtain ⟨mStart, hst, hs, hins⟩ := insertData_origin (g := g) h.start_eq (fun _ => by omega) (g.data S)
  rw [origin, if_pos rfl, firstInside_snoc] at hst
  rw [WrapSafe, if_pos rfl] at hbad
  have hseq : (0 + UInt32.ofNat g.off).toNat = g.off := by
    rw [SeqNum.toNat_add_ofNat]
    simp
    omega
  rw [hins]
  generalize 0 + UInt32.ofNat g.off = seq at hseq hs ⊢
  have hE := h.end_of_zero rfl hn
  -- the buffer begins at the offset `o`
  obtain ⟨o, ho, hne, hset, hunset⟩ : ∃ o, mStart.toNat = o ∧ o ≠ 0 ∧
      (firstInside pre ≠ 0 → o = firstInside pre) ∧ (firstInside pre = 0 → o = g.off) := by
    refine ⟨_, rfl, ?_⟩
    rw [hst]
    simp
    split <;> omega
  have hmoved : mStart ≠ 0 := fun h0 => hne (by rw [← ho, h0]; rfl)
  have hsize : b.mBuf.length = b.mEnd.toNat := h.length_eq.trans hE.symm
  have hbound : b.mEnd.toNat < 2 ^ 31 := by omega
  have hseq_end : seq.toNat + (g.data S).length < 2 ^ 31 := by omega
  intro b' hb'
  by_cases hbefore : seq.toNat < mStart.toNat
  · rw [CTcpSegBuf.insertData_before (b := { b with mStart }) hmoved hsize hbound hseq_end
      (by simp only; omega) hbefore] at hb'
    cases hb'
  rw [CTcpSegBuf.insertData_behind (b := { b with mStart }) hmoved hsize hbound hseq_end
    (not_lt.mp hbefore), Option.some.injEq] at hb'
  simp only [hseq, ho, hlen, hE] at hb' hbefore
  split_ifs at hb' with hg
  · -- the buffer is resized to what lies behind `o`
    left
    rw [← hb', CTcpSegBuf.length_written (by rw [CxxString.length_resize]; omega),
      CxxString.length_resize, hlen, top_snoc]
    omega
  · -- the segment is written into the buffer, but by `o` bytes too far to the front
    right
    refine ⟨g.off - o, by omega, by omega, by omega, ?_⟩
    rw [← hb', CTcpSegBuf.getElem?_written (by rw [h.length_eq]; omega), if_pos (by omega)]
    simpa using getElem?_data (S := S) (le_refl g.off) (by omega)

/-! ## The whole run -/

theorem insertAll_nil :
    insertAll S s ([] : List (Segment n)) = some (CTcpSegBuf.new.setStartSeq (s + 1)) :=
  rfl

theorem insertAll_snoc (hb : insertAll S s pre = some b) :
    insertAll S s (pre ++ [g]) = b.insertData (s + 1 + UInt32.ofNat g.off) (g.data S) := by
  rw [insertAll, List.foldlM_append]
  rw [insertAll] at hb
  rw [hb]
  simp

theorem joined_new : Joined S start ([] : List (Segment n)) (CTcpSegBuf.new.setStartSeq start) where
  start_eq := by simp [origin, firstInside, CTcpSegBuf.setStartSeq]
  end_nil := fun _ => rfl
  end_eq := fun h => absurd rfl h
  length_eq := rfl
  bytes := fun _ hi => absurd hi covered_nil

/-- The invariant of a run: for every stream, the buffer holds what has arrived, and with the start
number `0` nothing is missing in it. -/
def JoinedRun (n : ℕ) (s : TcpSeq) (pre : List (Segment n)) : Prop :=
  (s + 1 = 0 → ∀ i < top pre, Covered pre i) ∧
  ∀ S : Bytes, S.length = n → ∃ b, insertAll S s pre = some b ∧ Joined S (s + 1) pre b

theorem JoinedRun.step (hn : n < 2 ^ 31) (h : JoinedRun n s pre) (hsafe : WrapSafe (s + 1) pre g) :
    JoinedRun n s (pre ++ [g]) := by
  refine ⟨fun h0 i hi => ?_, fun S hS => ?_⟩
  · rw [top_snoc] at hi
    rw [WrapSafe, if_pos h0] at hsafe
    by_cases hlt : i < top pre
    · exact covered_snoc.mpr (Or.inl (h.1 h0 i hlt))
    · exact covered_snoc.mpr (Or.inr (by omega))
  · obtain ⟨b, hb, hj⟩ := h.2 S hS
    obtain ⟨b', hb', hj'⟩ := hj.step hS hn hsafe
    exact ⟨b', by rw [insertAll_snoc hb, hb'], hj'⟩

theorem JoinedRun.reassembled (h : JoinedRun n s pre) (hS : S.length = n) : Reassembled S s pre := by
  obtain ⟨b, hb, hj⟩ := h.2 S hS
  exact ⟨b, hb, hj.length_eq, hj.bytes⟩

/-- A stream of `n` bytes in which byte `k` differs from all the others. -/
def markedAt (n k : ℕ) : Bytes := (List.range n).map fun i => if i = k then 1 else 0

theorem length_markedAt (k : ℕ) : (markedAt n k).length = n := by simp [markedAt]

theorem getElem?_markedAt {k i : ℕ} (hi : i < n) :
    (markedAt n k)[i]? = some (if i = k then 1 else 0) := by
  simp [markedAt, hi]

theorem JoinedRun.step_bad (hn : n < 2 ^ 31) (h : JoinedRun n s pre)
    (hbad : ¬ WrapSafe (s + 1) pre g) :
    ∃ S : Bytes, S.length = n ∧ ¬ Reassembled S s (pre ++ [g]) := by
  -- a stream in which the first byte of the segment can be told from the first byte of the stream
  refine ⟨markedAt n g.off, length_markedAt _, ?_⟩
  obtain ⟨b, hb, hj⟩ := h.2 (markedAt n g.off) (length_markedAt _)
  rintro ⟨b', hb', hlen, hbytes⟩
  rw [insertAll_snoc hb] at hb'
  by_cases h0 : s + 1 = 0
  · rw [h0] at hj hb' hbad
    rcases hj.step_zero_bad (length_markedAt _) hn hbad b' hb' with hshort | ⟨i, hi, hne, hlt, hbyte⟩
    · exact hshort hlen
    · have hcov := hbytes i (covered_snoc.mpr (Or.inl (h.1 h0 i hi)))
      have hin : i < n := hi.trans_le top_le
      rw [CTcpSegBuf.getBuf, hbyte, getElem?_markedAt hlt, getElem?_markedAt hin] at hcov
      simp [hne] at hcov
  · exact hj.step_wrap_bad (length_markedAt _) hn h0 hbad b' hb' hlen

end Insert

/-- For every start number and every arrival order of the segments of a stream, the buffer puts every
such stream together after every segment exactly if each segment keeps the rule `WrapSafe`. -/
theorem reassembled_iff_wrapSafe {n : ℕ} (hn : n < 2 ^ 31) (s : TcpSeq) (segs : List (Segment n)) :
    (∀ S : Bytes, S.length = n → Always (Reassembled S s) segs) ↔
      EachStep (WrapSafe (s + 1)) segs := by
  rw [← always_iff_eachStep (I := JoinedRun n s)
    (P := fun pre => ∀ S : Bytes, S.length = n → Reassembled S s pre)]
  · exact ⟨fun h p hp S hS => h S hS p hp, fun h S hS p hp => h p hp S hS⟩
  · exact ⟨by simp, fun S _ => ⟨_, insertAll_nil, joined_new⟩⟩
  · exact fun pre g h hsafe => h.step hn hsafe
  · exact fun pre h S hS => h.reassembled hS
  · intro pre g h hbad hall
    obtain ⟨S, hS, hnot⟩ := h.step_bad hn hbad
    exact hnot (hall S hS)

/-- Two segments in order across the wrap-around keep the rule, so they are put together. -/
theorem reassembled_in_order_across_wrap :
    4 < 2 ^ 31 ∧ Always (Reassembled [1, 2, 3, 4] 4294967293)
      [(⟨0, 2, by decide⟩ : Segment 4), ⟨2, 2, by decide⟩] := by
  refine ⟨by decide, (reassembled_iff_wrapSafe (by decide) _ _).mpr ?_ _ rfl⟩
  refine (eachStep_snoc (l := [_])).mpr ⟨(eachStep_snoc (l := [])).mpr ⟨eachStep_nil, ?_⟩, ?_⟩
  · decide
  · decide

/-- After a stream has crossed the wrap-around, the retransmission of its first byte cuts the buffer
off behind this byte. -/
theorem not_reassembled_retransmission_across_wrap :
    ¬ Reassembled [1, 2, 3, 4] 4294967293
      [(⟨0, 4, by decide⟩ : Segment 4), ⟨0, 1, by decide⟩] := by
  rintro ⟨b, hb, hlen, -⟩
  have hrun : insertAll [1, 2, 3, 4] 4294967293
      [(⟨0, 4, by decide⟩ : Segment 4), ⟨0, 1, by decide⟩] =
      some ⟨4294967294, 4294967295, 0, [1]⟩ := by decide
  obtain rfl := Option.some.inj (hrun.symm.trans hb)
  exact absurd hlen (by decide)

end Killerfinder
