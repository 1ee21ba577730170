import DeepSecurity.Killerfinder.Proofs.ReassemblyProofs

/-!
# Proofs: the active view of a stream

`dumpUnusedData` after every `insertData` hands out the stream in order exactly if no segment leaves
a gap when it arrives: the used mark is moved to the end mark whether or not everything in between
has arrived.
-/

namespace Killerfinder

open Segment Trace

theorem CTcpSegBuf.dumpUnusedData_of_le {b : CTcpSegBuf}
    (h : (b.mUsed - b.mStart).toNat ≤ b.mBuf.length) :
    b.dumpUnusedData = some ((b.mBuf.drop (b.mUsed - b.mStart).toNat).take
      ((b.mEnd - b.mStart) - (b.mUsed - b.mStart)).toNat, { b with mUsed := b.mEnd }) := by
  rw [dumpUnusedData, CxxString.substr_of_le h]
  rfl

theorem CTcpSegBuf.dumpUnusedData_none {b : CTcpSegBuf}
    (h : b.mBuf.length < (b.mUsed - b.mStart).toNat) : b.dumpUnusedData = none := by
  rw [dumpUnusedData, CxxString.substr_eq_none.mpr h]
  rfl

/-- Inserting and handing out a segment that moves the end mark, in terms of positions in the
buffer: `pos` of the segment, `u` of the used mark. -/
theorem CTcpSegBuf.insertData_dump_grow {b : CTcpSegBuf} {seq : TcpSeq} {buf : Bytes} {pos u : ℕ}
    (hs : b.mStart ≠ 0 ∨ seq = 0) (hg : b.mEnd.toNat < seq.toNat + buf.length)
    (hpos : (seq - b.mStart).toNat = pos)
    (hend : (newEnd seq buf - b.mStart).toNat = pos + buf.length)
    (hused : (b.mUsed - b.mStart).toNat = u) (hu : u ≤ pos + buf.length) :
    ∃ b1, b.insertData seq buf = some b1 ∧
      b1 = b.written (newEnd seq buf) (CxxString.resize 0 b.mBuf (pos + buf.length)) pos buf ∧
      b1.dumpUnusedData = some ((b1.mBuf.drop u).take (pos + buf.length - u),
        { b1 with mUsed := newEnd seq buf }) := by
  refine ⟨_, ?_, rfl, ?_⟩
  · rw [insertData_grow hs hg (by omega), hpos, hend]
  · have hlen : (b.written (newEnd seq buf) (CxxString.resize 0 b.mBuf (pos + buf.length)) pos
        buf).mBuf.length = pos + buf.length := by
      rw [length_written (by simp), CxxString.length_resize, max_self]
    rw [dumpUnusedData_of_le (by rw [hlen]; exact hused.trans_le hu)]
    have hcount : ((newEnd seq buf - b.mStart) - (b.mUsed - b.mStart)).toNat =
        pos + buf.length - u := by
      rw [UInt32.toNat_sub_of_le, hend, hused]
      rw [UInt32.le_iff_toNat_le]
      omega
    simp only [written, hused, hcount]

/-- Inserting and handing out a segment that does not move the end mark: there is nothing new. -/
theorem CTcpSegBuf.insertData_dump_keep {b : CTcpSegBuf} {seq : TcpSeq} {buf : Bytes} {pos : ℕ}
    (hs : b.mStart ≠ 0 ∨ seq = 0) (hg : ¬ b.mEnd.toNat < seq.toNat + buf.length)
    (hpos : (seq - b.mStart).toNat = pos) (hle : pos ≤ b.mBuf.length)
    (hused : b.mUsed = b.mEnd) (hu : (b.mUsed - b.mStart).toNat ≤ b.mBuf.length) :
    ∃ b1, b.insertData seq buf = some b1 ∧ b1 = b.written b.mEnd b.mBuf pos buf ∧
      b1.dumpUnusedData = some ([], b1) := by
  refine ⟨_, ?_, rfl, ?_⟩
  · rw [insertData_keep hs hg (by omega), hpos]
  · rw [dumpUnusedData_of_le (by rw [length_written hle]; exact le_max_of_le_left hu)]
    simp [written, hused]

section Dump

variable {n : ℕ} {S : Bytes} {start : TcpSeq} {pre : List (Segment n)} {g : Segment n}
  {b : CTcpSegBuf} {out : Bytes}

/-- The buffer after the segments `pre` have been inserted and handed out one after the other. -/
structure Dumped (start : TcpSeq) (pre : List (Segment n)) (b : CTcpSegBuf) : Prop where
  start_eq : b.mStart.toNat = start.toNat + origin start pre
  origin_le : origin start pre ≤ top pre
  end_nil : pre = [] → b.mEnd = 0
  end_eq : pre ≠ [] → b.mEnd.toNat = (start.toNat + top pre) % 2 ^ 32
  used_eq : b.mUsed.toNat = (start.toNat + top pre) % 2 ^ 32
  top_lt : start = 0 → top pre < 2 ^ 32
  length_eq : start ≠ 0 → b.mBuf.length = top pre
  le_length : top pre ≤ origin start pre + b.mBuf.length

/-- The buffer begins at or before every segment that keeps the rule. -/
theorem GapFree.origin_le (h : GapFree start pre g) : origin start (pre ++ [g]) ≤ g.off := by
  by_cases h0 : start = 0
  · rw [GapFree, if_pos h0] at h
    rw [origin, if_pos h0, firstInside_snoc]
    split
    · exact le_rfl
    · exact h.2.1
  · rw [origin, if_neg h0]
    exact Nat.zero_le _

/-- The bytes that a segment has written at the end of the buffer, from offset `t` of the stream on. -/
theorem drop_written {mEnd : TcpSeq} {base : Bytes} {o t : ℕ} (hS : S.length = n)
    (ho : o ≤ g.off) (hoff : g.off ≤ t) (hlen : base.length + o = g.off + g.len) :
    ((b.written mEnd base (g.off - o) (g.data S)).mBuf.drop (t - o)).take (g.off + g.len - t) =
      (S.drop t).take (g.off + g.len - t) := by
  apply List.ext_getElem?
  intro i
  by_cases hi : i < g.off + g.len - t
  · rw [List.getElem?_take_of_lt hi, List.getElem?_take_of_lt hi, List.getElem?_drop,
      List.getElem?_drop, CTcpSegBuf.getElem?_written (by omega), length_data hS, if_pos (by omega),
      ← getElem?_data (g := g) (i := t + i) (by omega) (by omega)]
    congr 1
    omega
  · rw [List.getElem?_eq_none (by simp; omega), List.getElem?_eq_none (by simp; omega)]

/-- The bytes of the stream between the end of what has arrived and the end of the next segment. -/
theorem take_append_gap (S : Bytes) {t e : ℕ} (h : t ≤ e) :
    S.take t ++ (S.drop t).take (e - t) = S.take e := by
  rw [← List.take_add]
  congr 1
  omega

/-- Where the segment `g` with the number `seq` stands in the buffer. It is inserted with the start mark
`mStart`, which belongs to the offset `o` of the stream. -/
structure NextAt (start : TcpSeq) (pre : List (Segment n)) (g : Segment n) (b : CTcpSegBuf)
    (mStart seq : TcpSeq) (o : ℕ) : Prop where
  origin_eq : origin start (pre ++ [g]) = o
  start_eq : mStart.toNat = start.toNat + o
  seq_eq : seq.toNat = (start.toNat + g.off) % 2 ^ 32
  origin_le : o ≤ g.off
  no_gap : g.off ≤ top pre
  set : mStart ≠ 0 ∨ seq = 0
  pos_eq : (seq - mStart).toNat = g.off - o
  used_eq : (b.mUsed - mStart).toNat = top pre - o
  lt : top pre < 2 ^ 32 ∧ g.off + g.len < 2 ^ 32
  -- the end mark is `0` at the end of the range: only segments up to the end may follow
  wrap : start.toNat + top pre = 2 ^ 32 → top pre ≤ g.off + g.len

theorem Dumped.nextAt (h : Dumped start pre b) (hno : start.toNat + n ≤ 2 ^ 32)
    (hsafe : GapFree start pre g) (buf : Bytes) :
    ∃ mStart o, NextAt start pre g b mStart (start + UInt32.ofNat g.off) o ∧
      b.insertData (start + UInt32.ofNat g.off) buf =
        { b with mStart }.insertData (start + UInt32.ofNat g.off) buf := by
  have hB := start.toNat_lt
  have hle := g.le_length
  have htop : top pre ≤ n := top_le
  have hseq := SeqNum.toNat_add_ofNat start g.off
  have hoff : start = 0 → g.off < 2 ^ 32 := by
    intro h0
    rw [GapFree, if_pos h0] at hsafe
    omega
  obtain ⟨mStart, hst, hs, hins⟩ := insertData_origin (g := g) h.start_eq hoff buf
  have ho : origin start (pre ++ [g]) ≤ g.off := hsafe.origin_le
  have hgap : g.off ≤ top pre := hsafe.1
  have hused := h.used_eq
  -- neither what has arrived nor the segment fills the whole range of sequence numbers
  have hlt : top pre < 2 ^ 32 ∧ g.off + g.len < 2 ^ 32 := by
    by_cases h0 : start = 0
    · rw [GapFree, if_pos h0] at hsafe
      exact ⟨h.top_lt h0, hsafe.2.2⟩
    · have : start.toNat ≠ 0 := fun hz => h0 (UInt32.toNat_inj.mp hz)
      omega
  refine ⟨mStart, origin start (pre ++ [g]), ⟨rfl, hst, hseq, ho, hgap, hs, ?_, ?_, hlt, ?_⟩, hins⟩
  · rw [UInt32.toNat_sub, hseq, hst]
    omega
  · rw [UInt32.toNat_sub, hused, hst]
    omega
  · by_cases h0 : start = 0
    · rw [h0]
      simp
      omega
    · rw [GapFree, if_neg h0] at hsafe
      exact hsafe.2

variable {mStart seq : TcpSeq} {o : ℕ}

/-- If the segment moves the end mark, the new bytes are handed out. -/
theorem Dumped.step_grow (h : Dumped start pre b) (hS : S.length = n)
    (hno : start.toNat + n ≤ 2 ^ 32) (hnext : NextAt start pre g b mStart seq o)
    (hg : b.mEnd.toNat < seq.toNat + (g.data S).length) :
    ∃ b1 out b2, { b with mStart }.insertData seq (g.data S) = some b1 ∧
      b1.dumpUnusedData = some (out, b2) ∧ Dumped start (pre ++ [g]) b2 ∧
      S.take (top pre) ++ out = S.take (top (pre ++ [g])) := by
  have hB := start.toNat_lt
  have hle := g.le_length
  have htop : top pre ≤ n := top_le
  have hlen := length_data (g := g) hS
  obtain ⟨ho, hst, hseq, hole, hgap, hs, hsub, husub, hlt, hwrap⟩ := hnext
  have hmax : top pre ≤ g.off + g.len := by
    by_cases hpre : pre = []
    · simp [hpre]
    · have := h.end_eq hpre
      omega
  have htop' : top (pre ++ [g]) = g.off + g.len := top_snoc.trans (max_eq_right hmax)
  have hE : (CTcpSegBuf.newEnd seq (g.data S)).toNat = (start.toNat + (g.off + g.len)) % 2 ^ 32 := by
    rw [CTcpSegBuf.newEnd, UInt32.toNat_ofNat', hlen, hseq]
    omega
  have hEsub : (CTcpSegBuf.newEnd seq (g.data S) - mStart).toNat = g.off - o + g.len := by
    rw [UInt32.toNat_sub, hE]
    omega
  obtain ⟨b1, hb1, hb1eq, hdump⟩ := CTcpSegBuf.insertData_dump_grow (b := { b with mStart })
    hs hg hsub (by rw [hlen]; exact hEsub) husub (by omega)
  rw [hlen] at hb1eq hdump
  have hb1len : b1.mBuf.length = g.off - o + g.len := by
    rw [hb1eq, CTcpSegBuf.length_written (by simp), CxxString.length_resize, hlen, max_self]
  have hb1st : b1.mStart = mStart := by rw [hb1eq]; rfl
  have hb1end : b1.mEnd = CTcpSegBuf.newEnd seq (g.data S) := by rw [hb1eq]; rfl
  refine ⟨b1, _, _, hb1, hdump, ⟨?_, ?_, by simp, fun _ => ?_, ?_, ?_, fun h0 => ?_, ?_⟩, ?_⟩
  · rw [ho, hb1st, hst]
  · rw [ho]
    omega
  · rw [hb1end, hE, htop']
  · rw [hE, htop']
  · omega
  · rw [origin, if_neg h0] at ho
    rw [hb1len]
    omega
  · rw [ho, hb1len]
    omega
  · rw [hb1eq, show g.off - o + g.len - (top pre - o) = g.off + g.len - top pre by omega,
      drop_written hS hole hgap (by simp; omega), take_append_gap S hmax, htop']

/-- If the segment lies inside what has arrived, nothing is handed out. -/
theorem Dumped.step_keep (h : Dumped start pre b) (hS : S.length = n)
    (hno : start.toNat + n ≤ 2 ^ 32) (hnext : NextAt start pre g b mStart seq o)
    (hg : ¬ b.mEnd.toNat < seq.toNat + (g.data S).length) :
    ∃ b1, { b with mStart }.insertData seq (g.data S) = some b1 ∧
      b1.dumpUnusedData = some ([], b1) ∧ Dumped start (pre ++ [g]) b1 ∧
      top (pre ++ [g]) = top pre := by
  have hB := start.toNat_lt
  have hle := g.le_length
  have htop : top pre ≤ n := top_le
  have hlen := length_data (g := g) hS
  have hused := h.used_eq
  obtain ⟨ho, hst, hseq, hole, hgap, hs, hsub, husub, hlt, hwrap⟩ := hnext
  have hE : b.mEnd.toNat = (start.toNat + top pre) % 2 ^ 32 := by
    by_cases hpre : pre = []
    · have hend0 : b.mEnd.toNat = 0 := by rw [h.end_nil hpre]; rfl
      have htop0 : top pre = 0 := by rw [hpre]; rfl
      omega
    · exact h.end_eq hpre
  have hmax : g.off + g.len ≤ top pre := by omega
  have htop' : top (pre ++ [g]) = top pre := top_snoc.trans (max_eq_left hmax)
  have hlenb : top pre ≤ o + b.mBuf.length ∧ g.off - o ≤ b.mBuf.length := by
    have := h.le_length
    have : origin start pre ≤ o := by
      rw [← ho, origin, origin]
      split
      · rw [firstInside_snoc]
        split <;> omega
      · exact le_rfl
    omega
  obtain ⟨b1, hb1, hb1eq, hdump⟩ := CTcpSegBuf.insertData_dump_keep (b := { b with mStart })
    hs hg hsub hlenb.2 (UInt32.toNat_inj.mp (by rw [hused, hE]))
    (husub.trans_le (by show _ ≤ b.mBuf.length; omega))
  have hb1len : b1.mBuf.length = max b.mBuf.length (g.off - o + g.len) := by
    rw [hb1eq, CTcpSegBuf.length_written hlenb.2, hlen]
  have hb1st : b1.mStart = mStart := by rw [hb1eq]; rfl
  have hb1end : b1.mEnd = b.mEnd := by rw [hb1eq]; rfl
  have hb1used : b1.mUsed = b.mUsed := by rw [hb1eq]; rfl
  refine ⟨b1, hb1, hdump, ⟨?_, ?_, by simp, fun _ => ?_, ?_, ?_, fun h0 => ?_, ?_⟩, htop'⟩
  · rw [ho, hb1st, hst]
  · rw [ho]
    omega
  · rw [hb1end, hE, htop']
  · rw [hb1used, hused, htop']
  · omega
  · have := h.length_eq h0
    rw [origin, if_neg h0] at ho
    omega
  · rw [ho]
    omega

/-- A segment that keeps the rule makes the active view go on without a gap. -/
theorem Dumped.step (h : Dumped start pre b) (hS : S.length = n) (hno : start.toNat + n ≤ 2 ^ 32)
    (hsafe : GapFree start pre g) :
    ∃ b1 out b2, b.insertData (start + UInt32.ofNat g.off) (g.data S) = some b1 ∧
      b1.dumpUnusedData = some (out, b2) ∧ Dumped start (pre ++ [g]) b2 ∧
      S.take (top pre) ++ out = S.take (top (pre ++ [g])) := by
  obtain ⟨mStart, o, hnext, hins⟩ := h.nextAt hno hsafe (g.data S)
  rw [hins]
  by_cases hg : b.mEnd.toNat < (start + UInt32.ofNat g.off).toNat + (g.data S).length
  · exact h.step_grow hS hno hnext hg
  · obtain ⟨b1, hb1, hdump, hd, htop⟩ := h.step_keep hS hno hnext hg
    exact ⟨b1, [], b1, hb1, hdump, hd, by rw [List.append_nil, htop]⟩

/-- With a set start number, the buffer begins with the stream: the positions of a segment, of its end
and of the used mark are offsets of the stream. -/
theorem Dumped.positions (h : Dumped start pre b) (hS : S.length = n)
    (hno : start.toNat + n ≤ 2 ^ 32) (hstart : start ≠ 0) :
    b.mStart = start ∧ (start + UInt32.ofNat g.off - b.mStart).toNat = g.off ∧
      (CTcpSegBuf.newEnd (start + UInt32.ofNat g.off) (g.data S) - b.mStart).toNat =
        g.off + (g.data S).length ∧
      (b.mUsed - b.mStart).toNat = top pre := by
  have hnz : start.toNat ≠ 0 := fun hz => hstart (UInt32.toNat_inj.mp hz)
  have hle := g.le_length
  have htop : top pre ≤ n := top_le
  have hst : b.mStart = start := by
    have := h.start_eq
    rw [origin, if_neg hstart] at this
    exact UInt32.toNat_inj.mp this
  rw [hst]
  refine ⟨rfl, SeqNum.toNat_add_ofNat_sub start g.off (by omega), ?_, ?_⟩
  · rw [CTcpSegBuf.newEnd, length_data hS]
    exact SeqNum.toNat_ofNat_end_sub start g.off g.len (by omega)
  · have := start.toNat_lt
    rw [UInt32.toNat_sub, h.used_eq]
    omega

/-- With a set start number, a segment that breaks the rule makes one of the two calls throw, or a
null byte is handed out in the place of byte `top pre` of the stream. -/
theorem Dumped.step_bad (h : Dumped start pre b) (hS : S.length = n)
    (hno : start.toNat + n ≤ 2 ^ 32) (hstart : start ≠ 0) (hbad : ¬ GapFree start pre g) :
    b.insertData (start + UInt32.ofNat g.off) (g.data S) = none ∨
      ∃ b1, b.insertData (start + UInt32.ofNat g.off) (g.data S) = some b1 ∧
        (b1.dumpUnusedData = none ∨
          ∃ out b2, b1.dumpUnusedData = some (out, b2) ∧ top pre < n ∧ out[0]? = some 0) := by
  have hnz : start.toNat ≠ 0 := fun hz => hstart (UInt32.toNat_inj.mp hz)
  have hle := g.le_length
  have htop : top pre ≤ n := top_le
  have hlen := length_data (g := g) hS
  have hseq := SeqNum.toNat_add_ofNat start g.off
  obtain ⟨hst, hsub, hEsub, husub⟩ := h.positions (g := g) hS hno hstart
  have hs : b.mStart ≠ 0 ∨ start + UInt32.ofNat g.off = 0 := Or.inl (hst ▸ hstart)
  rw [GapFree, if_neg hstart] at hbad
  by_cases hend : start.toNat + g.off = 2 ^ 32
  · -- an empty segment at the end of the range, which is beyond the end of the buffer
    refine Or.inl (CTcpSegBuf.insertData_keep_none hs (by omega) ?_)
    rw [hsub, h.length_eq hstart]
    omega
  right
  obtain ⟨hg, hcases⟩ : b.mEnd.toNat < (start + UInt32.ofNat g.off).toNat + (g.data S).length ∧
      (top pre < g.off ∨ g.off + g.len < top pre) := by
    by_cases hpre : pre = []
    · have h0 : b.mEnd.toNat = 0 := by rw [h.end_nil hpre]; rfl
      have : top pre = 0 := by rw [hpre]; rfl
      omega
    · have := h.end_eq hpre
      omega
  rcases hcases with hgap | hshort
  · -- the gap is filled with null bytes, which are handed out
    obtain ⟨b1, hb1, hb1eq, hdump⟩ := CTcpSegBuf.insertData_dump_grow hs hg hsub hEsub husub
      (by omega)
    refine ⟨b1, hb1, Or.inr ⟨_, _, hdump, by omega, ?_⟩⟩
    rw [List.getElem?_take_of_lt (by omega), List.getElem?_drop, hb1eq,
      CTcpSegBuf.getElem?_written (by simp), if_neg (by omega)]
    exact CxxString.getElem?_resize_of_le _ (by omega) (by rw [h.length_eq hstart]; omega)
  · -- the buffer is cut off before the used mark
    have hins := CTcpSegBuf.insertData_grow hs hg (by omega)
    refine ⟨_, hins, Or.inl (CTcpSegBuf.dumpUnusedData_none ?_)⟩
    rw [CTcpSegBuf.length_written (by rw [CxxString.length_resize]; omega), CxxString.length_resize,
      hsub, hEsub, max_self]
    exact (by omega : _ < top pre).trans_eq husub.symm

/-! ## The whole run -/

theorem dumpAll_snoc (hb : dumpAll S start pre = some (b, out)) :
    dumpAll S start (pre ++ [g]) = do
      let b1 ← b.insertData (start + UInt32.ofNat g.off) (g.data S)
      let (o, b2) ← b1.dumpUnusedData
      return (b2, out ++ o) := by
  rw [dumpAll, List.foldlM_append]
  rw [dumpAll] at hb
  rw [hb]
  simp

/-- The invariant of a run: for every stream, everything that has arrived has been handed out. -/
def DumpedRun (n : ℕ) (start : TcpSeq) (pre : List (Segment n)) : Prop :=
  ∀ S : Bytes, S.length = n →
    ∃ b, dumpAll S start pre = some (b, S.take (top pre)) ∧ Dumped start pre b

theorem dumpedRun_nil (n : ℕ) (start : TcpSeq) : DumpedRun n start [] := by
  intro S hS
  refine ⟨_, rfl, ?_⟩
  have horigin : origin start ([] : List (Segment n)) = 0 := by
    rw [origin]
    split <;> rfl
  have := start.toNat_lt
  constructor <;> simp [CTcpSegBuf.new, CTcpSegBuf.setStartSeq, CTcpSegBuf.setUsedPos, horigin]

theorem DumpedRun.step (hno : start.toNat + n ≤ 2 ^ 32) (h : DumpedRun n start pre)
    (hsafe : GapFree start pre g) : DumpedRun n start (pre ++ [g]) := by
  intro S hS
  obtain ⟨b, hb, hd⟩ := h S hS
  obtain ⟨b1, o, b2, hb1, hb2, hd', hout⟩ := hd.step hS hno hsafe
  refine ⟨b2, ?_, hd'⟩
  rw [dumpAll_snoc hb, hb1, ← hout]
  simp [hb2]

theorem DumpedRun.agrees (h : DumpedRun n start pre) (hS : S.length = n) :
    ActiveAgrees S start pre := by
  obtain ⟨b, hb, -⟩ := h S hS
  refine ⟨b, _, hb, List.take_prefix _ _, fun hall => ?_⟩
  have htop : n ≤ top pre := by
    by_contra hlt
    have := lt_top_of_covered (hall (top pre) (by omega))
    omega
  rw [List.take_of_length_le (by omega)]

theorem DumpedRun.step_bad (hno : start.toNat + n ≤ 2 ^ 32) (hstart : start ≠ 0)
    (h : DumpedRun n start pre) (hbad : ¬ GapFree start pre g) :
    ∃ S : Bytes, S.length = n ∧ ¬ ActiveAgrees S start (pre ++ [g]) := by
  -- a stream without null bytes
  obtain ⟨S, hS, hone⟩ : ∃ S : Bytes, S.length = n ∧ ∀ i < n, S[i]? = some 1 :=
    ⟨List.replicate n 1, by simp, fun i hi => by simp [hi]⟩
  refine ⟨S, hS, ?_⟩
  obtain ⟨b, hb, hd⟩ := h S hS
  rintro ⟨b', out', hrun, ⟨t, hprefix⟩, -⟩
  rw [dumpAll_snoc hb] at hrun
  rcases hd.step_bad hS hno hstart hbad with hb1 | ⟨b1, hb1, hdump | ⟨o, b2, hdump, hlt, hzero⟩⟩
  · simp [hb1] at hrun
  · simp [hb1, hdump] at hrun
  · obtain ⟨-, rfl⟩ : b2 = b' ∧ S.take (top pre) ++ o = out' := by simpa [hb1, hdump] using hrun
    have hbyte : S[top pre]? = o[0]? := by
      obtain ⟨x, o', rfl⟩ : ∃ x o', o = x :: o' := List.exists_cons_of_ne_nil (by
        rintro rfl
        simp at hzero)
      conv_lhs => rw [← hprefix]
      rw [List.append_assoc, List.getElem?_append_right (by simp)]
      simp [hS, top_le]
    rw [hone _ hlt, hzero] at hbyte
    exact absurd hbyte (by decide)

end Dump

/-- The active view of every stream whose numbers do not wrap around agrees with the stream at every
moment, if each segment keeps the rule `GapFree`; for a start number other than `0` only then. -/
theorem activeAgrees_of_gapFree {n : ℕ} (start : TcpSeq) (hno : start.toNat + n ≤ 2 ^ 32)
    (segs : List (Segment n)) :
    (EachStep (GapFree start) segs →
      ∀ S : Bytes, S.length = n → Always (ActiveAgrees S start) segs) ∧
    (start ≠ 0 → (∀ S : Bytes, S.length = n → Always (ActiveAgrees S start) segs) →
      EachStep (GapFree start) segs) := by
  constructor
  · intro h S hS p hp
    have hrun := always_of_eachStep (dumpedRun_nil n start)
      (fun pre g h hsafe => DumpedRun.step hno h hsafe) h
    exact (hrun p hp).agrees hS
  · intro hstart h
    refine (always_iff_eachStep (I := DumpedRun n start)
      (P := fun pre => ∀ S : Bytes, S.length = n → ActiveAgrees S start pre) (dumpedRun_nil n start)
      (fun pre g h hsafe => h.step hno hsafe) (fun pre h S hS => h.agrees hS) ?_ segs).mp
      (fun p hp S hS => h S hS p hp)
    intro pre g hrun hbad hall
    obtain ⟨S, hS, hnot⟩ := hrun.step_bad hno hstart hbad
    exact hnot (hall S hS)

/-- A stream that arrives in order, with a retransmission, is handed out in order. -/
theorem activeAgrees_in_order :
    (1 : TcpSeq).toNat + 2 ≤ 2 ^ 32 ∧ ∀ S : Bytes, S.length = 2 → Always (ActiveAgrees S 1)
      [(⟨0, 1, by decide⟩ : Segment 2), ⟨0, 2, by decide⟩] := by
  refine ⟨by decide, (activeAgrees_of_gapFree 1 (by decide) _).1 ?_⟩
  refine (eachStep_snoc (l := [_])).mpr ⟨(eachStep_snoc (l := [])).mpr ⟨eachStep_nil, ?_⟩, ?_⟩
  · decide
  · decide

/-- The two bytes of a stream in reverse order: a null byte is handed out in the place of the first
byte, which is never handed out. -/
theorem not_activeAgrees_reversed :
    ¬ ActiveAgrees [7, 8] 1
      [(⟨1, 1, by decide⟩ : Segment 2), ⟨0, 1, by decide⟩] := by
  rintro ⟨b, out, hrun, hprefix, -⟩
  have hrun' : dumpAll [7, 8] 1
      [(⟨1, 1, by decide⟩ : Segment 2), ⟨0, 1, by decide⟩] =
      some (⟨1, 3, 3, [7, 8]⟩, [0, 8]) := by decide
  obtain ⟨-, rfl⟩ := Prod.mk.inj (Option.some.inj (hrun'.symm.trans hrun))
  exact absurd hprefix (by decide)

end Killerfinder
