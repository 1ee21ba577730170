import DeepSecurity.Killerfinder.Proofs.ActiveViewProofs
import DeepSecurity.Killerfinder.Proofs.SessionProofs

/-!
# Proofs: positions in the reassembly buffers

A segment that the buffer accepts is inserted and keeps the marks in order; one that it does not
accept makes `insertData` or `dumpUnusedData` throw or puts the marks out of order. The session
theorem follows by induction over the packets.
-/

namespace Killerfinder

open Trace

/-! ## One segment -/

namespace CTcpSegBuf

variable {b : CTcpSegBuf} {seq : TcpSeq} {buf : Bytes}

/-- The buffer with its start mark set. -/
def based (b : CTcpSegBuf) (seq : TcpSeq) : CTcpSegBuf := { b with mStart := b.startFor seq }

theorem based_start : (b.based seq).mStart ≠ 0 ∨ seq = 0 := by
  simp only [based, startFor]
  split_ifs with h
  · exact (em (seq = 0)).symm
  · exact Or.inl h

theorem insertData_based : b.insertData seq buf = (b.based seq).insertData seq buf := by
  by_cases h : b.mStart = 0
  · rw [insertData_rebase h, based, startFor, if_pos h]
  · rw [based, startFor, if_neg h]

theorem toNat_newEnd_sub (seq start : TcpSeq) (buf : Bytes) :
    (newEnd seq buf - start).toNat = ((seq - start).toNat + buf.length) % 2 ^ 32 := by
  have := start.toNat_lt
  have := seq.toNat_lt
  rw [newEnd, UInt32.toNat_sub, UInt32.toNat_sub, UInt32.toNat_ofNat']
  omega

/-- A growing segment whose end does not wrap around is inserted. -/
theorem insertData_grows (hg : b.mEnd.toNat < seq.toNat + buf.length)
    (hfit : (seq - b.startFor seq).toNat + buf.length < 2 ^ 32) :
    ∃ b', b.insertData seq buf = some b' ∧ b'.mStart = b.startFor seq ∧ b'.mUsed = b.mUsed ∧
      (b'.mEnd - b'.mStart).toNat = (seq - b.startFor seq).toNat + buf.length ∧
      b'.mBuf.length = (seq - b.startFor seq).toNat + buf.length := by
  have hend : (newEnd seq buf - b.startFor seq).toNat =
      (seq - b.startFor seq).toNat + buf.length := by
    rw [toNat_newEnd_sub, Nat.mod_eq_of_lt hfit]
  have hpos : (seq - (b.based seq).mStart).toNat ≤ (newEnd seq buf - (b.based seq).mStart).toNat := by
    rw [show (b.based seq).mStart = b.startFor seq from rfl, hend]
    omega
  rw [insertData_based, insertData_grow based_start hg hpos]
  refine ⟨_, rfl, rfl, rfl, hend, ?_⟩
  rw [length_written (by simpa using hpos), CxxString.length_resize]
  rw [show (b.based seq).mStart = b.startFor seq from rfl, hend, max_self]

/-- One whose end wraps around makes `insertData` throw. -/
theorem insertData_wraps (hlen : buf.length < 2 ^ 16)
    (hg : b.mEnd.toNat < seq.toNat + buf.length)
    (hfit : ¬ (seq - b.startFor seq).toNat + buf.length < 2 ^ 32) : b.insertData seq buf = none := by
  rw [insertData_based]
  refine insertData_grow_none based_start hg ?_
  have := (seq - b.startFor seq).toNat_lt
  rw [toNat_newEnd_sub, show (b.based seq).mStart = b.startFor seq from rfl]
  omega

/-- A segment that does not reach beyond the end mark is inserted if it begins inside the contents. -/
theorem insertData_inside (hg : ¬ b.mEnd.toNat < seq.toNat + buf.length)
    (hpos : (seq - b.startFor seq).toNat ≤ b.mBuf.length) :
    ∃ b', b.insertData seq buf = some b' ∧ b'.mStart = b.startFor seq ∧ b'.mUsed = b.mUsed ∧
      b'.mEnd = b.mEnd ∧
      b'.mBuf.length = max b.mBuf.length ((seq - b.startFor seq).toNat + buf.length) := by
  rw [insertData_based, insertData_keep based_start hg hpos]
  exact ⟨_, rfl, rfl, rfl, rfl, length_written hpos⟩

theorem insertData_outside (hg : ¬ b.mEnd.toNat < seq.toNat + buf.length)
    (hpos : ¬ (seq - b.startFor seq).toNat ≤ b.mBuf.length) : b.insertData seq buf = none := by
  rw [insertData_based]
  exact insertData_keep_none based_start hg (not_le.mp hpos)

theorem Reaches.insertData (h : b.Reaches seq buf.length) : ∃ b', b.insertData seq buf = some b' := by
  unfold Reaches at h
  split_ifs at h with hg
  · obtain ⟨b', hb', -⟩ := insertData_grows hg h
    exact ⟨b', hb'⟩
  · obtain ⟨b', hb', -⟩ := insertData_inside hg h
    exact ⟨b', hb'⟩

theorem insertData_of_not_reaches (hlen : buf.length < 2 ^ 16) (h : ¬ b.Reaches seq buf.length) :
    b.insertData seq buf = none := by
  unfold Reaches at h
  split_ifs at h with hg
  · exact insertData_wraps hlen hg h
  · exact insertData_outside hg h

/-! ### The buffer of the client -/

/-- Nothing has been inserted yet, or the marks are in order. -/
def Tidy (b : CTcpSegBuf) : Prop := b.mEnd = 0 ∨ b.MarksOk

/-- A buffer whose end mark does not have to move is not empty, so its marks are in order. -/
theorem Tidy.marksOk (h : b.Tidy) (hpos : 0 < buf.length)
    (hg : ¬ b.mEnd.toNat < seq.toNat + buf.length) : b.MarksOk := by
  refine h.resolve_left fun h0 => hg ?_
  rw [h0, UInt32.toNat_zero]
  omega

theorem startFor_eq (h : b.mStart ≠ 0 ∨ seq = 0) : b.startFor seq = b.mStart := by
  unfold startFor
  split_ifs with h0
  · rw [h0, h.resolve_left (fun hne => hne h0)]
  · rfl

theorem Accepts.insertData (h : b.Accepts seq buf.length) (ht : b.Tidy) (hpos : 0 < buf.length) :
    ∃ b', b.insertData seq buf = some b' ∧ b'.MarksOk := by
  unfold Accepts at h
  split_ifs at h with hg
  · obtain ⟨b', hb', hstart, hused, hend, hlen⟩ := insertData_grows hg h.1
    refine ⟨b', hb', ?_, ?_⟩
    · rw [hend, hused, hstart]
      exact h.2
    · rw [hend, hlen]
  · have hm := ht.marksOk hpos hg
    have hst := startFor_eq h.1
    obtain ⟨b', hb', hstart, hused, hend, hlen⟩ := insertData_inside hg (by omega)
    refine ⟨b', hb', ?_, ?_⟩
    · rw [hend, hused, hstart, hst]
      exact hm.1
    · rw [hend, hlen, hstart, hst, max_eq_left (by rw [← hst]; exact h.2)]
      exact hm.2

/-- The marks are out of order in a way that neither using the buffer up nor resetting the used mark
mends, or already using it up throws. -/
def Broken (b : CTcpSegBuf) : Prop :=
  b.mBuf.length < (b.mUsed - b.mStart).toNat ∨ (b.mEnd - b.mStart).toNat ≠ b.mBuf.length

theorem insertData_of_not_accepts (h : ¬ b.Accepts seq buf.length) (ht : b.Tidy)
    (hpos : 0 < buf.length) (hlen : buf.length < 2 ^ 16) :
    b.insertData seq buf = none ∨ ∃ b', b.insertData seq buf = some b' ∧ b'.Broken := by
  unfold Accepts at h
  split_ifs at h with hg
  · by_cases hfit : (seq - b.startFor seq).toNat + buf.length < 2 ^ 32
    · obtain ⟨b', hb', hstart, hused, -, hlen'⟩ := insertData_grows hg hfit
      refine Or.inr ⟨b', hb', Or.inl ?_⟩
      rw [hlen', hused, hstart]
      by_contra hle
      exact h ⟨hfit, not_lt.mp hle⟩
    · exact Or.inl (insertData_wraps hlen hg hfit)
  · have hm := ht.marksOk hpos hg
    by_cases hin : (seq - b.startFor seq).toNat ≤ b.mBuf.length
    · obtain ⟨b', hb', hstart, -, hend, hlen'⟩ := insertData_inside hg hin
      refine Or.inr ⟨b', hb', Or.inr ?_⟩
      rw [hlen', hend, hstart]
      by_cases hbase : b.mStart ≠ 0 ∨ seq = 0
      · -- the segment reaches beyond the contents, which end at the end mark
        have hst := startFor_eq hbase
        have hout : ¬ (seq - b.startFor seq).toNat + buf.length ≤ b.mBuf.length :=
          fun hle => h ⟨hbase, hle⟩
        have := hm.2
        rw [hst] at hout ⊢
        omega
      · -- the start mark moves from 0 to the number of the segment
        push Not at hbase
        have hst : b.startFor seq = seq := by rw [startFor, if_pos hbase.1]
        have hend0 : b.mEnd.toNat = b.mBuf.length := by
          have := hm.2
          rwa [hbase.1, UInt32.sub_zero] at this
        have hseq : 0 < seq.toNat := by
          have := UInt32.toNat_inj.not.mpr hbase.2
          rw [UInt32.toNat_zero] at this
          omega
        have hsub : (b.mEnd - seq).toNat = b.mEnd.toNat - seq.toNat := by
          rw [UInt32.toNat_sub_of_le]
          rw [UInt32.le_iff_toNat_le]
          omega
        rw [hst, hsub]
        omega
    · exact Or.inl (insertData_outside hg hin)

theorem MarksOk.used_up (h : b.MarksOk) : { b with mUsed := b.mEnd }.MarksOk :=
  ⟨le_refl _, h.2⟩

theorem MarksOk.reset (h : b.MarksOk) : (b.setUsedPos 0).MarksOk := by
  refine ⟨?_, h.2⟩
  simp [setUsedPos]

theorem dumpUnusedData_eq_some {out : Bytes} {b' : CTcpSegBuf}
    (h : b.dumpUnusedData = some (out, b')) :
    (b.mUsed - b.mStart).toNat ≤ b.mBuf.length ∧ b' = { b with mUsed := b.mEnd } := by
  by_cases hle : (b.mUsed - b.mStart).toNat ≤ b.mBuf.length
  · rw [dumpUnusedData_of_le hle] at h
    exact ⟨hle, (Prod.mk.inj (Option.some.inj h)).2.symm⟩
  · rw [dumpUnusedData_none (not_le.mp hle)] at h
    cases h

theorem Broken.not_marksOk (h : b.Broken) : ¬ b.MarksOk := by
  rintro ⟨h1, h2⟩
  rcases h with h | h
  · omega
  · exact h h2

/-- `b'` is the buffer `b` as the decoder leaves it. -/
def HandedOut (b b' : CTcpSegBuf) : Prop :=
  b' = b ∨ ∃ out b1, b.dumpUnusedData = some (out, b1) ∧ (b' = b1 ∨ b' = b1.setUsedPos 0)

theorem MarksOk.handedOut {b' : CTcpSegBuf} (h : b.MarksOk) (hb : HandedOut b b') : b'.MarksOk := by
  rcases hb with rfl | ⟨out, b1, hdump, hb⟩
  · exact h
  · obtain ⟨-, rfl⟩ := dumpUnusedData_eq_some hdump
    rcases hb with rfl | rfl
    · exact h.used_up
    · exact h.used_up.reset

theorem Broken.handedOut {b' : CTcpSegBuf} (h : b.Broken) (hb : HandedOut b b') : ¬ b'.MarksOk := by
  rcases hb with rfl | ⟨out, b1, hdump, hb⟩
  · exact h.not_marksOk
  · obtain ⟨hle, rfl⟩ := dumpUnusedData_eq_some hdump
    have hlen : (b.mEnd - b.mStart).toNat ≠ b.mBuf.length := h.resolve_left (by omega)
    rcases hb with rfl | rfl
    · exact fun hm => hlen hm.2
    · exact fun hm => hlen hm.2

end CTcpSegBuf

/-! ## One packet -/

section Packet

variable {P : HttpParser} {db : CDBManager} {s : CTcpSession P} {p : CL4Info}

namespace CTcpSession

/-- A packet of the client whose payload is inserted. -/
theorem Saves.receive_toServer (h : s.Saves p) (hdir : s.getDirection p = .toServer)
    {b : CTcpSegBuf} (hb : (s.mContinuousSeg .toServer).insertData p.seqNum p.l5Data = some b) :
    (s.receive db p = .error .segBuf ∧ b.dumpUnusedData = none) ∨ s.receive db p = .error .url ∨
      ∃ s' rst, s.receive db p = .ok (s', rst) ∧
        b.HandedOut (s'.mContinuousSeg .toServer) := by
  have hb' : ((s.setLastUpdateTime p.tvSec).mContinuousSeg .toServer).insertData p.seqNum p.l5Data =
      some b := hb
  rw [h.receive_eq, hdir]
  rcases takePayload_toServer hb' with ⟨hs, hd⟩ | hs | ⟨s', hs, -, hseg⟩
  · rw [hs]
    exact Or.inl ⟨rfl, hd⟩
  · rw [hs]
    exact Or.inr (Or.inl rfl)
  · rw [hs]
    refine Or.inr (Or.inr ⟨((s'.finishMe p .toServer).blockMe db p).1, _, rfl, ?_⟩)
    rw [blockMe_seg, finishMe_seg]
    exact hseg

/-- A packet of the server whose payload is inserted. -/
theorem Saves.receive_toClient (h : s.Saves p) (hdir : s.getDirection p = .toClient)
    {b : CTcpSegBuf} (hb : (s.mContinuousSeg .toClient).insertData p.seqNum p.l5Data = some b) :
    ∃ s' rst, s.receive db p = .ok (s', rst) ∧
      s'.mContinuousSeg .toServer = s.mContinuousSeg .toServer := by
  have hb' : ((s.setLastUpdateTime p.tvSec).mContinuousSeg .toClient).insertData p.seqNum p.l5Data =
      some b := hb
  rw [h.receive_eq, hdir]
  obtain ⟨s', hs, -, hseg⟩ := takePayload_toClient hb'
  rw [hs]
  refine ⟨((s'.finishMe p .toClient).blockMe db p).1, _, rfl, ?_⟩
  rw [blockMe_seg, finishMe_seg]
  exact hseg

theorem Saves.receive_none (h : s.Saves p)
    (hb : (s.mContinuousSeg (s.getDirection p)).insertData p.seqNum p.l5Data = none) :
    s.receive db p = .error .segBuf := by
  have hb' : ((s.setLastUpdateTime p.tvSec).mContinuousSeg (s.getDirection p)).insertData
      p.seqNum p.l5Data = none := hb
  rw [h.receive_eq, takePayload_none hb']
  rfl

end CTcpSession

/-- A packet that keeps the rule. -/
theorem receive_of_seqInRange (hsaves : s.Saves p) (h : s.SeqInRange p)
    (ht : (s.mContinuousSeg .toServer).Tidy) :
    s.receive db p = .error .url ∨ ∃ s' rst, s.receive db p = .ok (s', rst) ∧
      if s.getDirection p = .toServer then (s'.mContinuousSeg .toServer).MarksOk
      else s'.mContinuousSeg .toServer = s.mContinuousSeg .toServer := by
  unfold CTcpSession.SeqInRange at h
  cases hdir : s.getDirection p with
  | toServer =>
    rw [hdir] at h
    obtain ⟨b, hb, hm⟩ := h.insertData ht (List.length_pos_of_ne_nil hsaves.2.2)
    rcases hsaves.receive_toServer hdir hb with ⟨-, hd⟩ | hr | ⟨s', rst, hr, hseg⟩
    · rw [CTcpSegBuf.dumpUnusedData_of_le (hm.1.trans_eq hm.2)] at hd
      cases hd
    · exact Or.inl hr
    · refine Or.inr ⟨s', rst, hr, ?_⟩
      rw [if_pos rfl]
      exact hm.handedOut hseg
  | toClient =>
    rw [hdir] at h
    obtain ⟨b, hb⟩ := h.insertData
    obtain ⟨s', rst, hr, hseg⟩ := hsaves.receive_toClient hdir hb
    refine Or.inr ⟨s', rst, hr, ?_⟩
    rw [if_neg (by decide)]
    exact hseg

/-- A packet that breaks the rule. -/
theorem receive_of_not_seqInRange (hsaves : s.Saves p) (h : ¬ s.SeqInRange p)
    (ht : (s.mContinuousSeg .toServer).Tidy) :
    s.receive db p = .error .segBuf ∨ s.receive db p = .error .url ∨
      ∃ s' rst, s.receive db p = .ok (s', rst) ∧ s.getDirection p = .toServer ∧
        ¬ (s'.mContinuousSeg .toServer).MarksOk := by
  unfold CTcpSession.SeqInRange at h
  cases hdir : s.getDirection p with
  | toServer =>
    rw [hdir] at h
    have hpos : 0 < p.l5Data.length := List.length_pos_of_ne_nil hsaves.2.2
    rcases CTcpSegBuf.insertData_of_not_accepts h ht hpos p.length_lt with hb | ⟨b, hb, hbroken⟩
    · exact Or.inl (hsaves.receive_none (by rw [hdir]; exact hb))
    · rcases hsaves.receive_toServer hdir hb with ⟨hr, -⟩ | hr | ⟨s', rst, hr, hseg⟩
      · exact Or.inl hr
      · exact Or.inr (Or.inl hr)
      · exact Or.inr (Or.inr ⟨s', rst, hr, rfl, hbroken.handedOut hseg⟩)
  | toClient =>
    rw [hdir] at h
    have hb := CTcpSegBuf.insertData_of_not_reaches p.length_lt h
    exact Or.inl (hsaves.receive_none (by rw [hdir]; exact hb))

end Packet

/-! ## Runs -/

section Run

variable {P : HttpParser} {db : CDBManager} {sess : CTcpSession P} {pre : List CL4Info} {p : CL4Info}

theorem clientSent_snoc : ClientSent db sess (pre ++ [p]) ↔ ClientSent db sess pre ∨
    ∃ s, sess.run db pre = .ok s ∧ s.Saves p ∧ s.getDirection p = .toServer :=
  someStep_snoc

/-- The invariant of the packets that keep the rule: nothing has thrown at a buffer, and the buffer of
the client is as it should be. -/
def RangeInv (db : CDBManager) (sess : CTcpSession P) (pkts : List CL4Info) : Prop :=
  sess.run db pkts = .error .url ∨ ∃ s, sess.run db pkts = .ok s ∧
    (s.mContinuousSeg .toServer).Tidy ∧
    (ClientSent db sess pkts → (s.mContinuousSeg .toServer).MarksOk)

theorem rangeInv_nil (h : (sess.mContinuousSeg .toServer).mEnd = 0) : RangeInv db sess [] :=
  Or.inr ⟨sess, rfl, Or.inl h, fun hsent => absurd hsent someStep_nil⟩

theorem RangeInv.inRange (h : RangeInv db sess pre) : InRange db sess pre := by
  unfold InRange
  rcases h with h | ⟨s, h, -, hm⟩
  · rw [h]
    trivial
  · rw [h]
    exact hm

theorem run_snoc_of_receive {s : CTcpSession P} (hrun : sess.run db pre = .ok s)
    {r : Except OutOfRange (CTcpSession P × Option Rst)} (hr : s.receive db p = r) :
    sess.run db (pre ++ [p]) = r.map Prod.fst := by
  rw [CTcpSession.run_snoc, hrun, ← hr]
  rfl

theorem RangeInv.step (h : RangeInv db sess pre) (hp : SeqInRange db sess pre p) :
    RangeInv db sess (pre ++ [p]) := by
  rcases h with h | ⟨s, hrun, ht, hm⟩
  · left
    rw [CTcpSession.run_snoc, h]
    rfl
  by_cases hsaves : s.Saves p
  · rcases receive_of_seqInRange hsaves (hp s hrun hsaves) ht with hr | ⟨s', rst, hr, hseg⟩
    · exact Or.inl (run_snoc_of_receive hrun hr)
    · refine Or.inr ⟨s', run_snoc_of_receive hrun hr, ?_⟩
      split_ifs at hseg with hdir
      · exact ⟨Or.inr hseg, fun _ => hseg⟩
      · -- a payload of the server leaves the buffer and the history of the client alone
        rw [hseg]
        refine ⟨ht, fun hsent => hm ((clientSent_snoc.mp hsent).resolve_right ?_)⟩
        rintro ⟨s1, hrun1, -, hdir1⟩
        obtain rfl := Except.ok.inj (hrun.symm.trans hrun1)
        exact hdir hdir1
  · obtain ⟨s', rst, hr, hseg⟩ := CTcpSession.receive_of_not_saves hsaves
    refine Or.inr ⟨s', run_snoc_of_receive hrun hr, ?_⟩
    rw [hseg]
    refine ⟨ht, fun hsent => hm ((clientSent_snoc.mp hsent).resolve_right ?_)⟩
    rintro ⟨s1, hrun1, hsaves1, -⟩
    obtain rfl := Except.ok.inj (hrun.symm.trans hrun1)
    exact hsaves hsaves1

theorem RangeInv.seqInRange (h : RangeInv db sess pre) (hin : InRange db sess (pre ++ [p]))
    (hurl : sess.run db (pre ++ [p]) ≠ .error .url) : SeqInRange db sess pre p := by
  intro s hrun hsaves
  by_contra hbad
  rcases h with h | ⟨s1, hrun1, ht, -⟩
  · rw [hrun] at h
    cases h
  obtain rfl := Except.ok.inj (hrun1.symm.trans hrun)
  unfold InRange at hin
  rcases receive_of_not_seqInRange hsaves hbad ht with hr | hr | ⟨s', rst, hr, hdir, hm⟩
  · rw [run_snoc_of_receive hrun hr] at hin
    exact hin
  · exact hurl (run_snoc_of_receive hrun hr)
  · rw [run_snoc_of_receive hrun hr] at hin
    exact hm (hin (clientSent_snoc.mpr (Or.inr ⟨s1, hrun, hsaves, hdir⟩)))

theorem run_ne_url_of_prefix {pkts : List CL4Info} (h : sess.run db pkts ≠ .error .url)
    (hpre : pre <+: pkts) : sess.run db pre ≠ .error .url := by
  obtain ⟨post, rfl⟩ := hpre
  intro hurl
  apply h
  rw [CTcpSession.run, List.foldlM_append]
  change (sess.run db pre).bind _ = _
  rw [hurl]
  rfl

end Run

theorem created_toServer {P : HttpParser} (cfg : CConfig) (db : CDBManager) (syn : CL4Info) :
    ((CTcpSession.created cfg db syn : CTcpSession P).mContinuousSeg .toServer).mEnd = 0 := by
  rw [CTcpSession.created, CTcpSession.blockMe_seg, (CTcpSession.fresh_opened cfg syn).toServer]
  rfl

/-- The buffers of a session that the packet `syn` has created are used within their bounds at every
moment, if the sequence number of each packet keeps the rule `SeqInRange`. The other way round, a run
that stays within the bounds and does not end in an exception at the URL keeps the rule. -/
theorem inRange_of_seqInRange (P : HttpParser) (cfg : CConfig) (db : CDBManager) (syn : CL4Info)
    (pkts : List CL4Info) :
    (EachStep (SeqInRange db (CTcpSession.created cfg db syn : CTcpSession P)) pkts →
      Always (InRange db (CTcpSession.created cfg db syn : CTcpSession P)) pkts) ∧
    ((CTcpSession.created cfg db syn : CTcpSession P).run db pkts ≠ .error .url →
      Always (InRange db (CTcpSession.created cfg db syn : CTcpSession P)) pkts →
      EachStep (SeqInRange db (CTcpSession.created cfg db syn : CTcpSession P)) pkts) := by
  have h0 : RangeInv db (CTcpSession.created cfg db syn : CTcpSession P) [] :=
    rangeInv_nil (created_toServer cfg db syn)
  constructor
  · intro h p hp
    exact (always_of_eachStep h0 (fun pre p h hp => h.step hp) h p hp).inRange
  · intro hurl h
    refine eachStep_of_always (P := fun pre => InRange db (CTcpSession.created cfg db syn) pre ∧
      (CTcpSession.created cfg db syn : CTcpSession P).run db pre ≠ .error .url) h0 ?_
      fun p hp => ⟨h p hp, run_ne_url_of_prefix hurl hp⟩
    rintro pre p hinv ⟨hin, hne⟩
    have hsafe := hinv.seqInRange hin hne
    exact ⟨hsafe, hinv.step hsafe⟩

/-- Two segments of the client in order and the second one again stay within the bounds. -/
theorem inRange_in_order :
    Always (InRange .empty (CTcpSession.created ⟨[80], []⟩ .empty
        (clientPacket 999 0x02 [] (by decide)) : CTcpSession (.scripted [])))
      [clientPacket 1000 0x18 [71] (by decide), clientPacket 1001 0x18 [69] (by decide),
        clientPacket 1001 0x18 [69] (by decide)] := by
  refine (inRange_of_seqInRange (.scripted []) ⟨[80], []⟩ .empty _ _).1 ?_
  refine (eachStep_snoc (l := [_, _])).mpr ⟨(eachStep_snoc (l := [_])).mpr
    ⟨(eachStep_snoc (l := [])).mpr ⟨eachStep_nil, ?_⟩, ?_⟩, ?_⟩
  · rintro s ⟨⟩ -
    decide
  · rintro s ⟨⟩ -
    decide
  · rintro s ⟨⟩ -
    decide

/-- A payload of the client with the number of the SYN, as a keep-alive probe has it: the position in
the buffer is `2 ^ 32 - 1`. -/
theorem not_inRange_keep_alive :
    ¬ InRange .empty (CTcpSession.created ⟨[80], []⟩ .empty
        (clientPacket 999 0x02 [] (by decide)) : CTcpSession (.scripted []))
      [clientPacket 999 0x10 [0] (by decide)] := by
  intro h
  exact h

end Killerfinder
