import DeepSecurity.Killerfinder.Proofs.SessionProofs

/-!
# Proofs: when a session is closed

The state of a session knows which direction has been finished since the last SYN, and no more. As
long as the packets keep the rule `OrderlyEnd` this is enough to tell the end of the connection.
-/

namespace Killerfinder

open Trace

/-! ## The state machine -/

/-- The state in which only the direction `dir` has been finished. -/
def TcpState.finished : Direction → TcpState
  | .toServer => .clientFinished
  | .toClient => .serverFinished

/-- The state after `updateMe` of a packet in the direction `dir`. -/
def TcpState.next (st : TcpState) (dir : Direction) (p : CL4Info) : TcpState :=
  if p.isSynSet = true then .handshake
  else
    let st := if p.l5Data ≠ [] then st.afterPayload dir else st
    if p.isRstSet = true then .closed
    else if p.isFinSet = true then st.afterFin dir
    else st

namespace TcpState

variable {st : TcpState} {dir dir' : Direction} {p : CL4Info}

theorem finished_inj : finished dir = finished dir' ↔ dir = dir' := by
  cases dir <;> cases dir' <;> decide

theorem afterPayload_finished : (finished dir).afterPayload dir = .closed := by
  cases dir <;> rfl

theorem afterPayload_closed : closed.afterPayload dir = .closed := by
  cases dir <;> rfl

theorem afterFin_closed : closed.afterFin dir = .closed := by
  cases dir <;> rfl

/-- A payload in a direction that is not finished neither closes the session nor changes which
direction is finished. -/
theorem afterPayload_open (hst : st ≠ .closed) (hfin : st ≠ finished dir) :
    st.afterPayload dir ≠ .closed ∧
      ∀ dir', st.afterPayload dir = finished dir' ↔ st = finished dir' := by
  cases st <;> cases dir <;>
    first
    | exact absurd rfl hst
    | exact absurd rfl hfin
    | exact ⟨by decide, fun dir' => by cases dir' <;> decide⟩

theorem afterFin_finished : (finished dir.other).afterFin dir = .closed := by
  cases dir <;> rfl

theorem afterFin_open (hst : st ≠ .closed) (hfin : st ≠ finished dir.other) :
    st.afterFin dir = finished dir := by
  cases st <;> cases dir <;>
    first
    | exact absurd rfl hst
    | exact absurd rfl hfin
    | rfl

end TcpState

namespace CTcpSession

variable {P : HttpParser} {db : CDBManager} {s s' : CTcpSession P} {p : CL4Info} {dir : Direction}

theorem finishMe_tcpState : (s.finishMe p dir).mTcpState =
    if p.isRstSet = true then .closed
    else if p.isFinSet = true then s.mTcpState.afterFin dir
    else s.mTcpState := by
  unfold finishMe
  by_cases hrst : p.isRstSet = true
  · simp [hrst]
  · by_cases hfin : p.isFinSet = true
    · simp [hrst, hfin]
    · simp [hrst, hfin]

/-- `updateMe` follows the state machine. -/
theorem updateMe_tcpState (h : s.updateMe db p = .ok s') :
    s'.mSessId = s.mSessId ∧ s'.mTcpState = s.mTcpState.next (s.getDirection p) p := by
  unfold updateMe at h
  by_cases hsyn : p.isSynSet = true
  · simp only [hsyn, if_true] at h
    split_ifs at h
    · obtain rfl := Except.ok.inj h
      exact ⟨rfl, by simp only [TcpState.next, hsyn, if_true]; rfl⟩
    · obtain rfl := Except.ok.inj h
      exact ⟨rfl, by simp only [TcpState.next, hsyn, if_true]⟩
  · simp only [hsyn, if_false, gt_iff_lt, List.length_pos_iff, Bool.false_eq_true] at h
    split_ifs at h with hdata
    · rcases ht : s.takePayload db p (s.getDirection p) with e | s1
      · rw [ht] at h
        cases h
      · rw [ht] at h
        obtain rfl := Except.ok.inj h
        have htaken := takePayload_taken ht
        refine ⟨by rw [finishMe_sessId, htaken.sessId], ?_⟩
        rw [finishMe_tcpState, htaken.tcpState]
        simp only [TcpState.next, hsyn, hdata, if_true, if_false, ne_eq, not_false_eq_true,
          Bool.false_eq_true]
    · obtain rfl := Except.ok.inj h
      refine ⟨finishMe_sessId, ?_⟩
      rw [finishMe_tcpState]
      simp only [TcpState.next, hsyn, hdata, if_false, Bool.false_eq_true]

end CTcpSession

/-! ## The history of a connection -/

section History

variable {id : CTcpSessionId} {dir : Direction} {pre : List CL4Info} {p : CL4Info}

theorem finSeen_snoc : FinSeen id dir (pre ++ [p]) ↔
    FinSeen id dir pre ∨ (p.isFinSet = true ∧ id.getDirection p = dir) := by
  simp [FinSeen, or_and_right, exists_or]

theorem finSinceSyn_snoc : finSinceSyn id dir (pre ++ [p]) =
    (!p.isSynSet && (finSinceSyn id dir pre || (p.isFinSet && id.getDirection p = dir))) := by
  simp [finSinceSyn]

theorem finSeen_of_finSinceSyn (h : finSinceSyn id dir pre = true) : FinSeen id dir pre := by
  induction pre using List.reverseRecOn with
  | nil => simp [finSinceSyn] at h
  | append_singleton pre p ih =>
    rw [finSinceSyn_snoc] at h
    simp only [Bool.and_eq_true, Bool.or_eq_true, decide_eq_true_eq] at h
    rw [finSeen_snoc]
    exact h.2.imp_left ih

/-- The connection is over if both directions are finished. -/
theorem terminated_of_finSeen (h : FinSeen id dir pre) (h' : FinSeen id dir.other pre) :
    Terminated id pre := by
  cases dir with
  | toServer => exact Or.inr ⟨h, h'⟩
  | toClient => exact Or.inr ⟨h', h⟩

theorem Terminated.snoc (h : Terminated id pre) : Terminated id (pre ++ [p]) := by
  rcases h with ⟨q, hq, hrst⟩ | ⟨h1, h2⟩
  · exact Or.inl ⟨q, List.mem_append_left _ hq, hrst⟩
  · exact Or.inr ⟨finSeen_snoc.mpr (Or.inl h1), finSeen_snoc.mpr (Or.inl h2)⟩

/-- What ends a connection that is not over. -/
theorem terminated_snoc_iff (h : ¬ Terminated id pre) : Terminated id (pre ++ [p]) ↔
    p.isRstSet = true ∨ (p.isFinSet = true ∧ FinSeen id (id.getDirection p).other pre) := by
  constructor
  · rintro (⟨q, hq, hrst⟩ | ⟨h1, h2⟩)
    · rcases List.mem_append.mp hq with hq | hq
      · exact absurd (Or.inl ⟨q, hq, hrst⟩) h
      · rw [List.mem_singleton.mp hq] at hrst
        exact Or.inl hrst
    · right
      rcases finSeen_snoc.mp h1 with h1 | ⟨hfin, hdir⟩
      · rcases finSeen_snoc.mp h2 with h2 | ⟨hfin, hdir⟩
        · exact absurd (Or.inr ⟨h1, h2⟩) h
        · rw [hdir]
          exact ⟨hfin, h1⟩
      · rcases finSeen_snoc.mp h2 with h2 | ⟨-, hdir'⟩
        · rw [hdir]
          exact ⟨hfin, h2⟩
        · cases hdir.symm.trans hdir'
  · rintro (hrst | ⟨hfin, hseen⟩)
    · exact Or.inl ⟨p, by simp, hrst⟩
    · exact terminated_of_finSeen (finSeen_snoc.mpr (Or.inr ⟨hfin, rfl⟩))
        (finSeen_snoc.mpr (Or.inl hseen))

end History

/-! ## One packet -/

/-- The state `st` after the packets `pre`: closed if they end the connection, and otherwise aware of
the direction that has been finished since the last SYN. -/
structure CloseInv (id : CTcpSessionId) (pre : List CL4Info) (st : TcpState) : Prop where
  closed_iff : st = .closed ↔ Terminated id pre
  finished_iff : st ≠ .closed → ∀ dir, st = .finished dir ↔ finSinceSyn id dir pre = true

namespace CloseInv

variable {id : CTcpSessionId} {pre : List CL4Info} {st : TcpState} {p : CL4Info}

theorem nil (id : CTcpSessionId) : CloseInv id [] .handshake := by
  refine ⟨?_, ?_⟩
  · simp [Terminated, FinSeen]
  · intro _ dir
    cases dir <;> simp [TcpState.finished, finSinceSyn]

/-- The state after the payload of a packet, if the direction of a payload is not finished. -/
theorem afterPayload (h : CloseInv id pre st) (hst : st ≠ .closed)
    (hdata : p.l5Data ≠ [] → finSinceSyn id (id.getDirection p) pre ≠ true) :
    (if p.l5Data ≠ [] then st.afterPayload (id.getDirection p) else st) ≠ .closed ∧
    ∀ dir, (if p.l5Data ≠ [] then st.afterPayload (id.getDirection p) else st) = .finished dir ↔
      finSinceSyn id dir pre = true := by
  by_cases hp : p.l5Data = []
  · simp only [hp, ne_eq, not_true_eq_false, if_false]
    exact ⟨hst, h.finished_iff hst⟩
  · simp only [hp, ne_eq, not_false_eq_true, if_true]
    have hfin : st ≠ .finished (id.getDirection p) :=
      (h.finished_iff hst _).not.mpr (hdata hp)
    obtain ⟨hopen, hsame⟩ := TcpState.afterPayload_open hst hfin
    exact ⟨hopen, fun dir => (hsame dir).trans (h.finished_iff hst dir)⟩

/-- Once closed, only a SYN opens the session again. -/
theorem next_closed (hsyn : ¬ p.isSynSet = true) (dir : Direction) :
    TcpState.next .closed dir p = .closed := by
  simp only [TcpState.next, hsyn, if_false, TcpState.afterPayload_closed, ite_self,
    TcpState.afterFin_closed, Bool.false_eq_true]

theorem step_syn (hsyn : p.isSynSet = true) (hp : ¬ Terminated id (pre ++ [p])) :
    CloseInv id (pre ++ [p]) (st.next (id.getDirection p) p) := by
  simp only [TcpState.next, hsyn, if_true]
  refine ⟨⟨fun h => ?_, fun h => absurd h hp⟩, fun _ dir => ?_⟩
  · cases h
  · rw [finSinceSyn_snoc, hsyn]
    cases dir <;> simp [TcpState.finished]

theorem step (h : CloseInv id pre st) (hp : OrderlyEnd id pre p) :
    CloseInv id (pre ++ [p]) (st.next (id.getDirection p) p) := by
  unfold OrderlyEnd at hp
  split_ifs at hp with hsyn
  · exact step_syn hsyn hp
  by_cases hT : Terminated id pre
  · rw [h.closed_iff.mpr hT, next_closed hsyn]
    exact ⟨⟨fun _ => hT.snoc, fun _ => rfl⟩, fun hne => absurd rfl hne⟩
  have hst : st ≠ .closed := fun hc => hT (h.closed_iff.mp hc)
  obtain ⟨hdata, hfins⟩ := hp hT
  by_cases hrst : p.isRstSet = true
  · simp only [TcpState.next, hsyn, hrst, if_true, if_false, Bool.false_eq_true]
    exact ⟨⟨fun _ => (terminated_snoc_iff hT).mpr (Or.inl hrst), fun _ => rfl⟩,
      fun hne => absurd rfl hne⟩
  obtain ⟨hopen, hsame⟩ := h.afterPayload hst fun hd hf => hrst (hdata hd hf)
  have hrst' : p.isRstSet = false := by simpa using hrst
  have hsyn' : p.isSynSet = false := by simpa using hsyn
  have hT' := terminated_snoc_iff (p := p) hT
  simp only [TcpState.next, hsyn, hrst, if_false, Bool.false_eq_true]
  by_cases hfin : p.isFinSet = true
  · simp only [hfin, if_true]
    by_cases hother : (if p.l5Data ≠ [] then st.afterPayload (id.getDirection p) else st) =
        .finished (id.getDirection p).other
    · -- the other direction has been finished before
      rw [hother, TcpState.afterFin_finished]
      have hseen := finSeen_of_finSinceSyn ((hsame _).mp hother)
      exact ⟨⟨fun _ => hT'.mpr (Or.inr ⟨hfin, hseen⟩), fun _ => rfl⟩, fun hne => absurd rfl hne⟩
    · -- this is the first direction that is finished
      rw [TcpState.afterFin_open hopen hother]
      have hnot : finSinceSyn id (id.getDirection p).other pre ≠ true :=
        (hsame _).not.mp hother
      refine ⟨⟨fun hc => ?_, fun hterm => ?_⟩, fun _ dir => ?_⟩
      · cases hd : id.getDirection p <;> rw [hd] at hc <;> cases hc
      · rcases hT'.mp hterm with hr | ⟨-, hseen⟩
        · exact absurd hr hrst
        · exact absurd (hfins hfin hrst' hseen) hnot
      · rw [TcpState.finished_inj, finSinceSyn_snoc, hsyn', hfin]
        cases hd : id.getDirection p <;> cases dir <;> simp_all [Direction.other]
  · simp only [hfin, if_false, Bool.false_eq_true]
    have hfin' : p.isFinSet = false := by simpa using hfin
    refine ⟨⟨fun hc => absurd hc hopen, fun hterm => ?_⟩, fun _ dir => ?_⟩
    · rcases hT'.mp hterm with hr | ⟨hf, -⟩
      · exact absurd hr hrst
      · exact absurd hf hfin
    · rw [hsame dir, finSinceSyn_snoc, hsyn', hfin']
      simp

theorem step_bad (h : CloseInv id pre st) (hp : ¬ OrderlyEnd id pre p) :
    ¬ (st.next (id.getDirection p) p = .closed ↔ Terminated id (pre ++ [p])) := by
  unfold OrderlyEnd at hp
  split_ifs at hp with hsyn
  · simp only [TcpState.next, hsyn, if_true]
    intro hiff
    cases hiff.mpr (not_not.mp hp)
  push Not at hp
  obtain ⟨hT, hbad⟩ := hp
  have hst : st ≠ .closed := fun hc => hT (h.closed_iff.mp hc)
  have hT' := terminated_snoc_iff (p := p) hT
  by_cases hdata : p.l5Data ≠ [] ∧ finSinceSyn id (id.getDirection p) pre = true ∧
      p.isRstSet = false
  · -- a payload after the FIN of its direction closes the session
    obtain ⟨hd, hown, hrst⟩ := hdata
    rw [(h.finished_iff hst _).mpr hown]
    simp only [TcpState.next, hsyn, hd, hrst, if_true, if_false, ne_eq, not_false_eq_true,
      TcpState.afterPayload_finished, TcpState.afterFin_closed, ite_self, Bool.false_eq_true]
    intro hiff
    rcases hT'.mp (hiff.mp trivial) with hr | ⟨-, hseen⟩
    · rw [hrst] at hr
      cases hr
    · exact hT (terminated_of_finSeen (finSeen_of_finSinceSyn hown) hseen)
  · -- the FIN of the other direction is forgotten
    push Not at hdata
    have hdata' : p.l5Data ≠ [] → finSinceSyn id (id.getDirection p) pre = true →
        p.isRstSet = true := fun h1 h2 => by simpa using hdata h1 h2
    obtain ⟨hfin, hrst, hseen, hnot⟩ := hbad hdata'
    have hrst' : ¬ p.isRstSet = true := by simp [hrst]
    obtain ⟨hopen, hsame⟩ := h.afterPayload hst fun h1 h2 => hrst' (hdata' h1 h2)
    simp only [TcpState.next, hsyn, hrst', hfin, if_true, if_false, Bool.false_eq_true]
    rw [TcpState.afterFin_open hopen ((hsame _).not.mpr hnot)]
    intro hiff
    have hc := hiff.mpr (hT'.mpr (Or.inr ⟨hfin, hseen⟩))
    cases hd : id.getDirection p <;> rw [hd] at hc <;> cases hc

end CloseInv

/-! ## Runs -/

section Run

variable {P : HttpParser} {db : CDBManager} {sess : CTcpSession P} {pre : List CL4Info} {p : CL4Info}

/-- The invariant of the packets that keep the rule. -/
def CloseRun (db : CDBManager) (sess : CTcpSession P) (pkts : List CL4Info) : Prop :=
  ∀ s, sess.runUpdate db pkts = .ok s →
    s.mSessId = sess.mSessId ∧ CloseInv sess.mSessId pkts s.mTcpState

theorem closeRun_nil (h : sess.mTcpState = .handshake) : CloseRun db sess [] := by
  rintro s ⟨⟩
  refine ⟨rfl, ?_⟩
  rw [h]
  exact CloseInv.nil _

theorem isClosed_iff {s : CTcpSession P} : s.isClosed = true ↔ s.mTcpState = .closed := by
  simp [CTcpSession.isClosed]

theorem CloseRun.closedIffTerminated (h : CloseRun db sess pre) :
    ClosedIffTerminated db sess pre :=
  fun s hs => isClosed_iff.trans (h s hs).2.closed_iff

theorem runUpdate_snoc_ok {s' : CTcpSession P} (h : sess.runUpdate db (pre ++ [p]) = .ok s') :
    ∃ s, sess.runUpdate db pre = .ok s ∧ s.updateMe db p = .ok s' :=
  foldlM_snoc_ok h

theorem CloseRun.step (h : CloseRun db sess pre) (hp : OrderlyEnd sess.mSessId pre p) :
    CloseRun db sess (pre ++ [p]) := by
  intro s' hs'
  obtain ⟨s, hs, hup⟩ := runUpdate_snoc_ok hs'
  obtain ⟨hid, hinv⟩ := h s hs
  obtain ⟨hid', hst⟩ := CTcpSession.updateMe_tcpState hup
  refine ⟨hid'.trans hid, ?_⟩
  rw [hst, CTcpSession.getDirection, hid]
  exact hinv.step hp

theorem CloseRun.orderlyEnd (h : CloseRun db sess pre) {s' : CTcpSession P}
    (hs' : sess.runUpdate db (pre ++ [p]) = .ok s')
    (hclosed : ClosedIffTerminated db sess (pre ++ [p])) : OrderlyEnd sess.mSessId pre p := by
  by_contra hbad
  obtain ⟨s, hs, hup⟩ := runUpdate_snoc_ok hs'
  obtain ⟨hid, hinv⟩ := h s hs
  obtain ⟨-, hst⟩ := CTcpSession.updateMe_tcpState hup
  rw [CTcpSession.getDirection, hid] at hst
  apply hinv.step_bad hbad
  rw [← hst, ← isClosed_iff]
  exact hclosed s' hs'

theorem runUpdate_ok_of_prefix {pkts : List CL4Info} {s' : CTcpSession P}
    (h : sess.runUpdate db pkts = .ok s') (hpre : pre <+: pkts) :
    ∃ s, sess.runUpdate db pre = .ok s := by
  obtain ⟨post, rfl⟩ := hpre
  rw [CTcpSession.runUpdate, List.foldlM_append] at h
  rcases hs : sess.runUpdate db pre with e | s
  · rw [CTcpSession.runUpdate] at hs
    rw [hs] at h
    cases h
  · exact ⟨s, rfl⟩

end Run

theorem created_tcpState (P : HttpParser) (cfg : CConfig) (db : CDBManager) (syn : CL4Info) :
    (CTcpSession.created cfg db syn : CTcpSession P).mSessId = syn.sessionId ∧
      (CTcpSession.created cfg db syn : CTcpSession P).mTcpState = .handshake := by
  have h : (CTcpSession.opened cfg syn : CTcpSession P).Fresh syn := CTcpSession.fresh_opened cfg syn
  rw [CTcpSession.created, CTcpSession.blockMe_sessId, CTcpSession.blockMe_tcpState]
  exact ⟨h.sessId, h.tcpState⟩

/-- A session is closed exactly when its connection is over, at every moment, if each packet keeps
the rule `OrderlyEnd`. The other way round, a run without an exception in which this is so at every
moment keeps the rule. -/
theorem closedIffTerminated_of_orderlyEnd (P : HttpParser) (cfg : CConfig) (db : CDBManager)
    (syn : CL4Info) (pkts : List CL4Info) :
    (EachStep (OrderlyEnd syn.sessionId) pkts →
      Always (ClosedIffTerminated db (CTcpSession.created cfg db syn : CTcpSession P)) pkts) ∧
    ((∃ s, (CTcpSession.created cfg db syn : CTcpSession P).runUpdate db pkts = .ok s) →
      Always (ClosedIffTerminated db (CTcpSession.created cfg db syn : CTcpSession P)) pkts →
      EachStep (OrderlyEnd syn.sessionId) pkts) := by
  obtain ⟨hid, hst⟩ := created_tcpState P cfg db syn
  have h0 : CloseRun db (CTcpSession.created cfg db syn : CTcpSession P) [] := closeRun_nil hst
  rw [← hid]
  constructor
  · intro h p hp
    exact (always_of_eachStep h0 (fun pre p h hp => h.step hp) h p hp).closedIffTerminated
  · rintro ⟨s, hs⟩ h
    refine eachStep_of_always (P := fun pre =>
      ClosedIffTerminated db (CTcpSession.created cfg db syn : CTcpSession P) pre ∧
      ∃ s, (CTcpSession.created cfg db syn : CTcpSession P).runUpdate db pre = .ok s) h0 ?_
      fun p hp => ⟨h p hp, runUpdate_ok_of_prefix hs hp⟩
    rintro pre p hinv ⟨hclosed, s', hs'⟩
    have hsafe := hinv.orderlyEnd hs' hclosed
    exact ⟨hsafe, hinv.step hsafe⟩

/-- A connection that the client and then the server finish is closed exactly with the second FIN. -/
theorem closedIffTerminated_two_fins :
    Always (ClosedIffTerminated .empty (CTcpSession.created ⟨[80], []⟩ .empty
        (clientPacket 999 0x02 [] (by decide)) : CTcpSession (.scripted [])))
      [clientPacket 1000 0x18 [71] (by decide), clientPacket 1001 0x11 [] (by decide),
        serverPacket 500 0x11 [72] (by decide)] := by
  refine (closedIffTerminated_of_orderlyEnd (.scripted []) ⟨[80], []⟩ .empty _ _).1 ?_
  refine (eachStep_snoc (l := [_, _])).mpr ⟨(eachStep_snoc (l := [_])).mpr
    ⟨(eachStep_snoc (l := [])).mpr ⟨eachStep_nil, ?_⟩, ?_⟩, ?_⟩
  · decide
  · decide
  · decide

/-- The server finishes and one of its segments arrives again: the session is closed although the
client has not finished. -/
theorem not_closedIffTerminated_retransmission :
    ¬ ClosedIffTerminated .empty (CTcpSession.created ⟨[80], []⟩ .empty
        (clientPacket 999 0x02 [] (by decide)) : CTcpSession (.scripted []))
      [serverPacket 501 0x11 [] (by decide), serverPacket 500 0x18 [72] (by decide)] := by
  intro h
  exact absurd ((h _ rfl).mp rfl) (by decide)

end Killerfinder
