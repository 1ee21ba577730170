import DeepSecurity.Killerfinder.SessionRun

/-!
# Proofs: what one packet does to a session

The callbacks of the HTTP decoder change only the decoder and the block flag (`ByCallbacks`); from
this follows what `payloadReceived`, `updateMe` and `receive` do to the rest of the session.
-/

namespace Killerfinder

namespace CTcpSession

variable {P : HttpParser} {db : CDBManager} {s s' : CTcpSession P} {p : CL4Info} {dir : Direction}

/-! ## The decoder leaves the connection alone -/

/-- `s'` comes from `s` by callbacks: only the HTTP decoder and the block flag have changed. -/
structure ByCallbacks (s s' : CTcpSession P) : Prop where
  sessId : s'.mSessId = s.mSessId
  tcpState : s'.mTcpState = s.mTcpState
  seg : s'.mContinuousSeg = s.mContinuousSeg

theorem ByCallbacks.trans {s'' : CTcpSession P} (h : ByCallbacks s s')
    (h' : ByCallbacks s' s'') : ByCallbacks s s'' :=
  ⟨h'.sessId.trans h.sessId, h'.tcpState.trans h.tcpState, h'.seg.trans h.seg⟩

theorem byCallbacks_decoder (decoder : CHttpTxnDecoder P) :
    ByCallbacks s { s with mHttpDecoder := decoder } :=
  ⟨rfl, rfl, rfl⟩

theorem byCallbacks_checkUrl (prot host path : Bytes) :
    ByCallbacks s (s.checkUrl db prot host path) :=
  ⟨rfl, rfl, rfl⟩

theorem requestPath_error {url : Bytes} {e : OutOfRange} (h : requestPath url = .error e) :
    e = .url := by
  unfold requestPath at h
  split_ifs at h
  simp only at h
  split at h
  · exact (Except.error.inj h).symm
  · split at h
    · cases h
    · cases h

theorem byCallbacks_headersCompleteCb : ByCallbacks s (s.headersCompleteCb db) := by
  unfold headersCompleteCb
  by_cases hhost : s.mHttpDecoder.mHostValue = []
  · simp only [hhost, if_true]
    rcases CxxString.find (lit [':', '/', '/']) s.mHttpDecoder.mUrl with _ | hostPos
    · exact byCallbacks_decoder _
    · simp only
      rcases CxxString.find (lit ['/']) _ with _ | pathPos
      · exact (byCallbacks_checkUrl _ _ _).trans (byCallbacks_decoder _)
      · exact (byCallbacks_checkUrl _ _ _).trans (byCallbacks_decoder _)
  · simp only [hhost, if_false]
    exact byCallbacks_decoder _

/-- A `Host` header that is complete is looked up, unless there is no path in the URL. -/
theorem headerValueCb_cases (db : CDBManager) (s : CTcpSession P) (state : ℕ) (buf : Bytes) :
    s.headerValueCb db state buf = .error .url ∨
      ∃ s', s.headerValueCb db state buf = .ok s' ∧ ByCallbacks s s' := by
  unfold headerValueCb
  split_ifs
  · rcases h : requestPath s.mHttpDecoder.mUrl with e | path
    · left
      simp only [h, requestPath_error h]
    · right
      simp only [h]
      exact ⟨_, rfl, (byCallbacks_decoder _).trans (byCallbacks_checkUrl _ _ _)⟩
  · exact Or.inr ⟨_, rfl, byCallbacks_decoder _⟩
  · exact Or.inr ⟨s, rfl, byCallbacks_decoder s.mHttpDecoder⟩

theorem callback_cases (db : CDBManager) (s : CTcpSession P) (event : ParserEvent) :
    s.callback db event = .error .url ∨
      ∃ s', s.callback db event = .ok s' ∧ ByCallbacks s s' := by
  cases event with
  | headersComplete => exact Or.inr ⟨_, rfl, byCallbacks_headersCompleteCb⟩
  | headerValue state buf => exact headerValueCb_cases db s state buf
  | _ => exact Or.inr ⟨_, rfl, byCallbacks_decoder _⟩

theorem callbacks_cases (db : CDBManager) (events : List ParserEvent) (s : CTcpSession P) :
    events.foldlM (callback db) s = .error .url ∨
      ∃ s', events.foldlM (callback db) s = .ok s' ∧ ByCallbacks s s' := by
  induction events generalizing s with
  | nil => exact Or.inr ⟨s, rfl, byCallbacks_decoder s.mHttpDecoder⟩
  | cons event events ih =>
    rw [List.foldlM_cons]
    rcases callback_cases db s event with h | ⟨s', h, hs⟩
    · rw [h]
      exact Or.inl rfl
    · rw [h]
      rcases ih s' with h' | ⟨s'', h', hs'⟩
      · exact Or.inl h'
      · exact Or.inr ⟨s'', h', hs.trans hs'⟩

theorem parserExecute_cases (db : CDBManager) (s : CTcpSession P) (buf : Bytes) :
    s.parserExecute db buf = .error .url ∨
      ∃ s' ok, s.parserExecute db buf = .ok (s', ok) ∧ ByCallbacks s s' := by
  unfold parserExecute
  rcases P.execute s.mHttpDecoder.mParser buf with ⟨state, events, ok⟩
  rcases callbacks_cases db events s with h | ⟨s', h, hs⟩
  · left
    simp only [h]
  · right
    simp only [h]
    exact ⟨_, ok, rfl, hs.trans (byCallbacks_decoder _)⟩

/-! ## The payload hook -/

@[simp]
theorem setContinuousBuf_seg_self (b : CTcpSegBuf) :
    (s.setContinuousBuf dir b).mContinuousSeg dir = b := by
  simp [setContinuousBuf]

@[simp]
theorem setContinuousBuf_toServer (b : CTcpSegBuf) :
    (s.setContinuousBuf .toClient b).mContinuousSeg .toServer = s.mContinuousSeg .toServer := by
  simp [setContinuousBuf]

@[simp]
theorem setContinuousBuf_toClient (b : CTcpSegBuf) :
    (s.setContinuousBuf .toServer b).mContinuousSeg .toClient = s.mContinuousSeg .toClient := by
  simp [setContinuousBuf]

/-- The session `s'` comes from `s` by decoding: only the buffer of the client has changed, to one
of the marks and contents of `b`, used up or reset. -/
structure Decoded (s s' : CTcpSession P) (b : CTcpSegBuf) : Prop where
  sessId : s'.mSessId = s.mSessId
  tcpState : s'.mTcpState = s.mTcpState
  toServer : s'.mContinuousSeg .toServer = b ∨ s'.mContinuousSeg .toServer = b.setUsedPos 0
  toClient : s'.mContinuousSeg .toClient = s.mContinuousSeg .toClient

theorem decodeHttpActive_none (h : (s.mContinuousSeg .toServer).dumpUnusedData = none) :
    s.decodeHttpActive db = .error .segBuf := by
  simp only [decodeHttpActive, h]

theorem decodeHttpActive_some {out : Bytes} {b : CTcpSegBuf}
    (h : (s.mContinuousSeg .toServer).dumpUnusedData = some (out, b)) :
    s.decodeHttpActive db = .error .url ∨
      ∃ s', s.decodeHttpActive db = .ok s' ∧ Decoded s s' b := by
  simp only [decodeHttpActive, h]
  rcases parserExecute_cases db (s.setContinuousBuf .toServer b) out with h' | ⟨s', ok, h', hs⟩
  · left
    rw [h']
  · right
    rw [h']
    have hserver : s'.mContinuousSeg .toServer = b := by
      rw [hs.seg, setContinuousBuf_seg_self]
    have hclient : s'.mContinuousSeg .toClient = s.mContinuousSeg .toClient := by
      rw [hs.seg, setContinuousBuf_toClient]
    cases ok with
    | true => exact ⟨s', rfl, ⟨hs.sessId, hs.tcpState, Or.inl hserver, hclient⟩⟩
    | false =>
      refine ⟨_, rfl, ⟨hs.sessId, hs.tcpState, Or.inr ?_, ?_⟩⟩
      · rw [setContinuousBuf_seg_self]
        exact congrArg (fun b => CTcpSegBuf.setUsedPos b 0) hserver
      · rw [setContinuousBuf_toClient]
        exact hclient

/-! ## One packet -/

theorem takePayload_none
    (h : (s.mContinuousSeg dir).insertData p.seqNum p.l5Data = none) :
    s.takePayload db p dir = .error .segBuf := by
  simp only [takePayload, savePayload, h]

/-- `s'` comes from `s` by a payload in the direction `dir`. -/
structure Taken (s s' : CTcpSession P) (dir : Direction) : Prop where
  sessId : s'.mSessId = s.mSessId
  tcpState : s'.mTcpState = s.mTcpState.afterPayload dir

theorem takePayload_toClient {b : CTcpSegBuf}
    (h : (s.mContinuousSeg .toClient).insertData p.seqNum p.l5Data = some b) :
    ∃ s', s.takePayload db p .toClient = .ok s' ∧ Taken s s' .toClient ∧
      s'.mContinuousSeg .toServer = s.mContinuousSeg .toServer := by
  simp only [takePayload, savePayload, h, payloadReceived, reduceCtorEq, and_false, if_false]
  refine ⟨_, rfl, ⟨rfl, rfl⟩, ?_⟩
  exact setContinuousBuf_toServer b

/-- A payload of the client is inserted, and for an HTTP session handed to the decoder, which moves
the used mark to the end mark or, after an error, to the start mark. -/
theorem takePayload_toServer {b : CTcpSegBuf}
    (h : (s.mContinuousSeg .toServer).insertData p.seqNum p.l5Data = some b) :
    (s.takePayload db p .toServer = .error .segBuf ∧ b.dumpUnusedData = none) ∨
    s.takePayload db p .toServer = .error .url ∨
    ∃ s', s.takePayload db p .toServer = .ok s' ∧ Taken s s' .toServer ∧
      (s'.mContinuousSeg .toServer = b ∨ ∃ out b', b.dumpUnusedData = some (out, b') ∧
        (s'.mContinuousSeg .toServer = b' ∨ s'.mContinuousSeg .toServer = b'.setUsedPos 0)) := by
  simp only [takePayload, savePayload, h, payloadReceived]
  have hseg : (s.setContinuousBuf .toServer b).mContinuousSeg .toServer = b :=
    setContinuousBuf_seg_self b
  split_ifs with hdec
  · rcases hdump : b.dumpUnusedData with _ | ⟨out, b'⟩
    · exact Or.inl ⟨decodeHttpActive_none (by rw [hseg, hdump]), rfl⟩
    · right
      refine (decodeHttpActive_some (by rw [hseg, hdump])).imp_right ?_
      rintro ⟨s', hs', hd⟩
      exact ⟨s', hs', ⟨hd.sessId, hd.tcpState⟩,
        Or.inr ⟨out, b', rfl, hd.toServer⟩⟩
  · exact Or.inr (Or.inr ⟨_, rfl, ⟨rfl, rfl⟩, Or.inl hseg⟩)

/-- A payload that is taken without an exception. -/
theorem takePayload_taken (h : s.takePayload db p dir = .ok s') : Taken s s' dir := by
  rcases hb : (s.mContinuousSeg dir).insertData p.seqNum p.l5Data with _ | b
  · rw [takePayload_none hb] at h
    cases h
  cases dir with
  | toServer =>
    rcases takePayload_toServer hb with ⟨ht, -⟩ | ht | ⟨s1, ht, htaken, -⟩
    · cases h.symm.trans ht
    · cases h.symm.trans ht
    · obtain rfl := Except.ok.inj (h.symm.trans ht)
      exact htaken
  | toClient =>
    obtain ⟨s1, ht, htaken, -⟩ := takePayload_toClient hb
    obtain rfl := Except.ok.inj (h.symm.trans ht)
    exact htaken

@[simp]
theorem finishMe_sessId : (s.finishMe p dir).mSessId = s.mSessId := by
  unfold finishMe
  split_ifs <;> rfl

@[simp]
theorem finishMe_seg : (s.finishMe p dir).mContinuousSeg = s.mContinuousSeg := by
  unfold finishMe
  split_ifs <;> rfl

@[simp]
theorem finishMe_decoder : (s.finishMe p dir).mHttpDecoder = s.mHttpDecoder := by
  unfold finishMe
  split_ifs <;> rfl

@[simp]
theorem finishMe_shouldBlock : (s.finishMe p dir).mShouldBlock = s.mShouldBlock := by
  unfold finishMe
  split_ifs <;> rfl

@[simp]
theorem blockMe_sessId : (s.blockMe db p).1.mSessId = s.mSessId := by
  unfold blockMe checkAddress
  split_ifs <;> rfl

@[simp]
theorem blockMe_seg : (s.blockMe db p).1.mContinuousSeg = s.mContinuousSeg := by
  unfold blockMe checkAddress
  split_ifs <;> rfl

@[simp]
theorem blockMe_tcpState : (s.blockMe db p).1.mTcpState = s.mTcpState := by
  unfold blockMe checkAddress
  split_ifs <;> rfl

@[simp]
theorem blockMe_decoder : (s.blockMe db p).1.mHttpDecoder = s.mHttpDecoder := by
  unfold blockMe checkAddress
  split_ifs <;> rfl

/-- The block flag after the look-up of the address of the sender. -/
theorem blockMe_shouldBlock (db : CDBManager) (s : CTcpSession P) (hv : p.ipVersion = 4) :
    (s.blockMe db p).1.mShouldBlock = (db.isIpv4Hit p.srcIp.getIpv4 || s.mShouldBlock) := by
  unfold blockMe checkAddress
  rw [if_pos hv]
  cases db.isIpv4Hit p.srcIp.getIpv4 <;> simp

theorem blockMe_snd (db : CDBManager) (s : CTcpSession P) (hv : p.ipVersion = 4) : (s.blockMe db p).2 =
    if (s.blockMe db p).1.mShouldBlock = true then some (resetFor p) else none := by
  simp only [blockMe, hv, if_true]

theorem Saves.reachesBlock (h : s.Saves p) : s.ReachesBlock p :=
  ⟨by simpa using p.not_isAckPacket h.2.2, h.1⟩

theorem Saves.updateMe_eq (h : s.Saves p) :
    s.updateMe db p = (s.takePayload db p (s.getDirection p)).map
      fun s' => s'.finishMe p (s.getDirection p) := by
  have hlen : 0 < p.l5Data.length := List.length_pos_of_ne_nil h.2.2
  simp only [updateMe, h.2.1, Bool.false_eq_true, if_false, gt_iff_lt, hlen, if_true]
  rcases s.takePayload db p (s.getDirection p) with e | s'
  · rfl
  · rfl

theorem Saves.receive_eq (h : s.Saves p) :
    s.receive db p = ((s.setLastUpdateTime p.tvSec).takePayload db p (s.getDirection p)).map
      fun s' => (s'.finishMe p (s.getDirection p)).blockMe db p := by
  have hsaves : (s.setLastUpdateTime p.tvSec).Saves p := h
  have hdir : (s.setLastUpdateTime p.tvSec).getDirection p = s.getDirection p := rfl
  simp only [receive, p.not_isAckPacket h.2.2, Bool.false_eq_true, if_false, h.1,
    hsaves.updateMe_eq, hdir]
  rcases (s.setLastUpdateTime p.tvSec).takePayload db p _ with e | s'
  · rfl
  · rfl

theorem no_payload_of_not_saves (h : ¬ s.Saves p) (hclosed : s.isClosed = false) :
    p.isSynSet = true ∨ p.l5Data = [] := by
  by_contra hp
  push Not at hp
  exact h ⟨hclosed, by simpa using hp.1, hp.2⟩

/-- `updateMe` on a packet whose payload is not saved leaves the decoder, the block flag and the buffer of
the client alone. -/
theorem updateMe_of_no_payload (db : CDBManager) (s : CTcpSession P)
    (h : p.isSynSet = true ∨ p.l5Data = []) :
    ∃ s', s.updateMe db p = .ok s' ∧ s'.mHttpDecoder = s.mHttpDecoder ∧
      s'.mShouldBlock = s.mShouldBlock ∧
      s'.mContinuousSeg .toServer = s.mContinuousSeg .toServer := by
  unfold updateMe
  by_cases hsyn : p.isSynSet
  · simp only [hsyn, if_true]
    split_ifs
    · refine ⟨_, rfl, rfl, rfl, ?_⟩
      exact setContinuousBuf_toServer _
    · exact ⟨_, rfl, rfl, rfl, rfl⟩
  · have hdata : p.l5Data = [] := h.resolve_left hsyn
    simp only [hsyn, Bool.false_eq_true, if_false, hdata, List.length_nil, gt_iff_lt,
      Nat.lt_irrefl]
    exact ⟨_, rfl, by simp, by simp, by simp⟩

/-- A packet whose payload is not saved leaves the buffer of the client alone. -/
theorem receive_of_not_saves (h : ¬ s.Saves p) :
    ∃ s' rst, s.receive db p = .ok (s', rst) ∧
      s'.mContinuousSeg .toServer = s.mContinuousSeg .toServer := by
  unfold receive
  split_ifs with hack hclosed
  · exact ⟨_, _, rfl, rfl⟩
  · exact ⟨_, _, rfl, rfl⟩
  · have hno := no_payload_of_not_saves h (by simpa using hclosed)
    obtain ⟨s', hs', -, -, hseg⟩ := updateMe_of_no_payload db (s.setLastUpdateTime p.tvSec) hno
    rw [hs']
    refine ⟨(s'.blockMe db p).1, (s'.blockMe db p).2, rfl, ?_⟩
    rw [blockMe_seg, hseg]
    rfl

/-- What a packet does that is received without an exception. -/
theorem receive_ok {rst : Option Rst} (h : s.receive db p = .ok (s', rst)) :
    (¬ s.ReachesBlock p ∧ s' = s.setLastUpdateTime p.tvSec ∧ rst = none) ∨
    (s.ReachesBlock p ∧ ∃ s1, (s.setLastUpdateTime p.tvSec).updateMe db p = .ok s1 ∧
      s1.blockMe db p = (s', rst)) := by
  unfold receive at h
  split_ifs at h with hack hclosed
  · obtain ⟨rfl, rfl⟩ := Prod.mk.inj (Except.ok.inj h)
    exact Or.inl ⟨fun hr => by simp [hr.1] at hack, rfl, rfl⟩
  · obtain ⟨rfl, rfl⟩ := Prod.mk.inj (Except.ok.inj h)
    exact Or.inl ⟨fun hr => by simp [hr.2] at hclosed, rfl, rfl⟩
  · right
    refine ⟨⟨by simpa using hack, by simpa using hclosed⟩, ?_⟩
    rcases hup : (s.setLastUpdateTime p.tvSec).updateMe db p with e | s1
    · rw [hup] at h
      cases h
    · rw [hup] at h
      exact ⟨s1, rfl, Except.ok.inj h⟩

/-! ## A new session -/

/-- A new session as `processL5` hands it over. -/
structure Fresh (s : CTcpSession P) (p : CL4Info) : Prop where
  sessId : s.mSessId = p.sessionId
  tcpState : s.mTcpState = .handshake
  toServer : s.mContinuousSeg .toServer =
    ((CTcpSegBuf.new).setStartSeq (p.seqNum + 1)).setUsedPos 0

theorem fresh_opened (cfg : CConfig) (p : CL4Info) : Fresh (opened cfg p : CTcpSession P) p := by
  simp only [opened, sessionCreated]
  split_ifs
  · exact ⟨rfl, rfl, rfl⟩
  · exact ⟨rfl, rfl, rfl⟩

/-! ## Runs -/

theorem run_snoc (sess : CTcpSession P) (pkts : List CL4Info) (p : CL4Info) :
    sess.run db (pkts ++ [p]) = (sess.run db pkts).bind
      fun s => (s.receive db p).map Prod.fst :=
  Trace.foldlM_snoc

end CTcpSession

end Killerfinder
