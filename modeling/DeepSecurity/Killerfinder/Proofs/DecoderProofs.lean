import DeepSecurity.Killerfinder.DecoderRun
import DeepSecurity.Killerfinder.Proofs.SessionProofs

/-!
# Proofs: what the HTTP decoder collects

The end of the headers clears what has been collected, so a message leaves nothing behind unless it
has a trailer called `Host` or one without a colon, or ends with an error before the end of its headers.
-/

namespace Killerfinder

open Trace

namespace CTcpSession

variable {P : HttpParser} {db : CDBManager} {s s' : CTcpSession P} {p : CL4Info}

/-! ## Callbacks -/

theorem collected_headerFieldCb (state : ℕ) (buf : Bytes) :
    (s.headerFieldCb state buf).mHttpDecoder.collected =
      s.mHttpDecoder.collected.add (.headerField state buf) := by
  by_cases hstate : state = 44
  · by_cases hhost : (s.mHttpDecoder.mHostField ++ buf).map tolower = lit ['h', 'o', 's', 't']
    · simp only [headerFieldCb, CHttpTxnDecoder.collected, Collected.add, hstate, hhost, if_true]
    · simp only [headerFieldCb, CHttpTxnDecoder.collected, Collected.add, hstate, hhost, if_true,
        if_false]
  · simp only [headerFieldCb, CHttpTxnDecoder.collected, Collected.add, hstate, if_false]

theorem collected_headerValueCb {state : ℕ} {buf : Bytes}
    (h : s.headerValueCb db state buf = .ok s') : s'.mHttpDecoder.collected =
      s.mHttpDecoder.collected.add (.headerValue state buf) ∧
    s'.mHttpDecoder.mParser = s.mHttpDecoder.mParser := by
  by_cases hhost : s.mHttpDecoder.mHostField = lit ['h', 'o', 's', 't']
  · simp only [headerValueCb, hhost, if_true] at h
    simp only [CHttpTxnDecoder.collected, Collected.add, hhost, if_true]
    split_ifs at h
    · split at h
      · simp at h
      · obtain rfl := Except.ok.inj h
        exact ⟨rfl, rfl⟩
    · obtain rfl := Except.ok.inj h
      exact ⟨rfl, rfl⟩
  · simp only [headerValueCb, hhost, if_false] at h
    obtain rfl := Except.ok.inj h
    simp only [CHttpTxnDecoder.collected, Collected.add, hhost, if_false, and_self]

theorem collected_headersCompleteCb :
    (s.headersCompleteCb db).mHttpDecoder.collected = {} ∧
      (s.headersCompleteCb db).mHttpDecoder.mParser = s.mHttpDecoder.mParser := by
  refine ⟨rfl, ?_⟩
  unfold headersCompleteCb
  simp only
  split_ifs
  · split
    · split <;> rfl
    · rfl
  · rfl

theorem collected_callback {event : ParserEvent} (h : s.callback db event = .ok s') :
    s'.mHttpDecoder.collected = s.mHttpDecoder.collected.add event ∧
      s'.mHttpDecoder.mParser = s.mHttpDecoder.mParser := by
  cases event with
  | url state method buf =>
    obtain rfl := Except.ok.inj h
    unfold requestUrlCb
    simp only
    split_ifs <;> exact ⟨rfl, rfl⟩
  | headerField state buf =>
    obtain rfl := Except.ok.inj h
    exact ⟨collected_headerFieldCb state buf, rfl⟩
  | headerValue state buf => exact collected_headerValueCb h
  | headersComplete =>
    obtain rfl := Except.ok.inj h
    exact collected_headersCompleteCb
  | _ =>
    obtain rfl := Except.ok.inj h
    exact ⟨rfl, rfl⟩

theorem collected_callbacks {events : List ParserEvent}
    (h : events.foldlM (callback db) s = .ok s') :
    s'.mHttpDecoder.collected = events.foldl Collected.add s.mHttpDecoder.collected ∧
      s'.mHttpDecoder.mParser = s.mHttpDecoder.mParser := by
  induction events generalizing s with
  | nil =>
    obtain rfl := Except.ok.inj h
    exact ⟨rfl, rfl⟩
  | cons event events ih =>
    obtain ⟨s₁, hs₁, hrest⟩ := foldlM_cons_ok h
    obtain ⟨hadd, hparser⟩ := collected_callback hs₁
    obtain ⟨hfold, hparser'⟩ := ih hrest
    rw [hfold, hadd, hparser', hparser]
    exact ⟨rfl, rfl⟩

/-- The callbacks have been invoked one after the other, and then the parser is in its new state. -/
theorem parserExecute_ok {buf : Bytes} {ok : Bool} (h : s.parserExecute db buf = .ok (s', ok)) :
    ok = (P.execute s.mHttpDecoder.mParser buf).2.2 ∧
      s'.mHttpDecoder.mParser = (P.execute s.mHttpDecoder.mParser buf).1 ∧
      ∃ s₁, (P.execute s.mHttpDecoder.mParser buf).2.1.foldlM (callback db) s = .ok s₁ ∧
        s'.mHttpDecoder.collected = s₁.mHttpDecoder.collected ∧
        s'.mShouldBlock = s₁.mShouldBlock := by
  unfold parserExecute at h
  simp only at h
  split at h
  · simp at h
  · next s₁ hs₁ =>
    obtain ⟨rfl, rfl⟩ := Prod.mk.inj (Except.ok.inj h)
    exact ⟨rfl, rfl, s₁, hs₁, rfl, rfl⟩

/-! ## One packet -/

/-- The parser is called with the decoder and the block flag as they are. -/
theorem parserCall_decoder {s₀ : CTcpSession P} {buf : Bytes}
    (h : s.parserCall p = some (s₀, buf)) :
    s₀.mHttpDecoder = s.mHttpDecoder ∧ s₀.mShouldBlock = s.mShouldBlock := by
  unfold parserCall savePayload at h
  split_ifs at h
  split at h
  · simp at h
  · next s₁ hs₁ =>
    split at h
    · simp at h
    · next b hb =>
      split at hs₁
      · simp at hs₁
      · obtain rfl := Except.ok.inj hs₁
        obtain ⟨rfl, -⟩ := Prod.mk.inj (Option.some.inj h)
        exact ⟨rfl, rfl⟩

theorem decodeHttpActive_decoder {buf : Bytes} {b : CTcpSegBuf}
    (hdump : (s.mContinuousSeg .toServer).dumpUnusedData = some (buf, b))
    (h : s.decodeHttpActive db = .ok s') :
    ∃ s₁ ok, (s.setContinuousBuf .toServer b).parserExecute db buf = .ok (s₁, ok) ∧
      s'.mHttpDecoder = (if ok then s₁.mHttpDecoder else s₁.parserInit.mHttpDecoder) ∧
      s'.mShouldBlock = s₁.mShouldBlock := by
  simp only [decodeHttpActive, hdump] at h
  rcases hexec : (s.setContinuousBuf .toServer b).parserExecute db buf with e | ⟨s₁, ok⟩
  · simp [hexec] at h
  · refine ⟨s₁, ok, rfl, ?_⟩
    cases ok with
    | true =>
      simp only [hexec] at h
      obtain rfl := Except.ok.inj h
      exact ⟨rfl, rfl⟩
    | false =>
      simp only [hexec] at h
      obtain rfl := Except.ok.inj h
      exact ⟨rfl, rfl⟩

/-- `s'` comes from `s` by the call of the parser that the packet `p` leads to, if any. -/
inductive Decodes (db : CDBManager) (s s' : CTcpSession P) (p : CL4Info) : Prop where
  | silent (hcall : s.parserCall p = none) (hdecoder : s'.mHttpDecoder = s.mHttpDecoder)
      (hflag : s'.mShouldBlock = s.mShouldBlock)
  | call (s₀ : CTcpSession P) (buf : Bytes) (s₁ : CTcpSession P) (ok : Bool)
      (hcall : s.parserCall p = some (s₀, buf)) (hexec : s₀.parserExecute db buf = .ok (s₁, ok))
      (hdecoder : s'.mHttpDecoder = if ok then s₁.mHttpDecoder else s₁.parserInit.mHttpDecoder)
      (hflag : s'.mShouldBlock = s₁.mShouldBlock)

theorem takePayload_decodes (hsaves : s.Saves p)
    (h : (s.setLastUpdateTime p.tvSec).takePayload db p (s.getDirection p) = .ok s') :
    Decodes db s s' p := by
  rcases hb : ((s.setLastUpdateTime p.tvSec).mContinuousSeg (s.getDirection p)).insertData
      p.seqNum p.l5Data with _ | b
  · rw [takePayload_none hb] at h
    exact absurd h (by simp)
  simp only [takePayload, savePayload, hb, payloadReceived] at h
  split_ifs at h with hdecode
  · obtain ⟨hhttp, hactive, hdir⟩ := hdecode
    rw [hdir] at hb h
    rcases hdump : b.dumpUnusedData with _ | ⟨buf, b'⟩
    · rw [decodeHttpActive_none (by simpa [setContinuousBuf] using hdump)] at h
      exact absurd h (by simp)
    · obtain ⟨s₁, ok, hexec, hdecoder, hflag⟩ :=
        decodeHttpActive_decoder (by simpa [setContinuousBuf] using hdump) h
      refine .call _ buf s₁ ok ?_ hexec hdecoder hflag
      have hcall : s.Saves p ∧ s.getDirection p = .toServer ∧ s.mProtocol = .http ∧
        s.mActiveFlg = true := ⟨hsaves, hdir, hhttp, hactive⟩
      simp only [parserCall, if_pos hcall, savePayload, hb, setContinuousBuf_seg_self, hdump]
  · obtain rfl := Except.ok.inj h
    exact .silent (if_neg fun hcall => hdecode ⟨hcall.2.2.1, hcall.2.2.2, hcall.2.1⟩) rfl rfl

theorem updateMe_decodes (hclosed : s.isClosed = false)
    (h : (s.setLastUpdateTime p.tvSec).updateMe db p = .ok s') : Decodes db s s' p := by
  by_cases hsaves : s.Saves p
  · have hsaves' : (s.setLastUpdateTime p.tvSec).Saves p := hsaves
    rw [hsaves'.updateMe_eq] at h
    have hdir : (s.setLastUpdateTime p.tvSec).getDirection p = s.getDirection p := rfl
    rw [hdir] at h
    rcases htake : (s.setLastUpdateTime p.tvSec).takePayload db p (s.getDirection p) with e | s₂
    · rw [htake] at h
      exact absurd h (by simp [Except.map])
    rw [htake] at h
    obtain rfl := Except.ok.inj h
    cases takePayload_decodes hsaves htake with
    | silent hcall hdecoder hflag => exact .silent hcall (by simpa using hdecoder) (by simpa using hflag)
    | call s₀ buf s₁ ok hcall hexec hdecoder hflag =>
      exact .call s₀ buf s₁ ok hcall hexec (by simpa using hdecoder) (by simpa using hflag)
  · obtain ⟨s₂, hs₂, hdecoder, hflag, -⟩ :=
      updateMe_of_no_payload db (s.setLastUpdateTime p.tvSec) (no_payload_of_not_saves hsaves hclosed)
    obtain rfl := Except.ok.inj (h.symm.trans hs₂)
    exact .silent (if_neg fun hcall => hsaves hcall.1) hdecoder hflag

/-- What a packet does to the decoder and, before the address of its sender is looked up, to the block
flag. -/
theorem receive_decodes {rst : Option Rst} (h : s.receive db p = .ok (s', rst)) :
    ∃ s₁, Decodes db s s₁ p ∧ s'.mHttpDecoder = s₁.mHttpDecoder ∧
      ((¬ s.ReachesBlock p ∧ s.parserCall p = none ∧ s'.mShouldBlock = s.mShouldBlock) ∨
        s.ReachesBlock p ∧ s₁.blockMe db p = (s', rst)) := by
  rcases receive_ok h with ⟨hno, rfl, -⟩ | ⟨hreach, s₁, hup, hblock⟩
  · have hcall : s.parserCall p = none := if_neg fun hcall => hno hcall.1.reachesBlock
    exact ⟨_, .silent hcall rfl rfl, rfl, .inl ⟨hno, hcall, rfl⟩⟩
  · refine ⟨s₁, updateMe_decodes hreach.2 hup, ?_, .inr ⟨hreach, hblock⟩⟩
    have hdecoder : (s₁.blockMe db p).1.mHttpDecoder = s₁.mHttpDecoder := blockMe_decoder
    rwa [hblock] at hdecoder

/-! ## Runs with notes -/

section Observe

variable {α : Type} {after : α → Option (List ParserEvent × Bool) → α} {note note' : α}
  {sess : CTcpSession P} {pkts : List CL4Info}

theorem observe_snoc_ok (h : sess.observe db after note (pkts ++ [p]) = .ok (s', note')) :
    ∃ s note₀ rst, sess.observe db after note pkts = .ok (s, note₀) ∧
      s.receive db p = .ok (s', rst) ∧ note' = after note₀ (s.reported p) := by
  obtain ⟨⟨s, note₀⟩, hobserve, hr⟩ := foldlM_snoc_ok h
  rcases hrec : s.receive db p with e | ⟨s₁, rst⟩
  · simp only [hrec, Except.map] at hr
    exact absurd hr (by simp)
  · simp only [hrec, Except.map, Except.ok.injEq, Prod.mk.injEq] at hr
    obtain ⟨rfl, rfl⟩ := hr
    exact ⟨s, note₀, rst, hobserve, hrec, rfl⟩

end Observe

end CTcpSession

/-! ## Messages -/

/-- What has been collected comes from the message, and behind the headers it is the name of a trailer
that has not ended. -/
structure Tidy (pr : Progress) (c : Collected) : Prop where
  own : c = pr.events.foldl Collected.add {}
  before : pr.phase = .start ∨ pr.phase = .begun → c = {}
  rest : pr.phase = .rest → c = { hostField := pr.trailer }
  trailer : pr.phase ≠ .rest → pr.trailer = []

theorem Tidy.belongs {P : HttpParser} {pr : Progress} {d : CHttpTxnDecoder P}
    (h : Tidy pr d.collected) : Belongs pr d := by
  refine ⟨h.own, fun hstart => ?_⟩
  have hempty := h.before (.inl hstart)
  exact ⟨congrArg Collected.url hempty, congrArg Collected.hostField hempty,
    congrArg Collected.hostValue hempty⟩

theorem Tidy.start : Tidy {} {} := ⟨rfl, fun _ => rfl, fun _ => rfl, fun _ => rfl⟩

theorem Tidy.eq_empty {pr : Progress} {c : Collected} (h : Tidy pr c) (hclear : pr.Clear) : c = {} := by
  rcases hphase : pr.phase with _ | _ | _ | _
  · exact h.before (.inl hphase)
  · exact h.before (.inr hphase)
  · exact absurd hphase hclear.1
  · rw [h.rest hphase, hclear.2]

/-- What a callback leaves behind the headers: a name that has ended is dropped, since it is not that of a
`Host` header. -/
theorem Progress.Allows.add {pr : Progress} {event : ParserEvent} (hallows : pr.Allows event)
    (hphase : pr.phase = .rest) (hnext : pr.phase.next event = some .rest) :
    Collected.add { hostField := pr.trailer } event = { hostField := pr.trailerAfter event } := by
  rw [hphase] at hnext
  cases event with
  | headerField state buf =>
    by_cases hstate : state = 44
    · have hhost := hallows hphase hstate
      simp only [Collected.add, Progress.trailerAfter, hstate, if_true, if_neg hhost, ne_eq,
        not_true_eq_false, and_false, if_false]
    · simp [Collected.add, Progress.trailerAfter, hstate, hphase]
  | headerValue state buf =>
    have hhost := hallows hphase
    simp only [Collected.add, Progress.trailerAfter, if_neg hhost]
  | body buf => rfl
  | _ => simp [Phase.next] at hnext

/-- Behind the headers, the next callback belongs to the same message or ends it. -/
theorem Phase.next_rest {event : ParserEvent} {ph : Phase} (h : Phase.rest.next event = some ph) :
    ph = .rest ∨ ph = .start ∧ event = .messageComplete := by
  cases event with
  | headerField | headerValue | body => exact .inl (Option.some.inj h).symm
  | messageComplete => exact .inr ⟨(Option.some.inj h).symm, rfl⟩
  | _ => simp [Phase.next] at h

/-- Before the end of the headers, the message goes on. -/
theorem Phase.next_of_ne_rest {phase ph : Phase} {event : ParserEvent} (hphase : phase ≠ .rest)
    (h : phase.next event = some ph) :
    ph ≠ .start ∧ (ph = .begun → phase = .start ∧ event = .messageBegin) ∧
      (ph = .rest → event = .headersComplete) := by
  cases phase with
  | rest => exact absurd rfl hphase
  | start | begun | head =>
    cases event <;> simp only [Phase.next, Option.some.injEq, reduceCtorEq] at h <;> subst h <;> simp

theorem Tidy.next {pr : Progress} {c : Collected} {event : ParserEvent} {ph : Phase}
    (h : Tidy pr c) (hnext : pr.phase.next event = some ph) (hallows : pr.Allows event) :
    ∃ pr', pr.next event = some pr' ∧ pr'.phase = ph ∧ Tidy pr' (c.add event) := by
  have hpr : pr.next event =
      some (if ph = .start then {} else ⟨ph, pr.events ++ [event], pr.trailerAfter event⟩) := by
    rw [Progress.next, hnext]
    rfl
  have hown : c.add event = (pr.events ++ [event]).foldl Collected.add {} := by
    rw [List.foldl_append, ← h.own]
    rfl
  refine ⟨_, hpr, ?_⟩
  by_cases hphase : pr.phase = .rest
  · have hc := h.rest hphase
    rcases Phase.next_rest (hphase ▸ hnext) with rfl | ⟨rfl, rfl⟩
    · rw [if_neg (by simp)]
      refine ⟨rfl, hown, by simp, fun _ => ?_, by simp⟩
      rw [hc]
      exact hallows.add hphase hnext
    · -- the message is over, and nothing of its trailers is left
      rw [if_pos rfl, hc, show pr.trailer = [] from hallows hphase]
      exact ⟨rfl, Tidy.start⟩
  · obtain ⟨hstart, hbegun, hrest⟩ := Phase.next_of_ne_rest hphase hnext
    have htrailer : pr.trailerAfter event = [] := by
      cases event with
      | headerField state buf => simp [Progress.trailerAfter, hphase]
      | _ => exact h.trailer hphase
    rw [if_neg hstart]
    refine ⟨rfl, hown, ?_, ?_, fun _ => htrailer⟩
    · rintro (hph | hph)
      · exact absurd hph hstart
      · obtain ⟨hbefore, rfl⟩ := hbegun hph
        exact h.before (.inl hbefore)
    · intro hph
      obtain rfl := hrest hph
      rw [htrailer]
      rfl

theorem Tidy.callbacks {pr : Progress} {c : Collected} {events : List ParserEvent} {ph : Phase}
    (h : Tidy pr c) (hnext : events.foldlM Phase.next pr.phase = some ph)
    (hallows : pr.AllowsAll events) :
    ∃ pr', events.foldlM Progress.next pr = some pr' ∧ pr'.phase = ph ∧
      Tidy pr' (events.foldl Collected.add c) := by
  induction events generalizing pr c with
  | nil => exact ⟨pr, rfl, Option.some.inj hnext, h⟩
  | cons event events ih =>
    rw [List.foldlM_cons] at hnext
    obtain ⟨ph₁, hph₁, hrest⟩ := Option.bind_eq_some_iff.1 hnext
    obtain ⟨pr₁, hpr₁, rfl, htidy⟩ := h.next hph₁ hallows.1
    obtain ⟨pr', hpr', hphase, htidy'⟩ := ih htidy hrest (hallows.2 _ hpr₁)
    refine ⟨pr', ?_, hphase, htidy'⟩
    rw [List.foldlM_cons, hpr₁]
    exact hpr'

theorem Progress.AllowsAll.of_append {pr : Progress} {events rest : List ParserEvent}
    (h : pr.AllowsAll (events ++ rest)) : pr.AllowsAll events := by
  induction events generalizing pr with
  | nil => exact trivial
  | cons event events ih => exact ⟨h.1, fun pr' hpr' => ih (h.2 pr' hpr')⟩

/-! ## Runs -/

section Run

variable {P : HttpParser} {phase : P.State → Phase} {db : CDBManager} {sess : CTcpSession P}
  {pre : List CL4Info} {p : CL4Info}

/-- The invariant of the packets that keep the rule. -/
def TidyRun (db : CDBManager) (phase : P.State → Phase) (sess : CTcpSession P)
    (pkts : List CL4Info) : Prop :=
  ∀ s pr, sess.track db pkts = .ok (s, pr) →
    Tidy pr s.mHttpDecoder.collected ∧ phase s.mHttpDecoder.mParser = pr.phase

/-- Each of the callbacks that a packet leads to finds what belongs to its message. -/
theorem TidyRun.callbacks (h : TidyRun db phase sess pre) (hP : P.Ordered phase)
    (hp : Undisturbed db sess pre p) {s s₀ : CTcpSession P} {pr : Progress} {buf : Bytes}
    (htrack : sess.track db pre = .ok (s, pr)) (hcall : s.parserCall p = some (s₀, buf))
    {events : List ParserEvent}
    (hevents : events <+: (P.execute s₀.mHttpDecoder.mParser buf).2.1) :
    ∃ pr₁, events.foldlM Progress.next pr = some pr₁ ∧
      events.foldlM Phase.next (phase s₀.mHttpDecoder.mParser) = some pr₁.phase ∧
      Tidy pr₁ (events.foldl Collected.add s₀.mHttpDecoder.collected) := by
  obtain ⟨htidy, hphase⟩ := h s pr htrack
  obtain ⟨hdecoder, -⟩ := CTcpSession.parserCall_decoder hcall
  obtain ⟨ph, hnext, -⟩ := hP.execute s₀.mHttpDecoder.mParser buf
  obtain ⟨hallows, -⟩ := hp s pr _ _ htrack (by rw [CTcpSession.reported, hcall]; rfl)
  rw [hdecoder, hphase] at hnext ⊢
  rw [hdecoder] at hevents
  simp only [hdecoder] at hallows
  obtain ⟨rest, hrest⟩ := hevents
  rw [← hrest, List.foldlM_append] at hnext
  rw [← hrest] at hallows
  obtain ⟨ph₁, hph₁, -⟩ := Option.bind_eq_some_iff.1 hnext
  obtain ⟨pr₁, hpr₁, rfl, htidy₁⟩ := htidy.callbacks hph₁ hallows.of_append
  exact ⟨pr₁, hpr₁, hph₁, htidy₁⟩

theorem TidyRun.step (h : TidyRun db phase sess pre) (hP : P.Ordered phase)
    (hp : Undisturbed db sess pre p) : TidyRun db phase sess (pre ++ [p]) := by
  intro s' pr' htrack'
  obtain ⟨s, pr, rst, htrack, hr, rfl⟩ := CTcpSession.observe_snoc_ok htrack'
  obtain ⟨s₂, hdecodes, hdecoder₂, -⟩ := CTcpSession.receive_decodes hr
  rw [hdecoder₂]
  cases hdecodes with
  | silent hcall hdecoder =>
    rw [hdecoder, CTcpSession.reported, hcall]
    exact h s pr htrack
  | call s₀ buf s₁ ok hcall hexec hdecoder =>
    obtain ⟨hok, hparser, s₃, hs₃, hcollected, -⟩ := CTcpSession.parserExecute_ok hexec
    have hreported : s.reported p = some ((P.execute s₀.mHttpDecoder.mParser buf).2.1, ok) := by
      rw [CTcpSession.reported, hcall, hok]
      rfl
    obtain ⟨pr₁, hpr₁, hph₁, htidy⟩ := h.callbacks hP hp htrack hcall (List.prefix_refl _)
    rw [← (CTcpSession.collected_callbacks hs₃).1, ← hcollected] at htidy
    rw [hreported, hdecoder]
    cases ok with
    | true =>
      obtain ⟨ph, hph, hphase⟩ := hP.execute s₀.mHttpDecoder.mParser buf
      obtain rfl : ph = pr₁.phase := Option.some.inj (hph.symm.trans hph₁)
      have hafter : pr.after (some ((P.execute s₀.mHttpDecoder.mParser buf).2.1, true)) = pr₁ := by
        rw [Progress.after, hpr₁]
        rfl
      rw [hafter]
      refine ⟨htidy, ?_⟩
      rw [← hphase hok.symm]
      exact congrArg phase hparser
    | false =>
      -- the parser begins anew, and nothing has been collected
      have hclear := (hp s pr _ _ htrack hreported).2 rfl pr₁ hpr₁
      refine ⟨?_, hP.init⟩
      show Tidy {} s₁.mHttpDecoder.collected
      rw [htidy.eq_empty hclear]
      exact Tidy.start

theorem TidyRun.ownMessage (h : TidyRun db phase sess (pre ++ [p])) (hpre : TidyRun db phase sess pre)
    (hP : P.Ordered phase) (hp : Undisturbed db sess pre p) :
    OwnMessage db sess (pre ++ [p]) := by
  refine ⟨fun s pr htrack => (h s pr htrack).1.belongs, ?_⟩
  intro pre' p' s pr s₀ buf hsplit htrack hcall events s₁ hevents hs₁
  obtain ⟨rfl, hlast⟩ := List.append_inj' hsplit rfl
  obtain rfl : p = p' := by simpa using hlast
  obtain ⟨pr₁, hpr₁, -, htidy⟩ := hpre.callbacks hP hp htrack hcall hevents
  rw [← (CTcpSession.collected_callbacks hs₁).1] at htidy
  exact ⟨pr₁, hpr₁, htidy.belongs⟩

theorem created_decoder (cfg : CConfig) (db : CDBManager) (syn : CL4Info) :
    (CTcpSession.created cfg db syn : CTcpSession P).mHttpDecoder = ⟨[], [], [], 0, P.init⟩ := by
  rw [CTcpSession.created, CTcpSession.blockMe_decoder]
  unfold CTcpSession.opened CTcpSession.sessionCreated
  simp only
  split_ifs <;> rfl

theorem tidyRun_nil (hP : P.Ordered phase) (cfg : CConfig) (db : CDBManager) (syn : CL4Info) :
    TidyRun db phase (CTcpSession.created cfg db syn) [] := by
  intro s pr htrack
  obtain ⟨rfl, rfl⟩ := Prod.mk.inj (Except.ok.inj htrack)
  rw [created_decoder]
  exact ⟨Tidy.start, hP.init⟩

end Run

/-- Along packets that keep the rule, what is collected belongs to the message that is parsed. -/
theorem ownMessage_of_undisturbed (P : HttpParser) (phase : P.State → Phase) (hP : P.Ordered phase)
    (cfg : CConfig) (db : CDBManager) (syn : CL4Info) (pkts : List CL4Info)
    (h : EachStep (Undisturbed db (CTcpSession.created cfg db syn : CTcpSession P)) pkts) :
    Always (OwnMessage db (CTcpSession.created cfg db syn : CTcpSession P)) pkts := by
  have hnil := tidyRun_nil hP cfg db syn
  have hown : OwnMessage db (CTcpSession.created cfg db syn : CTcpSession P) [] := by
    refine ⟨fun s pr htrack => (hnil s pr htrack).1.belongs, ?_⟩
    intro pre p s pr s₀ buf hsplit
    exact absurd hsplit (by simp)
  have hstep : ∀ pre p, (TidyRun db phase (CTcpSession.created cfg db syn) pre ∧
      OwnMessage db (CTcpSession.created cfg db syn : CTcpSession P) pre) →
      Undisturbed db (CTcpSession.created cfg db syn : CTcpSession P) pre p →
      TidyRun db phase (CTcpSession.created cfg db syn) (pre ++ [p]) ∧
      OwnMessage db (CTcpSession.created cfg db syn : CTcpSession P) (pre ++ [p]) := by
    rintro pre p ⟨htidy, -⟩ hp
    exact ⟨htidy.step hP hp, (htidy.step hP hp).ownMessage htidy hP hp⟩
  intro pre hpre
  exact (always_of_eachStep ⟨hnil, hown⟩ hstep h pre hpre).2

/-- A parser that finds a request in every call, for a concrete run. -/
def HttpParser.requests (host : Bytes) : HttpParser where
  State := Unit
  init := ()
  execute _ _ := ((), requestEvents host, true)

theorem ownMessage_request :
    Always (OwnMessage .empty (CTcpSession.created ⟨[80], []⟩ .empty
      (clientPacket 999 0x02 [] (by decide)) : CTcpSession (.requests (lit ['a']))))
      [clientPacket 1000 0x18 (requestBytes (lit ['a'])) (by decide)] := by
  refine ownMessage_of_undisturbed (.requests (lit ['a'])) (fun _ => .start)
    ⟨rfl, fun _ _ => ⟨.start, rfl, fun _ => rfl⟩⟩ _ _ _ _ ?_
  refine (eachStep_snoc (l := [])).mpr ⟨eachStep_nil, fun s pr events ok htrack hreported => ?_⟩
  obtain ⟨-, rfl⟩ := Prod.mk.inj (Except.ok.inj htrack)
  obtain ⟨call, -, hcall⟩ := Option.map_eq_some_iff.1 hreported
  obtain ⟨rfl, rfl⟩ := Prod.mk.inj hcall
  refine ⟨?_, by simp⟩
  simp [requestEvents, Progress.AllowsAll, Progress.Allows, Progress.next, Phase.next,
    Progress.trailerAfter]

/-- A parser that reports the target `/a` for the first bytes and then an error. -/
def HttpParser.failing : HttpParser where
  State := Bool
  init := false
  execute q _ :=
    if q then (true, [], false) else (true, [.messageBegin, .url 30 1 (lit ['/', 'a'])], true)

def HttpParser.failingPhase (q : Bool) : Phase := if q then .head else .start

/-- The bytes `GET /a` and then a byte that may not stand in a target. -/
theorem not_ownMessage_failing :
    HttpParser.failing.Ordered HttpParser.failingPhase ∧
    ¬ OwnMessage .empty (CTcpSession.created ⟨[80], []⟩ .empty
      (clientPacket 999 0x02 [] (by decide)) : CTcpSession .failing)
      [clientPacket 1000 0x18 (lit ['G', 'E', 'T', ' ', '/', 'a']) (by decide),
        clientPacket 1006 0x18 [1] (by decide)] := by
  refine ⟨⟨rfl, ?_⟩, ?_⟩
  · intro q buf
    cases q with
    | true => exact ⟨.head, rfl, by simp [HttpParser.failing]⟩
    | false => exact ⟨.head, rfl, fun _ => rfl⟩
  · intro h
    have hbelongs := h.packets _ {} rfl
    exact absurd (hbelongs.start rfl).1 (by decide)

end Killerfinder
