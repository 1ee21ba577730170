import DeepSecurity.Killerfinder.BlockRun
import DeepSecurity.Killerfinder.Proofs.DecoderProofs

/-!
# Proofs: blocked connections

The block flag holds the answer to the look-up that was made last, whatever the answers before it were.
So a connection stays blocked exactly if the packets keep the rule `EndsWithHit`.
-/

namespace Killerfinder

open Trace

/-- The answer to the last of some look-ups, or the flag as it was. -/
def lastAnswer (db : CDBManager) (queries : List Query) (flag : Bool) : Bool :=
  (queries.getLast?.map (Query.hit db)).getD flag

theorem lastAnswer_append {db : CDBManager} (queries queries' : List Query) (flag : Bool) :
    lastAnswer db (queries ++ queries') flag = lastAnswer db queries' (lastAnswer db queries flag) := by
  rcases List.eq_nil_or_concat queries' with rfl | ⟨l, q, rfl⟩
  · simp [lastAnswer]
  · rw [List.concat_eq_append, ← List.append_assoc]
    simp [lastAnswer]

namespace CTcpSession

variable {P : HttpParser} {db : CDBManager} {s s' : CTcpSession P} {p : CL4Info}

/-! ## Callbacks -/

theorem shouldBlock_headerValueCb {state : ℕ} {buf : Bytes}
    (h : s.headerValueCb db state buf = .ok s') :
    s'.mShouldBlock =
      lastAnswer db (s.mHttpDecoder.collected.lookup (.headerValue state buf)).toList s.mShouldBlock := by
  by_cases hhost : s.mHttpDecoder.mHostField = lit ['h', 'o', 's', 't']
  · by_cases hstate : state = 50
    · simp only [headerValueCb, hhost, hstate, if_true] at h
      rcases hpath : requestPath s.mHttpDecoder.mUrl with e | path
      · simp [hpath] at h
      · simp only [hpath] at h
        obtain rfl := Except.ok.inj h
        simp only [Collected.lookup, CHttpTxnDecoder.collected, hhost, hstate, and_self, if_true,
          Query.ofHost, hpath]
        cases CxxString.find (lit [':', '/', '/']) s.mHttpDecoder.mUrl <;> rfl
    · simp only [headerValueCb, hhost, hstate, if_true, if_false] at h
      obtain rfl := Except.ok.inj h
      simp [Collected.lookup, hstate, lastAnswer]
  · simp only [headerValueCb, hhost, if_false] at h
    obtain rfl := Except.ok.inj h
    simp [Collected.lookup, CHttpTxnDecoder.collected, hhost, lastAnswer]

theorem shouldBlock_headersCompleteCb :
    (s.headersCompleteCb db).mShouldBlock =
      lastAnswer db (s.mHttpDecoder.collected.lookup .headersComplete).toList s.mShouldBlock := by
  by_cases hvalue : s.mHttpDecoder.mHostValue = []
  · simp only [headersCompleteCb, Collected.lookup, CHttpTxnDecoder.collected, hvalue, if_true, Query.ofUrl]
    cases CxxString.find (lit [':', '/', '/']) s.mHttpDecoder.mUrl with
    | none => rfl
    | some hostPos =>
      dsimp only
      cases CxxString.find (lit ['/']) (s.mHttpDecoder.mUrl.drop (hostPos + 3)) <;> rfl
  · simp only [headersCompleteCb, Collected.lookup, CHttpTxnDecoder.collected, hvalue, if_false]
    rfl

theorem shouldBlock_callback {event : ParserEvent} (h : s.callback db event = .ok s') :
    s'.mShouldBlock =
      lastAnswer db (s.mHttpDecoder.collected.lookup event).toList s.mShouldBlock := by
  cases event with
  | headerValue state buf => exact shouldBlock_headerValueCb h
  | headersComplete =>
    obtain rfl := Except.ok.inj h
    exact shouldBlock_headersCompleteCb
  | _ =>
    obtain rfl := Except.ok.inj h
    rfl

theorem shouldBlock_callbacks {events : List ParserEvent} (h : events.foldlM (callback db) s = .ok s') :
    s'.mShouldBlock = lastAnswer db (s.mHttpDecoder.collected.lookups events) s.mShouldBlock := by
  induction events generalizing s with
  | nil =>
    obtain rfl := Except.ok.inj h
    rfl
  | cons event events ih =>
    obtain ⟨s₁, hs₁, hrest⟩ := foldlM_cons_ok h
    rw [ih hrest, (collected_callback hs₁).1, shouldBlock_callback hs₁, Collected.lookups,
      lastAnswer_append]

/-! ## One packet -/

theorem Decodes.shouldBlock (h : Decodes db s s' p) :
    s'.mShouldBlock = lastAnswer db (s.lookups p) s.mShouldBlock := by
  cases h with
  | silent hcall _ hflag =>
    rw [hflag, lookups, reported, hcall]
    rfl
  | call s₀ buf s₁ ok hcall hexec _ hflag =>
    obtain ⟨hdecoder, hflag₀⟩ := parserCall_decoder hcall
    obtain ⟨-, -, s₂, hs₂, -, hflag₁⟩ := parserExecute_ok hexec
    rw [hflag, hflag₁, lookups, reported, hcall, ← hdecoder, ← hflag₀]
    exact shouldBlock_callbacks hs₂

/-- The block flag after an IPv4 packet, and the answer to the packet. -/
theorem receive_shouldBlock {rst : Option Rst} (hv : p.ipVersion = 4) (hreach : s.ReachesBlock p)
    (h : s.receive db p = .ok (s', rst)) :
    s'.mShouldBlock = (db.isIpv4Hit p.srcIp.getIpv4 || lastAnswer db (s.lookups p) s.mShouldBlock) ∧
      rst = if s'.mShouldBlock = true then some (resetFor p) else none := by
  obtain ⟨s₁, hdecodes, -, ⟨hno, -⟩ | ⟨-, hblock⟩⟩ := receive_decodes h
  · exact absurd hreach hno
  · have hflag := blockMe_shouldBlock db s₁ hv
    have hrst := blockMe_snd db s₁ hv
    rw [hblock] at hflag hrst
    exact ⟨by rw [hflag, hdecodes.shouldBlock], hrst⟩

/-- A packet that does not get as far as `blockMe` completes nothing. -/
theorem reported_of_not_reaches (h : ¬ s.ReachesBlock p) : s.reported p = none := by
  have hcall : s.parserCall p = none := if_neg fun hcall => h hcall.1.reachesBlock
  rw [reported, hcall]
  rfl

end CTcpSession

/-! ## Runs -/

section Run

variable {P : HttpParser} {db : CDBManager} {sess : CTcpSession P} {pre : List CL4Info} {p : CL4Info}

/-- The invariant of the packets that keep the rule: the flag is set once there has been a hit. -/
def BlockRun (db : CDBManager) (sess : CTcpSession P) (pkts : List CL4Info) : Prop :=
  ∀ s w, sess.watch db pkts = .ok (s, w) → w.HasHit db → s.mShouldBlock = true

/-- The flag after a packet that keeps the rule. -/
theorem EndsWithHit.shouldBlock {s s' : CTcpSession P} {w : Watch} {rst : Option Rst}
    (hp : EndsWithHit db sess pre p) (hv : p.ipVersion = 4) (h : BlockRun db sess pre)
    (hs : sess.watch db pre = .ok (s, w)) (hr : s.receive db p = .ok (s', rst))
    (hhit : (w.after (s.reported p)).HasHit db) : s'.mShouldBlock = true := by
  by_cases hreach : s.ReachesBlock p
  · rw [(CTcpSession.receive_shouldBlock hv hreach hr).1]
    rcases hp s w _ hs hr hhit with hlisted | hlast
    · rw [hlisted, Bool.true_or]
    · rw [Bool.or_eq_true, lastAnswer]
      right
      rcases hquery : (s.lookups p).getLast? with _ | q
      · -- there is no look-up, so the flag has to be set before
        rw [hquery] at hlast
        exact hlast.elim (h s w hs) id
      · rw [hquery] at hlast
        exact hlast
  · rw [CTcpSession.reported_of_not_reaches hreach] at hhit
    obtain ⟨-, -, -, ⟨-, -, hflag⟩ | ⟨hyes, -⟩⟩ := CTcpSession.receive_decodes hr
    · rw [hflag]
      exact h s w hs hhit
    · exact absurd hyes hreach

theorem BlockRun.step (h : BlockRun db sess pre) (hv : p.ipVersion = 4)
    (hp : EndsWithHit db sess pre p) : BlockRun db sess (pre ++ [p]) := by
  intro s' w' hs' hhit
  obtain ⟨s, w, rst, hs, hr, rfl⟩ := CTcpSession.observe_snoc_ok hs'
  exact hp.shouldBlock hv h hs hr hhit

theorem staysBlocked_snoc : StaysBlocked db sess (pre ++ [p]) ↔
    ∀ s w s' rst, sess.watch db pre = .ok (s, w) → s.ReachesBlock p →
      s.receive db p = .ok (s', rst) → (w.after (s.reported p)).HasHit db →
      rst = some (CTcpSession.resetFor p) := by
  constructor
  · intro h s w s' rst
    exact h pre p s w s' rst rfl
  · intro h pre' p' s w s' rst heq
    obtain ⟨rfl, hp⟩ := List.append_inj' heq rfl
    obtain rfl : p = p' := by simpa using hp
    exact h s w s' rst

/-- A packet that breaks the rule is not answered. -/
theorem endsWithHit_of_staysBlocked (hv : p.ipVersion = 4)
    (hstay : StaysBlocked db sess (pre ++ [p])) : EndsWithHit db sess pre p := by
  rintro s w ⟨s', rst⟩ hs hr hhit
  by_cases hreach : s.ReachesBlock p
  · obtain ⟨hflag, hrst⟩ := CTcpSession.receive_shouldBlock hv hreach hr
    rw [staysBlocked_snoc.mp hstay s w s' rst hs hreach hr hhit] at hrst
    have hset : s'.mShouldBlock = true := by
      by_contra hunset
      simp [hunset] at hrst
    rw [hflag, Bool.or_eq_true] at hset
    refine hset.imp_right fun hanswer => ?_
    rcases hquery : (s.lookups p).getLast? with _ | q
    · rw [lastAnswer, hquery] at hanswer
      exact .inr hanswer
    · rw [lastAnswer, hquery] at hanswer
      exact hanswer
  · right
    rw [CTcpSession.lookups, CTcpSession.reported_of_not_reaches hreach]
    rw [CTcpSession.reported_of_not_reaches hreach] at hhit
    exact .inl hhit

theorem BlockRun.staysBlocked (h : BlockRun db sess pre) (hv : p.ipVersion = 4)
    (hp : EndsWithHit db sess pre p) : StaysBlocked db sess (pre ++ [p]) := by
  refine staysBlocked_snoc.mpr fun s w s' rst hs hreach hr hhit => ?_
  rw [(CTcpSession.receive_shouldBlock hv hreach hr).2, if_pos (hp.shouldBlock hv h hs hr hhit)]

theorem blockRun_nil : BlockRun db sess [] := by
  rintro s w ⟨⟩ ⟨q, hq, -⟩
  cases hq

theorem staysBlocked_nil : StaysBlocked db sess [] := by
  intro pre p s w s' rst heq
  simp at heq

end Run

end Killerfinder
