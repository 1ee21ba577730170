import DeepSecurity.Killerfinder.SessionRun

/-!
# Runs of the HTTP decoder

What the callbacks of the active mode collect, how far the parser is with a message, and what is to
hold along the packets of a session: what has been collected belongs to the message that is being
parsed.
-/

namespace Killerfinder

/-- `m_url`, `m_hostField` and `m_hostValue`. -/
structure Collected where
  /-- The request target. -/
  url : Bytes := []
  /-- The name of a header, as long as it may be `Host`. -/
  hostField : Bytes := []
  /-- The value of the `Host` header. -/
  hostValue : Bytes := []
deriving DecidableEq

/-- The three strings of the decoder. -/
def CHttpTxnDecoder.collected {P : HttpParser} (d : CHttpTxnDecoder P) : Collected :=
  ⟨d.mUrl, d.mHostField, d.mHostValue⟩

/-- What a callback does to the three strings. -/
def Collected.add (c : Collected) : ParserEvent → Collected
  | .url _ _ buf => { c with url := c.url ++ buf }
  | .headerField state buf =>
    if state = 44 then
      if (c.hostField ++ buf).map CTcpSession.tolower = lit ['h', 'o', 's', 't'] then
        { c with hostField := lit ['h', 'o', 's', 't'] }
      else { c with hostField := [] }
    else { c with hostField := c.hostField ++ buf }
  | .headerValue _ buf =>
    if c.hostField = lit ['h', 'o', 's', 't'] then { c with hostValue := c.hostValue ++ buf } else c
  | .headersComplete => {}
  | .messageBegin | .responseStatus _ | .body _ | .messageComplete => c

/-! ## The order of the callbacks -/

/-- How far the parser is: before a message, before its target, before the end of its headers, or
behind it. -/
inductive Phase where
  | start
  | begun
  | head
  | rest
deriving DecidableEq

/-- The callbacks come in this order. -/
def Phase.next : Phase → ParserEvent → Option Phase
  | .start, .messageBegin => some .begun
  | .begun, .url _ _ _ => some .head
  | .head, .url _ _ _ => some .head
  | .head, .headerField _ _ => some .head
  | .head, .headerValue _ _ => some .head
  | .head, .headersComplete => some .rest
  | .rest, .headerField _ _ => some .rest
  | .rest, .headerValue _ _ => some .rest
  | .rest, .body _ => some .rest
  | .rest, .messageComplete => some .start
  | _, _ => none

/-- A parser that invokes its callbacks in order, from the phase in which its state is. -/
structure HttpParser.Ordered (P : HttpParser) (phase : P.State → Phase) : Prop where
  /-- A new parser is before a message. -/
  init : phase P.init = .start
  /-- The callbacks of a call follow each other in order, and without an error the parser is in the
  phase behind the last one. -/
  execute : ∀ q buf, ∃ ph, (P.execute q buf).2.1.foldlM Phase.next (phase q) = some ph ∧
    ((P.execute q buf).2.2 = true → phase (P.execute q buf).1 = ph)

/-- How far a message is, and the callbacks that have been invoked for it. -/
structure Progress where
  /-- The part of the message in which the parser is. -/
  phase : Phase := .start
  /-- The callbacks since the message began. -/
  events : List ParserEvent := []
  /-- The names of trailers since the last one whose end came in `s_header_value_discard_ws`. -/
  trailer : Bytes := []

namespace Progress

/-- What a callback adds to the names of trailers. -/
def trailerAfter (pr : Progress) : ParserEvent → Bytes
  | .headerField state buf => if pr.phase = .rest ∧ state ≠ 44 then pr.trailer ++ buf else []
  | _ => pr.trailer

/-- A callback, if it comes in the right order. -/
def next (pr : Progress) (event : ParserEvent) : Option Progress :=
  (pr.phase.next event).map fun ph =>
    if ph = .start then {} else ⟨ph, pr.events ++ [event], pr.trailerAfter event⟩

/-- After a call of the parser with these callbacks. An error puts it back to its start. -/
def after (pr : Progress) : Option (List ParserEvent × Bool) → Progress
  | none => pr
  | some (events, true) => (events.foldlM next pr).getD {}
  | some (_, false) => {}

end Progress

/-! ## Packets -/

namespace CTcpSession

variable {P : HttpParser} (db : CDBManager)

instance (s : CTcpSession P) (p : CL4Info) : Decidable (s.Saves p) :=
  inferInstanceAs (Decidable (_ ∧ _ ∧ _))

/-- The call of the parser that a packet leads to: the session at this time, and the bytes. -/
def parserCall (s : CTcpSession P) (p : CL4Info) : Option (CTcpSession P × Bytes) :=
  if s.Saves p ∧ s.getDirection p = .toServer ∧ s.mProtocol = .http ∧ s.mActiveFlg = true then
    match (s.setLastUpdateTime p.tvSec).savePayload p .toServer with
    | .error _ => none
    | .ok s =>
      match (s.mContinuousSeg .toServer).dumpUnusedData with
      | none => none
      | some (buf, b) =>
        let s := { s with mTcpState := s.mTcpState.afterPayload .toServer }
        some (s.setContinuousBuf .toServer b, buf)
  else none

/-- What the parser answers to it. -/
def reported (s : CTcpSession P) (p : CL4Info) : Option (List ParserEvent × Bool) :=
  (s.parserCall p).map fun c => (P.execute c.1.mHttpDecoder.mParser c.2).2

/-- The session after the packets, with what is noted of the answers of the parser. -/
def observe {α : Type} (after : α → Option (List ParserEvent × Bool) → α) (note : α)
    (sess : CTcpSession P) (pkts : List CL4Info) : Except OutOfRange (CTcpSession P × α) :=
  pkts.foldlM (fun st p => (st.1.receive db p).map fun r => (r.1, after st.2 (st.1.reported p)))
    (sess, note)

/-- The session after the packets, and how far the parser is with a message. -/
def track (sess : CTcpSession P) (pkts : List CL4Info) :
    Except OutOfRange (CTcpSession P × Progress) :=
  sess.observe db Progress.after {} pkts

end CTcpSession

/-- What has been collected comes from callbacks of the message alone. So there is nothing at its
start. -/
structure Belongs {P : HttpParser} (pr : Progress) (d : CHttpTxnDecoder P) : Prop where
  /-- The strings are what the callbacks of the message add up to. -/
  own : d.collected = pr.events.foldl Collected.add {}
  /-- Between two messages the strings are empty. -/
  start : pr.phase = .start → d.mUrl = [] ∧ d.mHostField = [] ∧ d.mHostValue = []

section Rules

variable {P : HttpParser} (db : CDBManager)

/-- What is collected belongs to the message that is parsed, after the packets and after every callback
that the last packet leads to. -/
structure OwnMessage (sess : CTcpSession P) (pkts : List CL4Info) : Prop where
  /-- The strings belong to the message after all packets. -/
  packets : ∀ s pr, sess.track db pkts = .ok (s, pr) → Belongs pr s.mHttpDecoder
  /-- They belong to it after each callback of the call for the last packet, too. -/
  callbacks : ∀ pre p s pr s₀ buf, pkts = pre ++ [p] → sess.track db pre = .ok (s, pr) →
    s.parserCall p = some (s₀, buf) →
    ∀ events s₁, events <+: (P.execute s₀.mHttpDecoder.mParser buf).2.1 →
      events.foldlM (CTcpSession.callback db) s₀ = .ok s₁ →
      ∃ pr₁, events.foldlM Progress.next pr = some pr₁ ∧ Belongs pr₁ s₁.mHttpDecoder

/-- The callback leaves nothing behind in the trailers of a message: no name of a trailer is `Host`, and
at the end of the message every name has ended. -/
def Progress.Allows (pr : Progress) : ParserEvent → Prop
  | .headerField state buf => pr.phase = .rest → state = 44 →
      (pr.trailer ++ buf).map CTcpSession.tolower ≠ lit ['h', 'o', 's', 't']
  | .headerValue _ _ => pr.phase = .rest → pr.trailer ≠ lit ['h', 'o', 's', 't']
  | .messageComplete => pr.phase = .rest → pr.trailer = []
  | _ => True

/-- The same for callbacks one after the other. -/
def Progress.AllowsAll : Progress → List ParserEvent → Prop
  | _, [] => True
  | pr, event :: events => pr.Allows event ∧ ∀ pr', pr.next event = some pr' → pr'.AllowsAll events

/-- Nothing of a message has been collected. -/
def Progress.Clear (pr : Progress) : Prop := pr.phase ≠ .head ∧ pr.trailer = []

/-- The rule for the packet `p` after the packets `pre`: no trailer is called `Host`, the name of every
trailer ends in the state `s_header_value_discard_ws`, and the parser finds no error from the target of
a message to the end of its headers or in the name of a trailer. -/
def Undisturbed (sess : CTcpSession P) (pre : List CL4Info) (p : CL4Info) : Prop :=
  ∀ s pr events ok, sess.track db pre = .ok (s, pr) → s.reported p = some (events, ok) →
    pr.AllowsAll events ∧
    (ok = false → ∀ pr', events.foldlM Progress.next pr = some pr' → pr'.Clear)

end Rules

end Killerfinder
