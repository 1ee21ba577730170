import DeepSecurity.Killerfinder.DecoderRun

/-!
# Blocked connections

The requests that the callbacks of the parser complete, and the look-ups that the decoder makes with
the strings it has collected. A connection is to be blocked from the first request on the block list on;
the rule for packets under which it is compares the two.
-/

namespace Killerfinder

/-! ## Look-ups -/

/-- What is looked up in the block list for a request. -/
structure Query where
  /-- The protocol, which decides whether there is a look-up at all. -/
  prot : Bytes
  /-- The host, with its port if the request has one. -/
  host : Bytes
  /-- The path with its query. -/
  path : Bytes
deriving DecidableEq

namespace Query

/-- The answer of the block list. -/
def hit (db : CDBManager) (q : Query) : Bool := db.isUrlHit q.prot q.host q.path

/-- The request for a target with a `Host` value. A target that cannot be taken apart gives none. -/
def ofHost (url host : Bytes) : Option Query :=
  match CTcpSession.requestPath url with
  | .error _ => none
  | .ok path =>
    match CxxString.find (lit [':', '/', '/']) url with
    | some pos => some ⟨url.take pos, host, path⟩
    | none => some ⟨lit ['h', 't', 't', 'p'], host, path⟩

/-- The request for an absolute URL. -/
def ofUrl (url : Bytes) : Option Query :=
  match CxxString.find (lit [':', '/', '/']) url with
  | some hostPos =>
    let rest := url.drop (hostPos + 3)
    match CxxString.find (lit ['/']) rest with
    | some pathPos => some ⟨url.take hostPos, rest.take pathPos, rest.drop pathPos⟩
    | none => some ⟨url.take hostPos, rest, lit ['/']⟩
  | none => none

end Query

/-! ## Requests -/

/-- What the callbacks have said about the headers of a message. -/
structure Message where
  /-- The request target as far as it has been read. -/
  target : Bytes := []
  /-- The name of the header that is being read. -/
  name : Bytes := []
  /-- The last piece of the name came in `s_header_field`, so the next one belongs to it. -/
  nameOpen : Bool := false
  /-- The value of this header. -/
  value : Bytes := []
  /-- There has been a `Host` value. -/
  hasHost : Bool := false
  /-- The headers have ended; what follows are trailers. -/
  headDone : Bool := false

namespace Message

/-- The header that is being read is called `Host`, in any case. -/
def isHost (m : Message) : Bool := m.name.map CTcpSession.tolower = lit ['h', 'o', 's', 't']

/-- What a callback says about the message. -/
def add (m : Message) : ParserEvent → Message
  | .messageBegin => {}
  | .url _ _ buf => { m with target := m.target ++ buf }
  | .headerField state buf =>
    -- `s_header_field`
    { m with
      name := if m.nameOpen then m.name ++ buf else buf
      nameOpen := state = 43
      value := [] }
  | .headerValue _ buf =>
    { m with value := m.value ++ buf, hasHost := m.hasHost || (m.isHost && !buf.isEmpty) }
  | .headersComplete => { m with headDone := true }
  | .responseStatus _ | .body _ | .messageComplete => m

/-- The request that a callback completes: at the end of the line of a `Host` header, or at the end of the
headers if there has been no `Host` value. -/
def completed (m : Message) : ParserEvent → Option Query
  | .headerValue state buf =>
    -- `s_header_almost_done`
    if m.headDone = false ∧ m.isHost = true ∧ state = 50 then
      Query.ofHost m.target (m.value ++ buf)
    else none
  | .headersComplete => if m.headDone = false ∧ m.hasHost = false then Query.ofUrl m.target else none
  | _ => none

end Message

/-- The message that is being read, and the requests completed so far. -/
structure Watch where
  /-- What the callbacks have said about the current message. -/
  message : Message := {}
  /-- The look-ups that the callbacks so far should have led to, in order. -/
  completed : List Query := []

namespace Watch

/-- A callback. -/
def add (w : Watch) (event : ParserEvent) : Watch :=
  ⟨w.message.add event, w.completed ++ (w.message.completed event).toList⟩

/-- After a call of the parser. An error drops the message. -/
def after (w : Watch) : Option (List ParserEvent × Bool) → Watch
  | none => w
  | some (events, true) => events.foldl add w
  | some (events, false) => { events.foldl add w with message := {} }

/-- One of the completed requests is on the block list. -/
def HasHit (db : CDBManager) (w : Watch) : Prop := ∃ q ∈ w.completed, q.hit db = true

end Watch

/-! ## The decoder -/

namespace Collected

/-- The look-up that a callback makes. -/
def lookup (c : Collected) : ParserEvent → Option Query
  | .headerValue state buf =>
    if c.hostField = lit ['h', 'o', 's', 't'] ∧ state = 50 then Query.ofHost c.url (c.hostValue ++ buf)
    else none
  | .headersComplete => if c.hostValue = [] then Query.ofUrl c.url else none
  | _ => none

/-- The look-ups that callbacks make one after the other. -/
def lookups (c : Collected) : List ParserEvent → List Query
  | [] => []
  | event :: events => (c.lookup event).toList ++ (c.add event).lookups events

end Collected

/-! ## Packets -/

section Rules

variable {P : HttpParser} (db : CDBManager)

namespace CTcpSession

/-- The look-ups that a packet leads to, with the strings collected before it. -/
def lookups (s : CTcpSession P) (p : CL4Info) : List Query :=
  match s.reported p with
  | some (events, _) => s.mHttpDecoder.collected.lookups events
  | none => []

/-- The session after the packets, and the requests that they complete. -/
def watch (sess : CTcpSession P) (pkts : List CL4Info) : Except OutOfRange (CTcpSession P × Watch) :=
  sess.observe db Watch.after {} pkts

end CTcpSession

/-- Once a request on the block list has been completed, the last packet is answered by a reset if it
gets as far as `blockMe`. -/
def StaysBlocked (sess : CTcpSession P) (pkts : List CL4Info) : Prop :=
  ∀ pre p s w s' rst, pkts = pre ++ [p] → sess.watch db pre = .ok (s, w) → s.ReachesBlock p →
    s.receive db p = .ok (s', rst) → (w.after (s.reported p)).HasHit db →
    rst = some (CTcpSession.resetFor p)

/-- The rule for the packet `p` after the packets `pre`. Once a request on the block list has been
completed, before or by `p`: the address of the sender is on the block list, or the last look-up that
`p` leads to is a hit, or it leads to none and the request was completed before it or the flag is set. -/
def EndsWithHit (sess : CTcpSession P) (pre : List CL4Info) (p : CL4Info) : Prop :=
  ∀ s w r, sess.watch db pre = .ok (s, w) → s.receive db p = .ok r →
    (w.after (s.reported p)).HasHit db →
    db.isIpv4Hit p.srcIp.getIpv4 = true ∨
      match (s.lookups p).getLast? with
      | some q => q.hit db = true
      | none => w.HasHit db ∨ s.mShouldBlock = true

end Rules

end Killerfinder
