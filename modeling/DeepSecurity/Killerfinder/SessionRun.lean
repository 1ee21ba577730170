import DeepSecurity.Killerfinder.TcpSession

/-!
# Runs of a session

What is to hold of a session after every packet it receives, and the rules for packets under which
it does: the reassembly buffers are never read or written beyond their end, and the session is closed
exactly when the connection is over.
-/

namespace Killerfinder

variable {P : HttpParser} (cfg : CConfig) (db : CDBManager)

/-- The session that `processL5` creates for the packet `syn`. -/
def CTcpSession.created (syn : CL4Info) : CTcpSession P :=
  ((CTcpSession.opened cfg syn).blockMe db syn).1

/-- The session after the packets `pkts`, or the exception that one of them has raised. -/
def CTcpSession.run (sess : CTcpSession P) (pkts : List CL4Info) :
    Except OutOfRange (CTcpSession P) :=
  pkts.foldlM (fun sess p => (sess.receive db p).map Prod.fst) sess

/-- A packet of the client 10.0.0.1:40000 for the server 10.0.0.2:80, for concrete runs. -/
def clientPacket (seqNum : TcpSeq) (thFlags : UInt8) (l5Data : Bytes)
    (length_lt : l5Data.length < 2 ^ 16) : CL4Info :=
  { tvSec := 1, ipVersion := 4, srcIp := CIpAddress.ofIpv4 10 0 0 1,
    dstIp := CIpAddress.ofIpv4 10 0 0 2, srcPort := 40000, dstPort := 80, ackNum := 1,
    seqNum, thFlags, l5Data, length_lt }

/-- A packet of the same connection in the other direction. -/
def serverPacket (seqNum : TcpSeq) (thFlags : UInt8) (l5Data : Bytes)
    (length_lt : l5Data.length < 2 ^ 16) : CL4Info :=
  { tvSec := 1, ipVersion := 4, srcIp := CIpAddress.ofIpv4 10 0 0 2,
    dstIp := CIpAddress.ofIpv4 10 0 0 1, srcPort := 80, dstPort := 40000, ackNum := 1,
    seqNum, thFlags, l5Data, length_lt }

/-- The block lists without entries. -/
def CDBManager.empty : CDBManager := ⟨fun _ => none, fun _ => none, fun _ => none⟩

/-- A block list with one host. -/
def CDBManager.blockHost (host : Bytes) : CDBManager :=
  { CDBManager.empty with hostnameMap := fun key => if key = host then some (lit ['1']) else none }

/-- The bytes of a request for the path `/` of a host. -/
def requestBytes (host : Bytes) : Bytes :=
  lit ['G', 'E', 'T', ' ', '/', ' ', 'H', 'T', 'T', 'P', '/', '1', '.', '1'] ++ [13, 10] ++
    lit ['H', 'o', 's', 't', ':', ' '] ++ host ++ [13, 10, 13, 10]

/-- The callbacks that the parser invokes for it. -/
def requestEvents (host : Bytes) : List ParserEvent :=
  [.messageBegin, .url 32 1 (lit ['/']), .headerField 44 (lit ['H', 'o', 's', 't']),
    .headerValue 50 host, .headersComplete, .messageComplete]

/-- The packet gets as far as `blockMe`. -/
def CTcpSession.ReachesBlock (s : CTcpSession P) (p : CL4Info) : Prop :=
  p.isAckPacket = false ∧ s.isClosed = false

/-! ## Positions in the reassembly buffers -/

/-- The packet has a payload that the session saves. -/
def CTcpSession.Saves (sess : CTcpSession P) (p : CL4Info) : Prop :=
  sess.isClosed = false ∧ p.isSynSet = false ∧ p.l5Data ≠ []

/-- One of the packets carries a payload of the client that is saved. -/
def ClientSent (sess : CTcpSession P) (pkts : List CL4Info) : Prop :=
  Trace.SomeStep (fun pre p =>
    ∃ s, sess.run db pre = .ok s ∧ s.Saves p ∧ s.getDirection p = .toServer) pkts

/-- The marks of a buffer are in order: the used mark is at most the end mark, which is the end of the
contents. -/
def CTcpSegBuf.MarksOk (b : CTcpSegBuf) : Prop :=
  (b.mUsed - b.mStart).toNat ≤ (b.mEnd - b.mStart).toNat ∧
    (b.mEnd - b.mStart).toNat = b.mBuf.length

/-- No packet has led to a position beyond the end of a reassembly buffer, and the marks of the buffer
of the client are in order once the client has sent something. -/
def InRange (sess : CTcpSession P) (pkts : List CL4Info) : Prop :=
  match sess.run db pkts with
  | .error .segBuf => False
  | .error .url => True
  | .ok s => ClientSent db sess pkts → (s.mContinuousSeg .toServer).MarksOk

/-- The start mark once a segment with the number `seq` is inserted. -/
def CTcpSegBuf.startFor (b : CTcpSegBuf) (seq : TcpSeq) : TcpSeq :=
  if b.mStart = 0 then seq else b.mStart

/-- A segment of `len` bytes with the number `seq` may be inserted into the buffer `b`: if it reaches
beyond the end mark, it must not begin so far behind the start mark that the position of its end
wraps around, and it must reach the used mark; otherwise it must lie inside the contents. -/
def CTcpSegBuf.Accepts (b : CTcpSegBuf) (seq : TcpSeq) (len : ℕ) : Prop :=
  if b.mEnd.toNat < seq.toNat + len then
    (seq - b.startFor seq).toNat + len < 2 ^ 32 ∧
      (b.mUsed - b.startFor seq).toNat ≤ (seq - b.startFor seq).toNat + len
  else (b.mStart ≠ 0 ∨ seq = 0) ∧ (seq - b.startFor seq).toNat + len ≤ b.mBuf.length

/-- The same for a buffer whose marks do not matter: the segment must begin inside the contents. -/
def CTcpSegBuf.Reaches (b : CTcpSegBuf) (seq : TcpSeq) (len : ℕ) : Prop :=
  if b.mEnd.toNat < seq.toNat + len then (seq - b.startFor seq).toNat + len < 2 ^ 32
  else (seq - b.startFor seq).toNat ≤ b.mBuf.length

instance (b : CTcpSegBuf) (seq : TcpSeq) (len : ℕ) : Decidable (b.Accepts seq len) :=
  inferInstanceAs (Decidable (if b.mEnd.toNat < seq.toNat + len then _ else _))

instance (b : CTcpSegBuf) (seq : TcpSeq) (len : ℕ) : Decidable (b.Reaches seq len) :=
  inferInstanceAs (Decidable (if b.mEnd.toNat < seq.toNat + len then _ else _))

/-- The rule for the sequence number of a packet in the direction it is sent in. -/
def CTcpSession.SeqInRange (s : CTcpSession P) (p : CL4Info) : Prop :=
  match s.getDirection p with
  | .toServer => (s.mContinuousSeg .toServer).Accepts p.seqNum p.l5Data.length
  | .toClient => (s.mContinuousSeg .toClient).Reaches p.seqNum p.l5Data.length

instance (s : CTcpSession P) (p : CL4Info) : Decidable (s.SeqInRange p) :=
  match h : s.getDirection p with
  | .toServer =>
    decidable_of_iff ((s.mContinuousSeg .toServer).Accepts p.seqNum p.l5Data.length)
      (by simp [CTcpSession.SeqInRange, h])
  | .toClient =>
    decidable_of_iff ((s.mContinuousSeg .toClient).Reaches p.seqNum p.l5Data.length)
      (by simp [CTcpSession.SeqInRange, h])

/-- The rule for the sequence number of the packet `p` after the packets `pre`. -/
def SeqInRange (sess : CTcpSession P) (pre : List CL4Info) (p : CL4Info) : Prop :=
  ∀ s, sess.run db pre = .ok s → s.Saves p → s.SeqInRange p

/-! ## The end of a connection -/

/-- The session after the packets `pkts` have been given to `updateMe`. -/
def CTcpSession.runUpdate (sess : CTcpSession P) (pkts : List CL4Info) :
    Except OutOfRange (CTcpSession P) :=
  pkts.foldlM (CTcpSession.updateMe db) sess

/-- The opposite direction. -/
def Direction.other : Direction → Direction
  | .toServer => .toClient
  | .toClient => .toServer

/-- There is a FIN in the direction `dir` among the packets of the connection `id`. -/
def FinSeen (id : CTcpSessionId) (dir : Direction) (pkts : List CL4Info) : Prop :=
  ∃ p ∈ pkts, p.isFinSet = true ∧ id.getDirection p = dir

/-- The packets end the connection `id`: one of them is a RST, or there is a FIN in each direction. -/
def Terminated (id : CTcpSessionId) (pkts : List CL4Info) : Prop :=
  (∃ p ∈ pkts, p.isRstSet = true) ∨ (FinSeen id .toServer pkts ∧ FinSeen id .toClient pkts)

/-- There is a FIN in the direction `dir` after the last SYN. A FIN on a SYN packet does not count. -/
def finSinceSyn (id : CTcpSessionId) (dir : Direction) (pkts : List CL4Info) : Bool :=
  pkts.foldl (fun b p => !p.isSynSet && (b || (p.isFinSet && id.getDirection p = dir))) false

/-- The session is closed exactly if the packets end the connection. -/
def ClosedIffTerminated (sess : CTcpSession P) (pkts : List CL4Info) : Prop :=
  ∀ s, sess.runUpdate db pkts = .ok s → (s.isClosed = true ↔ Terminated sess.mSessId pkts)

/-- The rule for the packet `p` after the packets `pre` of the connection `id`: there is no SYN once
the connection is over, nor one that itself ends it; as long as it is not over, nothing but a RST
comes with a payload in a direction that has been finished, and when the second direction is finished
there is no SYN after the FIN of the first. -/
def OrderlyEnd (id : CTcpSessionId) (pre : List CL4Info) (p : CL4Info) : Prop :=
  if p.isSynSet = true then ¬ Terminated id (pre ++ [p])
  else ¬ Terminated id pre →
    (p.l5Data ≠ [] → finSinceSyn id (id.getDirection p) pre = true → p.isRstSet = true) ∧
    (p.isFinSet = true → p.isRstSet = false → FinSeen id (id.getDirection p).other pre →
      finSinceSyn id (id.getDirection p).other pre = true)

instance (id : CTcpSessionId) (dir : Direction) (pkts : List CL4Info) :
    Decidable (FinSeen id dir pkts) :=
  inferInstanceAs (Decidable (∃ p ∈ pkts, _ ∧ _))

instance (id : CTcpSessionId) (pkts : List CL4Info) : Decidable (Terminated id pkts) :=
  inferInstanceAs (Decidable ((∃ p ∈ pkts, _) ∨ (_ ∧ _)))

instance (id : CTcpSessionId) (pre : List CL4Info) (p : CL4Info) : Decidable (OrderlyEnd id pre p) :=
  inferInstanceAs (Decidable (if p.isSynSet = true then _ else _))

end Killerfinder
