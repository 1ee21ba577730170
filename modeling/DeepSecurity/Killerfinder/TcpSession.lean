import DeepSecurity.Killerfinder.DBManager
import DeepSecurity.Killerfinder.Packet
import Mathlib.Logic.Function.Basic

/-!
# Sessions

`CTcpSession`, the hooks of `CTcpSessionPlugin` that do something, and the part of `CHttpTxnDecoder`
that runs while packets are captured (the active mode). The HTTP parser itself is a system library;
it is a parameter `P : HttpParser` that says which callbacks it invokes for which bytes.

A `std::out_of_range` that nothing catches ends the capture process. It is the error of the functions
below, together with the string on which it was thrown.
-/

namespace Killerfinder

/-- The string whose operation has thrown `std::out_of_range`. -/
inductive OutOfRange where
  /-- `m_buf` of a reassembly buffer. -/
  | segBuf
  /-- `m_url` of the HTTP decoder. -/
  | url
deriving DecidableEq, Repr

/-- `TCP_SM_*`. -/
inductive TcpState where
  | init | handshake | clientSending | serverSending | clientFinished | serverFinished | closed
deriving DecidableEq, Repr

/-- `DIRECTION_TO_SERVER` and `DIRECTION_TO_CLIENT`. -/
inductive Direction where
  | toServer | toClient
deriving DecidableEq, Repr

/-- `PROTOCOL_*`. -/
inductive Protocol where
  | unknown | http | smtp
deriving DecidableEq, Repr

/-- The settings of `CConfig` that the session layer reads. -/
structure CConfig where
  /-- The ports whose connections are HTTP. -/
  mHttpPorts : List UInt16
  /-- The ports whose connections are SMTP. -/
  mSmtpPorts : List UInt16

/-! ## The HTTP parser -/

/-- A callback of the HTTP parser with the fields of the parser that the callback reads. -/
inductive ParserEvent where
  | messageBegin
  | url (state method : ℕ) (buf : Bytes)
  | responseStatus (buf : Bytes)
  | headerField (state : ℕ) (buf : Bytes)
  | headerValue (state : ℕ) (buf : Bytes)
  | headersComplete
  | body (buf : Bytes)
  | messageComplete

/-- The HTTP parser library, set up for requests. -/
structure HttpParser where
  /-- `struct http_parser`. -/
  State : Type
  /-- `http_parser_init`. -/
  init : State
  /-- `http_parser_execute`: the callbacks for the bytes in order, and whether there was no error. -/
  execute : State → Bytes → State × List ParserEvent × Bool

/-- A parser for concrete runs: its calls invoke the callbacks of the script, one list a call. A call
without bytes is an error, as it is inside a message. -/
def HttpParser.scripted (script : List (List ParserEvent)) : HttpParser where
  State := List (List ParserEvent)
  init := script
  execute state buf := if buf = [] then (state, [], false) else (state.tail, state.headD [], true)

/-- The state of the HTTP decoder of a session in the active mode. -/
structure CHttpTxnDecoder (P : HttpParser) where
  /-- The request target so far. -/
  mUrl : Bytes
  /-- The name of the current header so far. Once it is complete it is `host` or empty. -/
  mHostField : Bytes
  /-- The value of the `Host` header so far. -/
  mHostValue : Bytes
  /-- The method of the request. -/
  mActiveMethod : ℕ
  /-- The parser. -/
  mParser : P.State

/-- A cause for writing the block flag. -/
inductive BlockWrite where
  /-- A request has been looked up in the block list. -/
  | request (prot host path : Bytes)
  /-- A packet came from an address on the block list. -/
  | listed
deriving DecidableEq

/-- A session. The last field is not in the source: it records the writes of `mShouldBlock`. -/
structure CTcpSession (P : HttpParser) where
  /-- The endpoints, the client first. -/
  mSessId : CTcpSessionId
  /-- The state of the connection. -/
  mTcpState : TcpState
  /-- The session is decoded packet by packet. -/
  mActiveFlg : Bool
  /-- The protocol, by the port of the server. -/
  mProtocol : Protocol
  /-- The decoder for the requests of the client. -/
  mHttpDecoder : CHttpTxnDecoder P
  /-- The second of the last packet. -/
  mLastUpdateTime : ℤ
  /-- The packets of the session are answered with resets. -/
  mShouldBlock : Bool
  /-- The bytes that have been sent in each direction. -/
  mContinuousSeg : Direction → CTcpSegBuf
  /-- The writes of `mShouldBlock` so far, which the source does not record. -/
  blockLog : List BlockWrite

/-- A reset packet, the arguments of `CPacketCreater::sendIpv4Rst`. -/
structure Rst where
  /-- The address the reset pretends to come from. -/
  srcIp : Bytes
  /-- The address it is sent to. -/
  dstIp : Bytes
  /-- The identification in the IP header. -/
  id : UInt16
  /-- The port it pretends to come from. -/
  srcPort : UInt16
  /-- The port it is sent to. -/
  dstPort : UInt16
  /-- The sequence number. -/
  seq : TcpSeq
  /-- The acknowledgement number. -/
  ack : TcpSeq
deriving DecidableEq

namespace CTcpSession

variable {P : HttpParser} (db : CDBManager)

/-! ## Callbacks of the active mode -/

/-- Look the URL of a request up and set the block flag to the answer. -/
def checkUrl (sess : CTcpSession P) (prot host path : Bytes) :
    CTcpSession P :=
  { sess with
    mShouldBlock := db.isUrlHit prot host path
    blockLog := sess.blockLog ++ [.request prot host path] }

/-- A piece of the request target. -/
def requestUrlCb (sess : CTcpSession P) (state method : ℕ) (buf : Bytes) : CTcpSession P :=
  let decoder := { sess.mHttpDecoder with mUrl := sess.mHttpDecoder.mUrl ++ buf }
  -- `s_req_http_start`
  let decoder := if state = 32 then { decoder with mActiveMethod := method } else decoder
  { sess with mHttpDecoder := decoder }

/-- `tolower` in the C locale. -/
def tolower (c : UInt8) : UInt8 := if 65 ≤ c ∧ c ≤ 90 then c + 32 else c

/-- A piece of the name of a header. At the end of the name everything but `Host` is dropped. -/
def headerFieldCb (sess : CTcpSession P) (state : ℕ) (buf : Bytes) : CTcpSession P :=
  let hostF := sess.mHttpDecoder.mHostField ++ buf
  -- `s_header_value_discard_ws`
  let hostF := if state = 44 then
      let hostF := hostF.map tolower
      if hostF = lit ['h', 'o', 's', 't'] then hostF else []
    else hostF
  { sess with mHttpDecoder := { sess.mHttpDecoder with mHostField := hostF } }

/-- The path of the URL of a request with a `Host` header. `url.find("://") + 3` is `2` if there is
no `"://"`, since `npos` is `2 ^ 64 - 1`. -/
def requestPath (url : Bytes) : Except OutOfRange Bytes :=
  if url.head? ≠ some '/'.toUInt8 then
    let pos := match CxxString.find (lit [':', '/', '/']) url with
      | some pos => pos + 3
      | none => 2
    match CxxString.substr url pos url.length with
    | none => .error .url
    | some tmp =>
      match CxxString.find (lit ['/']) tmp with
      | some pos => .ok (tmp.drop pos)
      | none => .ok (lit ['/'])
  else .ok url

/-- A piece of the value of a header. At the end of a `Host` value the request is looked up. -/
def headerValueCb (sess : CTcpSession P) (state : ℕ) (buf : Bytes) :
    Except OutOfRange (CTcpSession P) :=
  if sess.mHttpDecoder.mHostField = lit ['h', 'o', 's', 't'] then
    let hostV := sess.mHttpDecoder.mHostValue ++ buf
    let sess := { sess with mHttpDecoder := { sess.mHttpDecoder with mHostValue := hostV } }
    -- `s_header_almost_done`
    if state = 50 then
      let url := sess.mHttpDecoder.mUrl
      let prot := match CxxString.find (lit [':', '/', '/']) url with
        | some pos => url.take pos
        | none => lit ['h', 't', 't', 'p']
      match requestPath url with
      | .error e => .error e
      | .ok path => .ok (sess.checkUrl db prot hostV path)
    else .ok sess
  else .ok sess

/-- The end of the headers. An absolute URL without a `Host` header is looked up here. -/
def headersCompleteCb (sess : CTcpSession P) : CTcpSession P :=
  let url := sess.mHttpDecoder.mUrl
  let sess := if sess.mHttpDecoder.mHostValue = [] then
      match CxxString.find (lit [':', '/', '/']) url with
      | some hostPos =>
        let rest := url.drop (hostPos + 3)
        match CxxString.find (lit ['/']) rest with
        | some pathPos =>
          sess.checkUrl db (url.take hostPos) (rest.take pathPos) (rest.drop pathPos)
        | none => sess.checkUrl db (url.take hostPos) rest (lit ['/'])
      | none => sess
    else sess
  { sess with
    mHttpDecoder := { sess.mHttpDecoder with mHostField := [], mHostValue := [], mUrl := [] } }

/-- The callbacks; those that are not listed do nothing in the active mode. -/
def callback (sess : CTcpSession P) :
    ParserEvent → Except OutOfRange (CTcpSession P)
  | .url state method buf => .ok (sess.requestUrlCb state method buf)
  | .headerField state buf => .ok (sess.headerFieldCb state buf)
  | .headerValue state buf => sess.headerValueCb db state buf
  | .headersComplete => .ok (sess.headersCompleteCb db)
  | .messageBegin | .responseStatus _ | .body _ | .messageComplete => .ok sess

/-! ## The active decoder -/

/-- A new parser, at the start of the session and after an error. -/
def parserInit (sess : CTcpSession P) : CTcpSession P :=
  { sess with mHttpDecoder := { sess.mHttpDecoder with mParser := P.init } }

/-- Exchange the buffer of one direction. -/
def setContinuousBuf (sess : CTcpSession P) (dir : Direction) (b : CTcpSegBuf) :
    CTcpSession P :=
  { sess with mContinuousSeg := Function.update sess.mContinuousSeg dir b }

/-- Give the bytes to the parser; the second component says whether there was no error. -/
def parserExecute (sess : CTcpSession P) (buf : Bytes) :
    Except OutOfRange (CTcpSession P × Bool) :=
  let (state, events, ok) := P.execute sess.mHttpDecoder.mParser buf
  match events.foldlM (callback db) sess with
  | .error e => .error e
  | .ok sess => .ok ({ sess with mHttpDecoder := { sess.mHttpDecoder with mParser := state } }, ok)

/-- `decodeHttpActive(HTTP_REQUEST)`. -/
def decodeHttpActive (sess : CTcpSession P) : Except OutOfRange (CTcpSession P) :=
  match (sess.mContinuousSeg .toServer).dumpUnusedData with
  | none => .error .segBuf
  | some (buf, b) =>
    match (sess.setContinuousBuf .toServer b).parserExecute db buf with
    | .error e => .error e
    | .ok (sess, true) => .ok sess
    | .ok (sess, false) =>
      let sess := sess.parserInit
      .ok (sess.setContinuousBuf .toServer ((sess.mContinuousSeg .toServer).setUsedPos 0))

/-! ## The session -/

/-- `CTcpSessionPlugin::payloadReceived`. -/
def payloadReceived (sess : CTcpSession P) (dir : Direction) :
    Except OutOfRange (CTcpSession P) :=
  if sess.mProtocol = .http ∧ sess.mActiveFlg = true ∧ dir = .toServer then
    sess.decodeHttpActive db
  else .ok sess

end CTcpSession

/-- The protocol of a session, by the port of the server. -/
def CConfig.protocolOf (cfg : CConfig) (port : UInt16) : Protocol :=
  if port ∈ cfg.mHttpPorts then .http
  else if port ∈ cfg.mSmtpPorts then .smtp
  else .unknown

/-- The state after a payload in the direction `dir`. -/
def TcpState.afterPayload : TcpState → Direction → TcpState
  | .init, .toServer => .clientSending
  | .init, .toClient => .serverSending
  | .handshake, .toServer => .clientSending
  | .handshake, .toClient => .serverSending
  | .clientSending, .toClient => .serverSending
  | .serverSending, .toServer => .clientSending
  | .serverFinished, .toClient => .closed
  | .clientFinished, .toServer => .closed
  | s, _ => s

/-- The state after a FIN in the direction `dir`. -/
def TcpState.afterFin : TcpState → Direction → TcpState
  | .serverFinished, .toServer => .closed
  | .serverFinished, .toClient => .serverFinished
  | .clientFinished, .toClient => .closed
  | .clientFinished, .toServer => .clientFinished
  | .closed, _ => .closed
  | _, .toClient => .serverFinished
  | _, .toServer => .clientFinished

/-- The direction of a packet of the connection `id`. -/
def CTcpSessionId.getDirection (id : CTcpSessionId) (p : CL4Info) : Direction :=
  if id.mSrcIp = p.srcIp ∧ id.mSrcPort = p.srcPort then .toServer else .toClient

namespace CTcpSession

variable {P : HttpParser} (cfg : CConfig) (db : CDBManager)

/-- The session can be posted. -/
def isClosed (sess : CTcpSession P) : Bool := sess.mTcpState = .closed

/-- The direction of a packet of the session. -/
def getDirection (sess : CTcpSession P) (p : CL4Info) : Direction :=
  sess.mSessId.getDirection p

/-- Put the payload of a packet into the buffer of its direction. -/
def savePayload (sess : CTcpSession P) (p : CL4Info) (dir : Direction) :
    Except OutOfRange (CTcpSession P) :=
  match (sess.mContinuousSeg dir).insertData p.seqNum p.l5Data with
  | none => .error .segBuf
  | some b => .ok (sess.setContinuousBuf dir b)

/-- A reset closes the session at once, a FIN only its own direction. -/
def finishMe (sess : CTcpSession P) (p : CL4Info) (dir : Direction) : CTcpSession P :=
  if p.isRstSet then { sess with mTcpState := .closed }
  else if !p.isFinSet then sess
  else { sess with mTcpState := sess.mTcpState.afterFin dir }

/-- The part of `updateMe` for a packet with a payload. -/
def takePayload (sess : CTcpSession P) (p : CL4Info) (dir : Direction) :
    Except OutOfRange (CTcpSession P) :=
  match sess.savePayload p dir with
  | .error e => .error e
  | .ok sess =>
    { sess with mTcpState := sess.mTcpState.afterPayload dir }.payloadReceived db dir

/-- A packet of the session. A SYN is not looked at further, and the SYN of the server sets the
start of its stream. -/
def updateMe (sess : CTcpSession P) (p : CL4Info) :
    Except OutOfRange (CTcpSession P) :=
  if p.isSynSet then
    let sess := { sess with mTcpState := .handshake }
    if p.isAckSet then
      let b := (sess.mContinuousSeg .toClient).setStartSeq (p.seqNum + 1)
      .ok (sess.setContinuousBuf .toClient b)
    else .ok sess
  else
    let dir := sess.getDirection p
    if p.l5Data.length > 0 then
      match sess.takePayload db p dir with
      | .error e => .error e
      | .ok sess => .ok (sess.finishMe p dir)
    else .ok (sess.finishMe p dir)

/-- The look-up of the address of a packet in the block list. The second test of the source repeats
the first one, so the address of the receiver is not looked up. -/
def checkAddress (sess : CTcpSession P) (p : CL4Info) : CTcpSession P :=
  if db.isIpv4Hit p.srcIp.getIpv4 || db.isIpv4Hit p.srcIp.getIpv4 then
    { sess with mShouldBlock := true, blockLog := sess.blockLog ++ [.listed] }
  else sess

/-- The reset that answers a packet. -/
def resetFor (p : CL4Info) : Rst where
  srcIp := p.dstIp.getIpv4
  dstIp := p.srcIp.getIpv4
  id := 0x1111
  srcPort := p.dstPort
  dstPort := p.srcPort
  seq := p.ackNum
  ack := UInt32.ofNat (p.seqNum.toNat + p.l5Data.length)

/-- Send a reset to the sender of a packet if the session is to be blocked. IPv6 packets are let
pass. -/
def blockMe (sess : CTcpSession P) (p : CL4Info) : CTcpSession P × Option Rst :=
  if p.ipVersion = 4 then
    (sess.checkAddress db p, if (sess.checkAddress db p).mShouldBlock then some (resetFor p) else none)
  else (sess, none)

/-- Called with the second of each packet. -/
def setLastUpdateTime (sess : CTcpSession P) (t : ℤ) : CTcpSession P :=
  { sess with mLastUpdateTime := t }

/-- The constructor. The parser is set up before it is used. -/
def new (id : CTcpSessionId) : CTcpSession P where
  mSessId := id
  mTcpState := .handshake
  mActiveFlg := true
  mProtocol := cfg.protocolOf id.mDstPort
  mHttpDecoder := ⟨[], [], [], 0, P.init⟩
  mLastUpdateTime := 0
  mShouldBlock := false
  mContinuousSeg := fun _ => CTcpSegBuf.new
  blockLog := []

/-- `CTcpSessionPlugin::sessionCreated`. -/
def sessionCreated (sess : CTcpSession P) : CTcpSession P :=
  if sess.mProtocol = .http then { sess with mActiveFlg := true }.parserInit else sess

/-- What `processL5` does with a new session, up to the call of `blockMe`. -/
def opened (p : CL4Info) : CTcpSession P :=
  let sess : CTcpSession P := new cfg p.sessionId
  let b := ((sess.mContinuousSeg .toServer).setStartSeq (p.seqNum + 1)).setUsedPos 0
  ((sess.setContinuousBuf .toServer b).setLastUpdateTime p.tvSec).sessionCreated

/-- What `processL5` does with the session of a packet, up to the posting of sessions. -/
def receive (sess : CTcpSession P) (p : CL4Info) :
    Except OutOfRange (CTcpSession P × Option Rst) :=
  if p.isAckPacket then .ok (sess.setLastUpdateTime p.tvSec, none)
  else if sess.isClosed then .ok (sess.setLastUpdateTime p.tvSec, none)
  else
    match (sess.setLastUpdateTime p.tvSec).updateMe db p with
    | .error e => .error e
    | .ok sess => .ok (sess.blockMe db p)

end CTcpSession

end Killerfinder
