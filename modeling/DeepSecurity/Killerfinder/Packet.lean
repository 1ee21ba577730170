import DeepSecurity.Killerfinder.TcpSegBuf

/-!
# Addresses, session ids and TCP packets

`CIpAddress`, `CTcpSessionId` and `CL4Info`: what the session layer sees of a packet once the packet
handler has taken the headers apart.
-/

namespace Killerfinder

/-- An address of 16 bytes. An IPv4 address is its four bytes followed by twelve null bytes. -/
@[ext]
structure CIpAddress where
  /-- The bytes in the order of the network. -/
  mAddr : Bytes
  /-- An IPv4 address is padded, an IPv6 address fills the bytes. -/
  length_eq : mAddr.length = 16
deriving DecidableEq

namespace CIpAddress

/-- The constructor from an `in_addr_t`, given by its four bytes in memory order. -/
def ofIpv4 (a0 a1 a2 a3 : UInt8) : CIpAddress where
  mAddr := [a0, a1, a2, a3] ++ List.replicate 12 0
  length_eq := rfl

/-- The first four bytes, which are an `in_addr_t` in memory order. -/
def getIpv4 (a : CIpAddress) : Bytes := a.mAddr.take 4

end CIpAddress

/-- The endpoints of a connection, the one that opened it first. -/
structure CTcpSessionId where
  /-- The address that sent the first packet. -/
  mSrcIp : CIpAddress
  /-- The port that sent the first packet. -/
  mSrcPort : UInt16
  /-- The address of the other end. -/
  mDstIp : CIpAddress
  /-- The port of the other end. -/
  mDstPort : UInt16

namespace CTcpSessionId

/-- `operator ==`: the endpoints agree, in the same order or in the opposite one. -/
def operatorEq (a b : CTcpSessionId) : Bool :=
  (a.mSrcIp = b.mSrcIp && a.mSrcPort = b.mSrcPort &&
    a.mDstIp = b.mDstIp && a.mDstPort = b.mDstPort) ||
  (a.mSrcIp = b.mDstIp && a.mSrcPort = b.mDstPort &&
    a.mDstIp = b.mSrcIp && a.mDstPort = b.mSrcPort)

end CTcpSessionId

/-- A TCP packet as `processL5` receives it. -/
structure CL4Info where
  /-- The second in which the packet was captured. -/
  tvSec : ℤ
  /-- The version in the IP header, `0` if the header is too short. -/
  ipVersion : ℕ
  /-- The sender. -/
  srcIp : CIpAddress
  /-- The receiver. -/
  dstIp : CIpAddress
  /-- The port of the sender. -/
  srcPort : UInt16
  /-- The port of the receiver. -/
  dstPort : UInt16
  /-- The sequence number. -/
  seqNum : TcpSeq
  /-- The acknowledgement number. -/
  ackNum : TcpSeq
  /-- The byte `th_flags`. -/
  thFlags : UInt8
  /-- The payload. -/
  l5Data : Bytes
  /-- The lengths in the IP headers have 16 bits. -/
  length_lt : l5Data.length < 2 ^ 16

namespace CL4Info

variable (p : CL4Info)

/-- `FLAG_SET`. -/
def flagSet (flag : UInt8) : Bool := p.thFlags &&& flag ≠ 0

/-- `TH_FIN`. -/
def isFinSet : Bool := p.flagSet 0x01

/-- `TH_SYN`. -/
def isSynSet : Bool := p.flagSet 0x02

/-- `TH_RST`. -/
def isRstSet : Bool := p.flagSet 0x04

/-- `TH_ACK`. -/
def isAckSet : Bool := p.flagSet 0x10

/-- A bare acknowledgement: no payload and no flag other than `TH_ACK`. -/
def isAckPacket : Bool := p.l5Data.isEmpty && !p.flagSet (~~~0x10)

/-- The id that `processL5` looks the session up with. -/
def sessionId : CTcpSessionId := ⟨p.srcIp, p.srcPort, p.dstIp, p.dstPort⟩

theorem not_isAckPacket (h : p.l5Data ≠ []) : p.isAckPacket = false := by
  simp [isAckPacket, h]

end CL4Info

end Killerfinder
