import DeepSecurity.Killerfinder.Packet
import DeepSecurity.Lib.Checked

/-!
# Taking captured frames apart

`CPacketHandler::processL2` down to `processL4Tcp`, with `CL2Info`, `CL3Info` and the constructor of
`CL4Info`. A pointer into the frame is its distance from the beginning of the frame. Every read is
checked against the captured bytes; the reads for log messages are made too.
-/

namespace Killerfinder

open Checked

/-- A captured frame. `len` is the length of the frame on the wire, of which `packet` has been
captured; the field `caplen` of the capture header has 32 bits. -/
structure Frame where
  /-- The second of the capture. -/
  tvSec : ℤ
  /-- The length on the wire, `header->len`. -/
  len : ℕ
  /-- The captured bytes. -/
  packet : Bytes
  /-- `header->caplen` has 32 bits. -/
  caplen_lt : packet.length < 2 ^ 32

/-- The link types that are handled. -/
inductive Dlt where
  | en10Mb | linuxSll | raw | null | ppp
deriving DecidableEq, Repr

/-- Where the IP packet of a frame is. -/
structure CL2Info where
  /-- The captured bytes of the frame. -/
  packet : Bytes
  /-- The link type of the interface. -/
  dlt : Dlt
  /-- The position of the IP header. -/
  l3Data : ℕ
  /-- The number of bytes from there to the end of the frame, as the link layer counts them. -/
  l3Len : ℕ

namespace CL2Info

variable (l2 : CL2Info)

/-- The version of the IP header, `0` if there is not even an IPv4 header. -/
def getIpVersion : Checked ℕ :=
  if 20 ≤ l2.l3Len then do
    let b ← u8 l2.packet l2.l3Data
    return b.toNat / 16
  else return 0

/-- The VLAN of an Ethernet frame, which is logged. -/
def getVlan : Checked (Option UInt16) :=
  if l2.dlt = .en10Mb then do
    let etherType ← u16 l2.packet 12
    if etherType = 0x8100 then do
      let vlan ← u16 l2.packet 14
      return some vlan
    else return none
  else return none

end CL2Info

/-- Where the TCP segment of an IP packet is. -/
structure CL3Info where
  /-- The IP packet. -/
  l2 : CL2Info
  /-- The position of the TCP header. -/
  l4Data : ℕ
  /-- The length of the segment by the IP header. -/
  l4Len : ℕ
  /-- The lengths in the IP headers have 16 bits. -/
  l4Len_lt : l4Len < 2 ^ 16
  /-- The source address. -/
  src : CIpAddress
  /-- The destination address. -/
  dst : CIpAddress
  /-- The protocol of the payload, `6` for TCP. -/
  payloadProtocol : UInt8

/-- The payload protocol as the constructor of `CL3Info` reads it; it reads the identification of an
IPv4 packet, too. -/
def CL2Info.payloadProtocol (l2 : CL2Info) : Checked UInt8 := do
  let version ← l2.getIpVersion
  if version = 4 then do
    let protocol ← u8 l2.packet (l2.l3Data + 9)
    let _ ← u16 l2.packet (l2.l3Data + 4)
    return protocol
  else if version = 6 then u8 l2.packet (l2.l3Data + 6)
  else return 0

/-- A TCP segment as `processL4Tcp` hands it to `processL5`: the payload is the range of `l5Len` bytes
from `l5Data` on. -/
structure TcpView where
  /-- The IP packet with its addresses. -/
  l3 : CL3Info
  /-- The position of the payload, which may be behind the captured bytes. -/
  l5Data : ℕ
  /-- The length of the payload. -/
  l5Len : ℕ
  /-- It is at most the length of the segment. -/
  l5Len_lt : l5Len < 2 ^ 16
  /-- The version in the IP header. -/
  ipVersion : ℕ
  /-- The source port. -/
  srcPort : UInt16
  /-- The destination port. -/
  dstPort : UInt16
  /-- The sequence number. -/
  seqNum : TcpSeq
  /-- The acknowledgement number. -/
  ackNum : TcpSeq
  /-- The byte `th_flags`. -/
  thFlags : UInt8

/-! ## TCP -/

/-- The header length is not compared with 20, and no length is compared with the captured bytes. -/
def processL4Tcp (l3 : CL3Info) : Checked TcpView :=
  if l3.l4Len < 20 then drop
  else do
    let thOff ← u8 l3.l2.packet (l3.l4Data + 12)
    let tcpHeaderLen := thOff.toNat / 16 * 4
    let srcPort ← u16 l3.l2.packet l3.l4Data
    let dstPort ← u16 l3.l2.packet (l3.l4Data + 2)
    let seqNum ← u32 l3.l2.packet (l3.l4Data + 4)
    let ackNum ← u32 l3.l2.packet (l3.l4Data + 8)
    let thFlags ← u8 l3.l2.packet (l3.l4Data + 13)
    let ipVersion ← l3.l2.getIpVersion
    return {
      l3, srcPort, dstPort, seqNum, ackNum, thFlags, ipVersion
      l5Data := l3.l4Data + tcpHeaderLen
      -- `0` if the header reaches beyond the segment
      l5Len := l3.l4Len - tcpHeaderLen
      l5Len_lt := by have := l3.l4Len_lt; omega }

/-- UDP and all other protocols are not handled. -/
def processL4 (l3 : CL3Info) : Checked TcpView :=
  if l3.payloadProtocol = 6 then processL4Tcp l3 else drop

/-! ## IP -/

/-- A packet that is longer than the frame and a fragment other than the first one are dropped. -/
def processL3Ip4 (l2 : CL2Info) : Checked TcpView :=
  if l2.l3Len < 20 then drop
  else do
    let _ ← l2.getVlan
    let ipLen ← u16 l2.packet (l2.l3Data + 2)
    if l2.l3Len < ipLen.toNat then drop
    else do
      let ipOff ← u16 l2.packet (l2.l3Data + 6)
      if ipOff &&& 0x1fff ≠ 0 then drop
      else do
        let ipHl ← u8 l2.packet l2.l3Data
        let ipHeaderLen := ipHl.toNat % 16 * 4
        if ipLen.toNat < ipHeaderLen then drop
        else do
          let src ← slice l2.packet (l2.l3Data + 12) 4
          let dst ← slice l2.packet (l2.l3Data + 16) 4
          let payloadProtocol ← l2.payloadProtocol
          processL4 {
            l2, payloadProtocol
            l4Data := l2.l3Data + ipHeaderLen
            l4Len := ipLen.toNat - ipHeaderLen
            l4Len_lt := by have := ipLen.toNat_lt; omega
            src := ⟨src.1 ++ List.replicate 12 0, by simp [src.2]⟩
            dst := ⟨dst.1 ++ List.replicate 12 0, by simp [dst.2]⟩ }

/-- The payload length of the IPv6 header is taken as it is. -/
def processL3Ip6 (l2 : CL2Info) : Checked TcpView :=
  if l2.l3Len < 40 then drop
  else do
    let ipPayloadLen ← u16 l2.packet (l2.l3Data + 4)
    let src ← slice l2.packet (l2.l3Data + 8) 16
    let dst ← slice l2.packet (l2.l3Data + 24) 16
    let payloadProtocol ← l2.payloadProtocol
    processL4 {
      l2, payloadProtocol
      l4Data := l2.l3Data + 40
      l4Len := ipPayloadLen.toNat
      l4Len_lt := ipPayloadLen.toNat_lt
      src := ⟨src.1, src.2⟩
      dst := ⟨dst.1, dst.2⟩ }

/-- Packets of other IP versions are dropped. -/
def processL3 (l2 : CL2Info) : Checked TcpView := do
  let version ← l2.getIpVersion
  if version = 4 then processL3Ip4 l2
  else if version = 6 then processL3Ip6 l2
  else drop

/-! ## Link layers -/

/-- The EtherType is read before the length is checked. `caplen` is a 32-bit number. -/
def processL2En10Mb (f : Frame) : Checked CL2Info :=
  if f.len ≠ f.packet.length then drop
  else do
    let etherType ← u16 f.packet 12
    let vlan := etherType = 0x8100
    let etherData := if vlan then 18 else 14
    let caplen := if vlan then (f.packet.length + 2 ^ 32 - 4) % 2 ^ 32 else f.packet.length
    if caplen < 14 then drop
    else do
      let _ ← u16 f.packet (if vlan then 16 else 12)
      return { packet := f.packet, dlt := .en10Mb, l3Data := etherData, l3Len := caplen - 14 }

/-- The loop over an MPLS stack: the size of the stack and the captured length without it. The first
argument is the number of rounds that it is given. -/
def unwindMpls (packet : Bytes) : ℕ → ℕ → ℕ → Checked (ℕ × ℕ)
  | 0, _, _ => diverge
  | rounds + 1, mplsSz, caplen =>
    if caplen < 16 + mplsSz + 4 then drop
    else do
      let label ← u8 packet (16 + (mplsSz + 4) - 2)
      -- the lowest bit marks the bottom of the stack
      if label.toNat % 2 = 0 then unwindMpls packet rounds (mplsSz + 4) (caplen - 4)
      else return (mplsSz + 4, caplen - 4)

/-- MPLS labels between the header of the frame and the IP packet are skipped. -/
def processL2LinuxSll (f : Frame) : Checked CL2Info :=
  if f.len ≠ f.packet.length then drop
  else if f.packet.length < 16 then drop
  else do
    let protocol ← u16 f.packet 14
    let stack ← if protocol = 0x8847 then unwindMpls f.packet f.packet.length 0 f.packet.length
      else pure (0, f.packet.length)
    return { packet := f.packet, dlt := .linuxSll, l3Data := 16 + stack.1, l3Len := stack.2 - 16 }

/-- A frame that has not been captured as a whole is only logged here. -/
def processL2Raw (f : Frame) : Checked CL2Info :=
  return { packet := f.packet, dlt := .raw, l3Data := 0, l3Len := f.packet.length }

/-- The family, four bytes in the order of the machine, is read before anything is checked. -/
def processL2Null (f : Frame) : Checked CL2Info := do
  let family ← slice f.packet 0 4
  if f.len ≠ f.packet.length then drop
  else if f.packet.length < 4 then drop
  else
    let family := beNat family.1.reverse
    if family ≠ 2 ∧ family ≠ 10 then drop
    else return { packet := f.packet, dlt := .null, l3Data := 4, l3Len := f.packet.length - 4 }

/-- The protocol of a PPP frame is not looked at. -/
def processL2Ppp (f : Frame) : Checked CL2Info :=
  if f.len ≠ f.packet.length then drop
  else if f.packet.length < 4 then drop
  else return { packet := f.packet, dlt := .ppp, l3Data := 4, l3Len := f.packet.length - 4 }

/-- The link layer of a frame. -/
def linkLayer : Dlt → Frame → Checked CL2Info
  | .en10Mb => processL2En10Mb
  | .linuxSll => processL2LinuxSll
  | .raw => processL2Raw
  | .null => processL2Null
  | .ppp => processL2Ppp

/-- The handler that the link type selects, and the layers above it. -/
def processL2 (dlt : Dlt) (f : Frame) : Checked TcpView := do
  let l2 ← linkLayer dlt f
  processL3 l2

/-! ## The packet that is handed on -/

/-- The packet that `processL5` sees. -/
def TcpView.l4Info (v : TcpView) (tvSec : ℤ) : CL4Info where
  tvSec := tvSec
  ipVersion := v.ipVersion
  srcIp := v.l3.src
  dstIp := v.l3.dst
  srcPort := v.srcPort
  dstPort := v.dstPort
  seqNum := v.seqNum
  ackNum := v.ackNum
  thFlags := v.thFlags
  l5Data := (v.l3.l2.packet.drop v.l5Data).take v.l5Len
  length_lt := by
    have := v.l5Len_lt
    rw [List.length_take]
    omega

/-- The payload is a range of the captured bytes of the frame. -/
def PayloadInside (f : Frame) (v : TcpView) : Prop :=
  v.l3.l2.packet = f.packet ∧ (v.l5Len = 0 ∨ v.l5Data + v.l5Len ≤ f.packet.length)

/-- The label `n` is at the bottom of the MPLS stack of a Linux cooked frame: it is the first one that has
the lowest bit of its third byte set. -/
structure MplsBottom (packet : Bytes) (n : ℕ) : Prop where
  /-- The labels before it have the bit cleared. -/
  above : ∀ i < n, beAt packet (16 + 4 * i + 2) 1 % 2 = 0
  /-- It has the bit set itself. -/
  bottom : beAt packet (16 + 4 * n + 2) 1 % 2 = 1

/-- The frame is not dropped by the handler of its link type, and its IP packet begins at `start`. -/
def IpAt (f : Frame) (start : ℕ) : Dlt → Prop
  | .en10Mb => f.len = f.packet.length ∧ start ≤ f.packet.length ∧
      start = if beAt f.packet 12 2 = 0x8100 then 18 else 14
  | .linuxSll => f.len = f.packet.length ∧ 16 ≤ f.packet.length ∧
      if beAt f.packet 14 2 = 0x8847 then
        -- the loop counts the labels above the bottom twice when it checks the length
        ∃ n, MplsBottom f.packet n ∧ start = 16 + 4 * (n + 1) ∧ start + 4 * n ≤ f.packet.length
      else start = 16
  | .raw => start = 0
  -- the families of IPv4 and IPv6
  | .null => f.len = f.packet.length ∧ 4 ≤ f.packet.length ∧ start = 4 ∧
      (beNat (f.packet.take 4).reverse = 2 ∨ beNat (f.packet.take 4).reverse = 10)
  | .ppp => f.len = f.packet.length ∧ 4 ≤ f.packet.length ∧ start = 4

/-- An IPv6 packet with a TCP segment, if it is long enough for the IP header and its payload length for
a TCP header: the fields of the TCP header that are read have been captured, and so has the payload. -/
def Ip6TcpCaptured (packet : Bytes) (start : ℕ) : Prop :=
  start + 40 ≤ packet.length → beAt packet start 1 / 16 = 6 → beAt packet (start + 6) 1 = 6 →
  20 ≤ beAt packet (start + 4) 2 →
    start + 54 ≤ packet.length ∧
    (beAt packet (start + 4) 2 ≤ beAt packet (start + 52) 1 / 16 * 4 ∨
      start + 40 + beAt packet (start + 4) 2 ≤ packet.length)

/-- The header of the link type has been captured where it is read before the length is checked. -/
def HeaderCaptured (f : Frame) : Dlt → Prop
  | .en10Mb => f.len = f.packet.length → 14 ≤ f.packet.length
  | .null => 4 ≤ f.packet.length
  | _ => True

/-- The frames that are taken apart within their bounds: an Ethernet frame that has been captured as a
whole has an Ethernet header, a frame of the null link type has its header, and `Ip6TcpCaptured`
holds for the IP packet. -/
def FrameOk (dlt : Dlt) (f : Frame) : Prop :=
  HeaderCaptured f dlt ∧ ∀ start, IpAt f start dlt → Ip6TcpCaptured f.packet start

end Killerfinder
