import DeepSecurity.Killerfinder.PacketHandler
import DeepSecurity.Lib.HashTable

/-!
# The session of a packet

The hash of `CTcpSessionId`, under which the sessions are kept in an `unordered_map`, and the
connection that a packet belongs to, by the fields of its headers.
-/

namespace Killerfinder

open Checked

/-! ## The hash -/

/-- The sum of every fourth byte of an address, from byte `i` on. -/
def CIpAddress.column (a : CIpAddress) (i : ℕ) : ℕ :=
  (a.mAddr.getD i 0).toNat + (a.mAddr.getD (i + 4) 0).toNat + (a.mAddr.getD (i + 8) 0).toNat +
    (a.mAddr.getD (i + 12) 0).toNat

/-- `w` is the number of bits of `size_t`. -/
def CIpAddress.getFoldValue (w : ℕ) (a : CIpAddress) : BitVec w :=
  if w = 32 then
    BitVec.ofNat w (a.column 0) ||| BitVec.ofNat w (a.column 1) <<< 8 |||
      BitVec.ofNat w (a.column 2) <<< 16 ||| BitVec.ofNat w (a.column 3) <<< 24
  else BitVec.ofNat w (a.column 0 + a.column 1 + a.column 2 + a.column 3)

/-- The hash of the map. Exchanging source and destination does not change it. -/
def CTcpSessionId.getHash (w : ℕ) (id : CTcpSessionId) : BitVec w :=
  (id.mSrcIp.getFoldValue w + id.mDstIp.getFoldValue w) ^^^
    BitVec.ofNat w (id.mSrcPort.toNat + id.mDstPort.toNat)

/-! ## Connections -/

/-- One end of a connection. -/
@[ext]
structure Endpoint where
  /-- Four bytes or 16, by the version. -/
  address : Bytes
  /-- The TCP port. -/
  port : UInt16
deriving DecidableEq

namespace CL2Info

variable (l2 : CL2Info)

/-- The version in the IP header. -/
def version : ℕ := beAt l2.packet l2.l3Data 1 / 16

/-- Where the TCP header begins. -/
def tcpHeader : ℕ :=
  if l2.version = 4 then l2.l3Data + beAt l2.packet l2.l3Data 1 % 16 * 4 else l2.l3Data + 40

/-- A port of the TCP header, which is `pos` bytes behind its beginning. -/
def port (pos : ℕ) : UInt16 := UInt16.ofNat (beAt l2.packet (l2.tcpHeader + pos) 2)

/-- The sender by the headers. -/
def source : Endpoint where
  address := if l2.version = 4 then (l2.packet.drop (l2.l3Data + 12)).take 4
    else (l2.packet.drop (l2.l3Data + 8)).take 16
  port := l2.port 0

/-- The receiver by the headers. -/
def destination : Endpoint where
  address := if l2.version = 4 then (l2.packet.drop (l2.l3Data + 16)).take 4
    else (l2.packet.drop (l2.l3Data + 24)).take 16
  port := l2.port 2

end CL2Info

/-- The IP packets belong to the same connection, in the same direction or in opposite ones. -/
def SameConnection (l2 l2' : CL2Info) : Prop :=
  l2.version = l2'.version ∧
    (l2.source = l2'.source ∧ l2.destination = l2'.destination ∨
      l2.source = l2'.destination ∧ l2.destination = l2'.source)

/-- An end of a connection as it is stored: the address has 16 bytes. -/
def Endpoint.stored (e : Endpoint) : Endpoint :=
  { e with address := e.address ++ List.replicate (16 - e.address.length) 0 }

/-- The IP packets have the same ends as they are stored. -/
def SameStored (l2 l2' : CL2Info) : Prop :=
  l2.source.stored = l2'.source.stored ∧ l2.destination.stored = l2'.destination.stored ∨
    l2.source.stored = l2'.destination.stored ∧ l2.destination.stored = l2'.source.stored

/-- The packets `p` and `p'` that `l2` and `l2'` hold are attributed to the same session exactly
if they belong to the same connection, and the map finds the session of a connection for the packets
of both directions. -/
structure Attributed (w : ℕ) (l2 l2' : CL2Info) (p p' : CL4Info) : Prop where
  /-- The ids are equal exactly for packets of one connection. -/
  same : p.sessionId.operatorEq p'.sessionId = true ↔ SameConnection l2 l2'
  /-- Equality of ids is an equivalence. -/
  equivalence : Equivalence fun a b : CTcpSessionId => a.operatorEq b = true
  /-- Equal ids have equal hashes. -/
  hash : ∀ a b : CTcpSessionId, a.operatorEq b = true → a.getHash w = b.getHash w
  /-- A table with this hash has an entry for an id exactly if there is one under an equal id, and
  it is the same entry for equal ids. -/
  found : ∀ (ν : Type) (t : HashTable CTcpSessionId ν fun id => (id.getHash w).toNat)
    (a b : CTcpSessionId), a.operatorEq b = true →
      t.find CTcpSessionId.operatorEq a = t.find CTcpSessionId.operatorEq b ∧
      ((t.find CTcpSessionId.operatorEq a).isSome ↔
        ∃ i, ∃ e ∈ t.bucket i, e.1.operatorEq a = true)

end Killerfinder
