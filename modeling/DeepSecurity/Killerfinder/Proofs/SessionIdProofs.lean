import DeepSecurity.Killerfinder.SessionId

/-!
# Proofs: packets of one connection have one session

What `processL3` makes of the headers of a packet is its two ends as they are stored. For packets of
one IP version that is the ends themselves.
-/

namespace Killerfinder

open Checked

variable {l2 l2' : CL2Info} {v v' : TcpView}

/-! ## Equality and hash -/

namespace CTcpSessionId

variable {a b c : CTcpSessionId}

theorem operatorEq_iff : a.operatorEq b = true ↔
    (a.mSrcIp = b.mSrcIp ∧ a.mSrcPort = b.mSrcPort ∧ a.mDstIp = b.mDstIp ∧ a.mDstPort = b.mDstPort) ∨
    (a.mSrcIp = b.mDstIp ∧ a.mSrcPort = b.mDstPort ∧ a.mDstIp = b.mSrcIp ∧
      a.mDstPort = b.mSrcPort) := by
  simp [operatorEq, and_assoc]

theorem operatorEq_equivalence : Equivalence fun a b : CTcpSessionId => a.operatorEq b = true where
  refl a := operatorEq_iff.mpr (Or.inl ⟨rfl, rfl, rfl, rfl⟩)
  symm {a b} h := by
    rw [operatorEq_iff] at h ⊢
    rcases h with ⟨h1, h2, h3, h4⟩ | ⟨h1, h2, h3, h4⟩
    · exact Or.inl ⟨h1.symm, h2.symm, h3.symm, h4.symm⟩
    · exact Or.inr ⟨h3.symm, h4.symm, h1.symm, h2.symm⟩
  trans {a b c} hab hbc := by
    rw [operatorEq_iff] at hab hbc ⊢
    rcases hab with ⟨h1, h2, h3, h4⟩ | ⟨h1, h2, h3, h4⟩
    · rwa [h1, h2, h3, h4]
    · rw [h1, h2, h3, h4]
      rcases hbc with ⟨g1, g2, g3, g4⟩ | ⟨g1, g2, g3, g4⟩
      · exact Or.inr ⟨g3, g4, g1, g2⟩
      · exact Or.inl ⟨g3, g4, g1, g2⟩

/-- The hash does not depend on the order of the ends. -/
theorem getHash_of_operatorEq (w : ℕ) (h : a.operatorEq b = true) : a.getHash w = b.getHash w := by
  rcases operatorEq_iff.mp h with ⟨h1, h2, h3, h4⟩ | ⟨h1, h2, h3, h4⟩
  · rw [getHash, getHash, h1, h2, h3, h4]
  · rw [getHash, getHash, h1, h2, h3, h4, BitVec.add_comm, Nat.add_comm]

end CTcpSessionId

/-! ## Headers -/

/-- The view has the ends of the packet as they are stored, and the packet has whole addresses. -/
structure HasEnds (v : TcpView) (l2 : CL2Info) : Prop where
  src : v.l3.src.mAddr = l2.source.stored.address
  srcPort : v.srcPort = l2.source.port
  dst : v.l3.dst.mAddr = l2.destination.stored.address
  dstPort : v.dstPort = l2.destination.port
  srcLength : l2.source.address.length = if l2.version = 4 then 4 else 16
  dstLength : l2.destination.address.length = if l2.version = 4 then 4 else 16

theorem processL4_ok {l3 : CL3Info} (h : processL4 l3 = .ok v) :
    v.l3 = l3 ∧ v.srcPort = UInt16.ofNat (beAt l3.l2.packet l3.l4Data 2) ∧
      v.dstPort = UInt16.ofNat (beAt l3.l2.packet (l3.l4Data + 2) 2) := by
  unfold processL4 at h
  split_ifs at h
  · unfold processL4Tcp at h
    split_ifs at h
    · cases h
    · simp only [bind_eq_ok] at h
      obtain ⟨_, _, srcPort, hsrc, dstPort, hdst, _, _, _, _, _, _, _, _, hv⟩ := h
      rw [← Except.ok.inj hv]
      exact ⟨rfl, u16_eq_ok hsrc, u16_eq_ok hdst⟩
  · cases h

theorem getIpVersion_ok {version : ℕ} (h : l2.getIpVersion = .ok version) (hne : version ≠ 0) :
    version = l2.version := by
  unfold CL2Info.getIpVersion at h
  split_ifs at h
  · obtain ⟨b, hb, hv⟩ := bind_eq_ok.mp h
    rw [← Except.ok.inj hv, u8_eq_ok hb, toNat_beAt_one]
    rfl
  · exact absurd (Except.ok.inj h).symm hne

theorem processL3Ip4_ok (hversion : l2.version = 4) (h : processL3Ip4 l2 = .ok v) :
    HasEnds v l2 := by
  unfold processL3Ip4 at h
  split_ifs at h
  · cases h
  simp only [bind_eq_ok] at h
  obtain ⟨_, _, ipLen, _, h⟩ := h
  split_ifs at h
  · cases h
  simp only [bind_eq_ok] at h
  obtain ⟨ipOff, _, h⟩ := h
  split_ifs at h
  · cases h
  simp only [bind_eq_ok] at h
  obtain ⟨ipHl, hipHl, h⟩ := h
  split_ifs at h
  · cases h
  simp only [bind_eq_ok] at h
  obtain ⟨src, hsrc, dst, hdst, _, _, h⟩ := h
  obtain ⟨hl3, hsrcPort, hdstPort⟩ := processL4_ok h
  have htcp : l2.l3Data + ipHl.toNat % 16 * 4 = l2.tcpHeader := by
    rw [CL2Info.tcpHeader, if_pos hversion, u8_eq_ok hipHl, toNat_beAt_one]
  rw [htcp] at hsrcPort hdstPort
  have hsource : l2.source.address = src.1 := by
    rw [CL2Info.source, if_pos hversion, slice_eq_ok hsrc]
  have hdestination : l2.destination.address = dst.1 := by
    rw [CL2Info.destination, if_pos hversion, slice_eq_ok hdst]
  constructor
  · rw [hl3, Endpoint.stored, hsource, src.2]
  · exact hsrcPort
  · rw [hl3, Endpoint.stored, hdestination, dst.2]
  · exact hdstPort
  · rw [hsource, src.2, if_pos hversion]
  · rw [hdestination, dst.2, if_pos hversion]

theorem processL3Ip6_ok (hversion : l2.version = 6) (h : processL3Ip6 l2 = .ok v) :
    HasEnds v l2 := by
  have hne : l2.version ≠ 4 := by omega
  unfold processL3Ip6 at h
  split_ifs at h
  · cases h
  simp only [bind_eq_ok] at h
  obtain ⟨_, _, src, hsrc, dst, hdst, _, _, h⟩ := h
  obtain ⟨hl3, hsrcPort, hdstPort⟩ := processL4_ok h
  have htcp : l2.l3Data + 40 = l2.tcpHeader := by rw [CL2Info.tcpHeader, if_neg hne]
  rw [htcp] at hsrcPort hdstPort
  have hsource : l2.source.address = src.1 := by
    rw [CL2Info.source, if_neg hne, slice_eq_ok hsrc]
  have hdestination : l2.destination.address = dst.1 := by
    rw [CL2Info.destination, if_neg hne, slice_eq_ok hdst]
  constructor
  · simp [hl3, Endpoint.stored, hsource, src.2]
  · exact hsrcPort
  · simp [hl3, Endpoint.stored, hdestination, dst.2]
  · exact hdstPort
  · rw [hsource, src.2, if_neg hne]
  · rw [hdestination, dst.2, if_neg hne]

theorem processL3_ok (h : processL3 l2 = .ok v) :
    HasEnds v l2 := by
  obtain ⟨version, hversion, h⟩ := bind_eq_ok.mp h
  split_ifs at h with h4 h6
  · exact processL3Ip4_ok ((getIpVersion_ok hversion (by omega)).symm.trans h4) h
  · exact processL3Ip6_ok ((getIpVersion_ok hversion (by omega)).symm.trans h6) h
  · cases h

/-! ## The session of a packet -/

/-- Packets have equal ids if they have the same ends as they are stored. -/
theorem operatorEq_sessionId_iff (hv : HasEnds v l2) (hv' : HasEnds v' l2') (t t' : ℤ) :
    (v.l4Info t).sessionId.operatorEq (v'.l4Info t').sessionId = true ↔ SameStored l2 l2' := by
  have hsource (e : Endpoint) : e.stored.port = e.port := rfl
  simp only [CTcpSessionId.operatorEq_iff, CL4Info.sessionId, TcpView.l4Info, CIpAddress.ext_iff,
    hv.src, hv.srcPort, hv.dst, hv.dstPort, hv'.src, hv'.srcPort, hv'.dst, hv'.dstPort, SameStored,
    Endpoint.ext_iff, hsource, and_assoc]

theorem stored_inj {e e' : Endpoint} (hlen : e.address.length = e'.address.length) :
    e.stored = e'.stored ↔ e = e' := by
  constructor
  · intro h
    have haddress : e.address = e'.address :=
      List.append_inj_left (congrArg Endpoint.address h) hlen
    have hport : e.stored.port = e'.stored.port := congrArg Endpoint.port h
    exact Endpoint.ext haddress hport
  · intro h
    rw [h]

/-- Between packets of one version, the ends as they are stored are the ends themselves. -/
theorem sameStored_iff_of_version_eq (hv : HasEnds v l2) (hv' : HasEnds v' l2')
    (hversion : l2.version = l2'.version) : SameStored l2 l2' ↔ SameConnection l2 l2' := by
  have hs := hv.srcLength
  have hd := hv.dstLength
  rw [hversion, ← hv'.srcLength] at hs
  rw [hversion, ← hv'.srcLength] at hd
  have hends : l2'.source.address.length = l2'.destination.address.length :=
    hv'.srcLength.trans hv'.dstLength.symm
  rw [SameStored, SameConnection, stored_inj hs, stored_inj (hd.trans hends),
    stored_inj (hs.trans hends), stored_inj hd]
  exact (and_iff_right hversion).symm

/-- Packets with the same ends as they are stored get the same session. -/
theorem Attributed.version_eq {w : ℕ} {t t' : ℤ} (hv : HasEnds v l2) (hv' : HasEnds v' l2')
    (h : Attributed w l2 l2' (v.l4Info t) (v'.l4Info t')) (hstored : SameStored l2 l2') :
    l2.version = l2'.version :=
  (h.same.mp ((operatorEq_sessionId_iff hv hv' t t').mpr hstored)).1

/-- Two packets are attributed to the same session exactly if they belong to the same connection,
unless one is an IPv4 packet and the other an IPv6 packet with the same ends as they are stored. -/
theorem attributed_iff (w : ℕ) (h : processL3 l2 = .ok v) (h' : processL3 l2' = .ok v') (t t' : ℤ) :
    Attributed w l2 l2' (v.l4Info t) (v'.l4Info t') ↔
      (l2.version ≠ l2'.version → ¬ SameStored l2 l2') := by
  have hv := processL3_ok h
  have hv' := processL3_ok h'
  have heq := operatorEq_sessionId_iff hv hv' t t'
  constructor
  · intro hattributed hversion hstored
    exact hversion (hattributed.version_eq hv hv' hstored)
  · intro hversions
    have hhash (a b : CTcpSessionId) (hab : a.operatorEq b = true) : a.getHash w = b.getHash w :=
      CTcpSessionId.getHash_of_operatorEq w hab
    have hhash' (a b : CTcpSessionId) (hab : a.operatorEq b = true) :
        (a.getHash w).toNat = (b.getHash w).toNat := by rw [hhash a b hab]
    constructor
    · rw [heq]
      by_cases hversion : l2.version = l2'.version
      · exact sameStored_iff_of_version_eq hv hv' hversion
      · constructor
        · intro hstored
          exact absurd hstored (hversions hversion)
        · intro hsame
          exact absurd hsame.1 hversion
    · exact CTcpSessionId.operatorEq_equivalence
    · exact hhash
    · intro ν table a b hab
      constructor
      · exact HashTable.find_congr CTcpSessionId.operatorEq_equivalence hhash' hab
      · exact HashTable.isSome_find_iff hhash'

/-- A TCP header without options. -/
def tcpBytes (srcPort dstPort : UInt8) : Bytes :=
  [0, srcPort, 0, dstPort] ++ List.replicate 8 0 ++ [0x50, 0x10, 0, 0, 0, 0, 0, 0]

/-- An IPv4 packet between 10.0.0.`a` and 10.0.0.`b`. -/
def ip4Packet (a b srcPort dstPort : UInt8) : CL2Info where
  packet := [0x45, 0, 0, 40, 0, 0, 0, 0, 64, 6, 0, 0, 10, 0, 0, a, 10, 0, 0, b] ++
    tcpBytes srcPort dstPort
  dlt := .raw
  l3Data := 0
  l3Len := 40

/-- An IPv6 packet between a00:`a`:: and a00:`b`::. -/
def ip6Packet (a b srcPort dstPort : UInt8) : CL2Info where
  packet := [0x60, 0, 0, 0, 0, 20, 6, 64] ++ ([10, 0, 0, a] ++ List.replicate 12 0) ++
    ([10, 0, 0, b] ++ List.replicate 12 0) ++ tcpBytes srcPort dstPort
  dlt := .raw
  l3Data := 0
  l3Len := 60

/-- A request and its reply. -/
theorem attributed_reply :
    ∃ v v', processL3 (ip4Packet 1 2 80 25) = .ok v ∧ processL3 (ip4Packet 2 1 25 80) = .ok v' ∧
      Attributed 64 (ip4Packet 1 2 80 25) (ip4Packet 2 1 25 80) (v.l4Info 0) (v'.l4Info 0) := by
  refine ⟨_, _, rfl, rfl, ?_⟩
  apply (attributed_iff 64 rfl rfl 0 0).mpr
  intro hversion
  exact absurd rfl hversion

/-- The bytes of an IPv4 address, followed by null bytes, are an IPv6 address. -/
theorem not_attributed_versions :
    ∃ v v', processL3 (ip4Packet 1 2 80 25) = .ok v ∧ processL3 (ip6Packet 1 2 80 25) = .ok v' ∧
      ¬ Attributed 64 (ip4Packet 1 2 80 25) (ip6Packet 1 2 80 25) (v.l4Info 0) (v'.l4Info 0) := by
  refine ⟨_, _, rfl, rfl, ?_⟩
  intro hattributed
  have hstored : SameStored (ip4Packet 1 2 80 25) (ip6Packet 1 2 80 25) := Or.inl ⟨rfl, rfl⟩
  have hversion := hattributed.version_eq (processL3_ok rfl) (processL3_ok rfl) hstored
  exact absurd hversion (by decide)

end Killerfinder
