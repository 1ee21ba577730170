import DeepSecurity.Killerfinder.PacketHandler

/-!
# Proofs: frames are taken apart within their bounds

The weakest precondition of each handler, from the TCP header down to the link layer. The link layers
hand on the bytes from the beginning of the IP packet to the end of the captured bytes (`ipPacket`); the
IPv4 handler stays inside this range whatever the packet says, the IPv6 handler only if the packet says
the truth.
-/

namespace Killerfinder

open Checked

/-- The IP packet reaches to the end of the captured bytes, and in an Ethernet frame it comes after the
Ethernet header. -/
structure Region (packet : Bytes) (l2 : CL2Info) : Prop where
  packet_eq : l2.packet = packet
  end_eq : l2.l3Data + l2.l3Len = packet.length
  ether_le : l2.dlt = .en10Mb → 14 ≤ l2.l3Data

variable {f : Frame} {l2 : CL2Info} {l3 : CL3Info}

/-! ## IP and TCP -/

theorem wp_getIpVersion {Q : ℕ → Prop} (hr : Region f.packet l2) : wp l2.getIpVersion Q ↔
    Q (if 20 ≤ l2.l3Len then beAt l2.packet l2.l3Data 1 / 16 else 0) := by
  have hend := hr.end_eq
  have hpacket := congrArg List.length hr.packet_eq
  unfold CL2Info.getIpVersion
  split_ifs with h
  · simp only [wp_bind, wp_u8, wp_pure, toNat_beAt_one]
    refine and_iff_right ?_
    omega
  · exact wp_pure _ _

/-- `processL4Tcp` stays within the bounds if the fields it reads are there and so is the payload. -/
theorem wp_processL4Tcp (hr : Region f.packet l3.l2) :
    wp (processL4Tcp l3) (PayloadInside f) ↔
      (20 ≤ l3.l4Len → l3.l4Data + 14 ≤ f.packet.length ∧
        (l3.l4Len ≤ beAt f.packet (l3.l4Data + 12) 1 / 16 * 4 ∨
          l3.l4Data + l3.l4Len ≤ f.packet.length)) := by
  unfold processL4Tcp
  rw [wp_ite]
  simp only [wp_drop, implies_true, true_and, wp_bind, wp_u8, wp_u16, wp_u32, wp_pure,
    wp_getIpVersion hr, toNat_beAt_one, hr.packet_eq, PayloadInside, not_lt]
  refine imp_congr_right fun _ => ?_
  constructor
  · rintro ⟨-, -, -, -, -, h14, hin⟩
    exact ⟨h14, by omega⟩
  · rintro ⟨h14, hin⟩
    exact ⟨by omega, by omega, by omega, by omega, by omega, h14, by omega⟩

theorem wp_payloadProtocol {Q : UInt8 → Prop} (hr : Region f.packet l2) (h20 : 20 ≤ l2.l3Len) :
    wp l2.payloadProtocol Q ↔
      Q (if beAt l2.packet l2.l3Data 1 / 16 = 4 then UInt8.ofNat (beAt l2.packet (l2.l3Data + 9) 1)
        else if beAt l2.packet l2.l3Data 1 / 16 = 6 then
          UInt8.ofNat (beAt l2.packet (l2.l3Data + 6) 1)
        else 0) := by
  have hend := hr.end_eq
  have hpacket := congrArg List.length hr.packet_eq
  unfold CL2Info.payloadProtocol
  rw [wp_bind, wp_getIpVersion hr, if_pos h20]
  split_ifs with h4 h6
  · simp only [wp_bind, wp_u8, wp_u16, wp_pure]
    constructor
    · rintro ⟨-, -, h⟩
      exact h
    · intro h
      exact ⟨by omega, by omega, h⟩
  · rw [wp_u8]
    exact and_iff_right (by omega)
  · exact wp_pure _ _

theorem wp_processL4 {Q : TcpView → Prop} :
    wp (processL4 l3) Q ↔ (l3.payloadProtocol = 6 → wp (processL4Tcp l3) Q) := by
  unfold processL4
  rw [wp_ite]
  simp

/-- The IPv4 handler checks the length of the packet against the range. -/
theorem wp_processL3Ip4 (hr : Region f.packet l2) : wp (processL3Ip4 l2) (PayloadInside f) := by
  have hend := hr.end_eq
  have hether := hr.ether_le
  have hpacket := congrArg List.length hr.packet_eq
  unfold processL3Ip4
  rw [wp_ite]
  refine ⟨fun _ => trivial, fun h20 => ?_⟩
  have hvlan : ∀ Q : Option UInt16 → Prop, (∀ v, Q v) → wp l2.getVlan Q := by
    intro Q hQ
    unfold CL2Info.getVlan
    rw [wp_ite]
    refine ⟨fun hdlt => ?_, fun _ => hQ none⟩
    have := hether hdlt
    simp only [wp_bind, wp_u16, wp_ite, wp_pure]
    exact ⟨by omega, fun _ => ⟨by omega, hQ _⟩, fun _ => hQ none⟩
  rw [wp_bind]
  refine hvlan _ fun _ => ?_
  simp only [wp_bind, wp_u8, wp_u16, wp_ite, wp_drop, implies_true, true_and, toNat_beAt_one,
    toNat_beAt_two, wp_slice]
  refine ⟨by omega, fun hlen => ⟨by omega, fun _ => ⟨by omega, fun hhl => ⟨by omega, by omega, ?_⟩⟩⟩⟩
  rw [wp_payloadProtocol hr (by omega), wp_processL4]
  intro _
  refine (wp_processL4Tcp hr).mpr ?_
  simp only
  intro _
  exact ⟨by omega, Or.inr (by omega)⟩

/-- The IPv6 handler does not, so the TCP header and the payload may lie outside. -/
theorem wp_processL3Ip6 (hr : Region f.packet l2)
    (hversion : beAt l2.packet l2.l3Data 1 / 16 = 6) :
    wp (processL3Ip6 l2) (PayloadInside f) ↔ Ip6TcpCaptured l2.packet l2.l3Data := by
  have hend := hr.end_eq
  have hpacket := congrArg List.length hr.packet_eq
  unfold processL3Ip6 Ip6TcpCaptured
  rw [wp_ite]
  simp only [wp_drop, implies_true, true_and, not_lt, hversion, forall_const]
  refine imp_congr_ctx (by omega) fun h40 => ?_
  simp only [wp_bind, wp_u16, wp_slice]
  rw [and_iff_right (by omega), exists_prop_of_true (by omega), exists_prop_of_true (by omega),
    wp_payloadProtocol hr (by omega), wp_processL4]
  have hproto : UInt8.ofNat (beAt l2.packet (l2.l3Data + 6) 1) = 6 ↔
      beAt l2.packet (l2.l3Data + 6) 1 = 6 := by
    rw [← UInt8.toNat_inj, toNat_beAt_one]
    rfl
  simp only [hversion, hproto, if_true, show ¬ (6 = 4) by decide, if_false]
  refine imp_congr_right fun _ => ?_
  rw [wp_processL4Tcp hr]
  simp only [toNat_beAt_two, hr.packet_eq, Nat.add_assoc, Nat.reduceAdd]

theorem wp_processL3 (hr : Region f.packet l2) :
    wp (processL3 l2) (PayloadInside f) ↔ Ip6TcpCaptured l2.packet l2.l3Data := by
  have hend := hr.end_eq
  have hpacket := congrArg List.length hr.packet_eq
  unfold processL3
  rw [wp_bind, wp_getIpVersion hr]
  by_cases h20 : 20 ≤ l2.l3Len
  · simp only [h20, if_true]
    by_cases h4 : beAt l2.packet l2.l3Data 1 / 16 = 4
    · simp only [h4, if_true]
      refine iff_of_true (wp_processL3Ip4 hr) fun _ h6 => ?_
      omega
    · simp only [h4, if_false]
      by_cases h6 : beAt l2.packet l2.l3Data 1 / 16 = 6
      · simp only [h6, if_true]
        exact wp_processL3Ip6 hr h6
      · simp only [h6, if_false]
        exact iff_of_true trivial fun _ h => absurd h h6
  · simp only [h20, if_false]
    refine iff_of_true ?_ fun h40 => ?_
    · simp
    · omega

/-! ## Link layers -/

/-- The range that a link layer hands on. -/
def ipPacket (dlt : Dlt) (f : Frame) (start : ℕ) : CL2Info where
  packet := f.packet
  dlt := dlt
  l3Data := start
  l3Len := f.packet.length - start

theorem IpAt.region {dlt : Dlt} {start : ℕ} (h : IpAt f start dlt) :
    Region f.packet (ipPacket dlt f start) := by
  have hstart : start ≤ f.packet.length ∧ (dlt = .en10Mb → 14 ≤ start) := by
    cases dlt with
    | en10Mb =>
      obtain ⟨-, hle, rfl⟩ := h
      exact ⟨hle, fun _ => by split_ifs <;> omega⟩
    | linuxSll =>
      obtain ⟨-, h16, hstart⟩ := h
      refine ⟨?_, nofun⟩
      split_ifs at hstart
      · obtain ⟨n, -, -, hle⟩ := hstart
        omega
      · omega
    | raw => exact ⟨h ▸ Nat.zero_le _, nofun⟩
    | null =>
      obtain ⟨-, h4, rfl, -⟩ := h
      exact ⟨h4, nofun⟩
    | ppp =>
      obtain ⟨-, h4, rfl⟩ := h
      exact ⟨h4, nofun⟩
  exact ⟨rfl, Nat.add_sub_cancel' hstart.1, hstart.2⟩

theorem ofNat_beAt_two_eq {packet : Bytes} {pos : ℕ} {n : UInt16} :
    UInt16.ofNat (beAt packet pos 2) = n ↔ beAt packet pos 2 = n.toNat := by
  rw [← UInt16.toNat_inj, toNat_beAt_two]

/-- The label read in a round lies in front of the bound that has just been checked, and the rounds cannot
run out, as each one takes four of the captured bytes. -/
theorem wp_unwindMpls (packet : Bytes) (rounds : ℕ) {k : ℕ} {Q : ℕ × ℕ → Prop}
    (hk : 16 + 4 * k ≤ packet.length) (hrounds : packet.length < 4 * rounds + 4 * k + 16) :
    wp (unwindMpls packet rounds (4 * k) (packet.length - 4 * k)) Q ↔
      ∀ n, (∀ i, k ≤ i → i < n → beAt packet (16 + 4 * i + 2) 1 % 2 = 0) → k ≤ n →
        beAt packet (16 + 4 * n + 2) 1 % 2 = 1 → 20 + 8 * n ≤ packet.length →
          Q (4 * (n + 1), packet.length - 4 * (n + 1)) := by
  induction rounds generalizing k with
  | zero => omega
  | succ rounds ih =>
    have hlabel : 16 + (4 * k + 4) - 2 = 16 + 4 * k + 2 := by omega
    have hrest : packet.length - 4 * k - 4 = packet.length - 4 * (k + 1) := by omega
    rw [unwindMpls, wp_ite]
    simp only [wp_drop, implies_true, true_and, wp_bind, wp_u8, wp_ite, wp_pure, toNat_beAt_one, hlabel,
      hrest]
    constructor
    · intro h n habove hkn hbottom hlen
      obtain ⟨-, hnext, hlast⟩ := h (by omega)
      rcases Nat.eq_or_lt_of_le hkn with rfl | hlt
      · exact hlast (by omega)
      · have hnext := hnext (habove k le_rfl hlt)
        exact (ih (by omega) (by omega)).mp hnext n (fun i hi => habove i (by omega)) hlt hbottom hlen
    · intro h hlen
      refine ⟨by omega, fun heven => (ih (k := k + 1) (by omega) (by omega)).mpr ?_, fun hodd => ?_⟩
      · intro n habove hkn hbottom hlen
        refine h n (fun i hi hin => ?_) (by omega) hbottom hlen
        rcases Nat.eq_or_lt_of_le hi with rfl | hlt
        · exact heven
        · exact habove i hlt hin
      · exact h k (fun i hi hik => by omega) le_rfl (by omega) (by omega)

section

variable {Q : CL2Info → Prop}

theorem wp_processL2En10Mb : wp (processL2En10Mb f) Q ↔
    HeaderCaptured f .en10Mb ∧ ∀ start, IpAt f start .en10Mb → Q (ipPacket .en10Mb f start) := by
  have hlt := f.caplen_lt
  unfold processL2En10Mb HeaderCaptured IpAt
  rw [wp_ite]
  by_cases hlen : f.len = f.packet.length
  swap
  · simp [hlen]
  simp only [hlen, ne_eq, not_true_eq_false, false_implies, not_false_eq_true, true_implies, true_and,
    wp_bind, wp_u16]
  refine and_congr_right fun h14 => ?_
  have htype : UInt16.ofNat (beAt f.packet 12 2) = 0x8100 ↔ beAt f.packet 12 2 = 0x8100 :=
    ofNat_beAt_two_eq
  simp only [htype]
  by_cases hvlan : beAt f.packet 12 2 = 0x8100
  · have hcaplen : (f.packet.length + 2 ^ 32 - 4) % 2 ^ 32 = f.packet.length - 4 := by omega
    have hl3Len : f.packet.length - 4 - 14 = f.packet.length - 18 := by omega
    simp only [hvlan, if_true, hcaplen, hl3Len, wp_ite, wp_drop, implies_true, true_and, wp_bind,
      wp_u16, wp_pure, ipPacket]
    constructor
    · rintro h start ⟨hle, rfl⟩
      exact (h (by omega)).2
    · exact fun h hcap => ⟨by omega, h 18 ⟨by omega, rfl⟩⟩
  · simp only [hvlan, if_false, wp_ite, wp_drop, implies_true, true_and, wp_bind, wp_u16, wp_pure,
      ipPacket]
    constructor
    · rintro h start ⟨hle, rfl⟩
      exact (h (by omega)).2
    · exact fun h hcap => ⟨h14, h 14 ⟨h14, rfl⟩⟩

theorem wp_processL2LinuxSll : wp (processL2LinuxSll f) Q ↔
    ∀ start, IpAt f start .linuxSll → Q (ipPacket .linuxSll f start) := by
  unfold processL2LinuxSll IpAt
  rw [wp_ite, wp_ite]
  by_cases hlen : f.len = f.packet.length
  swap
  · simp [hlen]
  by_cases h16 : f.packet.length < 16
  · have hnot : ¬ 16 ≤ f.packet.length := by omega
    simp [h16, hnot]
  have hle := not_lt.mp h16
  have hprotocol : UInt16.ofNat (beAt f.packet 14 2) = 0x8847 ↔ beAt f.packet 14 2 = 0x8847 :=
    ofNat_beAt_two_eq
  simp only [hlen, h16, hle, ne_eq, not_true_eq_false, false_implies, not_false_eq_true, true_implies,
    true_and, wp_bind, wp_u16, Nat.reduceAdd, hprotocol]
  by_cases hmpls : beAt f.packet 14 2 = 0x8847
  · have hstack := wp_unwindMpls f.packet f.packet.length (k := 0)
      (Q := fun stack => Q ⟨f.packet, .linuxSll, 16 + stack.1, stack.2 - 16⟩) (by omega) (by omega)
    simp only [hmpls, if_true, wp_bind]
    refine hstack.trans ⟨?_, ?_⟩
    · rintro h start ⟨n, hn, rfl, hlength⟩
      have hq := h n (fun i _ => hn.above i) (Nat.zero_le n) hn.bottom (by omega)
      rwa [Nat.sub_sub, Nat.add_comm _ 16] at hq
    · intro h n habove _ hbottom hlength
      have hq := h _ ⟨n, ⟨fun i => habove i (Nat.zero_le i), hbottom⟩, rfl, by omega⟩
      rwa [ipPacket, Nat.add_comm 16, ← Nat.sub_sub, Nat.add_comm _ 16] at hq
  · simp only [hmpls, if_false, forall_eq]
    rfl

theorem wp_processL2Null : wp (processL2Null f) Q ↔
    HeaderCaptured f .null ∧ ∀ start, IpAt f start .null → Q (ipPacket .null f start) := by
  unfold processL2Null HeaderCaptured IpAt
  simp only [wp_bind, wp_slice, wp_ite, wp_drop, implies_true, true_and, wp_pure, List.drop_zero,
    Nat.zero_add]
  constructor
  · rintro ⟨h4, h⟩
    refine ⟨h4, ?_⟩
    rintro start ⟨hlen, -, rfl, hfamily⟩
    exact h (not_not.mpr hlen) (by omega) (by omega)
  · rintro ⟨h4, h⟩
    exact ⟨h4, fun hlen _ hfamily => h 4 ⟨not_not.mp hlen, h4, rfl, by omega⟩⟩

theorem wp_processL2Ppp : wp (processL2Ppp f) Q ↔
    ∀ start, IpAt f start .ppp → Q (ipPacket .ppp f start) := by
  unfold processL2Ppp IpAt
  simp only [wp_ite, wp_drop, implies_true, true_and, wp_pure]
  constructor
  · rintro h start ⟨hlen, h4, rfl⟩
    exact h (not_not.mpr hlen) (by omega)
  · exact fun h hlen h4 => h 4 ⟨not_not.mp hlen, by omega, rfl⟩

theorem wp_linkLayer (dlt : Dlt) : wp (linkLayer dlt f) Q ↔
    HeaderCaptured f dlt ∧ ∀ start, IpAt f start dlt → Q (ipPacket dlt f start) := by
  cases dlt with
  | en10Mb => exact wp_processL2En10Mb
  | linuxSll => exact wp_processL2LinuxSll.trans (true_and _).symm.to_iff
  | raw => simp only [linkLayer, processL2Raw, wp_pure, HeaderCaptured, IpAt, true_and, forall_eq]; rfl
  | null => exact wp_processL2Null
  | ppp => exact wp_processL2Ppp.trans (true_and _).symm.to_iff

end

/-! ## The whole way -/

/-- The frames that are taken apart within their bounds. -/
theorem payloadInside_iff_frameOk (dlt : Dlt) (f : Frame) :
    wp (processL2 dlt f) (PayloadInside f) ↔ FrameOk dlt f := by
  rw [processL2, wp_bind, wp_linkLayer]
  exact and_congr_right fun _ => forall₂_congr fun start hstart => wp_processL3 hstart.region

/-- An IPv6 packet of 54 bytes whose header announces a payload of 100 bytes: a TCP header of 20 bytes
and 80 bytes that have not been captured. -/
def truncatedIp6 : Frame where
  tvSec := 0
  len := 54
  packet := [0x60, 0, 0, 0, 0, 100, 6, 64] ++ List.replicate 32 0 ++
    (List.replicate 12 0 ++ [0x50, 0x10])
  caplen_lt := by decide

theorem not_payloadInside_truncatedIp6 :
    ∃ v, processL2 .raw truncatedIp6 = .ok v ∧ v.l5Data = 60 ∧ v.l5Len = 80 ∧
      ¬ PayloadInside truncatedIp6 v :=
  ⟨_, rfl, rfl, rfl, fun h => absurd h.2 (by decide)⟩

end Killerfinder
