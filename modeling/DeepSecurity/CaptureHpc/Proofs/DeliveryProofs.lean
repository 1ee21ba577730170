import DeepSecurity.CaptureHpc.Proofs.EventListProofs

/-!
# Proofs: every event is delivered once

As long as space is only reserved while all blocks of the events that have not been taken are marked,
reservations do not overlap (`Intact.apart`); and as long as no event is inserted into a list that has
become empty, or the tail of this list lies in none of these blocks, the list in the memory is the one
of the record (`Intact.list`).
-/

namespace CaptureHpc

open ByteMem Trace

namespace SharedEventList

variable {rtl : RtlFindClearBits} {protocol : Protocol} {isEventAllowed : Connection → Bool}
variable {s t : SharedEventList} {ev x y : LiveEvent}

theorem intact_initialise : Intact protocol isEventAllowed initialise where
  size_eq := read32_write32 (by decide)
  events := by simp [initialise]
  apart := List.Pairwise.nil
  next_zero := by simp [initialise]
  list := ⟨read32_write32_of_apart (by unfold Apart sizeOfBitMap; omega), trivial, by simp [initialise]⟩
  tail := Or.inl (read32_write32_of_apart (by unfold Apart sizeOfBitMap; omega))
  log := rfl
  reported := rfl
  running := rfl

/-- Two events with a common block are the same. -/
theorem Intact.disjoint (hinv : Intact protocol isEventAllowed s) (hx : x ∈ s.queued ++ s.building)
    (hy : y ∈ s.queued ++ s.building) (hne : x ≠ y) : List.Disjoint x.blocks y.blocks :=
  disjoint_of_pairwise hinv.apart hx hy hne

theorem Intact.eq_of_offset (hinv : Intact protocol isEventAllowed s) (hx : x ∈ s.queued ++ s.building)
    (hy : y ∈ s.queued ++ s.building) (hoffset : x.offset = y.offset) : x = y := by
  by_contra hne
  refine hinv.disjoint hx hy hne first_mem_blocks ?_
  rw [hoffset]
  exact first_mem_blocks

/-- An event that is in the list is no longer under construction. -/
theorem Intact.ne_of_queued (hinv : Intact protocol isEventAllowed s) (hx : x ∈ s.queued)
    (hy : y ∈ s.building) : x ≠ y := by
  rintro rfl
  have hd := (List.pairwise_append.mp hinv.apart).2.2 x hx x hy
  exact hd first_mem_blocks first_mem_blocks

/-- Different events do not overlap. -/
theorem Intact.offset_apart (hinv : Intact protocol isEventAllowed s) (hx : x ∈ s.queued ++ s.building)
    (hy : y ∈ s.queued ++ s.building) (hne : x ≠ y) :
    x.offset + 20 ≤ y.offset ∨ y.offset + 20 ≤ x.offset :=
  (hinv.events x hx).offset_apart (hinv.events y hy) (hinv.disjoint hx hy hne)

/-- The data of an event do not overlap with any event. -/
theorem Intact.data_apart (hinv : Intact protocol isEventAllowed s) (hx : x ∈ s.queued ++ s.building)
    (hy : y ∈ s.queued ++ s.building) {p : ℕ × Container} (hp : p ∈ x.data) :
    p.1 + (16 + p.2.data.length) ≤ y.offset ∨ y.offset + 20 ≤ p.1 := by
  by_cases hxy : x = y
  · subst hxy
    exact ((hinv.events x hx).event_apart hp).symm
  · refine ((hinv.events x hx).pieces p hp).apart (hinv.events y hy).piece fun b hb hb' => ?_
    exact hinv.disjoint hx hy hxy (mem_blocks_data hp hb) (mem_blocks_event hb')

/-! ## Reservations -/

/-- Clear bits belong to no event, as long as the bitmap has the blocks of all events. -/
theorem Marked.fresh (hmarked : s.Marked) {bs : List ℕ} (hclear : ∀ b ∈ bs, testBit s.mem b = false)
    (hx : x ∈ s.queued ++ s.building) : ∀ b ∈ x.blocks, b ∉ bs := by
  intro b hb hbs
  have hset : testBit s.mem b = true := hmarked x (by simpa [or_comm] using hx) b hb
  exact absurd ((hclear b hbs).symm.trans hset) (by decide)

/-- A step that keeps the first words of the control block and the links of the events in the list
keeps the list. -/
theorem Intact.linked_of_same (hinv : Intact protocol isEventAllowed s) {m' : Mem} (hlow : Same s.mem m' 0 12)
    (hnext : ∀ x ∈ s.queued, read32 m' x.offset = read32 s.mem x.offset) :
    Linked m' 0 4 (s.queued.map LiveEvent.offset) := by
  refine hinv.list.congr (hlow.mono le_rfl (by omega)).read32
    (hlow.mono (by omega) (by omega)).read32 fun a ha => ?_
  obtain ⟨x, hx, rfl⟩ := List.mem_map.mp ha
  exact hnext x hx

theorem Intact.tail_of_same (hinv : Intact protocol isEventAllowed s) {m' : Mem}
    (hlow : Same s.mem m' 0 12) : read32 m' 4 = 0 ∨ Piece (read32 m' 4) 20 := by
  rw [(hlow.mono (by omega) (by omega) : Same s.mem m' 4 4).read32]
  exact hinv.tail

theorem Intact.create (hinv : Intact protocol isEventAllowed s) (hmarked : s.Marked) :
    Intact protocol isEventAllowed (s.create rtl) := by
  unfold SharedEventList.create
  rcases hcreate : createEvent rtl s.mem with _ | ⟨event, m'⟩
  · exact hinv
  obtain ⟨hclear, hwithin, hlow, hnew, hnext⟩ := createEvent_spec hcreate
  have hfresh : ∀ x ∈ s.queued ++ s.building, ∀ b ∈ x.blocks, b ∉ blocksAt event 20 :=
    fun x hx => hmarked.fresh hclear hx
  have hkeep : ∀ x ∈ s.queued ++ s.building, EventAt m' x ∧ Same s.mem m' x.offset 20 :=
    fun x hx => (hinv.events x hx).within hwithin (hfresh x hx)
  have hblocks : LiveEvent.blocks ⟨event, []⟩ = blocksAt event 20 := by
    simp [LiveEvent.blocks, sizeofEvent]
  refine ⟨(hlow.mono (by omega) (by omega)).read32.trans hinv.size_eq, ?_, ?_, ?_, ?_,
    hinv.tail_of_same hlow, hinv.log, hinv.reported, hinv.running⟩
  · intro x hx
    rw [← List.append_assoc] at hx
    rcases List.mem_append.mp hx with hx | hx
    · exact (hkeep x hx).1
    · rw [List.mem_singleton.mp hx]
      exact hnew
  · rw [← List.append_assoc]
    refine List.pairwise_append.mpr ⟨hinv.apart, List.pairwise_singleton _ _, fun x hx y hy => ?_⟩
    rw [List.mem_singleton.mp hy, hblocks]
    exact fun b hb hb' => hfresh x hx b hb hb'
  · intro x hx
    rcases List.mem_append.mp hx with hx | hx
    · rw [((hkeep x (List.mem_append_right _ hx)).2.mono le_rfl (by omega)).read32]
      exact hinv.next_zero x hx
    · rw [List.mem_singleton.mp hx]
      exact hnext
  · refine hinv.linked_of_same hlow fun x hx => ?_
    exact ((hkeep x (List.mem_append_left _ hx)).2.mono le_rfl (by omega)).read32

/-- An event under construction is replaced by one at the same place, with blocks that no other event
has. -/
theorem Intact.replace (hinv : Intact protocol isEventAllowed s) {m' : Mem} {f : LiveEvent → LiveEvent}
    (hev : ev ∈ s.building) (hother : ∀ x ∈ s.queued ++ s.building, x ≠ ev → f x = x)
    (hoffset : (f ev).offset = ev.offset)
    (hblocks : ∀ x ∈ s.queued ++ s.building, x ≠ ev → List.Disjoint x.blocks (f ev).blocks)
    (hlow : Same s.mem m' 0 12) (hnew : EventAt m' (f ev))
    (hnext : read32 m' ev.offset = read32 s.mem ev.offset)
    (hkeep : ∀ x ∈ s.queued ++ s.building, x ≠ ev → EventAt m' x ∧ Same s.mem m' x.offset 20) :
    Intact protocol isEventAllowed { s with mem := m', building := s.building.map f } := by
  have hall : s.queued ++ s.building.map f = (s.queued ++ s.building).map f := by
    have hqueued : s.queued.map f = s.queued.map id := List.map_congr_left fun x hx =>
      hother x (List.mem_append_left _ hx) (hinv.ne_of_queued hx hev)
    rw [List.map_append, hqueued, List.map_id]
  refine ⟨(hlow.mono (by omega) (by omega)).read32.trans hinv.size_eq, ?_, ?_, ?_, ?_,
    hinv.tail_of_same hlow, hinv.log, hinv.reported, hinv.running⟩
  · show ∀ y ∈ s.queued ++ s.building.map f, EventAt m' y
    rw [hall]
    intro y hy
    obtain ⟨x, hx, rfl⟩ := List.mem_map.mp hy
    by_cases hne : x = ev
    · rw [hne]
      exact hnew
    · rw [hother x hx hne]
      exact (hkeep x hx hne).1
  · show (s.queued ++ s.building.map f).Pairwise _
    rw [hall, List.pairwise_map]
    refine hinv.apart.imp_of_mem fun {x y} hx hy hd => ?_
    by_cases hxe : x = ev
    · have hye : y ≠ ev := by
        rintro rfl
        rw [hxe] at hd
        exact hd first_mem_blocks first_mem_blocks
      rw [hother y hy hye, hxe]
      exact (hblocks y hy hye).symm
    · by_cases hye : y = ev
      · rw [hother x hx hxe, hye]
        exact hblocks x hx hxe
      · rw [hother x hx hxe, hother y hy hye]
        exact hd
  · intro y hy
    obtain ⟨x, hx, rfl⟩ := List.mem_map.mp hy
    by_cases hne : x = ev
    · show read32 m' (f x).offset = 0
      rw [hne, hoffset, hnext]
      exact hinv.next_zero ev hev
    · have hx' := List.mem_append_right s.queued hx
      rw [hother x hx' hne]
      exact ((hkeep x hx' hne).2.mono le_rfl (by omega)).read32.trans (hinv.next_zero x hx)
  · refine hinv.linked_of_same hlow fun x hx => ?_
    exact ((hkeep x (List.mem_append_left _ hx) (hinv.ne_of_queued hx hev)).2.mono le_rfl
      (by omega)).read32

theorem Intact.add (hinv : Intact protocol isEventAllowed s) (hmarked : s.Marked) {event : ℕ}
    {d : EventData} : Intact protocol isEventAllowed (s.add rtl event d) := by
  unfold SharedEventList.add
  by_cases hmem : event ∉ s.building.map LiveEvent.offset
  · rw [if_neg hmem]
    exact hinv
  rw [not_not] at hmem
  rw [if_pos hmem]
  obtain ⟨ev, hev, rfl⟩ := List.mem_map.mp hmem
  rcases hadd : addEventData rtl s.mem ev.offset d with _ | ⟨container, m'⟩
  · exact hinv
  have hevall : ev ∈ s.queued ++ s.building := List.mem_append_right _ hev
  obtain ⟨hclear, hwithin, hlow, hnext, hnew⟩ :=
    addEventData_spec (hinv.events ev hevall) (hmarked ev (List.mem_append_left _ hev)) hadd
  have hfresh : ∀ x ∈ s.queued ++ s.building, ∀ b ∈ x.blocks,
      b ∉ blocksAt container (16 + d.size) := fun x hx => hmarked.fresh hclear hx
  have hkeep : ∀ x ∈ s.queued ++ s.building, x ≠ ev → EventAt m' x ∧ Same s.mem m' x.offset 20 := by
    intro x hx hne
    refine (hinv.events x hx).within hwithin fun b hb hb' => ?_
    rcases List.mem_append.mp hb' with hb' | hb'
    · exact hinv.disjoint hx hevall hne hb hb'
    · exact hfresh x hx b hb hb'
  -- no other event has the offset
  refine hinv.replace hev
    (fun x hx hne => if_neg fun hoffset => hne (hinv.eq_of_offset hx hevall hoffset))
    (by rw [if_pos rfl]) (fun x hx hne => ?_) hlow (by rw [if_pos rfl]; exact hnew) hnext hkeep
  rw [if_pos rfl, blocks_snoc, length_contentsOf, List.disjoint_append_right]
  exact ⟨hinv.disjoint hx hevall hne, fun b hb hb' => hfresh x hx b hb hb'⟩

/-! ## Insertion -/

theorem Intact.queued_eq_nil (hinv : Intact protocol isEventAllowed s)
    (hnil : s.queued.map LiveEvent.offset = []) : s.queued = [] ∧ read32 s.mem 0 = 0 := by
  have hqueued := List.map_eq_nil_iff.mp hnil
  exact ⟨hqueued, by simpa [hqueued] using hinv.list.head_eq⟩

/-- The tail of a list that has become empty does not lie in a reservation of an event. -/
theorem Intact.tail_apart (hinv : Intact protocol isEventAllowed s) (hfree : s.TailFree)
    (hnil : s.queued.map LiveEvent.offset = []) (hne : read32 s.mem 4 ≠ 0)
    (hx : x ∈ s.queued ++ s.building) {offset size : ℕ} (hpiece : Piece offset size)
    (hblocks : ∀ b ∈ blocksAt offset size, b ∈ x.blocks) :
    offset + size ≤ read32 s.mem 4 ∨ read32 s.mem 4 + 4 ≤ offset := by
  have htail := hinv.tail.resolve_left hne
  have hword : Piece (read32 s.mem 4) 4 := by
    refine ⟨htail.le, htail.aligned, ?_, by omega, by omega⟩
    have := htail.inside
    omega
  refine hpiece.apart hword fun b hb hb' => ?_
  have hb₀ : b = (read32 s.mem 4 - 4120) / 16 := by
    rw [mem_blocksAt (by omega)] at hb'
    omega
  have hnot := hfree (hinv.queued_eq_nil hnil).2 hne x (by simpa [or_comm] using hx)
  exact hnot (hb₀ ▸ hblocks b hb)

/-- The events of the list and one under construction are at different places of the buffer. -/
theorem Intact.nodes (hinv : Intact protocol isEventAllowed s) (hev : ev ∈ s.building) :
    (∀ b ∈ s.queued.map LiveEvent.offset ++ [ev.offset], 4120 ≤ b ∧ b < 2 ^ 32) ∧
      (s.queued.map LiveEvent.offset ++ [ev.offset]).Pairwise
        fun b c => b + 20 ≤ c ∨ c + 20 ≤ b := by
  have hsub : ∀ x ∈ s.queued ++ [ev], x ∈ s.queued ++ s.building := by
    intro x hx
    rcases List.mem_append.mp hx with hx | hx
    · exact List.mem_append_left _ hx
    · exact List.mem_singleton.mp hx ▸ List.mem_append_right _ hev
  have hnodes : s.queued.map LiveEvent.offset ++ [ev.offset] =
      (s.queued ++ [ev]).map LiveEvent.offset := by simp
  rw [hnodes]
  constructor
  · intro b hb
    obtain ⟨x, hx, rfl⟩ := List.mem_map.mp hb
    have hpiece := (hinv.events x (hsub x hx)).piece
    have := hpiece.le
    have := hpiece.inside
    omega
  · rw [List.pairwise_map]
    have hpair : (s.queued ++ [ev]).Pairwise fun x y => List.Disjoint x.blocks y.blocks :=
      hinv.apart.sublist ((List.Sublist.refl _).append (List.singleton_sublist.mpr hev))
    exact hpair.imp_of_mem fun {x y} hx hy hd =>
      (hinv.events x (hsub x hx)).offset_apart (hinv.events y (hsub y hy)) hd

/-- The header of an event does not overlap the tail of a list that has become empty. -/
theorem Intact.tail_apart_offset (hinv : Intact protocol isEventAllowed s) (hfree : s.TailFree)
    (hnil : s.queued.map LiveEvent.offset = []) (hne : read32 s.mem 4 ≠ 0)
    (hx : x ∈ s.queued ++ s.building) :
    x.offset + 20 ≤ read32 s.mem 4 ∨ read32 s.mem 4 + 4 ≤ x.offset :=
  hinv.tail_apart hfree hnil hne hx (hinv.events x hx).piece fun _ => mem_blocks_event

theorem Intact.insertEvent_linked (hinv : Intact protocol isEventAllowed s) (hfree : s.TailFree)
    (hev : ev ∈ s.building) :
    Linked (insertEvent s.mem ev.offset) 0 4 (s.queued.map LiveEvent.offset ++ [ev.offset]) ∧
      ∀ a n, 8 ≤ a → (∀ y ∈ s.queued, a + n ≤ y.offset ∨ y.offset + 4 ≤ a) →
        (a + n ≤ ev.offset + 4 ∨ ev.offset + 12 ≤ a) →
        (s.queued.map LiveEvent.offset = [] → read32 s.mem 4 ≠ 0 →
          a + n ≤ read32 s.mem 4 ∨ read32 s.mem 4 + 4 ≤ a) →
        Same s.mem (insertEvent s.mem ev.offset) a n := by
  have hevall : ev ∈ s.queued ++ s.building := List.mem_append_right _ hev
  obtain ⟨hinside, hapart⟩ := hinv.nodes hev
  obtain ⟨hlinked, hframe⟩ := CaptureHpc.insertEvent_spec hinv.list
    (fun hnil hne => ⟨(hinv.tail.resolve_left hne).le, hinv.tail_apart_offset hfree hnil hne hevall⟩)
    (hinv.next_zero ev hev) hinside hapart
  refine ⟨hlinked, fun a n ha hqueued => hframe a n ha fun b hb => ?_⟩
  obtain ⟨y, hy, rfl⟩ := List.mem_map.mp hb
  exact hqueued y hy

/-- A place that is not in the first twelve bytes of an event, nor in the tail of an empty list. -/
theorem Intact.insertEvent_same (hinv : Intact protocol isEventAllowed s) (hfree : s.TailFree)
    (hev : ev ∈ s.building) {a n : ℕ} (ha : 8 ≤ a)
    (hplace : ∀ y ∈ s.queued ++ s.building, a + n ≤ y.offset ∨ y.offset + 12 ≤ a)
    (hstale : s.queued.map LiveEvent.offset = [] → read32 s.mem 4 ≠ 0 →
      a + n ≤ read32 s.mem 4 ∨ read32 s.mem 4 + 4 ≤ a) :
    Same s.mem (insertEvent s.mem ev.offset) a n := by
  refine (hinv.insertEvent_linked hfree hev).2 a n ha (fun y hy => ?_) ?_ hstale
  · have := hplace y (List.mem_append_left _ hy)
    omega
  · have := hplace ev (List.mem_append_right _ hev)
    omega

/-- An event has its data after an insertion. -/
theorem Intact.insertEvent_eventAt (hinv : Intact protocol isEventAllowed s) (hfree : s.TailFree)
    (hev : ev ∈ s.building) (hx : x ∈ s.queued ++ s.building) :
    EventAt (insertEvent s.mem ev.offset) x := by
  have hle := (hinv.events x hx).piece.le
  refine (hinv.events x hx).congr
    (hinv.insertEvent_same hfree hev (by omega) (fun y hy => ?_) fun hnil hne => ?_) fun p hp => ?_
  · by_cases hxy : x = y
    · exact hxy ▸ Or.inr le_rfl
    · have := hinv.offset_apart hx hy hxy
      omega
  · have := hinv.tail_apart_offset hfree hnil hne hx
    omega
  · have hpiece := (hinv.events x hx).pieces p hp
    have := hpiece.le
    refine hinv.insertEvent_same hfree hev (by omega) (fun y hy => ?_) fun hnil hne => ?_
    · have := hinv.data_apart hx hy hp
      omega
    · exact hinv.tail_apart hfree hnil hne hx hpiece fun b => mem_blocks_data hp

/-- The memory after an insertion: the event is at the end of the list, and the data of all events and
the links of the other events under construction are as before. -/
theorem Intact.insertEvent_spec (hinv : Intact protocol isEventAllowed s) (hfree : s.TailFree)
    (hev : ev ∈ s.building) :
    Linked (insertEvent s.mem ev.offset) 0 4 (s.queued.map LiveEvent.offset ++ [ev.offset]) ∧
      Same s.mem (insertEvent s.mem ev.offset) 8 4 ∧
      (∀ x ∈ s.queued ++ s.building, EventAt (insertEvent s.mem ev.offset) x) ∧
      ∀ x ∈ s.building, x ≠ ev →
        read32 (insertEvent s.mem ev.offset) x.offset = read32 s.mem x.offset := by
  obtain ⟨hlinked, hframe⟩ := hinv.insertEvent_linked hfree hev
  refine ⟨hlinked, hinv.insertEvent_same hfree hev le_rfl (fun y hy => ?_) fun _ hne => ?_,
    fun x => hinv.insertEvent_eventAt hfree hev, fun x hx hne => ?_⟩
  · have := (hinv.events y hy).piece.le
    omega
  · have := (hinv.tail.resolve_left hne).le
    omega
  · have hx' : x ∈ s.queued ++ s.building := List.mem_append_right _ hx
    have := (hinv.events x hx').piece.le
    refine (hframe _ _ (by omega) (fun y hy => ?_) ?_ fun hnil hne => ?_).read32
    · have := hinv.offset_apart (List.mem_append_left _ hy) hx' (hinv.ne_of_queued hy hx)
      omega
    · have := hinv.offset_apart hx' (List.mem_append_right _ hev) hne
      omega
    · have := hinv.tail_apart_offset hfree hnil hne hx'
      omega

theorem Intact.insert (hinv : Intact protocol isEventAllowed s) {event : ℕ} (hfree : s.TailFree) :
    Intact protocol isEventAllowed (s.insert event) := by
  unfold SharedEventList.insert
  split
  · exact hinv
  rename_i ev hfind
  have hev : ev ∈ s.building := List.mem_of_find?_eq_some hfind
  obtain rfl : ev.offset = event := by simpa using List.find?_some hfind
  have hevall : ev ∈ s.queued ++ s.building := List.mem_append_right _ hev
  obtain ⟨hlinked, hsize, hevents, hnext⟩ := hinv.insertEvent_spec hfree hev
  obtain ⟨hqueued, hbuilding, hcross⟩ := List.pairwise_append.mp hinv.apart
  have hrest : ∀ x ∈ s.building.filter fun x => x.offset ≠ ev.offset, x ∈ s.building ∧ x ≠ ev := by
    intro x hx
    obtain ⟨hx, hne⟩ := List.mem_filter.mp hx
    exact ⟨hx, fun heq => by simp [heq] at hne⟩
  refine ⟨hsize.read32.trans hinv.size_eq, ?_, ?_, ?_, by simpa using hlinked, Or.inr ?_, ?_,
    hinv.reported, hinv.running⟩
  · intro x hx
    refine hevents x ?_
    rcases List.mem_append.mp hx with hx | hx
    · rcases List.mem_append.mp hx with hx | hx
      · exact List.mem_append_left _ hx
      · exact List.mem_singleton.mp hx ▸ hevall
    · exact List.mem_append_right _ (hrest x hx).1
  · refine List.pairwise_append.mpr ⟨List.pairwise_append.mpr ⟨hqueued, List.pairwise_singleton _ _,
      fun x hx y hy => ?_⟩, hbuilding.filter _, fun x hx y hy => ?_⟩
    · rw [List.mem_singleton.mp hy]
      exact hcross x hx ev hev
    · obtain ⟨hy, hne⟩ := hrest y hy
      rcases List.mem_append.mp hx with hx | hx
      · exact hcross x hx y hy
      · rw [List.mem_singleton.mp hx]
        exact hinv.disjoint hevall (List.mem_append_right _ hy) hne.symm
  · intro x hx
    obtain ⟨hx, hne⟩ := hrest x hx
    exact (hnext x hx hne).trans (hinv.next_zero x hx)
  · rw [hlinked.tail_eq ev.offset (by simp)]
    exact (hinv.events ev hevall).piece
  · simp [hinv.log]

/-! ## Taking an event -/

/-- The first event is the one that the head of the list stands for. -/
theorem Intact.filter_head (hinv : Intact protocol isEventAllowed s) {rest : List LiveEvent}
    (hqueued : s.queued = ev :: rest) :
    s.queued.filter (fun x => decide (x.offset ≠ read32 s.mem listHead)) = rest := by
  have hapart := hinv.apart
  have hhead : read32 s.mem listHead = (s.queued.map LiveEvent.offset).head?.getD 0 :=
    hinv.list.head_eq
  rw [hqueued] at hapart hhead ⊢
  rw [hhead]
  show (ev :: rest).filter (fun x => decide (x.offset ≠ ev.offset)) = rest
  rw [List.filter_cons_of_neg (by simp), List.filter_eq_self]
  intro x hx
  have hd := (List.pairwise_cons.mp hapart).1 x (List.mem_append_left _ hx)
  have := (hinv.events ev (by simp [hqueued])).offset_apart
    (hinv.events x (by simp [hqueued, hx])) hd
  exact decide_eq_true (by omega)

theorem Intact.process (hinv : Intact protocol isEventAllowed s) :
    Intact protocol isEventAllowed (s.process protocol isEventAllowed) := by
  have hhead := hinv.list.head_eq
  unfold SharedEventList.process
  rcases hqueued : s.queued with _ | ⟨ev, rest⟩
  · rw [hqueued] at hhead
    rw [processEvents_empty hhead]
    exact hinv
  have hlist := hinv.list
  have hapart := hinv.apart
  have hlog := hinv.log
  rw [hqueued] at hhead hlist hapart hlog
  have hev : EventAt s.mem ev := hinv.events ev (by simp [hqueued])
  obtain ⟨m', hprocess, hhead', hsame⟩ := processEvents_spec hinv.size_eq hev hhead
  have hbuffer : ∀ a n, 4120 ≤ a → Same s.mem m' a n := fun a n ha x hx _ =>
    hsame x (by omega) (Or.inr (by omega))
  have hrest : ∀ x ∈ rest ++ s.building, x ∈ s.queued ++ s.building := by
    intro x hx
    rw [hqueued]
    exact List.mem_cons_of_mem _ hx
  have hnext : ∀ x ∈ rest ++ s.building, read32 m' x.offset = read32 s.mem x.offset :=
    fun x hx => (hbuffer _ _ (hinv.events x (hrest x hx)).piece.le).read32
  have hfilter := hinv.filter_head hqueued
  rw [hprocess]
  have htail : Same s.mem m' 4 4 := fun x hx hx' => hsame x hx (Or.inl (by omega))
  refine ⟨?_, ?_, ?_, ?_, ?_, ?_, ?_, ?_, hinv.running⟩
  · have hsize : Same s.mem m' 8 4 := fun x hx hx' => hsame x (by omega) (Or.inl hx')
    exact hsize.read32.trans hinv.size_eq
  · show ∀ x ∈ s.queued.filter _ ++ s.building, EventAt m' x
    rw [hfilter]
    intro x hx
    have hx := hinv.events x (hrest x hx)
    have hle := hx.piece.le
    exact hx.congr (hbuffer _ _ (by omega)) fun p hp => hbuffer _ _ (hx.pieces p hp).le
  · show (s.queued.filter _ ++ s.building).Pairwise _
    rw [hfilter]
    exact (List.pairwise_cons.mp hapart).2
  · intro x hx
    exact (hnext x (List.mem_append_right _ hx)).trans (hinv.next_zero x hx)
  · show Linked m' 0 4 ((s.queued.filter _).map LiveEvent.offset)
    rw [hfilter]
    refine hlist.pop hhead' htail.read32 fun a ha => ?_
    obtain ⟨x, hx, rfl⟩ := List.mem_map.mp ha
    exact hnext x (List.mem_append_left _ hx)
  · show read32 m' 4 = 0 ∨ Piece (read32 m' 4) 20
    rw [htail.read32]
    exact hinv.tail
  · show s.inserted = s.taken ++ [ev.contents] ++ (s.queued.filter _).map LiveEvent.contents
    rw [hfilter, hlog, List.map_cons, List.append_assoc, List.singleton_append]
  · show s.signals ++ _ = (s.taken ++ [ev.contents]).filterMap _
    rw [List.filterMap_append, hinv.reported]
    rcases hsignal : protocol.signal isEventAllowed ev.contents with _ | signal
    · simp [hsignal]
    · simp [hsignal]

/-! ## Runs -/

theorem Careful.tailFree {event : ℕ} (h : s.Careful (.insertEvent event)) : s.TailFree :=
  fun hhead hne => absurd hhead (h.resolve_right hne)

theorem Intact.step (hinv : Intact protocol isEventAllowed s) {a : Action} (hcareful : s.Careful a) :
    Intact protocol isEventAllowed (s.step rtl protocol isEventAllowed a) := by
  cases a with
  | createEvent => exact hinv.create hcareful
  | addEventData event d => exact hinv.add hcareful
  | insertEvent event => exact hinv.insert hcareful.tailFree
  | processEvents => exact hinv.process

/-- The last event of the list is live, if the list is not one that has become empty. -/
theorem Intact.tail_live (hinv : Intact protocol isEventAllowed s)
    (hcareful : read32 s.mem listHead ≠ 0 ∨ read32 s.mem listTail = 0) :
    read32 s.mem listTail = 0 ∨
      read32 s.mem listTail ∈ (s.building ++ s.queued).map LiveEvent.offset := by
  rcases List.eq_nil_or_concat s.queued with hnil | ⟨init, last, hconcat⟩
  · have hhead : read32 s.mem listHead = 0 := (hinv.queued_eq_nil (by simp [hnil])).2
    exact Or.inl (hcareful.resolve_left (absurd hhead))
  · rw [List.concat_eq_append] at hconcat
    have htail : read32 s.mem listTail = last.offset :=
      hinv.list.tail_eq last.offset (by simp [hconcat])
    right
    rw [htail]
    exact List.mem_map_of_mem (by simp [hconcat])

theorem Intact.staleWrites_step (hinv : Intact protocol isEventAllowed s) {a : Action}
    (hcareful : s.Careful a) :
    (s.step rtl protocol isEventAllowed a).staleWrites = s.staleWrites := by
  cases a with
  | createEvent =>
    simp only [SharedEventList.step, SharedEventList.create]
    split <;> rfl
  | addEventData event d =>
    simp only [SharedEventList.step, SharedEventList.add]
    split_ifs
    · split <;> rfl
    · rfl
  | insertEvent event =>
    simp only [SharedEventList.step, SharedEventList.insert]
    split
    · rfl
    · refine if_neg fun hstale => ?_
      exact (hinv.tail_live hcareful).elim hstale.1 hstale.2
  | processEvents =>
    simp only [SharedEventList.step, SharedEventList.process]
    rcases processEvents s.mem with _ | ⟨_ | data, mem⟩ <;> rfl

/-- The invariant of a careful run. -/
structure Inv (protocol : Protocol) (isEventAllowed : Connection → Bool) (s : SharedEventList) : Prop
    extends Intact protocol isEventAllowed s where
  no_stale_write : s.staleWrites = []

theorem Inv.step (hinv : Inv protocol isEventAllowed s) {a : Action} (hcareful : s.Careful a) :
    Inv protocol isEventAllowed (s.step rtl protocol isEventAllowed a) :=
  ⟨hinv.toIntact.step hcareful, (hinv.staleWrites_step hcareful).trans hinv.no_stale_write⟩

theorem Inv.delivered (hinv : Inv protocol isEventAllowed s) :
    Delivered protocol isEventAllowed s := by
  refine ⟨hinv.running, ⟨_, hinv.log.symm⟩, ?_, hinv.reported, hinv.no_stale_write⟩
  have hhead : read32 s.mem listHead = (s.queued.map LiveEvent.offset).head?.getD 0 :=
    hinv.list.head_eq
  rw [hhead, hinv.log]
  rcases hqueued : s.queued with _ | ⟨ev, rest⟩
  · simp
  · have hle := (hinv.events ev (by simp [hqueued])).piece.le
    refine iff_of_false ?_ ?_
    · show ev.offset ≠ 0
      omega
    · simp

theorem run_snoc {actions : List Action} {a : Action} :
    run rtl protocol isEventAllowed (actions ++ [a]) =
      (run rtl protocol isEventAllowed actions).step rtl protocol isEventAllowed a := by
  simp [run]

theorem inv_of_careful {actions : List Action}
    (h : EachStep (fun pre a => (run rtl protocol isEventAllowed pre).Careful a) actions) :
    Always (fun pre => Inv protocol isEventAllowed (run rtl protocol isEventAllowed pre)) actions := by
  refine always_of_eachStep ⟨intact_initialise, rfl⟩ (fun pre a hinv hcareful => ?_) h
  rw [run_snoc]
  exact hinv.step hcareful

/-- If space is reserved only while the bitmap has the blocks of all events that have not been taken,
and no event is inserted into a list that has become empty, then every event is delivered. -/
theorem delivered_of_careful (rtl : RtlFindClearBits) (protocol : Protocol)
    (isEventAllowed : Connection → Bool) (actions : List Action)
    (h : EachStep (fun pre a => (run rtl protocol isEventAllowed pre).Careful a) actions) :
    Always (fun pre => Delivered protocol isEventAllowed (run rtl protocol isEventAllowed pre))
      actions :=
  fun pre hpre => (inv_of_careful h pre hpre).delivered

/-! ## Runs with the first clear bits from the hint on -/

/-- The lowest position from `p` on, in at most `rounds` attempts, where `n` bits are clear. -/
def search (bitmap : ℕ → Bool) (n : ℕ) : (rounds p : ℕ) → Option ℕ
  | 0, _ => none
  | rounds + 1, p =>
    if p + n ≤ 32768 ∧ ∀ i < n, bitmap (p + i) = false then some p
    else search bitmap n rounds (p + 1)

theorem search_spec {bitmap : ℕ → Bool} {n rounds p q : ℕ} (h : search bitmap n rounds p = some q) :
    q + n ≤ 32768 ∧ ∀ i, q ≤ i → i < q + n → bitmap i = false := by
  induction rounds generalizing p with
  | zero => cases h
  | succ rounds ih =>
    unfold search at h
    split_ifs at h with hclear
    · obtain rfl := Option.some.inj h
      refine ⟨hclear.1, fun i hi hi' => ?_⟩
      have hbit := hclear.2 (i - p) (by omega)
      rwa [Nat.add_sub_cancel' hi] at hbit
    · exact ih h

/-- The search begins at the hint, and then again at the first bit. -/
def firstFit : RtlFindClearBits where
  find bitmap n hint := (search bitmap n 32768 hint).or (search bitmap n 32768 0)
  find_spec bitmap n hint p h := by
    rcases Option.or_eq_some_iff.mp h with h | ⟨-, h⟩
    · exact search_spec h
    · exact search_spec h

/-- An event with the state `TCP_STATE_ESTABLISHED`, and an empty one; the client takes the first. -/
theorem delivered_two_events :
    Always (fun pre => Delivered .tcp (fun _ => false) (run firstFit .tcp (fun _ => false) pre))
      [.createEvent, .addEventData 4120 ⟨0, 0, 4, by decide, some ⟨[4, 0, 0, 0], rfl⟩⟩, .createEvent,
        .insertEvent 4120, .insertEvent 4184, .processEvents] :=
  delivered_of_careful _ _ _ _ (by decide)

/-- The client has taken the only event, and the tail of the list is still at its offset. The next
insertion writes to it. -/
theorem not_delivered_after_empty :
    ¬ Delivered .tcp (fun _ => false) (run firstFit .tcp (fun _ => false)
      [.createEvent, .insertEvent 4120, .processEvents, .createEvent, .insertEvent 4152]) := by
  intro h
  exact absurd h.no_stale_write (by decide)

end SharedEventList

end CaptureHpc
