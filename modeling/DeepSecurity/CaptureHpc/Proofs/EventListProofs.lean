import DeepSecurity.CaptureHpc.EventList
import Mathlib.Algebra.BigOperators.Group.List.Basic
import Mathlib.Data.List.Nodup
import Mathlib.Data.List.Pairwise

/-!
# Proofs: the calls on the shared event list

What each call does to the memory. An event is in the memory as the record of the run says (`EventAt`);
a call works on the control words, on the blocks of one event and on newly reserved ones, and leaves the
other events alone. The bitmap and the control words lie below the buffer in both layouts, so that
neither side's work on them reaches an event.
-/

namespace CaptureHpc

open ByteMem

variable {m m' m'' : Mem} {a n offset size i : ℕ}

/-! ## The control words -/

/-- Only the words between the fields of the list and the buffer have changed. -/
def OnlyControl (m m' : Mem) : Prop := ∀ x, x < 12 ∨ 4120 ≤ x → m' x = m x

theorem OnlyControl.refl (m : Mem) : OnlyControl m m := fun _ _ => rfl

theorem OnlyControl.trans (h : OnlyControl m m') (h' : OnlyControl m' m'') : OnlyControl m m'' := by
  intro x hx
  rw [h' x hx, h x hx]

theorem OnlyControl.same (h : OnlyControl m m') (ha : a + n ≤ 12 ∨ 4120 ≤ a) : Same m m' a n :=
  fun x _ _ => h x (by omega)

theorem onlyControl_writeBytes {l : Bytes} (hlo : 12 ≤ a) (hhi : a + l.length ≤ 4120) :
    OnlyControl m (writeBytes m a l) := by
  intro x hx
  have hsame : Same m (writeBytes m a l) x 1 := same_writeBytes (by omega)
  exact hsame x le_rfl (by omega)

theorem onlyControl_setBits (bits : ℕ) {position : ℕ} (h : position + bits ≤ 32768) :
    OnlyControl m ((List.range' position bits).foldl setBit m) := by
  induction bits generalizing position m with
  | zero => exact OnlyControl.refl m
  | succ bits ih =>
    rw [List.range'_succ, List.foldl_cons]
    have hbyte : kernelLayout.bufferBitmap = 24 := rfl
    have hbit : OnlyControl m (setBit m position) := by
      unfold setBit
      simp only [hbyte]
      exact onlyControl_writeBytes (by omega) (by simp only [List.length_singleton]; omega)
    exact hbit.trans (ih (by omega))

/-! ## Reservations -/

theorem blocksFor_eq (hsmall : size + 15 < 2 ^ 32) : blocksFor size = (size + 15) / 16 := by
  have hblock : blockSize = 16 := rfl
  rw [blocksFor, hblock, Nat.mod_eq_of_lt (by omega)]

theorem mem_blocksAt {b : ℕ} (hsmall : size + 15 < 2 ^ 32) : b ∈ blocksAt offset size ↔
    (offset - 4120) / 16 ≤ b ∧ b < (offset - 4120) / 16 + (size + 15) / 16 := by
  unfold blocksAt
  rw [blocksFor_eq hsmall, List.mem_range'_1]
  rfl

/-- The reserved space in numbers: blocks of 16 bytes behind the 4120 bytes with the control words. -/
theorem exists_position_of_reserveSpace {rtl : RtlFindClearBits}
    (h : reserveSpace rtl m size = some (offset, m')) :
    ∃ position, offset = 4120 + 16 * position ∧ position + blocksFor size ≤ 32768 ∧
      (∀ b, position ≤ b → b < position + blocksFor size → testBit m b = false) ∧
      m' = write32 ((List.range' position (blocksFor size)).foldl setBit m) 20 position := by
  simp only [reserveSpace, Option.bind_eq_bind, Option.bind_eq_some_iff, Option.pure_def,
    Option.some.injEq, Prod.mk.injEq] at h
  obtain ⟨position, hfind, hoffset, hm'⟩ := h
  obtain ⟨hinside, hclear⟩ := rtl.find_spec _ _ _ _ hfind
  have hbuffer : kernelLayout.buffer = 4120 := rfl
  have hblock : blockSize = 16 := rfl
  exact ⟨position, by rw [← hoffset, hbuffer, hblock, Nat.mul_comm], hinside, hclear, hm'.symm⟩

/-- Space is reserved where no bit was set, and nothing outside the control words changes. -/
theorem reserveSpace_spec {rtl : RtlFindClearBits} (hpos : 0 < size) (hsmall : size + 15 < 2 ^ 32)
    (h : reserveSpace rtl m size = some (offset, m')) :
    Piece offset size ∧ (∀ b ∈ blocksAt offset size, testBit m b = false) ∧ OnlyControl m m' := by
  obtain ⟨position, hoffset, hinside, hclear, rfl⟩ := exists_position_of_reserveSpace h
  rw [blocksFor_eq hsmall] at hinside hclear ⊢
  refine ⟨⟨by omega, by omega, by omega, hpos, hsmall⟩, fun b hb => ?_, ?_⟩
  · rw [mem_blocksAt hsmall] at hb
    exact hclear b (by omega) (by omega)
  · exact (onlyControl_setBits _ hinside).trans (onlyControl_writeBytes (by omega) (by simp))

/-! ## Releases -/

theorem onlyControl_clearBitsLoop {rounds position index bits : ℕ}
    (h : clearBitsLoop m rounds position index bits = some m')
    (hposition : bits ≠ 0 → position = 20 + index / 8) (hbits : index + bits ≤ 32768) :
    OnlyControl m m' := by
  induction rounds generalizing m position index bits with
  | zero =>
    rw [clearBitsLoop] at h
    split_ifs at h
    obtain rfl := Option.some.inj h
    exact OnlyControl.refl m
  | succ rounds ih =>
    unfold clearBitsLoop at h
    split_ifs at h with hzero
    · obtain rfl := Option.some.inj h
      exact OnlyControl.refl m
    -- the bits up to the end of the byte, or all that are left
    have hcount : (if 8 - index % 8 < bits then 8 - index % 8 else bits) ≤ bits ∧
        (bits - (if 8 - index % 8 < bits then 8 - index % 8 else bits) ≠ 0 →
          index % 8 + (if 8 - index % 8 < bits then 8 - index % 8 else bits) = 8) := by
      split_ifs <;> omega
    have hstart := hposition hzero
    refine OnlyControl.trans (onlyControl_writeBytes (by omega) ?_) (ih h (fun hne => ?_) (by omega))
    · simp only [List.length_singleton]
      omega
    · have := hcount.2 hne
      omega

/-- The client writes to its bitmap, which is not that of the drivers but does not reach into the
buffer. -/
theorem onlyControl_bufferClearBits (hsize : read32 m 8 = 32768) (data size : ℕ) :
    OnlyControl m (bufferClearBits m data size) := by
  have hsize' : read32 m sizeOfBitMap = 32768 := hsize
  unfold bufferClearBits
  rcases hclear : bufferClearBitsWithin (blocksFor size) m data size with _ | m'
  · exact OnlyControl.refl m
  unfold bufferClearBitsWithin at hclear
  simp only [hsize'] at hclear
  split_ifs at hclear with hout hmore
  · obtain rfl := Option.some.inj hclear
    exact OnlyControl.refl m
  · exact onlyControl_clearBitsLoop hclear (fun _ => rfl) (by omega)
  · exact onlyControl_clearBitsLoop hclear (fun _ => rfl) (by omega)

/-! ## What a step leaves alone -/

/-- In the buffer, only the given blocks have changed. -/
def Within (bs : List ℕ) (m m' : Mem) : Prop :=
  ∀ x, 4120 ≤ x → (x - 4120) / 16 ∉ bs → m' x = m x

variable {bs bs' : List ℕ}

theorem Within.trans (h : Within bs m m') (h' : Within bs' m' m'') : Within (bs ++ bs') m m'' := by
  intro x hx hout
  rw [List.mem_append, not_or] at hout
  rw [h' x hx hout.2, h x hx hout.1]

theorem OnlyControl.within (h : OnlyControl m m') : Within [] m m' := fun x hx _ => h x (Or.inr hx)

/-- A step that writes into one reservation. -/
theorem within_of_same (hp : Piece offset size)
    (h : ∀ a n, a + n ≤ offset ∨ offset + size ≤ a → Same m m' a n) :
    Within (blocksAt offset size) m m' := by
  intro x hx hout
  rw [mem_blocksAt hp.small] at hout
  have haligned := hp.aligned
  exact h x 1 (by omega) x le_rfl (by omega)

/-- A reservation none of whose blocks has changed. -/
theorem Within.same (h : Within bs m m') (hp : Piece offset size)
    (hd : ∀ b ∈ blocksAt offset size, b ∉ bs) : Same m m' offset size := by
  intro x hlo hhi
  have hle := hp.le
  have haligned := hp.aligned
  refine h x (by omega) (hd _ ((mem_blocksAt hp.small).mpr ?_))
  omega

/-- Reservations without a common block do not overlap. -/
theorem Piece.apart {offset' size' : ℕ} (hp : Piece offset size) (hp' : Piece offset' size')
    (hd : ∀ b ∈ blocksAt offset size, b ∉ blocksAt offset' size') :
    offset + size ≤ offset' ∨ offset' + size' ≤ offset := by
  obtain ⟨hle, haligned, -, hpos, hsmall⟩ := hp
  obtain ⟨hle', haligned', -, hpos', hsmall'⟩ := hp'
  simp only [mem_blocksAt hsmall, mem_blocksAt hsmall'] at hd
  have hfirst := hd ((offset - 4120) / 16)
  have hfirst' := hd ((offset' - 4120) / 16)
  omega

/-! ## Events in the memory -/

theorem ContainerAt.congr {c : ℕ} {d : Container} (h : ContainerAt m c d)
    (hs : Same m m' (c + 4) (12 + d.data.length)) : ContainerAt m' c d where
  key_eq := (hs.mono (by omega) (by omega)).read32.trans h.key_eq
  type_eq := (hs.mono (by omega) (by omega)).read32.trans h.type_eq
  size_eq := (hs.mono (by omega) (by omega)).read32.trans h.size_eq
  data_eq := (hs.mono (by omega) (by omega)).readBytes.trans h.data_eq

theorem ContainerAt.read_eq {c : ℕ} {d : Container} (h : ContainerAt m c d) :
    Container.read m c = d := by
  have hdata : readBytes m (c + 16) (read32 m (c + 12)) = d.data := by rw [h.size_eq, h.data_eq]
  show Container.mk (UInt32.ofNat (read32 m (c + 4))) (UInt32.ofNat (read32 m (c + 8)))
    (readBytes m (c + 16) (read32 m (c + 12))) = d
  rw [hdata, h.key_eq, h.type_eq, UInt32.ofNat_toNat, UInt32.ofNat_toNat]

variable {ev : LiveEvent}

theorem EventAt.congr (h : EventAt m ev) (hevent : Same m m' (ev.offset + 12) 8)
    (hdata : ∀ p ∈ ev.data, Same m m' p.1 (16 + p.2.data.length)) : EventAt m' ev := by
  have htail : read32 m' (ev.offset + 16) = read32 m (ev.offset + 16) :=
    (hevent.mono (by omega) (by omega)).read32
  refine ⟨h.piece, h.pieces, h.nodup, h.linked.congr (hevent.mono le_rfl (by omega)).read32 htail ?_,
    fun hempty => htail.trans (h.tail_zero hempty), fun p hp => (h.contents p hp).congr ?_⟩
  · intro c hc
    obtain ⟨p, hp, rfl⟩ := List.mem_map.mp hc
    exact ((hdata p hp).mono le_rfl (by omega)).read32
  · exact (hdata p hp).mono (by omega) (by omega)

theorem mem_blocks_event {b : ℕ} (hb : b ∈ blocksAt ev.offset 20) : b ∈ ev.blocks :=
  List.mem_append_left _ hb

theorem mem_blocks_data {p : ℕ × Container} {b : ℕ} (hp : p ∈ ev.data)
    (hb : b ∈ blocksAt p.1 (16 + p.2.data.length)) : b ∈ ev.blocks :=
  List.mem_append_right _ (List.mem_flatMap.mpr ⟨p, hp, hb⟩)

theorem EventAt.offset_apart {x y : LiveEvent} (hx : EventAt m x) (hy : EventAt m y)
    (hd : List.Disjoint x.blocks y.blocks) :
    x.offset + 20 ≤ y.offset ∨ y.offset + 20 ≤ x.offset :=
  hx.piece.apart hy.piece fun _ hb hb' => hd (mem_blocks_event hb) (mem_blocks_event hb')

/-- The block in which an event begins. -/
theorem first_mem_blocks : (ev.offset - 4120) / 16 ∈ ev.blocks :=
  mem_blocks_event ((mem_blocksAt (by decide)).mpr ⟨le_rfl, by omega⟩)

/-- A step on other blocks leaves an event alone. -/
theorem EventAt.within (h : EventAt m ev) (hw : Within bs m m') (hd : ∀ b ∈ ev.blocks, b ∉ bs) :
    EventAt m' ev ∧ Same m m' ev.offset 20 := by
  have hevent : Same m m' ev.offset 20 := hw.same h.piece fun b hb => hd b (mem_blocks_event hb)
  refine ⟨h.congr (hevent.mono (by omega) (by omega)) fun p hp => ?_, hevent⟩
  exact hw.same (h.pieces p hp) fun b hb => hd b (mem_blocks_data hp hb)

/-- There are at most as many containers as blocks. -/
theorem EventAt.length_le (h : EventAt m ev) : ev.data.length ≤ 32768 := by
  have hlt : ∀ b ∈ ev.blocks, b < 32768 := by
    intro b hb
    rcases List.mem_append.mp hb with hb | hb
    · have hb := (mem_blocksAt h.piece.small).mp hb
      have := h.piece.inside
      omega
    · obtain ⟨p, hp, hb⟩ := List.mem_flatMap.mp hb
      have hb := (mem_blocksAt (h.pieces p hp).small).mp hb
      have := (h.pieces p hp).inside
      omega
  have hcard : ev.blocks.length ≤ 32768 := by
    have hsub : ev.blocks ⊆ List.range 32768 := fun b hb => List.mem_range.mpr (hlt b hb)
    simpa using (h.nodup.subperm hsub).length_le
  have hdata : ev.data.length ≤ (ev.data.flatMap fun p =>
      blocksAt p.1 (sizeofDataContainer + p.2.data.length)).length := by
    rw [List.length_flatMap]
    refine (List.length_map _).symm.trans_le (List.length_le_sum_of_one_le _ ?_)
    intro k hk
    obtain ⟨p, hp, rfl⟩ := List.mem_map.mp hk
    refine List.length_pos_of_mem (a := (p.1 - 4120) / 16) ?_
    refine (mem_blocksAt (h.pieces p hp).small).mpr ⟨le_rfl, ?_⟩
    omega
  unfold LiveEvent.blocks at hcard
  rw [List.length_append] at hcard
  omega

/-! ## Taking an event -/

/-- The loop of the client reads the data of an event from the first container to the last. -/
theorem readData_chain (data : List (ℕ × Container)) (hsize : read32 m 8 = 32768)
    (hchain : Chain m (data.map Prod.fst))
    (hpieces : ∀ p ∈ data, Piece p.1 (16 + p.2.data.length))
    (hcontents : ∀ p ∈ data, ContainerAt m p.1 p.2) {rounds : ℕ} (hrounds : data.length ≤ rounds) :
    ∃ m', readData rounds m ((data.map Prod.fst).head?.getD 0) = some (data.map Prod.snd, m') ∧
      OnlyControl m m' := by
  induction data generalizing m rounds with
  | nil =>
    refine ⟨m, ?_, OnlyControl.refl m⟩
    cases rounds <;> rfl
  | cons p data ih =>
    obtain ⟨rounds, rfl⟩ : ∃ r, rounds = r + 1 := ⟨rounds - 1, by simp at hrounds; omega⟩
    have hle := (hpieces p List.mem_cons_self).le
    have hclear := onlyControl_bufferClearBits hsize p.1
      ((16 + read32 m (p.1 + 12)) % 2 ^ 32)
    have hsize' : read32 (bufferClearBits m p.1 ((16 + read32 m (p.1 + 12)) % 2 ^ 32)) 8 = 32768 :=
      (hclear.same (by omega)).read32.trans hsize
    -- the rest of the list lies in the buffer, so it is still there
    obtain ⟨m', hread, hcontrol⟩ := ih hsize'
      (hchain.2.congr fun c hc => by
        obtain ⟨q, hq, rfl⟩ := List.mem_map.mp hc
        have := (hpieces q (List.mem_cons_of_mem _ hq)).le
        exact (hclear.same (by omega)).read32)
      (fun q hq => hpieces q (List.mem_cons_of_mem _ hq))
      (fun q hq => by
        have := (hpieces q (List.mem_cons_of_mem _ hq)).le
        exact (hcontents q (List.mem_cons_of_mem _ hq)).congr (hclear.same (by omega)))
      (Nat.le_of_succ_le_succ hrounds)
    refine ⟨m', ?_, hclear.trans hcontrol⟩
    have hne : p.1 ≠ 0 := by omega
    have hnext : read32 m (p.1 + 0) = (data.map Prod.fst).head?.getD 0 := hchain.1
    show readData (rounds + 1) m p.1 = _
    simp only [readData, hne, if_false, dataNext, dataSize, sizeofDataContainer, hnext, hread,
      (hcontents p List.mem_cons_self).read_eq, Option.bind_eq_bind, Option.bind_some,
      Option.pure_def, List.map_cons]

theorem processEvents_empty (hhead : read32 m 0 = 0) : processEvents m = some (none, m) := by
  have hhead' : read32 m listHead = 0 := hhead
  unfold processEvents
  rw [if_pos hhead']

/-- The client takes the first event of the list: it finds its contents, and the list begins with the
next event. -/
theorem processEvents_spec (hsize : read32 m 8 = 32768) (hev : EventAt m ev)
    (hhead : read32 m 0 = ev.offset) :
    ∃ m', processEvents m = some (some ev.contents, m') ∧ read32 m' 0 = read32 m ev.offset ∧
      ∀ x, 4 ≤ x → x < 12 ∨ 4120 ≤ x → m' x = m x := by
  have hle := hev.piece.le
  obtain ⟨m₁, hread, hcontrol⟩ := readData_chain ev.data hsize hev.linked.chain hev.pieces
    hev.contents hev.length_le
  have hnext : read32 m₁ (ev.offset + 0) = read32 m ev.offset := (hcontrol.same (by omega)).read32
  have hsize₁ : read32 (write32 m₁ 0 (read32 m ev.offset)) 8 = 32768 := by
    rw [read32_write32_of_apart (by unfold Apart; omega), (hcontrol.same (by omega)).read32, hsize]
  have hclear := onlyControl_bufferClearBits hsize₁ ev.offset 20
  refine ⟨bufferClearBits (write32 m₁ 0 (read32 m ev.offset)) ev.offset 20, ?_, ?_, ?_⟩
  · have hlist : listHead = 0 := rfl
    have hblocks : bufferBitmapSize * 32 = 32768 := rfl
    have hne : ev.offset ≠ 0 := by omega
    have hfirst : read32 m (ev.offset + 12) = (ev.data.map Prod.fst).head?.getD 0 :=
      hev.linked.head_eq
    simp only [processEvents, hlist, hblocks, hhead, hne, if_false, eventHead, hfirst, hread,
      eventNext, hnext, sizeofEvent, Option.bind_eq_bind, Option.bind_some, Option.pure_def,
      LiveEvent.contents]
  · rw [(hclear.same (by omega)).read32, read32_write32 (read32_lt _ _)]
  · intro x hlo hx
    have hword : Same m₁ (write32 m₁ 0 (read32 m ev.offset)) x 1 := same_write32 (by omega)
    rw [hclear x hx, hword x le_rfl (by omega), hcontrol x hx]

/-! ## Making an event -/

variable {rtl : RtlFindClearBits} {event container : ℕ} {d : EventData}

theorem createEvent_eq : createEvent rtl m =
    (reserveSpace rtl m 20).map fun r => (r.1, zero r.2 r.1 20) := by
  unfold createEvent
  have hsize : sizeofEvent = 20 := rfl
  rw [hsize]
  rcases reserveSpace rtl m 20 with _ | ⟨event, m₁⟩
  · rfl
  · rfl

/-- A new event has no data and no successor. -/
theorem createEvent_spec (h : createEvent rtl m = some (event, m')) :
    (∀ b ∈ blocksAt event 20, testBit m b = false) ∧ Within (blocksAt event 20) m m' ∧
      Same m m' 0 12 ∧ EventAt m' ⟨event, []⟩ ∧ read32 m' event = 0 := by
  rw [createEvent_eq] at h
  obtain ⟨⟨e, m₁⟩, hreserve, heq⟩ := Option.map_eq_some_iff.mp h
  obtain ⟨rfl, rfl⟩ := Prod.mk.inj heq
  obtain ⟨hpiece, hclear, hcontrol⟩ := reserveSpace_spec (by decide) (by decide) hreserve
  have hle := hpiece.le
  refine ⟨hclear, ?_, ?_, ?_, read32_zero le_rfl (by omega)⟩
  · exact hcontrol.within.trans (within_of_same hpiece fun a n => same_zero)
  · exact (hcontrol.same (by omega)).trans (same_zero (by omega))
  · refine ⟨hpiece, by simp, ?_, ⟨?_, trivial, by simp⟩, fun _ => ?_, by simp⟩
    · simp only [LiveEvent.blocks, List.flatMap_nil, List.append_nil]
      exact List.nodup_range'
    · exact read32_zero (Nat.le_add_right _ _) (by simp only; omega)
    · exact read32_zero (Nat.le_add_right _ _) (by simp only; omega)

/-- The header of a new container. -/
def header (m : Mem) (container : ℕ) (d : EventData) : Mem :=
  let m := zero m container 16
  let m := write32 m (container + 4) d.key.toNat
  let m := write32 m (container + 8) d.type.toNat
  write32 m (container + 12) d.size

/-- A container is filled before it is linked. -/
def fill (m : Mem) (container : ℕ) (d : EventData) : Mem :=
  match d.data with
  | some l => writeBytes (header m container d) (container + 16) l.1
  | none => header m container d

theorem addEventData_eq : addEventData rtl m event d =
    (reserveSpace rtl m (16 + d.size)).map fun r =>
      (r.1, push (fill r.2 r.1 d) (event + 12) (event + 16) r.1) := by
  unfold addEventData
  have hsize : sizeofDataContainer = 16 := rfl
  rw [hsize]
  rcases reserveSpace rtl m (16 + d.size) with _ | ⟨c, m₁⟩
  · rfl
  · rfl

theorem same_header (h : a + n ≤ container ∨ container + 16 ≤ a) :
    Same m (header m container d) a n := by
  unfold header
  exact (((same_zero h).trans (same_write32 (by omega))).trans (same_write32 (by omega))).trans
    (same_write32 (by omega))

theorem same_fill (h : a + n ≤ container ∨ container + (16 + d.size) ≤ a) :
    Same m (fill m container d) a n := by
  unfold fill
  rcases d.data with _ | l
  · exact same_header (by omega)
  · refine (same_header (by omega)).trans (same_writeBytes ?_)
    rw [l.2]
    omega

/-- The data come behind the header. -/
theorem same_header_fill : Same (header m container d) (fill m container d) container 16 := by
  unfold fill
  rcases d.data with _ | l
  · exact Same.refl _ _ _
  · exact same_writeBytes (Or.inl le_rfl)

theorem read32_fill_next : read32 (fill m container d) container = 0 := by
  rw [(same_header_fill.mono le_rfl (by omega)).read32]
  unfold header
  rw [read32_write32_of_apart (by unfold Apart; omega),
    read32_write32_of_apart (by unfold Apart; omega),
    read32_write32_of_apart (by unfold Apart; omega)]
  exact read32_zero le_rfl (by omega)

theorem length_contentsOf : (SharedEventList.contentsOf d m container).data.length = d.size := by
  unfold SharedEventList.contentsOf
  rcases d.data with _ | l
  · simp [readBytes]
  · exact l.2

theorem containerAt_fill : ContainerAt (fill m container d) container
    (SharedEventList.contentsOf d (fill m container d) container) := by
  refine ⟨?_, ?_, ?_, ?_⟩
  · rw [(same_header_fill.mono (by omega) (by omega)).read32]
    unfold header
    rw [read32_write32_of_apart (by unfold Apart; omega),
      read32_write32_of_apart (by unfold Apart; omega), read32_write32 d.key.toNat_lt]
    rfl
  · rw [(same_header_fill.mono (by omega) (by omega)).read32]
    unfold header
    rw [read32_write32_of_apart (by unfold Apart; omega), read32_write32 d.type.toNat_lt]
    rfl
  · have hlt := d.size_lt
    rw [(same_header_fill.mono (by omega) (by omega)).read32, length_contentsOf]
    unfold header
    exact read32_write32 (by omega)
  · rw [length_contentsOf]
    unfold SharedEventList.contentsOf
    rcases hdata : d.data with _ | l
    · rfl
    · have hfill : fill m container d = writeBytes (header m container d) (container + 16) l.1 := by
        unfold fill
        rw [hdata]
      have hread := readBytes_writeBytes (m := header m container d) (a := container + 16) (l := l.1)
      rw [l.2] at hread
      rw [hfill]
      exact hread

theorem disjoint_of_pairwise {α : Type} {l : List α} {f : α → List ℕ}
    (h : l.Pairwise fun x y => List.Disjoint (f x) (f y)) {x y : α} (hx : x ∈ l) (hy : y ∈ l)
    (hne : x ≠ y) : List.Disjoint (f x) (f y) := by
  have : Std.Symm fun x y => List.Disjoint (f x) (f y) := ⟨fun _ _ hd => hd.symm⟩
  exact h.forall hx hy hne

/-- Reservations of different containers of an event do not overlap. -/
theorem EventAt.data_disjoint (h : EventAt m ev) {p q : ℕ × Container} (hp : p ∈ ev.data)
    (hq : q ∈ ev.data) (hne : p ≠ q) :
    p.1 + (16 + p.2.data.length) ≤ q.1 ∨ q.1 + (16 + q.2.data.length) ≤ p.1 := by
  have hd := disjoint_of_pairwise (List.nodup_flatMap.mp (List.nodup_append.mp h.nodup).2.1).2 hp hq
    hne
  exact (h.pieces p hp).apart (h.pieces q hq) fun b hb hb' => hd hb hb'

theorem EventAt.data_apart (h : EventAt m ev) : (ev.data.map Prod.fst).Pairwise Apart := by
  have hnodup := (List.nodup_append.mp h.nodup).2.1
  rw [List.pairwise_map]
  refine ((List.nodup_flatMap.mp hnodup).2).imp_of_mem fun {p q} hp hq hd => ?_
  have := (h.pieces p hp).apart (h.pieces q hq) fun b hb hb' => hd hb hb'
  unfold Apart
  omega

/-- Neither do those of an event and of its containers. -/
theorem EventAt.event_apart (h : EventAt m ev) {p : ℕ × Container} (hp : p ∈ ev.data) :
    ev.offset + 20 ≤ p.1 ∨ p.1 + (16 + p.2.data.length) ≤ ev.offset := by
  refine h.piece.apart (h.pieces p hp) fun b hb hb' => ?_
  exact (List.nodup_append.mp h.nodup).2.2 b hb b (List.mem_flatMap.mpr ⟨p, hp, hb'⟩) rfl

/-- The last container is one of the containers. -/
theorem EventAt.tail_cases (h : EventAt m ev) : read32 m (ev.offset + 16) = 0 ∨
    ∃ p ∈ ev.data, read32 m (ev.offset + 16) = p.1 := by
  rcases List.eq_nil_or_concat ev.data with hnil | ⟨init, p, hdata⟩
  · exact Or.inl (h.tail_zero hnil)
  · rw [List.concat_eq_append] at hdata
    refine Or.inr ⟨p, by simp [hdata], h.linked.tail_eq p.1 ?_⟩
    simp [hdata]

/-- Linking a new container changes the event and its last container only. -/
theorem same_push_data (h : EventAt m ev) (hevent : a + n ≤ ev.offset + 12 ∨ ev.offset + 20 ≤ a)
    (hlast : ∀ p ∈ ev.data, a + n ≤ p.1 ∨ p.1 + 4 ≤ a) :
    Same m (push m (ev.offset + 12) (ev.offset + 16) container) a n := by
  refine same_push (by unfold Apart; omega) (by omega) (by omega) fun hne => ?_
  rcases h.tail_cases with hzero | ⟨p, hp, htail⟩
  · exact absurd hzero hne
  · rw [htail]
    exact hlast p hp

theorem blocks_snoc {c : Container} :
    LiveEvent.blocks { ev with data := ev.data ++ [(container, c)] } =
      ev.blocks ++ blocksAt container (16 + c.data.length) := by
  simp [LiveEvent.blocks, sizeofDataContainer]

/-- A reservation of other blocks overlaps neither with the event nor with its data. -/
theorem EventAt.fresh_apart (h : EventAt m ev) (hpiece : Piece container size)
    (hfresh : ∀ b ∈ blocksAt container size, b ∉ ev.blocks) :
    (container + size ≤ ev.offset ∨ ev.offset + 20 ≤ container) ∧
      ∀ p ∈ ev.data, container + size ≤ p.1 ∨ p.1 + (16 + p.2.data.length) ≤ container := by
  constructor
  · exact hpiece.apart h.piece fun b hb hb' => hfresh b hb (mem_blocks_event hb')
  · intro p hp
    exact hpiece.apart (h.pieces p hp) fun b hb hb' => hfresh b hb (mem_blocks_data hp hb')

theorem EventAt.separate (h : EventAt m ev) (hpiece : Piece container (16 + n))
    (hfresh : ∀ b ∈ blocksAt container (16 + n), b ∉ ev.blocks) :
    Separate (ev.offset + 12) (ev.offset + 16) (ev.data.map Prod.fst) container := by
  have hle := hpiece.le
  have hinside := hpiece.inside
  obtain ⟨hevent, hothers⟩ := h.fresh_apart hpiece hfresh
  refine ⟨by unfold Apart; omega, ?_, by omega, by omega, ?_, ?_⟩
  · intro b hb
    obtain ⟨p, hp, rfl⟩ := List.mem_map.mp hb
    have := (h.pieces p hp).le
    omega
  · refine List.pairwise_append.mpr ⟨h.data_apart, List.pairwise_singleton _ _, ?_⟩
    intro b hb b' hb'
    obtain ⟨p, hp, rfl⟩ := List.mem_map.mp hb
    have := hothers p hp
    rw [List.mem_singleton.mp hb']
    unfold Apart
    omega
  · intro b hb
    unfold Apart
    rcases List.mem_append.mp hb with hb | hb
    · obtain ⟨p, hp, rfl⟩ := List.mem_map.mp hb
      have := h.event_apart hp
      omega
    · rw [List.mem_singleton.mp hb]
      omega

/-- Linking a container changes nothing outside the event. -/
theorem within_push_data (h : EventAt m ev) :
    Within ev.blocks m (push m (ev.offset + 12) (ev.offset + 16) container) := by
  intro x hx hout
  have hx' : ∀ o sz, Piece o sz → (∀ b ∈ blocksAt o sz, b ∈ ev.blocks) → x + 1 ≤ o ∨ o + sz ≤ x := by
    intro o sz hp hsub
    have hnot : (x - 4120) / 16 ∉ blocksAt o sz := fun hmem => hout (hsub _ hmem)
    rw [mem_blocksAt hp.small] at hnot
    have haligned := hp.aligned
    have := hp.le
    omega
  refine same_push_data (n := 1) h ?_ (fun p hp => ?_) x le_rfl (by omega)
  · have := hx' _ _ h.piece fun b => mem_blocks_event
    omega
  · have := hx' _ _ (h.pieces p hp) fun b => mem_blocks_data hp
    omega

/-- A container is added at the end of the data of an event. -/
theorem EventAt.push (h : EventAt m ev) {c : Container} (hpiece : Piece container (16 + c.data.length))
    (hfresh : ∀ b ∈ blocksAt container (16 + c.data.length), b ∉ ev.blocks)
    (hnext : read32 m container = 0) (hc : ContainerAt m container c) :
    EventAt (push m (ev.offset + 12) (ev.offset + 16) container)
      { ev with data := ev.data ++ [(container, c)] } := by
  obtain ⟨hevent, hothers⟩ := h.fresh_apart hpiece hfresh
  have hlinked := linked_push h.linked
    (fun hnil hne => absurd (h.tail_zero (List.map_eq_nil_iff.mp hnil)) hne)
    (h.separate hpiece hfresh) hnext
  refine ⟨h.piece, ?_, ?_, by simpa using hlinked, by simp, ?_⟩
  · intro p hp
    rcases List.mem_append.mp hp with hp | hp
    · exact h.pieces p hp
    · rw [List.mem_singleton.mp hp]
      exact hpiece
  · rw [blocks_snoc]
    refine List.nodup_append.mpr ⟨h.nodup, List.nodup_range', fun b hb b' hb' heq => ?_⟩
    exact hfresh b' hb' (heq ▸ hb)
  · intro p hp
    rcases List.mem_append.mp hp with hp | hp
    · -- the link of the last container is not part of its contents
      have hpp := h.event_apart hp
      refine (h.contents p hp).congr (same_push_data h (by omega) fun q hq => ?_)
      by_cases hpq : p = q
      · rw [hpq]
        exact Or.inr le_rfl
      · have := h.data_disjoint hp hq hpq
        omega
    · rw [List.mem_singleton.mp hp]
      refine hc.congr (same_push_data h (by omega) fun q hq => ?_)
      have := hothers q hq
      omega

theorem contentsOf_congr (h : Same m m' (container + 16) d.size) :
    SharedEventList.contentsOf d m' container = SharedEventList.contentsOf d m container := by
  unfold SharedEventList.contentsOf
  rcases d.data with _ | l
  · simp only [dataBytes, h.readBytes]
  · rfl

/-- `AddEventData` as a whole: the reservation takes clear bits, and only the event itself and the new
blocks change. -/
theorem addEventData_spec (hev : EventAt m ev) (hmarked : ∀ b ∈ ev.blocks, testBit m b = true)
    (h : addEventData rtl m ev.offset d = some (container, m')) :
    (∀ b ∈ blocksAt container (16 + d.size), testBit m b = false) ∧
      Within (ev.blocks ++ blocksAt container (16 + d.size)) m m' ∧ Same m m' 0 12 ∧
      read32 m' ev.offset = read32 m ev.offset ∧ EventAt m' { ev with
        data := ev.data ++ [(container, SharedEventList.contentsOf d m' container)] } := by
  rw [addEventData_eq] at h
  obtain ⟨⟨c, m₁⟩, hreserve, heq⟩ := Option.map_eq_some_iff.mp h
  obtain ⟨rfl, rfl⟩ := Prod.mk.inj heq
  have hlt := d.size_lt
  obtain ⟨hpiece, hclear, hcontrol⟩ := reserveSpace_spec (by omega) (by omega) hreserve
  have hle := hpiece.le
  have hfresh : ∀ b ∈ blocksAt c (16 + d.size), b ∉ ev.blocks := by
    intro b hb hb'
    exact absurd ((hclear b hb).symm.trans (hmarked b hb')) (by decide)
  -- the container is filled
  have hfill : Within (blocksAt c (16 + d.size)) m (fill m₁ c d) :=
    hcontrol.within.trans (within_of_same hpiece fun a n => same_fill)
  obtain ⟨hev₂, hevent⟩ := hev.within hfill fun b hb hb' => hfresh b hb' hb
  have hlow : Same m (fill m₁ c d) 0 12 := (hcontrol.same (by omega)).trans (same_fill (by omega))
  obtain ⟨hapart, hdata⟩ := hev.fresh_apart hpiece hfresh
  -- and then linked
  have hcontents : SharedEventList.contentsOf d (push (fill m₁ c d) (ev.offset + 12) (ev.offset + 16) c)
      c = SharedEventList.contentsOf d (fill m₁ c d) c := by
    refine contentsOf_congr (same_push_data hev₂ (by omega) fun p hp => ?_)
    have := hdata p hp
    omega
  have hevle := hev.piece.le
  refine ⟨hclear, ?_, ?_, ?_, ?_⟩
  · intro x hx hout
    rw [List.mem_append, not_or] at hout
    exact (within_push_data hev₂ x hx hout.1).trans (hfill x hx hout.2)
  · refine hlow.trans (same_push_data hev₂ (by omega) fun p hp => ?_)
    have := (hev.pieces p hp).le
    omega
  · rw [← (hevent.mono le_rfl (by omega)).read32]
    refine (same_push_data hev₂ (by omega) fun p hp => ?_).read32
    have := hev.event_apart hp
    omega
  · rw [hcontents]
    have hlen : (SharedEventList.contentsOf d (fill m₁ c d) c).data.length = d.size :=
      length_contentsOf
    exact hev₂.push (hlen ▸ hpiece) (hlen ▸ hfresh) read32_fill_next containerAt_fill

/-! ## Insertion -/

/-- `InsertEvent` for events in the buffer that do not overlap: besides the two words of the list, it
writes into the inserted event and to the link of the last one, or to where the tail of an empty list
points. -/
theorem insertEvent_spec {nodes : List ℕ} (hl : Linked m 0 4 nodes)
    (hempty : nodes = [] → read32 m 4 ≠ 0 →
      4120 ≤ read32 m 4 ∧ (event + 20 ≤ read32 m 4 ∨ read32 m 4 + 4 ≤ event))
    (hnext : read32 m event = 0)
    (hinside : ∀ b ∈ nodes ++ [event], 4120 ≤ b ∧ b < 2 ^ 32)
    (hapart : (nodes ++ [event]).Pairwise fun b c => b + 20 ≤ c ∨ c + 20 ≤ b) :
    Linked (insertEvent m event) 0 4 (nodes ++ [event]) ∧
      ∀ a n, 8 ≤ a → (∀ b ∈ nodes, a + n ≤ b ∨ b + 4 ≤ a) → (a + n ≤ event + 4 ∨ event + 12 ≤ a) →
        (nodes = [] → read32 m 4 ≠ 0 → a + n ≤ read32 m 4 ∨ read32 m 4 + 4 ≤ a) →
        Same m (insertEvent m event) a n := by
  set m₁ := write32 (write32 m (event + 8) 1) (event + 4) (read32 (write32 m (event + 8) 1) 4)
  have hpush : insertEvent m event = push m₁ 0 4 event := rfl
  have hfields : ∀ a n, a + n ≤ event + 4 ∨ event + 12 ≤ a → Same m m₁ a n := by
    intro a n h
    exact (same_write32 (by omega)).trans (same_write32 (by omega))
  have hevent := hinside event (by simp)
  have hnodes : ∀ b ∈ nodes, 4120 ≤ b ∧ (b + 20 ≤ event ∨ event + 20 ≤ b) := by
    intro b hb
    refine ⟨(hinside b (by simp [hb])).1, ?_⟩
    exact (List.pairwise_append.mp hapart).2.2 b hb event (by simp)
  have htail : read32 m₁ 4 = read32 m 4 := (hfields 4 4 (by omega)).read32
  rw [hpush]
  constructor
  · refine linked_push (hl.congr (hfields 0 4 (by omega)).read32 htail fun b hb => ?_)
      (fun hnil hne => ?_) ⟨by unfold Apart; omega, ?_, by omega, hevent.2, ?_, ?_⟩
      ((hfields event 4 (by omega)).read32.trans hnext)
    · have := hnodes b hb
      exact (hfields b 4 (by omega)).read32
    · rw [htail] at hne ⊢
      have := hempty hnil hne
      unfold Apart
      omega
    · intro b hb
      have := hnodes b hb
      omega
    · refine hapart.imp fun {b c} h => ?_
      unfold Apart
      omega
    · intro b hb
      have := hinside b hb
      unfold Apart
      omega
  · intro a n ha hothers hfree hstale
    refine (hfields a n hfree).trans (same_push (by unfold Apart; omega) (by omega) (by omega) ?_)
    intro hne
    rw [htail] at hne ⊢
    rcases List.eq_nil_or_concat nodes with hnil | ⟨init, last, hconcat⟩
    · exact hstale hnil hne
    · -- the tail is the last event of the list
      rw [List.concat_eq_append] at hconcat
      have hlast : read32 m 4 = last := hl.tail_eq last (by simp [hconcat])
      rw [hlast]
      exact hothers last (by simp [hconcat])

end CaptureHpc
