import DeepSecurity.CaptureHpc.ConnectionManager
import DeepSecurity.CaptureHpc.Proofs.DeliveryProofs

/-!
# Proofs: recording a state is not atomic

As long as the calls are not disturbed, the event that is inserted at the end has the data for which
there was space, and the list is as intact as before. So the event is complete if there was space for
all of them; without space for the event itself, a null pointer is dereferenced.
-/

namespace CaptureHpc.ConnectionManager

open ByteMem SharedEventList

variable {rtl : RtlFindClearBits} {protocol : Protocol}
  {isEventAllowed : CaptureHpc.Connection → Bool}
variable {s t : SharedEventList} {ev x : LiveEvent} {base : List LiveEvent} {d : EventData}

/-! ## Calls of the client -/

theorem process_building : (s.process protocol isEventAllowed).building = s.building ∧
    (s.process protocol isEventAllowed).inserted = s.inserted := by
  unfold process
  generalize processEvents s.mem = result
  rcases result with _ | ⟨_ | data, mem⟩
  · exact ⟨rfl, rfl⟩
  · exact ⟨rfl, rfl⟩
  · exact ⟨rfl, rfl⟩

theorem clientCalls_building (k : ℕ) :
    (clientCalls protocol isEventAllowed k s).building = s.building ∧
      (clientCalls protocol isEventAllowed k s).inserted = s.inserted := by
  induction k with
  | zero => exact ⟨rfl, rfl⟩
  | succ k ih =>
    unfold clientCalls at ih ⊢
    rw [Function.iterate_succ_apply']
    exact ⟨process_building.1.trans ih.1, process_building.2.trans ih.2⟩

theorem intact_clientCalls (hinv : Intact protocol isEventAllowed s) (k : ℕ) :
    Intact protocol isEventAllowed (clientCalls protocol isEventAllowed k s) := by
  induction k with
  | zero => exact hinv
  | succ k ih =>
    unfold clientCalls at ih ⊢
    rw [Function.iterate_succ_apply']
    exact ih.process

/-! ## The event under construction -/

/-- No other event is at the place of the last one. -/
theorem offset_ne_last (hinv : Intact protocol isEventAllowed s) (hb : s.building = base ++ [ev])
    (hx : x ∈ base) : x.offset ≠ ev.offset := by
  have hpair := (List.pairwise_append.mp hinv.apart).2.1
  rw [hb] at hpair
  have hd := (List.pairwise_append.mp hpair).2.2 x hx ev (by simp)
  intro heq
  refine hd first_mem_blocks ?_
  rw [heq]
  exact first_mem_blocks

theorem addEventData_eq_none {event : ℕ} : CaptureHpc.addEventData rtl s.mem event d = none ↔
    reserveSpace rtl s.mem (sizeofDataContainer + d.size) = none := by
  rw [addEventData_eq, Option.map_eq_none_iff]
  rfl

/-- The data are added at the end of the event if there is space for them. -/
theorem add_building (rtl : RtlFindClearBits) (hinv : Intact protocol isEventAllowed s)
    (hb : s.building = base ++ [ev])
    (hd : d.data ≠ none) :
    (s.add rtl ev.offset d).inserted = s.inserted ∧
    ∃ ev', (s.add rtl ev.offset d).building = base ++ [ev'] ∧ ev'.offset = ev.offset ∧
      ev'.contents = ev.contents ++
        (if (reserveSpace rtl s.mem (sizeofDataContainer + d.size)).isSome then [carried d] else []) := by
  unfold SharedEventList.add
  rw [if_pos (by simp [hb])]
  rcases hadd : CaptureHpc.addEventData rtl s.mem ev.offset d with _ | ⟨container, m'⟩
  · rw [addEventData_eq_none.mp hadd]
    exact ⟨rfl, ev, hb, rfl, by simp⟩
  have hfound : reserveSpace rtl s.mem (sizeofDataContainer + d.size) ≠ none := by
    intro hnone
    rw [addEventData_eq_none.mpr hnone] at hadd
    cases hadd
  have hcarried : contentsOf d m' container = carried d := by
    obtain ⟨l, hl⟩ := Option.ne_none_iff_exists'.mp hd
    simp [contentsOf, carried, hl]
  refine ⟨rfl, { ev with data := ev.data ++ [(container, carried d)] }, ?_, rfl, ?_⟩
  · show s.building.map _ = _
    rw [hb, List.map_append, List.map_singleton, if_pos rfl, hcarried]
    congr 1
    refine (List.map_congr_left fun x hx => ?_).trans (List.map_id _)
    exact if_neg (offset_ne_last hinv hb hx)
  · rw [if_pos (Option.isSome_iff_ne_none.mpr hfound)]
    simp [LiveEvent.contents]

theorem addItems_some {event : ℕ} {adds : List (ℕ × EventData)} :
    addItems rtl protocol isEventAllowed (some event) adds s =
      some (added rtl protocol isEventAllowed event adds s) := by
  induction adds generalizing s with
  | nil => rfl
  | cons a rest ih => exact ih

/-- The data for which there is space, in an intact list. -/
theorem added_building {adds : List (ℕ × EventData)} (hdata : ∀ a ∈ adds, a.2.data ≠ none)
    (hinv : Intact protocol isEventAllowed s) (hb : s.building = base ++ [ev])
    (hmarked : AtEach rtl protocol isEventAllowed (fun s _ => s.Marked) ev.offset adds s) :
    Intact protocol isEventAllowed (added rtl protocol isEventAllowed ev.offset adds s) ∧
    (added rtl protocol isEventAllowed ev.offset adds s).inserted = s.inserted ∧
    ∃ ev', (added rtl protocol isEventAllowed ev.offset adds s).building = base ++ [ev'] ∧
      ev'.offset = ev.offset ∧
      ev'.contents.length ≤ ev.contents.length + adds.length ∧
      (AtEach rtl protocol isEventAllowed
          (fun s d => (reserveSpace rtl s.mem (sizeofDataContainer + d.size)).isSome) ev.offset adds s →
        ev'.contents = ev.contents ++ adds.map fun a => carried a.2) ∧
      (ev'.contents.length = ev.contents.length + adds.length →
        AtEach rtl protocol isEventAllowed
          (fun s d => (reserveSpace rtl s.mem (sizeofDataContainer + d.size)).isSome)
          ev.offset adds s) := by
  induction adds generalizing s ev with
  | nil => exact ⟨hinv, rfl, ev, hb, rfl, le_rfl, fun _ => by simp, fun _ => trivial⟩
  | cons a rest ih =>
    obtain ⟨k, d⟩ := a
    obtain ⟨hnow, hlater⟩ := hmarked
    have hinv₁ := intact_clientCalls hinv k
    obtain ⟨hb₁, hin₁⟩ : (clientCalls protocol isEventAllowed k s).building = s.building ∧
        (clientCalls protocol isEventAllowed k s).inserted = s.inserted := clientCalls_building k
    obtain ⟨hin₂, ev₂, hb₂, hoffset₂, hcontents₂⟩ :=
      add_building rtl hinv₁ (hb₁.trans hb) (hdata (k, d) (by simp))
    have hinv₂ : Intact protocol isEventAllowed
        ((clientCalls protocol isEventAllowed k s).add rtl ev.offset d) := hinv₁.add hnow
    rw [← hoffset₂] at hlater hin₂ hb₂ hinv₂
    obtain ⟨hinv₃, hin₃, ev₃, hb₃, hoffset₃, hle₃, hall₃, hlen₃⟩ :=
      ih (fun a ha => hdata a (List.mem_cons_of_mem _ ha)) hinv₂ hb₂ hlater
    rw [hoffset₂] at hinv₃ hin₃ hb₃ hall₃ hlen₃
    refine ⟨hinv₃, ?_, ev₃, hb₃, hoffset₃.trans hoffset₂, ?_, ?_, ?_⟩
    · exact hin₃.trans ((hoffset₂ ▸ hin₂).trans hin₁)
    · rw [hcontents₂] at hle₃
      split at hle₃ <;> simp at hle₃ ⊢ <;> omega
    · rintro ⟨hfound, hrest⟩
      rw [hall₃ hrest, hcontents₂, if_pos hfound]
      simp
    · intro hlen
      -- One datum less for this reservation could not be made up for by the later ones.
      by_cases hfound : (reserveSpace rtl (clientCalls protocol isEventAllowed k s).mem
          (sizeofDataContainer + d.size)).isSome
      · refine ⟨hfound, hlen₃ ?_⟩
        rw [hlen, hcontents₂, if_pos hfound]
        simp
        omega
      · rw [hcontents₂, if_neg hfound] at hle₃
        simp at hle₃ hlen
        omega

/-- The insertion of the last event under construction. -/
theorem insert_building (hinv : Intact protocol isEventAllowed s) (hb : s.building = base ++ [ev]) :
    (s.insert ev.offset).building = base ∧
      (s.insert ev.offset).inserted = s.inserted ++ [ev.contents] := by
  have hnone : base.find? (fun x => decide (x.offset = ev.offset)) = none := by
    rw [List.find?_eq_none]
    intro x hx
    simpa using offset_ne_last hinv hb hx
  have hfind : s.building.find? (fun x => decide (x.offset = ev.offset)) = some ev := by
    simp [hb, List.find?_append, hnone]
  have hfilter : base.filter (fun x => decide (x.offset ≠ ev.offset)) = base := by
    rw [List.filter_eq_self]
    intro x hx
    simpa using offset_ne_last hinv hb hx
  unfold SharedEventList.insert
  rw [hfind]
  refine ⟨?_, rfl⟩
  show s.building.filter _ = base
  rw [hb, List.filter_append, hfilter]
  simp

/-! ## The whole call -/

theorem atCreate_building {c : Interleaving} :
    (atCreate protocol isEventAllowed c s).building = s.building ∧
      (atCreate protocol isEventAllowed c s).inserted = s.inserted :=
  clientCalls_building c.create

/-- Without an event, a null pointer is dereferenced at the latest by `InsertEvent`. -/
theorem setConnectionState_none {c : Interleaving} {buffer : CString} {connection : Connection}
    {tcpState : TcpState} (h : created rtl protocol isEventAllowed c s = none) :
    setConnectionState rtl protocol isEventAllowed c buffer (some connection) tcpState s = none := by
  have hevent : (createEvent rtl (clientCalls protocol isEventAllowed c.create s).mem).map Prod.fst =
      none := h
  simp only [setConnectionState, hevent]
  rcases addItems rtl protocol isEventAllowed none (c.adds (items connection tcpState buffer))
    ((clientCalls protocol isEventAllowed c.create s).create rtl) with _ | t
  · rfl
  · rfl

theorem setConnectionState_some {c : Interleaving} {buffer : CString} {connection : Connection}
    {tcpState : TcpState} {event : ℕ} (h : created rtl protocol isEventAllowed c s = some event) :
    setConnectionState rtl protocol isEventAllowed c buffer (some connection) tcpState s =
      some (some { connection with state := tcpState },
        (atInsert rtl protocol isEventAllowed c (items connection tcpState buffer) s event).insert
          event) := by
  have hevent : (createEvent rtl (clientCalls protocol isEventAllowed c.create s).mem).map Prod.fst =
      some event := h
  simp only [setConnectionState, hevent, addItems_some]
  rfl

theorem create_building {event : ℕ} (h : (createEvent rtl s.mem).map Prod.fst = some event) :
    (s.create rtl).building = s.building ++ [⟨event, []⟩] ∧ (s.create rtl).inserted = s.inserted := by
  obtain ⟨⟨e, m⟩, hcreate, he⟩ := Option.map_eq_some_iff.mp h
  subst he
  unfold SharedEventList.create
  rw [hcreate]
  exact ⟨rfl, rfl⟩

theorem adds_items {c : Interleaving} {buffer : CString} {connection : Connection}
    {tcpState : TcpState} :
    (c.adds (items connection tcpState buffer)).map (fun a => carried a.2) =
      (items connection tcpState buffer).map carried := rfl

/-- What has been inserted at the end. -/
theorem atInsert_spec {c : Interleaving} {buffer : CString} {connection : Connection}
    {tcpState : TcpState} {event : ℕ} (hinv : Intact protocol isEventAllowed s)
    (hsound : Undisturbed rtl protocol isEventAllowed c (items connection tcpState buffer) s)
    (h : created rtl protocol isEventAllowed c s = some event) :
    ∃ contents : List Container,
      Intact protocol isEventAllowed ((atInsert rtl protocol isEventAllowed c
        (items connection tcpState buffer) s event).insert event) ∧
      ((atInsert rtl protocol isEventAllowed c (items connection tcpState buffer) s event).insert
        event).building = s.building ∧
      ((atInsert rtl protocol isEventAllowed c (items connection tcpState buffer) s event).insert
        event).inserted = s.inserted ++ [contents] ∧
      (contents = (items connection tcpState buffer).map carried ↔
        Room rtl protocol isEventAllowed c (items connection tcpState buffer) s) := by
  obtain ⟨hmarked, hcalls⟩ := hsound
  obtain ⟨hadds, htail⟩ := hcalls event h
  have hinv₁ : Intact protocol isEventAllowed (atCreate protocol isEventAllowed c s) :=
    intact_clientCalls hinv c.create
  have hinv₂ : Intact protocol isEventAllowed ((atCreate protocol isEventAllowed c s).create rtl) :=
    hinv₁.create hmarked
  obtain ⟨hb₂, hin₂⟩ := create_building h
  rw [atCreate_building.1] at hb₂
  rw [atCreate_building.2] at hin₂
  have hdata : ∀ a ∈ c.adds (items connection tcpState buffer), a.2.data ≠ none := by
    simp [Interleaving.adds, items, item, text]
  obtain ⟨hinv₃, hin₃, ev, hb₃, hoffset, -, hall, hlen⟩ := added_building hdata hinv₂ hb₂ hadds
  -- The calls of the client before the insertion leave the event as it is.
  have hinv₄ : Intact protocol isEventAllowed
      (atInsert rtl protocol isEventAllowed c (items connection tcpState buffer) s event) :=
    intact_clientCalls hinv₃ c.insert
  obtain ⟨hb₄, hin₄⟩ : (atInsert rtl protocol isEventAllowed c (items connection tcpState buffer) s
      event).building = s.building ++ [ev] ∧ (atInsert rtl protocol isEventAllowed c
        (items connection tcpState buffer) s event).inserted = s.inserted :=
    ⟨(clientCalls_building c.insert).1.trans hb₃,
      (clientCalls_building c.insert).2.trans (hin₃.trans hin₂)⟩
  obtain ⟨hbuilding, hinserted⟩ := insert_building hinv₄ hb₄
  have hevent : ev.offset = event := hoffset
  rw [hevent, hin₄] at hinserted
  rw [hevent] at hbuilding
  refine ⟨ev.contents, hinv₄.insert htail, hbuilding, hinserted, ?_, ?_⟩
  · intro hcontents
    refine ⟨event, h, hlen ?_⟩
    rw [hcontents, ← adds_items (c := c)]
    simp [LiveEvent.contents]
  · rintro ⟨event', h', hroom⟩
    obtain rfl : event' = event := Option.some.inj ((Eq.symm h').trans h)
    rw [hall hroom, adds_items]
    rfl

/-- The shared list after an event that the client has taken: it is empty, and its tail is still at the
place of this event. -/
def drained : SharedEventList :=
  run firstFit .tcp (fun _ => false) [.createEvent, .insertEvent 4120, .processEvents]

theorem intact_drained : Intact .tcp (fun _ => false) drained :=
  (inv_of_careful (by decide) _ (List.prefix_refl _)).toIntact

/-- The shared list without an event, all of whose blocks are marked. -/
def full : SharedEventList :=
  { initialise with mem := fun a => if 24 ≤ a ∧ a < 4120 then 255 else initialise.mem a }

theorem testBit_full {b : ℕ} (hb : b < 32768) : testBit full.mem b = true := by
  have hbyte : full.mem (24 + b / 8) = 255 := if_pos (by omega)
  have hbits : ∀ k < 8, (255 : UInt8).toNat.testBit k = true := by decide
  show (full.mem (24 + b / 8)).toNat.testBit (b % 8) = true
  rw [hbyte]
  exact hbits _ (by omega)

theorem createEvent_full : createEvent rtl full.mem = none := by
  have hfind : rtl.find (testBit full.mem) (blocksFor sizeofEvent)
      (read32 full.mem kernelLayout.bitmapHintIndex) = none := by
    rw [Option.eq_none_iff_forall_ne_some]
    intro position hposition
    obtain ⟨hle, hclear⟩ := rtl.find_spec _ _ _ _ hposition
    have hblocks : blocksFor sizeofEvent = 2 := rfl
    have hsize : bufferBitmapSize * 32 = 32768 := rfl
    have hset := testBit_full (b := position) (by omega)
    rw [hclear position le_rfl (by omega)] at hset
    cases hset
  simp [createEvent, reserveSpace, hfind]

theorem intact_full : Intact protocol isEventAllowed full where
  size_eq := by decide
  events := by simp [full, initialise]
  apart := List.Pairwise.nil
  next_zero := by simp [full, initialise]
  list := ⟨by decide, trivial, by simp [full, initialise]⟩
  tail := Or.inl (by decide)
  log := rfl
  reported := rfl
  running := rfl

end CaptureHpc.ConnectionManager
