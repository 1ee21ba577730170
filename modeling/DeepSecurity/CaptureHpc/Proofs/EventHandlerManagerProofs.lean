import DeepSecurity.CaptureHpc.EventHandlerManager
import DeepSecurity.CaptureHpc.Proofs.RecordMapProofs

/-!
# Proofs: the number of handlers of a node

`SetEventHandler` does not count the handlers. So the first request by which a handler is set leaves a
record whose number is wrong.
-/

namespace CaptureHpc

theorem NodeEventHandler.held_eq_zero {r : NodeEventHandler} :
    r.held = 0 ↔ ∀ i, (r.handlers i).originalHandler.eventHandler = none := by
  simp [held, List.countP_eq_zero]

namespace EventHandlerManager

variable {m : EventHandlerManager} {ptr : UInt32 → Pointer} {node : FileObject} {a : Addr}
  {eventType : ℤ} {i : Fin tdiEventHandlersMax} (tdiEventHandlers : HandlerTable)

/-! ## Slots -/

theorem slot_of_lt (h : 0 ≤ eventType) (hlt : eventType < tdiEventHandlersMax) :
    ∃ i, slot eventType = .ok i ∧ (i.val : ℤ) = eventType :=
  ⟨⟨eventType.toNat, by omega⟩, dif_pos ⟨h, hlt⟩, Int.toNat_of_nonneg h⟩

theorem slot_of_neg (h : eventType < 0) : slot eventType = Checked.fault := dif_neg (by omega)

/-! ## Setting a handler -/

/-- The record of the node: there is one, there is no memory for one, or it is new. -/
theorem findOrCreate_of_some (h : m.Refers ptr) (ha : ptr node.1 = some a) (alloc : Allocation) :
    findOrCreate m node alloc = .ok (some a, m) := by
  rw [findOrCreate, h.find, ha]
  rfl

theorem findOrCreate_of_refuse (h : m.Refers ptr) (hnone : ptr node.1 = none) {alloc : Allocation}
    (hpick : alloc.record.pick m.pool = none) : findOrCreate m node alloc = .ok (none, m) := by
  rw [findOrCreate, h.find, hnone]
  simp [createNodeEventHandler, hpick, bind, Except.bind, pure, Except.pure]

theorem findOrCreate_of_pick (h : m.Refers ptr) (hnone : ptr node.1 = none) {alloc : Allocation}
    (hpick : alloc.record.pick m.pool = some a) :
    ∃ table, findOrCreate m node alloc =
        .ok (some a, ⟨table, m.pool.write a ⟨node, 0, fun _ => EventHandler.zero⟩⟩) ∧
      RecordMap.Refers ⟨table, m.pool.write a ⟨node, 0, fun _ => EventHandler.zero⟩⟩
        (if m.table.grants node.1 alloc.pool then Function.update ptr node.1 (some a) else ptr) := by
  obtain ⟨table, hinsert, hrefers⟩ := h.insert hnone (alloc.record.fresh _ _ hpick)
    ⟨node, 0, fun _ => EventHandler.zero⟩ alloc.pool
  refine ⟨table, ?_, hrefers⟩
  rw [findOrCreate, h.find, hnone]
  simp [createNodeEventHandler, hpick, hinsert, bind, Except.bind, pure, Except.pure]

variable {original : SetEvent} {alloc : Allocation}

theorem setEventHandler_of_ge (h : tdiEventHandlersMax ≤ original.eventType) :
    setEventHandler tdiEventHandlers m original node alloc = .ok (original, m) := by
  simp [setEventHandler, h, pure, Except.pure]

theorem setEventHandler_of_neg (h : original.eventType < 0) :
    setEventHandler tdiEventHandlers m original node alloc = Checked.fault := by
  have hlt : ¬ (tdiEventHandlersMax : ℤ) ≤ original.eventType := by omega
  simp [setEventHandler, hlt, slot_of_neg h, Checked.fault, bind, Except.bind]

theorem setEventHandler_of_null (hslot : slot original.eventType = .ok i)
    (hlt : original.eventType < tdiEventHandlersMax) (hnull : tdiEventHandlers i = none) :
    setEventHandler tdiEventHandlers m original node alloc = .ok (original, m) := by
  simp [setEventHandler, not_le.mpr hlt, hslot, hnull, bind, Except.bind, pure, Except.pure]

theorem setEventHandler_of_none {m' : EventHandlerManager} (hslot : slot original.eventType = .ok i)
    (hlt : original.eventType < tdiEventHandlersMax) (hroutine : tdiEventHandlers i ≠ none)
    (hfind : findOrCreate m node alloc = .ok (none, m')) :
    setEventHandler tdiEventHandlers m original node alloc = .ok (original, m') := by
  simp [setEventHandler, not_le.mpr hlt, hslot, hroutine, hfind, bind, Except.bind, pure, Except.pure]

theorem setEventHandler_of_some {m' : EventHandlerManager} {r : NodeEventHandler}
    (hslot : slot original.eventType = .ok i) (hlt : original.eventType < tdiEventHandlersMax)
    (hroutine : tdiEventHandlers i ≠ none)
    (hfind : findOrCreate m node alloc = .ok (some a, m')) (hr : m'.pool a = some r) :
    setEventHandler tdiEventHandlers m original node alloc =
      .ok ({ original with eventContext := slotAddress a i, eventHandler := tdiEventHandlers i },
        ⟨m'.table, m'.pool.write a
          { r with handlers := Function.update r.handlers i ⟨some node, original⟩ }⟩) := by
  simp [setEventHandler, not_le.mpr hlt, hslot, hroutine, hfind, Heap.read_eq_ok hr, bind, Except.bind,
    pure, Except.pure]

/-- The map keeps referring to records, and the request keeps its type. -/
theorem setEventHandler_refers (h : m.Refers ptr) (hnonneg : 0 ≤ original.eventType) :
    ∃ request m' ptr', setEventHandler tdiEventHandlers m original node alloc = .ok (request, m') ∧
      m'.Refers ptr' ∧ request.eventType = original.eventType := by
  by_cases hlt : original.eventType < tdiEventHandlersMax
  · obtain ⟨i, hi, -⟩ := slot_of_lt hnonneg hlt
    by_cases hroutine : tdiEventHandlers i = none
    · exact ⟨original, m, ptr, setEventHandler_of_null _ hi hlt hroutine, h, rfl⟩
    cases hptr : ptr node.1 with
    | some a =>
      obtain ⟨r, hr⟩ := h.exists_record hptr
      exact ⟨_, _, ptr, setEventHandler_of_some _ hi hlt hroutine (findOrCreate_of_some h hptr alloc) hr,
        h.write a _, rfl⟩
    | none =>
      cases hpick : alloc.record.pick m.pool with
      | none =>
        exact ⟨_, m, ptr, setEventHandler_of_none _ hi hlt hroutine (findOrCreate_of_refuse h hptr hpick),
          h, rfl⟩
      | some a =>
        obtain ⟨table, hcreate, hrefers⟩ := findOrCreate_of_pick h hptr hpick
        exact ⟨_, _, _, setEventHandler_of_some _ hi hlt hroutine hcreate Heap.write_self,
          hrefers.write a _, rfl⟩
  · exact ⟨original, m, ptr, setEventHandler_of_ge _ (not_lt.mp hlt), h, rfl⟩

/-! ## Removing a handler -/

variable {hooked : SetEvent}

theorem removeEventHandler_of_ge (h : tdiEventHandlersMax ≤ hooked.eventType) :
    removeEventHandler m hooked node = .ok m := by
  simp [removeEventHandler, h, pure, Except.pure]

theorem removeEventHandler_of_none (h : m.Refers ptr) (hnone : ptr node.1 = none) :
    removeEventHandler m hooked node = .ok m := by
  by_cases hlt : hooked.eventType < tdiEventHandlersMax
  · simp [removeEventHandler, not_le.mpr hlt, h.find, hnone, bind, Except.bind, pure, Except.pure]
  · exact removeEventHandler_of_ge (not_lt.mp hlt)

theorem removeEventHandler_of_neg (h : m.Refers ptr) (ha : ptr node.1 = some a)
    (hneg : hooked.eventType < 0) : removeEventHandler m hooked node = Checked.fault := by
  have hlt : ¬ (tdiEventHandlersMax : ℤ) ≤ hooked.eventType := by omega
  simp [removeEventHandler, hlt, h.find, ha, slot_of_neg hneg, Checked.fault, bind, Except.bind]

theorem removeEventHandler_refers (h : m.Refers ptr) (hnonneg : 0 ≤ hooked.eventType) :
    ∃ m' ptr', removeEventHandler m hooked node = .ok m' ∧ m'.Refers ptr' := by
  by_cases hlt : hooked.eventType < tdiEventHandlersMax
  · obtain ⟨i, hi, -⟩ := slot_of_lt hnonneg hlt
    cases hptr : ptr node.1 with
    | none => exact ⟨m, ptr, removeEventHandler_of_none h hptr, h⟩
    | some a =>
      obtain ⟨r, hr⟩ := h.exists_record hptr
      have hwrite := h.write a ⟨r.node, r.numHandlers - 1, Function.update r.handlers i .zero⟩
      by_cases hzero : r.numHandlers - 1 = 0
      · obtain ⟨table, hremove, hrefers⟩ := hwrite.remove hptr
        refine ⟨_, _, ?_, hrefers⟩
        simp only [removeEventHandler, not_le.mpr hlt, if_false, h.find, hptr, hi,
          Heap.read_eq_ok hr, hzero, if_true, hremove, bind, Except.bind, pure, Except.pure]
      · refine ⟨_, ptr, ?_, hwrite⟩
        simp only [removeEventHandler, not_le.mpr hlt, if_false, h.find, hptr, hi,
          Heap.read_eq_ok hr, hzero, bind, Except.bind, pure, Except.pure]
  · exact ⟨m, ptr, removeEventHandler_of_ge (not_lt.mp hlt), h⟩

/-! ## Runs -/

/-- As long as no handler is set, the map is empty, and all records are without handlers. -/
structure Unused (m : EventHandlerManager) : Prop where
  refers : m.Refers fun _ => none
  record : ∀ a r, m.pool a = some r → r.numHandlers = 0 ∧ r.held = 0

theorem Unused.consistent (h : m.Unused) : m.Consistent := by
  constructor
  · intro a r hr
    rw [(h.record a r hr).1, (h.record a r hr).2]
    rfl
  · intro node
    constructor
    · rintro ⟨a, hfind⟩
      rw [h.refers.find] at hfind
      cases hfind
    · rintro ⟨a, r, hr, -, hheld⟩
      exact absurd (h.record a r hr).2 hheld.ne'

/-- The record that a request leaves for a node without one. -/
def newRecord (node : FileObject) (i : Fin tdiEventHandlersMax) (original : SetEvent) :
    NodeEventHandler :=
  ⟨node, 0, Function.update (fun _ => EventHandler.zero) i ⟨some node, original⟩⟩

theorem held_newRecord : (newRecord node i original).held = 0 ↔ original.eventHandler = none := by
  rw [NodeEventHandler.held_eq_zero]
  constructor
  · intro h
    simpa [newRecord] using h i
  · intro h j
    by_cases hj : j = i
    · subst hj
      simpa [newRecord] using h
    · simp [newRecord, hj, EventHandler.zero]

/-- A request that gets memory for a new record. -/
theorem serve_set_of_pick (h : m.Refers fun _ => none) (hslot : slot original.eventType = .ok i)
    (hlt : original.eventType < tdiEventHandlersMax) (hroutine : tdiEventHandlers i ≠ none)
    (hpick : alloc.record.pick m.pool = some a) :
    ∃ m', serve tdiEventHandlers m (.set node original alloc) = .ok m' ∧
      m'.Refers (if m.table.grants node.1 alloc.pool then Function.update (fun _ => none) node.1 (some a)
        else fun _ => none) ∧
      ∀ b r, m'.pool b = some r ↔ b = a ∧ r = newRecord node i original ∨ b ≠ a ∧ m.pool b = some r := by
  obtain ⟨table, hcreate, hrefers⟩ := findOrCreate_of_pick h rfl hpick
  have hset := setEventHandler_of_some tdiEventHandlers hslot hlt hroutine hcreate Heap.write_self
  refine ⟨_, ?_, hrefers.write a (newRecord node i original), fun b r => ?_⟩
  · rw [serve, hset]
    rfl
  · by_cases hb : b = a
    · subst hb
      simp [eq_comm]
    · simp [Heap.write_of_ne hb, hb]

variable {request : Request}

theorem Unused.serve (h : m.Unused) (hrefused : Refused tdiEventHandlers m request) :
    ∃ m', serve tdiEventHandlers m request = .ok m' ∧ m'.Unused := by
  cases request with
  | remove node hooked => exact ⟨m, removeEventHandler_of_none h.refers rfl, h⟩
  | set node original alloc =>
    by_cases hlt : original.eventType < tdiEventHandlersMax
    · have hrefused := hrefused.resolve_left (not_le.mpr hlt)
      have hnonneg : 0 ≤ original.eventType := by
        rcases hrefused with ⟨i, hi, -⟩ | ⟨hnonneg, -⟩
        · omega
        · exact hnonneg
      obtain ⟨i, hi, hval⟩ := slot_of_lt hnonneg hlt
      by_cases hroutine : tdiEventHandlers i = none
      · refine ⟨m, ?_, h⟩
        rw [EventHandlerManager.serve, setEventHandler_of_null _ hi hlt hroutine]
        rfl
      obtain ⟨-, hmemory⟩ := hrefused.resolve_left fun ⟨j, hj, hnull⟩ => hroutine (by
        rwa [Fin.ext (by omega : i.val = j.val)])
      cases hpick : alloc.record.pick m.pool with
      | none =>
        refine ⟨m, ?_, h⟩
        rw [EventHandlerManager.serve,
          setEventHandler_of_none _ hi hlt hroutine (findOrCreate_of_refuse h.refers rfl hpick)]
        rfl
      | some a =>
        obtain ⟨hnone, hgrants⟩ := hmemory.resolve_left (by simp [hpick])
        obtain ⟨m', hserve, hrefers, hpool⟩ :=
          serve_set_of_pick tdiEventHandlers h.refers hi hlt hroutine hpick
        refine ⟨m', hserve, ?_, fun b r hr => ?_⟩
        · rwa [hgrants, if_neg Bool.false_ne_true] at hrefers
        · rcases (hpool b r).mp hr with ⟨-, rfl⟩ | ⟨-, hr⟩
          · exact ⟨rfl, held_newRecord.mpr hnone⟩
          · exact h.record b r hr
    · refine ⟨m, ?_, h⟩
      rw [EventHandlerManager.serve, setEventHandler_of_ge _ (not_lt.mp hlt)]
      rfl

/-- A request that is not refused leaves a record with a wrong number, or a record without handlers in
the map. -/
theorem Unused.not_consistent (h : m.Unused) (hrefused : ¬ Refused tdiEventHandlers m request)
    {m' : EventHandlerManager}
    (hserve : EventHandlerManager.serve tdiEventHandlers m request = .ok m') : ¬ m'.Consistent := by
  cases request with
  | remove node hooked => exact absurd trivial hrefused
  | set node original alloc =>
    simp only [Refused, not_or, not_and, not_le, not_exists] at hrefused
    obtain ⟨hlt, hroutine, hmemory⟩ := hrefused
    have hnonneg : 0 ≤ original.eventType := by
      by_contra hneg
      rw [EventHandlerManager.serve, setEventHandler_of_neg _ (by omega)] at hserve
      cases hserve
    obtain ⟨hpick, htaken⟩ := hmemory hnonneg
    obtain ⟨a, ha⟩ := Option.ne_none_iff_exists'.mp hpick
    obtain ⟨i, hi, hval⟩ := slot_of_lt hnonneg hlt
    obtain ⟨m₁, hserve₁, hrefers, hpool⟩ :=
      serve_set_of_pick tdiEventHandlers h.refers hi hlt (hroutine i hval) ha
    obtain rfl : m₁ = m' := Except.ok.inj (hserve₁.symm.trans hserve)
    intro hconsistent
    have hcounted := hconsistent.counted a _ ((hpool a _).mpr (.inl ⟨rfl, rfl⟩))
    have hnone : original.eventHandler = none := held_newRecord.mp hcounted.symm
    have hgrants : m.table.grants node.1 alloc.pool = true := by simpa using htaken hnone
    rw [hgrants, if_pos rfl] at hrefers
    have hfind := hrefers.find node.1
    rw [Function.update_self] at hfind
    obtain ⟨b, r, hr, -, hheld⟩ := (hconsistent.mapped node).mp ⟨a, hfind⟩
    rcases (hpool b r).mp hr with ⟨-, rfl⟩ | ⟨-, hr⟩
    · exact hheld.ne' (held_newRecord.mpr hnone)
    · exact hheld.ne' (h.record b r hr).2

/-- The numbers are right along a run exactly if no handler is set in it. -/
theorem consistent_iff (tdiEventHandlers : HandlerTable) (requests : List Request) :
    Trace.Always (fun pre => ∃ m, run tdiEventHandlers pre = .ok m ∧ m.Consistent) requests ↔
      Trace.EachStep (fun pre request => ∃ m, run tdiEventHandlers pre = .ok m ∧
        Refused tdiEventHandlers m request) requests := by
  refine Trace.always_iff_eachStep (I := fun pre => ∃ m, run tdiEventHandlers pre = .ok m ∧ m.Unused)
    ⟨RecordMap.initialise, rfl, RecordMap.Refers.initialise, fun _ _ h => by cases h⟩ ?_ ?_ ?_ requests
  · rintro pre request ⟨m, hrun, hunused⟩ ⟨m', hrun', hrefused⟩
    obtain rfl : m = m' := Except.ok.inj (hrun.symm.trans hrun')
    obtain ⟨m₁, hserve, hunused₁⟩ := hunused.serve tdiEventHandlers hrefused
    refine ⟨m₁, ?_, hunused₁⟩
    rw [run] at hrun
    rw [run, Trace.foldlM_snoc, hrun]
    exact hserve
  · rintro pre ⟨m, hrun, hunused⟩
    exact ⟨m, hrun, hunused.consistent⟩
  · rintro pre request ⟨m, hrun, hunused⟩ hrefused ⟨m', hrun', hconsistent⟩
    obtain ⟨m₁, hrun₁, hserve⟩ := Trace.foldlM_snoc_ok hrun'
    obtain rfl : m = m₁ := Except.ok.inj (hrun.symm.trans hrun₁)
    exact hunused.not_consistent tdiEventHandlers (fun h => hrefused ⟨m, hrun, h⟩) hserve hconsistent

/-- Memory is always available, at given addresses. -/
def available (record pair : Addr) : Allocation := ⟨Heap.Allocator.give record, true, Heap.Allocator.give pair⟩

/-- The handler at the address 16 for the event of type 0. -/
def setConnect : Request := .set ⟨4, by decide⟩ ⟨0, some 16, none⟩ (available 32 64)

theorem not_consistent_setConnect :
    ¬ Trace.Always (fun pre => ∃ m, run (fun _ => some 128) pre = .ok m ∧ m.Consistent) [setConnect] := by
  intro h
  obtain ⟨m, hrun, hconsistent⟩ := h [setConnect] (List.prefix_refl _)
  have hunused : Unused RecordMap.initialise := ⟨RecordMap.Refers.initialise, fun _ _ h => by cases h⟩
  have htaken : ¬ Refused (fun _ => some 128) RecordMap.initialise setConnect := by
    simp [Refused, setConnect, available, tdiEventHandlersMax, RecordMap.initialise, Heap.Allocator.give]
  exact hunused.not_consistent (fun _ => some 128) htaken hrun hconsistent

end EventHandlerManager

end CaptureHpc
