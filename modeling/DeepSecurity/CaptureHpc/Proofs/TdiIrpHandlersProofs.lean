import DeepSecurity.CaptureHpc.Proofs.ConnectionViewProofs
import DeepSecurity.CaptureHpc.Proofs.EventHandlerManagerProofs

/-!
# Proofs: who owns a connection

What each handler does to the view of the connections. No connection is freed twice and no node has one
that has been freed; a connection is lost exactly when it is created for no node or in the place of
another one.
-/

namespace CaptureHpc

namespace Tdi

namespace ConnectionManager

def view (m : ConnectionManager) : View where
  connections := m.connections
  memory := m.connectionsPool.map Memory.times
  eventHandlerManager := m.eventHandlerManager

variable {m : ConnectionManager} {v : View} {ptr : UInt32 → Pointer} {node : FileObject} {a : Addr}
  {r : ConnectionNode} {c : ℕ}

/-! ## The functions on views -/

theorem view_memory_getElem? (c : ℕ) :
    m.view.memory[c]? = some none ↔ ∃ connection, m.connectionsPool[c]? = some (.allocated connection) := by
  rw [view, List.getElem?_map, Option.map_eq_some_iff]
  constructor
  · rintro ⟨memory, hmemory, htimes⟩
    cases memory with
    | allocated connection => exact ⟨connection, hmemory⟩
    | freed times => cases htimes
  · rintro ⟨connection, hconnection⟩
    exact ⟨_, hconnection, rfl⟩

theorem modifyConnection_view (hv : m.view = v) (h : v.memory[c]? = some none)
    (f : Connection → Connection) : ∃ m', m.modifyConnection c f = .ok m' ∧ m'.view = v := by
  subst hv
  obtain ⟨connection, hconnection⟩ := (view_memory_getElem? c).mp h
  refine ⟨{ m with connectionsPool := m.connectionsPool.set c (.allocated (f connection)) }, ?_, ?_⟩
  · rw [modifyConnection, hconnection]
    rfl
  · obtain ⟨hlt, hget⟩ := List.getElem?_eq_some_iff.mp h
    have hset : m.view.memory.set c none = m.view.memory := by
      rw [← hget, List.set_getElem_self]
    simp only [view, List.map_set]
    exact congrArg (View.mk m.connections · m.eventHandlerManager) hset

theorem setLocalNode_view (hv : m.view = v) (h : v.memory[c]? = some none) (node : Option FileObject) :
    ∃ m', m.setLocalNode (some c) node = .ok m' ∧ m'.view = v := modifyConnection_view hv h _

theorem setRemoteNode_view (hv : m.view = v) (h : v.memory[c]? = some none) (node : Option FileObject) :
    ∃ m', m.setRemoteNode (some c) node = .ok m' ∧ m'.view = v := modifyConnection_view hv h _

theorem setProcessId_view (hv : m.view = v) (h : v.memory[c]? = some none) (processId : UInt32) :
    ∃ m', m.setProcessId (some c) processId = .ok m' ∧ m'.view = v := modifyConnection_view hv h _

theorem setConnectionState_view (hv : m.view = v) (connection : Option ℕ)
    (h : ∀ c, connection = some c → v.memory[c]? = some none) (state : TcpState) :
    ∃ m', m.setConnectionState connection state = .ok m' ∧ m'.view = v := by
  cases connection with
  | none => exact ⟨m, rfl, hv⟩
  | some c => exact modifyConnection_view hv (h c rfl) _

theorem createConnection_view (m : ConnectionManager) (x : Connection) :
    ∃ m', m.createConnection (some x) = (some m.view.memory.length, m') ∧ m'.view = m.view.create := by
  refine ⟨(m.createConnection (some x)).2, ?_, ?_⟩
  · simp [createConnection, view]
  · simp [createConnection, view, View.create, Memory.times]

theorem removeConnection_view (m : ConnectionManager) (c : ℕ) :
    (m.removeConnection (some c)).view = m.view.free c := by
  have hmodify : (m.connectionsPool.modify c Memory.free).map Memory.times =
      (m.connectionsPool.map Memory.times).modify c fun times => some (times.getD 0 + 1) := by
    refine List.ext_getElem? fun d => ?_
    simp only [List.getElem?_map, List.getElem?_modify]
    cases m.connectionsPool[d]? with
    | none => rfl
    | some memory => cases memory <;> by_cases hcd : c = d <;> simp [Memory.free, Memory.times, hcd]
  simp only [removeConnection, view, View.free, hmodify]

theorem setNodeConnection_view (hv : m.view = v) (hr : v.connections.pool a = some r)
    (connection : Option ℕ) :
    ∃ m', m.setNodeConnection a connection = .ok m' ∧ m'.view = v.setConnection a r connection := by
  subst hv
  refine ⟨{ m with connections := ⟨m.connections.table,
    m.connections.pool.write a { r with connection }⟩ }, ?_, rfl⟩
  have hmodify : m.connections.pool.modify a (fun r => { r with connection }) =
      .ok (m.connections.pool.write a { r with connection }) := Heap.modify_eq_ok hr _
  rw [setNodeConnection, hmodify]
  rfl

/-! ## Nodes -/

theorem findNode_eq (h : m.view.Inv ptr) (node : FileObject) : m.findNode node = .ok (ptr node.1) :=
  h.refers.find node.1

theorem read_node (hv : m.view = v) (hr : v.connections.pool a = some r) :
    m.connections.pool.read a = .ok r := by
  subst hv
  exact Heap.read_eq_ok hr

theorem known_iff (h : m.view.Inv ptr) : m.Known node ↔ ptr node.1 ≠ none := by
  rw [Known, findNode_eq h, Option.ne_none_iff_exists']
  simp

theorem getConnection_eq (h : m.view.Inv ptr) (ha : ptr node.1 = some a)
    (hr : m.view.connections.pool a = some r) : m.getConnection node = .ok r.connection := by
  simp only [getConnection, findNode_eq h, ha, read_node rfl hr, bind, Except.bind, pure, Except.pure]

theorem not_connected (h : m.view.Inv ptr) (hnone : ptr node.1 = none) : ¬ m.Connected node := by
  rintro ⟨c, hc⟩
  rw [getConnection, findNode_eq h, hnone] at hc
  cases hc

theorem connected_iff (h : m.view.Inv ptr) (ha : ptr node.1 = some a)
    (hr : m.view.connections.pool a = some r) : m.Connected node ↔ r.connection ≠ none := by
  rw [Connected, getConnection_eq h ha hr, Option.ne_none_iff_exists']
  simp

/-! ## New connections -/

section

variable (x : Connection) (processId : UInt32)

theorem connectUdp_view (hr : m.view.connections.pool a = some r) :
    ∃ m', m.connectUdp a (some x) processId = .ok m' ∧ m'.view = m.view.attach a r := by
  have hmemory := m.view.create_memory
  obtain ⟨m₁, h₁, hv₁⟩ := createConnection_view m x
  obtain ⟨m₂, h₂, hv₂⟩ := setLocalNode_view hv₁ hmemory (some r.node)
  obtain ⟨m₃, h₃, hv₃⟩ := setRemoteNode_view hv₂ hmemory (some r.node)
  obtain ⟨m₄, h₄, hv₄⟩ := setProcessId_view hv₃ hmemory processId
  obtain ⟨m₅, h₅, hv₅⟩ := setNodeConnection_view hv₄ hr (some m.view.memory.length)
  refine ⟨m₅, ?_, hv₅⟩
  simp only [connectUdp, h₁, read_node hv₁ hr, h₂, h₃, h₄, h₅, bind, Except.bind]

theorem sendUnconnected_view (hr : m.view.connections.pool a = some r) :
    ∃ m', m.sendUnconnected a (some x) processId = .ok m' ∧ m'.view = m.view.attach a r := by
  have hmemory := m.view.attach_memory a r
  obtain ⟨m₁, h₁, hv₁⟩ := createConnection_view m x
  obtain ⟨m₂, h₂, hv₂⟩ := setNodeConnection_view hv₁ hr (some m.view.memory.length)
  obtain ⟨m₃, h₃, hv₃⟩ := setLocalNode_view hv₂ hmemory (some r.node)
  obtain ⟨m₄, h₄, hv₄⟩ := setRemoteNode_view hv₃ hmemory none
  obtain ⟨m₅, h₅, hv₅⟩ := setProcessId_view hv₄ hmemory processId
  refine ⟨m₅, ?_, hv₅⟩
  simp only [sendUnconnected, h₁, h₂, read_node hv₂ (View.attach_pool a r), h₃, h₄, h₅, bind, Except.bind]

/-- The state of a new connection is set. -/
theorem setState_attach {m' : ConnectionManager} (hv : m'.view = m.view.attach a r) (state : TcpState) :
    ∃ m'', m'.setConnectionState (some m.view.memory.length) state = .ok m'' ∧
      m''.view = m.view.attach a r :=
  setConnectionState_view hv _ (fun _ hc => Option.some.inj hc ▸ m.view.attach_memory a r) state

/-- The node is in the map. -/
theorem addConnectionNode_of_some (h : m.view.connections.Refers ptr) (ha : ptr node.1 = some a)
    (connection : Option ℕ) (alloc : NodeAllocation) :
    m.addConnectionNode connection node alloc = .ok m := by
  obtain ⟨p, hfind, hiff⟩ := h.find_pair node.1
  have hfind' : m.connections.table.findHashMap node.1 = .ok p := hfind
  rw [ha] at hiff
  obtain ⟨b, rfl⟩ := Option.isSome_iff_exists.mp (hiff.mpr rfl)
  simp only [addConnectionNode, hfind', bind, Except.bind, pure, Except.pure]

theorem listen_view (h : m.view.Inv ptr) (ha : ptr node.1 = some a)
    (hr : m.view.connections.pool a = some r) (localAlloc remoteAlloc : NodeAllocation) :
    ∃ m', m.listen node a localAlloc remoteAlloc (some x) processId = .ok m' ∧
      m'.view = m.view.attach a r := by
  have hmemory := m.view.create_memory
  have hadd {m' : ConnectionManager} (hv : m'.view = m.view.create) (alloc : NodeAllocation) :
      m'.addConnectionNode (some m.view.memory.length) node alloc = .ok m' :=
    addConnectionNode_of_some (hv ▸ h.refers) ha _ alloc
  obtain ⟨m₁, h₁, hv₁⟩ := createConnection_view m x
  obtain ⟨m₂, h₂, hv₂⟩ := setProcessId_view hv₁ hmemory processId
  obtain ⟨m₃, h₃, hv₃⟩ := setLocalNode_view hv₂ hmemory (some node)
  obtain ⟨m₄, h₄, hv₄⟩ := setRemoteNode_view hv₃ hmemory (some node)
  obtain ⟨m₅, h₅, hv₅⟩ := setNodeConnection_view hv₄ hr (some m.view.memory.length)
  obtain ⟨m₆, h₆, hv₆⟩ := setState_attach hv₅ .tcpStateListen
  refine ⟨m₆, ?_, hv₆⟩
  simp only [listen, h₁, h₂, setLocalConnectionNode, h₃, hadd hv₃, setRemoteConnectionNode, h₄, hadd hv₄,
    h₅, h₆, bind, Except.bind]

end

/-! ## The handlers -/

/-- What a handler can do: stop the machine without losing a connection, or come to a state in which a
connection is lost exactly if `leak` says so. -/
def Outcome (m : ConnectionManager) (leak : Prop) (x : Checked ConnectionManager) : Prop :=
  x = Checked.drop ∧ ¬ leak ∨
    ∃ m' ptr, x = .ok m' ∧ m'.view.Inv ptr ∧ (m.view.NoLeak → (m'.view.NoLeak ↔ ¬ leak))

section

variable {leak : Prop} {x : Checked ConnectionManager}

theorem Outcome.same (h : m.view.Inv ptr) (hleak : ¬ leak) (m' : ConnectionManager) (hx : x = .ok m')
    (hview : m'.view = m.view) : Outcome m leak x := by
  refine .inr ⟨m', ptr, hx, hview ▸ h, fun hnoLeak => ?_⟩
  rw [hview]
  exact iff_of_true hnoLeak hleak

theorem Outcome.of_withEvents {e : EventHandlerManager}
    (h : Outcome { m with eventHandlerManager := e } leak x) : Outcome m leak x := h

theorem Outcome.attach (h : m.view.Inv ptr) (ha : ptr node.1 = some a)
    (hr : m.view.connections.pool a = some r) (hleak : leak ↔ r.connection ≠ none)
    (m' : ConnectionManager) (hx : x = .ok m') (hview : m'.view = m.view.attach a r) :
    Outcome m leak x := by
  refine .inr ⟨m', ptr, hx, hview ▸ h.attach ha hr, fun hnoLeak => ?_⟩
  rw [hview, h.noLeak_attach hr hnoLeak, hleak, not_not]

end

theorem tdiCreateHandler_outcome (h : m.view.Inv ptr) (object : ObjectType) (alloc : NodeAllocation) :
    Outcome m False (m.tdiCreateHandler node object alloc) := by
  have hadd : Outcome m False (m.addConnectionNode none node alloc) := by
    cases ha : ptr node.1 with
    | some a => exact .same h id m (addConnectionNode_of_some h.refers ha none alloc) rfl
    | none =>
      obtain ⟨p, hfind, hiff⟩ := h.refers.find_pair node.1
      have hfind' : m.connections.table.findHashMap node.1 = .ok none := by
        rw [ha] at hiff
        have hnone : p = none := by simpa using hiff
        rw [← hnone]
        exact hfind
      cases hpick : alloc.record.pick m.connections.pool with
      | none =>
        refine .same h id m ?_ rfl
        simp only [addConnectionNode, hfind', hpick, bind, Except.bind, pure, Except.pure]
      | some a =>
        have hfresh := alloc.record.fresh _ _ hpick
        obtain ⟨table, hinsert, hrefers⟩ := h.refers.insert ha hfresh ⟨node, none⟩ alloc.pool
        have hinsert' : m.connections.table.insertHashMap node.1 (some a) alloc.pool =
          .ok (m.connections.table.grants node.1 alloc.pool, table) := hinsert
        refine .inr ⟨{ m with connections := ⟨table, m.connections.pool.write a ⟨node, none⟩⟩ }, _, ?_,
          h.addNode hfresh hrefers (fun key b hb => ?_) (fun key b hb => ?_), fun hnoLeak => ?_⟩
        · simp only [addConnectionNode, hfind', hpick, hinsert', bind, Except.bind, pure, Except.pure]
        · split_ifs
          · have hne : key ≠ node.1 := by
              rintro rfl
              rw [ha] at hb
              cases hb
            rwa [Function.update_of_ne hne]
          · exact hb
        · split_ifs at hb
          · by_cases hkey : key = node.1
            · subst hkey
              rw [Function.update_self, Option.some_inj] at hb
              exact .inl ⟨rfl, hb.symm⟩
            · rw [Function.update_of_ne hkey] at hb
              exact .inr hb
          · exact .inr hb
        · exact iff_of_true (View.noLeak_addNode hfresh hnoLeak) id
  cases object with
  | controlChannel => exact .same h id m rfl rfl
  | transportAddress => exact hadd
  | connectionContext => exact hadd
  | other => exact .same h id m rfl rfl

theorem tdiAssociateAddressHandler_outcome (h : m.view.Inv ptr) (remoteNode : FileObject)
    (localNode : Option FileObject) (memory : Option Connection) (processId : UInt32) :
    Outcome m (m.Leaks (.associate remoteNode localNode memory processId))
      (m.tdiAssociateAddressHandler remoteNode localNode memory processId) := by
  cases localNode with
  | none => exact .same h id m rfl rfl
  | some localNode =>
    cases memory with
    | none =>
      refine .same h id m ?_ rfl
      simp only [tdiAssociateAddressHandler, findNode_eq h, createConnection, bind, Except.bind, pure,
        Except.pure]
    | some x =>
      obtain ⟨m₁, h₁, hv₁⟩ := createConnection_view m x
      by_cases hknown : m.Known remoteNode ∧ m.Known localNode
      · rw [known_iff h, known_iff h] at hknown
        obtain ⟨a, ha⟩ := Option.ne_none_iff_exists'.mp hknown.1
        obtain ⟨b, hb⟩ := Option.ne_none_iff_exists'.mp hknown.2
        obtain ⟨r, hr⟩ := h.refers.exists_record ha
        have hmemory := m.view.create_memory
        obtain ⟨m₂, h₂, hv₂⟩ := setLocalNode_view hv₁ hmemory (some localNode)
        obtain ⟨m₃, h₃, hv₃⟩ := setRemoteNode_view hv₂ hmemory (some remoteNode)
        obtain ⟨m₄, h₄, hv₄⟩ := setNodeConnection_view hv₃ hr (some m.view.memory.length)
        obtain ⟨m₅, h₅, hv₅⟩ := setProcessId_view hv₄ (m.view.attach_memory a r) processId
        refine .attach h ha hr ?_ m₅ ?_ hv₅
        · rw [Leaks, known_iff h, known_iff h, connected_iff h ha hr]
          simp [hknown]
        · simp only [tdiAssociateAddressHandler, findNode_eq h, ha, hb, h₁, h₂, h₃, h₄, h₅, bind,
            Except.bind]
      · -- the new connection is not given to a node
        refine .inr ⟨m₁, ptr, ?_, hv₁ ▸ h.create, fun _ => ?_⟩
        · rw [known_iff h, known_iff h, not_and_or, not_not, not_not] at hknown
          simp only [tdiAssociateAddressHandler, findNode_eq h, h₁, bind, Except.bind]
          cases ha : ptr remoteNode.1 with
          | none => rfl
          | some a =>
            rw [hknown.resolve_left (by simp [ha])]
            rfl
        · rw [hv₁]
          exact iff_of_false h.not_noLeak_create (not_not.mpr (.inl hknown))

theorem tdiConnectHandler_outcome (h : m.view.Inv ptr) (node : FileObject)
    (memory : Option Connection) (processId : UInt32) :
    Outcome m (m.Leaks (.connect node memory processId)) (m.tdiConnectHandler node memory processId) := by
  cases ha : ptr node.1 with
  | none =>
    refine .same h ?_ m ?_ rfl
    · cases memory with
      | none => exact id
      | some x => exact fun hleak => not_connected h ha hleak.2
    · simp only [tdiConnectHandler, findNode_eq h, ha, bind, Except.bind, pure, Except.pure]
  | some a =>
    obtain ⟨r, hr⟩ := h.refers.exists_record ha
    cases hdevice : m.deviceType with
    | tcp =>
      obtain ⟨m₁, h₁, hv₁⟩ := setConnectionState_view rfl r.connection
        (fun c hc => h.valid c ⟨a, r, hr, hc⟩) .tcpStateSynSent
      refine .same h ?_ m₁ ?_ hv₁
      · cases memory with
        | none => exact id
        | some x =>
          rintro ⟨hudp, -⟩
          rw [hdevice] at hudp
          cases hudp
      · simp only [tdiConnectHandler, findNode_eq h, ha, hdevice, read_node rfl hr, h₁, bind, Except.bind]
    | udp =>
      cases memory with
      | none =>
        refine .inl ⟨?_, id⟩
        simp only [tdiConnectHandler, findNode_eq h, ha, hdevice, connectUdp, createConnection,
          read_node rfl hr, setLocalNode, deref, Checked.drop, bind, Except.bind]
      | some x =>
        obtain ⟨m₁, h₁, hv₁⟩ := connectUdp_view x processId hr
        obtain ⟨m₂, h₂, hv₂⟩ := setState_attach hv₁ .udpStateConnect
        refine .attach h ha hr ?_ m₂ ?_ hv₂
        · rw [Leaks, connected_iff h ha hr]
          simp [hdevice]
        · simp only [tdiConnectHandler, findNode_eq h, ha, hdevice, h₁, read_node hv₁ (View.attach_pool a r), h₂, bind,
            Except.bind]

theorem tdiSendDatagramHandler_outcome (h : m.view.Inv ptr) (node : FileObject)
    (memory : Option Connection) (processId : UInt32) :
    Outcome m False (m.tdiSendDatagramHandler node memory processId) := by
  cases ha : ptr node.1 with
  | none =>
    refine .same h id m ?_ rfl
    simp only [tdiSendDatagramHandler, findNode_eq h, ha, bind, Except.bind, pure, Except.pure]
  | some a =>
    obtain ⟨r, hr⟩ := h.refers.exists_record ha
    cases hconnection : r.connection with
    | some c =>
      obtain ⟨m₁, h₁, hv₁⟩ := setConnectionState_view rfl (some c)
        (fun c' hc' => h.valid c' ⟨a, r, hr, hconnection.trans hc'⟩) .udpStateSendDatagram
      refine .same h id m₁ ?_ hv₁
      simp only [tdiSendDatagramHandler, findNode_eq h, ha, read_node rfl hr, hconnection, h₁, bind,
        Except.bind]
    | none =>
      cases memory with
      | none =>
        obtain ⟨m₁, h₁, hv₁⟩ := setNodeConnection_view rfl hr none
        have hread : m₁.connections.pool.read a = .ok { r with connection := none } :=
          read_node hv₁ Heap.write_self
        refine .inl ⟨?_, id⟩
        simp only [tdiSendDatagramHandler, findNode_eq h, ha, read_node rfl hr, hconnection, sendUnconnected,
          createConnection, h₁, hread, setLocalNode, deref, Checked.drop, bind, Except.bind]
      | some x =>
        obtain ⟨m₁, h₁, hv₁⟩ := sendUnconnected_view x processId hr
        obtain ⟨m₂, h₂, hv₂⟩ := setState_attach hv₁ .udpStateSendDatagram
        refine .attach h ha hr (by simp [hconnection]) m₂ ?_ hv₂
        simp only [tdiSendDatagramHandler, findNode_eq h, ha, read_node rfl hr, hconnection, h₁,
          read_node hv₁ (View.attach_pool a r), h₂, bind, Except.bind]

theorem tdiDisassociateAddressHandler_outcome (h : m.view.Inv ptr) (node : FileObject) :
    Outcome m False (m.tdiDisassociateAddressHandler node) := by
  cases ha : ptr node.1 with
  | none =>
    refine .same h id m ?_ rfl
    simp only [tdiDisassociateAddressHandler, getConnection, findNode_eq h, ha, bind, Except.bind, pure,
      Except.pure]
  | some a =>
    obtain ⟨r, hr⟩ := h.refers.exists_record ha
    cases hconnection : r.connection with
    | none =>
      refine .same h id m ?_ rfl
      simp only [tdiDisassociateAddressHandler, getConnection_eq h ha hr, hconnection, bind, Except.bind,
        pure, Except.pure]
    | some c =>
      have hheld : m.view.Held c := ⟨a, r, hr, hconnection⟩
      have hmemory := h.valid c hheld
      obtain ⟨m₁, h₁, hv₁⟩ := modifyConnection_view rfl hmemory fun x =>
        { x with
          localNode := if x.localNode = some node then none else x.localNode
          remoteNode := if x.remoteNode = some node then none else x.remoteNode }
      obtain ⟨m₂, h₂, hv₂⟩ := setNodeConnection_view hv₁ hr none
      have hinv : m₂.view.Inv ptr := hv₂ ▸ h.setConnection ha hr (by simp)
      have hheld₂ (d : ℕ) : m₂.view.Held d ↔ m.view.Held d ∧ d ≠ c := by
        rw [hv₂, View.held_setConnection h hr, hconnection]
        simp [eq_comm]
      have hmemory₂ : m₂.view.memory = m.view.memory := by rw [hv₂]; rfl
      refine .inr ⟨m₂.removeConnection (some c), ptr, ?_, ?_, fun hnoLeak => ?_⟩
      · simp only [tdiDisassociateAddressHandler, getConnection_eq h ha hr, hconnection,
          releaseConnectionNode, h₁, findNode_eq (hv₁ ▸ h), ha, h₂, bind, Except.bind, pure, Except.pure]
      · rw [removeConnection_view]
        exact hinv.free (hmemory₂ ▸ hmemory) fun hc => ((hheld₂ c).mp hc).2 rfl
      · rw [removeConnection_view]
        refine iff_of_true (View.noLeak_free fun d hd hmem => ?_) id
        exact (hheld₂ d).mpr ⟨hnoLeak d (hmemory₂ ▸ hmem), hd⟩

theorem tdiCloseHandler_outcome (h : m.view.Inv ptr) (node : FileObject) :
    Outcome m False (m.tdiCloseHandler node) := by
  cases ha : ptr node.1 with
  | none =>
    refine .same h id m ?_ rfl
    simp only [tdiCloseHandler, removeConnectionNode, findNode_eq h, ha, bind, Except.bind, pure,
      Except.pure]
  | some a =>
    obtain ⟨r, hr⟩ := h.refers.exists_record ha
    obtain ⟨table, hremove, hrefers⟩ := h.refers.remove ha
    have hremove' (connection : Option ℕ) :
        (m.removeConnection connection).connections.table.removeHashMap node.1 = .ok (true, table) := by
      cases connection <;> exact hremove
    have hinv := h.removeNode ha hr hrefers
    obtain ⟨m', hclose, hview⟩ : ∃ m', m.tdiCloseHandler node = .ok m' ∧
        m'.view = r.connection.elim (m.view.removeNode table a) (m.view.removeNode table a).free := by
      refine ⟨{ m.removeConnection r.connection with
        connections := ⟨table, (m.removeConnection r.connection).connections.pool.free a⟩ }, ?_, ?_⟩
      · simp only [tdiCloseHandler, removeConnectionNode, findNode_eq h, ha, read_node rfl hr, hremove', bind,
          Except.bind, pure, Except.pure]
      · cases r.connection with
        | none => rfl
        | some c => exact congrArg (View.removeNode · table a) (removeConnection_view m c)
    cases hconnection : r.connection with
    | none =>
      rw [hconnection, Option.elim_none] at hview
      refine .inr ⟨m', _, hclose, hview ▸ hinv, fun hnoLeak => ?_⟩
      rw [hview]
      refine iff_of_true (fun c hc => (View.held_removeNode h hr).mpr ⟨hnoLeak c hc, ?_⟩) id
      simp [hconnection]
    | some c =>
      rw [hconnection, Option.elim_some] at hview
      have hmemory := h.valid c ⟨a, r, hr, hconnection⟩
      have hnotHeld : ¬ (m.view.removeNode table a).Held c := fun hc =>
        ((View.held_removeNode h hr).mp hc).2 hconnection
      refine .inr ⟨m', _, hclose, hview ▸ hinv.free hmemory hnotHeld, fun hnoLeak => ?_⟩
      rw [hview]
      refine iff_of_true (View.noLeak_free fun d hd hmem => ?_) id
      refine (View.held_removeNode h hr).mpr ⟨hnoLeak d hmem, ?_⟩
      rw [hconnection]
      exact fun heq => hd (Option.some.inj heq).symm

theorem listen_outcome (h : m.view.Inv ptr) (ha : ptr node.1 = some a)
    (localAlloc remoteAlloc : NodeAllocation) (memory : Option Connection) (processId : UInt32) :
    Outcome m (memory.isSome ∧ m.Connected node)
      (m.listen node a localAlloc remoteAlloc memory processId) := by
  obtain ⟨r, hr⟩ := h.refers.exists_record ha
  cases memory with
  | none =>
    refine .inl ⟨?_, by simp⟩
    simp only [listen, createConnection, setLocalConnectionNode, setLocalNode, deref, Checked.drop, bind,
      Except.bind, pure, Except.pure]
  | some x =>
    obtain ⟨m₁, h₁, hv₁⟩ := listen_view x processId h ha hr localAlloc remoteAlloc
    refine .attach h ha hr ?_ m₁ h₁ hv₁
    simp [connected_iff h ha hr]

theorem tdiSetEventHandler_outcome (h : m.view.Inv ptr)
    (tdiEventHandlers : HandlerTable) (node : FileObject) (event : SetEvent)
    (alloc : EventHandlerManager.Allocation) (localAlloc remoteAlloc : NodeAllocation)
    (memory : Option Connection) (processId : UInt32)
    (hbounds : ¬ m.OutOfBounds (.setEvent node event alloc localAlloc remoteAlloc memory processId)) :
    Outcome m (m.Leaks (.setEvent node event alloc localAlloc remoteAlloc memory processId))
      (m.tdiSetEventHandler tdiEventHandlers node event alloc localAlloc remoteAlloc memory processId) := by
  obtain ⟨eventPtr, hevents⟩ := h.events
  have hfindEvents : m.eventHandlerManager.table.findHashMapValue node.1 = .ok (eventPtr node.1) :=
    hevents.find node.1
  rw [OutOfBounds, not_and_or, not_or, not_lt] at hbounds
  cases hremoves : removes event with
  | true =>
    obtain ⟨e, eventPtr', hremove, hevents'⟩ : ∃ e eventPtr',
        m.eventHandlerManager.removeEventHandler event node = .ok e ∧ e.Refers eventPtr' := by
      rcases hbounds with hnonneg | ⟨-, hnone⟩
      · exact EventHandlerManager.removeEventHandler_refers hevents hnonneg
      · rw [hfindEvents] at hnone
        have hnone' : eventPtr node.1 = none := by
          cases hptr : eventPtr node.1 with
          | none => rfl
          | some a => exact absurd ⟨a, by rw [hptr]⟩ hnone
        exact ⟨_, eventPtr, EventHandlerManager.removeEventHandler_of_none hevents hnone', hevents⟩
    refine .inr ⟨{ m with eventHandlerManager := e }, ptr, ?_, h.withEvents hevents', fun hnoLeak => ?_⟩
    · simp only [tdiSetEventHandler, hremoves, if_true, hremove, bind, Except.bind, pure, Except.pure]
    · refine iff_of_true hnoLeak ?_
      cases memory with
      | none => exact id
      | some x =>
        rintro ⟨hsets, -⟩
        rw [hremoves] at hsets
        cases hsets
  | false =>
    have hnonneg : 0 ≤ event.eventType := hbounds.resolve_right fun hor => hor.1 hremoves
    obtain ⟨request, e, eventPtr', hset, hevents', htype⟩ : ∃ request e eventPtr',
        m.eventHandlerManager.setEventHandler tdiEventHandlers event node alloc = .ok (request, e) ∧
          e.Refers eventPtr' ∧ request.eventType = event.eventType :=
      EventHandlerManager.setEventHandler_refers tdiEventHandlers hevents hnonneg
    -- the rest of the handler does not look at the handlers of events
    have h₁ : View.Inv (view { m with eventHandlerManager := e }) ptr := h.withEvents hevents'
    have hfind : findNode { m with eventHandlerManager := e } node = .ok (ptr node.1) := findNode_eq h₁ node
    have hleaks : m.Leaks (.setEvent node event alloc localAlloc remoteAlloc memory processId) ↔
        event.eventType = tdiEventConnect ∧ memory.isSome ∧ m.Connected node := by
      cases memory with
      | none => simp [Leaks]
      | some x => simp [Leaks, hremoves]
    rw [hleaks]
    by_cases hconnect : event.eventType = tdiEventConnect
    · simp only [tdiSetEventHandler, hremoves, hset, htype, hconnect, hfind, Bool.false_eq_true, if_false,
        if_true, true_and, bind, Except.bind]
      cases ha : ptr node.1 with
      | none => exact .of_withEvents (.same h₁ (fun hleak => not_connected h ha hleak.2) _ rfl rfl)
      | some a => exact .of_withEvents (listen_outcome h₁ ha localAlloc remoteAlloc memory processId)
    · simp only [tdiSetEventHandler, hremoves, hset, htype, hconnect, Bool.false_eq_true, if_false,
        bind, Except.bind]
      exact .of_withEvents (.same h₁ (fun hleak => hleak.1) _ rfl rfl)

/-! ## Runs -/

variable (tdiEventHandlers : HandlerTable) {request : Request}

theorem serve_outcome (h : m.view.Inv ptr) (hbounds : ¬ m.OutOfBounds request) :
    Outcome m (m.Leaks request) (m.serve tdiEventHandlers request) := by
  cases request with
  | create node object alloc => exact tdiCreateHandler_outcome h object alloc
  | associate remoteNode localNode memory processId =>
    exact tdiAssociateAddressHandler_outcome h remoteNode localNode memory processId
  | connect node memory processId => exact tdiConnectHandler_outcome h node memory processId
  | setEvent node event alloc localAlloc remoteAlloc memory processId =>
    exact tdiSetEventHandler_outcome h tdiEventHandlers node event alloc localAlloc remoteAlloc memory
      processId hbounds
  | sendDatagram node memory processId => exact tdiSendDatagramHandler_outcome h node memory processId
  | disassociate node => exact tdiDisassociateAddressHandler_outcome h node
  | close node => exact tdiCloseHandler_outcome h node

theorem serve_of_outOfBounds (h : m.view.Inv ptr) (hbounds : m.OutOfBounds request) :
    m.serve tdiEventHandlers request = Checked.fault := by
  cases request with
  | setEvent node event alloc localAlloc remoteAlloc memory processId =>
    obtain ⟨hneg, hused⟩ := hbounds
    obtain ⟨eventPtr, hevents⟩ := h.events
    simp only [serve, tdiSetEventHandler]
    cases hremoves : removes event with
    | true =>
      obtain ⟨a, ha⟩ := hused.resolve_left (by simp [hremoves])
      have hptr : eventPtr node.1 = some a := Except.ok.inj ((hevents.find node.1).symm.trans ha)
      have hremove : m.eventHandlerManager.removeEventHandler event node = Checked.fault :=
        EventHandlerManager.removeEventHandler_of_neg hevents hptr hneg
      rw [if_pos rfl, hremove]
      rfl
    | false =>
      rw [if_neg Bool.false_ne_true, EventHandlerManager.setEventHandler_of_neg _ hneg]
      rfl
  | create node object alloc => cases hbounds
  | associate remoteNode localNode memory processId => cases hbounds
  | connect node memory processId => cases hbounds
  | sendDatagram node memory processId => cases hbounds
  | disassociate node => cases hbounds
  | close node => cases hbounds

/-- Nothing is freed twice, no node has a connection that has been freed, and none is lost. -/
def Good (m : ConnectionManager) : Prop := (∃ ptr, m.view.Inv ptr) ∧ m.view.NoLeak

theorem owned_iff_noLeak (h : m.view.Inv ptr) : m.Owned ↔ m.view.NoLeak := by
  constructor
  · intro howned c hc
    obtain ⟨connection, hconnection⟩ := (view_memory_getElem? c).mp hc
    rcases howned.owner c (List.getElem?_eq_some_iff.mp hconnection).1 with ⟨node, a, r, -, hr, hrc⟩ | hfreed
    · exact ⟨a, r, hr, hrc⟩
    · rw [hconnection] at hfreed
      cases hfreed
  · intro hnoLeak
    refine ⟨fun c hc => ?_, fun a r c hr hrc => (view_memory_getElem? c).mp (h.valid c ⟨a, r, hr, hrc⟩)⟩
    cases hmemory : m.connectionsPool[c] with
    | allocated connection =>
      have hget : m.connectionsPool[c]? = some (.allocated connection) := by
        rw [List.getElem?_eq_getElem hc, hmemory]
      obtain ⟨a, r, hr, hrc⟩ := hnoLeak c ((view_memory_getElem? c).mpr ⟨connection, hget⟩)
      refine .inl ⟨r.node, a, r, ?_, hr, hrc⟩
      rw [findNode_eq h, h.holder a r c hr hrc]
    | freed times =>
      have hget : m.connectionsPool[c]? = some (.freed times) := by
        rw [List.getElem?_eq_getElem hc, hmemory]
      have honce : times = 1 := h.once c times (by rw [view, List.getElem?_map, hget]; rfl)
      exact .inr (by rw [hget, honce])

theorem Good.owned (h : m.Good) : m.Owned := by
  obtain ⟨⟨ptr, hinv⟩, hnoLeak⟩ := h
  exact (owned_iff_noLeak hinv).mpr hnoLeak

theorem Good.serve (h : m.Good) (hsafe : ¬ m.Leaks request ∧ ¬ m.OutOfBounds request) :
    Checked.wp (m.serve tdiEventHandlers request) Good := by
  obtain ⟨⟨ptr, hinv⟩, hnoLeak⟩ := h
  rcases serve_outcome tdiEventHandlers hinv hsafe.2 with ⟨hdrop, -⟩ | ⟨m', ptr', hok, hinv', hiff⟩
  · rw [hdrop]
    trivial
  · rw [hok]
    exact ⟨⟨ptr', hinv'⟩, (hiff hnoLeak).mpr hsafe.1⟩

theorem Good.not_owned (h : m.Good) (hbroken : ¬ (¬ m.Leaks request ∧ ¬ m.OutOfBounds request)) :
    ¬ Checked.wp (m.serve tdiEventHandlers request) Owned := by
  obtain ⟨⟨ptr, hinv⟩, hnoLeak⟩ := h
  by_cases hbounds : m.OutOfBounds request
  · rw [serve_of_outOfBounds tdiEventHandlers hinv hbounds]
    exact id
  · have hleaks : m.Leaks request := by
      by_contra hleaks
      exact hbroken ⟨hleaks, hbounds⟩
    rcases serve_outcome tdiEventHandlers hinv hbounds with ⟨-, hnot⟩ | ⟨m', ptr', hok, hinv', hiff⟩
    · exact absurd hleaks hnot
    · rw [hok, Checked.wp_ok, owned_iff_noLeak hinv', hiff hnoLeak]
      exact not_not.mpr hleaks

theorem good_initialise (deviceType : Protocol) : (initialise deviceType).Good := by
  have hpool {a : Addr} {r : ConnectionNode} (h : (initialise deviceType).connections.pool a = some r) :
      False := by cases h
  refine ⟨⟨fun _ => none, ?_⟩, fun c hc => ?_⟩
  · refine ⟨RecordMap.Refers.initialise, ?_, fun a r c hr _ => (hpool hr).elim,
      fun a _ r _ c hr _ _ _ => (hpool hr).elim, ?_, fun c times hc => ?_, _, RecordMap.Refers.initialise⟩
    · intro key a r _ hr
      exact (hpool hr).elim
    · rintro c ⟨a, r, hr, -⟩
      exact (hpool hr).elim
    · simp [view, initialise] at hc
  · simp [view, initialise] at hc

/-- Along a run every connection is owned exactly if none is created without a node that takes it. A run
that stops the machine has no further states. -/
theorem owned_iff (deviceType : Protocol) (requests : List Request) :
    Trace.Always (fun pre => Checked.wp (run tdiEventHandlers deviceType pre) Owned) requests ↔
      Trace.EachStep (fun pre request => Checked.wp (run tdiEventHandlers deviceType pre) fun m =>
        ¬ m.Leaks request ∧ ¬ m.OutOfBounds request) requests := by
  have hsnoc (pre : List Request) (request : Request) (Q : ConnectionManager → Prop) :
      Checked.wp (run tdiEventHandlers deviceType (pre ++ [request])) Q ↔
        Checked.wp (run tdiEventHandlers deviceType pre) fun m =>
          Checked.wp (m.serve tdiEventHandlers request) Q := by
    rw [run, Trace.foldlM_snoc]
    exact Checked.wp_bind _ _ _
  refine Trace.always_iff_eachStep (I := fun pre => Checked.wp (run tdiEventHandlers deviceType pre) Good)
    (good_initialise deviceType) ?_ ?_ ?_ requests
  · intro pre request hgood hsafe
    rw [hsnoc]
    exact Checked.wp_mono (Checked.wp_and hgood hsafe) fun m _ h => h.1.serve tdiEventHandlers h.2
  · intro pre hgood
    exact Checked.wp_mono hgood fun m _ h => h.owned
  · intro pre request hgood hbroken howned
    rw [hsnoc] at howned
    refine hbroken (Checked.wp_mono (Checked.wp_and hgood howned) fun m _ h => ?_)
    by_contra hnot
    exact h.1.not_owned tdiEventHandlers hnot h.2

/-- The first request associates two file objects that are not known. -/
def associateUnknown : Request :=
  .associate ⟨8, by decide⟩ (some ⟨12, by decide⟩) (some ⟨none, none, .tcpStateClosed, 0⟩) 0

theorem not_owned_associateUnknown :
    ¬ Trace.Always (fun pre => Checked.wp (run (fun _ => some 128) .tcp pre) Owned) [associateUnknown] := by
  intro h
  have howned : Checked.wp ((initialise .tcp).serve (fun _ => some 128) associateUnknown) Owned :=
    h [associateUnknown] (List.prefix_refl _)
  have hleaks : (initialise .tcp).Leaks associateUnknown := by
    refine Or.inl fun hknown => ?_
    obtain ⟨a, ha⟩ := hknown.1
    cases ha
  exact (good_initialise .tcp).not_owned (fun _ => some 128) (fun hsafe => hsafe.1 hleaks) howned

end ConnectionManager

end Tdi

end CaptureHpc
