import DeepSecurity.CaptureHpc.EventHandlerManager
import DeepSecurity.CaptureHpc.EventList

/-!
# Connections of file objects

The handlers of `CaptureTdiIrpHandlers.c` that create and remove connections, with the functions of
`ConnectionManager.c` they use. A connection is named by the number of its allocation, so that a pointer to
memory that has been freed is not taken for one to memory that has been used again. A null pointer that is
dereferenced stops the machine (`Checked.drop`); an access to memory that is not allocated is a fault.

The addresses of a connection and the events that report its state are left out, and so are completion
routines and debug texts.
-/

namespace CaptureHpc

namespace Tdi

/-- The fields of a connection that the handlers set. -/
structure Connection where
  /-- The local node. -/
  localNode : Option FileObject
  /-- The remote node. -/
  remoteNode : Option FileObject
  /-- The state that was reported last. -/
  state : TcpState
  /-- The process that has opened the connection. -/
  processId : UInt32

/-- What has become of the memory of an allocation. -/
inductive Memory where
  | allocated (connection : Connection)
  | freed (times : ℕ)

/-- A free is counted, also of memory that is free already. -/
def Memory.free : Memory → Memory
  | .allocated _ => .freed 1
  | .freed times => .freed (times + 1)

/-- The record of a node. -/
structure ConnectionNode where
  /-- The node. -/
  node : FileObject
  /-- Its connection, by the number of the allocation. -/
  connection : Option ℕ

/-- The answers to the requests for memory when a record is made. -/
abbrev NodeAllocation := RecordMap.Allocation ConnectionNode

/-- The state of the driver for a device. -/
structure ConnectionManager where
  /-- The protocol of the device. -/
  deviceType : Protocol
  /-- The nodes, by their file objects. -/
  connections : RecordMap ConnectionNode
  /-- All connections that have been allocated, in their order. -/
  connectionsPool : List Memory
  /-- The event handlers of the nodes. -/
  eventHandlerManager : EventHandlerManager

namespace ConnectionManager

/-- The state when the driver is loaded. -/
def initialise (deviceType : Protocol) : ConnectionManager :=
  ⟨deviceType, RecordMap.initialise, [], RecordMap.initialise⟩

/-! ## Connections -/

/-- A pointer is dereferenced. -/
def deref (connection : Option ℕ) : Checked ℕ :=
  match connection with
  | some c => return c
  | none => Checked.drop

/-- A connection is written to; memory that is free must not be. -/
def modifyConnection (m : ConnectionManager) (c : ℕ) (f : Connection → Connection) :
    Checked ConnectionManager :=
  match m.connectionsPool[c]? with
  | some (.allocated connection) =>
    return { m with connectionsPool := m.connectionsPool.set c (.allocated (f connection)) }
  | _ => Checked.fault

/-- `connection->local_node = node` -/
def setLocalNode (m : ConnectionManager) (connection : Option ℕ) (node : Option FileObject) :
    Checked ConnectionManager := do
  let c ← deref connection
  m.modifyConnection c fun x => { x with localNode := node }

/-- `connection->remote_node = node` -/
def setRemoteNode (m : ConnectionManager) (connection : Option ℕ) (node : Option FileObject) :
    Checked ConnectionManager := do
  let c ← deref connection
  m.modifyConnection c fun x => { x with remoteNode := node }

/-- `connection->process_id = processId` -/
def setProcessId (m : ConnectionManager) (connection : Option ℕ) (processId : UInt32) :
    Checked ConnectionManager := do
  let c ← deref connection
  m.modifyConnection c fun x => { x with processId }

/-- Without the event that is put into the shared event list. -/
def setConnectionState (m : ConnectionManager) (connection : Option ℕ) (state : TcpState) :
    Checked ConnectionManager :=
  match connection with
  | none => return m
  | some c => m.modifyConnection c fun x => { x with state }

/-- `memory` is what is found in the memory that is given, if there is any. -/
def createConnection (m : ConnectionManager) (memory : Option Connection) : Option ℕ × ConnectionManager :=
  match memory with
  | none => (none, m)
  | some x =>
    let state : TcpState := match m.deviceType with
      | .tcp => .tcpStateClosed
      | .udp => .udpStateClosed
    (some m.connectionsPool.length,
      { m with connectionsPool := m.connectionsPool ++ [.allocated { x with state }] })

/-- A connection is freed; nothing happens for a null pointer. -/
def removeConnection (m : ConnectionManager) (connection : Option ℕ) : ConnectionManager :=
  match connection with
  | none => m
  | some c => { m with connectionsPool := m.connectionsPool.modify c Memory.free }

/-! ## Nodes -/

/-- The record of a node, null if there is none. -/
def findNode (m : ConnectionManager) (node : FileObject) : Checked Pointer :=
  m.connections.table.findHashMapValue node.1

/-- `connection_node->connection = connection` -/
def setNodeConnection (m : ConnectionManager) (a : Addr) (connection : Option ℕ) :
    Checked ConnectionManager := do
  let pool ← m.connections.pool.modify a fun r => { r with connection }
  return { m with connections := { m.connections with pool } }

/-- The connection of a node, null if it has none. -/
def getConnection (m : ConnectionManager) (node : FileObject) : Checked (Option ℕ) := do
  match ← m.findNode node with
  | none => return none
  | some a =>
    let r ← m.connections.pool.read a
    return r.connection

/-- The node stays in the map. -/
def releaseConnectionNode (m : ConnectionManager) (c : ℕ) (node : FileObject) :
    Checked ConnectionManager := do
  let m ← m.modifyConnection c fun x =>
    { x with
      localNode := if x.localNode = some node then none else x.localNode
      remoteNode := if x.remoteNode = some node then none else x.remoteNode }
  match ← m.findNode node with
  | none => Checked.drop
  | some a => m.setNodeConnection a none

/-- The record of a node is freed together with its connection. -/
def removeConnectionNode (m : ConnectionManager) (node : FileObject) : Checked ConnectionManager := do
  match ← m.findNode node with
  | none => return m
  | some a =>
    let r ← m.connections.pool.read a
    let m := m.removeConnection r.connection
    let (_, table) ← m.connections.table.removeHashMap node.1
    return { m with connections := ⟨table, m.connections.pool.free a⟩ }

/-- A record for a node that has none. It is not looked at whether it could be put into the map. -/
def addConnectionNode (m : ConnectionManager) (connection : Option ℕ) (node : FileObject)
    (alloc : NodeAllocation) : Checked ConnectionManager := do
  match ← m.connections.table.findHashMap node.1 with
  | some _ => return m
  | none =>
    match alloc.record.pick m.connections.pool with
    | none => return m
    | some a =>
      let pool := m.connections.pool.write a ⟨node, connection⟩
      let (_, table) ← m.connections.table.insertHashMap node.1 (some a) alloc.pool
      return { m with connections := ⟨table, pool⟩ }

/-- The node becomes the local one of the connection. -/
def setLocalConnectionNode (m : ConnectionManager) (connection : Option ℕ) (node : FileObject)
    (alloc : NodeAllocation) : Checked ConnectionManager := do
  let m ← m.setLocalNode connection node
  m.addConnectionNode connection node alloc

/-- The node becomes the remote one of the connection. -/
def setRemoteConnectionNode (m : ConnectionManager) (connection : Option ℕ) (node : FileObject)
    (alloc : NodeAllocation) : Checked ConnectionManager := do
  let m ← m.setRemoteNode connection node
  m.addConnectionNode connection node alloc

/-! ## The handlers -/

/-- What is opened, as told by the extended attributes. -/
inductive ObjectType where
  | controlChannel
  | transportAddress
  | connectionContext
  | other

/-- A record for an address or for the end of a connection. -/
def tdiCreateHandler (m : ConnectionManager) (node : FileObject) (object : ObjectType)
    (alloc : NodeAllocation) : Checked ConnectionManager :=
  match object with
  | .transportAddress => m.addConnectionNode none node alloc
  | .connectionContext => m.addConnectionNode none node alloc
  | .controlChannel => return m
  | .other => return m

/-- `localNode` is the object of the address handle, if this is valid. -/
def tdiAssociateAddressHandler (m : ConnectionManager) (remoteNode : FileObject)
    (localNode : Option FileObject) (memory : Option Connection) (processId : UInt32) :
    Checked ConnectionManager :=
  match localNode with
  | none => return m
  | some localNode => do
    let remoteConnectionNode ← m.findNode remoteNode
    let localConnectionNode ← m.findNode localNode
    let (connection, m) := m.createConnection memory
    match connection, remoteConnectionNode, localConnectionNode with
    | some c, some a, some _ =>
      let m ← m.setLocalNode c localNode
      let m ← m.setRemoteNode c remoteNode
      let m ← m.setNodeConnection a c
      m.setProcessId c processId
    | _, _, _ => return m

/-- The connection of the node is taken from it and freed. -/
def tdiDisassociateAddressHandler (m : ConnectionManager) (node : FileObject) :
    Checked ConnectionManager := do
  match ← m.getConnection node with
  | none => return m
  | some c =>
    let m ← m.releaseConnectionNode c node
    return m.removeConnection (some c)

/-- The connection that is created for a node `a` of a UDP device. -/
def connectUdp (m : ConnectionManager) (a : Addr) (memory : Option Connection) (processId : UInt32) :
    Checked ConnectionManager := do
  let (connection, m) := m.createConnection memory
  let r ← m.connections.pool.read a
  let m ← m.setLocalNode connection r.node
  let m ← m.setRemoteNode connection r.node
  let m ← m.setProcessId connection processId
  m.setNodeConnection a connection

/-- A UDP node gets a connection, a TCP node has to have one. -/
def tdiConnectHandler (m : ConnectionManager) (node : FileObject) (memory : Option Connection)
    (processId : UInt32) : Checked ConnectionManager := do
  match ← m.findNode node with
  | none => return m
  | some a =>
    match m.deviceType with
    | .udp =>
      let m ← m.connectUdp a memory processId
      let r ← m.connections.pool.read a
      m.setConnectionState r.connection .udpStateConnect
    | .tcp =>
      let r ← m.connections.pool.read a
      m.setConnectionState r.connection .tcpStateSynSent

/-- The connection that is created for a node `a` without one. -/
def sendUnconnected (m : ConnectionManager) (a : Addr) (memory : Option Connection) (processId : UInt32) :
    Checked ConnectionManager := do
  let (connection, m) := m.createConnection memory
  let m ← m.setNodeConnection a connection
  let r ← m.connections.pool.read a
  let m ← m.setLocalNode connection r.node
  let m ← m.setRemoteNode connection none
  m.setProcessId connection processId

/-- A node without a connection gets one with the first datagram. -/
def tdiSendDatagramHandler (m : ConnectionManager) (node : FileObject) (memory : Option Connection)
    (processId : UInt32) : Checked ConnectionManager := do
  match ← m.findNode node with
  | none => return m
  | some a =>
    let r ← m.connections.pool.read a
    match r.connection with
    | some c => m.setConnectionState (some c) .udpStateSendDatagram
    | none =>
      let m ← m.sendUnconnected a memory processId
      let r ← m.connections.pool.read a
      m.setConnectionState r.connection .udpStateSendDatagram

/-- A new connection for a node `a` that listens. -/
def listen (m : ConnectionManager) (node : FileObject) (a : Addr) (localAlloc remoteAlloc : NodeAllocation)
    (memory : Option Connection) (processId : UInt32) : Checked ConnectionManager := do
  let (connection, m) := m.createConnection memory
  let m ← match connection with
    | none => pure m
    | some c => m.setProcessId (some c) processId
  let m ← m.setLocalConnectionNode connection node localAlloc
  let m ← m.setRemoteConnectionNode connection node remoteAlloc
  let m ← m.setNodeConnection a connection
  m.setConnectionState connection .tcpStateListen

/-- `TDI_EVENT_CONNECT` -/
def tdiEventConnect : ℤ := 0

/-- The request is one to remove a handler. -/
def removes (event : SetEvent) : Bool := event.eventHandler.isNone && event.eventContext.isNone

section

variable (tdiEventHandlers : HandlerTable)

/-- A handler is set or removed; one for incoming connections makes the node listen. -/
def tdiSetEventHandler (m : ConnectionManager) (node : FileObject) (event : SetEvent)
    (alloc : EventHandlerManager.Allocation) (localAlloc remoteAlloc : NodeAllocation)
    (memory : Option Connection) (processId : UInt32) : Checked ConnectionManager := do
  if removes event then
    let eventHandlerManager ← m.eventHandlerManager.removeEventHandler event node
    return { m with eventHandlerManager }
  else
    let (event, eventHandlerManager) ←
      m.eventHandlerManager.setEventHandler tdiEventHandlers event node alloc
    let m := { m with eventHandlerManager }
    if event.eventType = tdiEventConnect then
      match ← m.findNode node with
      | none => return m
      | some a => m.listen node a localAlloc remoteAlloc memory processId
    else return m

/-- `RemoveConnectionNode` for the file object. -/
def tdiCloseHandler (m : ConnectionManager) (node : FileObject) : Checked ConnectionManager :=
  m.removeConnectionNode node

/-! ## Requests -/

/-- A request to a device. -/
inductive Request where
  | create (node : FileObject) (object : ObjectType) (alloc : NodeAllocation)
  | associate (remoteNode : FileObject) (localNode : Option FileObject) (memory : Option Connection)
      (processId : UInt32)
  | connect (node : FileObject) (memory : Option Connection) (processId : UInt32)
  | setEvent (node : FileObject) (event : SetEvent) (alloc : EventHandlerManager.Allocation)
      (localAlloc remoteAlloc : NodeAllocation) (memory : Option Connection) (processId : UInt32)
  | sendDatagram (node : FileObject) (memory : Option Connection) (processId : UInt32)
  | disassociate (node : FileObject)
  | close (node : FileObject)

/-- What a request does. -/
def serve (m : ConnectionManager) : Request → Checked ConnectionManager
  | .create node object alloc => m.tdiCreateHandler node object alloc
  | .associate remoteNode localNode memory processId =>
    m.tdiAssociateAddressHandler remoteNode localNode memory processId
  | .connect node memory processId => m.tdiConnectHandler node memory processId
  | .setEvent node event alloc localAlloc remoteAlloc memory processId =>
    m.tdiSetEventHandler tdiEventHandlers node event alloc localAlloc remoteAlloc memory processId
  | .sendDatagram node memory processId => m.tdiSendDatagramHandler node memory processId
  | .disassociate node => m.tdiDisassociateAddressHandler node
  | .close node => m.tdiCloseHandler node

/-- The state after the requests. -/
def run (deviceType : Protocol) (requests : List Request) : Checked ConnectionManager :=
  requests.foldlM (serve tdiEventHandlers) (initialise deviceType)

end

/-! ## Ownership -/

/-- A node in the map has the connection. -/
def Referenced (m : ConnectionManager) (c : ℕ) : Prop :=
  ∃ node a r, m.findNode node = .ok (some a) ∧ m.connections.pool a = some r ∧ r.connection = some c

/-- Every connection that has been allocated is referenced or has been freed once, and no node has a
connection that has been freed. -/
structure Owned (m : ConnectionManager) : Prop where
  /-- A connection is referenced, or it has been freed once. -/
  owner : ∀ c < m.connectionsPool.length, m.Referenced c ∨ m.connectionsPool[c]? = some (.freed 1)
  /-- What a record refers to has not been freed. -/
  valid : ∀ a r c, m.connections.pool a = some r → r.connection = some c →
    ∃ connection, m.connectionsPool[c]? = some (.allocated connection)

/-- There is a record for the node. -/
def Known (m : ConnectionManager) (node : FileObject) : Prop := ∃ a, m.findNode node = .ok (some a)

/-- The node has a connection. -/
def Connected (m : ConnectionManager) (node : FileObject) : Prop :=
  ∃ c, m.getConnection node = .ok (some c)

/-- A connection is created that no node gets, or in the place of another one. -/
def Leaks (m : ConnectionManager) : Request → Prop
  | .associate remoteNode (some localNode) (some _) _ =>
    ¬ (m.Known remoteNode ∧ m.Known localNode) ∨ m.Connected remoteNode
  | .connect node (some _) _ => m.deviceType = .udp ∧ m.Connected node
  | .setEvent node event _ _ _ (some _) _ =>
    removes event = false ∧ event.eventType = tdiEventConnect ∧ m.Connected node
  | _ => False

/-- A slot in front of an array is used. -/
def OutOfBounds (m : ConnectionManager) : Request → Prop
  | .setEvent node event _ _ _ _ _ => event.eventType < 0 ∧
    (removes event = false ∨ ∃ a, m.eventHandlerManager.table.findHashMapValue node.1 = .ok (some a))
  | _ => False

end ConnectionManager

end Tdi

end CaptureHpc
