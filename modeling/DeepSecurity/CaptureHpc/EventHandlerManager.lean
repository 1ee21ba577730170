import DeepSecurity.CaptureHpc.HashMap
import DeepSecurity.Lib.Trace
import Mathlib.Data.List.FinRange

/-!
# Hooked event handlers

`EventHandlerManager.c`: for every node (a file object) there may be a record with the original event
handlers, one slot for each type of event. `DestroyEventHandlerManager` is left out, and so is the pointer
to the connection manager in each slot.
-/

namespace CaptureHpc

/-- A file object has an address. -/
abbrev FileObject := { a : UInt32 // a ≠ 0 }

/-- `TDI_REQUEST_KERNEL_SET_EVENT`; the type is a signed number. -/
structure SetEvent where
  /-- The type of the event, an index of the arrays. -/
  eventType : ℤ
  /-- The routine that is to be called. -/
  eventHandler : Pointer
  /-- The context that it is to be called with. -/
  eventContext : Pointer

/-- `TDI_EVENT_HANDLERS_MAX` -/
def tdiEventHandlersMax : ℕ := 11

/-- `TdiEventHandlers`: for each type of event, the routine that is put in the place of the original
handler. None of them is null in the source, but `SetEventHandler` has a branch for it. -/
abbrev HandlerTable := Fin tdiEventHandlersMax → Pointer

/-- A slot of a record. -/
structure EventHandler where
  /-- The node that the handler was set for. -/
  node : Option FileObject
  /-- The request by which it was set. -/
  originalHandler : SetEvent

/-- `RtlZeroMemory` -/
def EventHandler.zero : EventHandler := ⟨none, 0, none, none⟩

/-- The record of a node. -/
structure NodeEventHandler where
  /-- The node. -/
  node : FileObject
  /-- The number of handlers as the code counts them. -/
  numHandlers : UInt32
  /-- The slots, one for each type of event. -/
  handlers : Fin tdiEventHandlersMax → EventHandler

/-- The number of slots that hold an original handler. -/
def NodeEventHandler.held (r : NodeEventHandler) : ℕ :=
  (List.finRange tdiEventHandlersMax).countP fun i => (r.handlers i).originalHandler.eventHandler.isSome

/-- The map `event_handlers`, and the records of `event_handlers_pool`. -/
abbrev EventHandlerManager := RecordMap NodeEventHandler

namespace EventHandlerManager

/-- The answers to the requests for memory when a record is made. -/
abbrev Allocation := RecordMap.Allocation NodeEventHandler

/-- An element of an array with one element for each type. -/
def slot (eventType : ℤ) : Checked (Fin tdiEventHandlersMax) :=
  if h : 0 ≤ eventType ∧ eventType < tdiEventHandlersMax then
    return ⟨eventType.toNat, by omega⟩
  else Checked.fault

/-- The address of `handlers[i]` in a record at the address `a`: behind two fields of four bytes, each
slot has five of them. -/
def slotAddress (a : Addr) (i : Fin tdiEventHandlersMax) : Addr := a + 8 + 20 * UInt32.ofNat i

/-- It is not looked at whether the record could be put into the map. -/
def createNodeEventHandler (m : EventHandlerManager) (node : FileObject) (alloc : Allocation) :
    Checked (Pointer × EventHandlerManager) :=
  match alloc.record.pick m.pool with
  | none => return (none, m)
  | some a => do
    let pool := m.pool.write a ⟨node, 0, fun _ => EventHandler.zero⟩
    let (_, table) ← m.table.insertHashMap node.1 (some a) alloc.pool
    return (some a, ⟨table, pool⟩)

/-- The slot of the handler is cleared, and the record is freed when the number comes to zero. -/
def removeEventHandler (m : EventHandlerManager) (hooked : SetEvent) (node : FileObject) :
    Checked EventHandlerManager := do
  if tdiEventHandlersMax ≤ hooked.eventType then return m
  match ← m.table.findHashMapValue node.1 with
  | none => return m
  | some a =>
    let i ← slot hooked.eventType
    let r ← m.pool.read a
    let numHandlers := r.numHandlers - 1
    let pool := m.pool.write a { r with numHandlers, handlers := Function.update r.handlers i .zero }
    if numHandlers = 0 then
      let pool := pool.free a
      let (_, table) ← m.table.removeHashMap node.1
      return ⟨table, pool⟩
    else return { m with pool }

/-- The record of the node, which is created if there is none. -/
def findOrCreate (m : EventHandlerManager) (node : FileObject) (alloc : Allocation) :
    Checked (Pointer × EventHandlerManager) := do
  match ← m.table.findHashMapValue node.1 with
  | none => createNodeEventHandler m node alloc
  | some a => return (some a, m)

/-- The request is changed, so that the routine of the monitor gets set, with the slot as its context. -/
def setEventHandler (tdiEventHandlers : HandlerTable) (m : EventHandlerManager)
    (original : SetEvent) (node : FileObject) (alloc : Allocation) :
    Checked (SetEvent × EventHandlerManager) := do
  if tdiEventHandlersMax ≤ original.eventType then return (original, m)
  let i ← slot original.eventType
  if tdiEventHandlers i = none then return (original, m)
  let (p, m) ← findOrCreate m node alloc
  match p with
  | none => return (original, m)
  | some a =>
    let r ← m.pool.read a
    let pool := m.pool.write a { r with handlers := Function.update r.handlers i ⟨some node, original⟩ }
    return ({ original with eventContext := slotAddress a i, eventHandler := tdiEventHandlers i },
      { m with pool })

/-! ## Requests -/

/-- A call for a node. -/
inductive Request where
  | set (node : FileObject) (original : SetEvent) (alloc : Allocation)
  | remove (node : FileObject) (hooked : SetEvent)

section

variable (tdiEventHandlers : HandlerTable)

/-- What a request does. -/
def serve (m : EventHandlerManager) : Request → Checked EventHandlerManager
  | .set node original alloc => do
    let (_, m) ← setEventHandler tdiEventHandlers m original node alloc
    return m
  | .remove node hooked => removeEventHandler m hooked node

/-- The state after the requests. -/
def run (requests : List Request) : Checked EventHandlerManager :=
  requests.foldlM (serve tdiEventHandlers) RecordMap.initialise

end

/-- The number in every record is that of its handlers, and the nodes with a record in the map are those
for which this number is positive. -/
structure Consistent (m : EventHandlerManager) : Prop where
  /-- The number is that of the slots that hold a handler. -/
  counted : ∀ a r, m.pool a = some r → r.numHandlers.toNat = r.held
  /-- The nodes in the map are those that have a handler. -/
  mapped : ∀ node : FileObject, (∃ a, m.table.findHashMapValue node.1 = .ok (some a)) ↔
    ∃ a r, m.pool a = some r ∧ r.node = node ∧ 0 < r.held

/-- No handler is set: there is no such type of event or no routine for it, there is no memory for the
record, or there is no handler in the request and no memory to put the record into the map. -/
def Refused (tdiEventHandlers : HandlerTable) (m : EventHandlerManager) : Request → Prop
  | .remove _ _ => True
  | .set node original alloc => tdiEventHandlersMax ≤ original.eventType ∨
    (∃ i, (i.val : ℤ) = original.eventType ∧ tdiEventHandlers i = none) ∨
    0 ≤ original.eventType ∧ (alloc.record.pick m.pool = none ∨
      original.eventHandler = none ∧ m.table.grants node.1 alloc.pool = false)

end EventHandlerManager

end CaptureHpc
