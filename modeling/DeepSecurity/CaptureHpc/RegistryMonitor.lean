import DeepSecurity.Lib.Records
import Mathlib.Logic.Function.Iterate

/-!
# The registry monitor

`CaptureRegistryMonitor.c` and the loop of `RegistryMonitor.cpp`: the callback of the driver makes an
event of what happens in the registry and queues it, the client asks for events with a buffer, and the
driver copies as many as fit. The callbacks run in any thread, the requests of the client in one, and
the check of the connection in a timer; the list is locked for each insertion and removal only, so all
of them interleave between these.
-/

namespace CaptureHpc

open ByteMem

/-! ## Events -/

/-- `REGISTRY_EVENT`; the time as its bytes. The lengths in it are those of the path and the data. -/
structure RegistryEvent where
  /-- The `REG_NOTIFY_CLASS` of the event. -/
  eventType : UInt32
  /-- The time of the event. -/
  time : { l : List UInt8 // l.length = 16 }
  /-- The process that has caused it. -/
  processId : UInt32
  /-- The type of the data, or the class of a query. -/
  dataType : UInt32
  /-- The path with its null character. -/
  registryPath : List UInt8
  /-- The data of a value. -/
  data : List UInt8

namespace RegistryEvent

/-- The size of an event without its path and its data. -/
def sizeofRegistryEvent : ℕ := 36

/-- The size of an event with its path and its data. -/
def size (e : RegistryEvent) : ℕ := sizeofRegistryEvent + e.registryPath.length + e.data.length

/-- The event as it is in the memory. -/
def encode (e : RegistryEvent) : List UInt8 :=
  word e.eventType.toNat ++ (e.time.1 ++ (word e.processId.toNat ++ (word e.dataType.toNat ++
    (word e.data.length ++ (word e.registryPath.length ++ (e.registryPath ++ e.data))))))

/-- What the client finds at the given place of its buffer. -/
def decode (m : Mem) (a : ℕ) : RegistryEvent :=
  let dataLengthB := read32 m (a + 28)
  let registryPathLengthB := read32 m (a + 32)
  { eventType := UInt32.ofNat (read32 m a)
    time := ⟨readBytes m (a + 4) 16, by simp [readBytes]⟩
    processId := UInt32.ofNat (read32 m (a + 20))
    dataType := UInt32.ofNat (read32 m (a + 24))
    registryPath := readBytes m (a + sizeofRegistryEvent) registryPathLengthB
    data := readBytes m (a + sizeofRegistryEvent + registryPathLengthB) dataLengthB }

/-- The size from which the client calculates where the next event is. -/
def sizeAt (m : Mem) (a : ℕ) : ℕ :=
  sizeofRegistryEvent + read32 m (a + 32) + read32 m (a + 28)

end RegistryEvent

/-- An event for which there was space in the pool. -/
abbrev PooledEvent := { e : RegistryEvent // e.size < 2 ^ 32 }

/-! ## The callback of the driver -/

namespace RegistryCallback

/-- `UNICODE_STRING`: the characters, and what follows them in the memory as far as it can be read. -/
structure UnicodeString where
  /-- The characters of the string. -/
  text : List UInt16
  /-- What follows them in the memory. -/
  beyond : List UInt16

/-- What can be read from the buffer of the string. -/
def UnicodeString.buffer (s : UnicodeString) : List UInt16 := s.text ++ s.beyond

/-- An object of the registry: whether its address is valid, and what `ObQueryNameString` says. -/
structure RegistryObject where
  /-- Whether `MmIsAddressValid` accepts the address. -/
  isAddressValid : Bool
  /-- The name, if it can be queried. -/
  name : Option (List UInt16)

/-- `NTSTRSAFE_UNICODE_STRING_MAX_CCH` -/
def maxCch : ℕ := 32767

/-- A path in the buffer of the callback. -/
abbrev Path := { l : List UInt16 // l.length ≤ maxCch }

/-- `RtlUnicodeStringCopy`; what does not fit is cut off. -/
def copy (src : List UInt16) : Path := ⟨src.take maxCch, List.length_take_le _ _⟩

/-- `RtlUnicodeStringCat` -/
def cat (dest : Path) (src : List UInt16) : Path := copy (dest.1 ++ src)

/-- Whether the string begins with a backslash, a percent sign or `TRY\`. Reading beyond the memory of
the string raises an exception. -/
def isCompleteName (s : UnicodeString) : Option Bool := do
  let c ← s.buffer[0]?
  if c = 0x5C ∨ c = 0x25 then return true
  if c ≠ 0x54 then return false
  if (← s.buffer[1]?) ≠ 0x52 then return false
  if (← s.buffer[2]?) ≠ 0x59 then return false
  return (← s.buffer[3]?) = 0x5C

/-- `none` if there is no name, or after an exception. -/
def getRegistryObjectCompleteName (partialRegistryPath : Option UnicodeString)
    (registryObject : RegistryObject) : Option Path := do
  guard registryObject.isAddressValid
  let query := registryObject.name.map copy
  match partialRegistryPath with
  | some s => if ← isCompleteName s then return copy s.text else query
  | none => query

/-- The value of a set operation, an object in the memory of the machine. -/
abbrev ValueData := { l : List UInt8 // l.length < 2 ^ 31 }

/-- The notifications that are looked at, with the fields that are read. -/
inductive Notification where
  | postCreateKey (status : UInt32) (completeName : Option UnicodeString) (object : RegistryObject)
  | postOpenKey (status : UInt32) (completeName : Option UnicodeString) (object : RegistryObject)
  | preDeleteKey (object : RegistryObject)
  | deleteValueKey (object : RegistryObject) (valueName : UnicodeString)
  | preSetValueKey (object : RegistryObject) (valueName : UnicodeString) (type : UInt32)
      (data : ValueData)
  | enumerateKey (object : RegistryObject) (keyInformationClass : UInt32)
  | enumerateValueKey (object : RegistryObject) (keyValueInformationClass : UInt32)
  | queryKey (object : RegistryObject) (keyInformationClass : UInt32)
  | queryValueKey (object : RegistryObject) (valueName : UnicodeString)
      (keyValueInformationClass : UInt32)
  | keyHandleClose (object : RegistryObject)
  | other (eventType : UInt32)

/-- Its `REG_NOTIFY_CLASS`. -/
def Notification.eventType : Notification → UInt32
  | .preDeleteKey _ => 0
  | .preSetValueKey _ _ _ _ => 1
  | .deleteValueKey _ _ => 2
  | .enumerateKey _ _ => 5
  | .enumerateValueKey _ _ => 6
  | .queryKey _ _ => 7
  | .queryValueKey _ _ _ => 8
  | .postCreateKey _ _ _ => 11
  | .postOpenKey _ _ _ => 13
  | .keyHandleClose _ => 14
  | .other eventType => eventType

/-- What the switch leaves in the local variables. -/
structure Findings where
  /-- The path of the key or of the value. -/
  registryPath : Path
  /-- The type of the data. -/
  registryDataType : UInt32
  /-- The data. -/
  registryData : ValueData

/-- No data. -/
def noData : ValueData := ⟨[], by decide⟩

/-- A status without the sign bit. -/
def ntSuccess (status : UInt32) : Bool := status.toNat < 2 ^ 31

/-- A key that has been opened or created, if this was successful. -/
def openedKey (status : UInt32) (completeName : Option UnicodeString) (object : RegistryObject) :
    Option Findings := do
  guard (ntSuccess status)
  return ⟨← getRegistryObjectCompleteName completeName object, 0, noData⟩

/-- A key, with what the event says about it in the place of the data type. -/
def keyWith (object : RegistryObject) (dataType : UInt32) : Option Findings := do
  return ⟨← getRegistryObjectCompleteName none object, dataType, noData⟩

/-- The value names are appended behind a backslash. Without one, the type and the data are not looked
at either. -/
def valueWith (object : RegistryObject) (valueName : UnicodeString) (dataType : UInt32)
    (data : ValueData) : Option Findings := do
  let path ← getRegistryObjectCompleteName none object
  if valueName.text.length > 0 then return ⟨cat (cat path [0x5C]) valueName.text, dataType, data⟩
  else return ⟨path, 0, noData⟩

/-- The switch; `none` if the event is not valid. -/
def examine : Notification → Option Findings
  | .postCreateKey status completeName object => openedKey status completeName object
  | .postOpenKey status completeName object => openedKey status completeName object
  | .preDeleteKey object => keyWith object 0
  | .deleteValueKey object valueName => valueWith object valueName 0 noData
  | .preSetValueKey object valueName type data => valueWith object valueName type data
  | .enumerateKey object keyInformationClass => keyWith object keyInformationClass
  | .enumerateValueKey object keyValueInformationClass => keyWith object keyValueInformationClass
  | .queryKey object keyInformationClass => keyWith object keyInformationClass
  | .queryValueKey object valueName keyValueInformationClass =>
    valueWith object valueName keyValueInformationClass noData
  | .keyHandleClose object => keyWith object 0
  | .other _ => none

/-- The thread that the callback runs in, the time, and which of its three allocations succeed. -/
structure Context where
  /-- The process of the thread. -/
  processId : UInt32
  /-- The time. -/
  time : { l : List UInt8 // l.length = 16 }
  /-- There is memory for the path. -/
  pathAllocated : Bool
  /-- There is memory for the data. -/
  dataAllocated : Bool
  /-- There is memory for the event. -/
  eventAllocated : Bool

/-- The bytes of wide characters. -/
def utf16Bytes (l : List UInt16) : List UInt8 :=
  l.flatMap fun c : UInt16 => [c.toUInt8, (c >>> 8).toUInt8]

theorem length_utf16Bytes (l : List UInt16) : (utf16Bytes l).length = 2 * l.length := by
  simp [utf16Bytes, Nat.mul_comm]

/-- The event with the path, which ends with a null character, and the data. -/
def Findings.event (f : Findings) (c : Context) (eventType : UInt32) : PooledEvent where
  val :=
    { eventType, time := c.time, processId := c.processId, dataType := f.registryDataType
      registryPath := utf16Bytes f.registryPath.1 ++ [0, 0]
      data := f.registryData.1 }
  property := by
    have hpath : f.registryPath.1.length ≤ 32767 := f.registryPath.2
    have hdata := f.registryData.2
    simp only [RegistryEvent.size, RegistryEvent.sizeofRegistryEvent, List.length_append,
      length_utf16Bytes, List.length_cons, List.length_nil]
    omega

/-- What the callback comes to. -/
inductive Result where
  | ignored
  | queue (event : PooledEvent)
  /-- Data are copied from a null pointer. -/
  | bugCheck

/-- `RegistryCallback`, up to the call of `QueueRegistryEvent`. -/
def registryCallback (c : Context) (n : Notification) : Result :=
  if !c.pathAllocated then .ignored
  else
    match examine n with
    | none => .ignored
    | some f =>
      if !c.eventAllocated then .ignored
      else if f.registryData.1 ≠ [] ∧ !c.dataAllocated then .bugCheck
      else .queue (f.event c n.eventType)

end RegistryCallback

/-! ## The queue and the requests -/

/-- `REGISTRY_EVENT_PACKET`, with the number of the event among all that were queued. -/
structure RegistryPacket where
  /-- The number of the event. -/
  number : ℕ
  /-- The event. -/
  event : PooledEvent

/-- The local variables of `HandleIoctlGetRegEvents`, with the packets that have been copied. -/
structure Request where
  /-- The size of the buffer of the client. -/
  bufferSpace : ℕ
  /-- How much of it is used. -/
  bufferSpaceUsed : ℕ
  /-- What is in it. -/
  outputBuffer : Mem
  /-- The packets that have been copied. -/
  copied : List RegistryPacket

/-- The loop of the client over the buffer that it gets back, `none` if it does not end. -/
def Request.events (r : Request) : Option (List RegistryEvent) :=
  if r.bufferSpaceUsed ≥ RegistryEvent.sizeofRegistryEvent then
    Records.unpack RegistryEvent.decode RegistryEvent.sizeAt r.outputBuffer r.bufferSpaceUsed
      r.bufferSpaceUsed 0
  else some []

/-- Where the thread of the client is: before a request, at the condition of the loop, behind it, or
between the removal of a packet and the decision about it. -/
inductive Reader where
  | idle
  | condition (r : Request)
  | remove (r : Request)
  | holding (r : Request) (packet : RegistryPacket)

/-- Where `ConnectionChecker` is. -/
inductive Checker where
  | idle
  | condition
  | remove

/-- The driver and the client. Recorded are the events that were queued, the numbers of those that were
discarded, what the client has got, and whether the client was ever found to be absent. The machine is
down after a null packet was dereferenced, and if the client did not come out of its loop. -/
structure RegistryManager where
  /-- The queue of the driver. -/
  lQueuedRegistryEvents : List RegistryPacket
  /-- When the client has asked for events last. -/
  lastContactTime : UInt32
  /-- Where the request of the client is. -/
  reader : Reader
  /-- Where the check of the connection is. -/
  checker : Checker
  /-- All events that were queued. -/
  queued : List RegistryEvent
  /-- The numbers of the events that were discarded. -/
  discarded : List ℕ
  /-- The events that the client has got. -/
  recovered : List RegistryEvent
  /-- The client was found to be absent. -/
  timedOut : Bool
  /-- The machine is down. -/
  down : Bool

namespace RegistryManager

/-- The seconds after which the client counts as absent. -/
def userspaceConnectionTimeout : UInt32 := 10

/-- After `DriverEntry` at the given time. -/
def driverEntry (now : UInt32) : RegistryManager where
  lQueuedRegistryEvents := []
  lastContactTime := now
  reader := .idle
  checker := .idle
  queued := []
  discarded := []
  recovered := []
  timedOut := false
  down := false

variable (s : RegistryManager)

/-- An event is queued unless the client is absent. -/
def queueRegistryEvent (now : UInt32) (e : PooledEvent) : RegistryManager :=
  if now - s.lastContactTime ≤ userspaceConnectionTimeout then
    { s with
      lQueuedRegistryEvents := s.lQueuedRegistryEvents ++ [⟨s.queued.length, e⟩]
      queued := s.queued ++ [e.1] }
  else s

/-- The end of a request, with what the client does then. -/
def complete (r : Request) : RegistryManager :=
  match r.events with
  | some l => { s with reader := .idle, recovered := s.recovered ++ l }
  | none => { s with down := true }

/-- `KDispatchIoctl` up to the loop, for a buffer that the client has filled with zeros. A buffer that is
too small comes back with no bytes. -/
def kDispatchIoctl (now outputBufferLength : UInt32) : RegistryManager :=
  match s.reader with
  | .idle =>
    { s with
      lastContactTime := now
      reader :=
        if outputBufferLength.toNat ≥ RegistryEvent.sizeofRegistryEvent then
          .condition ⟨outputBufferLength.toNat, 0, fun _ => 0, []⟩
        else .idle }
  | _ => s

/-- One step of the loop in `HandleIoctlGetRegEvents`. -/
def handleIoctlGetRegEvents : RegistryManager :=
  match s.reader with
  | .idle => s
  | .condition r =>
    if s.lQueuedRegistryEvents ≠ [] ∧ r.bufferSpaceUsed < r.bufferSpace ∧
        r.bufferSpace - r.bufferSpaceUsed ≥ RegistryEvent.sizeofRegistryEvent then
      { s with reader := .remove r }
    else s.complete r
  | .remove r =>
    match s.lQueuedRegistryEvents with
    | [] => { s with down := true }
    | packet :: rest => { s with lQueuedRegistryEvents := rest, reader := .holding r packet }
  | .holding r packet =>
    if r.bufferSpace - r.bufferSpaceUsed ≥ packet.event.1.size then
      { s with
        reader := .condition
          { r with
            bufferSpaceUsed := r.bufferSpaceUsed + packet.event.1.size
            outputBuffer := writeBytes r.outputBuffer r.bufferSpaceUsed packet.event.1.encode
            copied := r.copied ++ [packet] } }
    else
      { s with lQueuedRegistryEvents := packet :: s.lQueuedRegistryEvents }.complete r

/-- `ConnectionChecker` up to its loop. -/
def connectionChecker (now : UInt32) : RegistryManager :=
  match s.checker with
  | .idle =>
    if now - s.lastContactTime > userspaceConnectionTimeout + userspaceConnectionTimeout / 2 then
      { s with checker := .condition, timedOut := true }
    else s
  | _ => s

/-- One step of the loop in `ConnectionChecker`. -/
def clearOld : RegistryManager :=
  match s.checker with
  | .idle => s
  | .condition =>
    { s with checker := if s.lQueuedRegistryEvents = [] then .idle else .remove }
  | .remove =>
    match s.lQueuedRegistryEvents with
    | [] => { s with down := true }
    | packet :: rest =>
      { s with
        lQueuedRegistryEvents := rest
        checker := .condition
        discarded := s.discarded ++ [packet.number] }

/-- A step of one of the threads. -/
inductive Action where
  | queueRegistryEvent (now : UInt32) (e : PooledEvent)
  | kDispatchIoctl (now outputBufferLength : UInt32)
  | handleIoctlGetRegEvents
  | connectionChecker (now : UInt32)
  | clearOld

/-- What a step does; nothing happens any more when the machine is down. -/
def step (s : RegistryManager) (a : Action) : RegistryManager :=
  if s.down then s
  else
    match a with
    | .queueRegistryEvent now e => s.queueRegistryEvent now e
    | .kDispatchIoctl now outputBufferLength => s.kDispatchIoctl now outputBufferLength
    | .handleIoctlGetRegEvents => s.handleIoctlGetRegEvents
    | .connectionChecker now => s.connectionChecker now
    | .clearOld => s.clearOld

/-- The state after the given steps, of any of the threads. -/
def run (start : UInt32) (actions : List Action) : RegistryManager :=
  actions.foldl step (driverEntry start)

/-! ## What is expected of a run -/

/-- The events that were queued and not discarded, in their order. -/
def kept : List RegistryEvent :=
  (s.queued.zipIdx.filter fun x => x.2 ∉ s.discarded).map Prod.fst

/-- The space that packets take in the buffer of the client. -/
def totalSize : List RegistryPacket → ℕ
  | [] => 0
  | packet :: packets => packet.event.1.size + totalSize packets

/-- The steps of a request that no other thread interrupts. -/
def request (now outputBufferLength : UInt32) (steps : ℕ) : List Action :=
  .kDispatchIoctl now outputBufferLength :: List.replicate steps .handleIoctlGetRegEvents

/-- A request that is not interrupted comes to its end. The client then has got the longest beginning of
the queue that fits into its buffer, and the rest is still in the queue. -/
def HandsOver (now outputBufferLength : UInt32) : Prop :=
  ∃ packets rest, s.lQueuedRegistryEvents = packets ++ rest ∧
    totalSize packets ≤ outputBufferLength.toNat ∧
    (∀ packet ∈ rest.head?, outputBufferLength.toNat < totalSize packets + packet.event.1.size) ∧
    ∃ n, ∀ steps, n ≤ steps → (request now outputBufferLength steps).foldl step s =
      { s with
        lastContactTime := now
        lQueuedRegistryEvents := rest
        recovered := s.recovered ++ packets.map fun packet => packet.event.1 }

/-- The client gets the events that were queued and not discarded, each once and in their order; between
two requests, all that it has not got yet are in the queue, and a request with a buffer for an event at
all hands over what fits. As long as the client was not found absent, nothing is discarded and the
machine is not down. -/
structure Faithful : Prop where
  /-- What the client has got is the beginning of what was kept. -/
  recovered : s.recovered <+: s.kept
  /-- Between two requests, the queue has the rest of it. -/
  rest : s.reader = .idle →
    s.recovered ++ s.lQueuedRegistryEvents.map (fun packet => packet.event.1) = s.kept
  /-- A request hands over what fits. -/
  handsOver : s.reader = .idle → s.down = false → ∀ now outputBufferLength : UInt32,
    RegistryEvent.sizeofRegistryEvent ≤ outputBufferLength.toNat → s.HandsOver now outputBufferLength
  /-- Nothing is discarded while the client is there. -/
  all : s.timedOut = false → s.kept = s.queued
  /-- The machine is not down while the client is there. -/
  running : s.timedOut = false → s.down = false

/-! ## A request that is not interrupted -/

/-- `REGISTRY_EVENTS_BUFFER_SIZE` -/
def registryEventsBufferSize : UInt32 := 5 * 65536

/-- The request of the client, with at most the given number of steps of the loop. -/
def read (now : UInt32) (steps : ℕ) : RegistryManager :=
  handleIoctlGetRegEvents^[steps] (s.kDispatchIoctl now registryEventsBufferSize)

end RegistryManager

end CaptureHpc
