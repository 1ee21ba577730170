import DeepSecurity.Lib.ByteMem
import DeepSecurity.Lib.Trace

/-!
# The event list shared by the drivers and the client

`EventList.c` of the kernel drivers, and of the client `EventList.h` and the functions
`processTcpEvents` and `processUdpEvents` of `NetworkMonitor.cpp`. The list, its events and their data
lie in one memory region that both sides map; all offsets are from the beginning of the region. Each
side addresses the region by its own declaration of the buffer.
-/

namespace CaptureHpc

open ByteMem

/-- The bytes of the data. -/
abbrev Bytes := List UInt8

/-! ## The layout -/

/-- `BLOCK_SIZE` -/
def blockSize : ℕ := 16

/-- `BUFFER_SIZE` -/
def bufferSize : ℕ := 512 * 1024

/-- The number of words of the bitmap. -/
def bufferBitmapSize : ℕ := bufferSize / (4 * blockSize * 8)

/-- Offsets of the fields of the event list. -/
def listHead : ℕ := 0

/-- The second field of the event list. -/
def listTail : ℕ := 4

/-- `SizeOfBitMap`, the first word of the buffer manager on both sides. -/
def sizeOfBitMap : ℕ := 8

/-- Where a side has the other fields of the buffer manager. -/
structure Layout where
  /-- The hint for the next search. -/
  bitmapHintIndex : ℕ
  /-- The first word of the bitmap. -/
  bufferBitmap : ℕ
  /-- The first block. -/
  buffer : ℕ

/-- In the declaration of the drivers, the `RTL_BITMAP` of two words is followed by a spin lock. -/
def kernelLayout : Layout where
  bitmapHintIndex := sizeOfBitMap + 8 + 4
  bufferBitmap := sizeOfBitMap + 8 + 4 + 4
  buffer := sizeOfBitMap + 8 + 4 + 4 + bufferBitmapSize * 4

/-- In the declaration of the client, it is not. -/
def userLayout : Layout where
  bitmapHintIndex := sizeOfBitMap + 8
  bufferBitmap := sizeOfBitMap + 8 + 4
  buffer := sizeOfBitMap + 8 + 4 + bufferBitmapSize * 4

/-! Offsets of the fields of an event and of a data container. -/

/-- The next event of the list. -/
def eventNext : ℕ := 0

/-- The event before this one. -/
def eventPrevious : ℕ := 4

/-- The mark that the event is complete. -/
def eventReady : ℕ := 8

/-- The first data container. -/
def eventHead : ℕ := 12

/-- The last data container. -/
def eventTail : ℕ := 16

/-- The size of an event without its data. -/
def sizeofEvent : ℕ := 20

/-- The next container of the event. -/
def dataNext : ℕ := 0

/-- The key of the data. -/
def dataKey : ℕ := 4

/-- The type of the data. -/
def dataType : ℕ := 8

/-- The size of the data. -/
def dataSize : ℕ := 12

/-- The first byte of the data. -/
def dataBytes : ℕ := 16

/-- The size of a container without its data. -/
def sizeofDataContainer : ℕ := 16

/-- `ALIGN_UP(size, Block) / BLOCK_SIZE`, in 32-bit arithmetic. -/
def blocksFor (size : ℕ) : ℕ := (size + (blockSize - 1)) % 2 ^ 32 / blockSize

/-! ## The kernel side -/

/-- Bit `i` of the bitmap, as the drivers see it. -/
def testBit (m : Mem) (i : ℕ) : Bool :=
  (m (kernelLayout.bufferBitmap + i / 8)).toNat.testBit (i % 8)

/-- Sets the bit of the block `i`. -/
def setBit (m : Mem) (i : ℕ) : Mem :=
  let a := kernelLayout.bufferBitmap + i / 8
  writeBytes m a [m a ||| UInt8.ofNat (2 ^ (i % 8))]

/-- `RtlFindClearBitsAndSet`, without the setting: a function of the kernel that finds a run of `n` clear
bits of the bitmap, or says that there is none. Where it looks first is left to it. -/
structure RtlFindClearBits where
  /-- The position of the bits that are found. -/
  find : (bitmap : ℕ → Bool) → (n hintIndex : ℕ) → Option ℕ
  /-- They are inside of the bitmap and clear. -/
  find_spec : ∀ bitmap n hintIndex position, find bitmap n hintIndex = some position →
    position + n ≤ bufferBitmapSize * 32 ∧
      ∀ i, position ≤ i → i < position + n → bitmap i = false

/-- What is handed to `AddEventData`: no data means that the container is only reserved. Its size is that
of an object in an address space of 32 bits, half of which belongs to the kernel. -/
structure EventData where
  /-- The key of the data. -/
  key : UInt32
  /-- The type of the data. -/
  type : UInt32
  /-- Their size. -/
  size : ℕ
  /-- The size is an `int`. -/
  size_lt : size < 2 ^ 31
  /-- The bytes, or a null pointer. -/
  data : Option { l : Bytes // l.length = size }

section Kernel

variable (rtl : RtlFindClearBits)

/-- The offset of the reserved space, `none` if there is not enough left. -/
def reserveSpace (m : Mem) (size : ℕ) : Option (ℕ × Mem) := do
  let bits := blocksFor size
  let position ← rtl.find (testBit m) bits (read32 m kernelLayout.bitmapHintIndex)
  let m := (List.range' position bits).foldl setBit m
  let m := write32 m kernelLayout.bitmapHintIndex position
  return (kernelLayout.buffer + position * blockSize, m)

/-- An event without data, which is zeroed. -/
def createEvent (m : Mem) : Option (ℕ × Mem) := do
  let (event, m) ← reserveSpace rtl m sizeofEvent
  return (event, zero m event sizeofEvent)

/-- The linking of the container is `push` to the list of the event. -/
def addEventData (m : Mem) (event : ℕ) (d : EventData) : Option (ℕ × Mem) := do
  let (container, m) ← reserveSpace rtl m (sizeofDataContainer + d.size)
  let m := zero m container sizeofDataContainer
  let m := write32 m (container + dataKey) d.key.toNat
  let m := write32 m (container + dataType) d.type.toNat
  let m := write32 m (container + dataSize) d.size
  let m := match d.data with
    | some l => writeBytes m (container + dataBytes) l.1
    | none => m
  return (container, push m (event + eventHead) (event + eventTail) container)

/-- And that of an event `push` to the list. The client does not wait for the semaphore. -/
def insertEvent (m : Mem) (event : ℕ) : Mem :=
  let m := write32 m (event + eventReady) 1
  let m := write32 m (event + eventPrevious) (read32 m listTail)
  push m listHead listTail event

end Kernel

/-! ## The user side -/

/-- The loop of `BufferClearBits`, `none` if it does not come to an end within the given number of
rounds. -/
def clearBitsLoop (m : Mem) : (rounds position index bits : ℕ) → Option Mem
  | 0, _, _, bits => if bits = 0 then some m else none
  | rounds + 1, position, index, bits =>
    if bits = 0 then some m
    else
      let shift := index % 8
      let count := if 8 - shift < bits then 8 - shift else bits
      let mask : UInt32 := ~~~(~~~(0xFF <<< UInt32.ofNat count) <<< UInt32.ofNat shift)
      let m := writeBytes m position [m position &&& mask.toUInt8]
      clearBitsLoop m rounds (position + 1) (index + count) (bits - count)

/-- Releases the space of `size` bytes at the offset `data`, with at most the given number of rounds. -/
def bufferClearBitsWithin (rounds : ℕ) (m : Mem) (data size : ℕ) : Option Mem :=
  let bitmapSize := read32 m sizeOfBitMap
  let bits := blocksFor size
  let index := (data + 2 ^ 32 - userLayout.buffer) % 2 ^ 32 / blockSize
  if bitmapSize ≤ index ∨ bits = 0 then some m
  else
    let bits := if bitmapSize < index + bits then bitmapSize - index else bits
    clearBitsLoop m rounds (userLayout.bufferBitmap + index / 8) index bits

/-- The same with as many rounds as it takes: every round clears at least one bit. -/
def bufferClearBits (m : Mem) (data size : ℕ) : Mem :=
  (bufferClearBitsWithin (blocksFor size) m data size).getD m

/-- A data container as the client finds it. -/
structure Container where
  /-- The key of the data. -/
  key : UInt32
  /-- The type of the data. -/
  type : UInt32
  /-- The bytes. -/
  data : Bytes
deriving DecidableEq, Repr

/-- The container at an offset. -/
def Container.read (m : Mem) (offset : ℕ) : Container where
  key := UInt32.ofNat (read32 m (offset + dataKey))
  type := UInt32.ofNat (read32 m (offset + dataType))
  data := readBytes m (offset + dataBytes) (read32 m (offset + dataSize))

/-- The loop over the data of an event, which releases each container after it has been read. `none` if
it does not come to an end within the given number of rounds. -/
def readData : (rounds : ℕ) → Mem → (dataOffset : ℕ) → Option (List Container × Mem)
  | 0, m, dataOffset => if dataOffset = 0 then some ([], m) else none
  | rounds + 1, m, dataOffset =>
    if dataOffset = 0 then some ([], m)
    else do
      let container := Container.read m dataOffset
      let next := read32 m (dataOffset + dataNext)
      let size := (sizeofDataContainer + read32 m (dataOffset + dataSize)) % 2 ^ 32
      let (rest, m) ← readData rounds (bufferClearBits m dataOffset size) next
      return (container :: rest, m)

/-- `enum TcpState`, in its order. -/
inductive TcpState where
  | tcpStateClosed | tcpStateListen | tcpStateSynSent | tcpStateSynRcvd | tcpStateEstablished
  | tcpStateFinWait1 | tcpStateFinWait2 | tcpStateClosing | tcpStateTimeWait | tcpStateCloseWait
  | tcpStateLastAck | udpStateClosed | udpStateConnect | udpStateEstablished | udpStateSend
  | udpStateReceive | udpStateSendDatagram | udpStateReceiveDatagram
deriving DecidableEq, Repr

/-- The state with the given number. -/
def TcpState.ofNumber (n : ℕ) : Option TcpState :=
  [tcpStateClosed, tcpStateListen, tcpStateSynSent, tcpStateSynRcvd, tcpStateEstablished,
    tcpStateFinWait1, tcpStateFinWait2, tcpStateClosing, tcpStateTimeWait, tcpStateCloseWait,
    tcpStateLastAck, udpStateClosed, udpStateConnect, udpStateEstablished, udpStateSend,
    udpStateReceive, udpStateSendDatagram, udpStateReceiveDatagram][n]?

/-- The two protocols that are monitored. -/
inductive Protocol where
  | tcp | udp
deriving DecidableEq, Repr

/-- The types of connections that are reported. -/
inductive ConnectionType where
  | tcpConnection | tcpListening | udpConnection | udpListening
deriving DecidableEq, Repr

/-- The connection states that are reported. -/
def Protocol.connectionType : Protocol → TcpState → Option ConnectionType
  | .tcp, .tcpStateEstablished => some .tcpConnection
  | .tcp, .tcpStateListen => some .tcpListening
  | .udp, .udpStateSend => some .udpConnection
  | .udp, .udpStateSendDatagram => some .udpConnection
  | .udp, .udpStateConnect => some .udpConnection
  | .udp, .udpStateReceive => some .udpListening
  | .udp, .udpStateReceiveDatagram => some .udpListening
  | _, _ => none

/-- What the client takes from the containers of an event. -/
structure Connection where
  /-- The type, once a state that is reported has been seen. -/
  type : Option ConnectionType := none
  /-- The text of the local address. -/
  source : Bytes := []
  /-- The text of the remote address. -/
  destination : Bytes := []
  /-- The number of the process. -/
  processId : ℕ := 0
deriving DecidableEq, Repr

/-- The number in the first four bytes of the data. -/
def Container.number (c : Container) : ℕ := read32 (fun i => c.data.getD i 0) 0

/-- The text of the data, up to the null byte. -/
def Container.text (c : Container) : Bytes := c.data.takeWhile (· ≠ 0)

/-- A state that is not reported leaves the type as it is, and so does an unknown key. The drivers put
a number under the keys 0 and 3 and a text with its null byte under the keys 1 and 2. -/
def Protocol.take (protocol : Protocol) (con : Connection) (c : Container) : Connection :=
  if c.key = 0 then
    { con with type := ((TcpState.ofNumber c.number).bind protocol.connectionType).or con.type }
  else if c.key = 1 then { con with source := c.text }
  else if c.key = 2 then { con with destination := c.text }
  else if c.key = 3 then { con with processId := c.number }
  else con

/-- The argument of `signal_onConnectionEvent` for an event with the given data, unless its type is
empty or the exclusion list allows it. The path of the process is looked up, which is left to
`isEventAllowed` here. -/
def Protocol.signal (protocol : Protocol) (isEventAllowed : Connection → Bool)
    (data : List Container) : Option Connection :=
  let con := data.foldl protocol.take {}
  if con.type.isSome ∧ ¬ isEventAllowed con then some con else none

/-- `processTcpEvents` and `processUdpEvents`, which differ in `Protocol.take` only: takes the first
event, if there is one. A list of data in the buffer has at most one container for each block. -/
def processEvents (m : Mem) : Option (Option (List Container) × Mem) :=
  if read32 m listHead = 0 then some (none, m)
  else do
    let event := read32 m listHead
    let (data, m) ← readData (bufferBitmapSize * 32) m (read32 m (event + eventHead))
    let m := write32 m listHead (read32 m (event + eventNext))
    return (some data, bufferClearBits m event sizeofEvent)

/-! ## Runs -/

/-- An event that has been created and not yet taken: where it is, where its data are, and what they
were when they were added. -/
structure LiveEvent where
  /-- Where the event is. -/
  offset : ℕ
  /-- Where its containers are, and what was put into them. -/
  data : List (ℕ × Container)

/-- The contents of an event. -/
def LiveEvent.contents (ev : LiveEvent) : List Container := ev.data.map Prod.snd

/-- The blocks of a reservation. -/
def blocksAt (offset size : ℕ) : List ℕ :=
  List.range' ((offset - kernelLayout.buffer) / blockSize) (blocksFor size)

/-- The blocks of an event and of its data. -/
def LiveEvent.blocks (ev : LiveEvent) : List ℕ :=
  blocksAt ev.offset sizeofEvent ++
    ev.data.flatMap fun c => blocksAt c.1 (sizeofDataContainer + c.2.data.length)

/-- The shared memory, and a record of what has happened: the events under construction, those in the
list, the contents of all events that have been inserted and of all that the client has taken, what it
has reported, and the offsets of events that were written to by `InsertEvent` after they had been
released. `hung` says that the loop of the client has not come to an end. -/
structure SharedEventList where
  /-- The shared memory. -/
  mem : Mem
  /-- The events under construction. -/
  building : List LiveEvent
  /-- The events in the list. -/
  queued : List LiveEvent
  /-- The contents of all events that have been inserted. -/
  inserted : List (List Container)
  /-- The contents of all events that the client has taken. -/
  taken : List (List Container)
  /-- What the client has reported. -/
  signals : List Connection
  /-- The released events that `InsertEvent` has written to. -/
  staleWrites : List ℕ
  /-- The loop of the client has not come to an end. -/
  hung : Bool

/-- `InitialiseSharedEventList`. The pages of the buffer are zeroed. -/
def SharedEventList.initialise : SharedEventList where
  mem := write32 (fun _ => 0) sizeOfBitMap (bufferBitmapSize * 32)
  building := []
  queued := []
  inserted := []
  taken := []
  signals := []
  staleWrites := []
  hung := false

/-- A call of the kernel side, for an event that it has created and not yet inserted, or of the user
side. -/
inductive Action where
  | createEvent
  | addEventData (event : ℕ) (d : EventData)
  | insertEvent (event : ℕ)
  | processEvents

namespace SharedEventList

variable (rtl : RtlFindClearBits) (protocol : Protocol) (isEventAllowed : Connection → Bool)
variable (s : SharedEventList)

/-- `CreateEvent`, with a new event under construction if there is space. -/
def create : SharedEventList :=
  match createEvent rtl s.mem with
  | none => s
  | some (event, mem) => { s with mem, building := s.building ++ [⟨event, []⟩] }

/-- The contents of a container after the call; if no data are given, they are what was there. -/
def contentsOf (d : EventData) (m : Mem) (container : ℕ) : Container where
  key := d.key
  type := d.type
  data := match d.data with
    | some l => l.1
    | none => readBytes m (container + dataBytes) d.size

/-- `AddEventData` for an event under construction. -/
def add (event : ℕ) (d : EventData) : SharedEventList :=
  if event ∈ s.building.map LiveEvent.offset then
    match addEventData rtl s.mem event d with
    | none => s
    | some (container, mem) =>
      let extend := fun ev : LiveEvent =>
        if ev.offset = event then
          { ev with data := ev.data ++ [(container, contentsOf d mem container)] }
        else ev
      { s with mem, building := s.building.map extend }
  else s

/-- `InsertEvent` for an event under construction, which is in the list then. -/
def insert (event : ℕ) : SharedEventList :=
  match s.building.find? fun ev => ev.offset = event with
  | none => s
  | some ev =>
    let tail := read32 s.mem listTail
    let live := (s.building ++ s.queued).map LiveEvent.offset
    { s with
      mem := insertEvent s.mem event
      building := s.building.filter fun ev => ev.offset ≠ event
      queued := s.queued ++ [ev]
      inserted := s.inserted ++ [ev.contents]
      staleWrites := if tail ≠ 0 ∧ tail ∉ live then s.staleWrites ++ [tail] else s.staleWrites }

/-- The record after the client has read the given data. -/
def take : Option (Option (List Container) × Mem) → SharedEventList
  | none => { s with hung := true }
  | some (none, _) => s
  | some (some data, mem) =>
    { s with
      mem
      queued := s.queued.filter fun ev => ev.offset ≠ read32 s.mem listHead
      taken := s.taken ++ [data]
      signals := s.signals ++ (protocol.signal isEventAllowed data).toList }

/-- The client processes the first event. -/
def process : SharedEventList := s.take protocol isEventAllowed (processEvents s.mem)

/-- What a call does. -/
def step (s : SharedEventList) : Action → SharedEventList
  | .createEvent => s.create rtl
  | .addEventData event d => s.add rtl event d
  | .insertEvent event => s.insert event
  | .processEvents => s.process protocol isEventAllowed

/-- The shared list after the given calls, in any order. -/
def run (actions : List Action) : SharedEventList :=
  actions.foldl (step rtl protocol isEventAllowed) initialise

/-! ## What is expected of a run -/

/-- The client takes the events that have been inserted, each once and in their order, and the list is
empty only if it has taken all of them; it reports what it takes. `InsertEvent` writes to no event that
has been released. -/
structure Delivered (s : SharedEventList) : Prop where
  /-- The loops of the client come to an end. -/
  running : s.hung = false
  /-- What has been taken is the beginning of what has been inserted. -/
  in_order : s.taken <+: s.inserted
  /-- The list is empty exactly if all has been taken. -/
  complete : read32 s.mem listHead = 0 ↔ s.taken = s.inserted
  /-- What has been taken is reported. -/
  reported : s.signals = s.taken.filterMap (protocol.signal isEventAllowed)
  /-- No released event is written to. -/
  no_stale_write : s.staleWrites = []

/-- The bitmap still has all blocks of the events that have not been taken. -/
def Marked (s : SharedEventList) : Prop :=
  ∀ ev ∈ s.building ++ s.queued, ∀ b ∈ ev.blocks, testBit s.mem b = true

instance (s : SharedEventList) : Decidable s.Marked :=
  inferInstanceAs (Decidable (∀ ev ∈ _, ∀ b ∈ _, _))

/-- Space is reserved only while the bitmap has all blocks of the events that have not been taken, and
an event is inserted only into a list that is not empty or has never had an event. -/
def Careful (s : SharedEventList) : Action → Prop
  | .createEvent => s.Marked
  | .addEventData _ _ => s.Marked
  | .insertEvent _ => read32 s.mem listHead ≠ 0 ∨ read32 s.mem listTail = 0
  | .processEvents => True

/-- The tail of a list that has become empty lies in no block of an event that has not been taken. -/
def TailFree (s : SharedEventList) : Prop :=
  read32 s.mem listHead = 0 → read32 s.mem listTail ≠ 0 →
    ∀ ev ∈ s.building ++ s.queued, (read32 s.mem listTail - kernelLayout.buffer) / blockSize ∉ ev.blocks

instance (s : SharedEventList) : Decidable s.TailFree :=
  inferInstanceAs (Decidable (_ → _ → ∀ ev ∈ _, _))

instance (s : SharedEventList) : (a : Action) → Decidable (s.Careful a)
  | .createEvent => inferInstanceAs (Decidable s.Marked)
  | .addEventData _ _ => inferInstanceAs (Decidable s.Marked)
  | .insertEvent _ => inferInstanceAs (Decidable (_ ∨ _))
  | .processEvents => inferInstanceAs (Decidable True)

end SharedEventList

/-! ## The events in the memory

The buffer of the drivers begins at 4120 and has 32768 blocks of 16 bytes. An event has 20 bytes, with the
head and the tail of its data at 12 and 16; its containers have 16 bytes before the data. -/

/-- A reservation inside the buffer. -/
structure Piece (offset size : ℕ) : Prop where
  /-- It begins in the buffer of the drivers. -/
  le : 4120 ≤ offset
  /-- It begins at a block. -/
  aligned : (offset - 4120) % 16 = 0
  /-- It ends in the buffer. -/
  inside : (offset - 4120) / 16 + (size + 15) / 16 ≤ 32768
  /-- It is not empty. -/
  pos : 0 < size
  /-- Its number of blocks is computed without overflow. -/
  small : size + 15 < 2 ^ 32

/-- The container at `c` has the given contents. -/
structure ContainerAt (m : Mem) (c : ℕ) (d : Container) : Prop where
  /-- The key is in its place. -/
  key_eq : read32 m (c + 4) = d.key.toNat
  /-- The type is in its place. -/
  type_eq : read32 m (c + 8) = d.type.toNat
  /-- The size is in its place. -/
  size_eq : read32 m (c + 12) = d.data.length
  /-- The data are behind them. -/
  data_eq : readBytes m (c + 16) d.data.length = d.data

/-- An event is in the memory as the record says: its containers are linked in their order, and nothing
overlaps. -/
structure EventAt (m : Mem) (ev : LiveEvent) : Prop where
  /-- The event is a reservation. -/
  piece : Piece ev.offset 20
  /-- So is each of its containers. -/
  pieces : ∀ p ∈ ev.data, Piece p.1 (16 + p.2.data.length)
  /-- No block is used twice. -/
  nodup : ev.blocks.Nodup
  /-- The containers are linked from the head to the tail. -/
  linked : Linked m (ev.offset + 12) (ev.offset + 16) (ev.data.map Prod.fst)
  /-- Without containers the tail is null. -/
  tail_zero : ev.data = [] → read32 m (ev.offset + 16) = 0
  /-- The containers hold what the record says. -/
  contents : ∀ p ∈ ev.data, ContainerAt m p.1 p.2

/-- The record of a run agrees with the memory. -/
structure SharedEventList.Intact (protocol : Protocol) (isEventAllowed : Connection → Bool)
    (s : SharedEventList) : Prop where
  /-- The number of blocks is the one that the drivers have written. -/
  size_eq : read32 s.mem 8 = 32768
  /-- All events that have not been taken are there. -/
  events : ∀ ev ∈ s.queued ++ s.building, EventAt s.mem ev
  /-- No two of them have a block in common. -/
  apart : (s.queued ++ s.building).Pairwise fun x y => List.Disjoint x.blocks y.blocks
  /-- Those under construction are not linked yet. -/
  next_zero : ∀ ev ∈ s.building, read32 s.mem ev.offset = 0
  /-- The others are linked in the order of their insertion. -/
  list : Linked s.mem 0 4 (s.queued.map LiveEvent.offset)
  /-- The tail is that of a list without events, or a place of the buffer where an event is or was. -/
  tail : read32 s.mem 4 = 0 ∨ Piece (read32 s.mem 4) 20
  /-- The client has taken the events that are no longer in the list. -/
  log : s.inserted = s.taken ++ s.queued.map LiveEvent.contents
  /-- It has reported what it has taken. -/
  reported : s.signals = s.taken.filterMap (protocol.signal isEventAllowed)
  /-- None of its loops has failed to end. -/
  running : s.hung = false

end CaptureHpc
