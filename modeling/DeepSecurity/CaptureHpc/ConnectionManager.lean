import DeepSecurity.CaptureHpc.EventList
import Mathlib.Logic.Function.Iterate

/-!
# Recording the state of a connection

`SetConnectionState` of `ConnectionManager.c` and `AddressToString` of `Connection.c`: the drivers put a
new state of a connection into the shared event list, with one call for the event and one for each of
its four data. None of the results is looked at. The client may be called any number of times before
each of these calls.
-/

namespace CaptureHpc

open ByteMem

namespace ConnectionManager

/-! ## The data of an event -/

/-- An address whose type is `TDI_ADDRESS_TYPE_IP`, the port in the order of the host, or of another
type. -/
inductive NodeAddress where
  | ip (p0 p1 p2 p3 : UInt8) (port : UInt16)
  | other

/-- The fields of a connection that are reported. -/
structure Connection where
  /-- The address of the local node. -/
  localNodeAddress : NodeAddress
  /-- The address of the remote node. -/
  remoteNodeAddress : NodeAddress
  /-- The state that was reported last. -/
  state : TcpState
  /-- The process that has opened the connection. -/
  processId : UInt32

/-- What is in a buffer up to its null byte. -/
abbrev CString := { l : Bytes // l.length < 2 ^ 30 }

/-- The decimal digits of a number. -/
def decimal (n : ℕ) : Bytes := (Nat.toDigits 10 n).map fun c => UInt8.ofNat c.toNat

/-- The format `%d.%d.%d.%d:%u` for a buffer of 128 bytes. Other addresses leave the buffer as it is. -/
def addressToString (address : NodeAddress) (buffer : CString) : CString :=
  match address with
  | .ip p0 p1 p2 p3 port =>
    ⟨(decimal p0.toNat ++ [46] ++ decimal p1.toNat ++ [46] ++ decimal p2.toNat ++ [46] ++
      decimal p3.toNat ++ [58] ++ decimal port.toNat).take 127,
      (List.length_take_le _ _).trans_lt (by decide)⟩
  | .other => buffer

/-- All data are put under a key that is also their type. -/
def item (key : UInt32) (l : Bytes) (h : l.length < 2 ^ 31) : EventData :=
  ⟨key, key, l.length, h, some ⟨l, rfl⟩⟩

/-- A text is added with its null byte. -/
def text (key : UInt32) (buffer : CString) : EventData :=
  item key (buffer.1 ++ [0]) (by have := buffer.2; simp; omega)

/-- The state, the two addresses and the process; the same buffer is used for both addresses. -/
def items (connection : Connection) (tcpState : TcpState) (buffer : CString) : List EventData :=
  let localAddress := addressToString connection.localNodeAddress buffer
  let remoteAddress := addressToString connection.remoteNodeAddress localAddress
  [item 0 (word tcpState.ctorIdx) (by simp [word]), text 1 localAddress, text 2 remoteAddress,
    item 3 (word connection.processId.toNat) (by simp [word])]

/-- The container that the client finds for the data. -/
def carried (d : EventData) : Container := ⟨d.key, d.type, (d.data.map Subtype.val).getD []⟩

/-! ## The calls -/

variable (rtl : RtlFindClearBits) (protocol : Protocol) (isEventAllowed : CaptureHpc.Connection → Bool)

/-- The client processes events `k` times. -/
def clientCalls (k : ℕ) (s : SharedEventList) : SharedEventList :=
  (SharedEventList.process protocol isEventAllowed)^[k] s

/-- `AddEventData`. The event is dereferenced when there is space for the data; `none` if it is null. -/
def addEventData (event : Option ℕ) (d : EventData) (s : SharedEventList) : Option SharedEventList :=
  match event with
  | some event => some (s.add rtl event d)
  | none => if (reserveSpace rtl s.mem (sizeofDataContainer + d.size)).isSome then none else some s

/-- The calls of `AddEventData`, each with the number of calls of the client before it. -/
def addItems (event : Option ℕ) : List (ℕ × EventData) → SharedEventList → Option SharedEventList
  | [], s => some s
  | (k, d) :: rest, s => do
    let s ← addEventData rtl event d (clientCalls protocol isEventAllowed k s)
    addItems event rest s

/-- `InsertEvent`, which dereferences the event at once. -/
def insertEvent (event : Option ℕ) (s : SharedEventList) : Option SharedEventList :=
  event.map fun event => s.insert event

/-- The number of calls of the client before each call. -/
structure Interleaving where
  /-- Before `CreateEvent`. -/
  create : ℕ
  /-- Before the state is added. -/
  state : ℕ
  /-- Before the local address is added. -/
  localAddress : ℕ
  /-- Before the remote address is added. -/
  remoteAddress : ℕ
  /-- Before the process id is added. -/
  processId : ℕ
  /-- Before `InsertEvent`. -/
  insert : ℕ

/-- The data, each with the number of calls of the client before it is added. -/
def Interleaving.adds (c : Interleaving) (data : List EventData) : List (ℕ × EventData) :=
  [c.state, c.localAddress, c.remoteAddress, c.processId].zip data

/-- `none` if a null event is dereferenced. -/
def setConnectionState (c : Interleaving) (buffer : CString) (connection : Option Connection)
    (tcpState : TcpState) (s : SharedEventList) : Option (Option Connection × SharedEventList) :=
  match connection with
  | none => some (none, s)
  | some connection => do
    let s := clientCalls protocol isEventAllowed c.create s
    let event := (createEvent rtl s.mem).map Prod.fst
    let s ← addItems rtl protocol isEventAllowed event (c.adds (items connection tcpState buffer))
      (s.create rtl)
    let s ← insertEvent event (clientCalls protocol isEventAllowed c.insert s)
    return (some { connection with state := tcpState }, s)

/-! ## The states at the calls -/

/-- The list after the calls of `AddEventData` for an event that is not null. -/
def added (event : ℕ) : List (ℕ × EventData) → SharedEventList → SharedEventList
  | [], s => s
  | (k, d) :: rest, s => added event rest ((clientCalls protocol isEventAllowed k s).add rtl event d)

/-- `P` holds of the list and the data at every call of `AddEventData`. -/
def AtEach (P : SharedEventList → EventData → Prop) (event : ℕ) :
    List (ℕ × EventData) → SharedEventList → Prop
  | [], _ => True
  | (k, d) :: rest, s => P (clientCalls protocol isEventAllowed k s) d ∧
      AtEach P event rest ((clientCalls protocol isEventAllowed k s).add rtl event d)

instance decidableAtEach {P : SharedEventList → EventData → Prop} [∀ s d, Decidable (P s d)]
    (event : ℕ) : (adds : List (ℕ × EventData)) → (s : SharedEventList) →
      Decidable (AtEach rtl protocol isEventAllowed P event adds s)
  | [], _ => inferInstanceAs (Decidable True)
  | (k, d) :: rest, s => @instDecidableAnd _ _ inferInstance (decidableAtEach event rest
      ((clientCalls protocol isEventAllowed k s).add rtl event d))

variable (c : Interleaving) (data : List EventData) (s : SharedEventList)

/-- The list at the call of `CreateEvent`. -/
def atCreate : SharedEventList := clientCalls protocol isEventAllowed c.create s

/-- The event that `CreateEvent` returns. -/
def created : Option ℕ := (createEvent rtl (atCreate protocol isEventAllowed c s).mem).map Prod.fst

/-- The list at the call of `InsertEvent` for the event. -/
def atInsert (event : ℕ) : SharedEventList :=
  clientCalls protocol isEventAllowed c.insert (added rtl protocol isEventAllowed event (c.adds data)
    ((atCreate protocol isEventAllowed c s).create rtl))

/-- Space is reserved only while the bitmap has the blocks of all events that have not been taken, and if
the event is inserted into a list that has become empty, the tail of the list lies in no block of an
event. -/
def Undisturbed : Prop :=
  (atCreate protocol isEventAllowed c s).Marked ∧
  ∀ event ∈ created rtl protocol isEventAllowed c s,
    AtEach rtl protocol isEventAllowed (fun s _ => s.Marked) event (c.adds data)
      ((atCreate protocol isEventAllowed c s).create rtl) ∧
    (atInsert rtl protocol isEventAllowed c data s event).TailFree

/-- There is space for the event and for each of its data. -/
def Room : Prop :=
  ∃ event ∈ created rtl protocol isEventAllowed c s,
    AtEach rtl protocol isEventAllowed
      (fun s d => (reserveSpace rtl s.mem (sizeofDataContainer + d.size)).isSome) event (c.adds data)
      ((atCreate protocol isEventAllowed c s).create rtl)

/-- The call has come to its end, the shared list agrees with the record and has the same events under
construction as before, and either one event with all the data has been inserted, or none. -/
def Recorded (protocol : Protocol) (isEventAllowed : CaptureHpc.Connection → Bool)
    (s : SharedEventList) (data : Option (List Container))
    (result : Option (Option Connection × SharedEventList)) : Prop :=
  ∃ con t, result = some (con, t) ∧ t.Intact protocol isEventAllowed ∧ t.building = s.building ∧
    (t.inserted = s.inserted ∨ ∃ contents ∈ data, t.inserted = s.inserted ++ [contents])

instance : Decidable (Undisturbed rtl protocol isEventAllowed c data s) :=
  inferInstanceAs (Decidable (_ ∧ ∀ event ∈ created rtl protocol isEventAllowed c s, _ ∧ _))

instance : Decidable (Room rtl protocol isEventAllowed c data s) :=
  inferInstanceAs (Decidable (∃ event ∈ created rtl protocol isEventAllowed c s, _))

end ConnectionManager

end CaptureHpc
