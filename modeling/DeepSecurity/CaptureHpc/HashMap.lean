import DeepSecurity.Lib.DList
import DeepSecurity.Lib.Heap

/-!
# The hash map of the drivers

`HashMap.c`: a table of buckets, each a doubly linked list of pairs in the order of their insertion. A
pair is an object in the memory pool, named by its address, and a null pointer is `none`. An access to an
address that has no pair is a fault. `DestroyHashMap` and `IterateHashMap` are left out.
-/

namespace CaptureHpc

/-- The address of an object. -/
abbrev Addr := UInt32

/-- `PVOID` and the pointers to pairs. -/
abbrev Pointer := Option Addr

/-- A pair in the list of its bucket. -/
structure Pair extends DList.Links Addr where
  /-- The key. -/
  key : UInt32
  /-- The value, a pointer. -/
  value : Pointer

/-- Without the lock, which no function takes. -/
structure Entry where
  /-- The first pair of the bucket. -/
  head : Pointer
  /-- The last pair of the bucket. -/
  tail : Pointer

/-- `HASH_MAP_SIZE` -/
def hashMapSize : ℕ := 1024

/-- The pairs by their addresses. -/
abbrev PairHeap := Heap Addr Pair

/-- The entries and the pairs that are allocated. -/
structure HashMap where
  /-- The entry of each bucket, once it has one. -/
  map : Fin hashMapSize → Option Entry
  /-- The pairs. -/
  pool : PairHeap

/-- The answers to the two requests for memory of an insertion. -/
structure Pool where
  /-- There is memory for an entry. -/
  entry : Bool
  /-- Where there is memory for a pair, if there is any. -/
  pair : Heap.Allocator Addr Pair

namespace PairHeap

/-- `p->next = next`, if `p` is not null. -/
def setNext (mem : PairHeap) (p next : Pointer) : Checked PairHeap :=
  match p with
  | none => pure mem
  | some a => Heap.modify mem a fun pair => { pair with next }

/-- `p->prev = prev`, if `p` is not null. -/
def setPrev (mem : PairHeap) (p prev : Pointer) : Checked PairHeap :=
  match p with
  | none => pure mem
  | some a => Heap.modify mem a fun pair => { pair with prev }

end PairHeap

namespace HashMap

/-- `key % HASH_MAP_SIZE` -/
def hash (key : UInt32) : Fin hashMapSize := ⟨key.toNat % hashMapSize, Nat.mod_lt _ (by decide)⟩

/-- A map without entries. -/
def initialise : HashMap := ⟨fun _ => none, fun _ => none⟩

/-- The entry of the bucket, which is allocated if there is none. -/
def entryFor (hashMap : HashMap) (i : Fin hashMapSize) (granted : Bool) : Option Entry :=
  match hashMap.map i with
  | some entry => some entry
  | none => if granted then some ⟨none, none⟩ else none

/-- Puts a pair at the end of its bucket. The result is false if there is no memory for it. -/
def insertHashMap (hashMap : HashMap) (key : UInt32) (value : Pointer) (pool : Pool) :
    Checked (Bool × HashMap) :=
  match hashMap.entryFor (hash key) pool.entry with
  | none => return (false, hashMap)
  | some entry => do
    -- an entry that is new stays even if there is no memory for the pair
    let hashMap := { hashMap with map := Function.update hashMap.map (hash key) (some entry) }
    match pool.pair.pick hashMap.pool with
    | none => return (false, hashMap)
    | some pair =>
      let mem := hashMap.pool.write pair { key, value, next := none, prev := entry.tail }
      let head := if entry.head = none then some pair else entry.head
      let mem ← PairHeap.setNext mem entry.tail (some pair)
      return (true, ⟨Function.update hashMap.map (hash key) (some ⟨head, some pair⟩), mem⟩)

/-- The loop of `FindHashMap`. -/
def findLoop (mem : PairHeap) (key : UInt32) : (rounds : ℕ) → (pair : Pointer) → Checked Pointer
  | 0, _ => Checked.diverge
  | _ + 1, none => return none
  | rounds + 1, some a => do
    let pair ← mem.read a
    if pair.key = key then return some a
    else findLoop mem key rounds pair.next

/-- There are less than `2 ^ 32` pairs, so a walk that takes more rounds is in a cycle. -/
def findHashMap (hashMap : HashMap) (key : UInt32) : Checked Pointer :=
  match hashMap.map (hash key) with
  | none => return none
  | some entry => findLoop hashMap.pool key (2 ^ 32 + 1) entry.head

/-- The value of the first pair with the key, null if there is none. -/
def findHashMapValue (hashMap : HashMap) (key : UInt32) : Checked Pointer := do
  match ← hashMap.findHashMap key with
  | none => return none
  | some a =>
    let pair ← hashMap.pool.read a
    return pair.value

/-- Takes the first pair with the key out of its bucket and frees it. -/
def removeHashMap (hashMap : HashMap) (key : UInt32) : Checked (Bool × HashMap) := do
  match ← hashMap.findHashMap key with
  | none => return (false, hashMap)
  | some a =>
    let pair ← hashMap.pool.read a
    let mem ← PairHeap.setPrev hashMap.pool pair.next pair.prev
    let pair ← mem.read a
    let mem ← PairHeap.setNext mem pair.prev pair.next
    let pair ← mem.read a
    match hashMap.map (hash key) with
    | none => Checked.fault
    | some entry =>
      let head := if entry.head = some a then pair.next else entry.head
      let tail := if entry.tail = some a then pair.prev else entry.tail
      return (true, ⟨Function.update hashMap.map (hash key) (some ⟨head, tail⟩), mem.free a⟩)

/-! ## Calls -/

/-- A call of one of the three functions. -/
inductive Call where
  | insert (key : UInt32) (value : Pointer) (pool : Pool)
  | remove (key : UInt32)
  | find (key : UInt32)

/-- What such a call returns. -/
inductive Answer where
  | inserted (success : Bool)
  | removed (existed : Bool)
  | found (value : Pointer)
deriving DecidableEq

/-- What a call returns, and the map after it. -/
def serve (hashMap : HashMap) : Call → Checked (Answer × HashMap)
  | .insert key value pool => do
    let (success, hashMap) ← hashMap.insertHashMap key value pool
    return (.inserted success, hashMap)
  | .remove key => do
    let (existed, hashMap) ← hashMap.removeHashMap key
    return (.removed existed, hashMap)
  | .find key => do
    let value ← hashMap.findHashMapValue key
    return (.found value, hashMap)

/-- What has been called, with the answers. -/
abbrev History := List (Call × Answer)

/-- A call is noted with its answer. -/
def step (s : History × HashMap) (call : Call) : Checked (History × HashMap) := do
  let (answer, hashMap) ← s.2.serve call
  return (s.1 ++ [(call, answer)], hashMap)

/-- The history and the map after the calls. -/
def run (calls : List Call) : Checked (History × HashMap) := calls.foldlM step ([], initialise)

/-! ## What the map is for -/

/-- Each key has a queue of values. -/
abbrev Queues := UInt32 → List Pointer

namespace Queues

/-- A value is put behind the others of its key. -/
def enqueue (q : Queues) (key : UInt32) (value : Pointer) : Queues :=
  Function.update q key (q key ++ [value])

/-- The first value of the key is taken away. -/
def dequeue (q : Queues) (key : UInt32) : Queues := Function.update q key (q key).tail

/-- What a call does to the queues, by its answer. -/
def apply (q : Queues) : Call × Answer → Queues
  | (.insert key value _, .inserted true) => q.enqueue key value
  | (.remove key, _) => q.dequeue key
  | _ => q

/-- The values inserted and not yet removed. -/
def ofHistory (history : History) : Queues := history.foldl apply fun _ => []

end Queues

/-- There is memory for all that is needed: for the entry, unless the bucket has one already, and for the
pair. -/
def grants (hashMap : HashMap) (key : UInt32) (pool : Pool) : Bool :=
  ((hashMap.map (hash key)).isSome || pool.entry) && (pool.pair.pick hashMap.pool).isSome

/-- The answer that a map from keys to queues gives. -/
def expected (hashMap : HashMap) (q : Queues) : Call → Answer
  | .insert key _ pool => .inserted (hashMap.grants key pool)
  | .remove key => .removed !(q key).isEmpty
  | .find key => .found (q key).head?.join

/-- The links of the pairs. -/
def links (mem : PairHeap) : DList.Graph Addr := fun a => (mem a).map Pair.toLinks

/-- The values under the key, in the order of the pairs. -/
def valuesAt (mem : PairHeap) (key : UInt32) (l : List Addr) : List Pointer :=
  l.filterMap fun a => (mem a).bind fun pair => if pair.key = key then some pair.value else none

/-- The pairs of the bucket `i`: from the head along `next` and, in the opposite order, from the tail along
`prev`. -/
structure Bucket (hashMap : HashMap) (i : Fin hashMapSize) (l : List Addr) : Prop where
  /-- The head leads through the pairs. -/
  forward : DList.Visits (fun a => (links hashMap.pool a).map DList.Links.next)
    ((hashMap.map i).bind Entry.head) l
  /-- The tail leads back through them. -/
  backward : DList.Visits (fun a => (links hashMap.pool a).map DList.Links.prev)
    ((hashMap.map i).bind Entry.tail) l.reverse
  /-- The pairs have keys of this bucket. -/
  placed : ∀ a ∈ l, ∃ pair, hashMap.pool a = some pair ∧ hash pair.key = i

/-- The buckets hold the queues. -/
def Refines (hashMap : HashMap) (q : Queues) : Prop :=
  ∀ i, ∃ l, hashMap.Bucket i l ∧ ∀ key, hash key = i → valuesAt hashMap.pool key l = q key

end HashMap

/-! ## Records in a map -/

/-- A hash map whose values point to the records of a lookaside list. -/
structure RecordMap (R : Type) where
  /-- The map from keys to records. -/
  table : HashMap
  /-- The records by their addresses. -/
  pool : Heap Addr R

namespace RecordMap

variable {R : Type}

/-- No record, and a map without entries. -/
def initialise : RecordMap R := ⟨HashMap.initialise, fun _ => none⟩

/-- The answers to the requests for memory when a record is put into the map. -/
structure Allocation (R : Type) where
  /-- Where there is memory for the record, if there is any. -/
  record : Heap.Allocator Addr R
  /-- What there is for its entry and its pair. -/
  pool : Pool

end RecordMap

end CaptureHpc
