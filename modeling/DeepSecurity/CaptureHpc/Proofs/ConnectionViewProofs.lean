import DeepSecurity.CaptureHpc.Proofs.RecordMapProofs
import DeepSecurity.CaptureHpc.TdiIrpHandlers

/-!
# Proofs: views of the connections

A `View` leaves out what is in a connection. On views the handlers do one of few things: a connection is
created, given to a node, taken from a node and freed, and nodes are added and removed. `Inv` says that
nothing is freed twice and that no node has a connection that has been freed, `NoLeak` that every
connection belongs to a node.
-/

namespace CaptureHpc

namespace Tdi

/-! ## Views -/

/-- How often the memory has been freed, if it has been. -/
def Memory.times : Memory → Option ℕ
  | .allocated _ => none
  | .freed times => some times

structure View where
  connections : RecordMap ConnectionNode
  memory : List (Option ℕ)
  eventHandlerManager : EventHandlerManager

namespace View

variable {v : View} {ptr : UInt32 → Pointer} {key : UInt32} {a : Addr} {r : ConnectionNode} {c : ℕ}

/-- Some record has the connection. -/
def Held (v : View) (c : ℕ) : Prop := ∃ a r, v.connections.pool a = some r ∧ r.connection = some c

structure Inv (v : View) (ptr : UInt32 → Pointer) : Prop where
  refers : v.connections.Refers ptr
  node : ∀ key a r, ptr key = some a → v.connections.pool a = some r → r.node.1 = key
  holder : ∀ a r c, v.connections.pool a = some r → r.connection = some c → ptr r.node.1 = some a
  unique : ∀ a b r s c, v.connections.pool a = some r → v.connections.pool b = some s →
    r.connection = some c → s.connection = some c → a = b
  valid : ∀ c, v.Held c → v.memory[c]? = some none
  once : ∀ (c times : ℕ), v.memory[c]? = some (some times) → times = 1
  events : ∃ ptr, v.eventHandlerManager.Refers ptr

def NoLeak (v : View) : Prop := ∀ c, v.memory[c]? = some none → v.Held c

def create (v : View) : View := { v with memory := v.memory ++ [none] }

def setConnection (v : View) (a : Addr) (r : ConnectionNode) (connection : Option ℕ) : View :=
  { v with connections := ⟨v.connections.table, v.connections.pool.write a { r with connection }⟩ }

def free (v : View) (c : ℕ) : View :=
  { v with memory := v.memory.modify c fun times => some (times.getD 0 + 1) }

/-! ### Creating -/

theorem Inv.not_held_length (h : v.Inv ptr) : ¬ v.Held v.memory.length := by
  intro hheld
  have hvalid := h.valid _ hheld
  rw [List.getElem?_eq_none le_rfl] at hvalid
  cases hvalid

theorem Inv.create (h : v.Inv ptr) : v.create.Inv ptr := by
  refine ⟨h.refers, h.node, h.holder, h.unique, fun c hc => ?_, fun c times hc => ?_, h.events⟩
  · exact List.getElem?_append_left (List.getElem?_eq_some_iff.mp (h.valid c hc)).1 ▸ h.valid c hc
  · by_cases hlt : c < v.memory.length
    · rw [View.create, List.getElem?_append_left hlt] at hc
      exact h.once c times hc
    · rw [View.create, List.getElem?_append_right (not_lt.mp hlt)] at hc
      simp [List.getElem?_singleton] at hc

theorem create_getElem? (c : ℕ) :
    v.create.memory[c]? = some none ↔ v.memory[c]? = some none ∨ c = v.memory.length := by
  rw [create, List.getElem?_append]
  split_ifs with hlt
  · simp [hlt.ne]
  · rw [List.getElem?_eq_none (not_lt.mp hlt), List.getElem?_singleton]
    simp only [reduceCtorEq, false_or]
    constructor
    · intro hsome
      split_ifs at hsome
      omega
    · rintro rfl
      simp

theorem Inv.not_noLeak_create (h : v.Inv ptr) : ¬ v.create.NoLeak := fun hleak =>
  h.not_held_length (hleak v.memory.length ((create_getElem? _).mpr (.inr rfl)))

/-! ### Giving to a node and taking from it -/

section

variable {connection : Option ℕ}

theorem held_setConnection (h : v.Inv ptr) (hr : v.connections.pool a = some r) :
    (v.setConnection a r connection).Held c ↔
      connection = some c ∨ v.Held c ∧ r.connection ≠ some c := by
  constructor
  · rintro ⟨b, s, hs, hc⟩
    by_cases hb : b = a
    · subst hb
      obtain rfl : { r with connection } = s := by simpa [setConnection] using hs
      exact .inl hc
    · have hs' : v.connections.pool b = some s := by simpa [setConnection, Heap.write_of_ne hb] using hs
      exact .inr ⟨⟨b, s, hs', hc⟩, fun hrc => hb (h.unique b a s r c hs' hr hc hrc)⟩
  · rintro (hc | ⟨⟨b, s, hs, hc⟩, hne⟩)
    · exact ⟨a, { r with connection }, by simp [setConnection], hc⟩
    · have hb : b ≠ a := by
        rintro rfl
        rw [hr, Option.some_inj] at hs
        exact hne (hs ▸ hc)
      exact ⟨b, s, by simpa [setConnection, Heap.write_of_ne hb] using hs, hc⟩

theorem Inv.setConnection (h : v.Inv ptr) (hkey : ptr key = some a)
    (hr : v.connections.pool a = some r)
    (hnew : ∀ c, connection = some c → v.memory[c]? = some none ∧ ¬ v.Held c) :
    (v.setConnection a r connection).Inv ptr := by
  have hpool (b : Addr) (s : ConnectionNode)
      (hs : (v.setConnection a r connection).connections.pool b = some s) :
      b = a ∧ s = { r with connection } ∨ b ≠ a ∧ v.connections.pool b = some s := by
    by_cases hb : b = a
    · subst hb
      exact .inl ⟨rfl, by simpa [View.setConnection, eq_comm] using hs⟩
    · exact .inr ⟨hb, by simpa [View.setConnection, Heap.write_of_ne hb] using hs⟩
  have hnode := h.node key a r hkey hr
  refine ⟨h.refers.write a _, fun key' b s hkey' hs => ?_, fun b s c hs hc => ?_,
    fun b b' s s' c hs hs' hc hc' => ?_, fun c hc => ?_, h.once, h.events⟩
  · rcases hpool b s hs with ⟨rfl, rfl⟩ | ⟨-, hs⟩
    · exact h.node key' _ r hkey' hr
    · exact h.node key' b s hkey' hs
  · rcases hpool b s hs with ⟨rfl, rfl⟩ | ⟨-, hs⟩
    · exact hnode ▸ hkey
    · exact h.holder b s c hs hc
  · rcases hpool b s hs with ⟨rfl, rfl⟩ | ⟨-, hs⟩
    · rcases hpool b' s' hs' with ⟨rfl, -⟩ | ⟨-, hs'⟩
      · rfl
      · exact absurd ⟨b', s', hs', hc'⟩ (hnew c hc).2
    · rcases hpool b' s' hs' with ⟨-, rfl⟩ | ⟨-, hs'⟩
      · exact absurd ⟨b, s, hs, hc⟩ (hnew c hc').2
      · exact h.unique b b' s s' c hs hs' hc hc'
  · rcases (held_setConnection h hr).mp hc with hc | ⟨hc, -⟩
    · exact (hnew c hc).1
    · exact h.valid c hc

end

/-- A new connection for the node. -/
def attach (v : View) (a : Addr) (r : ConnectionNode) : View :=
  v.create.setConnection a r (some v.memory.length)

theorem create_memory (v : View) : v.create.memory[v.memory.length]? = some none :=
  (create_getElem? _).mpr (.inr rfl)

theorem attach_memory (v : View) (a : Addr) (r : ConnectionNode) :
    (v.attach a r).memory[v.memory.length]? = some none := v.create_memory

theorem attach_pool (a : Addr) (r : ConnectionNode) :
    (v.attach a r).connections.pool a = some { r with connection := some v.memory.length } :=
  Heap.write_self

theorem Inv.attach (h : v.Inv ptr) (hkey : ptr key = some a) (hr : v.connections.pool a = some r) :
    (v.attach a r).Inv ptr := by
  refine h.create.setConnection hkey hr ?_
  rintro c ⟨rfl⟩
  exact ⟨v.create_memory, h.not_held_length⟩

theorem Inv.noLeak_attach (h : v.Inv ptr) (hr : v.connections.pool a = some r) (hleak : v.NoLeak) :
    (v.attach a r).NoLeak ↔ r.connection = none := by
  constructor
  · intro hattach
    by_contra hsome
    obtain ⟨c, hc⟩ := Option.ne_none_iff_exists'.mp hsome
    have hvalid := h.valid c ⟨a, r, hr, hc⟩
    rcases (held_setConnection h.create hr).mp (hattach c ((create_getElem? c).mpr (.inl hvalid)))
      with hnew | ⟨-, hne⟩
    · rw [← Option.some.inj hnew, List.getElem?_eq_none le_rfl] at hvalid
      cases hvalid
    · exact hne hc
  · intro hnone c hc
    refine (held_setConnection h.create hr).mpr ?_
    rcases (create_getElem? c).mp hc with hc | rfl
    · exact .inr ⟨hleak c hc, by simp [hnone]⟩
    · exact .inl rfl

/-! ### Freeing -/

theorem free_getElem? (c d : ℕ) :
    (v.free c).memory[d]? =
      if c = d then (v.memory[d]?).map fun times => some (times.getD 0 + 1) else v.memory[d]? := by
  rw [free, List.getElem?_modify]
  split_ifs <;> simp

/-- A connection that no node has any more is freed for the first time. -/
theorem Inv.free (h : v.Inv ptr) (hmemory : v.memory[c]? = some none) (hheld : ¬ v.Held c) :
    (v.free c).Inv ptr := by
  refine ⟨h.refers, h.node, h.holder, h.unique, fun d hd => ?_, fun d times hd => ?_, h.events⟩
  · have hne : c ≠ d := fun heq => hheld (heq ▸ hd)
    rw [free_getElem?, if_neg hne]
    exact h.valid d hd
  · rw [free_getElem?] at hd
    split_ifs at hd with heq
    · rw [← heq, hmemory] at hd
      simpa using hd.symm
    · exact h.once d times hd

theorem noLeak_free (h : ∀ d, d ≠ c → v.memory[d]? = some none → v.Held d) : (v.free c).NoLeak := by
  intro d hd
  rw [free_getElem?] at hd
  split_ifs at hd with heq
  · obtain ⟨times, -, htimes⟩ := Option.map_eq_some_iff.mp hd
    cases htimes
  · exact h d (Ne.symm heq) hd

/-- Handlers of events are set or removed. -/
theorem Inv.withEvents (h : v.Inv ptr) {e : EventHandlerManager} {ptr' : UInt32 → Pointer}
    (he : e.Refers ptr') : View.Inv { v with eventHandlerManager := e } ptr :=
  ⟨h.refers, h.node, h.holder, h.unique, h.valid, h.once, ptr', he⟩

/-! ### Adding and removing nodes -/

/-- A new node without a connection, which may not get into the map. -/
theorem Inv.addNode (h : v.Inv ptr) {ptr' : UInt32 → Pointer} {table : HashMap} {node : FileObject}
    (ha : v.connections.pool a = none)
    (hrefers : RecordMap.Refers ⟨table, v.connections.pool.write a ⟨node, none⟩⟩ ptr')
    (hptr : ∀ key b, ptr key = some b → ptr' key = some b)
    (hptr' : ∀ key b, ptr' key = some b → key = node.1 ∧ b = a ∨ ptr key = some b) :
    View.Inv { v with connections := ⟨table, v.connections.pool.write a ⟨node, none⟩⟩ } ptr' := by
  have hpool {b : Addr} {s : ConnectionNode} {c : ℕ}
      (hs : v.connections.pool.write a ⟨node, none⟩ b = some s) (hc : s.connection = some c) :
      v.connections.pool b = some s := by
    by_cases hb : b = a
    · subst hb
      rw [Heap.write_self, Option.some_inj] at hs
      rw [← hs] at hc
      cases hc
    · rwa [Heap.write_of_ne hb] at hs
  refine ⟨hrefers, fun key b s hkey hs => ?_, fun b s c hs hc => ?_, fun b b' s s' c hs hs' hc hc' => ?_,
    ?_, h.once, h.events⟩
  · by_cases hb : b = a
    · subst hb
      simp only [Heap.write_self, Option.some_inj] at hs
      rcases hptr' key _ hkey with ⟨rfl, -⟩ | hkey
      · rw [← hs]
      · obtain ⟨s', hs'⟩ := h.refers.exists_record hkey
        rw [ha] at hs'
        cases hs'
    · simp only [Heap.write_of_ne hb] at hs
      rcases hptr' key b hkey with ⟨-, heq⟩ | hkey
      · exact absurd heq hb
      · exact h.node key b s hkey hs
  · exact hptr _ _ (h.holder b s c (hpool hs hc) hc)
  · exact h.unique b b' s s' c (hpool hs hc) (hpool hs' hc') hc hc'
  · rintro c ⟨b, s, hs, hc⟩
    exact h.valid c ⟨b, s, hpool hs hc, hc⟩

theorem noLeak_addNode {table : HashMap} {node : FileObject} (ha : v.connections.pool a = none)
    (h : v.NoLeak) :
    View.NoLeak { v with connections := ⟨table, v.connections.pool.write a ⟨node, none⟩⟩ } := by
  intro c hc
  obtain ⟨b, s, hs, hsc⟩ := h c hc
  have hb : b ≠ a := by
    rintro rfl
    rw [ha] at hs
    cases hs
  exact ⟨b, s, by simpa [Heap.write_of_ne hb] using hs, hsc⟩

/-- A node is removed from the map and freed. -/
def removeNode (v : View) (table : HashMap) (a : Addr) : View :=
  { v with connections := ⟨table, v.connections.pool.free a⟩ }

theorem held_removeNode {table : HashMap} (h : v.Inv ptr) (hr : v.connections.pool a = some r) :
    (v.removeNode table a).Held c ↔ v.Held c ∧ r.connection ≠ some c := by
  constructor
  · rintro ⟨b, s, hs, hc⟩
    by_cases hb : b = a
    · simp [removeNode, hb] at hs
    · have hs' : v.connections.pool b = some s := by simpa [removeNode, Heap.free_of_ne hb] using hs
      exact ⟨⟨b, s, hs', hc⟩, fun hrc => hb (h.unique b a s r c hs' hr hc hrc)⟩
  · rintro ⟨⟨b, s, hs, hc⟩, hne⟩
    have hb : b ≠ a := by
      rintro rfl
      rw [hr, Option.some_inj] at hs
      exact hne (hs ▸ hc)
    exact ⟨b, s, by simpa [removeNode, Heap.free_of_ne hb] using hs, hc⟩

theorem Inv.removeNode {table : HashMap} (h : v.Inv ptr) (hkey : ptr key = some a)
    (hr : v.connections.pool a = some r)
    (hrefers : RecordMap.Refers ⟨table, v.connections.pool.free a⟩ (Function.update ptr key none)) :
    (v.removeNode table a).Inv (Function.update ptr key none) := by
  have hpool {b : Addr} {s : ConnectionNode} (hs : v.connections.pool.free a b = some s) :
      b ≠ a ∧ v.connections.pool b = some s := by
    by_cases hb : b = a
    · simp [hb] at hs
    · exact ⟨hb, by rwa [Heap.free_of_ne hb] at hs⟩
  refine ⟨hrefers, fun key' b s hkey' hs => ?_, fun b s c hs hc => ?_,
    fun b b' s s' c hs hs' hc hc' => ?_, fun c hc => ?_, h.once, h.events⟩
  · by_cases hk : key' = key
    · rw [hk, Function.update_self] at hkey'
      cases hkey'
    · rw [Function.update_of_ne hk] at hkey'
      exact h.node key' b s hkey' (hpool hs).2
  · obtain ⟨hb, hs⟩ := hpool hs
    have hholder := h.holder b s c hs hc
    have hk : s.node.1 ≠ key := fun heq => hb (Option.some.inj ((heq ▸ hholder).symm.trans hkey))
    rwa [Function.update_of_ne hk]
  · exact h.unique b b' s s' c (hpool hs).2 (hpool hs').2 hc hc'
  · exact h.valid c ((held_removeNode h hr).mp hc).1

end View

end Tdi

end CaptureHpc
