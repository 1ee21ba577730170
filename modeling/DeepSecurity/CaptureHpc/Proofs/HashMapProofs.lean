import DeepSecurity.CaptureHpc.HashMap
import DeepSecurity.Lib.Trace
import Mathlib.Data.List.Perm.Subperm

/-!
# Proofs: the hash map is a map from keys to queues

`Chains` gives the pairs of every bucket. An insertion appends to the list of one bucket, a removal takes
the first pair with the key out of it, and the pairs of the other buckets stay as they are.
-/

namespace CaptureHpc

open DList

/-! ## Changing the links of a pair -/

namespace PairHeap

variable {mem : PairHeap}

/-- The parts of a pair that are not links. -/
def contents (mem : PairHeap) (a : Addr) : Option (UInt32 × Pointer) :=
  (mem a).map fun pair => (pair.key, pair.value)

theorem isSome_contents (mem : PairHeap) (a : Addr) : (contents mem a).isSome = (mem a).isSome :=
  Option.isSome_map

/-- Only the links of one pair change. -/
theorem modify_spec {a : Addr} (h : (mem a).isSome) (f : Links Addr → Links Addr) :
    ∃ mem', Heap.modify mem a (fun pair => { pair with toLinks := f pair.toLinks }) = .ok mem' ∧
      HashMap.links mem' = (fun b => if some a = some b then (HashMap.links mem b).map f
        else HashMap.links mem b) ∧
      contents mem' = contents mem ∧ ∀ b, some a ≠ some b → mem' b = mem b := by
  obtain ⟨pair, hpair⟩ := Option.isSome_iff_exists.mp h
  refine ⟨_, Heap.modify_eq_ok hpair _, ?_, ?_, ?_⟩
  · funext b
    by_cases hb : b = a
    · subst hb
      simp [HashMap.links, hpair]
    · simp [HashMap.links, Ne.symm hb, Heap.write_of_ne hb]
  · funext b
    by_cases hb : b = a
    · subst hb
      simp [contents, hpair]
    · simp [contents, Heap.write_of_ne hb]
  · intro b hb
    exact Heap.write_of_ne fun heq => hb (by rw [heq])

theorem setNext_spec (mem : PairHeap) (p : Pointer) (h : ∀ a, p = some a → (mem a).isSome)
    (next : Pointer) :
    ∃ mem', setNext mem p next = .ok mem' ∧
      HashMap.links mem' = DList.setNext (HashMap.links mem) p next ∧
      contents mem' = contents mem ∧ ∀ b, p ≠ some b → mem' b = mem b := by
  cases p with
  | none => exact ⟨mem, rfl, by simp [funext_iff, DList.setNext], rfl, fun _ _ => rfl⟩
  | some a => exact modify_spec (h a rfl) fun c => { c with next }

theorem setPrev_spec (mem : PairHeap) (p : Pointer) (h : ∀ a, p = some a → (mem a).isSome)
    (prev : Pointer) :
    ∃ mem', setPrev mem p prev = .ok mem' ∧
      HashMap.links mem' = DList.setPrev (HashMap.links mem) p prev ∧
      contents mem' = contents mem ∧ ∀ b, p ≠ some b → mem' b = mem b := by
  cases p with
  | none => exact ⟨mem, rfl, by simp [funext_iff, DList.setPrev], rfl, fun _ _ => rfl⟩
  | some a => exact modify_spec (h a rfl) fun c => { c with prev }

end PairHeap

namespace HashMap

open PairHeap

/-! ## The values of a bucket -/

section

variable {mem mem' : PairHeap} {key : UInt32} {l : List Addr} {a : Addr} {pair : Pair}

theorem valuesAt_congr (h : ∀ a ∈ l, contents mem' a = contents mem a) :
    valuesAt mem' key l = valuesAt mem key l := by
  have hbind (mem : PairHeap) (a : Addr) :
      ((mem a).bind fun pair => if pair.key = key then some pair.value else none) =
        (contents mem a).bind fun c => if c.1 = key then some c.2 else none := by
    unfold contents
    cases mem a <;> rfl
  unfold valuesAt
  refine List.filterMap_congr fun a ha => ?_
  rw [hbind, hbind, h a ha]

theorem exists_pair_congr {i : Fin hashMapSize} (h : contents mem' a = contents mem a)
    (hmem : ∃ pair, mem a = some pair ∧ hash pair.key = i) :
    ∃ pair, mem' a = some pair ∧ hash pair.key = i := by
  obtain ⟨pair, hpair, rfl⟩ := hmem
  rw [contents, contents, hpair] at h
  obtain ⟨pair', hpair', heq⟩ := Option.map_eq_some_iff.mp h
  exact ⟨pair', hpair', congrArg hash (Prod.mk.inj heq).1⟩

@[simp]
theorem valuesAt_nil : valuesAt mem key [] = [] := rfl

@[simp]
theorem valuesAt_append (l₁ l₂ : List Addr) :
    valuesAt mem key (l₁ ++ l₂) = valuesAt mem key l₁ ++ valuesAt mem key l₂ :=
  List.filterMap_append

theorem valuesAt_cons_of_eq (ha : mem a = some pair) (hkey : pair.key = key) :
    valuesAt mem key (a :: l) = pair.value :: valuesAt mem key l := by
  simp [valuesAt, ha, hkey]

theorem valuesAt_cons_of_ne (ha : mem a = some pair) (hkey : pair.key ≠ key) :
    valuesAt mem key (a :: l) = valuesAt mem key l := by
  simp [valuesAt, ha, hkey]

/-- A pair with the key is looked for. -/
def hasKey (mem : PairHeap) (key : UInt32) (a : Addr) : Bool := (mem a).any fun pair => pair.key = key

theorem valuesAt_eq_nil (h : ∀ a ∈ l, hasKey mem key a = false) : valuesAt mem key l = [] := by
  refine List.filterMap_eq_nil_iff.mpr fun a ha => ?_
  have hkey := h a ha
  unfold hasKey at hkey
  cases hmem : mem a with
  | none => rfl
  | some pair =>
    rw [hmem] at hkey
    have hne : pair.key ≠ key := by simpa using hkey
    simp [hne]

end

theorem Queues.dequeue_of_eq_nil {q : Queues} {key : UInt32} (h : q key = []) : q.dequeue key = q := by
  rw [dequeue, h, List.tail_nil, ← h, Function.update_eq_self]

/-! ## The pairs of every bucket -/

variable {hashMap : HashMap} {l : Fin hashMapSize → List Addr} {q : Queues} {key : UInt32}

structure Chains (hashMap : HashMap) (l : Fin hashMapSize → List Addr) : Prop where
  isList : ∀ i, IsList (links hashMap.pool) ((hashMap.map i).bind Entry.head)
    ((hashMap.map i).bind Entry.tail) (l i)
  placed : ∀ i, ∀ a ∈ l i, ∃ pair, hashMap.pool a = some pair ∧ hash pair.key = i

namespace Chains

theorem index_eq (h : hashMap.Chains l) {i j : Fin hashMapSize} {a : Addr} (hi : a ∈ l i)
    (hj : a ∈ l j) : i = j := by
  obtain ⟨pair, hpair, rfl⟩ := h.placed i a hi
  obtain ⟨pair', hpair', rfl⟩ := h.placed j a hj
  rw [hpair, Option.some_inj] at hpair'
  rw [hpair']

theorem isSome (h : hashMap.Chains l) {i : Fin hashMapSize} {a : Addr} (ha : a ∈ l i) :
    (hashMap.pool a).isSome := by
  obtain ⟨pair, hpair, -⟩ := h.placed i a ha
  rw [hpair]
  rfl

theorem not_mem (h : hashMap.Chains l) {a : Addr} (ha : hashMap.pool a = none) (i : Fin hashMapSize) :
    a ∉ l i := by
  intro hmem
  obtain ⟨pair, hpair, -⟩ := h.placed i a hmem
  rw [ha] at hpair
  cases hpair

theorem eq_nil (h : hashMap.Chains l) {i : Fin hashMapSize} (hmap : hashMap.map i = none) : l i = [] := by
  have hhead := (h.isList i).head_eq
  rw [hmap] at hhead
  exact List.head?_eq_none_iff.mp hhead.symm

theorem exists_entry (h : hashMap.Chains l) {i : Fin hashMapSize} {a : Addr} (ha : a ∈ l i) :
    ∃ entry, hashMap.map i = some entry := by
  refine Option.ne_none_iff_exists'.mp fun hmap => ?_
  rw [h.eq_nil hmap] at ha
  cases ha

/-- One bucket gets another list. -/
theorem update (h : hashMap.Chains l) {i : Fin hashMapSize} {entry : Entry} {mem : PairHeap}
    {l' : List Addr} (hlist : IsList (links mem) entry.head entry.tail l')
    (hplaced : ∀ a ∈ l', ∃ pair, mem a = some pair ∧ hash pair.key = i)
    (hother : ∀ j ≠ i, ∀ a ∈ l j, mem a = hashMap.pool a) :
    Chains ⟨Function.update hashMap.map i (some entry), mem⟩ (Function.update l i l') := by
  constructor
  · intro j
    by_cases hj : j = i
    · subst hj
      simpa using hlist
    · simp only [Function.update_of_ne hj]
      refine (h.isList j).congr fun a ha => ?_
      rw [links, links, hother j hj a ha]
  · intro j a ha
    by_cases hj : j = i
    · subst hj
      rw [Function.update_self] at ha
      exact hplaced a ha
    · rw [Function.update_of_ne hj] at ha
      obtain ⟨pair, hpair, hplace⟩ := h.placed j a ha
      exact ⟨pair, (hother j hj a ha).trans hpair, hplace⟩

/-- The length of a bucket is limited by the number of addresses. -/
theorem length_le (h : hashMap.Chains l) (i : Fin hashMapSize) : (l i).length ≤ 2 ^ 32 := by
  have hnodup : ((l i).map UInt32.toNat).Nodup :=
    (h.isList i).nodup.map fun a b hab => UInt32.toNat_inj.mp hab
  have hsubset : (l i).map UInt32.toNat ⊆ List.range (2 ^ 32) := by
    intro n hn
    obtain ⟨a, -, rfl⟩ := List.mem_map.mp hn
    exact List.mem_range.mpr a.toNat_lt
  have hlength := (List.subperm_of_subset hnodup hsubset).length_le
  rwa [List.length_map, List.length_range] at hlength

end Chains

/-- The queues are in the buckets. -/
def Represents (hashMap : HashMap) (q : Queues) : Prop :=
  ∃ l, hashMap.Chains l ∧ ∀ key, valuesAt hashMap.pool key (l (hash key)) = q key

theorem Represents.refines (h : hashMap.Represents q) : hashMap.Refines q := by
  obtain ⟨l, hl, hq⟩ := h
  intro i
  refine ⟨l i, ⟨(hl.isList i).visits_next, (hl.isList i).visits_prev, hl.placed i⟩, ?_⟩
  rintro key rfl
  exact hq key

/-- One bucket gets another list, and the queues of its keys change accordingly. -/
theorem Chains.represents (h : hashMap.Chains l)
    (hq : ∀ key, valuesAt hashMap.pool key (l (hash key)) = q key) {i : Fin hashMapSize}
    {entry : Entry} {mem : PairHeap} (l' : List Addr) {q' : Queues}
    (hlist : IsList (links mem) entry.head entry.tail l')
    (hplaced : ∀ a ∈ l', ∃ pair, mem a = some pair ∧ hash pair.key = i)
    (hother : ∀ j ≠ i, ∀ a ∈ l j, mem a = hashMap.pool a)
    (hvalues : ∀ key, hash key = i → valuesAt mem key l' = q' key)
    (hq' : ∀ key, hash key ≠ i → q' key = q key) :
    Represents ⟨Function.update hashMap.map i (some entry), mem⟩ q' := by
  refine ⟨Function.update l i l', h.update hlist hplaced hother, fun key => ?_⟩
  by_cases hi : hash key = i
  · rw [hi, Function.update_self, hvalues key hi]
  · rw [Function.update_of_ne hi, hq' key hi, ← hq key]
    refine valuesAt_congr fun a ha => ?_
    simp only [contents, hother (hash key) hi a ha]

theorem represents_initialise : initialise.Represents fun _ => [] :=
  ⟨fun _ => [], ⟨fun _ => IsList.nil, fun _ a ha => by cases ha⟩, fun _ => rfl⟩

/-! ## Finding -/

/-- The walk goes on to the first pair with the key. -/
theorem findLoop_eq {mem : PairHeap} {prev : Pointer} {l : List Addr} {rounds : ℕ}
    (hseg : Seg (links mem) prev l none) (hrounds : l.length < rounds) :
    findLoop mem key rounds l.head? = .ok (l.find? (hasKey mem key)) := by
  induction l generalizing prev rounds with
  | nil =>
    obtain ⟨rounds, rfl⟩ : ∃ k, rounds = k + 1 := ⟨rounds - 1, by simp at hrounds; omega⟩
    rfl
  | cons a l ih =>
    obtain ⟨rounds, rfl⟩ : ∃ k, rounds = k + 1 := ⟨rounds - 1, by simp at hrounds; omega⟩
    obtain ⟨hlinks, hseg⟩ := hseg
    obtain ⟨pair, hpair, hpairlinks⟩ := Option.map_eq_some_iff.mp hlinks
    have hnext : pair.next = l.head? := by
      rw [hpairlinks, Option.or_none]
    have hlength : l.length < rounds := by simpa using hrounds
    have hrest := ih hseg hlength
    by_cases hkey : pair.key = key
    · simp [findLoop, Heap.read_eq_ok hpair, hasKey, hpair, hkey, bind, Except.bind, pure, Except.pure]
    · simp [findLoop, Heap.read_eq_ok hpair, hasKey, hpair, hkey, hnext, hrest, bind, Except.bind]

/-- Either there is no value under the key, or the first pair with the key is found. -/
theorem findHashMap_spec (h : hashMap.Chains l) (key : UInt32) :
    hashMap.findHashMap key = .ok none ∧ valuesAt hashMap.pool key (l (hash key)) = [] ∨
      ∃ a pair l₁ l₂, hashMap.findHashMap key = .ok (some a) ∧ l (hash key) = l₁ ++ a :: l₂ ∧
        hashMap.pool a = some pair ∧ pair.key = key ∧ valuesAt hashMap.pool key l₁ = [] := by
  have hlist := h.isList (hash key)
  have hfind : hashMap.findHashMap key = .ok ((l (hash key)).find? (hasKey hashMap.pool key)) := by
    unfold findHashMap
    cases hentry : hashMap.map (hash key) with
    | none =>
      rw [h.eq_nil hentry]
      rfl
    | some entry =>
      have hhead : entry.head = (l (hash key)).head? := by
        have hhead := hlist.head_eq
        rwa [hentry] at hhead
      have hlength := h.length_le (hash key)
      simp only [hhead]
      exact findLoop_eq hlist.seg (by omega)
  cases hresult : (l (hash key)).find? (hasKey hashMap.pool key) with
  | none =>
    refine .inl ⟨by rw [hfind, hresult], valuesAt_eq_nil fun a ha => ?_⟩
    simpa using List.find?_eq_none.mp hresult a ha
  | some a =>
    obtain ⟨hkey, l₁, l₂, hsplit, hbefore⟩ := List.find?_eq_some_iff_append.mp hresult
    obtain ⟨pair, hpair, -⟩ := h.placed (hash key) a (by simp [hsplit])
    refine .inr ⟨a, pair, l₁, l₂, by rw [hfind, hresult], hsplit, hpair, ?_, ?_⟩
    · simpa [hasKey, hpair] using hkey
    · exact valuesAt_eq_nil fun b hb => by simpa using hbefore b hb

theorem findHashMapValue_eq (h : hashMap.Represents q) (key : UInt32) :
    hashMap.findHashMapValue key = .ok (q key).head?.join := by
  obtain ⟨l, hl, hq⟩ := h
  rw [findHashMapValue, ← hq key]
  rcases findHashMap_spec hl key with ⟨hfind, hvalues⟩ | ⟨a, pair, l₁, l₂, hfind, hsplit, hpair, hkey, hl₁⟩
  · rw [hfind, hvalues]
    rfl
  · have hvalues : valuesAt hashMap.pool key (l (hash key)) =
        pair.value :: valuesAt hashMap.pool key l₂ := by
      rw [hsplit, valuesAt_append, hl₁, List.nil_append, valuesAt_cons_of_eq hpair hkey]
    rw [hfind, hvalues]
    simp [Heap.read_eq_ok hpair, bind, Except.bind, pure, Except.pure]

/-- `FindHashMap` finds a pair exactly if there is a value, even if this is a null pointer. -/
theorem findHashMap_isSome (h : hashMap.Represents q) (key : UInt32) :
    ∃ p, hashMap.findHashMap key = .ok p ∧ (p.isSome ↔ q key ≠ []) := by
  obtain ⟨l, hl, hq⟩ := h
  rcases findHashMap_spec hl key with ⟨hfind, hvalues⟩ | ⟨a, pair, l₁, l₂, hfind, hsplit, hpair, hkey, hl₁⟩
  · exact ⟨none, hfind, by simp [← hq, hvalues]⟩
  · refine ⟨some a, hfind, ?_⟩
    simp [← hq, hsplit, valuesAt_cons_of_eq hpair hkey]

/-! ## Inserting -/

theorem isSome_entryFor (hashMap : HashMap) (i : Fin hashMapSize) (granted : Bool) :
    (hashMap.entryFor i granted).isSome = ((hashMap.map i).isSome || granted) := by
  unfold HashMap.entryFor
  cases hashMap.map i with
  | some entry => rfl
  | none => cases granted <;> rfl

/-- The empty entry of a bucket is as good as none. -/
theorem Chains.entryFor (h : hashMap.Chains l) {i : Fin hashMapSize} {granted : Bool} {entry : Entry}
    (hentry : hashMap.entryFor i granted = some entry) :
    IsList (links hashMap.pool) entry.head entry.tail (l i) := by
  have hlist := h.isList i
  unfold HashMap.entryFor at hentry
  cases hmap : hashMap.map i with
  | some entry' =>
    rw [hmap] at hentry hlist
    rwa [← Option.some.inj hentry]
  | none =>
    rw [hmap] at hentry hlist
    dsimp only at hentry
    split_ifs at hentry
    rw [← Option.some.inj hentry]
    exact hlist

/-- A new pair is linked behind the last one of a bucket. The other buckets do not change. -/
theorem Chains.link (h : hashMap.Chains l) {i : Fin hashMapSize} {entry : Entry} {a : Addr} {pair : Pair}
    (hlist : IsList (links hashMap.pool) entry.head entry.tail (l i)) (hfresh : hashMap.pool a = none)
    (hpair : pair.toLinks = ⟨none, entry.tail⟩) :
    ∃ mem, setNext (hashMap.pool.write a pair) entry.tail (some a) = .ok mem ∧ mem a = some pair ∧
      IsList (links mem) (if entry.head = none then some a else entry.head) (some a) (l i ++ [a]) ∧
      (∀ b ∈ l i, contents mem b = contents hashMap.pool b) ∧
      ∀ j ≠ i, ∀ b ∈ l j, mem b = hashMap.pool b := by
  have htail {t : Addr} (ht : entry.tail = some t) : t ∈ l i := List.mem_of_getLast? (hlist.tail_eq ▸ ht)
  have hne {j : Fin hashMapSize} {b : Addr} (hb : b ∈ l j) : b ≠ a :=
    fun heq => h.not_mem hfresh j (heq ▸ hb)
  have hsome {t : Addr} (ht : entry.tail = some t) : (hashMap.pool.write a pair t).isSome := by
    rw [Heap.write_of_ne (hne (htail ht))]
    exact h.isSome (htail ht)
  obtain ⟨mem, hset, hlinks, hcontents, hother⟩ :=
    setNext_spec (hashMap.pool.write a pair) entry.tail (fun _ => hsome) (some a)
  have ha : mem a = some pair := by
    rw [hother a fun ht => hne (htail ht) rfl, Heap.write_self]
  refine ⟨mem, hset, ha, ?_, fun b hb => ?_, fun j hj b hb => ?_⟩
  · refine hlist.append (h.not_mem hfresh i) ?_ fun b hb => ?_
    · rw [links, ha, Option.map_some, hpair]
    · rw [hlinks]
      simp only [DList.setNext, links, Heap.write_of_ne (hne hb)]
  · rw [hcontents, contents, contents, Heap.write_of_ne (hne hb)]
  · rw [hother b fun ht => hj (h.index_eq hb (htail ht)), Heap.write_of_ne (hne hb)]

theorem insertHashMap_spec (h : hashMap.Represents q) (key : UInt32) (value : Pointer) (pool : Pool) :
    ∃ hashMap', hashMap.insertHashMap key value pool = .ok (hashMap.grants key pool, hashMap') ∧
      hashMap'.Represents (if hashMap.grants key pool then q.enqueue key value else q) := by
  obtain ⟨l, hl, hq⟩ := h
  rw [insertHashMap, grants, ← isSome_entryFor]
  cases hentry : hashMap.entryFor (hash key) pool.entry with
  | none => exact ⟨hashMap, rfl, l, hl, hq⟩
  | some entry =>
    have hlist := hl.entryFor hentry
    cases hpick : pool.pair.pick hashMap.pool with
    | none =>
      refine ⟨{ hashMap with map := Function.update hashMap.map (hash key) (some entry) }, ?_, l, ?_, hq⟩
      · simp [hpick, pure, Except.pure]
      have hl' := hl.update hlist (hl.placed (hash key)) fun _ _ _ _ => rfl
      rwa [Function.update_eq_self] at hl'
    | some a =>
      let pair : Pair := { key, value, next := none, prev := entry.tail }
      obtain ⟨mem, hmem, ha, hlist', hcontents, hother⟩ :=
        hl.link hlist (pool.pair.fresh _ _ hpick) (rfl : pair.toLinks = _)
      refine ⟨⟨Function.update (Function.update hashMap.map (hash key) (some entry)) (hash key)
        (some ⟨if entry.head = none then some a else entry.head, some a⟩), mem⟩, ?_, ?_⟩
      · simp [hpick, hmem, pair, bind, Except.bind, pure, Except.pure]
      rw [Function.update_idem]
      refine hl.represents hq (l (hash key) ++ [a]) hlist' ?_ hother ?_ ?_
      · intro b hb
        rcases List.mem_append.mp hb with hb | hb
        · exact exists_pair_congr (hcontents b hb) (hl.placed _ b hb)
        · rw [List.mem_singleton.mp hb]
          exact ⟨pair, ha, rfl⟩
      · intro key' hhash
        simp only [Option.isSome_some, Bool.and_self, if_true, Queues.enqueue]
        have hbucket : valuesAt mem key' (l (hash key)) = q key' := by
          rw [valuesAt_congr hcontents, ← hhash, hq]
        rw [valuesAt_append, hbucket]
        by_cases hkey : key' = key
        · rw [hkey, Function.update_self, valuesAt_cons_of_eq ha rfl, valuesAt_nil]
        · rw [Function.update_of_ne hkey, valuesAt_cons_of_ne ha (Ne.symm hkey), valuesAt_nil,
            List.append_nil]
      · intro key' hhash
        exact Function.update_of_ne (fun hkey => hhash (congrArg hash hkey)) _ _

/-! ## Removing -/

/-- The neighbours of a pair are linked to each other. The pair itself and the other buckets do not
change. -/
theorem Chains.unlink (h : hashMap.Chains l) {i : Fin hashMapSize} {a : Addr} {pair : Pair}
    {l₁ l₂ : List Addr} (hsplit : l i = l₁ ++ a :: l₂) (hpair : hashMap.pool a = some pair) :
    ∃ mem₁ mem₂, setPrev hashMap.pool pair.next pair.prev = .ok mem₁ ∧ mem₁ a = some pair ∧
      setNext mem₁ pair.prev pair.next = .ok mem₂ ∧ mem₂ a = some pair ∧
      links mem₂ = DList.setNext (DList.setPrev (links hashMap.pool) pair.next pair.prev)
        pair.prev pair.next ∧
      contents mem₂ = contents hashMap.pool ∧ ∀ j ≠ i, ∀ b ∈ l j, mem₂ b = hashMap.pool b := by
  have hlist := h.isList i
  rw [hsplit] at hlist
  obtain ⟨-, hcell, -⟩ := seg_append.mp hlist.seg
  rw [links, hpair, Option.map_some, Option.some_inj, Option.or_none, Option.or_none] at hcell
  obtain ⟨-, hnodup₂, hdisjoint⟩ := List.nodup_append.mp hlist.nodup
  have hnext {b : Addr} (hb : pair.next = some b) : b ∈ l₂ := by
    rw [hcell] at hb
    exact List.mem_of_mem_head? hb
  have hprev {b : Addr} (hb : pair.prev = some b) : b ∈ l₁ := by
    rw [hcell] at hb
    exact List.mem_of_getLast? hb
  have hbucket {b : Addr} (hb : pair.next = some b ∨ pair.prev = some b) : b ∈ l i := by
    rw [hsplit, List.mem_append, List.mem_cons]
    exact hb.elim (fun hb => .inr (.inr (hnext hb))) fun hb => .inl (hprev hb)
  obtain ⟨mem₁, hset₁, hlinks₁, hcontents₁, hother₁⟩ :=
    setPrev_spec hashMap.pool pair.next (fun b hb => h.isSome (hbucket (.inl hb))) pair.prev
  have hsome₁ {b : Addr} (hb : pair.prev = some b) : (mem₁ b).isSome := by
    have hsome := h.isSome (hbucket (.inr hb))
    rw [← isSome_contents, ← hcontents₁, isSome_contents] at hsome
    exact hsome
  obtain ⟨mem₂, hset₂, hlinks₂, hcontents₂, hother₂⟩ :=
    setNext_spec mem₁ pair.prev (fun b hb => hsome₁ hb) pair.next
  have hpair₁ : mem₁ a = some pair :=
    (hother₁ a fun hb => (List.nodup_cons.mp hnodup₂).1 (hnext hb)).trans hpair
  have hpair₂ : mem₂ a = some pair :=
    (hother₂ a fun hb => hdisjoint a (hprev hb) a List.mem_cons_self rfl).trans hpair₁
  refine ⟨mem₁, mem₂, hset₁, hpair₁, hset₂, hpair₂, ?_, hcontents₂.trans hcontents₁, ?_⟩
  · rw [hlinks₂, hlinks₁]
  · intro j hj b hb
    rw [hother₂ b fun heq => hj (h.index_eq hb (hbucket (.inr heq))),
      hother₁ b fun heq => hj (h.index_eq hb (hbucket (.inl heq)))]

theorem removeHashMap_spec (h : hashMap.Represents q) (key : UInt32) :
    ∃ hashMap', hashMap.removeHashMap key = .ok (!(q key).isEmpty, hashMap') ∧
      hashMap'.Represents (q.dequeue key) := by
  obtain ⟨l, hl, hq⟩ := h
  rcases findHashMap_spec hl key with ⟨hfind, hvalues⟩ | ⟨a, pair, l₁, l₂, hfind, hsplit, hpair, hkey, hl₁⟩
  · rw [hq] at hvalues
    refine ⟨hashMap, ?_, l, hl, fun key' => ?_⟩
    · rw [removeHashMap, hfind, hvalues]
      rfl
    · rw [hq, Queues.dequeue_of_eq_nil hvalues]
  have hvalues : q key = pair.value :: valuesAt hashMap.pool key l₂ := by
    rw [← hq, hsplit, valuesAt_append, hl₁, List.nil_append, valuesAt_cons_of_eq hpair hkey]
  obtain ⟨mem₁, mem₂, hset₁, hpair₁, hset₂, hpair₂, hlinks, hcontents, hother⟩ := hl.unlink hsplit hpair
  have hlist := hl.isList (hash key)
  rw [hsplit] at hlist
  obtain ⟨entry, hentry⟩ := hl.exists_entry (i := hash key) (a := a) (by simp [hsplit])
  rw [hentry] at hlist
  have hnotmem : a ∉ l₁ ++ l₂ := by
    have hnodup := hlist.nodup
    rw [List.nodup_middle] at hnodup
    exact (List.nodup_cons.mp hnodup).1
  have hne {b : Addr} (hb : b ∈ l₁ ++ l₂) : b ≠ a := fun heq => hnotmem (heq ▸ hb)
  have hcontents' {b : Addr} (hb : b ∈ l₁ ++ l₂) :
      contents (mem₂.free a) b = contents hashMap.pool b := by
    rw [contents, Heap.free_of_ne (hne hb), ← hcontents, contents]
  refine ⟨⟨Function.update hashMap.map (hash key)
    (some ⟨if entry.head = some a then pair.next else entry.head,
      if entry.tail = some a then pair.prev else entry.tail⟩), mem₂.free a⟩, ?_, ?_⟩
  · simp [removeHashMap, hfind, Heap.read_eq_ok hpair, hset₁, Heap.read_eq_ok hpair₁, hset₂,
      Heap.read_eq_ok hpair₂, hentry, hvalues, bind, Except.bind, pure, Except.pure]
  · refine hl.represents hq (l₁ ++ l₂) ?_ ?_ ?_ ?_ ?_
    · refine hlist.remove (c := pair.toLinks) (by rw [links, hpair]; rfl) fun b hb => ?_
      rw [← hlinks, links, links, Heap.free_of_ne (hne hb)]
    · intro b hb
      refine exists_pair_congr (hcontents' hb) (hl.placed (hash key) b ?_)
      rw [hsplit, List.mem_append, List.mem_cons]
      exact (List.mem_append.mp hb).imp_right .inr
    · intro j hj b hb
      have hba : b ≠ a := by
        rintro rfl
        exact hj (hl.index_eq hb (by simp [hsplit]))
      rw [Heap.free_of_ne hba, hother j hj b hb]
    · intro key' hhash
      rw [valuesAt_congr fun b hb => hcontents' hb, valuesAt_append, Queues.dequeue]
      by_cases hkey' : key' = key
      · rw [hkey', Function.update_self, hvalues, hl₁]
        rfl
      · rw [Function.update_of_ne hkey', ← hq, hhash, hsplit, valuesAt_append,
          valuesAt_cons_of_ne hpair (fun heq => hkey' (heq.symm.trans hkey))]
    · intro key' hhash
      exact Function.update_of_ne (fun heq => hhash (congrArg hash heq)) _ _

/-! ## Runs -/

theorem serve_spec (h : hashMap.Represents q) (call : Call) :
    ∃ hashMap', hashMap.serve call = .ok (hashMap.expected q call, hashMap') ∧
      hashMap'.Represents (q.apply (call, hashMap.expected q call)) := by
  cases call with
  | insert key value pool =>
    obtain ⟨hashMap', hinsert, hrep⟩ := insertHashMap_spec h key value pool
    refine ⟨hashMap', ?_, ?_⟩
    · rw [serve, hinsert]
      rfl
    · rw [expected]
      cases hgrants : hashMap.grants key pool with
      | true =>
        rw [hgrants, if_pos rfl] at hrep
        exact hrep
      | false =>
        rw [hgrants, if_neg Bool.false_ne_true] at hrep
        exact hrep
  | remove key =>
    obtain ⟨hashMap', hremove, hrep⟩ := removeHashMap_spec h key
    refine ⟨hashMap', ?_, hrep⟩
    rw [serve, hremove]
    rfl
  | find key =>
    refine ⟨hashMap, ?_, h⟩
    rw [serve, findHashMapValue_eq h]
    rfl

theorem run_spec (calls : List Call) :
    ∃ history hashMap, run calls = .ok (history, hashMap) ∧ history.map Prod.fst = calls ∧
      hashMap.Represents (Queues.ofHistory history) := by
  induction calls using List.reverseRecOn with
  | nil => exact ⟨[], initialise, rfl, rfl, represents_initialise⟩
  | append_singleton calls call ih =>
    obtain ⟨history, hashMap, hrun, hcalls, hrep⟩ := ih
    obtain ⟨hashMap', hserve, hrep'⟩ := serve_spec hrep call
    refine ⟨history ++ [(call, hashMap.expected (Queues.ofHistory history) call)], hashMap', ?_, ?_, ?_⟩
    · rw [run] at hrun
      rw [run, Trace.foldlM_snoc, hrun]
      simp only [Except.bind, step, hserve, bind, pure, Except.pure]
    · rw [List.map_append, hcalls]
      rfl
    · rw [Queues.ofHistory, List.foldl_append]
      exact hrep'

/-- After any calls the buckets hold the queues of the values that have been inserted and not yet
removed, and every further call is answered as these queues say. -/
theorem run_refines (calls : List Call) :
    ∃ history hashMap, run calls = .ok (history, hashMap) ∧ history.map Prod.fst = calls ∧
      hashMap.Refines (Queues.ofHistory history) ∧
      ∀ call, ∃ hashMap', hashMap.serve call =
        .ok (hashMap.expected (Queues.ofHistory history) call, hashMap') := by
  obtain ⟨history, hashMap, hrun, hcalls, hrep⟩ := run_spec calls
  refine ⟨history, hashMap, hrun, hcalls, hrep.refines, fun call => ?_⟩
  obtain ⟨hashMap', hserve, -⟩ := serve_spec hrep call
  exact ⟨hashMap', hserve⟩

end HashMap

end CaptureHpc
