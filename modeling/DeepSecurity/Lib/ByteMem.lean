import Mathlib.Data.List.Basic
import Mathlib.Data.UInt

/-!
# Byte-addressed memory with linked lists of offsets

A memory that two parties share has no pointers, only offsets: a list in it is a word with the offset
of the first node, a word with the offset of the last one, and in the first word of every node the
offset of the next; the offset `0` stands for none. `push` appends a node, and `linked_push` says when
this gives the list with this node at its end. What a step leaves alone is stated with `Same`.
-/

namespace ByteMem

/-- A memory that is as large as it needs to be. -/
abbrev Mem := ℕ → UInt8

/-! ## Words and bytes -/

/-- The word at `a`, the least significant byte first. -/
def read32 (m : Mem) (a : ℕ) : ℕ :=
  (m a).toNat + (m (a + 1)).toNat * 2 ^ 8 + (m (a + 2)).toNat * 2 ^ 16 + (m (a + 3)).toNat * 2 ^ 24

/-- The `n` bytes from `a` on. -/
def readBytes (m : Mem) (a n : ℕ) : List UInt8 := (List.range n).map fun i => m (a + i)

/-- The memory with the bytes of `l` from `a` on. -/
def writeBytes (m : Mem) (a : ℕ) (l : List UInt8) : Mem := fun x =>
  if a ≤ x then l[x - a]?.getD (m x) else m x

/-- The memory with the word `v` at `a`. -/
def write32 (m : Mem) (a v : ℕ) : Mem :=
  writeBytes m a [UInt8.ofNat v, UInt8.ofNat (v / 2 ^ 8), UInt8.ofNat (v / 2 ^ 16),
    UInt8.ofNat (v / 2 ^ 24)]

/-- The bytes of a word. -/
def word (v : ℕ) : List UInt8 :=
  [UInt8.ofNat v, UInt8.ofNat (v / 2 ^ 8), UInt8.ofNat (v / 2 ^ 16), UInt8.ofNat (v / 2 ^ 24)]

/-- The memory with `n` null bytes from `a` on. -/
def zero (m : Mem) (a n : ℕ) : Mem := writeBytes m a (List.replicate n 0)

/-- The two memories have the same `n` bytes from `a` on. -/
def Same (m m' : Mem) (a n : ℕ) : Prop := ∀ x, a ≤ x → x < a + n → m' x = m x

variable {m m' m'' : Mem} {a b k n v : ℕ} {l : List UInt8}

theorem Same.refl (m : Mem) (a n : ℕ) : Same m m a n := fun _ _ _ => rfl

theorem Same.trans (h : Same m m' a n) (h' : Same m' m'' a n) : Same m m'' a n := by
  intro x hlo hhi
  rw [h' x hlo hhi, h x hlo hhi]

theorem Same.mono (h : Same m m' a n) (hlo : a ≤ b) (hhi : b + k ≤ a + n) : Same m m' b k :=
  fun x hx hx' => h x (by omega) (by omega)

theorem Same.read32 (h : Same m m' a 4) : read32 m' a = read32 m a := by
  unfold ByteMem.read32
  rw [h a (by omega) (by omega), h (a + 1) (by omega) (by omega), h (a + 2) (by omega) (by omega),
    h (a + 3) (by omega) (by omega)]

theorem Same.readBytes (h : Same m m' a n) : readBytes m' a n = readBytes m a n := by
  unfold ByteMem.readBytes
  refine List.map_congr_left fun i hi => ?_
  have := List.mem_range.mp hi
  exact h (a + i) (by omega) (by omega)

theorem same_writeBytes (h : a + n ≤ b ∨ b + l.length ≤ a) : Same m (writeBytes m b l) a n := by
  intro x hlo hhi
  unfold writeBytes
  split_ifs with hb
  · rw [List.getElem?_eq_none (by omega)]
    rfl
  · rfl

theorem same_write32 (h : a + n ≤ b ∨ b + 4 ≤ a) : Same m (write32 m b v) a n := same_writeBytes h

theorem same_zero (h : a + n ≤ b ∨ b + k ≤ a) : Same m (zero m b k) a n :=
  same_writeBytes (by rwa [List.length_replicate])

theorem read32_lt (m : Mem) (a : ℕ) : read32 m a < 2 ^ 32 := by
  have h0 := (m a).toNat_lt
  have h1 := (m (a + 1)).toNat_lt
  have h2 := (m (a + 2)).toNat_lt
  have h3 := (m (a + 3)).toNat_lt
  unfold read32
  omega

theorem read32_write32 (hv : v < 2 ^ 32) : read32 (write32 m a v) a = v := by
  simp only [read32, write32, writeBytes, le_refl, if_true, Nat.le_add_right, Nat.sub_self,
    Nat.add_sub_cancel_left, List.getElem?_cons_zero, List.getElem?_cons_succ, Option.getD_some,
    UInt8.toNat_ofNat']
  omega

theorem read32_zero (hlo : a ≤ b) (hhi : b + 4 ≤ a + n) : read32 (zero m a n) b = 0 := by
  have hbyte : ∀ x, b ≤ x → x < b + 4 → zero m a n x = 0 := by
    intro x hx hx'
    unfold zero writeBytes
    rw [if_pos (by omega), List.getElem?_replicate, if_pos (by omega)]
    rfl
  simp only [read32, hbyte b (by omega) (by omega), hbyte (b + 1) (by omega) (by omega),
    hbyte (b + 2) (by omega) (by omega), hbyte (b + 3) (by omega) (by omega)]
  rfl

theorem readBytes_writeBytes : readBytes (writeBytes m a l) a l.length = l := by
  refine List.ext_getElem (by simp [readBytes]) fun i hi hi' => ?_
  simp [readBytes, writeBytes, List.getElem?_eq_getElem hi']

/-! ## Linked lists -/

/-- Every node has the offset of the next one in its first word, the last one `0`. -/
def Chain (m : Mem) : List ℕ → Prop
  | [] => True
  | a :: nodes => read32 m a = nodes.head?.getD 0 ∧ Chain m nodes

/-- The list with its first node at `h` and its last one at `t`. In an empty list, the latter may be
anything. -/
structure Linked (m : Mem) (h t : ℕ) (nodes : List ℕ) : Prop where
  /-- The word `h` has the first node, or `0`. -/
  head_eq : read32 m h = nodes.head?.getD 0
  /-- The nodes are linked to each other. -/
  chain : Chain m nodes
  /-- The word `t` has the last node, if there is one. -/
  tail_eq : ∀ a ∈ nodes.getLast?, read32 m t = a

/-- Appends `node`. -/
def push (m : Mem) (h t node : ℕ) : Mem :=
  let m := if read32 m h = 0 then write32 m h node else m
  let m := if read32 m t ≠ 0 then write32 m (read32 m t) node else m
  write32 m t node

variable {h t node : ℕ} {nodes : List ℕ}

theorem Chain.congr (hc : Chain m nodes) (hs : ∀ a ∈ nodes, read32 m' a = read32 m a) :
    Chain m' nodes := by
  induction nodes with
  | nil => trivial
  | cons a nodes ih =>
    refine ⟨(hs a List.mem_cons_self).trans hc.1, ih hc.2 fun b hb => hs b ?_⟩
    exact List.mem_cons_of_mem _ hb

theorem Chain.snoc (hc : Chain m (nodes ++ [a])) (hs : ∀ b ∈ nodes, read32 m' b = read32 m b)
    (ha : read32 m' a = node) (hnode : read32 m' node = 0) : Chain m' (nodes ++ [a] ++ [node]) := by
  induction nodes with
  | nil => exact ⟨ha, hnode, trivial⟩
  | cons b nodes ih =>
    refine ⟨?_, ih hc.2 fun c hc => hs c (List.mem_cons_of_mem _ hc)⟩
    rw [hs b List.mem_cons_self, hc.1]
    cases nodes <;> rfl

theorem Linked.congr (hl : Linked m h t nodes) (hh : read32 m' h = read32 m h)
    (ht : read32 m' t = read32 m t) (hs : ∀ a ∈ nodes, read32 m' a = read32 m a) :
    Linked m' h t nodes :=
  ⟨hh.trans hl.head_eq, hl.chain.congr hs, fun a ha => ht.trans (hl.tail_eq a ha)⟩

/-- Taking the first node off. -/
theorem Linked.pop (hl : Linked m h t (a :: nodes)) (hh : read32 m' h = read32 m a)
    (ht : read32 m' t = read32 m t) (hs : ∀ b ∈ nodes, read32 m' b = read32 m b) :
    Linked m' h t nodes := by
  refine ⟨hh.trans hl.chain.1, hl.chain.2.congr hs, fun b hb => ht.trans (hl.tail_eq b ?_)⟩
  cases nodes with
  | nil => simp at hb
  | cons c nodes => rwa [List.getLast?_cons_cons]

/-- The words at `a` and at `b` do not overlap. -/
def Apart (a b : ℕ) : Prop := a + 4 ≤ b ∨ b + 4 ≤ a

theorem read32_write32_of_apart (hab : Apart a b) : read32 (write32 m b v) a = read32 m a :=
  (same_write32 hab).read32

/-- `push` writes the two words of the list and the first word of its last node. -/
theorem same_push (hht : Apart t h) (hh : a + n ≤ h ∨ h + 4 ≤ a) (ht : a + n ≤ t ∨ t + 4 ≤ a)
    (hlast : read32 m t ≠ 0 → a + n ≤ read32 m t ∨ read32 m t + 4 ≤ a) :
    Same m (push m h t node) a n := by
  have hhead : Same m (if read32 m h = 0 then write32 m h node else m) a n := by
    split_ifs
    · exact same_write32 hh
    · exact Same.refl m a n
  have htail : read32 (if read32 m h = 0 then write32 m h node else m) t = read32 m t := by
    split_ifs
    · exact read32_write32_of_apart hht
    · rfl
  unfold push
  simp only [htail]
  refine Same.trans ?_ (same_write32 ht)
  by_cases hne : read32 m t ≠ 0
  · rw [if_pos hne]
    exact hhead.trans (same_write32 (hlast hne))
  · rw [if_neg hne]
    exact hhead

/-- The words of a list and of a new node do not overlap, and none of the nodes is at `0`. -/
structure Separate (h t : ℕ) (nodes : List ℕ) (node : ℕ) : Prop where
  /-- The two words that belong to the list itself. -/
  words : Apart h t
  /-- No node of the list is at `0`. -/
  ne_zero : ∀ a ∈ nodes, a ≠ 0
  /-- The new node is not at `0`, either. -/
  node_ne_zero : node ≠ 0
  /-- The offset of the new node is one that a word can have. -/
  node_lt : node < 2 ^ 32
  /-- The first words of the nodes. -/
  pairwise : (nodes ++ [node]).Pairwise Apart
  /-- The first word of a node and the words of the list. -/
  apart : ∀ a ∈ nodes ++ [node], Apart a h ∧ Apart a t

theorem Apart.symm (hab : Apart a b) : Apart b a := Or.symm hab

/-- A list of one node. -/
theorem linked_singleton (hht : Apart h t) (hnt : Apart node t) (hlt : node < 2 ^ 32)
    (hh : read32 m h = node) (hnext : read32 m node = 0) : Linked (write32 m t node) h t [node] := by
  refine ⟨?_, ⟨?_, trivial⟩, ?_⟩
  · rw [read32_write32_of_apart hht, hh]
    rfl
  · rw [read32_write32_of_apart hnt, hnext]
    rfl
  · simp [read32_write32 hlt]

/-- Appending a node. The tail of an empty list is `0`, or stands for a word that may be overwritten. -/
theorem linked_push (hl : Linked m h t nodes)
    (hempty : nodes = [] → read32 m t ≠ 0 → Apart (read32 m t) h ∧ Apart (read32 m t) node)
    (hs : Separate h t nodes node) (hnext : read32 m node = 0) :
    Linked (push m h t node) h t (nodes ++ [node]) := by
  obtain ⟨hnh, hnt⟩ := hs.apart node (by simp)
  rcases List.eq_nil_or_concat nodes with rfl | ⟨init, last, rfl⟩
  · -- the first node of the list
    have htail : read32 (write32 m h node) t = read32 m t := read32_write32_of_apart hs.words.symm
    have hhead : read32 (write32 m h node) h = node := read32_write32 hs.node_lt
    have hnode : read32 (write32 m h node) node = 0 := by rw [read32_write32_of_apart hnh, hnext]
    by_cases hzero : read32 m t = 0
    · have hpush : push m h t node = write32 (write32 m h node) t node := by
        simp only [push, hl.head_eq, List.head?_nil, Option.getD_none, if_true, htail, hzero, ne_eq,
          not_true_eq_false, if_false]
      rw [hpush]
      exact linked_singleton hs.words hnt hs.node_lt hhead hnode
    · obtain ⟨hth, htn⟩ := hempty rfl hzero
      have hpush : push m h t node = write32 (write32 (write32 m h node) (read32 m t) node) t node := by
        simp only [push, hl.head_eq, List.head?_nil, Option.getD_none, if_true, htail, hzero, ne_eq,
          not_false_eq_true]
      rw [hpush]
      refine linked_singleton hs.words hnt hs.node_lt ?_ ?_
      · rw [read32_write32_of_apart hth.symm, hhead]
      · rw [read32_write32_of_apart htn.symm, hnode]
  · rw [List.concat_eq_append] at *
    have hfirst : read32 m h ≠ 0 := by
      rw [hl.head_eq]
      rcases init with _ | ⟨first, init⟩
      · exact hs.ne_zero last (by simp)
      · exact hs.ne_zero first (by simp)
    have hlast : read32 m t = last := hl.tail_eq last (by simp)
    have hlast0 : last ≠ 0 := hs.ne_zero last (by simp)
    have hpush : push m h t node = write32 (write32 m last node) t node := by
      simp only [push, hfirst, if_false, hlast, ne_eq, hlast0, not_false_eq_true, if_true]
    obtain ⟨hlh, hlt⟩ := hs.apart last (by simp)
    have hpair := hs.pairwise
    rw [List.pairwise_append, List.pairwise_append] at hpair
    obtain ⟨⟨-, -, hinit⟩, -, hnodes⟩ := hpair
    rw [hpush]
    refine ⟨?_, hl.chain.snoc ?_ ?_ ?_, ?_⟩
    · rw [read32_write32_of_apart hs.words, read32_write32_of_apart hlh.symm, hl.head_eq]
      cases init <;> rfl
    · intro b hb
      rw [read32_write32_of_apart (hs.apart b (by simp [hb])).2,
        read32_write32_of_apart (hinit b hb last (by simp))]
    · rw [read32_write32_of_apart hlt, read32_write32 hs.node_lt]
    · rw [read32_write32_of_apart hnt,
        read32_write32_of_apart (hnodes last (by simp) node (by simp)).symm, hnext]
    · simp [read32_write32 hs.node_lt]

end ByteMem
