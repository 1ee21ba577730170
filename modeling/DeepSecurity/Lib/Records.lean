import DeepSecurity.Lib.ByteMem
import Mathlib.Data.List.Basic

/-!
# Records of variable size in a buffer

A writer puts records one behind the other into a buffer, a reader finds them again: each record says
in its head how long it is, and so where the next one is. `unpack_pack` says that the reader gets back
what the writer put there.
-/

namespace ByteMem

variable {m m' : Mem} {a v : ℕ} {l l' : List UInt8}

/-! ## Bytes at a place -/

/-- The bytes `l` are at `a`. -/
def At (m : Mem) (a : ℕ) (l : List UInt8) : Prop := readBytes m a l.length = l

theorem at_writeBytes : At (writeBytes m a l) a l := readBytes_writeBytes

theorem At.of_same (h : At m a l) (hs : Same m m' a l.length) : At m' a l := hs.readBytes.trans h

theorem readBytes_append {n k : ℕ} :
    readBytes m a (n + k) = readBytes m a n ++ readBytes m (a + n) k := by
  simp [readBytes, List.range_add, Nat.add_assoc]

theorem at_append : At m a (l ++ l') ↔ At m a l ∧ At m (a + l.length) l' := by
  unfold At
  rw [List.length_append, readBytes_append]
  constructor
  · intro h
    exact List.append_inj h (by simp [readBytes])
  · rintro ⟨h, h'⟩
    rw [h, h']

theorem At.readBytes_eq (h : At m a l) {n : ℕ} (hn : n = l.length) : readBytes m a n = l := by
  subst hn
  exact h

theorem At.read32_eq (h : At m a (word v)) (hv : v < 2 ^ 32) : read32 m a = v := by
  have hsame : Same (writeBytes m a (word v)) m a 4 := by
    intro x hx hx'
    obtain ⟨i, rfl⟩ : ∃ i, x = a + i := ⟨x - a, by omega⟩
    have hi : i < (word v).length := by
      show i < 4
      omega
    have hbyte : m (a + i) = (word v)[i] := by
      have := List.getElem_of_eq h (i := i) (by simpa [readBytes] using hi)
      simpa [readBytes] using this
    simp [writeBytes, hbyte, List.getElem?_eq_getElem hi]
  rw [hsame.read32]
  exact read32_write32 hv

end ByteMem

namespace Records

open ByteMem

variable {α β : Type}

/-- The records one behind the other. -/
def pack (encode : α → List UInt8) (l : List α) : List UInt8 := l.flatMap encode

/-- The loop of a reader, which does its work at a place before it looks whether there is a next one.
Places are words of 32 bits. -/
def unpack (decode : Mem → ℕ → β) (size : Mem → ℕ → ℕ) (m : Mem) (total : ℕ) :
    (rounds offset : ℕ) → Option (List β)
  | 0, _ => none
  | rounds + 1, offset =>
    let next := (offset + size m offset) % 2 ^ 32
    if next < total then (unpack decode size m total rounds next).map (decode m offset :: ·)
    else some [decode m offset]

/-- A reader that sees `view x` where `x` has been written, and knows how long it is. -/
structure Format (encode : α → List UInt8) (view : α → β) (decode : Mem → ℕ → β)
    (size : Mem → ℕ → ℕ) : Prop where
  /-- What is decoded at the place of a record is the view of the record. -/
  decode_at : ∀ {m a x}, At m a (encode x) → decode m a = view x
  /-- The size at the place of a record is its length. -/
  size_at : ∀ {m a x}, At m a (encode x) → size m a = (encode x).length
  /-- No record is empty. -/
  encode_pos : ∀ x, 0 < (encode x).length

variable {encode : α → List UInt8} {view : α → β} {decode : Mem → ℕ → β} {size : Mem → ℕ → ℕ}

theorem pack_append {l l' : List α} : pack encode (l ++ l') = pack encode l ++ pack encode l' :=
  List.flatMap_append

theorem pack_cons {x : α} {l : List α} : pack encode (x :: l) = encode x ++ pack encode l :=
  List.flatMap_cons

theorem pack_singleton {x : α} : pack encode [x] = encode x := by simp [pack]

theorem Format.length_le_pack (hf : Format encode view decode size) (l : List α) :
    l.length ≤ (pack encode l).length := by
  induction l with
  | nil => exact Nat.le_refl 0
  | cons x l ih =>
    have hpos := hf.encode_pos x
    rw [pack_cons, List.length_append, List.length_cons]
    omega

theorem Format.unpack_pack (hf : Format encode view decode size) {m : Mem} {total rounds offset : ℕ}
    {x : α} {l : List α} (hat : At m offset (pack encode (x :: l)))
    (htotal : offset + (pack encode (x :: l)).length = total) (hlt : total < 2 ^ 32)
    (hrounds : l.length < rounds) :
    unpack decode size m total rounds offset = some ((x :: l).map view) := by
  induction l generalizing x rounds offset with
  | nil =>
    obtain ⟨rounds, rfl⟩ : ∃ k, rounds = k + 1 := ⟨rounds - 1, by simp at hrounds; omega⟩
    rw [pack_singleton] at hat htotal
    unfold unpack
    rw [hf.size_at hat, hf.decode_at hat, htotal, Nat.mod_eq_of_lt hlt, if_neg (Nat.lt_irrefl _)]
    rfl
  | cons y l ih =>
    obtain ⟨rounds, rfl⟩ : ∃ k, rounds = k + 1 := ⟨rounds - 1, by simp at hrounds; omega⟩
    rw [pack_cons] at hat htotal
    rw [List.length_append] at htotal
    obtain ⟨hx, hrest⟩ := at_append.mp hat
    have hmore := hf.length_le_pack (y :: l)
    rw [List.length_cons] at hmore hrounds
    have hnext : (offset + (encode x).length) % 2 ^ 32 = offset + (encode x).length :=
      Nat.mod_eq_of_lt (by omega)
    unfold unpack
    rw [hf.size_at hx, hf.decode_at hx, hnext, if_pos (by omega), ih hrest (by omega) (by omega)]
    rfl

end Records
