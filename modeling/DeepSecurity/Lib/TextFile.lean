import Mathlib.Data.List.TakeWhile
import Mathlib.Data.UInt

/-!
# Text files with wide characters

`std::wofstream` and `std::wifstream` on Windows, with the classic locale and in text mode. A character
is one byte of the file. One that does not fit into a byte makes the output stream fail, so that it and
everything behind it is lost. A line feed is written as carriage return and line feed, and read back as
one character. Control-Z ends the input.
-/

namespace TextFile

/-- The end of a line in a text. -/
def lineFeed : UInt16 := 0x0A

/-- The bytes that come into the file. -/
def write (text : List UInt16) : List UInt8 :=
  (text.takeWhile (· < 0x100)).flatMap fun c =>
    if c = lineFeed then [0x0D, 0x0A] else [c.toUInt8]

/-- Carriage return and line feed are one line feed. -/
def joinLineEnds : List UInt8 → List UInt8
  | 0x0D :: 0x0A :: rest => 0x0A :: joinLineEnds rest
  | c :: rest => c :: joinLineEnds rest
  | [] => []

/-- The characters that come out of the file. -/
def read (bytes : List UInt8) : List UInt16 :=
  (joinLineEnds (bytes.takeWhile (· ≠ 0x1A))).map UInt8.toUInt16

/-- A character that comes back from a file. -/
def Kept (c : UInt16) : Prop := c < 0x100 ∧ c ≠ 0x1A

instance (c : UInt16) : Decidable (Kept c) := inferInstanceAs (Decidable (_ ∧ _))

/-- What `getline` reads until the end of the file: the last line is what is behind the last line
feed. -/
def lines (text : List UInt16) : List (List UInt16) := text.splitOn lineFeed

variable {text : List UInt16} {c : UInt16}

/-! ## What comes back -/

theorem write_cons (hc : c < 0x100) (text : List UInt16) :
    write (c :: text) = (if c = lineFeed then [0x0D, 0x0A] else [c.toUInt8]) ++ write text := by
  have htake : (c :: text).takeWhile (· < 0x100) = c :: text.takeWhile (· < 0x100) :=
    List.takeWhile_cons_of_pos (by simpa using hc)
  rw [write, htake, List.flatMap_cons, write]

theorem toUInt8_ne (hc : c < 0x100) {b : UInt8} (hne : c ≠ b.toUInt16) : c.toUInt8 ≠ b := by
  intro hb
  apply hne
  rw [← hb, UInt16.toUInt16_toUInt8]
  exact (UInt16.toNat_inj.mp (by simpa using Nat.mod_eq_of_lt hc)).symm

/-- A line feed of the file is always behind a carriage return. -/
theorem head_write (text : List UInt16) : (write text).head? ≠ some 0x0A := by
  cases text with
  | nil => simp [write]
  | cons c text =>
    by_cases hc : c < 0x100
    · rw [write_cons hc]
      split_ifs with hline
      · simp
      · simpa using toUInt8_ne (b := 0x0A) hc hline
    · simp [write, hc]

theorem joinLineEnds_cons {b : UInt8} {l : List UInt8} (h : l.head? ≠ some 0x0A) :
    joinLineEnds (b :: l) = b :: joinLineEnds l := by
  rw [joinLineEnds]
  rintro rest - rfl
  exact h rfl

/-- A text comes back up to the first character that is not kept. -/
theorem read_write (text : List UInt16) : read (write text) = text.takeWhile (Kept ·) := by
  induction text with
  | nil => rfl
  | cons c text ih =>
    unfold read at ih ⊢
    by_cases hc : c < 0x100
    · by_cases hend : c = 0x1A
      · rw [write_cons hc, hend]
        rfl
      · have hkept : (c :: text).takeWhile (Kept ·) = c :: text.takeWhile (Kept ·) :=
          List.takeWhile_cons_of_pos (decide_eq_true (And.intro hc hend))
        rw [write_cons hc, hkept, ← ih]
        split_ifs with hline
        · rw [hline]
          rfl
        · have hbyte : c.toUInt8 ≠ 0x1A := toUInt8_ne hc hend
          have hhead : ((write text).takeWhile (· ≠ 0x1A)).head? ≠ some 0x0A := by
            rw [List.head?_takeWhile]
            intro h
            exact head_write text (Option.filter_eq_some_iff.mp h).1
          rw [List.singleton_append, List.takeWhile_cons_of_pos (by simpa using hbyte),
            joinLineEnds_cons hhead, List.map_cons]
          congr 1
          exact UInt16.toNat_inj.mp (by simpa using Nat.mod_eq_of_lt hc)
    · simp [write, hc, Kept, joinLineEnds]

/-! ## Lines -/

/-- The pieces of a list have no other elements than the list. -/
theorem mem_of_mem_splitOn {α : Type} [BEq α] {a d : α} {piece l : List α}
    (hpiece : piece ∈ l.splitOn d) (ha : a ∈ piece) : a ∈ l := by
  induction l generalizing piece with
  | nil =>
    rw [List.splitOn_nil, List.mem_singleton] at hpiece
    rw [hpiece] at ha
    exact ha
  | cons b l ih =>
    rw [List.splitOn_cons_eq_if_modifyHead] at hpiece
    split_ifs at hpiece
    · rcases List.mem_cons.mp hpiece with rfl | hpiece
      · exact absurd ha List.not_mem_nil
      · exact List.mem_cons_of_mem _ (ih hpiece ha)
    · rcases hpieces : l.splitOn d with _ | ⟨first, pieces⟩
      · exact absurd hpieces (List.splitOn_ne_nil _ _)
      · rw [hpieces] at hpiece ih
        rcases List.mem_cons.mp hpiece with rfl | hpiece
        · rcases List.mem_cons.mp ha with rfl | ha
          · exact List.mem_cons_self
          · exact List.mem_cons_of_mem _ (ih List.mem_cons_self ha)
        · exact List.mem_cons_of_mem _ (ih (List.mem_cons_of_mem _ hpiece) ha)

theorem lines_flatMap {ls : List (List UInt16)} (h : ∀ l ∈ ls, lineFeed ∉ l) :
    lines (ls.flatMap (· ++ [lineFeed])) = ls ++ [[]] := by
  induction ls with
  | nil => rfl
  | cons l ls ih =>
    obtain ⟨hl, hls⟩ := List.forall_mem_cons.mp h
    have ih := ih hls
    unfold lines at ih ⊢
    rw [List.flatMap_cons, List.append_assoc, List.singleton_append,
      List.splitOn_append_cons_self, ih, List.splitOn_eq_singleton hl]
    rfl

end TextFile
