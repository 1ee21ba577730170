import Mathlib.Data.UInt
import Mathlib.Data.Int.Notation

/-!
# Numbers in texts

Integers in decimal notation with 16-bit characters, without leading zeros when they are written, and
with an optional sign when they are read.
-/

namespace Numeral

/-- The decimal digits of ASCII. -/
def isDigit (c : UInt16) : Bool := 0x30 ≤ c && c ≤ 0x39

/-- The number with the given digits, of which there is at least one. -/
def readNat (t : List UInt16) : Option ℕ :=
  if !t.isEmpty && t.all isDigit then some (t.foldl (fun n c => 10 * n + (c.toNat - 0x30)) 0) else none

/-- A number with an optional sign. -/
def read (t : List UInt16) : Option ℤ :=
  match t with
  | [] => none
  | c :: t =>
    if c = 0x2D then (readNat t).map fun n : ℕ => -(n : ℤ)
    else if c = 0x2B then (readNat t).map Int.ofNat
    else (readNat (c :: t)).map Int.ofNat

/-- The digits of a number, without leading zeros. -/
def writeNat (n : ℕ) : List UInt16 := (Nat.toDigits 10 n).map fun c => UInt16.ofNat c.toNat

/-- There is a sign only for negative numbers. -/
def write (z : ℤ) : List UInt16 := if z < 0 then 0x2D :: writeNat z.natAbs else writeNat z.natAbs

/-! ## What is written is read -/

theorem toNat_of_isDigit {c : Char} (h : c.isDigit) : 0x30 ≤ c.toNat ∧ c.toNat ≤ 0x39 := by
  simp only [Char.isDigit, ge_iff_le, Bool.and_eq_true, decide_eq_true_eq, UInt32.le_iff_toNat_le] at h
  exact h

/-- The digits are below `2 ^ 16`, so that they are the same as 16-bit characters. -/
theorem toNat_ofNat_of_isDigit {c : Char} (h : c.isDigit) : (UInt16.ofNat c.toNat).toNat = c.toNat := by
  have hc := toNat_of_isDigit h
  rw [UInt16.toNat_ofNat']
  exact Nat.mod_eq_of_lt (by omega)

theorem isDigit_ofNat {c : Char} (h : c.isDigit) : isDigit (UInt16.ofNat c.toNat) := by
  have hc := toNat_of_isDigit h
  have hn := toNat_ofNat_of_isDigit h
  simp only [isDigit, Bool.and_eq_true, decide_eq_true_eq, UInt16.le_iff_toNat_le, hn]
  exact hc

theorem all_isDigit_writeNat (n : ℕ) : ∀ c ∈ writeNat n, isDigit c := by
  intro c hc
  obtain ⟨d, hd, rfl⟩ := List.mem_map.mp hc
  exact isDigit_ofNat (Nat.isDigit_of_mem_toDigits (by decide) (by decide) hd)

theorem writeNat_ne_nil (n : ℕ) : writeNat n ≠ [] := by
  simp [writeNat, Nat.toDigits_ne_nil]

theorem readNat_writeNat (n : ℕ) : readNat (writeNat n) = some n := by
  have hvalue : (writeNat n).foldl (fun n c => 10 * n + (c.toNat - 0x30)) 0 = n := by
    rw [writeNat, List.foldl_map]
    conv_rhs => rw [← Nat.ofDigitChars_ten_toDigits (n := n), Nat.ofDigitChars]
    refine List.foldl_ext _ _ _ fun k c hc => ?_
    rw [toNat_ofNat_of_isDigit (Nat.isDigit_of_mem_toDigits (by decide) (by decide) hc)]
    rfl
  have hall : (!(writeNat n).isEmpty && (writeNat n).all isDigit) = true := by
    rw [Bool.and_eq_true, Bool.not_eq_true', List.isEmpty_eq_false_iff, List.all_eq_true]
    exact ⟨writeNat_ne_nil n, all_isDigit_writeNat n⟩
  rw [readNat, if_pos hall, hvalue]

@[simp]
theorem read_write (z : ℤ) : read (write z) = some z := by
  by_cases hz : z < 0
  · rw [write, if_pos hz, read, if_pos rfl, readNat_writeNat, Option.map_some]
    exact congrArg some (by omega)
  · rw [write, if_neg hz]
    have hread := readNat_writeNat z.natAbs
    -- A number without a sign begins with a digit.
    cases ht : writeNat z.natAbs with
    | nil => exact absurd ht (writeNat_ne_nil _)
    | cons c t =>
      have hc : isDigit c := all_isDigit_writeNat z.natAbs c (ht ▸ List.mem_cons_self)
      have hminus : c ≠ 0x2D := by rintro rfl; exact absurd hc (by decide)
      have hplus : c ≠ 0x2B := by rintro rfl; exact absurd hc (by decide)
      rw [read, if_neg hminus, if_neg hplus, ← ht, hread, Option.map_some]
      exact congrArg some (Int.natAbs_of_nonneg (by omega))

end Numeral
