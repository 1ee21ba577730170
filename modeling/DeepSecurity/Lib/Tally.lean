import Mathlib.Algebra.BigOperators.Fin
import Mathlib.Data.Fintype.BigOperators

/-!
# Adding up over a finite family

Numbers that finitely many parties have, and how many of the parties are in some condition. A step of one
party changes the sum by what it changes for that party.
-/

namespace Tally

variable {ι : Type} [Fintype ι]

/-- The sum over all parties. -/
@[irreducible]
def total (f : ι → ℕ) : ℕ := ∑ i, f i

/-- The number of parties in a condition. -/
def tally (p : ι → Bool) : ℕ := total fun i => (p i).toNat

theorem total_eq_zero_iff {f : ι → ℕ} : total f = 0 ↔ ∀ i, f i = 0 := by
  simp [total]

/-- Numbers that agree for all parties but one. -/
theorem total_add [DecidableEq ι] {f g : ι → ℕ} (i : ι) (h : ∀ j, j ≠ i → f j = g j) :
    total f + g i = total g + f i := by
  have hrest : ∑ j ∈ Finset.univ.erase i, f j = ∑ j ∈ Finset.univ.erase i, g j :=
    Finset.sum_congr rfl fun j hj => h j (Finset.ne_of_mem_erase hj)
  rw [total, total, ← Finset.add_sum_erase _ _ (Finset.mem_univ i),
    ← Finset.add_sum_erase _ g (Finset.mem_univ i), hrest]
  omega

theorem tally_eq_zero_iff {p : ι → Bool} : tally p = 0 ↔ ∀ i, p i = false := by
  simp [tally, total_eq_zero_iff]

/-- Two conditions that agree for all parties but one. -/
theorem tally_add_toNat [DecidableEq ι] {p q : ι → Bool} (i : ι) (h : ∀ j, j ≠ i → p j = q j) :
    tally p + (q i).toNat = tally q + (p i).toNat :=
  total_add (f := fun j => (p j).toNat) (g := fun j => (q j).toNat) i fun j hj => by rw [h j hj]

end Tally
