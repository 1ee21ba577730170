import Mathlib.Data.Int.CardIntervalMod

/-!
# Taking turns

A counter that goes up by one at every turn, and `n` places, of which the one with the number
`counter % n` has its turn. Between any two values of the counter the places have had their turns
equally often, up to one.
-/

namespace RoundRobin

/-- How often the place `p` has had its turn when the counter has gone from 0 to `k`. -/
def turns (n p k : ℕ) : ℕ := Nat.count (fun i => i % n = p) (k + 1)

variable {n p q a b : ℕ}

theorem turns_succ (n p k : ℕ) :
    turns n p (k + 1) = turns n p k + if (k + 1) % n = p then 1 else 0 :=
  Nat.count_succ _ _

theorem turns_eq (hp : p < n) (k : ℕ) :
    turns n p k = (k + 1) / n + if p < (k + 1) % n then 1 else 0 := by
  have hcount := Nat.count_modEq_card (b := k + 1) (Nat.zero_lt_of_lt hp) p
  rw [Nat.mod_eq_of_lt hp] at hcount
  rw [← hcount, turns]
  congr 1
  funext i
  rw [Nat.ModEq, Nat.mod_eq_of_lt hp]

/-- The turns of two places while the counter goes from `a` to `b`. -/
theorem turns_balanced (hp : p < n) (hq : q < n) (hab : a ≤ b) :
    turns n p b + turns n q a ≤ turns n q b + turns n p a + 1 := by
  have hdiv : (a + 1) / n ≤ (b + 1) / n := Nat.div_le_div_right (by omega)
  rw [turns_eq hp, turns_eq hp, turns_eq hq, turns_eq hq]
  split_ifs <;> omega

end RoundRobin
