import Mathlib.Data.List.Basic

/-!
# Re-entrant critical sections

A section that belongs to no thread, or to one thread which has entered it once or more often and has
to leave it as often. A thread that finds it with another one has to wait.
-/

/-- Free, or held by its owner, who has entered it `again` times while holding it. -/
inductive CriticalSection (τ : Type) where
  | free
  | held (owner : τ) (again : ℕ)

namespace CriticalSection

variable {τ : Type} [DecidableEq τ]

/-- `none` if the thread has to wait. -/
def enter (cs : CriticalSection τ) (t : τ) : Option (CriticalSection τ) :=
  match cs with
  | .free => some (.held t 0)
  | .held owner again => if owner = t then some (.held t (again + 1)) else none

/-- A section that is held by another thread stays held. -/
def leave (cs : CriticalSection τ) (t : τ) : CriticalSection τ :=
  match cs with
  | .free => .free
  | .held owner again =>
    if owner = t then
      match again with
      | 0 => .free
      | again + 1 => .held owner again
    else .held owner again

/-- How often the thread has entered the section without leaving it. -/
def entries (cs : CriticalSection τ) (t : τ) : ℕ :=
  match cs with
  | .free => 0
  | .held owner again => if owner = t then again + 1 else 0

variable {cs cs' : CriticalSection τ} {t x : τ}

theorem entries_enter (h : cs.enter t = some cs') :
    cs'.entries x = cs.entries x + if t = x then 1 else 0 := by
  rcases cs with _ | ⟨owner, again⟩
  · obtain rfl := Option.some.inj h
    by_cases hx : t = x <;> simp [entries, hx]
  · have h' : (if owner = t then some (held t (again + 1)) else none) = some cs' := h
    split_ifs at h' with howner
    obtain rfl := Option.some.inj h'
    subst howner
    by_cases hx : owner = x <;> simp [entries, hx]

theorem entries_leave (h : 0 < cs.entries t) :
    (cs.leave t).entries x = cs.entries x - if t = x then 1 else 0 := by
  rcases cs with _ | ⟨owner, again⟩
  · simp [entries] at h
  · have howner : owner = t := by
      by_contra hne
      simp [entries, hne] at h
    subst howner
    rcases again with _ | again <;> by_cases hx : owner = x <;> simp [leave, entries, hx]

/-- A thread that has to wait, waits for one that has entered the section. -/
theorem exists_of_enter_eq_none (h : cs.enter t = none) : ∃ owner, owner ≠ t ∧ 0 < cs.entries owner := by
  rcases cs with _ | ⟨owner, again⟩
  · cases h
  · refine ⟨owner, ?_, by simp [entries]⟩
    rintro rfl
    simp [enter] at h

end CriticalSection
