import Mathlib.Data.List.Induction
import Mathlib.Data.List.Nodup

/-!
# Maps as lists of entries

An assignment takes the place of the entry that is there. What a map holds after many assignments is
the value of the last one for each key.
-/

namespace AssocMap

variable {κ ν : Type} [DecidableEq κ]

/-- The value for a key. -/
def find (m : List (κ × ν)) (k : κ) : Option ν := m.lookup k

/-- `m[k] = v`. -/
def set (m : List (κ × ν)) (k : κ) (v : ν) : List (κ × ν) := (k, v) :: m.filter fun e => e.1 ≠ k

/-- The assignments one after the other. -/
def setAll (m entries : List (κ × ν)) : List (κ × ν) := entries.foldl (fun m e => set m e.1 e.2) m

/-- The value that the last of the entries gives to a key. -/
def last (entries : List (κ × ν)) (k : κ) : Option ν := find entries.reverse k

variable {m entries : List (κ × ν)} {k key : κ} {v : ν}

theorem find_cons : find ((key, v) :: m) k = if k = key then some v else find m k := by
  rw [find, List.lookup_cons]
  by_cases hk : k = key
  · simp [hk]
  · rw [if_neg hk, show (k == key) = false by simpa using hk]
    rfl

theorem find_filter_ne (h : k ≠ key) : find (m.filter fun e => e.1 ≠ key) k = find m k := by
  induction m with
  | nil => rfl
  | cons e m ih =>
    by_cases he : e.1 = key
    · rw [List.filter_cons_of_neg (by simpa using he), ih, find_cons, if_neg (he ▸ h)]
    · rw [List.filter_cons_of_pos (by simpa using he), find_cons, find_cons, ih]

theorem find_set : find (set m key v) k = if k = key then some v else find m k := by
  rw [set, find_cons]
  split_ifs with hk
  · rfl
  · exact find_filter_ne hk

theorem last_snoc :
    last (entries ++ [(key, v)]) k = if k = key then some v else last entries k := by
  rw [last, List.reverse_append, List.reverse_singleton, List.singleton_append, find_cons, last]

/-- A map that was empty holds the last value of each key. -/
theorem find_setAll_nil : find (setAll [] entries) k = last entries k := by
  induction entries using List.reverseRecOn with
  | nil => rfl
  | append_singleton entries e ih =>
    rw [last_snoc, ← ih, setAll, List.foldl_append]
    exact find_set

/-! ## One entry for each key -/

theorem mem_set {e : κ × ν} : e ∈ set m key v ↔ e = (key, v) ∨ e ∈ m ∧ e.1 ≠ key := by
  simp [set]

theorem nodup_set (h : (m.map Prod.fst).Nodup) : ((set m key v).map Prod.fst).Nodup := by
  rw [set, List.map_cons, List.nodup_cons]
  constructor
  · simp
  · exact h.sublist (List.filter_sublist.map _)

theorem nodup_setAll (h : (m.map Prod.fst).Nodup) : ((setAll m entries).map Prod.fst).Nodup := by
  induction entries generalizing m with
  | nil => exact h
  | cons e entries ih => exact ih (nodup_set h)

theorem mem_of_find (h : find m k = some v) : (k, v) ∈ m := by
  induction m with
  | nil => cases h
  | cons e m ih =>
    rw [find_cons] at h
    split_ifs at h with hk
    · rw [hk, ← Option.some.inj h]
      exact List.mem_cons_self
    · exact List.mem_cons_of_mem _ (ih h)

theorem find_eq_some_iff (hnodup : (m.map Prod.fst).Nodup) : find m k = some v ↔ (k, v) ∈ m := by
  constructor
  · exact mem_of_find
  · intro h
    induction m with
    | nil => cases h
    | cons e m ih =>
      rw [List.map_cons, List.nodup_cons] at hnodup
      rw [find_cons]
      rcases List.mem_cons.mp h with rfl | h
      · rw [if_pos rfl]
      · have hne : k ≠ e.1 := by
          intro hk
          exact hnodup.1 (hk ▸ List.mem_map_of_mem h)
        rw [if_neg hne]
        exact ih hnodup.2 h

/-- An entry is an old one or comes from an assignment. -/
theorem mem_or_mem_of_mem_setAll {e : κ × ν} (h : e ∈ setAll m entries) : e ∈ m ∨ e ∈ entries := by
  induction entries generalizing m with
  | nil => exact Or.inl h
  | cons a entries ih =>
    rcases ih h with hset | hmem
    · rcases mem_set.mp hset with rfl | ⟨hm, -⟩
      · exact Or.inr List.mem_cons_self
      · exact Or.inl hm
    · exact Or.inr (List.mem_cons_of_mem _ hmem)

/-- No key is lost. -/
theorem mem_keys_setAll (h : k ∈ m.map Prod.fst) : k ∈ (setAll m entries).map Prod.fst := by
  induction entries generalizing m with
  | nil => exact h
  | cons e entries ih =>
    apply ih
    by_cases hk : k = e.1
    · rw [hk]
      exact List.mem_map_of_mem (mem_set.mpr (Or.inl rfl))
    · obtain ⟨a, ha, rfl⟩ := List.mem_map.mp h
      exact List.mem_map_of_mem (mem_set.mpr (Or.inr ⟨ha, hk⟩))

end AssocMap
