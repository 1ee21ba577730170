import Mathlib.Data.List.TakeWhile

/-!
# Paths

The operating system gets the bytes of a string up to the first null byte. A path that is put together
from a directory and names stays inside the directory if the operating system sees names only.
-/

namespace Path

/-- The separator of names. -/
def slash : UInt8 := 0x2F

/-- The name of a directory in itself, and twice that of the one above it. -/
def dot : UInt8 := 0x2E

/-- What the operating system gets of a string. -/
def cStr (s : List UInt8) : List UInt8 := s.takeWhile (· ≠ 0)

/-- The path that leads from the directory on by the given names. -/
def below (dir : List UInt8) (names : List (List UInt8)) : List UInt8 :=
  dir ++ names.flatMap (slash :: ·)

/-- The name of an entry of a directory, other than the directory itself and the one above it. -/
structure IsName (name : List UInt8) : Prop where
  /-- The name is one name. -/
  no_slash : slash ∉ name
  /-- There is a name. -/
  ne_nil : name ≠ []
  /-- It is not the directory itself. -/
  ne_dot : name ≠ [dot]
  /-- It is not the one above. -/
  ne_dots : name ≠ [dot, dot]

/-- The path leads to something inside the directory. -/
def Inside (dir path : List UInt8) : Prop :=
  ∃ names, names ≠ [] ∧ (∀ name ∈ names, IsName name) ∧ path = below dir names

variable {s t dir : List UInt8} {names : List (List UInt8)}

theorem cStr_eq_self (h : 0 ∉ s) : cStr s = s := by
  rw [cStr, List.takeWhile_eq_self_iff]
  intro c hc
  exact decide_eq_true (ne_of_mem_of_not_mem hc h)

theorem cStr_append (h : 0 ∉ s) (t : List UInt8) : cStr (s ++ t) = s ++ cStr t := by
  rw [cStr, List.takeWhile_append_of_pos]
  · rfl
  · intro c hc
    exact decide_eq_true (ne_of_mem_of_not_mem hc h)

/-- What comes behind a null byte does not matter. -/
theorem cStr_append_of_mem (h : 0 ∈ s) (t : List UInt8) : cStr (s ++ t) = cStr s := by
  induction s with
  | nil => cases h
  | cons c s ih =>
    by_cases hc : c = 0
    · simp [cStr, hc]
    · have hs : 0 ∈ s := (List.mem_cons.mp h).resolve_left (Ne.symm hc)
      have ih := ih hs
      unfold cStr at ih ⊢
      rw [List.cons_append, List.takeWhile_cons, List.takeWhile_cons, ih]

theorem mem_of_mem_cStr {c : UInt8} (h : c ∈ cStr s) : c ∈ s :=
  (List.takeWhile_prefix _).subset h

theorem below_cons (dir name : List UInt8) (names : List (List UInt8)) :
    below dir (name :: names) = below (dir ++ slash :: name) names := by
  simp [below]

/-- The names of a path up to the first null byte. -/
theorem exists_names_of_cStr (hnames : ∀ name ∈ names, IsName (cStr name)) :
    ∃ parts, (names ≠ [] → parts ≠ []) ∧ (∀ part ∈ parts, IsName part) ∧
      cStr (names.flatMap (slash :: ·)) = parts.flatMap (slash :: ·) := by
  induction names with
  | nil => exact ⟨[], id, by simp, rfl⟩
  | cons name names ih =>
    have hname := hnames name (List.mem_cons_self ..)
    by_cases h : 0 ∈ name
    · -- the path ends within this name
      refine ⟨[cStr name], by simp, by simpa using hname, ?_⟩
      have hslash : cStr (slash :: name) = slash :: cStr name :=
        cStr_append (s := [slash]) (by decide) name
      rw [List.flatMap_cons, cStr_append_of_mem (List.mem_cons_of_mem _ h), hslash]
      simp
    · obtain ⟨parts, -, hparts, heq⟩ := ih fun n hn => hnames n (List.mem_cons_of_mem _ hn)
      have hslash : 0 ∉ slash :: name := by
        rw [List.mem_cons, not_or]
        exact ⟨by decide, h⟩
      refine ⟨name :: parts, by simp, ?_, ?_⟩
      · rw [cStr_eq_self h] at hname
        exact List.forall_mem_cons.mpr ⟨hname, hparts⟩
      · rw [List.flatMap_cons, cStr_append hslash, heq, List.flatMap_cons]

theorem inside_cStr_below (hdir : 0 ∉ dir) (hne : names ≠ [])
    (hnames : ∀ name ∈ names, IsName (cStr name)) : Inside dir (cStr (below dir names)) := by
  obtain ⟨parts, hparts, hisName, heq⟩ := exists_names_of_cStr hnames
  refine ⟨parts, hparts hne, hisName, ?_⟩
  rw [below, cStr_append hdir, heq, below]

end Path
