import Mathlib.Data.List.Basic

/-!
# The operations of `std::string`

A `std::string` is the list of its characters. An operation that throws `std::out_of_range` when it
is given a position beyond the end of the string returns `none` there. Counts that reach beyond the
end are clipped, as the standard says.
-/

namespace CxxString

variable {α : Type}

/-- `s.resize(n)`: cut the string off at `n` characters, or fill it up with `c` (the null character
for a `std::string`). -/
def resize (c : α) (s : List α) (n : ℕ) : List α := s.take n ++ List.replicate (n - s.length) c

/-- `s.replace(pos, count, t)`: the at most `count` characters from `pos` on give way to `t`. -/
def replace (s : List α) (pos count : ℕ) (t : List α) : Option (List α) :=
  if s.length < pos then none else some (s.take pos ++ t ++ s.drop (pos + count))

/-- `s.substr(pos, count)`; `out.append(s, pos, count)` appends the same characters. -/
def substr (s : List α) (pos count : ℕ) : Option (List α) :=
  if s.length < pos then none else some ((s.drop pos).take count)

/-- `s.find(t)`: the position of the first occurrence of `t`, `none` for `npos`. -/
def find [BEq α] (t : List α) : List α → Option ℕ
  | [] => if t.isEmpty then some 0 else none
  | c :: s => if t.isPrefixOf (c :: s) then some 0 else (find t s).map (· + 1)

/-- `s.find(c, pos)` for a character. -/
def findFrom [BEq α] (c : α) (s : List α) (pos : ℕ) : Option ℕ :=
  (find [c] (s.drop pos)).map (pos + ·)

/-- `s.c_str()`, read as a C string: the characters before the first null character. -/
def upToNull [BEq α] (null : α) (s : List α) : List α := s.takeWhile (· != null)

/-- `s.find_last_of(c)`: the position of the last character `c`. -/
def findLast [BEq α] (c : α) : List α → Option ℕ
  | [] => none
  | a :: s =>
    match findLast c s with
    | some pos => some (pos + 1)
    | none => if a == c then some 0 else none

@[simp]
theorem length_resize (c : α) (s : List α) (n : ℕ) : (resize c s n).length = n := by
  simp [resize]
  omega

theorem getElem?_resize_of_lt (c : α) {s : List α} {n i : ℕ} (hi : i < n) (hs : i < s.length) :
    (resize c s n)[i]? = s[i]? := by
  have h1 : i < (s.take n).length := by simp; omega
  rw [resize, List.getElem?_append_left h1, List.getElem?_take_of_lt hi]

theorem getElem?_resize_of_le (c : α) {s : List α} {n i : ℕ} (hi : i < n) (hs : s.length ≤ i) :
    (resize c s n)[i]? = some c := by
  have h1 : (s.take n).length ≤ i := by simp; omega
  rw [resize, List.getElem?_append_right h1, List.getElem?_replicate_of_lt]
  simp
  omega

theorem replace_eq_none {s : List α} {pos count : ℕ} {t : List α} :
    replace s pos count t = none ↔ s.length < pos := by
  simp [replace]

theorem replace_of_le {s : List α} {pos count : ℕ} {t : List α} (h : pos ≤ s.length) :
    replace s pos count t = some (s.take pos ++ t ++ s.drop (pos + count)) := by
  simp [replace, h]

/-- One character gives way to a text. -/
theorem replace_append (s : List α) (c : α) (rest t : List α) :
    replace (s ++ c :: rest) s.length 1 t = some (s ++ t ++ rest) := by
  rw [replace_of_le (by simp), List.take_left, List.drop_append, List.drop_of_length_le (by omega)]
  simp

/-- The length of `s` after as many characters as `t` has are replaced by `t`. -/
theorem length_replaced {s t : List α} {pos : ℕ} (h : pos ≤ s.length) :
    (s.take pos ++ t ++ s.drop (pos + t.length)).length = max s.length (pos + t.length) := by
  simp
  omega

/-- Every character of `s` after as many characters as `t` has are replaced by `t`. -/
theorem getElem?_replaced {s t : List α} {pos : ℕ} (h : pos ≤ s.length) (i : ℕ) :
    (s.take pos ++ t ++ s.drop (pos + t.length))[i]? =
      if pos ≤ i ∧ i < pos + t.length then t[i - pos]? else s[i]? := by
  have htake : (s.take pos).length = pos := by simp [h]
  by_cases h1 : i < pos
  · rw [List.append_assoc, List.getElem?_append_left (by omega), List.getElem?_take_of_lt h1,
      if_neg (by omega)]
  · by_cases h2 : i < pos + t.length
    · rw [if_pos (by omega), List.getElem?_append_left (by simp; omega),
        List.getElem?_append_right (by omega), htake]
    · rw [if_neg (by omega), List.getElem?_append_right (by simp; omega), List.getElem?_drop]
      congr 1
      simp [h]
      omega

theorem substr_eq_none {s : List α} {pos count : ℕ} :
    substr s pos count = none ↔ s.length < pos := by
  simp [substr]

theorem substr_of_le {s : List α} {pos count : ℕ} (h : pos ≤ s.length) :
    substr s pos count = some ((s.drop pos).take count) := by
  simp [substr, h]

theorem prefix_of_find [BEq α] [LawfulBEq α] {t s : List α} {pos : ℕ} (h : find t s = some pos) :
    t <+: s.drop pos := by
  induction s generalizing pos with
  | nil => simp_all [find]
  | cons c s ih =>
    rw [find] at h
    split at h
    · next hpre =>
      obtain rfl : 0 = pos := by simpa using h
      exact List.isPrefixOf_iff_prefix.1 hpre
    · obtain ⟨i, hi, rfl⟩ := Option.map_eq_some_iff.1 h
      exact ih hi

theorem find_eq_none_iff [BEq α] [LawfulBEq α] {t s : List α} : find t s = none ↔ ¬ t <:+: s := by
  induction s with
  | nil => simp [find]
  | cons c s ih =>
    rw [find, List.infix_cons_iff, ← List.isPrefixOf_iff_prefix]
    split
    · simp [*]
    · simp [*]

/-- The first occurrence of `c :: t` is not before the first `c`. -/
theorem find_append [BEq α] [LawfulBEq α] {c : α} {s : List α} (h : c ∉ s) (t rest : List α) :
    find (c :: t) (s ++ (c :: t ++ rest)) = some s.length := by
  induction s with
  | nil => simp [find, List.isPrefixOf_iff_prefix]
  | cons d s ih =>
    obtain ⟨hd, hs⟩ : c ≠ d ∧ c ∉ s := by simpa using h
    have hne : (c == d) = false := by simpa using hd
    rw [List.cons_append, find, List.isPrefixOf_cons_cons, hne, ih hs]
    simp

theorem find_singleton_none [BEq α] [LawfulBEq α] {c : α} {s : List α} (h : c ∉ s) :
    find [c] s = none := by
  rw [find_eq_none_iff]
  intro hocc
  exact h (hocc.subset List.mem_cons_self)

theorem findFrom_append [BEq α] [LawfulBEq α] {c : α} {t : List α} (h : c ∉ t) (s rest : List α) :
    findFrom c (s ++ (t ++ c :: rest)) s.length = some (s.length + t.length) := by
  rw [findFrom, List.drop_left]
  exact congrArg (Option.map _) (find_append h [] rest)

theorem findFrom_eq_none [BEq α] [LawfulBEq α] {c : α} {t : List α} (h : c ∉ t) (s : List α) :
    findFrom c (s ++ t) s.length = none := by
  rw [findFrom, List.drop_left, find_singleton_none h, Option.map_none]

theorem findFrom_zero [BEq α] [LawfulBEq α] {c : α} {s : List α} :
    findFrom c s 0 = some 0 ↔ s.head? = some c := by
  cases s with
  | nil => simp [findFrom, find]
  | cons d s =>
    by_cases hd : c = d
    · simp [findFrom, find, hd]
    · simp [findFrom, find, hd, Ne.symm hd]

theorem upToNull_of_not_mem [BEq α] [LawfulBEq α] {null : α} {s : List α} (h : null ∉ s) :
    upToNull null s = s := by
  unfold upToNull
  induction s with
  | nil => rfl
  | cons c s ih =>
    obtain ⟨hc, hs⟩ : null ≠ c ∧ null ∉ s := by simpa using h
    have hne : (c != null) = true := bne_iff_ne.mpr hc.symm
    rw [List.takeWhile_cons, if_pos hne, ih hs]

theorem find_le [BEq α] [LawfulBEq α] {t s : List α} {pos : ℕ} (h : find t s = some pos)
    (ht : t ≠ []) : pos + t.length ≤ s.length := by
  have hle := (prefix_of_find h).length_le
  have hpos := List.length_pos_iff.mpr ht
  rw [List.length_drop] at hle
  omega

theorem find_of_prefix [BEq α] [LawfulBEq α] {t s : List α} (h : t <+: s) : find t s = some 0 := by
  cases s with
  | nil => simp [find, List.prefix_nil.mp h]
  | cons c s => rw [find, if_pos (List.isPrefixOf_iff_prefix.mpr h)]

/-- The search goes on at the next position if the string is not at the first one. -/
theorem find_drop_of_not_prefix [BEq α] [LawfulBEq α] {t s : List α} {pos : ℕ} (hpos : pos < s.length)
    (h : ¬ t <+: s.drop pos) :
    find t (s.drop pos) = (find t (s.drop (pos + 1))).map (· + 1) := by
  rw [List.drop_eq_getElem_cons hpos] at h ⊢
  rw [find, if_neg (mt List.isPrefixOf_iff_prefix.mp h)]

theorem find_append_of_some [BEq α] [LawfulBEq α] {t s : List α} {pos : ℕ} (h : find t s = some pos)
    (rest : List α) : find t (s ++ rest) = some pos := by
  induction s generalizing pos with
  | nil =>
    obtain ⟨ht, rfl⟩ : t = [] ∧ 0 = pos := by simpa [find] using h
    cases rest with
    | nil => simp [find, ht]
    | cons c rest => simp [find, ht]
  | cons c s ih =>
    rw [find] at h
    rw [List.cons_append, find]
    split at h
    · next hpre =>
      have hpre' : t.isPrefixOf (c :: (s ++ rest)) = true := by
        rw [List.isPrefixOf_iff_prefix] at hpre ⊢
        exact hpre.trans (List.prefix_append (c :: s) rest)
      rw [if_pos hpre']
      exact h
    · next hpre =>
      obtain ⟨i, hi, rfl⟩ := Option.map_eq_some_iff.1 h
      have hle := (prefix_of_find hi).length_le
      have hpre' : ¬ t.isPrefixOf (c :: (s ++ rest)) = true := by
        rw [List.isPrefixOf_iff_prefix] at hpre ⊢
        intro hp
        refine hpre (List.prefix_of_prefix_length_le hp (List.prefix_append (c :: s) rest) ?_)
        rw [List.length_drop] at hle
        simp only [List.length_cons]
        omega
      rw [if_neg hpre', ih hi, Option.map_some]

/-- The first occurrence is found in the string up to its end. -/
theorem find_take_of_some [BEq α] [LawfulBEq α] {t s : List α} {pos : ℕ} (h : find t s = some pos) :
    find t (s.take (pos + t.length)) = some pos := by
  have hocc : t <:+: s.take (pos + t.length) := by
    obtain ⟨rest, hrest⟩ := prefix_of_find h
    rw [List.take_add, ← hrest, List.take_left]
    exact (List.suffix_append _ _).isInfix
  rcases hfind : find t (s.take (pos + t.length)) with _ | i
  · exact absurd hocc (find_eq_none_iff.mp hfind)
  · have happ := find_append_of_some hfind (s.drop (pos + t.length))
    rwa [List.take_append_drop, h, eq_comm] at happ

/-- A piece in which no occurrence begins is passed over. -/
theorem find_append_of_not_prefix [BEq α] [LawfulBEq α] {t p s : List α}
    (h : ∀ q, q <:+ p → q ≠ [] → ¬ t <+: q ++ s) :
    find t (p ++ s) = (find t s).map (p.length + ·) := by
  induction p with
  | nil => simp
  | cons c p ih =>
    have hc : ¬ t <+: c :: (p ++ s) := h (c :: p) List.suffix_rfl (by simp)
    have hp := ih fun q hq hne => h q (hq.trans (List.suffix_cons c p)) hne
    rw [List.cons_append, find, if_neg (mt List.isPrefixOf_iff_prefix.mp hc), hp, Option.map_map]
    congr 1
    funext i
    simp only [Function.comp_apply, List.length_cons]
    omega

/-- Characters that only stand for themselves are found in the image of a string as in the string. -/
theorem find_map_of_fixed [BEq α] [LawfulBEq α] {f : α → α} {t : List α}
    (hf : ∀ e ∈ t, ∀ c, f c = e ↔ c = e) (s : List α) : find t (s.map f) = find t s := by
  have hpre : ∀ s : List α, t.isPrefixOf (s.map f) = t.isPrefixOf s := by
    induction t with
    | nil => simp
    | cons e t ih =>
      intro s
      cases s with
      | nil => rfl
      | cons c s =>
        have hc : (e == f c) = (e == c) := by
          rw [Bool.eq_iff_iff, beq_iff_eq, beq_iff_eq, eq_comm, hf e List.mem_cons_self, eq_comm]
        rw [List.map_cons, List.isPrefixOf_cons_cons, List.isPrefixOf_cons_cons, hc,
          ih (fun e he => hf e (List.mem_cons_of_mem _ he))]
  induction s with
  | nil => rfl
  | cons c s ih => rw [List.map_cons, find, find, ih, ← List.map_cons, hpre]

theorem findLast_append [BEq α] [LawfulBEq α] {c : α} {t : List α} (h : c ∉ t) (s : List α) :
    findLast c (s ++ c :: t) = some s.length := by
  have hnone : findLast c t = none := by
    induction t with
    | nil => rfl
    | cons a t ih =>
      obtain ⟨ha, ht⟩ : c ≠ a ∧ c ∉ t := by simpa using h
      simp [findLast, ih ht, Ne.symm ha]
  induction s with
  | nil => simp [findLast, hnone]
  | cons a s ih => simp [findLast, ih]

/-- The character does not occur behind its last occurrence. -/
theorem not_mem_drop_of_findLast [BEq α] [LawfulBEq α] {c : α} {s : List α} {pos : ℕ}
    (h : findLast c s = some pos) : c ∉ s.drop (pos + 1) := by
  have hnone (s : List α) (h : findLast c s = none) : c ∉ s := by
    induction s with
    | nil => exact List.not_mem_nil
    | cons a s ih =>
      unfold findLast at h
      cases hs : findLast c s with
      | some pos => simp [hs] at h
      | none =>
        simp only [hs] at h
        rw [List.mem_cons, not_or]
        exact ⟨fun hc => by simp [hc] at h, ih hs⟩
  induction s generalizing pos with
  | nil => cases h
  | cons a s ih =>
    unfold findLast at h
    cases hs : findLast c s with
    | some pos' =>
      simp only [hs, Option.some.injEq] at h
      rw [← h]
      exact ih hs
    | none =>
      have hpos : pos = 0 := by
        simp only [hs] at h
        split_ifs at h
        exact (Option.some.inj h).symm
      rw [hpos]
      exact hnone s hs

end CxxString
