import DeepSecurity.CaptureHpc.Monitor

/-!
# Proofs: the expression made of a path

`prepareStringForExclusion` puts a backslash before backslashes and dots. So these are characters of the
expression, like all that are not special; the other special characters keep their meaning, and none of
them can be matched by the expression.
-/

namespace CaptureHpc

namespace Monitor

open CxxString PerlRegex Xml

/-! ## The two loops -/

/-- What the loop makes of a character. -/
def replaced (c : UInt16) (replacement : Units) (d : UInt16) : Units :=
  if d = c then replacement else [d]

theorem flatMap_replaced_of_not_mem {c : UInt16} {s : Units} (h : c ∉ s) (replacement : Units) :
    s.flatMap (replaced c replacement) = s := by
  induction s with
  | nil => rfl
  | cons d s ih =>
    obtain ⟨hd, hs⟩ : c ≠ d ∧ c ∉ s := by simpa using h
    rw [List.flatMap_cons, ih hs, replaced, if_neg (Ne.symm hd), List.singleton_append]

/-- The loop leaves what is before the offset, and replaces every occurrence behind it. -/
theorem replaceLoop_eq (c : UInt16) (replacement : Units) (rounds : ℕ) (done s : Units)
    (h : s.count c < rounds) :
    replaceLoop c replacement rounds done.length (done ++ s) =
      some (done ++ s.flatMap (replaced c replacement)) := by
  induction rounds generalizing done s with
  | zero => omega
  | succ rounds ih =>
    unfold replaceLoop
    by_cases hmem : c ∈ s
    · obtain ⟨t, rest, rfl, ht⟩ := List.eq_append_cons_of_mem hmem
      have hcount : rest.count c < rounds := by
        rw [List.count_append, List.count_cons_self] at h
        omega
      have hreplace : CxxString.replace (done ++ (t ++ c :: rest)) (done.length + t.length) 1 replacement =
          some (done ++ t ++ replacement ++ rest) := by
        rw [← List.append_assoc, ← List.length_append]
        exact replace_append (done ++ t) c rest replacement
      have hnext := ih (done ++ t ++ replacement) rest hcount
      rw [List.length_append, List.length_append] at hnext
      simp only [findFrom_append ht, hreplace, Option.bind_eq_bind, Option.bind_some, hnext]
      rw [List.flatMap_append, flatMap_replaced_of_not_mem ht, List.flatMap_cons, replaced, if_pos rfl]
      simp
    · rw [findFrom_eq_none hmem, flatMap_replaced_of_not_mem hmem]

/-- A backslash before a backslash and before a dot. -/
def escape (c : UInt16) : Units := if c = 0x5C ∨ c = 0x2E then [0x5C, c] else [c]

theorem prepareStringForExclusion_eq (s : Units) :
    prepareStringForExclusion s = some (s.flatMap escape) := by
  have hloop (c : UInt16) (replacement s : Units) :
      replaceLoop c replacement (s.length + 1) 0 s = some (s.flatMap (replaced c replacement)) :=
    replaceLoop_eq c replacement (s.length + 1) [] s (Nat.lt_succ_of_le List.count_le_length)
  have hescape (c : UInt16) :
      (replaced 0x5C [0x5C, 0x5C] c).flatMap (replaced 0x2E [0x5C, 0x2E]) = escape c := by
    unfold replaced escape
    by_cases hbackslash : c = 0x5C
    · subst hbackslash
      rfl
    · by_cases hdot : c = 0x2E
      · subst hdot
        rfl
      · simp [hbackslash, hdot]
  rw [prepareStringForExclusion, hloop]
  simp only [Option.bind_eq_bind, Option.bind_some, hloop, List.flatMap_assoc, hescape]

/-- The pattern has no null character either. -/
theorem upToNull_flatMap_escape {s : Units} (h : 0 ∉ s) : upToNull 0 (s.flatMap escape) = s.flatMap escape := by
  refine upToNull_of_not_mem fun hmem => ?_
  obtain ⟨c, hc, hzero⟩ := List.mem_flatMap.mp hmem
  have hne : c ≠ 0 := fun h0 => h (h0 ▸ hc)
  unfold escape at hzero
  split_ifs at hzero <;> simp [hne.symm] at hzero

/-! ## Paths without special characters -/

variable (fold : UInt16 → UInt16)

theorem foldlM_escape {p : Parser} {c : UInt16} (hmode : p.mode ≠ .escape)
    (hspecial : c ∉ Parser.special) :
    (escape c).foldlM Parser.step p = .ok (p.push (.char c) .item) := by
  unfold escape
  split_ifs with hc
  · refine foldlM_escaped hmode ?_
    rcases hc with rfl | rfl <;> rfl
  · rw [not_or] at hc
    rw [List.foldlM_cons, step_char hmode hspecial hc.1 hc.2]
    rfl

/-- The parser gets to the end of the path with its characters as items. -/
theorem foldlM_flatMap_escape (s : Units) (hs : ∀ c ∈ s, c ∉ Parser.special) (p : Parser)
    (hmode : p.mode ≠ .escape) :
    ∃ p', (s.flatMap escape).foldlM Parser.step p = .ok p' ∧ p'.outer = p.outer ∧ p'.mode ≠ .escape ∧
      ∀ t, p.frame.Spells fold t → p'.frame.Spells fold (t ++ s) := by
  induction s generalizing p with
  | nil => exact ⟨p, rfl, rfl, hmode, fun t ht => by rwa [List.append_nil]⟩
  | cons c s ih =>
    rw [List.flatMap_cons, List.foldlM_append, foldlM_escape hmode (hs c List.mem_cons_self)]
    obtain ⟨p', hfold, houter, hmode', hspells⟩ :=
      ih (fun d hd => hs d (List.mem_cons_of_mem c hd)) (p.push (.char c) .item) (by simp [Parser.push])
    refine ⟨p', hfold, houter, hmode', fun t ht => ?_⟩
    rw [List.append_cons]
    exact hspells _ (ht.push c)

theorem parse_flatMap_escape (s : Units) (hs : ∀ c ∈ s, c ∉ Parser.special) :
    ∃ r, parse (s.flatMap escape) = .ok r ∧
      ∀ x t y, Matches fold r x t y ↔ t.map fold = s.map fold := by
  obtain ⟨p, hp, houter, hmode, hspells⟩ := foldlM_flatMap_escape fold s hs Parser.new (by decide)
  have hfinish : p.finish = .ok p.frame.regex := by
    rw [Parser.finish, if_neg]
    simp [hmode, houter, Parser.new]
  refine ⟨p.frame.regex, ?_, fun x t y => (hspells [] Frame.spells_new).matches_regex⟩
  unfold parse
  rw [hp]
  exact hfinish

/-! ## Paths with special characters -/

theorem foldlM_escape_uncovered {p : Parser} {c : UInt16} (hmode : p.mode ≠ .escape)
    (hc : c ∈ Parser.uncovered) : (escape c).foldlM Parser.step p = .error .notCovered := by
  have hescape : escape c = [c] := by
    simp only [Parser.uncovered, List.mem_cons, List.not_mem_nil, or_false] at hc
    rcases hc with rfl | rfl | rfl <;> rfl
  rw [hescape, List.foldlM_cons, step_uncovered hmode hc]
  rfl

/-- If `[`, `{` and `}` are the only special characters of the path, the parser stops at the first of
them. -/
theorem parse_uncovered {s : Units} (hs : ∀ c ∈ s, c ∉ Parser.metacharacters) {c : UInt16} (hc : c ∈ s)
    (hcovered : c ∈ Parser.uncovered) : parse (s.flatMap escape) = .error .notCovered := by
  have hfold : ∀ p : Parser, p.mode ≠ .escape →
      (s.flatMap escape).foldlM Parser.step p = .error .notCovered := by
    induction s with
    | nil => cases hc
    | cons d s ih =>
      intro p hmode
      rw [List.flatMap_cons, List.foldlM_append]
      by_cases hd : d ∈ Parser.uncovered
      · rw [foldlM_escape_uncovered hmode hd]
        rfl
      · have hspecial : d ∉ Parser.special := by
          simp [Parser.special, hs d List.mem_cons_self, hd]
        rw [foldlM_escape hmode hspecial]
        have hmem : c ∈ s := (List.mem_cons.mp hc).resolve_left fun heq => hd (heq ▸ hcovered)
        exact ih (fun d hd => hs d (List.mem_cons_of_mem _ hd)) hmem _ (by simp [Parser.push])
  unfold parse
  rw [hfold Parser.new (by decide)]
  rfl

theorem avoids_of_foldlM_escape {p p' : Parser} {c : UInt16} (h : p.Avoids Parser.metacharacters)
    (hstep : (escape c).foldlM Parser.step p = .ok p') : p'.Avoids Parser.metacharacters := by
  by_cases hc : c = 0x5C ∨ c = 0x2E
  · have hmeta : c ∉ Parser.metacharacters ∧ Parser.isAlphanumeric c = false := by
      rcases hc with rfl | rfl <;> decide
    rw [escape, if_pos hc, foldlM_escaped h.mode hmeta.2] at hstep
    rw [← Except.ok.inj hstep]
    exact Parser.Avoids.push h (r := .char c) hmeta.1 (by simp)
  · rw [escape, if_neg hc, List.foldlM_cons] at hstep
    rw [not_or] at hc
    cases hfirst : p.step c with
    | error e =>
      rw [hfirst] at hstep
      cases hstep
    | ok p₁ =>
      rw [hfirst] at hstep
      have hlast : p₁ = p' := Except.ok.inj hstep
      exact hlast ▸ h.step hc.1 hc.2 hfirst

theorem avoids_of_foldlM (s : Units) {p p' : Parser} (h : p.Avoids Parser.metacharacters)
    (hstep : (s.flatMap escape).foldlM Parser.step p = .ok p') : p'.Avoids Parser.metacharacters := by
  induction s generalizing p with
  | nil => exact Except.ok.inj hstep ▸ h
  | cons c s ih =>
    rw [List.flatMap_cons, List.foldlM_append] at hstep
    cases hfirst : (escape c).foldlM Parser.step p with
    | error e =>
      rw [hfirst] at hstep
      cases hstep
    | ok p₁ =>
      rw [hfirst] at hstep
      exact ih (avoids_of_foldlM_escape h hfirst) hstep

theorem avoids_of_parse (s : Units) {r : Regex} (h : parse (s.flatMap escape) = .ok r) :
    r.Avoids Parser.metacharacters := by
  unfold parse at h
  cases hfold : (s.flatMap escape).foldlM Parser.step Parser.new with
  | error e =>
    rw [hfold] at h
    cases h
  | ok p =>
    rw [hfold] at h
    exact (avoids_of_foldlM s Parser.Avoids.new hfold).finish h

/-! ## When the expression is exact -/

section

variable {cf : CaseFolding} (engine : Engine cf.fold)

/-- The expression for a path without special characters is exact. -/
theorem exact_of_not_mem {s : Path} (hs : ∀ c ∈ s.1, c ∉ Parser.special) : Exact engine s := by
  obtain ⟨r, hparse, hspec⟩ := parse_flatMap_escape cf.fold s.1 hs
  obtain ⟨e, hcompile, hmatch⟩ := engine.compile_of_ok _ r hparse
  refine ⟨s.1.flatMap escape, e, prepareStringForExclusion_eq s.1, ?_, fun t => ?_⟩
  · rw [upToNull_flatMap_escape s.2, hcompile]
  · rw [upToNull_of_not_mem t.2, hmatch]
    exact hspec [] t.1 []

/-- The expression does not even match the path it is made of. -/
theorem not_exact_of_mem {s : Path} {c : UInt16} (hc : c ∈ s.1) (hmeta : c ∈ Parser.metacharacters)
    (hparse : parse (s.1.flatMap escape) ≠ .error .notCovered) : ¬ Exact engine s := by
  rintro ⟨pattern, re, hprepare, hcompile, hexact⟩
  rw [prepareStringForExclusion_eq, Option.some_inj] at hprepare
  rw [← hprepare, upToNull_flatMap_escape s.2] at hcompile
  cases hr : parse (s.1.flatMap escape) with
  | error e =>
    cases e with
    | invalid =>
      rw [engine.compile_of_invalid _ hr] at hcompile
      cases hcompile
    | notCovered => exact hparse hr
  | ok r =>
    obtain ⟨e, he, hmatch⟩ := engine.compile_of_ok _ r hr
    rw [hcompile, Option.some_inj] at he
    have hself : Matches cf.fold r [] s.1 [] := by
      rw [← hmatch, ← he]
      have h := (hexact s).mpr rfl
      rwa [upToNull_of_not_mem s.2] at h
    obtain ⟨d, hd, hfold⟩ := hself.exists_char (avoids_of_parse s.1 hr) hc
    exact hd (cf.eq_of_fold_eq c hmeta d hfold.symm ▸ hmeta)

end

theorem covered_iff (s : Path) : Covered s ↔ parse (s.1.flatMap escape) ≠ .error .notCovered := by
  unfold Covered
  rw [prepareStringForExclusion_eq]
  simp only [Option.mem_def, Option.some_inj, forall_eq', upToNull_flatMap_escape s.2]

/-- The expression for a path without `^`, `$`, `|`, `(`, `)`, `*`, `+`, `?`, `[`, `{` and `}` is exact, and
that for a path with one of them is not, as far as the syntax is modelled. -/
theorem exact_iff_no_special (cf : CaseFolding) (engine : Engine cf.fold) (s : Path) :
    ((∀ c ∈ s.1, c ∉ Parser.special) → Exact engine s) ∧
      (Covered s → Exact engine s → ∀ c ∈ s.1, c ∉ Parser.special) := by
  refine ⟨exact_of_not_mem engine, fun h hexact => ?_⟩
  rw [covered_iff] at h
  have hmeta : ∀ c ∈ s.1, c ∉ Parser.metacharacters := fun c hc hmeta =>
    not_exact_of_mem engine hc hmeta h hexact
  intro c hc hspecial
  rcases List.mem_append.mp hspecial with hm | hu
  · exact hmeta c hc hm
  · exact h (parse_uncovered hmeta hc hu)

/-- The path `C:\a.b` -/
def pathWithDot : Path := ⟨[0x43, 0x3A, 0x5C, 0x61, 0x2E, 0x62], by decide⟩

/-- The path `C:\(x86)` -/
def pathWithGroup : Path := ⟨[0x43, 0x3A, 0x5C, 0x28, 0x78, 0x38, 0x36, 0x29], by decide⟩

theorem covered_pathWithGroup : Covered pathWithGroup := by
  rw [covered_iff]
  intro h
  cases h

theorem exact_pathWithDot :
    (∀ c ∈ pathWithDot.1, c ∉ Parser.special) ∧
      Exact (Engine.reference CaseFolding.ascii.fold) pathWithDot :=
  have hplain : ∀ c ∈ pathWithDot.1, c ∉ Parser.special := by
    simp [pathWithDot, Parser.special, Parser.metacharacters, Parser.uncovered]
  ⟨hplain, (exact_iff_no_special CaseFolding.ascii (Engine.reference _) pathWithDot).1 hplain⟩

theorem not_exact_pathWithGroup :
    ¬ Exact (Engine.reference CaseFolding.ascii.fold) pathWithGroup :=
  not_exact_of_mem (c := 0x28) (Engine.reference CaseFolding.ascii.fold) (by decide) (by decide)
    ((covered_iff pathWithGroup).mp covered_pathWithGroup)

end Monitor

end CaptureHpc
