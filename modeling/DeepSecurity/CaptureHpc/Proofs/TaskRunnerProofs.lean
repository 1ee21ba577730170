import DeepSecurity.CaptureHpc.TaskRunner
import Mathlib.Data.List.Induction

/-!
# Proofs: the sweep over the running processes

The index goes up while items are taken from the front, so that in round `i` the item with the original
number `2 * i` is looked at and the one with the number `i` is removed. Of `n` overdue items only the
first half is removed.
-/

namespace CaptureHpc

namespace TaskRunner

variable {procruninterval : ℕ} {now : ℤ} {runnings : List RunItem}

/-! ## The sweep -/

section Sweep

variable {late rest : List RunItem} {i : ℕ} (handles : Handles) (terminated : List ℕ)

/-- One round while there are overdue items. -/
theorem sweepFrom_late (hlate : ∀ item ∈ late, Overdue procruninterval now item)
    (hi : 2 * i < late.length) :
    sweepFrom procruninterval handles (fun _ => now) i ⟨late.drop i ++ rest, terminated⟩ =
      sweepFrom procruninterval handles (fun _ => now) (i + 1)
        ⟨late.drop (i + 1) ++ rest, terminated ++ (handles late[2 * i].hProc).toList⟩ := by
  have hlength : i < (late.drop i ++ rest).length := by
    rw [List.length_append, List.length_drop]
    omega
  have hitem : (late.drop i ++ rest)[i] = late[2 * i] := by
    rw [List.getElem_append_left (by rw [List.length_drop]; omega), List.getElem_drop]
    congr 1
    omega
  have htail : (late.drop i ++ rest).tail = late.drop (i + 1) ++ rest := by
    rw [List.drop_eq_getElem_cons (by omega)]
    rfl
  rw [sweepFrom, dif_pos hlength]
  simp only [hitem, htail]
  rw [if_pos (hlate _ (List.getElem_mem _))]

/-- The loop ends behind the overdue items. -/
theorem sweepFrom_rest (hrest : ∀ item ∈ rest, ¬ Overdue procruninterval now item)
    (hi : late.length ≤ 2 * i) :
    sweepFrom procruninterval handles (fun _ => now) i ⟨late.drop i ++ rest, terminated⟩ =
      ⟨late.drop i ++ rest, terminated⟩ := by
  rw [sweepFrom]
  split_ifs with hlength hover
  · have hmem : (late.drop i ++ rest)[i] ∈ rest := by
      rw [List.getElem_append_right (by rw [List.length_drop]; omega)]
      exact List.getElem_mem _
    exact absurd hover (hrest _ hmem)
  · rfl
  · rfl

/-- What the whole loop leaves in the deque. -/
theorem runnings_sweepFrom (hlate : ∀ item ∈ late, Overdue procruninterval now item)
    (hrest : ∀ item ∈ rest, ¬ Overdue procruninterval now item) :
    (sweepFrom procruninterval handles (fun _ => now) i
      ⟨late.drop i ++ rest, terminated⟩).runnings =
      late.drop (max i ((late.length + 1) / 2)) ++ rest := by
  induction hn : late.length - 2 * i using Nat.strongRecOn generalizing i terminated with
  | ind n ih =>
    by_cases hi : 2 * i < late.length
    · rw [sweepFrom_late handles terminated hlate hi, ih _ (by omega) _ rfl]
      congr 2
      omega
    · have hmax : max i ((late.length + 1) / 2) = i := by omega
      rw [sweepFrom_rest handles terminated hrest (by omega), hmax]

/-- The deque is the overdue items and the others, in this order. -/
theorem split_of_sorted (hsorted : runnings.Pairwise (·.starttime ≤ ·.starttime)) :
    runnings.filter (Overdue procruninterval now ·) ++
      runnings.filter (¬ Overdue procruninterval now ·) = runnings := by
  induction runnings with
  | nil => rfl
  | cons item runnings ih =>
    obtain ⟨hitem, hsorted⟩ := List.pairwise_cons.mp hsorted
    have ih := ih hsorted
    by_cases hover : Overdue procruninterval now item
    · rw [List.filter_cons_of_pos (by simpa using hover),
        List.filter_cons_of_neg (by simpa using hover),
        List.cons_append, ih]
    · -- an item that is not older is not overdue either
      have hlate : runnings.filter (Overdue procruninterval now ·) = [] := by
        rw [List.filter_eq_nil_iff]
        intro other hother
        have hle := hitem other hother
        rw [decide_eq_true_eq]
        simp only [Overdue] at hover ⊢
        omega
      rw [hlate, List.nil_append] at ih
      rw [List.filter_cons_of_neg (by simpa using hover),
        List.filter_cons_of_pos (by simpa using hover),
        hlate, ih, List.nil_append]

/-- With at most one overdue item the loop does what it should, if the handle is open. -/
theorem sweep_of_le_one (hlate : ∀ item ∈ late, Overdue procruninterval now item)
    (hrest : ∀ item ∈ rest, ¬ Overdue procruninterval now item) (hone : late.length ≤ 1) :
    sweep procruninterval handles (fun _ => now) (late ++ rest) =
      ⟨rest, late.flatMap fun item => (handles item.hProc).toList⟩ := by
  rcases late with _ | ⟨item, _ | ⟨item', late⟩⟩
  · exact sweepFrom_rest handles [] hrest (Nat.zero_le 0)
  · have hround : sweep procruninterval handles (fun _ => now) ([item] ++ rest) =
        sweepFrom procruninterval handles (fun _ => now) 1
          ⟨[item].drop 1 ++ rest, [] ++ (handles item.hProc).toList⟩ :=
      sweepFrom_late handles [] hlate Nat.zero_lt_one
    rw [hround, sweepFrom_rest handles _ hrest (by simp)]
    simp
  · simp at hone

/-- Of two or more overdue items one stays. -/
theorem le_one_of_removes (hlate : ∀ item ∈ late, Overdue procruninterval now item)
    (hrest : ∀ item ∈ rest, ¬ Overdue procruninterval now item)
    (h : (sweep procruninterval handles (fun _ => now) (late ++ rest)).runnings = rest) :
    late.length ≤ 1 := by
  have hleft := runnings_sweepFrom (i := 0) handles [] hlate hrest
  rw [List.drop_zero, ← sweep, h, List.self_eq_append_left, List.drop_eq_nil_iff] at hleft
  omega

theorem exact_append_iff (hlate : ∀ item ∈ late, Overdue procruninterval now item)
    (hrest : ∀ item ∈ rest, ¬ Overdue procruninterval now item) :
    Exact procruninterval handles now (late ++ rest) ↔
      late.length ≤ 1 ∧ ∀ item ∈ late, handles item.hProc = some item.process := by
  have hfilter : (late ++ rest).filter (¬ Overdue procruninterval now ·) = rest := by
    rw [List.filter_append, List.filter_eq_nil_iff.mpr (by simpa using hlate), List.nil_append,
      List.filter_eq_self.mpr (by simpa using hrest)]
  constructor
  · intro h
    have hone := le_one_of_removes handles hlate hrest (h.removes.trans hfilter)
    refine ⟨hone, fun item hitem => ?_⟩
    have hterminated := (h.terminates item.process).mpr
      ⟨item, List.mem_append_left _ hitem, hlate item hitem, rfl⟩
    rw [sweep_of_le_one handles hlate hrest hone, List.mem_flatMap] at hterminated
    obtain ⟨other, hother, hhandle⟩ := hterminated
    -- there is only one overdue item
    obtain ⟨single, rfl⟩ :=
      List.length_eq_one_iff.mp (Nat.le_antisymm hone (List.length_pos_of_mem hitem))
    obtain rfl := List.mem_singleton.mp hitem
    obtain rfl := List.mem_singleton.mp hother
    exact Option.mem_toList.mp hhandle
  · rintro ⟨hone, hhandles⟩
    have hsweep := sweep_of_le_one handles hlate hrest hone
    refine ⟨fun p => ?_, by rw [hsweep, hfilter]⟩
    rw [hsweep, List.mem_flatMap]
    constructor
    · rintro ⟨item, hitem, hp⟩
      rw [hhandles item hitem, Option.toList_some, List.mem_singleton] at hp
      exact ⟨item, List.mem_append_left _ hitem, hlate item hitem, hp.symm⟩
    · rintro ⟨item, hitem, hover, rfl⟩
      rcases List.mem_append.mp hitem with hitem | hitem
      · exact ⟨item, hitem, by simp [hhandles item hitem]⟩
      · exact absurd hover (hrest item hitem)

/-- The sweep is exact if at most one item is overdue and its handle is open, and not otherwise. -/
theorem exact_sweep_iff (hsorted : runnings.Pairwise (·.starttime ≤ ·.starttime)) :
    Exact procruninterval handles now runnings ↔
      (runnings.filter (Overdue procruninterval now ·)).length ≤ 1 ∧
        ∀ item ∈ runnings, Overdue procruninterval now item →
          handles item.hProc = some item.process := by
  have hlate : ∀ item ∈ runnings.filter (Overdue procruninterval now ·),
      Overdue procruninterval now item := by simp
  have hrest : ∀ item ∈ runnings.filter (¬ Overdue procruninterval now ·),
      ¬ Overdue procruninterval now item := by simp
  have hiff := exact_append_iff handles hlate hrest
  rw [split_of_sorted hsorted] at hiff
  rw [hiff]
  simp only [List.mem_filter, decide_eq_true_eq, and_imp]

/-- One of two processes has been running for 11 seconds, and its handle is open. -/
theorem exact_sweep_one :
    Exact 10 (fun h => if h = 4 then some 7 else none) 11 [⟨4, 0, 7⟩, ⟨8, 5, 9⟩] :=
  (exact_sweep_iff _ (by decide)).mpr (by decide)

/-- Two processes have been running for more than ten seconds: the second one stays. -/
theorem not_exact_sweep_two :
    ¬ Exact 10 (fun h => if h = 4 then some 7 else some 9) 20 [⟨4, 0, 7⟩, ⟨8, 5, 9⟩] := by
  have hlate : ∀ item ∈ ([⟨4, 0, 7⟩, ⟨8, 5, 9⟩] : List RunItem), Overdue 10 20 item := by decide
  have hrest : ∀ item ∈ ([] : List RunItem), ¬ Overdue 10 20 item := by simp
  intro h
  exact absurd ((exact_append_iff _ hlate hrest).mp h).1 (by decide)

end Sweep

/-! ## The loop -/

/-- A sweep without open handles terminates nothing. -/
theorem terminated_sweepFrom {handles : Handles} (hclosed : ∀ h, handles h = none) (clock : ℕ → ℤ)
    (i : ℕ) (s : Swept) :
    (sweepFrom procruninterval handles clock i s).terminated = s.terminated := by
  fun_induction sweepFrom procruninterval handles clock i s with
  | case1 i s hi hover ih => rw [ih, hclosed, Option.toList_none, List.append_nil]
  | case2 => rfl
  | case3 => rfl

theorem terminated_sweep {handles : Handles} (hclosed : ∀ h, handles h = none) (clock : ℕ → ℤ)
    (runnings : List RunItem) : (sweep procruninterval handles clock runnings).terminated = [] :=
  terminated_sweepFrom hclosed clock 0 ⟨runnings, []⟩

/-- Between two rounds no handle of a process is open, and none has been terminated. -/
structure State.Untouched (s : State) : Prop where
  closed : ∀ h, s.handles h = none
  terminated : s.terminated = []

theorem State.Untouched.spawn {s : State} (hs : s.Untouched) (p : Spawned) : (s.spawn p).Untouched where
  closed h := by
    by_cases hp : h = p.handle
    · simp [State.spawn, hp]
    · simpa [State.spawn, Function.update_of_ne hp] using hs.closed h
  terminated := hs.terminated

theorem State.Untouched.round {s : State} (hs : s.Untouched) (r : Round) :
    (s.round procruninterval r).Untouched := by
  have hswept : State.Untouched
      ⟨(sweep procruninterval s.handles r.clock s.runnings).runnings, s.handles,
        s.terminated ++ (sweep procruninterval s.handles r.clock s.runnings).terminated⟩ :=
    ⟨hs.closed, by rw [hs.terminated, terminated_sweep hs.closed, List.append_nil]⟩
  unfold State.round
  split
  · exact hswept.spawn _
  · exact hswept

theorem untouched_run (procruninterval : ℕ) (rounds : List Round) :
    (run procruninterval rounds).Untouched := by
  induction rounds using List.reverseRecOn with
  | nil => exact ⟨fun _ => rfl, rfl⟩
  | append_singleton rounds r ih =>
    rw [run, List.foldl_append]
    exact ih.round r

/-- In the program the sweep is exact only when nothing is overdue. -/
theorem exact_run_iff (rounds : List Round) (now : ℤ) :
    Exact procruninterval (run procruninterval rounds).handles now
        (run procruninterval rounds).runnings ↔
      ∀ item ∈ (run procruninterval rounds).runnings, ¬ Overdue procruninterval now item := by
  constructor
  · intro h item hitem hover
    have hterminated := (h.terminates item.process).mpr ⟨item, hitem, hover, rfl⟩
    rw [terminated_sweep (untouched_run procruninterval rounds).closed] at hterminated
    cases hterminated
  · intro hnone
    have hlate : ∀ item ∈ ([] : List RunItem), Overdue procruninterval now item := by simp
    exact (exact_append_iff _ hlate hnone).mpr ⟨Nat.zero_le 1, by simp⟩

end TaskRunner

end CaptureHpc
