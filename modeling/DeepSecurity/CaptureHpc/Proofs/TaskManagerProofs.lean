import DeepSecurity.CaptureHpc.TaskManager

/-!
# Proofs: the discipline of the task queue

A `Pop` that finds no task returns without leaving the section, and one that finds several takes the
last of them. As long as every `Pop` finds one task, the section is left as often as it is entered, and
the numbers of the tasks in the deque go on where those of the popped tasks end.
-/

namespace CaptureHpc.TaskManager

open Trace

variable {s : TaskManager} {thread : ℕ}

structure Inv (s : TaskManager) : Prop where
  released : ∀ x, s.taskQueueCS.entries x = if (s.pc x).busy then 1 else 0
  pushed : s.pushed = s.popped.length + s.deque.length
  waiting_tasks : s.deque.map Prod.fst = List.range' s.popped.length s.deque.length
  oldest : s.popped.map Prod.fst = List.range s.popped.length

theorem inv_loadTasks (tasks : List Task) : Inv (loadTasks tasks) where
  released x := rfl
  pushed := by simp [loadTasks]
  waiting_tasks := by
    have hnumbers : (tasks.zipIdx.map Prod.swap).map Prod.fst = tasks.zipIdx.map Prod.snd := by
      rw [List.map_map]
      rfl
    simp [loadTasks, hnumbers, List.zipIdx_map_snd]
  oldest := rfl

theorem Inv.disciplined (hinv : Inv s) : Disciplined s where
  released := hinv.released
  waiting x c _ := by
    rcases henter : s.taskQueueCS.enter x with _ | cs
    · right
      obtain ⟨owner, hne, hpos⟩ := CriticalSection.exists_of_enter_eq_none henter
      rw [hinv.released] at hpos
      refine ⟨owner, hne, ?_⟩
      by_contra hidle
      simp [hidle] at hpos
    · exact Or.inl rfl
  oldest := hinv.oldest

/-- A thread goes on to another place, and the section and the tasks are as they are there. -/
theorem Inv.goto {pc : TaskPc} (hentries : ∀ x, s.taskQueueCS.entries x =
      if x = thread then (if pc.busy then 1 else 0) else if (s.pc x).busy then 1 else 0)
    (hpushed : s.pushed = s.popped.length + s.deque.length)
    (hwaiting : s.deque.map Prod.fst = List.range' s.popped.length s.deque.length)
    (holdest : s.popped.map Prod.fst = List.range s.popped.length) :
    Inv (s.goto thread pc) where
  released x := by
    refine (hentries x).trans ?_
    by_cases hx : x = thread
    · subst hx
      simp [TaskManager.goto]
    · simp [TaskManager.goto, hx]
  pushed := hpushed
  waiting_tasks := hwaiting
  oldest := holdest

/-- The entries if the place that a thread goes to is in the section as the one where it is. -/
theorem Inv.entries_same (hinv : Inv s) {pc : TaskPc} (hbusy : (s.pc thread).busy = pc.busy) (x : ℕ) :
    s.taskQueueCS.entries x =
      if x = thread then (if pc.busy then 1 else 0) else if (s.pc x).busy then 1 else 0 := by
  rw [hinv.released x]
  by_cases hx : x = thread
  · rw [if_pos hx, hx, hbusy]
  · rw [if_neg hx]

theorem Inv.call (hinv : Inv s) (c : TaskCall) : Inv (s.call thread c) := by
  unfold TaskManager.call
  split_ifs with hidle
  · exact Inv.goto (hinv.entries_same (by rw [hidle.1]; rfl)) hinv.pushed hinv.waiting_tasks hinv.oldest
  · exact hinv

theorem Inv.enter (hinv : Inv s) : Inv (s.enter thread) := by
  unfold TaskManager.enter
  split
  · rename_i c hpc
    split
    · rename_i cs hcs
      refine Inv.goto (fun x => ?_) hinv.pushed hinv.waiting_tasks hinv.oldest
      show cs.entries x = _
      rw [CriticalSection.entries_enter hcs, hinv.released]
      by_cases hx : x = thread
      · subst hx
        simp [hpc, TaskPc.busy]
      · simp [hx, Ne.symm hx]
    · exact hinv
  · exact hinv

theorem Inv.push (hinv : Inv s) {t : Task} (hpc : s.pc thread = .inside (.push t)) :
    Inv (s.push thread t) := by
  refine Inv.goto ?_ ?_ ?_ hinv.oldest
  · exact hinv.entries_same (by rw [hpc]; rfl)
  · have := hinv.pushed
    simp
    omega
  · show (s.deque ++ [(s.pushed, t)]).map Prod.fst = List.range' s.popped.length (s.deque ++ _).length
    rw [List.map_append, hinv.waiting_tasks, List.length_append, List.length_singleton,
      List.range'_1_concat, hinv.pushed]
    rfl

theorem Inv.leave (hinv : Inv s) : Inv (s.leave thread) := by
  unfold TaskManager.leave
  split
  · rename_i hpc
    have hone : s.taskQueueCS.entries thread = 1 := by
      rw [hinv.released, hpc]
      rfl
    refine Inv.goto (fun x => ?_) hinv.pushed hinv.waiting_tasks hinv.oldest
    show (s.taskQueueCS.leave thread).entries x = _
    rw [CriticalSection.entries_leave (by omega), hinv.released]
    by_cases hx : x = thread
    · subst hx
      simp [hpc, TaskPc.busy]
    · simp [hx, Ne.symm hx]
  · exact hinv

/-- The number of the last task of the deque. -/
theorem Inv.getLast_number (hinv : Inv s) {t : ℕ × Task} (ht : s.deque.getLast? = some t) :
    t.1 = s.popped.length + (s.deque.length - 1) := by
  have hlast : (s.deque.map Prod.fst).getLast? = some t.1 := by
    rw [List.getLast?_map, ht]
    rfl
  have hne : s.deque ≠ [] := by
    rintro hnil
    rw [hnil] at ht
    cases ht
  obtain ⟨n, hn⟩ : ∃ n, s.deque.length = n + 1 :=
    Nat.exists_eq_succ_of_ne_zero fun hzero => hne (List.length_eq_zero_iff.mp hzero)
  rw [hinv.waiting_tasks, hn, List.range'_1_concat, List.getLast?_concat] at hlast
  rw [hn, ← Option.some.inj hlast, Nat.add_sub_cancel]

theorem Inv.pop (hinv : Inv s) (hpc : s.pc thread = .inside .pop) (hone : s.deque.length = 1) :
    Inv (s.pop thread) := by
  obtain ⟨t, ht⟩ := List.length_eq_one_iff.mp hone
  have hlast : s.deque.getLast? = some t := by rw [ht]; rfl
  have hnumber := hinv.getLast_number hlast
  have hpushed := hinv.pushed
  unfold TaskManager.pop
  rw [hlast]
  refine Inv.goto ?_ ?_ ?_ ?_
  · exact hinv.entries_same (by rw [hpc]; rfl)
  · simp [ht] at hpushed ⊢
    exact hpushed
  · simp [ht]
  · simp only [List.map_append, List.map_singleton, List.length_append, List.length_singleton,
      List.range_succ, hinv.oldest, hnumber, hone, Nat.sub_self, Nat.add_zero]

theorem Inv.step (hinv : Inv s) {a : Action} (hfinds : s.FindsOne a) : Inv (s.step a) := by
  cases a with
  | call thread c => exact hinv.call c
  | enter thread => exact hinv.enter
  | work thread =>
    show Inv (s.work thread)
    unfold TaskManager.work
    split
    · exact hinv.push ‹_›
    · exact hinv.pop ‹_› (hfinds ‹_›)
    · exact hinv
  | leave thread => exact hinv.leave

/-- A `Pop` that finds no task keeps the section, one that finds several takes a later task. -/
theorem Inv.not_disciplined (hinv : Inv s) (hpc : s.pc thread = .inside .pop)
    (hmany : s.deque.length ≠ 1) : ¬ Disciplined (s.pop thread) := by
  intro hdisciplined
  unfold TaskManager.pop at hdisciplined
  rcases hlast : s.deque.getLast? with _ | t
  · rw [hlast] at hdisciplined
    have hreleased := hdisciplined.released thread
    have hone : s.taskQueueCS.entries thread = 1 := by
      rw [hinv.released, hpc]
      rfl
    simp [TaskManager.goto, hone, TaskPc.busy] at hreleased
  · rw [hlast] at hdisciplined
    have hnumber := hinv.getLast_number hlast
    have hpos : s.deque.length ≠ 0 := by
      intro hzero
      rw [List.length_eq_zero_iff.mp hzero] at hlast
      cases hlast
    have hold : (s.popped ++ [t]).map Prod.fst = List.range (s.popped ++ [t]).length :=
      hdisciplined.oldest
    rw [List.map_append, hinv.oldest, List.length_append, List.length_singleton, List.range_succ,
      List.append_cancel_left_eq] at hold
    have hfirst : t.1 = s.popped.length := by simpa using hold
    omega

theorem run_snoc {tasks : List Task} {actions : List Action} {a : Action} :
    run tasks (actions ++ [a]) = (run tasks actions).step a := by
  rw [run, List.foldl_append]
  rfl

/-- The discipline is kept along a run if and only if every `Pop` finds exactly one task. -/
theorem disciplined_iff_findsOne (tasks : List Task) (actions : List Action) :
    Always (fun pre => Disciplined (run tasks pre)) actions ↔
      EachStep (fun pre a => (run tasks pre).FindsOne a) actions := by
  refine always_iff_eachStep (I := fun pre => Inv (run tasks pre)) (inv_loadTasks tasks) ?_
    (fun pre hinv => hinv.disciplined) ?_ actions
  · intro pre a hinv hfinds
    rw [run_snoc]
    exact hinv.step hfinds
  · intro pre a hinv hfinds
    rw [run_snoc]
    cases a with
    | work thread =>
      obtain ⟨hpc, hmany⟩ : (run tasks pre).pc thread = .inside .pop ∧
          (run tasks pre).deque.length ≠ 1 := by
        simpa [FindsOne] using hfinds
      have hwork : (run tasks pre).step (.work thread) = (run tasks pre).pop thread := by
        show (run tasks pre).work thread = _
        unfold TaskManager.work
        rw [hpc]
      rw [hwork]
      exact hinv.not_disciplined hpc hmany
    | call thread c => exact absurd trivial hfinds
    | enter thread => exact absurd trivial hfinds
    | leave thread => exact absurd trivial hfinds

/-- The manager finds no task and keeps the section, so that the first push of another thread has to wait
while no call is there. -/
theorem not_disciplined_empty :
    ¬ Disciplined (run [] [.call 0 .pop, .enter 0, .work 0, .call 1 (.push ⟨[], []⟩), .enter 1]) := by
  intro h
  exact absurd (h.released 0) (by decide)

end CaptureHpc.TaskManager
