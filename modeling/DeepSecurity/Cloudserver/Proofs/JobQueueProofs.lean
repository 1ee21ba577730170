import DeepSecurity.Cloudserver.JobQueue
import Mathlib.Data.List.Nodup

/-!
# Proofs: the order of the jobs

Both commands work on the front of the list, so the list is a stack. As long as at most one job is
waiting when a job is removed, the waiting jobs are those that have been added last, in order.
-/

namespace Cloudserver

open Trace

namespace QueueState

variable {pre ops : List QueueOp} {op : QueueOp}

theorem run_snoc (pre : List QueueOp) (op : QueueOp) : run (pre ++ [op]) = (run pre).step op := by
  rw [run, List.foldl_append, ← run]
  rfl

theorem added_append (pre post : List QueueOp) : added (pre ++ post) = added pre ++ added post :=
  List.filterMap_append

/-- The jobs that have been added are those that have been removed, and then those that wait. -/
def InOrder (ops : List QueueOp) : Prop :=
  added ops = (run ops).removed ++ (run ops).redis.job.reverse

theorem inOrder_snoc (h : InOrder pre) (hop : op = .remove → (run pre).redis.job.length ≤ 1) :
    InOrder (pre ++ [op]) := by
  unfold InOrder at h ⊢
  rw [run_snoc, added_append, h]
  cases op with
  | add jobname => simp [step, added, Redis.addJobQueue]
  | remove =>
    have hone := hop rfl
    match hjob : (run pre).redis.job with
    | [] => simp [step, added, Redis.removeJobQueue, hjob]
    | [x] => simp [step, added, Redis.removeJobQueue, hjob]
    | x :: y :: rest =>
      rw [hjob] at hone
      simp at hone

theorem append_diff_self (l rest : List ℕ) : (l ++ rest).diff l = rest := by
  induction l with
  | nil => rfl
  | cons a l ih => rw [List.diff_cons, List.cons_append, List.erase_cons_head, ih]

theorem oldest_of_inOrder (h : InOrder pre) : oldest pre = (run pre).redis.job.getLast? := by
  rw [oldest, h, append_diff_self, List.head?_reverse]

/-- A single waiting job is the oldest one and the one at the front. -/
theorem removes_oldest_of_one (h : InOrder pre) (hone : (run pre).redis.job.length ≤ 1) :
    (run pre).redis.removeJobQueue.1 = oldest pre := by
  rw [oldest_of_inOrder h, Redis.removeJobQueue]
  match hjob : (run pre).redis.job with
  | [] => rfl
  | [x] => rfl
  | x :: y :: rest =>
    rw [hjob] at hone
    simp at hone

/-- Of two or more waiting jobs, the one at the front is not the oldest one. -/
theorem one_of_removes_oldest (h : InOrder pre) (hnodup : (added pre).Nodup)
    (holdest : (run pre).redis.removeJobQueue.1 = oldest pre) :
    (run pre).redis.job.length ≤ 1 := by
  rw [oldest_of_inOrder h, Redis.removeJobQueue] at holdest
  rw [h] at hnodup
  have hjobs : (run pre).redis.job.Nodup := List.nodup_reverse.mp hnodup.of_append_right
  match hjob : (run pre).redis.job with
  | [] => simp
  | [x] => simp
  | x :: y :: rest =>
    rw [hjob] at holdest hjobs
    have hlast : x ∈ y :: rest := by
      apply List.mem_of_getLast?
      rw [← List.getLast?_cons_cons, ← holdest]
      rfl
    exact absurd hlast (List.nodup_cons.mp hjobs).1

end QueueState

open QueueState

theorem inOrder_of_oneWaiting {ops : List QueueOp} (h : OneWaiting ops) : Always InOrder ops := by
  have h0 : InOrder [] := rfl
  refine always_of_eachStep h0 ?_ h
  intro pre op hpre hop
  exact inOrder_snoc hpre hop

theorem fifo_of_oneWaiting {ops : List QueueOp} (h : OneWaiting ops) : Fifo ops := by
  have hinOrder := inOrder_of_oneWaiting h
  constructor
  · intro pre op post hops hop
    have hpre : pre <+: ops := ⟨op :: post, hops.symm⟩
    exact removes_oldest_of_one (hinOrder pre hpre) (h pre op post hops hop)
  · intro pre hpre
    exact ⟨_, (hinOrder pre hpre).symm⟩

/-- The first call that finds two or more jobs does not return the oldest one. -/
theorem oneWaiting_of_fifo {ops : List QueueOp} (hnodup : (added ops).Nodup) (h : Fifo ops) :
    OneWaiting ops := by
  have holdest := h.removes_oldest
  clear h
  suffices OneWaiting ops ∧ InOrder ops from this.1
  induction ops using List.reverseRecOn with
  | nil => exact ⟨eachStep_nil, rfl⟩
  | append_singleton pre op ih =>
    rw [added_append] at hnodup
    obtain ⟨hpre, hop⟩ := eachStep_snoc.mp holdest
    obtain ⟨hwaiting, hinOrder⟩ := ih hnodup.of_append_left hpre
    have hone : op = .remove → (run pre).redis.job.length ≤ 1 := by
      intro hremove
      exact one_of_removes_oldest hinOrder hnodup.of_append_left (hop hremove)
    exact ⟨eachStep_snoc.mpr ⟨hwaiting, hone⟩, inOrder_snoc hinOrder hone⟩

/-- The queue is first-in first-out along a run if at most one job is waiting whenever one is removed.
If no two jobs have the same id, which `get_uuid` ensures, it is so along no other run. -/
theorem fifo_iff (ops : List QueueOp) :
    (OneWaiting ops → Fifo ops) ∧ ((added ops).Nodup → (Fifo ops ↔ OneWaiting ops)) := by
  constructor
  · exact fifo_of_oneWaiting
  · intro hnodup
    exact ⟨oneWaiting_of_fifo hnodup, fifo_of_oneWaiting⟩

/-- The second of two jobs is sent before the first one. -/
theorem not_fifo_two_jobs : ¬ Fifo [.add 0, .add 1, .remove] := by
  intro h
  have hremove := h.removes_oldest [.add 0, .add 1] .remove [] rfl rfl
  exact absurd hremove (by decide)

end Cloudserver
