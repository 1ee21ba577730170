import DeepSecurity.Cloudserver.Jobs

/-!
# The order of the jobs

Runs of `add_job_queue` and `remove_job_queue` in any interleaving of the processes, and what a queue
that is first-in first-out does along a run.
-/

namespace Cloudserver

open Trace

/-- A call of one of the two functions. -/
inductive QueueOp where
  | add (jobname : ℕ)
  | remove
deriving DecidableEq, Repr

/-- The database, and the jobs that have been removed, oldest removal first. -/
structure QueueState where
  /-- The state of the database. -/
  redis : Redis
  /-- The jobs that have been removed, in their order. -/
  removed : List ℕ

/-- What a call does. -/
def QueueState.step (s : QueueState) : QueueOp → QueueState
  | .add jobname => { s with redis := s.redis.addJobQueue jobname }
  | .remove =>
    let (jobid, redis) := s.redis.removeJobQueue
    ⟨redis, s.removed ++ jobid.toList⟩

/-- The state after the calls. -/
def QueueState.run (ops : List QueueOp) : QueueState := ops.foldl QueueState.step ⟨.empty, []⟩

/-- The jobs that a run has added, in order. -/
def added (ops : List QueueOp) : List ℕ :=
  ops.filterMap fun
    | .add jobname => some jobname
    | .remove => none

/-- The oldest job that has been added and not yet removed. -/
def oldest (ops : List QueueOp) : Option ℕ :=
  ((added ops).diff (QueueState.run ops).removed).head?

/-- First in, first out. -/
structure Fifo (ops : List QueueOp) : Prop where
  /-- Every call of `remove_job_queue` returns the oldest job. -/
  removes_oldest : EachStep (fun pre op =>
    op = .remove → (QueueState.run pre).redis.removeJobQueue.1 = oldest pre) ops
  /-- At any time, no job has been overtaken by a later one. -/
  in_order : Always (fun pre => (QueueState.run pre).removed <+: added pre) ops

/-- Whenever a job is removed, at most one is waiting. -/
def OneWaiting (ops : List QueueOp) : Prop :=
  EachStep (fun pre op => op = .remove → (QueueState.run pre).redis.job.length ≤ 1) ops

end Cloudserver
