import DeepSecurity.Lib.CriticalSection
import DeepSecurity.Lib.Trace
import Mathlib.Logic.Function.Basic

/-!
# The task queue

`TaskManager::Push` and `TaskManager::Pop`: tasks are put into a deque by any thread and taken by the
thread of the manager, under a critical section. Every call is made of the steps between which other
threads may run: it enters the section, does its work, and leaves the section. The tasks are numbered
in the order in which they came into the deque.
-/

namespace CaptureHpc

open Trace

/-- A task with its process and the arguments of this. -/
structure Task where
  /-- The name of the process. -/
  processImage : List UInt16
  /-- The arguments, in their order. -/
  arguments : List (List UInt16)
deriving DecidableEq, Repr

/-- A call of one of the two functions. -/
inductive TaskCall where
  | push (t : Task)
  | pop
deriving DecidableEq, Repr

/-- Where a thread is: outside, before the section, in it, or about to leave it. -/
inductive TaskPc where
  | idle
  | entering (c : TaskCall)
  | inside (c : TaskCall)
  | leaving
deriving DecidableEq, Repr

/-- The call has entered the section and not returned. -/
def TaskPc.busy : TaskPc → Bool
  | .inside _ => true
  | .leaving => true
  | _ => false

/-- The thread of the manager has the number 0. -/
structure TaskManager where
  /-- The critical section. -/
  taskQueueCS : CriticalSection ℕ
  /-- The tasks with their numbers, the oldest one first. -/
  deque : List (ℕ × Task)
  /-- Where each thread is. -/
  pc : ℕ → TaskPc
  /-- The number of tasks that have come into the deque. -/
  pushed : ℕ
  /-- The tasks that `Pop` has returned. -/
  popped : List (ℕ × Task)

namespace TaskManager

/-- After `LoadTasks` has found the given tasks. -/
def loadTasks (tasks : List Task) : TaskManager where
  taskQueueCS := .free
  deque := tasks.zipIdx.map Prod.swap
  pc := fun _ => .idle
  pushed := tasks.length
  popped := []

variable (s : TaskManager) (thread : ℕ)

/-- A thread goes on. -/
def goto (pc : TaskPc) : TaskManager := { s with pc := Function.update s.pc thread pc }

/-- Only the manager pops. -/
def call (c : TaskCall) : TaskManager :=
  if s.pc thread = .idle ∧ (c = .pop → thread = 0) then s.goto thread (.entering c) else s

/-- `EnterCriticalSection`; the thread stays where it is if it has to wait. -/
def enter : TaskManager :=
  match s.pc thread with
  | .entering c =>
    match s.taskQueueCS.enter thread with
    | some cs => { s with taskQueueCS := cs }.goto thread (.inside c)
    | none => s
  | _ => s

/-- The task is put behind the others. -/
def push (t : Task) : TaskManager :=
  { s with deque := s.deque ++ [(s.pushed, t)], pushed := s.pushed + 1 }.goto thread .leaving

/-- With an empty deque, the call returns at once. -/
def pop : TaskManager :=
  match s.deque.getLast? with
  | none => s.goto thread .idle
  | some t => { s with deque := s.deque.dropLast, popped := s.popped ++ [t] }.goto thread .leaving

/-- What the call of a thread does in the section. -/
def work : TaskManager :=
  match s.pc thread with
  | .inside (.push t) => s.push thread t
  | .inside .pop => s.pop thread
  | _ => s

/-- `LeaveCriticalSection`, and the call returns. -/
def leave : TaskManager :=
  match s.pc thread with
  | .leaving => { s with taskQueueCS := s.taskQueueCS.leave thread }.goto thread .idle
  | _ => s

/-- A step of a thread. -/
inductive Action where
  | call (thread : ℕ) (c : TaskCall)
  | enter (thread : ℕ)
  | work (thread : ℕ)
  | leave (thread : ℕ)

/-- What a step does. -/
def step (s : TaskManager) : Action → TaskManager
  | .call thread c => s.call thread c
  | .enter thread => s.enter thread
  | .work thread => s.work thread
  | .leave thread => s.leave thread

/-- The state after the given steps, of any of the threads. -/
def run (tasks : List Task) (actions : List Action) : TaskManager :=
  actions.foldl step (loadTasks tasks)

/-- A thread has entered the section without leaving it only while a call of it is there, so that a
thread that has to wait, waits for a call that goes on; and the tasks are popped in the order of their
numbers. -/
structure Disciplined : Prop where
  /-- A thread holds the section while it works in it, and not otherwise. -/
  released : ∀ x, s.taskQueueCS.entries x = if (s.pc x).busy then 1 else 0
  /-- A thread that waits can enter, or another one works in the section. -/
  waiting : ∀ x c, s.pc x = .entering c →
    (s.taskQueueCS.enter x).isSome ∨ ∃ owner, owner ≠ x ∧ (s.pc owner).busy
  /-- The tasks are popped in the order of their numbers. -/
  oldest : s.popped.map Prod.fst = List.range s.popped.length

/-- A call of `Pop` finds one task, neither none nor several. -/
def FindsOne (s : TaskManager) : Action → Prop
  | .work thread => s.pc thread = .inside .pop → s.deque.length = 1
  | _ => True

instance (s : TaskManager) : (a : Action) → Decidable (s.FindsOne a)
  | .call _ _ => inferInstanceAs (Decidable True)
  | .enter _ => inferInstanceAs (Decidable True)
  | .work _ => inferInstanceAs (Decidable (_ → _))
  | .leave _ => inferInstanceAs (Decidable True)

end TaskManager

end CaptureHpc
