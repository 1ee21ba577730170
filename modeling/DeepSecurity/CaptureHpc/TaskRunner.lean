import Mathlib.Data.List.Basic
import Mathlib.Data.Int.Notation
import Mathlib.Logic.Function.Basic

/-!
# The processes of the tasks

The loop of `TaskManager::run`: at the beginning of each round the processes that have been running for
too long are terminated, and then a process is started for the task that `Pop` returns. The handle of a
process is closed as soon as the process has been started, and kept in the deque all the same.
-/

namespace CaptureHpc

/-- An item of `m_runnings`, and the process that it stands for, which the program does not know. -/
structure RunItem where
  /-- The handle, which is closed. -/
  hProc : ℕ
  /-- When the process was started. -/
  starttime : ℤ
  /-- The process. -/
  process : ℕ

namespace TaskRunner

/-- The processes that the open handles refer to. -/
abbrev Handles := ℕ → Option ℕ

/-- The deque, and the processes that have been terminated by the sweep. -/
structure Swept where
  /-- The items that are left. -/
  runnings : List RunItem
  /-- The processes that have been terminated. -/
  terminated : List ℕ

section Sweep

variable (procruninterval : ℕ)

/-- The process has been running for longer than it may. -/
def Overdue (now : ℤ) (item : RunItem) : Prop := now - item.starttime > procruninterval

instance (now : ℤ) (item : RunItem) : Decidable (Overdue procruninterval now item) :=
  inferInstanceAs (Decidable (_ > _))

variable (handles : Handles)

/-- The `for` loop from the index `i` on. `TerminateProcess` has an effect if the handle is open, and
`time(NULL)` returns `clock i` in this round. -/
def sweepFrom (clock : ℕ → ℤ) (i : ℕ) (s : Swept) : Swept :=
  if h : i < s.runnings.length then
    if Overdue procruninterval (clock i) s.runnings[i] then
      sweepFrom clock (i + 1)
        ⟨s.runnings.tail, s.terminated ++ (handles s.runnings[i].hProc).toList⟩
    else s
  else s
termination_by s.runnings.length - i
decreasing_by
  simp only [List.length_tail]
  omega

/-- The sweep of the whole deque. -/
def sweep (clock : ℕ → ℤ) (runnings : List RunItem) : Swept :=
  sweepFrom procruninterval handles clock 0 ⟨runnings, []⟩

/-- The overdue processes are terminated, and no other ones; their items are removed, and no other
ones. -/
structure Exact (now : ℤ) (runnings : List RunItem) : Prop where
  /-- The overdue processes are terminated, and no other ones. -/
  terminates : ∀ p, p ∈ (sweep procruninterval handles (fun _ => now) runnings).terminated ↔
    ∃ item ∈ runnings, Overdue procruninterval now item ∧ item.process = p
  /-- Their items are removed, and no other ones. -/
  removes : (sweep procruninterval handles (fun _ => now) runnings).runnings =
    runnings.filter (¬ Overdue procruninterval now ·)

end Sweep

/-! ## The loop -/

/-- A process that `CreateProcess` starts, with its handle and the time after it. -/
structure Spawned where
  /-- The process. -/
  process : ℕ
  /-- Its handle, which may have been used before. -/
  handle : ℕ
  /-- The time after it was started. -/
  time : ℤ

/-- The times of the sweep, and the process if there was a task and it could be started. -/
structure Round where
  /-- The times that are read during the sweep. -/
  clock : ℕ → ℤ
  /-- The process that is started. -/
  spawned : Option Spawned

/-- The loop between two rounds. -/
structure State where
  /-- The deque. -/
  runnings : List RunItem
  /-- The open handles of the program. -/
  handles : Handles
  /-- All processes that have been terminated. -/
  terminated : List ℕ

/-- No process has been started. -/
def State.start : State := ⟨[], fun _ => none, []⟩

/-- `CreateProcess`, `CloseHandle` and the new item. -/
def State.spawn (s : State) (p : Spawned) : State :=
  let opened := Function.update s.handles p.handle (some p.process)
  let closed := Function.update opened p.handle none
  { s with handles := closed, runnings := s.runnings ++ [⟨p.handle, p.time, p.process⟩] }

/-- The sweep, and then the process that is started. -/
def State.round (procruninterval : ℕ) (s : State) (r : Round) : State :=
  let swept := sweep procruninterval s.handles r.clock s.runnings
  let s := { s with runnings := swept.runnings, terminated := s.terminated ++ swept.terminated }
  match r.spawned with
  | some p => s.spawn p
  | none => s

/-- The state after the given rounds. -/
def run (procruninterval : ℕ) (rounds : List Round) : State :=
  rounds.foldl (State.round procruninterval) .start

end TaskRunner

end CaptureHpc
