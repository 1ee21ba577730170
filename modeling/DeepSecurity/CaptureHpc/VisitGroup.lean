import Mathlib.Data.Fin.Basic
import Mathlib.Data.List.FinRange
import Mathlib.Logic.Function.Basic

/-!
# Groups of URLs and the threads that visit them

`visitGroup` of `Application_InternetExplorer.cpp` and `Application_InternetExplorerBulk.cpp`, with the
threads that run `InternetExplorerWorker`. The threads are there as long as the plugin is, and so are the
events and the arrays that they share with `visitGroup`. A step is one access to what is shared, or one
call that waits.
-/

namespace CaptureHpc

namespace VisitGroup

/-- `MAX_WORKER_THREADS` -/
def maxWorkerThreads : ℕ := 60

/-- The number of a thread. -/
abbrev WorkerId := Fin maxWorkerThreads

/-! ## Visit events -/

/-- The codes of `ErrorCodes.h` that a visit can leave. -/
inductive ErrorCode where
  | ok | networkError | processError | timeoutError | multipleErrors | attachProcessError | warning
deriving DecidableEq, Repr

/-- `VisitEvent::setErrorCode`. -/
def setErrorCode (errorCode error : ErrorCode) : ErrorCode :=
  if errorCode ≠ .ok then .multipleErrors else error

/-- An element of `visit_information`, by the number of the call that has allocated it. -/
structure VisitInfo where
  /-- The number of the call. -/
  call : ℕ
  /-- The position of the URL in the group. -/
  index : ℕ
deriving DecidableEq, Repr

/-- A URL that has been visited, with its major error code. -/
structure Visit where
  /-- The URL. -/
  info : VisitInfo
  /-- How its visit has ended. -/
  code : ErrorCode
deriving DecidableEq, Repr

/-! ## The parties -/

/-- What `InternetExplorerWorker` does next: it waits for data, reads its entry of `worker_thread_data`,
visits the URL, clears its entry of `worker_thread_busy`, and sets `worker_finished`. -/
inductive Worker where
  | waiting
  | awake
  | visiting (info : VisitInfo)
  | visited
  | finishing
deriving DecidableEq, Repr

/-- What `visitGroup` does next. -/
inductive Place where
  | loop
  | give (i : ℕ)
  | setBusy (i : WorkerId)
  | setHasData (i : WorkerId)
  | wait
  | count (i : WorkerId)
deriving DecidableEq, Repr

/-- The local variables of `visitGroup`, and the major error codes of the URLs. -/
structure Call where
  /-- The size of the group. -/
  nUrls : ℕ
  /-- How many visits have been counted. -/
  nVisitedUrls : ℕ := 0
  /-- The next URL. -/
  toVisit : ℕ := 0
  /-- How many URLs have been given to a thread. -/
  nVisiting : ℕ := 0
  /-- What comes next. -/
  place : Place := .loop
  /-- How the visits of the URLs have ended. -/
  codes : ℕ → ErrorCode := fun _ => .ok

/-- A call that has returned: the number of URLs, whether the browsers could be closed, and the error code
of the visit event. -/
structure Returned where
  /-- The size of the group. -/
  nUrls : ℕ
  /-- The browsers could be closed. -/
  closed : Bool
  /-- The error code of the event. -/
  errorCode : ErrorCode
deriving DecidableEq, Repr

/-- The shared arrays, the threads, and what has happened so far. -/
structure Pool where
  /-- Where each thread is. -/
  worker : WorkerId → Worker
  /-- The entries of `worker_thread_busy`. -/
  busy : WorkerId → Bool
  /-- The entries of `worker_thread_data`. -/
  data : WorkerId → Option VisitInfo
  /-- The events `worker_has_data`. -/
  hasData : WorkerId → Bool
  /-- The events `worker_finished`. -/
  finished : WorkerId → Bool
  /-- The call that is going on. -/
  call : Option Call
  /-- The calls that have returned, in their order. -/
  returned : List Returned
  /-- The visits that have ended, in their order. -/
  visits : List Visit

/-- The constructor of the plugin. -/
def init : Pool where
  worker := fun _ => .waiting
  busy := fun _ => false
  data := fun _ => none
  hasData := fun _ => false
  finished := fun _ => false
  call := none
  returned := []
  visits := []

/-! ## Steps -/

namespace Pool

/-- A thread goes on. -/
@[simp]
def setWorker (p : Pool) (i : WorkerId) (w : Worker) : Pool :=
  { p with worker := Function.update p.worker i w }

/-- An entry of `worker_thread_busy` is set. -/
@[simp]
def setBusy (p : Pool) (i : WorkerId) (b : Bool) : Pool := { p with busy := Function.update p.busy i b }

/-- An entry of `worker_thread_data` is set. -/
@[simp]
def setData (p : Pool) (i : WorkerId) (info : VisitInfo) : Pool :=
  { p with data := Function.update p.data i (some info) }

/-- The event is set, or reset by the wait for it. -/
@[simp]
def setHasData (p : Pool) (i : WorkerId) (b : Bool) : Pool :=
  { p with hasData := Function.update p.hasData i b }

/-- The event is set, or reset by the wait for it. -/
@[simp]
def setFinished (p : Pool) (i : WorkerId) (b : Bool) : Pool :=
  { p with finished := Function.update p.finished i b }

/-- The call goes on. -/
@[simp]
def setCall (p : Pool) (c : Call) : Pool := { p with call := some c }

end Pool

/-- `WaitForMultipleObjects` returns the first of the events that are set. -/
def firstFinished (p : Pool) : Option WorkerId := (List.finRange maxWorkerThreads).find? p.finished

/-- A step of `visitGroup` within its loop; none if it waits. -/
def Call.step (c : Call) (p : Pool) : Option Pool :=
  match c.place with
  | .loop => if c.nVisitedUrls < c.nUrls then some (p.setCall { c with place := .give 0 }) else none
  | .give i =>
    if hi : i < maxWorkerThreads then
      -- only this thread sets an entry of `worker_thread_busy`, so it is still false at the next write
      if !p.busy ⟨i, hi⟩ ∧ c.nVisiting < c.nUrls then
        some ((p.setData ⟨i, hi⟩ ⟨p.returned.length, c.toVisit⟩).setCall
          { c with toVisit := c.toVisit + 1, place := .setBusy ⟨i, hi⟩ })
      else some (p.setCall { c with place := .give (i + 1) })
    else some (p.setCall { c with place := .wait })
  | .setBusy i =>
    some ((p.setBusy i true).setCall { c with nVisiting := c.nVisiting + 1, place := .setHasData i })
  | .setHasData i => some ((p.setHasData i true).setCall { c with place := .give (i + 1) })
  | .wait =>
    match firstFinished p with
    | some i => some ((p.setFinished i false).setCall { c with place := .count i })
    | none => none
  | .count i =>
    some (p.setCall
      { c with
        nVisitedUrls := if p.busy i then c.nVisitedUrls else c.nVisitedUrls + 1
        place := .loop })

/-- The wait of a minute is over, and no event is set. -/
def Call.timeout (c : Call) (p : Pool) : Option Pool :=
  if c.place = .wait ∧ firstFinished p = none then some (p.setCall { c with place := .loop }) else none

/-- The error code of the event after the codes of the URLs and the closing of the browsers. -/
def eventCode (codes : List ErrorCode) (closed : Bool) : ErrorCode :=
  let code := codes.foldl setErrorCode .ok
  if closed then code else setErrorCode code .warning

/-- The error code of the event when the call returns. -/
def Call.errorCode (c : Call) (closed : Bool) : ErrorCode :=
  eventCode ((List.range c.nUrls).map c.codes) closed

/-- The call returns; `visit_information` is deleted. -/
def Pool.leave (p : Pool) (c : Call) (closed : Bool) : Pool :=
  { p with call := none, returned := p.returned ++ [⟨c.nUrls, closed, c.errorCode closed⟩] }

/-- What comes after the loop. -/
def Call.finish (c : Call) (closed : Bool) (p : Pool) : Option Pool :=
  if c.place = .loop ∧ ¬ c.nVisitedUrls < c.nUrls then some (p.leave c closed) else none

/-- A visit has ended; its code is stored in the URL. -/
def Pool.visit (p : Pool) (info : VisitInfo) (code : ErrorCode) : Pool :=
  { p with
    visits := p.visits ++ [⟨info, code⟩]
    call := p.call.map fun c =>
      if info.call = p.returned.length then { c with codes := Function.update c.codes info.index code }
      else c }

/-- A step of `InternetExplorerWorker`, in which the visit of a URL may end with any code; none if it
waits. -/
def Pool.workerStep (p : Pool) (i : WorkerId) (code : ErrorCode) : Option Pool :=
  match p.worker i with
  | .waiting => if p.hasData i then some ((p.setHasData i false).setWorker i .awake) else none
  | .awake =>
    match p.data i with
    | some info => some (p.setWorker i (.visiting info))
    | none => some (p.setWorker i .waiting)
  | .visiting info => some ((p.visit info code).setWorker i .visited)
  | .visited => some ((p.setBusy i false).setWorker i .finishing)
  | .finishing => some ((p.setFinished i true).setWorker i .waiting)

/-- A step of the call, of a thread, or of the time. -/
inductive Action where
  | start (nUrls : ℕ)
  | main
  | timeout
  | finish (closed : Bool)
  | worker (i : WorkerId) (code : ErrorCode)

/-- What a step does, if it can be made. -/
def step (p : Pool) : Action → Option Pool
  | .start nUrls =>
    match p.call with
    | none => some (p.setCall { nUrls })
    | some _ => none
  | .main => p.call.bind fun c => c.step p
  | .timeout => p.call.bind fun c => c.timeout p
  | .finish closed => p.call.bind fun c => c.finish closed p
  | .worker i code => p.workerStep i code

end VisitGroup

end CaptureHpc
