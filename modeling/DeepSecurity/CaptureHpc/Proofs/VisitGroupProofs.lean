import DeepSecurity.CaptureHpc.VisitGroup
import DeepSecurity.Lib.Tally
import Mathlib.Logic.Relation

/-!
# Every URL of a group is visited once

What holds in every run of `visitGroup` and its threads, with any number of groups one after the other:
a call that returns leaves no thread at work, and every URL has been visited exactly once.
-/

namespace CaptureHpc

namespace VisitGroup

open Tally

variable {p p' : Pool} {c : Call} {i j : WorkerId}

/-! ## What a step can do -/

/-- The steps, with what is known when they are taken. -/
inductive Transition (p : Pool) : Pool → Prop where
  | start (n : ℕ) (hcall : p.call = none) : Transition p (p.setCall { nUrls := n })
  | again (c : Call) (hcall : p.call = some c) (hplace : c.place = .loop)
      (hlt : c.nVisitedUrls < c.nUrls) : Transition p (p.setCall { c with place := .give 0 })
  | give (c : Call) (i : WorkerId) (hcall : p.call = some c) (hplace : c.place = .give i)
      (hbusy : p.busy i = false) (hlt : c.nVisiting < c.nUrls) :
      Transition p ((p.setData i ⟨p.returned.length, c.toVisit⟩).setCall
        { c with toVisit := c.toVisit + 1, place := .setBusy i })
  | pass (c : Call) (i : WorkerId) (hcall : p.call = some c) (hplace : c.place = .give i)
      (hbusy : p.busy i = true ∨ c.nUrls ≤ c.nVisiting) :
      Transition p (p.setCall { c with place := .give (i + 1) })
  | given (c : Call) (i : ℕ) (hcall : p.call = some c) (hplace : c.place = .give i)
      (hi : maxWorkerThreads ≤ i) : Transition p (p.setCall { c with place := .wait })
  | setBusy (c : Call) (i : WorkerId) (hcall : p.call = some c) (hplace : c.place = .setBusy i) :
      Transition p ((p.setBusy i true).setCall
        { c with nVisiting := c.nVisiting + 1, place := .setHasData i })
  | setHasData (c : Call) (i : WorkerId) (hcall : p.call = some c) (hplace : c.place = .setHasData i) :
      Transition p ((p.setHasData i true).setCall { c with place := .give (i + 1) })
  | wait (c : Call) (i : WorkerId) (hcall : p.call = some c) (hplace : c.place = .wait)
      (hfirst : firstFinished p = some i) :
      Transition p ((p.setFinished i false).setCall { c with place := .count i })
  | timeout (c : Call) (hcall : p.call = some c) (hplace : c.place = .wait)
      (hfirst : firstFinished p = none) : Transition p (p.setCall { c with place := .loop })
  | count (c : Call) (i : WorkerId) (hcall : p.call = some c) (hplace : c.place = .count i) :
      Transition p (p.setCall
        { c with
          nVisitedUrls := if p.busy i then c.nVisitedUrls else c.nVisitedUrls + 1
          place := .loop })
  | finish (c : Call) (closed : Bool) (hcall : p.call = some c) (hplace : c.place = .loop)
      (hle : c.nUrls ≤ c.nVisitedUrls) : Transition p (p.leave c closed)
  | wake (i : WorkerId) (hworker : p.worker i = .waiting) (hdata : p.hasData i = true) :
      Transition p ((p.setHasData i false).setWorker i .awake)
  | read (i : WorkerId) (info : VisitInfo) (hworker : p.worker i = .awake) (hdata : p.data i = some info) :
      Transition p (p.setWorker i (.visiting info))
  | readNull (i : WorkerId) (hworker : p.worker i = .awake) (hdata : p.data i = none) :
      Transition p (p.setWorker i .waiting)
  | visit (i : WorkerId) (info : VisitInfo) (code : ErrorCode) (hworker : p.worker i = .visiting info) :
      Transition p ((p.visit info code).setWorker i .visited)
  | clearBusy (i : WorkerId) (hworker : p.worker i = .visited) :
      Transition p ((p.setBusy i false).setWorker i .finishing)
  | setFinished (i : WorkerId) (hworker : p.worker i = .finishing) :
      Transition p ((p.setFinished i true).setWorker i .waiting)

theorem transition_of_callStep (hcall : p.call = some c) (h : c.step p = some p') : Transition p p' := by
  unfold Call.step at h
  split at h
  · rename_i hplace
    split_ifs at h with hlt
    cases h
    exact .again c hcall hplace hlt
  · rename_i i hplace
    split_ifs at h with hi hgive
    · cases h
      exact .give c ⟨i, hi⟩ hcall hplace (by simpa using hgive.1) hgive.2
    · cases h
      refine .pass c ⟨i, hi⟩ hcall hplace ?_
      by_cases hb : p.busy ⟨i, hi⟩ = true
      · exact .inl hb
      · exact .inr (by simpa [hb] using hgive)
    · cases h
      exact .given c i hcall hplace (by omega)
  · rename_i i hplace
    cases h
    exact .setBusy c i hcall hplace
  · rename_i i hplace
    cases h
    exact .setHasData c i hcall hplace
  · rename_i hplace
    split at h
    · rename_i i hfirst
      cases h
      exact .wait c i hcall hplace hfirst
    · cases h
  · rename_i i hplace
    cases h
    exact .count c i hcall hplace

theorem transition_of_workerStep {code : ErrorCode} (h : p.workerStep i code = some p') :
    Transition p p' := by
  unfold Pool.workerStep at h
  split at h
  · rename_i hworker
    split_ifs at h with hdata
    cases h
    exact .wake i hworker hdata
  · rename_i hworker
    split at h
    · rename_i info hdata
      cases h
      exact .read i info hworker hdata
    · rename_i hdata
      cases h
      exact .readNull i hworker hdata
  · rename_i info hworker
    cases h
    exact .visit i info code hworker
  · rename_i hworker
    cases h
    exact .clearBusy i hworker
  · rename_i hworker
    cases h
    exact .setFinished i hworker

theorem transition_of_step {a : Action} (h : step p a = some p') : Transition p p' := by
  cases a with
  | start n =>
    simp only [step] at h
    split at h
    · rename_i hcall
      cases h
      exact .start n hcall
    · cases h
  | main =>
    obtain ⟨c, hcall, h⟩ := Option.bind_eq_some_iff.1 h
    exact transition_of_callStep hcall h
  | timeout =>
    obtain ⟨c, hcall, h⟩ := Option.bind_eq_some_iff.1 h
    unfold Call.timeout at h
    split_ifs at h with hwait
    cases h
    exact .timeout c hcall hwait.1 hwait.2
  | finish closed =>
    obtain ⟨c, hcall, h⟩ := Option.bind_eq_some_iff.1 h
    unfold Call.finish at h
    split_ifs at h with hdone
    cases h
    exact .finish c closed hcall hdone.1 (by omega)
  | worker i code => exact transition_of_workerStep h

/-! ## Runs -/

def Steps (p p' : Pool) : Prop := ∃ a, step p a = some p'

/-- What can happen from a pool on. -/
def Runs : Pool → Pool → Prop := Relation.ReflTransGen Steps

def Reachable (p : Pool) : Prop := Runs init p

/-! ## Threads at work -/

/-- The thread has a URL that it has not visited yet. -/
def Worker.holds : Worker → Bool
  | .awake | .visiting _ => true
  | _ => false

/-- The thread has visited a URL and not set its event yet. -/
def Worker.ends : Worker → Bool
  | .visited | .finishing => true
  | _ => false

/-- A URL has been given to the thread and not been visited yet. -/
def holding (p : Pool) (i : WorkerId) : Bool := p.hasData i || (p.worker i).holds

def ending (p : Pool) (i : WorkerId) : Bool := (p.worker i).ends

theorem not_holding (h : holding p i = false) (hv : p.worker i ≠ .visited) :
    p.worker i = .waiting ∨ p.worker i = .finishing := by
  cases hw : p.worker i <;> simp_all [holding, Worker.holds]

/-- What is known of a thread during a call. -/
structure WorkerOk (p : Pool) (c : Call) (i : WorkerId) : Prop where
  busy : p.busy i = true ↔ holding p i = true ∨ p.worker i = .visited ∨ c.place = .setHasData i
  idle : p.hasData i = true → p.worker i = .waiting ∨ p.worker i = .finishing
  room : c.place = .setBusy i ∨ c.place = .setHasData i →
    holding p i = false ∧ p.worker i ≠ .visited ∧ p.data i = some ⟨p.returned.length, c.toVisit - 1⟩
  data : p.hasData i = true ∨ p.worker i = .awake → ∃ k, p.data i = some ⟨p.returned.length, k⟩
  task : ∀ info, p.worker i = .visiting info → info.call = p.returned.length

/-- What is known of a thread between two calls. -/
structure Resting (p : Pool) (i : WorkerId) : Prop where
  worker : p.worker i = .waiting
  busy : p.busy i = false
  hasData : p.hasData i = false
  finished : p.finished i = false

theorem WorkerOk.of_resting (h : Resting p i) (hplace : c.place = .loop) : WorkerOk p c i := by
  constructor <;> simp [holding, Worker.holds, h.worker, h.busy, h.hasData, hplace]

/-- The same entries of the arrays. -/
structure Same (p p' : Pool) (i : WorkerId) : Prop where
  worker : p'.worker i = p.worker i
  busy : p'.busy i = p.busy i
  hasData : p'.hasData i = p.hasData i
  data : p'.data i = p.data i
  returned : p'.returned = p.returned

theorem Same.holding (h : Same p p' i) : holding p' i = holding p i := by
  rw [VisitGroup.holding, VisitGroup.holding, h.worker, h.hasData]

/-- A step that does not concern a thread. -/
theorem WorkerOk.of_same {c' : Call} (hok : WorkerOk p c i) (h : Same p p' i)
    (hplace : c'.place = c.place ∧ c'.toVisit = c.toVisit ∨
      c.place ≠ .setHasData i ∧ c'.place ≠ .setBusy i ∧ c'.place ≠ .setHasData i) :
    WorkerOk p' c' i := by
  obtain ⟨hbusy, hidle, hroom, hdata, htask⟩ := hok
  constructor
  · rw [h.busy, h.holding, h.worker, hbusy]
    obtain ⟨heq, -⟩ | ⟨h₁, h₂, h₃⟩ := hplace
    · rw [heq]
    · simp [h₁, h₃]
  · rw [h.hasData, h.worker]
    exact hidle
  · rw [h.holding, h.worker, h.data, h.returned]
    obtain ⟨heq, hto⟩ | ⟨h₁, h₂, h₃⟩ := hplace
    · rw [heq, hto]
      exact hroom
    · rintro (h | h)
      · exact absurd h h₂
      · exact absurd h h₃
  · rw [h.hasData, h.worker, h.data, h.returned]
    exact hdata
  · rw [h.worker, h.returned]
    exact htask

theorem call_visit {c' : Call} {info : VisitInfo} {code : ErrorCode} (hcall : p.call = some c)
    (hcall' : (p.visit info code).call = some c') :
    c' = { c with codes := c'.codes } := by
  simp only [Pool.visit, hcall, Option.map_some, Option.some.injEq] at hcall'
  split_ifs at hcall' <;> subst hcall' <;> rfl

theorem WorkerOk.step {c' : Call} (h : Transition p p') (hcall : p.call = some c) (hcall' : p'.call = some c')
    (hok : ∀ i, WorkerOk p c i) (j : WorkerId) : WorkerOk p' c' j := by
  have hj := hok j
  have hne : ∀ {α : Type} {f : WorkerId → α} {a : α} {i : WorkerId}, j ≠ i → Function.update f i a j = f j :=
    fun hij => Function.update_of_ne hij _ _
  cases h with
  | start n hnone => simp [hcall] at hnone
  | again c₁ hc hplace hlt =>
    cases hcall.symm.trans hc
    cases hcall'
    exact hj.of_same ⟨rfl, rfl, rfl, rfl, rfl⟩ (.inr (by simp [hplace]))
  | give c₁ i hc hplace hbusy hlt =>
    cases hcall.symm.trans hc
    cases hcall'
    by_cases hij : j = i
    · subst hij
      have hnot := hj.busy.not.1 (by simp [hbusy])
      simp only [not_or] at hnot
      obtain ⟨h1, h2, h3, h4, h5⟩ := hj
      constructor <;> simp_all [holding]
    · exact hj.of_same ⟨rfl, rfl, rfl, hne hij, rfl⟩ (.inr (by simp [hplace, Ne.symm hij]))
  | pass c₁ i hc hplace hbusy =>
    cases hcall.symm.trans hc
    cases hcall'
    exact hj.of_same ⟨rfl, rfl, rfl, rfl, rfl⟩ (.inr (by simp [hplace]))
  | given c₁ i hc hplace hi =>
    cases hcall.symm.trans hc
    cases hcall'
    exact hj.of_same ⟨rfl, rfl, rfl, rfl, rfl⟩ (.inr (by simp [hplace]))
  | setBusy c₁ i hc hplace =>
    cases hcall.symm.trans hc
    cases hcall'
    by_cases hij : j = i
    · subst hij
      obtain ⟨h1, h2, h3, h4, h5⟩ := hj
      constructor <;> simp_all [holding]
    · exact hj.of_same ⟨rfl, hne hij, rfl, rfl, rfl⟩ (.inr (by simp [hplace, Ne.symm hij]))
  | setHasData c₁ i hc hplace =>
    cases hcall.symm.trans hc
    cases hcall'
    by_cases hij : j = i
    · subst hij
      obtain ⟨hhold, hvisited, hdata⟩ := hj.room (.inr hplace)
      have hidle := not_holding hhold hvisited
      obtain ⟨h1, h2, h3, h4, h5⟩ := hj
      constructor <;> simp_all [holding]
    · exact hj.of_same ⟨rfl, rfl, hne hij, rfl, rfl⟩ (.inr (by simp [hplace, Ne.symm hij]))
  | wait c₁ i hc hplace hfirst =>
    cases hcall.symm.trans hc
    cases hcall'
    exact hj.of_same ⟨rfl, rfl, rfl, rfl, rfl⟩ (.inr (by simp [hplace]))
  | timeout c₁ hc hplace hfirst =>
    cases hcall.symm.trans hc
    cases hcall'
    exact hj.of_same ⟨rfl, rfl, rfl, rfl, rfl⟩ (.inr (by simp [hplace]))
  | count c₁ i hc hplace =>
    cases hcall.symm.trans hc
    cases hcall'
    exact hj.of_same ⟨rfl, rfl, rfl, rfl, rfl⟩ (.inr (by simp [hplace]))
  | finish c₁ closed hc hplace hle => cases hcall'
  | wake i hworker hdata =>
    cases hcall.symm.trans hcall'
    by_cases hij : j = i
    · subst hij
      obtain ⟨h1, h2, h3, h4, h5⟩ := hj
      constructor <;> simp_all [holding, Worker.holds]
    · exact hj.of_same ⟨hne hij, rfl, hne hij, rfl, rfl⟩ (.inl ⟨rfl, rfl⟩)
  | read i info hworker hdata =>
    cases hcall.symm.trans hcall'
    by_cases hij : j = i
    · subst hij
      obtain ⟨k, hk⟩ := hj.data (.inr hworker)
      cases hdata.symm.trans hk
      obtain ⟨h1, h2, h3, h4, h5⟩ := hj
      constructor <;> simp_all [holding, Worker.holds]
    · exact hj.of_same ⟨hne hij, rfl, rfl, rfl, rfl⟩ (.inl ⟨rfl, rfl⟩)
  | readNull i hworker hdata =>
    obtain ⟨k, hk⟩ := (hok i).data (.inr hworker)
    simp [hdata] at hk
  | visit i info code hworker =>
    rw [call_visit hcall hcall']
    by_cases hij : j = i
    · subst hij
      obtain ⟨h1, h2, h3, h4, h5⟩ := hj
      constructor <;> simp_all [holding, Worker.holds, Pool.visit]
    · exact hj.of_same ⟨hne hij, rfl, rfl, rfl, rfl⟩ (.inl ⟨rfl, rfl⟩)
  | clearBusy i hworker =>
    cases hcall.symm.trans hcall'
    by_cases hij : j = i
    · subst hij
      obtain ⟨h1, h2, h3, h4, h5⟩ := hj
      constructor <;> simp_all [holding, Worker.holds]
    · exact hj.of_same ⟨hne hij, hne hij, rfl, rfl, rfl⟩ (.inl ⟨rfl, rfl⟩)
  | setFinished i hworker =>
    cases hcall.symm.trans hcall'
    by_cases hij : j = i
    · subst hij
      obtain ⟨h1, h2, h3, h4, h5⟩ := hj
      constructor <;> simp_all [holding, Worker.holds]
    · exact hj.of_same ⟨hne hij, rfl, rfl, rfl, rfl⟩ (.inl ⟨rfl, rfl⟩)

/-! ## Numbers -/

/-- A URL has been taken from the list, and the thread that it is for does not know of it yet. -/
def Place.inHand : Place → Bool
  | .setBusy _ | .setHasData _ => true
  | _ => false

def Place.settingBusy : Place → Bool
  | .setBusy _ => true
  | _ => false

/-- An event has been taken and is about to be counted. -/
def Place.counting : Place → Bool
  | .count _ => true
  | _ => false

/-- The number of URLs of this call that have been visited. -/
def done (p : Pool) : ℕ := p.visits.countP fun v => v.info.call == p.returned.length

/-- A step that concerns one thread. -/
theorem tally_holding (p p' : Pool) (i : WorkerId) (h : ∀ j, j ≠ i → Same p p' j) :
    tally (holding p') + (holding p i).toNat = tally (holding p) + (holding p' i).toNat :=
  tally_add_toNat i fun j hj => (h j hj).holding

theorem tally_ending (p p' : Pool) (i : WorkerId) (h : ∀ j, j ≠ i → Same p p' j) :
    tally (ending p') + (ending p i).toNat = tally (ending p) + (ending p' i).toNat :=
  tally_add_toNat i fun j hj => by rw [ending, ending, (h j hj).worker]

theorem tally_setFinished (p : Pool) (i : WorkerId) (b : Bool) :
    tally (p.setFinished i b).finished + (p.finished i).toNat = tally p.finished + b.toNat := by
  have h := tally_add_toNat (p := (p.setFinished i b).finished) (q := p.finished) i
    fun j hj => by simp [Function.update_of_ne hj]
  simpa using h

/-- The visits that have been counted or can still be. -/
def countable (p : Pool) (c : Call) : ℕ :=
  c.nVisitedUrls + tally p.finished + tally (ending p) + c.place.counting.toNat

/-- What the local variables of a call say, with a bound on the number of visits that will never be
counted: an event that is already set is not set once more. -/
structure Counts (p : Pool) (c : Call) (lost : ℕ) : Prop where
  visiting : c.toVisit = c.nVisiting + c.place.settingBusy.toNat
  le : c.toVisit ≤ c.nUrls
  total : done p + tally (holding p) + c.place.inHand.toNat = c.toVisit
  counted : countable p c + lost ≤ done p

theorem firstFinished_eq (h : firstFinished p = some i) : p.finished i = true :=
  List.find?_some h

theorem done_visit {info : VisitInfo} {code : ErrorCode} (h : info.call = p.returned.length) :
    done (p.visit info code) = done p + 1 := by
  simp [done, Pool.visit, h]

/-- A step of the thread `i`. -/
theorem Counts.of_worker {codes : ℕ → ErrorCode} {lost : ℕ} (hc : Counts p c lost) (h : ∀ j, j ≠ i → Same p p' j)
    (hdone : done p' + (holding p' i).toNat = done p + (holding p i).toNat)
    (hfinished : tally p'.finished + (ending p' i).toNat + done p ≤
      tally p.finished + (ending p i).toNat + done p') :
    Counts p' { c with codes := codes } lost := by
  obtain ⟨hvis, hle, htotal, hcount⟩ := hc
  unfold countable at hcount
  have hholding := tally_holding p p' i h
  have hending := tally_ending p p' i h
  refine ⟨hvis, hle, ?_, ?_⟩
  · show done p' + tally (holding p') + c.place.inHand.toNat = c.toVisit
    omega
  · show c.nVisitedUrls + tally p'.finished + tally (ending p') + c.place.counting.toNat + lost ≤ done p'
    omega

theorem Counts.step {c' : Call} {lost : ℕ} (h : Transition p p') (hcall : p.call = some c)
    (hcall' : p'.call = some c') (hok : ∀ i, WorkerOk p c i) (hc : Counts p c lost) : Counts p' c' lost := by
  obtain ⟨hvis, hle, htotal, hcount⟩ := hc
  have hcounted : c.nVisitedUrls + tally p.finished + tally (ending p) + c.place.counting.toNat + lost ≤
    done p := hcount
  cases h with
  | start n hnone => simp [hcall] at hnone
  | again c₁ hc hplace hlt =>
    cases hcall.symm.trans hc
    cases hcall'
    rw [hplace] at hvis htotal hcounted
    exact ⟨hvis, hle, htotal, hcounted⟩
  | give c₁ i hc hplace hbusy hlt =>
    cases hcall.symm.trans hc
    cases hcall'
    rw [hplace] at hvis htotal hcounted
    have hvis : c.toVisit = c.nVisiting := hvis
    exact ⟨congrArg (· + 1) hvis, hvis ▸ hlt, congrArg (· + 1) htotal, hcounted⟩
  | pass c₁ i hc hplace hbusy =>
    cases hcall.symm.trans hc
    cases hcall'
    rw [hplace] at hvis htotal hcounted
    exact ⟨hvis, hle, htotal, hcounted⟩
  | given c₁ i hc hplace hi =>
    cases hcall.symm.trans hc
    cases hcall'
    rw [hplace] at hvis htotal hcounted
    exact ⟨hvis, hle, htotal, hcounted⟩
  | setBusy c₁ i hc hplace =>
    cases hcall.symm.trans hc
    cases hcall'
    rw [hplace] at hvis htotal hcounted
    exact ⟨hvis, hle, htotal, hcounted⟩
  | setHasData c₁ i hc hplace =>
    cases hcall.symm.trans hc
    cases hcall'
    have hroom := ((hok i).room (.inr hplace)).1
    have hmove := tally_holding p (p.setHasData i true) i
      fun j hj => ⟨rfl, rfl, Function.update_of_ne hj _ _, rfl, rfl⟩
    have hnew : holding (p.setHasData i true) i = true := by simp [holding]
    rw [hroom, hnew] at hmove
    rw [hplace] at hvis htotal hcounted
    have htotal : done p + tally (holding p) + 1 = c.toVisit := htotal
    refine ⟨hvis, hle, ?_, hcounted⟩
    show done p + tally (holding (p.setHasData i true)) + 0 = c.toVisit
    simp only [Bool.toNat_true, Bool.toNat_false] at hmove
    omega
  | wait c₁ i hc hplace hfirst =>
    cases hcall.symm.trans hc
    cases hcall'
    have hmove := tally_setFinished p i false
    rw [hplace] at hvis htotal hcounted
    rw [firstFinished_eq hfirst] at hmove
    refine ⟨hvis, hle, htotal, ?_⟩
    have hcounted : c.nVisitedUrls + tally p.finished + tally (ending p) + 0 + lost ≤ done p := hcounted
    show c.nVisitedUrls + tally (p.setFinished i false).finished + tally (ending p) + 1 + lost ≤ done p
    simp only [Bool.toNat_true, Bool.toNat_false] at hmove
    omega
  | timeout c₁ hc hplace hfirst =>
    cases hcall.symm.trans hc
    cases hcall'
    rw [hplace] at hvis htotal hcounted
    exact ⟨hvis, hle, htotal, hcounted⟩
  | count c₁ i hc hplace =>
    cases hcall.symm.trans hc
    cases hcall'
    rw [hplace] at hvis htotal hcounted
    refine ⟨hvis, hle, htotal, ?_⟩
    have hcounted : c.nVisitedUrls + tally p.finished + tally (ending p) + 1 + lost ≤ done p := hcounted
    show (if p.busy i then c.nVisitedUrls else c.nVisitedUrls + 1) + tally p.finished + tally (ending p) + 0 +
      lost ≤ done p
    split_ifs <;> omega
  | finish c₁ closed hc hplace hle => cases hcall'
  | wake i hworker hdata =>
    cases hcall.symm.trans hcall'
    refine Counts.of_worker (c := c) ⟨hvis, hle, htotal, hcount⟩
      (fun j hj => ⟨Function.update_of_ne hj _ _, rfl, Function.update_of_ne hj _ _, rfl, rfl⟩) ?_ ?_
    · simp [holding, Worker.holds, hworker, hdata, done]
    · simp [ending, Worker.ends, hworker, done]
  | read i info hworker hdata =>
    cases hcall.symm.trans hcall'
    refine Counts.of_worker (c := c) ⟨hvis, hle, htotal, hcount⟩
      (fun j hj => ⟨Function.update_of_ne hj _ _, rfl, rfl, rfl, rfl⟩) ?_ ?_
    · simp [holding, Worker.holds, hworker, done]
    · simp [ending, Worker.ends, hworker, done]
  | readNull i hworker hdata =>
    obtain ⟨k, hk⟩ := (hok i).data (.inr hworker)
    simp [hdata] at hk
  | visit i info code hworker =>
    rw [call_visit hcall hcall']
    have hdata : p.hasData i = false := by
      by_contra h
      simpa [hworker] using (hok i).idle (by simpa using h)
    have hdone : done ((p.visit info code).setWorker i .visited) = done p + 1 :=
      done_visit ((hok i).task info hworker)
    refine Counts.of_worker ⟨hvis, hle, htotal, hcount⟩
      (fun j hj => ⟨Function.update_of_ne hj _ _, rfl, rfl, rfl, rfl⟩) ?_ ?_
    · rw [hdone]
      simp [holding, Worker.holds, hworker, hdata, Pool.visit]
    · rw [hdone]
      simp [ending, Worker.ends, hworker, Pool.visit]
      omega
  | clearBusy i hworker =>
    cases hcall.symm.trans hcall'
    refine Counts.of_worker (c := c) ⟨hvis, hle, htotal, hcount⟩
      (fun j hj => ⟨Function.update_of_ne hj _ _, Function.update_of_ne hj _ _, rfl, rfl, rfl⟩) ?_ ?_
    · simp [holding, Worker.holds, hworker, done]
    · simp [ending, Worker.ends, hworker, done]
  | setFinished i hworker =>
    cases hcall.symm.trans hcall'
    have hmove := tally_setFinished p i true
    refine Counts.of_worker (c := c) ⟨hvis, hle, htotal, hcount⟩
      (fun j hj => ⟨Function.update_of_ne hj _ _, rfl, rfl, rfl, rfl⟩) ?_ ?_
    · simp [holding, Worker.holds, hworker, done]
    · have hends : ending p i = true := by rw [ending, hworker]; rfl
      have hends' : ending ((p.setFinished i true).setWorker i .waiting) i = false := by
        simp [ending, Worker.ends]
      rw [hends, hends']
      show tally (p.setFinished i true).finished + 0 + done p ≤ tally p.finished + 1 + done p
      simp only [Bool.toNat_true] at hmove
      omega

/-! ## Every URL once -/

/-- The URL that the thread has or will find. -/
def held (p : Pool) (i : WorkerId) : Option VisitInfo :=
  match p.worker i with
  | .visiting info => some info
  | .awake => p.data i
  | _ => if p.hasData i then p.data i else none

theorem Same.held (h : Same p p' i) : held p' i = held p i := by
  rw [VisitGroup.held, VisitGroup.held, h.worker, h.hasData, h.data]

theorem held_of_not_holds (h : (p.worker i).holds = false) :
    held p i = if p.hasData i then p.data i else none := by
  unfold held
  cases hw : p.worker i <;> simp_all [Worker.holds]

theorem held_of_not_holding (h : holding p i = false) : held p i = none := by
  obtain ⟨hdata, hholds⟩ := Bool.or_eq_false_iff.1 h
  rw [held_of_not_holds hholds, hdata]
  rfl

def holds (p : Pool) (info : VisitInfo) (i : WorkerId) : Bool := held p i == some info

theorem tally_holds (p p' : Pool) (info : VisitInfo) (i : WorkerId) (h : ∀ j, j ≠ i → Same p p' j) :
    tally (holds p' info) + (holds p info i).toNat = tally (holds p info) + (holds p' info i).toNat :=
  tally_add_toNat i fun j hj => by rw [holds, holds, (h j hj).held]

/-- The URL that is being given away. -/
def handed (p : Pool) : Option VisitInfo :=
  p.call.bind fun c => if c.place.inHand then some ⟨p.returned.length, c.toVisit - 1⟩ else none

/-- The URL has been taken from the list of its call. -/
def issued (p : Pool) (info : VisitInfo) : Bool :=
  p.returned[info.call]?.any (fun r => decide (info.index < r.nUrls)) ||
    p.call.any fun c => info.call == p.returned.length && decide (info.index < c.toVisit)

/-- A URL that has been taken from the list is in one place. -/
def Once (p : Pool) : Prop :=
  ∀ info, (p.visits.map Visit.info).count info + tally (holds p info) + (handed p == some info).toNat =
    (issued p info).toNat

/-- A step in which no URL changes its place. -/
theorem Once.of_held (h : Once p) (hheld : held p' = held p) (hvisits : p'.visits = p.visits)
    (hhand : handed p' = handed p) (hissued : issued p' = issued p) : Once p' := by
  intro info
  have hholds : holds p' info = holds p info := by
    funext i
    rw [holds, holds, hheld]
  rw [hvisits, hholds, hhand, hissued]
  exact h info

theorem held_eq (h : ∀ j, j ≠ i → Same p p' j) (hi : held p' i = held p i) : held p' = held p := by
  funext j
  by_cases hj : j = i
  · rw [hj, hi]
  · exact (h j hj).held

/-- What holds in every run. -/
structure Inv (p : Pool) : Prop where
  resting : p.call = none → ∀ i, Resting p i
  workers : ∀ c, p.call = some c → ∀ i, WorkerOk p c i
  counts : ∀ c, p.call = some c → Counts p c 0
  once : Once p

/-- When everything has been counted, nothing is left to do. -/
theorem Counts.finished {lost : ℕ} (h : Counts p c lost) (hplace : c.place = .loop) (hle : c.nUrls ≤ c.nVisitedUrls) :
    lost = 0 ∧ c.toVisit = c.nUrls ∧ (∀ i, p.finished i = false) ∧ (∀ i, holding p i = false) ∧
      ∀ i, ending p i = false := by
  obtain ⟨-, hto, htotal, hcount⟩ := h
  rw [hplace] at htotal
  rw [countable, hplace] at hcount
  have htotal : done p + tally (holding p) + 0 = c.toVisit := htotal
  have hcount : c.nVisitedUrls + tally p.finished + tally (ending p) + 0 + lost ≤ done p := hcount
  exact ⟨by omega, by omega, tally_eq_zero_iff.1 (by omega), tally_eq_zero_iff.1 (by omega),
    tally_eq_zero_iff.1 (by omega)⟩

theorem Inv.exists_call (hinv : Inv p) (h : p.worker i ≠ .waiting ∨ p.hasData i = true) :
    ∃ c, p.call = some c := by
  cases hc : p.call with
  | some c => exact ⟨c, rfl⟩
  | none =>
    have hrest := hinv.resting hc i
    simp [hrest.worker, hrest.hasData] at h

/-- One more URL has been taken from the list. -/
theorem issued_give (hcall : p.call = some c) (info : VisitInfo) :
    (issued (p.setCall { c with toVisit := c.toVisit + 1, place := .setBusy i }) info).toNat =
      (issued p info).toNat + (some ⟨p.returned.length, c.toVisit⟩ == some info).toNat := by
  obtain ⟨g, k⟩ := info
  by_cases hg : g = p.returned.length
  · subst hg
    by_cases hk : k = c.toVisit
    · simp [issued, hcall, hk]
    · have hlt : k < c.toVisit + 1 ↔ k < c.toVisit := by omega
      simp [issued, hcall, Ne.symm hk, hlt]
  · have hcur : (g == p.returned.length) = false := beq_eq_false_iff_ne.2 hg
    have hne : (some ⟨p.returned.length, c.toVisit⟩ == some (⟨g, k⟩ : VisitInfo)) = false := by
      rw [beq_eq_false_iff_ne]
      rintro ⟨⟩
      exact hg rfl
    simp [issued, hcall, hcur, hne]

theorem Once.give (hinv : Inv p) (hcall : p.call = some c) (hplace : c.place = .give i)
    (hbusy : p.busy i = false) :
    Once ((p.setData i ⟨p.returned.length, c.toVisit⟩).setCall
      { c with toVisit := c.toVisit + 1, place := .setBusy i }) := by
  intro info
  have hnot := (hinv.workers c hcall i).busy.not.1 (by simp [hbusy])
  simp only [not_or, Bool.not_eq_true] at hnot
  have hmove := tally_holds p ((p.setData i ⟨p.returned.length, c.toVisit⟩).setCall
    { c with toVisit := c.toVisit + 1, place := .setBusy i }) info i
    (fun j hj => ⟨rfl, rfl, rfl, Function.update_of_ne hj _ _, rfl⟩)
  rw [holds, holds, held_of_not_holding hnot.1, held_of_not_holding (by exact hnot.1)] at hmove
  have hissued := issued_give (i := i) hcall info
  have hhand : handed p = none := by simp [handed, hcall, hplace, Place.inHand]
  have hnone : ((none : Option VisitInfo) == some info).toNat = 0 := rfl
  have h := hinv.once info
  rw [hhand] at h
  show (p.visits.map Visit.info).count info + tally (holds _ info) +
    (some ⟨p.returned.length, c.toVisit⟩ == some info).toNat = (issued (p.setCall _) info).toNat
  omega

theorem Once.setHasData (hinv : Inv p) (hcall : p.call = some c) (hplace : c.place = .setHasData i) :
    Once ((p.setHasData i true).setCall { c with place := .give (i + 1) }) := by
  intro info
  obtain ⟨hhold, hvisited, hdata⟩ := (hinv.workers c hcall i).room (.inr hplace)
  have hmove := tally_holds p ((p.setHasData i true).setCall { c with place := .give (i + 1) }) info i
    (fun j hj => ⟨rfl, rfl, Function.update_of_ne hj _ _, rfl, rfl⟩)
  have hnew : held ((p.setHasData i true).setCall { c with place := .give (i + 1) }) i = handed p := by
    rw [held_of_not_holds (by exact (Bool.or_eq_false_iff.1 hhold).2)]
    simp [hdata, handed, hcall, hplace, Place.inHand]
  rw [holds, holds, held_of_not_holding hhold, hnew] at hmove
  have hissued : issued ((p.setHasData i true).setCall { c with place := .give (i + 1) }) info = issued p info := by
    simp [issued, hcall]
  have hnone : ((none : Option VisitInfo) == some info).toNat = 0 := rfl
  have h := hinv.once info
  rw [hissued]
  show (p.visits.map Visit.info).count info + tally (holds _ info) + 0 = _
  omega

theorem Once.visit {info : VisitInfo} {code : ErrorCode} (hinv : Inv p) (hcall : p.call = some c)
    (hworker : p.worker i = .visiting info) : Once ((p.visit info code).setWorker i .visited) := by
  intro info'
  have hdata : p.hasData i = false := by
    by_contra h
    simpa [hworker] using (hinv.workers c hcall i).idle (by simpa using h)
  have hmove := tally_holds p ((p.visit info code).setWorker i .visited) info' i
    (fun j hj => ⟨Function.update_of_ne hj _ _, rfl, rfl, rfl, rfl⟩)
  have hold : held p i = some info := by rw [held, hworker]
  have hnew : held ((p.visit info code).setWorker i .visited) i = none :=
    held_of_not_holding (by simp [holding, Worker.holds, Pool.visit, hdata])
  rw [holds, holds, hold, hnew] at hmove
  have hhand : handed ((p.visit info code).setWorker i .visited) = handed p := by
    simp only [handed, Pool.setWorker, Pool.visit, hcall, Option.map_some, Option.bind_some]
    split_ifs <;> rfl
  have hissued : issued ((p.visit info code).setWorker i .visited) info' = issued p info' := by
    simp only [issued, Pool.setWorker, Pool.visit, hcall, Option.map_some, Option.any_some]
    split_ifs <;> rfl
  have hcount : (((p.visit info code).setWorker i .visited).visits.map Visit.info).count info' =
      (p.visits.map Visit.info).count info' + (some info == some info').toNat := by
    simp only [Pool.setWorker, Pool.visit, List.map_append, List.count_append, List.map_cons, List.map_nil,
      List.count_singleton]
    cases h : info == info' <;> simp_all
  have hnone : ((none : Option VisitInfo) == some info').toNat = 0 := rfl
  have h := hinv.once info'
  rw [hhand, hissued, hcount]
  omega

theorem Once.step (hinv : Inv p) (h : Transition p p') : Once p' := by
  cases h with
  | start n hnone =>
    exact hinv.once.of_held rfl rfl (by simp [handed, hnone, Place.inHand])
      (by funext; simp [issued, hnone])
  | again c hc hplace hlt =>
    exact hinv.once.of_held rfl rfl (by simp [handed, hc, hplace, Place.inHand])
      (by funext; simp [issued, hc])
  | give c i hc hplace hbusy hlt => exact Once.give hinv hc hplace hbusy
  | pass c i hc hplace hbusy =>
    exact hinv.once.of_held rfl rfl (by simp [handed, hc, hplace, Place.inHand])
      (by funext; simp [issued, hc])
  | given c i hc hplace hi =>
    exact hinv.once.of_held rfl rfl (by simp [handed, hc, hplace, Place.inHand])
      (by funext; simp [issued, hc])
  | setBusy c i hc hplace =>
    exact hinv.once.of_held rfl rfl (by simp [handed, hc, hplace, Place.inHand])
      (by funext; simp [issued, hc])
  | setHasData c i hc hplace => exact Once.setHasData hinv hc hplace
  | wait c i hc hplace hfirst =>
    exact hinv.once.of_held rfl rfl (by simp [handed, hc, hplace, Place.inHand])
      (by funext; simp [issued, hc])
  | timeout c hc hplace hfirst =>
    exact hinv.once.of_held rfl rfl (by simp [handed, hc, hplace, Place.inHand])
      (by funext; simp [issued, hc])
  | count c i hc hplace =>
    exact hinv.once.of_held rfl rfl (by simp [handed, hc, hplace, Place.inHand])
      (by funext; simp [issued, hc])
  | finish c closed hc hplace hle =>
    have hto := ((hinv.counts c hc).finished hplace hle).2.1
    refine hinv.once.of_held rfl rfl (by simp [handed, Pool.leave, hc, hplace, Place.inHand]) ?_
    funext info
    simp only [issued, Pool.leave, hc, hto, Option.any_none, Option.any_some, Bool.or_false]
    obtain hg | hg | hg := Nat.lt_trichotomy info.call p.returned.length
    · have hne : (info.call == p.returned.length) = false := beq_eq_false_iff_ne.2 hg.ne
      simp [List.getElem?_append_left hg, hne]
    · simp [hg]
    · have hne : (info.call == p.returned.length) = false := beq_eq_false_iff_ne.2 hg.ne'
      have hlen : (p.returned ++ [⟨c.nUrls, closed, c.errorCode closed⟩])[info.call]? = none :=
        List.getElem?_eq_none (by simp; omega)
      simp [hlen, hne, List.getElem?_eq_none hg.le]
  | wake i hworker hdata =>
    refine hinv.once.of_held (held_eq (i := i) (fun j hj => ⟨Function.update_of_ne hj _ _, rfl,
      Function.update_of_ne hj _ _, rfl, rfl⟩) ?_) rfl rfl rfl
    simp [held, hworker, hdata]
  | read i info hworker hdata =>
    refine hinv.once.of_held (held_eq (i := i) (fun j hj => ⟨Function.update_of_ne hj _ _, rfl, rfl, rfl,
      rfl⟩) ?_) rfl rfl rfl
    simp [held, hworker, hdata]
  | readNull i hworker hdata =>
    obtain ⟨c, hc⟩ := hinv.exists_call (i := i) (.inl (by simp [hworker]))
    obtain ⟨k, hk⟩ := (hinv.workers c hc i).data (.inr hworker)
    simp [hdata] at hk
  | visit i info code hworker =>
    obtain ⟨c, hc⟩ := hinv.exists_call (i := i) (.inl (by simp [hworker]))
    exact Once.visit hinv hc hworker
  | clearBusy i hworker =>
    refine hinv.once.of_held (held_eq (i := i) (fun j hj => ⟨Function.update_of_ne hj _ _,
      Function.update_of_ne hj _ _, rfl, rfl, rfl⟩) ?_) rfl rfl rfl
    rw [held_of_not_holds (by simp [Worker.holds]), held_of_not_holds (by rw [hworker]; rfl)]
    rfl
  | setFinished i hworker =>
    refine hinv.once.of_held (held_eq (i := i) (fun j hj => ⟨Function.update_of_ne hj _ _, rfl, rfl, rfl,
      rfl⟩) ?_) rfl rfl rfl
    rw [held_of_not_holds (by simp [Worker.holds]), held_of_not_holds (by rw [hworker]; rfl)]
    rfl

/-! ## Every run -/

theorem Once.issued (h : Once p) {v : Visit} (hv : v ∈ p.visits) : issued p v.info = true := by
  have hpos : 0 < (p.visits.map Visit.info).count v.info :=
    List.count_pos_iff.2 (List.mem_map_of_mem hv)
  have := h v.info
  by_contra hf
  rw [Bool.not_eq_true] at hf
  rw [hf, Bool.toNat_false] at this
  omega

/-- Between two calls, everything that has been visited is of a call that has returned. -/
theorem Once.call_lt (h : Once p) (hnone : p.call = none) {v : Visit} (hv : v ∈ p.visits) :
    v.info.call < p.returned.length := by
  have hissued := h.issued hv
  simp only [VisitGroup.issued, hnone, Option.any_none, Bool.or_false, Option.any_eq_true_iff_get] at hissued
  obtain ⟨hsome, -⟩ := hissued
  simpa using hsome

theorem Transition.eq_of_resting (h : Transition p p') (hnone : p.call = none) (hrest : ∀ i, Resting p i) :
    ∃ n, p' = p.setCall { nUrls := n } := by
  cases h with
  | start n _ => exact ⟨n, rfl⟩
  | wake i _ hdata => simp [(hrest i).hasData] at hdata
  | read i _ hworker _ => simp [(hrest i).worker] at hworker
  | readNull i hworker _ => simp [(hrest i).worker] at hworker
  | visit i _ _ hworker => simp [(hrest i).worker] at hworker
  | clearBusy i hworker => simp [(hrest i).worker] at hworker
  | setFinished i hworker => simp [(hrest i).worker] at hworker
  | _ => simp_all

theorem counts_start (h : Once p) (hnone : p.call = none) (hrest : ∀ i, Resting p i) (n : ℕ) :
    Counts (p.setCall { nUrls := n }) { nUrls := n } 0 := by
  have hdone : done p = 0 := by
    rw [done, List.countP_eq_zero]
    intro v hv
    have := h.call_lt hnone hv
    simp
    omega
  have hholding : tally (holding p) = 0 :=
    tally_eq_zero_iff.2 fun i => by simp [holding, Worker.holds, (hrest i).worker, (hrest i).hasData]
  have hending : tally (ending p) = 0 :=
    tally_eq_zero_iff.2 fun i => by simp [ending, Worker.ends, (hrest i).worker]
  have hfinished : tally p.finished = 0 := tally_eq_zero_iff.2 fun i => (hrest i).finished
  refine ⟨rfl, Nat.zero_le n, ?_, ?_⟩
  · show done p + tally (holding p) + 0 = 0
    omega
  · show 0 + tally p.finished + tally (ending p) + 0 + 0 ≤ done p
    omega

theorem Transition.call (h : Transition p p') (hcall : p.call = some c) :
    (∃ c', p'.call = some c') ∨
      c.place = .loop ∧ c.nUrls ≤ c.nVisitedUrls ∧ ∃ closed, p' = p.leave c closed := by
  cases h with
  | finish c₁ closed hc hplace hle =>
    cases hcall.symm.trans hc
    exact .inr ⟨hplace, hle, closed, rfl⟩
  | visit i info code hworker => exact .inl ⟨_, by simp [Pool.visit, hcall]; rfl⟩
  | _ => exact .inl (by simp [hcall])

theorem Inv.step (hinv : Inv p) (h : Transition p p') : Inv p' := by
  have honce := Once.step hinv h
  cases hcall : p.call with
  | none =>
    have hrest := hinv.resting hcall
    obtain ⟨n, rfl⟩ := h.eq_of_resting hcall hrest
    refine ⟨by simp, ?_, ?_, honce⟩
    · rintro c ⟨⟩ i
      have hi := hrest i
      exact .of_resting ⟨hi.worker, hi.busy, hi.hasData, hi.finished⟩ rfl
    · rintro c ⟨⟩
      exact counts_start hinv.once hcall hrest n
  | some c =>
    have hok := hinv.workers c hcall
    have hcounts := hinv.counts c hcall
    obtain ⟨c', hcall'⟩ | ⟨hplace, hle, closed, rfl⟩ := h.call hcall
    · refine ⟨fun hnone => by simp [hcall'] at hnone, ?_, ?_, honce⟩
      · intro c₁ hc₁ i
        exact WorkerOk.step h hcall hc₁ hok i
      · intro c₁ hc₁
        exact Counts.step h hcall hc₁ hok hcounts
    · refine ⟨fun _ i => ?_, by simp [Pool.leave], by simp [Pool.leave], honce⟩
      obtain ⟨-, -, hfinished, hholding, hending⟩ := hcounts.finished hplace hle
      have hdata := (Bool.or_eq_false_iff.1 (hholding i)).1
      have hworker : p.worker i = .waiting := by
        have h1 := (Bool.or_eq_false_iff.1 (hholding i)).2
        have h2 := hending i
        unfold ending at h2
        cases hw : p.worker i <;> simp_all [Worker.holds, Worker.ends]
      refine ⟨hworker, ?_, hdata, hfinished i⟩
      have hbusy := (hok i).busy.not.2
      simp only [hholding i, hworker, hplace] at hbusy
      exact Bool.eq_false_iff.2 (hbusy (by simp))

theorem inv_init : Inv init := by
  refine ⟨fun _ i => ⟨rfl, rfl, rfl, rfl⟩, by simp [init], by simp [init], ?_⟩
  intro info
  have h : tally (holds init info) = 0 := tally_eq_zero_iff.2 fun i => rfl
  show 0 + tally (holds init info) + 0 = _
  rw [h]
  simp [issued, init]

theorem Inv.run (hinv : Inv p) (h : Runs p p') : Inv p' := by
  induction h with
  | refl => exact hinv
  | tail _ hstep ih =>
    obtain ⟨a, ha⟩ := hstep
    exact ih.step (transition_of_step ha)

/-! ## Error codes -/

/-- The codes of the URLs are those of their visits, and the codes of the events come from them. -/
structure Results (p : Pool) : Prop where
  codes : ∀ c, p.call = some c → ∀ v ∈ p.visits, v.info.call = p.returned.length →
    c.codes v.info.index = v.code
  results : ∀ g r, p.returned[g]? = some r → ∃ codes : ℕ → ErrorCode,
    r.errorCode = eventCode ((List.range r.nUrls).map codes) r.closed ∧
      ∀ v ∈ p.visits, v.info.call = g → codes v.info.index = v.code

/-- A step without a visit within a call. -/
theorem Results.of_codes {c' : Call} (h : Results p) (hcall : p.call = some c) (hcall' : p'.call = some c')
    (hcodes : c'.codes = c.codes) (hvisits : p'.visits = p.visits) (hreturned : p'.returned = p.returned) :
    Results p' := by
  obtain ⟨h₁, h₂⟩ := h
  refine ⟨?_, ?_⟩
  · intro c₁ hc₁
    cases hcall'.symm.trans hc₁
    rw [hcodes, hvisits, hreturned]
    exact h₁ c hcall
  · rw [hvisits, hreturned]
    exact h₂

theorem Results.visit {info : VisitInfo} {code : ErrorCode} (h : Results p) (hinv : Inv p)
    (hcall : p.call = some c) (hworker : p.worker i = .visiting info) :
    Results ((p.visit info code).setWorker i .visited) := by
  have htask := (hinv.workers c hcall i).task info hworker
  -- the URL has not been visited before, since the thread still has it
  have hnew : ∀ v ∈ p.visits, v.info ≠ info := by
    intro v hv heq
    have hpos : 0 < (p.visits.map Visit.info).count info :=
      List.count_pos_iff.2 (heq ▸ List.mem_map_of_mem hv)
    have hheld : holds p info i = true := by simp [holds, held, hworker]
    have htally : tally (holds p info) ≠ 0 := fun h0 => by simp [tally_eq_zero_iff.1 h0 i] at hheld
    have hone := hinv.once info
    have := Bool.toNat_le (issued p info)
    omega
  have hcall' : ((p.visit info code).setWorker i .visited).call =
      some { c with codes := Function.update c.codes info.index code } := by
    simp [Pool.visit, hcall, htask]
  refine ⟨?_, ?_⟩
  · intro c₁ hc₁ v hv hcur
    cases hcall'.symm.trans hc₁
    obtain hv | hv := List.mem_append.1 hv
    · have hne : v.info.index ≠ info.index := fun heq => hnew v hv (by
        obtain ⟨⟨g, k⟩, e⟩ := v
        obtain ⟨g', k'⟩ := info
        simp_all [Pool.visit])
      exact (Function.update_of_ne hne _ _).trans (h.codes c hcall v hv hcur)
    · obtain rfl := List.mem_singleton.1 hv
      exact Function.update_self _ _ _
  · intro g r hr
    obtain ⟨codes, hcode, hvisits⟩ := h.results g r hr
    refine ⟨codes, hcode, fun v hv hg => ?_⟩
    obtain hv | hv := List.mem_append.1 hv
    · exact hvisits v hv hg
    · obtain rfl := List.mem_singleton.1 hv
      obtain ⟨hlt, -⟩ := List.getElem?_eq_some_iff.1 hr
      have hlt : g < p.returned.length := hlt
      have hg : info.call = g := hg
      omega

theorem Results.step (h : Results p) (hinv : Inv p) (ht : Transition p p') : Results p' := by
  cases ht with
  | start n hnone =>
    refine ⟨?_, h.results⟩
    rintro c ⟨⟩ v hv hcur
    exact absurd hcur (hinv.once.call_lt hnone hv).ne
  | visit i info code hworker =>
    obtain ⟨c, hc⟩ := hinv.exists_call (i := i) (.inl (by simp [hworker]))
    exact h.visit hinv hc hworker
  | finish c closed hc hplace hle =>
    refine ⟨by simp [Pool.leave], ?_⟩
    intro g r hr
    have hr : (p.returned ++ [⟨c.nUrls, closed, c.errorCode closed⟩])[g]? = some r := hr
    by_cases hg : g < p.returned.length
    · rw [List.getElem?_append_left hg] at hr
      exact h.results g r hr
    · obtain ⟨hlt, -⟩ := List.getElem?_eq_some_iff.1 hr
      rw [List.length_append, List.length_singleton] at hlt
      obtain rfl : g = p.returned.length := by omega
      rw [List.getElem?_concat_length] at hr
      cases hr
      exact ⟨c.codes, rfl, h.codes c hc⟩
  | wake i hworker hdata =>
    obtain ⟨c, hc⟩ := hinv.exists_call (i := i) (.inr hdata)
    exact h.of_codes hc hc rfl rfl rfl
  | read i info hworker hdata =>
    obtain ⟨c, hc⟩ := hinv.exists_call (i := i) (.inl (by simp [hworker]))
    exact h.of_codes hc hc rfl rfl rfl
  | readNull i hworker hdata =>
    obtain ⟨c, hc⟩ := hinv.exists_call (i := i) (.inl (by simp [hworker]))
    exact h.of_codes hc hc rfl rfl rfl
  | clearBusy i hworker =>
    obtain ⟨c, hc⟩ := hinv.exists_call (i := i) (.inl (by simp [hworker]))
    exact h.of_codes hc hc rfl rfl rfl
  | setFinished i hworker =>
    obtain ⟨c, hc⟩ := hinv.exists_call (i := i) (.inl (by simp [hworker]))
    exact h.of_codes hc hc rfl rfl rfl
  | again c hc => exact h.of_codes hc rfl rfl rfl rfl
  | give c i hc => exact h.of_codes hc rfl rfl rfl rfl
  | pass c i hc => exact h.of_codes hc rfl rfl rfl rfl
  | given c i hc => exact h.of_codes hc rfl rfl rfl rfl
  | setBusy c i hc => exact h.of_codes hc rfl rfl rfl rfl
  | setHasData c i hc => exact h.of_codes hc rfl rfl rfl rfl
  | wait c i hc => exact h.of_codes hc rfl rfl rfl rfl
  | timeout c hc => exact h.of_codes hc rfl rfl rfl rfl
  | count c i hc => exact h.of_codes hc rfl rfl rfl rfl

theorem results_init : Results init := ⟨by simp [init], by simp [init]⟩

theorem Reachable.inv (h : Reachable p) : Inv p := inv_init.run h

theorem Reachable.results (h : Reachable p) : Results p := by
  induction h with
  | refl => exact results_init
  | tail hrun hstep ih =>
    obtain ⟨a, ha⟩ := hstep
    exact ih.step (Reachable.inv hrun) (transition_of_step ha)

/-- An error stays an error. -/
theorem foldl_setErrorCode_ne {codes : List ErrorCode} {e : ErrorCode} (he : e ≠ .ok) :
    codes.foldl setErrorCode e ≠ .ok := by
  induction codes generalizing e with
  | nil => exact he
  | cons a codes ih =>
    rw [List.foldl_cons]
    exact ih (by simp [setErrorCode, he])

theorem foldl_setErrorCode_eq_ok {codes : List ErrorCode} :
    codes.foldl setErrorCode .ok = .ok ↔ ∀ e ∈ codes, e = .ok := by
  induction codes with
  | nil => simp
  | cons a codes ih =>
    rw [List.foldl_cons, List.forall_mem_cons, ← ih]
    by_cases ha : a = .ok
    · simp [setErrorCode, ha]
    · simp [setErrorCode, ha, foldl_setErrorCode_ne ha]

theorem eventCode_eq_ok {codes : List ErrorCode} {closed : Bool} :
    eventCode codes closed = .ok ↔ closed = true ∧ ∀ e ∈ codes, e = .ok := by
  cases closed with
  | true => simp [eventCode, foldl_setErrorCode_eq_ok]
  | false =>
    simp only [eventCode, Bool.false_eq_true, if_false, false_and, iff_false]
    unfold setErrorCode
    split_ifs <;> simp

/-- A thread has a URL of the call that is going on. -/
theorem Inv.held_call {info : VisitInfo} (hinv : Inv p) (h : held p i = some info) :
    ∃ c, p.call = some c ∧ info.call = p.returned.length := by
  have hhold : holding p i = true := by
    by_contra hf
    rw [held_of_not_holding (Bool.eq_false_iff.2 hf)] at h
    cases h
  obtain ⟨c, hc⟩ := hinv.exists_call (i := i) (by
    rw [holding, Bool.or_eq_true] at hhold
    obtain hd | hw := hhold
    · exact .inr hd
    · refine .inl fun h => ?_
      rw [h] at hw
      cases hw)
  have hok := hinv.workers c hc i
  refine ⟨c, hc, ?_⟩
  unfold held at h
  split at h
  · rename_i info' hworker
    cases h
    exact hok.task _ hworker
  · rename_i hworker
    obtain ⟨k, hk⟩ := hok.data (.inr hworker)
    cases hk.symm.trans h
    rfl
  · split_ifs at h with hd
    obtain ⟨k, hk⟩ := hok.data (.inl hd)
    cases hk.symm.trans h
    rfl

/-- Of a call that has returned, every URL has been visited. -/
theorem Inv.visited {g k : ℕ} {r : Returned} (hinv : Inv p) (hr : p.returned[g]? = some r) :
    ⟨g, k⟩ ∈ p.visits.map Visit.info ↔ k < r.nUrls := by
  obtain ⟨hlt, -⟩ := List.getElem?_eq_some_iff.1 hr
  have htally : tally (holds p ⟨g, k⟩) = 0 := by
    refine tally_eq_zero_iff.2 fun i => ?_
    rw [holds, beq_eq_false_iff_ne]
    intro hheld
    obtain ⟨-, -, hcur⟩ := hinv.held_call hheld
    have hcur : g = p.returned.length := hcur
    omega
  have hhand : (handed p == some ⟨g, k⟩) = false := by
    rw [beq_eq_false_iff_ne]
    intro hhand
    obtain ⟨c, -, hc⟩ := Option.bind_eq_some_iff.1 hhand
    split_ifs at hc
    cases hc
    omega
  have hissued : issued p ⟨g, k⟩ = decide (k < r.nUrls) := by
    have hne : (g == p.returned.length) = false := beq_eq_false_iff_ne.2 hlt.ne
    simp [issued, hr, hne]
  have h := hinv.once ⟨g, k⟩
  rw [htally, hhand, hissued] at h
  rw [← List.count_pos_iff]
  by_cases hk : k < r.nUrls
  · rw [decide_eq_true hk, Bool.toNat_true, Bool.toNat_false] at h
    exact iff_of_true (by omega) hk
  · rw [decide_eq_false hk, Bool.toNat_false] at h
    exact iff_of_false (by omega) hk

theorem Inv.held_lt {info : VisitInfo} (hinv : Inv p) (h : held p i = some info) :
    ∃ c, p.call = some c ∧ info.call = p.returned.length ∧ info.index < c.nUrls := by
  obtain ⟨c, hc, hcur⟩ := hinv.held_call h
  have hholds : holds p info i = true := by simp [holds, h]
  have htally : tally (holds p info) ≠ 0 := fun h0 => by simp [tally_eq_zero_iff.1 h0 i] at hholds
  have hissued : issued p info = true := by
    have := hinv.once info
    by_contra hf
    rw [Bool.eq_false_iff.2 hf, Bool.toNat_false] at this
    omega
  have hnone : p.returned[info.call]? = none := List.getElem?_eq_none hcur.ge
  simp only [issued, hnone, Option.any_none, hc, Option.any_some, Bool.false_or, Bool.and_eq_true,
    decide_eq_true_eq] at hissued
  exact ⟨c, hc, hcur, hissued.2.trans_le (hinv.counts c hc).le⟩

/-- Whatever the order of the steps: no URL is visited twice; when a call returns, each of its URLs has
been visited, and the event is without error exactly if all visits were and the browsers could be closed;
and a thread only ever works on a URL of the call that is going on. -/
theorem visited_once (h : Reachable p) :
    (p.visits.map Visit.info).Nodup ∧
      (∀ g r, p.returned[g]? = some r →
        (∀ k, ⟨g, k⟩ ∈ p.visits.map Visit.info ↔ k < r.nUrls) ∧
          (r.errorCode = .ok ↔ r.closed = true ∧ ∀ v ∈ p.visits, v.info.call = g → v.code = .ok)) ∧
      ∀ i info, held p i = some info →
        ∃ c, p.call = some c ∧ info.call = p.returned.length ∧ info.index < c.nUrls := by
  have hinv := h.inv
  refine ⟨?_, ?_, fun i info hheld => hinv.held_lt hheld⟩
  · rw [List.nodup_iff_count_le_one]
    intro info
    have := hinv.once info
    have := Bool.toNat_le (issued p info)
    omega
  · intro g r hr
    refine ⟨fun k => hinv.visited hr, ?_⟩
    obtain ⟨codes, hcode, hvisits⟩ := h.results.results g r hr
    rw [hcode, eventCode_eq_ok]
    refine and_congr_right fun _ => ⟨fun hall v hv hg => ?_, fun hall e he => ?_⟩
    · have hk : v.info.index < r.nUrls := (hinv.visited hr).1 (by
        rw [← hg]
        exact List.mem_map_of_mem hv)
      rw [← hvisits v hv hg]
      exact hall _ (List.mem_map_of_mem (List.mem_range.2 hk))
    · obtain ⟨k, hk, rfl⟩ := List.mem_map.1 he
      obtain ⟨v, hv, hinfo⟩ := List.mem_map.1 ((hinv.visited hr).2 (List.mem_range.1 hk))
      have hg : v.info.call = g := by rw [hinfo]
      have hindex : v.info.index = k := by rw [hinfo]
      rw [← hindex, hvisits v hv hg]
      exact hall v hv hg

theorem runs_of_foldlM {as : List Action} (h : as.foldlM step p = some p') : Runs p p' := by
  induction as generalizing p with
  | nil =>
    cases h
    exact .refl
  | cons a as ih =>
    rw [List.foldlM_cons] at h
    obtain ⟨p₁, ha, h⟩ := Option.bind_eq_some_iff.1 h
    exact .head ⟨a, ha⟩ (ih h)

/-- A group of two URLs, which two threads visit at the same time, and then a group of one URL, which the
first thread visits. -/
def twoGroups : List Action :=
  .start 2 :: List.replicate 66 .main ++
    -- the second thread begins first and finishes last
    List.replicate 3 (.worker ⟨1, by decide⟩ .ok) ++ List.replicate 5 (.worker ⟨0, by decide⟩ .timeoutError) ++
    List.replicate 2 (.worker ⟨1, by decide⟩ .ok) ++ List.replicate 66 .main ++ .finish true ::
  .start 1 :: List.replicate 64 .main ++ List.replicate 5 (.worker ⟨0, by decide⟩ .ok) ++
    [.main, .main, .finish true]

theorem visited_once_twoGroups :
    ∃ p, Reachable p ∧ p.returned = [⟨2, true, .multipleErrors⟩, ⟨1, true, .ok⟩] ∧
      (p.visits.map Visit.info).Nodup ∧ (∀ k, ⟨0, k⟩ ∈ p.visits.map Visit.info ↔ k < 2) ∧
      ∀ k, ⟨1, k⟩ ∈ p.visits.map Visit.info ↔ k < 1 := by
  obtain ⟨p, hp, hreturned⟩ : ∃ p, twoGroups.foldlM step init = some p ∧
      p.returned = [⟨2, true, .multipleErrors⟩, ⟨1, true, .ok⟩] :=
    Option.map_eq_some_iff.1 (show (twoGroups.foldlM step init).map Pool.returned = _ by decide +kernel)
  have h := visited_once (runs_of_foldlM hp)
  exact ⟨p, runs_of_foldlM hp, hreturned, h.1,
    (h.2.1 0 ⟨2, true, .multipleErrors⟩ (by simp [hreturned])).1,
    (h.2.1 1 ⟨1, true, .ok⟩ (by simp [hreturned])).1⟩

end VisitGroup

end CaptureHpc
