import DeepSecurity.CaptureHpc.Proofs.VisitGroupProofs

/-!
# Groups that come to an end

With no more URLs than threads, every thread is used at most once, and a call can return from wherever it
has got to. With more URLs a thread may be given a second one before its first event has been taken: the
event is then not counted, and the call never returns.
-/

namespace CaptureHpc

namespace VisitGroup

open Tally

variable {p p' : Pool} {c : Call} {i j : WorkerId}

/-! ## Building runs -/

theorem Transition.steps (h : Transition p p') : Steps p p' := by
  cases h with
  | start n hcall => exact ⟨.start n, by simp [step, hcall]⟩
  | again c hcall hplace hlt => exact ⟨.main, by simp [step, Call.step, hcall, hplace, hlt]⟩
  | give c i hcall hplace hbusy hlt =>
    exact ⟨.main, by simp [step, Call.step, hcall, hplace, hbusy, hlt]⟩
  | pass c i hcall hplace hbusy =>
    refine ⟨.main, ?_⟩
    simp only [step, hcall, Option.bind_some, Call.step, hplace, i.isLt, dif_pos]
    rw [if_neg (by
      obtain h | h := hbusy
      · simp [h]
      · simp; omega)]
  | given c i hcall hplace hi => exact ⟨.main, by simp [step, Call.step, hcall, hplace, hi]⟩
  | setBusy c i hcall hplace => exact ⟨.main, by simp [step, Call.step, hcall, hplace]⟩
  | setHasData c i hcall hplace => exact ⟨.main, by simp [step, Call.step, hcall, hplace]⟩
  | wait c i hcall hplace hfirst => exact ⟨.main, by simp [step, Call.step, hcall, hplace, hfirst]⟩
  | timeout c hcall hplace hfirst => exact ⟨.timeout, by simp [step, Call.timeout, hcall, hplace, hfirst]⟩
  | count c i hcall hplace => exact ⟨.main, by simp [step, Call.step, hcall, hplace]⟩
  | finish c closed hcall hplace hle =>
    exact ⟨.finish closed, by simp [step, Call.finish, hcall, hplace, Nat.not_lt.2 hle]⟩
  | wake i hworker hdata => exact ⟨.worker i .ok, by simp [step, Pool.workerStep, hworker, hdata]⟩
  | read i info hworker hdata => exact ⟨.worker i .ok, by simp [step, Pool.workerStep, hworker, hdata]⟩
  | readNull i hworker hdata => exact ⟨.worker i .ok, by simp [step, Pool.workerStep, hworker, hdata]⟩
  | visit i info code hworker => exact ⟨.worker i code, by simp [step, Pool.workerStep, hworker]⟩
  | clearBusy i hworker => exact ⟨.worker i .ok, by simp [step, Pool.workerStep, hworker]⟩
  | setFinished i hworker => exact ⟨.worker i .ok, by simp [step, Pool.workerStep, hworker]⟩

theorem Transition.runs (h : Transition p p') : Runs p p' :=
  .single h.steps

/-- A thread is given the next URL. -/
theorem runs_give (hcall : p.call = some c) (hplace : c.place = .give i) (hbusy : p.busy i = false)
    (hlt : c.nVisiting < c.nUrls) :
    Runs p ((((p.setData i ⟨p.returned.length, c.toVisit⟩).setBusy i true).setHasData i true).setCall
      { c with toVisit := c.toVisit + 1, nVisiting := c.nVisiting + 1, place := .give (i + 1) }) := by
  have h₁ := Transition.give c i hcall hplace hbusy hlt
  refine (h₁.runs.tail (Transition.setBusy _ i rfl rfl).steps).tail (Transition.steps ?_)
  exact Transition.setHasData
    { c with toVisit := c.toVisit + 1, nVisiting := c.nVisiting + 1, place := .setHasData i } i rfl rfl

/-- Threads that are busy are passed over. -/
theorem runs_pass {k : ℕ} (hcall : p.call = some c) (hplace : c.place = .give k) (hk : k ≤ maxWorkerThreads)
    (hbusy : ∀ j : WorkerId, k ≤ j.val → p.busy j = true) :
    Runs p (p.setCall { c with place := .wait }) := by
  induction h : maxWorkerThreads - k generalizing p c k with
  | zero => exact (Transition.given c k hcall hplace (by omega)).runs
  | succ d ih =>
    have hi : k < maxWorkerThreads := by omega
    have hstep := Transition.pass c ⟨k, hi⟩ hcall hplace (.inl (hbusy ⟨k, hi⟩ le_rfl))
    exact .head hstep.steps (ih (p := p.setCall { c with place := .give (k + 1) })
      (c := { c with place := .give (k + 1) }) rfl rfl hi (fun j hj => hbusy j (by omega)) (by omega))

/-- A thread that has been given a URL visits it and sets its event. -/
theorem runs_worker {info : VisitInfo} (hcall : p.call = some c) (hworker : p.worker i = .waiting)
    (hhas : p.hasData i = true) (hdata : p.data i = some info) :
    ∃ p' codes, Runs p p' ∧ p'.call = some { c with codes := codes } ∧ p'.returned = p.returned ∧
      p'.busy = Function.update p.busy i false ∧ p'.finished = Function.update p.finished i true := by
  have h₁ := Transition.wake i hworker hhas
  have h₂ := Transition.read (p := (p.setHasData i false).setWorker i .awake) i info
    (Function.update_self _ _ _) hdata
  have h₃ := Transition.visit i info .ok (p := ((p.setHasData i false).setWorker i .awake).setWorker i (.visiting info))
    (Function.update_self _ _ _)
  have h₄ := Transition.clearBusy i (p := ((((p.setHasData i false).setWorker i .awake).setWorker i (.visiting info)).visit info .ok).setWorker i .visited)
    (Function.update_self _ _ _)
  have h₅ := Transition.setFinished i (p := ((((((p.setHasData i false).setWorker i .awake).setWorker i (.visiting info)).visit info .ok).setWorker i .visited).setBusy i false).setWorker i .finishing)
    (Function.update_self _ _ _)
  refine ⟨_, if info.call = p.returned.length then Function.update c.codes info.index .ok else c.codes,
    ((((h₁.runs.tail h₂.steps).tail h₃.steps).tail h₄.steps).tail h₅.steps), ?_, rfl, rfl, rfl⟩
  simp only [Pool.setWorker, Pool.setHasData, Pool.setBusy, Pool.setFinished, Pool.visit, hcall, Option.map_some]
  split_ifs <;> rfl

/-! ## A visit that is not counted -/

theorem Transition.returned_eq {c' : Call} (h : Transition p p') (hcall' : p'.call = some c') :
    p'.returned = p.returned := by
  cases h with
  | finish => cases hcall'
  | _ => rfl

/-- A visit has been lost, so that the loop will not end. -/
def Stuck (p : Pool) : Prop := Inv p ∧ ∃ c, p.call = some c ∧ Counts p c 1

theorem Stuck.step (h : Stuck p) (ht : Transition p p') : Stuck p' ∧ p'.returned = p.returned := by
  obtain ⟨hinv, c, hcall, hcounts⟩ := h
  obtain ⟨c', hcall'⟩ | ⟨hplace, hle, closed, rfl⟩ := ht.call hcall
  · exact ⟨⟨hinv.step ht, c', hcall', hcounts.step ht hcall hcall' (hinv.workers c hcall)⟩,
      ht.returned_eq hcall'⟩
  · exact absurd (hcounts.finished hplace hle).1 (by decide)

theorem Stuck.run (h : Stuck p) (hrun : Runs p p') : p'.returned = p.returned := by
  suffices Stuck p' ∧ p'.returned = p.returned from this.2
  induction hrun with
  | refl => exact ⟨h, rfl⟩
  | tail _ hstep ih =>
    obtain ⟨a, ha⟩ := hstep
    obtain ⟨hstuck, hreturned⟩ := ih.1.step (transition_of_step ha)
    exact ⟨hstuck, hreturned.trans ih.2⟩

/-- An event of a thread that is busy again. -/
theorem stuck_of_count (hinv : Inv p) (hcall : p.call = some c) (hplace : c.place = .count i)
    (hbusy : p.busy i = true) : ∃ p', Runs p p' ∧ Stuck p' ∧ p'.returned = p.returned := by
  have ht := Transition.count c i hcall hplace
  have hcounts := hinv.counts c hcall
  refine ⟨_, .single ht.steps, ⟨hinv.step ht, _, rfl, ?_⟩, rfl⟩
  obtain ⟨hvis, hle, htotal, hcount⟩ := hcounts
  rw [hplace] at hvis htotal
  rw [countable, hplace] at hcount
  refine ⟨hvis, hle, htotal, ?_⟩
  have hcount : c.nVisitedUrls + tally p.finished + tally (ending p) + 1 + 0 ≤ done p := hcount
  show (if p.busy i then c.nVisitedUrls else c.nVisitedUrls + 1) + tally p.finished + tally (ending p) + 0 +
    1 ≤ done p
  rw [if_pos hbusy]
  omega

/-! ### A run with such an event -/

/-- The first `i` threads have been given a URL in the first round. -/
structure Given (n i : ℕ) (p : Pool) : Prop where
  call : ∃ c, p.call = some c ∧ c.nUrls = n ∧ c.nVisitedUrls = 0 ∧ c.nVisiting = i ∧ c.place = .give i
  worker : ∀ j, p.worker j = .waiting
  busy : ∀ j, p.busy j = decide (j.val < i)
  hasData : ∀ j, p.hasData j = decide (j.val < i)
  finished : ∀ j, p.finished j = false

theorem update_lt {f : WorkerId → Bool} (hf : ∀ j, f j = decide (j.val < i.val)) (j : WorkerId) :
    Function.update f i true j = decide (j.val < i.val + 1) := by
  by_cases hj : j = i
  · simp [hj]
  · have hne : j.val ≠ i.val := fun h => hj (Fin.ext h)
    have hlt : j.val < i.val + 1 ↔ j.val < i.val := by omega
    rw [Function.update_of_ne hj, hf j, decide_eq_decide, hlt]

theorem Given.next {n : ℕ} (h : Given n i p) (hn : i.val < n) :
    ∃ p', Runs p p' ∧ Given n (i.val + 1) p' ∧ p'.returned = p.returned := by
  obtain ⟨⟨c, hcall, hurls, hvisited, hvisiting, hplace⟩, hworker, hbusy, hdata, hfinished⟩ := h
  refine ⟨_, runs_give hcall hplace (by simp [hbusy]) (by omega), ?_, rfl⟩
  exact ⟨⟨_, rfl, hurls, hvisited, congrArg (· + 1) hvisiting, rfl⟩, hworker, update_lt hbusy, update_lt hdata, hfinished⟩

theorem Given.all {n k : ℕ} (h : Given n 0 p) (hn : k ≤ n) (hk : k ≤ maxWorkerThreads) :
    ∃ p', Runs p p' ∧ Given n k p' ∧ p'.returned = p.returned := by
  induction k with
  | zero => exact ⟨p, .refl, h, rfl⟩
  | succ k ih =>
    obtain ⟨p₁, hrun₁, hgiven₁, hret₁⟩ := ih (by omega) (by omega)
    obtain ⟨p₂, hrun₂, hgiven₂, hret₂⟩ := Given.next (i := ⟨k, hk⟩) hgiven₁ hn
    exact ⟨p₂, hrun₁.trans hrun₂, hgiven₂, hret₂.trans hret₁⟩

theorem given_start (hinv : Inv p) (hnone : p.call = none) {n : ℕ} (hn : 0 < n) :
    ∃ p', Runs (p.setCall { nUrls := n }) p' ∧ Given n 0 p' ∧ p'.returned = p.returned := by
  have hrest := hinv.resting hnone
  refine ⟨_, (Transition.again (p := p.setCall { nUrls := n }) _ rfl rfl hn).runs, ?_, rfl⟩
  exact ⟨⟨_, rfl, rfl, rfl, rfl, rfl⟩, fun j => (hrest j).worker, fun j => by simp [(hrest j).busy],
    fun j => by simp [(hrest j).hasData], fun j => (hrest j).finished⟩

theorem firstFinished_eq_none (h : ∀ j, p.finished j = false) : firstFinished p = none :=
  List.find?_eq_none.2 fun j _ => by simp [h j]

theorem maxWorkerThreads_pos : 0 < maxWorkerThreads := by decide

def first : WorkerId := ⟨0, maxWorkerThreads_pos⟩

theorem firstFinished_first (h : p.finished first = true) : firstFinished p = some first := by
  have hcons : List.finRange maxWorkerThreads = first :: (List.finRange 59).map Fin.succ :=
    List.finRange_succ
  rw [firstFinished, hcons, List.find?_cons_of_pos h]

theorem stuck_of_wait (hinv : Inv p) (hcall : p.call = some c) (hplace : c.place = .wait)
    (hfinished : p.finished first = true) (hbusy : p.busy first = true) :
    ∃ p', Runs p p' ∧ Stuck p' ∧ p'.returned = p.returned := by
  have h₁ := Transition.wait c first hcall hplace (firstFinished_first hfinished)
  obtain ⟨p', hrun, hstuck, hret⟩ := stuck_of_count (hinv.step h₁) rfl rfl hbusy
  exact ⟨p', .head h₁.steps hrun, hstuck, hret⟩

/-- All threads have been given a URL, there are more, and the wait for the first event is over: a thread
that finishes now is given its next URL before its event has been taken. -/
theorem Given.stuck {n : ℕ} (hinv : Inv p) (h : Given n maxWorkerThreads p) (hn : maxWorkerThreads < n) :
    ∃ p', Runs p p' ∧ Stuck p' ∧ p'.returned = p.returned := by
  obtain ⟨⟨c, hcall, hurls, hvisited, hvisiting, hplace⟩, hworker, hbusy, hdata, hfinished⟩ := h
  have hbusy : ∀ j, p.busy j = true := fun j => by simp [hbusy j]
  have hdata : ∀ j, p.hasData j = true := fun j => by simp [hdata j]
  -- the wait is over
  have h₁ := Transition.given c _ hcall hplace le_rfl
  have h₂ := Transition.timeout (p := p.setCall { c with place := .wait }) _ rfl rfl
    (firstFinished_eq_none hfinished)
  have h₃ := Transition.again (p := p.setCall { c with place := .loop }) _ rfl rfl (by simp; omega)
  -- the first thread visits its URL
  obtain ⟨k, hk⟩ := (hinv.workers c hcall first).data (.inl (hdata first))
  obtain ⟨p₁, codes, hrun₁, hcall₁, hret₁, hbusy₁, hfin₁⟩ :=
    runs_worker (p := p.setCall { c with place := .give 0 }) (i := first) rfl (hworker first) (hdata first) hk
  -- it is given another
  have hrun₂ := runs_give (i := first) hcall₁ rfl (by rw [hbusy₁]; simp) (by simp; omega)
  have hbusy₂ : ∀ j, Function.update p₁.busy first true j = true := by
    intro j
    by_cases hj : j = first
    · rw [hj, Function.update_self]
    · rw [Function.update_of_ne hj, hbusy₁, Function.update_of_ne hj]
      exact hbusy j
  have hrun₃ := hrun₂.trans (runs_pass (k := 1) rfl rfl (by decide) fun j _ => hbusy₂ j)
  -- its first event is taken
  have hfin₂ : p₁.finished first = true := by rw [hfin₁, Function.update_self]
  have hrun := (((h₁.runs.tail h₂.steps).tail h₃.steps).trans hrun₁).trans hrun₃
  obtain ⟨p₂, hrun₄, hstuck, hret₂⟩ := stuck_of_wait (hinv.run hrun) rfl rfl hfin₂ (hbusy₂ first)
  exact ⟨p₂, hrun.trans hrun₄, hstuck, hret₂.trans hret₁⟩

theorem exists_stuck (hinv : Inv p) (hnone : p.call = none) {n : ℕ} (hn : maxWorkerThreads < n) :
    ∃ p', Runs (p.setCall { nUrls := n }) p' ∧ Stuck p' ∧ p'.returned = p.returned := by
  have hstart := hinv.step (.start n hnone)
  obtain ⟨p₁, hrun₁, hgiven₁, hret₁⟩ := given_start hinv hnone (by omega : 0 < n)
  obtain ⟨p₂, hrun₂, hgiven₂, hret₂⟩ := hgiven₁.all hn.le le_rfl
  obtain ⟨p₃, hrun₃, hstuck, hret₃⟩ := hgiven₂.stuck (hstart.run (hrun₁.trans hrun₂)) hn
  exact ⟨p₃, (hrun₁.trans hrun₂).trans hrun₃, hstuck, hret₃.trans (hret₂.trans hret₁)⟩

/-! ## Every thread at most once -/

/-- The call is dealing with the thread. -/
def Place.concerns (place : Place) (j : WorkerId) : Bool :=
  match place with
  | .setBusy i | .setHasData i | .count i => i == j
  | _ => false

/-- The number of threads that the call has come past. -/
def Place.reached : Place → ℕ
  | .loop => 0
  | .give i => i
  | .setBusy i | .setHasData i => i + 1
  | .wait | .count _ => maxWorkerThreads

/-- How often a URL is on its way through the thread. -/
def occupied (p : Pool) (c : Call) (i : WorkerId) : ℕ :=
  (holding p i).toNat + (ending p i).toNat + (p.finished i).toNat + (c.place.concerns i).toNat

/-- What holds during a call with no more URLs than threads: the threads are taken in their order and only
once, and no visit is lost. -/
structure Tidy (p : Pool) (c : Call) : Prop where
  few : c.nUrls ≤ maxWorkerThreads
  order : c.toVisit < c.nUrls → c.toVisit = c.place.reached
  working : c.place ≠ .loop → c.nVisitedUrls < c.nUrls
  counted : done p ≤ countable p c
  once : ∀ i, occupied p c i ≤ (decide (i.val < c.toVisit)).toNat

theorem occupied_of_same {c' : Call} (h : Same p p' j) (hfinished : p'.finished j = p.finished j)
    (hplace : c'.place.concerns j = c.place.concerns j) : occupied p' c' j = occupied p c j := by
  rw [occupied, occupied, h.holding, ending, ending, h.worker, hfinished, hplace]

theorem WorkerOk.not_busy (hok : WorkerOk p c i) (hhold : holding p i = false) (hend : ending p i = false)
    (hplace : c.place ≠ .setHasData i) : p.busy i = false := by
  have hvisited : p.worker i ≠ .visited := fun hw => by simp [ending, hw, Worker.ends] at hend
  exact Bool.eq_false_iff.2 (hok.busy.not.2 (by simp [hhold, hvisited, hplace]))

/-- The thread of an event that is to be counted is idle. -/
theorem Tidy.not_busy_of_count (h : Tidy p c) (hok : WorkerOk p c i) (hplace : c.place = .count i) :
    p.busy i = false := by
  have hle := (h.once i).trans (Bool.toNat_le _)
  have hone : (c.place.concerns i).toNat = 1 := by simp [hplace, Place.concerns]
  rw [occupied, hone] at hle
  exact hok.not_busy (Bool.toNat_eq_zero.1 (by omega)) (Bool.toNat_eq_zero.1 (by omega)) (by simp [hplace])

/-- A thread that has not been reached is idle. -/
theorem Tidy.not_busy_of_give (h : Tidy p c) (hok : WorkerOk p c i) (hplace : c.place = .give i)
    (hto : c.toVisit = i.val) : p.busy i = false := by
  have hzero : occupied p c i = 0 := by simpa [hto] using h.once i
  unfold occupied at hzero
  exact hok.not_busy (Bool.toNat_eq_zero.1 (by omega)) (Bool.toNat_eq_zero.1 (by omega)) (by simp [hplace])

/-- Behind the last thread all URLs have been given away. -/
theorem Tidy.not_lt (h : Tidy p c) (hreached : maxWorkerThreads ≤ c.place.reached) : ¬ c.toVisit < c.nUrls := by
  intro hlt
  have horder := h.order hlt
  have hfew := h.few
  omega

/-- A step in which no URL is taken from the list. -/
theorem Tidy.of_occupied {c' : Call} (ht : Tidy p c) (hurls : c'.nUrls = c.nUrls) (hto : c'.toVisit = c.toVisit)
    (horder : c.toVisit < c.nUrls → c'.place.reached = c.place.reached)
    (hworking : c'.place ≠ .loop → c'.nVisitedUrls < c.nUrls)
    (hcounted : done p' + countable p c ≤ done p + countable p' c')
    (honce : ∀ j, occupied p' c' j ≤ occupied p c j) : Tidy p' c' := by
  refine ⟨hurls ▸ ht.few, ?_, hurls ▸ hworking, ?_, ?_⟩
  · rw [hurls, hto]
    intro hlt
    rw [horder hlt]
    exact ht.order hlt
  · have := ht.counted
    omega
  · intro j
    rw [hto]
    exact (honce j).trans (ht.once j)

/-- A step of the thread `i`. -/
theorem Tidy.of_worker {codes : ℕ → ErrorCode} (ht : Tidy p c) (h : ∀ j, j ≠ i → Same p p' j)
    (hfinished : ∀ j, j ≠ i → p'.finished j = p.finished j)
    (hone : (holding p' i).toNat + (ending p' i).toNat + (p'.finished i).toNat ≤
      (holding p i).toNat + (ending p i).toNat + (p.finished i).toNat)
    (hdone : done p' + (ending p i).toNat + (p.finished i).toNat ≤
      done p + (ending p' i).toNat + (p'.finished i).toNat) :
    Tidy p' { c with codes := codes } := by
  refine ht.of_occupied rfl rfl (fun _ => rfl) ht.working ?_ fun j => ?_
  · have hending := tally_ending p p' i h
    have hevents := tally_add_toNat i hfinished
    show done p' + (c.nVisitedUrls + tally p.finished + tally (ending p) + c.place.counting.toNat) ≤
      done p + (c.nVisitedUrls + tally p'.finished + tally (ending p') + c.place.counting.toNat)
    omega
  · by_cases hj : j = i
    · subst hj
      show (holding p' j).toNat + (ending p' j).toNat + (p'.finished j).toNat + (c.place.concerns j).toNat ≤
        (holding p j).toNat + (ending p j).toNat + (p.finished j).toNat + (c.place.concerns j).toNat
      omega
    · exact (occupied_of_same (h j hj) (hfinished j hj) rfl).le

/-- A step of the call that changes its place only. -/
theorem Tidy.of_place {place : Place} (ht : Tidy p c)
    (horder : c.toVisit < c.nUrls → place.reached = c.place.reached)
    (hworking : place ≠ .loop → c.nVisitedUrls < c.nUrls) (hcounting : place.counting = c.place.counting)
    (hconcerns : place.concerns = c.place.concerns) :
    Tidy (p.setCall { c with place := place }) { c with place := place } := by
  refine ht.of_occupied rfl rfl horder hworking ?_ fun j => (occupied_of_same ⟨rfl, rfl, rfl, rfl, rfl⟩ rfl ?_).le
  · show done p + (c.nVisitedUrls + tally p.finished + tally (ending p) + c.place.counting.toNat) ≤
      done p + (c.nVisitedUrls + tally p.finished + tally (ending p) + place.counting.toNat)
    rw [hcounting]
  · exact congrFun hconcerns j

theorem Tidy.give (hcounts : Counts p c 0) (ht : Tidy p c) (hplace : c.place = .give i) (hlt : c.nVisiting < c.nUrls) :
    Tidy ((p.setData i ⟨p.returned.length, c.toVisit⟩).setCall
        { c with toVisit := c.toVisit + 1, place := .setBusy i })
      { c with toVisit := c.toVisit + 1, place := .setBusy i } := by
  have hvis := hcounts.visiting
  rw [hplace] at hvis
  have hvis : c.toVisit = c.nVisiting := hvis
  have horder : c.toVisit = i.val := by simpa [hplace, Place.reached] using ht.order (by omega)
  refine ⟨ht.few, fun _ => congrArg (· + 1) horder, fun _ => ht.working (by simp [hplace]), ?_, fun j => ?_⟩
  · have hcounted := ht.counted
    rw [countable, hplace] at hcounted
    exact hcounted
  · have honce := ht.once j
    by_cases hj : j = i
    · subst hj
      have hzero : occupied p c j = 0 := by simpa [horder] using honce
      unfold occupied at hzero
      have hone : (Place.concerns (.setBusy j) j).toNat ≤ 1 := Bool.toNat_le _
      have hlt : decide (j.val < c.toVisit + 1) = true := by simp [horder]
      show (holding p j).toNat + (ending p j).toNat + (p.finished j).toNat + (Place.concerns (.setBusy j) j).toNat ≤
        (decide (j.val < c.toVisit + 1)).toNat
      rw [hlt, Bool.toNat_true]
      omega
    · have hmono : (decide (j.val < c.toVisit)).toNat ≤ (decide (j.val < c.toVisit + 1)).toNat := by
        refine Bool.toNat_le_toNat fun h => ?_
        simp at h ⊢
        omega
      refine le_trans (le_of_eq (occupied_of_same (p := p) (c := c) ⟨rfl, rfl, rfl, ?_, rfl⟩ rfl ?_)) (honce.trans hmono)
      · exact Function.update_of_ne hj _ _
      · simp [hplace, Place.concerns, Ne.symm hj]

theorem Tidy.step {c' : Call} (h : Transition p p') (hcall : p.call = some c) (hcall' : p'.call = some c')
    (hok : ∀ i, WorkerOk p c i) (hcounts : Counts p c 0) (ht : Tidy p c) : Tidy p' c' := by
  cases h with
  | start n hnone => simp [hcall] at hnone
  | again c₁ hc hplace hlt =>
    cases hcall.symm.trans hc
    cases hcall'
    exact ht.of_place (fun _ => by rw [hplace]; rfl) (fun _ => hlt) (by rw [hplace]; rfl) (by rw [hplace]; rfl)
  | give c₁ i hc hplace hbusy hlt =>
    cases hcall.symm.trans hc
    cases hcall'
    exact Tidy.give hcounts ht hplace hlt
  | pass c₁ i hc hplace hbusy =>
    cases hcall.symm.trans hc
    cases hcall'
    refine ht.of_place (fun hto => ?_) (fun _ => ht.working (by simp [hplace])) (by rw [hplace]; rfl)
      (by rw [hplace]; rfl)
    have horder : c.toVisit = i.val := by simpa [hplace, Place.reached] using ht.order hto
    have hvis : c.toVisit = c.nVisiting := by simpa [hplace, Place.settingBusy] using hcounts.visiting
    obtain hbusy | hle := hbusy
    · simp [ht.not_busy_of_give (hok i) hplace horder] at hbusy
    · omega
  | given c₁ i hc hplace hi =>
    cases hcall.symm.trans hc
    cases hcall'
    exact ht.of_place (fun hto => absurd hto (ht.not_lt (by rwa [hplace])))
      (fun _ => ht.working (by simp [hplace])) (by rw [hplace]; rfl) (by rw [hplace]; rfl)
  | setBusy c₁ i hc hplace =>
    cases hcall.symm.trans hc
    cases hcall'
    refine ht.of_occupied rfl rfl (fun _ => by rw [hplace]; rfl) (fun _ => ht.working (by simp [hplace])) ?_
      fun j => ?_
    · rw [countable, hplace]
      exact le_rfl
    · rw [occupied, occupied, hplace]
      exact le_rfl
  | setHasData c₁ i hc hplace =>
    cases hcall.symm.trans hc
    cases hcall'
    refine ht.of_occupied rfl rfl (fun _ => by rw [hplace]; rfl) (fun _ => ht.working (by simp [hplace])) ?_
      fun j => ?_
    · rw [countable, hplace]
      exact le_rfl
    · by_cases hj : j = i
      · subst hj
        have hroom := ((hok j).room (.inr hplace)).1
        have hnew : holding (p.setHasData j true) j = true := by simp [holding]
        show (holding (p.setHasData j true) j).toNat + (ending p j).toNat + (p.finished j).toNat + 0 ≤ _
        rw [occupied, hroom, hnew, hplace, show (Place.setHasData j).concerns j = true by simp [Place.concerns]]
        simp only [Bool.toNat_true, Bool.toNat_false]
        omega
      · refine le_of_eq (occupied_of_same ⟨rfl, rfl, Function.update_of_ne hj _ _, rfl, rfl⟩ rfl ?_)
        simp [hplace, Place.concerns, Ne.symm hj]
  | wait c₁ i hc hplace hfirst =>
    cases hcall.symm.trans hc
    cases hcall'
    have hmove := tally_setFinished p i false
    have hfinished := firstFinished_eq hfirst
    refine ht.of_occupied rfl rfl (fun _ => by rw [hplace]; rfl) (fun _ => ht.working (by simp [hplace])) ?_
      fun j => ?_
    · rw [hfinished] at hmove
      simp only [Bool.toNat_true, Bool.toNat_false] at hmove
      rw [countable, hplace]
      show done p + (c.nVisitedUrls + tally p.finished + tally (ending p) + 0) ≤
        done p + (c.nVisitedUrls + tally (p.setFinished i false).finished + tally (ending p) + 1)
      omega
    · by_cases hj : j = i
      · subst hj
        simp [occupied, holding, ending, hplace, Place.concerns, hfinished]
      · refine le_of_eq (occupied_of_same ⟨rfl, rfl, rfl, rfl, rfl⟩ (Function.update_of_ne hj _ _) ?_)
        simp [hplace, Place.concerns, Ne.symm hj]
  | timeout c₁ hc hplace hfirst =>
    cases hcall.symm.trans hc
    cases hcall'
    exact ht.of_place (fun hto => absurd hto (ht.not_lt (by rw [hplace]; exact le_rfl))) (fun h => absurd rfl h)
      (by rw [hplace]; rfl) (by rw [hplace]; rfl)
  | count c₁ i hc hplace =>
    cases hcall.symm.trans hc
    cases hcall'
    have hbusy := ht.not_busy_of_count (hok i) hplace
    refine ht.of_occupied rfl rfl (fun hto => absurd hto (ht.not_lt (by rw [hplace]; exact le_rfl)))
      (fun h => absurd rfl h) ?_ fun j => ?_
    · rw [countable, hplace]
      show done p + (c.nVisitedUrls + tally p.finished + tally (ending p) + 1) ≤
        done p + ((if p.busy i then c.nVisitedUrls else c.nVisitedUrls + 1) + tally p.finished + tally (ending p) + 0)
      rw [hbusy, if_neg (by simp)]
      omega
    · show (holding p j).toNat + (ending p j).toNat + (p.finished j).toNat + 0 ≤ _
      exact Nat.le_add_right _ _
  | finish c₁ closed hc hplace hle => cases hcall'
  | wake i hworker hdata =>
    cases hcall.symm.trans hcall'
    exact Tidy.of_worker ht (i := i)
      (fun j hj => ⟨Function.update_of_ne hj _ _, rfl, Function.update_of_ne hj _ _, rfl, rfl⟩) (fun _ _ => rfl)
      (by simp [holding, ending, Worker.holds, Worker.ends, hworker, hdata])
      (by simp [ending, Worker.ends, hworker, done])
  | read i info hworker hdata =>
    cases hcall.symm.trans hcall'
    exact Tidy.of_worker ht (i := i)
      (fun j hj => ⟨Function.update_of_ne hj _ _, rfl, rfl, rfl, rfl⟩) (fun _ _ => rfl)
      (by simp [holding, ending, Worker.holds, Worker.ends, hworker])
      (by simp [ending, Worker.ends, hworker, done])
  | readNull i hworker hdata =>
    obtain ⟨k, hk⟩ := (hok i).data (.inr hworker)
    simp [hdata] at hk
  | visit i info code hworker =>
    rw [call_visit hcall hcall']
    have hdata : p.hasData i = false := by
      by_contra h
      simpa [hworker] using (hok i).idle (by simpa using h)
    have hdone : done ((p.visit info code).setWorker i .visited) = done p + 1 :=
      done_visit ((hok i).task info hworker)
    refine ht.of_worker (i := i) (fun j hj => ⟨Function.update_of_ne hj _ _, rfl, rfl, rfl, rfl⟩)
      (fun _ _ => rfl) ?_ ?_
    · simp [holding, ending, Worker.holds, Worker.ends, hworker, hdata, Pool.visit]
    · rw [hdone]
      simp [ending, Worker.ends, hworker, Pool.visit]
  | clearBusy i hworker =>
    cases hcall.symm.trans hcall'
    exact Tidy.of_worker ht (i := i)
      (fun j hj => ⟨Function.update_of_ne hj _ _, Function.update_of_ne hj _ _, rfl, rfl, rfl⟩) (fun _ _ => rfl)
      (by simp [holding, ending, Worker.holds, Worker.ends, hworker])
      (by simp [ending, Worker.ends, hworker, done])
  | setFinished i hworker =>
    cases hcall.symm.trans hcall'
    -- an event that is still set would be a second URL of the same thread
    have hfinished : p.finished i = false := by
      have hle := (ht.once i).trans (Bool.toNat_le _)
      have hends : (ending p i).toNat = 1 := by simp [ending, hworker, Worker.ends]
      rw [occupied, hends] at hle
      exact Bool.toNat_eq_zero.1 (by omega)
    refine Tidy.of_worker ht (i := i)
      (fun j hj => ⟨Function.update_of_ne hj _ _, rfl, rfl, rfl, rfl⟩) (fun _ hj => Function.update_of_ne hj _ _)
      ?_ ?_
    · simp [holding, ending, Worker.holds, Worker.ends, hworker, hfinished]
    · simp [ending, Worker.ends, hworker, hfinished, done]

theorem tidy_start (hinv : Inv p) (hnone : p.call = none) {n : ℕ} (hn : n ≤ maxWorkerThreads) :
    Tidy (p.setCall { nUrls := n }) { nUrls := n } := by
  have hrest := hinv.resting hnone
  have hcounts := counts_start hinv.once hnone hrest n
  refine ⟨hn, fun _ => rfl, fun h => absurd rfl h, ?_, fun i => ?_⟩
  · have htotal := hcounts.total
    have hle : done (p.setCall { nUrls := n }) ≤ 0 := by
      have : (0 : ℕ) = ({ nUrls := n } : Call).toVisit := rfl
      omega
    omega
  · have hi := hrest i
    simp [occupied, holding, ending, Worker.holds, Worker.ends, hi.worker, hi.hasData, hi.finished, Place.concerns]

/-! ## Coming to an end -/

/-- What a thread still has to do. -/
def Worker.work : Worker → ℕ
  | .waiting => 0
  | .awake => 4
  | .visiting _ => 3
  | .visited => 2
  | .finishing => 1

def work (p : Pool) (i : WorkerId) : ℕ := (p.worker i).work + if p.hasData i then 5 else 0

/-- What the call has to do before it waits or counts again. -/
def Place.work : Place → ℕ
  | .setBusy _ => 80
  | .setHasData _ => 79
  | .loop => 70
  | .give i => 4 + (maxWorkerThreads - i)
  | .wait => 2
  | .count _ => 1

def remaining (p : Pool) (c : Call) : ℕ :=
  100 * (c.nUrls - c.nVisitedUrls) + 100 * (c.nUrls - c.toVisit) + total (work p) + c.place.work

theorem remaining_lt_of_worker {codes : ℕ → ErrorCode} (h : ∀ j, j ≠ i → Same p p' j) (hwork : work p' i < work p i) :
    remaining p' { c with codes := codes } < remaining p c := by
  have htotal : total (work p') + work p i = total (work p) + work p' i :=
    total_add i fun j hj => by rw [work, work, (h j hj).worker, (h j hj).hasData]
  show 100 * (c.nUrls - c.nVisitedUrls) + 100 * (c.nUrls - c.toVisit) + total (work p') + c.place.work < _
  unfold remaining
  omega

theorem work_lt (hdata : p'.hasData i = p.hasData i) (h : (p'.worker i).work < (p.worker i).work) :
    work p' i < work p i := by
  rw [work, work, hdata]
  omega

/-- A thread with work can go on. -/
theorem exists_transition_of_work (hinv : Inv p) (hcall : p.call = some c) (hwork : work p i ≠ 0) :
    ∃ p' c', Transition p p' ∧ p'.call = some c' ∧ remaining p' c' < remaining p c := by
  cases hworker : p.worker i with
  | waiting =>
    have hdata : p.hasData i = true := by
      by_contra h
      simp [work, hworker, h, Worker.work] at hwork
    refine ⟨_, c, .wake i hworker hdata, hcall, remaining_lt_of_worker (i := i)
      (fun j hj => ⟨Function.update_of_ne hj _ _, rfl, Function.update_of_ne hj _ _, rfl, rfl⟩) ?_⟩
    simp [work, hworker, hdata, Worker.work]
  | awake =>
    obtain ⟨k, hk⟩ := (hinv.workers c hcall i).data (.inr hworker)
    refine ⟨_, c, .read i _ hworker hk, hcall, remaining_lt_of_worker (i := i)
      (fun j hj => ⟨Function.update_of_ne hj _ _, rfl, rfl, rfl, rfl⟩) (work_lt rfl ?_)⟩
    simp [hworker, Worker.work]
  | visiting info =>
    have ht := Transition.visit i info .ok hworker
    obtain ⟨c', hcall'⟩ : ∃ c', (p.visit info .ok).call = some c' := ⟨_, by simp [Pool.visit, hcall]; rfl⟩
    refine ⟨_, c', ht, hcall', ?_⟩
    rw [call_visit hcall hcall']
    refine remaining_lt_of_worker (i := i) (fun j hj => ⟨Function.update_of_ne hj _ _, rfl, rfl, rfl, rfl⟩)
      (work_lt rfl ?_)
    simp [hworker, Worker.work]
  | visited =>
    refine ⟨_, c, .clearBusy i hworker, hcall, remaining_lt_of_worker (i := i)
      (fun j hj => ⟨Function.update_of_ne hj _ _, Function.update_of_ne hj _ _, rfl, rfl, rfl⟩) (work_lt rfl ?_)⟩
    simp [hworker, Worker.work]
  | finishing =>
    refine ⟨_, c, .setFinished i hworker, hcall, remaining_lt_of_worker (i := i)
      (fun j hj => ⟨Function.update_of_ne hj _ _, rfl, rfl, rfl, rfl⟩) (work_lt rfl ?_)⟩
    simp [hworker, Worker.work]

/-- A step of the call that changes its place only. -/
theorem remaining_lt_of_place {place : Place} (h : place.work < c.place.work) :
    remaining (p.setCall { c with place := place }) { c with place := place } < remaining p c :=
  Nat.add_lt_add_left h _

/-- When no thread has work, an event is set. -/
theorem Tidy.exists_finished (ht : Tidy p c) (hcounts : Counts p c 0) (hplace : c.place = .wait)
    (hwork : ∀ i, work p i = 0) : ∃ i, firstFinished p = some i := by
  by_contra hnone
  have hnone : firstFinished p = none := Option.eq_none_iff_forall_not_mem.2 fun i hi => hnone ⟨i, hi⟩
  have hfinished : tally p.finished = 0 := tally_eq_zero_iff.2 fun i => by
    have h := List.find?_eq_none.1 hnone i (List.mem_finRange i)
    simpa using h
  have hidle : ∀ i, holding p i = false ∧ ending p i = false := by
    intro i
    have hi := hwork i
    unfold work at hi
    have hdata : p.hasData i = false := by
      by_contra h
      simp [h] at hi
    cases hw : p.worker i <;> simp_all [holding, ending, Worker.holds, Worker.ends, Worker.work]
  have hholding : tally (holding p) = 0 := tally_eq_zero_iff.2 fun i => (hidle i).1
  have hending : tally (ending p) = 0 := tally_eq_zero_iff.2 fun i => (hidle i).2
  have hcounted := ht.counted
  have htotal := hcounts.total
  have hworking := ht.working (by simp [hplace])
  have hall := ht.not_lt (by rw [hplace]; exact le_rfl)
  rw [countable, hplace] at hcounted
  rw [hplace] at htotal
  have hcounted : done p ≤ c.nVisitedUrls + tally p.finished + tally (ending p) + 0 := hcounted
  have htotal : done p + tally (holding p) + 0 = c.toVisit := htotal
  omega

/-- As long as the call is not over, something can be done. -/
theorem Tidy.exists_transition (hinv : Inv p) (hcall : p.call = some c) (ht : Tidy p c)
    (hlt : c.place = .loop → c.nVisitedUrls < c.nUrls) :
    ∃ p' c', Transition p p' ∧ p'.call = some c' ∧ remaining p' c' < remaining p c := by
  by_cases hwork : ∃ i, work p i ≠ 0
  · obtain ⟨i, hi⟩ := hwork
    exact exists_transition_of_work hinv hcall hi
  · have hwork : ∀ i, work p i = 0 := fun i => by
      by_contra h
      exact hwork ⟨i, h⟩
    have hcounts := hinv.counts c hcall
    cases hplace : c.place with
    | loop =>
      refine ⟨_, _, .again c hcall hplace (hlt hplace), rfl, remaining_lt_of_place ?_⟩
      rw [hplace]
      decide
    | give k =>
      by_cases hk : k < maxWorkerThreads
      · by_cases hgive : p.busy ⟨k, hk⟩ = false ∧ c.nVisiting < c.nUrls
        · refine ⟨_, _, .give c ⟨k, hk⟩ hcall hplace hgive.1 hgive.2, rfl, ?_⟩
          have hvis : c.toVisit = c.nVisiting := by simpa [hplace, Place.settingBusy] using hcounts.visiting
          show 100 * (c.nUrls - c.nVisitedUrls) + 100 * (c.nUrls - (c.toVisit + 1)) + total (work p) + 80 < _
          unfold remaining
          omega
        · refine ⟨_, _, .pass c ⟨k, hk⟩ hcall hplace ?_, rfl, remaining_lt_of_place ?_⟩
          · by_cases hb : p.busy ⟨k, hk⟩ = true
            · exact .inl hb
            · exact .inr (by simpa [hb] using hgive)
          · rw [hplace]
            show 4 + (maxWorkerThreads - (k + 1)) < 4 + (maxWorkerThreads - k)
            omega
      · refine ⟨_, _, .given c k hcall hplace (by omega), rfl, remaining_lt_of_place ?_⟩
        rw [hplace]
        show 2 < 4 + (maxWorkerThreads - k)
        omega
    | setBusy i =>
      refine ⟨_, _, .setBusy c i hcall hplace, rfl, ?_⟩
      rw [remaining, remaining, hplace]
      exact Nat.lt_succ_self _
    | setHasData i =>
      refine ⟨_, _, .setHasData c i hcall hplace, rfl, ?_⟩
      have htotal := total_add (f := work (p.setHasData i true)) (g := work p) i
        fun j hj => by simp [work, Function.update_of_ne hj]
      have hnew : work (p.setHasData i true) i = (p.worker i).work + 5 := by simp [work]
      rw [hnew, work] at htotal
      show 100 * (c.nUrls - c.nVisitedUrls) + 100 * (c.nUrls - c.toVisit) + total (work (p.setHasData i true)) +
        (4 + (maxWorkerThreads - (i + 1))) < _
      rw [remaining, hplace]
      show _ < 100 * (c.nUrls - c.nVisitedUrls) + 100 * (c.nUrls - c.toVisit) + total (work p) + 79
      have hmax : maxWorkerThreads = 60 := rfl
      omega
    | wait =>
      obtain ⟨i, hi⟩ := ht.exists_finished hcounts hplace hwork
      refine ⟨_, _, .wait c i hcall hplace hi, rfl, ?_⟩
      rw [remaining, remaining, hplace]
      exact Nat.lt_succ_self _
    | count i =>
      refine ⟨_, _, .count c i hcall hplace, rfl, ?_⟩
      have hbusy := ht.not_busy_of_count (hinv.workers c hcall i) hplace
      have hworking := ht.working (by simp [hplace])
      show 100 * (c.nUrls - if p.busy i then c.nVisitedUrls else c.nVisitedUrls + 1) + 100 * (c.nUrls - c.toVisit) +
        total (work p) + 70 < _
      rw [remaining, hbusy, if_neg (by simp)]
      omega

/-- A call with no more URLs than threads can be brought to its end. -/
theorem Tidy.exists_returned (hinv : Inv p) (hcall : p.call = some c) (ht : Tidy p c) :
    ∃ p' r, Runs p p' ∧ p'.returned = p.returned ++ [r] := by
  induction h : remaining p c using Nat.strong_induction_on generalizing p c with
  | _ m ih =>
    by_cases hend : c.place = .loop ∧ c.nUrls ≤ c.nVisitedUrls
    · exact ⟨_, _, (Transition.finish c true hcall hend.1 hend.2).runs, rfl⟩
    · obtain ⟨p₁, c₁, hstep, hcall₁, hlt⟩ := ht.exists_transition hinv hcall fun hplace => by
        by_contra hle
        exact hend ⟨hplace, by omega⟩
      have ht₁ := ht.step hstep hcall hcall₁ (hinv.workers c hcall) (hinv.counts c hcall)
      obtain ⟨p₂, r, hrun, hret⟩ := ih _ (h ▸ hlt) (hinv.step hstep) hcall₁ ht₁ rfl
      exact ⟨p₂, r, .head hstep.steps hrun, hstep.returned_eq hcall₁ ▸ hret⟩

/-! ## Every run -/

theorem Transition.returned_length_le (h : Transition p p') : p.returned.length ≤ p'.returned.length := by
  cases h with
  | finish => simp [Pool.leave]
  | _ => exact le_rfl

/-- The call has returned, or it is still as it should be. -/
theorem tidy_run {n : ℕ} (hinv : Inv p) (hnone : p.call = none) (hn : n ≤ maxWorkerThreads)
    (hrun : Runs (p.setCall { nUrls := n }) p') :
    p.returned.length < p'.returned.length ∨
      p'.returned = p.returned ∧ ∃ c, p'.call = some c ∧ Tidy p' c := by
  have hstart := hinv.step (.start n hnone)
  induction hrun with
  | refl => exact .inr ⟨rfl, _, rfl, tidy_start hinv hnone hn⟩
  | tail hrun hstep ih =>
    obtain ⟨a, ha⟩ := hstep
    have hstep := transition_of_step ha
    obtain hlt | ⟨hret, c, hcall, ht⟩ := ih
    · exact .inl (hlt.trans_le hstep.returned_length_le)
    · have hinv₁ := hstart.run hrun
      obtain ⟨c', hcall'⟩ | ⟨-, -, closed, rfl⟩ := hstep.call hcall
      · exact .inr ⟨(hstep.returned_eq hcall').trans hret, c', hcall',
          ht.step hstep hcall hcall' (hinv₁.workers c hcall) (hinv₁.counts c hcall)⟩
      · left
        simp [Pool.leave, hret]

/-- A call can always be brought to its end, whatever has happened since it began, if and only if it has
no more URLs than there are threads. -/
theorem canReturn_iff {n : ℕ} (hp : Reachable p) (hnone : p.call = none) :
    (∀ p', Runs (p.setCall { nUrls := n }) p' → p'.returned = p.returned →
      ∃ p'' r, Runs p' p'' ∧ p''.returned = p.returned ++ [r]) ↔ n ≤ maxWorkerThreads := by
  have hinv := hp.inv
  constructor
  · intro h
    by_contra hn
    obtain ⟨p₁, hrun₁, hstuck, hret₁⟩ := exists_stuck hinv hnone (by omega : maxWorkerThreads < n)
    obtain ⟨p₂, r, hrun₂, hret₂⟩ := h p₁ hrun₁ hret₁
    have := (hstuck.run hrun₂).trans hret₁
    simp [hret₂] at this
  · intro hn p' hrun hret
    obtain hlt | ⟨-, c, hcall, ht⟩ := tidy_run hinv hnone hn hrun
    · rw [hret] at hlt
      omega
    · rw [← hret]
      exact ht.exists_returned ((hinv.step (.start n hnone)).run hrun) hcall

theorem canReturn_iff_init : ¬ ∀ p', Runs (init.setCall { nUrls := 61 }) p' → p'.returned = [] →
    ∃ p'' r, Runs p' p'' ∧ p''.returned = [r] :=
  (canReturn_iff (p := init) .refl rfl).not.2 (by decide)

end VisitGroup

end CaptureHpc
