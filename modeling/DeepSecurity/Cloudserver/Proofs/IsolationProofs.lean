import DeepSecurity.Cloudserver.Proofs.JobProofs
import Mathlib.Data.List.Nodup

/-!
# Proofs: jobs do not see each other's files

Every job is in one place at a time (`Tracked`), and as long as its file has not been read, nobody else
writes to it (`Owned`).
-/

namespace Cloudserver

open FileTree Trace

namespace Server

variable {site : Site} {s t : Server} {i j : ℕ} {h h' : Handler} {a : Action}

/-! ## The way of a job -/

theorem HandlerStep.moved (hstep : HandlerStep site s i h t) :
    ∃ pc, t.handlers = s.handlers.set i { h with pc } ∧ pc ≠ .addJobQueue := by
  cases hstep with
  | addJobQueue => exact ⟨_, rfl, by simp⟩
  | addHistoryQueue => exact ⟨_, rfl, by simp⟩
  | addInfo =>
    refine ⟨_, rfl, ?_⟩
    unfold afterInfo
    cases h.jobType with
    | file => split_ifs <;> simp
    | url => simp
  | openFile => exact ⟨_, rfl, by simp⟩
  | @write path offset n =>
    rcases writeChunk_cases s i n h path offset with ⟨-, heq⟩ | heq
    · rw [heq]
      exact ⟨_, rfl, by simp⟩
    · rw [heq]
      exact ⟨_, rfl, by simp⟩
  | raise => exact ⟨_, rfl, by simp⟩

theorem HandlerStep.job_eq (hstep : HandlerStep site s i h t) :
    t.redis.job = s.redis.job ∨ h.pc = .addJobQueue ∧ t.redis.job = i :: s.redis.job := by
  cases hstep with
  | addJobQueue hpc => exact Or.inr ⟨hpc, rfl⟩
  | @write path offset n =>
    rcases writeChunk_cases s i n h path offset with ⟨-, heq⟩ | heq
    · exact Or.inl (congrArg (fun u => u.redis.job) heq)
    · exact Or.inl (congrArg (fun u => u.redis.job) heq)
  | addHistoryQueue => exact Or.inl rfl
  | addInfo => exact Or.inl rfl
  | openFile => exact Or.inl rfl
  | raise => exact Or.inl rfl

/-- A job is put into the queue once, and it is in the queue, in the hands of the sender or passed on. -/
structure Tracked (s : Server) : Prop where
  nodup : (s.redis.job ++ s.popped).Nodup
  started : ∀ j ∈ s.redis.job ++ s.popped, ∃ h, s.handlers[j]? = some h ∧ h.pc ≠ .addJobQueue
  hand_nodup : (s.sent.map Sent.jobid ++ s.inHand).Nodup
  hand_popped : ∀ j, some j ∈ s.sent.map Sent.jobid ++ s.inHand → j ∈ s.popped
  unknown : ∀ info, s.sender = .dispatch none info → info = []

theorem tracked_start (files : Path → Option Bytes) : Tracked (start files) := by
  constructor <;> simp [start, Redis.empty, inHand]

/-- A handler that has put its job into the queue goes on. -/
theorem Tracked.handlerStep (ht : Tracked s) (hk : Keeps s t) (hi : s.handlers[i]? = some h)
    (hstep : HandlerStep site s i h t) : Tracked t := by
  obtain ⟨pc, hhandlers, hpc⟩ := hstep.moved
  have hhand : t.inHand = s.inHand := by
    unfold inHand
    rw [hk.sender_eq]
  have hlt : i < s.handlers.length := (List.getElem?_eq_some_iff.mp hi).1
  have hself : t.handlers[i]? = some { h with pc } := by
    rw [hhandlers, List.getElem?_set_self hlt]
  have hstarted : ∀ j ∈ s.redis.job ++ s.popped,
      ∃ g, t.handlers[j]? = some g ∧ g.pc ≠ .addJobQueue := by
    intro j hj
    by_cases hij : i = j
    · exact ⟨_, hij ▸ hself, hpc⟩
    · rw [hhandlers, List.getElem?_set_ne hij]
      exact ht.started j hj
  refine ⟨?_, ?_, ?_, ?_, ?_⟩
  · rw [hk.popped_eq]
    rcases hstep.job_eq with hjob | ⟨hnew, hjob⟩
    · rw [hjob]
      exact ht.nodup
    · rw [hjob, List.cons_append, List.nodup_cons]
      refine ⟨fun hmem => ?_, ht.nodup⟩
      obtain ⟨g, hg, hne⟩ := ht.started i hmem
      obtain rfl := Option.some.inj (hi.symm.trans hg)
      exact hne hnew
  · rw [hk.popped_eq]
    rcases hstep.job_eq with hjob | ⟨-, hjob⟩
    · rw [hjob]
      exact hstarted
    · intro j hj
      rw [hjob, List.cons_append, List.mem_cons] at hj
      rcases hj with rfl | hj
      · exact ⟨_, hself, hpc⟩
      · exact hstarted j hj
  · rw [hk.sent_eq, hhand]
    exact ht.hand_nodup
  · rw [hk.sent_eq, hhand, hk.popped_eq]
    exact ht.hand_popped
  · rw [hk.sender_eq]
    exact ht.unknown

/-- Nothing but the sender's own state has changed. -/
theorem Tracked.sender (ht : Tracked s) {pc : SenderPc}
    (hhand : { s with sender := pc }.inHand = s.inHand ∨ { s with sender := pc }.inHand = [])
    (hpc : ∀ info, pc = .dispatch none info → info = []) : Tracked { s with sender := pc } := by
  refine ⟨ht.nodup, ht.started, ?_, ?_, hpc⟩
  · rcases hhand with hhand | hhand
    · rw [hhand]
      exact ht.hand_nodup
    · rw [hhand, List.append_nil]
      exact (List.nodup_append.mp ht.hand_nodup).1
  · intro j hj
    refine ht.hand_popped j ?_
    rcases hhand with hhand | hhand
    · rwa [hhand] at hj
    · rw [hhand, List.append_nil] at hj
      exact List.mem_append_left _ hj

theorem Tracked.step (hc : Consistent site s) (ht : Tracked s) (hstep : StepTo site s a t) :
    Tracked t := by
  cases hstep with
  | ignored => exact ht
  | idle => exact ht
  | dead => exact ht
  | accepted =>
    refine ⟨ht.nodup, fun j hj => ?_, ht.hand_nodup, ht.hand_popped, ht.unknown⟩
    obtain ⟨h, hh, hpc⟩ := ht.started j hj
    exact ⟨h, (List.getElem?_append_left (List.getElem?_eq_some_iff.mp hh).1).trans hh, hpc⟩
  | handled hi hstep => exact ht.handlerStep (keeps_handlerStep hc hi hstep) hi hstep
  | popped hsender =>
    have hnodup := ht.hand_nodup
    have hpopped := ht.hand_popped
    simp only [inHand, hsender, List.append_nil] at hnodup hpopped
    rcases hjob : s.redis.job with _ | ⟨j, rest⟩
    · exact ⟨by simpa [hjob] using ht.nodup, by simpa [hjob] using ht.started,
        by simpa [inHand] using hnodup, by simpa [inHand] using hpopped, by simp⟩
    · have hperm : (rest ++ (s.popped ++ [j])).Perm (s.redis.job ++ s.popped) := by
        rw [hjob, ← List.append_assoc]
        exact List.perm_append_singleton j (rest ++ s.popped)
      refine ⟨hperm.nodup_iff.mpr ht.nodup, fun k hk => ht.started k (hperm.mem_iff.mp hk), ?_, ?_,
        by simp⟩
      · have hfresh : j ∉ s.popped := by
          have hj := ht.nodup
          rw [hjob, List.cons_append, List.nodup_cons] at hj
          exact fun hmem => hj.1 (List.mem_append_right _ hmem)
        refine List.nodup_append.mpr ⟨hnodup, List.nodup_singleton _, fun a ha b hb hab => ?_⟩
        rw [List.mem_singleton.mp hb] at hab
        exact hfresh (hpopped j (hab ▸ ha))
      · intro k hk
        rcases List.mem_append.mp hk with hk | hk
        · exact List.mem_append_left _ (hpopped k hk)
        · obtain rfl := Option.some.inj (List.mem_singleton.mp hk)
          exact List.mem_append_right _ (List.mem_singleton_self _)
  | @looked jobid hsender =>
    refine ht.sender (Or.inl ?_) ?_
    · cases jobid <;> simp [inHand, hsender]
    · rintro info ⟨⟩
      rfl
  | skipped => exact ht.sender (Or.inr rfl) (by simp)
  | crashed => exact ht.sender (Or.inr rfl) (by simp)
  | @sent jobid info post hsender hpost =>
    cases jobid with
    | none =>
      rw [ht.unknown info hsender] at hpost
      exact absurd (post_nil.symm.trans hpost) (by simp)
    | some j =>
      have hnodup := ht.hand_nodup
      have hpopped := ht.hand_popped
      simp only [inHand, hsender] at hnodup hpopped
      refine ⟨ht.nodup, ht.started, ?_, ?_, by simp⟩
      · simpa [inHand] using hnodup
      · simpa [inHand] using hpopped

/-! ## The files of the jobs -/

/-- What a handler has written of its file. -/
def writtenPart (h : Handler) : Bytes :=
  match h.pc with
  | .write _ offset => h.env.body.take offset
  | _ => h.env.body

/-- As long as a job has not been passed on, its file is as its handler has left it. -/
structure Owned (site : Site) (s : Server) : Prop where
  content : ∀ k g path, s.handlers[k]? = some g → heldFile site g = some path → ¬ s.PassedOn k →
    s.files path = some (writtenPart g)
  apart : ∀ k k' g g' path, k ≠ k' → s.handlers[k]? = some g → s.handlers[k']? = some g' →
    heldFile site g = some path → heldFile site g' = some path → s.PassedOn k ∨ s.PassedOn k'
  offset : ∀ (k : ℕ) (g : Handler) path offset, s.handlers[k]? = some g →
    g.pc = .write path offset → offset ≤ g.env.body.length
  passed : ∀ k, s.PassedOn k → s.Returned k

theorem owned_start (files : Path → Option Bytes) : Owned site (start files) := by
  constructor <;> simp [start, PassedOn]

/-- A handler that has not returned has not been passed on. -/
theorem Owned.not_passedOn (ho : Owned site s) (hi : s.handlers[i]? = some h)
    (hpc : h.pc ≠ .returned) : ¬ s.PassedOn i := by
  intro hp
  obtain ⟨g, hg, hret⟩ := Option.map_eq_some_iff.mp (ho.passed i hp)
  obtain rfl := Option.some.inj (hi.symm.trans hg)
  exact hpc hret

/-- A step of one handler that leaves the files of the others alone. -/
theorem Owned.update (ho : Owned site s) (hi : s.handlers[i]? = some h) (hpc : h.pc ≠ .returned)
    (hhandlers : t.handlers = s.handlers.set i h') (hsent : t.sent = s.sent)
    (hothers : ∀ k g path, k ≠ i → s.handlers[k]? = some g → heldFile site g = some path →
      ¬ s.PassedOn k → t.files path = s.files path)
    (hcontent : ∀ path, heldFile site h' = some path → t.files path = some (writtenPart h'))
    (hfree : ∀ path, heldFile site h' = some path → ∀ k g, k ≠ i → s.handlers[k]? = some g →
      heldFile site g = some path → s.PassedOn k)
    (hoffset : ∀ path offset, h'.pc = .write path offset → offset ≤ h'.env.body.length) :
    Owned site t := by
  have hpassed : ∀ k, t.PassedOn k ↔ s.PassedOn k := by
    intro k
    unfold PassedOn
    rw [hsent]
  have hcases : ∀ k g, t.handlers[k]? = some g →
      (k = i ∧ g = h') ∨ (k ≠ i ∧ s.handlers[k]? = some g) := by
    intro k g hk
    rw [hhandlers, List.getElem?_set] at hk
    split_ifs at hk with hik hlt
    · exact Or.inl ⟨hik.symm, (Option.some.inj hk).symm⟩
    · exact Or.inr ⟨Ne.symm hik, hk⟩
  refine ⟨?_, ?_, ?_, ?_⟩
  · intro k g path hk hheld hnot
    rw [hpassed] at hnot
    rcases hcases k g hk with ⟨rfl, rfl⟩ | ⟨hne, hk⟩
    · exact hcontent path hheld
    · rw [hothers k g path hne hk hheld hnot]
      exact ho.content k g path hk hheld hnot
  · intro k k' g g' path hne hk hk' hheld hheld'
    rw [hpassed, hpassed]
    rcases hcases k g hk with ⟨rfl, rfl⟩ | ⟨hki, hk⟩
    · rcases hcases k' g' hk' with ⟨rfl, -⟩ | ⟨hki', hk'⟩
      · exact absurd rfl hne
      · exact Or.inr (hfree path hheld k' g' hki' hk' hheld')
    · rcases hcases k' g' hk' with ⟨rfl, rfl⟩ | ⟨-, hk'⟩
      · exact Or.inl (hfree path hheld' k g hki hk hheld)
      · exact ho.apart k k' g g' path hne hk hk' hheld hheld'
  · intro k g path offset hk hw
    rcases hcases k g hk with ⟨rfl, rfl⟩ | ⟨-, hk⟩
    · exact hoffset path offset hw
    · exact ho.offset k g path offset hk hw
  · intro k hk
    rw [hpassed] at hk
    have hki : i ≠ k := by
      rintro rfl
      exact ho.not_passedOn hi hpc hk
    unfold Returned
    rw [hhandlers, List.getElem?_set_ne hki]
    exact ho.passed k hk

/-- The step of a handler that opens no file and writes to none. -/
theorem Owned.goto (ho : Owned site s) (hi : s.handlers[i]? = some h) (hpc : h.pc ≠ .returned)
    (hhandlers : t.handlers = s.handlers.set i h') (hsent : t.sent = s.sent)
    (hfiles : t.files = s.files) (hheld : heldFile site h' = none) : Owned site t := by
  refine ho.update hi hpc hhandlers hsent (fun _ _ path _ _ _ _ => congrFun hfiles path)
    (fun path hp => ?_) (fun path hp => ?_) (fun path offset hw => ?_)
  · exact absurd (hheld.symm.trans hp) (by simp)
  · exact absurd (hheld.symm.trans hp) (by simp)
  · simp [heldFile, hw] at hheld

/-- The next piece of the body is appended to what is there. -/
theorem Owned.writeChunk (hc : Consistent site s) (ho : Owned site s) (hi : s.handlers[i]? = some h)
    {path : Path} {offset : ℕ} (n : ℕ) (hpc : h.pc = .write path offset) :
    Owned site (s.writeChunk i h path offset n) := by
  have hret : h.pc ≠ .returned := by simp [hpc]
  have hheld : heldFile site h = some path := by simp [heldFile, hpc]
  have hle := ho.offset i h path offset hi hpc
  obtain ⟨-, hpath, -⟩ := (hc.described i h hi).writing path offset hpc
  have hold : s.files path = some (h.env.body.take offset) := by
    rw [ho.content i h path hi hheld (ho.not_passedOn hi hret)]
    simp [writtenPart, hpc]
  -- the file of another job is another file
  have hne : ∀ k g, k ≠ i → s.handlers[k]? = some g → heldFile site g = some path → s.PassedOn k := by
    intro k g hk hg hheld'
    rcases ho.apart i k h g path (Ne.symm hk) hi hg hheld hheld' with hp | hp
    · exact absurd hp (ho.not_passedOn hi hret)
    · exact hp
  have hnew := writeAt_take h.env.body n hle
  have hothers : ∀ content k g p, k ≠ i → s.handlers[k]? = some g → heldFile site g = some p →
      ¬ s.PassedOn k → Function.update s.files path (some content) p = s.files p := by
    intro content k g p hk hg hheld' hnot
    refine Function.update_of_ne ?_ _ _
    rintro rfl
    exact hnot (hne k g hk hg hheld')
  rcases writeChunk_cases s i n h path offset with ⟨hend, heq⟩ | heq
  · rw [heq, hold]
    have hself : ∀ p, heldFile site { h with pc := .returned } = some p → p = path := by
      intro p hp
      simp only [heldFile, Option.ite_none_right_eq_some] at hp
      exact Option.some.inj (hp.2.symm.trans hpath)
    refine ho.update hi hret rfl rfl (hothers _) (fun p hp => ?_) (fun p hp => ?_) (by simp)
    · obtain rfl := hself p hp
      rw [List.length_take, List.length_drop] at hend
      simp only [Server.goto, Function.update_self, Option.getD_some, hnew, writtenPart]
      rw [List.take_of_length_le (by omega)]
    · obtain rfl := hself p hp
      exact hne
  · rw [heq, hold]
    refine ho.update hi hret rfl rfl (hothers _) (fun p hp => ?_) (fun p hp => ?_)
      (fun p o hw => ?_)
    · obtain rfl := Option.some.inj hp
      simp only [Server.goto, Function.update_self, Option.getD_some, hnew, writtenPart]
      rw [List.length_take, List.length_drop, Option.some.injEq, List.take_eq_take_iff]
      omega
    · obtain rfl := Option.some.inj hp
      exact hne
    · obtain ⟨-, rfl⟩ := HandlerPc.write.inj hw
      rw [List.length_take, List.length_drop]
      show _ ≤ h.env.body.length
      omega

theorem Owned.handlerStep (hc : Consistent site s) (ho : Owned site s) (hi : s.handlers[i]? = some h)
    (hfree : h.pc = .openFile → ∀ path ∈ savePath site h.env, s.FreeFor site i path)
    (hstep : HandlerStep site s i h t) : Owned site t := by
  cases hstep with
  | addJobQueue hpc => exact ho.goto hi (by simp [hpc]) rfl rfl rfl rfl
  | addHistoryQueue hpc => exact ho.goto hi (by simp [hpc]) rfl rfl rfl rfl
  | addInfo hpc =>
    refine ho.goto hi (by simp [hpc]) rfl rfl rfl ?_
    rcases htype : h.jobType with _ | _
    · by_cases hx : h.env.httpXFiles.isSome <;> simp [heldFile, afterInfo, htype, hx]
    · simp [heldFile, afterInfo, htype]
  | @openFile path hpc hpath =>
    obtain ⟨-, hothers⟩ := hfree hpc path hpath
    have hne : ∀ k g, k ≠ i → s.handlers[k]? = some g → heldFile site g = some path →
        s.PassedOn k := by
      intro k g hk hg hheld
      exact hothers k (List.getElem?_eq_some_iff.mp hg).1 hk (by rw [hg]; exact hheld)
    refine ho.update hi (by simp [hpc]) rfl rfl (fun k g p hk hg hheld hnot => ?_) (fun p hp => ?_)
      (fun p hp => ?_) (fun p o hw => ?_)
    · refine Function.update_of_ne ?_ _ _
      rintro rfl
      exact hnot (hne k g hk hg hheld)
    · obtain rfl := Option.some.inj hp
      simp [Server.goto, writtenPart]
    · obtain rfl := Option.some.inj hp
      exact hne
    · obtain ⟨-, rfl⟩ := HandlerPc.write.inj hw
      exact Nat.zero_le _
  | write n hpc => exact ho.writeChunk hc hi n hpc
  | raise hpc => exact ho.goto hi (by rcases hpc with hpc | hpc <;> simp [hpc]) rfl rfl rfl rfl

/-! ## Isolation -/

/-- The invariant of runs in which every job has a file of its own. -/
structure IsolationInv (site : Site) (s : Server) : Prop where
  consistent : Consistent site s
  tracked : Tracked s
  owned : Owned site s
  isolated : Isolated s
  known : ∀ j info, s.sender = .dispatch (some j) info → info ≠ [] → info = s.redis.hash j

theorem isolationInv_start (files : Path → Option Bytes) : IsolationInv site (start files) where
  consistent := consistent_start files
  tracked := tracked_start files
  owned := owned_start files
  isolated := by constructor <;> simp [start]
  known j info h := by simp [start] at h

/-- The requests do not change. -/
theorem Isolated.handlers (hiso : Isolated s) (hsent : t.sent = s.sent)
    (hhandlers : ∀ (j : ℕ) (h : Handler), s.handlers[j]? = some h →
      ∃ g : Handler, t.handlers[j]? = some g ∧ g.env = h.env)
    (hopened : ∀ path ∈ t.opened, path ∈ s.opened ∨ uploads <+: path) : Isolated t where
  bodies sent hmem content hcontent := by
    rw [hsent] at hmem
    obtain ⟨j, h, hj, hh, rfl⟩ := hiso.bodies sent hmem content hcontent
    obtain ⟨g, hg, henv⟩ := hhandlers j h hh
    exact ⟨j, g, hj, hg, by rw [henv]⟩
  inside path hmem := by
    rcases hopened path hmem with hmem | hin
    · exact hiso.inside path hmem
    · exact hin

theorem HandlerStep.opened (hstep : HandlerStep site s i h t)
    (hfree : h.pc = .openFile → ∀ path ∈ savePath site h.env, s.FreeFor site i path) :
    ∀ path ∈ t.opened, path ∈ s.opened ∨ uploads <+: path := by
  cases hstep with
  | @openFile path hpc hpath =>
    intro p hp
    rcases List.mem_append.mp hp with hp | hp
    · exact Or.inl hp
    · rw [List.mem_singleton.mp hp]
      exact Or.inr (hfree hpc path hpath).1
  | @write path offset n =>
    rcases writeChunk_cases s i n h path offset with ⟨-, heq⟩ | heq
    · rw [heq]
      exact fun p hp => Or.inl hp
    · rw [heq]
      exact fun p hp => Or.inl hp
  | addJobQueue => exact fun p hp => Or.inl hp
  | addHistoryQueue => exact fun p hp => Or.inl hp
  | addInfo => exact fun p hp => Or.inl hp
  | raise => exact fun p hp => Or.inl hp

theorem IsolationInv.handlerStep (hinv : IsolationInv site s) (hi : s.handlers[i]? = some h)
    (hfree : h.pc = .openFile → ∀ path ∈ savePath site h.env, s.FreeFor site i path)
    (hstep : HandlerStep site s i h t) : IsolationInv site t := by
  obtain ⟨hc, ht, ho, hiso, hknown⟩ := hinv
  have hk := keeps_handlerStep hc hi hstep
  refine ⟨consistent_handlerStep hc hi hstep, ht.handlerStep hk hi hstep,
    ho.handlerStep hc hi hfree hstep, hiso.handlers hk.sent_eq ?_ (hstep.opened hfree), ?_⟩
  · intro j g hg
    obtain ⟨pc, hhandlers, -⟩ := hstep.moved
    by_cases hij : i = j
    · subst hij
      obtain rfl := Option.some.inj (hi.symm.trans hg)
      refine ⟨{ h with pc }, ?_, rfl⟩
      rw [hhandlers, List.getElem?_set_self (List.getElem?_eq_some_iff.mp hi).1]
    · refine ⟨g, ?_, rfl⟩
      rw [hhandlers, List.getElem?_set_ne hij, hg]
  · intro j info hsender hne
    rw [hk.sender_eq] at hsender
    have hinfo := hknown j info hsender hne
    rw [hinfo] at hne ⊢
    exact (hk.hash_eq j hne).symm

/-- What the sender reads for the job in its hands is the body of the request. -/
theorem IsolationInv.post_body (hinv : IsolationInv site s) {info : Info} {post : Post}
    (hsender : s.sender = .dispatch (some j) info) (hpost : s.post site info = some post)
    (hreturned : info.lookup .jobType = some "file".toList → s.Returned j) :
    s.Returned j ∧ ∃ h, s.handlers[j]? = some h ∧
      ∀ content, post.body = some content → content = h.env.body := by
  obtain ⟨hc, ht, ho, -, hknown⟩ := hinv
  have hne : info ≠ [] := by
    rintro rfl
    exact absurd (post_nil.symm.trans hpost) (by simp)
  obtain rfl := hknown j info hsender hne
  obtain ⟨h, hh, hd⟩ := hc.handler_of_info hne
  have hinfo := hd.info_eq hne
  rcases htype : h.jobType with _ | _
  · rw [htype] at hinfo
    have hret := hreturned ((lookup_jobType hinfo).mpr rfl)
    refine ⟨hret, h, hh, fun content hcontent => ?_⟩
    obtain ⟨g, hg, hpc⟩ := Option.map_eq_some_iff.mp hret
    obtain rfl := Option.some.inj (hh.symm.trans hg)
    obtain ⟨-, path, hpath, -⟩ := hd.of_saved ((hd.returned hpc).2 htype)
    -- it has not been passed on, so its file is as it was written
    have hnot : ¬ s.PassedOn j := by
      intro hp
      have hnodup := ht.hand_nodup
      simp only [inHand, hsender] at hnodup
      exact (List.nodup_append.mp hnodup).2.2 _ hp _ (List.mem_singleton_self _) rfl
    have hfile := ho.content j h path hh (by simp [heldFile, hpc, htype, hpath]) hnot
    obtain ⟨filename, heq⟩ := post_file hinfo hpath
    rw [heq, hfile] at hpost
    obtain rfl := Option.some.inj hpost
    obtain rfl := Option.some.inj hcontent
    simp [writtenPart, hpc]
  · rw [htype] at hinfo
    refine ⟨Option.map_eq_some_iff.mpr ⟨h, hh, hd.url htype hne⟩, h, hh, fun content hcontent => ?_⟩
    obtain ⟨uri, heq⟩ := post_url hinfo
    obtain rfl := Option.some.inj (hpost.symm.trans heq)
    exact absurd hcontent (by simp [Post.body])

/-- A new handler has opened no file. -/
theorem Owned.accept (ho : Owned site s) (env : Environ) (jobType : JobType) :
    Owned site { s with handlers := s.handlers ++ [⟨env, jobType, .addJobQueue⟩] } := by
  have hcases : ∀ (k : ℕ) (g : Handler),
      (s.handlers ++ [⟨env, jobType, .addJobQueue⟩])[k]? = some g →
      s.handlers[k]? = some g ∨ g.pc = .addJobQueue := by
    intro k g hg
    rcases Nat.lt_or_ge k s.handlers.length with hlt | hge
    · rw [List.getElem?_append_left hlt] at hg
      exact Or.inl hg
    · rw [List.getElem?_append_right hge, List.getElem?_singleton] at hg
      split_ifs at hg
      obtain rfl := Option.some.inj hg
      exact Or.inr rfl
  have hheld : ∀ (k : ℕ) (g : Handler) path,
      (s.handlers ++ [⟨env, jobType, .addJobQueue⟩])[k]? = some g → heldFile site g = some path →
      s.handlers[k]? = some g := by
    intro k g path hg hp
    rcases hcases k g hg with hg | hpc
    · exact hg
    · simp [heldFile, hpc] at hp
  refine ⟨fun k g path hg hp => ho.content k g path (hheld k g path hg hp) hp,
    fun k k' g g' path hne hg hg' hp hp' => ho.apart k k' g g' path hne (hheld k g path hg hp)
      (hheld k' g' path hg' hp') hp hp', fun k g path offset hg hw => ?_, fun k hk => ?_⟩
  · exact ho.offset k g path offset (hheld k g path hg (by simp [heldFile, hw])) hw
  · obtain ⟨g, hg, hpc⟩ := Option.map_eq_some_iff.mp (ho.passed k hk)
    refine Option.map_eq_some_iff.mpr ⟨g, ?_, hpc⟩
    exact (List.getElem?_append_left (List.getElem?_eq_some_iff.mp hg).1).trans hg

/-- A job whose handler has returned is passed on. -/
theorem Owned.pass (ho : Owned site s) (hj : s.Returned j) (pc : SenderPc) (post : Post) :
    Owned site { s with sender := pc, sent := s.sent ++ [⟨some j, post⟩] } := by
  have hpassed : ∀ k, some k ∈ (s.sent ++ [Sent.mk (some j) post]).map Sent.jobid ↔
      s.PassedOn k ∨ k = j := by
    intro k
    simp [PassedOn]
  refine ⟨fun k g path hg hp hnot => ?_, fun k k' g g' path hne hg hg' hp hp' => ?_, ho.offset,
    fun k hk => ?_⟩
  · exact ho.content k g path hg hp fun h => hnot ((hpassed k).mpr (Or.inl h))
  · rcases ho.apart k k' g g' path hne hg hg' hp hp' with h | h
    · exact Or.inl ((hpassed k).mpr (Or.inl h))
    · exact Or.inr ((hpassed k').mpr (Or.inl h))
  · rcases (hpassed k).mp hk with h | rfl
    · exact ho.passed k h
    · exact hj

theorem IsolationInv.step (hinv : IsolationInv site s) (hstep : StepTo site s a t)
    (hsafe : s.OwnFile site a) : IsolationInv site t := by
  have hc := hinv.consistent.step hstep
  have ht := hinv.tracked.step hinv.consistent hstep
  have ho := hinv.owned
  have hiso := hinv.isolated
  cases hstep with
  | ignored => exact hinv
  | idle => exact hinv
  | dead => exact hinv
  | @accepted env jobType =>
    refine ⟨hc, ht, ho.accept env jobType, hiso.handlers rfl (fun k g hg => ⟨g, ?_, rfl⟩)
      fun _ hp => Or.inl hp, hinv.known⟩
    exact (List.getElem?_append_left (List.getElem?_eq_some_iff.mp hg).1).trans hg
  | @handled i n h t hi hstep => exact hinv.handlerStep hi (hsafe h hi) hstep
  -- the sender reads no file in these steps
  | popped => exact ⟨hc, ht, ⟨ho.1, ho.2, ho.3, ho.4⟩, ⟨hiso.1, hiso.2⟩, by simp⟩
  | looked =>
    refine ⟨hc, ht, ⟨ho.1, ho.2, ho.3, ho.4⟩, ⟨hiso.1, hiso.2⟩, ?_⟩
    rintro j _ ⟨⟩ -
    rfl
  | skipped => exact ⟨hc, ht, ⟨ho.1, ho.2, ho.3, ho.4⟩, ⟨hiso.1, hiso.2⟩, by simp⟩
  | crashed => exact ⟨hc, ht, ⟨ho.1, ho.2, ho.3, ho.4⟩, ⟨hiso.1, hiso.2⟩, by simp⟩
  | @sent jobid info post hsender hpost =>
    cases jobid with
    | none =>
      rw [hinv.tracked.unknown info hsender] at hpost
      exact absurd (post_nil.symm.trans hpost) (by simp)
    | some j =>
      have hdispatch : s.inDispatch = some (j, info) := by simp [inDispatch, hsender]
      obtain ⟨hret, h, hh, hbody⟩ := hinv.post_body hsender hpost (hsafe (j, info) hdispatch)
      refine ⟨hc, ht, ho.pass hret _ post, ⟨fun sent hmem content hcontent => ?_, hiso.inside⟩, by simp⟩
      rcases List.mem_append.mp hmem with hmem | hmem
      · exact hiso.bodies sent hmem content hcontent
      · obtain rfl := List.mem_singleton.mp hmem
        exact ⟨j, h, rfl, hh, hbody content hcontent⟩

/-- Jobs are isolated from each other in every run in which a file is opened for writing only inside
the directory of the uploads and not before all other jobs with the same file have been passed on, and
in which a file job is passed on only after its handler has returned. -/
theorem isolated_of_ownFile (site : Site) (files : Path → Option Bytes) (actions : List Action)
    (h : EachStep (fun pre a => (run site files pre).OwnFile site a) actions) :
    Always (fun pre => Isolated (run site files pre)) actions := by
  intro pre hpre
  refine (always_of_eachStep (I := fun pre => IsolationInv site (run site files pre))
    (isolationInv_start files) ?_ h pre hpre).isolated
  intro pre a hinv hsafe
  rw [run_snoc]
  exact hinv.step (step_cases site _ a) hsafe

/-- Two files that are uploaded at the same time, each in two pieces, and passed on. -/
theorem isolated_two_uploads :
    Always (fun pre => Isolated (run plainSite (fun _ => none) pre))
      ([.request (upload "a" [1, 2]), .request (upload "b" [3, 4])] ++
        (List.replicate 6 [.handler 0 1, .handler 1 1]).flatten ++ List.replicate 6 .sender) := by
  refine isolated_of_ownFile plainSite _ _ ?_
  decide

/-- Two requests with the same file name: both jobs are passed on with the body of the second one. -/
theorem not_isolated_same_name :
    let s := run plainSite (fun _ => none)
      ([.request (upload "a" [1]), .request (upload "a" [2])] ++
        List.replicate 5 (.handler 0 1) ++ List.replicate 5 (.handler 1 1) ++
        List.replicate 6 .sender)
    s.sent.map (fun sent => (sent.jobid, sent.post.body)) = [(some 1, some [2]), (some 0, some [2])] ∧
      ¬ Isolated s := by
  refine ⟨by decide, fun h => ?_⟩
  obtain ⟨j, g, hj, hg, hbody⟩ := h.bodies
    ⟨some 0, .file (some "/file//a".toList) "a".toList "data".toList [2]⟩ (by decide) [2] rfl
  obtain rfl := Option.some.inj hj
  obtain rfl := Option.some.inj hg
  exact absurd hbody (by decide)

-- a file name with `..` leads out of the directory of the uploads
example : (run plainSite (fun _ => none)
    (.request (upload "../a" [1]) :: List.replicate 5 (.handler 0 1))).opened =
    [["var".toList, "www".toList, "a".toList]] := by
  decide

/-- A name that is not a path and not the name of a directory is the name of a file in the directory of
the uploads. So requests with different names of this kind have different files. -/
theorem resolve_filepath_plain {name : Str} (hdirs : ∀ dir ∈ uploads.inits, site.isDir dir = true)
    (hslash : '/' ∉ name) (hname : name ≠ [] ∧ name ≠ ['.'] ∧ name ≠ ['.', '.'])
    (hfile : site.isDir (uploads ++ [name]) = false) :
    resolve site.isDir (filepath name) = some (uploads ++ [name]) := by
  have hsplit : (filepath name).splitOn '/' =
      [[], "var".toList, "www".toList, "tmp".toList, name] := by
    have hpath : filepath name = "/var/www/tmp".toList ++ '/' :: name := rfl
    rw [hpath, List.splitOn_append_cons_self, List.splitOn_eq_singleton hslash]
    rfl
  unfold resolve
  rw [hsplit]
  show walk site.isDir [] ["var".toList, "www".toList, "tmp".toList, name] = _
  rw [walk_dir (by decide) (hdirs _ (by decide)), walk_dir (by decide) (hdirs _ (by decide)),
    walk_dir (by decide) (hdirs _ (by decide))]
  exact walk_last hname hfile

end Server

end Cloudserver
