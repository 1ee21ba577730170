import DeepSecurity.Cloudserver.Jobs

/-!
# Proofs: no job is lost

What the two stores and the files say about a job follows from how far its handler has come
(`Described`). A job that is taken off the queue after its handler has returned is therefore passed
on; one that is taken off earlier is not.
-/

namespace Cloudserver

open FileTree Trace

namespace Server

variable {site : Site} {s t : Server} {i j n : ℕ} {h : Handler}

/-! ## What a handler does in a step -/

/-- The steps of the handler `h` of job `i`. -/
inductive HandlerStep (site : Site) (s : Server) (i : ℕ) (h : Handler) : Server → Prop where
  | addJobQueue : h.pc = .addJobQueue →
      HandlerStep site s i h ({ s with redis := s.redis.addJobQueue i }.goto i h .addHistoryQueue)
  | addHistoryQueue : h.pc = .addHistoryQueue →
      HandlerStep site s i h ({ s with redis := s.redis.addHistoryQueue i }.goto i h .addInfo)
  | addInfo {info : Info} : h.pc = .addInfo → h.env.jobinfo h.jobType = some info →
      HandlerStep site s i h ({ s with redis := s.redis.addInfo i info }.goto i h (afterInfo h))
  | openFile {path : Path} : h.pc = .openFile → savePath site h.env = some path →
      HandlerStep site s i h ({ s with
        files := Function.update s.files path (some []), opened := s.opened ++ [path] }.goto i h
          (.write path 0))
  | write {path : Path} {offset : ℕ} (n : ℕ) : h.pc = .write path offset →
      HandlerStep site s i h (s.writeChunk i h path offset n)
  | raise : h.pc = .addInfo ∨ h.pc = .openFile → HandlerStep site s i h (s.goto i h .raised)

/-- The steps of the server. -/
inductive StepTo (site : Site) (s : Server) : Action → Server → Prop where
  | ignored (env : Environ) : StepTo site s (.request env) s
  | accepted {env : Environ} {jobType : JobType} : env.jobType = some jobType →
      StepTo site s (.request env)
        { s with handlers := s.handlers ++ [⟨env, jobType, .addJobQueue⟩] }
  | idle (i n : ℕ) : StepTo site s (.handler i n) s
  | handled {i n : ℕ} {h : Handler} {t : Server} : s.handlers[i]? = some h →
      HandlerStep site s i h t → StepTo site s (.handler i n) t
  | popped : s.sender = .removeJobQueue →
      StepTo site s .sender { s with
        redis := { s.redis with job := s.redis.job.tail }
        sender := .getInfo s.redis.job.head?
        popped := s.popped ++ s.redis.job.head?.toList }
  | looked {jobid : Option ℕ} : s.sender = .getInfo jobid →
      StepTo site s .sender { s with sender := .dispatch jobid (s.redis.getInfo jobid) }
  | skipped {jobid : Option ℕ} : s.sender = .dispatch jobid [] →
      StepTo site s .sender { s with sender := .removeJobQueue }
  | crashed {jobid : Option ℕ} {info : Info} : s.sender = .dispatch jobid info → info ≠ [] →
      s.post site info = none → StepTo site s .sender { s with sender := .died }
  | sent {jobid : Option ℕ} {info : Info} {post : Post} : s.sender = .dispatch jobid info →
      s.post site info = some post →
      StepTo site s .sender { s with sender := .removeJobQueue, sent := s.sent ++ [⟨jobid, post⟩] }
  | dead : s.sender = .died → StepTo site s .sender s

theorem handle_cases (site : Site) (s : Server) (i n : ℕ) :
    StepTo site s (.handler i n) (s.handle site i n) := by
  unfold handle
  rcases hi : s.handlers[i]? with _ | h
  · exact .idle i n
  simp only
  rcases hpc : h.pc with _ | _ | _ | _ | ⟨path, offset⟩ | _ | _
  · exact .handled hi (.addJobQueue hpc)
  · exact .handled hi (.addHistoryQueue hpc)
  · refine .handled hi ?_
    rcases hinfo : h.env.jobinfo h.jobType with _ | info
    · exact .raise (Or.inl hpc)
    · exact .addInfo hpc hinfo
  · refine .handled hi ?_
    rcases hpath : savePath site h.env with _ | path
    · exact .raise (Or.inr hpc)
    · exact .openFile hpc hpath
  · exact .handled hi (.write n hpc)
  · exact .idle i n
  · exact .idle i n

theorem send_cases (site : Site) (s : Server) : StepTo site s .sender (s.send site) := by
  unfold send
  rcases hsender : s.sender with _ | jobid | ⟨jobid, info⟩ | _
  · exact .popped hsender
  · exact .looked hsender
  · simp only
    split_ifs with hinfo
    · rcases hpost : s.post site info with _ | post
      · exact .crashed hsender hinfo hpost
      · exact .sent hsender hpost
    · obtain rfl := not_not.mp hinfo
      exact .skipped hsender
  · exact .dead hsender

theorem step_cases (site : Site) (s : Server) (a : Action) : StepTo site s a (s.step site a) := by
  cases a with
  | request env =>
    show StepTo site s (.request env) (s.request env)
    unfold request
    rcases htype : env.jobType with _ | jobType
    · exact .ignored env
    · exact .accepted htype
  | handler i n => exact handle_cases site s i n
  | sender => exact send_cases site s

/-- A piece of the body has been written: either it was the last one or it was not. -/
theorem writeChunk_cases (s : Server) (i n : ℕ) (h : Handler) (path : Path) (offset : ℕ) :
    let content := writeAt ((s.files path).getD []) offset ((h.env.body.drop offset).take n)
    let files := Function.update s.files path (some content)
    (offset + ((h.env.body.drop offset).take n).length = h.env.body.length ∧
      s.writeChunk i h path offset n =
        { s with files, saved := s.saved ++ [i] }.goto i h .returned) ∨
    s.writeChunk i h path offset n = { s with files }.goto i h
      (.write path (offset + ((h.env.body.drop offset).take n).length)) := by
  simp only [writeChunk]
  split_ifs with hend
  · exact Or.inl ⟨hend, rfl⟩
  · exact Or.inr rfl

/-! ## How far a handler has come -/

theorem jobinfo_ne_nil {env : Environ} {jobType : JobType} {info : Info}
    (h : env.jobinfo jobType = some info) : info ≠ [] := by
  rintro rfl
  cases jobType with
  | file =>
    simp only [Environ.jobinfo, Option.bind_eq_bind, Option.bind_eq_some_iff] at h
    obtain ⟨_, -, _, -, h⟩ := h
    cases h
  | url =>
    simp only [Environ.jobinfo, Option.bind_eq_bind, Option.bind_eq_some_iff] at h
    obtain ⟨_, -, h⟩ := h
    cases h

/-- The description of a job, whether its file has been written, and the files, as the handler of the
job has left them. -/
structure Described (site : Site) (info : Info) (saved : Prop) (files : Path → Option Bytes)
    (h : Handler) : Prop where
  early : h.pc = .addJobQueue ∨ h.pc = .addHistoryQueue ∨ h.pc = .addInfo → info = []
  info_eq : info ≠ [] → h.env.jobinfo h.jobType = some info
  url : h.jobType = .url → info ≠ [] → h.pc = .returned
  opening : h.pc = .openFile → info ≠ []
  writing : ∀ path offset, h.pc = .write path offset →
    info ≠ [] ∧ savePath site h.env = some path ∧ (files path).isSome
  returned : h.pc = .returned → info ≠ [] ∧ (h.jobType = .file → saved)
  of_saved : saved → h.pc = .returned ∧ ∃ path, savePath site h.env = some path ∧ (files path).isSome

theorem Described.mono {info : Info} {saved : Prop} {files files' : Path → Option Bytes}
    (hd : Described site info saved files h)
    (hfiles : ∀ path, (files path).isSome → (files' path).isSome) :
    Described site info saved files' h where
  early := hd.early
  info_eq := hd.info_eq
  url := hd.url
  opening := hd.opening
  writing path offset hpc := by
    obtain ⟨hinfo, hpath, hsome⟩ := hd.writing path offset hpc
    exact ⟨hinfo, hpath, hfiles path hsome⟩
  returned := hd.returned
  of_saved hs := by
    obtain ⟨hpc, path, hpath, hsome⟩ := hd.of_saved hs
    exact ⟨hpc, path, hpath, hfiles path hsome⟩

/-- Every handler has left its traces, and there are no others. -/
structure Consistent (site : Site) (s : Server) : Prop where
  described : ∀ i h, s.handlers[i]? = some h →
    Described site (s.redis.hash i) (i ∈ s.saved) s.files h
  fresh : ∀ i, s.handlers.length ≤ i → s.redis.hash i = [] ∧ i ∉ s.saved

theorem consistent_start (files : Path → Option Bytes) : Consistent site (start files) where
  described i h hi := by simp [start] at hi
  fresh i _ := by simp [start, Redis.empty]

/-- A description belongs to a handler, whose traces it is one of. -/
theorem Consistent.handler_of_info (hc : Consistent site s) (hinfo : s.redis.hash i ≠ []) :
    ∃ h, s.handlers[i]? = some h ∧
      Described site (s.redis.hash i) (i ∈ s.saved) s.files h := by
  rcases hi : s.handlers[i]? with _ | h
  · exact absurd (hc.fresh i (List.getElem?_eq_none_iff.mp hi)).1 hinfo
  · exact ⟨h, rfl, hc.described i h hi⟩

/-- A step that leaves the traces of all handlers but one alone, and no file away. -/
theorem Consistent.update (hc : Consistent site s) (hi : s.handlers[i]? = some h) {h' : Handler}
    (hhandlers : t.handlers = s.handlers.set i h')
    (hhash : ∀ k, k ≠ i → t.redis.hash k = s.redis.hash k)
    (hsaved : ∀ k, k ≠ i → (k ∈ t.saved ↔ k ∈ s.saved))
    (hfiles : ∀ path, (s.files path).isSome → (t.files path).isSome)
    (hd : Described site (t.redis.hash i) (i ∈ t.saved) t.files h') : Consistent site t where
  described k g hk := by
    rw [hhandlers, List.getElem?_set] at hk
    split_ifs at hk with hik hlen
    · obtain rfl := Option.some.inj hk
      exact hik ▸ hd
    · have hk' := (hc.described k g hk).mono hfiles
      rwa [hhash k (Ne.symm hik), propext (hsaved k (Ne.symm hik))]
  fresh k hk := by
    rw [hhandlers, List.length_set] at hk
    have hik : k ≠ i := by
      rintro rfl
      rw [List.getElem?_eq_none hk] at hi
      cases hi
    obtain ⟨hinfo, hs⟩ := hc.fresh k hk
    exact ⟨(hhash k hik).trans hinfo, fun h => hs ((hsaved k hik).mp h)⟩

theorem addInfo_self {r : Redis} {info : Info} (h : r.hash i = []) :
    (r.addInfo i info).hash i = info := by
  simp [Redis.addInfo, h]

theorem addInfo_of_ne {r : Redis} {info : Info} (h : j ≠ i) :
    (r.addInfo i info).hash j = r.hash j := by
  simp [Redis.addInfo, Function.update_of_ne h]

theorem isSome_update {files : Path → Option Bytes} {path : Path} {content : Bytes} (p : Path)
    (h : (files p).isSome) : (Function.update files path (some content) p).isSome := by
  by_cases hp : p = path
  · rw [hp, Function.update_self]
    rfl
  · rwa [Function.update_of_ne hp]

theorem consistent_handlerStep (hc : Consistent site s) (hi : s.handlers[i]? = some h)
    (hstep : HandlerStep site s i h t) : Consistent site t := by
  have hd := hc.described i h hi
  have hunsaved : h.pc ≠ .returned → i ∉ s.saved := fun hpc hs => hpc (hd.of_saved hs).1
  cases hstep with
  | addJobQueue hpc =>
    refine hc.update hi rfl (fun _ _ => rfl) (fun _ _ => Iff.rfl) (fun _ => id) ?_
    have hinfo := hd.early (Or.inl hpc)
    have hs := hunsaved (by simp [hpc])
    constructor <;> simp_all [Redis.addJobQueue, goto]
  | addHistoryQueue hpc =>
    refine hc.update hi rfl (fun _ _ => rfl) (fun _ _ => Iff.rfl) (fun _ => id) ?_
    have hinfo := hd.early (Or.inr (Or.inl hpc))
    have hs := hunsaved (by simp [hpc])
    constructor <;> simp_all [Redis.addHistoryQueue, goto]
  | @addInfo info hpc hjob =>
    refine hc.update hi rfl (fun _ hk => addInfo_of_ne hk) (fun _ _ => Iff.rfl) (fun _ => id) ?_
    have hinfo : (s.redis.addInfo i info).hash i = info :=
      addInfo_self (hd.early (Or.inr (Or.inr hpc)))
    have hs := hunsaved (by simp [hpc])
    have hne := jobinfo_ne_nil hjob
    rcases htype : h.jobType with _ | _
    · by_cases hx : h.env.httpXFiles.isSome
      · constructor <;> simp_all [goto, afterInfo]
      · constructor <;> simp_all [goto, afterInfo]
    · constructor <;> simp_all [goto, afterInfo]
  | @openFile path hpc hpath =>
    refine hc.update hi rfl (fun _ _ => rfl) (fun _ _ => Iff.rfl) isSome_update ?_
    have hinfo := hd.opening hpc
    have hjob := hd.info_eq hinfo
    have hurl := hd.url
    have hs := hunsaved (by simp [hpc])
    constructor <;> simp_all [goto]
  | @write path offset n hpc =>
    obtain ⟨hinfo, hpath, hsome⟩ := hd.writing path offset hpc
    have hjob := hd.info_eq hinfo
    have hurl := hd.url
    have hs := hunsaved (by simp [hpc])
    rcases writeChunk_cases s i n h path offset with ⟨-, heq⟩ | heq
    · rw [heq]
      refine hc.update hi rfl (fun _ _ => rfl) (fun k hk => ?_) isSome_update ?_
      · simp [goto, hk]
      · constructor <;> simp_all [goto]
    · rw [heq]
      refine hc.update hi rfl (fun _ _ => rfl) (fun _ _ => Iff.rfl) isSome_update ?_
      constructor <;> simp_all [goto]
  | raise hpc =>
    refine hc.update hi rfl (fun _ _ => rfl) (fun _ _ => Iff.rfl) (fun _ => id) ?_
    have hs := hunsaved (by rcases hpc with hpc | hpc <;> simp [hpc])
    have hurl : h.jobType = .url → s.redis.hash i = [] := by
      intro htype
      by_contra hinfo
      have := hd.url htype hinfo
      rcases hpc with hpc | hpc <;> simp [hpc] at this
    have hjob := hd.info_eq
    constructor <;> simp_all [goto]

theorem Consistent.step (hc : Consistent site s) {a : Action} (hstep : StepTo site s a t) :
    Consistent site t := by
  cases hstep with
  | @accepted env jobType htype =>
    refine ⟨fun k g hk => ?_, fun k hk => hc.fresh k ?_⟩
    · rcases Nat.lt_or_ge k s.handlers.length with hlt | hge
      · rw [List.getElem?_append_left hlt] at hk
        exact hc.described k g hk
      · obtain ⟨hinfo, hs⟩ := hc.fresh k hge
        rw [List.getElem?_append_right hge, List.getElem?_singleton] at hk
        split_ifs at hk
        obtain rfl := Option.some.inj hk
        constructor <;> simp_all
    · simp only [List.length_append, List.length_singleton] at hk
      omega
  | handled hi hstep => exact consistent_handlerStep hc hi hstep
  | ignored => exact hc
  | idle => exact hc
  -- the sender leaves the descriptions and the files alone
  | popped => exact ⟨hc.described, hc.fresh⟩
  | looked => exact ⟨hc.described, hc.fresh⟩
  | skipped => exact ⟨hc.described, hc.fresh⟩
  | crashed => exact ⟨hc.described, hc.fresh⟩
  | sent => exact ⟨hc.described, hc.fresh⟩
  | dead => exact hc

/-! ## Jobs in the hands of the sender -/

/-- What the handlers do leaves the descriptions that exist, the files that have been written, and the
sender alone. -/
structure Keeps (s t : Server) : Prop where
  sender_eq : t.sender = s.sender
  sent_eq : t.sent = s.sent
  popped_eq : t.popped = s.popped
  hash_eq : ∀ j, s.redis.hash j ≠ [] → t.redis.hash j = s.redis.hash j
  saved_sub : s.saved ⊆ t.saved

theorem keeps_handlerStep (hc : Consistent site s) (hi : s.handlers[i]? = some h)
    (hstep : HandlerStep site s i h t) : Keeps s t := by
  cases hstep with
  | addJobQueue => exact ⟨rfl, rfl, rfl, fun _ _ => rfl, List.Subset.refl _⟩
  | addHistoryQueue => exact ⟨rfl, rfl, rfl, fun _ _ => rfl, List.Subset.refl _⟩
  | addInfo hpc =>
    refine ⟨rfl, rfl, rfl, fun j hj => addInfo_of_ne ?_, List.Subset.refl _⟩
    rintro rfl
    exact hj ((hc.described j h hi).early (Or.inr (Or.inr hpc)))
  | openFile => exact ⟨rfl, rfl, rfl, fun _ _ => rfl, List.Subset.refl _⟩
  | @write path offset n =>
    rcases writeChunk_cases s i n h path offset with ⟨-, heq⟩ | heq
    · rw [heq]
      exact ⟨rfl, rfl, rfl, fun _ _ => rfl, List.subset_append_left _ _⟩
    · rw [heq]
      exact ⟨rfl, rfl, rfl, fun _ _ => rfl, List.Subset.refl _⟩
  | raise => exact ⟨rfl, rfl, rfl, fun _ _ => rfl, List.Subset.refl _⟩

theorem savePath_eq_some {env : Environ} {path : Path} (h : savePath site env = some path) :
    ∃ filename, env.httpFilename = some filename ∧
      resolve site.isDir (filepath filename) = some path := by
  simp only [savePath, Option.bind_eq_bind, Option.bind_eq_some_iff, Option.ite_none_right_eq_some,
    Option.some.injEq] at h
  obtain ⟨_, -, filename, hname, path, hpath, -, rfl⟩ := h
  exact ⟨filename, hname, hpath⟩

/-- Nothing is sent for a job without a description. -/
theorem post_nil : s.post site [] = none := rfl

/-- For a file job the file is read that its handler has written. -/
theorem post_file {env : Environ} {info : Info} {path : Path} (hinfo : env.jobinfo .file = some info)
    (hpath : savePath site env = some path) :
    ∃ filename, s.post site info =
      (s.files path).map fun content => sendFileToCaptureAgent site content filename := by
  obtain ⟨filename, hname, hresolve⟩ := savePath_eq_some hpath
  simp only [Environ.jobinfo, hname, Option.bind_eq_bind, Option.bind_eq_some_iff,
    Option.some.injEq] at hinfo
  obtain ⟨_, rfl, sha1sum, -, hinfo⟩ := hinfo
  cases hinfo
  refine ⟨filename, ?_⟩
  show (do
    let path ← resolve site.isDir (filepath filename)
    let content ← s.files path
    return sendFileToCaptureAgent site content filename) = _
  rw [hresolve, Option.bind_eq_bind, Option.bind_some]
  cases s.files path with
  | none => rfl
  | some content => rfl

theorem post_url {env : Environ} {info : Info} (hinfo : env.jobinfo .url = some info) :
    ∃ uri, s.post site info = some (.url uri) := by
  simp only [Environ.jobinfo, Option.bind_eq_bind, Option.bind_eq_some_iff] at hinfo
  obtain ⟨url, -, hinfo⟩ := hinfo
  cases hinfo
  exact ⟨_, rfl⟩

/-- The description of a job says what its type is. -/
theorem lookup_jobType {env : Environ} {jobType : JobType} {info : Info}
    (hinfo : env.jobinfo jobType = some info) :
    info.lookup .jobType = some "file".toList ↔ jobType = .file := by
  cases jobType with
  | file =>
    simp only [Environ.jobinfo, Option.bind_eq_bind, Option.bind_eq_some_iff] at hinfo
    obtain ⟨_, -, _, -, hinfo⟩ := hinfo
    cases hinfo
    exact iff_of_true rfl rfl
  | url =>
    simp only [Environ.jobinfo, Option.bind_eq_bind, Option.bind_eq_some_iff] at hinfo
    obtain ⟨url, -, hinfo⟩ := hinfo
    cases hinfo
    refine iff_of_false ?_ (by simp)
    show ¬ some "url".toList = some "file".toList
    decide

/-- No job has been lost, and the sender knows what Redis says about the job in its hands. -/
structure JobInv (site : Site) (s : Server) : Prop where
  consistent : Consistent site s
  noJobLost : NoJobLost s
  known : ∀ jobid info, s.sender = .dispatch jobid info → info = s.redis.getInfo jobid

theorem jobInv_start (files : Path → Option Bytes) : JobInv site (start files) where
  consistent := consistent_start files
  noJobLost := by constructor <;> simp [start, inHand]
  known jobid info h := by simp [start] at h

/-- The job in the hands of the sender has been taken off the queue. -/
theorem NoJobLost.mem_popped (hn : NoJobLost s) (h : some j ∈ s.inHand) : j ∈ s.popped := by
  have hmem : some j ∈ s.popped.map some := hn.dispatched ▸ List.mem_append_right _ h
  simpa using hmem

theorem JobInv.keeps (hinv : JobInv site s) (hc : Consistent site t) (hk : Keeps s t) :
    JobInv site t := by
  obtain ⟨-, hn, hknown⟩ := hinv
  have hinfo : ∀ j ∈ s.popped, t.redis.getInfo (some j) = s.redis.getInfo (some j) :=
    fun j hj => hk.hash_eq j (hn.described j hj)
  refine ⟨hc, ⟨?_, ?_, ?_, ?_⟩, ?_⟩
  · rw [hk.sender_eq]
    exact hn.alive
  · have hhand : t.inHand = s.inHand := by
      unfold inHand
      rw [hk.sender_eq]
    rw [hk.sent_eq, hhand, hk.popped_eq]
    exact hn.dispatched
  · intro j hj
    rw [hk.popped_eq] at hj
    rw [hinfo j hj]
    exact hn.described j hj
  · intro j hj hfile
    rw [hk.popped_eq] at hj
    rw [hinfo j hj] at hfile
    exact hk.saved_sub (hn.written j hj hfile)
  · intro jobid info hsender
    rw [hk.sender_eq] at hsender
    rw [hknown jobid info hsender]
    cases jobid with
    | none => rfl
    | some j =>
      have hhand : some j ∈ s.inHand := by simp [inHand, hsender]
      exact (hinfo j (hn.mem_popped hhand)).symm

/-- A job in the hands of the sender can be passed on. -/
theorem JobInv.post_isSome (hinv : JobInv site s) (hj : j ∈ s.popped) :
    ∃ post, s.post site (s.redis.hash j) = some post := by
  obtain ⟨hc, hn, -⟩ := hinv
  have hne := hn.described j hj
  obtain ⟨h, -, hd⟩ := hc.handler_of_info hne
  have hinfo := hd.info_eq hne
  rcases htype : h.jobType with _ | _
  · rw [htype] at hinfo
    obtain ⟨-, path, hpath, hsome⟩ := hd.of_saved (hn.written j hj ((lookup_jobType hinfo).mpr rfl))
    obtain ⟨content, hcontent⟩ := Option.isSome_iff_exists.mp hsome
    obtain ⟨filename, hpost⟩ := post_file hinfo hpath
    rw [hcontent] at hpost
    exact ⟨_, hpost⟩
  · rw [htype] at hinfo
    obtain ⟨uri, hpost⟩ := post_url hinfo
    exact ⟨_, hpost⟩

/-- The stores and the files show whether a handler has returned. -/
theorem Consistent.returned_iff (hc : Consistent site s) : s.Returned j ↔ s.redis.hash j ≠ [] ∧
    ((s.redis.hash j).lookup .jobType = some "file".toList → j ∈ s.saved) := by
  constructor
  · intro hj
    obtain ⟨h, hh, hpc⟩ := Option.map_eq_some_iff.mp hj
    have hd := hc.described j h hh
    obtain ⟨hne, hsaved⟩ := hd.returned hpc
    exact ⟨hne, fun hfile => hsaved ((lookup_jobType (hd.info_eq hne)).mp hfile)⟩
  · rintro ⟨hne, hsaved⟩
    obtain ⟨h, hh, hd⟩ := hc.handler_of_info hne
    refine Option.map_eq_some_iff.mpr ⟨h, hh, ?_⟩
    rcases htype : h.jobType with _ | _
    · exact (hd.of_saved (hsaved ((lookup_jobType (hd.info_eq hne)).mpr htype))).1
    · exact hd.url htype hne

theorem JobInv.step (hinv : JobInv site s) {a : Action} (hstep : StepTo site s a t)
    (hsafe : s.PopsReturned a) : JobInv site t := by
  have hc := hinv.consistent.step hstep
  cases hstep with
  | ignored => exact hinv
  | idle => exact hinv
  | dead => exact hinv
  | accepted => exact hinv.keeps hc ⟨rfl, rfl, rfl, fun _ _ => rfl, List.Subset.refl _⟩
  | handled hi hstep => exact hinv.keeps hc (keeps_handlerStep hinv.consistent hi hstep)
  | popped hsender =>
    obtain ⟨hc₀, hn, hknown⟩ := hinv
    have hready : ∀ j ∈ s.popped ++ s.redis.job.head?.toList, s.redis.hash j ≠ [] ∧
        ((s.redis.hash j).lookup .jobType = some "file".toList → j ∈ s.saved) := by
      intro j hj
      rcases List.mem_append.mp hj with hj | hj
      · exact ⟨hn.described j hj, hn.written j hj⟩
      · exact hc₀.returned_iff.mp (hsafe hsender j (Option.mem_toList.mp hj))
    refine ⟨hc, ⟨by simp, ?_, fun j hj => (hready j hj).1, fun j hj => (hready j hj).2⟩, by simp⟩
    have hdispatched := hn.dispatched
    simp only [inHand, hsender, List.append_nil] at hdispatched
    cases s.redis.job.head? with
    | none => simpa [inHand] using hdispatched
    | some j => simpa [inHand] using hdispatched
  | @looked jobid hsender =>
    obtain ⟨-, hn, -⟩ := hinv
    refine ⟨hc, ⟨by simp, ?_, hn.described, hn.written⟩, ?_⟩
    · have hdispatched := hn.dispatched
      simp only [inHand, hsender] at hdispatched
      cases jobid with
      | none => exact hdispatched
      | some j => exact hdispatched
    · rintro _ _ ⟨⟩
      rfl
  | @skipped jobid hsender =>
    obtain ⟨-, hn, hknown⟩ := hinv
    refine ⟨hc, ⟨by simp, ?_, hn.described, hn.written⟩, by simp⟩
    have hdispatched := hn.dispatched
    simp only [inHand, hsender] at hdispatched
    cases jobid with
    | none => exact hdispatched
    | some j =>
      -- a job that has been taken off the queue has a description
      have hj : j ∈ s.popped := hn.mem_popped (by simp [inHand, hsender])
      exact absurd (hknown _ _ hsender).symm (hn.described j hj)
  | @crashed jobid info hsender hinfo hpost =>
    cases jobid with
    | none => exact absurd (hinv.known _ _ hsender) hinfo
    | some j =>
      have hj : j ∈ s.popped := hinv.noJobLost.mem_popped (by simp [inHand, hsender])
      obtain ⟨post, hsome⟩ := hinv.post_isSome hj
      rw [hinv.known _ _ hsender] at hpost
      exact absurd (hpost.symm.trans hsome) (by simp)
  | @sent jobid info post hsender hpost =>
    obtain ⟨-, hn, hknown⟩ := hinv
    refine ⟨hc, ⟨by simp, ?_, hn.described, hn.written⟩, by simp⟩
    have hdispatched := hn.dispatched
    simp only [inHand, hsender] at hdispatched
    cases jobid with
    | none =>
      rw [hknown _ _ hsender] at hpost
      exact absurd (post_nil.symm.trans hpost) (by simp)
    | some j => simpa [inHand] using hdispatched

/-- If no job has been lost after a pop, the handler of the job had returned before. -/
theorem Consistent.returned_of_pop (hc : Consistent site s) (hsender : s.sender = .removeJobQueue)
    (hj : s.redis.job.head? = some j) (hn : NoJobLost (s.send site)) : s.Returned j := by
  unfold send at hn
  simp only [hsender, Redis.removeJobQueue] at hn
  have hmem : j ∈ s.popped ++ s.redis.job.head?.toList := by simp [hj]
  exact hc.returned_iff.mpr ⟨hn.described j hmem, hn.written j hmem⟩

theorem run_snoc (files : Path → Option Bytes) (actions : List Action) (a : Action) :
    run site files (actions ++ [a]) = (run site files actions).step site a := by
  simp [run]

/-- Jobs are not lost in exactly those runs in which the sender takes a job off the queue only after
the handler of the job has returned. -/
theorem noJobLost_iff_popsReturned (site : Site) (files : Path → Option Bytes)
    (actions : List Action) :
    Always (fun pre => NoJobLost (run site files pre)) actions ↔
      EachStep (fun pre a => (run site files pre).PopsReturned a) actions := by
  refine always_iff_eachStep (I := fun pre => JobInv site (run site files pre)) (jobInv_start files)
    ?_ (fun _ hinv => hinv.noJobLost) ?_ actions
  · intro pre a hinv hsafe
    rw [run_snoc]
    exact hinv.step (step_cases site _ a) hsafe
  · intro pre a hinv hsafe hn
    apply hsafe
    cases a with
    | request => trivial
    | handler => trivial
    | sender =>
      intro hsender j hj
      rw [run_snoc] at hn
      exact hinv.consistent.returned_of_pop hsender hj hn

/-- A server with the directory of the uploads and nothing else. -/
def plainSite : Site where
  isDir path := path <+: uploads
  writable _ := true
  magic _ := "data".toList

/-- The request that uploads a file. -/
def upload (filename : String) (body : Bytes) : Environ where
  requestMethod := "PUT".toList
  pathInfo := "/".toList
  httpXFiles := some []
  httpFilename := some filename.toList
  httpSha1sum := some []
  httpUrl := none
  contentLength := some body.length
  wsgiInput := body

/-- The sender takes the job right after it has been put into the queue, finds no description and goes
on; the handler then does its work for nothing. -/
theorem not_noJobLost_early_pop :
    let s := run plainSite (fun _ => none)
      ([.request (upload "a" [1]), .handler 0 0, .sender, .sender, .sender] ++
        List.replicate 4 (.handler 0 1))
    s.Returned 0 ∧ s.redis.job = [] ∧ s.sent = [] ∧ ¬ NoJobLost s := by
  refine ⟨by decide, by decide, by decide, fun h => absurd h.dispatched (by decide)⟩

end Server

end Cloudserver
