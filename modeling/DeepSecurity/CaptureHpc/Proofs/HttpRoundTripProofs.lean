import DeepSecurity.CaptureHpc.Proofs.HttpMethodProofs

/-!
# Requests that are written are read

The parser reports of a request what the request is, with any number of requests one after the other
and in any pieces.
-/

namespace CaptureHpc

namespace HttpParser

open Pieces

variable {q q' : Parser} {ch : UInt8} {l : Bytes}

/-! ## The request line -/

/-- The states within a path, a query or a fragment. -/
def pathStates : List State :=
  [.reqPath, .reqQueryStringStart, .reqQueryString, .reqFragmentStart, .reqFragment]

theorem parseUrlChar_path {s : State} (hs : s ∈ pathStates) (hc : 33 ≤ ch ∧ ch ≤ 126) :
    parseUrlChar s ch ∈ pathStates := by
  have h : ∀ s ∈ pathStates, ∀ c : UInt8, 33 ≤ c ∧ c ≤ 126 → parseUrlChar s c ∈ pathStates := by
    decide +kernel
  exact h s hs ch hc

theorem switch_path {r : ℕ} (hs : q.state ∈ pathStates) : switch q ch r = some (caseReqUrl q ch) := by
  unfold switch
  simp only [pathStates, List.mem_cons, List.not_mem_nil, or_false] at hs
  obtain hs | hs | hs | hs | hs := hs <;> rw [hs]

theorem path_part {s : State} (hs : s ∈ pathStates) : s.part = some .url ∧ s.parsingHeader = true ∧ s ≠ .dead := by
  revert s
  decide

theorem reads_path (hs : q.state ∈ pathStates) (hl : ∀ c ∈ l, 33 ≤ c ∧ c ≤ 126)
    (hn : q.nread + l.length ≤ maxHeaderSize) :
    ∃ s ∈ pathStates, Reads q l ((q.goto s).advance l.length) (l.map fun b => .piece .url [b]) := by
  induction l generalizing q with
  | nil => exact ⟨q.state, hs, .refl q⟩
  | cons b l ih =>
    have hlen : q.nread + (l.length + 1) ≤ maxHeaderSize := hn
    have hb := hl b List.mem_cons_self
    have hs₁ := parseUrlChar_path hs hb
    have hbyte : Reads q [b] ((q.goto (parseUrlChar q.state b)).advance 1) [.piece .url [b]] := by
      have hline : ∀ c : UInt8, 33 ≤ c ∧ c ≤ 126 → c ≠ chr ' ' ∧ isNewline c = false := by decide +kernel
      obtain ⟨hsp, hnl⟩ := hline b hb
      have hstep : switch (q.advance 1) b 1 =
          some { parser := (q.goto (parseUrlChar q.state b)).advance 1 } := by
        rw [switch_path (q := q.advance 1) hs, caseReqUrl, if_neg hsp, if_neg (by simp [hnl])]
        exact congrArg some (if_neg (path_part hs₁).2.2)
      have := Reads.headerPlain (q := q) rfl (path_part hs).2.1 (by omega) hstep
      rwa [(path_part hs).1] at this
    obtain ⟨s, hs₂, hrest⟩ := ih (q := (q.goto (parseUrlChar q.state b)).advance 1) hs₁
      (fun c hc => hl c (List.mem_cons_of_mem _ hc)) (by show q.nread + 1 + l.length ≤ _; omega)
    refine ⟨s, hs₂, ?_⟩
    rw [List.length_cons, Nat.add_comm, ← advance_advance]
    exact hbyte.trans hrest

theorem reads_slash (hs : q.state = .reqSpacesBeforeUrl) (hm : q.method ≠ .connect)
    (hn : q.nread < maxHeaderSize) :
    Reads q [chr '/'] ((q.goto .reqPath).advance 1) [.piece .url [], .piece .url [chr '/']] := by
  have hstep : switch (q.advance 1) (chr '/') 1 =
      some { parser := (q.goto .reqPath).advance 1, actions := [.mark .url] } := by
    rw [switch, show (q.advance 1).state = .reqSpacesBeforeUrl from hs]
    dsimp only
    rw [caseReqSpacesBeforeUrl, if_neg (by decide), if_neg (show (q.advance 1).method ≠ .connect from hm),
      show (q.advance 1).state = .reqSpacesBeforeUrl from hs]
    rfl
  have := Reads.headerStep (by rw [hs]; rfl) hn hstep rfl
  rwa [Step.reports, Step.part, hs] at this

theorem reads_targetEnd (hs : q.state ∈ pathStates) (hn : q.nread < maxHeaderSize) :
    Reads q [chr ' '] ((q.goto .reqHttpStart).advance 1) [] := by
  have hstep : switch (q.advance 1) (chr ' ') 1 =
      some (reporting ((q.goto .reqHttpStart).advance 1) .url) := by
    rw [switch_path (q := q.advance 1) hs, caseReqUrl, if_pos rfl]
    rfl
  have := Reads.headerStep (path_part hs).2.1 hn hstep rfl
  rwa [Step.reports, Step.part, (path_part hs).1] at this

/-- The target with the space after it. -/
theorem parses_target {path : Bytes} (hs : q.state = .reqSpacesBeforeUrl) (hm : q.method ≠ .connect)
    (hp : ∀ c ∈ path, 33 ≤ c ∧ c ≤ 126) (hn : q.nread + path.length + 2 ≤ maxHeaderSize) :
    Parses q (chr '/' :: path ++ [chr ' ']) ((q.goto .reqHttpStart).advance (path.length + 2))
      [.piece .url (chr '/' :: path)] := by
  have h₁ := reads_slash hs hm (by omega)
  obtain ⟨s, hs₂, h₂⟩ := reads_path (q := (q.goto .reqPath).advance 1) (l := path) (by simp [pathStates, Parser.goto, Parser.advance]) hp
    (by show q.nread + 1 + path.length ≤ _; omega)
  have h₃ := reads_targetEnd (q := (((q.goto .reqPath).advance 1).goto s).advance path.length) hs₂
    (by show q.nread + 1 + path.length < _; omega)
  refine ((h₁.parses_part h₂).trans h₃.parses).of_eq (eq_of_nread ?_ rfl)
  show q.nread + 1 + path.length + 1 = q.nread + (path.length + 2)
  omega

def Parser.version (q : Parser) (major minor : ℕ) : Parser := { q with httpMajor := major, httpMinor := minor }

/-- A byte of a header that belongs to no part. -/
theorem Reads.headerSilent {s : State} (hs : q.state = s) (hp : s.parsingHeader = true) (hpart : s.part = none)
    (hn : q.nread < maxHeaderSize) (h : switch (q.advance 1) ch 1 = some { parser := q' }) :
    Reads q [ch] q' [] := by
  have := Reads.headerPlain hs hp hn h
  rwa [hpart] at this

/-- The same when some bytes have been read, with states that are known. -/
theorem Reads.silent {k : ℕ} (hp : q.state.parsingHeader = true) (hpart : q.state.part = none)
    (hn : q.nread + k < maxHeaderSize)
    (h : ∀ n, switch (q.advance n) ch 1 = some { parser := q'.advance n }) :
    Reads (q.advance k) [ch] (q'.advance (k + 1)) [] :=
  .headerSilent rfl hp hpart hn (by rw [advance_advance]; exact h (k + 1))

/-- `HTTP/1.1` and the end of the line. -/
theorem reads_version (hs : q.state = .reqHttpStart) (hn : q.nread + 10 ≤ maxHeaderSize) :
    Reads q (bytesOf "HTTP/1.1" ++ [cr, lf]) (((q.version 1 1).goto .headerFieldStart).advance 10) [] := by
  have hb : ∀ k < 10, q.nread + k < maxHeaderSize := fun k hk => by omega
  have h₀ : Reads q [chr 'H'] ((q.goto .reqHttpH).advance 1) [] := by
    refine .headerSilent hs rfl rfl (hb 0 (by decide)) ?_
    rw [switch, show (q.advance 1).state = .reqHttpStart from hs]
    rfl
  have h₁ : Reads ((q.goto .reqHttpH).advance 1) [chr 'T'] ((q.goto .reqHttpHT).advance 2) [] :=
    .silent rfl rfl (hb 1 (by decide)) fun _ => rfl
  have h₂ : Reads ((q.goto .reqHttpHT).advance 2) [chr 'T'] ((q.goto .reqHttpHTT).advance 3) [] :=
    .silent rfl rfl (hb 2 (by decide)) fun _ => rfl
  have h₃ : Reads ((q.goto .reqHttpHTT).advance 3) [chr 'P'] ((q.goto .reqHttpHTTP).advance 4) [] :=
    .silent rfl rfl (hb 3 (by decide)) fun _ => rfl
  have h₄ : Reads ((q.goto .reqHttpHTTP).advance 4) [chr '/'] ((q.goto .reqFirstHttpMajor).advance 5) [] :=
    .silent rfl rfl (hb 4 (by decide)) fun _ => rfl
  have h₅ : Reads ((q.goto .reqFirstHttpMajor).advance 5) [chr '1']
      (((q.version 1 q.httpMinor).goto .reqHttpMajor).advance 6) [] :=
    .silent rfl rfl (hb 5 (by decide)) fun _ => rfl
  have h₆ : Reads (((q.version 1 q.httpMinor).goto .reqHttpMajor).advance 6) [chr '.']
      (((q.version 1 q.httpMinor).goto .reqFirstHttpMinor).advance 7) [] :=
    .silent rfl rfl (hb 6 (by decide)) fun _ => rfl
  have h₇ : Reads (((q.version 1 q.httpMinor).goto .reqFirstHttpMinor).advance 7) [chr '1']
      (((q.version 1 1).goto .reqHttpMinor).advance 8) [] :=
    .silent rfl rfl (hb 7 (by decide)) fun _ => rfl
  have h₈ : Reads (((q.version 1 1).goto .reqHttpMinor).advance 8) [cr]
      (((q.version 1 1).goto .reqLineAlmostDone).advance 9) [] :=
    .silent rfl rfl (hb 8 (by decide)) fun _ => rfl
  have h₉ : Reads (((q.version 1 1).goto .reqLineAlmostDone).advance 9) [lf]
      (((q.version 1 1).goto .headerFieldStart).advance 10) [] :=
    .silent rfl rfl (hb 9 (by decide)) fun _ => rfl
  exact ((((((((h₀.trans h₁).trans h₂).trans h₃).trans h₄).trans h₅).trans h₆).trans h₇).trans h₈).trans h₉

/-! ## The end of a header -/

theorem reads_headersCr (hs : AtLine q.state) (hn : q.nread < maxHeaderSize) :
    Reads q [cr] ((q.goto .headersAlmostDone).advance 1) [] := by
  obtain hs | hs := hs
  · refine .headerSilent hs rfl rfl hn ?_
    rw [switch, show (q.advance 1).state = .headerFieldStart from hs]
    rfl
  · refine .headerByte (by rw [hs]; rfl) hn ?_
    have hstep : switch (q.advance 1) cr 1 = some (reexecuting ((q.advance 1).goto .headerFieldStart)) := by
      rw [switch, show (q.advance 1).state = .headerValueLws from hs]
      rfl
    rw [lookAt_again hstep rfl]
    rfl

/-- The parser in `s_headers_done`, with the last byte of the header counted. -/
def Parser.headersDone (q : Parser) : Parser :=
  { q.advance 1 with state := .headersDone, upgrade := q.flags.upgrade || q.method == .connect }

/-- The last byte of a header is looked at twice. -/
theorem reads_headersLf (after : Step) (hs : q.state = .headersAlmostDone) (ht : q.flags.trailing = false)
    (hn : q.nread < maxHeaderSize) (hafter : caseHeadersDone q.headersDone lf = after)
    (he : after.exit = .next) :
    Reads q [lf] after.parser ([.note (.headersComplete q.method q.httpMajor q.httpMinor)] ++
      after.reports q.headersDone lf) := by
  refine .headerByte (by rw [hs]; rfl) hn ?_
  have hstep : switch (q.advance 1) lf 1 = some
      { parser := q.headersDone, actions := [.headersComplete], exit := .again } := by
    rw [switch, show (q.advance 1).state = .headersAlmostDone from hs]
    dsimp only
    rw [caseHeadersAlmostDone, if_neg (by decide), if_neg (by show ¬ q.flags.trailing = true; simp [ht])]
    rfl
  have hdone : switch q.headersDone lf 1 = some after := by
    rw [← hafter]
    rfl
  rw [lookAt_again hstep rfl]
  show (lookAt lf 3 q.headersDone).map _ = _
  rw [lookAt_next hdone he]
  rfl

def Parser.rewound (q : Parser) : Parser := { q with nread := 0 }

theorem caseHeadersDone_request (hu : q.upgrade = false) (hk : q.flags.skipbody = false)
    (ht : q.type = .request) :
    caseHeadersDone q lf =
      if q.flags.chunked then { parser := q.rewound.goto .chunkSizeStart }
      else if q.contentLength = 0 ∨ q.contentLength = ullongMax then
        notifying (q.rewound.goto (newMessage q)) .messageComplete
      else { parser := q.rewound.goto .bodyIdentity } := by
  unfold caseHeadersDone
  rw [if_neg (by decide)]
  dsimp only
  rw [if_neg (by simp [hu]), if_neg (by simp [hk])]
  by_cases hc : q.flags.chunked = true
  · rw [if_pos hc, if_pos hc]
    rfl
  · rw [if_neg hc, if_neg hc]
    by_cases h0 : q.contentLength = 0
    · rw [if_pos h0, if_pos (.inl h0)]
      rfl
    · rw [if_neg h0]
      by_cases hm : q.contentLength = ullongMax
      · rw [if_neg (not_not.2 hm), if_pos (.inl ht), if_pos (.inr hm)]
        rfl
      · rw [if_pos hm, if_neg (not_or.2 ⟨h0, hm⟩)]
        rfl

/-- A request whose header has ended, without another protocol. -/
structure HeaderRead (q : Parser) : Prop where
  state : q.state = .headersAlmostDone
  trailing : q.flags.trailing = false
  nread : q.nread < maxHeaderSize
  noUpgrade : q.flags.upgrade = false
  method : q.method ≠ .connect
  skipbody : q.flags.skipbody = false
  upgrade : q.upgrade = false
  type : q.type = .request

theorem HeaderRead.headersDone (h : HeaderRead q) : q.headersDone = (q.advance 1).goto .headersDone := by
  have hu : (q.flags.upgrade || q.method == .connect) = q.upgrade := by simp [h.noUpgrade, h.method, h.upgrade]
  rw [Parser.headersDone, hu]
  rfl

theorem HeaderRead.caseHeadersDone (h : HeaderRead q) :
    caseHeadersDone q.headersDone lf =
      if q.flags.chunked then { parser := q.rewound.goto .chunkSizeStart }
      else if q.contentLength = 0 ∨ q.contentLength = ullongMax then
        notifying (q.rewound.goto (newMessage q)) .messageComplete
      else { parser := q.rewound.goto .bodyIdentity } := by
  rw [h.headersDone]
  exact caseHeadersDone_request (q := (q.advance 1).goto .headersDone) h.upgrade h.skipbody h.type

theorem HeaderRead.reads_chunked (h : HeaderRead q) (hc : q.flags.chunked = true) :
    Reads q [lf] (q.rewound.goto .chunkSizeStart) [.note (.headersComplete q.method q.httpMajor q.httpMinor)] := by
  refine reads_headersLf { parser := q.rewound.goto .chunkSizeStart } h.state h.trailing h.nread ?_ rfl
  rw [h.caseHeadersDone, if_pos hc]

theorem HeaderRead.reads_sized (h : HeaderRead q) (hc : q.flags.chunked = false) (h0 : q.contentLength ≠ 0)
    (hm : q.contentLength ≠ ullongMax) :
    Reads q [lf] (q.rewound.goto .bodyIdentity) [.note (.headersComplete q.method q.httpMajor q.httpMinor)] := by
  refine reads_headersLf { parser := q.rewound.goto .bodyIdentity } h.state h.trailing h.nread ?_ rfl
  rw [h.caseHeadersDone, if_neg (by simp [hc]), if_neg (by simp [h0, hm])]

theorem HeaderRead.reads_empty (h : HeaderRead q) (hc : q.flags.chunked = false)
    (hl : q.contentLength = 0 ∨ q.contentLength = ullongMax) :
    Reads q [lf] (q.rewound.goto (newMessage q))
      [.note (.headersComplete q.method q.httpMajor q.httpMinor), .note .messageComplete] := by
  refine reads_headersLf (notifying (q.rewound.goto (newMessage q)) .messageComplete) h.state
    h.trailing h.nread ?_ rfl
  rw [h.caseHeadersDone, if_neg (by simp [hc]), if_pos hl]

/-- The end of the trailer of a chunked request. -/
theorem reads_trailerLf (hs : q.state = .headersAlmostDone) (ht : q.flags.trailing = true)
    (hn : q.nread < maxHeaderSize) :
    Reads q [lf] ((q.goto (newMessage q)).advance 1) [.note .messageComplete] := by
  have hstep : switch (q.advance 1) lf 1 =
      some (notifying ((q.goto (newMessage q)).advance 1) .messageComplete) := by
    rw [switch, show (q.advance 1).state = .headersAlmostDone from hs]
    dsimp only
    rw [caseHeadersAlmostDone, if_neg (by decide)]
    exact congrArg some (if_pos ht)
  have := Reads.headerStep (by rw [hs]; rfl) hn hstep rfl
  rwa [Step.reports, Step.part, hs] at this

/-! ## Chunks -/

theorem unhex_hexDigit {n : ℕ} (hn : n < 16) : unhex (hexDigit n) = some n ∧ hexDigit n ≠ cr := by
  revert n
  decide

theorem foldl_hexDigits {k n : ℕ} (hn : n < 16 ^ k) :
    ∃ ds : List ℕ, (∀ d ∈ ds, d < 16) ∧ hexDigits k n = ds.map hexDigit ∧ ds.length ≤ k ∧
      (0 < k → ds ≠ []) ∧ ds.foldl (fun m d => m * 16 + d) 0 = n := by
  induction k generalizing n with
  | zero =>
    obtain rfl : n = 0 := by simpa using hn
    exact ⟨[], by simp, rfl, le_rfl, by simp, rfl⟩
  | succ k ih =>
    by_cases h : n < 16
    · refine ⟨[n], by simpa using h, ?_, by simp, by simp, by simp⟩
      rw [hexDigits, if_pos h]
      rfl
    · obtain ⟨ds, hds, hmap, hlen, -, hfold⟩ := ih (n := n / 16) (by
        rw [pow_succ] at hn
        exact Nat.div_lt_of_lt_mul (by rwa [Nat.mul_comm]))
      refine ⟨ds ++ [n % 16], ?_, ?_, by simpa using hlen, by simp, ?_⟩
      · intro d hd
        obtain hd | hd := List.mem_append.1 hd
        · exact hds d hd
        · rw [List.mem_singleton.1 hd]
          exact Nat.mod_lt _ (by decide)
      · rw [hexDigits, if_neg h, hmap]
        simp
      · rw [List.foldl_append, hfold]
        exact Nat.div_add_mod' n 16

theorem reads_hexStart {d : ℕ} (hs : q.state = .chunkSizeStart) (hf : q.flags.chunked = true)
    (hn : q.nread = 0) (hd : d < 16) :
    Reads q [hexDigit d] (((q.sized d).goto .chunkSize).advance 1) [] := by
  refine .headerSilent hs rfl rfl (by rw [hn]; decide) ?_
  have hone : ¬ ((q.advance 1).nread ≠ 1 ∨ (!(q.advance 1).flags.chunked) = true) := by
    show ¬ (q.nread + 1 ≠ 1 ∨ (!q.flags.chunked) = true)
    simp [hn, hf]
  rw [switch, show (q.advance 1).state = .chunkSizeStart from hs]
  dsimp only
  rw [caseChunkSizeStart, if_neg hone, (unhex_hexDigit hd).1]
  rfl

theorem le_foldl_hex (ds : List ℕ) (n : ℕ) : n ≤ ds.foldl (fun m d => m * 16 + d) n := by
  induction ds generalizing n with
  | nil => exact le_rfl
  | cons d ds ih =>
    refine le_trans ?_ (ih (n * 16 + d))
    omega

theorem reads_hex (ds : List ℕ) (hs : q.state = .chunkSize) (hf : q.flags.chunked = true)
    (hd : ∀ d ∈ ds, d < 16) (hlt : ds.foldl (fun m d => m * 16 + d) q.contentLength < ullongMax)
    (hn : q.nread + ds.length ≤ maxHeaderSize) :
    Reads q (ds.map hexDigit)
      ((q.sized (ds.foldl (fun m d => m * 16 + d) q.contentLength)).advance ds.length) [] := by
  induction ds generalizing q with
  | nil => exact .refl q
  | cons d ds ih =>
    have hlen : q.nread + (ds.length + 1) ≤ maxHeaderSize := hn
    obtain ⟨hhex, hcr⟩ := unhex_hexDigit (hd d List.mem_cons_self)
    have hdigit : q.contentLength * 16 + d < ullongMax := (le_foldl_hex ds _).trans_lt hlt
    have hbyte : Reads q [hexDigit d] ((q.sized (q.contentLength * 16 + d)).advance 1) [] := by
      refine .headerSilent hs rfl rfl (by omega) ?_
      rw [switch, show (q.advance 1).state = .chunkSize from hs]
      dsimp only
      rw [caseChunkSize, if_neg (by show ¬ (!q.flags.chunked) = true; simp [hf]), if_neg hcr, hhex]
      exact congrArg some (lengthDigit_exact (q := q.advance 1) (by decide) hdigit)
    have hrest := ih (q := (q.sized (q.contentLength * 16 + d)).advance 1) hs hf
      (fun d hd' => hd d (List.mem_cons_of_mem _ hd')) hlt (by show q.nread + 1 + ds.length ≤ _; omega)
    rw [List.length_cons, Nat.add_comm, ← advance_advance]
    exact hbyte.trans hrest

theorem reads_sizeCr (hs : q.state = .chunkSize) (hf : q.flags.chunked = true) (hn : q.nread < maxHeaderSize) :
    Reads q [cr] ((q.goto .chunkSizeAlmostDone).advance 1) [] := by
  refine .headerSilent hs rfl rfl hn ?_
  rw [switch, show (q.advance 1).state = .chunkSize from hs]
  dsimp only
  rw [caseChunkSize, if_neg (by show ¬ (!q.flags.chunked) = true; simp [hf]), if_pos rfl]
  rfl

/-- The parser after the size of a chunk, which is the last one if its size is zero. -/
def Parser.sizeRead (q : Parser) : Parser :=
  if q.contentLength = 0 then
    ((q.flagged { q.flags with trailing := true }).goto .headerFieldStart).rewound
  else (q.goto .chunkData).rewound

theorem reads_sizeLf (hs : q.state = .chunkSizeAlmostDone) (hf : q.flags.chunked = true)
    (hn : q.nread < maxHeaderSize) : Reads q [lf] q.sizeRead [] := by
  refine .headerSilent hs rfl rfl hn ?_
  rw [switch, show (q.advance 1).state = .chunkSizeAlmostDone from hs]
  dsimp only
  rw [caseChunkSizeAlmostDone, if_neg (by show ¬ (!q.flags.chunked) = true; simp [hf]), if_neg (by decide)]
  dsimp only
  unfold Parser.sizeRead
  by_cases h : q.contentLength = 0
  · rw [if_pos (show (q.advance 1).contentLength = 0 from h), if_pos h]
    rfl
  · rw [if_neg (show ¬ (q.advance 1).contentLength = 0 from h), if_neg h]
    rfl

/-- The size of a chunk with the end of its line. -/
theorem reads_size {n : ℕ} (hs : q.state = .chunkSizeStart) (hf : q.flags.chunked = true)
    (hq : q.nread = 0) (hn : n < ullongMax) :
    Reads q (hex n ++ [cr, lf]) (q.sized n).sizeRead [] := by
  obtain ⟨ds, hds, hmap, hlen, hne, hfold⟩ := foldl_hexDigits (k := 16) (n := n)
    (hn.trans (by decide))
  obtain ⟨d, ds, rfl⟩ := List.exists_cons_of_ne_nil (hne (by decide))
  have hmax : 20 ≤ maxHeaderSize := by decide
  have hlen : ds.length + 1 ≤ 16 := hlen
  have hfold' : ds.foldl (fun m d => m * 16 + d) d = n := by simpa using hfold
  have h₁ := reads_hexStart hs hf hq (hds d List.mem_cons_self)
  have h₂ := reads_hex ds (q := ((q.sized d).goto .chunkSize).advance 1) rfl hf
    (fun d hd => hds d (List.mem_cons_of_mem _ hd)) (by show ds.foldl _ d < _; rwa [hfold'])
    (by show q.nread + 1 + ds.length ≤ _; omega)
  have h₃ := reads_sizeCr (q := (((q.goto .chunkSize).advance 1).sized n).advance ds.length) rfl hf
    (by show q.nread + 1 + ds.length < _; omega)
  have h₄ := reads_sizeLf
    (q := ((((q.goto .chunkSizeAlmostDone).advance 1).sized n).advance ds.length).advance 1) rfl hf
    (by show q.nread + 1 + ds.length + 1 < _; omega)
  have h₂ : Reads (((q.sized d).goto .chunkSize).advance 1) (ds.map hexDigit)
      ((((q.goto .chunkSize).advance 1).sized n).advance ds.length) [] := by
    rw [← hfold']
    exact h₂
  have hprint : hex n ++ [cr, lf] = [hexDigit d] ++ ds.map hexDigit ++ [cr] ++ [lf] := by
    rw [hex, hmap]
    simp
  have heq : Parser.sizeRead
      (((((q.goto .chunkSizeAlmostDone).advance 1).sized n).advance ds.length).advance 1) =
        (q.sized n).sizeRead := rfl
  rw [hprint, ← heq]
  exact ((h₁.trans h₂).trans h₃).trans h₄

/-- A byte after the header. -/
theorem Reads.bodyStep {step : Step} (hp : q.state.parsingHeader = false) (h : switch q ch 1 = some step)
    (he : step.exit = .next) : Reads q [ch] step.parser (step.reports q ch) := by
  have hcount : q.count = q := if_neg (by simp [hp])
  refine .byte ?_ (hcount.symm ▸ lookAt_next h he)
  rw [Overflows, hcount, hp]
  simp

theorem reads_chunkCr (hs : q.state = .chunkDataAlmostDone) (hf : q.flags.chunked = true)
    (h0 : q.contentLength = 0) : Reads q [cr] (q.goto .chunkDataDone) [] := by
  have hstep : switch q cr 1 = some (reporting (q.goto .chunkDataDone) .body) := by
    rw [switch, hs]
    dsimp only
    rw [caseChunkDataAlmostDone, if_neg (by simp [hf, h0]), if_neg (by decide)]
  have := Reads.bodyStep (by rw [hs]; rfl) hstep rfl
  rwa [Step.reports, Step.part, hs] at this

theorem reads_chunkLf (hs : q.state = .chunkDataDone) (hf : q.flags.chunked = true) :
    Reads q [lf] (q.goto .chunkSizeStart).rewound [] := by
  have hstep : switch q lf 1 = some { parser := (q.goto .chunkSizeStart).rewound } := by
    rw [switch, hs]
    dsimp only
    rw [caseChunkDataDone, if_neg (by simp [hf]), if_neg (by decide)]
    rfl
  have := Reads.bodyStep (by rw [hs]; rfl) hstep rfl
  rwa [Step.reports, Step.part, hs] at this

theorem merge_bodyReports {d : Bytes} (hd : d ≠ []) : merge (bodyReports d) = merge [.piece .body d] := by
  rw [bodyReports, merge_flatMap_piece hd]
  rfl

theorem parses_chunk {d : Bytes} (hs : q.state = .chunkSizeStart) (hf : q.flags.chunked = true)
    (hq : q.nread = 0) (hd : d ≠ []) (hn : d.length < ullongMax) :
    Parses q (printChunk d) ((q.sized 0).goto .chunkSizeStart).rewound [.piece .body d] := by
  have hpos := List.length_pos_iff.2 hd
  have h₁ := reads_size (n := d.length) hs hf hq hn
  have hread : (q.sized d.length).sizeRead = ((q.sized d.length).goto .chunkData).rewound :=
    if_neg hpos.ne'
  rw [hread] at h₁
  have h₂ := reads_chunkData (q := ((q.sized d.length).goto .chunkData).rewound) hd rfl ⟨hf, hpos, hn⟩ le_rfl
  have heq : (((q.sized d.length).goto .chunkData).rewound).chunkRead d.length =
      ((q.sized 0).goto .chunkDataAlmostDone).rewound := by
    simp [Parser.chunkRead, Parser.rewound, Parser.goto, Parser.sized]
  rw [heq] at h₂
  have h₃ := reads_chunkCr (q := ((q.sized 0).goto .chunkDataAlmostDone).rewound) rfl hf rfl
  have h₄ := reads_chunkLf (q := ((q.sized 0).goto .chunkDataDone).rewound) rfl hf
  have hprint : printChunk d = (hex d.length ++ [cr, lf]) ++ d ++ [cr] ++ [lf] := by simp [printChunk]
  rw [hprint]
  exact ((h₁.parses.trans ⟨_, h₂, merge_bodyReports hd⟩).trans h₃.parses).trans h₄.parses

theorem parses_chunks {chunks : List Bytes} (hs : q.state = .chunkSizeStart) (hf : q.flags.chunked = true)
    (hq : q.nread = 0) (hc : ∀ c ∈ chunks, c ≠ [] ∧ c.length < ullongMax) :
    ∃ n, Parses q (chunks.flatMap printChunk) ((q.sized n).goto .chunkSizeStart).rewound
      (chunks.map fun c => .piece .body c) := by
  induction chunks generalizing q with
  | nil =>
    refine ⟨q.contentLength, (Reads.refl q).parses.of_eq ?_⟩
    rw [← hs]
    exact eq_of_nread hq rfl
  | cons d chunks ih =>
    obtain ⟨hd, hlen⟩ := hc d List.mem_cons_self
    obtain ⟨n, hrest⟩ := ih (q := ((q.sized 0).goto .chunkSizeStart).rewound) rfl hf rfl
      fun c h => hc c (List.mem_cons_of_mem _ h)
    exact ⟨n, (parses_chunk hs hf hq hd hlen).trans hrest⟩

/-- Chunks are one body. -/
theorem merge_chunks {chunks : List Bytes} (hc : ∀ c ∈ chunks, c ≠ []) :
    merge (chunks.map fun c => .piece .body c : List Report) = merge (Body.chunked chunks).reports := by
  cases chunks with
  | nil => rfl
  | cons d chunks =>
    have hne : (d :: chunks).flatten ≠ [] := by simp [hc d List.mem_cons_self]
    rw [List.map_cons, merge_piece_map, Body.reports, Body.data, if_neg hne]
    rfl

/-! ## The body -/

/-- What is left of a parser `q` that has read the header after the whole message. -/
structure Ended (q q' : Parser) : Prop where
  state : q'.state = newMessage q
  type : q'.type = q.type
  errno : q'.errno = q.errno
  upgrade : q'.upgrade = q.upgrade
  nread : q'.nread ≤ 2

theorem newMessage_request (ht : q.type = .request) :
    newMessage q =
      if (if 0 < q.httpMajor ∧ 0 < q.httpMinor then !q.flags.connectionClose else q.flags.connectionKeepAlive)
      then .startReq else .dead := by
  have hn : messageNeedsEof q = false := by simp [messageNeedsEof, ht]
  have hs : startState q = .startReq := by simp [startState, ht]
  unfold newMessage shouldKeepAlive
  rw [hn, hs]
  by_cases hv : 0 < q.httpMajor ∧ 0 < q.httpMinor
  · simp only [if_pos hv]
    cases q.flags.connectionClose <;> rfl
  · simp only [if_neg hv]
    cases q.flags.connectionKeepAlive <;> rfl

/-- Whether there can be a request after this one is settled by its header. -/
theorem newMessage_congr (ht : q.type = .request) (ht' : q'.type = q.type)
    (hmajor : q'.httpMajor = q.httpMajor) (hminor : q'.httpMinor = q.httpMinor)
    (hclose : q'.flags.connectionClose = q.flags.connectionClose)
    (halive : q'.flags.connectionKeepAlive = q.flags.connectionKeepAlive) :
    newMessage q' = newMessage q := by
  rw [newMessage_request ht, newMessage_request (ht'.trans ht), hmajor, hminor, hclose, halive]

/-- The end of a chunked body. -/
theorem parses_lastChunk (ht : q.type = .request) (hs : q.state = .chunkSizeStart)
    (hf : q.flags.chunked = true) (hq : q.nread = 0) :
    ∃ q', Parses q [chr '0', cr, lf, cr, lf] q' [.note .messageComplete] ∧ Ended q q' := by
  have hmax : 2 ≤ maxHeaderSize := by decide
  have h₁ := reads_size (n := 0) hs hf hq (by decide)
  have h₂ := reads_headersCr
    (q := ((((q.sized 0).flagged { q.flags with trailing := true }).goto .headerFieldStart).rewound)) (.inl rfl)
    (by show 0 < _; omega)
  have h₃ := reads_trailerLf
    (q := ((((q.sized 0).flagged { q.flags with trailing := true }).rewound).goto .headersAlmostDone).advance 1)
    rfl rfl (by show 0 + 1 < _; omega)
  exact ⟨_, ((h₁.trans h₂).trans h₃).parses, newMessage_congr ht rfl rfl rfl rfl rfl, rfl, rfl, rfl, le_rfl⟩

theorem parses_chunked {chunks : List Bytes} (h : HeaderRead q) (hf : q.flags.chunked = true)
    (hc : ∀ c ∈ chunks, c ≠ [] ∧ c.length < ullongMax) :
    ∃ q', Parses q ([lf] ++ (Body.chunked chunks).print) q'
      ([.note (.headersComplete q.method q.httpMajor q.httpMinor)] ++ (Body.chunked chunks).reports ++
        [.note .messageComplete]) ∧ Ended q q' := by
  have h₁ := (h.reads_chunked hf).parses
  obtain ⟨n, h₂⟩ := parses_chunks (q := q.rewound.goto .chunkSizeStart) rfl hf rfl hc
  have h₂ := h₂.of_merge (merge_chunks fun c hmem => (hc c hmem).1)
  obtain ⟨q', h₃, he⟩ := parses_lastChunk
    (q := (((q.rewound.goto .chunkSizeStart).sized n).goto .chunkSizeStart).rewound) h.type rfl hf rfl
  refine ⟨q', ?_, ?_, he.type, he.errno, he.upgrade, he.nread⟩
  · rw [Body.print, ← List.append_assoc]
    exact (h₁.trans h₂).trans h₃
  · rw [he.state]
    exact newMessage_congr h.type rfl rfl rfl rfl rfl

theorem parses_sized {data : Bytes} (h : HeaderRead q) (hf : q.flags.chunked = false)
    (hl : q.contentLength = data.length) (hn : data.length < ullongMax) :
    ∃ q', Parses q ([lf] ++ (Body.sized data).print) q'
      ([.note (.headersComplete q.method q.httpMajor q.httpMinor)] ++ (Body.sized data).reports ++
        [.note .messageComplete]) ∧ Ended q q' := by
  by_cases hd : data = []
  · subst hd
    exact ⟨_, (h.reads_empty hf (.inl hl)).parses, rfl, rfl, rfl, rfl, Nat.zero_le 2⟩
  · have hpos := List.length_pos_iff.2 hd
    have h₁ := (h.reads_sized hf (by omega) (by omega)).parses
    have h₂ := reads_bodyIdentity_end (q := q.rewound.goto .bodyIdentity) (l := data) rfl
      ⟨hl ▸ hpos, hl ▸ hn⟩ hl.symm
    have hall := h₁.trans ⟨_, h₂, merge_append_congr (merge_bodyReports hd) rfl⟩
    rw [Body.reports, Body.data, if_neg hd, List.append_assoc]
    exact ⟨_, hall, newMessage_congr h.type rfl rfl rfl rfl rfl, rfl, rfl, rfl, Nat.zero_le 2⟩

theorem Body.parses {hs : List Header} {b : Body} (h : HeaderRead q) (hb : b.Announced hs)
    (hf : q.flags = headerFlags hs) (hl : q.contentLength = headerLength hs) :
    ∃ q', Parses q ([lf] ++ b.print) q'
      ([.note (.headersComplete q.method q.httpMajor q.httpMinor)] ++ b.reports ++
        [.note .messageComplete]) ∧ Ended q q' := by
  cases b with
  | none =>
    obtain ⟨hc, hn⟩ := hb
    exact ⟨_, (h.reads_empty (hf ▸ hc) (.inr (hl.trans hn))).parses, rfl, rfl, rfl, rfl, Nat.zero_le 2⟩
  | sized data =>
    obtain ⟨hc, hn, hlt⟩ := hb
    exact parses_sized h (hf ▸ hc) (hl.trans hn) hlt
  | chunked chunks =>
    obtain ⟨hc, hne⟩ := hb
    exact parses_chunked h (hf ▸ hc) hne

/-! ## Requests -/

/-- A parser that waits for a request. -/
structure Idle (q : Parser) : Prop where
  type : q.type = .request
  state : q.state = .startReq
  errno : q.errno = .ok
  upgrade : q.upgrade = false
  nread : q.nread ≤ 2

theorem valueFlags_trailing (k : HeaderKind) (v : Bytes) (f : Flags) :
    (valueFlags k v f).trailing = f.trailing ∧ (valueFlags k v f).skipbody = f.skipbody := by
  unfold valueFlags
  repeat' split
  all_goals exact ⟨rfl, rfl⟩

/-- No header says that the body is over or to be left out. -/
theorem headerFlags_trailing (hs : List Header) :
    (headerFlags hs).trailing = false ∧ (headerFlags hs).skipbody = false := by
  have h : ∀ f : Flags, (hs.foldl (fun f h => h.flags f) f).trailing = f.trailing ∧
      (hs.foldl (fun f h => h.flags f) f).skipbody = f.skipbody := by
    induction hs with
    | nil => exact fun f => ⟨rfl, rfl⟩
    | cons h hs ih =>
      intro f
      obtain ⟨ht, hk⟩ := valueFlags_trailing h.kind h.value f
      exact ⟨(ih _).1.trans ht, (ih _).2.trans hk⟩
  exact h {}

/-- The parser before the last byte of the header of a request. -/
structure HeadRead (r : Request) (q : Parser) : Prop extends HeaderRead q where
  errno : q.errno = .ok
  sameMethod : q.method = r.method
  flags : q.flags = headerFlags r.headers
  length : q.contentLength = headerLength r.headers
  major : q.httpMajor = 1
  minor : q.httpMinor = 1

def Request.line (r : Request) : Bytes :=
  methodString r.method ++ [chr ' '] ++ (r.target ++ [chr ' ']) ++ (bytesOf "HTTP/1.1" ++ [cr, lf])

theorem Request.length_line (r : Request) :
    r.line.length = (methodString r.method).length + r.path.length + 13 := by
  have hv : (bytesOf "HTTP/1.1").length = 8 := by decide
  simp only [Request.line, Request.target, List.length_append, List.length_cons, List.length_nil, hv]
  omega

theorem Request.head_eq (r : Request) :
    r.head = r.line ++ r.headers.flatMap Header.print ++ [cr] ++ [lf] := by
  have hv : bytesOf " HTTP/1.1" = chr ' ' :: bytesOf "HTTP/1.1" := by decide
  simp [Request.head, Request.line, hv]

theorem Request.parses_line {r : Request} (hs : q.state = .startReq) (hm : r.method ≠ .connect)
    (hp : ∀ c ∈ r.path, 33 ≤ c ∧ c ≤ 126) (hn : q.nread + r.line.length ≤ maxHeaderSize) :
    ∃ i, Parses q r.line
      ((((q.reset.goto .headerFieldStart).inMethod (r.method, i)).version 1 1).advance r.line.length)
      [.note .messageBegin, .piece .url r.target] := by
  rw [r.length_line] at hn ⊢
  obtain ⟨i, h₁⟩ := parses_method r.method hs (by omega)
  have h₂ := parses_target (q := ((q.reset.goto .reqSpacesBeforeUrl).inMethod (r.method, i)).advance
    ((methodString r.method).length + 1)) rfl hm hp
    (by show q.nread + ((methodString r.method).length + 1) + _ + 2 ≤ _; omega)
  have h₃ := (reads_version (q := ((((q.reset.goto .reqSpacesBeforeUrl).inMethod (r.method, i)).advance
    ((methodString r.method).length + 1)).goto .reqHttpStart).advance (r.path.length + 2)) rfl
    (by show q.nread + ((methodString r.method).length + 1) + (r.path.length + 2) + 10 ≤ _; omega)).parses
  refine ⟨i, ((h₁.trans h₂).trans h₃).of_eq (eq_of_nread ?_ rfl)⟩
  show q.nread + ((methodString r.method).length + 1) + (r.path.length + 2) + 10 =
    q.nread + ((methodString r.method).length + r.path.length + 13)
  omega

/-- The header up to the last byte. -/
theorem Request.parses_head {r : Request} (hw : r.WellFormed) (hq : Idle q) :
    ∃ q', HeadRead r q' ∧ Parses q (r.line ++ r.headers.flatMap Header.print ++ [cr]) q'
      ([.note .messageBegin, .piece .url r.target] ++ r.headers.flatMap Header.reports) := by
  have hlen : q.nread + (r.line.length + (r.headers.flatMap Header.print).length + 2) ≤ maxHeaderSize := by
    have h := hw.size
    have hn := hq.nread
    rw [r.head_eq] at h
    simp only [List.length_append, List.length_cons, List.length_nil] at h
    omega
  obtain ⟨i, h₁⟩ := r.parses_line hq.state hw.method hw.path (by omega)
  obtain ⟨s, h, j, hs, h₂⟩ := parses_headers hw.headers (.inl rfl)
    (q := (((q.reset.goto .headerFieldStart).inMethod (r.method, i)).version 1 1).advance r.line.length)
    (by show q.nread + r.line.length + _ ≤ _; omega)
  have h₃ := (reads_headersCr hs (q := (((((((q.reset.goto .headerFieldStart).inMethod (r.method, i)).version
    1 1).advance r.line.length).goto s).flagged (headerFlags r.headers)).sized
      (headerLength r.headers)).word h j |>.advance (r.headers.flatMap Header.print).length)
    (by show q.nread + r.line.length + (r.headers.flatMap Header.print).length < _; omega)).parses
  have hall := (h₁.trans h₂).trans h₃
  rw [List.append_nil] at hall
  obtain ⟨ht, hk⟩ := headerFlags_trailing r.headers
  refine ⟨_, ?_, hall⟩
  refine ⟨⟨rfl, ht, ?_, hw.upgrade, hw.method, hk, hq.upgrade, hq.type⟩, hq.errno, rfl, rfl, rfl, rfl, rfl⟩
  show q.nread + r.line.length + (r.headers.flatMap Header.print).length + 1 < _
  omega

/-- A request is read as it is meant. -/
theorem Request.parses {r : Request} (hw : r.WellFormed) (hq : Idle q) :
    ∃ q', Parses q r.print q' r.reports ∧ q'.errno = .ok ∧ (r.keepsAlive → Idle q') := by
  obtain ⟨q₁, hr, h₁⟩ := Request.parses_head hw hq
  obtain ⟨q', h₂, he⟩ := Body.parses hr.toHeaderRead hw.body hr.flags hr.length
  rw [hr.sameMethod, hr.major, hr.minor] at h₂
  have hstate : newMessage q₁ = if r.keepsAlive then .startReq else .dead := by
    rw [newMessage_request hr.type, hr.major, hr.minor, hr.flags]
    rfl
  have hall := h₁.trans h₂
  refine ⟨q', ?_, he.errno.trans hr.errno, fun hk => ?_⟩
  · rw [Request.print, r.head_eq, Request.reports]
    simpa only [List.append_assoc] using hall
  · exact
      { type := he.type.trans hr.type
        state := by rw [he.state, hstate, if_pos hk]
        errno := he.errno.trans hr.errno
        upgrade := he.upgrade.trans hr.upgrade
        nread := he.nread }

/-- Requests one after the other, each but the last of which leaves the connection open. -/
theorem parses_requests {rs : List Request} (hw : ∀ r ∈ rs, r.WellFormed)
    (hk : ∀ r ∈ rs.dropLast, r.keepsAlive) (hq : Idle q) :
    ∃ q', Parses q (rs.flatMap Request.print) q' (rs.flatMap Request.reports) ∧ q'.errno = .ok := by
  induction rs generalizing q with
  | nil => exact ⟨q, (Reads.refl q).parses, hq.errno⟩
  | cons r rs ih =>
    obtain ⟨q₁, h₁, he, hidle⟩ := Request.parses (hw r List.mem_cons_self) hq
    by_cases hrs : rs = []
    · subst hrs
      exact ⟨q₁, by simpa using h₁, he⟩
    · rw [List.dropLast_cons_of_ne_nil hrs] at hk
      obtain ⟨q', h₂, he'⟩ := ih (fun r h => hw r (List.mem_cons_of_mem _ h))
        (fun r h => hk r (List.mem_cons_of_mem _ h)) (hidle (hk r List.mem_cons_self))
      exact ⟨q', h₁.trans h₂, he'⟩

/-- Well-formed requests on one connection are reported as they are meant, however the bytes come. -/
theorem feed_requests (rs : List Request) (cs : List Bytes) (hw : ∀ r ∈ rs, r.WellFormed)
    (hk : ∀ r ∈ rs.dropLast, r.keepsAlive) (hne : ∀ c ∈ cs, c ≠ [])
    (hcs : cs.flatten = rs.flatMap Request.print) :
    ∃ q' es, feed recorder cs (init .request) [] = some (q', es, cs.flatten.length) ∧
      q'.errno = .ok ∧ merge es = merge (rs.flatMap Request.reports) := by
  obtain ⟨q₁, ⟨es₁, hreads, hm⟩, he⟩ := parses_requests (q := init .request) hw hk
    ⟨rfl, rfl, rfl, rfl, Nat.zero_le 2⟩
  have hread : read (init .request) cs.flatten = some (q₁, es₁, cs.flatten.length) := by
    have := hreads []
    rw [List.append_nil] at this
    rw [hcs, this]
    simp [read]
  by_cases hnil : cs = []
  · subst hnil
    simp only [List.flatten_nil, read, Option.some.injEq, Prod.mk.injEq] at hread
    obtain ⟨-, rfl, -⟩ := hread
    exact ⟨init .request, [], rfl, rfl, hm⟩
  · obtain ⟨q', app, es, n, hfeed, hread', hv⟩ :=
      feed_agree _ ((Reachable.init .request).open rfl rfl) hnil hne []
    rw [hread] at hread'
    cases hread'
    exact ⟨q₁, app, hfeed, he, (hv he).trans hm⟩

theorem feed_requests_two :
    ∃ q' es,
      feed recorder
          [bytesOf "PUT /a HTTP/1.1" ++ [cr, lf] ++ bytesOf "Content-Length: 2" ++ [cr, lf, cr, lf, chr 'x'],
            [chr 'y'] ++ bytesOf "GET /b HTTP/1.1" ++ [cr, lf, cr, lf]] (init .request) [] =
        some (q', es, 59) ∧
      q'.errno = .ok ∧
        merge es =
          [.note .messageBegin, .piece .url (bytesOf "/a"), .piece .headerField (bytesOf "Content-Length"),
            .piece .headerValue (bytesOf "2"), .note (.headersComplete .put 1 1),
            .piece .body (bytesOf "xy"), .note .messageComplete, .note .messageBegin,
            .piece .url (bytesOf "/b"), .note (.headersComplete .get 1 1), .note .messageComplete] := by
  obtain ⟨q', es, hfeed, he, hm⟩ := feed_requests
    [⟨.put, bytesOf "a", [⟨bytesOf "Content-Length", bytesOf "2"⟩], .sized (bytesOf "xy")⟩,
      ⟨.get, bytesOf "b", [], .none⟩]
    [bytesOf "PUT /a HTTP/1.1" ++ [cr, lf] ++ bytesOf "Content-Length: 2" ++ [cr, lf, cr, lf, chr 'x'],
      [chr 'y'] ++ bytesOf "GET /b HTTP/1.1" ++ [cr, lf, cr, lf]]
    (by decide +kernel) (by decide +kernel) (by decide +kernel) (by decide +kernel)
  exact ⟨q', es, hfeed, he, hm.trans (by decide +kernel)⟩

end HttpParser

end CaptureHpc
