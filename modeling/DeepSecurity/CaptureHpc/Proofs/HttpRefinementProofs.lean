import DeepSecurity.CaptureHpc.Proofs.HttpViewProofs

/-!
# The parser and the reader

`http_parser_execute` marks where a part begins and hands it over when it ends or when the data do; a body
is passed in one step. The reader looks at one byte after the other. Up to joining the pieces of a part
both report the same, so it does not matter how a stream is cut.
-/

namespace CaptureHpc

namespace HttpParser

open Pieces

variable {q q' : Parser} {data : Bytes} {ch : UInt8} {c : Option Part} {f : Frame (List Report)}

/-! ## The part that is marked -/

/-- In the states within a body the part may be marked or not; in all others it is known. -/
def Ghost (q : Parser) (c : Option Part) : Prop := c = q.state.part ∨ c = q.state.markable

theorem Marking.of_none {as : List Action} (h : Marking as c) : Marking as none := by
  induction as generalizing c with
  | nil => trivial
  | cons a as ih =>
    cases a with
    | mark k => exact ⟨.inl rfl, h.2⟩
    | data k extra consumed => exact ih h
    | notify note k => exact ⟨rfl, ih h.2⟩
    | headersComplete => exact ⟨rfl, ih h.2⟩
    | skip n => exact ih h

theorem part_eq_markable_or (s : State) : s.part = s.markable ∨ s.part = none := by
  cases s <;> simp [State.part, State.markable]

theorem Sound.marking_ghost {r : ℕ} {step : Step} (h : Sound q r step) (hc : Ghost q c) :
    Marking step.actions c := by
  obtain rfl | rfl := hc
  · obtain hp | hp := part_eq_markable_or q.state
    · rw [hp]
      exact h.marking
    · rw [hp]
      exact h.marking.of_none
  · exact h.marking

/-- Within a body a step marks the part, or hands it over. -/
theorem track_part {r : ℕ} {step : Step} (h : switch q ch r = some step) (he : step.exit ≠ .error) :
    track step.actions q.state.part = track step.actions q.state.markable := by
  cases hs : q.state
  case bodyIdentity =>
    simp only [switch, hs, caseBodyIdentity] at h
    split_ifs at h <;> cases h <;> rfl
  case bodyIdentityEof =>
    simp only [switch, hs, caseBodyIdentityEof] at h
    cases h
    rfl
  case chunkData =>
    simp only [switch, hs, caseChunkData] at h
    split_ifs at h <;> cases h <;> rfl
  case chunkDataAlmostDone =>
    simp only [switch, hs, caseChunkDataAlmostDone] at h
    split_ifs at h
    · cases h
      exact absurd rfl he
    · cases h
      rfl
  all_goals rfl

theorem track_ghost {r : ℕ} {step : Step} (h : switch q ch r = some step) (he : step.exit ≠ .error)
    (hc : Ghost q c) : track step.actions c = track step.actions q.state.part := by
  obtain rfl | rfl := hc
  · rfl
  · exact (track_part h he).symm

theorem Sound.ghost {r : ℕ} {step : Step} (hs : Sound q r step) (h : switch q ch r = some step)
    (he : step.exit ≠ .error) (hc : Ghost q c) : Ghost step.parser (track step.actions c) := by
  rw [track_ghost h he hc, track_part h he]
  obtain ⟨ht, hp⟩ | ht := hs.tracked he
  · exact .inl (ht.trans hp.symm)
  · exact .inr ht

/-! ## The protocol after a message -/

theorem switch_headersDone {r : ℕ} {step : Step} (hs : q.state = .headersDone)
    (h : switch q ch r = some step) (he : step.exit = .next) : step.parser.upgrade = false := by
  simp only [switch, hs, Option.some.injEq] at h
  subst h
  revert he
  unfold caseHeadersDone
  dsimp only
  split_ifs <;> simp_all [HttpParser.fail, notifying, Parser.goto]

theorem switch_headersAlmostDone {r : ℕ} {step : Step} (hs : q.state = .headersAlmostDone)
    (h : switch q ch r = some step) (he : step.exit = .again) : step.parser.state = .headersDone := by
  simp only [switch, hs, Option.some.injEq] at h
  subst h
  revert he
  unfold caseHeadersAlmostDone
  split_ifs <;> simp [HttpParser.fail, notifying]

/-- Whether another protocol follows is known only while the byte that ends the header is looked at. -/
def Unknown (q : Parser) : Prop := q.upgrade = false ∨ q.state = .headersDone

theorem Sound.upgrade_next {r : ℕ} {step : Step} (hs : Sound q r step) (h : switch q ch r = some step)
    (he : step.exit = .next) (hu : Unknown q) : step.parser.upgrade = false := by
  obtain hu | hu := hu
  · obtain h' | ⟨-, h'⟩ := hs.upgrade (by simp [he])
    · exact h'.trans hu
    · rw [he] at h'
      cases h'
  · exact switch_headersDone hu h he

theorem Sound.upgrade_again {r : ℕ} {step : Step} (hs : Sound q r step)
    (h : switch q ch r = some step) (he : step.exit = .again) (hu : Unknown q) :
    Unknown step.parser := by
  obtain hu | hu := hu
  · obtain h' | ⟨h', -⟩ := hs.upgrade (by simp [he])
    · exact .inl (h'.trans hu)
    · exact .inr (switch_headersAlmostDone h' h he)
  · -- nothing is looked at again after `s_headers_done`
    have hr := (hs.again he).2.1
    rw [hu] at hr
    exact absurd hr (Nat.not_lt_zero _)

/-! ## A byte -/

theorem switch_remaining (hb : q.state.bulk = false) (r : ℕ) : switch q ch r = switch q ch 1 := by
  unfold switch
  cases hs : q.state <;> first | rfl | (rw [hs] at hb; cases hb)

/-- What the parser does with a byte, compared with what the reader does. -/
def Agree (data : Bytes) (f : Frame (List Report)) (q' : Parser) (es : List Report) :
    Exit → Outcome (List Report) (Frame (List Report)) → Prop
  | .next, .cont f' => f'.parser = q' ∧ f'.p = f.p ∧ Calm q' ∧ StateOk 0 q' ∧ q'.upgrade = false ∧
      (∃ c, Exact f' c ∧ Ghost q' c) ∧
        merge (Frame.view data { f' with p := f'.p + 1 }) = merge (f.view data ++ es)
  | .error, .stop q _ n => q = q' ∧ n = f.p ∧ q'.errno ≠ .ok
  | .finish, .stop q app n => q = q' ∧ n = f.p + 1 ∧ q'.upgrade ∧ merge app = merge (f.view data ++ es)
  | _, _ => False

/-- A byte that has been read belongs to the part that is marked. -/
theorem view_succ (h : Exact f c) (hch : data[f.p]? = some ch) :
    merge (Frame.view data { f with p := f.p + 1 }) =
      merge (f.view data ++ readIn ch c) := by
  cases h with
  | unmarked h =>
    rw [view_none (f := f) h, readIn, List.append_nil]
    exact congrArg merge (view_none h)
  | @marked k m hk hm h =>
    have hview : Frame.view data { f with p := f.p + 1 } =
        f.app ++ [.piece k (slice data m (f.p + 1))] := view_some hk h
    rw [hview, view_some (f := f) hk h, List.append_assoc, slice_succ hm hch]
    exact (merge_piece_piece f.app k (slice data m f.p) [ch] []).symm

/-- What the parser has done before it looks at the byte again. -/
theorem Agree.prepend {f' : Frame (List Report)} {es₀ es : List Report} {exit : Exit}
    {o : Outcome (List Report) (Frame (List Report))} (hp : f'.p = f.p)
    (hv : merge (f'.view data) = merge (f.view data ++ es₀)) (h : Agree data f' q' es exit o) :
    Agree data f q' (es₀ ++ es) exit o := by
  have hes : merge (f'.view data ++ es) = merge (f.view data ++ (es₀ ++ es)) := by
    rw [← List.append_assoc]
    exact merge_append_congr hv rfl
  cases exit <;> cases o <;> simp only [Agree] at h ⊢
  · rwa [← hes, ← hp]
  · rwa [← hp]
  · rwa [← hes, ← hp]

theorem reexecuteByte_agree {n : ℕ} (hl : Live f.parser) (hx : Exact f c) (hc : Ghost f.parser c)
    (hb : f.parser.state.bulk = false) (hch : data[f.p]? = some ch) (hn : rank f.parser.state < n)
    (hu : Unknown f.parser) :
    ∃ q' es exit, lookAt ch n f.parser = some (q', es, exit) ∧
      Agree data f q' es exit (reexecuteByte recorder data ch n f) := by
  induction n generalizing f c with
  | zero => exact absurd hn (Nat.not_lt_zero _)
  | succ n ih =>
    have hlt : f.p < data.length := (List.getElem?_eq_some_iff.1 hch).1
    obtain ⟨step, hstep, hsound⟩ := switch_sound ch (Nat.sub_pos_of_lt hlt) hl
    have hstep' := hstep
    rw [switch_remaining hb] at hstep'
    unfold reexecuteByte lookAt
    rw [hstep, hstep']
    dsimp only
    by_cases hexit : step.exit = .error
    · obtain ⟨marks, hperform⟩ :=
        perform_marks recorder data (hsound.error hexit).2 { f with parser := step.parser }
      rw [hperform, hexit]
      refine ⟨_, _, _, rfl, rfl, rfl, ?_⟩
      split_ifs with he
      · simp
      · exact he
    · have hcalm := hsound.calm hexit
      have hghost := hsound.ghost hstep hexit hc
      obtain ⟨f', hperform, hq, hp, hx', hv⟩ :=
        perform_view data ch (f := { f with parser := step.parser }) (c := c)
          (by cases hx with
            | unmarked h => exact .unmarked h
            | marked hk hm h => exact .marked hk hm h)
          hcalm.errno hlt.le (hsound.marking_ghost hc) (hsound.plain hb)
      replace hq : f'.parser = step.parser := hq
      replace hp : f'.p = f.p := hp
      rw [hperform]
      dsimp only [Outcome.bind]
      cases he : step.exit with
      | error => exact absurd he hexit
      | next =>
        refine ⟨_, _, _, rfl, hq, hp, hcalm, hsound.next (.inl he), hsound.upgrade_next hstep he hu,
          ⟨_, hx', hghost⟩, ?_⟩
        have hpart : step.part f.parser = track step.actions c := by
          rw [track_ghost hstep hexit hc]
          exact if_pos he
        rw [view_succ hx' (hp ▸ hch), Step.reports, hpart, ← List.append_assoc]
        exact merge_append_congr hv rfl
      | again =>
        obtain ⟨hs, hr, hb'⟩ := hsound.again he
        obtain ⟨q', es, exit, hlook, hagree⟩ :=
          ih (f := f') (hq ▸ ⟨hcalm, hs 1⟩) hx' (hq ▸ hghost) (hq ▸ hb') (hp ▸ hch)
            (by rw [hq]; omega) (hq ▸ hsound.upgrade_again hstep he hu)
        rw [hq] at hlook
        rw [hlook]
        have hpart : step.part f.parser = none := if_neg (by simp [he])
        refine ⟨_, _, _, rfl, hagree.prepend hp ?_⟩
        rw [Step.reports, hpart, readIn, List.append_nil]
        exact hv
      | finish =>
        have hfinish := hsound.finish he
        have hnone : track step.actions c = none := by
          obtain h | h := hghost
          · exact h.trans (part_of_markable hfinish.2)
          · exact h.trans hfinish.2
        rw [hnone] at hx'
        refine ⟨_, _, _, rfl, hq, by rw [hp], hfinish.1, ?_⟩
        have hpart : step.part f.parser = none := if_neg (by simp [he])
        cases hx' with
        | unmarked h =>
          rw [Step.reports, hpart, readIn, List.append_nil, ← (view_none h : Frame.view data _ = _)]
          exact hv

/-! ## Reading a part of a stream -/

/-- Reading `l` takes the parser to `q'` and reports `es`, whatever comes then. -/
def Reads (q : Parser) (l : Bytes) (q' : Parser) (es : List Report) : Prop :=
  ∀ rest, read q (l ++ rest) = (read q' rest).map fun (q'', es', n) => (q'', es ++ es', n + l.length)

theorem Reads.refl (q : Parser) : Reads q [] q [] := by
  intro rest
  cases h : read q rest <;> simp [h]

theorem Reads.trans {q'' : Parser} {l l' : Bytes} {es es' : List Report} (h : Reads q l q' es)
    (h' : Reads q' l' q'' es') : Reads q (l ++ l') q'' (es ++ es') := by
  intro rest
  rw [List.append_assoc, h, h', Option.map_map]
  congr 1
  funext x
  simp only [Function.comp_apply, List.append_assoc, List.length_append, Prod.mk.injEq, true_and]
  omega

/-- The header is longer than allowed. -/
def Overflows (q : Parser) : Prop := q.count.state.parsingHeader ∧ maxHeaderSize < q.count.nread

theorem read_cons (ho : ¬ Overflows q) (l : Bytes) :
    read q (ch :: l) =
      match lookAt ch 4 q.count with
      | none => none
      | some (q', es, .error) => some (q', es, 0)
      | some (q', es, .finish) => some (q', es, 1)
      | some (q', es, _) => (read q' l).map fun (q'', es', n) => (q'', es ++ es', n + 1) := by
  rw [read]
  exact if_neg ho

theorem read_overflow (ho : Overflows q) (l : Bytes) :
    read q (ch :: l) = some ({ q.count with errno := .headerOverflow }, [], 0) := by
  rw [read]
  exact if_pos ho

theorem Reads.byte {es : List Report} (ho : ¬ Overflows q)
    (h : lookAt ch 4 q.count = some (q', es, .next)) : Reads q [ch] q' es := by
  intro rest
  rw [List.cons_append, read_cons ho, h]
  rfl

/-! ## Bodies -/

/-- The bytes of a body, one by one. -/
def bodyReports (l : Bytes) : List Report := l.flatMap fun b => [.piece .body [], .piece .body [b]]

theorem bodyReports_append (l l' : Bytes) : bodyReports (l ++ l') = bodyReports l ++ bodyReports l' :=
  List.flatMap_append

theorem bulk_count (hb : q.state.bulk = true) : q.count = q ∧ ¬ Overflows q := by
  have hp : q.state.parsingHeader = false := by
    cases hs : q.state <;> simp_all [State.bulk, State.parsingHeader]
  have hcount : q.count = q := by simp [Parser.count, hp]
  refine ⟨hcount, ?_⟩
  rw [Overflows, hcount, hp]
  simp

/-- A chunk of which `n` bytes have come. -/
def Parser.chunkRead (q : Parser) (n : ℕ) : Parser :=
  { q with
    contentLength := q.contentLength - n
    state := if q.contentLength - n = 0 then .chunkDataAlmostDone else .chunkData }

theorem switch_chunkData (hs : q.state = .chunkData) (hl : StateOk 1 q) (r : ℕ) :
    switch q ch r = some
      { parser := q.chunkRead (min q.contentLength r)
        actions := [.mark .body, .skip (min q.contentLength r - 1)] } := by
  obtain ⟨hf, h0, hm⟩ := hl.at_state hs
  have hv : validLength q = true := validLength_of h0 hm
  have hf : q.flags.chunked = true := hf
  simp only [switch, hs, caseChunkData, hf, hv, Parser.chunkRead]
  split_ifs <;> simp_all [Parser.goto]

theorem switch_bodyIdentity (ch : UInt8) (hs : q.state = .bodyIdentity) (hl : StateOk 1 q) (r : ℕ) :
    switch q ch r = some
      (if q.contentLength ≤ r then
        { parser := { q with contentLength := 0, state := .messageDone }
          actions := [.mark .body, .skip (q.contentLength - 1), .data .body 1 0]
          exit := .again }
      else
        { parser := { q with contentLength := q.contentLength - r }
          actions := [.mark .body, .skip (r - 1)] }) := by
  obtain ⟨h0, hm⟩ := hl.at_state hs
  have hv : validLength q = true := validLength_of h0 hm
  simp only [switch, hs, caseBodyIdentity, hv]
  by_cases hr : q.contentLength ≤ r
  · simp [hr, Parser.goto]
  · have hsub : q.contentLength - r ≠ 0 := by omega
    simp [hr, hsub, Nat.min_eq_right (Nat.le_of_not_le hr)]

theorem reads_bodyIdentityEof (hs : q.state = .bodyIdentityEof) (l : Bytes) :
    Reads q l q (bodyReports l) := by
  induction l with
  | nil => exact .refl q
  | cons b l ih =>
    have hb := bulk_count (q := q) (by rw [hs]; rfl)
    refine Reads.trans (.byte hb.2 ?_) ih
    rw [hb.1]
    simp [lookAt, switch, hs, caseBodyIdentityEof, Step.reports, Step.part, Action.reports, track, readIn]

/-- A chunk, or the part of it that has come. -/
theorem reads_chunkData {l : Bytes} (hl : l ≠ []) (hs : q.state = .chunkData) (hq : StateOk 1 q)
    (hle : l.length ≤ q.contentLength) : Reads q l (q.chunkRead l.length) (bodyReports l) := by
  induction l generalizing q with
  | nil => exact absurd rfl hl
  | cons b l ih =>
    obtain ⟨hf, h0, hm⟩ := hq.at_state hs
    have hb := bulk_count (q := q) (by rw [hs]; rfl)
    have hbyte : Reads q [b] (q.chunkRead 1) (bodyReports [b]) := by
      refine .byte hb.2 ?_
      have hmin : min q.contentLength 1 = 1 := Nat.min_eq_right h0
      rw [hb.1]
      simp [lookAt, switch_chunkData hs hq, hmin, Step.reports, Step.part, Action.reports, track, readIn,
        bodyReports]
    by_cases h : l = []
    · subst h
      exact hbyte
    · have hpos := List.length_pos_iff.2 h
      have hlen : l.length + 1 ≤ q.contentLength := hle
      have hsub : q.contentLength - 1 ≠ 0 := by omega
      have hstate : (q.chunkRead 1).state = .chunkData := if_neg hsub
      have hok : StateOk 1 (q.chunkRead 1) :=
        .of_state hstate ⟨hf, Nat.pos_of_ne_zero hsub, (Nat.sub_le _ _).trans_lt hm⟩
      have hrest := hbyte.trans (ih h hstate hok (Nat.le_sub_of_add_le hlen))
      have hread : (q.chunkRead 1).chunkRead l.length = q.chunkRead (b :: l).length := by
        simp [Parser.chunkRead, Nat.sub_sub, Nat.add_comm]
      rw [hread] at hrest
      exact hrest

/-- A part of a body whose end has not come. -/
theorem reads_bodyIdentity {l : Bytes} (hs : q.state = .bodyIdentity) (hq : StateOk 1 q)
    (hlt : l.length < q.contentLength) :
    Reads q l { q with contentLength := q.contentLength - l.length } (bodyReports l) := by
  induction l generalizing q with
  | nil => exact .refl q
  | cons b l ih =>
    obtain ⟨h0, hm⟩ := hq.at_state hs
    have hb := bulk_count (q := q) (by rw [hs]; rfl)
    have hlen : l.length + 1 < q.contentLength := hlt
    have hbyte : Reads q [b] { q with contentLength := q.contentLength - 1 } (bodyReports [b]) := by
      refine .byte hb.2 ?_
      have h1 : ¬ q.contentLength ≤ 1 := by omega
      rw [hb.1]
      simp [lookAt, switch_bodyIdentity _ hs hq, h1, Step.reports, Step.part, Action.reports, track, readIn,
        bodyReports]
    have hok : StateOk 1 { q with contentLength := q.contentLength - 1 } :=
      .of_state hs ⟨Nat.sub_pos_of_lt (by omega), (Nat.sub_le _ _).trans_lt hm⟩
    have hrest := hbyte.trans (ih hs hok (Nat.lt_sub_of_add_lt hlen))
    rw [Nat.sub_sub, Nat.add_comm 1] at hrest
    exact hrest

/-- A body to its end. -/
theorem reads_bodyIdentity_end {l : Bytes} (hs : q.state = .bodyIdentity) (hq : StateOk 1 q)
    (hl : l.length = q.contentLength) :
    Reads q l { q with contentLength := 0, state := newMessage { q with contentLength := 0 } }
      (bodyReports l ++ [.note .messageComplete]) := by
  obtain ⟨h0, hm⟩ := hq.at_state hs
  have hne : l ≠ [] := by
    rintro rfl
    exact absurd hl.symm h0.ne'
  obtain ⟨l, b, rfl⟩ := (List.eq_nil_or_concat' l).resolve_left hne
  rw [List.length_append, List.length_singleton] at hl
  -- all bytes but the last one
  have hinit := reads_bodyIdentity (l := l) hs hq (by omega)
  have hone : q.contentLength - l.length = 1 := by omega
  rw [hone] at hinit
  have hlast : Reads { q with contentLength := 1 } [b]
      { q with contentLength := 0, state := newMessage { q with contentLength := 0 } }
      (bodyReports [b] ++ [.note .messageComplete]) := by
    have hb := bulk_count (q := { q with contentLength := 1 }) (by rw [hs]; rfl)
    have hmax : 1 < ullongMax := by decide
    have hok : StateOk 1 { q with contentLength := 1 } := .of_state hs ⟨Nat.one_pos, hmax⟩
    refine .byte hb.2 ?_
    rw [hb.1, lookAt, switch_bodyIdentity _ (q := { q with contentLength := 1 }) hs hok, if_pos le_rfl]
    simp [lookAt, switch, caseMessageDone, notifying, Parser.goto, Step.reports, Step.part, Action.reports, Note.notice,
      track, readIn, bodyReports, State.part]
    rfl
  have := hinit.trans hlast
  rwa [← List.append_assoc, ← bodyReports_append] at this

/-! ## A round of the loop -/

/-- A parser without an error between two bytes, with what it has marked. -/
structure Ready (data : Bytes) (f : Frame (List Report)) : Prop where
  calm : Calm f.parser
  state : StateOk 0 f.parser
  upgrade : f.parser.upgrade = false
  marks : ∃ c, Exact f c ∧ Ghost f.parser c
  le : f.p ≤ data.length

/-- The reader comes to an end, or to an error, where the parser does. -/
def Ends (data : Bytes) (f : Frame (List Report)) (q : Parser) (app : List Report) (n : ℕ) : Prop :=
  f.p ≤ n ∧ (q.errno ≠ .ok ∨ q.upgrade) ∧
    ∃ es, (∀ rest, read f.parser (data.drop f.p ++ rest) = some (q, es, n - f.p)) ∧
      (q.errno = .ok → merge app = merge (f.view data ++ es))

/-- The parser passes some bytes, and the reader reads them. -/
def Passes (data : Bytes) (f f' : Frame (List Report)) : Prop :=
  f.p < f'.p ∧ ∃ es, Reads f.parser (slice data f.p f'.p) f'.parser es ∧
    merge (f'.view data) = merge (f.view data ++ es)

/-- What follows from the outcome of a part of the call. -/
def Outcome.Shows {σ α : Type} (o : Outcome σ α) (P : α → Prop) (Q : Parser → σ → ℕ → Prop) : Prop :=
  match o with
  | .cont a => P a
  | .stop q app n => Q q app n
  | .abort => False

/-- Bytes that have been passed belong to the part that is marked. -/
theorem view_forward (data : Bytes) {k : Part} (h : Exact f (some k)) (t : ℕ) :
    Exact { f with p := f.p + t } (some k) ∧
      merge (Frame.view data { f with p := f.p + t }) =
        merge (f.view data ++ [.piece k (slice data f.p (f.p + t))]) := by
  cases h with
  | @marked _ m hk hm h =>
    refine ⟨.marked hk (hm.trans (Nat.le_add_right _ _)) h, ?_⟩
    have hview : Frame.view data { f with p := f.p + t } =
        f.app ++ [.piece k (slice data m (f.p + t))] := view_some hk h
    rw [hview, view_some (f := f) hk h, List.append_assoc, ← slice_append hm (Nat.le_add_right _ _)]
    exact (merge_piece_piece f.app k _ _ []).symm

/-- A body is marked, and `t` bytes of it are passed. -/
theorem view_body (data : Bytes) {t : ℕ} (h : Exact f c) (hc : c = none ∨ c = some .body) (ht : 0 < t)
    (hle : f.p + t ≤ data.length) :
    Exact { f.mark .body with p := f.p + t } (some .body) ∧
      merge (Frame.view data { f.mark .body with p := f.p + t }) =
        merge (f.view data ++ bodyReports (slice data f.p (f.p + t))) := by
  obtain ⟨hx, hv⟩ := mark_view data h hc
  obtain ⟨hx', hv'⟩ := view_forward data hx t
  refine ⟨hx', hv'.trans ?_⟩
  have hne : slice data f.p (f.p + t) ≠ [] := by
    rw [← List.length_pos_iff, length_slice hle]
    omega
  have hbody : merge (bodyReports (slice data f.p (f.p + t))) =
      merge [.piece .body [], .piece .body (slice data f.p (f.p + t))] := by
    rw [bodyReports, merge_flatMap_piece hne]
    simp [merge, push]
  rw [merge_append_congr (rfl : merge (f.view data) = _) hbody, merge_append_congr hv rfl,
    List.append_assoc]
  rfl

theorem ghost_bulk (hb : q.state.bulk = true) (hc : Ghost q c) : c = none ∨ c = some .body := by
  unfold Ghost at hc
  cases hs : q.state <;> simp_all [State.bulk, State.part, State.markable]

theorem round_fits {σ : Type} {s : Settings σ} {f : Frame σ} (ho : ¬ Overflows f.parser) :
    round s data ch f =
      (reexecuteByte s data ch 4 { f with parser := f.parser.count }).bind fun f =>
        .cont { f with p := f.p + 1 } :=
  if_neg ho

theorem Ready.live (h : Ready data f) (ho : ¬ Overflows f.parser) : Live f.parser.count :=
  ⟨calm_count h.calm ho, stateOk_count h.state⟩

theorem Ready.live_bulk (h : Ready data f) (hb : f.parser.state.bulk = true) : Live f.parser := by
  obtain ⟨hcount, ho⟩ := bulk_count hb
  have := h.live ho
  rwa [hcount] at this

theorem round_overflows {σ : Type} {s : Settings σ} {f : Frame σ} (ho : Overflows f.parser) :
    round s data ch f = .stop { f.parser.count with errno := .headerOverflow } f.app f.p :=
  (if_pos ho).trans (by simp [gotoError])

/-- A step that marks a body and passes `t` bytes of it. -/
theorem round_body {t : ℕ} (h : Ready data f) (hb : f.parser.state.bulk = true) (ht : 0 < t)
    (hle : f.p + t ≤ data.length)
    (hstep : switch f.parser ch (data.length - f.p) =
      some { parser := q', actions := [.mark .body, .skip (t - 1)] })
    (hreads : Reads f.parser (slice data f.p (f.p + t)) q' (bodyReports (slice data f.p (f.p + t)))) :
    ∃ f', round recorder data ch f = .cont f' ∧ Ready data f' ∧ Passes data f f' := by
  obtain ⟨c, hx, hc⟩ := h.marks
  obtain ⟨hcount, ho⟩ := bulk_count hb
  obtain ⟨step, hstep', hsound⟩ := switch_sound (r := data.length - f.p) ch (by omega) (h.live_bulk hb)
  obtain rfl := Option.some.inj (hstep.symm.trans hstep')
  obtain ⟨hx', hv⟩ := view_body data hx (ghost_bulk hb hc) ht hle
  have hround : round recorder data ch f = .cont { f.mark .body with parser := q', p := f.p + t } := by
    have hp : f.p + (t - 1) + 1 = f.p + t := by omega
    rw [round_fits ho, hcount, reexecuteByte, hstep]
    simp only [perform, act, Outcome.bind, Frame.mark, hp]
  refine ⟨_, hround, ⟨?_, ?_, ?_, ⟨some .body, ?_, ?_⟩, hle⟩, Nat.lt_add_of_pos_right ht, _, hreads, hv⟩
  · exact hsound.calm (by simp)
  · exact hsound.next (.inl rfl)
  · exact hsound.upgrade_next hstep rfl (.inl h.upgrade)
  · cases hx' with
    | marked hk hm hother => exact .marked hk hm hother
  · exact hsound.ghost hstep (by simp) hc

/-- The end of a body. -/
theorem round_bodyIdentity_end (h : Ready data f) (hs : f.parser.state = .bodyIdentity)
    (hle : f.p + f.parser.contentLength ≤ data.length) :
    ∃ f', round recorder data ch f = .cont f' ∧ Ready data f' ∧ Passes data f f' := by
  obtain ⟨c, hx, hc⟩ := h.marks
  have hb : f.parser.state.bulk = true := by rw [hs]; rfl
  obtain ⟨hcount, ho⟩ := bulk_count hb
  have hlive := h.live_bulk hb
  obtain ⟨h0, hmax⟩ := hlive.state.at_state hs
  have h0 : 0 < f.parser.contentLength := h0
  obtain ⟨hx', hv⟩ := view_body data hx (ghost_bulk hb hc) h0 hle
  obtain ⟨hx₁, -⟩ := mark_view data hx (ghost_bulk hb hc)
  have hreads := reads_bodyIdentity_end (l := slice data f.p (f.p + f.parser.contentLength)) hs hlive.state
    (by rw [length_slice hle]; omega)
  cases hx₁ with
  | @marked _ m hk hm hother =>
  have hcleared : ∀ j, (if j = .body then none else (f.mark .body).marks j) = none := by
    intro j
    split_ifs with hj
    · rfl
    · exact hother j hj
  have hround : round recorder data ch f =
      .cont
        { parser :=
            { f.parser with
              contentLength := 0
              state := newMessage { f.parser with contentLength := 0 } }
          app := f.app ++ [.piece .body (slice data m (f.p + f.parser.contentLength))] ++
            [.note .messageComplete]
          p := f.p + f.parser.contentLength
          marks := fun j => if j = .body then none else (f.mark .body).marks j } := by
    have hp : f.p + (f.parser.contentLength - 1) + 1 = f.p + f.parser.contentLength := by omega
    have hr : f.parser.contentLength ≤ data.length - f.p := by omega
    have hdata := callbackData_recorder data 1 (k := .body) (m := m)
      (f := { f.mark .body with
        parser := { f.parser with contentLength := 0, state := .messageDone }
        p := f.p + (f.parser.contentLength - 1) })
      h.calm.errno hk (hm.trans (Nat.le_add_right _ _)) (hp ▸ hle) 0
    rw [round_fits ho, hcount, reexecuteByte, switch_bodyIdentity _ hs hlive.state, if_pos hr]
    simp only [perform, act, Outcome.bind]
    simp only [Frame.mark] at hdata ⊢
    rw [hdata]
    simp only [reexecuteByte, switch, caseMessageDone, notifying, perform, act, Outcome.bind]
    rw [callbackNotify_recorder]
    · simp only [Parser.goto, hp]
      rfl
    · exact h.calm.errno
  refine ⟨_, hround, ⟨?_, ?_, h.upgrade, ⟨none, .unmarked hcleared, .inl ?_⟩, hle⟩,
    Nat.lt_add_of_pos_right h0, _, hreads, ?_⟩
  · exact (h.calm.contentLength (Nat.zero_le _)).congr rfl
  · exact stateOk_newMessage (q := { f.parser with contentLength := 0 })
  · exact part_newMessage.symm
  · have hview : Frame.view data { f.mark .body with p := f.p + f.parser.contentLength } =
        f.app ++ [.piece .body (slice data m (f.p + f.parser.contentLength))] := view_some hk hother
    refine (congrArg merge (view_none hcleared)).trans ?_
    rw [← List.append_assoc, ← hview]
    exact merge_append_congr hv rfl

theorem round_bulk (ch : UInt8) (h : Ready data f) (hb : f.parser.state.bulk = true) (hlt : f.p < data.length) :
    ∃ f', round recorder data ch f = .cont f' ∧ Ready data f' ∧ Passes data f f' := by
  have hlive := h.live_bulk hb
  have hr : 0 < data.length - f.p := Nat.sub_pos_of_lt hlt
  cases hs : f.parser.state
  case bodyIdentityEof =>
    refine round_body h hb hr (by omega) ?_ (reads_bodyIdentityEof hs _)
    simp [switch, hs, caseBodyIdentityEof]
  case chunkData =>
    obtain ⟨-, h0, -⟩ := hlive.state.at_state hs
    have h0 : 0 < f.parser.contentLength := h0
    have ht : 0 < min f.parser.contentLength (data.length - f.p) := lt_min h0 hr
    have hle : f.p + min f.parser.contentLength (data.length - f.p) ≤ data.length := by omega
    have hlen : (slice data f.p (f.p + min f.parser.contentLength (data.length - f.p))).length =
        min f.parser.contentLength (data.length - f.p) := by
      rw [length_slice hle, Nat.add_sub_cancel_left]
    refine round_body h hb ht hle (switch_chunkData hs hlive.state _) ?_
    have := reads_chunkData (l := slice data f.p (f.p + min f.parser.contentLength (data.length - f.p)))
      (by rw [← List.length_pos_iff, hlen]; exact ht) hs hlive.state (by rw [hlen]; exact min_le_left _ _)
    rwa [hlen] at this
  case bodyIdentity =>
    by_cases hle : f.parser.contentLength ≤ data.length - f.p
    · exact round_bodyIdentity_end h hs (by omega)
    · have hlen : (slice data f.p (f.p + (data.length - f.p))).length = data.length - f.p := by
        rw [length_slice (by omega), Nat.add_sub_cancel_left]
      have hstep := switch_bodyIdentity ch hs hlive.state (data.length - f.p)
      rw [if_neg hle] at hstep
      refine round_body h hb hr (by omega) hstep ?_
      have := reads_bodyIdentity (l := slice data f.p (f.p + (data.length - f.p))) hs hlive.state
        (by rw [hlen]; omega)
      rwa [hlen] at this
  all_goals
    rw [hs] at hb
    cases hb

theorem round_agree (h : Ready data f) (hch : data[f.p]? = some ch) :
    (round recorder data ch f).Shows (fun f' => Ready data f' ∧ Passes data f f') (Ends data f) := by
  have hlt : f.p < data.length := (List.getElem?_eq_some_iff.1 hch).1
  by_cases hb : f.parser.state.bulk = true
  · obtain ⟨f', hround, hf'⟩ := round_bulk ch h hb hlt
    rw [hround]
    exact hf'
  have hdrop : data.drop f.p = ch :: data.drop (f.p + 1) := by
    obtain ⟨_, rfl⟩ := List.getElem?_eq_some_iff.1 hch
    exact List.drop_eq_getElem_cons hlt
  by_cases ho : Overflows f.parser
  · rw [round_overflows ho]
    refine ⟨le_rfl, .inl (by simp), [], fun rest => ?_, by simp⟩
    rw [hdrop, List.cons_append, read_overflow ho, Nat.sub_self]
  · obtain ⟨c, hx, hc⟩ := h.marks
    have hx : Exact { f with parser := f.parser.count } c := by
      cases hx with
      | unmarked h => exact .unmarked h
      | marked hk hm h => exact .marked hk hm h
    have hcount := count_state f.parser
    have hupgrade : f.parser.count.upgrade = false := by
      rw [← h.upgrade]
      unfold Parser.count
      split_ifs <;> rfl
    obtain ⟨q', es, exit, hlook, hagree⟩ :=
      reexecuteByte_agree (n := 4) (h.live ho) hx (by unfold Ghost; rwa [hcount])
        (by rw [hcount]; simpa using hb) hch (rank_lt _) (.inl hupgrade)
    rw [round_fits ho]
    generalize reexecuteByte recorder data ch 4 { f with parser := f.parser.count } = o at hagree
    cases exit with
    | again => cases o <;> exact hagree.elim
    | next =>
      cases o with
      | stop | abort => exact hagree.elim
      | cont f' =>
        obtain ⟨rfl, hp, hcalm, hs, hu, ⟨c', hx', hc'⟩, hv⟩ := hagree
        have hp : f'.p = f.p := hp
        refine ⟨⟨hcalm, hs, hu, ⟨c', ?_, hc'⟩, ?_⟩, ?_, es, ?_, hv⟩
        · cases hx' with
          | unmarked h => exact .unmarked h
          | marked hk hm h => exact .marked hk (Nat.le_succ_of_le hm) h
        · exact Nat.succ_le_of_lt (hp ▸ hlt)
        · exact Nat.lt_succ_of_le hp.ge
        · show Reads f.parser (slice data f.p (f'.p + 1)) f'.parser es
          rw [hp, slice_succ le_rfl hch, slice_self]
          exact .byte ho hlook
    | error =>
      cases o with
      | cont | abort => exact hagree.elim
      | stop q app n =>
        obtain ⟨rfl, rfl, he⟩ := hagree
        refine ⟨le_rfl, .inl he, es, fun rest => ?_, fun h => absurd h he⟩
        rw [hdrop, List.cons_append, read_cons ho, hlook, Nat.sub_self]
    | finish =>
      cases o with
      | cont | abort => exact hagree.elim
      | stop q app n =>
        obtain ⟨rfl, rfl, hu, hv⟩ := hagree
        refine ⟨Nat.le_succ _, .inr hu, es, fun rest => ?_, fun _ => hv⟩
        rw [hdrop, List.cons_append, read_cons ho, hlook, Nat.add_sub_cancel_left]

/-! ## The loop -/

/-- What has not been handed over is handed over when the data end. -/
theorem leftover_view (h : Ready data f) :
    ∃ f', leftover recorder data f = .cont f' ∧ f'.parser = f.parser ∧ f'.app = f.view data := by
  obtain ⟨c, hx, -⟩ := h.marks
  have he := h.calm.errno
  obtain ⟨f₁, h₁, hq₁, hp₁, hx₁, hv₁⟩ := callbackData_view (k := .headerField) hx he h.le 0
  obtain ⟨f₂, h₂, hq₂, hp₂, hx₂, hv₂⟩ :=
    callbackData_view (k := .headerValue) hx₁ (hq₁ ▸ he) (hp₁ ▸ h.le) 0
  obtain ⟨f₃, h₃, hq₃, hp₃, hx₃, hv₃⟩ :=
    callbackData_view (k := .url) hx₂ (hq₂ ▸ hq₁ ▸ he) (hp₂ ▸ hp₁ ▸ h.le) 0
  obtain ⟨f₄, h₄, hq₄, hp₄, hx₄, hv₄⟩ :=
    callbackData_view (k := .body) hx₃ (hq₃ ▸ hq₂ ▸ hq₁ ▸ he) (hp₃ ▸ hp₂ ▸ hp₁ ▸ h.le) 0
  refine ⟨f₄, ?_, hq₄.trans (hq₃.trans (hq₂.trans hq₁)), ?_⟩
  · rw [leftover, if_neg (by have := markCount_le hx.marksOk; omega), h₁]
    simp only [Outcome.bind, h₂, h₃, h₄]
  · rw [← hv₁, ← hv₂, ← hv₃, ← hv₄]
    cases c with
    | none =>
      cases hx₄ with
      | unmarked h => exact (view_none h).symm
    | some k =>
      cases k <;> cases hx₄ with
      | unmarked h => exact (view_none h).symm

/-- What a call leaves that reads all its data. -/
structure Done (data : Bytes) (f f' : Frame (List Report)) : Prop where
  calm : Calm f'.parser
  state : StateOk 0 f'.parser
  upgrade : f'.parser.upgrade = false
  endsIn : ∀ k, f'.parser.state.part = some k → EndsIn k f'.app
  reads : ∃ es, Reads f.parser (data.drop f.p) f'.parser es ∧ merge f'.app = merge (f.view data ++ es)

theorem leftover_done (h : Ready data f) (hp : f.p = data.length) :
    ∃ f', leftover recorder data f = .cont f' ∧ Done data f f' := by
  obtain ⟨f', hleft, hq, happ⟩ := leftover_view h
  refine ⟨f', hleft, hq ▸ h.calm, hq ▸ h.state, hq ▸ h.upgrade, ?_, [], ?_, ?_⟩
  · intro k hk
    obtain ⟨c, hx, hc⟩ := h.marks
    rw [hq] at hk
    obtain rfl : c = some k := by
      obtain hc | hc := hc
      · exact hc.trans hk
      · obtain h' | h' := part_eq_markable_or f.parser.state
        · exact hc.trans (h'.symm.trans hk)
        · rw [h'] at hk
          cases hk
    rw [happ]
    exact hx.endsIn
  · rw [hp, List.drop_length, hq]
    exact .refl _
  · rw [happ, List.append_nil]

theorem Passes.done {f' f'' : Frame (List Report)} (h : Passes data f f') (hd : Done data f' f'') : Done data f f'' := by
  obtain ⟨hlt, es, hreads, hv⟩ := h
  obtain ⟨es', hreads', hv'⟩ := hd.reads
  refine ⟨hd.calm, hd.state, hd.upgrade, hd.endsIn, es ++ es', ?_, ?_⟩
  · have := hreads.trans hreads'
    rwa [slice_append_drop hlt.le] at this
  · rw [hv', ← List.append_assoc]
    exact merge_append_congr hv rfl

theorem Passes.ends {f' : Frame (List Report)} {app : List Report} {n : ℕ} (h : Passes data f f')
    (hle : f'.p ≤ data.length) (he : Ends data f' q app n) : Ends data f q app n := by
  obtain ⟨hlt, es, hreads, hv⟩ := h
  obtain ⟨hle', hend, es', hread, hv'⟩ := he
  refine ⟨hlt.le.trans hle', hend, es ++ es', ?_, ?_⟩
  · intro rest
    have hlen : n - f'.p + (slice data f.p f'.p).length = n - f.p := by
      rw [length_slice hle]
      omega
    rw [← slice_append_drop hlt.le, List.append_assoc, hreads, hread, ← hlen]
    rfl
  · intro hok
    rw [hv' hok, ← List.append_assoc]
    exact merge_append_congr hv rfl

theorem loop_end {σ : Type} {s : Settings σ} {f : Frame σ} {n : ℕ} (hp : f.p = data.length) :
    loop s data n f = leftover s data f := by
  unfold loop
  exact if_pos hp

theorem loop_byte {σ : Type} {s : Settings σ} {f : Frame σ} {n : ℕ} (hp : f.p ≠ data.length)
    (hch : data[f.p]? = some ch) : loop s data (n + 1) f = (round s data ch f).bind (loop s data n) := by
  rw [loop.eq_def]
  dsimp only
  rw [if_neg hp, hch]

theorem loop_agree {n : ℕ} (h : Ready data f) (hn : data.length - f.p ≤ n) :
    (loop recorder data n f).Shows (Done data f) (Ends data f) := by
  induction n generalizing f with
  | zero =>
    have hp : f.p = data.length := by
      have := h.le
      omega
    obtain ⟨f', hleft, hdone⟩ := leftover_done h hp
    rw [loop_end hp, hleft]
    exact hdone
  | succ n ih =>
    by_cases hp : f.p = data.length
    · obtain ⟨f', hleft, hdone⟩ := leftover_done h hp
      rw [loop_end hp, hleft]
      exact hdone
    · have hlt : f.p < data.length := lt_of_le_of_ne h.le hp
      have hch := List.getElem?_eq_getElem hlt
      have hround := round_agree h hch
      rw [loop_byte hp hch]
      cases hr : round recorder data data[f.p] f with
      | abort =>
        rw [hr] at hround
        exact hround
      | stop q app m =>
        rw [hr] at hround
        exact hround
      | cont f' =>
        rw [hr] at hround
        obtain ⟨hready, hpass⟩ := hround
        have hlt' := hpass.1
        have hloop := ih hready (by omega)
        dsimp only [Outcome.bind]
        cases hl : loop recorder data n f' with
        | abort =>
          rw [hl] at hloop
          exact hloop
        | stop q app m =>
          rw [hl] at hloop
          exact hpass.ends hready.le hloop
        | cont f'' =>
          rw [hl] at hloop
          exact hpass.done hloop

/-! ## Calls -/

/-- A parser between two calls that has not come to an end. -/
structure Open (q : Parser) : Prop where
  calm : Calm q
  state : StateOk 0 q
  upgrade : q.upgrade = false

/-- The part that is open when a call begins. -/
def opened (q : Parser) : List Report :=
  match q.state.part with
  | some k => [.piece k []]
  | none => []

theorem ready_initial (data : Bytes) (h : Open q) (app : List Report) : Ready data ⟨q, app, 0, initialMarks q⟩ := by
  refine ⟨h.calm, h.state, h.upgrade, ⟨q.state.part, ?_, .inl rfl⟩, Nat.zero_le _⟩
  cases hp : q.state.part with
  | none => exact .unmarked fun k => by simp [initialMarks, hp]
  | some k =>
    refine .marked (m := 0) (by simp [initialMarks, hp]) le_rfl fun j hj => ?_
    simp [initialMarks, hp, Ne.symm hj]

theorem view_initial (q : Parser) (app : List Report) :
    Frame.view data ⟨q, app, 0, initialMarks q⟩ = app ++ opened q := by
  unfold opened
  cases hp : q.state.part with
  | none => exact (view_none fun k => by simp [initialMarks, hp]).trans (List.append_nil _).symm
  | some k =>
    refine (view_some (k := k) (m := 0) (by simp [initialMarks, hp]) fun j hj => ?_).trans ?_
    · simp [initialMarks, hp, Ne.symm hj]
    · rw [slice_self]

/-- A call, compared with the reader. -/
theorem execute_agree (h : Open q) (hd : data ≠ []) (app : List Report) :
    ∃ q' app' n, execute recorder data q app = some (q', app', n) ∧
      (n = data.length ∧ Open q' ∧ (∀ k, q'.state.part = some k → EndsIn k app') ∧
          (∃ es, Reads q data q' es ∧ merge app' = merge (app ++ opened q ++ es)) ∨
        (q'.errno ≠ .ok ∨ q'.upgrade) ∧
          ∃ es, (∀ rest, read q (data ++ rest) = some (q', es, n)) ∧
            (q'.errno = .ok → merge app' = merge (app ++ opened q ++ es))) := by
  have hloop := loop_agree (ready_initial data h app) (Nat.sub_le data.length 0)
  unfold execute
  rw [if_neg (by simp [h.calm.errno]), if_neg hd]
  cases hl : loop recorder data data.length ⟨q, app, 0, initialMarks q⟩ with
  | abort =>
    rw [hl] at hloop
    exact hloop.elim
  | cont f =>
    rw [hl] at hloop
    obtain ⟨es, hreads, hv⟩ := hloop.reads
    refine ⟨_, _, _, rfl, .inl ⟨rfl, ⟨hloop.calm, hloop.state, hloop.upgrade⟩, hloop.endsIn, es, hreads, ?_⟩⟩
    rw [hv, view_initial]
  | stop q' app' n =>
    rw [hl] at hloop
    obtain ⟨-, hend, es, hread, hv⟩ := hloop
    refine ⟨_, _, _, rfl, .inr ⟨hend, es, hread, ?_⟩⟩
    rwa [view_initial] at hv

/-- A stream in pieces, compared with the reader, which gets it as a whole. -/
theorem feed_agree (cs : List Bytes) (h : Open q) (hcs : cs ≠ []) (hne : ∀ d ∈ cs, d ≠ [])
    (app : List Report) :
    ∃ q' app' es n, feed recorder cs q app = some (q', app', n) ∧
      read q cs.flatten = some (q', es, n) ∧
        (q'.errno = .ok → merge app' = merge (app ++ opened q ++ es)) := by
  induction cs generalizing q app with
  | nil => exact absurd rfl hcs
  | cons d cs ih =>
    obtain ⟨q₁, app₁, n₁, hexec, hcase⟩ := execute_agree h (hne d List.mem_cons_self) app
    rw [feed, hexec, List.flatten_cons]
    simp only [Option.bind_eq_bind, Option.bind_some, Option.pure_def]
    obtain ⟨rfl, ho, hends, es₁, hreads, hv⟩ | ⟨hend, es, hread, hv⟩ := hcase
    · rw [if_neg (by simp [ho.calm.errno, ho.upgrade])]
      by_cases hnil : cs = []
      · subst hnil
        refine ⟨q₁, app₁, es₁, d.length, by simp [feed], ?_, fun _ => hv⟩
        have := hreads []
        simpa [read] using this
      · obtain ⟨q₂, app₂, es₂, n₂, hfeed, hread, hv₂⟩ :=
          ih ho hnil (fun d hd => hne d (List.mem_cons_of_mem _ hd)) app₁
        refine ⟨q₂, app₂, es₁ ++ es₂, d.length + n₂, by simp [hfeed], ?_, ?_⟩
        · rw [hreads, hread, Option.map_some, Nat.add_comm]
        · intro hok
          have hopen : merge (app₁ ++ opened q₁) = merge app₁ := by
            unfold opened
            cases hp : q₁.state.part with
            | none => rw [List.append_nil]
            | some k => exact (hends k hp).merge_append_nil
          rw [hv₂ hok, ← List.append_assoc]
          exact merge_append_congr (hopen.trans hv) rfl
    · rw [if_pos hend]
      exact ⟨q₁, app₁, es, n₁, rfl, hread _, hv⟩

theorem Reachable.open (h : Reachable q) (he : q.errno = .ok) (hu : q.upgrade = false) : Open q :=
  ⟨⟨h.rested.bounds (.inl he), h.rested.nread (.inl he), he⟩, h.rested.state (.inl he), hu⟩

/-- It does not matter how a stream is cut into the data of calls: the parser comes to the same state
with the same number of bytes, and unless there is an error the callbacks get the same, up to joining
neighbouring pieces of a part. -/
theorem feed_of_flatten_eq {cs cs' : List Bytes} (h : Reachable q) (he : q.errno = .ok)
    (hu : q.upgrade = false) (hne : ∀ d ∈ cs, d ≠ []) (hne' : ∀ d ∈ cs', d ≠ [])
    (hflat : cs.flatten = cs'.flatten) :
    ∃ q' es es' n, feed recorder cs q [] = some (q', es, n) ∧
      feed recorder cs' q [] = some (q', es', n) ∧ (q'.errno = .ok → merge es = merge es') := by
  have hnil : ∀ {ds : List Bytes}, (∀ d ∈ ds, d ≠ []) → ds.flatten = [] → ds = [] := by
    intro ds hds hf
    cases ds with
    | nil => rfl
    | cons d ds => exact absurd (List.append_eq_nil_iff.1 hf).1 (hds d List.mem_cons_self)
  by_cases hcs : cs = []
  · subst hcs
    rw [hnil hne' hflat.symm]
    exact ⟨q, [], [], 0, rfl, rfl, fun _ => rfl⟩
  · have hcs' : cs' ≠ [] := by
      rintro rfl
      exact hcs (hnil hne hflat)
    obtain ⟨q₁, app₁, es₁, n₁, hfeed₁, hread₁, hv₁⟩ := feed_agree _ (h.open he hu) hcs hne []
    obtain ⟨q₂, app₂, es₂, n₂, hfeed₂, hread₂, hv₂⟩ := feed_agree _ (h.open he hu) hcs' hne' []
    rw [hflat, hread₂] at hread₁
    cases hread₁
    exact ⟨q₁, app₁, app₂, n₁, hfeed₁, hfeed₂, fun hok => (hv₁ hok).trans (hv₂ hok).symm⟩

theorem feed_of_flatten_eq_bytes :
    ∃ q' es es' n,
      feed recorder [bytesOf "GET /in", bytesOf "dex HTTP/1.1" ++ [cr], [lf, cr, lf]] (init .request) [] =
          some (q', es, n) ∧
        feed recorder [bytesOf "GET /index HTTP/1.1" ++ [cr, lf, cr, lf]] (init .request) [] =
            some (q', es', n) ∧
          (q'.errno = .ok → merge es = merge es') :=
  feed_of_flatten_eq (.init .request) rfl rfl (by decide) (by decide) (by decide)

end HttpParser

end CaptureHpc
