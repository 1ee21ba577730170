import DeepSecurity.CaptureHpc.Proofs.HttpSwitchProofs

/-!
# No call of the parser fails

The callbacks may do what they like with their own state, fail or pause the parser. Neither they nor the
bytes make an assertion fail, and the data handed to a callback lie in the data of the call.
-/

namespace CaptureHpc

namespace HttpParser

variable {σ : Type} {q q' : Parser}

/-! ## What a callback changes -/

/-- A callback changes the error number and whether there is a body. -/
def Touched (q q' : Parser) : Prop :=
  ∃ e b, q' = { q with errno := e, flags := { q.flags with skipbody := b } }

theorem Touched.refl (q : Parser) : Touched q q := ⟨q.errno, q.flags.skipbody, rfl⟩

theorem Touched.trans {q₁ q₂ q₃ : Parser} (h : Touched q₁ q₂) (h' : Touched q₂ q₃) : Touched q₁ q₃ := by
  obtain ⟨e, b, rfl⟩ := h
  obtain ⟨e', b', rfl⟩ := h'
  exact ⟨e', b', rfl⟩

theorem Touched.errno (q : Parser) (e : Errno) : Touched q { q with errno := e } :=
  ⟨e, q.flags.skipbody, rfl⟩

theorem Touched.state (h : Touched q q') : q'.state = q.state := by
  obtain ⟨e, b, rfl⟩ := h
  rfl

theorem Touched.stateOk {n : ℕ} (h : Touched q q') (hs : StateOk n q) : StateOk n q' := by
  obtain ⟨e, b, rfl⟩ := h
  simpa only [StateOk] using hs

theorem Touched.bounds {n : ℕ} (h : Touched q q') (hb : Bounds n q) : Bounds n q' := by
  obtain ⟨e, b, rfl⟩ := h
  exact ⟨hb.index, hb.nread, hb.contentLength, hb.httpMajor, hb.httpMinor, hb.statusCode⟩

theorem Touched.nread (h : Touched q q') : q'.nread = q.nread := by
  obtain ⟨e, b, rfl⟩ := h
  rfl

theorem Touched.calm (h : Touched q q') (hc : Calm q) (he : q'.errno = .ok) : Calm q' :=
  ⟨h.bounds hc.bounds, h.nread ▸ hc.nread, he⟩

theorem touched_answered (q : Parser) (r : Reply σ) (e : Errno) : Touched q (q.answered r e) := by
  unfold Parser.answered
  split_ifs
  · exact .errno q e
  · exact .errno q .paused
  · exact .refl q

/-! ## Outcomes -/

/-- The computation does not fail; `P` holds if it goes on, and `Q` of what it returns. -/
def Outcome.Sat {α : Type} (o : Outcome σ α) (P : α → Prop) (Q : Parser → ℕ → Prop) : Prop :=
  match o with
  | .cont a => P a
  | .stop q _ n => Q q n
  | .abort => False

theorem Outcome.Sat.bind {α β : Type} {o : Outcome σ α} {k : α → Outcome σ β} {P : α → Prop}
    {P' : β → Prop} {Q : Parser → ℕ → Prop} (h : o.Sat P Q) (hk : ∀ a, P a → (k a).Sat P' Q) :
    (o.bind k).Sat P' Q := by
  cases o with
  | cont a => exact hk a h
  | stop q app n => exact h
  | abort => exact h

theorem Outcome.Sat.imp {α : Type} {o : Outcome σ α} {P P' : α → Prop} {Q Q' : Parser → ℕ → Prop}
    (h : o.Sat P Q) (hP : ∀ a, P a → P' a) (hQ : ∀ q n, Q q n → Q' q n) : o.Sat P' Q' := by
  cases o with
  | cont a => exact hP a h
  | stop q app n => exact hQ q n h
  | abort => exact h

/-! ## Actions -/

/-- At most the part `c` is marked, at a place that has been passed. -/
def MarksOk (c : Option Part) (f : Frame σ) : Prop :=
  ∀ k m, f.marks k = some m → c = some k ∧ m ≤ f.p

/-- A parser that has been stopped by a callback. -/
def Stopped (q : Parser) (len : ℕ) (q' : Parser) (n : ℕ) : Prop :=
  Touched q q' ∧ q'.errno ≠ .ok ∧ n ≤ len

section Actions

variable (s : Settings σ) {data : Bytes} {p : ℕ} {f : Frame σ} {c : Option Part}

/-- What is known after some actions from the place `p` on that bring the marked part to `c`. -/
structure Acted (data : Bytes) (q : Parser) (p : ℕ) (c : Option Part) (f : Frame σ) : Prop where
  marks : MarksOk c f
  errno : f.parser.errno = .ok
  touched : Touched q f.parser
  le : p ≤ f.p
  lt : f.p < data.length

theorem callbackNotify_sat (h : Acted data q p c f) (note : Note) {k : ℕ} (hk : k ≤ 1) :
    (callbackNotify s note k f).Sat (fun f' => Acted data q p c f' ∧ f'.p = f.p)
      (Stopped q data.length) := by
  unfold callbackNotify
  rw [if_neg (by simp [h.errno])]
  cases s.onNote note with
  | none => exact ⟨h, rfl⟩
  | some cb =>
    have ht := h.touched.trans (touched_answered f.parser (cb f.parser f.app) (.note note))
    dsimp only
    split_ifs with he
    · exact ⟨ht, he, by have := h.lt; omega⟩
    · exact ⟨⟨h.marks, not_not.1 he, ht, h.le, h.lt⟩, rfl⟩

theorem callbackHeadersComplete_sat (h : Acted data q p c f) :
    (callbackHeadersComplete s f).Sat (fun f' => Acted data q p c f' ∧ f'.p = f.p)
      (Stopped q data.length) := by
  have hp := h.lt.le
  unfold callbackHeadersComplete
  cases s.onHeadersComplete with
  | none =>
    dsimp only
    rw [if_neg (by simp [h.errno])]
    exact ⟨h, rfl⟩
  | some cb =>
    dsimp only
    set r := cb f.parser f.app
    -- the parser after the callback, with the body skipped or not
    have hpaused : Touched q (if r.paused then { f.parser with errno := .paused } else f.parser) := by
      split_ifs
      · exact h.touched.trans (.errno _ _)
      · exact h.touched
    generalize (if r.paused then { f.parser with errno := Errno.paused } else f.parser) = q₁ at *
    have hskip : Touched q
        (if r.code = 1 then { q₁ with flags := { q₁.flags with skipbody := true } } else q₁) := by
      split_ifs
      · exact hpaused.trans ⟨q₁.errno, true, rfl⟩
      · exact hpaused
    generalize (if r.code = 1 then { q₁ with flags := { q₁.flags with skipbody := true } } else q₁) = q₂ at *
    split_ifs with hcode he
    · exact ⟨hskip, he, hp⟩
    · exact ⟨⟨h.marks, not_not.1 he, hskip, h.le, h.lt⟩, rfl⟩
    · exact ⟨hpaused.trans (.errno _ _), by simp, hp⟩

/-- Data from a mark that has been passed; afterwards the part is not marked. -/
theorem callbackData_sat (hm : MarksOk c f) (he : f.parser.errno = .ok) (part : Part) {e k : ℕ}
    (hp : f.p + max e k ≤ data.length) :
    (callbackData s data part e k f).Sat
      (fun f' => MarksOk (if c = some part then none else c) f' ∧ f'.parser.errno = .ok ∧
        Touched f.parser f'.parser ∧ f'.p = f.p)
      (Stopped f.parser data.length) := by
  have hcleared : MarksOk (if c = some part then none else c)
      { f with marks := fun k => if k = part then none else f.marks k } := by
    intro j m hj
    dsimp only at hj
    split_ifs at hj with hjp
    obtain ⟨rfl, hle⟩ := hm j m hj
    exact ⟨by simp [hjp], hle⟩
  unfold callbackData
  rw [if_neg (by simp [he])]
  cases hmark : f.marks part with
  | none =>
    refine ⟨?_, he, .refl _, rfl⟩
    intro j m hj
    obtain ⟨rfl, hle⟩ := hm j m hj
    have hjp : j ≠ part := by
      rintro rfl
      simp [hmark] at hj
    exact ⟨by simp [hjp], hle⟩
  | some m =>
    have hle := (hm part m hmark).2
    dsimp only
    rw [if_neg (by omega)]
    cases s.onData part with
    | none => exact ⟨hcleared, he, .refl _, rfl⟩
    | some cb =>
      dsimp only
      have ht := touched_answered f.parser
        (cb f.parser m ((data.drop m).take (f.p - m + e)) f.app) (.data part)
      split
      · rename_i he'
        exact ⟨ht, he', by omega⟩
      · rename_i he'
        exact ⟨hcleared, not_not.1 he', ht, rfl⟩

theorem mark_marksOk {part : Part} (hm : MarksOk c f) (hc : c = none ∨ c = some part) :
    MarksOk (some part) (f.mark part) := by
  intro k m hk
  unfold Frame.mark at hk ⊢
  dsimp only at hk ⊢
  split_ifs at hk with hkp
  · subst hkp
    refine ⟨rfl, ?_⟩
    cases hf : f.marks k with
    | none => simp_all
    | some m' =>
      have := (hm k m' hf).2
      simp_all
  · obtain ⟨rfl, hle⟩ := hm k m hk
    simp_all

/-- An action, with what the actions after it need. -/
theorem act_sat {a : Action} {as : List Action} (h : Acted data q p c f)
    (hw : Within (a :: as) (data.length - f.p)) (hm : Marking (a :: as) c) :
    ∃ c', track (a :: as) c = track as c' ∧ Marking as c' ∧
      (act s data a f).Sat (fun f' => Acted data q p c' f' ∧ Within as (data.length - f'.p))
        (Stopped q data.length) := by
  cases a with
  | mark part =>
    refine ⟨some part, rfl, hm.2, ⟨mark_marksOk h.marks hm.1, h.errno, h.touched, h.le, h.lt⟩, hw⟩
  | skip n =>
    refine ⟨c, rfl, hm, ⟨?_, h.errno, h.touched, h.le.trans (Nat.le_add_right _ _), ?_⟩, ?_⟩
    · intro k m hk
      obtain ⟨hc, hle⟩ := h.marks k m hk
      exact ⟨hc, hle.trans (Nat.le_add_right _ _)⟩
    · have := hw.1
      show f.p + n < data.length
      omega
    · rw [Nat.sub_add_eq]
      exact hw.2
  | notify note k =>
    refine ⟨c, rfl, hm.2, (callbackNotify_sat s h note hw.1).imp ?_ fun _ _ h => h⟩
    rintro f' ⟨hf', hp⟩
    exact ⟨hf', hp ▸ hw.2⟩
  | data part e k =>
    obtain ⟨he, hk, hw⟩ := hw
    have hlt := h.lt
    refine ⟨_, rfl, hm, (callbackData_sat s h.marks h.errno part (by omega)).imp ?_ ?_⟩
    · rintro f' ⟨hmarks, he', ht, hp⟩
      exact ⟨⟨hmarks, he', h.touched.trans ht, hp ▸ h.le, hp ▸ hlt⟩, hp ▸ hw⟩
    · rintro q' n ⟨ht, he', hn⟩
      exact ⟨h.touched.trans ht, he', hn⟩
  | headersComplete =>
    refine ⟨c, rfl, hm.2, (callbackHeadersComplete_sat s h).imp ?_ fun _ _ h => h⟩
    rintro f' ⟨hf', hp⟩
    exact ⟨hf', hp ▸ hw⟩

theorem perform_sat {as : List Action} (h : Acted data q p c f) (hw : Within as (data.length - f.p))
    (hm : Marking as c) :
    (perform s data as f).Sat (Acted data q p (track as c)) (Stopped q data.length) := by
  induction as generalizing f c with
  | nil => exact h
  | cons a as ih =>
    obtain ⟨c', htrack, hm', hsat⟩ := act_sat s h hw hm
    rw [htrack]
    exact hsat.bind fun f' hf' => ih hf'.1 hf'.2 hm'

/-- Marks alone do not stop the parser, whatever its error number is. -/
theorem perform_marks (data : Bytes) {as : List Action} (h : ∀ a ∈ as, ∃ k, a = .mark k) (f : Frame σ) :
    ∃ marks, perform s data as f = .cont { f with marks } := by
  induction as generalizing f with
  | nil => exact ⟨f.marks, rfl⟩
  | cons a as ih =>
    obtain ⟨k, rfl⟩ := h a (List.mem_cons_self ..)
    exact ih (fun a ha => h a (List.mem_cons_of_mem _ ha)) (f.mark k)

end Actions

/-! ## The bytes of a call -/

/-- A parser between two calls: if it has no error, or is only paused, it can go on. -/
structure Rested (q : Parser) : Prop where
  wide : Bounds 9999 q
  bounds : q.errno = .ok ∨ q.errno = .paused → Bounds 999 q
  nread : q.errno = .ok ∨ q.errno = .paused → q.nread ≤ maxHeaderSize
  state : q.errno = .ok ∨ q.errno = .paused → StateOk 0 q

/-- What a call returns: less than all bytes only with an error, a pause, or for another protocol. -/
structure Returned (len : ℕ) (q : Parser) (n : ℕ) : Prop where
  rested : Rested q
  le : n ≤ len
  all : q.errno = .ok → q.upgrade = false → n = len

/-- A parser without an error between two bytes. -/
structure Between (data : Bytes) (f : Frame σ) : Prop where
  calm : Calm f.parser
  state : StateOk 0 f.parser
  marks : MarksOk f.parser.state.markable f
  le : f.p ≤ data.length

theorem Rested.of_calm (hc : Calm q) (hs : StateOk 0 q) : Rested q :=
  ⟨hc.wide, fun _ => hc.bounds, fun _ => hc.nread, fun _ => hs⟩

theorem Rested.of_touched (hc : Calm q) (hs : StateOk 0 q) (h : Touched q q') : Rested q' :=
  ⟨h.bounds hc.wide, fun _ => h.bounds hc.bounds, fun _ => h.nread ▸ hc.nread, fun _ => h.stateOk hs⟩

theorem Rested.of_error (hb : Bounds 9999 q) (he : q.errno ≠ .ok) (hp : q.errno ≠ .paused) : Rested q :=
  ⟨hb, by simp [he, hp], by simp [he, hp], by simp [he, hp]⟩

theorem gotoError_sat {α : Type} {P : α → Prop} {len : ℕ} {f : Frame σ} (hb : Bounds 9999 f.parser)
    (hp : f.parser.errno ≠ .paused) (hle : f.p ≤ len) :
    (gotoError f : Outcome σ α).Sat P (Returned len) := by
  unfold gotoError
  split_ifs with he
  · have hb' : Bounds 9999 { f.parser with errno := .unknown } :=
      ⟨hb.index, hb.nread, hb.contentLength, hb.httpMajor, hb.httpMinor, hb.statusCode⟩
    exact ⟨.of_error hb' (by simp) (by simp), hle, by simp⟩
  · exact ⟨.of_error hb he hp, hle, fun h => absurd h he⟩

theorem count_state (q : Parser) : q.count.state = q.state := by
  unfold Parser.count
  split_ifs <;> rfl

/-- The first byte of a size has been counted when it is looked at. -/
theorem stateOk_count (h : StateOk 0 q) : StateOk 1 q.count := by
  unfold StateOk at *
  rw [count_state]
  unfold Parser.count
  cases hs : q.state <;> simp_all [State.parsingHeader]

theorem calm_count (h : Calm q) (ho : ¬ (q.count.state.parsingHeader ∧ maxHeaderSize < q.count.nread)) :
    Calm q.count := by
  rw [count_state] at ho
  unfold Parser.count at ho ⊢
  split_ifs at ho ⊢ with hp
  · have hn : q.nread + 1 ≤ maxHeaderSize := not_lt.1 fun hlt => ho ⟨hp, hlt⟩
    exact ⟨{ h.bounds with nread := hn.trans (Nat.le_succ _) }, hn, h.errno⟩
  · exact h

theorem bounds_count (h : Calm q) : Bounds 9999 q.count := by
  have hn := h.nread
  have hw := h.wide
  unfold Parser.count
  split_ifs
  · exact { hw with nread := Nat.succ_le_succ hn }
  · exact hw

theorem markCount_le {c : Option Part} {f : Frame σ} (h : MarksOk c f) : markCount f.marks ≤ 1 := by
  have hnone : ∀ k, c ≠ some k → f.marks k = none := by
    intro k hk
    cases hm : f.marks k with
    | none => rfl
    | some m => exact absurd (h k m hm).1 hk
  unfold markCount
  rcases c with - | part
  · simp [hnone]
  · cases part <;> simp [hnone, List.filter_cons] <;> split_ifs <;> simp

theorem rank_lt (s : State) : rank s < 4 := by cases s <;> decide

section Bytes

variable (s : Settings σ) {data : Bytes} {f : Frame σ}

/-- A byte is looked at as often as the rank of the state says. -/
theorem reexecuteByte_sat {ch : UInt8} {n : ℕ} (hl : Live f.parser)
    (hm : MarksOk f.parser.state.markable f) (hlt : f.p < data.length)
    (hn : rank f.parser.state < n) :
    (reexecuteByte s data ch n f).Sat (fun f' => Between data f' ∧ f.p ≤ f'.p ∧ f'.p < data.length)
      (Returned data.length) := by
  induction n generalizing f with
  | zero => exact absurd hn (Nat.not_lt_zero _)
  | succ n ih =>
    obtain ⟨step, hstep, hsound⟩ := switch_sound ch (Nat.sub_pos_of_lt hlt) hl
    unfold reexecuteByte
    rw [hstep]
    dsimp only
    by_cases hexit : step.exit = .error
    · obtain ⟨hp, hmarks⟩ := hsound.error hexit
      obtain ⟨marks, hperform⟩ := perform_marks s data hmarks { f with parser := step.parser }
      rw [hperform, hexit]
      exact gotoError_sat hsound.wide hp hlt.le
    · have hcalm := hsound.calm hexit
      have hacted : Acted data step.parser f.p f.parser.state.markable
          { f with parser := step.parser } := ⟨hm, hcalm.errno, .refl _, le_rfl, hlt⟩
      have hstate : StateOk 0 step.parser := by
        cases he : step.exit with
        | next => exact hsound.next (.inl he)
        | again => exact (hsound.again he).1 0
        | error => exact absurd he hexit
        | finish => exact hsound.next (.inr he)
      refine ((perform_sat s hacted hsound.within hsound.marking).imp (fun _ h => h) ?_).bind ?_
      · rintro q' m ⟨ht, he, hle⟩
        exact ⟨.of_touched hcalm hstate ht, hle, fun h => absurd h he⟩
      · intro f' hf'
        have hcalm' := hf'.touched.calm hcalm hf'.errno
        have hmarks : MarksOk f'.parser.state.markable f' := by
          intro k m hk
          obtain ⟨hc, hle⟩ := hf'.marks k m hk
          refine ⟨?_, hle⟩
          rw [hf'.touched.state]
          obtain ⟨h, -⟩ | h := hsound.tracked hexit
          · rw [h] at hc
            cases hc
          · rw [← h, hc]
        cases he : step.exit with
        | next => exact ⟨⟨hcalm', hf'.touched.stateOk hstate, hmarks, hf'.lt.le⟩, hf'.le, hf'.lt⟩
        | again =>
          obtain ⟨hs, hr, -⟩ := hsound.again he
          have hrank : rank f'.parser.state < n := by
            rw [hf'.touched.state]
            omega
          refine (ih ⟨hcalm', hf'.touched.stateOk (hs 1)⟩ hmarks hf'.lt hrank).imp ?_ fun _ _ h => h
          exact fun f'' h => ⟨h.1, hf'.le.trans h.2.1, h.2.2⟩
        | error => exact absurd he hexit
        | finish =>
          refine ⟨.of_calm hcalm' (hf'.touched.stateOk hstate), hf'.lt, ?_⟩
          have hu := (hsound.finish he).1
          obtain ⟨e, b, hq⟩ := hf'.touched
          intro _ hup
          rw [hq] at hup
          simp [hu] at hup

theorem round_sat {ch : UInt8} (h : Between data f) (hlt : f.p < data.length) :
    (round s data ch f).Sat (fun f' => Between data f' ∧ f.p < f'.p) (Returned data.length) := by
  unfold round
  dsimp only
  split_ifs with ho
  · refine gotoError_sat ?_ (by simp) h.le
    have hb := bounds_count h.calm
    exact ⟨hb.index, hb.nread, hb.contentLength, hb.httpMajor, hb.httpMinor, hb.statusCode⟩
  · have hlive : Live f.parser.count := ⟨calm_count h.calm ho, stateOk_count h.state⟩
    have hm : MarksOk f.parser.count.state.markable { f with parser := f.parser.count } := by
      rw [count_state]
      exact h.marks
    refine (reexecuteByte_sat s hlive hm hlt (rank_lt _)).bind fun f' ⟨hf', hle, hlt'⟩ => ?_
    refine ⟨⟨hf'.calm, hf'.state, ?_, hlt'⟩, Nat.lt_succ_of_le hle⟩
    intro k m hk
    obtain ⟨hc, hm⟩ := hf'.marks k m hk
    exact ⟨hc, hm.trans (Nat.le_succ _)⟩

/-- One of the callbacks after the last byte. -/
theorem leftoverCallback_sat {c : Option Part} (hm : MarksOk c f) (hc : Calm f.parser)
    (hs : StateOk 0 f.parser) (hle : f.p ≤ data.length) (part : Part) :
    (callbackData s data part 0 0 f).Sat
      (fun f' => (∃ c', MarksOk c' f') ∧ Calm f'.parser ∧ StateOk 0 f'.parser ∧ f'.p ≤ data.length)
      (Returned data.length) := by
  refine (callbackData_sat s hm hc.errno part (by simpa using hle)).imp ?_ ?_
  · rintro f' ⟨hm', he, ht, hp⟩
    exact ⟨⟨_, hm'⟩, ht.calm hc he, ht.stateOk hs, hp ▸ hle⟩
  · rintro q n ⟨ht, he, hn⟩
    exact ⟨.of_touched hc hs ht, hn, fun h => absurd h he⟩

theorem leftover_sat (h : Between data f) :
    (leftover s data f).Sat (fun f' => Rested f'.parser) (Returned data.length) := by
  unfold leftover
  rw [if_neg (by have := markCount_le h.marks; omega)]
  refine (leftoverCallback_sat s h.marks h.calm h.state h.le _).bind ?_
  rintro f₁ ⟨⟨c₁, hm₁⟩, hc₁, hs₁, hp₁⟩
  refine (leftoverCallback_sat s hm₁ hc₁ hs₁ hp₁ _).bind ?_
  rintro f₂ ⟨⟨c₂, hm₂⟩, hc₂, hs₂, hp₂⟩
  refine (leftoverCallback_sat s hm₂ hc₂ hs₂ hp₂ _).bind ?_
  rintro f₃ ⟨⟨c₃, hm₃⟩, hc₃, hs₃, hp₃⟩
  refine (leftoverCallback_sat s hm₃ hc₃ hs₃ hp₃ _).imp ?_ fun _ _ h => h
  rintro f₄ ⟨-, hc₄, hs₄, -⟩
  exact .of_calm hc₄ hs₄

/-- The loop comes to an end, since every round passes at least one byte. -/
theorem loop_sat {n : ℕ} (h : Between data f) (hn : data.length - f.p ≤ n) :
    (loop s data n f).Sat (fun f' => Rested f'.parser) (Returned data.length) := by
  induction n generalizing f with
  | zero =>
    have := h.le
    unfold loop
    rw [if_pos (by omega)]
    exact leftover_sat s h
  | succ n ih =>
    unfold loop
    split_ifs with hp
    · exact leftover_sat s h
    · have hlt : f.p < data.length := lt_of_le_of_ne h.le hp
      rw [List.getElem?_eq_getElem hlt]
      refine (round_sat s h hlt).bind fun f' ⟨hf', hlt'⟩ => ih hf' (by omega)

theorem marksOk_initial {app : σ} :
    MarksOk q.state.markable ⟨q, app, 0, initialMarks q⟩ := by
  intro k m hk
  unfold initialMarks at hk
  dsimp only at hk
  split_ifs at hk with hpart
  cases hk
  refine ⟨?_, le_rfl⟩
  cases hs : q.state <;> simp_all [State.part, State.markable]

/-- A call with no data. -/
theorem executeEof_returns (h : Rested q) (he : q.errno = .ok) (app : σ) :
    ∃ q' app' n, executeEof s q app = some (q', app', n) ∧ Rested q' ∧ n ≤ 1 ∧
      (q'.errno = .ok → n = 0) := by
  have hc : Calm q := ⟨h.bounds (.inl he), h.nread (.inl he), he⟩
  have hs := h.state (.inl he)
  unfold executeEof
  split
  · unfold callbackNotify
    rw [if_neg (by simp [he])]
    cases s.onNote .messageComplete with
    | none => exact ⟨q, app, 0, rfl, h, by decide, fun _ => rfl⟩
    | some cb =>
      dsimp only
      have ht := touched_answered q (cb q app) (.note .messageComplete)
      split_ifs
      · exact ⟨_, _, _, rfl, .of_touched hc hs ht, by decide, fun _ => rfl⟩
      · exact ⟨_, _, _, rfl, .of_touched hc hs ht, by decide, fun _ => rfl⟩
  iterate 4
    · exact ⟨q, app, 0, rfl, h, by decide, fun _ => rfl⟩
  · have hw := h.wide
    have hb : Bounds 9999 { q with errno := .invalidEofState } :=
      ⟨hw.index, hw.nread, hw.contentLength, hw.httpMajor, hw.httpMinor, hw.statusCode⟩
    exact ⟨_, app, 1, rfl, .of_error hb (by simp) (by simp), le_rfl, by simp⟩

theorem execute_rested (data : Bytes) (h : Rested q) (app : σ) :
    ∃ q' app' n, execute s data q app = some (q', app', n) ∧ Rested q' ∧ n ≤ max data.length 1 ∧
      (q'.errno = .ok → q'.upgrade = false → n = data.length) := by
  unfold execute
  split_ifs with he hd
  · exact ⟨q, app, 0, rfl, h, Nat.zero_le _, fun h => absurd h he⟩
  · subst hd
    obtain ⟨q', app', n, hx, hr, hn, hok⟩ := executeEof_returns s h (not_not.1 he) app
    exact ⟨q', app', n, hx, hr, by simpa using hn, fun h _ => hok h⟩
  · have he := not_not.1 he
    have hb : Between data ⟨q, app, 0, initialMarks q⟩ :=
      ⟨⟨h.bounds (.inl he), h.nread (.inl he), he⟩, h.state (.inl he), marksOk_initial, Nat.zero_le _⟩
    have hsat := loop_sat s hb (Nat.sub_le data.length 0)
    cases hl : loop s data data.length ⟨q, app, 0, initialMarks q⟩ with
    | cont f =>
      rw [hl] at hsat
      exact ⟨_, _, _, rfl, hsat, le_max_left _ _, fun _ _ => rfl⟩
    | stop q' app' n =>
      rw [hl] at hsat
      exact ⟨_, _, _, rfl, hsat.rested, le_max_of_le_left hsat.le, hsat.all⟩
    | abort =>
      rw [hl] at hsat
      exact hsat.elim

end Bytes

/-! ## Any number of calls -/

/-- The parsers that a program can come to: it initialises one, executes it on any data with any
callbacks, and pauses it or lets it go on. -/
inductive Reachable : Parser → Prop where
  | init (t : ParserType) : Reachable (init t)
  | execute {σ : Type} {s : Settings σ} {data : Bytes} {app app' : σ} {q q' : Parser} {n : ℕ}
      (h : Reachable q) (hx : execute s data q app = some (q', app', n)) : Reachable q'
  | pause {q q' : Parser} {paused : Bool} (h : Reachable q) (hp : pause q paused = some q') :
      Reachable q'

theorem rested_init (t : ParserType) : Rested (init t) := by
  refine .of_calm ⟨⟨?_, ?_, ?_, ?_, ?_, ?_⟩, ?_, rfl⟩ ?_
  all_goals cases t <;> trivial

theorem rested_pause {paused : Bool} (h : Rested q) (hp : pause q paused = some q') : Rested q' := by
  unfold pause at hp
  split_ifs at hp with he
  all_goals
    cases hp
    have hc : Calm { q with errno := .ok } :=
      ⟨{ h.bounds he with }, h.nread he, rfl⟩
    have hs : StateOk 0 { q with errno := .ok } := (Touched.errno q .ok).stateOk (h.state he)
    exact .of_touched hc hs ⟨_, q.flags.skipbody, rfl⟩

theorem Reachable.rested (h : Reachable q) : Rested q := by
  induction h with
  | init t => exact rested_init t
  | @execute σ s data app app' q q' n _ hx ih =>
    obtain ⟨q₁, app₁, n₁, hx₁, hr, -, -⟩ := execute_rested s data ih app
    rw [hx₁] at hx
    cases hx
    exact hr
  | pause _ hp ih => exact rested_pause ih hp

/-- The numbers of a parser fit into the types of their fields. -/
structure FieldsFit (q : Parser) : Prop where
  index : q.index < 2 ^ 8
  nread : q.nread < 2 ^ 32
  contentLength : q.contentLength < 2 ^ 64
  httpMajor : q.httpMajor < 2 ^ 16
  httpMinor : q.httpMinor < 2 ^ 16
  statusCode : q.statusCode < 2 ^ 16

theorem Rested.fieldsFit (h : Rested q) : FieldsFit q := by
  obtain ⟨h1, h2, h3, h4, h5, h6⟩ := h.wide
  unfold maxHeaderSize at h2
  unfold ullongMax at h3
  constructor <;> omega

/-- Every call of `http_parser_execute` returns, whatever has been done with the parser before, whatever
the data are and whatever the callbacks do: no assertion fails, no table is read outside its bounds, and
the data of every callback lie in the data of the call. Fewer bytes than there are have been parsed only
after an error or a pause, or when the connection goes on in another protocol. -/
theorem execute_returns (h : Reachable q) (s : Settings σ) (data : Bytes) (app : σ) :
    ∃ q' app' n, execute s data q app = some (q', app', n) ∧ FieldsFit q' ∧
      n ≤ max data.length 1 ∧ (q'.errno = .ok → q'.upgrade = false → n = data.length) := by
  obtain ⟨q', app', n, hx, hr, hn, hall⟩ := execute_rested s data h.rested app
  exact ⟨q', app', n, hx, hr.fieldsFit, hn, hall⟩

theorem execute_returns_init :
    ∃ q' app' n,
      execute ({} : Settings Unit) (bytesOf "GET / HTTP/1.1" ++ [cr, lf, cr, lf]) (init .request) () =
        some (q', app', n) ∧ FieldsFit q' ∧ n ≤ 18 ∧
          (q'.errno = .ok → q'.upgrade = false → n = 18) :=
  execute_returns (.init .request) _ _ _

end HttpParser

end CaptureHpc
