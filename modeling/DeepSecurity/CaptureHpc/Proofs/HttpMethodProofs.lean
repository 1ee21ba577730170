import DeepSecurity.CaptureHpc.Proofs.HttpHeaderProofs

/-!
# The methods of requests

The parser knows a method by its first character, and goes over to another one where a character tells
them apart. It does not compare the third character of most methods.
-/

namespace CaptureHpc

namespace HttpParser

open Pieces

variable {q q' : Parser} {ch : UInt8} {l : Bytes}

/-! ## Reading a method -/

/-- A character of a method that is not the space after it. -/
def methodStep (s : Method × ℕ) (ch : UInt8) : Option (Method × ℕ) :=
  if ch = 0 then none
  else
    match charAt (methodString s.1) s.2 with
    | none => none
    | some c =>
      if ch = chr ' ' ∧ c = 0 then none
      else if ch = c then some (s.1, s.2 + 1)
      else
        match otherMethod s.1 s.2 ch with
        | .ok m => some (m, s.2 + 1)
        | .error _ => none

def Parser.inMethod (q : Parser) (s : Method × ℕ) : Parser := { q with method := s.1, index := s.2 }

theorem caseReqMethod_step {s : Method × ℕ} (h : methodStep (q.method, q.index) ch = some s) :
    caseReqMethod q ch = some { parser := q.inMethod s } := by
  unfold methodStep at h
  unfold caseReqMethod
  split_ifs at h ⊢ with h0
  dsimp only at h
  cases hc : charAt (methodString q.method) q.index with
  | none => simp [hc] at h
  | some c =>
    simp only [hc] at h
    simp only [Option.bind_eq_bind, Option.bind_some, Option.pure_def]
    split_ifs at h ⊢ with h1 h2
    · cases h
      rfl
    · cases ho : otherMethod q.method q.index ch with
      | ok m =>
        rw [ho] at h
        cases h
        rfl
      | error e =>
        rw [ho] at h
        cases h

theorem reads_method {s : Method × ℕ} (hs : q.state = .reqMethod)
    (h : l.foldlM methodStep (q.method, q.index) = some s) (hn : q.nread + l.length ≤ maxHeaderSize) :
    Reads q l ((q.inMethod s).advance l.length) [] := by
  induction l generalizing q with
  | nil =>
    cases h
    exact .refl q
  | cons b l ih =>
    have hlen : q.nread + (l.length + 1) ≤ maxHeaderSize := hn
    rw [List.foldlM_cons] at h
    obtain ⟨s₁, hs₁, h⟩ := Option.bind_eq_some_iff.1 h
    have hbyte : Reads q [b] ((q.inMethod s₁).advance 1) [] := by
      refine .headerPlain hs rfl (by omega) ?_
      rw [switch, show (q.advance 1).state = .reqMethod from hs]
      exact caseReqMethod_step (q := q.advance 1) hs₁
    have hrest := ih (q := (q.inMethod s₁).advance 1) hs h (by show q.nread + 1 + l.length ≤ _; omega)
    rw [List.length_cons, Nat.add_comm, ← advance_advance]
    exact hbyte.trans hrest

/-- Every method is read as itself. -/
theorem foldlM_methodString (m : Method) :
    ∃ a l m₀, methodString m = a :: l ∧ firstMethod a = some m₀ ∧
      l.foldlM methodStep (m₀, 1) = some (m, (methodString m).length) := by
  cases m <;> exact ⟨_, _, _, rfl, rfl, by decide⟩

theorem reads_methodStart {m : Method} (hs : q.state = .startReq) (hm : firstMethod ch = some m)
    (hn : q.nread < maxHeaderSize) :
    Reads q [ch] (((q.reset.goto .reqMethod).inMethod (m, 1)).advance 1) [.note .messageBegin] := by
  have hletter : ∀ c : UInt8, firstMethod c ≠ none → isNewline c = false ∧ isAlpha c = true := by
    decide +kernel
  obtain ⟨hnl, ha⟩ := hletter ch (by simp [hm])
  have hstep : switch (q.advance 1) ch 1 =
      some (notifying (((q.reset.goto .reqMethod).inMethod (m, 1)).advance 1) .messageBegin) := by
    rw [switch, show (q.advance 1).state = .startReq from hs]
    dsimp only
    rw [caseStartReq, if_neg (by simp [hnl]), if_neg (by simp [ha]), hm]
    rfl
  have := Reads.headerStep (by rw [hs]; rfl) hn hstep rfl
  rwa [Step.reports, Step.part, hs] at this

theorem reads_methodEnd {m : Method} (hs : q.state = .reqMethod) (hm : q.method = m)
    (hi : q.index = (methodString m).length) (hn : q.nread < maxHeaderSize) :
    Reads q [chr ' '] ((({ q with index := q.index + 1 } : Parser).goto .reqSpacesBeforeUrl).advance 1) [] := by
  refine .headerPlain hs rfl hn ?_
  have hc : charAt (methodString (q.advance 1).method) (q.advance 1).index = some 0 := by
    show charAt (methodString q.method) q.index = some 0
    rw [hm, hi]
    exact charAt_length _
  rw [switch, show (q.advance 1).state = .reqMethod from hs]
  dsimp only
  rw [caseReqMethod, if_neg (by decide), hc]
  simp only [Option.bind_eq_bind, Option.bind_some]
  rfl

/-- The method with its space. -/
theorem parses_method (m : Method) (hs : q.state = .startReq)
    (hn : q.nread + (methodString m).length + 1 ≤ maxHeaderSize) :
    ∃ i, Parses q (methodString m ++ [chr ' '])
      (((q.reset.goto .reqSpacesBeforeUrl).inMethod (m, i)).advance ((methodString m).length + 1))
      [.note .messageBegin] := by
  obtain ⟨a, l, m₀, hm, hfirst, hfold⟩ := foldlM_methodString m
  have hlen : (methodString m).length = l.length + 1 := by rw [hm]; rfl
  have h₁ := reads_methodStart hs hfirst (by omega)
  have h₂ := reads_method (q := ((q.reset.goto .reqMethod).inMethod (m₀, 1)).advance 1) rfl hfold
    (by show q.nread + 1 + l.length ≤ _; omega)
  have h₃ := reads_methodEnd (m := m)
    (q := (((q.reset.goto .reqMethod).inMethod (m, (methodString m).length)).advance 1).advance l.length)
    rfl rfl rfl (by show q.nread + 1 + l.length < _; omega)
  refine ⟨(methodString m).length + 1, ?_⟩
  have hall := ((h₁.trans h₂).trans h₃).parses
  have hprint : methodString m ++ [chr ' '] = [a] ++ l ++ [chr ' '] := by rw [hm]; rfl
  rw [hprint]
  refine hall.of_eq (eq_of_nread ?_ rfl)
  show q.nread + 1 + l.length + 1 = q.nread + ((methodString m).length + 1)
  omega

/-! ## What is taken for a method -/

/-- The bytes of a method up to its space. -/
def methodRun : Bytes → Option (Method × ℕ)
  | [] => none
  | a :: l => (firstMethod a).bind fun m => l.foldlM methodStep (m, 1)

/-- The third character may be this one. -/
def lenient (m : Method) (c : UInt8) : Bool :=
  match m with
  | .connect | .mkcol | .subscribe | .copy | .mkactivity | .purge | .unsubscribe => false
  | .put => c != chr 'R'
  | .unlock => c != chr 'S'
  | _ => true

/-- The bytes that are taken for a method. -/
def Spells (m : Method) (w : Bytes) : Prop :=
  w = methodString m ∨ ∃ c, c ≠ 0 ∧ lenient m c = true ∧ w = (methodString m).set 2 c

/-- The number of characters that tell a method from the ones it branches off. -/
def branchEnd : Method → ℕ
  | .copy | .mkactivity | .purge | .unsubscribe => 3
  | .proppatch => 5
  | _ => 0

/-- The first characters of a method. -/
structure Begins (m : Method) (w : Bytes) : Prop where
  known : branchEnd m ≤ w.length
  chars : w = (methodString m).take w.length ∨
    2 < w.length ∧ ∃ c, c ≠ 0 ∧ lenient m c = true ∧ w = ((methodString m).set 2 c).take w.length

theorem methodString_ne_zero (m : Method) : ∀ c ∈ methodString m, c ≠ 0 := by
  have h : (methodString m).all (· != 0) = true := by cases m <;> rfl
  simpa [List.all_eq_true] using h

/-- A branch keeps the characters that have been read. Only the last one is later than the third character. -/
theorem branches_take : ∀ b ∈ branches, b = (.propfind, 4, chr 'P', .proppatch) ∨
    b.2.1 ≤ 2 ∧ branchEnd b.2.2.2 ≤ b.2.1 + 1 ∧
      (methodString b.1).take b.2.1 = (methodString b.2.2.2).take b.2.1 ∧
        (methodString b.2.2.2)[b.2.1]? = some b.2.2.1 := by decide

/-- A character that is not the next one of the method is let through, or leads to another method. -/
theorem otherMethod_ok {m m' : Method} {i : ℕ} (h : otherMethod m i ch = .ok m')
    (hi : branchEnd m ≤ i) :
    (m' = m ∧ i = 2 ∧ lenient m ch = true) ∨
      (i ≤ 2 ∧ branchEnd m' ≤ i + 1 ∧ (methodString m).take i = (methodString m').take i ∧
        (methodString m')[i]? = some ch) ∨
      (i = 4 ∧ m = .propfind ∧ m' = .proppatch ∧ ch = chr 'P') := by
  have hturns := turns_otherMethod m i ch
  rw [h] at hturns
  cases hturns with
  | branch hb =>
    obtain heq | hsame := branches_take _ hb
    · cases heq
      exact .inr (.inr ⟨rfl, rfl, rfl, rfl⟩)
    · exact .inr (.inl hsame)
  | pass h2 hm hput hunlock =>
    refine .inl ⟨rfl, h2, ?_⟩
    cases m <;> simp_all [lenient, branchEnd]

theorem charAt_eq_zero {m : Method} {i : ℕ} (h : charAt (methodString m) i = some 0) :
    i = (methodString m).length := by
  obtain ⟨hi, hget⟩ := List.getElem?_eq_some_iff.1 h
  rw [List.length_append, List.length_singleton] at hi
  by_contra hne
  have hlt : i < (methodString m).length := by omega
  rw [List.getElem_append_left hlt] at hget
  exact methodString_ne_zero m _ (List.getElem_mem hlt) hget

theorem charAt_of_ne_zero {m : Method} {i : ℕ} (h : charAt (methodString m) i = some ch) (h0 : ch ≠ 0) :
    (methodString m)[i]? = some ch := by
  obtain ⟨hi, hget⟩ := List.getElem?_eq_some_iff.1 h
  rw [List.length_append, List.length_singleton] at hi
  have hlt : i < (methodString m).length := by
    by_contra hge
    obtain rfl : i = (methodString m).length := by omega
    rw [List.getElem_concat_length rfl] at hget
    exact h0 hget.symm
  rw [List.getElem_append_left hlt] at hget
  exact List.getElem?_eq_some_iff.2 ⟨hlt, hget⟩

theorem append_take {s w : Bytes} (hw : w = s.take w.length) (hc : s[w.length]? = some ch) :
    w ++ [ch] = s.take (w ++ [ch]).length := by
  rw [List.length_append, List.length_singleton, List.take_add_one, hc, ← hw]
  rfl

/-- One more character. -/
theorem Begins.step {m m' : Method} {w : Bytes} {j : ℕ} (hw : Begins m w)
    (h : methodStep (m, w.length) ch = some (m', j)) : j = w.length + 1 ∧ Begins m' (w ++ [ch]) := by
  unfold methodStep at h
  split_ifs at h with h0
  dsimp only at h
  have hsucc : (w ++ [ch]).length = w.length + 1 := by simp
  cases hc : charAt (methodString m) w.length with
  | none => simp [hc] at h
  | some c =>
    simp only [hc] at h
    split_ifs at h with h1 h2
    · -- the next character of the method
      cases h
      subst h2
      have hget := charAt_of_ne_zero hc h0
      refine ⟨rfl, hw.known.trans (by omega), ?_⟩
      obtain hw | ⟨hlen, c, hc0, hl, hw⟩ := hw.chars
      · exact .inl (append_take hw hget)
      · refine .inr ⟨by omega, c, hc0, hl, append_take hw ?_⟩
        rw [List.getElem?_set_ne (by omega), hget]
    · cases ho : otherMethod m w.length ch with
      | error e => simp [ho] at h
      | ok m₁ =>
        rw [ho] at h
        cases h
        refine ⟨rfl, ?_⟩
        obtain ⟨rfl, h2, hl⟩ | ⟨hle, hb, htake, hget⟩ | ⟨h4, rfl, rfl, rfl⟩ := otherMethod_ok ho hw.known
        · have hw₂ := hw.chars.resolve_right fun h => absurd h.1 (by omega)
          refine ⟨hw.known.trans (by omega), .inr ⟨by omega, ch, h0, hl, append_take ?_ ?_⟩⟩
          · rw [h2, List.take_set_of_le le_rfl, ← h2, ← hw₂]
          · rw [h2, List.getElem?_set_self (three_le_methodString _)]
        · have hw₂ := hw.chars.resolve_right fun h => absurd h.1 (by omega)
          exact ⟨by omega, .inl (append_take (hw₂.trans htake) hget)⟩
        · refine ⟨by rw [hsucc, h4]; decide, ?_⟩
          obtain hw | ⟨hlen, c, hc0, hl, hw⟩ := hw.chars
          · refine .inl (append_take ?_ (by rw [h4]; decide))
            rw [hw, h4]
            decide
          · refine .inr ⟨by omega, c, hc0, rfl, append_take ?_ ?_⟩
            · rw [h4] at hw ⊢
              exact hw
            · rw [h4]
              rfl

theorem Begins.run {m m' : Method} {w : Bytes} {j : ℕ} (hw : Begins m w)
    (h : l.foldlM methodStep (m, w.length) = some (m', j)) :
    j = (w ++ l).length ∧ Begins m' (w ++ l) := by
  induction l generalizing m w with
  | nil =>
    cases h
    simpa using hw
  | cons a l ih =>
    rw [List.foldlM_cons] at h
    obtain ⟨⟨m₁, j₁⟩, h₁, h⟩ := Option.bind_eq_some_iff.1 h
    obtain ⟨rfl, hw₁⟩ := hw.step h₁
    have := ih hw₁ (by rwa [List.length_append, List.length_singleton])
    rwa [List.append_assoc] at this

theorem begins_firstMethod {m : Method} (h : firstMethod ch = some m) : Begins m [ch] := by
  have hall : ∀ c : UInt8, ∀ m ∈ firstMethod c,
      branchEnd m = 0 ∧ (methodString m).head? = some c := by
    decide +kernel
  obtain ⟨hb, hc⟩ := hall ch m h
  refine ⟨by omega, .inl ?_⟩
  obtain ⟨l, hl⟩ := List.head?_eq_some_iff.1 hc
  rw [hl]
  rfl

theorem spells_of_methodRun {m : Method} {w : Bytes} {i : ℕ} (h : methodRun w = some (m, i))
    (hend : charAt (methodString m) i = some 0) : Spells m w := by
  cases w with
  | nil => cases h
  | cons a l =>
    obtain ⟨m₀, hm₀, h⟩ := Option.bind_eq_some_iff.1 h
    obtain ⟨rfl, -, hw⟩ := (begins_firstMethod hm₀).run h
    have hlen := charAt_eq_zero hend
    rw [List.singleton_append] at hlen hw
    obtain hw | ⟨-, c, hc0, hl, hw⟩ := hw
    · rw [hlen, List.take_length] at hw
      exact .inl hw
    · rw [hlen, List.take_of_length_le (by simp)] at hw
      exact .inr ⟨c, hc0, hl, hw⟩

/-- What comes before and after the third character. -/
theorem methodString_parts {m : Method} {x : UInt8} (hx : lenient m x = true) :
    ∃ a b c l m₁ m₂, methodString m = a :: b :: c :: l ∧ firstMethod a = some m₁ ∧
      methodStep (m₁, 1) b = some (m₂, 2) ∧ lenient m₂ x = true ∧
        l.foldlM methodStep (m₂, 3) = some (m, (methodString m).length) := by
  cases m
  all_goals
    first
    | exact ⟨_, _, _, _, _, _, rfl, rfl, rfl, hx, by decide⟩
    | cases hx

theorem methodStep_third {m : Method} {x : UInt8} (hx : lenient m x = true) (h0 : x ≠ 0) :
    methodStep (m, 2) x = some (m, 3) := by
  obtain ⟨c, hc⟩ : ∃ c, charAt (methodString m) 2 = some c :=
    ⟨_, List.getElem?_eq_getElem (by have := three_le_methodString m; simp; omega)⟩
  have hc0 : c ≠ 0 := by
    rintro rfl
    have := charAt_eq_zero hc
    have := three_le_methodString m
    omega
  have hother : otherMethod m 2 x = .ok m := by
    cases m <;> simp_all [otherMethod, lenient]
  unfold methodStep
  rw [if_neg h0]
  simp only [hc]
  rw [if_neg (by simp [hc0]), hother]
  exact ite_self _

theorem methodRun_of_spells {m : Method} {w : Bytes} (h : Spells m w) :
    methodRun w = some (m, (methodString m).length) := by
  obtain rfl | ⟨x, h0, hx, rfl⟩ := h
  · obtain ⟨a, l, m₀, hm, hfirst, hfold⟩ := foldlM_methodString m
    rw [← hfold, hm, methodRun, hfirst]
    rfl
  · obtain ⟨a, b, c, l, m₁, m₂, hm, hfirst, hstep, hx₂, hfold⟩ := methodString_parts hx
    rw [← hfold, hm]
    show methodRun (a :: b :: x :: l) = _
    rw [methodRun, hfirst, Option.bind_some, List.foldlM_cons, hstep]
    show (x :: l).foldlM methodStep (m₂, 2) = _
    rw [List.foldlM_cons, methodStep_third hx₂ h0]
    rfl

/-! ## Calls of the parser -/

/-- After every byte of `w` the parser is within the method. -/
def WithinMethod (w : Bytes) : Prop :=
  ∀ v, v <+: w → v ≠ [] → ∃ q es, feed recorder [v] (init .request) [] = some (q, es, v.length) ∧
    q.state = .reqMethod

/-- The parser takes `w` for the method `m`. -/
def TakesFor (m : Method) (w : Bytes) : Prop :=
  WithinMethod w ∧ ∃ q es,
    feed recorder [w ++ [chr ' ']] (init .request) [] = some (q, es, w.length + 1) ∧
      q.state = .reqSpacesBeforeUrl ∧ q.method = m

/-- The parser after some bytes of a method. -/
def inMethodOf (s : Method × ℕ) (n : ℕ) : Parser :=
  (((init .request).reset.goto .reqMethod).inMethod s).advance n

theorem read_of_feed {w : Bytes} {es : List Report} {n : ℕ} (hw : w ≠ [])
    (h : feed recorder [w] (init .request) [] = some (q, es, n)) :
    ∃ es', read (init .request) w = some (q, es', n) := by
  obtain ⟨q', app, es', m, hfeed, hread, -⟩ := feed_agree [w]
    ((Reachable.init .request).open rfl rfl) (by simp) (by simpa using hw) []
  rw [h] at hfeed
  cases hfeed
  exact ⟨es', by simpa using hread⟩

theorem feed_of_reads {w : Bytes} {es : List Report} (hw : w ≠ []) (h : Reads (init .request) w q es) :
    ∃ app, feed recorder [w] (init .request) [] = some (q, app, w.length) := by
  obtain ⟨q', app, es', n, hfeed, hread, -⟩ := feed_agree [w]
    ((Reachable.init .request).open rfl rfl) (by simp) (by simpa using hw) []
  have hall := h []
  rw [List.append_nil] at hall
  rw [List.flatten_singleton, hall] at hread
  simp only [read, Option.map_some, Option.some.injEq, Prod.mk.injEq] at hread
  obtain ⟨rfl, -, rfl⟩ := hread
  exact ⟨app, by rw [hfeed, Nat.zero_add]⟩

theorem methodRun_of_append {v u : Bytes} {s : Method × ℕ} (hv : v ≠ []) (h : methodRun (v ++ u) = some s) :
    ∃ s', methodRun v = some s' := by
  obtain ⟨a, l, rfl⟩ := List.exists_cons_of_ne_nil hv
  rw [List.cons_append] at h
  obtain ⟨m, hm, h⟩ := Option.bind_eq_some_iff.1 h
  rw [List.foldlM_append] at h
  obtain ⟨s', hs', -⟩ := Option.bind_eq_some_iff.1 h
  exact ⟨s', by rw [methodRun, hm]; exact hs'⟩

theorem reads_methodRun {w : Bytes} {s : Method × ℕ} (h : methodRun w = some s)
    (hn : w.length ≤ maxHeaderSize) :
    Reads (init .request) w (inMethodOf s w.length) [.note .messageBegin] := by
  cases w with
  | nil => cases h
  | cons a l =>
    obtain ⟨m₀, hm₀, h⟩ := Option.bind_eq_some_iff.1 h
    have hlen : l.length + 1 ≤ maxHeaderSize := hn
    have h₁ := reads_methodStart (q := init .request) rfl hm₀ (by show 0 < _; omega)
    have h₂ := reads_method (q := inMethodOf (m₀, 1) 1) rfl h (by show 0 + 1 + _ ≤ _; omega)
    have := h₁.trans h₂
    rw [List.append_nil] at this
    refine (congrArg (Reads _ _ · _) ?_).mp this
    exact eq_of_nread (by show 0 + 1 + l.length = 0 + (l.length + 1); omega) rfl

/-- A byte that has been read. -/
theorem lookAt_of_read {es : List Report} (hp : q.state.parsingHeader = true) (hn : q.nread < maxHeaderSize)
    (h : read q [ch] = some (q', es, 1)) :
    ∃ es' exit, exit ≠ .error ∧ lookAt ch 4 (q.advance 1) = some (q', es', exit) := by
  have hcount : q.count = q.advance 1 := if_pos hp
  have ho : ¬ Overflows q := by
    rw [Overflows, hcount]
    exact fun h => absurd h.2 (by show ¬ _ < q.nread + 1; omega)
  rw [read_cons ho, hcount] at h
  cases hl : lookAt ch 4 (q.advance 1) with
  | none => simp [hl] at h
  | some x =>
    obtain ⟨q₁, es₁, exit⟩ := x
    rw [hl] at h
    cases exit with
    | error => simp at h
    | finish =>
      simp only [Option.some.injEq, Prod.mk.injEq, and_true] at h
      exact ⟨es₁, .finish, by decide, by rw [h.1]⟩
    | next =>
      simp only [read, Option.map_some, Option.some.injEq, Prod.mk.injEq] at h
      exact ⟨es₁, .next, by decide, by rw [h.1]⟩
    | again =>
      simp only [read, Option.map_some, Option.some.injEq, Prod.mk.injEq] at h
      exact ⟨es₁, .again, by decide, by rw [h.1]⟩

theorem lookAt_fail {p : Parser} {e : Errno} {n : ℕ} (h : switch q ch 1 = some (fail p e)) :
    ∃ q' es, lookAt ch (n + 1) q = some (q', es, .error) := by
  rw [lookAt, h]
  exact ⟨_, _, rfl⟩

/-- A byte that is not a character of the method ends it, or is an error. -/
theorem caseReqMethod_none (h : methodStep (q.method, q.index) ch = none) :
    caseReqMethod q ch = none ∨ (∃ e, caseReqMethod q ch = some (fail q e)) ∨
      (ch = chr ' ' ∧ charAt (methodString q.method) q.index = some 0 ∧
        caseReqMethod q ch = some { parser := { q with state := .reqSpacesBeforeUrl, index := q.index + 1 } }) := by
  unfold methodStep at h
  unfold caseReqMethod
  split_ifs at h ⊢ with h0
  · exact .inr (.inl ⟨_, rfl⟩)
  dsimp only at h
  cases hc : charAt (methodString q.method) q.index with
  | none => exact .inl rfl
  | some c =>
    simp only [hc] at h
    simp only [Option.bind_eq_bind, Option.bind_some, Option.pure_def]
    split_ifs at h ⊢ with h1 h2
    · obtain ⟨rfl, rfl⟩ := h1
      exact .inr (.inr ⟨rfl, rfl, rfl⟩)
    · cases ho : otherMethod q.method q.index ch with
      | ok m => simp [ho] at h
      | error e => exact .inr (.inl ⟨e, rfl⟩)

/-- What a byte does within a method. -/
theorem methodStep_of_read {s : Method × ℕ} {n : ℕ} {es : List Report} (hn : n < maxHeaderSize)
    (h : read (inMethodOf s n) [ch] = some (q', es, 1)) :
    (∃ s', methodStep s ch = some s' ∧ q'.state = .reqMethod) ∨
      (ch = chr ' ' ∧ charAt (methodString s.1) s.2 = some 0 ∧ q'.state = .reqSpacesBeforeUrl ∧
        q'.method = s.1) := by
  obtain ⟨es', exit, he, hl⟩ := lookAt_of_read rfl (by show 0 + n < _; omega) h
  have hswitch : switch ((inMethodOf s n).advance 1) ch 1 = caseReqMethod ((inMethodOf s n).advance 1) ch :=
    rfl
  cases hm : methodStep s ch with
  | some s' =>
    rw [lookAt_next (hswitch.trans (caseReqMethod_step (q := (inMethodOf s n).advance 1) hm)) rfl] at hl
    cases hl
    exact .inl ⟨s', rfl, rfl⟩
  | none =>
    obtain hcase | ⟨e, hcase⟩ | ⟨hch, h0, hcase⟩ := caseReqMethod_none (q := (inMethodOf s n).advance 1) hm
    · rw [lookAt, hswitch, hcase] at hl
      cases hl
    · obtain ⟨q₁, es₁, hfail⟩ := lookAt_fail (n := 3) (hswitch.trans hcase)
      rw [hfail] at hl
      cases hl
      exact absurd rfl he
    · rw [lookAt_next (hswitch.trans hcase) rfl] at hl
      cases hl
      exact .inr ⟨hch, h0, rfl, rfl⟩

/-- A first byte. -/
theorem firstMethod_of_read {es : List Report} (h : read (init .request) [ch] = some (q', es, 1))
    (hs : q'.state = .reqMethod) : ∃ m, firstMethod ch = some m := by
  obtain ⟨es', exit, he, hl⟩ := lookAt_of_read rfl (by decide) h
  have hswitch : switch ((init .request).advance 1) ch 1 =
      some (caseStartReq ((init .request).advance 1) ch) := rfl
  cases hm : firstMethod ch with
  | some m => exact ⟨m, rfl⟩
  | none =>
    rw [caseStartReq] at hswitch
    split_ifs at hswitch with hnl ha
    · rw [lookAt_next hswitch rfl] at hl
      cases hl
      cases hs
    · obtain ⟨q₁, es₁, hfail⟩ := lookAt_fail (n := 3) hswitch
      rw [hfail] at hl
      cases hl
      exact absurd rfl he
    · rw [hm] at hswitch
      obtain ⟨q₁, es₁, hfail⟩ := lookAt_fail (n := 3) hswitch
      rw [hfail] at hl
      cases hl
      exact absurd rfl he

theorem WithinMethod.methodRun {w : Bytes} (h : WithinMethod w) (hw : w ≠ [])
    (hn : w.length ≤ maxHeaderSize) : ∃ s, methodRun w = some s := by
  induction w using List.reverseRecOn with
  | nil => exact absurd rfl hw
  | append_singleton v c ih =>
    obtain ⟨q, es, hfeed, hs⟩ := h (v ++ [c]) List.prefix_rfl (by simp)
    obtain ⟨es', hread⟩ := read_of_feed (by simp) hfeed
    by_cases hv : v = []
    · subst hv
      obtain ⟨m, hm⟩ := firstMethod_of_read hread hs
      exact ⟨(m, 1), by simp [HttpParser.methodRun, hm]⟩
    · rw [List.length_append, List.length_singleton] at hn hread
      obtain ⟨s, hrun⟩ := ih (fun u hu => h u (hu.trans (List.prefix_append v [c]))) hv (by omega)
      rw [reads_methodRun hrun (by omega)] at hread
      obtain ⟨⟨q₁, es₁, n⟩, hread, heq⟩ := Option.map_eq_some_iff.1 hread
      simp only [Prod.mk.injEq] at heq
      obtain ⟨rfl, -, hlen⟩ := heq
      obtain rfl : n = 1 := by omega
      obtain ⟨s', hs', -⟩ | ⟨-, -, hs', -⟩ := methodStep_of_read (by omega) hread
      · obtain ⟨a, l, rfl⟩ := List.exists_cons_of_ne_nil hv
        refine ⟨s', ?_⟩
        obtain ⟨m₀, hm₀, hrun⟩ := Option.bind_eq_some_iff.1 hrun
        rw [List.cons_append, HttpParser.methodRun, hm₀, Option.bind_some, List.foldlM_append, hrun]
        simp [hs']
      · rw [hs] at hs'
        cases hs'

/-- The bytes that the parser takes for a method are its name, or for most methods its name with another
third character. -/
theorem takesFor_iff {m : Method} {w : Bytes} (hw : w ≠ []) (hn : w.length < maxHeaderSize) :
    TakesFor m w ↔ Spells m w := by
  constructor
  · rintro ⟨hin, q, es, hfeed, hs, rfl⟩
    obtain ⟨⟨m, i⟩, hrun⟩ := hin.methodRun hw hn.le
    obtain ⟨es', hread⟩ := read_of_feed (by simp) hfeed
    rw [reads_methodRun hrun hn.le] at hread
    obtain ⟨⟨q₁, es₁, n⟩, hread, heq⟩ := Option.map_eq_some_iff.1 hread
    simp only [Prod.mk.injEq] at heq
    obtain ⟨rfl, -, hlen⟩ := heq
    obtain rfl : n = 1 := by omega
    obtain ⟨s', -, hs'⟩ | ⟨-, h0, -, hm⟩ := methodStep_of_read hn hread
    · rw [hs] at hs'
      cases hs'
    · rw [hm]
      exact spells_of_methodRun hrun h0
  · intro h
    have hrun := methodRun_of_spells h
    refine ⟨fun v hv hne => ?_, ?_⟩
    · obtain ⟨u, rfl⟩ := hv
      obtain ⟨s, hs⟩ := methodRun_of_append hne hrun
      rw [List.length_append] at hn
      obtain ⟨es, hfeed⟩ := feed_of_reads hne (reads_methodRun hs (by omega))
      exact ⟨_, es, hfeed, rfl⟩
    · have hend := reads_methodEnd (m := m) (q := inMethodOf (m, (methodString m).length) w.length) rfl rfl rfl
        (by show 0 + w.length < _; omega)
      obtain ⟨es, hfeed⟩ := feed_of_reads (by simp) ((reads_methodRun hrun hn.le).trans hend)
      rw [List.length_append, List.length_singleton] at hfeed
      exact ⟨_, es, hfeed, rfl, rfl⟩

theorem takesFor_get : TakesFor .get (bytesOf "GE?") :=
  (takesFor_iff (by decide) (by decide)).2 (.inr ⟨chr '?', by decide, rfl, by decide⟩)

end HttpParser

end CaptureHpc
