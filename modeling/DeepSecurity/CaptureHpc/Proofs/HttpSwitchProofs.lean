import DeepSecurity.CaptureHpc.HttpReader
import Mathlib.Tactic.SplitIfs

/-!
# The cases of the switch

What holds of a parser between two bytes and while a byte is looked at, for every state, and which part
of the data may be marked; one lemma for each case of the switch.
-/

namespace CaptureHpc

namespace HttpParser

/-! ## Invariants -/

/-- The header states within a name, with the index into the name that is looked for. -/
def NameOk (h : HeaderState) (i : ℕ) : Prop :=
  match h with
  | .general | .connection | .contentLength | .transferEncoding | .upgrade => True
  | .C => i = 0
  | .CO => i = 1
  | .CON => i = 2
  | .matchingConnection => i ≤ connectionName.length
  | .matchingProxyConnection => i ≤ proxyConnectionName.length
  | .matchingContentLength => i ≤ contentLengthName.length
  | .matchingTransferEncoding => i ≤ transferEncodingName.length
  | .matchingUpgrade => i ≤ upgradeName.length
  | _ => False

/-- The header states within a value. -/
def ValueOk (h : HeaderState) (i : ℕ) : Prop :=
  match h with
  | .connection | .transferEncoding => False
  | .matchingTransferEncodingChunked => i ≤ chunkedValue.length
  | .matchingConnectionKeepAlive => i ≤ keepAliveValue.length
  | .matchingConnectionClose => i ≤ closeValue.length
  | _ => True

/-- What the assertions of a state need. The bytes read so far are `n` where a size begins: none before
its first byte, and one when it is looked at. -/
def StateOk (n : ℕ) (q : Parser) : Prop :=
  match q.state with
  | .reqMethod => q.index ≤ (methodString q.method).length
  | .headerField => NameOk q.headerState q.index
  | .headerValue => ValueOk q.headerState q.index
  | .chunkSizeStart => q.flags.chunked ∧ q.nread = n
  | .chunkSize | .chunkParameters | .chunkSizeAlmostDone =>
    q.flags.chunked ∧ q.contentLength < ullongMax
  | .chunkData => q.flags.chunked ∧ 0 < q.contentLength ∧ q.contentLength < ullongMax
  | .chunkDataAlmostDone => q.flags.chunked ∧ q.contentLength = 0
  | .chunkDataDone => q.flags.chunked
  | .bodyIdentity => 0 < q.contentLength ∧ q.contentLength < ullongMax
  | _ => True

theorem StateOk.of_state {n : ℕ} {q : Parser} {s : State} (hs : q.state = s)
    (h : StateOk n (q.goto s)) : StateOk n q := by
  subst hs
  exact h

theorem StateOk.at_state {n : ℕ} {q : Parser} {s : State} (h : StateOk n q) (hs : q.state = s) :
    StateOk n (q.goto s) := by
  subst hs
  exact h

/-- Bounds for the numbers of a parser, with one for the version and the status. -/
structure Bounds (limit : ℕ) (q : Parser) : Prop where
  index : q.index ≤ 18
  nread : q.nread ≤ maxHeaderSize + 1
  contentLength : q.contentLength ≤ ullongMax
  httpMajor : q.httpMajor ≤ limit
  httpMinor : q.httpMinor ≤ limit
  statusCode : q.statusCode ≤ limit

/-- A parser without an error. -/
structure Calm (q : Parser) : Prop where
  bounds : Bounds 999 q
  nread : q.nread ≤ maxHeaderSize
  errno : q.errno = .ok

/-- A parser that is about to look at a byte. -/
structure Live (q : Parser) : Prop extends Calm q where
  state : StateOk 1 q

/-- How often a byte may be looked at again. -/
def rank : State → ℕ
  | .headerValueLws => 3
  | .headerFieldStart => 2
  | .headersAlmostDone | .startReqOrRes | .headerValue | .bodyIdentity => 1
  | _ => 0

/-- No other part is marked when a part is, and none when something else is reported. -/
def Marking : List Action → Option Part → Prop
  | [], _ => True
  | .mark k :: as, c => (c = none ∨ c = some k) ∧ Marking as (some k)
  | .data k _ _ :: as, c => Marking as (if c = some k then none else c)
  | .notify _ _ :: as, c => c = none ∧ Marking as c
  | .headersComplete :: as, c => c = none ∧ Marking as c
  | .skip _ :: as, c => Marking as c

/-- The actions stay within `r` bytes. -/
def Within : List Action → ℕ → Prop
  | [], r => 0 < r
  | .skip n :: as, r => n < r ∧ Within as (r - n)
  | .data _ extra consumed :: as, r => extra ≤ 1 ∧ consumed ≤ 1 ∧ Within as r
  | .notify _ consumed :: as, r => consumed ≤ 1 ∧ Within as r
  | _ :: as, r => Within as r

/-- The states in which more than one byte may be read at once. -/
def State.bulk : State → Bool
  | .bodyIdentity | .bodyIdentityEof | .chunkData => true
  | _ => false

/-- The action is about the current byte and those before it. -/
def Action.Plain : Action → Prop
  | .skip _ => False
  | .data _ extra _ => extra = 0
  | _ => True

/-- What a case of the switch does to a live parser with `r` bytes to read. -/
structure Sound (q : Parser) (r : ℕ) (step : Step) : Prop where
  wide : Bounds 9999 step.parser
  calm : step.exit ≠ .error → Calm step.parser
  error : step.exit = .error → step.parser.errno ≠ .paused ∧ ∀ a ∈ step.actions, ∃ k, a = .mark k
  next : step.exit = .next ∨ step.exit = .finish → StateOk 0 step.parser
  again : step.exit = .again → (∀ n, StateOk n step.parser) ∧
    rank step.parser.state < rank q.state ∧ step.parser.state.bulk = false
  finish : step.exit = .finish → step.parser.upgrade ∧ step.parser.state.markable = none
  within : Within step.actions r
  marking : Marking step.actions q.state.markable
  tracked : step.exit ≠ .error →
    track step.actions q.state.markable = none ∧ step.parser.state.part = none ∨
      track step.actions q.state.markable = step.parser.state.markable
  plain : q.state.bulk = false → ∀ a ∈ step.actions, a.Plain
  upgrade : step.exit ≠ .error →
    step.parser.upgrade = q.upgrade ∨ q.state = .headersAlmostDone ∧ step.exit = .again

variable {q q' : Parser} {r : ℕ} {ch : UInt8} {n : ℕ}

theorem Bounds.mono {m : ℕ} (h : Bounds n q) (hm : n ≤ m) : Bounds m q :=
  ⟨h.index, h.nread, h.contentLength, h.httpMajor.trans hm, h.httpMinor.trans hm,
    h.statusCode.trans hm⟩

theorem Calm.wide (h : Calm q) : Bounds 9999 q := h.bounds.mono (by decide)

/-- The error and the numbers of a parser. -/
def Parser.numbers (q : Parser) : Errno × ℕ × ℕ × ℕ × ℕ × ℕ × ℕ :=
  (q.errno, q.index, q.nread, q.contentLength, q.httpMajor, q.httpMinor, q.statusCode)

/-- A parser that differs from a calm one in nothing that is bounded. -/
theorem Calm.congr (h : Calm q) (hsame : q'.numbers = q.numbers) : Calm q' := by
  simp only [Parser.numbers, Prod.mk.injEq] at hsame
  obtain ⟨he, hi, hn, hc, hj, hm, ht⟩ := hsame
  obtain ⟨hb, hr, ho⟩ := h
  exact ⟨⟨hi ▸ hb.index, hn ▸ hb.nread, hc ▸ hb.contentLength, hj ▸ hb.httpMajor, hm ▸ hb.httpMinor,
    ht ▸ hb.statusCode⟩, hn ▸ hr, he.trans ho⟩

theorem Calm.goto (h : Calm q) (s : State) : Calm (q.goto s) := h.congr rfl

theorem Calm.reset (h : Calm q) : Calm q.reset :=
  ⟨{ h.bounds with contentLength := le_rfl }, h.nread, h.errno⟩

theorem Calm.index {i : ℕ} (h : Calm q) (hi : i ≤ 18) : Calm { q with index := i } :=
  ⟨{ h.bounds with index := hi }, h.nread, h.errno⟩

theorem Calm.contentLength {l : ℕ} (h : Calm q) (hl : l ≤ ullongMax) :
    Calm { q with contentLength := l } :=
  ⟨{ h.bounds with contentLength := hl }, h.nread, h.errno⟩

theorem Calm.nread_zero (h : Calm q) : Calm { q with nread := 0 } :=
  ⟨{ h.bounds with nread := Nat.zero_le _ }, Nat.zero_le _, h.errno⟩

/-! ## Shapes of a step -/

section Shapes

theorem Sound.of_next {as : List Action} (hc : Calm q') (hs : StateOk 0 q') (hw : Within as r)
    (hm : Marking as q.state.markable)
    (ht : track as q.state.markable = none ∧ q'.state.part = none ∨
      track as q.state.markable = q'.state.markable)
    (hp : q.state.bulk = false → ∀ a ∈ as, a.Plain) (hu : q'.upgrade = q.upgrade) :
    Sound q r { parser := q', actions := as } where
  wide := hc.wide
  calm := fun _ => hc
  error := by simp
  next := fun _ => hs
  again := by simp
  finish := by simp
  within := hw
  marking := hm
  tracked := fun _ => ht
  plain := hp
  upgrade := fun _ => .inl hu

theorem Sound.of_again {as : List Action} (hc : Calm q') (hs : ∀ n, StateOk n q') (hw : Within as r)
    (hm : Marking as q.state.markable) (ht : track as q.state.markable = none)
    (hk : rank q'.state < rank q.state) (hp : q.state.bulk = false → ∀ a ∈ as, a.Plain)
    (hs' : q'.state.part = none) (hb : q'.state.bulk = false)
    (hu : q'.upgrade = q.upgrade ∨ q.state = .headersAlmostDone) :
    Sound q r { parser := q', actions := as, exit := .again } where
  wide := hc.wide
  calm := fun _ => hc
  error := by simp
  next := by simp
  again := fun _ => ⟨hs, hk, hb⟩
  finish := by simp
  within := hw
  marking := hm
  tracked := fun _ => .inl ⟨ht, hs'⟩
  plain := hp
  upgrade := fun _ => hu.imp_right fun h => ⟨h, rfl⟩

variable (hr : 0 < r)

include hr

theorem Sound.fail (h : Bounds 9999 q') {e : Errno} (he : e ≠ .paused) : Sound q r (fail q' e) where
  wide := ⟨h.index, h.nread, h.contentLength, h.httpMajor, h.httpMinor, h.statusCode⟩
  calm := by simp [HttpParser.fail]
  error := fun _ => ⟨he, by simp [HttpParser.fail]⟩
  next := by simp [HttpParser.fail]
  again := by simp [HttpParser.fail]
  finish := by simp [HttpParser.fail]
  within := hr
  marking := trivial
  tracked := by simp [HttpParser.fail]
  plain := by simp [HttpParser.fail]
  upgrade := by simp [HttpParser.fail]

theorem Sound.fail_marking {part : Part} (ht : q.state.markable = none) (h : Bounds 9999 q')
    {e : Errno} (he : e ≠ .paused) :
    Sound q r { HttpParser.fail q' e with actions := [.mark part] } where
  wide := ⟨h.index, h.nread, h.contentLength, h.httpMajor, h.httpMinor, h.statusCode⟩
  calm := by simp [HttpParser.fail]
  error := fun _ => ⟨he, by simp⟩
  next := by simp [HttpParser.fail]
  again := by simp [HttpParser.fail]
  finish := by simp [HttpParser.fail]
  within := hr
  marking := ⟨.inl ht, trivial⟩
  tracked := by simp [HttpParser.fail]
  plain := by simp [Action.Plain]
  upgrade := by simp [HttpParser.fail]

theorem Sound.plain_step (hc : Calm q') (hs : StateOk 0 q')
    (ht : q.state.markable = none ∧ q'.state.part = none ∨ q.state.markable = q'.state.markable)
    (hu : q'.upgrade = q.upgrade) : Sound q r { parser := q' } :=
  .of_next hc hs hr trivial ht (by simp) hu

theorem Sound.notifying (hc : Calm q') (hs : StateOk 0 q') (ht : q.state.markable = none)
    (note : Note) (hp : q'.state.part = none) (hu : q'.upgrade = q.upgrade) :
    Sound q r (notifying q' note) :=
  .of_next hc hs ⟨le_rfl, hr⟩ ⟨ht, trivial⟩ (.inl ⟨ht, hp⟩) (by simp [Action.Plain]) hu

theorem Sound.reporting (hc : Calm q') (hs : StateOk 0 q') {part : Part}
    (ht : q.state.markable = some part) (hp : q'.state.part = none) (hu : q'.upgrade = q.upgrade) :
    Sound q r (reporting q' part) :=
  .of_next hc hs ⟨by decide, le_rfl, hr⟩ trivial (.inl ⟨by simp [track, ht], hp⟩)
    (by simp [Action.Plain]) hu

/-- `MARK` and `CALLBACK_DATA`: a call without bytes. -/
theorem Sound.reporting_empty (hc : Calm q') (hs : StateOk 0 q') {part : Part}
    (ht : q.state.markable = none) (hp : q'.state.part = none) (hu : q'.upgrade = q.upgrade) :
    Sound q r { parser := q', actions := [.mark part, .data part 0 1] } :=
  .of_next hc hs ⟨by decide, le_rfl, hr⟩ ⟨.inl ht, trivial⟩ (.inl ⟨by simp [track], hp⟩)
    (by simp [Action.Plain]) hu

theorem Sound.marking_part (hc : Calm q') (hs : StateOk 0 q') {part : Part}
    (ht : q.state.markable = none) (hp : q'.state.markable = some part)
    (hu : q'.upgrade = q.upgrade) :
    Sound q r { parser := q', actions := [.mark part] } :=
  .of_next hc hs hr ⟨.inl ht, trivial⟩ (.inr hp.symm) (by simp [Action.Plain]) hu

theorem Sound.reexecuting (hc : Calm q') (hs : ∀ n, StateOk n q') (ht : q.state.markable = none)
    (hk : rank q'.state < rank q.state) (hp : q'.state.part = none) (hb : q'.state.bulk = false)
    (hu : q'.upgrade = q.upgrade) : Sound q r (reexecuting q') :=
  .of_again hc hs hr trivial ht hk (by simp) hp hb (.inl hu)

end Shapes

/-! ## The first line -/

theorem part_of_markable {s : State} (h : s.markable = none) : s.part = none := by
  cases s <;> first | rfl | cases h

theorem three_le_methodString (m : Method) : 3 ≤ (methodString m).length := by cases m <;> decide

theorem methodString_length_le (m : Method) : (methodString m).length ≤ 11 := by cases m <;> decide

theorem charAt_isSome {w : Bytes} {i : ℕ} (h : i ≤ w.length) : ∃ c, charAt w i = some c :=
  ⟨_, List.getElem?_eq_getElem (by simpa using Nat.lt_succ_of_le h)⟩

theorem charAt_length (w : Bytes) : charAt w w.length = some 0 := by simp [charAt]

/-- The characters that lead from one method to another, with their places. -/
def branches : List (Method × ℕ × UInt8 × Method) :=
  [(.connect, 1, chr 'H', .checkout), (.connect, 2, chr 'P', .copy),
    (.mkcol, 1, chr 'O', .move), (.mkcol, 1, chr 'E', .merge), (.mkcol, 1, chr '-', .msearch),
    (.mkcol, 2, chr 'A', .mkactivity), (.subscribe, 1, chr 'E', .search),
    (.post, 1, chr 'R', .propfind), (.post, 1, chr 'U', .put), (.post, 1, chr 'A', .patch),
    (.put, 2, chr 'R', .purge), (.unlock, 2, chr 'S', .unsubscribe), (.propfind, 4, chr 'P', .proppatch)]

/-- What becomes of a method at a character that is not its next one. -/
inductive Turns (m : Method) (i : ℕ) (ch : UInt8) : Except Errno Method → Prop
  | error {e : Errno} (he : e ≠ .paused) : Turns m i ch (.error e)
  | branch {m' : Method} (h : (m, i, ch, m') ∈ branches) : Turns m i ch (.ok m')
  | pass (hi : i = 2) (hm : m ≠ .connect ∧ m ≠ .mkcol ∧ m ≠ .subscribe)
      (hput : m = .put → ch ≠ chr 'R') (hunlock : m = .unlock → ch ≠ chr 'S') : Turns m i ch (.ok m)

theorem turns_otherMethod (m : Method) (i : ℕ) (ch : UInt8) : Turns m i ch (otherMethod m i ch) := by
  have hfail : Turns m i ch (.error .ok) := .error nofun
  have hbranch (m₀ : Method) (j : ℕ) (c : UInt8) {m' : Method} (hmem : (m₀, j, c, m') ∈ branches)
      (hm : m = m₀) (h : i = j ∧ ch = c) : Turns m i ch (.ok m') := by
    obtain ⟨rfl, rfl⟩ := h
    exact .branch (hm ▸ hmem)
  unfold otherMethod
  refine iteInduction (fun hm => ?_) fun hconnect => iteInduction (fun hm => ?_) fun hmkcol =>
    iteInduction (fun hm => ?_) fun hsubscribe => iteInduction (fun hm => ?_) fun _ =>
      iteInduction (fun hi => ?_) fun _ => iteInduction (fun hm => ?_) fun _ => .error nofun
  · exact iteInduction (hbranch .connect 1 _ (by decide) hm) fun _ =>
      iteInduction (hbranch .connect 2 _ (by decide) hm) fun _ => hfail
  · exact iteInduction (hbranch .mkcol 1 _ (by decide) hm) fun _ =>
      iteInduction (hbranch .mkcol 1 _ (by decide) hm) fun _ =>
        iteInduction (hbranch .mkcol 1 _ (by decide) hm) fun _ =>
          iteInduction (hbranch .mkcol 2 _ (by decide) hm) fun _ => hfail
  · exact iteInduction (hbranch .subscribe 1 _ (by decide) hm) fun _ => hfail
  · obtain ⟨hi, hm⟩ := hm
    exact iteInduction (fun h => hbranch .post 1 _ (by decide) hm ⟨hi, h⟩) fun _ =>
      iteInduction (fun h => hbranch .post 1 _ (by decide) hm ⟨hi, h⟩) fun _ =>
        iteInduction (fun h => hbranch .post 1 _ (by decide) hm ⟨hi, h⟩) fun _ => hfail
  · have hpass : (m = .put → ch ≠ chr 'R') → (m = .unlock → ch ≠ chr 'S') → Turns m i ch (.ok m) :=
      .pass hi ⟨hconnect, hmkcol, hsubscribe⟩
    split_ifs with hput hr hunlock hs
    · exact hbranch .put 2 _ (by decide) hput ⟨hi, hr⟩
    · subst hput
      exact hpass (fun _ => hr) nofun
    · exact hbranch .unlock 2 _ (by decide) hunlock ⟨hi, hs⟩
    · subst hunlock
      exact hpass nofun fun _ => hs
    · exact hpass (absurd · hput) (absurd · hunlock)
  · exact hbranch .propfind 4 _ (by decide) hm.2.1 ⟨hm.1, hm.2.2⟩

theorem lt_of_mem_branches : ∀ b ∈ branches, b.2.1 < (methodString b.2.2.2).length := by decide

theorem otherMethod_length {m m' : Method} {i : ℕ} (h : otherMethod m i ch = .ok m') :
    i + 1 ≤ (methodString m').length := by
  have hturns := turns_otherMethod m i ch
  rw [h] at hturns
  cases hturns with
  | branch hb => exact lt_of_mem_branches _ hb
  | pass hi => exact hi ▸ three_le_methodString _

theorem otherMethod_error {m : Method} {i : ℕ} {e : Errno} (h : otherMethod m i ch = .error e) :
    e ≠ .paused := by
  have hturns := turns_otherMethod m i ch
  rw [h] at hturns
  cases hturns with
  | error he => exact he

theorem part_parseUrlChar {s : State} (h : parseUrlChar s ch ≠ .dead) :
    (parseUrlChar s ch).part = some .url := by
  revert h
  unfold parseUrlChar
  split
  · simp
  · cases s <;> simp only [serverChar, ne_eq, not_true_eq_false, false_implies] <;> split_ifs <;>
      simp [State.part]

theorem markable_of_url {s : State} (h : s.part = some .url) : s.markable = some .url := by
  cases s <;> simp_all [State.part, State.markable]

theorem stateOk_of_url (h : q.state.part = some .url) : StateOk n q := by
  unfold StateOk
  split <;> simp_all [State.part]

theorem digit_le (h : isNum ch = true) : ch.toNat - 48 ≤ 9 := by
  revert ch
  decide +kernel

theorem unhex_le {d : ℕ} (h : unhex ch = some d) : d ≤ 15 := by
  have : ∀ c : UInt8, (unhex c).getD 0 ≤ 15 := by decide +kernel
  simpa [h] using this ch

theorem isNum_of_not_lt (h : ¬ (ch < chr '1' ∨ chr '9' < ch)) : isNum ch = true := by
  revert ch
  decide +kernel

theorem decimalDigit_le {m : ℕ} (hm : m ≤ 999) (h : isNum ch = true) : decimalDigit m ch ≤ 9999 := by
  have hd := digit_le h
  unfold decimalDigit
  omega

theorem nameOk_first (c : UInt8) : NameOk (firstHeaderState c) 0 := by
  unfold firstHeaderState
  split_ifs <;> simp [NameOk]

/-- A word that is looked for: the index goes on, and the state is kept only within the word. -/
theorem matchWord_spec (w : Bytes) (found : HeaderState) (c : UInt8) :
    (matchWord w found q c).index = q.index + 1 ∧
      matchWord w found q c = { q with headerState := (matchWord w found q c).headerState, index := q.index + 1 } ∧
      ((matchWord w found q c).headerState = .general ∨ (matchWord w found q c).headerState = found ∨
        (matchWord w found q c).headerState = q.headerState ∧ q.index + 1 ≤ w.length) := by
  unfold matchWord
  dsimp only
  split_ifs with h h'
  · exact ⟨rfl, rfl, .inl rfl⟩
  · exact ⟨rfl, rfl, .inr (.inl rfl)⟩
  · exact ⟨rfl, rfl, .inr (.inr ⟨rfl, not_lt.1 fun hlt => h (.inl hlt)⟩)⟩

/-- What a character does to the header state and the index. -/
structure Matched (Ok : HeaderState → ℕ → Prop) (q q' : Parser) : Prop where
  index : q'.index ≤ max q.index 18
  ok : Ok q'.headerState q'.index
  same : q' = { q with headerState := q'.headerState, index := q'.index }

theorem Matched.refl {Ok : HeaderState → ℕ → Prop} (h : Ok q.headerState q.index) : Matched Ok q q :=
  ⟨le_max_left _ _, h, rfl⟩

theorem Matched.headerState {Ok : HeaderState → ℕ → Prop} {h : HeaderState} (hh : Ok h q.index) :
    Matched Ok q { q with headerState := h } :=
  ⟨le_max_left _ _, hh, rfl⟩

theorem Matched.matchWord {Ok : HeaderState → ℕ → Prop} {w : Bytes} {found : HeaderState} {c : UInt8}
    (hw : w.length ≤ 17) (hi : q.index ≤ w.length) (hg : ∀ i, Ok .general i) (hf : ∀ i, Ok found i)
    (hk : ∀ i ≤ w.length, Ok q.headerState i) : Matched Ok q (matchWord w found q c) := by
  obtain ⟨h1, h2, h3⟩ := matchWord_spec (q := q) w found c
  refine ⟨by omega, ?_, by rw [h1]; exact h2⟩
  rw [h1]
  obtain h | h | ⟨h, hl⟩ := h3
  · rw [h]
    exact hg _
  · rw [h]
    exact hf _
  · rw [h]
    exact hk _ hl

theorem Matched.calm {Ok : HeaderState → ℕ → Prop} (h : Matched Ok q q') (hq : Calm q) : Calm q' := by
  rw [h.same]
  exact (hq.index (h.index.trans (max_le hq.bounds.index le_rfl))).congr rfl

/-- One of the letters before it is clear which name it is. -/
theorem Matched.letter {i : ℕ} {h : HeaderState} (hi : q.index = i) (hl : i ≤ 2)
    (hn : NameOk h (i + 1)) : Matched NameOk q { q with index := q.index + 1, headerState := h } := by
  subst hi
  exact ⟨le_max_of_le_right (show q.index + 1 ≤ 18 by omega), hn, rfl⟩

theorem nameChar_matched {c : UInt8} (h : NameOk q.headerState q.index) :
    ∃ q', nameChar q ch c = some q' ∧ Matched NameOk q q' := by
  have hg : ∀ i, NameOk .general i := fun _ => trivial
  cases hs : q.headerState <;> simp only [nameChar, hs, Option.some.injEq, exists_eq_left'] <;>
    rw [hs] at h
  case general => exact .refl (by rw [hs]; trivial)
  case C => exact .letter h (by decide) (by split_ifs <;> trivial)
  case CO => exact .letter h (by decide) (by split_ifs <;> trivial)
  case CON => exact .letter h (by decide) (by split_ifs <;> simp [NameOk] <;> decide)
  case matchingConnection =>
    exact .matchWord (by decide) h hg (fun _ => trivial) (by rw [hs]; exact fun _ h => h)
  case matchingProxyConnection =>
    exact .matchWord (by decide) h hg (fun _ => trivial) (by rw [hs]; exact fun _ h => h)
  case matchingContentLength =>
    exact .matchWord (by decide) h hg (fun _ => trivial) (by rw [hs]; exact fun _ h => h)
  case matchingTransferEncoding =>
    exact .matchWord (by decide) h hg (fun _ => trivial) (by rw [hs]; exact fun _ h => h)
  case matchingUpgrade =>
    exact .matchWord (by decide) h hg (fun _ => trivial) (by rw [hs]; exact fun _ h => h)
  case connection | contentLength | transferEncoding | upgrade =>
    split_ifs
    · exact .headerState trivial
    · exact .refl (by rw [hs]; trivial)
  all_goals exact h.elim

theorem markable_newMessage : (newMessage q).markable = none := by
  unfold newMessage startState
  split_ifs <;> rfl

theorem part_newMessage : (newMessage q).part = none := part_of_markable markable_newMessage

theorem stateOk_newMessage {q' : Parser} : StateOk n (q.goto (newMessage q')) := by
  unfold newMessage startState
  split_ifs <;> trivial

theorem validLength_of (h0 : 0 < q.contentLength) (hm : q.contentLength < ullongMax) :
    validLength q = true := by
  simp [validLength, h0.ne', hm.ne]

section Cases

variable (hr : 0 < r) (hq : Live q)

include hr hq

/-- The parser goes to a state of which nothing is assumed. -/
theorem sound_goto {s : State} (ht : q.state.markable = none) (hs : StateOk 0 (q.goto s))
    (hp : s.part = none) : Sound q r { parser := q.goto s } :=
  .plain_step hr (hq.goto s) hs (.inl ⟨ht, hp⟩) rfl

theorem sound_same (ht : StateOk 0 q) : Sound q r { parser := q } :=
  .plain_step hr hq.toCalm ht (.inr rfl) rfl

theorem sound_fail {e : Errno} (he : e ≠ .paused) : Sound q r (fail q e) := .fail hr hq.wide he

theorem sound_expect {c : UInt8} {s : State} (ht : q.state.markable = none)
    (hs : StateOk 0 (q.goto s)) (hp : s.part = none) : Sound q r (expect q ch c s) := by
  unfold expect
  split_ifs
  · exact sound_fail hr hq (by decide)
  · exact sound_goto hr hq ht hs hp

theorem caseDead_sound (hs : q.state = .dead) : Sound q r (caseDead q ch) := by
  unfold caseDead
  split_ifs
  · exact sound_same hr hq (StateOk.of_state hs trivial)
  · exact sound_fail hr hq (by decide)

theorem caseStartReqOrRes_sound (hs : q.state = .startReqOrRes) :
    Sound q r (caseStartReqOrRes q ch) := by
  have ht : q.state.markable = none := by rw [hs]; rfl
  unfold caseStartReqOrRes
  split_ifs
  · exact sound_same hr hq (StateOk.of_state hs trivial)
  · exact .notifying hr (hq.reset.goto .resOrRespH) trivial ht _ rfl rfl
  · exact .reexecuting hr (hq.reset.congr rfl) (fun _ => trivial) ht (by rw [hs]; exact Nat.zero_lt_one) rfl rfl rfl

theorem caseResOrRespH_sound (hs : q.state = .resOrRespH) : Sound q r (caseResOrRespH q ch) := by
  have ht : q.state.markable = none := by rw [hs]; rfl
  unfold caseResOrRespH
  split_ifs
  · exact .plain_step hr (hq.congr rfl) trivial (.inl ⟨ht, rfl⟩) rfl
  · exact sound_fail hr hq (by decide)
  · refine .plain_step hr ((hq.index (i := 2) (by decide)).congr rfl) ?_ (.inl ⟨ht, rfl⟩) rfl
    exact (by decide : 2 ≤ (methodString .head).length)

theorem caseStartRes_sound (hs : q.state = .startRes) : Sound q r (caseStartRes q ch) := by
  have ht : q.state.markable = none := by rw [hs]; rfl
  unfold caseStartRes
  split_ifs
  · exact .notifying hr (hq.reset.goto .resH) trivial ht _ rfl rfl
  · exact .notifying hr hq.reset (StateOk.of_state hs trivial) ht _ (part_of_markable ht) rfl
  · exact .fail hr hq.reset.wide (by decide)

theorem caseResFirstHttpMajor_sound (hs : q.state = .resFirstHttpMajor) :
    Sound q r (caseResFirstHttpMajor q ch) := by
  unfold caseResFirstHttpMajor
  split_ifs with h
  · exact sound_fail hr hq (by decide)
  · have hd := digit_le (by simpa using h)
    exact .plain_step hr ⟨{ hq.bounds with httpMajor := hd.trans (by decide) }, hq.nread, hq.errno⟩ trivial
      (.inl ⟨by rw [hs]; rfl, rfl⟩) rfl

theorem caseReqFirstHttpMajor_sound (hs : q.state = .reqFirstHttpMajor) :
    Sound q r (caseReqFirstHttpMajor q ch) := by
  unfold caseReqFirstHttpMajor
  split_ifs with h
  · exact sound_fail hr hq (by decide)
  · have hd := digit_le (isNum_of_not_lt h)
    exact .plain_step hr ⟨{ hq.bounds with httpMajor := hd.trans (by decide) }, hq.nread, hq.errno⟩ trivial
      (.inl ⟨by rw [hs]; rfl, rfl⟩) rfl

theorem caseHttpMajor_sound {s : State} (ht : q.state.markable = none)
    (hs : ∀ n, StateOk 0 { q with httpMajor := n }) (hm : StateOk 0 (q.goto s))
    (hp : s.part = none) : Sound q r (caseHttpMajor q ch s) := by
  simp only [caseHttpMajor]
  split_ifs with h h' h''
  · exact sound_goto hr hq ht hm hp
  · exact sound_fail hr hq (by decide)
  · have hd := decimalDigit_le hq.bounds.httpMajor (by simpa using h')
    refine .fail hr ?_ (by decide)
    exact { hq.wide with httpMajor := hd }
  · exact .plain_step hr ⟨{ hq.bounds with httpMajor := not_lt.1 h'' }, hq.nread, hq.errno⟩ (hs _) (.inr rfl) rfl

theorem caseFirstHttpMinor_sound {s : State} (ht : q.state.markable = none)
    (hs : ∀ n, StateOk 0 { q with httpMinor := n, state := s }) (hp : s.part = none) :
    Sound q r (caseFirstHttpMinor q ch s) := by
  unfold caseFirstHttpMinor
  split_ifs with h
  · exact sound_fail hr hq (by decide)
  · have hd := digit_le (by simpa using h)
    exact .plain_step hr ⟨{ hq.bounds with httpMinor := hd.trans (by decide) }, hq.nread, hq.errno⟩ (hs _)
      (.inl ⟨ht, hp⟩) rfl

theorem minorDigit_sound (hs : ∀ n, StateOk 0 { q with httpMinor := n }) : Sound q r (minorDigit q ch) := by
  simp only [minorDigit]
  split_ifs with h h'
  · exact sound_fail hr hq (by decide)
  · have hd := decimalDigit_le hq.bounds.httpMinor (by simpa using h)
    refine .fail hr ?_ (by decide)
    exact { hq.wide with httpMinor := hd }
  · exact .plain_step hr ⟨{ hq.bounds with httpMinor := not_lt.1 h' }, hq.nread, hq.errno⟩ (hs _) (.inr rfl) rfl

theorem caseResHttpMinor_sound (hs : q.state = .resHttpMinor) : Sound q r (caseResHttpMinor q ch) := by
  have ht : q.state.markable = none := by rw [hs]; rfl
  unfold caseResHttpMinor
  split_ifs
  · exact sound_goto hr hq ht trivial rfl
  · exact minorDigit_sound hr hq fun _ => StateOk.of_state hs trivial

theorem caseReqHttpMinor_sound (hs : q.state = .reqHttpMinor) : Sound q r (caseReqHttpMinor q ch) := by
  have ht : q.state.markable = none := by rw [hs]; rfl
  unfold caseReqHttpMinor
  split_ifs
  · exact sound_goto hr hq ht trivial rfl
  · exact sound_goto hr hq ht trivial rfl
  · exact minorDigit_sound hr hq fun _ => StateOk.of_state hs trivial

theorem caseResFirstStatusCode_sound (hs : q.state = .resFirstStatusCode) :
    Sound q r (caseResFirstStatusCode q ch) := by
  unfold caseResFirstStatusCode
  split_ifs with h
  · exact sound_same hr hq (StateOk.of_state hs trivial)
  · exact sound_fail hr hq (by decide)
  · have hd := digit_le (by simpa using h)
    exact .plain_step hr ⟨{ hq.bounds with statusCode := hd.trans (by decide) }, hq.nread, hq.errno⟩ trivial
      (.inl ⟨by rw [hs]; rfl, rfl⟩) rfl

theorem caseResStatusCode_sound (hs : q.state = .resStatusCode) :
    Sound q r (caseResStatusCode q ch) := by
  have ht : q.state.markable = none := by rw [hs]; rfl
  simp only [caseResStatusCode]
  split_ifs with h _ _ _ h'
  · exact sound_goto hr hq ht trivial rfl
  · exact sound_goto hr hq ht trivial rfl
  · exact sound_goto hr hq ht trivial rfl
  · exact sound_fail hr hq (by decide)
  · have hd := decimalDigit_le hq.bounds.statusCode (by simpa using h)
    refine .fail hr ?_ (by decide)
    exact { hq.wide with statusCode := hd }
  · exact .plain_step hr ⟨{ hq.bounds with statusCode := not_lt.1 h' }, hq.nread, hq.errno⟩ (StateOk.of_state hs trivial)
      (.inr rfl) rfl

theorem caseResStatus_sound (hs : q.state = .resStatus) : Sound q r (caseResStatus q ch) := by
  have ht : q.state.markable = none := by rw [hs]; rfl
  unfold caseResStatus
  split_ifs
  · exact sound_goto hr hq ht trivial rfl
  · exact sound_goto hr hq ht trivial rfl
  · exact sound_same hr hq (StateOk.of_state hs trivial)


/-! ## The request line -/

theorem caseStartReq_sound (hs : q.state = .startReq) : Sound q r (caseStartReq q ch) := by
  unfold caseStartReq
  split_ifs with h h'
  · exact sound_same hr hq (StateOk.of_state hs trivial)
  · exact .fail hr hq.reset.wide (by decide)
  · cases hm : firstMethod ch with
    | some m =>
      refine .notifying hr ?_ ?_ (by rw [hs]; rfl) _ rfl rfl
      · exact (hq.reset.index (i := 1) (by decide)).congr rfl
      · exact (by decide : 1 ≤ 3).trans (three_le_methodString m)
    | none =>
      refine .fail hr (Calm.wide ?_) (by decide)
      exact (hq.reset.index (i := 1) (by decide)).congr rfl

theorem caseReqMethod_sound (hs : q.state = .reqMethod) :
    ∃ step, caseReqMethod q ch = some step ∧ Sound q r step := by
  have ht : q.state.markable = none := by rw [hs]; rfl
  have hi : q.index ≤ (methodString q.method).length := hq.state.at_state hs
  have hl := methodString_length_le q.method
  unfold caseReqMethod
  split_ifs with h0
  · exact ⟨_, rfl, sound_fail hr hq (by decide)⟩
  · obtain ⟨c, hc⟩ := charAt_isSome hi
    rw [hc]
    have hnext : Calm { q with index := q.index + 1 } := hq.index (by omega)
    simp only [Option.bind_eq_bind, Option.bind_some, Option.pure_def]
    split_ifs with h1 h2
    · exact ⟨_, rfl, .plain_step hr (hnext.congr rfl) trivial (.inl ⟨ht, rfl⟩) rfl⟩
    · refine ⟨_, rfl, .plain_step hr hnext ?_ (.inr rfl) rfl⟩
      have : q.index ≠ (methodString q.method).length := by
        intro he
        rw [he, charAt_length] at hc
        cases hc
        exact h0 h2
      refine StateOk.of_state hs (?_ : q.index + 1 ≤ (methodString q.method).length)
      omega
    · cases ho : otherMethod q.method q.index ch with
      | ok m =>
        refine ⟨_, rfl, .plain_step hr (hnext.congr rfl) ?_ (.inr rfl) rfl⟩
        exact StateOk.of_state hs (otherMethod_length ho)
      | error e => exact ⟨_, rfl, sound_fail hr hq (otherMethod_error ho)⟩

theorem caseReqSpacesBeforeUrl_sound (hs : q.state = .reqSpacesBeforeUrl) :
    Sound q r (caseReqSpacesBeforeUrl q ch) := by
  have ht : q.state.markable = none := by rw [hs]; rfl
  unfold caseReqSpacesBeforeUrl
  split
  · exact sound_same hr hq (StateOk.of_state hs trivial)
  · generalize (if q.method = .connect then State.reqServerStart else q.state) = s
    unfold urlStep
    dsimp only
    split_ifs with h
    · exact .fail_marking hr ht (hq.goto (parseUrlChar s ch)).wide (by decide)
    · have hp := part_parseUrlChar h
      exact .marking_part hr (hq.goto (parseUrlChar s ch)) (stateOk_of_url hp) ht (markable_of_url hp) rfl

/-- The states within a URL all go on with `parse_url_char`. -/
theorem urlStep_sound (hm : q.state.part = some .url) : Sound q r (urlStep q q.state ch []) := by
  unfold urlStep
  dsimp only
  split_ifs with h
  · exact .fail hr (hq.goto _).wide (by decide)
  · have hp := part_parseUrlChar h
    exact .plain_step hr (hq.goto (parseUrlChar q.state ch)) (stateOk_of_url hp)
      (.inr ((markable_of_url hm).trans (markable_of_url hp).symm)) rfl

theorem caseReqSchema_sound (hm : q.state.part = some .url) : Sound q r (caseReqSchema q ch) := by
  unfold caseReqSchema
  split_ifs
  · exact sound_fail hr hq (by decide)
  · exact urlStep_sound hr hq hm

theorem caseReqUrl_sound (hm : q.state.part = some .url) : Sound q r (caseReqUrl q ch) := by
  have ht := markable_of_url hm
  unfold caseReqUrl
  split_ifs
  · exact .reporting hr (hq.goto .reqHttpStart) trivial ht rfl rfl
  · refine .reporting hr ?_ ?_ ht rfl rfl
    · exact ⟨{ hq.bounds with httpMajor := Nat.zero_le 999, httpMinor := Nat.le_of_ble_eq_true rfl }, hq.nread, hq.errno⟩
    · trivial
  · refine .reporting hr ?_ ?_ ht rfl rfl
    · exact ⟨{ hq.bounds with httpMajor := Nat.zero_le 999, httpMinor := Nat.le_of_ble_eq_true rfl }, hq.nread, hq.errno⟩
    · trivial
  · exact urlStep_sound hr hq hm

theorem caseReqHttpStart_sound (hs : q.state = .reqHttpStart) :
    Sound q r (caseReqHttpStart q ch) := by
  unfold caseReqHttpStart
  split_ifs
  · exact sound_goto hr hq (by rw [hs]; rfl) trivial rfl
  · exact sound_same hr hq (StateOk.of_state hs trivial)
  · exact sound_fail hr hq (by decide)

theorem caseReqLineAlmostDone_sound (hs : q.state = .reqLineAlmostDone) :
    Sound q r (caseReqLineAlmostDone q ch) := by
  unfold caseReqLineAlmostDone
  split_ifs
  · exact sound_fail hr hq (by decide)
  · exact sound_goto hr hq (by rw [hs]; rfl) trivial rfl

/-! ## Headers -/

theorem caseHeaderFieldStart_sound (hs : q.state = .headerFieldStart) :
    Sound q r (caseHeaderFieldStart q ch) := by
  have ht : q.state.markable = none := by rw [hs]; rfl
  unfold caseHeaderFieldStart
  split_ifs
  · exact sound_goto hr hq ht trivial rfl
  · exact .reexecuting hr (hq.goto .headersAlmostDone) (fun _ => trivial) ht (by rw [hs]; exact Nat.one_lt_two) rfl rfl rfl
  · exact sound_fail hr hq (by decide)
  · refine .marking_part hr ?_ ?_ ht rfl rfl
    · exact (hq.index (Nat.zero_le 18)).congr rfl
    · exact nameOk_first _

theorem caseHeaderField_sound (hs : q.state = .headerField) :
    ∃ step, caseHeaderField q ch = some step ∧ Sound q r step := by
  have ht : q.state.markable = some .headerField := by rw [hs]; rfl
  have hn : NameOk q.headerState q.index := hq.state.at_state hs
  unfold caseHeaderField
  split_ifs
  · obtain ⟨q', hq', hm⟩ := nameChar_matched (q := q) hn
    rw [hq']
    refine ⟨_, rfl, .plain_step hr (hm.calm hq.toCalm) ?_ (.inr (by rw [hm.same])) (by rw [hm.same])⟩
    rw [hm.same]
    exact StateOk.of_state hs hm.ok
  · exact ⟨_, rfl, .reporting hr (hq.goto .headerValueStart) trivial ht rfl rfl⟩
  · exact ⟨_, rfl, .reporting hr (hq.goto .headerAlmostDone) trivial ht rfl rfl⟩
  · exact ⟨_, rfl, .reporting hr (hq.goto .headerFieldStart) trivial ht rfl rfl⟩
  · exact ⟨_, rfl, sound_fail hr hq (by decide)⟩

theorem firstValueChar_sound (hs : q.state = .headerValueStart) :
    Sound q r
      { firstValueChar { q with state := .headerValue, index := 0 } ch (lower ch) with
        actions := [.mark .headerValue] } := by
  have ht : q.state.markable = none := by rw [hs]; rfl
  have hc : Calm { q with state := .headerValue, index := 0 } := (hq.index (Nat.zero_le 18)).congr rfl
  have hplain : ∀ {h : HeaderState} {f : Flags}, ValueOk h 0 →
      Sound q r
        { parser := { q with state := .headerValue, index := 0, headerState := h, flags := f }
          actions := [.mark .headerValue] } := by
    intro h f hv
    refine .marking_part hr ?_ ?_ ht rfl rfl
    · exact hc.congr rfl
    · exact hv
  unfold firstValueChar
  dsimp only
  split
  · exact hplain trivial
  · split_ifs
    · exact hplain (Nat.zero_le _)
    · exact hplain trivial
  · rename_i hv
    split_ifs with h
    · exact .fail_marking hr ht hc.wide (by decide)
    · have hd := digit_le (by simpa using h)
      refine .marking_part hr (hc.contentLength (hd.trans (by decide))) ?_ ht rfl rfl
      exact (congrArg (ValueOk · 0) hv).mpr trivial
  · split_ifs
    · exact hplain (Nat.zero_le _)
    · exact hplain (Nat.zero_le _)
    · exact hplain trivial
  · exact hplain trivial

theorem caseHeaderValueStart_sound (hs : q.state = .headerValueStart) :
    Sound q r (caseHeaderValueStart q ch) := by
  have ht : q.state.markable = none := by rw [hs]; rfl
  have hc : Calm { q with state := .headerValue, index := 0 } := (hq.index (Nat.zero_le 18)).congr rfl
  unfold caseHeaderValueStart
  dsimp only
  split_ifs
  · exact sound_same hr hq (StateOk.of_state hs trivial)
  · refine .reporting_empty hr ?_ ?_ ht rfl rfl
    · exact hc.congr rfl
    · trivial
  · exact .reporting_empty hr (hc.goto .headerFieldStart) trivial ht rfl rfl
  · exact firstValueChar_sound hr hq hs

theorem lengthDigit_sound {b d : ℕ}
    (hs : ∀ l < ullongMax, StateOk 0 { q with contentLength := l }) : Sound q r (lengthDigit q b d) := by
  unfold lengthDigit
  dsimp only
  split_ifs with h
  · exact sound_fail hr hq (by decide)
  · have hlt : (q.contentLength * b + d) % 2 ^ 64 < ullongMax := by
      have := Nat.mod_lt (q.contentLength * b + d) (Nat.two_pow_pos 64)
      unfold ullongMax at *
      omega
    exact .plain_step hr (hq.contentLength hlt.le) (hs _ hlt) (.inr rfl) rfl

theorem valueChar_sound (hs : q.state = .headerValue) :
    ∃ step, valueChar q ch (lower ch) = some step ∧ Sound q r step := by
  have ho : ValueOk q.headerState q.index := hq.state.at_state hs
  have hword : ∀ {q' : Parser}, Matched ValueOk q q' → Sound q r { parser := q' } := by
    intro q' hm
    refine .plain_step hr (hm.calm hq.toCalm) ?_ (.inr (by rw [hm.same])) (by rw [hm.same])
    rw [hm.same]
    exact StateOk.of_state hs hm.ok
  have hg : ∀ i, ValueOk .general i := fun _ => trivial
  cases hv : q.headerState <;> simp only [valueChar, hv, Option.some.injEq, exists_eq_left'] <;>
    rw [hv] at ho
  case connection | transferEncoding => exact ho.elim
  case contentLength =>
    split_ifs
    · exact ⟨_, rfl, sound_same hr hq (StateOk.of_state hs (by rwa [← hv] at ho))⟩
    · exact ⟨_, rfl, sound_fail hr hq (by decide)⟩
    · exact ⟨_, rfl, lengthDigit_sound hr hq fun _ _ => StateOk.of_state hs (by rwa [← hv] at ho)⟩
  case matchingTransferEncodingChunked =>
    exact hword (.matchWord (by decide) ho hg (fun _ => trivial) (by rw [hv]; exact fun _ h => h))
  case matchingConnectionKeepAlive =>
    exact hword (.matchWord (by decide) ho hg (fun _ => trivial) (by rw [hv]; exact fun _ h => h))
  case matchingConnectionClose =>
    exact hword (.matchWord (by decide) ho hg (fun _ => trivial) (by rw [hv]; exact fun _ h => h))
  case transferEncodingChunked | connectionKeepAlive | connectionClose =>
    split_ifs
    · exact hword (.headerState trivial)
    · exact hword (.refl (by rw [hv]; trivial))
  case general => exact hword (.refl (by rw [hv]; trivial))
  all_goals
    rw [← hs]
    exact hword (.headerState trivial)

theorem caseHeaderValue_sound (hs : q.state = .headerValue) :
    ∃ step, caseHeaderValue q ch = some step ∧ Sound q r step := by
  have ht : q.state.markable = some .headerValue := by rw [hs]; rfl
  unfold caseHeaderValue
  split_ifs
  · exact ⟨_, rfl, .reporting hr (hq.goto .headerAlmostDone) trivial ht rfl rfl⟩
  · exact ⟨_, rfl, .of_again (hq.goto .headerAlmostDone) (fun _ => trivial) ⟨by decide, by decide, hr⟩
      trivial (by simp [track, ht]) (by rw [hs]; exact Nat.zero_lt_one) (by simp [Action.Plain])
      rfl rfl (.inl rfl)⟩
  · exact valueChar_sound hr hq hs

theorem caseHeaderAlmostDone_sound (hs : q.state = .headerAlmostDone) :
    Sound q r (caseHeaderAlmostDone q ch) := by
  unfold caseHeaderAlmostDone
  split_ifs
  · exact sound_fail hr hq (by decide)
  · refine .plain_step hr ?_ trivial (.inl ⟨by rw [hs]; rfl, rfl⟩) rfl
    exact hq.congr rfl

theorem caseHeaderValueLws_sound (hs : q.state = .headerValueLws) :
    Sound q r (caseHeaderValueLws q ch) := by
  have ht : q.state.markable = none := by rw [hs]; rfl
  unfold caseHeaderValueLws
  split_ifs
  · exact sound_goto hr hq ht trivial rfl
  · exact .reexecuting hr (hq.goto .headerFieldStart) (fun _ => trivial) ht (by rw [hs]; exact (by decide : 2 < 3)) rfl rfl rfl

theorem caseHeadersAlmostDone_sound (hs : q.state = .headersAlmostDone) :
    Sound q r (caseHeadersAlmostDone q ch) := by
  have ht : q.state.markable = none := by rw [hs]; rfl
  unfold caseHeadersAlmostDone
  split_ifs
  · exact sound_fail hr hq (by decide)
  · exact .notifying hr (hq.goto (newMessage q)) stateOk_newMessage ht _ part_newMessage rfl
  · refine .of_again (hq.congr rfl) ?_ hr ⟨ht, trivial⟩ ht (by rw [hs]; exact Nat.zero_lt_one)
      (by simp [Action.Plain]) rfl rfl (.inr hs)
    exact fun _ => trivial

theorem caseHeadersDone_sound (hs : q.state = .headersDone) : Sound q r (caseHeadersDone q ch) := by
  have ht : q.state.markable = none := by rw [hs]; rfl
  have hz := hq.nread_zero
  have hcomplete := Sound.notifying (q := q) hr (hz.goto (newMessage { q with nread := 0 }))
    stateOk_newMessage ht .messageComplete part_newMessage rfl
  unfold caseHeadersDone
  dsimp only
  split_ifs with h h1 h2 h3 h4 h5 h6
  · exact sound_fail hr hq (by decide)
  · exact
      { wide := hcomplete.wide
        calm := fun _ => hz.goto _
        error := by simp
        next := fun _ => stateOk_newMessage
        again := by simp
        finish := fun _ => ⟨h1, markable_newMessage⟩
        within := hcomplete.within
        marking := ⟨ht, trivial⟩
        tracked := fun _ => .inl ⟨ht, part_newMessage⟩
        plain := hcomplete.plain
        upgrade := fun _ => .inl rfl }
  · exact hcomplete
  · exact .plain_step hr (hz.goto .chunkSizeStart) ⟨h3, rfl⟩ (.inl ⟨ht, rfl⟩) rfl
  · exact hcomplete
  · refine .plain_step hr (hz.goto .bodyIdentity) ?_ (.inl ⟨ht, rfl⟩) rfl
    exact ⟨Nat.pos_of_ne_zero h4, lt_of_le_of_ne hq.bounds.contentLength h5⟩
  · exact hcomplete
  · exact .plain_step hr (hz.goto .bodyIdentityEof) trivial (.inl ⟨ht, rfl⟩) rfl

/-! ## Bodies -/

theorem caseBodyIdentity_sound (hs : q.state = .bodyIdentity) :
    ∃ step, caseBodyIdentity q r = some step ∧ Sound q r step := by
  have ht : q.state.markable = some .body := by rw [hs]; rfl
  obtain ⟨h0, hm⟩ : 0 < q.contentLength ∧ q.contentLength < ullongMax :=
    hq.state.at_state hs
  have hc : Calm { q with contentLength := q.contentLength - min q.contentLength r } :=
    hq.contentLength (by omega)
  unfold caseBodyIdentity
  dsimp only
  rw [if_neg (by simp [validLength_of h0 hm])]
  split_ifs with h
  · refine ⟨_, rfl, .of_again (hc.goto .messageDone) (fun _ => trivial) ?_ ⟨.inr ht, trivial⟩
      (by simp [track]) (by rw [hs]; exact Nat.zero_lt_one) (by simp [hs, State.bulk]) rfl rfl
      (.inl rfl)⟩
    exact ⟨by omega, le_rfl, by decide, by simp only [Within]; omega⟩
  · refine ⟨_, rfl, .of_next hc ?_ ?_ ⟨.inr ht, trivial⟩ (.inr ht.symm) (by simp [hs, State.bulk]) rfl⟩
    · exact StateOk.of_state hs ⟨Nat.pos_of_ne_zero h, (Nat.sub_le _ _).trans_lt hm⟩
    · exact ⟨by omega, by simp only [Within]; omega⟩

theorem caseBodyIdentityEof_sound (hs : q.state = .bodyIdentityEof) :
    Sound q r (caseBodyIdentityEof q r) := by
  have ht : q.state.markable = some .body := by rw [hs]; rfl
  refine .of_next hq.toCalm (StateOk.of_state hs trivial) ?_ ⟨.inr ht, trivial⟩ (.inr ht.symm)
    (by simp [hs, State.bulk]) rfl
  exact ⟨by omega, by simp only [Within]; omega⟩

theorem caseMessageDone_sound (hs : q.state = .messageDone) : Sound q r (caseMessageDone q) :=
  .notifying hr (hq.goto (newMessage q)) stateOk_newMessage (by rw [hs]; rfl) _ part_newMessage rfl

theorem caseChunkSizeStart_sound (hs : q.state = .chunkSizeStart) :
    ∃ step, caseChunkSizeStart q ch = some step ∧ Sound q r step := by
  obtain ⟨hf, hn⟩ : q.flags.chunked = true ∧ q.nread = 1 := hq.state.at_state hs
  unfold caseChunkSizeStart
  rw [if_neg (by simp [hf, hn])]
  cases hx : unhex ch with
  | none => exact ⟨_, rfl, sound_fail hr hq (by decide)⟩
  | some d =>
    have hd := unhex_le hx
    have hl : d < ullongMax := hd.trans_lt (by decide)
    refine ⟨_, rfl, .plain_step hr ((hq.contentLength hl.le).congr rfl) ?_ (.inl ⟨by rw [hs]; rfl, rfl⟩) rfl⟩
    exact ⟨hf, hl⟩

theorem caseChunkSize_sound (hs : q.state = .chunkSize) :
    ∃ step, caseChunkSize q ch = some step ∧ Sound q r step := by
  have ht : q.state.markable = none := by rw [hs]; rfl
  obtain ⟨hf, hl⟩ : q.flags.chunked = true ∧ q.contentLength < ullongMax :=
    hq.state.at_state hs
  unfold caseChunkSize
  rw [if_neg (by simp [hf])]
  split
  · exact ⟨_, rfl, sound_goto hr hq ht ⟨hf, hl⟩ rfl⟩
  · cases hx : unhex ch with
    | none =>
      dsimp only
      split_ifs
      · exact ⟨_, rfl, sound_goto hr hq ht ⟨hf, hl⟩ rfl⟩
      · exact ⟨_, rfl, sound_fail hr hq (by decide)⟩
    | some d =>
      refine ⟨_, rfl, lengthDigit_sound hr hq fun l hl => ?_⟩
      exact StateOk.of_state hs ⟨hf, hl⟩

theorem caseChunkParameters_sound (hs : q.state = .chunkParameters) :
    ∃ step, caseChunkParameters q ch = some step ∧ Sound q r step := by
  have ho : q.flags.chunked = true ∧ q.contentLength < ullongMax :=
    hq.state.at_state hs
  unfold caseChunkParameters
  rw [if_neg (by simp [ho.1])]
  split_ifs
  · exact ⟨_, rfl, sound_goto hr hq (by rw [hs]; rfl) ho rfl⟩
  · exact ⟨_, rfl, sound_same hr hq (StateOk.of_state hs ho)⟩

theorem caseChunkSizeAlmostDone_sound (hs : q.state = .chunkSizeAlmostDone) :
    ∃ step, caseChunkSizeAlmostDone q ch = some step ∧ Sound q r step := by
  have ht : q.state.markable = none := by rw [hs]; rfl
  obtain ⟨hf, hl⟩ : q.flags.chunked = true ∧ q.contentLength < ullongMax :=
    hq.state.at_state hs
  unfold caseChunkSizeAlmostDone
  dsimp only
  rw [if_neg (by simp [hf])]
  split_ifs with h h0
  · exact ⟨_, rfl, sound_fail hr hq (by decide)⟩
  · refine ⟨_, rfl, .plain_step hr (hq.nread_zero.congr rfl) ?_ (.inl ⟨ht, rfl⟩) rfl⟩
    trivial
  · refine ⟨_, rfl, .plain_step hr (hq.nread_zero.goto .chunkData) ?_ (.inl ⟨ht, rfl⟩) rfl⟩
    exact ⟨hf, Nat.pos_of_ne_zero h0, hl⟩

theorem caseChunkData_sound (hs : q.state = .chunkData) :
    ∃ step, caseChunkData q r = some step ∧ Sound q r step := by
  have ht : q.state.markable = some .body := by rw [hs]; rfl
  obtain ⟨hf, h0, hm⟩ : q.flags.chunked = true ∧ 0 < q.contentLength ∧ q.contentLength < ullongMax :=
    hq.state.at_state hs
  have hc : Calm { q with contentLength := q.contentLength - min q.contentLength r } :=
    hq.contentLength (by omega)
  have hsound : ∀ {q' : Parser}, Calm q' → StateOk 0 q' → q'.state.markable = some .body →
      q'.upgrade = q.upgrade →
      Sound q r { parser := q', actions := [.mark .body, .skip (min q.contentLength r - 1)] } := by
    intro q' hc hs' hk hu
    refine .of_next hc hs' ?_ ⟨.inr ht, trivial⟩ (.inr hk.symm) (by simp [hs, State.bulk]) hu
    exact ⟨by omega, by simp only [Within]; omega⟩
  unfold caseChunkData
  dsimp only
  rw [if_neg (by simp [validLength_of h0 hm, hf])]
  split_ifs with h
  · refine ⟨_, rfl, hsound (hc.goto .chunkDataAlmostDone) ?_ rfl rfl⟩
    exact ⟨hf, h⟩
  · refine ⟨_, rfl, hsound hc ?_ ht rfl⟩
    exact StateOk.of_state hs ⟨hf, Nat.pos_of_ne_zero h, (Nat.sub_le _ _).trans_lt hm⟩

theorem caseChunkDataAlmostDone_sound (hs : q.state = .chunkDataAlmostDone) :
    ∃ step, caseChunkDataAlmostDone q ch = some step ∧ Sound q r step := by
  obtain ⟨hf, h0⟩ : q.flags.chunked = true ∧ q.contentLength = 0 :=
    hq.state.at_state hs
  unfold caseChunkDataAlmostDone
  rw [if_neg (by simp [hf, h0])]
  split_ifs
  · exact ⟨_, rfl, sound_fail hr hq (by decide)⟩
  · exact ⟨_, rfl, .reporting hr (hq.goto .chunkDataDone) hf (by rw [hs]; rfl) rfl rfl⟩

theorem caseChunkDataDone_sound (hs : q.state = .chunkDataDone) :
    ∃ step, caseChunkDataDone q ch = some step ∧ Sound q r step := by
  have hf : q.flags.chunked = true := hq.state.at_state hs
  unfold caseChunkDataDone
  rw [if_neg (by simp [hf])]
  split_ifs
  · exact ⟨_, rfl, sound_fail hr hq (by decide)⟩
  · refine ⟨_, rfl, .plain_step hr (hq.nread_zero.congr rfl) ?_ (.inl ⟨by rw [hs]; rfl, rfl⟩) rfl⟩
    exact ⟨hf, rfl⟩

end Cases

/-! ## The switch -/

/-- No case of the switch fails. -/
theorem switch_sound (ch : UInt8) (hr : 0 < r) (hq : Live q) : ∃ step, switch q ch r = some step ∧ Sound q r step := by
  have hsome : ∀ {step : Step}, Sound q r step → ∃ step', some step = some step' ∧ Sound q r step' :=
    fun h => ⟨_, rfl, h⟩
  unfold switch
  split
  all_goals rename_i hs
  · exact hsome (caseDead_sound hr hq hs)
  · exact hsome (caseStartReqOrRes_sound hr hq hs)
  · exact hsome (caseResOrRespH_sound hr hq hs)
  · exact hsome (caseStartRes_sound hr hq hs)
  iterate 4
    · exact hsome (sound_expect hr hq (by rw [hs]; rfl) trivial rfl)
  · exact hsome (caseResFirstHttpMajor_sound hr hq hs)
  · exact hsome (caseHttpMajor_sound hr hq (by rw [hs]; rfl) (fun _ => StateOk.of_state hs trivial) trivial rfl)
  · exact hsome (caseFirstHttpMinor_sound hr hq (by rw [hs]; rfl) (fun _ => trivial) rfl)
  · exact hsome (caseResHttpMinor_sound hr hq hs)
  · exact hsome (caseResFirstStatusCode_sound hr hq hs)
  · exact hsome (caseResStatusCode_sound hr hq hs)
  · exact hsome (caseResStatus_sound hr hq hs)
  · exact hsome (sound_expect hr hq (by rw [hs]; rfl) trivial rfl)
  · exact hsome (caseStartReq_sound hr hq hs)
  · exact caseReqMethod_sound hr hq hs
  · exact hsome (caseReqSpacesBeforeUrl_sound hr hq hs)
  iterate 4
    · exact hsome (caseReqSchema_sound hr hq (by rw [hs]; rfl))
  iterate 7
    · exact hsome (caseReqUrl_sound hr hq (by rw [hs]; rfl))
  · exact hsome (caseReqHttpStart_sound hr hq hs)
  iterate 4
    · exact hsome (sound_expect hr hq (by rw [hs]; rfl) trivial rfl)
  · exact hsome (caseReqFirstHttpMajor_sound hr hq hs)
  · exact hsome (caseHttpMajor_sound hr hq (by rw [hs]; rfl) (fun _ => StateOk.of_state hs trivial) trivial rfl)
  · exact hsome (caseFirstHttpMinor_sound hr hq (by rw [hs]; rfl) (fun _ => trivial) rfl)
  · exact hsome (caseReqHttpMinor_sound hr hq hs)
  · exact hsome (caseReqLineAlmostDone_sound hr hq hs)
  · exact hsome (caseHeaderFieldStart_sound hr hq hs)
  · exact caseHeaderField_sound hr hq hs
  · exact hsome (caseHeaderValueStart_sound hr hq hs)
  · exact caseHeaderValue_sound hr hq hs
  · exact hsome (caseHeaderAlmostDone_sound hr hq hs)
  · exact hsome (caseHeaderValueLws_sound hr hq hs)
  · exact hsome (caseHeadersAlmostDone_sound hr hq hs)
  · exact hsome (caseHeadersDone_sound hr hq hs)
  · exact caseBodyIdentity_sound hr hq hs
  · exact hsome (caseBodyIdentityEof_sound hr hq hs)
  · exact hsome (caseMessageDone_sound hr hq hs)
  · exact caseChunkSizeStart_sound hr hq hs
  · exact caseChunkSize_sound hr hq hs
  · exact caseChunkParameters_sound hr hq hs
  · exact caseChunkSizeAlmostDone_sound hr hq hs
  · exact caseChunkData_sound hr hq hs
  · exact caseChunkDataAlmostDone_sound hr hq hs
  · exact caseChunkDataDone_sound hr hq hs

end HttpParser

end CaptureHpc
