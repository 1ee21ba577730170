import DeepSecurity.CaptureHpc.HttpMessages
import DeepSecurity.CaptureHpc.Proofs.HttpRefinementProofs

/-!
# Which headers the parser knows

The name and the value of a header are looked at character by character, in any case, with an index into
the word that is looked for. The parser takes a header for one that it knows if the whole name is that of
the header, and a value for a word if it is the word, perhaps with spaces after it.
-/

namespace CaptureHpc

namespace HttpParser

open Pieces

variable {q q' : Parser} {ch c : UInt8} {l w : Bytes} {i : ℕ}

/-! ## Looking for a word -/

theorem append_singleton_isPrefix_iff : l ++ [c] <+: w ↔ l <+: w ∧ w[l.length]? = some c := by
  constructor
  · rintro ⟨t, rfl⟩
    simp
  · rintro ⟨⟨t, rfl⟩, h⟩
    cases t with
    | nil => simp at h
    | cons a t =>
      simp only [List.getElem?_append_right le_rfl, Nat.sub_self, List.getElem?_cons_zero,
        Option.some.injEq] at h
      exact ⟨t, by simp [h]⟩

theorem charAt_eq_some_iff (hc : c ≠ 0) : charAt w i = some c ↔ w[i]? = some c := by
  unfold charAt
  rcases lt_trichotomy i w.length with hi | rfl | hi
  · rw [List.getElem?_append_left hi]
  · simp [Ne.symm hc]
  · rw [List.getElem?_eq_none (by simp; omega), List.getElem?_eq_none hi.le]

/-- A part of the word `w` has been found, the last character of it at the index `i`. -/
structure Begun (w l : Bytes) (i : ℕ) : Prop where
  part : l <+: w
  ne : l ≠ w
  length : l.length = i + 1

theorem Begun.length_lt (h : Begun w l i) : l.length < w.length :=
  lt_of_le_of_ne h.part.length_le fun he => h.ne (h.part.eq_of_length he)

/-- The next character of a word. -/
theorem matchWord_begun (found : HeaderState) (h : Begun w l q.index) (hc : c ≠ 0) :
    (matchWord w found q c).headerState = .general ∧ ¬ l ++ [c] <+: w ∨
      (matchWord w found q c).headerState = found ∧ l ++ [c] = w ∨
        (matchWord w found q c).headerState = q.headerState ∧
          Begun w (l ++ [c]) (matchWord w found q c).index := by
  have hlt := h.length_lt
  have hlen := h.length
  have hiff : charAt w (q.index + 1) = some c ↔ l ++ [c] <+: w := by
    rw [charAt_eq_some_iff hc, append_singleton_isPrefix_iff, hlen]
    exact (and_iff_right h.part).symm
  unfold matchWord
  dsimp only
  split_ifs with hbad hend
  · refine .inl ⟨rfl, fun hp => ?_⟩
    obtain hbad | hbad := hbad
    · omega
    · exact hbad (hiff.2 hp)
  · have hp := hiff.1 (not_not.1 fun hn => hbad (.inr hn))
    refine .inr (.inl ⟨rfl, hp.eq_of_length ?_⟩)
    simp only [List.length_append, List.length_singleton]
    omega
  · have hp := hiff.1 (not_not.1 fun hn => hbad (.inr hn))
    refine .inr (.inr ⟨rfl, hp, fun he => hend ?_, ?_⟩)
    · have := congrArg List.length he
      simp only [List.length_append, List.length_singleton] at this
      omega
    · simp only [List.length_append, List.length_singleton]
      omega

/-! ## Names -/

def headerNames : List Bytes :=
  [connectionName, proxyConnectionName, contentLengthName, transferEncodingName, upgradeName]

/-- The header state after the characters `l` of a name. -/
def NameRead (l : Bytes) (h : HeaderState) (i : ℕ) : Prop :=
  match h with
  | .general => ∀ w ∈ headerNames, ¬ l <+: w
  | .C => l = bytesOf "c" ∧ i = 0
  | .CO => l = bytesOf "co" ∧ i = 1
  | .CON => l = bytesOf "con" ∧ i = 2
  | .matchingConnection => Begun connectionName l i ∧ 4 ≤ l.length
  | .matchingProxyConnection => Begun proxyConnectionName l i
  | .matchingContentLength => Begun contentLengthName l i ∧ 4 ≤ l.length
  | .matchingTransferEncoding => Begun transferEncodingName l i
  | .matchingUpgrade => Begun upgradeName l i
  | .connection => l = connectionName ∨ l = proxyConnectionName
  | .contentLength => l = contentLengthName
  | .transferEncoding => l = transferEncodingName
  | .upgrade => l = upgradeName
  | _ => False

/-- Words with the same beginning. -/
theorem take_eq_of_isPrefix {w' : Bytes} {k : ℕ} (h : l <+: w) (h' : l <+: w') (hk : k ≤ l.length) :
    w'.take k = w.take k := by
  obtain ⟨t, rfl⟩ := h
  obtain ⟨t', rfl⟩ := h'
  rw [List.take_append_of_le_length hk, List.take_append_of_le_length hk]

/-- Once the first `k` characters are those of one word only, no other word can follow. -/
theorem off_of_begun {k : ℕ} (hb : Begun w l i) (hk : k ≤ l.length)
    (hd : ∀ w' ∈ headerNames, w'.take k = w.take k → w' = w) (hn : ¬ l ++ [c] <+: w) :
    ∀ w' ∈ headerNames, ¬ l ++ [c] <+: w' := by
  intro w' hw' hp
  obtain rfl := hd w' hw' (take_eq_of_isPrefix hb.part ((List.prefix_append l [c]).trans hp) hk)
  exact hn hp

/-- No name goes on after another one. -/
theorem off_of_name (hw : w ∈ headerNames) : ∀ w' ∈ headerNames, ¬ w ++ [c] <+: w' := by
  have hd : ∀ w ∈ headerNames, ∀ w' ∈ headerNames, w <+: w' → w' = w := by decide
  intro w' hw' hp
  obtain rfl := hd w hw w' hw' ((List.prefix_append w [c]).trans hp)
  have := hp.length_le
  simp only [List.length_append, List.length_singleton] at this
  omega

theorem nameRead_first (c : UInt8) : NameRead [c] (firstHeaderState c) 0 := by
  have hbegun : ∀ {w : Bytes}, [c] <+: w → 1 < w.length → Begun w [c] 0 := by
    intro w hp hw
    refine ⟨hp, fun he => ?_, rfl⟩
    rw [← he] at hw
    simp at hw
  unfold firstHeaderState
  split_ifs with h1 h2 h3 h4
  · exact ⟨by rw [h1]; rfl, rfl⟩
  · exact hbegun (by rw [h2]; decide) (by decide)
  · exact hbegun (by rw [h3]; decide) (by decide)
  · exact hbegun (by rw [h4]; decide) (by decide)
  · intro w hw hp
    have hc : w.head? = some c := by
      obtain ⟨t, rfl⟩ := hp
      rfl
    have hfirst : ∀ w ∈ headerNames, w.head? = some (chr 'c') ∨ w.head? = some (chr 'p') ∨
        w.head? = some (chr 't') ∨ w.head? = some (chr 'u') := by decide
    have := hfirst w hw
    simp only [hc, Option.some.injEq] at this
    tauto

/-- A letter before it is clear which name it is. -/
theorem off_of_letter {l : Bytes} (hd : ∀ w ∈ headerNames, l <+: w → w[l.length]? ≠ some c) :
    ∀ w ∈ headerNames, ¬ l ++ [c] <+: w := by
  intro w hw hp
  obtain ⟨hl, hc⟩ := append_singleton_isPrefix_iff.1 hp
  exact hd w hw hl hc

theorem Begun.index_le (h : Begun w l i) : i ≤ w.length := by
  have := h.length_lt
  have := h.length
  omega

theorem NameRead.nameOk {h : HeaderState} (hr : NameRead l h i) : NameOk h i := by
  cases h
  case general | connection | contentLength | transferEncoding | upgrade => trivial
  case C | CO | CON => exact hr.2
  case matchingConnection | matchingContentLength => exact hr.1.index_le
  case matchingProxyConnection | matchingTransferEncoding | matchingUpgrade => exact hr.index_le
  all_goals exact hr.elim

/-- The next character of a name of which the first `k` characters are known. -/
theorem nameRead_matchWord {found : HeaderState} {k : ℕ} (hc : c ≠ 0) (hb : Begun w l q.index)
    (hk : k ≤ l.length) (hd : ∀ w' ∈ headerNames, w'.take k = w.take k → w' = w)
    (hf : ∀ i, NameRead w found i)
    (hm : ∀ {l i}, Begun w l i → k ≤ l.length → NameRead l q.headerState i) :
    NameRead (l ++ [c]) (matchWord w found q c).headerState (matchWord w found q c).index := by
  obtain ⟨h, hn⟩ | ⟨h, hw⟩ | ⟨h, hb'⟩ := matchWord_begun found hb hc
  · rw [h]
    exact off_of_begun hb hk hd hn
  · rw [h, hw]
    exact hf _
  · rw [h]
    exact hm hb' (by simp only [List.length_append]; omega)

/-- A parser that has come to another place in a word. -/
def Parser.word (q : Parser) (h : HeaderState) (i : ℕ) : Parser := { q with headerState := h, index := i }

theorem nameChar_read (hr : NameRead l q.headerState q.index) (hl : l ≠ []) (hc : c ≠ 0)
    (hch : ch ≠ chr ' ') :
    ∃ h i, nameChar q ch c = some (q.word h i) ∧ NameRead (l ++ [c]) h i := by
  obtain ⟨q', hq', hm⟩ : ∃ q', nameChar q ch c = some q' ∧ Matched NameOk q q' := nameChar_matched hr.nameOk
  refine ⟨q'.headerState, q'.index, hq'.trans (congrArg some hm.same), ?_⟩
  have hpos : 1 ≤ l.length := List.length_pos_iff.2 hl
  cases hs : q.headerState <;> simp only [nameChar, hs, Option.some.injEq] at hq' <;> rw [hs] at hr <;>
    cases hq'
  case general =>
    rw [hs]
    exact fun w hw hp => hr w hw ((List.prefix_append l [c]).trans hp)
  case C =>
    obtain ⟨rfl, hi⟩ := hr
    dsimp only
    split_ifs with h
    · exact ⟨by rw [h]; rfl, by omega⟩
    · have hd : ∀ w ∈ headerNames, bytesOf "c" <+: w → w[1]? = some (chr 'o') := by decide
      refine off_of_letter fun w hw hp he => h ?_
      exact Option.some.inj (he.symm.trans (hd w hw hp))
  case CO =>
    obtain ⟨rfl, hi⟩ := hr
    dsimp only
    split_ifs with h
    · exact ⟨by rw [h]; rfl, by omega⟩
    · have hd : ∀ w ∈ headerNames, bytesOf "co" <+: w → w[2]? = some (chr 'n') := by decide
      refine off_of_letter fun w hw hp he => h ?_
      exact Option.some.inj (he.symm.trans (hd w hw hp))
  case CON =>
    obtain ⟨rfl, hi⟩ := hr
    dsimp only
    split_ifs with h h'
    · rw [h, hi]
      exact ⟨⟨by decide, by decide, rfl⟩, by decide⟩
    · rw [h', hi]
      exact ⟨⟨by decide, by decide, rfl⟩, by decide⟩
    · have hd : ∀ w ∈ headerNames, bytesOf "con" <+: w → w[3]? = some (chr 'n') ∨ w[3]? = some (chr 't') := by
        decide
      refine off_of_letter fun w hw hp he => ?_
      have he : w[3]? = some c := he
      have := hd w hw hp
      simp only [he, Option.some.injEq] at this
      exact this.elim h h'
  case matchingConnection =>
    refine nameRead_matchWord hc hr.1 hr.2 (by decide) (fun _ => .inl rfl) fun hb hk => ?_
    rw [hs]
    exact ⟨hb, hk⟩
  case matchingContentLength =>
    refine nameRead_matchWord hc hr.1 hr.2 (by decide) (fun _ => rfl) fun hb hk => ?_
    rw [hs]
    exact ⟨hb, hk⟩
  case matchingProxyConnection =>
    refine nameRead_matchWord hc hr hpos (by decide) (fun _ => .inr rfl) fun hb _ => ?_
    rw [hs]
    exact hb
  case matchingTransferEncoding =>
    refine nameRead_matchWord hc hr hpos (by decide) (fun _ => rfl) fun hb _ => ?_
    rw [hs]
    exact hb
  case matchingUpgrade =>
    refine nameRead_matchWord hc hr hpos (by decide) (fun _ => rfl) fun hb _ => ?_
    rw [hs]
    exact hb
  case connection =>
    rw [if_pos hch]
    obtain rfl | rfl := hr <;> exact off_of_name (by decide)
  case contentLength | transferEncoding | upgrade =>
    obtain rfl := hr
    rw [if_pos hch]
    exact off_of_name (by decide)

/-- The header that a header state at the end of a name stands for. -/
def HeaderState.kind : HeaderState → HeaderKind
  | .connection => .connection
  | .contentLength => .contentLength
  | .transferEncoding => .transferEncoding
  | .upgrade => .upgrade
  | _ => .other

theorem NameRead.kind {h : HeaderState} (hr : NameRead l h i) : h.kind = headerKind l := by
  have hother : l ∉ headerNames → headerKind l = .other := by
    intro hn
    simp only [headerNames, List.mem_cons, List.not_mem_nil, or_false, not_or] at hn
    simp [headerKind, hn]
  have hbegun : ∀ {w}, w ∈ headerNames → Begun w l i → l ∉ headerNames := by
    intro w hw hb hl
    have hd : ∀ w ∈ headerNames, ∀ w' ∈ headerNames, w <+: w' → w' = w := by decide
    exact hb.ne (hd l hl w hw hb.part).symm
  cases h
  case connection =>
    obtain rfl | rfl := hr <;> decide
  case contentLength | transferEncoding | upgrade =>
    obtain rfl := hr
    decide
  case general => exact (hother fun hl => hr l hl (List.prefix_refl l)).symm
  case C | CO | CON =>
    obtain ⟨rfl, -⟩ := hr
    decide
  case matchingConnection | matchingContentLength => exact (hother (hbegun (by decide) hr.1)).symm
  case matchingProxyConnection | matchingTransferEncoding | matchingUpgrade =>
    exact (hother (hbegun (by decide) hr)).symm
  all_goals exact hr.elim

/-! ## Values -/

theorem isWord_iff : isWord w l = true ↔
    (l.take w.length).map lower = w ∧ ∀ c ∈ l.drop w.length, c = chr ' ' := by
  simp [isWord, List.all_eq_true]

theorem length_le_of_isWord (h : isWord w l = true) : w.length ≤ l.length := by
  have := congrArg List.length (isWord_iff.1 h).1
  simp only [List.length_map, List.length_take] at this
  omega

theorem isPrefix_of_isWord {l' : Bytes} (h : isWord w (l ++ l') = true) (hl : l.length ≤ w.length) :
    l.map lower <+: w := by
  have := (isWord_iff.1 h).1
  rw [List.take_append, List.take_of_length_le hl, List.map_append] at this
  exact ⟨_, this⟩

theorem isWord_append_space (h : isWord w l = true) : isWord w (l ++ [chr ' ']) = true := by
  have hlen := length_le_of_isWord h
  obtain ⟨h1, h2⟩ := isWord_iff.1 h
  rw [isWord_iff, List.take_append_of_le_length hlen, List.drop_append_of_le_length hlen]
  refine ⟨h1, fun c hc => ?_⟩
  obtain hc | hc := List.mem_append.1 hc
  · exact h2 c hc
  · exact List.mem_singleton.1 hc

/-- After a word only spaces may come. -/
theorem isWord_append_eq_false {l' : Bytes} (hl : w.length ≤ l.length) (hch : ch ≠ chr ' ') :
    isWord w (l ++ [ch] ++ l') = false := by
  rw [Bool.eq_false_iff]
  intro h
  refine hch ((isWord_iff.1 h).2 ch ?_)
  rw [List.append_assoc, List.drop_append_of_le_length hl]
  simp

theorem head_of_isWord {a : UInt8} (hw : w ≠ []) (h : isWord w (a :: l) = true) :
    w.head? = some (lower a) := by
  obtain ⟨b, w, rfl⟩ := List.exists_cons_of_ne_nil hw
  have := (isWord_iff.1 h).1
  simp only [List.length_cons, List.take_succ_cons, List.map_cons, List.cons.injEq] at this
  rw [this.1]
  rfl

/-- The words that are looked for in a value. -/
def valueWords : HeaderKind → List Bytes
  | .transferEncoding => [chunkedValue]
  | .connection => [keepAliveValue, closeValue]
  | _ => []

/-- The header state after the characters `l` of a value other than a length. -/
def ValueRead (k : HeaderKind) (l : Bytes) (h : HeaderState) (i : ℕ) : Prop :=
  match h with
  | .general => ∀ w ∈ valueWords k, ∀ l', isWord w (l ++ l') = false
  | .matchingTransferEncodingChunked => k = .transferEncoding ∧ Begun chunkedValue (l.map lower) i
  | .transferEncodingChunked => k = .transferEncoding ∧ isWord chunkedValue l
  | .matchingConnectionKeepAlive => k = .connection ∧ Begun keepAliveValue (l.map lower) i
  | .connectionKeepAlive => k = .connection ∧ isWord keepAliveValue l
  | .matchingConnectionClose => k = .connection ∧ Begun closeValue (l.map lower) i
  | .connectionClose => k = .connection ∧ isWord closeValue l
  | _ => False

/-- The words that are looked for in one header differ in their first characters. -/
theorem valueWords_head {k : HeaderKind} {w w' : Bytes} (hw : w ∈ valueWords k) (hw' : w' ∈ valueWords k)
    (h : w'.head? = w.head?) : w' = w := by
  have hd : ∀ w ∈ [keepAliveValue, closeValue], ∀ w' ∈ [keepAliveValue, closeValue],
      w'.head? = w.head? → w' = w := by decide
  cases k with
  | connection => exact hd w hw w' hw' h
  | transferEncoding =>
    rw [valueWords, List.mem_singleton] at hw hw'
    rw [hw, hw']
  | contentLength | upgrade | other => cases hw

theorem valueWords_ne {k : HeaderKind} (hw : w ∈ valueWords k) : w ≠ [] := by
  cases k <;> simp only [valueWords, List.mem_cons, List.not_mem_nil, or_false] at hw
  · obtain rfl | rfl := hw <;> decide
  · rw [hw]
    decide

/-- A value that begins like one word is no other word. -/
theorem other_word_eq_false {k : HeaderKind} {w' l' : Bytes} (hl : l ≠ []) (hw : w ∈ valueWords k)
    (hw' : w' ∈ valueWords k) (hne : w' ≠ w) (hh : w.head? = (l.map lower).head?) :
    isWord w' (l ++ l') = false := by
  rw [Bool.eq_false_iff]
  intro h
  obtain ⟨a, l, rfl⟩ := List.exists_cons_of_ne_nil hl
  exact hne (valueWords_head hw hw' ((head_of_isWord (valueWords_ne hw') h).trans hh.symm))

theorem Begun.head (h : Begun w l i) : w.head? = l.head? := by
  obtain ⟨t, rfl⟩ := h.part
  have := h.length
  cases l with
  | nil => simp at this
  | cons a l => rfl

theorem lower_ne_zero (ch : UInt8) : lower ch ≠ 0 := by
  revert ch
  decide +kernel

/-- The value goes on: nothing but the header state and the index has changed. -/
def GoesOn (k : HeaderKind) (q : Parser) (l : Bytes) (q' : Parser) : Prop :=
  q' = q.word q'.headerState q'.index ∧ ValueRead k l q'.headerState q'.index

/-- The next character of a word in a value. -/
theorem goesOn_matchWord {k : HeaderKind} {found : HeaderState} (hl : l ≠ []) (hw : w ∈ valueWords k)
    (hb : Begun w (l.map lower) q.index)
    (hf : ∀ {l i}, isWord w l = true → ValueRead k l found i)
    (hm : ∀ {l i}, Begun w (l.map lower) i → ValueRead k l q.headerState i) :
    GoesOn k q (l ++ [ch]) (matchWord w found q (lower ch)) := by
  have hmap : (l ++ [ch]).map lower = l.map lower ++ [lower ch] := by simp
  have hlt : l.length < w.length := by simpa using hb.length_lt
  obtain ⟨h1, h2, -⟩ := matchWord_spec (q := q) w found (lower ch)
  refine ⟨h1 ▸ h2, ?_⟩
  obtain ⟨h, hn⟩ | ⟨h, he⟩ | ⟨h, hb'⟩ := matchWord_begun found hb (lower_ne_zero ch)
  · rw [h]
    intro w' hw' l'
    by_cases hne : w' = w
    · subst hne
      rw [Bool.eq_false_iff]
      intro hword
      refine hn (hmap ▸ isPrefix_of_isWord hword ?_)
      rw [List.length_append]
      exact hlt
    · rw [List.append_assoc]
      exact other_word_eq_false hl hw hw' hne hb.head
  · rw [h]
    refine hf (isWord_iff.2 ?_)
    have hlen : w.length = (l ++ [ch]).length := by rw [← he]; simp
    rw [hlen, List.take_length, List.drop_length, hmap]
    exact ⟨he, by simp⟩
  · rw [h]
    exact hm (hmap ▸ hb')

/-- A character after a word. -/
theorem goesOn_found {k : HeaderKind} (hw : w ∈ valueWords k) (hword : isWord w l = true)
    (hf : ∀ {l i}, isWord w l = true → ValueRead k l q.headerState i) :
    GoesOn k q (l ++ [ch]) (if ch ≠ chr ' ' then { q with headerState := .general } else q) := by
  have hlen := length_le_of_isWord hword
  have hl : l ≠ [] := by
    rintro rfl
    have := List.length_pos_iff.2 (valueWords_ne hw)
    exact absurd (this.trans_le hlen) (Nat.lt_irrefl 0)
  split_ifs with hch
  · refine ⟨rfl, fun w' hw' l' => ?_⟩
    by_cases hne : w' = w
    · subst hne
      exact isWord_append_eq_false hlen hch
    · rw [List.append_assoc]
      refine other_word_eq_false hl hw hw' hne ?_
      obtain ⟨a, l, rfl⟩ := List.exists_cons_of_ne_nil hl
      exact head_of_isWord (valueWords_ne hw) hword
  · rw [not_not.1 hch]
    exact ⟨rfl, hf (isWord_append_space hword)⟩

theorem valueChar_read (ch : UInt8) {k : HeaderKind} (hr : ValueRead k l q.headerState q.index) (hl : l ≠ []) :
    ∃ h i, valueChar q ch (lower ch) = some { parser := q.word h i } ∧ ValueRead k (l ++ [ch]) h i := by
  suffices h : ∃ q', valueChar q ch (lower ch) = some { parser := q' } ∧ GoesOn k q (l ++ [ch]) q' by
    obtain ⟨q', hq', hsame, hr'⟩ := h
    exact ⟨_, _, hsame ▸ hq', hr'⟩
  have hchunked : chunkedValue ∈ valueWords .transferEncoding := by simp [valueWords]
  have hkeep : keepAliveValue ∈ valueWords .connection := by simp [valueWords]
  have hclose : closeValue ∈ valueWords .connection := by simp [valueWords]
  cases hs : q.headerState <;> simp only [valueChar, hs] <;> rw [hs] at hr
  case general =>
    refine ⟨q, rfl, rfl, ?_⟩
    rw [hs]
    intro w hw l'
    rw [List.append_assoc]
    exact hr w hw _
  case matchingTransferEncodingChunked =>
    obtain ⟨rfl, hb⟩ := hr
    exact ⟨_, rfl, goesOn_matchWord hl hchunked hb (fun h => ⟨rfl, h⟩) (by rw [hs]; exact fun h => ⟨rfl, h⟩)⟩
  case matchingConnectionKeepAlive =>
    obtain ⟨rfl, hb⟩ := hr
    exact ⟨_, rfl, goesOn_matchWord hl hkeep hb (fun h => ⟨rfl, h⟩) (by rw [hs]; exact fun h => ⟨rfl, h⟩)⟩
  case matchingConnectionClose =>
    obtain ⟨rfl, hb⟩ := hr
    exact ⟨_, rfl, goesOn_matchWord hl hclose hb (fun h => ⟨rfl, h⟩) (by rw [hs]; exact fun h => ⟨rfl, h⟩)⟩
  case transferEncodingChunked =>
    obtain ⟨rfl, hword⟩ := hr
    exact ⟨_, rfl, goesOn_found hchunked hword (by rw [hs]; exact fun h => ⟨rfl, h⟩)⟩
  case connectionKeepAlive =>
    obtain ⟨rfl, hword⟩ := hr
    exact ⟨_, rfl, goesOn_found hkeep hword (by rw [hs]; exact fun h => ⟨rfl, h⟩)⟩
  case connectionClose =>
    obtain ⟨rfl, hword⟩ := hr
    exact ⟨_, rfl, goesOn_found hclose hword (by rw [hs]; exact fun h => ⟨rfl, h⟩)⟩
  all_goals exact hr.elim

/-- A value, whatever it is, asks for another protocol. -/
def firstFlags (q : Parser) : Flags :=
  if q.headerState.kind = .upgrade then { q.flags with upgrade := true } else q.flags

/-- The first character of a value other than a length. -/
theorem firstValueChar_read (ch : UInt8) (hk : q.headerState.kind ≠ .contentLength) :
    ∃ h, firstValueChar q ch (lower ch) = { parser := { q with headerState := h, flags := firstFlags q } } ∧
      ValueRead q.headerState.kind [ch] h 0 := by
  have hbegun : ∀ {w : Bytes}, w.head? = some (lower ch) → 1 < w.length → Begun w [lower ch] 0 := by
    intro w hh hw
    obtain ⟨a, w, rfl⟩ := List.exists_cons_of_ne_nil (List.ne_nil_of_length_pos (by omega : 0 < w.length))
    obtain rfl := Option.some.inj hh
    refine ⟨⟨w, rfl⟩, fun he => ?_, rfl⟩
    rw [← he] at hw
    simp at hw
  have hoff : ∀ {k : HeaderKind}, (∀ w ∈ valueWords k, w.head? ≠ some (lower ch)) →
      ValueRead k [ch] .general 0 := by
    intro k hn w hw l'
    rw [Bool.eq_false_iff]
    exact fun hword => hn w hw (head_of_isWord (valueWords_ne hw) hword)
  have hnone : ∀ {k : HeaderKind}, valueWords k = [] → ValueRead k [ch] .general 0 := by
    intro k hk
    exact hoff (by simp [hk])
  unfold firstValueChar firstFlags
  cases hs : q.headerState
  case contentLength =>
    rw [hs] at hk
    exact absurd rfl hk
  case transferEncoding =>
    refine ⟨_, rfl, ?_⟩
    split_ifs with h
    · exact ⟨rfl, hbegun (by rw [h]; rfl) (by decide)⟩
    · refine hoff fun w hw hh => h ?_
      obtain rfl := List.mem_singleton.1 hw
      exact (Option.some.inj hh).symm
  case connection =>
    refine ⟨_, rfl, ?_⟩
    split_ifs with h h'
    · exact ⟨rfl, hbegun (by rw [h]; rfl) (by decide)⟩
    · exact ⟨rfl, hbegun (by rw [h']; rfl) (by decide)⟩
    · refine hoff fun w hw hh => ?_
      have hd : ∀ w ∈ valueWords .connection, w.head? = some (chr 'k') ∨ w.head? = some (chr 'c') := by
        decide
      have := hd w hw
      simp only [hh, Option.some.injEq] at this
      exact this.elim h h'
  all_goals exact ⟨_, rfl, hnone rfl⟩

/-- What the end of a line makes of a header state. -/
def lineFlags (h : HeaderState) (f : Flags) : Flags :=
  match h with
  | .connectionKeepAlive => { f with connectionKeepAlive := true }
  | .connectionClose => { f with connectionClose := true }
  | .transferEncodingChunked => { f with chunked := true }
  | _ => f

/-- A word of which only a part has come. -/
theorem Begun.isWord_eq_false (h : Begun w (l.map lower) i) : isWord w l = false := by
  rw [Bool.eq_false_iff]
  intro hword
  have := h.length_lt
  have := length_le_of_isWord hword
  simp at *
  omega

/-- At the end of the line the flags are those that the value stands for. -/
theorem lineFlags_read {k : HeaderKind} {h : HeaderState} (hr : ValueRead k l h i) (hl : l ≠ [])
    (f : Flags) :
    lineFlags h (if k = .upgrade then { f with upgrade := true } else f) = valueFlags k l f := by
  have hother : ∀ {w w' : Bytes}, w ∈ valueWords .connection → w' ∈ valueWords .connection → w' ≠ w →
      w.head? = (l.map lower).head? → isWord w' l = false := by
    intro w w' hw hw' hne hh
    have : isWord w' (l ++ []) = false := other_word_eq_false hl hw hw' hne hh
    rwa [List.append_nil] at this
  have hkeep : keepAliveValue ∈ valueWords .connection := by simp [valueWords]
  have hclose : closeValue ∈ valueWords .connection := by simp [valueWords]
  cases h
  case general =>
    have hfalse : ∀ w ∈ valueWords k, isWord w l = false := by
      intro w hw
      have := hr w hw []
      rwa [List.append_nil] at this
    cases k <;> simp_all [lineFlags, valueFlags, valueWords]
  case matchingTransferEncodingChunked =>
    obtain ⟨rfl, hb⟩ := hr
    simp [lineFlags, valueFlags, hb.isWord_eq_false]
  case transferEncodingChunked =>
    obtain ⟨rfl, hw⟩ := hr
    simp [lineFlags, valueFlags, hw]
  case matchingConnectionKeepAlive =>
    obtain ⟨rfl, hb⟩ := hr
    simp [lineFlags, valueFlags, hb.isWord_eq_false, hother hkeep hclose (by decide) hb.head]
  case matchingConnectionClose =>
    obtain ⟨rfl, hb⟩ := hr
    simp [lineFlags, valueFlags, hb.isWord_eq_false, hother hclose hkeep (by decide) hb.head]
  case connectionKeepAlive =>
    obtain ⟨rfl, hw⟩ := hr
    simp [lineFlags, valueFlags, hw]
  case connectionClose =>
    obtain ⟨rfl, hw⟩ := hr
    have hh : closeValue.head? = (l.map lower).head? := by
      obtain ⟨a, l, rfl⟩ := List.exists_cons_of_ne_nil hl
      exact head_of_isWord (by decide) hw
    simp [lineFlags, valueFlags, hw, hother hclose hkeep (by decide) hh]
  all_goals exact hr.elim

/-! ## Reading a header -/

/-- Reading `l` takes the parser to `q'` and reports `es`, up to joining pieces. -/
def Parses (q : Parser) (l : Bytes) (q' : Parser) (es : List Report) : Prop :=
  ∃ es', Reads q l q' es' ∧ merge es' = merge es

theorem Reads.parses {es : List Report} (h : Reads q l q' es) : Parses q l q' es := ⟨es, h, rfl⟩

theorem Parses.trans {q'' : Parser} {l' : Bytes} {es es' : List Report} (h : Parses q l q' es)
    (h' : Parses q' l' q'' es') : Parses q (l ++ l') q'' (es ++ es') := by
  obtain ⟨es₁, hr, hm⟩ := h
  obtain ⟨es₂, hr', hm'⟩ := h'
  exact ⟨es₁ ++ es₂, hr.trans hr', merge_append_congr hm hm'⟩

theorem Parses.of_merge {es es' : List Report} (h : Parses q l q' es) (hm : merge es = merge es') :
    Parses q l q' es' := by
  obtain ⟨es₁, hr, hm'⟩ := h
  exact ⟨es₁, hr, hm'.trans hm⟩

theorem lookAt_next {step : Step} {n : ℕ} (h : switch q ch 1 = some step) (he : step.exit = .next) :
    lookAt ch (n + 1) q = some (step.parser, step.reports q ch, .next) := by
  rw [lookAt, h]
  simp only [he]

theorem lookAt_again {step : Step} {n : ℕ} (h : switch q ch 1 = some step) (he : step.exit = .again) :
    lookAt ch (n + 1) q =
      (lookAt ch n step.parser).map fun (q', es, exit) => (q', step.reports q ch ++ es, exit) := by
  rw [lookAt, h]
  simp only [he]

/-- A parser that has read `n` more bytes of a header. -/
def Parser.advance (q : Parser) (n : ℕ) : Parser := { q with nread := q.nread + n }

theorem advance_advance (q : Parser) (n m : ℕ) : (q.advance n).advance m = q.advance (n + m) := by
  simp [Parser.advance, Nat.add_assoc]

theorem eq_of_nread {q₁ q₂ : Parser} (hn : q₁.nread = q₂.nread)
    (h : { q₁ with nread := q₂.nread } = q₂) : q₁ = q₂ := by
  rw [← h, ← hn]

theorem Parses.of_eq {q'' : Parser} {es : List Report} (h : Parses q l q' es) (he : q' = q'') :
    Parses q l q'' es := he ▸ h

/-- A byte of a header that still fits. -/
theorem Reads.headerByte {es : List Report} (hp : q.state.parsingHeader = true)
    (hn : q.nread < maxHeaderSize) (h : lookAt ch 4 (q.advance 1) = some (q', es, .next)) :
    Reads q [ch] q' es := by
  have hcount : q.count = q.advance 1 := if_pos hp
  refine .byte ?_ (hcount ▸ h)
  rw [Overflows, hcount]
  exact fun ho => absurd ho.2 (not_lt.2 hn)

theorem Reads.headerStep {step : Step} (hp : q.state.parsingHeader = true) (hn : q.nread < maxHeaderSize)
    (h : switch (q.advance 1) ch 1 = some step) (he : step.exit = .next) :
    Reads q [ch] step.parser (step.reports q ch) :=
  .headerByte hp hn (lookAt_next h he)

/-- A byte of a header that only takes the parser to another state. -/
theorem Reads.headerPlain {s : State} (hs : q.state = s) (hp : s.parsingHeader = true)
    (hn : q.nread < maxHeaderSize) (h : switch (q.advance 1) ch 1 = some { parser := q' }) :
    Reads q [ch] q' (readIn ch s.part) := by
  subst hs
  exact .headerStep hp hn h rfl

theorem switch_headerField {r : ℕ} (hs : q.state = .headerField) : switch q ch r = caseHeaderField q ch := by
  rw [switch, hs]

theorem ne_space_of_token (h : token ch ≠ 0) : ch ≠ chr ' ' := by
  rintro rfl
  exact h (by decide)

/-- The characters of a name after the first one. -/
theorem reads_name {l₀ : Bytes} (hs : q.state = .headerField) (hr : NameRead l₀ q.headerState q.index)
    (hl₀ : l₀ ≠ []) (hl : ∀ c ∈ l, token c ≠ 0) (hn : q.nread + l.length ≤ maxHeaderSize) :
    ∃ h i, NameRead (l₀ ++ l.map token) h i ∧
      Reads q l ((q.word h i).advance l.length) (l.map fun b => .piece .headerField [b]) := by
  induction l generalizing q l₀ with
  | nil =>
    refine ⟨q.headerState, q.index, ?_, .refl q⟩
    rwa [List.map_nil, List.append_nil]
  | cons b l ih =>
    have hb := hl b List.mem_cons_self
    have hlen : q.nread + (l.length + 1) ≤ maxHeaderSize := hn
    obtain ⟨h₁, i₁, hq₁, hr₁⟩ :=
      nameChar_read (q := q.advance 1) hr hl₀ hb (ne_space_of_token hb)
    have hbyte : Reads q [b] ((q.advance 1).word h₁ i₁) [.piece .headerField [b]] := by
      refine .headerPlain hs rfl (by omega) ?_
      rw [switch_headerField (q := q.advance 1) hs, caseHeaderField, if_pos hb, hq₁]
      rfl
    obtain ⟨h, i, hr₂, hreads⟩ :=
      ih (q := (q.advance 1).word h₁ i₁) hs hr₁ (by simp) (fun c hc => hl c (List.mem_cons_of_mem _ hc))
        (by show q.nread + 1 + l.length ≤ _; omega)
    refine ⟨h, i, by simpa using hr₂, ?_⟩
    rw [List.length_cons, Nat.add_comm, ← advance_advance]
    exact hbyte.trans hreads

theorem switch_headerValue {r : ℕ} (hs : q.state = .headerValue) : switch q ch r = caseHeaderValue q ch := by
  rw [switch, hs]

/-- The characters of a value after the first one. -/
theorem reads_value {k : HeaderKind} {l₀ : Bytes} (hs : q.state = .headerValue)
    (hr : ValueRead k l₀ q.headerState q.index) (hl₀ : l₀ ≠ []) (hl : ∀ c ∈ l, c ≠ cr ∧ c ≠ lf)
    (hn : q.nread + l.length ≤ maxHeaderSize) :
    ∃ h i, ValueRead k (l₀ ++ l) h i ∧
      Reads q l ((q.word h i).advance l.length) (l.map fun b => .piece .headerValue [b]) := by
  induction l generalizing q l₀ with
  | nil =>
    refine ⟨q.headerState, q.index, ?_, .refl q⟩
    rwa [List.append_nil]
  | cons b l ih =>
    obtain ⟨hcr, hlf⟩ := hl b List.mem_cons_self
    have hlen : q.nread + (l.length + 1) ≤ maxHeaderSize := hn
    obtain ⟨h₁, i₁, hq₁, hr₁⟩ := valueChar_read b (q := q.advance 1) hr hl₀
    have hbyte : Reads q [b] ((q.advance 1).word h₁ i₁) [.piece .headerValue [b]] := by
      refine .headerPlain hs rfl (by omega) ?_
      rw [switch_headerValue (q := q.advance 1) hs, caseHeaderValue, if_neg hcr, if_neg hlf, hq₁]
    obtain ⟨h, i, hr₂, hreads⟩ :=
      ih (q := (q.advance 1).word h₁ i₁) hs hr₁ (by simp) (fun c hc => hl c (List.mem_cons_of_mem _ hc))
        (by show q.nread + 1 + l.length ≤ _; omega)
    refine ⟨h, i, by simpa using hr₂, ?_⟩
    rw [List.length_cons, Nat.add_comm, ← advance_advance]
    exact hbyte.trans hreads

theorem le_foldl_decimalDigit (l : Bytes) (n : ℕ) : n ≤ l.foldl decimalDigit n := by
  induction l generalizing n with
  | nil => exact le_rfl
  | cons b l ih =>
    refine le_trans ?_ (ih (decimalDigit n b))
    unfold decimalDigit
    omega

/-- A digit of a length that does not come to the largest number. -/
theorem lengthDigit_exact {b d : ℕ} (hb : 1 ≤ b) (h : q.contentLength * b + d < ullongMax) :
    lengthDigit q b d = { parser := { q with contentLength := q.contentLength * b + d } } := by
  have hmod : (q.contentLength * b + d) % 2 ^ 64 = q.contentLength * b + d := by
    refine Nat.mod_eq_of_lt (h.trans ?_)
    decide
  have hle : q.contentLength ≤ q.contentLength * b + d :=
    (Nat.le_mul_of_pos_right _ hb).trans (Nat.le_add_right _ _)
  unfold lengthDigit
  dsimp only
  rw [hmod, if_neg (by omega)]

theorem isNum_line (h : isNum ch = true) : ch ≠ chr ' ' ∧ ch ≠ cr ∧ ch ≠ lf := by
  revert ch
  decide +kernel

def Parser.sized (q : Parser) (n : ℕ) : Parser := { q with contentLength := n }

/-- The digits of a length after the first one. -/
theorem reads_digits (hs : q.state = .headerValue) (hh : q.headerState = .contentLength)
    (hl : ∀ c ∈ l, isNum c = true) (hlt : l.foldl decimalDigit q.contentLength < ullongMax)
    (hn : q.nread + l.length ≤ maxHeaderSize) :
    Reads q l ((q.sized (l.foldl decimalDigit q.contentLength)).advance l.length)
      (l.map fun b => .piece .headerValue [b]) := by
  induction l generalizing q with
  | nil => exact .refl q
  | cons b l ih =>
    have hb := hl b List.mem_cons_self
    have hlen : q.nread + (l.length + 1) ≤ maxHeaderSize := hn
    have hline := isNum_line hb
    have hdigit : decimalDigit q.contentLength b < ullongMax :=
      (le_foldl_decimalDigit l _).trans_lt hlt
    have hbyte : Reads q [b] ((q.sized (decimalDigit q.contentLength b)).advance 1)
        [.piece .headerValue [b]] := by
      refine .headerPlain hs rfl (by omega) ?_
      rw [switch_headerValue (q := q.advance 1) hs, caseHeaderValue, if_neg hline.2.1, if_neg hline.2.2,
        valueChar, show (q.advance 1).headerState = .contentLength from hh]
      simp only [if_neg hline.1, hb]
      exact congrArg some (lengthDigit_exact (q := q.advance 1) (by decide) hdigit)
    have hrest := ih (q := (q.sized (decimalDigit q.contentLength b)).advance 1) hs hh
      (fun c hc => hl c (List.mem_cons_of_mem _ hc)) hlt (by show q.nread + 1 + l.length ≤ _; omega)
    rw [List.length_cons, Nat.add_comm, ← advance_advance]
    exact hbyte.trans hrest

/-! ### A line -/

/-- A parser that is about to look at the first byte of a line. -/
def AtLine (s : State) : Prop := s = .headerFieldStart ∨ s = .headerValueLws

def Parser.flagged (q : Parser) (f : Flags) : Parser := { q with flags := f }

theorem ne_newline_of_token (h : token ch ≠ 0) : ch ≠ cr ∧ ch ≠ lf ∧ ch ≠ tab := by
  refine ⟨?_, ?_, ?_⟩
  all_goals
    rintro rfl
    exact h (by decide)

theorem lookAt_nameStart {n : ℕ} (hs : q.state = .headerFieldStart) (ht : token ch ≠ 0) :
    lookAt ch (n + 1) q =
      some ((q.goto .headerField).word (firstHeaderState (token ch)) 0,
        [.piece .headerField [], .piece .headerField [ch]], .next) := by
  obtain ⟨hcr, hlf, -⟩ := ne_newline_of_token ht
  have hstep : switch q ch 1 = some
      { parser := (q.goto .headerField).word (firstHeaderState (token ch)) 0
        actions := [.mark .headerField] } := by
    rw [switch, hs]
    dsimp only
    rw [caseHeaderFieldStart, if_neg hcr, if_neg hlf, if_neg ht]
    rfl
  rw [lookAt_next hstep rfl]
  rfl

theorem reads_nameStart (hs : AtLine q.state) (ht : token ch ≠ 0) (hn : q.nread < maxHeaderSize) :
    Reads q [ch] (((q.goto .headerField).word (firstHeaderState (token ch)) 0).advance 1)
      [.piece .headerField [], .piece .headerField [ch]] := by
  obtain hs | hs := hs
  · exact .headerByte (by rw [hs]; rfl) hn (lookAt_nameStart (q := q.advance 1) hs ht)
  · refine .headerByte (by rw [hs]; rfl) hn ?_
    have hline : ¬ (ch = chr ' ' ∨ ch = tab) :=
      not_or.2 ⟨ne_space_of_token ht, (ne_newline_of_token ht).2.2⟩
    have hstep : switch (q.advance 1) ch 1 =
        some (reexecuting ((q.advance 1).goto .headerFieldStart)) := by
      rw [switch, show (q.advance 1).state = .headerValueLws from hs]
      dsimp only
      rw [caseHeaderValueLws, if_neg hline]
    rw [lookAt_again hstep rfl]
    show (lookAt ch 3 ((q.advance 1).goto .headerFieldStart)).map _ = _
    rw [lookAt_nameStart rfl ht]
    rfl

theorem reads_colon (hs : q.state = .headerField) (hn : q.nread < maxHeaderSize) :
    Reads q [chr ':'] ((q.goto .headerValueStart).advance 1) [] := by
  have hstep : switch (q.advance 1) (chr ':') 1 =
      some (reporting ((q.goto .headerValueStart).advance 1) .headerField) := by
    rw [switch_headerField (q := q.advance 1) hs, caseHeaderField, if_neg (by decide), if_pos rfl]
    rfl
  have := Reads.headerStep (by rw [hs]; rfl) hn hstep rfl
  rwa [Step.reports, Step.part, hs] at this

theorem switch_headerValueStart {r : ℕ} (hs : q.state = .headerValueStart) :
    switch q ch r = some (caseHeaderValueStart q ch) := by
  rw [switch, hs]

theorem reads_space (hs : q.state = .headerValueStart) (hn : q.nread < maxHeaderSize) :
    Reads q [chr ' '] (q.advance 1) [] := by
  refine .headerPlain hs rfl hn ?_
  rw [switch_headerValueStart (q := q.advance 1) hs, caseHeaderValueStart, if_pos (.inl rfl)]

theorem reads_emptyValue (hs : q.state = .headerValueStart) (hn : q.nread < maxHeaderSize) :
    Reads q [cr] (((q.goto .headerAlmostDone).word .general 0).advance 1) [.piece .headerValue []] := by
  have hstep : switch (q.advance 1) cr 1 = some
      { parser := ((q.goto .headerAlmostDone).word .general 0).advance 1
        actions := [.mark .headerValue, .data .headerValue 0 1] } := by
    rw [switch_headerValueStart (q := q.advance 1) hs, caseHeaderValueStart, if_neg (by decide)]
    rfl
  have := Reads.headerStep (by rw [hs]; rfl) hn hstep rfl
  rwa [Step.reports, Step.part, hs] at this

/-- The first character of a value. -/
theorem reads_firstChar (hs : q.state = .headerValueStart) (hn : q.nread < maxHeaderSize)
    (hsp : ch ≠ chr ' ' ∧ ch ≠ tab) (hline : ch ≠ cr ∧ ch ≠ lf)
    (hfirst : firstValueChar { q.advance 1 with state := .headerValue, index := 0 } ch (lower ch) =
      { parser := q' }) :
    Reads q [ch] q' [.piece .headerValue [], .piece .headerValue [ch]] := by
  have hstep : switch (q.advance 1) ch 1 = some { parser := q', actions := [.mark .headerValue] } := by
    rw [switch_headerValueStart (q := q.advance 1) hs, caseHeaderValueStart,
      if_neg (not_or.2 ⟨hsp.1, hsp.2⟩)]
    dsimp only
    rw [if_neg hline.1, if_neg hline.2, hfirst]
  have := Reads.headerStep (by rw [hs]; rfl) hn hstep rfl
  rwa [Step.reports, Step.part, hs] at this

theorem reads_valueStart (hs : q.state = .headerValueStart) (hn : q.nread < maxHeaderSize)
    (hsp : ch ≠ chr ' ' ∧ ch ≠ tab) (hline : ch ≠ cr ∧ ch ≠ lf)
    (hk : q.headerState.kind ≠ .contentLength) :
    ∃ h, ValueRead q.headerState.kind [ch] h 0 ∧
      Reads q [ch] ((((q.goto .headerValue).word h 0).flagged (firstFlags q)).advance 1)
        [.piece .headerValue [], .piece .headerValue [ch]] := by
  obtain ⟨h, hfirst, hr⟩ := firstValueChar_read ch
    (q := { q.advance 1 with state := .headerValue, index := 0 }) hk
  exact ⟨h, hr, reads_firstChar hs hn hsp hline hfirst⟩

theorem reads_digitStart (hs : q.state = .headerValueStart) (hn : q.nread < maxHeaderSize)
    (hd : isNum ch = true) (hh : q.headerState = .contentLength) :
    Reads q [ch] ((((q.goto .headerValue).word .contentLength 0).sized (decimalDigit 0 ch)).advance 1)
      [.piece .headerValue [], .piece .headerValue [ch]] := by
  obtain ⟨hsp, hline⟩ := isNum_line hd
  have htab : ch ≠ tab := by
    rintro rfl
    exact absurd hd (by decide)
  refine reads_firstChar hs hn ⟨hsp, htab⟩ hline ?_
  simp [firstValueChar, hd, hh, Parser.advance, Parser.sized, Parser.word, Parser.goto, decimalDigit]

theorem reads_valueEnd (hs : q.state = .headerValue) (hn : q.nread < maxHeaderSize) :
    Reads q [cr] ((q.goto .headerAlmostDone).advance 1) [] := by
  have hstep : switch (q.advance 1) cr 1 =
      some (reporting ((q.goto .headerAlmostDone).advance 1) .headerValue) := by
    rw [switch_headerValue (q := q.advance 1) hs, caseHeaderValue, if_pos rfl]
    rfl
  have := Reads.headerStep (by rw [hs]; rfl) hn hstep rfl
  rwa [Step.reports, Step.part, hs] at this

theorem reads_lineEnd (hs : q.state = .headerAlmostDone) (hn : q.nread < maxHeaderSize) :
    Reads q [lf] (((q.goto .headerValueLws).flagged (lineFlags q.headerState q.flags)).advance 1) [] := by
  refine .headerPlain hs rfl hn ?_
  rw [switch, show (q.advance 1).state = .headerAlmostDone from hs]
  dsimp only
  rw [caseHeaderAlmostDone, if_neg (by decide)]
  rfl

/-- The end of a line, after a value that is not empty. -/
theorem reads_crlf (hs : q.state = .headerValue) (hn : q.nread + 2 ≤ maxHeaderSize) :
    Reads q [cr, lf] (((q.goto .headerValueLws).flagged (lineFlags q.headerState q.flags)).advance 2) [] :=
  (reads_valueEnd hs (by omega)).trans
    (reads_lineEnd (q := (q.goto .headerAlmostDone).advance 1) rfl (by show q.nread + 1 < _; omega))

/-- The characters of a part, one by one. -/
theorem Reads.parses_part {q'' : Parser} {k : Part} {b : UInt8} {v : Bytes}
    (h : Reads q [b] q' [.piece k [], .piece k [b]]) (h' : Reads q' v q'' (v.map fun c => .piece k [c])) :
    Parses q (b :: v) q'' [.piece k (b :: v)] :=
  ⟨_, h.trans h', merge_piece_map_singleton (ν := Notice) k [] (b :: v)⟩

/-- A value and the end of its line, whatever the name was. -/
theorem parses_value {v : Bytes} (hs : q.state = .headerValueStart)
    (hn : q.nread + v.length + 2 ≤ maxHeaderSize) (hline : ∀ c ∈ v, c ≠ cr ∧ c ≠ lf)
    (hfirst : ∀ c ∈ v.head?, c ≠ chr ' ' ∧ c ≠ tab)
    (hdigits : q.headerState.kind = .contentLength →
      v ≠ [] ∧ (∀ c ∈ v, isNum c = true) ∧ decimal v < ullongMax) :
    ∃ h i, Parses q (v ++ [cr, lf])
      (((((q.goto .headerValueLws).flagged (valueFlags q.headerState.kind v q.flags)).sized
        (if q.headerState.kind = .contentLength then decimal v else q.contentLength)).word h i).advance
          (v.length + 2)) [.piece .headerValue v] := by
  cases v with
  | nil =>
    have hk : q.headerState.kind ≠ .contentLength := fun hk => (hdigits hk).1 rfl
    have hflags : valueFlags q.headerState.kind [] q.flags = q.flags := by
      cases q.headerState.kind <;> rfl
    rw [hflags, if_neg hk]
    refine ⟨.general, 0, ?_⟩
    exact ((reads_emptyValue hs (by simp at hn; omega)).trans
      (reads_lineEnd (q := ((q.goto .headerAlmostDone).word .general 0).advance 1) rfl
        (by show q.nread + 1 < _; simp at hn; omega))).parses
  | cons b v =>
    have hlen : q.nread + (v.length + 1) + 2 ≤ maxHeaderSize := hn
    have hb := hline b List.mem_cons_self
    have hv : ∀ c ∈ v, c ≠ cr ∧ c ≠ lf := fun c hc => hline c (List.mem_cons_of_mem _ hc)
    by_cases hk : q.headerState.kind = .contentLength
    · obtain ⟨-, hnum, hmax⟩ := hdigits hk
      have hh : q.headerState = .contentLength := by
        cases hq : q.headerState <;> rw [hq] at hk <;> first | rfl | cases hk
      have h₁ := reads_digitStart hs (by omega) (hnum b List.mem_cons_self) hh
      have h₂ := reads_digits (l := v)
        (q := (((q.goto .headerValue).word .contentLength 0).sized (decimalDigit 0 b)).advance 1) rfl rfl
        (fun c hc => hnum c (List.mem_cons_of_mem _ hc)) hmax (by show q.nread + 1 + v.length ≤ _; omega)
      have h₃ := reads_crlf
        (q := ((((q.goto .headerValue).word .contentLength 0).advance 1).sized (decimal (b :: v))).advance
          v.length) rfl (by show q.nread + 1 + v.length + 2 ≤ _; omega)
      refine ⟨.contentLength, 0, ?_⟩
      rw [if_pos hk, hk]
      refine ((h₁.parses_part h₂).trans h₃.parses).of_eq (eq_of_nread ?_ rfl)
      show q.nread + 1 + v.length + 2 = q.nread + (v.length + 1 + 2)
      omega
    · obtain ⟨h₀, hr₀, h₁⟩ := reads_valueStart hs (by omega) (hfirst b rfl) hb hk
      obtain ⟨h, i, hr, h₂⟩ := reads_value (l := v)
        (q := (((q.goto .headerValue).word h₀ 0).flagged (firstFlags q)).advance 1) rfl hr₀ (by simp) hv
        (by show q.nread + 1 + v.length ≤ _; omega)
      have h₃ := reads_crlf
        (q := (((((q.goto .headerValue).word h₀ 0).flagged (firstFlags q)).advance 1).word h i).advance v.length)
        rfl (by show q.nread + 1 + v.length + 2 ≤ _; omega)
      have hflags : lineFlags h (firstFlags q) = valueFlags q.headerState.kind (b :: v) q.flags :=
        lineFlags_read hr (by simp) q.flags
      refine ⟨h, i, ?_⟩
      rw [if_neg hk, ← hflags]
      refine ((h₁.parses_part h₂).trans h₃.parses).of_eq (eq_of_nread ?_ rfl)
      show q.nread + 1 + v.length + 2 = q.nread + (v.length + 1 + 2)
      omega

/-- A header takes the parser to the next line, with what the header says. -/
theorem Header.parses {h : Header} (hw : h.WellFormed) (hs : AtLine q.state)
    (hn : q.nread + h.print.length ≤ maxHeaderSize) :
    ∃ hs i, Parses q h.print
      (((((q.goto .headerValueLws).flagged (h.flags q.flags)).sized (h.length q.contentLength)).word hs i).advance
        h.print.length) h.reports := by
  obtain ⟨name, value⟩ := h
  obtain ⟨a, l, rfl⟩ := List.exists_cons_of_ne_nil hw.name_ne
  have hlen : q.nread + (l.length + value.length + 5) ≤ maxHeaderSize := by
    simp only [Header.print, List.length_append, List.length_cons, List.length_nil] at hn
    omega
  have ha := hw.name_token a List.mem_cons_self
  have h₁ := reads_nameStart hs ha (by omega)
  obtain ⟨h, i, hr, h₂⟩ := reads_name (l := l)
    (q := ((q.goto .headerField).word (firstHeaderState (token a)) 0).advance 1) rfl (nameRead_first _)
    (by simp) (fun c hc => hw.name_token c (List.mem_cons_of_mem _ hc))
    (by show q.nread + 1 + l.length ≤ _; omega)
  have h₃ := reads_colon (q := ((((q.goto .headerField).advance 1).word h i)).advance l.length) rfl
    (by show q.nread + 1 + l.length < _; omega)
  have h₄ := reads_space
    (q := ((((q.goto .headerValueStart).advance 1).word h i).advance l.length).advance 1) rfl
    (by show q.nread + 1 + l.length + 1 < _; omega)
  have hkind : h.kind = Header.kind ⟨a :: l, value⟩ := hr.kind
  obtain ⟨h', i', h₅⟩ := parses_value (v := value)
    (q := (((((q.goto .headerValueStart).advance 1).word h i).advance l.length).advance 1).advance 1) rfl
    (by show q.nread + 1 + l.length + 1 + 1 + value.length + 2 ≤ _; omega) hw.value_line hw.value_first
    (fun hk => hw.length_digits (hkind ▸ hk))
  refine ⟨h', i', ?_⟩
  have hall := (((h₁.parses_part h₂).trans h₃.parses).trans h₄.parses).trans h₅
  have hprint : Header.print ⟨a :: l, value⟩ = (a :: l ++ [chr ':'] ++ [chr ' ']) ++ (value ++ [cr, lf]) := by
    simp [Header.print]
  rw [hprint]
  refine hall.of_eq (eq_of_nread ?_ ?_)
  · simp only [List.length_append, List.length_cons, List.length_nil]
    show q.nread + 1 + l.length + 1 + 1 + (value.length + 2) = _
    simp [Parser.advance, Parser.word, Parser.sized, Parser.flagged, Parser.goto]
    omega
  · simp only [Header.flags, Header.length, ← hkind]
    rfl

/-- A list of headers. -/
theorem parses_headers {hs : List Header} (hw : ∀ h ∈ hs, h.WellFormed) (hq : AtLine q.state)
    (hn : q.nread + (hs.flatMap Header.print).length ≤ maxHeaderSize) :
    ∃ s h i, AtLine s ∧ Parses q (hs.flatMap Header.print)
      (((((q.goto s).flagged (hs.foldl (fun f h => h.flags f) q.flags)).sized
        (hs.foldl (fun n h => h.length n) q.contentLength)).word h i).advance
          (hs.flatMap Header.print).length) (hs.flatMap Header.reports) := by
  induction hs generalizing q with
  | nil => exact ⟨q.state, q.headerState, q.index, hq, (Reads.refl q).parses⟩
  | cons h hs ih =>
    have hlen : q.nread + (h.print.length + (hs.flatMap Header.print).length) ≤ maxHeaderSize := by
      simpa using hn
    obtain ⟨h₁, i₁, hp₁⟩ := Header.parses (hw h List.mem_cons_self) hq (by omega)
    obtain ⟨s, h₂, i₂, hs₂, hp₂⟩ := ih (fun h' hh => hw h' (List.mem_cons_of_mem _ hh))
      (q := ((((q.goto .headerValueLws).flagged (h.flags q.flags)).sized (h.length q.contentLength)).word h₁
        i₁).advance h.print.length) (.inr rfl) (by show q.nread + h.print.length + _ ≤ _; omega)
    refine ⟨s, h₂, i₂, hs₂, ?_⟩
    rw [List.flatMap_cons, List.flatMap_cons, List.length_append]
    exact (hp₁.trans hp₂).of_eq (eq_of_nread (Nat.add_assoc _ _ _) rfl)

end HttpParser

end CaptureHpc
