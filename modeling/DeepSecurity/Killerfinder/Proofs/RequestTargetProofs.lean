import DeepSecurity.Killerfinder.RequestTarget
import DeepSecurity.Killerfinder.SessionRun

/-!
# Proofs: request targets

The decoder looks for `://` anywhere in the target. In the absolute form the first one is behind the
scheme; in the other forms there should be none.
-/

namespace Killerfinder

namespace AbsoluteForm

variable (f : AbsoluteForm)

theorem find_text : CxxString.find (lit [':', '/', '/']) f.text = some f.scheme.length := by
  have hcolon : ':'.toUInt8 ∉ f.scheme := fun hmem => (f.scheme_chars _ hmem).1 rfl
  exact CxxString.find_append hcolon (lit ['/', '/']) (f.authority ++ f.rest)

theorem take_text : f.text.take f.scheme.length = f.scheme := by
  simp [text]

theorem drop_text : f.text.drop (f.scheme.length + 3) = f.authority ++ f.rest := by
  rw [text, ← List.append_assoc]
  exact List.drop_left' (by simp [lit])

theorem head_text : f.text.head? ≠ some '/'.toUInt8 := by
  obtain ⟨c, l, hl⟩ := List.exists_cons_of_ne_nil f.scheme_ne
  have hc := (f.scheme_chars c (by simp [hl])).2
  simpa [text, hl] using hc

theorem slash_notMem : '/'.toUInt8 ∉ f.authority := fun hmem => (f.authority_chars _ hmem).1 rfl

theorem rest_cases (h : f.rest.head? ≠ some '?'.toUInt8) :
    f.rest = [] ∨ ∃ l, f.rest = '/'.toUInt8 :: l := by
  cases hrest : f.rest with
  | nil => exact .inl rfl
  | cons c l =>
    right
    rcases f.rest_head c (by simp [hrest]) with rfl | rfl
    · exact ⟨l, rfl⟩
    · simp [hrest] at h

theorem find_slash_of_nil (h : f.rest = []) :
    CxxString.find (lit ['/']) (f.authority ++ f.rest) = none := by
  rw [h, List.append_nil]
  exact CxxString.find_singleton_none f.slash_notMem

theorem find_slash_of_cons {l : Bytes} (h : f.rest = '/'.toUInt8 :: l) :
    CxxString.find (lit ['/']) (f.authority ++ f.rest) = some f.authority.length := by
  rw [h]
  exact CxxString.find_append f.slash_notMem [] l

/-- A slash that is found behind a query is not the end of the authority. -/
theorem length_lt_of_find_slash {l : Bytes} {pos : ℕ} (h : f.rest = '?'.toUInt8 :: l)
    (hpos : CxxString.find (lit ['/']) (f.authority ++ f.rest) = some pos) :
    f.authority.length < pos := by
  by_contra hle
  rw [h] at hpos
  obtain ⟨l', hl'⟩ := CxxString.prefix_of_find hpos
  have hmem : (f.authority ++ '?'.toUInt8 :: l)[pos]? = some '/'.toUInt8 := by
    rw [← List.head?_drop, ← hl']
    rfl
  rcases Nat.lt_or_eq_of_le (Nat.le_of_not_lt hle) with hlt | rfl
  · rw [List.getElem?_append_left hlt] at hmem
    exact f.slash_notMem (List.mem_of_getElem? hmem)
  · rw [List.getElem?_append_right le_rfl, Nat.sub_self] at hmem
    exact absurd (Option.some.inj hmem) (by decide)

end AbsoluteForm

namespace CTcpSession

variable {P : HttpParser} {db : CDBManager} {sess : CTcpSession P} {t : RequestTarget}

/-- The protocol that is looked up for a request with a `Host` value. -/
def requestProt (url : Bytes) : Bytes :=
  match CxxString.find (lit [':', '/', '/']) url with
  | some pos => url.take pos
  | none => lit ['h', 't', 't', 'p']

theorem headerValueCb_withTarget {path : Bytes} (h : requestPath t.text = .ok path)
    (hostV buf : Bytes) :
    ∃ s, (sess.withTarget t (lit ['h', 'o', 's', 't']) hostV).headerValueCb db 50 buf = .ok s ∧
      s.blockLog = sess.blockLog ++ [.request (requestProt t.text) (hostV ++ buf) path] := by
  simp only [headerValueCb, withTarget, h, if_true]
  exact ⟨_, rfl, rfl⟩

theorem headerValueCb_withTarget_error {e : OutOfRange} (h : requestPath t.text = .error e)
    (hostV buf : Bytes) :
    (sess.withTarget t (lit ['h', 'o', 's', 't']) hostV).headerValueCb db 50 buf = .error e := by
  simp only [headerValueCb, withTarget, h, if_true]

/-! ## The forms one by one -/

theorem requestPath_origin (rest : Bytes) :
    requestPath (RequestTarget.origin rest).text = .ok ('/'.toUInt8 :: rest) := by
  simp [requestPath, RequestTarget.text]

theorem requestPath_absolute (f : AbsoluteForm) :
    requestPath f.text = .ok (match CxxString.find (lit ['/']) (f.authority ++ f.rest) with
      | some pos => (f.authority ++ f.rest).drop pos
      | none => lit ['/']) := by
  have hlength : f.text.length = f.scheme.length + 3 + (f.authority ++ f.rest).length := by
    simp only [AbsoluteForm.text, List.length_append, lit, List.length_map, List.length_cons,
      List.length_nil]
    omega
  have htake : (f.authority ++ f.rest).take f.text.length = f.authority ++ f.rest :=
    List.take_of_length_le (by omega)
  rw [requestPath, if_pos f.head_text, f.find_text]
  simp only [CxxString.substr_of_le (show f.scheme.length + 3 ≤ f.text.length by omega),
    f.drop_text, htake]
  cases CxxString.find (lit ['/']) (f.authority ++ f.rest) <;> rfl

theorem requestPath_regular {f : AbsoluteForm} (h : f.rest.head? ≠ some '?'.toUInt8) :
    requestPath f.text = .ok f.path := by
  rw [requestPath_absolute]
  rcases f.rest_cases h with hrest | ⟨l, hrest⟩
  · rw [f.find_slash_of_nil hrest, AbsoluteForm.path, hrest]
    rfl
  · rw [f.find_slash_of_cons hrest, AbsoluteForm.path, if_pos (by rw [hrest]; rfl)]
    simp

theorem requestProt_absolute (f : AbsoluteForm) : requestProt f.text = f.scheme := by
  rw [requestProt, f.find_text]
  exact f.take_text

/-- Without a slash in the target, `npos` is taken for a position. -/
theorem requestPath_without_slash {url : Bytes} (h : '/'.toUInt8 ∉ url) :
    requestPath url = if 2 ≤ url.length then .ok (lit ['/']) else .error .url := by
  have hhead : url.head? ≠ some '/'.toUInt8 := fun hmem => h (List.mem_of_head? hmem)
  have hmarker : CxxString.find (lit [':', '/', '/']) url = none := by
    rw [CxxString.find_eq_none_iff]
    intro hocc
    exact h (hocc.subset (by decide))
  rw [requestPath, if_pos hhead, hmarker]
  by_cases hlength : 2 ≤ url.length
  · have hslash : '/'.toUInt8 ∉ (url.drop 2).take url.length := fun hmem =>
      h (List.mem_of_mem_drop (List.mem_of_mem_take hmem))
    have hfind : CxxString.find (lit ['/']) ((url.drop 2).take url.length) = none :=
      CxxString.find_singleton_none hslash
    simp only [CxxString.substr_of_le hlength, hfind, if_pos hlength]
  · simp only [CxxString.substr_eq_none.2 (Nat.lt_of_not_le hlength), if_neg hlength]

/-- The protocol of a target without the marker, and of no other one that begins with a slash. -/
theorem requestProt_origin_iff (rest : Bytes) :
    requestProt (RequestTarget.origin rest).text = lit ['h', 't', 't', 'p'] ↔
      (RequestTarget.origin rest).Regular := by
  show _ ↔ ¬ lit [':', '/', '/'] <:+: '/'.toUInt8 :: rest
  rw [← CxxString.find_eq_none_iff, requestProt]
  split
  · next pos hpos =>
    -- what is before the marker is empty or begins with a slash
    rw [RequestTarget.text] at hpos
    simp only [hpos, reduceCtorEq, iff_false]
    intro hprot
    have hhead := congrArg List.head? hprot
    cases pos with
    | zero => simp [lit] at hhead
    | succ pos => exact absurd (Option.some.inj hhead) (by decide)
  · next hnone =>
    rw [RequestTarget.text] at hnone
    simpa using hnone

/-! ## The end of the Host value -/

theorem host_iff :
    (∀ hostV buf, ∃ s,
      (sess.withTarget t (lit ['h', 'o', 's', 't']) hostV).headerValueCb db 50 buf = .ok s ∧
        ∀ w ∈ t.lookup (hostV ++ buf), s.blockLog = sess.blockLog ++ [w]) ↔
    ∃ path, requestPath t.text = .ok path ∧
      ∀ host, ∀ w ∈ t.lookup host, w = .request (requestProt t.text) host path := by
  cases hpath : requestPath t.text with
  | error e =>
    constructor
    · intro h
      obtain ⟨s, hs, -⟩ := h [] []
      rw [headerValueCb_withTarget_error hpath] at hs
      exact absurd hs (by simp)
    · rintro ⟨path, hok, -⟩
      exact absurd hok (by simp)
  | ok path =>
    constructor
    · intro h
      refine ⟨path, rfl, fun host w hw => ?_⟩
      obtain ⟨s, hs, hlog⟩ := h [] host
      obtain ⟨s', hs', hlog'⟩ := headerValueCb_withTarget hpath [] host
      obtain rfl : s = s' := Except.ok.inj (hs.symm.trans hs')
      simpa using (hlog w hw).symm.trans hlog'
    · rintro ⟨path', hok, hw⟩ hostV buf
      obtain rfl : path = path' := Except.ok.inj hok
      obtain ⟨s, hs, hlog⟩ := headerValueCb_withTarget hpath hostV buf
      refine ⟨s, hs, fun w hmem => ?_⟩
      rw [hlog, hw _ w hmem]

theorem not_takesApart_of_error {e : OutOfRange} (h : requestPath t.text = .error e) :
    ¬ TakesApart db sess t := by
  intro htakes
  obtain ⟨path, hpath, -⟩ := host_iff.1 htakes.host
  rw [h] at hpath
  exact absurd hpath (by simp)

/-! ## The end of the headers -/

theorem headersCompleteCb_absolute (f : AbsoluteForm) (hostF : Bytes) :
    ((sess.withTarget (.absolute f) hostF []).headersCompleteCb db).blockLog =
      sess.blockLog ++ [match CxxString.find (lit ['/']) (f.authority ++ f.rest) with
        | some pos => .request f.scheme ((f.authority ++ f.rest).take pos)
            ((f.authority ++ f.rest).drop pos)
        | none => .request f.scheme (f.authority ++ f.rest) (lit ['/'])] := by
  simp only [headersCompleteCb, withTarget, RequestTarget.text, if_true, f.find_text, f.drop_text,
    f.take_text]
  cases CxxString.find (lit ['/']) (f.authority ++ f.rest) <;> rfl

theorem headersCompleteCb_regular {f : AbsoluteForm} (h : f.rest.head? ≠ some '?'.toUInt8)
    (hostF : Bytes) : ((sess.withTarget (.absolute f) hostF []).headersCompleteCb db).blockLog =
      sess.blockLog ++ [.request f.scheme f.authority f.path] := by
  rw [headersCompleteCb_absolute]
  rcases f.rest_cases h with hrest | ⟨l, hrest⟩
  · rw [f.find_slash_of_nil hrest, AbsoluteForm.path, hrest]
    simp
  · rw [f.find_slash_of_cons hrest, AbsoluteForm.path, if_pos (by rw [hrest]; rfl)]
    simp

/-- A query behind the authority is taken for a part of the host. -/
theorem headersCompleteCb_query {f : AbsoluteForm} (h : f.rest.head? = some '?'.toUInt8)
    (hostF prot path : Bytes) :
    ((sess.withTarget (.absolute f) hostF []).headersCompleteCb db).blockLog ≠
      sess.blockLog ++ [.request prot f.authority path] := by
  obtain ⟨l, hrest⟩ := List.head?_eq_some_iff.1 h
  rw [headersCompleteCb_absolute]
  intro heq
  have hlast := List.append_cancel_left heq
  split at hlast
  · next pos hpos =>
    have hhost : (f.authority ++ f.rest).take pos = f.authority := by
      injection (List.cons.inj hlast).1
    have hlt := f.length_lt_of_find_slash hrest hpos
    have hlength := congrArg List.length hhost
    simp only [hrest, List.length_take, List.length_append, List.length_cons] at hlength
    omega
  · have hhost : f.authority ++ f.rest = f.authority := by
      injection (List.cons.inj hlast).1
    simp [hrest] at hhost

/-! ## All targets -/

theorem takesApart_iff_regular {P : HttpParser} (db : CDBManager) (sess : CTcpSession P)
    (t : RequestTarget) : TakesApart db sess t ↔ t.Regular := by
  cases t with
  | origin rest =>
    rw [← requestProt_origin_iff]
    constructor
    · intro h
      obtain ⟨path, -, hw⟩ := host_iff.1 h.host
      have heq := hw [] _ rfl
      injection heq with hprot
      exact hprot.symm
    · intro hprot
      refine ⟨host_iff.2 ⟨_, requestPath_origin rest, fun host w hw => ?_⟩,
        fun f hf => absurd hf (by simp)⟩
      rw [hprot]
      exact (Option.some.inj hw).symm
  | absolute f =>
    constructor
    · -- with a query behind the authority the two look-ups differ in the host
      intro h hquery
      obtain ⟨path, hpath, -⟩ := host_iff.1 h.host
      obtain ⟨s, hs, hlog⟩ := headerValueCb_withTarget hpath [] f.authority
      have hsame := h.noHost f rfl [] f.authority [] s rfl hs
      rw [hlog] at hsame
      exact headersCompleteCb_query hquery [] _ path hsame
    · intro h
      have hpath : requestPath (RequestTarget.absolute f).text = .ok f.path := requestPath_regular h
      have hprot : requestProt (RequestTarget.absolute f).text = f.scheme := requestProt_absolute f
      refine ⟨host_iff.2 ⟨_, hpath, fun host w hw => ?_⟩, fun g hg hostV buf hostF s hhost hs => ?_⟩
      · rw [hprot]
        exact (Option.some.inj hw).symm
      · obtain rfl : f = g := by simpa using hg
        obtain ⟨s', hs', hlog⟩ := headerValueCb_withTarget hpath hostV buf
        obtain rfl : s = s' := Except.ok.inj (hs.symm.trans hs')
        rw [hlog, hprot, hhost, headersCompleteCb_regular h]
  | asterisk =>
    have hthrow : requestPath RequestTarget.asterisk.text = .error .url :=
      (requestPath_without_slash (by decide)).trans (if_neg (by decide))
    exact ⟨fun h => not_takesApart_of_error hthrow h, fun h => h.elim⟩
  | authority name =>
    have hpath : requestPath (RequestTarget.authority name).text = _ :=
      requestPath_without_slash name.2.2
    constructor
    · intro h
      by_contra hshort
      exact not_takesApart_of_error (hpath.trans (if_neg hshort)) h
    · intro h
      exact ⟨host_iff.2 ⟨_, hpath.trans (if_pos h), fun host w hw => absurd hw (by
        simp [RequestTarget.lookup])⟩, fun f hf => absurd hf (by simp)⟩

/-- The targets `*`, for which an exception is thrown, and `/?u=a://b`, whose protocol is taken to be
`/?u=a`. -/
theorem not_takesApart_asterisk_query :
    let sess : CTcpSession (.scripted []) :=
      created ⟨[80], []⟩ .empty (clientPacket 999 0x02 [] (by decide))
    ¬ TakesApart .empty sess .asterisk ∧
      ¬ TakesApart .empty sess (.origin (lit ['?', 'u', '=', 'a', ':', '/', '/', 'b'])) := by
  constructor
  · exact not_takesApart_of_error
      ((requestPath_without_slash (by decide)).trans (if_neg (by decide)))
  · intro h
    obtain ⟨path, -, hw⟩ := host_iff.1 h.host
    injection hw [] _ rfl with hprot
    exact absurd hprot (by decide)

end CTcpSession

end Killerfinder
