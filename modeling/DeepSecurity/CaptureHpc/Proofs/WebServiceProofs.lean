import DeepSecurity.CaptureHpc.WebService
import Mathlib.Algebra.BigOperators.Group.List.Basic
import Mathlib.Algebra.GroupWithZero.Nat

/-!
# Proofs: what the command server sees of a request

The parser reports of the target what a call of `recv` has brought of it, and the last report stays. Of
the body, only the end of the last report and the total length stay. `run_message` says what this comes
to after any number of calls, and `sees_iff` when it is the target and the body of the request.
-/

namespace CaptureHpc.WebService

variable {canonicalize : Bytes → Bytes} {buf : Bytes} {message : HttpMessage} {mark : Option (Part × ℕ)}
  {p a j : ℕ} {parts rest : List Part}

/-! ## Reports -/

def urls : List Callback → List (ℕ × ℕ)
  | [] => []
  | .url pos len :: cs => (pos, len) :: urls cs
  | .body _ _ :: cs => urls cs

def bodies : List Callback → List (ℕ × ℕ)
  | [] => []
  | .url _ _ :: cs => bodies cs
  | .body pos len :: cs => (pos, len) :: bodies cs

theorem urls_append {cs cs' : List Callback} : urls (cs ++ cs') = urls cs ++ urls cs' := by
  induction cs with
  | nil => rfl
  | cons c cs ih => cases c <;> simp [urls, ih]

theorem bodies_append {cs cs' : List Callback} : bodies (cs ++ cs') = bodies cs ++ bodies cs' := by
  induction cs with
  | nil => rfl
  | cons c cs ih => cases c <;> simp [bodies, ih]

/-- The message after some reports. -/
def after (canonicalize : Bytes → Bytes) (buf : Bytes) (cs : List Callback) (message : HttpMessage) :
    HttpMessage where
  requestUri := ((urls cs).getLast?.map fun u => canonicalize ((buf.drop u.1).take u.2)).getD
    message.requestUri
  postData := ((bodies cs).getLast?.map fun u => u.1 + u.2).or message.postData
  postDataLen := message.postDataLen + ((bodies cs).map Prod.snd).sum

theorem foldlM_invoke (cs : List Callback) (message : HttpMessage) :
    cs.foldlM (invoke canonicalize buf) message =
      if ∀ u ∈ urls cs, u.2 < maxUriSize then some (after canonicalize buf cs message) else none := by
  induction cs generalizing message with
  | nil => simp [after, urls, bodies]
  | cons c cs ih =>
    rw [List.foldlM_cons]
    cases c with
    | url pos len =>
      by_cases hlen : len < maxUriSize
      · have hstep : invoke canonicalize buf message (.url pos len) =
            some { message with requestUri := canonicalize ((buf.drop pos).take len) } := if_pos hlen
        rw [hstep]
        refine (ih _).trans ?_
        have hall : (∀ u ∈ urls (.url pos len :: cs), u.2 < maxUriSize) ↔
            ∀ u ∈ urls cs, u.2 < maxUriSize := by simp [urls, hlen]
        simp only [hall]
        congr 2
        unfold after
        rcases hlast : (urls cs).getLast? with _ | u <;> simp [urls, bodies, List.getLast?_cons, hlast]
      · have hstep : invoke canonicalize buf message (.url pos len) = none := if_neg hlen
        rw [hstep, if_neg]
        · rfl
        · intro h
          exact hlen (h (pos, len) (by simp [urls]))
    | body pos len =>
      have hstep : invoke canonicalize buf message (.body pos len) =
          some (callbackBody pos len message) := rfl
      rw [hstep]
      refine (ih _).trans ?_
      have hall : (∀ u ∈ urls (.body pos len :: cs), u.2 < maxUriSize) ↔
          ∀ u ∈ urls cs, u.2 < maxUriSize := Iff.rfl
      simp only [hall]
      congr 2
      unfold after
      rcases hlast : (bodies cs).getLast? with _ | u <;>
        simp [urls, bodies, callbackBody, List.getLast?_cons, hlast, Nat.add_assoc]

/-! ## Reports of the target -/

theorem scan_other : scan none p (.other :: rest) = scan none (p + 1) rest := by simp [scan, flush]

theorem scan_others (k : ℕ) :
    scan none p (List.replicate k .other ++ rest) = scan none (p + k) rest := by
  induction k generalizing p with
  | zero => rfl
  | succ k ih =>
    rw [List.replicate_succ, List.cons_append, scan_other, ih]
    congr 1
    omega

theorem scan_targets (k : ℕ) : scan (some (.target, a)) p (List.replicate k .target ++ rest) =
    scan (some (.target, a)) (p + k) rest := by
  induction k generalizing p with
  | zero => rfl
  | succ k ih =>
    have hstep : scan (some (.target, a)) p (.target :: (List.replicate k .target ++ rest)) =
        scan (some (.target, a)) (p + 1) (List.replicate k .target ++ rest) := by simp [scan]
    rw [List.replicate_succ, List.cons_append, hstep, ih]
    congr 1
    omega

/-- Without bytes of the target, nothing of it is reported. -/
theorem urls_scan_of_not_mem (h : .target ∉ parts) (hmark : mark.map Prod.fst ≠ some .target) :
    urls (scan mark p parts) = [] := by
  have hflush : ∀ q, urls (flush mark q) = [] := by
    intro q
    rcases mark with _ | ⟨part, a⟩
    · rfl
    · cases part
      · rfl
      · exact absurd rfl hmark
      · rfl
  induction parts generalizing mark p with
  | nil => exact hflush p
  | cons part rest ih =>
    have hpart : part ≠ .target := fun heq => h (by simp [heq])
    have hrest : .target ∉ rest := fun hmem => h (List.mem_cons_of_mem _ hmem)
    unfold scan
    split_ifs with hsame hother
    · exact ih hrest hmark hflush
    · rw [urls_append, hflush, ih hrest (by simp) (fun _ => rfl), List.append_nil]
    · rw [urls_append, hflush, List.nil_append]
      refine ih hrest (by simpa using hpart) fun q => ?_
      cases part
      · exact absurd rfl hother
      · exact absurd rfl hpart
      · rfl

/-- After its mark has been set, the bytes of the target up to its end are reported at once. -/
theorem urls_scan_marked (h : .target ∉ rest) :
    urls (scan (some (.target, a)) p (List.replicate j .target ++ rest)) = [(a, p + j - a)] := by
  rw [scan_targets]
  rcases rest with _ | ⟨part, rest⟩
  · rfl
  · have hpart : part ≠ .target := fun heq => h (by simp [heq])
    have hrest : .target ∉ rest := fun hmem => h (List.mem_cons_of_mem _ hmem)
    have hne : ¬ (some (Part.target, a)).map Prod.fst = some part := by simpa using Ne.symm hpart
    unfold scan
    rw [if_neg hne, urls_append, urls_scan_of_not_mem hrest, List.append_nil]
    · rfl
    · split_ifs
      · simp
      · simpa using hpart

/-- All reports of the target in what has been received from `p` on: other bytes, bytes of the target,
and then none. -/
theorem urls_scan {k : ℕ} {inTarget : Bool} (h : .target ∉ rest) (hk : inTarget = true → k = 0) :
    urls (scan (initialMark inTarget p) p
        (List.replicate k .other ++ (List.replicate j .target ++ rest))) =
      if inTarget = true ∨ j ≠ 0 then [(p + k, j)] else [] := by
  cases inTarget with
  | true =>
    obtain rfl := hk rfl
    rw [if_pos (Or.inl rfl)]
    refine (urls_scan_marked h).trans ?_
    simp
  | false =>
    show urls (scan none p _) = _
    rw [scan_others]
    rcases Nat.eq_zero_or_pos j with rfl | hpos
    · exact urls_scan_of_not_mem h (by simp)
    · obtain ⟨i, rfl⟩ : ∃ i, j = i + 1 := ⟨j - 1, by omega⟩
      rw [if_pos (Or.inr (by omega)), List.replicate_succ, List.cons_append]
      have hfirst : scan none (p + k) (.target :: (List.replicate i .target ++ rest)) =
          scan (some (.target, p + k)) (p + k + 1) (List.replicate i .target ++ rest) := by
        simp [scan, flush]
      rw [hfirst, urls_scan_marked h]
      congr 2
      omega

/-! ## Reports of the body -/

theorem bodyEnd_append (l l' : List Part) :
    bodyEnd (l ++ l') = if .body ∈ l' then l.length + bodyEnd l' else bodyEnd l := by
  unfold bodyEnd List.rdropWhile
  rw [List.reverse_append, List.dropWhile_append]
  have hempty : (l'.reverse.dropWhile (fun x => decide (x ≠ Part.body))).isEmpty ↔ .body ∉ l' := by
    rw [List.isEmpty_iff, List.dropWhile_eq_nil_iff]
    constructor
    · intro h hmem
      simpa using h .body (by simpa using hmem)
    · intro h x hx
      have hne : x ≠ .body := fun heq => h (by simpa [heq] using hx)
      simpa using hne
  by_cases hmem : .body ∈ l'
  · rw [if_neg (fun h => hempty.mp h hmem), if_pos hmem]
    simp
  · rw [if_pos (hempty.mpr hmem), if_neg hmem]

theorem bodyEnd_cons {part : Part} : bodyEnd (part :: rest) =
    if .body ∈ rest then 1 + bodyEnd rest else if part = .body then 1 else 0 := by
  have h := bodyEnd_append [part] rest
  have hone : bodyEnd [part] = if part = .body then 1 else 0 := by cases part <;> rfl
  rwa [List.singleton_append, List.length_singleton, hone] at h

theorem bodyEnd_le (l : List Part) : bodyEnd l ≤ l.length := by
  unfold bodyEnd
  exact (List.rdropWhile_prefix _ l).length_le

theorem bodyEnd_pos {l : List Part} (h : .body ∈ l) : 0 < bodyEnd l := by
  induction l with
  | nil => cases h
  | cons part rest ih =>
    rw [bodyEnd_cons]
    split_ifs with hrest hpart
    · omega
    · omega
    · rcases List.mem_cons.mp h with h | h
      · exact absurd h.symm hpart
      · exact absurd h hrest

/-- The beginning of a part of the body that has not been reported yet. -/
def bodyMark : Option (Part × ℕ) → Option ℕ
  | some (.body, a) => some a
  | _ => none

theorem bodies_flush : bodies (flush mark p) = ((bodyMark mark).map fun a => (a, p - a)).toList := by
  rcases mark with _ | ⟨part, a⟩
  · rfl
  · cases part <;> rfl

theorem bodyMark_some {part : Part} :
    bodyMark (some (part, p)) = if part = .body then some p else none := by
  cases part <;> rfl

theorem sum_bodies_scan (hle : ∀ a ∈ bodyMark mark, a ≤ p) :
    ((bodies (scan mark p parts)).map Prod.snd).sum =
      ((bodyMark mark).map fun a => p - a).getD 0 + parts.count .body := by
  induction parts generalizing mark p with
  | nil =>
    unfold scan
    rw [bodies_flush]
    rcases bodyMark mark with _ | a <;> simp
  | cons part rest ih =>
    unfold scan
    split_ifs with hsame hother
    · -- The part goes on; it is a part of the body if and only if its mark is one.
      have hcount : ((bodyMark mark).map fun a => p + 1 - a).getD 0 =
          ((bodyMark mark).map fun a => p - a).getD 0 + if part = .body then 1 else 0 := by
        rcases mark with _ | ⟨part', a⟩
        · cases hsame
        · obtain rfl : part' = part := by simpa using hsame
          cases part' with
          | other => rfl
          | target => rfl
          | body =>
            have := hle a rfl
            simp [bodyMark]
            omega
      rw [ih fun a ha => Nat.le_succ_of_le (hle a ha), hcount, List.count_cons]
      simp only [beq_iff_eq]
      omega
    · rw [bodies_append, bodies_flush, List.map_append, List.sum_append, ih (by simp [bodyMark])]
      subst hother
      rcases bodyMark mark with _ | a <;> simp [bodyMark]
    · rw [bodies_append, bodies_flush, List.map_append, List.sum_append,
        ih (by rw [bodyMark_some]; split_ifs <;> simp), bodyMark_some]
      rcases bodyMark mark with _ | a <;> cases part <;> simp <;> omega

theorem last_bodies_flush (hle : ∀ a ∈ bodyMark mark, a ≤ p) :
    (bodies (flush mark p)).getLast?.map (fun u => u.1 + u.2) = (bodyMark mark).map fun _ => p := by
  rw [bodies_flush]
  rcases hmark : bodyMark mark with _ | a
  · rfl
  · have := hle a hmark
    simp
    omega

/-- The end of the last report. -/
theorem last_bodies_scan (hle : ∀ a ∈ bodyMark mark, a ≤ p) :
    (bodies (scan mark p parts)).getLast?.map (fun u => u.1 + u.2) =
      if .body ∈ parts then some (p + bodyEnd parts) else (bodyMark mark).map fun _ => p := by
  induction parts generalizing mark p with
  | nil => simpa [scan] using last_bodies_flush hle
  | cons part rest ih =>
    have hend : (if .body ∈ rest then some (p + 1 + bodyEnd rest)
        else if part = .body then some (p + 1) else none) =
        if .body ∈ part :: rest then some (p + bodyEnd (part :: rest)) else none := by
      rw [bodyEnd_cons]
      by_cases hrest : .body ∈ rest
      · simp [hrest, Nat.add_assoc]
      · cases part <;> simp [hrest]
    unfold scan
    by_cases hsame : mark.map Prod.fst = some part
    · -- The part goes on; it is a part of the body if and only if its mark is one.
      have hmark : ∀ q : ℕ, (bodyMark mark).map (fun _ => q) =
          if part = .body then some q else none := by
        intro q
        rcases mark with _ | ⟨part', a⟩
        · cases hsame
        · obtain rfl : part' = part := by simpa using hsame
          cases part' <;> rfl
      rw [if_pos hsame, ih fun a ha => Nat.le_succ_of_le (hle a ha), hmark, hmark, hend]
      cases part <;> simp
    · -- The part begins with this byte, and the one before it is reported.
      have hmark : (bodyMark (if part = .other then none else some (part, p))).map (fun _ => p + 1) =
          if part = .body then some (p + 1) else none := by
        cases part <;> rfl
      have hbefore : ∀ a ∈ bodyMark (if part = .other then none else some (part, p)), a ≤ p + 1 := by
        cases part <;> simp [bodyMark]
      rw [if_neg hsame, bodies_append, List.getLast?_append, Option.map_or, ih hbefore, hmark, hend,
        last_bodies_flush hle]
      split_ifs
      · rfl
      · rfl

theorem count_le_bodyEnd (l : List Part) : l.count .body ≤ bodyEnd l := by
  induction l with
  | nil => exact Nat.le_refl 0
  | cons part rest ih =>
    rw [bodyEnd_cons, List.count_cons]
    by_cases hrest : .body ∈ rest
    · rw [if_pos hrest]
      split_ifs <;> omega
    · rw [if_neg hrest, List.count_eq_zero_of_not_mem hrest]
      cases part <;> simp

/-! ## The parts of a request -/

variable {r : HttpRequest} {d : ℕ} {c : List (UInt8 × Part)}

theorem map_snd_marked {part : Part} {l : Bytes} :
    (marked part l).map Prod.snd = List.replicate l.length part := by
  simp [marked, Function.comp_def]

theorem map_fst_marked {part : Part} {l : Bytes} : (marked part l).map Prod.fst = l := by
  simp [marked, Function.comp_def]

/-- The parts behind the target. -/
def HttpRequest.tail (r : HttpRequest) : List Part :=
  (marked .other r.head ++ r.body.wire).map Prod.snd

theorem parts_eq : r.parts = List.replicate r.targetStart .other ++
    (List.replicate (r.targetEnd - r.targetStart) .target ++ r.tail) := by
  have hlength : r.targetEnd - r.targetStart = r.target.length := by
    unfold HttpRequest.targetEnd HttpRequest.targetStart
    omega
  rw [hlength]
  simp only [HttpRequest.parts, HttpRequest.wire, List.map_append, map_snd_marked,
    HttpRequest.targetStart, HttpRequest.tail]

theorem target_not_mem_tail : .target ∉ r.tail := by
  unfold HttpRequest.tail
  rw [List.map_append, map_snd_marked]
  rcases hbody : r.body with data | ⟨chunks, last⟩
  · simp [Body.wire, map_snd_marked, List.mem_replicate]
  · simp [Body.wire, marked]

theorem targetStart_lt_targetEnd : r.targetStart < r.targetEnd := by
  have hpos := List.length_pos_iff.mpr r.target_ne
  unfold HttpRequest.targetEnd HttpRequest.targetStart
  omega

theorem length_bytes : r.bytes.length = r.wire.length := List.length_map ..

theorem length_parts : r.parts.length = r.wire.length := List.length_map ..

theorem targetEnd_lt_length : r.targetEnd < r.wire.length := by
  have hpos := List.length_pos_iff.mpr r.head_ne
  unfold HttpRequest.wire HttpRequest.targetEnd
  simp only [List.length_append, marked, List.length_map]
  omega

/-- The target, from some place on, in the bytes of the request. -/
theorem take_drop_bytes {i n : ℕ} (hle : r.targetStart ≤ i) :
    (r.bytes.drop i).take n =
      ((r.target.drop (i - r.targetStart)) ++ ((marked .other r.head ++ r.body.wire).map Prod.fst).drop
        (i - r.targetEnd)).take n := by
  have hbytes : r.bytes =
      r.front ++ (r.target ++ (marked .other r.head ++ r.body.wire).map Prod.fst) := by
    simp only [HttpRequest.bytes, HttpRequest.wire, List.map_append, map_fst_marked]
  rw [hbytes, List.drop_append, List.drop_eq_nil_of_le hle, List.nil_append, List.drop_append,
    HttpRequest.targetStart, HttpRequest.targetEnd]
  congr 3
  omega

/-- What `recv` returns when `d` bytes have been received before: other bytes, bytes of the target, and
then none. -/
theorem received_parts {later : List (UInt8 × Part)} (h : c ++ later = r.wire.drop d) :
    ∃ rest : List Part, .target ∉ rest ∧
      c.map Prod.snd = List.replicate (min c.length (r.targetStart - d)) .other ++
        (List.replicate (min r.targetEnd (d + c.length) - max r.targetStart d) .target ++ rest) ∧
      (d + c.length ≤ r.targetEnd → rest = []) := by
  have hlt := targetStart_lt_targetEnd (r := r)
  have hparts : c.map Prod.snd = (r.parts.drop d).take c.length := by
    rw [HttpRequest.parts, ← List.map_drop, ← h, ← List.map_take, List.take_left]
  rw [parts_eq, List.drop_append, List.drop_append, List.take_append, List.take_append] at hparts
  simp only [List.drop_replicate, List.take_replicate, List.length_replicate] at hparts
  have hcount : min (c.length - (r.targetStart - d))
      (r.targetEnd - r.targetStart - (d - r.targetStart)) =
        min r.targetEnd (d + c.length) - max r.targetStart d := by omega
  rw [hcount] at hparts
  refine ⟨_, ?_, hparts, ?_⟩
  · intro hmem
    exact target_not_mem_tail (List.mem_of_mem_drop (List.mem_of_mem_take hmem))
  · intro hle
    have hzero : c.length - (r.targetStart - d) -
        (r.targetEnd - r.targetStart - (d - r.targetStart)) = 0 := by omega
    rw [hzero, List.take_zero]

/-! ## The buffer -/

theorem buflenAt_eq (n : ℕ) :
    buflenAt n = 8192 + (n - 8192 + 8388607) / 8388608 * 8388608 := rfl

theorem le_buflenAt (n : ℕ) : n ≤ buflenAt n := by
  rw [buflenAt_eq]
  omega

theorem buflenAt_mono {n k : ℕ} (h : n ≤ k) : buflenAt n ≤ buflenAt k := by
  rw [buflenAt_eq, buflenAt_eq]
  omega

/-- No size lies between a place and the size of the buffer that it is in. -/
theorem buflenAt_le_of_le {n k : ℕ} (h : n ≤ buflenAt k) : buflenAt n ≤ buflenAt k := by
  rw [buflenAt_eq] at h ⊢
  rw [buflenAt_eq]
  omega

/-- What is received next, after a full buffer has grown, is in the buffer of that size. -/
theorem buflenAt_add {n k : ℕ} (hk : 0 < k)
    (hfits : n + k ≤ if n = buflenAt n then buflenAt n + serverBufstep else buflenAt n) :
    buflenAt (n + k) = if n = buflenAt n then buflenAt n + serverBufstep else buflenAt n := by
  have hstep : serverBufstep = 8388608 := rfl
  rw [hstep] at hfits ⊢
  rw [buflenAt_eq] at hfits ⊢
  rw [buflenAt_eq]
  split_ifs at hfits ⊢ with hfull
  · omega
  · omega

/-! ## The rounds of the loop -/

variable {h : Handler}

/-- What the handler knows when it has received `d` bytes of the request. -/
structure Reached (r : HttpRequest) (d : ℕ) (h : Handler) : Prop where
  le : d ≤ r.wire.length
  buf : h.buf = r.bytes.take d
  buflen : h.buflen = buflenAt d
  inTarget : h.inTarget = decide (r.targetStart < d ∧ d ≤ r.targetEnd)
  postDataLen : h.message.postDataLen = (r.parts.take d).count .body
  postData : h.message.postData =
    if .body ∈ r.parts.take d ∧ d ≤ buflenAt (bodyEnd (r.parts.take d)) then
      some (bodyEnd (r.parts.take d))
    else none

theorem reached_start : Reached r 0 Handler.start where
  le := Nat.zero_le _
  buf := rfl
  buflen := rfl
  inTarget := by simp [Handler.start]
  postDataLen := rfl
  postData := rfl

theorem Reached.length_buf (hr : Reached r d h) : h.buf.length = d := by
  rw [hr.buf, List.length_take, length_bytes]
  have := hr.le
  omega

/-- The reports of a round. -/
def reports (h : Handler) (c : List (UInt8 × Part)) : List Callback :=
  scan (initialMark h.inTarget h.buf.length) h.buf.length (c.map Prod.snd)

theorem receive_eq : h.receive canonicalize c =
    if ∀ u ∈ urls (reports h c), u.2 < maxUriSize then
      some
        { h.reallocate with
          buf := h.buf ++ c.map Prod.fst
          inTarget := c.getLast?.map Prod.snd = some .target
          message := after canonicalize (h.buf ++ c.map Prod.fst) (reports h c) h.reallocate.message }
    else none := by
  have hbuf : h.reallocate.buf = h.buf ∧ h.reallocate.inTarget = h.inTarget := by
    unfold Handler.reallocate
    split_ifs
    · exact ⟨rfl, rfl⟩
    · exact ⟨rfl, rfl⟩
  unfold Handler.receive
  simp only [hbuf.1, hbuf.2, foldlM_invoke]
  by_cases hshort : ∀ u ∈ urls (reports h c), u.2 < maxUriSize
  · rw [if_pos hshort]
    unfold reports at hshort
    rw [if_pos hshort]
    rfl
  · rw [if_neg hshort]
    unfold reports at hshort
    rw [if_neg hshort]
    rfl

/-- The target is reported once in a round in which the parser waits for it or some of it comes in. -/
theorem Reached.urls_reports (hr : Reached r d h) {later : List (UInt8 × Part)}
    (hc : c ++ later = r.wire.drop d) :
    urls (reports h c) =
      if h.inTarget = true ∨ min r.targetEnd (d + c.length) - max r.targetStart d ≠ 0 then
        [(d + min c.length (r.targetStart - d),
          min r.targetEnd (d + c.length) - max r.targetStart d)]
      else [] := by
  obtain ⟨rest, hrest, hparts, -⟩ := received_parts hc
  unfold reports
  rw [hr.length_buf, hparts]
  refine urls_scan hrest ?_
  rw [hr.inTarget]
  intro hin
  have := of_decide_eq_true hin
  omega

theorem bodyMark_initialMark {inTarget : Bool} : bodyMark (initialMark inTarget p) = none := by
  cases inTarget <;> rfl

theorem Reached.after_bytes (hr : Reached r d h) {later : List (UInt8 × Part)}
    (hc : c ++ later = r.wire.drop d) : h.buf ++ c.map Prod.fst = r.bytes.take (d + c.length) := by
  rw [hr.buf, List.take_add, HttpRequest.bytes, ← List.map_drop, ← hc, List.map_append,
    List.take_left' (List.length_map ..)]

theorem parts_take_add {later : List (UInt8 × Part)} (hc : c ++ later = r.wire.drop d) :
    r.parts.take (d + c.length) = r.parts.take d ++ c.map Prod.snd := by
  rw [List.take_add, HttpRequest.parts, ← List.map_drop, ← hc, List.map_append,
    List.take_left' (List.length_map ..)]

/-- The last byte that has come in is one of the target. -/
theorem getLast_target_iff {later : List (UInt8 × Part)} (hc : c ++ later = r.wire.drop d)
    (hne : c ≠ []) :
    c.getLast?.map Prod.snd = some .target ↔
      r.targetStart < d + c.length ∧ d + c.length ≤ r.targetEnd := by
  obtain ⟨rest, hrest, hparts, hnil⟩ := received_parts hc
  have hlt := targetStart_lt_targetEnd (r := r)
  have hpos := List.length_pos_iff.mpr hne
  have hlength := congrArg List.length hparts
  simp only [List.length_append, List.length_replicate, List.length_map] at hlength
  rw [← List.getLast?_map, hparts]
  by_cases hle : d + c.length ≤ r.targetEnd
  · rw [hnil hle, List.append_nil, List.getLast?_append, List.getLast?_replicate,
      List.getLast?_replicate]
    by_cases hstart : r.targetStart < d + c.length
    · rw [if_neg (by omega)]
      simp [hstart, hle]
    · rw [if_pos (by omega)]
      split_ifs <;> simp [hstart]
  · -- The target has ended before.
    have hsome : rest ≠ [] := by
      rintro rfl
      simp at hlength
      omega
    refine iff_of_false ?_ fun hboth => hle hboth.2
    rw [← List.append_assoc, List.getLast?_append_of_ne_nil _ hsome]
    intro hlast
    exact hrest (List.mem_of_getLast? hlast)

theorem reallocate_message (hr : Reached r d h) :
    h.reallocate.buflen = (if d = buflenAt d then buflenAt d + serverBufstep else buflenAt d) ∧
    h.reallocate.message.requestUri = h.message.requestUri ∧
    h.reallocate.message.postDataLen = h.message.postDataLen ∧
    h.reallocate.message.postData = if d = buflenAt d then none else h.message.postData := by
  unfold Handler.reallocate
  rw [hr.length_buf, hr.buflen]
  split_ifs
  · exact ⟨rfl, rfl, rfl, rfl⟩
  · exact ⟨hr.buflen, rfl, rfl, rfl⟩

/-- The end of the body so far is forgotten if and only if the buffer has grown since. -/
theorem Reached.after_postData (hr : Reached r d h) {later : List (UInt8 × Part)}
    (hc : c ++ later = r.wire.drop d) (hne : c ≠ [])
    (hfits : d + c.length ≤ if d = buflenAt d then buflenAt d + serverBufstep else buflenAt d) :
    (if .body ∈ c.map Prod.snd then some (d + bodyEnd (c.map Prod.snd)) else none).or
        (if d = buflenAt d then none else h.message.postData) =
      if .body ∈ r.parts.take (d + c.length) ∧
          d + c.length ≤ buflenAt (bodyEnd (r.parts.take (d + c.length))) then
        some (bodyEnd (r.parts.take (d + c.length)))
      else none := by
  have hpos := List.length_pos_iff.mpr hne
  have hlength : (r.parts.take d).length = d := by
    rw [List.length_take, length_parts]
    have := hr.le
    omega
  have hstep : serverBufstep = 8388608 := rfl
  rw [parts_take_add hc, bodyEnd_append, hlength]
  by_cases hmem : .body ∈ c.map Prod.snd
  · -- The last byte of the body has come in with this round.
    have hend := bodyEnd_pos hmem
    have hsize : d + c.length ≤ buflenAt (d + bodyEnd (c.map Prod.snd)) := by
      refine hfits.trans ?_
      rw [hstep, buflenAt_eq, buflenAt_eq]
      split_ifs <;> omega
    have hboth := And.intro (List.mem_append_right (r.parts.take d) hmem) hsize
    rw [if_pos hmem, if_pos hmem, if_pos hboth]
    rfl
  · have hbefore := bodyEnd_le (r.parts.take d)
    rw [hlength] at hbefore
    have hor : (.body ∈ r.parts.take d ++ c.map Prod.snd) ↔ .body ∈ r.parts.take d := by
      simp only [List.mem_append]
      exact or_iff_left hmem
    have hmono := buflenAt_mono hbefore
    have hself := le_buflenAt d
    rw [if_neg hmem, if_neg hmem, Option.none_or]
    simp only [hor]
    split_ifs at hfits ⊢ with hfull hlater hlater
    · omega
    · rfl
    · rw [hr.postData, if_pos ⟨hlater.1, by omega⟩]
    · rw [hr.postData, if_neg]
      rintro ⟨hbody, hle⟩
      exact hlater ⟨hbody, hfits.trans (buflenAt_le_of_le hle)⟩

theorem Reached.short_iff (hr : Reached r d h) {later : List (UInt8 × Part)}
    (hc : c ++ later = r.wire.drop d) : (∀ u ∈ urls (reports h c), u.2 < maxUriSize) ↔
      min r.targetEnd (d + c.length) - max r.targetStart d < maxUriSize := by
  have hpos : 0 < maxUriSize := by decide
  rw [hr.urls_reports hc]
  split_ifs with hurl
  · simp
  · simp only [not_or, not_not] at hurl
    simp [hurl.2, hpos]

/-- The round in which the target comes to its end, and the rounds after it. -/
theorem Reached.after_requestUri (hr : Reached r d h) {later : List (UInt8 × Part)}
    (hc : c ++ later = r.wire.drop d) :
    (r.targetEnd < d → (after canonicalize (h.buf ++ c.map Prod.fst) (reports h c)
      h.reallocate.message).requestUri = h.message.requestUri) ∧
    (d ≤ r.targetEnd → r.targetEnd < d + c.length →
      (after canonicalize (h.buf ++ c.map Prod.fst) (reports h c) h.reallocate.message).requestUri =
        canonicalize (r.target.drop (d - r.targetStart))) := by
  have hlt := targetStart_lt_targetEnd (r := r)
  have hin := hr.inTarget
  have huri := (reallocate_message hr).2.1
  unfold after
  rw [hr.urls_reports hc, huri]
  constructor
  · intro hpast
    rw [if_neg]
    · rfl
    · rw [hin, not_or, not_not]
      exact ⟨by simp; omega, by omega⟩
  · intro hbefore hend
    rw [if_pos]
    · -- What the report has is the rest of the target.
      show canonicalize (((h.buf ++ c.map Prod.fst).drop (d + min c.length (r.targetStart - d))).take
        (min r.targetEnd (d + c.length) - max r.targetStart d)) = _
      congr 1
      rw [hr.after_bytes hc, List.drop_take, List.take_take, take_drop_bytes (by omega)]
      have hdrop : d + min c.length (r.targetStart - d) - r.targetStart = d - r.targetStart := by omega
      have hzero : d + min c.length (r.targetStart - d) - r.targetEnd = 0 := by omega
      have hlength : r.targetEnd = r.targetStart + r.target.length := rfl
      rw [hdrop, hzero]
      refine List.take_left' ?_
      rw [List.length_drop]
      omega
    · rw [hin, decide_eq_true_iff]
      omega

/-- One round. -/
theorem Reached.receive (canonicalize : Bytes → Bytes) (hr : Reached r d h) {later : List (UInt8 × Part)}
    (hc : c ++ later = r.wire.drop d) (hne : c ≠ [])
    (hfits : d + c.length ≤ if d = buflenAt d then buflenAt d + serverBufstep else buflenAt d)
    (hshort : min r.targetEnd (d + c.length) - max r.targetStart d < maxUriSize) :
    ∃ h', h.receive canonicalize c = some h' ∧ Reached r (d + c.length) h' ∧
      (r.targetEnd < d → h'.message.requestUri = h.message.requestUri) ∧
      (d ≤ r.targetEnd → r.targetEnd < d + c.length →
        h'.message.requestUri = canonicalize (r.target.drop (d - r.targetStart))) := by
  have hpos := List.length_pos_iff.mpr hne
  obtain ⟨hbuflen, -, hlen, hpost⟩ := reallocate_message hr
  have hmark : ∀ a ∈ bodyMark (initialMark h.inTarget h.buf.length), a ≤ h.buf.length := by
    simp [bodyMark_initialMark]
  rw [receive_eq, if_pos ((hr.short_iff hc).mpr hshort)]
  refine ⟨_, rfl, ⟨?_, hr.after_bytes hc, ?_, ?_, ?_, ?_⟩, hr.after_requestUri hc⟩
  · have hlength := congrArg List.length hc
    rw [List.length_append, List.length_drop] at hlength
    omega
  · exact hbuflen.trans (buflenAt_add hpos hfits).symm
  · exact decide_eq_decide.mpr (getLast_target_iff hc hne)
  · show h.reallocate.message.postDataLen + _ = _
    rw [hlen, hr.postDataLen, reports, sum_bodies_scan hmark, parts_take_add hc, List.count_append,
      bodyMark_initialMark]
    simp
  · show Option.or _ h.reallocate.message.postData = _
    rw [hpost, reports, last_bodies_scan hmark, bodyMark_initialMark, hr.length_buf]
    exact hr.after_postData hc hne hfits

/-- All rounds from some place on. -/
theorem Reached.run (canonicalize : Bytes → Bytes) (received : List (List (UInt8 × Part)))
    (hr : Reached r d h)
    (hflatten : received.flatten = r.wire.drop d) (hfits : Fits d (buflenAt d) received) :
    (ShortFragments r d received →
      ∃ h', received.foldlM (Handler.receive canonicalize) h = some h' ∧
        Reached r r.wire.length h' ∧
        (r.targetEnd < d → h'.message.requestUri = h.message.requestUri) ∧
        (d ≤ r.targetEnd →
          h'.message.requestUri = canonicalize (lastFragment r d received))) ∧
    (¬ ShortFragments r d received →
      received.foldlM (Handler.receive canonicalize) h = none) := by
  induction received generalizing d h with
  | nil =>
    have hle := hr.le
    have hlength : r.wire.length ≤ d := by
      rw [← List.drop_eq_nil_iff, ← hflatten]
      rfl
    obtain rfl : d = r.wire.length := by omega
    have hpast := targetEnd_lt_length (r := r)
    refine ⟨fun _ => ⟨h, rfl, hr, fun _ => rfl, fun hbefore => ?_⟩, fun hshort => ?_⟩
    · omega
    · exact absurd trivial hshort
  | cons c rest ih =>
    obtain ⟨hne, hspace, hfits'⟩ := hfits
    have hpos := List.length_pos_iff.mpr hne
    rw [List.flatten_cons] at hflatten
    have hrest : rest.flatten = r.wire.drop (d + c.length) := by
      rw [← List.drop_drop, ← hflatten, List.drop_left]
    rw [← buflenAt_add hpos hspace] at hfits'
    rw [List.foldlM_cons]
    by_cases hshort : min r.targetEnd (d + c.length) - max r.targetStart d < maxUriSize
    · obtain ⟨h₁, hreceive, hr₁, hpast, hnow⟩ := hr.receive canonicalize hflatten hne hspace hshort
      obtain ⟨hsome, hnone⟩ := ih hr₁ hrest hfits'
      rw [hreceive]
      refine ⟨fun hall => ?_, fun hall => hnone fun hlater => hall ⟨hshort, hlater⟩⟩
      obtain ⟨h', hrun, hr', hpast', hnow'⟩ := hsome hall.2
      refine ⟨h', hrun, hr', fun hd => ?_, fun hd => ?_⟩
      · rw [hpast' (by omega), hpast hd]
      · unfold lastFragment
        split_ifs with hend
        · rw [hpast' hend, hnow hd hend]
        · exact hnow' (by omega)
    · have hnone : h.receive canonicalize c = none := by
        rw [receive_eq, if_neg]
        rwa [hr.short_iff hflatten]
      rw [hnone]
      exact ⟨fun hall => absurd hall.1 hshort, fun _ => rfl⟩

/-! ## The message -/

theorem count_marked {part : Part} {l : Bytes} :
    ((marked part l).map Prod.snd).count .body = if part = .body then l.length else 0 := by
  rw [map_snd_marked, List.count_replicate]
  simp

theorem count_parts : r.parts.count .body = r.body.data.length := by
  have hbody : (r.body.wire.map Prod.snd).count .body = r.body.data.length := by
    rcases r.body with data | ⟨chunks, last⟩
    · exact count_marked
    · induction chunks with
      | nil => exact count_marked
      | cons chunk chunks ih =>
        simp only [Body.wire, Body.data, List.flatMap_cons, List.map_append, List.count_append,
          count_marked, List.length_append] at ih ⊢
        simp at ih ⊢
        omega
  simp [HttpRequest.parts, HttpRequest.wire, List.count_append, count_marked, hbody]

/-- The post data at the end, if the body is not empty. -/
theorem Reached.finish (hr : Reached r r.wire.length h) (hdata : r.body.data ≠ []) :
    (∃ p, h.finish.message.postData = some p ∧
      (h.finish.buf.drop p).take h.finish.message.postDataLen = r.body.data) ↔ BodyTogether r := by
  have hall : r.parts.take r.wire.length = r.parts := List.take_of_length_le length_parts.le
  have hbuf : h.buf = r.bytes := hr.buf.trans (List.take_of_length_le length_bytes.le)
  have hlen : h.message.postDataLen = r.body.data.length := by
    rw [hr.postDataLen, hall, count_parts]
  have hpost := hr.postData
  rw [hall] at hpost
  have hmem : .body ∈ r.parts := by
    rw [← List.count_pos_iff, count_parts]
    exact List.length_pos_iff.mpr hdata
  have hcount := count_le_bodyEnd r.parts
  rw [count_parts] at hcount
  have hne : h.message.postDataLen ≠ 0 := by
    rw [hlen]
    exact fun hzero => hdata (List.length_eq_zero_iff.mp hzero)
  unfold Handler.finish BodyTogether
  by_cases hgrown : r.wire.length ≤ buflenAt (bodyEnd r.parts)
  · have hboth := And.intro hmem hgrown
    rw [if_pos hboth] at hpost
    rw [hpost, if_pos ⟨rfl, hne⟩, hlen, hbuf]
    have htake : (r.bytes.take (bodyEnd r.parts)).drop (bodyEnd r.parts - r.body.data.length) =
        (r.bytes.drop (bodyEnd r.parts - r.body.data.length)).take r.body.data.length := by
      rw [List.drop_take]
      congr 1
      omega
    rw [htake]
    simp [hdata, hgrown]
  · rw [if_neg fun hboth => hgrown hboth.2] at hpost
    rw [hpost, if_neg (by simp)]
    simp [hpost, hdata, hgrown]

theorem finish_message : h.finish.message.requestUri = h.message.requestUri ∧
    h.finish.message.postDataLen = h.message.postDataLen := by
  unfold Handler.finish
  split_ifs
  · exact ⟨rfl, rfl⟩
  · exact ⟨rfl, rfl⟩

/-- The message is independent of the way in which a request comes in, if and only if the last report of
the target is as good as the whole target, and the body is in one piece in a buffer that does not grow
any more. -/
theorem sees_iff (canonicalize : Bytes → Bytes) (r : HttpRequest) (s : Segmentation r) :
    Sees canonicalize r (sockethandler canonicalize s.received) ↔
      ShortFragments r 0 s.received ∧
      canonicalize (lastFragment r 0 s.received) = canonicalize r.target ∧ BodyTogether r := by
  obtain ⟨hsome, hnone⟩ := reached_start.run canonicalize s.received s.flatten_eq s.fits
  by_cases hshort : ShortFragments r 0 s.received
  · obtain ⟨h, hrun, hr, -, huri⟩ := hsome hshort
    obtain ⟨huri', hlen'⟩ := finish_message (h := h)
    have hresult : sockethandler canonicalize s.received = some h.finish := by
      rw [sockethandler, hrun]
      rfl
    have hlen : h.finish.message.postDataLen = r.body.data.length := by
      rw [hlen', hr.postDataLen, List.take_of_length_le length_parts.le, count_parts]
    rw [huri (Nat.zero_le _)] at huri'
    have hsees : Sees canonicalize r (some h.finish) ↔
        canonicalize (lastFragment r 0 s.received) = canonicalize r.target ∧
        (r.body.data ≠ [] → ∃ p, h.finish.message.postData = some p ∧
          (h.finish.buf.drop p).take h.finish.message.postDataLen = r.body.data) := by
      rw [← huri']
      constructor
      · rintro ⟨h', heq, huri, -, hpost⟩
        obtain rfl := Option.some.inj heq
        exact ⟨huri, hpost⟩
      · rintro ⟨huri, hpost⟩
        exact ⟨h.finish, rfl, huri, hlen, hpost⟩
    rw [hresult, hsees, and_iff_right hshort]
    by_cases hdata : r.body.data = []
    · simp [hdata, BodyTogether]
    · rw [← hr.finish hdata]
      simp only [ne_eq, hdata, not_false_eq_true, true_implies]
  · have hresult : sockethandler canonicalize s.received = none := by
      rw [sockethandler, hnone hshort]
      rfl
    rw [hresult]
    refine iff_of_false ?_ fun hall => hshort hall.1
    rintro ⟨h, hnone', -⟩
    cases hnone'

/-- `GET /ping HTTP/1.0` -/
def pingRequest : HttpRequest :=
  ⟨[71, 69, 84, 32], [47, 112, 105, 110, 103],
    [32, 72, 84, 84, 80, 47, 49, 46, 48, 13, 10, 13, 10], .identity [], by decide, by decide⟩

/-- The first call of `recv` ends behind `/pi`. -/
def pingReceived : Segmentation pingRequest :=
  ⟨[pingRequest.wire.take 7, pingRequest.wire.drop 7], by decide, by decide⟩

/-- The message has only the rest of the target. -/
theorem not_sees_split_target :
    ¬ Sees id pingRequest (sockethandler id pingReceived.received) := by
  rintro ⟨h, hrun, huri, -⟩
  have hmessage : (sockethandler id pingReceived.received).map (fun h => h.message.requestUri) =
      some [110, 103] := by decide
  rw [hrun, Option.map_some, huri] at hmessage
  exact absurd hmessage (by decide)

end CaptureHpc.WebService
