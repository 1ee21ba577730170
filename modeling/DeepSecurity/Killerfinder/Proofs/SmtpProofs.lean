import DeepSecurity.Killerfinder.SmtpTxnDecoder

/-!
# Proofs: which mails are found

Once the buffer is as long as the start tag less one character, both loops are searches for the first
occurrence of a tag. `Scans` says what they make of the rest of the buffer, without positions; a
dialogue is scanned mail by mail.
-/

namespace Killerfinder.CSmtpTxnDecoder

open Checked CTcpSession

variable {buf : Bytes} {off : ℕ} {mails : List Bytes}

/-! ## Comparing a tag -/

theorem charAt_of_lt (h : off < buf.length) : charAt buf off = .ok buf[off] := by
  simp [charAt, h]

theorem charAt_end : charAt buf buf.length = .ok 0 := by
  simp [charAt]

theorem charAt_beyond (h : buf.length < off) : charAt buf off = fault := by
  have hnone : buf[off]? = none := List.getElem?_eq_none_iff.mpr (by omega)
  simp only [charAt, hnone]
  rw [if_neg (by omega)]

/-- Up to the end of the buffer a tag can be compared, and the null character is no part of a tag. -/
theorem strncasecmp_eq {tag : Bytes} (htag : ∀ t ∈ tag, tolower t ≠ tolower 0)
    (h : off ≤ buf.length) :
    strncasecmp buf off tag = .ok (decide (tag.map tolower <+: (buf.map tolower).drop off)) := by
  induction tag generalizing off with
  | nil => simp [strncasecmp]
  | cons t tag ih =>
    rw [strncasecmp]
    rcases Nat.lt_or_eq_of_le h with hlt | rfl
    · have hdrop : (buf.map tolower).drop off =
          tolower buf[off] :: (buf.map tolower).drop (off + 1) := by
        rw [List.drop_eq_getElem_cons (by simpa using hlt), List.getElem_map]
      rw [charAt_of_lt hlt]
      simp only [hdrop, List.map_cons, List.cons_prefix_cons]
      show (if tolower buf[off] = tolower t then _ else _) = _
      by_cases hc : tolower buf[off] = tolower t
      · rw [if_pos hc, ih (fun t ht => htag t (List.mem_cons_of_mem _ ht)) hlt]
        simp [hc]
      · rw [if_neg hc]
        simp [Ne.symm hc, pure, Except.pure]
    · have hc : tolower 0 ≠ tolower t := Ne.symm (htag t List.mem_cons_self)
      have hdrop : (buf.map tolower).drop buf.length = [] := List.drop_eq_nil_of_le (by simp)
      rw [charAt_end, hdrop]
      show (if tolower 0 = tolower t then _ else _) = _
      rw [if_neg hc]
      simp [pure, Except.pure]

theorem strncasecmp_beyond {t : UInt8} {tag : Bytes} (h : buf.length < off) :
    strncasecmp buf off (t :: tag) = fault := by
  rw [strncasecmp, charAt_beyond h]
  rfl

theorem startTag_ne_zero : ∀ t ∈ startTag, tolower t ≠ tolower 0 := by
  have hall : startTag.all (fun t => tolower t ≠ tolower 0) = true := rfl
  simpa using hall

theorem endTag_ne_zero : ∀ t ∈ endTag, tolower t ≠ tolower 0 := by
  have hall : endTag.all (fun t => tolower t ≠ tolower 0) = true := rfl
  simpa using hall

theorem tolower_endTag : endTag.map tolower = endTag := by decide

/-- The characters of the end tag are no letters. -/
theorem tolower_eq_iff {e : UInt8} (he : e ∈ endTag) (c : UInt8) : tolower c = e ↔ c = e := by
  have hall : endTag.all (fun e => e.toNat < 65) = true := rfl
  have hlow : e.toNat < 65 := of_decide_eq_true (List.all_eq_true.mp hall e he)
  unfold tolower
  split_ifs with hc
  · simp only [← UInt8.toNat_inj, UInt8.le_iff_toNat_le, UInt8.toNat_add, UInt8.reduceToNat] at hc ⊢
    omega
  · rfl

theorem length_startTag : startTag.length = 8 := rfl

theorem length_endTag : endTag.length = 5 := rfl

/-- The bound of a loop that does not wrap around. -/
theorem lt_sizeSub_iff {len n : ℕ} (h : n ≤ len + 1) :
    off < sizeSub (len + 1) n ↔ off + n < len + 1 := by
  rw [sizeSub, if_pos h]
  omega

/-! ## The loops -/

/-- The first start tag of some text. -/
def findStart (s : Bytes) : Option ℕ := CxxString.find (startTag.map tolower) (s.map tolower)

/-- There is a start tag at a position. -/
def StartAt (buf : Bytes) (off : ℕ) : Prop :=
  startTag.map tolower <+: (buf.map tolower).drop off

instance : Decidable (StartAt buf off) := inferInstanceAs (Decidable (_ <+: _))

theorem findStart_le {s : Bytes} {i : ℕ} (h : findStart s = some i) : i + 8 ≤ s.length := by
  have hle := CxxString.find_le h (by decide)
  rwa [List.length_map, List.length_map, length_startTag] at hle

theorem findStart_drop_le {i : ℕ} (h : findStart (buf.drop off) = some i) : i + 8 ≤ buf.length - off := by
  rw [← List.length_drop]
  exact findStart_le h

theorem findStart_of_startAt (h : StartAt buf off) : findStart (buf.drop off) = some 0 := by
  rw [findStart, List.map_drop]
  exact CxxString.find_of_prefix h

theorem not_startAt (h : findStart (buf.drop off) ≠ some 0) : ¬ StartAt buf off :=
  fun hstart => h (findStart_of_startAt hstart)

theorem findStart_of_not_startAt (hlt : off < buf.length) (h : ¬ StartAt buf off) :
    findStart (buf.drop off) = (findStart (buf.drop (off + 1))).map (· + 1) := by
  rw [findStart, findStart, List.map_drop, List.map_drop]
  exact CxxString.find_drop_of_not_prefix (by simpa using hlt) h

/-- A round of the outer loop. -/
theorem findMails_round {rounds : ℕ} (hlt : off + 7 < buf.length) :
    findMails buf (rounds + 1) off mails =
      if StartAt buf off then do
        let (off2, mails) ← findEnd buf off mails rounds off
        findMails buf rounds off2 mails
      else findMails buf rounds (off + 1) mails := by
  have hbound : off < sizeSub (buf.length + 1) startTag.length := by
    rw [length_startTag, lt_sizeSub_iff (by omega)]
    omega
  rw [findMails, if_pos hbound, strncasecmp_eq startTag_ne_zero (by omega)]
  show (if decide (StartAt buf off) = true then _ else _) = _
  simp only [decide_eq_true_eq]

theorem findMails_end {rounds : ℕ} (hlen : 7 ≤ buf.length) (hoff : buf.length ≤ off + 7) :
    findMails buf (rounds + 1) off mails = .ok mails := by
  have hbound : ¬ off < sizeSub (buf.length + 1) startTag.length := by
    rw [length_startTag, lt_sizeSub_iff (by omega)]
    omega
  rw [findMails, if_neg hbound]
  rfl

/-- The outer loop gets to the first start tag. -/
theorem findMails_start {rounds i : ℕ} (h : findStart (buf.drop off) = some i) :
    findMails buf (rounds + i) off mails = findMails buf rounds (off + i) mails := by
  induction i generalizing off with
  | zero => rfl
  | succ i ih =>
    have hle := findStart_drop_le h
    have hno : ¬ StartAt buf off := not_startAt (by simp [h])
    rw [findStart_of_not_startAt (by omega) hno] at h
    obtain ⟨j, hj, hji⟩ := Option.map_eq_some_iff.mp h
    obtain rfl : j = i := by omega
    rw [← Nat.add_assoc, findMails_round (by omega), if_neg hno, ih hj]
    congr 1
    omega

/-- Without a start tag the outer loop finds nothing more. -/
theorem findMails_none {rounds : ℕ} (hlen : 7 ≤ buf.length) (hoff : off ≤ buf.length)
    (hrounds : buf.length < off + rounds) (h : findStart (buf.drop off) = none) :
    findMails buf rounds off mails = .ok mails := by
  induction rounds generalizing off with
  | zero => omega
  | succ rounds ih =>
    by_cases hlt : off + 7 < buf.length
    · have hno : ¬ StartAt buf off := not_startAt (by simp [h])
      rw [findStart_of_not_startAt (by omega) hno] at h
      rw [findMails_round hlt, if_neg hno]
      exact ih (by omega) (by omega) (Option.map_eq_none_iff.mp h)
    · exact findMails_end hlen (by omega)

variable {off1 : ℕ}

/-- A round of the inner loop. -/
theorem findEnd_round {rounds : ℕ} (hlt : off + 4 < buf.length) :
    findEnd buf off1 mails (rounds + 1) off =
      if endTag <+: (buf.map tolower).drop off then do
        let s ← newString buf (off1 + startTag.length) (off - off1) startTag.length
        return (off, mails ++ [s])
      else findEnd buf off1 mails rounds (off + 1) := by
  have hbound : off < sizeSub (buf.length + 1) endTag.length := by
    rw [length_endTag, lt_sizeSub_iff (by omega)]
    omega
  rw [findEnd, if_pos hbound, strncasecmp_eq endTag_ne_zero (by omega), tolower_endTag]
  show (if decide (endTag <+: (buf.map tolower).drop off) = true then _ else _) = _
  simp only [decide_eq_true_eq]

theorem find_endTag (s : Bytes) : CxxString.find endTag (s.map tolower) = CxxString.find endTag s :=
  CxxString.find_map_of_fixed (fun _ he => tolower_eq_iff he) s

theorem not_endTag (h : CxxString.find endTag (buf.drop off) ≠ some 0) :
    ¬ endTag <+: (buf.map tolower).drop off := by
  intro hend
  apply h
  rw [← find_endTag, List.map_drop]
  exact CxxString.find_of_prefix hend

theorem find_endTag_succ (hlt : off < buf.length) (h : ¬ endTag <+: (buf.map tolower).drop off) :
    CxxString.find endTag (buf.drop off) =
      (CxxString.find endTag (buf.drop (off + 1))).map (· + 1) := by
  rw [← find_endTag (buf.drop off), ← find_endTag (buf.drop (off + 1)), List.map_drop, List.map_drop]
  exact CxxString.find_drop_of_not_prefix (by simpa using hlt) h

/-- The inner loop stops at the first end tag. -/
theorem findEnd_some {rounds k : ℕ} (hrounds : k < rounds)
    (h : CxxString.find endTag (buf.drop off) = some k) :
    findEnd buf off1 mails rounds off = do
      let s ← newString buf (off1 + startTag.length) (off + k - off1) startTag.length
      return (off + k, mails ++ [s]) := by
  induction k generalizing off rounds with
  | zero =>
    obtain ⟨rounds, rfl⟩ := Nat.exists_eq_add_of_lt hrounds
    have hle := CxxString.find_le h (by decide)
    rw [List.length_drop, length_endTag] at hle
    have hhere : endTag <+: (buf.map tolower).drop off := by
      by_contra hno
      rw [find_endTag_succ (by omega) hno] at h
      simp at h
    rw [findEnd_round (by omega), if_pos hhere]
    rfl
  | succ k ih =>
    obtain ⟨rounds, rfl⟩ : ∃ r, rounds = r + 1 := ⟨rounds - 1, by omega⟩
    have hle := CxxString.find_le h (by decide)
    rw [List.length_drop, length_endTag] at hle
    have hno : ¬ endTag <+: (buf.map tolower).drop off := not_endTag (by simp [h])
    rw [find_endTag_succ (by omega) hno] at h
    obtain ⟨j, hj, hjk⟩ := Option.map_eq_some_iff.mp h
    obtain rfl : j = k := by omega
    rw [findEnd_round (by omega), if_neg hno, ih (by omega) hj, Nat.add_right_comm, Nat.add_assoc]

/-- Without an end tag the inner loop runs to the end, and the mail is not complete. -/
theorem findEnd_none {rounds : ℕ} (hoff : off + 4 ≤ buf.length)
    (hrounds : buf.length < off + 4 + rounds) (h : CxxString.find endTag (buf.drop off) = none) :
    findEnd buf off1 mails rounds off = .ok (buf.length - 4, mails) := by
  induction rounds generalizing off with
  | zero => omega
  | succ rounds ih =>
    by_cases hlt : off + 4 < buf.length
    · have hno : ¬ endTag <+: (buf.map tolower).drop off := not_endTag (by simp [h])
      rw [find_endTag_succ (by omega) hno] at h
      rw [findEnd_round hlt, if_neg hno]
      exact ih (by omega) (by omega) (Option.map_eq_none_iff.mp h)
    · have hbound : ¬ off < sizeSub (buf.length + 1) endTag.length := by
        rw [length_endTag, lt_sizeSub_iff (by omega)]
        omega
      rw [findEnd, if_neg hbound]
      simp only [pure, Except.pure]
      congr 2
      omega

/-! ## The scan without positions -/

/-- What the outer loop makes of the rest of the buffer: the bodies that it finds, or `none` if it
comes to an empty mail. -/
inductive Scans : Bytes → Option (List Bytes) → Prop
  | noStart {s : Bytes} (hi : findStart s = none) : Scans s (some [])
  | noEnd {s : Bytes} {i : ℕ} (hi : findStart s = some i)
      (hk : CxxString.find endTag (s.drop i) = none) : Scans s (some [])
  | empty {s : Bytes} {i k : ℕ} (hi : findStart s = some i)
      (hk : CxxString.find endTag (s.drop i) = some k) (hlt : k < 8) : Scans s none
  | mail {s : Bytes} {i k : ℕ} {r : Option (List Bytes)} (hi : findStart s = some i)
      (hk : CxxString.find endTag (s.drop i) = some k) (hle : 8 ≤ k) (h : Scans (s.drop (i + k)) r) :
      Scans s (r.map ((s.drop (i + 8)).take (k - 8) :: ·))

/-- What a scan means for the loop. -/
def outcome (mails : List Bytes) : Option (List Bytes) → Checked (List Bytes)
  | some bodies => .ok (mails ++ bodies)
  | none => fault

theorem outcome_map (mails : List Bytes) (body : Bytes) (r : Option (List Bytes)) :
    outcome mails (r.map (body :: ·)) = outcome (mails ++ [body]) r := by
  cases r with
  | none => rfl
  | some bodies => simp [outcome]

theorem startAt_of_findStart {i : ℕ} (h : findStart (buf.drop off) = some i) :
    StartAt buf (off + i) := by
  have hpre := CxxString.prefix_of_find h
  rwa [List.map_drop, List.drop_drop] at hpre

/-- The outer loop gets to the first start tag, and the inner loop begins there. -/
theorem findMails_enter {rounds i : ℕ} (hi : findStart (buf.drop off) = some i)
    (hrounds : i < rounds) :
    findMails buf rounds off mails = (do
      let (off2, mails) ← findEnd buf (off + i) mails (rounds - 1 - i) (off + i)
      findMails buf (rounds - 1 - i) off2 mails) := by
  have hle := findStart_drop_le hi
  have hsplit : rounds = rounds - 1 - i + 1 + i := by omega
  rw [hsplit, findMails_start hi, findMails_round (by omega), if_pos (startAt_of_findStart hi),
    ← hsplit]

/-- The outer loop makes of the buffer what the scan says. -/
theorem findMails_of_scans {r : Option (List Bytes)} (hlen : 7 ≤ buf.length) {rounds : ℕ}
    (hoff : off ≤ buf.length) (hrounds : buf.length < off + rounds) (h : Scans (buf.drop off) r) :
    findMails buf rounds off mails = outcome mails r := by
  -- the induction is over the scan; the position and the rounds move with it
  generalize hs : buf.drop off = s at h
  induction h generalizing off rounds mails with
  | noStart hi =>
    subst hs
    rw [findMails_none hlen hoff hrounds hi, outcome, List.append_nil]
  | @noEnd s i hi hk =>
    subst hs
    have hle := findStart_drop_le hi
    rw [List.drop_drop] at hk
    rw [findMails_enter hi (by omega), findEnd_none (by omega) (by omega) hk]
    obtain ⟨left, hleft⟩ : ∃ n, rounds - 1 - i = n + 1 := ⟨rounds - 2 - i, by omega⟩
    show findMails buf (rounds - 1 - i) (buf.length - 4) mails = _
    rw [hleft, findMails_end hlen (by omega), outcome, List.append_nil]
  | @empty s i k hi hk hlt =>
    subst hs
    have hle := findStart_drop_le hi
    rw [List.drop_drop] at hk
    have hkle := CxxString.find_le hk (by decide)
    rw [List.length_drop, length_endTag] at hkle
    rw [findMails_enter hi (by omega), findEnd_some (by omega) hk, Nat.add_sub_cancel_left, newString,
      length_startTag, if_pos hlt]
    rfl
  | @mail s i k r hi hk hle8 hscan ih =>
    subst hs
    have hle := findStart_drop_le hi
    rw [List.drop_drop] at hk
    have hkle := CxxString.find_le hk (by decide)
    rw [List.length_drop, length_endTag] at hkle
    have hslice : newString buf (off + i + startTag.length) k startTag.length =
        .ok (((buf.drop off).drop (i + 8)).take (k - 8)) := by
      rw [newString, length_startTag, if_neg (by omega), slice, dif_pos (by omega), List.drop_drop]
      rfl
    rw [findMails_enter hi (by omega), findEnd_some (by omega) hk, Nat.add_sub_cancel_left, hslice,
      outcome_map]
    show findMails buf (rounds - 1 - i) (off + i + k) (mails ++ [_]) = _
    exact ih (by omega) (by omega) (by rw [List.drop_drop, Nat.add_assoc])

/-- Every text is scanned in one way or another. -/
theorem exists_scans (s : Bytes) : ∃ r, Scans s r := by
  induction hn : s.length using Nat.strong_induction_on generalizing s with
  | _ n ih =>
    rcases hi : findStart s with _ | i
    · exact ⟨_, .noStart hi⟩
    rcases hk : CxxString.find endTag (s.drop i) with _ | k
    · exact ⟨_, .noEnd hi hk⟩
    rcases Nat.lt_or_ge k 8 with hlt | hle
    · exact ⟨_, .empty hi hk hlt⟩
    have hile := findStart_le hi
    obtain ⟨r, hr⟩ := ih (s.drop (i + k)).length (by rw [List.length_drop]; omega) _ rfl
    exact ⟨_, .mail hi hk hle hr⟩

/-! ## Dialogues -/

section Dialogues

variable {command tag body rest : Bytes} {r : Option (List Bytes)}

/-- What is in front of the text does not matter for the scan if no start tag begins in it. -/
theorem scans_append {p s : Bytes} (h : findStart (p ++ s) = (findStart s).map (p.length + ·)) :
    Scans (p ++ s) r ↔ Scans s r := by
  have hdrop : ∀ i, (p ++ s).drop (p.length + i) = s.drop i := fun i => by
    rw [← List.drop_drop, List.drop_left]
  constructor
  · intro hscan
    generalize ht : p ++ s = t at hscan
    cases hscan with
    | noStart hi =>
      subst ht
      rw [hi] at h
      exact .noStart (Option.map_eq_none_iff.mp h.symm)
    | noEnd hi hk =>
      subst ht
      rw [hi] at h
      obtain ⟨i, his, rfl⟩ := Option.map_eq_some_iff.mp h.symm
      rw [hdrop] at hk
      exact .noEnd his hk
    | empty hi hk hlt =>
      subst ht
      rw [hi] at h
      obtain ⟨i, his, rfl⟩ := Option.map_eq_some_iff.mp h.symm
      rw [hdrop] at hk
      exact .empty his hk hlt
    | mail hi hk hle hrest =>
      subst ht
      rw [hi] at h
      obtain ⟨i, his, rfl⟩ := Option.map_eq_some_iff.mp h.symm
      rw [hdrop] at hk
      rw [Nat.add_assoc, hdrop] at hrest ⊢
      exact .mail his hk hle hrest
  · intro hscan
    cases hscan with
    | noStart hi => exact .noStart (by rw [h, hi]; rfl)
    | noEnd hi hk => exact .noEnd (by rw [h, hi]; rfl) (by rw [hdrop]; exact hk)
    | empty hi hk hlt => exact .empty (by rw [h, hi]; rfl) (by rw [hdrop]; exact hk) hlt
    | @mail _ i k _ hi hk hle hrest =>
      have hmail := Scans.mail (s := p ++ s) (i := p.length + i) (by rw [h, hi]; rfl)
        (by rw [hdrop]; exact hk) hle (by rw [Nat.add_assoc, hdrop]; exact hrest)
      rwa [Nat.add_assoc, hdrop] at hmail

/-- The scan goes on at the end tag of a mail, and no start tag begins before its last two
characters. -/
theorem scans_endTag : Scans (endTag ++ rest) r ↔ Scans (crlf ++ rest) r := by
  have hsplit : endTag ++ rest = lit ['\r', '\n', '.'] ++ (crlf ++ rest) := rfl
  rw [hsplit]
  refine scans_append ?_
  rw [findStart, findStart, List.map_append, CxxString.find_append_of_not_prefix, List.length_map]
  intro q hq hne
  have hlow : (lit ['\r', '\n', '.']).map tolower = [13, 10, 46] := by decide
  have hstart : startTag.map tolower = [13, 10, 100, 97, 116, 97, 13, 10] := by decide
  rw [hlow] at hq
  rw [hstart]
  simp only [List.suffix_cons_iff, List.suffix_nil] at hq
  rcases hq with rfl | rfl | rfl | rfl
  · simp
  · simp
  · simp
  · exact absurd rfl hne

/-- In a `DATA` line no end tag begins before the last two characters. -/
theorem find_endTag_tag (htag : tag.map tolower = startTag.map tolower) :
    CxxString.find endTag (tag ++ rest) = (CxxString.find endTag (crlf ++ rest)).map (6 + ·) := by
  have hsplit : startTag.map tolower = [13, 10, 100, 97, 116, 97] ++ crlf.map tolower := by decide
  rw [← find_endTag (tag ++ rest), ← find_endTag (crlf ++ rest), List.map_append, htag, hsplit,
    List.append_assoc, ← List.map_append, CxxString.find_append_of_not_prefix]
  · rfl
  intro q hq hne
  have hend : endTag = [13, 10, 46, 13, 10] := by decide
  rw [hend]
  simp only [List.suffix_cons_iff, List.suffix_nil] at hq
  rcases hq with rfl | rfl | rfl | rfl | rfl | rfl | rfl
  · simp
  · simp
  · simp
  · simp
  · simp
  · simp
  · exact absurd rfl hne

/-- If the text has no end tag, not even one that ends with the next line break, then the next end tag
is the first one. -/
theorem find_endTag_append {l : Bytes} (h : ¬ endTag <:+: l ++ crlf) :
    CxxString.find endTag (l ++ (endTag ++ rest)) = some l.length := by
  rw [CxxString.find_append_of_not_prefix, CxxString.find_of_prefix (List.prefix_append _ _)]
  · rfl
  intro q hq hne hpre
  obtain ⟨p, rfl⟩ := hq
  have hq : ¬ endTag <:+: q ++ crlf := fun hocc =>
    h (hocc.trans ⟨p, [], by rw [List.append_nil, List.append_assoc]⟩)
  have hend : endTag = [13, 10, 46, 13, 10] := by decide
  have hcrlf : crlf = [13, 10] := by decide
  rw [hend, hcrlf] at hq
  rw [hend] at hpre
  -- a tag that begins in `q` lies in `q` or ends with the next line break
  match q, hne with
  | [a], _ => simp at hpre
  | [a, b], _ => simp at hpre
  | [a, b, c], _ =>
    obtain ⟨rfl, rfl, rfl⟩ : 13 = a ∧ 10 = b ∧ 46 = c := by simpa using hpre
    exact hq List.infix_rfl
  | [a, b, c, d], _ => simp at hpre
  | a :: b :: c :: d :: e :: q, _ =>
    obtain ⟨rfl, rfl, rfl, rfl, rfl⟩ : 13 = a ∧ 10 = b ∧ 46 = c ∧ 13 = d ∧ 10 = e := by
      simpa using hpre
    exact hq ⟨[], q ++ [13, 10], rfl⟩

theorem findStart_of_introduces (h : Introduces command tag) (rest : Bytes) :
    findStart (command ++ (tag ++ rest)) = some command.length := by
  rw [findStart, ← List.append_assoc, List.map_append]
  exact CxxString.find_append_of_some h.2 _

theorem length_tag (h : Introduces command tag) : tag.length = 8 := by
  have hlen := congrArg List.length h.1
  rwa [List.length_map, List.length_map, length_startTag] at hlen

/-- A mail is taken out, and the scan goes on behind it. -/
theorem scans_mail (h : Introduces command tag) (hbody : NoDotLine body)
    (hrest : Scans (crlf ++ rest) r) :
    Scans (command ++ (tag ++ (body ++ (endTag ++ rest)))) (r.map (body :: ·)) := by
  have htag := length_tag h
  have hend : CxxString.find endTag (tag ++ (body ++ (endTag ++ rest))) =
      some (8 + body.length) := by
    have hlen : (crlf ++ body).length = 2 + body.length := by
      rw [List.length_append]
      rfl
    rw [find_endTag_tag h.1, ← List.append_assoc, find_endTag_append hbody, hlen, Option.map_some]
    congr 1
    omega
  have hmail := Scans.mail (findStart_of_introduces h _) (by rw [List.drop_left]; exact hend)
    (Nat.le_add_right _ _) (r := r) (by
      rw [← List.drop_drop, List.drop_left, ← htag, ← List.drop_drop, List.drop_left, List.drop_left,
        scans_endTag]
      exact hrest)
  rwa [← List.drop_drop, List.drop_left, ← htag, List.drop_left, Nat.add_sub_cancel_left,
    List.take_left] at hmail

/-- The scan comes to a mail without a body. -/
theorem scans_none_of_hasEmptyMail {s : Bytes} (h : HasEmptyMail s) : Scans s none := by
  induction h with
  | here command tag rest h =>
    refine .empty (k := 6) (findStart_of_introduces h _) ?_ (by omega)
    have hpre : endTag <+: crlf ++ (lit ['.', '\r', '\n'] ++ rest) := ⟨rest, rfl⟩
    rw [List.drop_left, find_endTag_tag h.1, CxxString.find_of_prefix hpre]
    rfl
  | later command tag body rest h hbody hrest ih => exact scans_mail h hbody ih

/-- The first `DATA` line cuts a text into the commands before it and what follows it. -/
theorem exists_introduces {s : Bytes} {i : ℕ} (h : findStart s = some i) :
    ∃ command tag rest, s = command ++ (tag ++ rest) ∧ command.length = i ∧
      Introduces command tag := by
  have hle := findStart_le h
  have htake : s.take i ++ (s.drop i).take 8 = s.take (i + 8) := List.take_add.symm
  refine ⟨s.take i, (s.drop i).take 8, s.drop (i + 8), ?_, by rw [List.length_take]; omega, ?_, ?_⟩
  · rw [← List.drop_drop, List.take_append_drop, List.take_append_drop]
  · have hpre := CxxString.prefix_of_find h
    rw [← List.map_drop, List.prefix_iff_eq_take, List.length_map, length_startTag] at hpre
    rw [List.map_take]
    exact hpre.symm
  · have hfind := CxxString.find_take_of_some h
    rw [List.length_map, length_startTag] at hfind
    rw [htake, List.map_take, hfind, List.length_take, Nat.min_eq_left (by omega)]

/-- The first end tag cuts a text behind a `DATA` line into a body and what follows it. -/
theorem exists_body {s : Bytes} {j : ℕ} (h : CxxString.find endTag (crlf ++ s) = some (2 + j)) :
    ∃ body rest, s = body ++ (endTag ++ rest) ∧ body.length = j ∧ NoDotLine body := by
  have hdrop : (crlf ++ s).drop (2 + j) = s.drop j := by
    rw [← List.drop_drop]
    rfl
  obtain ⟨rest, hrest⟩ := CxxString.prefix_of_find h
  rw [hdrop] at hrest
  have hle := CxxString.find_le h (by decide)
  rw [List.length_append, length_endTag, show crlf.length = 2 from rfl] at hle
  refine ⟨s.take j, rest, by rw [hrest, List.take_append_drop], by rw [List.length_take]; omega, ?_⟩
  intro hocc
  -- a line with a single dot in the body would be found first
  rcases hfind : CxxString.find endTag (crlf ++ s.take j ++ crlf) with _ | i
  · exact CxxString.find_eq_none_iff.mp hfind hocc
  have hile := CxxString.find_le hfind (by decide)
  have happ := CxxString.find_append_of_some hfind (lit ['.', '\r', '\n'] ++ rest)
  have hall : crlf ++ s.take j ++ crlf ++ (lit ['.', '\r', '\n'] ++ rest) = crlf ++ s := by
    rw [List.append_assoc, List.append_assoc]
    show crlf ++ (s.take j ++ (endTag ++ rest)) = _
    rw [hrest, List.take_append_drop]
  rw [hall, h, Option.some.injEq] at happ
  rw [length_endTag] at hile
  simp only [List.length_append, List.length_take, show crlf.length = 2 from rfl] at hile
  omega

theorem hasEmptyMail_of_scans {s : Bytes} (h : Scans s none) : HasEmptyMail s := by
  induction hn : s.length using Nat.strong_induction_on generalizing s with
  | _ n ih =>
    generalize hr : (none : Option (List Bytes)) = r at h
    cases h with
    | noStart hi => cases hr
    | noEnd hi hk => cases hr
    | empty hi hk hlt =>
      obtain ⟨command, tag, rest, rfl, rfl, hint⟩ := exists_introduces hi
      rw [List.drop_left, find_endTag_tag hint.1] at hk
      obtain ⟨j, hj, rfl⟩ := Option.map_eq_some_iff.mp hk
      obtain ⟨rest', hrest⟩ := CxxString.prefix_of_find hj
      have hend : endTag = [13, 10, 46, 13, 10] := by decide
      rw [hend, show crlf = [13, 10] by decide] at hrest
      obtain rfl | rfl : j = 0 ∨ j = 1 := by omega
      · obtain rfl : 46 :: 13 :: 10 :: rest' = rest := by simpa using hrest
        exact .here command tag rest' hint
      · simp at hrest
    | @mail _ i k r hi hk hle hrest =>
      obtain rfl : r = none := Option.map_eq_none_iff.mp hr.symm
      obtain ⟨command, tag, rest, rfl, rfl, hint⟩ := exists_introduces hi
      rw [List.drop_left, find_endTag_tag hint.1] at hk
      obtain ⟨j, hj, rfl⟩ := Option.map_eq_some_iff.mp hk
      obtain ⟨j, rfl⟩ := Nat.exists_eq_add_of_le (show 2 ≤ j by omega)
      obtain ⟨body, rest, rfl, rfl, hbody⟩ := exists_body hj
      have htag := length_tag hint
      have hscan : Scans (crlf ++ rest) none := by
        rw [← scans_endTag]
        rw [show command.length + (6 + (2 + body.length)) = command.length + (tag.length + body.length)
          by omega, ← List.drop_drop, List.drop_left, ← List.drop_drop, List.drop_left,
          List.drop_left] at hrest
        exact hrest
      refine .later command tag body rest hint hbody (ih _ ?_ hscan rfl)
      rw [← hn]
      simp only [List.length_append, length_endTag, show crlf.length = 2 from rfl]
      omega

theorem scans_none_iff {s : Bytes} : Scans s none ↔ HasEmptyMail s :=
  ⟨hasEmptyMail_of_scans, scans_none_of_hasEmptyMail⟩

/-- A dialogue is scanned mail by mail. -/
theorem scans_dialogue {mails : List Mail} {before rest : Bytes} (h : EachIntroduced before mails)
    (hrest : Scans (lineBefore before mails ++ rest) r) :
    Scans (before ++ dialogue mails rest) (r.map (mails.map Mail.body ++ ·)) := by
  induction mails generalizing before with
  | nil =>
    rw [List.map_nil, show (fun bodies : List Bytes => [] ++ bodies) = id from rfl, Option.map_id]
    exact hrest
  | cons m mails ih =>
    have hline : lineBefore crlf mails = crlf := by
      cases mails <;> rfl
    have htail := scans_mail h.1 m.noDotLine (ih h.2 (by rw [hline]; exact hrest))
    rw [List.append_assoc, Option.map_map] at htail
    exact htail

theorem length_le_dialogue (mails : List Mail) (rest : Bytes) :
    rest.length ≤ (dialogue mails rest).length := by
  induction mails with
  | nil => exact Nat.le_refl _
  | cons m mails ih =>
    simp only [dialogue, List.length_append]
    omega

theorem length_dialogue {mails : List Mail} {before : Bytes} (h : EachIntroduced before mails)
    (hne : mails ≠ []) : 7 < (dialogue mails rest).length := by
  cases mails with
  | nil => exact absurd rfl hne
  | cons m mails =>
    have htag := length_tag h.1
    simp only [dialogue, List.length_append]
    omega

end Dialogues

/-! ## Buffers -/

/-- A buffer that is too short for the bound of the loop is read behind its end. -/
theorem findMails_ne_ok (hlen : buf.length < 7) (hoff : off ≤ buf.length + 1) (rounds : ℕ)
    (out : List Bytes) : findMails buf rounds off mails ≠ .ok out := by
  induction rounds generalizing off with
  | zero => simp [findMails, diverge]
  | succ rounds ih =>
    have hbound : off < sizeSub (buf.length + 1) startTag.length := by
      rw [length_startTag, sizeSub, if_neg (by omega)]
      omega
    rw [findMails, if_pos hbound]
    rcases Nat.lt_or_eq_of_le hoff with hlt | rfl
    · have hno : ¬ startTag.map tolower <+: (buf.map tolower).drop off := by
        intro hpre
        have hle := hpre.length_le
        rw [List.length_map, List.length_drop, List.length_map, length_startTag] at hle
        omega
      rw [strncasecmp_eq startTag_ne_zero (by omega), decide_eq_false hno]
      exact ih (by omega)
    · have hfault : strncasecmp buf (buf.length + 1) startTag = fault :=
        strncasecmp_beyond (Nat.lt_succ_self _)
      rw [hfault]
      simp [fault, bind, Except.bind]

theorem length_of_getMailDatas_ok {rounds : ℕ} {out : List Bytes}
    (h : getMailDatas rounds mails buf = .ok out) : 7 ≤ buf.length := by
  by_contra hlen
  exact findMails_ne_ok (by omega) (Nat.zero_le _) rounds out h

theorem length_of_safe (h : Safe buf) : 7 ≤ buf.length := by
  obtain ⟨rounds, out, hout⟩ := h []
  exact length_of_getMailDatas_ok hout

theorem findEnd_succ {rounds : ℕ} {x : ℕ × List Bytes}
    (h : findEnd buf off1 mails rounds off = .ok x) :
    findEnd buf off1 mails (rounds + 1) off = .ok x := by
  induction rounds generalizing off with
  | zero => cases h
  | succ rounds ih =>
    rw [findEnd] at h ⊢
    split_ifs at h ⊢ with hbound
    · cases hcmp : strncasecmp buf off endTag with
      | error e =>
        rw [hcmp] at h
        cases h
      | ok found =>
        rw [hcmp] at h
        cases found with
        | true => exact h
        | false => exact ih h
    · exact h

theorem findMails_succ {rounds : ℕ} {out : List Bytes}
    (h : findMails buf rounds off mails = .ok out) :
    findMails buf (rounds + 1) off mails = .ok out := by
  induction rounds generalizing off mails with
  | zero => cases h
  | succ rounds ih =>
    rw [findMails] at h ⊢
    split_ifs at h ⊢ with hbound
    · cases hcmp : strncasecmp buf off startTag with
      | error e =>
        rw [hcmp] at h
        cases h
      | ok found =>
        rw [hcmp] at h
        cases found with
        | false => exact ih h
        | true =>
          cases hend : findEnd buf off mails rounds off with
          | error e =>
            simp only [bind, Except.bind, if_true, hend] at h
            cases h
          | ok x =>
            simp only [bind, Except.bind, if_true, hend] at h
            simp only [bind, Except.bind, if_true, findEnd_succ hend]
            exact ih h
    · exact h

/-- More rounds do not change the result. -/
theorem findMails_mono {rounds more : ℕ} (hle : rounds ≤ more) {out : List Bytes}
    (h : findMails buf rounds off mails = .ok out) : findMails buf more off mails = .ok out := by
  induction hle with
  | refl => exact h
  | step _ ih => exact findMails_succ ih

/-- The outcome for a buffer that is long enough. -/
theorem getMailDatas_ok_iff (mails : List Bytes) {r : Option (List Bytes)} (hlen : 7 ≤ buf.length)
    (h : Scans buf r) {out : List Bytes} :
    (∃ rounds, getMailDatas rounds mails buf = .ok out) ↔ outcome mails r = .ok out := by
  have hrun : ∀ rounds, buf.length < rounds → getMailDatas rounds mails buf = outcome mails r :=
    fun rounds hrounds => findMails_of_scans hlen (Nat.zero_le _) (by omega) h
  constructor
  · rintro ⟨rounds, hout⟩
    rw [← hrun (max rounds (buf.length + 1)) (by omega)]
    exact findMails_mono (le_max_left _ _) hout
  · intro hout
    exact ⟨_, (hrun _ (Nat.lt_succ_self _)).trans hout⟩

theorem safe_of_scans {bodies : List Bytes} (hlen : 7 ≤ buf.length) (h : Scans buf (some bodies)) :
    Safe buf := by
  intro mails
  obtain ⟨rounds, hout⟩ := (getMailDatas_ok_iff mails hlen h).mpr rfl
  exact ⟨rounds, _, hout⟩

/-- The mails that have been found before do not matter. -/
theorem safe_iff_exists (mails : List Bytes) :
    Safe buf ↔ ∃ rounds out, getMailDatas rounds mails buf = .ok out := by
  constructor
  · intro h
    exact h mails
  · rintro ⟨rounds, out, hout⟩
    have hlen := length_of_getMailDatas_ok hout
    obtain ⟨r, hr⟩ := exists_scans buf
    have hout' := (getMailDatas_ok_iff mails hlen hr).mp ⟨rounds, hout⟩
    cases r with
    | none => cases hout'
    | some bodies => exact safe_of_scans hlen hr

/-- The mails of a session are found if and only if those of both directions are: a direction without
a byte is enough to fail. -/
theorem decodeSmtp_ok_iff (toServer toClient : Bytes) :
    (∃ rounds out, decodeSmtp rounds toServer toClient = .ok out) ↔
      Safe toServer ∧ Safe toClient := by
  constructor
  · rintro ⟨rounds, out, hout⟩
    unfold decodeSmtp at hout
    cases hserver : getMailDatas rounds [] toServer with
    | error e =>
      rw [hserver] at hout
      cases hout
    | ok mails =>
      rw [hserver] at hout
      exact ⟨(safe_iff_exists []).mpr ⟨rounds, mails, hserver⟩,
        (safe_iff_exists mails).mpr ⟨rounds, out, hout⟩⟩
  · rintro ⟨hserver, hclient⟩
    obtain ⟨rounds, mails, hmails⟩ := hserver []
    obtain ⟨rounds', out, hout⟩ := hclient mails
    refine ⟨max rounds rounds', out, ?_⟩
    have hfirst : getMailDatas (max rounds rounds') [] toServer = .ok mails :=
      findMails_mono (le_max_left _ _) hmails
    rw [decodeSmtp, hfirst]
    exact findMails_mono (le_max_right _ _) hout

theorem not_safe_of_hasEmptyMail (h : HasEmptyMail buf) : ¬ Safe buf := by
  intro hsafe
  obtain ⟨rounds, out, hout⟩ := hsafe []
  have hscans := scans_none_iff.mpr h
  have hstop := (getMailDatas_ok_iff [] (length_of_safe hsafe) hscans).mp ⟨rounds, hout⟩
  cases hstop

/-- A buffer is handled safely if and only if it is not shorter than the start tag less one character
and no mail without a body follows its complete mails. -/
theorem safe_iff (buf : Bytes) : Safe buf ↔ 7 ≤ buf.length ∧ ¬ HasEmptyMail buf := by
  constructor
  · intro hsafe
    exact ⟨length_of_safe hsafe, fun h => not_safe_of_hasEmptyMail h hsafe⟩
  · rintro ⟨hlen, hno⟩
    obtain ⟨r, hr⟩ := exists_scans buf
    cases r with
    | none => exact absurd (scans_none_iff.mp hr) hno
    | some bodies => exact safe_of_scans hlen hr

/-- The loop runs out of the empty buffer, and the length of a mail without a body wraps around. -/
theorem not_safe_empty : ¬ Safe [] ∧
    ¬ Safe (lit ['\r', '\n', 'D', 'A', 'T', 'A', '\r', '\n', '.', '\r', '\n']) := by
  constructor
  · intro hsafe
    exact absurd (length_of_safe hsafe) (by decide)
  · exact not_safe_of_hasEmptyMail (.here [] startTag [] ⟨rfl, by decide⟩)

theorem scans_of_dialogue (d : Dialogue) :
    Scans (dialogue d.mails d.last) (some (d.mails.map Mail.body)) := by
  have hlast : Scans (lineBefore [] d.mails ++ d.last) (some []) :=
    .noStart (CxxString.find_eq_none_iff.mpr d.last_plain)
  have := scans_dialogue d.introduced hlast
  simpa using this

/-- The mails of a dialogue are found exactly, unless there are none and the commands are shorter than
the start tag less one character. -/
theorem exact_iff (d : Dialogue) : Exact d ↔ d.mails ≠ [] ∨ 7 ≤ d.last.length := by
  constructor
  · intro hexact
    by_contra hno
    obtain ⟨hnil, hshort⟩ := not_or.mp hno
    obtain ⟨rounds, hout⟩ := hexact []
    rw [not_not.mp hnil] at hout
    exact hshort (length_of_getMailDatas_ok hout)
  · intro h mails
    have hlen : 7 ≤ (dialogue d.mails d.last).length := by
      rcases h with hne | hlast
      · exact (length_dialogue d.introduced hne).le
      · exact hlast.trans (length_le_dialogue d.mails d.last)
    exact (getMailDatas_ok_iff mails hlen (scans_of_dialogue d)).mpr rfl

/-- Without mails and commands, the loop runs out of the buffer. -/
theorem not_exact_no_mail : ¬ Exact ⟨[], [], trivial, by decide⟩ := by
  intro hexact
  obtain ⟨rounds, hout⟩ := hexact []
  exact absurd (length_of_getMailDatas_ok hout) (by decide)

end Killerfinder.CSmtpTxnDecoder
