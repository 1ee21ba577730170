import DeepSecurity.CaptureHpc.ServerSend

/-!
# Proofs: escaping and what a reader gets

The loop escapes the text up to where its rounds come, and leaves the rest as it is. A special character
that is left over is read as something else than itself.
-/

namespace CaptureHpc

open Xml

namespace Server

variable {c : UInt16} {l v w pre mid : Units} {i n : ℕ}

/-! ## The loop -/

theorem escapeAt_eq (h : l[i]? = some c) (hspecial : ¬ isSpecial c) : escapeAt l i = some l := by
  have hne (e : Entity) : c ≠ e.char := by
    rintro rfl
    exact hspecial (isSpecial_char e)
  have hamp : c ≠ 0x26 := hne .amp
  have hlt : c ≠ 0x3C := hne .lt
  have hgt : c ≠ 0x3E := hne .gt
  have hquot : c ≠ 0x22 := hne .quot
  have hapos : c ≠ 0x27 := hne .apos
  simp only [escapeAt, h, Option.bind_eq_bind, Option.bind_some]
  rw [if_neg hamp, if_neg hlt, if_neg hgt, if_neg hquot, if_neg hapos]

theorem escapeAt_entity (e : Entity) (pre v : Units) :
    escapeAt (pre ++ e.char :: v) pre.length = some (pre ++ e.reference ++ v) := by
  have hreplace : CxxString.replace (pre ++ e.char :: v) pre.length 1 e.reference =
      some (pre ++ e.reference ++ v) := by
    rw [CxxString.replace_of_le (by simp)]
    simp
  rw [escapeAt, List.getElem?_append_right (Nat.le_refl _), Nat.sub_self]
  cases e <;> exact hreplace

/-- The rounds `n` of the loop from behind `pre`, where `mid` is left of a reference. -/
theorem foldlM_escapeAt (hmid : ∀ c ∈ mid, ¬ isSpecial c) (hn : n ≤ mid.length + v.length) :
    (List.range' pre.length n).foldlM escapeAt (pre ++ mid ++ v) =
      some (pre ++ mid ++ ((scanned (n - mid.length) v).1.flatMap escapeChar ++
        (scanned (n - mid.length) v).2)) := by
  induction n generalizing pre mid v with
  | zero => simp [scanned, pure]
  | succ n ih =>
    rw [List.range'_succ, List.foldlM_cons]
    cases mid with
    | cons m mid =>
      obtain ⟨hm, hmid⟩ := List.forall_mem_cons.mp hmid
      have hat : (pre ++ m :: mid ++ v)[pre.length]? = some m := by simp
      have ih := @ih v (pre ++ [m]) mid hmid (by simp only [List.length_cons] at hn; omega)
      have hrounds : n + 1 - (m :: mid).length = n - mid.length := by
        rw [List.length_cons]
        omega
      rw [escapeAt_eq hat hm, hrounds]
      simpa using ih
    | nil =>
      cases v with
      | nil => simp at hn
      | cons c v =>
        rw [List.append_nil]
        rw [List.length_nil, Nat.zero_add, List.length_cons] at hn
        by_cases hc : isSpecial c
        · obtain ⟨e, rfl⟩ := exists_entity_of_isSpecial hc
          -- the rounds go on behind the ampersand of the reference
          have ih := @ih v (pre ++ [0x26]) (e.name ++ [0x3B]) (fun c => not_special_of_mem_name)
            (by simp only [List.length_append, List.length_cons, List.length_nil]; omega)
          have hrounds : n + 1 - (escapeChar e.char).length = n - (e.name ++ [0x3B]).length := by
            rw [escapeChar_char, Entity.reference, List.length_cons]
            omega
          have hscanned : scanned (n + 1) (e.char :: v) =
              (e.char :: (scanned (n - (e.name ++ [0x3B]).length) v).1,
                (scanned (n - (e.name ++ [0x3B]).length) v).2) := by
            rw [scanned, hrounds]
          rw [escapeAt_entity, List.length_nil, Nat.sub_zero, hscanned, List.flatMap_cons,
            escapeChar_char]
          simpa [Entity.reference] using ih
        · have hat : (pre ++ c :: v)[pre.length]? = some c := by simp
          have ih := @ih v (pre ++ [c]) [] (by simp) (by simp; omega)
          have hscanned : scanned (n + 1) (c :: v) = (c :: (scanned n v).1, (scanned n v).2) := by
            rw [scanned, escapeChar_of_not_special hc]
            rfl
          rw [escapeAt_eq hat hc, List.length_nil, Nat.sub_zero, hscanned, List.flatMap_cons,
            escapeChar_of_not_special hc]
          simpa using ih

theorem xmlEscape_eq (v : Units) :
    xmlEscape v = some ((reached v).flatMap escapeChar ++ leftOver v) := by
  have h := @foldlM_escapeAt v [] [] v.length (by simp) (by simp)
  rw [xmlEscape, List.range_eq_range']
  exact h

theorem scanned_append (n : ℕ) (v : Units) : (scanned n v).1 ++ (scanned n v).2 = v := by
  induction v generalizing n with
  | nil => cases n <;> rfl
  | cons c v ih =>
    cases n with
    | zero => rfl
    | succ n => exact congrArg (c :: ·) (ih _)

theorem reached_append_leftOver (v : Units) : reached v ++ leftOver v = v := scanned_append _ v

/-! ## Escaping -/

theorem flatMap_escapeChar_eq_self (h : ∀ c ∈ l, ¬ isSpecial c) : l.flatMap escapeChar = l := by
  induction l with
  | nil => rfl
  | cons c l ih =>
    obtain ⟨hc, hl⟩ := List.forall_mem_cons.mp h
    rw [List.flatMap_cons, escapeChar_of_not_special hc, ih hl, List.singleton_append]

theorem eq_or_not_special_of_mem {b : UInt16} (h : c ∈ escapeChar b) : c = 0x26 ∨ ¬ isSpecial c := by
  by_cases hb : isSpecial b
  · obtain ⟨e, rfl⟩ := exists_entity_of_isSpecial hb
    rw [escapeChar_char, Entity.reference] at h
    rcases List.mem_cons.mp h with rfl | h
    · exact .inl rfl
    · exact .inr (not_special_of_mem_name h)
  · rw [escapeChar_of_not_special hb, List.mem_singleton] at h
    rw [h]
    exact .inr hb

/-- Only the first character of what a character is replaced by is special. -/
theorem not_special_of_escapeChar {b x : UInt16} (h : escapeChar c = b :: l) (hx : x ∈ l) :
    ¬ isSpecial x := by
  by_cases hc : isSpecial c
  · obtain ⟨e, rfl⟩ := exists_entity_of_isSpecial hc
    rw [escapeChar_char, Entity.reference, List.cons.injEq] at h
    rw [← h.2] at hx
    exact not_special_of_mem_name hx
  · rw [escapeChar_of_not_special hc, List.cons.injEq] at h
    rw [← h.2] at hx
    cases hx

/-- An ampersand in the escaped text is the beginning of a reference. -/
theorem reference_of_suffix {s : Units} (hs : s <:+ v.flatMap escapeChar)
    (hhead : s.head? = some 0x26) : ∃ e : Entity, e.reference <+: s := by
  induction v with
  | nil =>
    rw [List.suffix_nil.mp hs] at hhead
    cases hhead
  | cons c v ih =>
    obtain ⟨p, hp⟩ := hs
    rw [List.flatMap_cons, List.append_eq_append_iff] at hp
    obtain ⟨a, ha, rfl⟩ | ⟨a, rfl, hv⟩ := hp
    · cases p with
      | nil =>
        by_cases hc : isSpecial c
        · obtain ⟨e, rfl⟩ := exists_entity_of_isSpecial hc
          rw [escapeChar_char, List.nil_append] at ha
          exact ⟨e, by rw [ha]; exact List.prefix_append _ _⟩
        · rw [escapeChar_of_not_special hc, List.nil_append] at ha
          rw [← ha] at hhead
          rw [Option.some.inj hhead] at hc
          exact absurd rfl hc
      | cons b p =>
        cases a with
        | nil => exact ih List.suffix_rfl
        | cons x a =>
          have hx : ¬ isSpecial x := not_special_of_escapeChar ha (by simp)
          rw [Option.some.inj hhead] at hx
          exact absurd rfl hx
    · exact ih ⟨a, hv.symm⟩

theorem escapedAs_flatMap (v : Units) : EscapedAs v (v.flatMap escapeChar) where
  no_raw c hc := by
    obtain ⟨b, -, hb⟩ := List.mem_flatMap.mp hc
    rcases eq_or_not_special_of_mem hb with rfl | hspecial
    · decide
    · refine ⟨?_, ?_, ?_, ?_⟩ <;> rintro rfl <;> exact hspecial rfl
  references s hs hhead := reference_of_suffix hs hhead
  reversible := by
    have h := unescape_flatMap_append v []
    rwa [List.append_nil, show unescape [] = [] from rfl, List.append_nil] at h

theorem reversible_iff (v : Units) : Reversible v ↔ ∀ c ∈ leftOver v, ¬ isSpecial c := by
  have hsplit := reached_append_leftOver v
  constructor
  · rintro ⟨w, hw, h⟩ c hc hspecial
    rw [xmlEscape_eq, Option.some.injEq] at hw
    subst hw
    obtain ⟨hlt, hgt, hquot, hapos⟩ := h.no_raw c (List.mem_append_right _ hc)
    have hleft : unescape (leftOver v) = leftOver v := by
      have hreversible := h.reversible
      rw [unescape_flatMap_append] at hreversible
      exact List.append_cancel_left (hreversible.trans hsplit.symm)
    have hnone := not_mem_of_unescape_eq
      (fun s hs => h.references s (hs.trans (List.suffix_append _ _))) hleft
    obtain ⟨e, rfl⟩ := exists_entity_of_isSpecial hspecial
    cases e with
    | amp => exact hnone hc
    | lt => exact hlt rfl
    | gt => exact hgt rfl
    | quot => exact hquot rfl
    | apos => exact hapos rfl
  · intro h
    have hflat : (reached v).flatMap escapeChar ++ leftOver v = v.flatMap escapeChar := by
      conv_rhs => rw [← hsplit, List.flatMap_append, flatMap_escapeChar_eq_self h]
    exact ⟨v.flatMap escapeChar, by rw [xmlEscape_eq, hflat], escapedAs_flatMap v⟩

/-! ## Sending -/

def written (a : Units × Units) : WrittenAttribute := ⟨a.1, reached a.2, leftOver a.2⟩

theorem sendXML_eq (elementName : Units) (vAttributes : List (Units × Units)) :
    sendXML true elementName vAttributes =
      some (some (writeEmpty elementName (vAttributes.map written))) := by
  have hloop (acc : Units) : vAttributes.foldlM
      (fun xmlDocument a => do
        let value ← xmlEscape a.2
        return xmlDocument ++ 0x20 :: (a.1 ++ 0x3D :: 0x22 :: (value ++ [0x22]))) acc =
      some (acc ++ (vAttributes.map written).flatMap WrittenAttribute.write) := by
    induction vAttributes generalizing acc with
    | nil => simp [pure]
    | cons a vAttributes ih =>
      rw [List.foldlM_cons, xmlEscape_eq]
      simp only [Option.bind_eq_bind, Option.bind_some, Option.pure_def] at ih ⊢
      rw [ih, List.map_cons, List.flatMap_cons, List.append_assoc]
      rfl
  rw [sendXML, hloop]
  simp [writeEmpty]

/-- A reader gets the values exactly if all of them are readable. -/
theorem recovered_iff (refs : References) {elementName : Units} {vAttributes : List (Units × Units)}
    (hname : IsName elementName) (hnames : ∀ a ∈ vAttributes, IsName a.1)
    (hnodup : (vAttributes.map Prod.fst).Nodup) :
    Recovered refs elementName vAttributes ↔ ∀ a ∈ vAttributes, Readable a.2 := by
  have hvalue (a : Units × Units) : (written a).value = a.2 := reached_append_leftOver a.2
  have hpairs : (vAttributes.map written).map WrittenAttribute.pair = vAttributes := by
    rw [List.map_map]
    refine (List.map_congr_left fun a _ => ?_).trans vAttributes.map_id
    exact Prod.ext rfl (hvalue a)
  have hback (a : Units × Units) : (written a).ReadBack ↔ Readable a.2 := by
    rw [WrittenAttribute.ReadBack, hvalue, Readable]
    rfl
  have hnames' : ∀ a ∈ vAttributes.map written, IsName a.name := List.forall_mem_map.mpr hnames
  have hnodup' : ((vAttributes.map written).map WrittenAttribute.name).Nodup := by
    rw [List.map_map]
    exact hnodup
  have hread := readElement_iff refs hname hnames' hnodup'
  rw [hpairs, List.forall_mem_map] at hread
  rw [Recovered, sendXML_eq]
  simp only [Option.some.injEq, exists_eq_left', hread, hback]

/-- Escaping is reversible exactly if the loop comes to all special characters of the text, and the
values of a message are recovered exactly if all of them are readable. -/
theorem escape_iff (v : Units) (refs : References) {elementName : Units}
    {vAttributes : List (Units × Units)} (hname : IsName elementName)
    (hnames : ∀ a ∈ vAttributes, IsName a.1) (hnodup : (vAttributes.map Prod.fst).Nodup) :
    (Reversible v ↔ ∀ c ∈ leftOver v, ¬ isSpecial c) ∧
      (Recovered refs elementName vAttributes ↔ ∀ a ∈ vAttributes, Readable a.2) :=
  ⟨reversible_iff v, recovered_iff refs hname hnames hnodup⟩

/-- The value `a<` comes back, since the loop comes to the bracket. -/
theorem escape_bracket :
    Reversible [0x61, 0x3C] ∧ Recovered .predefined [0x66] [([0x76], [0x61, 0x3C])] := by
  have hreached : reached [0x61, 0x3C] = [0x61, 0x3C] := rfl
  have hleft : leftOver [0x61, 0x3C] = [] := rfl
  have hvalue : Readable [0x61, 0x3C] := by
    refine ⟨⟨?_, ?_⟩, by decide⟩
    · rw [hreached, hleft]
      simp [isBreak]
    · rw [hleft]
      simp
  have hname : IsName [0x66] := by decide
  have hnames : ∀ a ∈ [(([0x76] : Units), ([0x61, 0x3C] : Units))], IsName a.1 := by
    rw [List.forall_mem_singleton]
    decide
  obtain ⟨hreversible, hrecovered⟩ :=
    escape_iff [0x61, 0x3C] .predefined hname hnames (by decide)
  refine ⟨hreversible.mpr ?_, hrecovered.mpr ?_⟩
  · rw [hleft]
    simp
  · rw [List.forall_mem_singleton]
    exact hvalue

/-- Of two brackets the second one is not escaped. -/
theorem not_reversible_two_brackets : ¬ Reversible [0x3C, 0x3C] := by
  rw [reversible_iff]
  intro h
  exact h 0x3C (by decide) (by decide)

end Server

end CaptureHpc
