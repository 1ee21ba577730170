import DeepSecurity.CaptureHpc.Url

/-!
# Decoding an encoded URL

Every character but the blank is decoded to itself: it is encoded by one, two or three bytes, and the
decoder is between two characters again behind the last of them, in whatever state it was before. The
blank is encoded as a plus sign, which the decoder does not turn back.
-/

namespace CaptureHpc

open Xml

namespace Url

variable {d : Decoder} {c byte : UInt16} {rest text : Units}

/-! ## Groups of bits -/

theorem join_two (c : UInt16) : (c >>> 6) <<< 6 ||| c &&& 0x3F = c := by
  have hc := c.toNat_lt
  have hlow : c.toNat &&& 63 = c.toNat % 2 ^ 6 := Nat.and_two_pow_sub_one_eq_mod c.toNat 6
  have hhigh : c.toNat >>> 6 <<< 6 % 65536 = c.toNat >>> 6 <<< 6 := by
    rw [Nat.shiftLeft_eq, Nat.shiftRight_eq_div_pow]
    omega
  apply UInt16.toNat_inj.mp
  simp only [UInt16.toNat_or, UInt16.toNat_shiftLeft, UInt16.toNat_shiftRight, UInt16.toNat_and,
    UInt16.reduceToNat, Nat.reduceMod, Nat.reducePow]
  rw [hlow, hhigh, ← Nat.shiftLeft_add_eq_or_of_lt (Nat.mod_lt _ (by decide)), Nat.shiftLeft_eq,
    Nat.shiftRight_eq_div_pow]
  omega

theorem join_three (c : UInt16) :
    (c >>> 12) <<< 12 ||| (c >>> 6 &&& 0x3F) <<< 6 ||| c &&& 0x3F = c := by
  have hright : c >>> 12 = c >>> 6 >>> 6 := by
    apply UInt16.toNat_inj.mp
    simp [← Nat.shiftRight_add]
  have hleft (a : UInt16) : a <<< 12 = a <<< 6 <<< 6 := by
    rw [← UInt16.shiftLeft_add (by decide) (by decide) (by decide)]
    rfl
  rw [hleft, ← UInt16.shiftLeft_or, hright, join_two, join_two]

/-- What holds of all numbers below `n` holds of the characters below `n`. -/
theorem forall_of_lt {P : UInt16 → Prop} {n : ℕ} (h : ∀ i < n, P (UInt16.ofNat i))
    (hc : c.toNat < n) : P c := by
  simpa using h c.toNat hc

theorem and_lt_64 (c : UInt16) : (c &&& 0x3F).toNat < 64 := by
  rw [UInt16.toNat_and]
  exact Nat.lt_succ_of_le Nat.and_le_right

/-! ## One byte -/

theorem wcstol_hexDigit (h : byte.toNat < 256) :
    wcstol (hexDigit (byte >>> 4)) (hexDigit (byte &&& 0xF)) = byte :=
  forall_of_lt (P := fun byte => wcstol (hexDigit (byte >>> 4)) (hexDigit (byte &&& 0xF)) = byte)
    (by decide +kernel) h

theorem Decoder.run_hexenc (h : byte.toNat < 256) :
    d.run (hexenc byte ++ rest) = (d.byte byte).run rest := by
  simp [hexenc, run, wcstol_hexDigit h]

theorem Decoder.run_cons_of_ne (h : c ≠ 0x25) : d.run (c :: rest) = (d.push c).run rest := by
  rcases rest with _ | ⟨high, _ | ⟨low, rest⟩⟩
  · rfl
  · rfl
  · rw [run, if_neg h]

/-- A byte that continues a sequence. -/
theorem Decoder.byte_tail (hc : c.toNat < 64) : d.byte (c ||| 0x80) = d.partialByte c := by
  obtain ⟨h1, h2, h3⟩ := forall_of_lt (n := 64)
    (P := fun c => ¬ (c ||| 0x80) ≤ 0x7F ∧ (c ||| 0x80) ≤ 0xBF ∧ (c ||| 0x80) &&& 0x3F = c)
    (by decide) hc
  rw [byte, if_neg h1, if_pos h2, h3]

/-- The first byte of a sequence of two. -/
theorem Decoder.byte_lead_two (hc : c.toNat < 32) :
    d.byte (c ||| 0xC0) = { d with conwch := c <<< 6, sequence := 1 } := by
  obtain ⟨h1, h2, h3, h4⟩ := forall_of_lt (n := 32)
    (P := fun c => ¬ (c ||| 0xC0) ≤ 0x7F ∧ ¬ (c ||| 0xC0) ≤ 0xBF ∧ (c ||| 0xC0) ≤ 0xDF ∧
      (c ||| 0xC0) &&& 0x1F = c) (by decide) hc
  rw [byte, if_neg h1, if_neg h2, if_pos h3, h4]

/-- The first byte of a sequence of three. -/
theorem Decoder.byte_lead_three (hc : c.toNat < 16) :
    d.byte (c ||| 0xE0) = { d with conwch := c <<< 12, sequence := 2 } := by
  obtain ⟨h1, h2, h3, h4, h5⟩ := forall_of_lt (n := 16)
    (P := fun c => ¬ (c ||| 0xE0) ≤ 0x7F ∧ ¬ (c ||| 0xE0) ≤ 0xBF ∧ ¬ (c ||| 0xE0) ≤ 0xDF ∧
      (c ||| 0xE0) ≤ 0xEF ∧ (c ||| 0xE0) &&& 0xF = c) (by decide) hc
  rw [byte, if_neg h1, if_neg h2, if_neg h3, if_pos h4, h5]

/-- The bytes of the encoding are bytes. -/
theorem or_lt_256 {a b : UInt16} (ha : a.toNat < 256) (hb : b.toNat < 256) :
    (a ||| b).toNat < 256 := by
  rw [UInt16.toNat_or]
  exact Nat.or_lt_two_pow (n := 8) ha hb

/-! ## One character -/

/-- A character of two bytes. -/
theorem Decoder.run_two (hc : c.toNat ≤ 0x7FF) :
    ∃ d' : Decoder, d'.decoded = d.decoded ++ [c] ∧
      d.run (hexenc (c >>> 6 ||| 0xC0) ++ hexenc (c &&& 0x3F ||| 0x80) ++ rest) = d'.run rest := by
  have hhigh : (c >>> 6).toNat < 32 := by
    simp only [UInt16.toNat_shiftRight, Nat.shiftRight_eq_div_pow]
    simp
    omega
  have hlow := and_lt_64 c
  refine ⟨⟨d.decoded ++ [c], 0, c⟩, rfl, ?_⟩
  rw [List.append_assoc, run_hexenc (or_lt_256 (by omega) (by decide)), byte_lead_two hhigh,
    run_hexenc (or_lt_256 (by omega) (by decide)), byte_tail hlow]
  simp [partialByte, push, join_two]

/-- A character of three bytes. -/
theorem Decoder.run_three :
    ∃ d' : Decoder, d'.decoded = d.decoded ++ [c] ∧
      d.run (hexenc (c >>> 12 ||| 0xE0) ++ hexenc (c >>> 6 &&& 0x3F ||| 0x80) ++
        hexenc (c &&& 0x3F ||| 0x80) ++ rest) = d'.run rest := by
  have hhigh : (c >>> 12).toNat < 16 := by
    have := c.toNat_lt
    simp only [UInt16.toNat_shiftRight, Nat.shiftRight_eq_div_pow]
    simp
    omega
  have hmid := and_lt_64 (c >>> 6)
  have hlow := and_lt_64 c
  refine ⟨⟨d.decoded ++ [c], 0, c⟩, rfl, ?_⟩
  rw [List.append_assoc, List.append_assoc, run_hexenc (or_lt_256 (by omega) (by decide)),
    byte_lead_three hhigh, run_hexenc (or_lt_256 (by omega) (by decide)), byte_tail hmid,
    run_hexenc (or_lt_256 (by omega) (by decide)), byte_tail hlow]
  simp [partialByte, push, join_three]

/-- What comes back for a character. -/
def returned (wch : UInt16) : UInt16 := if wch = 0x20 then 0x2B else wch

theorem Decoder.run_encodeChar (d : Decoder) (c : UInt16) (rest : Units) :
    ∃ d' : Decoder, d'.decoded = d.decoded ++ [returned c] ∧
      d.run (encodeChar c ++ rest) = d'.run rest := by
  have hpush : ∀ {c : UInt16}, c ≠ 0x25 → ∃ d' : Decoder, d'.decoded = d.decoded ++ [c] ∧
      d.run ([c] ++ rest) = d'.run rest := fun hc => ⟨_, rfl, run_cons_of_ne hc⟩
  by_cases hblank : c = 0x20
  · subst hblank
    exact hpush (by decide)
  · rw [returned, if_neg hblank]
    unfold encodeChar
    split_ifs with h1 h2 h3 h4 h5 h6
    · exact hpush (by rintro rfl; exact absurd h1 (by decide))
    · exact hpush (by rintro rfl; exact absurd h2 (by decide))
    · exact hpush (by rintro rfl; exact absurd h3 (by decide))
    · exact hpush (by rintro rfl; exact absurd h4 (by decide))
    · -- the other characters of ASCII
      have hbyte : c.toNat < 256 := lt_of_le_of_lt h5 (by decide)
      exact ⟨d.push c, rfl, by rw [run_hexenc hbyte, byte, if_pos h5]⟩
    · exact run_two h6
    · exact run_three

/-! ## The whole text -/

theorem Decoder.decoded_run_encode (d : Decoder) (text : Units) :
    (d.run (encode text)).decoded = d.decoded ++ text.map returned := by
  induction text generalizing d with
  | nil => simp [encode, run]
  | cons c text ih =>
    obtain ⟨d', hd', hrun⟩ := d.run_encodeChar c (encode text)
    rw [show encode (c :: text) = encodeChar c ++ encode text from rfl, hrun, ih, hd']
    simp

theorem decode_encode_eq_map (text : Units) : decode (encode text) = text.map returned :=
  Decoder.decoded_run_encode .start text

/-- A text comes back from its encoding exactly if it has no blank. -/
theorem decode_encode_iff (text : Units) : decode (encode text) = text ↔ 0x20 ∉ text := by
  rw [decode_encode_eq_map]
  constructor
  · intro h hblank
    have hmem : (0x20 : UInt16) ∈ text.map returned := by rwa [h]
    obtain ⟨c, -, hc⟩ := List.mem_map.mp hmem
    unfold returned at hc
    split_ifs at hc with h20
    · exact absurd hc (by decide)
    · exact h20 hc
  · intro h
    refine (List.map_congr_left fun c hc => ?_).trans text.map_id
    exact if_neg (ne_of_mem_of_not_mem hc h)

/-- The blank comes back as a plus sign. -/
theorem decode_encode_blank_ne : decode (encode [0x20]) ≠ [0x20] := by
  decide

end Url

end CaptureHpc
