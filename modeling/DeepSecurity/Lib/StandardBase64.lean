import Mathlib.Data.List.Basic
import Mathlib.Data.UInt

/-!
# Base64

The standard encoding with padding: three bytes become four characters of six bits each, and what is
missing in the last group is made up for by padding.
-/

namespace StandardBase64

/-- The character for six bits. -/
def digit (n : ℕ) : UInt8 :=
  if n < 26 then UInt8.ofNat (0x41 + n)
  else if n < 52 then UInt8.ofNat (0x61 + (n - 26))
  else if n < 62 then UInt8.ofNat (0x30 + (n - 52))
  else if n = 62 then 0x2B
  else 0x2F

/-- The six bits of a character, `none` if it is not in the alphabet. -/
def value (c : UInt8) : Option ℕ :=
  if 0x41 ≤ c ∧ c ≤ 0x5A then some (c.toNat - 0x41)
  else if 0x61 ≤ c ∧ c ≤ 0x7A then some (c.toNat - 0x61 + 26)
  else if 0x30 ≤ c ∧ c ≤ 0x39 then some (c.toNat - 0x30 + 52)
  else if c = 0x2B then some 62
  else if c = 0x2F then some 63
  else none

/-- The character `=`. -/
def padding : UInt8 := 0x3D

/-- The groups of six bits of three bytes. -/
def sextets (a b c : ℕ) : List ℕ := [a / 4, a % 4 * 16 + b / 16, b % 16 * 4 + c / 64, c % 64]

/-- The four characters for three bytes. -/
def group (a b c : UInt8) : List UInt8 := (sextets a.toNat b.toNat c.toNat).map digit

/-- The text of some bytes, with the last group filled up. -/
def encode : List UInt8 → List UInt8
  | [] => []
  | [a] => (group a 0 0).take 2 ++ [padding, padding]
  | [a, b] => (group a b 0).take 3 ++ [padding]
  | a :: b :: c :: rest => group a b c ++ encode rest

/-- The three bytes of four groups of six bits. -/
def bytes (p q r s : ℕ) : List UInt8 :=
  [UInt8.ofNat (p * 4 + q / 16), UInt8.ofNat (q % 16 * 16 + r / 4), UInt8.ofNat (r % 4 * 64 + s)]

/-- Padding is understood at the end of the text only. -/
def decode : List UInt8 → Option (List UInt8)
  | [] => some []
  | x :: y :: z :: w :: rest => do
    let p ← value x
    let q ← value y
    if w = padding ∧ rest = [] then
      if z = padding then
        return (bytes p q 0 0).take 1
      else
        let r ← value z
        return (bytes p q r 0).take 2
    else
      let r ← value z
      let s ← value w
      let l ← decode rest
      return bytes p q r s ++ l
  | _ => none

/-! ## What is encoded is decoded -/

theorem value_digit {n : ℕ} (h : n < 64) : value (digit n) = some n := by
  have hall : ∀ n < 64, value (digit n) = some n := by decide
  exact hall n h

theorem digit_ne_padding {n : ℕ} (h : n < 64) : digit n ≠ padding := by
  have hall : ∀ n < 64, digit n ≠ padding := by decide
  exact hall n h

theorem sextets_lt (a b c : UInt8) : ∀ n ∈ sextets a.toNat b.toNat c.toNat, n < 64 := by
  have ha := a.toNat_lt
  have hb := b.toNat_lt
  have hc := c.toNat_lt
  simp only [sextets, List.mem_cons, List.not_mem_nil, or_false, forall_eq_or_imp, forall_eq]
  omega

/-- The bytes come back from their groups. -/
theorem bytes_sextets (a b c : UInt8) :
    bytes (a.toNat / 4) (a.toNat % 4 * 16 + b.toNat / 16) (b.toNat % 16 * 4 + c.toNat / 64)
      (c.toNat % 64) = [a, b, c] := by
  have ha := a.toNat_lt
  have hb := b.toNat_lt
  have hc := c.toNat_lt
  have h1 : a.toNat / 4 * 4 + (a.toNat % 4 * 16 + b.toNat / 16) / 16 = a.toNat := by omega
  have h2 : (a.toNat % 4 * 16 + b.toNat / 16) % 16 * 16 + (b.toNat % 16 * 4 + c.toNat / 64) / 4 =
      b.toNat := by omega
  have h3 : (b.toNat % 16 * 4 + c.toNat / 64) % 4 * 64 + c.toNat % 64 = c.toNat := by omega
  rw [bytes, h1, h2, h3, UInt8.ofNat_toNat, UInt8.ofNat_toNat, UInt8.ofNat_toNat]

theorem decode_group_append (a b c : UInt8) (rest : List UInt8) :
    decode (group a b c ++ rest) = (decode rest).map ([a, b, c] ++ ·) := by
  have hlt := sextets_lt a b c
  simp only [sextets, List.mem_cons, List.not_mem_nil, or_false, forall_eq_or_imp, forall_eq] at hlt
  obtain ⟨hp, hq, hr, hs⟩ := hlt
  simp only [group, sextets, List.map_cons, List.map_nil, List.cons_append, List.nil_append, decode,
    value_digit hp, value_digit hq, value_digit hr, value_digit hs, digit_ne_padding hs,
    bytes_sextets, false_and, if_false, Option.bind_eq_bind, Option.bind_some]
  cases decode rest <;> rfl

theorem decode_encode (x : List UInt8) : decode (encode x) = some x := by
  induction x using encode.induct with
  | case1 => rfl
  | case2 a =>
    have hlt := sextets_lt a 0 0
    have hb := bytes_sextets a 0 0
    simp_all [encode, group, sextets, decode, value_digit]
  | case3 a b =>
    have hlt := sextets_lt a b 0
    have hb := bytes_sextets a b 0
    simp_all [encode, group, sextets, decode, value_digit, digit_ne_padding]
  | case4 a b c rest ih =>
    rw [encode, decode_group_append, ih]
    rfl

end StandardBase64
