import Mathlib.Data.Fintype.Basic
import Mathlib.Data.UInt

/-!
# Bytes as characters

A text that a program reads byte by byte. What holds of every byte is decided by looking at the 256 of
them.
-/

/-- The byte of an ASCII character. -/
def chr (c : Char) : UInt8 := UInt8.ofNat c.toNat

/-- The bytes of an ASCII text. -/
def bytesOf (s : String) : List UInt8 := s.toList.map chr

instance UInt8.decidableForall {P : UInt8 → Prop} [DecidablePred P] : Decidable (∀ c, P c) :=
  decidable_of_iff (∀ n : Fin 256, P (UInt8.ofNat n)) <| by
    constructor
    · intro h c
      simpa using h ⟨c.toNat, c.toNat_lt⟩
    · intro h n
      exact h _
