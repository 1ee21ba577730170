import Mathlib.Data.List.Induction
import Mathlib.Data.UInt

/-!
# Computations over a buffer with checked accesses

A program that takes a byte buffer apart may read beyond its end. Here such a read is the outcome
`fault`, so that its absence is a property of the outcome; `drop` is a program that gives up on its
input, and `diverge` one that has not come to an end within the number of rounds given to it.
`Checked.wp` is the weakest precondition of "no fault, and the result satisfies `Q`". It distributes
over the operations as an equivalence, which makes it possible to compute the exact condition on
the input.
-/

/-- How a computation may end without a result. -/
inductive Stop where
  /-- An access beyond the end of the buffer. -/
  | fault
  /-- A loop that has used up its rounds. -/
  | diverge
  /-- The input is not processed any further. -/
  | drop
deriving DecidableEq, Repr

/-- A computation that may end without a result. -/
abbrev Checked (α : Type) := Except Stop α

namespace Checked

variable {α β : Type}

/-- An access beyond the end of the buffer. -/
def fault : Checked α := .error .fault

/-- The end of a loop that has used up its rounds. -/
def diverge : Checked α := .error .diverge

/-- The end of the processing of an input. -/
def drop : Checked α := .error .drop

/-- The `n` elements of the buffer from position `pos` on. -/
def slice (buf : List α) (pos n : ℕ) : Checked { l : List α // l.length = n } :=
  if h : pos + n ≤ buf.length then
    .ok ⟨(buf.drop pos).take n, by rw [List.length_take, List.length_drop]; omega⟩
  else fault

/-- The element at position `pos`. -/
def get (buf : List α) (pos : ℕ) : Checked α :=
  match buf[pos]? with
  | some a => .ok a
  | none => fault

/-- The number with the given bytes, the most significant one first. -/
def beNat (l : List UInt8) : ℕ := l.foldl (fun n b => n * 256 + b.toNat) 0

/-- The byte at `pos`. -/
def u8 (buf : List UInt8) (pos : ℕ) : Checked UInt8 := do
  let l ← slice buf pos 1
  return UInt8.ofNat (beNat l.1)

/-- The two bytes from `pos` on as a number in network order. -/
def u16 (buf : List UInt8) (pos : ℕ) : Checked UInt16 := do
  let l ← slice buf pos 2
  return UInt16.ofNat (beNat l.1)

/-- The four bytes from `pos` on as a number in network order. -/
def u32 (buf : List UInt8) (pos : ℕ) : Checked UInt32 := do
  let l ← slice buf pos 4
  return UInt32.ofNat (beNat l.1)

/-! ## Weakest preconditions -/

/-- The computation makes no access beyond the end of the buffer and comes to an end, and its result,
if it has one, satisfies `Q`. -/
def wp (x : Checked α) (Q : α → Prop) : Prop :=
  match x with
  | .ok a => Q a
  | .error .drop => True
  | .error _ => False

@[simp]
theorem wp_ok (a : α) (Q : α → Prop) : wp (.ok a) Q ↔ Q a := Iff.rfl

@[simp]
theorem wp_pure (a : α) (Q : α → Prop) : wp (pure a) Q ↔ Q a := Iff.rfl

@[simp]
theorem wp_drop (Q : α → Prop) : wp drop Q ↔ True := Iff.rfl

@[simp]
theorem wp_fault (Q : α → Prop) : wp fault Q ↔ False := Iff.rfl

@[simp]
theorem wp_diverge (Q : α → Prop) : wp diverge Q ↔ False := Iff.rfl

@[simp]
theorem wp_bind (x : Checked α) (f : α → Checked β) (Q : β → Prop) :
    wp (x >>= f) Q ↔ wp x fun a => wp (f a) Q := by
  rcases x with e | a
  · cases e <;> rfl
  · rfl

theorem wp_ite {c : Prop} [Decidable c] (x y : Checked α) (Q : α → Prop) :
    wp (if c then x else y) Q ↔ (c → wp x Q) ∧ (¬ c → wp y Q) := by
  split_ifs with h <;> simp [h]

theorem wp_slice {buf : List α} {pos n : ℕ} {Q : { l : List α // l.length = n } → Prop} :
    wp (slice buf pos n) Q ↔ ∃ h : pos + n ≤ buf.length,
      Q ⟨(buf.drop pos).take n, by rw [List.length_take, List.length_drop]; omega⟩ := by
  unfold slice
  split_ifs with h
  · simp [h]
  · simp [h]

/-- The number at position `pos`, of `n` bytes. -/
def beAt (buf : List UInt8) (pos n : ℕ) : ℕ := beNat ((buf.drop pos).take n)

variable {buf : List UInt8} {pos : ℕ}

theorem wp_u8 {Q : UInt8 → Prop} :
    wp (u8 buf pos) Q ↔ pos + 1 ≤ buf.length ∧ Q (UInt8.ofNat (beAt buf pos 1)) := by
  simp only [u8, wp_bind, wp_slice, wp_pure, exists_prop, beAt]

theorem wp_u16 {Q : UInt16 → Prop} :
    wp (u16 buf pos) Q ↔ pos + 2 ≤ buf.length ∧ Q (UInt16.ofNat (beAt buf pos 2)) := by
  simp only [u16, wp_bind, wp_slice, wp_pure, exists_prop, beAt]

theorem wp_u32 {Q : UInt32 → Prop} :
    wp (u32 buf pos) Q ↔ pos + 4 ≤ buf.length ∧ Q (UInt32.ofNat (beAt buf pos 4)) := by
  simp only [u32, wp_bind, wp_slice, wp_pure, exists_prop, beAt]

theorem wp_result {x : Checked α} {Q : α → Prop} {a : α} (hx : wp x Q) (h : x = .ok a) : Q a := by
  subst h
  exact hx

/-- The rule of consequence; the new postcondition only matters for the actual result. -/
theorem wp_mono {x : Checked α} {P Q : α → Prop} (hx : wp x P)
    (h : ∀ a, x = .ok a → P a → Q a) : wp x Q := by
  rcases x with e | a
  · cases e <;> exact hx
  · exact h a rfl hx

theorem wp_and {x : Checked α} {P Q : α → Prop} (hP : wp x P) (hQ : wp x Q) :
    wp x fun a => P a ∧ Q a :=
  wp_mono hP fun _ ha hp => ⟨hp, wp_result hQ ha⟩

/-! ## Results -/

theorem bind_eq_ok {x : Checked α} {f : α → Checked β} {b : β} :
    x >>= f = .ok b ↔ ∃ a, x = .ok a ∧ f a = .ok b := by
  cases x with
  | error e => simp [bind, Except.bind]
  | ok a => simp [bind, Except.bind]

theorem slice_eq_ok {n : ℕ} {buf : List α} {pos : ℕ} {s : { l : List α // l.length = n }}
    (h : slice buf pos n = .ok s) : s.1 = (buf.drop pos).take n := by
  unfold slice at h
  split_ifs at h
  · rw [← Except.ok.inj h]
  · cases h

theorem get_eq_ok {buf : List α} {pos : ℕ} {a : α} (h : buf[pos]? = some a) :
    get buf pos = .ok a := by
  rw [get, h]

theorem get_of_le {buf : List α} {pos : ℕ} (h : buf.length ≤ pos) : get buf pos = fault := by
  rw [get, List.getElem?_eq_none h]

theorem u8_eq_ok {b : UInt8} (h : u8 buf pos = .ok b) : b = UInt8.ofNat (beAt buf pos 1) := by
  obtain ⟨s, hs, hb⟩ := bind_eq_ok.mp h
  rw [← Except.ok.inj hb, slice_eq_ok hs, beAt]

theorem u16_eq_ok {b : UInt16} (h : u16 buf pos = .ok b) : b = UInt16.ofNat (beAt buf pos 2) := by
  obtain ⟨s, hs, hb⟩ := bind_eq_ok.mp h
  rw [← Except.ok.inj hb, slice_eq_ok hs, beAt]

/-! ## Values of bytes -/

theorem beNat_lt (l : List UInt8) : beNat l < 256 ^ l.length := by
  induction l using List.reverseRecOn with
  | nil => simp [beNat]
  | append_singleton l b ih =>
    have hb := b.toNat_lt
    simp only [beNat, List.foldl_append, List.foldl_cons, List.foldl_nil, List.length_append,
      List.length_cons, List.length_nil, pow_succ] at ih ⊢
    omega

theorem beAt_lt (buf : List UInt8) (pos n : ℕ) : beAt buf pos n < 256 ^ n :=
  (beNat_lt _).trans_le (Nat.pow_le_pow_right (by omega) (List.length_take_le n _))

@[simp]
theorem toNat_beAt_one (buf : List UInt8) (pos : ℕ) :
    (UInt8.ofNat (beAt buf pos 1)).toNat = beAt buf pos 1 := by
  rw [UInt8.toNat_ofNat']
  exact Nat.mod_eq_of_lt (beAt_lt buf pos 1)

@[simp]
theorem toNat_beAt_two (buf : List UInt8) (pos : ℕ) :
    (UInt16.ofNat (beAt buf pos 2)).toNat = beAt buf pos 2 := by
  rw [UInt16.toNat_ofNat']
  exact Nat.mod_eq_of_lt (beAt_lt buf pos 2)

end Checked
