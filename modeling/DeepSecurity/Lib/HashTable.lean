import Mathlib.Data.List.Basic

/-!
# Hash tables with an equality of their own

The entries of a table are in buckets, each in the one that the hash of its key selects, and a key is
looked for in one bucket only. Keys are compared by a function `eq`. If equal keys have equal hashes,
a look-up finds what there is.
-/

/-- A table with entries of the keys `κ`. -/
structure HashTable (κ ν : Type) (hash : κ → ℕ) where
  /-- The number of buckets. -/
  size : ℕ
  /-- The entries of a bucket in the order in which they are searched. -/
  bucket : ℕ → List (κ × ν)
  /-- An entry is in the bucket of its hash. -/
  placed : ∀ i, ∀ e ∈ bucket i, i = hash e.1 % size

namespace HashTable

variable {κ ν : Type} {hash : κ → ℕ} (t : HashTable κ ν hash) (eq : κ → κ → Bool)

/-- The first entry of the bucket of `k` whose key is equal to `k`. -/
def find (k : κ) : Option (κ × ν) := (t.bucket (hash k % t.size)).find? fun e => eq e.1 k

variable {t eq} {a b : κ}

/-- The entries under a key equal to the given one are all in the bucket that is searched. -/
theorem isSome_find_iff (hhash : ∀ a b, eq a b = true → hash a = hash b) :
    (t.find eq a).isSome ↔ ∃ i, ∃ e ∈ t.bucket i, eq e.1 a = true := by
  rw [find, List.find?_isSome]
  constructor
  · rintro ⟨e, he, heq⟩
    exact ⟨_, e, he, heq⟩
  · rintro ⟨i, e, he, heq⟩
    obtain rfl := t.placed i e he
    rw [hhash e.1 a heq] at he
    exact ⟨e, he, heq⟩

/-- Equal keys find the same entry. -/
theorem find_congr (hequiv : Equivalence fun a b => eq a b = true)
    (hhash : ∀ a b, eq a b = true → hash a = hash b) (h : eq a b = true) :
    t.find eq a = t.find eq b := by
  have hsame : (fun e : κ × ν => eq e.1 a) = fun e => eq e.1 b := by
    funext e
    rw [Bool.eq_iff_iff]
    exact ⟨fun he => hequiv.trans he h, fun he => hequiv.trans he (hequiv.symm h)⟩
  rw [find, find, hhash a b h, hsame]

end HashTable
