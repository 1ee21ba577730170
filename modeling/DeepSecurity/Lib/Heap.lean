import DeepSecurity.Lib.Checked
import Mathlib.Logic.Function.Basic

/-!
# Memory with objects at addresses

A heap maps the addresses that are in use to their objects. An access to any other address is a fault. An
allocator answers one request for memory: it may refuse it, and otherwise gives an address that is not in
use.
-/

/-- Objects of the type `C` at the addresses `P`. -/
abbrev Heap (P C : Type) := P → Option C

namespace Heap

variable {P C : Type}

/-- Reading at an address without an object is an error. -/
def read (h : Heap P C) (a : P) : Checked C :=
  match h a with
  | some c => .ok c
  | none => Checked.fault

section

variable [DecidableEq P]

/-- The object at `a` is replaced, or put there. -/
def write (h : Heap P C) (a : P) (c : C) : Heap P C := Function.update h a (some c)

/-- There is nothing at `a` any more. -/
def free (h : Heap P C) (a : P) : Heap P C := Function.update h a none

/-- The object at `a` is changed, which is an error if there is none. -/
def modify (h : Heap P C) (a : P) (f : C → C) : Checked (Heap P C) := do
  let c ← h.read a
  return h.write a (f c)

end

/-- The answer to one request. -/
structure Allocator (P C : Type) where
  /-- The address for a new object, `none` if the request is refused. -/
  pick : Heap P C → Option P
  /-- The address is not in use. -/
  fresh : ∀ h a, pick h = some a → h a = none

/-- Give this address, if it is not in use. -/
def Allocator.give (a : P) : Allocator P C where
  pick h := if (h a).isNone then some a else none
  fresh h b hb := by
    split_ifs at hb with hnone
    exact Option.some.inj hb ▸ Option.isNone_iff_eq_none.mp hnone

variable {h : Heap P C} {a b : P} {c : C}

theorem read_eq_ok (ha : h a = some c) : h.read a = .ok c := by rw [read, ha]

variable [DecidableEq P]

theorem modify_eq_ok (ha : h a = some c) (f : C → C) : h.modify a f = .ok (h.write a (f c)) := by
  rw [modify, read_eq_ok ha]
  rfl

@[simp]
theorem write_self : h.write a c a = some c := Function.update_self ..

theorem write_of_ne (hne : b ≠ a) : h.write a c b = h b := Function.update_of_ne hne ..

@[simp]
theorem free_self : h.free a a = none := Function.update_self ..

theorem free_of_ne (hne : b ≠ a) : h.free a b = h b := Function.update_of_ne hne ..

end Heap
