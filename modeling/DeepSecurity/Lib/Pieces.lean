import Mathlib.Data.List.Basic

/-!
# Events whose data come in pieces

A program that reads a stream reports what it finds: that something has happened, or data of some kind.
Data may come in several pieces, of which only the concatenation means anything. `merge` joins
neighbouring pieces of one kind; two lists of events say the same if they are equal after that.
-/

namespace Pieces

/-- An event of kind `ν` without data, or a piece of data of kind `κ`. -/
inductive Event (ν κ α : Type) where
  | note (n : ν)
  | piece (k : κ) (l : List α)
deriving DecidableEq, Repr

variable {ν κ α : Type} [DecidableEq κ]

/-- An event before others; a piece becomes part of the next one if that is of the same kind. -/
def push : Event ν κ α → List (Event ν κ α) → List (Event ν κ α)
  | .piece k l, .piece k' l' :: es =>
    if k = k' then .piece k (l ++ l') :: es else .piece k l :: .piece k' l' :: es
  | e, es => e :: es

/-- All neighbouring pieces of one kind become one. -/
def merge (es : List (Event ν κ α)) : List (Event ν κ α) := es.foldr push []

theorem merge_cons (e : Event ν κ α) (es : List (Event ν κ α)) :
    merge (e :: es) = push e (merge es) := rfl

theorem push_piece_push (k : κ) (l l' : List α) (es : List (Event ν κ α)) :
    push (.piece k l) (push (.piece k l') es) = push (.piece k (l ++ l')) es := by
  cases es with
  | nil => simp [push]
  | cons e es =>
    cases e with
    | note n => simp [push]
    | piece j x =>
      by_cases h : k = j
      · simp [push, h, List.append_assoc]
      · simp [push, h]

theorem foldr_push_push (e : Event ν κ α) (es m : List (Event ν κ α)) :
    (push e es).foldr push m = push e (es.foldr push m) := by
  cases e with
  | note n => rfl
  | piece k l =>
    cases es with
    | nil => rfl
    | cons e es =>
      cases e with
      | note n => rfl
      | piece j x =>
        by_cases h : k = j
        · subst h
          rw [show push (.piece k l) (.piece k x :: es) = .piece k (l ++ x) :: es from if_pos rfl,
            List.foldr_cons, List.foldr_cons, push_piece_push]
        · simp [push, h]

theorem foldr_push_merge (es m : List (Event ν κ α)) :
    (merge es).foldr push m = es.foldr push m := by
  induction es with
  | nil => rfl
  | cons e es ih => rw [merge_cons, foldr_push_push, ih, List.foldr_cons]

theorem merge_append (es es' : List (Event ν κ α)) :
    merge (es ++ es') = es.foldr push (merge es') := by
  simp [merge, List.foldr_append]

/-- What has been reported so far matters only up to merging. -/
theorem merge_append_congr {a a' b b' : List (Event ν κ α)} (ha : merge a = merge a')
    (hb : merge b = merge b') : merge (a ++ b) = merge (a' ++ b') := by
  rw [merge_append, merge_append, hb, ← foldr_push_merge a, ha, foldr_push_merge]

/-- Two pieces of one kind are one piece. -/
theorem merge_piece_piece (a : List (Event ν κ α)) (k : κ) (l l' : List α) (b : List (Event ν κ α)) :
    merge (a ++ .piece k l :: .piece k l' :: b) = merge (a ++ .piece k (l ++ l') :: b) := by
  refine merge_append_congr rfl ?_
  rw [merge_cons, merge_cons, push_piece_push, ← merge_cons]

/-- A piece with others of its kind after it. -/
theorem merge_piece_map (k : κ) (l : List α) (ls : List (List α)) :
    merge ((.piece k l : Event ν κ α) :: ls.map fun d => .piece k d) = [.piece k (l ++ ls.flatten)] := by
  induction ls generalizing l with
  | nil => simp [merge, push]
  | cons d ls ih =>
    rw [List.map_cons, ← List.nil_append (_ :: _), merge_piece_piece, List.nil_append, ih]
    simp

/-- Data that come one by one. -/
theorem merge_piece_map_singleton (k : κ) (l l' : List α) :
    merge ((.piece k l : Event ν κ α) :: l'.map fun a => .piece k [a]) = [.piece k (l ++ l')] := by
  have h := merge_piece_map (ν := ν) k l (l'.map fun a => [a])
  rwa [List.map_map, ← List.flatMap_def, List.flatMap_singleton'] at h

/-- Data that come one by one, with an empty piece before each. -/
theorem merge_flatMap_piece {k : κ} {l : List α} (hl : l ≠ []) :
    merge (l.flatMap fun a => [.piece k [], (.piece k [a] : Event ν κ α)]) = [.piece k l] := by
  induction l with
  | nil => exact absurd rfl hl
  | cons a l ih =>
    by_cases h : l = []
    · subst h
      simp [merge, push]
    · rw [List.flatMap_cons, merge_append, ih h]
      simp [push]

/-- The last event is a piece of kind `k`. -/
def EndsIn (k : κ) (es : List (Event ν κ α)) : Prop := ∃ es' l, es = es' ++ [.piece k l]

/-- A piece without data says nothing after another one of its kind. -/
theorem EndsIn.merge_append_nil {k : κ} {es : List (Event ν κ α)} (h : EndsIn k es) :
    merge (es ++ [.piece k []]) = merge es := by
  obtain ⟨es', l, rfl⟩ := h
  rw [List.append_assoc]
  exact (merge_piece_piece es' k l [] []).trans (by rw [List.append_nil])

end Pieces
