import Mathlib.Data.List.Basic
import Mathlib.Data.List.Induction
import Mathlib.Data.List.Nodup

/-!
# Doubly linked lists

A graph gives the links of each cell. `IsList` says that the cells of a list are linked one after the
other in both directions, from `head` to `tail`. Appending and removing a cell, done by changing the
links of its neighbours, are appending to the list and removing from it.
-/

namespace DList

variable {P : Type}

/-- The two links of a cell. -/
structure Links (P : Type) where
  /-- The cell behind it. -/
  next : Option P
  /-- The cell before it. -/
  prev : Option P
deriving DecidableEq

/-- The cells with their links. -/
abbrev Graph (P : Type) := P → Option (Links P)

/-- Behind `prev` come the cells of the list, and then `next`. -/
def Seg (g : Graph P) : (prev : Option P) → List P → (next : Option P) → Prop
  | _, [], _ => True
  | prev, a :: l, next => g a = some ⟨l.head?.or next, prev⟩ ∧ Seg g (some a) l next

/-- The cells from `head` to `tail` are those of `l`, in both directions. -/
structure IsList (g : Graph P) (head tail : Option P) (l : List P) : Prop where
  /-- The list begins at its head. -/
  head_eq : head = l.head?
  /-- It ends at its tail. -/
  tail_eq : tail = l.getLast?
  /-- No cell is met twice. -/
  nodup : l.Nodup
  /-- The links are those of a list with nothing before and behind it. -/
  seg : Seg g none l none

/-- The cells met from `start` on when the links `follow` are followed to the end. -/
def Visits (follow : P → Option (Option P)) : (start : Option P) → List P → Prop
  | start, [] => start = none
  | start, a :: l => start = some a ∧ ∃ next, follow a = some next ∧ Visits follow next l

variable {g g' : Graph P} {prev next prev' next' head tail : Option P} {a : P} {l l₁ l₂ : List P}

/-! ## Segments -/

theorem Seg.congr (h : Seg g prev l next) (hg : ∀ a ∈ l, g' a = g a) : Seg g' prev l next := by
  induction l generalizing prev with
  | nil => trivial
  | cons a l ih =>
    refine ⟨?_, ih h.2 fun b hb => hg b (List.mem_cons_of_mem a hb)⟩
    rw [hg a List.mem_cons_self]
    exact h.1

theorem seg_append :
    Seg g prev (l₁ ++ l₂) next ↔
      Seg g prev l₁ (l₂.head?.or next) ∧ Seg g (l₁.getLast?.or prev) l₂ next := by
  induction l₁ generalizing prev with
  | nil => simp [Seg]
  | cons a l₁ ih =>
    have hhead : (l₁ ++ l₂).head?.or next = l₁.head?.or (l₂.head?.or next) := by
      rw [List.head?_append, Option.or_assoc]
    have hlast : (a :: l₁).getLast?.or prev = l₁.getLast?.or (some a) := by
      cases l₁ with
      | nil => rfl
      | cons b l₁ => simp [List.getLast?_cons]
    rw [List.cons_append, Seg, Seg, hhead, hlast, ih, and_assoc]

theorem seg_singleton : Seg g prev [a] next ↔ g a = some ⟨next, prev⟩ := by simp [Seg]

/-! ## Lists -/

namespace IsList

theorem nil : IsList g none none [] := ⟨rfl, rfl, List.nodup_nil, trivial⟩

theorem congr (h : IsList g head tail l) (hg : ∀ a ∈ l, g' a = g a) : IsList g' head tail l :=
  ⟨h.head_eq, h.tail_eq, h.nodup, h.seg.congr hg⟩

theorem visits_next (h : IsList g head tail l) : Visits (fun a => (g a).map Links.next) head l := by
  have hseg {prev : Option P} {l : List P} (h : Seg g prev l none) :
      Visits (fun a => (g a).map Links.next) l.head? l := by
    induction l generalizing prev with
    | nil => rfl
    | cons a l ih =>
      refine ⟨rfl, l.head?, ?_, ih h.2⟩
      have hcell : g a = some ⟨l.head?, prev⟩ := by
        rw [h.1, Option.or_none]
      simp only [hcell, Option.map_some]
  rw [h.head_eq]
  exact hseg h.seg

theorem visits_prev (h : IsList g head tail l) :
    Visits (fun a => (g a).map Links.prev) tail l.reverse := by
  have hseg {next : Option P} {l : List P} (h : Seg g none l next) :
      Visits (fun a => (g a).map Links.prev) l.getLast? l.reverse := by
    induction l using List.reverseRecOn generalizing next with
    | nil => rfl
    | append_singleton l a ih =>
      obtain ⟨hinit, hlast⟩ := seg_append.mp h
      rw [seg_singleton, Option.or_none] at hlast
      rw [List.getLast?_concat, List.reverse_concat]
      refine ⟨rfl, l.getLast?, ?_, ih hinit⟩
      simp only [hlast, Option.map_some]
  rw [h.tail_eq]
  exact hseg h.seg

end IsList

/-! ## Changing a link -/

variable [DecidableEq P]

/-- The link to the next cell is changed in `p`, if that is a cell. -/
def setNext (g : Graph P) (p : Option P) (next : Option P) : Graph P :=
  fun a => if p = some a then (g a).map fun c => { c with next } else g a

/-- The link to the cell before is changed in `p`, if that is a cell. -/
def setPrev (g : Graph P) (p : Option P) (prev : Option P) : Graph P :=
  fun a => if p = some a then (g a).map fun c => { c with prev } else g a

theorem setNext_of_ne {p : Option P} (h : p ≠ some a) : setNext g p next a = g a := if_neg h

theorem setPrev_of_ne {p : Option P} (h : p ≠ some a) : setPrev g p prev a = g a := if_neg h

/-- The link at the end of a segment. -/
theorem Seg.setNext (h : Seg g prev l next) (hl : l.Nodup) (next' : Option P) :
    Seg (setNext g l.getLast? next') prev l next' := by
  rcases List.eq_nil_or_concat l with rfl | ⟨l, a, rfl⟩
  · trivial
  rw [List.concat_eq_append] at h hl ⊢
  rw [List.getLast?_concat]
  obtain ⟨hinit, hlast⟩ := seg_append.mp h
  refine seg_append.mpr ⟨hinit.congr fun b hb => setNext_of_ne ?_, ?_⟩
  · rintro ⟨rfl⟩
    exact (List.nodup_append.mp hl).2.2 a hb a (by simp) rfl
  · rw [seg_singleton] at hlast ⊢
    rw [DList.setNext, if_pos rfl, hlast]
    rfl

/-- The link at the beginning of a segment. -/
theorem Seg.setPrev (h : Seg g prev l next) (hl : l.Nodup) (prev' : Option P) :
    Seg (setPrev g l.head? prev') prev' l next := by
  cases l with
  | nil => trivial
  | cons a l =>
    refine ⟨?_, h.2.congr fun b hb => setPrev_of_ne ?_⟩
    · rw [DList.setPrev, List.head?_cons, if_pos rfl, h.1]
      rfl
    · rintro ⟨rfl⟩
      exact (List.nodup_cons.mp hl).1 hb

/-! ## Appending and removing -/

namespace IsList

/-- A new cell behind the last one. -/
theorem append (h : IsList g head tail l) (ha : a ∉ l) (hcell : g' a = some ⟨none, tail⟩)
    (hg : ∀ b ∈ l, g' b = setNext g tail (some a) b) :
    IsList g' (if head = none then some a else head) (some a) (l ++ [a]) := by
  refine ⟨?_, List.getLast?_concat.symm, ?_, ?_⟩
  · rw [h.head_eq]
    cases l with
    | nil => rfl
    | cons b l => simp
  · rw [List.nodup_append]
    refine ⟨h.nodup, List.nodup_singleton a, ?_⟩
    rintro b hb c hc rfl
    rw [List.mem_singleton] at hc
    exact ha (hc ▸ hb)
  · rw [h.tail_eq] at hcell hg
    refine seg_append.mpr ⟨(h.seg.setNext h.nodup (some a)).congr hg, ?_⟩
    rwa [seg_singleton, Option.or_none]

/-- The cell is taken out: its neighbours are linked to each other. -/
theorem remove {c : Links P} (h : IsList g head tail (l₁ ++ a :: l₂)) (hcell : g a = some c)
    (hg : ∀ b ∈ l₁ ++ l₂, g' b = setNext (setPrev g c.next c.prev) c.prev c.next b) :
    IsList g' (if head = some a then c.next else head) (if tail = some a then c.prev else tail)
      (l₁ ++ l₂) := by
  obtain ⟨hseg₁, hcell', hseg₂⟩ := seg_append.mp h.seg
  rw [hcell, Option.some_inj, Option.or_none, Option.or_none] at hcell'
  subst hcell'
  obtain ⟨hnodup₁, hnodup₂, hdisjoint⟩ := List.nodup_append.mp h.nodup
  obtain ⟨hnotmem₂, hnodup₂⟩ := List.nodup_cons.mp hnodup₂
  have hdisjoint₂ {b : P} (h₁ : b ∈ l₁) (h₂ : b ∈ l₂) : False :=
    hdisjoint b h₁ b (List.mem_cons_of_mem a h₂) rfl
  have hnotmem₁ : a ∉ l₁ := fun h₁ => hdisjoint a h₁ a List.mem_cons_self rfl
  refine ⟨?_, ?_, ?_, ?_⟩
  · rw [h.head_eq]
    cases l₁ with
    | nil => simp
    | cons b l₁ =>
      have hne : b ≠ a := fun heq => hnotmem₁ (heq ▸ List.mem_cons_self)
      simp [hne]
  · rw [h.tail_eq]
    rcases List.eq_nil_or_concat l₂ with rfl | ⟨l₂, b, rfl⟩
    · simp
    · have hne : b ≠ a := fun heq => hnotmem₂ (by simp [heq])
      simp [hne, List.getLast?_append, List.getLast?_cons]
  · exact List.nodup_append.mpr
      ⟨hnodup₁, hnodup₂, fun b h₁ c h₂ hbc => hdisjoint₂ h₁ (hbc ▸ h₂)⟩
  · -- one link changes on each side of the cell
    refine seg_append.mpr ⟨?_, ?_⟩
    · rw [Option.or_none]
      refine (hseg₁.setNext hnodup₁ l₂.head?).congr fun b hb => ?_
      rw [hg b (List.mem_append_left l₂ hb)]
      have hne : l₂.head? ≠ some b := fun heq => hdisjoint₂ hb (List.mem_of_mem_head? heq)
      simp only [DList.setNext, setPrev_of_ne hne]
    · rw [Option.or_none]
      refine (hseg₂.setPrev hnodup₂ l₁.getLast?).congr fun b hb => ?_
      rw [hg b (List.mem_append_right l₁ hb)]
      have hne : l₁.getLast? ≠ some b := fun heq => hdisjoint₂ (List.mem_of_getLast? heq) hb
      rw [setNext_of_ne hne]

end IsList

end DList
