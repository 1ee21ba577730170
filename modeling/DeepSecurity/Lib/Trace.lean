import Mathlib.Data.List.Induction
import Mathlib.Data.List.Infix

/-!
# Properties of every prefix of a run

A run is the list of the inputs a component has received, oldest first. A safety property speaks
about every prefix of it (`Always`), a usage rule about every input together with the inputs that
came before it (`EachStep`). `always_iff_eachStep` connects the two: a property that an invariant
carries over every step that keeps the rule, and that the first step breaking the rule destroys,
holds along a run exactly if the run keeps the rule.
-/

namespace Trace

variable {α : Type}

/-- `P` holds after every prefix of the run `l`. -/
def Always (P : List α → Prop) (l : List α) : Prop := ∀ p, p <+: l → P p

/-- Every input of the run `l` satisfies `Safe` with respect to the inputs before it. -/
def EachStep (Safe : List α → α → Prop) (l : List α) : Prop :=
  ∀ pre a post, l = pre ++ a :: post → Safe pre a

/-- Some input of the run `l` satisfies `Q` with respect to the inputs before it. -/
def SomeStep (Q : List α → α → Prop) (l : List α) : Prop :=
  ∃ pre a post, l = pre ++ a :: post ∧ Q pre a

theorem always_nil {P : List α → Prop} : Always P [] ↔ P [] := by
  constructor
  · intro h
    exact h [] (List.prefix_refl _)
  · intro h p hp
    rw [List.prefix_nil.mp hp]
    exact h

theorem always_snoc {P : List α → Prop} {l : List α} {a : α} :
    Always P (l ++ [a]) ↔ Always P l ∧ P (l ++ [a]) := by
  constructor
  · intro h
    exact ⟨fun p hp => h p (hp.trans (List.prefix_append _ _)), h _ (List.prefix_refl _)⟩
  · rintro ⟨h, ha⟩ p hp
    rcases List.prefix_concat_iff.mp hp with rfl | hp
    · exact ha
    · exact h p hp

theorem eachStep_nil {Safe : List α → α → Prop} : EachStep Safe [] := by
  intro pre a post h
  simp at h

theorem eachStep_snoc {Safe : List α → α → Prop} {l : List α} {a : α} :
    EachStep Safe (l ++ [a]) ↔ EachStep Safe l ∧ Safe l a := by
  constructor
  · intro h
    exact ⟨fun pre b post hl => h pre b (post ++ [a]) (by simp [hl]), h l a [] rfl⟩
  · rintro ⟨h, ha⟩ pre b post hl
    rcases List.eq_nil_or_concat post with rfl | ⟨post, c, rfl⟩
    · obtain ⟨rfl, hab⟩ := List.append_inj' hl rfl
      obtain rfl : a = b := by simpa using hab
      exact ha
    · have hl' : l ++ [a] = (pre ++ b :: post) ++ [c] := by simpa using hl
      exact h pre b post (List.append_inj' hl' rfl).1

theorem eachStep_iff_getElem {Safe : List α → α → Prop} {l : List α} :
    EachStep Safe l ↔ ∀ i, (h : i < l.length) → Safe (l.take i) l[i] := by
  constructor
  · intro h i hi
    refine h (l.take i) l[i] (l.drop (i + 1)) ?_
    rw [List.getElem_cons_drop, List.take_append_drop]
  · rintro h pre a post rfl
    simpa using h pre.length (by simp)

/-- A rule that can be checked can be checked along a run. -/
instance {Safe : List α → α → Prop} [∀ pre a, Decidable (Safe pre a)] (l : List α) :
    Decidable (EachStep Safe l) :=
  decidable_of_iff' _ eachStep_iff_getElem

theorem someStep_iff {Q : List α → α → Prop} {l : List α} :
    SomeStep Q l ↔ ¬ EachStep (fun pre a => ¬ Q pre a) l := by
  simp [SomeStep, EachStep]

theorem someStep_nil {Q : List α → α → Prop} : ¬ SomeStep Q ([] : List α) := by
  rw [someStep_iff, not_not]
  exact eachStep_nil

theorem someStep_snoc {Q : List α → α → Prop} {l : List α} {a : α} :
    SomeStep Q (l ++ [a]) ↔ SomeStep Q l ∨ Q l a := by
  rw [someStep_iff, someStep_iff, eachStep_snoc]
  tauto

/-- An invariant that the steps keeping the rule preserve holds along every run that keeps the
rule. -/
theorem always_of_eachStep {I : List α → Prop} {Safe : List α → α → Prop} (h0 : I [])
    (hsafe : ∀ pre a, I pre → Safe pre a → I (pre ++ [a])) {l : List α}
    (h : EachStep Safe l) : Always I l := by
  induction l using List.reverseRecOn with
  | nil => exact always_nil.mpr h0
  | append_singleton l a ih =>
    obtain ⟨hl, ha⟩ := eachStep_snoc.mp h
    exact always_snoc.mpr ⟨ih hl, hsafe l a (ih hl l (List.prefix_refl _)) ha⟩

/-- A run along which the property holds keeps the rule, given an invariant from which every step
with the property keeps both the rule and the invariant. -/
theorem eachStep_of_always {I P : List α → Prop} {Safe : List α → α → Prop} (h0 : I [])
    (hstep : ∀ pre a, I pre → P (pre ++ [a]) → Safe pre a ∧ I (pre ++ [a])) {l : List α}
    (h : Always P l) : EachStep Safe l := by
  suffices EachStep Safe l ∧ I l from this.1
  induction l using List.reverseRecOn with
  | nil => exact ⟨eachStep_nil, h0⟩
  | append_singleton l a ih =>
    obtain ⟨hl, ha⟩ := always_snoc.mp h
    obtain ⟨hsafe, hinv⟩ := ih hl
    obtain ⟨hsafe', hinv'⟩ := hstep l a hinv ha
    exact ⟨eachStep_snoc.mpr ⟨hsafe, hsafe'⟩, hinv'⟩

/-- The rule and the property agree along every run, given an invariant `I` that the steps keeping
the rule preserve, that implies the property, and from which a step breaking the rule leads to a
history without the property. -/
theorem always_iff_eachStep {I P : List α → Prop} {Safe : List α → α → Prop}
    (h0 : I []) (hsafe : ∀ pre a, I pre → Safe pre a → I (pre ++ [a]))
    (hP : ∀ pre, I pre → P pre)
    (hbad : ∀ pre a, I pre → ¬ Safe pre a → ¬ P (pre ++ [a])) (l : List α) :
    Always P l ↔ EachStep Safe l := by
  constructor
  · refine eachStep_of_always h0 fun pre a hinv ha => ?_
    have hs : Safe pre a := by
      by_contra hs
      exact hbad pre a hinv hs ha
    exact ⟨hs, hsafe pre a hinv hs⟩
  · intro h p hp
    exact hP p (always_of_eachStep h0 hsafe h p hp)

/-! ## Runs that an error may end -/

section Stop

variable {σ ε : Type} {f : σ → α → Except ε σ} {s s' : σ} {l : List α} {a : α}

theorem foldlM_snoc : (l ++ [a]).foldlM f s = (l.foldlM f s).bind (f · a) := by
  rw [List.foldlM_append]
  show (l.foldlM f s).bind _ = _
  congr 1
  funext s₁
  rw [List.foldlM_cons]
  cases f s₁ a <;> rfl

theorem foldlM_cons_ok (h : (a :: l).foldlM f s = .ok s') :
    ∃ s₁, f s a = .ok s₁ ∧ l.foldlM f s₁ = .ok s' := by
  rw [List.foldlM_cons] at h
  cases ha : f s a with
  | error e =>
    rw [ha] at h
    exact absurd h (by simp [bind, Except.bind])
  | ok s₁ =>
    rw [ha] at h
    exact ⟨s₁, rfl, h⟩

theorem foldlM_snoc_ok (h : (l ++ [a]).foldlM f s = .ok s') :
    ∃ s₁, l.foldlM f s = .ok s₁ ∧ f s₁ a = .ok s' := by
  rw [foldlM_snoc] at h
  cases hl : l.foldlM f s with
  | error e =>
    rw [hl] at h
    exact absurd h (by simp [Except.bind])
  | ok s₁ =>
    rw [hl] at h
    exact ⟨s₁, rfl, h⟩

/-- Loops with the same rounds. -/
theorem foldlM_congr {g : σ → α → Except ε σ} (h : ∀ s, ∀ a ∈ l, f s a = g s a) :
    l.foldlM f s = l.foldlM g s := by
  induction l generalizing s with
  | nil => rfl
  | cons a l ih =>
    rw [List.foldlM_cons, List.foldlM_cons, h s a List.mem_cons_self]
    congr 1
    funext s₁
    exact ih fun s b hb => h s b (List.mem_cons_of_mem a hb)

/-- What a loop keeps if each of its rounds does. -/
theorem foldlM_invariant {P : σ → Prop} (hf : ∀ s, ∀ a ∈ l, ∀ s', P s → f s a = .ok s' → P s')
    (hs : P s) (h : l.foldlM f s = .ok s') : P s' := by
  induction l using List.reverseRecOn generalizing s' with
  | nil =>
    rw [← Except.ok.inj h]
    exact hs
  | append_singleton l a ih =>
    obtain ⟨s₁, hl, ha⟩ := foldlM_snoc_ok h
    have hs₁ := ih (fun s b hb => hf s b (List.mem_append_left _ hb)) hl
    exact hf s₁ a (by simp) s' hs₁ ha

/-- A loop with a round that does not come to an end does not come to an end. -/
theorem foldlM_ne_ok {P : σ → Prop} (hf : ∀ s a s', P s → f s a = .ok s' → P s') (hs : P s)
    (ha : ∀ s s', P s → f s a ≠ .ok s') (hmem : a ∈ l) : l.foldlM f s ≠ .ok s' := by
  induction l using List.reverseRecOn generalizing s' with
  | nil => cases hmem
  | append_singleton l b ih =>
    intro h
    obtain ⟨s₁, hl, hb⟩ := foldlM_snoc_ok h
    rcases List.mem_append.mp hmem with hmem | hmem
    · exact ih hmem hl
    · rw [← List.mem_singleton.mp hmem] at hb
      exact ha s₁ s' (foldlM_invariant (fun s a _ => hf s a) hs hl) hb

end Stop

end Trace
