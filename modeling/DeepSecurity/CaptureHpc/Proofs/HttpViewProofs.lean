import DeepSecurity.CaptureHpc.Proofs.HttpSafetyProofs

/-!
# What the parser has reported and what it holds back

A part of a message is marked where it begins and handed over when it ends or when the data do. With
callbacks that write down what they get, what has been reported and what is held back together are what
the reader reports.
-/

namespace CaptureHpc

namespace HttpParser

open Pieces

variable {q q' : Parser} {data : Bytes} {ch : UInt8} {c : Option Part}

/-! ## What has been marked -/

/-- The bytes from `m` up to `p`. -/
def slice (data : Bytes) (m p : ℕ) : Bytes := (data.drop m).take (p - m)

theorem slice_self (data : Bytes) (p : ℕ) : slice data p p = [] := by simp [slice]

theorem slice_append {m p p' : ℕ} (hm : m ≤ p) (hp : p ≤ p') :
    slice data m p ++ slice data p p' = slice data m p' := by
  obtain ⟨i, rfl⟩ := Nat.exists_eq_add_of_le hm
  obtain ⟨j, rfl⟩ := Nat.exists_eq_add_of_le hp
  have hi : m + i + j - m = i + j := by omega
  simp only [slice, Nat.add_sub_cancel_left, hi, List.take_add, List.drop_drop]

theorem slice_succ {m p : ℕ} (hm : m ≤ p) (hc : data[p]? = some ch) :
    slice data m (p + 1) = slice data m p ++ [ch] := by
  rw [← slice_append hm (Nat.le_add_right p 1)]
  obtain ⟨hp, rfl⟩ := List.getElem?_eq_some_iff.1 hc
  rw [slice, slice, Nat.add_sub_cancel_left, List.drop_eq_getElem_cons hp]
  rfl

theorem length_slice {m p : ℕ} (hp : p ≤ data.length) : (slice data m p).length = p - m := by
  simp only [slice, List.length_take, List.length_drop]
  omega

theorem slice_append_drop {p p' : ℕ} (hp : p ≤ p') :
    slice data p p' ++ data.drop p' = data.drop p := by
  obtain ⟨i, rfl⟩ := Nat.exists_eq_add_of_le hp
  rw [slice, Nat.add_sub_cancel_left, ← List.drop_drop, List.take_append_drop]

/-- Just the part `c` is marked, at a place that has been passed. -/
inductive Exact {σ : Type} (f : Frame σ) : Option Part → Prop where
  | unmarked (h : ∀ k, f.marks k = none) : Exact f none
  | marked {k : Part} {m : ℕ} (hk : f.marks k = some m) (hm : m ≤ f.p)
      (h : ∀ j, j ≠ k → f.marks j = none) : Exact f (some k)

theorem Exact.marksOk {σ : Type} {f : Frame σ} (h : Exact f c) : MarksOk c f := by
  intro j m hj
  cases h with
  | unmarked h =>
    rw [h j] at hj
    cases hj
  | @marked k m' hk hm h =>
    by_cases hjk : j = k
    · subst hjk
      rw [hk] at hj
      cases hj
      exact ⟨rfl, hm⟩
    · rw [h j hjk] at hj
      cases hj

/-! ## What has been reported -/

/-- The bytes of a part that have not been handed over yet. -/
def Frame.held (data : Bytes) (f : Frame (List Report)) (k : Part) : List Report :=
  match f.marks k with
  | none => []
  | some m => [.piece k (slice data m f.p)]

/-- What has been reported, with what is held back. -/
def Frame.view (data : Bytes) (f : Frame (List Report)) : List Report :=
  f.app ++ (f.held data .headerField ++ f.held data .headerValue ++ f.held data .url ++ f.held data .body)

variable {f : Frame (List Report)}

theorem view_none (h : ∀ k, f.marks k = none) : f.view data = f.app := by
  simp [Frame.view, Frame.held, h]

theorem view_some {k : Part} {m : ℕ} (hk : f.marks k = some m) (h : ∀ j, j ≠ k → f.marks j = none) :
    f.view data = f.app ++ [.piece k (slice data m f.p)] := by
  cases k <;> simp [Frame.view, Frame.held, hk, h]

theorem Exact.endsIn {k : Part} (h : Exact f (some k)) : EndsIn k (f.view data) := by
  cases h with
  | marked hk _ h => exact ⟨_, _, view_some hk h⟩

/-! ## Actions -/

theorem callbackNotify_recorder (he : f.parser.errno = .ok) (note : Note) (k : ℕ) :
    callbackNotify recorder note k f = .cont { f with app := f.app ++ [.note (note.notice f.parser)] } := by
  cases note <;>
    simp [callbackNotify, he, Settings.onNote, recorder, Parser.answered, Note.notice]

theorem callbackHeadersComplete_recorder (he : f.parser.errno = .ok) :
    callbackHeadersComplete recorder f =
      .cont { f with app := f.app ++ [.note (Note.headersComplete.notice f.parser)] } := by
  simp [callbackHeadersComplete, he, recorder, Note.notice]

theorem callbackData_unmarked {σ : Type} {s : Settings σ} {f : Frame σ} (he : f.parser.errno = .ok)
    {k : Part} (hk : f.marks k = none) (extra consumed : ℕ) :
    callbackData s data k extra consumed f = .cont f := by
  simp [callbackData, he, hk]

theorem callbackData_recorder (data : Bytes) (extra : ℕ) (he : f.parser.errno = .ok) {k : Part} {m : ℕ}
    (hk : f.marks k = some m) (hm : m ≤ f.p) (hp : f.p + extra ≤ data.length)
    (consumed : ℕ) :
    callbackData recorder data k extra consumed f =
      .cont
        { f with
          app := f.app ++ [.piece k (slice data m (f.p + extra))]
          marks := fun j => if j = k then none else f.marks j } := by
  have hs : f.p - m + extra = f.p + extra - m := by omega
  unfold callbackData
  rw [if_neg (by simp [he]), hk]
  dsimp only
  rw [if_neg (by omega), hs]
  cases k <;> simp [Settings.onData, recorder, Parser.answered, he, slice]

/-- A mark opens a part, or does nothing in a part that is open. -/
theorem mark_view (data : Bytes) {k : Part} (h : Exact f c) (hc : c = none ∨ c = some k) :
    Exact (f.mark k) (some k) ∧
      merge ((f.mark k).view data) = merge (f.view data ++ [.piece k []]) := by
  have hother : ∀ j, j ≠ k → f.marks j = none := by
    intro j hj
    cases h with
    | unmarked h => exact h j
    | marked _ _ h =>
      obtain hc | hc := hc
      · cases hc
      · cases hc
        exact h j hj
  have hmarks : ∀ j, j ≠ k → (f.mark k).marks j = none := by
    intro j hj
    simp [Frame.mark, hj, hother j hj]
  cases h with
  | unmarked h =>
    have hk : (f.mark k).marks k = some f.p := by simp [Frame.mark, h k]
    refine ⟨.marked hk le_rfl hmarks, ?_⟩
    rw [view_some hk hmarks, view_none h]
    exact congrArg (fun l => merge (f.app ++ [.piece k l])) (slice_self data f.p)
  | @marked j m hj hm h =>
    obtain rfl : j = k := by
      obtain hc | hc := hc
      · cases hc
      · cases hc
        rfl
    have hk : (f.mark j).marks j = some m := by simp [Frame.mark, hj]
    refine ⟨.marked hk hm hmarks, ?_⟩
    have hends : EndsIn j (f.view data) := ⟨_, _, view_some hj h⟩
    rw [hends.merge_append_nil, view_some hk hmarks, view_some hj h]
    rfl

/-- A part is handed over: what has been reported is what has been held back before. -/
theorem callbackData_view {k : Part} (h : Exact f c) (he : f.parser.errno = .ok)
    (hp : f.p ≤ data.length) (consumed : ℕ) :
    ∃ f', callbackData recorder data k 0 consumed f = .cont f' ∧ f'.parser = f.parser ∧ f'.p = f.p ∧
      Exact f' (if c = some k then none else c) ∧ f'.view data = f.view data := by
  cases h with
  | unmarked h => exact ⟨f, callbackData_unmarked he (h k) 0 consumed, rfl, rfl, .unmarked h, rfl⟩
  | @marked j m hj hm h =>
    by_cases hjk : j = k
    · subst hjk
      have hcleared : ∀ i, (if i = j then none else f.marks i) = none := by
        intro i
        split_ifs with hi
        · rfl
        · exact h i hi
      refine ⟨_, callbackData_recorder data _ he hj hm hp consumed, rfl, rfl, ?_, ?_⟩
      · rw [if_pos rfl]
        exact .unmarked hcleared
      · rw [view_none hcleared, view_some hj h]
        rfl
    · refine ⟨f, callbackData_unmarked he (h k (Ne.symm hjk)) 0 consumed, rfl, rfl, ?_, rfl⟩
      rw [if_neg (by simpa using hjk)]
      exact .marked hj hm h

/-- An action about the current byte and those before it. -/
theorem act_view (ch : UInt8) {a : Action} {as : List Action} (h : Exact f c) (he : f.parser.errno = .ok)
    (hp : f.p ≤ data.length) (hm : Marking (a :: as) c) (ha : a.Plain) :
    ∃ c' f', track (a :: as) c = track as c' ∧ Marking as c' ∧ act recorder data a f = .cont f' ∧
      f'.parser = f.parser ∧ f'.p = f.p ∧ Exact f' c' ∧
        merge (f'.view data) = merge (f.view data ++ a.reports f.parser ch) := by
  cases a with
  | mark k =>
    obtain ⟨hx, hv⟩ := mark_view data h hm.1
    exact ⟨some k, f.mark k, rfl, hm.2, rfl, rfl, rfl, hx, hv⟩
  | skip n => exact ha.elim
  | notify note k =>
    obtain ⟨rfl, hm⟩ := hm
    cases h with
    | unmarked h =>
      refine ⟨none, _, rfl, hm, callbackNotify_recorder he note k, rfl, rfl, .unmarked h, ?_⟩
      rw [view_none (f := f) h]
      exact congrArg merge (view_none h)
  | headersComplete =>
    obtain ⟨rfl, hm⟩ := hm
    cases h with
    | unmarked h =>
      refine ⟨none, _, rfl, hm, callbackHeadersComplete_recorder he, rfl, rfl, .unmarked h, ?_⟩
      rw [view_none (f := f) h]
      exact congrArg merge (view_none h)
  | data k extra consumed =>
    obtain rfl : extra = 0 := ha
    obtain ⟨f', hf', hq, hp', hx, hv⟩ := callbackData_view h he hp consumed
    refine ⟨_, f', rfl, hm, hf', hq, hp', hx, ?_⟩
    rw [hv]
    exact congrArg merge (List.append_nil _).symm

theorem perform_view (data : Bytes) (ch : UInt8) {as : List Action} (h : Exact f c) (he : f.parser.errno = .ok)
    (hp : f.p ≤ data.length) (hm : Marking as c) (ha : ∀ a ∈ as, a.Plain) :
    ∃ f', perform recorder data as f = .cont f' ∧ f'.parser = f.parser ∧ f'.p = f.p ∧
      Exact f' (track as c) ∧
        merge (f'.view data) = merge (f.view data ++ as.flatMap (Action.reports f.parser ch)) := by
  induction as generalizing f c with
  | nil => exact ⟨f, rfl, rfl, rfl, h, by rw [List.flatMap_nil, List.append_nil]⟩
  | cons a as ih =>
    obtain ⟨c', f₁, htrack, hm', hact, hq₁, hp₁, hx₁, hv₁⟩ :=
      act_view ch h he hp hm (ha a List.mem_cons_self)
    obtain ⟨f₂, hrest, hq₂, hp₂, hx₂, hv₂⟩ :=
      ih hx₁ (hq₁ ▸ he) (hp₁ ▸ hp) hm' fun a h => ha a (List.mem_cons_of_mem _ h)
    refine ⟨f₂, ?_, hq₂.trans hq₁, hp₂.trans hp₁, htrack ▸ hx₂, ?_⟩
    · rw [perform, hact]
      exact hrest
    · rw [hv₂, hq₁, List.flatMap_cons, ← List.append_assoc]
      exact merge_append_congr hv₁ rfl

end HttpParser

end CaptureHpc
