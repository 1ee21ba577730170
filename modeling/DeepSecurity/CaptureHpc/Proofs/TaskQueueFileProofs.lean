import DeepSecurity.CaptureHpc.TaskQueueFile
import DeepSecurity.Lib.Trace

/-!
# Proofs: loading the saved tasks

A task with arguments is not loaded without an access beyond the end of the vector, and no character is
loaded that a text file does not keep. Tasks without arguments, of characters that are kept, are.
-/

namespace CaptureHpc

open TextFile

variable {t : Task} {args : List (List UInt16)} {deque deque' : List Task} {line : List UInt16}

/-! ## Arguments -/

theorem Task.setArgs_ne_ok (args : List (List UInt16)) (t t' : Task) : t.setArgs args ≠ .ok t' := by
  intro h
  rw [setArgs, List.range_succ] at h
  obtain ⟨t₁, -, hlast⟩ := Trace.foldlM_snoc_ok h
  rw [Checked.get_of_le (le_refl _)] at hlast
  cases hlast

namespace TaskQueue

/-! ## What is loaded -/

/-- A line that is loaded has no tab. -/
theorem loadLine_ok (h : loadLine deque line = .ok deque') :
    deque' = deque ∨ ∃ image, line.splitOn tab = [image] ∧ deque' = deque ++ [⟨image, []⟩] := by
  unfold loadLine at h
  split_ifs at h with hline
  · obtain ⟨image, himage, h⟩ := Checked.bind_eq_ok.mp h
    right
    rcases hsplit : line.splitOn tab with _ | ⟨first, _ | ⟨arg, args⟩⟩
    · exact absurd hsplit (List.splitOn_ne_nil _ _)
    · rw [hsplit] at h himage
      have hfirst : first = image := Except.ok.inj himage
      refine ⟨image, by rw [hfirst], (Except.ok.inj h).symm⟩
    · -- there are arguments to be set
      rw [hsplit] at h
      obtain ⟨task, htask, -⟩ := Checked.bind_eq_ok.mp h
      exact absurd htask (Task.setArgs_ne_ok _ _ _)
  · exact .inl (Except.ok.inj h).symm

/-- The step: the line adds at most one task, and that is loadable. -/
theorem loadable_of_loadLine (hline : ∀ c ∈ line, Kept c) (hdeque : ∀ t ∈ deque, t.Loadable)
    (h : loadLine deque line = .ok deque') : ∀ t ∈ deque', t.Loadable := by
  rcases loadLine_ok h with rfl | ⟨image, hsplit, rfl⟩
  · exact hdeque
  · intro t ht
    rcases List.mem_append.mp ht with ht | ht
    · exact hdeque t ht
    · rw [List.mem_singleton.mp ht]
      refine ⟨rfl, fun c hc => hline c ?_⟩
      exact mem_of_mem_splitOn (hsplit ▸ List.mem_singleton_self image) hc

/-- The run: whatever is loaded from a file that has been written is loadable. -/
theorem loadable_of_loadTasks {text : List UInt16} (hdeque : ∀ t ∈ deque, t.Loadable)
    (h : loadTasks deque (write text) = .ok deque') : ∀ t ∈ deque', t.Loadable := by
  refine Trace.foldlM_invariant (P := fun d => ∀ t ∈ d, t.Loadable) ?_ hdeque h
  intro d line hline d' hd hload
  refine loadable_of_loadLine (fun c hc => ?_) hd hload
  rw [read_write] at hline
  have hmem : c ∈ text.takeWhile (Kept ·) := mem_of_mem_splitOn hline hc
  simpa using List.mem_takeWhile_imp hmem

/-! ## Tasks that are loadable -/

theorem loadLine_image (hne : line ≠ []) (htab : tab ∉ line) :
    loadLine deque line = .ok (deque ++ [⟨line, []⟩]) := by
  rw [loadLine, if_pos (List.length_pos_of_ne_nil hne), List.splitOn_eq_singleton htab]
  rfl

theorem foldlM_loadLine {tasks : List Task} (hstore : ∀ t ∈ tasks, t.Storable)
    (hload : ∀ t ∈ tasks, t.Loadable) (deque : List Task) :
    (tasks.map Task.processImage).foldlM loadLine deque = .ok (deque ++ tasks) := by
  induction tasks generalizing deque with
  | nil => simp [pure, Except.pure]
  | cons t tasks ih =>
    obtain ⟨hst, hsts⟩ := List.forall_mem_cons.mp hstore
    obtain ⟨hlt, hlts⟩ := List.forall_mem_cons.mp hload
    have ht : (⟨t.processImage, []⟩ : Task) = t := by
      rw [← hlt.1]
    rw [List.map_cons, List.foldlM_cons, loadLine_image hst.image_ne hst.image_no_tab, ht]
    exact (ih hsts hlts (deque ++ [t])).trans (by simp)

/-- The saved tasks are loaded again exactly if none of them has arguments and their names have only
characters that a text file keeps. -/
theorem loadTasks_saveTasks_iff (hstore : ∀ t ∈ deque, t.Storable) :
    loadTasks [] (saveTasks deque) = .ok deque ↔ ∀ t ∈ deque, t.Loadable := by
  constructor
  · exact loadable_of_loadTasks (by simp)
  · intro hload
    have hline : ∀ t ∈ deque, t.line = t.processImage := fun t ht => by
      simp [Task.line, (hload t ht).1]
    have htext : (deque.flatMap fun t => t.line ++ [lineFeed]) =
        (deque.map Task.processImage).flatMap (· ++ [lineFeed]) := by
      rw [List.flatMap_map]
      exact List.flatMap_congr fun t ht => by rw [hline t ht]
    have hkept : ∀ c ∈ (deque.map Task.processImage).flatMap (· ++ [lineFeed]),
        decide (Kept c) = true := by
      intro c hc
      obtain ⟨l, hl, hc⟩ := List.mem_flatMap.mp hc
      obtain ⟨t, ht, rfl⟩ := List.mem_map.mp hl
      rcases List.mem_append.mp hc with hc | hc
      · exact decide_eq_true ((hload t ht).2 c hc)
      · rw [List.mem_singleton.mp hc]
        rfl
    have hlines : ∀ l ∈ deque.map Task.processImage, lineFeed ∉ l := by
      intro l hl
      obtain ⟨t, ht, rfl⟩ := List.mem_map.mp hl
      exact (hstore t ht).image_no_line
    rw [loadTasks, saveTasks, htext, read_write, List.takeWhile_eq_self_iff.mpr hkept,
      lines_flatMap hlines, List.foldlM_append, foldlM_loadLine hstore hload]
    rfl

/-- Two tasks without arguments, `a` and `b`. -/
theorem loadTasks_saveTasks_two :
    loadTasks [] (saveTasks [⟨[0x61], []⟩, ⟨[0x62], []⟩]) = .ok [⟨[0x61], []⟩, ⟨[0x62], []⟩] := by
  refine (loadTasks_saveTasks_iff ?_).mpr (by decide)
  rw [List.forall_mem_cons, List.forall_mem_singleton]
  exact ⟨⟨by decide, by decide, by decide, by decide, by decide⟩,
    ⟨by decide, by decide, by decide, by decide, by decide⟩⟩

/-- The task `a` with the argument `b` is not loaded. -/
theorem loadTasks_saveTasks_argument :
    Task.Storable ⟨[0x61], [[0x62]]⟩ ∧
      loadTasks [] (saveTasks [⟨[0x61], [[0x62]]⟩]) = Checked.fault :=
  ⟨⟨by decide, by decide, by decide, by decide, by decide⟩, rfl⟩

end TaskQueue

end CaptureHpc
