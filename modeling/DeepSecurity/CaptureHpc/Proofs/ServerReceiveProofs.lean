import DeepSecurity.CaptureHpc.ServerReceive

/-!
# Proofs: the framing of the messages of the server

A chunk of one or two bytes takes away the beginning of the document that is being collected, and its
own bytes. This is seen as soon as a document ends in it or after it: there is one document less, or
the next one is too short.
-/

namespace CaptureHpc.ServerReceive

variable {doc lost l : Bytes} {chunks : List Chunk}

theorem collect_cons {c : UInt8} (hc : c ≠ 0) : collect doc (c :: l) = collect (doc ++ [c]) l := by
  simp [collect, hc]

theorem collect_zero :
    collect doc (0 :: l) = (doc :: (collect [] l).1, (collect [] l).2) := by
  simp [collect]

/-- Without a null byte, nothing is passed on. -/
theorem collect_of_not_mem (h : 0 ∉ l) : collect doc l = ([], doc ++ l) := by
  induction l generalizing doc with
  | nil => simp [collect]
  | cons c l ih =>
    have hc : c ≠ 0 := fun heq => h (by simp [heq])
    rw [collect_cons hc, ih fun hmem => h (List.mem_cons_of_mem _ hmem), List.append_assoc]
    rfl

/-- The first document begins with what was collected before. -/
theorem collect_of_mem (h : 0 ∈ l) :
    ∃ pre rest, ∀ doc, (collect doc l).1 = (doc ++ pre) :: rest := by
  induction l with
  | nil => cases h
  | cons c l ih =>
    by_cases hc : c = 0
    · subst hc
      exact ⟨[], (collect [] l).1, fun doc => by rw [collect_zero, List.append_nil]⟩
    · have hmem : 0 ∈ l := (List.mem_cons.mp h).resolve_left fun heq => hc heq.symm
      obtain ⟨pre, rest, hcollect⟩ := ih hmem
      refine ⟨c :: pre, rest, fun doc => ?_⟩
      rw [collect_cons hc, hcollect, List.append_assoc]
      rfl

theorem length_collect : (collect doc l).1.length = l.count 0 := by
  induction l generalizing doc with
  | nil => rfl
  | cons c l ih =>
    by_cases hc : c = 0
    · subst hc
      rw [collect_zero, List.length_cons, ih, List.count_cons_self]
    · rw [collect_cons hc, ih, List.count_cons_of_ne hc]

theorem collect_append {l' : Bytes} :
    (collect doc (l ++ l')).1 = (collect doc l).1 ++ (collect (collect doc l).2 l').1 := by
  induction l generalizing doc with
  | nil => rfl
  | cons c l ih =>
    by_cases hc : c = 0
    · subst hc
      rw [List.cons_append, collect_zero, collect_zero, ih]
      rfl
    · rw [List.cons_append, collect_cons hc, collect_cons hc, ih]

/-- In one go, the loop finds the pieces of the stream. -/
theorem splitOn_append (h : 0 ∉ doc) :
    (doc ++ l).splitOn 0 = (collect doc l).1 ++ [(collect doc l).2] := by
  induction l generalizing doc with
  | nil =>
    rw [List.append_nil]
    refine List.splitOnP_eq_singleton fun x hx => ?_
    simpa using fun heq : x = 0 => h (heq ▸ hx)
  | cons c l ih =>
    by_cases hc : c = 0
    · subst hc
      have hfirst : (doc ++ 0 :: l).splitOn 0 = doc :: l.splitOn 0 := by
        refine List.splitOnP_append_cons_of_forall_mem (fun x hx => ?_) 0 rfl l
        simpa using fun heq : x = 0 => h (heq ▸ hx)
      rw [hfirst, collect_zero]
      exact congrArg (doc :: ·) (ih List.not_mem_nil)
    · rw [collect_cons hc, ← ih (by simp [h, Ne.symm hc]), List.append_assoc]
      rfl

theorem documents_eq_collect (l : Bytes) : documents l = (collect [] l).1 := by
  rw [documents, ← List.nil_append l, splitOn_append List.not_mem_nil, List.dropLast_concat,
    List.nil_append]

/-! ## Chunks -/

theorem stream_cons {c : Chunk} : stream (c :: chunks) = c.1 ++ stream chunks := List.flatMap_cons

theorem length_run_le (doc : Bytes) (chunks : List Chunk) :
    (run doc chunks).length ≤ (stream chunks).count 0 := by
  induction chunks generalizing doc with
  | nil => exact Nat.le_refl 0
  | cons c chunks ih =>
    rw [stream_cons, List.count_append]
    unfold run
    split_ifs
    · rw [List.length_append, length_collect]
      exact Nat.add_le_add_left (ih _) _
    · exact Nat.le_add_left_of_le (ih _)

theorem run_of_not_mem (h : 0 ∉ stream chunks) : run doc chunks = [] := by
  have hle := length_run_le doc chunks
  rw [List.count_eq_zero_of_not_mem h] at hle
  exact List.length_eq_zero_iff.mp (Nat.le_zero.mp hle)

theorem noShortChunk_of_not_mem (h : 0 ∉ stream chunks) : NoShortChunk chunks := by
  induction chunks with
  | nil => trivial
  | cons c chunks ih =>
    rw [stream_cons] at h
    exact ⟨fun _ => h, ih fun hmem => h (List.mem_append_right _ hmem)⟩

/-- After something has been lost, the documents agree only if there are no more. -/
theorem run_lost (hlost : doc.length < lost.length) :
    run doc chunks = (collect lost (stream chunks)).1 ↔ 0 ∉ stream chunks := by
  constructor
  · intro heq hmem
    induction chunks generalizing doc lost with
    | nil => cases hmem
    | cons c chunks ih =>
      rw [stream_cons] at heq hmem
      unfold run at heq
      split_ifs at heq with hlong
      · rw [collect_append] at heq
        by_cases hc : 0 ∈ c.1
        · -- The first document is too short.
          obtain ⟨pre, rest, hcollect⟩ := collect_of_mem hc
          rw [hcollect, hcollect, List.cons_append, List.cons_append] at heq
          have hfirst := congrArg List.length (List.cons.inj heq).1
          simp at hfirst
          omega
        · rw [collect_of_not_mem hc, collect_of_not_mem hc] at heq
          have hlater := (List.mem_append.mp hmem).resolve_left hc
          exact ih (by simpa using hlost) heq hlater
      · by_cases hc : 0 ∈ c.1
        · -- There is at least one document less.
          have hlength := congrArg List.length heq
          rw [length_collect, List.count_append] at hlength
          have hle := length_run_le [] chunks
          have hpos := List.count_pos_iff.mpr hc
          omega
        · rw [collect_append, collect_of_not_mem hc] at heq
          have hlater := (List.mem_append.mp hmem).resolve_left hc
          refine ih ?_ heq hlater
          rw [List.length_append]
          exact Nat.add_pos_left (Nat.zero_lt_of_lt hlost) _
  · intro h
    rw [run_of_not_mem h, collect_of_not_mem h]

theorem run_eq_iff (doc : Bytes) (chunks : List Chunk) :
    run doc chunks = (collect doc (stream chunks)).1 ↔ NoShortChunk chunks := by
  induction chunks generalizing doc with
  | nil => exact iff_of_true rfl trivial
  | cons c chunks ih =>
    rw [stream_cons, collect_append]
    unfold run NoShortChunk
    by_cases hlong : c.1.length > 2
    · rw [if_pos hlong, List.append_cancel_left_eq, ih]
      exact (and_iff_right fun hshort => absurd hshort (by omega)).symm
    · have hshort : c.1.length ≤ 2 := by omega
      have hpos := List.length_pos_iff.mpr c.2.1
      rw [if_neg hlong]
      by_cases hc : 0 ∈ c.1
      · refine iff_of_false ?_ fun h => h.1 hshort (List.mem_append_left _ hc)
        intro heq
        have hlength := congrArg List.length heq
        rw [List.length_append, length_collect, length_collect] at hlength
        have hle := length_run_le [] chunks
        have hcount := List.count_pos_iff.mpr hc
        omega
      · rw [collect_of_not_mem hc, List.nil_append, run_lost (by simp; omega)]
        constructor
        · intro h
          exact ⟨fun _ hmem => (List.mem_append.mp hmem).elim hc h, noShortChunk_of_not_mem h⟩
        · intro h hmem
          exact h.1 hshort (List.mem_append_right _ hmem)

/-- The documents are those of the stream if and only if no null byte comes in or after a short chunk. -/
theorem run_eq_documents_iff (chunks : List Chunk) :
    run [] chunks = documents (stream chunks) ↔ NoShortChunk chunks := by
  rw [documents_eq_collect]
  exact run_eq_iff [] chunks

/-- The document `abcd` comes in as `abc` and `d` with its null byte, and is lost. -/
theorem run_ne_documents_short :
    run [] [⟨[97, 98, 99], by decide⟩, ⟨[100, 0], by decide⟩] ≠
      documents (stream [⟨[97, 98, 99], by decide⟩, ⟨[100, 0], by decide⟩]) := by
  decide

end CaptureHpc.ServerReceive
