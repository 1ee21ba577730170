import DeepSecurity.Netmonitor.Logfile

/-!
# Which details are those on the wire

The field of a transaction is always the text of what has been seen of it, with the headers as the loops
have visited them (`currentHeader_run`). The tables have equal lengths in both orders, so that the text
of a transaction is right only if each of its tables is.
-/

namespace Netmonitor

/-! ## Texts -/

/-- Texts of pieces with equal lengths are equal if all pieces are, and not otherwise. -/
theorem flatMap_eq_flatMap_iff {α : Type} {l : List α} {f g : α → Str}
    (h : ∀ a ∈ l, (f a).length = (g a).length) : l.flatMap f = l.flatMap g ↔ ∀ a ∈ l, f a = g a := by
  induction l with
  | nil => simp
  | cons a l ih =>
    have ih := ih fun b hb => h b (List.mem_cons_of_mem a hb)
    rw [List.flatMap_cons, List.flatMap_cons, List.forall_mem_cons, ← ih]
    constructor
    · intro heq
      exact List.append_inj heq (h a List.mem_cons_self)
    · rintro ⟨ha, hl⟩
      rw [ha, hl]

theorem length_tableText (h : HeaderList) :
    (tableText HeaderList.visited h).length = (tableText HeaderList.byIndex h).length := by
  rw [tableText, tableText, List.length_append, List.length_append,
    (h.perm.flatMap_right headerLine).length_eq]

theorem loop_eq (hlist : HeaderList) (text : Str) :
    State.loop hlist text = text ++ tableText HeaderList.visited hlist := by
  have hfold (l : List Header) (text : Str) :
      l.foldl (fun text h => text ++ headerLine h) text = text ++ l.flatMap headerLine := by
    induction l generalizing text with
    | nil => simp
    | cons h l ih => simp [ih]
  rw [State.loop, hfold, List.append_assoc, tableText]

/-- The text of a transaction is right exactly if its tables have been visited in order. -/
theorem text_eq_iff (cnid : Str) (t : Transaction) :
    t.text HeaderList.visited cnid = t.text HeaderList.byIndex cnid ↔ t.InOrder := by
  have htables (l : List HeaderList) :
      l.flatMap (tableText HeaderList.visited) = l.flatMap (tableText HeaderList.byIndex) ↔
        ∀ h ∈ l, h.visited.flatMap headerLine = h.byIndex.flatMap headerLine := by
    rw [flatMap_eq_flatMap_iff fun h _ => length_tableText h]
    simp only [tableText, List.append_left_inj]
  have hlength :
      (cnid ++ (t.request ++ t.requestHeaders.flatMap (tableText HeaderList.visited))).length =
      (cnid ++ (t.request ++ t.requestHeaders.flatMap (tableText HeaderList.byIndex))).length := by
    simp only [List.length_append, List.length_flatMap, length_tableText]
  rw [Transaction.text, Transaction.text, Transaction.InOrder, List.forall_mem_append, ← htables,
    ← htables]
  constructor
  · intro heq
    obtain ⟨hrequest, hresponse⟩ := List.append_inj heq hlength
    exact ⟨List.append_cancel_left (List.append_cancel_left hrequest),
      List.append_cancel_left hresponse⟩
  · rintro ⟨hrequest, hresponse⟩
    rw [hrequest, hresponse]

/-! ## The field -/

theorem seen_snoc (events : List Event) (e : Event) :
    seen (events ++ [e]) = observe (seen events) e := by
  rw [seen, List.foldl_append]
  rfl

theorem run_snoc (cnid : Str) (events : List Event) (e : Event) :
    State.run cnid (events ++ [e]) = (State.run cnid events).step cnid e := by
  rw [State.run, List.foldl_append]
  rfl

/-- The field of a transaction of which so much has been seen. -/
def Transaction.head (cnid : Str) (t : Transaction) : HttpHead :=
  ⟨cnid, t.request ++ t.requestHeaders.flatMap (tableText HeaderList.visited),
    t.status ++ t.responseHeaders.flatMap (tableText HeaderList.visited)⟩

/-- A file does not change the field. -/
theorem currentHeader_fileOverNewConnection (s : State) (file : ℕ) (mimeType : Option Str)
    (http : Option ℕ) :
    (s.fileOverNewConnection file mimeType http).currentHeader = s.currentHeader := by
  unfold State.fileOverNewConnection
  split_ifs
  · rfl
  · split
    · rfl
    · split <;> rfl

/-- A change of the field goes with a change of what has been seen. -/
theorem currentHeader_modify {s : State} {seen : ℕ → Option Transaction} {cnid : Str}
    (hs : ∀ n, s.currentHeader n = (seen n).map (Transaction.head cnid)) {change : HttpHead → HttpHead}
    {change' : Transaction → Transaction} (h : ∀ t, change (t.head cnid) = (change' t).head cnid)
    (transaction n : ℕ) :
    (s.modify transaction change).currentHeader n = Option.map (Transaction.head cnid)
      (Function.update seen transaction ((seen transaction).map change') n) := by
  simp only [State.modify]
  by_cases hn : n = transaction
  · subst hn
    rw [Function.update_self, Function.update_self, hs, Option.map_map, Option.map_map]
    exact congrArg (Option.map · (seen n)) (funext h)
  · rw [Function.update_of_ne hn, Function.update_of_ne hn, hs]

theorem currentHeader_run (cnid : Str) (events : List Event) (n : ℕ) :
    (State.run cnid events).currentHeader n = (seen events n).map (Transaction.head cnid) := by
  induction events using List.reverseRecOn generalizing n with
  | nil => rfl
  | append_singleton events e ih =>
    rw [run_snoc, seen_snoc]
    cases e with
    | httpRequest transaction method originalUri version =>
      simp only [State.step, State.httpRequest, observe, Function.update_self]
      by_cases hn : n = transaction
      · subst hn
        simp [Transaction.head]
      · rw [Function.update_of_ne hn, Function.update_of_ne hn, Function.update_of_ne hn, ih]
    | httpReply transaction version code reason =>
      refine currentHeader_modify ih (fun t => ?_) transaction n
      simp [Transaction.head]
    | httpAllHeaders transaction isOrig hlist =>
      refine currentHeader_modify ih (fun t => ?_) transaction n
      cases isOrig <;> simp [Transaction.head, loop_eq]
    | fileOverNewConnection file mimeType http =>
      rw [State.step, currentHeader_fileOverNewConnection]
      exact ih n

/-! ## The details -/

/-- Only an event that stores a text changes the details, or fails. -/
theorem step_of_stores_none (cnid : Str) (s : State) {e : Event} (he : e.stores = none) :
    (s.step cnid e).details = s.details ∧ (s.step cnid e).failed = s.failed := by
  cases e with
  | httpRequest | httpReply | httpAllHeaders => exact ⟨rfl, rfl⟩
  | fileOverNewConnection file mimeType http =>
    cases http with
    | none => simp [State.step, State.fileOverNewConnection]
    | some transaction =>
      have hcared : caredType mimeType = false := by simpa [Event.stores] using he
      simp [State.step, State.fileOverNewConnection, hcared]

theorem eq_of_stores {e : Event} {file transaction : ℕ} (he : e.stores = some (file, transaction)) :
    ∃ mimeType, caredType mimeType = true ∧
      e = .fileOverNewConnection file mimeType (some transaction) := by
  cases e with
  | httpRequest | httpReply | httpAllHeaders => cases he
  | fileOverNewConnection file' mimeType http =>
    cases http with
    | none => cases he
    | some transaction' =>
      simp only [Event.stores] at he
      split_ifs at he with hcared
      obtain ⟨rfl, rfl⟩ : file' = file ∧ transaction' = transaction := by simpa using he
      exact ⟨mimeType, hcared, rfl⟩

section Stores

variable (cnid : Str) {s : State} {e : Event} {file transaction : ℕ}

theorem failed_step_of_absent (he : e.stores = some (file, transaction))
    (hhead : s.currentHeader transaction = none) : (s.step cnid e).failed = true := by
  obtain ⟨mimeType, hcared, rfl⟩ := eq_of_stores he
  simp [State.step, State.fileOverNewConnection, hcared, hhead]

theorem step_of_present (he : e.stores = some (file, transaction)) {head : HttpHead}
    (hhead : s.currentHeader transaction = some head) :
    (s.step cnid e).failed = s.failed ∧ ∀ file', ((s.step cnid e).details file').getD [] =
      (s.details file').getD [] ++
        if file = file' then [head.cnid ++ head.reqH ++ head.resH] else [] := by
  obtain ⟨mimeType, hcared, rfl⟩ := eq_of_stores he
  simp only [State.step, State.fileOverNewConnection, hcared, hhead, Bool.not_true, Bool.false_eq_true,
    if_false, true_and]
  intro file'
  by_cases hfile : file = file'
  · subst hfile
    rw [Function.update_self, if_pos rfl]
    cases s.details file <;> rfl
  · rw [Function.update_of_ne (Ne.symm hfile), if_neg hfile, List.append_nil]

end Stores

theorem expectedDetails_snoc (cnid : Str) (file : ℕ) (before events : List Event) (e : Event) :
    expectedDetails cnid file before (events ++ [e]) =
      expectedDetails cnid file before events ++ expectedText cnid file (before ++ events) e := by
  induction events generalizing before with
  | nil => simp [expectedDetails]
  | cons e' events ih =>
    rw [List.cons_append, expectedDetails, ih, expectedDetails, List.append_assoc, List.append_assoc]
    rfl

/-- What has to hold when one more event has been handled. -/
theorem onTheWire_snoc_iff_step (cnid : Str) (events : List Event) (e : Event) :
    OnTheWire cnid (events ++ [e]) ↔ ((State.run cnid events).step cnid e).failed = false ∧
      ∀ file, (((State.run cnid events).step cnid e).details file).getD [] =
        expectedDetails cnid file [] events ++ expectedText cnid file events e := by
  have hexpected (file : ℕ) : expectedDetails cnid file [] (events ++ [e]) =
      expectedDetails cnid file [] events ++ expectedText cnid file events e :=
    expectedDetails_snoc cnid file [] events e
  rw [← run_snoc]
  constructor
  · rintro ⟨hfailed, hdetails⟩
    exact ⟨hfailed, fun file => by rw [hdetails, hexpected]⟩
  · rintro ⟨hfailed, hdetails⟩
    exact ⟨hfailed, fun file => by rw [hdetails, hexpected]⟩

theorem stored_iff {events : List Event} {e : Event} {file transaction : ℕ}
    (he : e.stores = some (file, transaction)) :
    Stored events e ↔ ∃ t, seen events transaction = some t ∧ t.InOrder := by
  constructor
  · intro h
    exact h file transaction he
  · intro h file' transaction' h'
    obtain ⟨rfl, rfl⟩ : file = file' ∧ transaction = transaction' := by simpa [he] using h'
    exact h

/-- The text of a transaction whose request has been seen is added to the details of one file. -/
theorem onTheWire_snoc_of_seen (cnid : Str) {events : List Event} {e : Event} {file transaction : ℕ}
    {t : Transaction} (he : e.stores = some (file, transaction))
    (hseen : seen events transaction = some t) :
    OnTheWire cnid (events ++ [e]) ↔ OnTheWire cnid events ∧ t.InOrder := by
  have hhead := currentHeader_run cnid events transaction
  rw [hseen, Option.map_some] at hhead
  obtain ⟨hfailed, hdetails⟩ := step_of_present cnid he hhead
  have hexpected (file' : ℕ) : expectedText cnid file' events e =
      if file = file' then [t.text HeaderList.byIndex cnid] else [] := by
    simp only [expectedText, he, hseen]
    rfl
  have htext : (t.head cnid).cnid ++ (t.head cnid).reqH ++ (t.head cnid).resH =
      t.text HeaderList.visited cnid := rfl
  rw [onTheWire_snoc_iff_step, ← text_eq_iff cnid]
  simp only [hfailed, hdetails, hexpected, htext]
  constructor
  · rintro ⟨hno, hdet⟩
    refine ⟨⟨hno, fun file' => ?_⟩, ?_⟩
    · have hfile := hdet file'
      split_ifs at hfile
      · exact (List.append_inj' hfile rfl).1
      · simpa using hfile
    · have hfile := hdet file
      rw [if_pos rfl, if_pos rfl] at hfile
      exact (List.cons.inj (List.append_inj' hfile rfl).2).1
  · rintro ⟨⟨hno, hdet⟩, heq⟩
    exact ⟨hno, fun file' => by rw [hdet, heq]⟩

/-- One more event: the details stay right exactly if its text is. -/
theorem onTheWire_snoc (cnid : Str) (events : List Event) (e : Event) :
    OnTheWire cnid (events ++ [e]) ↔ OnTheWire cnid events ∧ Stored events e := by
  rcases hstores : e.stores with _ | ⟨file, transaction⟩
  · -- Nothing is stored.
    obtain ⟨hdetails, hfailed⟩ := step_of_stores_none cnid (State.run cnid events) hstores
    have htrivial : Stored events e := by
      intro file transaction h
      rw [hstores] at h
      cases h
    rw [onTheWire_snoc_iff_step, and_iff_left htrivial]
    simp only [hdetails, hfailed, expectedText, hstores, List.append_nil]
    exact ⟨fun ⟨hno, hdet⟩ => ⟨hno, hdet⟩, fun ⟨hno, hdet⟩ => ⟨hno, hdet⟩⟩
  · rw [stored_iff hstores]
    cases hseen : seen events transaction with
    | none =>
      -- The field is absent when it is read.
      have hhead := currentHeader_run cnid events transaction
      rw [hseen, Option.map_none] at hhead
      refine iff_of_false (fun h => ?_) (by simp)
      rw [onTheWire_snoc_iff_step, failed_step_of_absent cnid hstores hhead] at h
      cases h.1
    | some t =>
      rw [onTheWire_snoc_of_seen cnid hstores hseen]
      simp

/-- The details are those on the wire exactly if, whenever a text is stored, the request has been seen
and every table of headers has been visited in order. -/
theorem onTheWire_iff (cnid : Str) (events : List Event) :
    OnTheWire cnid events ↔ Trace.EachStep Stored events := by
  induction events using List.reverseRecOn with
  | nil => exact iff_of_true ⟨rfl, fun _ => rfl⟩ Trace.eachStep_nil
  | append_singleton events e ih => rw [onTheWire_snoc, ih, Trace.eachStep_snoc]

/-- A reply whose request has not been seen, and a file of it. -/
def replyOnly : List Event := [.httpReply 0 [0x31] 200 [], .fileOverNewConnection 0 none (some 0)]

/-- Two headers that are visited from the second one on. -/
def swapped : HeaderList :=
  ⟨[⟨[0x61], []⟩, ⟨[0x62], []⟩], [⟨[0x62], []⟩, ⟨[0x61], []⟩], List.Perm.swap _ _ _⟩

def swappedHeaders : List Event :=
  [.httpRequest 0 [] [] [], .httpAllHeaders 0 true swapped, .fileOverNewConnection 0 none (some 0)]

theorem not_onTheWire : ¬ OnTheWire [] replyOnly ∧ ¬ OnTheWire [] swappedHeaders := by
  constructor
  · intro h
    exact absurd h.no_absent (by decide)
  · intro h
    exact absurd (h.details 0) (by decide)

end Netmonitor
