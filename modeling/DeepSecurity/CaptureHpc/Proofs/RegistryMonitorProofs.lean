import DeepSecurity.CaptureHpc.RegistryMonitor

/-!
# Proofs: registry events are delivered in order

A packet that does not fit goes back to the head of the queue before the client asks again, and
insertions go to its tail: what the client has got, what is in its buffer, the packet that is being
looked at and the queue are always the events that were queued, in their order, apart from those that
were discarded.
-/

namespace CaptureHpc

open ByteMem Records

namespace RegistryEvent

variable {m : Mem} {a : ℕ} {e : RegistryEvent}

theorem length_word {v : ℕ} : (word v).length = 4 := rfl

theorem length_encode : e.encode.length = e.size := by
  simp only [encode, List.length_append, length_word, e.time.2, size, sizeofRegistryEvent]
  omega

/-- The fields of an event in the memory. -/
theorem at_encode : At m a e.encode ↔ At m a (word e.eventType.toNat) ∧ At m (a + 4) e.time.1 ∧
    At m (a + 20) (word e.processId.toNat) ∧ At m (a + 24) (word e.dataType.toNat) ∧
    At m (a + 28) (word e.data.length) ∧ At m (a + 32) (word e.registryPath.length) ∧
    At m (a + 36) e.registryPath ∧ At m (a + 36 + e.registryPath.length) e.data := by
  simp only [encode, at_append, length_word, e.time.2, Nat.add_assoc, Nat.reduceAdd]

theorem lengths_at (hat : At m a e.encode) (hsize : e.size < 2 ^ 32) :
    read32 m (a + 28) = e.data.length ∧ read32 m (a + 32) = e.registryPath.length := by
  obtain ⟨-, -, -, -, hdata, hpath, -⟩ := at_encode.mp hat
  have hle : e.registryPath.length ≤ e.size ∧ e.data.length ≤ e.size := by
    unfold size
    omega
  exact ⟨hdata.read32_eq (by omega), hpath.read32_eq (by omega)⟩

theorem decode_at (hat : At m a e.encode) (hsize : e.size < 2 ^ 32) : decode m a = e := by
  obtain ⟨hdataLength, hpathLength⟩ := lengths_at hat hsize
  obtain ⟨htype, htime, hprocess, hdataType, -, -, hpath, hdata⟩ := at_encode.mp hat
  have hpath' : readBytes m (a + 36) e.registryPath.length = e.registryPath := hpath
  have hdata' : readBytes m (a + 36 + e.registryPath.length) e.data.length = e.data := hdata
  have htime' : readBytes m (a + 4) 16 = e.time.1 := htime.readBytes_eq e.time.2.symm
  unfold decode
  simp only [hdataLength, hpathLength, sizeofRegistryEvent, hpath', hdata', htime',
    htype.read32_eq e.eventType.toNat_lt, hprocess.read32_eq e.processId.toNat_lt,
    hdataType.read32_eq e.dataType.toNat_lt, UInt32.ofNat_toNat]

theorem sizeAt_eq (hat : At m a e.encode) (hsize : e.size < 2 ^ 32) :
    sizeAt m a = e.encode.length := by
  obtain ⟨hdataLength, hpathLength⟩ := lengths_at hat hsize
  rw [sizeAt, hdataLength, hpathLength, length_encode]
  rfl

end RegistryEvent

/-! ## Requests -/

def RegistryPacket.encode (packet : RegistryPacket) : List UInt8 := packet.event.1.encode

def RegistryPacket.view (packet : RegistryPacket) : RegistryEvent := packet.event.1

theorem registryFormat :
    Format RegistryPacket.encode RegistryPacket.view RegistryEvent.decode RegistryEvent.sizeAt where
  decode_at {_ _ packet} hat := RegistryEvent.decode_at hat packet.event.2
  size_at {_ _ packet} hat := RegistryEvent.sizeAt_eq hat packet.event.2
  encode_pos packet := by
    show 0 < packet.event.1.encode.length
    rw [RegistryEvent.length_encode, RegistryEvent.size, RegistryEvent.sizeofRegistryEvent]
    omega

/-- The copied events are one behind the other in the buffer. -/
structure Request.Valid (r : Request) : Prop where
  bytes : At r.outputBuffer 0 (pack RegistryPacket.encode r.copied)
  used : (pack RegistryPacket.encode r.copied).length = r.bufferSpaceUsed
  le : r.bufferSpaceUsed ≤ r.bufferSpace
  lt : r.bufferSpace < 2 ^ 32

theorem Request.Valid.events {r : Request} (hr : r.Valid) :
    r.events = some (r.copied.map RegistryPacket.view) := by
  have hused := hr.used
  have hle := hr.le
  have hlt := hr.lt
  have hbytes := hr.bytes
  unfold Request.events
  rcases hcopied : r.copied with _ | ⟨packet, rest⟩
  · rw [hcopied] at hused
    have hzero : r.bufferSpaceUsed = 0 := hused.symm
    rw [hzero]
    rfl
  · rw [hcopied] at hused hbytes
    have hlength := registryFormat.length_le_pack (packet :: rest)
    have hsize : RegistryEvent.sizeofRegistryEvent ≤ r.bufferSpaceUsed := by
      have hpacket : packet.encode.length = packet.event.1.size := RegistryEvent.length_encode
      rw [pack_cons, List.length_append, hpacket, RegistryEvent.size] at hused
      omega
    rw [List.length_cons] at hlength
    rw [if_pos hsize]
    exact registryFormat.unpack_pack hbytes (by omega) (by omega) (by omega)

/-- Another event that fits. -/
theorem Request.Valid.copy {r : Request} (hr : r.Valid) {packet : RegistryPacket}
    (hfits : packet.event.1.size ≤ r.bufferSpace - r.bufferSpaceUsed) :
    Request.Valid
      { r with
        bufferSpaceUsed := r.bufferSpaceUsed + packet.event.1.size
        outputBuffer := writeBytes r.outputBuffer r.bufferSpaceUsed packet.event.1.encode
        copied := r.copied ++ [packet] } := by
  have hle := hr.le
  have hpacket : packet.encode.length = packet.event.1.size := RegistryEvent.length_encode
  refine ⟨?_, ?_, ?_, hr.lt⟩
  · show At _ 0 (pack RegistryPacket.encode (r.copied ++ [packet]))
    rw [pack_append, pack_singleton, at_append, Nat.zero_add, hr.used]
    refine ⟨hr.bytes.of_same (same_writeBytes (Or.inl ?_)), at_writeBytes⟩
    rw [hr.used]
    omega
  · show (pack RegistryPacket.encode (r.copied ++ [packet])).length =
      r.bufferSpaceUsed + packet.event.1.size
    rw [pack_append, pack_singleton, List.length_append, hr.used, hpacket]
  · show r.bufferSpaceUsed + packet.event.1.size ≤ r.bufferSpace
    omega

namespace RegistryManager

/-! ## The order of the events -/

def pair (packet : RegistryPacket) : RegistryEvent × ℕ := (packet.view, packet.number)

/-- What the client has got, followed by what it can still get, is what was queued and not discarded. -/
def Accounted (recovered : List RegistryEvent) (pending : List RegistryPacket)
    (queued : List RegistryEvent) (discarded : List ℕ) : Prop :=
  ∃ got : List RegistryPacket, recovered = got.map RegistryPacket.view ∧
    (got ++ pending).map pair = queued.zipIdx.filter fun x => x.2 ∉ discarded

variable {recovered queued : List RegistryEvent} {pending l l' : List RegistryPacket}
  {discarded : List ℕ} {packet : RegistryPacket} {e : PooledEvent}

theorem Accounted.eq_kept (h : Accounted recovered pending queued discarded) :
    recovered ++ pending.map RegistryPacket.view =
      (queued.zipIdx.filter fun x => x.2 ∉ discarded).map Prod.fst := by
  obtain ⟨got, rfl, hgot⟩ := h
  rw [← hgot, List.map_map, ← List.map_append]
  rfl

theorem Accounted.queue (h : Accounted recovered pending queued discarded)
    (hlt : ∀ i ∈ discarded, i < queued.length) :
    Accounted recovered (pending ++ [⟨queued.length, e⟩]) (queued ++ [e.1]) discarded := by
  obtain ⟨got, hrecovered, hgot⟩ := h
  have hfresh : queued.length ∉ discarded := fun hmem => Nat.lt_irrefl _ (hlt _ hmem)
  refine ⟨got, hrecovered, ?_⟩
  rw [← List.append_assoc, List.map_append, hgot, List.zipIdx_append, List.filter_append]
  simp [hfresh, pair, RegistryPacket.view]

theorem Accounted.deliver (h : Accounted recovered (l ++ pending) queued discarded) :
    Accounted (recovered ++ l.map RegistryPacket.view) pending queued discarded := by
  obtain ⟨got, rfl, hgot⟩ := h
  refine ⟨got ++ l, by rw [List.map_append], ?_⟩
  rw [List.append_assoc]
  exact hgot

/-- The numbers are those of the places in the list, so no other packet has the same one. -/
theorem Accounted.discard (h : Accounted recovered (l ++ packet :: l') queued discarded) :
    Accounted recovered (l ++ l') queued (discarded ++ [packet.number]) ∧
      packet.number < queued.length := by
  obtain ⟨got, hrecovered, hgot⟩ := h
  have hnumbers : ((got ++ (l ++ packet :: l')).map RegistryPacket.number).Nodup := by
    have hmap : (got ++ (l ++ packet :: l')).map RegistryPacket.number =
        ((got ++ (l ++ packet :: l')).map pair).map Prod.snd := by
      rw [List.map_map]
      rfl
    rw [hmap, hgot]
    refine List.Nodup.sublist (List.filter_sublist.map _) ?_
    rw [List.zipIdx_map_snd]
    exact List.nodup_range'
  have hother : ∀ x ∈ got ++ (l ++ l'), x.number ≠ packet.number := by
    intro x hx
    rw [← List.append_assoc, List.map_append, List.map_cons, List.nodup_middle] at hnumbers
    have hnot := (List.nodup_cons.mp hnumbers).1
    rw [← List.map_append, List.append_assoc] at hnot
    intro heq
    exact hnot (heq ▸ List.mem_map_of_mem hx)
  refine ⟨⟨got, hrecovered, ?_⟩, ?_⟩
  · have hsplit : (queued.zipIdx.filter fun x => decide (x.2 ∉ discarded ++ [packet.number])) =
        ((got ++ (l ++ packet :: l')).map pair).filter fun x => decide (x.2 ≠ packet.number) := by
      rw [hgot, List.filter_filter]
      refine List.filter_congr fun x _ => ?_
      simp [and_comm]
    have hkeep : (got ++ (l ++ packet :: l')).filter (fun x => decide (x.number ≠ packet.number)) =
        got ++ (l ++ l') := by
      rw [← List.append_assoc, List.filter_append, List.filter_cons_of_neg (by simp),
        ← List.filter_append, List.append_assoc, List.filter_eq_self]
      intro x hx
      simpa using hother x hx
    rw [hsplit, List.filter_map, ← hkeep]
    rfl
  · have hmem : pair packet ∈ queued.zipIdx.filter fun x => decide (x.2 ∉ discarded) := by
      rw [← hgot]
      exact List.mem_map_of_mem (by simp)
    exact List.snd_lt_of_mem_zipIdx (List.mem_of_mem_filter hmem)

/-! ## The invariant -/

/-- The request that is being worked on. -/
def request? : Reader → Option Request
  | .idle => none
  | .condition r => some r
  | .remove r => some r
  | .holding r _ => some r

/-- The packets that are neither in the queue nor with the client. -/
def inFlight : Reader → List RegistryPacket
  | .idle => []
  | .condition r => r.copied
  | .remove r => r.copied
  | .holding r packet => r.copied ++ [packet]

/-- While the client is there, only the thread of its request removes packets, so that the one is still
there which its condition has seen. -/
structure Inv (s : RegistryManager) : Prop where
  accounted : Accounted s.recovered (inFlight s.reader ++ s.lQueuedRegistryEvents) s.queued s.discarded
  discarded_lt : ∀ i ∈ s.discarded, i < s.queued.length
  valid : ∀ r ∈ request? s.reader, r.Valid
  available : s.timedOut = false → ∀ r, s.reader = .remove r → s.lQueuedRegistryEvents ≠ []
  checker_idle : s.timedOut = false → s.checker = .idle
  nothing_discarded : s.timedOut = false → s.discarded = []
  running : s.timedOut = false → s.down = false

variable {s : RegistryManager} {r : Request} {now outputBufferLength : UInt32}

theorem inv_driverEntry {start : UInt32} : Inv (driverEntry start) where
  accounted := ⟨[], rfl, rfl⟩
  discarded_lt := by simp [driverEntry]
  valid := by simp [driverEntry, request?]
  available := by simp [driverEntry]
  checker_idle _ := rfl
  nothing_discarded _ := rfl
  running _ := rfl

theorem Inv.queueRegistryEvent (hinv : Inv s) : Inv (s.queueRegistryEvent now e) := by
  unfold RegistryManager.queueRegistryEvent
  split_ifs
  · have hacc := hinv.accounted.queue (e := e) hinv.discarded_lt
    rw [List.append_assoc] at hacc
    refine ⟨hacc, ?_, hinv.valid, ?_, hinv.checker_idle, hinv.nothing_discarded, hinv.running⟩
    · intro i hi
      have hlt := hinv.discarded_lt i hi
      simp
      omega
    · intro _ r _
      simp
  · exact hinv

theorem Inv.kDispatchIoctl (hinv : Inv s) : Inv (s.kDispatchIoctl now outputBufferLength) := by
  unfold RegistryManager.kDispatchIoctl
  split
  · rename_i hidle
    have hacc := hinv.accounted
    rw [hidle] at hacc
    split_ifs
    · refine ⟨hacc, hinv.discarded_lt, ?_, ?_, hinv.checker_idle, hinv.nothing_discarded, hinv.running⟩
      · intro r hr
        obtain rfl := Option.some.inj hr
        exact ⟨rfl, rfl, Nat.zero_le _, outputBufferLength.toNat_lt⟩
      · simp
    · refine ⟨hacc, hinv.discarded_lt, ?_, ?_, hinv.checker_idle, hinv.nothing_discarded, hinv.running⟩
      · simp [request?]
      · simp
  · exact hinv

/-- The end of a request: the client gets what has been copied. -/
theorem Inv.complete {queue : List RegistryPacket} (hinv : Inv s) (hr : r.Valid)
    (hqueue : inFlight s.reader ++ s.lQueuedRegistryEvents = r.copied ++ queue) :
    Inv ({ s with lQueuedRegistryEvents := queue }.complete r) := by
  have hacc := hinv.accounted
  rw [hqueue] at hacc
  unfold RegistryManager.complete
  rw [hr.events]
  refine ⟨?_, hinv.discarded_lt, ?_, ?_, hinv.checker_idle, hinv.nothing_discarded, hinv.running⟩
  · exact hacc.deliver
  · simp [request?]
  · simp

theorem Inv.goDown (hinv : Inv s) (h : s.timedOut ≠ false) : Inv { s with down := true } where
  accounted := hinv.accounted
  discarded_lt := hinv.discarded_lt
  valid := hinv.valid
  available := hinv.available
  checker_idle := hinv.checker_idle
  nothing_discarded := hinv.nothing_discarded
  running htimely := absurd htimely h

theorem Inv.handleIoctlGetRegEvents (hinv : Inv s) : Inv s.handleIoctlGetRegEvents := by
  unfold RegistryManager.handleIoctlGetRegEvents
  have hacc := hinv.accounted
  have hvalid := hinv.valid
  split
  · exact hinv
  · rename_i r hreader
    rw [hreader] at hacc hvalid
    split_ifs with hmore
    · exact ⟨hacc, hinv.discarded_lt, hvalid, fun _ _ _ => hmore.1, hinv.checker_idle,
        hinv.nothing_discarded, hinv.running⟩
    · refine hinv.complete (hvalid r rfl) ?_
      rw [hreader]
      rfl
  · rename_i r hreader
    rw [hreader] at hacc hvalid
    split
    · -- The condition has seen a packet, so another thread has removed it.
      rename_i hqueue
      refine hinv.goDown ?_
      intro htimely
      exact hinv.available htimely r hreader hqueue
    · rename_i packet rest hqueue
      refine ⟨?_, hinv.discarded_lt, hvalid, ?_, hinv.checker_idle, hinv.nothing_discarded,
        hinv.running⟩
      · rw [hqueue] at hacc
        simpa [inFlight] using hacc
      · simp
  · rename_i r packet hreader
    rw [hreader] at hacc hvalid
    split_ifs with hfits
    · refine ⟨hacc, hinv.discarded_lt, ?_, ?_, hinv.checker_idle, hinv.nothing_discarded,
        hinv.running⟩
      · intro r' hr'
        obtain rfl := Option.some.inj hr'
        exact (hvalid r rfl).copy hfits
      · simp
    · refine hinv.complete (hvalid r rfl) ?_
      rw [hreader]
      simp [inFlight]

theorem Inv.connectionChecker (hinv : Inv s) : Inv (s.connectionChecker now) := by
  unfold RegistryManager.connectionChecker
  split
  · split_ifs
    · exact ⟨hinv.accounted, hinv.discarded_lt, hinv.valid, by simp, by simp, by simp, by simp⟩
    · exact hinv
  · exact hinv

theorem Inv.clearOld (hinv : Inv s) : Inv s.clearOld := by
  have htimedOut : s.checker ≠ .idle → s.timedOut = true := by
    intro hbusy
    by_contra htimely
    exact hbusy (hinv.checker_idle (by simpa using htimely))
  unfold RegistryManager.clearOld
  split
  · exact hinv
  · rename_i hchecker
    have htrue := htimedOut (by simp [hchecker])
    exact ⟨hinv.accounted, hinv.discarded_lt, hinv.valid, hinv.available, by simp [htrue],
      hinv.nothing_discarded, hinv.running⟩
  · rename_i hchecker
    have htrue := htimedOut (by simp [hchecker])
    split
    · exact hinv.goDown (by simp [htrue])
    · rename_i packet rest hqueue
      have hacc := hinv.accounted
      rw [hqueue] at hacc
      obtain ⟨hacc', hlt⟩ := hacc.discard
      refine ⟨hacc', ?_, hinv.valid, by simp [htrue], by simp [htrue], by simp [htrue],
        by simp [htrue]⟩
      intro i hi
      rcases List.mem_append.mp hi with hi | hi
      · exact hinv.discarded_lt i hi
      · rw [List.mem_singleton.mp hi]
        exact hlt

theorem Inv.step (hinv : Inv s) (a : Action) : Inv (s.step a) := by
  unfold RegistryManager.step
  split_ifs
  · exact hinv
  · cases a with
    | queueRegistryEvent now e => exact hinv.queueRegistryEvent
    | kDispatchIoctl now outputBufferLength => exact hinv.kDispatchIoctl
    | handleIoctlGetRegEvents => exact hinv.handleIoctlGetRegEvents
    | connectionChecker now => exact hinv.connectionChecker
    | clearOld => exact hinv.clearOld

theorem inv_run (start : UInt32) (actions : List Action) : Inv (run start actions) := by
  induction actions using List.reverseRecOn with
  | nil => exact inv_driverEntry
  | append_singleton actions a ih =>
    rw [run, List.foldl_append]
    exact ih.step a

/-! ## Requests that are not interrupted -/

variable {rest : List RegistryPacket}

/-- The client gets what has been copied. -/
theorem complete_eq (hr : r.Valid) : s.complete r =
    { s with reader := .idle, recovered := s.recovered ++ r.copied.map RegistryPacket.view } := by
  unfold RegistryManager.complete
  rw [hr.events]

/-- A round of the loop for a packet that fits. -/
theorem round_fits (hreader : s.reader = .condition r)
    (hqueue : s.lQueuedRegistryEvents = packet :: rest)
    (hfits : packet.event.1.size ≤ r.bufferSpace - r.bufferSpaceUsed) :
    handleIoctlGetRegEvents^[3] s =
      { s with
        lQueuedRegistryEvents := rest
        reader := .condition
          { r with
            bufferSpaceUsed := r.bufferSpaceUsed + packet.event.1.size
            outputBuffer := writeBytes r.outputBuffer r.bufferSpaceUsed packet.event.1.encode
            copied := r.copied ++ [packet] } } := by
  have hsize : RegistryEvent.sizeofRegistryEvent ≤ packet.event.1.size := by
    unfold RegistryEvent.size
    omega
  have hpos : 0 < RegistryEvent.sizeofRegistryEvent := by decide
  have hcondition : s.lQueuedRegistryEvents ≠ [] ∧ r.bufferSpaceUsed < r.bufferSpace ∧
      r.bufferSpace - r.bufferSpaceUsed ≥ RegistryEvent.sizeofRegistryEvent :=
    ⟨by simp [hqueue], by omega, by omega⟩
  simp [Function.iterate_succ, handleIoctlGetRegEvents, hreader, hcondition.2.1, hcondition.2.2,
    hqueue, hfits]

/-- And for one that does not: the packet goes back, and the request is at its end. -/
theorem round_too_large (hreader : s.reader = .condition r)
    (hqueue : s.lQueuedRegistryEvents = packet :: rest) (hused : r.bufferSpaceUsed < r.bufferSpace)
    (hspace : RegistryEvent.sizeofRegistryEvent ≤ r.bufferSpace - r.bufferSpaceUsed)
    (hlarge : ¬ packet.event.1.size ≤ r.bufferSpace - r.bufferSpaceUsed) (hr : r.Valid) :
    handleIoctlGetRegEvents^[3] s =
      { s with reader := .idle, recovered := s.recovered ++ r.copied.map RegistryPacket.view } := by
  have hround : handleIoctlGetRegEvents^[3] s = s.complete r := by
    simp [Function.iterate_succ, handleIoctlGetRegEvents, hreader, hused, hspace, hqueue, hlarge,
      complete_eq hr]
  rw [hround, complete_eq hr]

/-- Where the condition of the loop fails, the request is at its end and the queue is as it was. -/
theorem round_stops (hreader : s.reader = .condition r)
    (hstop : ¬ (s.lQueuedRegistryEvents ≠ [] ∧ r.bufferSpaceUsed < r.bufferSpace ∧
      RegistryEvent.sizeofRegistryEvent ≤ r.bufferSpace - r.bufferSpaceUsed)) (hr : r.Valid) :
    handleIoctlGetRegEvents^[1] s =
      { s with reader := .idle, recovered := s.recovered ++ r.copied.map RegistryPacket.view } := by
  have hstep : handleIoctlGetRegEvents^[1] s = s.complete r := by
    simp [handleIoctlGetRegEvents, hreader, hstop]
  rw [hstep, complete_eq hr]

/-- The loop comes to its end and hands over the packets that fit, as many as come one after the
other. -/
theorem loop_delivers (hreader : s.reader = .condition r) (hr : r.Valid) :
    ∃ n packets rest, s.lQueuedRegistryEvents = packets ++ rest ∧
      r.bufferSpaceUsed + totalSize packets ≤ r.bufferSpace ∧
      (∀ packet ∈ rest.head?,
        r.bufferSpace < r.bufferSpaceUsed + totalSize packets + packet.event.1.size) ∧
      handleIoctlGetRegEvents^[n] s =
        { s with
          reader := .idle
          lQueuedRegistryEvents := rest
          recovered := s.recovered ++ (r.copied ++ packets).map RegistryPacket.view } := by
  have hle := hr.le
  induction hqueue : s.lQueuedRegistryEvents generalizing s r with
  | nil =>
    refine ⟨1, [], [], rfl, by simpa [totalSize] using hle, by simp, ?_⟩
    rw [round_stops hreader (by simp [hqueue]) hr, List.append_nil, ← hqueue]
  | cons packet rest ih =>
    by_cases hspace : r.bufferSpaceUsed < r.bufferSpace ∧
        RegistryEvent.sizeofRegistryEvent ≤ r.bufferSpace - r.bufferSpaceUsed
    · by_cases hfits : packet.event.1.size ≤ r.bufferSpace - r.bufferSpaceUsed
      · have hround := round_fits hreader hqueue hfits
        have hcopy := hr.copy hfits
        obtain ⟨n, packets, rest', rfl, hpackets, hmax, hloop⟩ :=
          ih (s := handleIoctlGetRegEvents^[3] s) (by rw [hround]) hcopy hcopy.le (by rw [hround])
        refine ⟨n + 3, packet :: packets, rest', rfl, ?_, ?_, ?_⟩
        · simpa [totalSize, Nat.add_assoc] using hpackets
        · simpa [totalSize, Nat.add_assoc] using hmax
        · rw [Function.iterate_add_apply, hloop, hround]
          simp
      · refine ⟨3, [], packet :: rest, rfl, by simpa [totalSize] using hle, ?_, ?_⟩
        · simp [totalSize]
          omega
        · rw [round_too_large hreader hqueue hspace.1 hspace.2 hfits hr, List.append_nil, ← hqueue]
    · -- what is left of the buffer is too small for any event
      have hsize : RegistryEvent.sizeofRegistryEvent ≤ packet.event.1.size := by
        unfold RegistryEvent.size
        omega
      have hpos : 0 < RegistryEvent.sizeofRegistryEvent := by decide
      refine ⟨1, [], packet :: rest, rfl, by simpa [totalSize] using hle, ?_, ?_⟩
      · simp [totalSize]
        omega
      · rw [round_stops hreader (fun hall => hspace hall.2) hr, List.append_nil, ← hqueue]

theorem iterate_idle (hidle : s.reader = .idle) (k : ℕ) : handleIoctlGetRegEvents^[k] s = s :=
  Function.iterate_fixed (by simp [handleIoctlGetRegEvents, hidle]) k

/-- Between requests, the first step of the next one. -/
theorem dispatch_idle (hidle : s.reader = .idle) (now outputBufferLength : UInt32)
    (hlength : RegistryEvent.sizeofRegistryEvent ≤ outputBufferLength.toNat) :
    s.kDispatchIoctl now outputBufferLength =
      { s with
        lastContactTime := now
        reader := .condition ⟨outputBufferLength.toNat, 0, fun _ => 0, []⟩ } := by
  simp only [RegistryManager.kDispatchIoctl, hidle, ge_iff_le, hlength, if_true]

theorem Request.valid_new (outputBufferLength : UInt32) :
    Request.Valid ⟨outputBufferLength.toNat, 0, fun _ => 0, []⟩ :=
  ⟨rfl, rfl, Nat.zero_le _, outputBufferLength.toNat_lt⟩

/-- The loop after the beginning of a request. -/
theorem dispatch_delivers (hidle : s.reader = .idle) (now outputBufferLength : UInt32)
    (hlength : RegistryEvent.sizeofRegistryEvent ≤ outputBufferLength.toNat) :
    ∃ n packets rest, s.lQueuedRegistryEvents = packets ++ rest ∧
      totalSize packets ≤ outputBufferLength.toNat ∧
      (∀ packet ∈ rest.head?, outputBufferLength.toNat < totalSize packets + packet.event.1.size) ∧
      ∀ steps, n ≤ steps → handleIoctlGetRegEvents^[steps] (s.kDispatchIoctl now outputBufferLength) =
        { s with
          lastContactTime := now
          lQueuedRegistryEvents := rest
          recovered := s.recovered ++ packets.map RegistryPacket.view } := by
  have hdispatch := dispatch_idle hidle now outputBufferLength hlength
  obtain ⟨n, packets, rest, hqueue, hpackets, hmax, hloop⟩ := loop_delivers
    (s := s.kDispatchIoctl now outputBufferLength) (by rw [hdispatch])
    (Request.valid_new outputBufferLength)
  refine ⟨n, packets, rest, by simpa [hdispatch] using hqueue, by simpa using hpackets,
    by simpa using hmax, fun steps hsteps => ?_⟩
  obtain ⟨k, rfl⟩ : ∃ k, steps = k + n := ⟨steps - n, by omega⟩
  rw [Function.iterate_add_apply, hloop, iterate_idle rfl, hdispatch]
  simp [hidle]

/-- The loop does not bring the machine up again. -/
theorem handleIoctlGetRegEvents_down (h : s.down = true) : s.handleIoctlGetRegEvents.down = true := by
  have hcomplete : ∀ (s : RegistryManager) r, s.down = true → (s.complete r).down = true := by
    intro s r h
    unfold RegistryManager.complete
    split
    · exact h
    · rfl
  unfold RegistryManager.handleIoctlGetRegEvents
  split
  · exact h
  · split_ifs
    · exact h
    · exact hcomplete _ _ h
  · split
    · rfl
    · exact h
  · split_ifs
    · exact h
    · exact hcomplete _ _ h

/-- Steps of a machine that is not down at their end. -/
theorem foldl_step_replicate {n : ℕ} (h : (handleIoctlGetRegEvents^[n] s).down = false) :
    (List.replicate n Action.handleIoctlGetRegEvents).foldl step s = handleIoctlGetRegEvents^[n] s := by
  induction n with
  | zero => rfl
  | succ n ih =>
    rw [Function.iterate_succ_apply'] at h ⊢
    have hbefore : (handleIoctlGetRegEvents^[n] s).down = false := by
      by_contra hdown
      rw [handleIoctlGetRegEvents_down (by simpa using hdown)] at h
      cases h
    rw [List.replicate_succ', List.foldl_append, ih hbefore]
    simp [step, hbefore]

theorem handsOver (hidle : s.reader = .idle) (hup : s.down = false) (now : UInt32)
    (hlength : RegistryEvent.sizeofRegistryEvent ≤ outputBufferLength.toNat) :
    s.HandsOver now outputBufferLength := by
  obtain ⟨n, packets, rest, hqueue, hpackets, hmax, hloop⟩ := dispatch_delivers hidle now _ hlength
  refine ⟨packets, rest, hqueue, hpackets, hmax, n, fun steps hsteps => ?_⟩
  have hstep : s.step (.kDispatchIoctl now outputBufferLength) =
      s.kDispatchIoctl now outputBufferLength := by simp [step, hup]
  have hdown : (handleIoctlGetRegEvents^[steps] (s.kDispatchIoctl now outputBufferLength)).down = false := by
    rw [hloop steps hsteps]
    exact hup
  rw [request, List.foldl_cons, hstep, foldl_step_replicate hdown, hloop steps hsteps]
  rfl

theorem totalSize_append (packets rest : List RegistryPacket) :
    totalSize (packets ++ rest) = totalSize packets + totalSize rest := by
  induction packets with
  | nil => simp [totalSize]
  | cons packet packets ih => simp [totalSize, ih, Nat.add_assoc]

/-- A queue that fits is handed over as a whole. -/
theorem rest_eq_nil {queue packets rest : List RegistryPacket} {space : ℕ}
    (hqueue : queue = packets ++ rest) (hfits : totalSize queue ≤ space)
    (hmax : ∀ packet ∈ rest.head?, space < totalSize packets + packet.event.1.size) : rest = [] := by
  cases rest with
  | nil => rfl
  | cons packet rest =>
    have hlarge := hmax packet rfl
    rw [hqueue, totalSize_append, totalSize] at hfits
    omega

/-! ## What the client gets -/

theorem Inv.faithful (hinv : Inv s) : Faithful s where
  recovered := ⟨_, hinv.accounted.eq_kept⟩
  rest hidle := by
    have h := hinv.accounted.eq_kept
    rw [hidle] at h
    exact h
  handsOver hidle hup now _ hlength := RegistryManager.handsOver hidle hup now hlength
  all htimely := by
    have hall : s.queued.zipIdx.filter (fun x => decide (x.2 ∉ s.discarded)) = s.queued.zipIdx := by
      rw [hinv.nothing_discarded htimely]
      simp
    rw [kept, hall, List.zipIdx_map_fst]
  running := hinv.running

/-- Whatever the sizes of the events and of the buffers, and however the threads interleave. -/
theorem run_faithful (start : UInt32) (actions : List Action) : Faithful (run start actions) :=
  (inv_run start actions).faithful

/-- An event that is too large for the buffer stays where it is. -/
theorem read_too_large (now : UInt32) (hidle : s.reader = .idle)
    (hqueue : s.lQueuedRegistryEvents = packet :: rest)
    (hlarge : ¬ packet.event.1.size ≤ 327680) {steps : ℕ} (hsteps : 3 ≤ steps) :
    (s.read now steps).reader = .idle ∧ (s.read now steps).lQueuedRegistryEvents = packet :: rest := by
  have hdispatch := dispatch_idle hidle now registryEventsBufferSize (by decide)
  have hround := round_too_large (s := s.kDispatchIoctl now registryEventsBufferSize)
    (by rw [hdispatch]) (by rw [hdispatch]; exact hqueue) (by decide) (by decide) hlarge
    (Request.valid_new registryEventsBufferSize)
  obtain ⟨k, rfl⟩ : ∃ k, steps = k + 3 := ⟨steps - 3, by omega⟩
  rw [RegistryManager.read, Function.iterate_add_apply, hround, iterate_idle rfl, hdispatch]
  exact ⟨rfl, hqueue⟩

/-- A request removes an event if and only if the first one fits into the buffer of the client. -/
theorem read_removes_iff_fits (s : RegistryManager) (now : UInt32) (packet : RegistryPacket)
    (rest : List RegistryPacket) (hidle : s.reader = .idle)
    (hqueue : s.lQueuedRegistryEvents = packet :: rest) :
    ∃ n, ∀ steps, n ≤ steps → (s.read now steps).reader = .idle ∧
      ((s.read now steps).lQueuedRegistryEvents.length < s.lQueuedRegistryEvents.length ↔
        36 + packet.event.1.registryPath.length + packet.event.1.data.length ≤ 327680) := by
  have hsize : packet.event.1.size =
      36 + packet.event.1.registryPath.length + packet.event.1.data.length := rfl
  have hspace : registryEventsBufferSize.toNat = 327680 := by decide
  obtain ⟨n, packets, rest', hsplit, hpackets, hmax, hloop⟩ :=
    dispatch_delivers hidle now registryEventsBufferSize (by decide)
  refine ⟨n, fun steps hsteps => ?_⟩
  rw [RegistryManager.read, hloop steps hsteps, ← hsize]
  refine ⟨hidle, ?_⟩
  have hlength : (packet :: rest).length = packets.length + rest'.length := by
    rw [← hqueue, hsplit, List.length_append]
  rw [hqueue] at hsplit
  rw [hspace] at hpackets hmax
  cases packets with
  | nil =>
    -- the first one does not fit
    obtain rfl : rest' = packet :: rest := hsplit.symm
    have hlarge := hmax packet rfl
    simp only [totalSize] at hlarge
    simp only [hqueue, Nat.lt_irrefl, false_iff]
    omega
  | cons first packets =>
    obtain ⟨rfl, -⟩ := List.cons.inj hsplit
    simp only [totalSize] at hpackets
    simp only [hqueue, hlength, List.length_cons]
    exact iff_of_true (by omega) (by omega)

open RegistryCallback

/-- The value `v` of a key is set. -/
def setValue (data : ValueData) : Notification :=
  .preSetValueKey ⟨true, some [0x5C, 0x52]⟩ ⟨[0x76], []⟩ 3 data

def context : Context := ⟨4, ⟨List.replicate 16 0, rfl⟩, true, true, true⟩

/-- The event for it. -/
def setValueEvent (data : ValueData) : PooledEvent :=
  Findings.event ⟨⟨[0x5C, 0x52, 0x5C, 0x76], by decide⟩, 3, data⟩ context 1

theorem callback_setValue (data : ValueData) :
    registryCallback context (setValue data) = .queue (setValueEvent data) := by
  have hexamine : examine (setValue data) =
      some ⟨⟨[0x5C, 0x52, 0x5C, 0x76], by decide⟩, 3, data⟩ := rfl
  unfold registryCallback
  rw [hexamine]
  simp [context, setValueEvent, setValue, Notification.eventType]

theorem size_setValueEvent (data : ValueData) : (setValueEvent data).1.size = 46 + data.1.length := rfl

/-- Two values are set, and the next request hands both events over. -/
theorem recovered_two_values : ∃ n, ∀ steps, n ≤ steps →
    (run 0 ([.queueRegistryEvent 0 (setValueEvent ⟨[1], by decide⟩),
        .queueRegistryEvent 0 (setValueEvent ⟨[2, 0], by decide⟩)] ++
      request 1 registryEventsBufferSize steps)).recovered =
    [(setValueEvent ⟨[1], by decide⟩).1, (setValueEvent ⟨[2, 0], by decide⟩).1] := by
  obtain ⟨packets, rest, hqueue, -, hmax, n, hrequest⟩ :=
    (run_faithful 0 [.queueRegistryEvent 0 (setValueEvent ⟨[1], by decide⟩),
      .queueRegistryEvent 0 (setValueEvent ⟨[2, 0], by decide⟩)]).handsOver rfl rfl 1
      registryEventsBufferSize (by decide)
  refine ⟨n, fun steps hsteps => ?_⟩
  rw [run, List.foldl_append]
  refine (congrArg recovered (hrequest steps hsteps)).trans ?_
  obtain rfl := rest_eq_nil hqueue (by decide) hmax
  rw [List.append_nil] at hqueue
  rw [← hqueue]
  rfl

/-- As many bytes as the buffer of the client has. -/
def largeData : ValueData :=
  ⟨List.replicate 327680 0, by rw [List.length_replicate]; decide⟩

/-- The value has four bytes. -/
theorem removed_small_value : ∃ n, ∀ steps, n ≤ steps →
    (((driverEntry 0).queueRegistryEvent 0 (setValueEvent ⟨[1, 0, 0, 0], by decide⟩)).read 1
      steps).reader = .idle ∧
    ((((driverEntry 0).queueRegistryEvent 0 (setValueEvent ⟨[1, 0, 0, 0], by decide⟩)).read 1
      steps).lQueuedRegistryEvents.length < 1 ↔ 36 + 10 + 4 ≤ 327680) :=
  read_removes_iff_fits ((driverEntry 0).queueRegistryEvent 0 (setValueEvent ⟨[1, 0, 0, 0], by decide⟩))
    1 ⟨0, setValueEvent ⟨[1, 0, 0, 0], by decide⟩⟩ [] rfl rfl

/-- A value as large as the buffer of the client: its event is never removed. -/
theorem not_removed_large_value :
    registryCallback context (setValue largeData) = .queue (setValueEvent largeData) ∧
    ∀ now steps, 3 ≤ steps →
      (((driverEntry 0).queueRegistryEvent 0 (setValueEvent largeData)).read now steps).reader = .idle ∧
      (((driverEntry 0).queueRegistryEvent 0 (setValueEvent largeData)).read now
        steps).lQueuedRegistryEvents = [⟨0, setValueEvent largeData⟩] := by
  refine ⟨callback_setValue _, fun now steps hsteps => ?_⟩
  refine read_too_large now rfl rfl ?_ hsteps
  have hdata : largeData.1.length = 327680 := List.length_replicate
  rw [size_setValueEvent, hdata]
  decide

end RegistryManager

end CaptureHpc
