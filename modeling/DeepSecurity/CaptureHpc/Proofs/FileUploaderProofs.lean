import DeepSecurity.CaptureHpc.FileUploader
import DeepSecurity.CaptureHpc.Proofs.Base64Proofs

/-!
# The parts of a file

`sendFilePart_ok` says which part is sent for an offset and a size, whether it ends before, at or behind
the end of the file. The loop of `sendFile` asks for one part after the other, which gives the content;
a part that the server asks for again is one with the wrong size.
-/

namespace CaptureHpc

open Xml

theorem toSigned_of_lt {n : UInt32} (h : n.toNat < 2 ^ 31) : toSigned n = n.toNat := by
  rw [toSigned, if_pos h]

theorem toNat_toUnsigned {n : ℕ} (h : n < 2 ^ 32) : (toUnsigned n).toNat = n := by
  have hmod : ((n : ℤ) % 2 ^ 32).toNat = n := by omega
  rw [toUnsigned, hmod, UInt32.toNat_ofNat_of_lt' h]

namespace FileUploader

variable {u : FileUploader}

/-! ## One part -/

/-- The bytes that are read for an offset and a size. -/
def partData (u : FileUploader) (offset size : UInt32) : List UInt8 :=
  (u.pFileStream.content.drop offset.toNat).take size.toNat

/-- What is written in an element for a part is read from it. -/
theorem part_mk (file encoding : Units) (start stop : ℤ) {data l : List UInt8}
    (hdata : StandardBase64.decode data = some l) :
    Element.part ⟨wide ['p', 'a', 'r', 't'],
      [(wide ['n', 'a', 'm', 'e'], file), (partStart, Numeral.write start),
        (wide ['e', 'n', 'c', 'o', 'd', 'i', 'n', 'g'], encoding), (partEnd, Numeral.write stop)],
      [], data⟩ = some ⟨start, stop, l⟩ := by
  have h1 : (wide ['n', 'a', 'm', 'e'] == partStart) = false := by decide
  have h2 : (wide ['n', 'a', 'm', 'e'] == partEnd) = false := by decide
  have h3 : (partStart == partEnd) = false := by decide
  have h4 : (wide ['e', 'n', 'c', 'o', 'd', 'i', 'n', 'g'] == partEnd) = false := by decide
  simp [Element.part, Element.getAttributeValue, List.find?, h1, h2, h3, h4, hdata]

theorem length_partData (u : FileUploader) (offset size : UInt32) : (u.partData offset size).length =
    min size.toNat (u.pFileStream.content.length - offset.toNat) := by
  simp [partData]

theorem partData_prefix (u : FileUploader) (offset size : UInt32) :
    u.partData offset size <+: u.pFileStream.content.drop offset.toNat :=
  List.take_prefix _ _

/-- Where a part ends. -/
theorem toNat_partEnd (u : FileUploader) (offset size : UInt32)
    (h : offset.toNat + (u.partData offset size).length < 2 ^ 32) :
    (offset + UInt32.ofNat (u.partData offset size).length).toNat =
      offset.toNat + (u.partData offset size).length := by
  rw [UInt32.toNat_add, UInt32.toNat_ofNat']
  omega

/-- The part that is sent, if it is not empty, and what is returned. -/
theorem sendFilePart_ok (hopen : u.fileOpened) (offset size : UInt32)
    (hoffset : offset.toNat < 2 ^ 31) :
    ∃ e stream, stream.content = u.pFileStream.content ∧
      e.part = some ⟨offset.toNat, toSigned (offset + UInt32.ofNat (u.partData offset size).length),
        u.partData offset size⟩ ∧
      u.sendFilePart offset size =
        .ok (if (u.partData offset size).length < size.toNat then 0
            else UInt32.ofNat (u.partData offset size).length,
          { u with
            pFileStream := stream
            sent := u.sent ++ if u.partData offset size = [] then [] else [.element e] }) := by
  have hlt : (u.partData offset size).length < 2 ^ 32 := by
    rw [length_partData]
    exact (Nat.min_le_left _ _).trans_lt size.toNat_lt
  obtain ⟨encoded, hencode, htext⟩ := Base64.encode_ok (u.partData offset size)
  have hdecode : StandardBase64.decode (encoded.mem.take encoded.k) = some (u.partData offset size) := by
    rw [htext, StandardBase64.decode_encode]
  refine ⟨_, ⟨u.pFileStream.content, offset.toNat + (u.partData offset size).length,
    (u.partData offset size).length < size.toNat⟩, rfl,
    part_mk u.fileName (wide ['b', 'a', 's', 'e', '6', '4']) _ _ hdecode, ?_⟩
  have hread : (u.pFileStream.fseek offset).fread size.toNat = (u.partData offset size,
      ⟨u.pFileStream.content, offset.toNat + (u.partData offset size).length,
        (u.partData offset size).length < size.toNat⟩) := by
    rw [Stream.fseek, if_pos hoffset]
    simp [Stream.fread, partData]
  have hpos : 0 < UInt32.ofNat (u.partData offset size).length ↔ u.partData offset size ≠ [] := by
    rw [UInt32.lt_iff_toNat_lt, UInt32.toNat_ofNat_of_lt' hlt, ← List.length_pos_iff]
    rfl
  simp only [sendFilePart, if_pos hopen, hread, hencode, bind, Except.bind, pure, Except.pure, hpos,
    decide_eq_true_eq]
  by_cases hnil : u.partData offset size = []
  · simp [hnil]
  · simp [hnil]

/-! ## The loop -/

theorem transfers_nil (content : List UInt8) : Transfers [] content content.length :=
  ⟨⟨[], rfl, by simp, rfl, by simp⟩⟩

/-- A part of the file and what comes behind it. -/
theorem Transfers.cons {e : Element} {es : List Element} {content l : List UInt8} {offset : ℕ}
    (he : e.part = some ⟨offset, (offset + l.length : ℕ), l⟩) (hl : l ≠ [])
    (hpre : l <+: content.drop offset) (h : Transfers es content (offset + l.length)) :
    Transfers (e :: es) content offset := by
  obtain ⟨ps, hes, hps, hconsecutive, hdata⟩ := h.parts
  refine ⟨⟨⟨offset, (offset + l.length : ℕ), l⟩ :: ps, ?_, ?_, ⟨rfl, hconsecutive⟩, ?_⟩⟩
  · rw [List.map_cons, List.map_cons, he, hes]
  · intro p hp
    rcases List.mem_cons.mp hp with rfl | hp
    · have hpos := List.length_pos_iff.mpr hl
      exact ⟨by simp; omega, hl⟩
    · exact hps p hp
  · obtain ⟨rest, hrest⟩ := hpre
    rw [List.flatMap_cons, hdata, ← List.drop_drop, ← hrest, List.drop_left]

/-- The last part of the file, if there is something left for it. -/
theorem transfers_last {e : Element} {content l : List UInt8} {offset : ℕ}
    (he : e.part = some ⟨offset, (offset + l.length : ℕ), l⟩) (hpre : l <+: content.drop offset)
    (hend : offset + l.length = content.length) :
    Transfers (if l = [] then [] else [e]) content offset := by
  have hnil : Transfers [] content (offset + l.length) := hend ▸ transfers_nil content
  split_ifs with hl
  · rw [hl] at hnil
    exact hnil
  · exact Transfers.cons he hl hpre hnil

theorem sendParts_last {offset : UInt32} {u' : FileUploader}
    (h : u.sendFilePart offset 8192 = .ok (0, u')) (rounds : ℕ) :
    sendParts (rounds + 1) offset u = .ok u' := by
  rw [sendParts, h]
  rfl

theorem sendParts_next {offset n : UInt32} {u' : FileUploader} (hn : 0 < n)
    (h : u.sendFilePart offset 8192 = .ok (n, u')) (rounds : ℕ) :
    sendParts (rounds + 1) offset u = sendParts rounds (offset + n) u' := by
  rw [sendParts, h]
  simp only [bind, Except.bind, if_pos hn]

/-- From every offset in the file on, the loop sends the rest of the file and comes to an end. -/
theorem sendParts_ok (hopen : u.fileOpened) (hlen : u.pFileStream.content.length < 2 ^ 31)
    (offset : UInt32) (hoffset : offset.toNat ≤ u.pFileStream.content.length) (rounds : ℕ)
    (hrounds : u.pFileStream.content.length < offset.toNat + 8192 * rounds) :
    ∃ u' es, sendParts rounds offset u = .ok u' ∧ u'.sent = u.sent ++ es.map Message.element ∧
      Transfers es u.pFileStream.content offset.toNat := by
  induction rounds generalizing offset u with
  | zero => omega
  | succ rounds ih =>
    obtain ⟨e, stream, hcontent, hpart, hsend⟩ := sendFilePart_ok hopen offset 8192 (by omega)
    have hsize : (8192 : UInt32).toNat = 8192 := rfl
    have hlength := length_partData u offset 8192
    have hpre := partData_prefix u offset 8192
    rw [hsize] at hsend hlength
    have hsum := toNat_partEnd u offset 8192 (by omega)
    rw [toSigned_of_lt (by omega), hsum] at hpart
    rcases Nat.lt_or_ge (u.partData offset 8192).length 8192 with hlt | hge
    · -- The read comes to the end of the file: this is the last part, or there is none.
      rw [if_pos hlt] at hsend
      refine ⟨_, _, sendParts_last hsend rounds, ?_, transfers_last hpart hpre (by omega)⟩
      dsimp only
      split_ifs <;> rfl
    · -- A full part, behind which the loop goes on.
      have hfull : (u.partData offset 8192).length = 8192 := by omega
      have hnil : u.partData offset 8192 ≠ [] := by
        rw [← List.length_pos_iff]
        omega
      rw [hfull] at hsum
      rw [if_neg (by omega), if_neg hnil, hfull] at hsend
      obtain ⟨u', es, hrest, hsent, htransfers⟩ := ih
        (u := { u with pFileStream := stream, sent := u.sent ++ [.element e] }) hopen
        (by rw [hcontent]; exact hlen) (offset + UInt32.ofNat 8192) (by rw [hcontent]; omega)
        (by rw [hcontent]; omega)
      refine ⟨u', e :: es, ?_, by simp [hsent], Transfers.cons hpart hnil hpre ?_⟩
      · rw [sendParts_next (by decide) hsend, hrest]
      · rw [hfull, ← hsum, ← hcontent]
        exact htransfers

/-! ## The transfer -/

theorem admits_eq (o : Outside) (u : FileUploader) (file : Units) :
    o.admits u file = (o.connected && o.opens file &&
      !(o.reply.isNone || !(u.fileAccepted || o.reply.getD false))) := by
  rw [Outside.admits, Bool.not_or, Bool.not_not, Option.not_isNone, Bool.and_assoc]

/-- What the loop adds to the elements when it begins behind the request. -/
theorem sendParts_request (o : Outside) (u : FileUploader) (file : Units) {content : List UInt8}
    (hlen : content.length < 2 ^ 31) {rounds : ℕ} (hrounds : content.length + 1 ≤ rounds) :
    ∃ u' es, sendParts rounds 0 (request o u file content) = .ok u' ∧
      u'.elements = u.elements ++ es ∧ Transfers es content 0 := by
  obtain ⟨u', es, hparts, hsent, htransfers⟩ :=
    sendParts_ok (u := request o u file content) rfl hlen 0 (Nat.zero_le _) rounds
      (by simp [request]; omega)
  refine ⟨u', es, hparts, ?_, htransfers⟩
  simp only [elements, hsent, request, List.filterMap_append, List.filterMap_map]
  simp

/-- The parts of a file that is admitted are its content, and none is sent of another one. -/
theorem sendFile_transfers (o : Outside) (u : FileUploader) {file : Units} {content : List UInt8}
    (hfile : o.files file = some content) (hlen : content.length < 2 ^ 31) :
    ∃ n, ∀ rounds, n ≤ rounds → ∃ u' es, sendFile o rounds u file = .ok (o.admits u file, u') ∧
      u'.elements = u.elements ++ es ∧
      if o.admits u file then Transfers es content 0 else es = [] := by
  refine ⟨content.length + 1, fun rounds hrounds => ?_⟩
  rw [admits_eq]
  unfold sendFile
  cases hconnected : o.connected with
  | false => exact ⟨u, [], rfl, (List.append_nil _).symm, rfl⟩
  | true =>
    simp only [hfile, Bool.not_true, Bool.false_eq_true, if_false, Bool.true_and]
    cases hopens : o.opens file with
    | false => exact ⟨_, [], rfl, (List.append_nil _).symm, rfl⟩
    | true =>
      have haccepted (u : FileUploader) :
          (request o u file content).fileAccepted = (u.fileAccepted || o.reply.getD false) := rfl
      simp only [haccepted]
      cases hrefused : o.reply.isNone || !(u.fileAccepted || o.reply.getD false) with
      | true => exact ⟨_, [], rfl, by simp [elements, request], rfl⟩
      | false =>
        obtain ⟨u', es, hparts, helements, htransfers⟩ := sendParts_request o
          { u with busy := true, fileName := file, fileSize := content.length } file hlen hrounds
        rw [if_neg (by decide), if_neg (by decide), hparts]
        exact ⟨_, es, rfl, by simpa [elements] using helements, htransfers⟩

/-- A server that accepts every file, and files of 20000 bytes. -/
def sampleOutside : Outside := ⟨true, fun _ => some (List.replicate 20000 1), fun _ => true, some true⟩

/-- An uploader that has not sent anything. -/
def idle : FileUploader := ⟨false, false, [], false, 0, ⟨[], 0, false⟩, []⟩

/-- A file that takes three parts. -/
theorem sendFile_transfers_three : ∃ n, ∀ rounds, n ≤ rounds → ∃ u' es,
    sendFile sampleOutside rounds idle [] = .ok (true, u') ∧ u'.elements = es ∧
      Transfers es (List.replicate 20000 1) 0 :=
  sendFile_transfers sampleOutside idle rfl (by rw [List.length_replicate]; decide)

/-! ## A part that is requested again -/

theorem lexicalCast_of_read {value : Units} {n : ℕ} (h : Numeral.read value = some (n : ℤ))
    (hn : n < 2 ^ 31) : lexicalCast value = .ok n := by
  simp only [lexicalCast, h]
  rw [if_pos (by omega)]

theorem lexicalCast_of_le {value : Units} {n : ℕ} (h : Numeral.read value = some (n : ℤ))
    (hn : 2 ^ 31 ≤ n) : lexicalCast value = Checked.drop := by
  simp only [lexicalCast, h]
  rw [if_neg (by omega)]

theorem partStart_ne_partEnd : partStart ≠ partEnd := by decide

/-- A round whose value is not refused. -/
theorem requestedRange_ok {a : Units × Units} {start stop : ℤ}
    (hstart : a.1 = partStart → lexicalCast a.2 = .ok start)
    (hstop : a.1 = partEnd → lexicalCast a.2 = .ok stop) (range : ℤ × ℤ) :
    requestedRange range a = .ok (if a.1 = partStart then start else range.1,
      if a.1 = partEnd then stop else range.2) := by
  unfold requestedRange
  by_cases h1 : a.1 = partStart
  · rw [if_pos h1, if_pos h1, if_neg (h1 ▸ partStart_ne_partEnd), hstart h1]
    rfl
  · rw [if_neg h1, if_neg h1]
    by_cases h2 : a.1 = partEnd
    · rw [if_pos h2, if_pos h2, hstop h2]
      rfl
    · rw [if_neg h2, if_neg h2]
      rfl

theorem foldlM_requestedRange {l : List (Units × Units)} {start stop : ℤ}
    (hstart : ∀ a ∈ l, a.1 = partStart → lexicalCast a.2 = .ok start)
    (hstop : ∀ a ∈ l, a.1 = partEnd → lexicalCast a.2 = .ok stop) (range : ℤ × ℤ) :
    l.foldlM requestedRange range =
      .ok (if partStart ∈ l.map Prod.fst then start else range.1,
        if partEnd ∈ l.map Prod.fst then stop else range.2) := by
  induction l generalizing range with
  | nil => rfl
  | cons a l ih =>
    rw [List.foldlM_cons, requestedRange_ok (hstart a List.mem_cons_self) (hstop a List.mem_cons_self)]
    refine (ih (fun b hb => hstart b (List.mem_cons_of_mem a hb))
      (fun b hb => hstop b (List.mem_cons_of_mem a hb)) _).trans ?_
    have hlast (p q : Prop) [Decidable p] [Decidable q] (x y : ℤ) :
        (if q then x else if p then x else y) = if p ∨ q then x else y := by
      by_cases hq : q
      · simp [hq]
      · simp [hq]
    simp only [List.map_cons, List.mem_cons, eq_comm (a := a.1), hlast]

/-- A value that is refused ends the handler, wherever it stands. -/
theorem foldlM_requestedRange_ne {l : List (Units × Units)} {a : Units × Units} (ha : a ∈ l)
    (hname : a.1 = partEnd) (hvalue : lexicalCast a.2 = Checked.drop) (range r : ℤ × ℤ) :
    l.foldlM requestedRange range ≠ .ok r := by
  induction l generalizing range with
  | nil => cases ha
  | cons b l ih =>
    intro h
    rw [List.foldlM_cons] at h
    obtain ⟨range₁, hround, hrest⟩ := Checked.bind_eq_ok.mp h
    rcases List.mem_cons.mp ha with rfl | ha
    · rw [requestedRange, if_neg (hname ▸ partStart_ne_partEnd.symm), if_pos hname, hvalue] at hround
      cases hround
    · exact ih ha range₁ hrest

theorem find?_of_nodup {l : List (Units × Units)} (h : (l.map Prod.fst).Nodup) {a : Units × Units}
    (ha : a ∈ l) : l.find? (·.1 == a.1) = some a := by
  induction l with
  | nil => cases ha
  | cons b l ih =>
    rw [List.map_cons, List.nodup_cons] at h
    rcases List.mem_cons.mp ha with rfl | ha
    · simp
    · have hne : b.1 ≠ a.1 := by
        intro hb
        exact h.1 (hb ▸ List.mem_map_of_mem ha)
      rw [List.find?_cons_of_neg (by simpa using hne), ih h.2 ha]

/-- With distinct names, the value of a name is that of its only attribute. -/
theorem getAttributeValue_of_mem {event : Element} (h : (event.attributes.map Prod.fst).Nodup)
    {a : Units × Units} (ha : a ∈ event.attributes) : event.getAttributeValue a.1 = a.2 := by
  rw [Element.getAttributeValue, find?_of_nodup h ha]

/-- An attribute whose value is a number is there. -/
theorem mem_of_read {event : Element} {name : Units} {z : ℤ}
    (h : Numeral.read (event.getAttributeValue name) = some z) :
    (name, event.getAttributeValue name) ∈ event.attributes := by
  unfold Element.getAttributeValue at h ⊢
  split at h
  · next a hfind =>
    have hname : a.1 = name := by simpa using List.find?_some hfind
    rw [← hname]
    exact List.mem_of_find?_eq_some hfind
  · cases h

theorem foldlM_of_requests {event : Element} {start stop : ℕ} (h : Requests event start stop)
    (hstart : start < 2 ^ 31) (hstop : stop < 2 ^ 31) :
    event.attributes.foldlM requestedRange (0, 0) = .ok ((start : ℤ), (stop : ℤ)) := by
  have hvalue {a : Units × Units} (ha : a ∈ event.attributes) {name : Units} (hname : a.1 = name) :
      a.2 = event.getAttributeValue name := by
    rw [← getAttributeValue_of_mem h.distinct ha, hname]
  have hmem {name : Units} {z : ℤ} (hread : Numeral.read (event.getAttributeValue name) = some z) :
      name ∈ event.attributes.map Prod.fst := List.mem_map_of_mem (f := Prod.fst) (mem_of_read hread)
  rw [foldlM_requestedRange
    (fun a ha hname => hvalue ha hname ▸ lexicalCast_of_read h.start_eq hstart)
    (fun a ha hname => hvalue ha hname ▸ lexicalCast_of_read h.stop_eq hstop),
    if_pos (hmem h.start_eq), if_pos (hmem h.stop_eq)]

theorem toSigned_eq_iff {n : UInt32} {m : ℕ} (hm : m < 2 ^ 31) : toSigned n = m ↔ n.toNat = m := by
  have hn := n.toNat_lt
  unfold toSigned
  split_ifs
  · exact Int.ofNat_inj
  · omega

/-- The part that is sent for a range, which goes on for as many bytes as the end of the range says. -/
theorem onReceiveFileErrorEvent_ok (hopen : u.fileOpened) {event : Element} {start stop : ℕ}
    (hrange : event.attributes.foldlM requestedRange (0, 0) = .ok ((start : ℤ), (stop : ℤ)))
    (hstart : 0 < start) (hlt : start < stop) (hstop : stop < 2 ^ 31)
    (hle : stop ≤ u.pFileStream.content.length) :
    ∃ u' e n, u.onReceiveFileErrorEvent event = .ok u' ∧ u'.sent = u.sent ++ [.element e] ∧
      n.toNat = min (start + stop) u.pFileStream.content.length ∧
      e.part = some ⟨start, toSigned n, (u.pFileStream.content.drop start).take stop⟩ := by
  have hs : (toUnsigned start).toNat = start := toNat_toUnsigned (by omega)
  have ht : (toUnsigned stop).toNat = stop := toNat_toUnsigned (by omega)
  have hdata : u.partData (toUnsigned start) (toUnsigned stop) =
      (u.pFileStream.content.drop start).take stop := by
    rw [partData, hs, ht]
  have hlength : ((u.pFileStream.content.drop start).take stop).length =
      min stop (u.pFileStream.content.length - start) := by simp
  have hnil : (u.pFileStream.content.drop start).take stop ≠ [] := by
    rw [← List.length_pos_iff]
    omega
  obtain ⟨e, stream, -, hpart, hsend⟩ :=
    sendFilePart_ok hopen (toUnsigned start) (toUnsigned stop) (by omega)
  rw [hdata, hs] at hpart
  rw [hdata, if_neg hnil] at hsend
  refine ⟨{ u with pFileStream := stream, sent := u.sent ++ [.element e] }, e, _, ?_, rfl, ?_, hpart⟩
  · rw [onReceiveFileErrorEvent, hrange]
    simp only [bind, Except.bind]
    rw [if_pos (by omega), hsend]
    rfl
  · rw [UInt32.toNat_add, UInt32.toNat_ofNat', hs, hlength]
    omega

section Resends

variable {event : Element} {start stop : ℕ}

/-- A part that begins at zero is taken for a missing attribute. -/
theorem not_resends_zero (hevent : Requests event 0 stop) (hstop : stop < 2 ^ 31) :
    ¬ u.Resends event 0 stop := by
  rintro ⟨u', e, hok, hsent, -⟩
  rw [onReceiveFileErrorEvent, foldlM_of_requests hevent (by decide) hstop] at hok
  obtain rfl : u = u' := Except.ok.inj hok
  simp at hsent

/-- The end of the range is not an `int`. -/
theorem not_resends_of_le (hevent : Requests event start stop) (hstop : 2 ^ 31 ≤ stop) :
    ¬ u.Resends event start stop := by
  rintro ⟨u', e, hok, -⟩
  obtain ⟨range, hrange, -⟩ := Checked.bind_eq_ok.mp hok
  exact foldlM_requestedRange_ne (mem_of_read hevent.stop_eq) rfl
    (lexicalCast_of_le hevent.stop_eq hstop) _ _ hrange

theorem resends_iff_of_pos (hopen : u.fileOpened) (hevent : Requests event start stop)
    (hstart : 0 < start) (hlt : start < stop) (hstop : stop < 2 ^ 31)
    (hle : stop ≤ u.pFileStream.content.length) :
    u.Resends event start stop ↔ stop = u.pFileStream.content.length := by
  obtain ⟨u', e, n, hok, hsent, hn, hpart⟩ := onReceiveFileErrorEvent_ok hopen
    (foldlM_of_requests hevent (by omega) hstop) hstart hlt hstop hle
  constructor
  · rintro ⟨u'', e', hok', hsent', hpart'⟩
    obtain rfl : u' = u'' := Except.ok.inj (hok.symm.trans hok')
    obtain rfl : e = e' := by simpa using hsent.symm.trans hsent'
    have hend : toSigned n = stop := by
      rw [hpart] at hpart'
      injection hpart' with h
      injection h
    rw [toSigned_eq_iff hstop, hn] at hend
    omega
  · intro hend
    refine ⟨u', e, hok, hsent, ?_⟩
    have hdata : (u.pFileStream.content.drop start).take stop =
        (u.pFileStream.content.drop start).take (stop - start) := by
      rw [List.take_of_length_le (by simp; omega), List.take_of_length_le (by simp; omega)]
    rw [hpart, (toSigned_eq_iff hstop).mpr (by omega), hdata]

/-- The part is the requested one only if the request goes up to the end of the file. -/
theorem resends_iff (hopen : u.fileOpened) (hevent : Requests event start stop) (hlt : start < stop)
    (hle : stop ≤ u.pFileStream.content.length) :
    u.Resends event start stop ↔
      start ≠ 0 ∧ stop = u.pFileStream.content.length ∧ stop < 2 ^ 31 := by
  rcases Nat.lt_or_ge stop (2 ^ 31) with hstop | hstop
  · rcases Nat.eq_zero_or_pos start with rfl | hpos
    · exact iff_of_false (not_resends_zero hevent hstop) (by omega)
    · rw [resends_iff_of_pos hopen hevent hpos hlt hstop hle]
      omega
  · exact iff_of_false (not_resends_of_le hevent hstop) (by omega)

end Resends

/-- A file of four bytes that is open. -/
def opened : FileUploader := { idle with fileOpened := true, pFileStream := ⟨[1, 2, 3, 4], 0, false⟩ }

def fileError (start stop : ℕ) : Element :=
  ⟨wide ['f', 'i', 'l', 'e', '-', 'e', 'r', 'r', 'o', 'r'],
    [(partStart, Numeral.write start), (partEnd, Numeral.write stop)], [], []⟩

theorem requests_fileError (start stop : ℕ) : Requests (fileError start stop) start stop where
  distinct := (by decide : [partStart, partEnd].Nodup)
  start_eq := by simp [fileError, Element.getAttributeValue]
  stop_eq := by simp [fileError, Element.getAttributeValue, partStart_ne_partEnd]

theorem resends_last_three : opened.Resends (fileError 1 4) 1 4 :=
  (resends_iff rfl (requests_fileError 1 4) (by decide) (by decide)).mpr (by decide)

/-- The second and third byte are requested, and the fourth is sent as well. -/
theorem not_resends_middle : opened.fileOpened ∧ Requests (fileError 1 3) 1 3 ∧
    ¬ opened.Resends (fileError 1 3) 1 3 := by
  refine ⟨rfl, requests_fileError 1 3, ?_⟩
  rw [resends_iff_of_pos rfl (requests_fileError 1 3) (by decide) (by decide) (by decide) (by decide)]
  decide

end FileUploader

end CaptureHpc
