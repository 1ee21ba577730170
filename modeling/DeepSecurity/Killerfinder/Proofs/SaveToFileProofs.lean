import DeepSecurity.Killerfinder.SaveToFile

/-!
# Proofs: what is saved and where

The stream `path` grows with every file: what is opened for an object is the path below the names of
all objects before it.
-/

namespace Killerfinder

open CxxString Path

/-! ## The loops -/

/-- The files that are opened for the objects when the stream holds `path`. -/
def opens : Bytes → List SavedObject → List Opened
  | _, [] => []
  | path, o :: objects =>
    ⟨o.name, cStr (path ++ slash :: o.name), o.body⟩ :: opens (path ++ slash :: o.name) objects

def saveAll (objects : List SavedObject) (st : Saving) : Saving :=
  objects.foldl (fun st o => st.save o.name o.body) st

theorem opened_saveAll (objects : List SavedObject) (st : Saving) :
    (saveAll objects st).opened = st.opened ++ opens st.path objects := by
  induction objects generalizing st with
  | nil => simp [saveAll, opens]
  | cons o objects ih =>
    rw [saveAll, List.foldl_cons, ← saveAll, ih]
    simp [Saving.save, opens]

variable (cfg : SaveConfig) (fs : FileSystem) (t : ℤ) (id : CTcpSessionId)

variable {cfg fs t} in
theorem withDir_saveAll (h : DirsOk cfg fs t) (objects : List SavedObject) :
    withDir cfg fs t (saveAll objects) = opens (cfg.minuteDir t) objects := by
  rw [withDir, h.1, h.2, opened_saveAll]
  rfl

variable {cfg fs t} in
theorem withDir_of_not_dirsOk (h : ¬ DirsOk cfg fs t) (loop : Saving → Saving) :
    withDir cfg fs t loop = [] := by
  unfold withDir
  split_ifs with hfs hdir
  · rfl
  · rfl
  · exact absurd ⟨by simpa using hfs, by simpa using hdir⟩ h

namespace Decoded

theorem saveLoop_eq_saveAll (i : ℕ) (requests : List CRequestHttpInfo)
    (responses : List CResponseHttpInfo) (st : Saving) :
    CHttpTxnDecoder.saveLoop cfg id i requests responses st =
      saveAll (((requests.zip responses).zipIdx i).filterMap (httpObject cfg id)) st := by
  induction requests generalizing i responses st with
  | nil => rfl
  | cons request requests ih =>
    cases responses with
    | nil => rfl
    | cons response responses =>
      rw [List.zip_cons_cons, List.zipIdx_cons, CHttpTxnDecoder.saveLoop]
      by_cases hpass : response.mStatus = 200 ∧ response.isContentTypeCared cfg = true ∧
          response.mBody ≠ []
      · have hobject : httpObject cfg id ((request, response), i) = some _ := if_pos hpass
        rw [List.filterMap_cons_some hobject, if_neg (by simp [hpass.1]), if_neg (by simp [hpass.2.1]),
          if_neg (by simp [hpass.2.2]), ih]
        rfl
      · have hobject : httpObject cfg id ((request, response), i) = none := if_neg hpass
        rw [List.filterMap_cons_none hobject, ← ih]
        split_ifs with hstatus hcared hbody
        · rfl
        · rfl
        · rfl
        · exact absurd ⟨by simpa using hstatus, by simpa using hcared, by simpa using hbody⟩ hpass

theorem saveAttachments_eq_saveAll (index j : ℕ) (attachments : List CAttachment) (st : Saving) :
    CSmtpTxnDecoder.saveAttachments cfg id index j attachments st =
      saveAll ((attachments.zipIdx j).filterMap (smtpObject cfg id index)) st := by
  induction attachments generalizing j st with
  | nil => rfl
  | cons a attachments ih =>
    rw [List.zipIdx_cons, CSmtpTxnDecoder.saveAttachments]
    cases hcared : a.isContentTypeCared cfg with
    | true =>
      have hobject : smtpObject cfg id index (a, j) = some _ := if_pos hcared
      rw [List.filterMap_cons_some hobject, if_neg (by simp), ih]
      rfl
    | false =>
      have hobject : smtpObject cfg id index (a, j) = none := if_neg (by simp [hcared])
      rw [List.filterMap_cons_none hobject, if_pos (by decide), ih]

theorem saveMails_eq_saveAll (index : ℕ) (mails : List CMailInfo) (st : Saving) :
    CSmtpTxnDecoder.saveMails cfg id index mails st =
      saveAll ((mails.zipIdx index).flatMap fun m =>
        m.1.mAttachments.zipIdx.filterMap (smtpObject cfg id m.2)) st := by
  induction mails generalizing index st with
  | nil => rfl
  | cons mail mails ih =>
    rw [CSmtpTxnDecoder.saveMails, ih, saveAttachments_eq_saveAll, List.zipIdx_cons,
      List.flatMap_cons, saveAll, saveAll, saveAll, List.foldl_append]

theorem saveToFile_eq_withDir (d : Decoded) :
    d.saveToFile cfg fs t id = withDir cfg fs t (saveAll (d.objects cfg id)) := by
  cases d with
  | http requests responses =>
    exact congrArg (withDir cfg fs t) (funext (saveLoop_eq_saveAll cfg id 0 requests responses))
  | smtp mails =>
    exact congrArg (withDir cfg fs t) (funext (saveMails_eq_saveAll cfg id 0 mails))

/-! ## One file for each object -/

/-- The path for a second object is not the one that its name stands for, unless it is the path of the
first one again. -/
theorem not_oneFile_of_two (dir : Bytes) (o o' : SavedObject) (objects : List SavedObject)
    (hpaths : (opens dir (o :: o' :: objects)).map (fun f => (f.path, f.content)) =
      (o :: o' :: objects).map fun o => (cStr (dir ++ slash :: o.name), o.body)) :
    ¬ ((opens dir (o :: o' :: objects)).map Opened.path).Nodup := by
  intro hnodup
  simp only [opens, List.map_cons, List.cons.injEq, Prod.mk.injEq] at hpaths
  obtain ⟨-, ⟨hpath, -⟩, -⟩ := hpaths
  simp only [opens, List.map_cons, List.nodup_cons, List.mem_cons, not_or] at hnodup
  have hne : cStr (dir ++ slash :: o.name) ≠ cStr (dir ++ slash :: o.name ++ slash :: o'.name) :=
    hnodup.1.1
  have hnull : 0 ∉ dir ++ slash :: o.name := by
    intro h
    exact hne (cStr_append_of_mem h _).symm
  have hdir : 0 ∉ dir := fun h => hnull (List.mem_append_left _ h)
  rw [cStr_append hnull, cStr_append hdir, List.append_assoc] at hpath
  have hlen := congrArg List.length (List.append_cancel_left hpath)
  simp only [List.length_append, List.length_cons] at hlen
  omega

theorem oneFile_iff_length (dir : Bytes) (objects : List SavedObject) :
    ((opens dir objects).map (fun f => (f.path, f.content)) =
        objects.map (fun o => (cStr (dir ++ slash :: o.name), o.body)) ∧
      ((opens dir objects).map Opened.path).Nodup) ↔ objects.length ≤ 1 := by
  match objects with
  | [] => simp [opens]
  | [o] => simp [opens]
  | o :: o' :: objects =>
    constructor
    · rintro ⟨hpaths, hnodup⟩
      exact absurd hnodup (not_oneFile_of_two dir o o' objects hpaths)
    · intro h
      simp at h

variable {cfg fs t} in
theorem oneFileEach_iff_length (hdirs : DirsOk cfg fs t) (d : Decoded) :
    d.OneFileEach cfg fs t id ↔ (d.objects cfg id).length ≤ 1 := by
  rw [OneFileEach, saveToFile_eq_withDir, withDir_saveAll hdirs, oneFile_iff_length]

/-- There is one file for each object exactly if there are no objects, or there is one and the
directories can be made. -/
theorem oneFileEach_iff (d : Decoded) : d.OneFileEach cfg fs t id ↔
    d.objects cfg id = [] ∨ DirsOk cfg fs t ∧ (d.objects cfg id).length ≤ 1 := by
  by_cases hdirs : DirsOk cfg fs t
  · rw [oneFileEach_iff_length id hdirs]
    constructor
    · intro hlen
      exact Or.inr ⟨hdirs, hlen⟩
    · rintro (hnil | ⟨-, hlen⟩)
      · simp [hnil]
      · exact hlen
  · rw [OneFileEach, saveToFile_eq_withDir, withDir_of_not_dirsOk hdirs]
    constructor
    · rintro ⟨hpaths, -⟩
      exact Or.inl (List.map_eq_nil_iff.mp hpaths.symm)
    · rintro (hnil | ⟨hok, -⟩)
      · simp [hnil]
      · exact absurd hok hdirs

/-- A configuration with the default values. -/
def defaultConfig : SaveConfig where
  mRootPath := lit ['/', 'u', 's', 'r', '/', 'l', 'o', 'c', 'a', 'l', '/', 'k', 'i', 'l', 'l', 'e', 'r']
  mCaredContentTypes := [lit ['a', 'p', 'p', 'l', 'i', 'c', 'a', 't', 'i', 'o', 'n']]
  root_no_null := by decide

/-- A file system on which the directories exist. -/
def roomyDisk : FileSystem where
  access _ := true
  mkdir _ := false
  statfs _ := some (2 ^ 20, ⟨4096, by decide⟩)

/-- A session between 10.0.0.1 and 10.0.0.2. -/
def webSession : CTcpSessionId :=
  ⟨CIpAddress.ofIpv4 10 0 0 1, 1025, CIpAddress.ofIpv4 10 0 0 2, 80⟩

/-- The second file would be in a directory with the name of the first one. -/
theorem not_oneFileEach_two_responses :
    ¬ (Decoded.http [⟨lit ['/', 'a']⟩, ⟨lit ['/', 'b']⟩]
      [{ mStatus := 200, mBody := [1] }, { mStatus := 200, mBody := [2] }]).OneFileEach
        defaultConfig roomyDisk 0 webSession := by
  have hdirs : DirsOk defaultConfig roomyDisk 0 := ⟨rfl, rfl⟩
  rw [oneFileEach_iff_length webSession hdirs]
  decide

end Decoded

/-! ## Names -/

/-- The text has neither null bytes nor slashes. -/
def Neutral (s : Bytes) : Prop := 0 ∉ s ∧ slash ∉ s

instance (s : Bytes) : Decidable (Neutral s) := inferInstanceAs (Decidable (_ ∧ _))

theorem Neutral.append {s s' : Bytes} (h : Neutral s) (h' : Neutral s') : Neutral (s ++ s') := by
  constructor
  · rw [List.mem_append, not_or]
    exact ⟨h.1, h'.1⟩
  · rw [List.mem_append, not_or]
    exact ⟨h.2, h'.2⟩

theorem neutral_decimal (n : ℕ) : Neutral (decimal n) := by
  have hdigit (c : UInt8) (hc : c ∈ decimal n) : 48 ≤ c.toNat := by
    obtain ⟨d, hd, rfl⟩ := List.mem_map.mp hc
    have hdigit := Char.isDigit_iff_toNat.mp (Nat.isDigit_of_mem_toDigits (by decide) (by decide) hd)
    have hlo : 48 ≤ d.toNat := hdigit.1
    have hhi : d.toNat ≤ 57 := hdigit.2
    have htoNat : d.toUInt8.toNat = d.toNat % 256 := by rw [Char.toUInt8, UInt32.toNat_toUInt8]; rfl
    omega
  constructor
  · intro h
    exact absurd (hdigit 0 h) (by decide)
  · intro h
    exact absurd (hdigit slash h) (by decide)

theorem neutral_dotted (a : CIpAddress) (loop : ℕ) : Neutral (a.dotted loop) := by
  have hbyte (b : UInt8) : Neutral (decimal b.toNat ++ lit ['.']) :=
    (neutral_decimal _).append (by decide)
  constructor
  · intro h
    obtain ⟨b, -, hb⟩ := List.mem_flatMap.mp h
    exact (hbyte b).1 hb
  · intro h
    obtain ⟨b, -, hb⟩ := List.mem_flatMap.mp h
    exact (hbyte b).2 hb

variable (id : CTcpSessionId)

theorem neutral_getIdStr : Neutral id.getIdStr := by
  unfold CTcpSessionId.getIdStr
  apply Neutral.append
  · apply Neutral.append
    · exact ((neutral_dotted _ _).append (neutral_decimal _)).append (by decide)
    · exact neutral_dotted _ _
  · exact neutral_decimal _

theorem dash_mem_getIdStr : '-'.toUInt8 ∈ id.getIdStr := by
  simp [CTcpSessionId.getIdStr, lit]

/-- A text that begins with the id of a session is a name as far as the operating system sees it, if it
has no slash. -/
theorem isName_cStr_of_getIdStr {name rest : Bytes} (hname : name = id.getIdStr ++ rest)
    (hslash : slash ∉ name) : IsName (cStr name) := by
  have hdash : '-'.toUInt8 ∈ cStr name := by
    rw [hname, cStr_append (neutral_getIdStr id).1]
    exact List.mem_append_left _ (dash_mem_getIdStr id)
  constructor
  · exact fun h => hslash (mem_of_mem_cStr h)
  · intro h
    rw [h] at hdash
    exact absurd hdash (by decide)
  · intro h
    rw [h] at hdash
    exact absurd hdash (by decide)
  · intro h
    rw [h] at hdash
    exact absurd hdash (by decide)

namespace CHttpTxnDecoder

theorem slash_notMem_typeText (ct : Bytes) : slash ∉ typeText ct := by
  intro h
  obtain ⟨c, -, hc⟩ := List.mem_flatMap.mp h
  split_ifs at hc with hslash hblank
  · exact absurd hc (by decide)
  · cases hc
  · exact hslash (List.mem_singleton.mp hc).symm

theorem cutQuery_subset (tmpname : Bytes) : cutQuery tmpname ⊆ tmpname := by
  unfold cutQuery
  split
  · exact List.take_subset _ _
  · split
    · exact List.take_subset _ _
    · exact List.Subset.refl _

/-- The last segment of a URL comes behind its last slash. -/
theorem slash_notMem_urlFile (url : Bytes) : slash ∉ urlFile url := by
  have hnone : slash ∉ lit ['n', 'o', 'n', 'e'] := by decide
  unfold urlFile
  dsimp only
  split
  · exact hnone
  · rename_i pos hpos
    split_ifs
    · exact hnone
    · intro h
      exact not_mem_drop_of_findLast hpos (cutQuery_subset _ h)

theorem slash_notMem_fileName (i : ℕ) (request : CRequestHttpInfo) (response : CResponseHttpInfo) :
    slash ∉ fileName id i request response := by
  have hid := (neutral_getIdStr id).2
  have htype := slash_notMem_typeText response.mContentType
  have hindex := (neutral_decimal i).2
  have hurl := slash_notMem_urlFile request.mUrl
  have hlits : slash ∉ lit ['_'] ∧ slash ∉ lit ['_', 'n', 'a', 'm', 'e', '='] := by decide
  simp [fileName, hid, htype, hindex, hurl, hlits]

end CHttpTxnDecoder

theorem CSmtpTxnDecoder.slash_notMem_fileName_iff (index j : ℕ) (a : CAttachment) :
    slash ∉ fileName id index j a ↔ slash ∉ a.mMainType ∧ slash ∉ a.mSubType := by
  have hid := (neutral_getIdStr id).2
  have hindex := (neutral_decimal index).2
  have hj := (neutral_decimal j).2
  have hlits : slash ∉ lit ['_'] ∧ slash ∉ lit ['+'] := by decide
  simp [fileName, hid, hindex, hj, hlits]

/-! ## Where the files are -/

theorem map_name_opens (path : Bytes) (objects : List SavedObject) :
    (opens path objects).map Opened.name = objects.map SavedObject.name := by
  induction objects generalizing path with
  | nil => rfl
  | cons o objects ih => rw [opens, List.map_cons, List.map_cons, ih]

/-- A path that is opened is put together from names of objects. -/
theorem exists_names_of_mem_opens {path : Bytes} {objects : List SavedObject} {f : Opened}
    (h : f ∈ opens path objects) :
    ∃ names ≠ [], names ⊆ objects.map SavedObject.name ∧ f.path = cStr (below path names) := by
  induction objects generalizing path with
  | nil => cases h
  | cons o objects ih =>
    rcases List.mem_cons.mp h with rfl | h
    · exact ⟨[o.name], by simp, by simp, by simp [below]⟩
    · obtain ⟨names, -, hsub, hpath⟩ := ih h
      refine ⟨o.name :: names, by simp, ?_, ?_⟩
      · exact List.cons_subset_cons _ hsub
      · rw [hpath, below_cons]

theorem null_notMem_decimalInt (n : ℤ) : 0 ∉ decimalInt n := by
  have hdecimal := neutral_decimal n.natAbs
  unfold decimalInt
  split_ifs
  · exact (Neutral.append (by decide) hdecimal).1
  · exact hdecimal.1

theorem null_notMem_minuteDir (cfg : SaveConfig) (t : ℤ) : 0 ∉ cfg.minuteDir t := by
  have hroot := cfg.root_no_null
  have hlits : 0 ∉ lit ['/', 'f', 'i', 'l', 'e', 's'] ∧ 0 ∉ lit ['/'] := by decide
  simp [SaveConfig.minuteDir, SaveConfig.filesDir, hroot, hlits, null_notMem_decimalInt]

namespace Decoded

variable (cfg : SaveConfig) (fs : FileSystem) (t : ℤ)

variable {cfg} in
theorem name_of_mem_http {requests : List CRequestHttpInfo} {responses : List CResponseHttpInfo}
    {o : SavedObject} (h : o ∈ (http requests responses).objects cfg id) :
    ∃ i request response, o.name = CHttpTxnDecoder.fileName id i request response := by
  obtain ⟨p, -, hp⟩ := List.mem_filterMap.mp h
  unfold httpObject at hp
  split_ifs at hp
  rw [← Option.some.inj hp]
  exact ⟨_, _, _, rfl⟩

variable {cfg} in
theorem name_of_mem_smtp {mails : List CMailInfo} {o : SavedObject}
    (h : o ∈ (smtp mails).objects cfg id) :
    ∃ index j, ∃ mail ∈ mails, ∃ a ∈ mail.mAttachments, a.isContentTypeCared cfg = true ∧
      o.name = CSmtpTxnDecoder.fileName id index j a := by
  obtain ⟨m, hm, hattachments⟩ := List.mem_flatMap.mp h
  obtain ⟨p, hpmem, hp⟩ := List.mem_filterMap.mp hattachments
  unfold smtpObject at hp
  split_ifs at hp with hcared
  rw [← Option.some.inj hp]
  exact ⟨m.2, p.2, m.1, List.fst_mem_of_mem_zipIdx hm, p.1, List.fst_mem_of_mem_zipIdx hpmem, hcared,
    rfl⟩

/-- Every name begins with the id of the session. -/
theorem exists_rest_of_mem_objects {d : Decoded} {o : SavedObject} (h : o ∈ d.objects cfg id) :
    ∃ rest, o.name = id.getIdStr ++ rest := by
  cases d with
  | http requests responses =>
    obtain ⟨i, request, response, hname⟩ := name_of_mem_http id h
    rw [hname]
    simp only [CHttpTxnDecoder.fileName, List.append_assoc]
    exact ⟨_, rfl⟩
  | smtp mails =>
    obtain ⟨index, j, mail, -, a, -, -, hname⟩ := name_of_mem_smtp id h
    rw [hname]
    simp only [CSmtpTxnDecoder.fileName, List.append_assoc]
    exact ⟨_, rfl⟩

theorem plainTypes_iff (d : Decoded) :
    d.PlainTypes cfg ↔ ∀ o ∈ d.objects cfg id, slash ∉ o.name := by
  cases d with
  | http requests responses =>
    refine iff_of_true trivial ?_
    intro o ho
    obtain ⟨i, request, response, hname⟩ := name_of_mem_http id ho
    rw [hname]
    exact CHttpTxnDecoder.slash_notMem_fileName id i request response
  | smtp mails =>
    constructor
    · intro hplain o ho
      obtain ⟨index, j, mail, hmail, a, ha, hcared, hname⟩ := name_of_mem_smtp id ho
      rw [hname, CSmtpTxnDecoder.slash_notMem_fileName_iff]
      exact hplain mail hmail a ha hcared
    · intro hnames mail hmail a ha hcared
      obtain ⟨index, hindex⟩ := List.mem_iff_getElem?.mp hmail
      obtain ⟨j, hj⟩ := List.mem_iff_getElem?.mp ha
      rw [← CSmtpTxnDecoder.slash_notMem_fileName_iff id index j]
      have hobject : smtpObject cfg id index (a, j) = some _ := if_pos hcared
      apply hnames ⟨CSmtpTxnDecoder.fileName id index j a, a.mContent⟩
      apply List.mem_flatMap.mpr ⟨(mail, index), List.mk_mem_zipIdx_iff_getElem?.mpr hindex, ?_⟩
      exact List.mem_filterMap.mpr ⟨(a, j), List.mk_mem_zipIdx_iff_getElem?.mpr hj, hobject⟩

variable {cfg fs t} in
theorem staysInside_iff_names (hdirs : DirsOk cfg fs t) (d : Decoded) :
    d.StaysInside cfg fs t id ↔ ∀ o ∈ d.objects cfg id, slash ∉ o.name := by
  rw [StaysInside, saveToFile_eq_withDir, withDir_saveAll hdirs]
  have hnames := map_name_opens (cfg.minuteDir t) (d.objects cfg id)
  constructor
  · intro hinside o ho
    have hname : o.name ∈ (opens (cfg.minuteDir t) (d.objects cfg id)).map Opened.name := by
      rw [hnames]
      exact List.mem_map_of_mem ho
    obtain ⟨f, hf, hfname⟩ := List.mem_map.mp hname
    rw [← hfname]
    exact (hinside f hf).1
  · intro hplain f hf
    constructor
    · have hname : f.name ∈ (d.objects cfg id).map SavedObject.name := by
        rw [← hnames]
        exact List.mem_map_of_mem hf
      obtain ⟨o, ho, honame⟩ := List.mem_map.mp hname
      rw [← honame]
      exact hplain o ho
    · obtain ⟨names, hne, hsub, hpath⟩ := exists_names_of_mem_opens hf
      rw [hpath]
      apply inside_cStr_below (null_notMem_minuteDir cfg t) hne
      intro name hname
      obtain ⟨o, ho, rfl⟩ := List.mem_map.mp (hsub hname)
      obtain ⟨rest, hrest⟩ := exists_rest_of_mem_objects id cfg ho
      exact isName_cStr_of_getIdStr id hrest (hplain o ho)

/-- What is saved stays inside its directory exactly if the types of the attachments have no slash. The
names for HTTP are always plain. -/
theorem staysInside_iff (d : Decoded) :
    d.StaysInside cfg fs t id ↔ (DirsOk cfg fs t → d.PlainTypes cfg) := by
  rw [plainTypes_iff id cfg d]
  by_cases hdirs : DirsOk cfg fs t
  · rw [staysInside_iff_names id hdirs]
    exact ⟨fun hplain _ => hplain, fun hplain => hplain hdirs⟩
  · rw [StaysInside, saveToFile_eq_withDir, withDir_of_not_dirsOk hdirs]
    exact iff_of_true (by simp) fun h => absurd h hdirs

/-- An attachment of the type `application/x/../../y`. -/
def escaping : CAttachment where
  mMainType := lit ['a', 'p', 'p', 'l', 'i', 'c', 'a', 't', 'i', 'o', 'n']
  mSubType := lit ['x', '/', '.', '.', '/', '.', '.', '/', 'y']
  mContent := []

theorem not_staysInside_escaping :
    ¬ (Decoded.smtp [⟨[escaping]⟩]).StaysInside defaultConfig roomyDisk 0 webSession := by
  have hdirs : DirsOk defaultConfig roomyDisk 0 := ⟨rfl, rfl⟩
  rw [staysInside_iff_names webSession hdirs]
  decide

end Decoded

end Killerfinder
