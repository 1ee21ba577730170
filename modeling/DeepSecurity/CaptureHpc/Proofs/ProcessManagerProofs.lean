import DeepSecurity.CaptureHpc.ProcessManager

/-!
# Proofs: converting a path twice

A converted path begins with a drive letter, so that the second conversion leaves it as it is. What can
go wrong is the first one: without a third backslash there is nothing to cut off.
-/

namespace CaptureHpc

namespace ProcessManager

open CxxString Xml

variable {w : Windows} {path dosPath : Units}

/-! ## Where the device ends -/

/-- The third backslash is missed exactly if there are two of them; if there is only one, the search
starts again and finds it. -/
theorem pathOffset_eq_none_iff (hhead : path.head? = some backslash) :
    pathOffset path = none ↔ path.count backslash = 2 := by
  obtain ⟨rest, rfl⟩ := List.head?_eq_some_iff.mp hhead
  by_cases hsecond : backslash ∈ rest
  · obtain ⟨device, tail, rfl, hdevice⟩ := List.eq_append_cons_of_mem hsecond
    have hfirst : findFrom backslash (backslash :: (device ++ backslash :: tail)) 1 =
        some (1 + device.length) := findFrom_append hdevice [backslash] tail
    have hsplit : backslash :: (device ++ backslash :: tail) =
        (backslash :: device ++ [backslash]) ++ tail := by simp
    have hlength : 1 + device.length + 1 = (backslash :: device ++ [backslash]).length := by
      simp only [List.length_append, List.length_cons, List.length_nil]
      omega
    have hcount : (backslash :: (device ++ backslash :: tail)).count backslash =
        tail.count backslash + 2 := by
      simp [List.count_eq_zero_of_not_mem hdevice]
    simp only [pathOffset, hfirst]
    rw [hcount, hlength, hsplit]
    by_cases hthird : backslash ∈ tail
    · obtain ⟨name, file, rfl, hname⟩ := List.eq_append_cons_of_mem hthird
      rw [findFrom_append hname]
      simp
    · rw [findFrom_eq_none hthird, List.count_eq_zero_of_not_mem hthird]
      simp
  · have hnone : findFrom backslash (backslash :: rest) 1 = none :=
      findFrom_eq_none hsecond [backslash]
    have hagain : findFrom backslash (backslash :: rest) 0 = some 0 := findFrom_zero.mpr rfl
    simp only [pathOffset, hnone, hagain, List.count_cons_self, List.count_eq_zero_of_not_mem hsecond]
    simp

/-! ## Drives -/

theorem exists_drive (devicePath : Units) :
    ∃ drive, convertDevicePathToDOSDrive w devicePath = [drive, 0x3A] ∧ drive ≠ backslash ∧
      drive ≠ 0 := by
  have hdrives : (drives.all fun drive => drive != backslash && drive != 0) = true := by decide
  unfold convertDevicePathToDOSDrive
  dsimp only
  refine ⟨_, rfl, ?_⟩
  cases hfind : drives.find? _ with
  | none => decide
  | some drive =>
    have hdrive := List.all_eq_true.mp hdrives drive (List.mem_of_find?_eq_some hfind)
    simpa using hdrive

/-- What is converted begins with a drive. -/
theorem head?_of_convert (h : convertFileObjectPathToDOSPath w path = some dosPath) :
    dosPath = path ∨ dosPath.head? ≠ some backslash := by
  unfold convertFileObjectPathToDOSPath at h
  split_ifs at h
  · cases hoffset : pathOffset path with
    | none =>
      rw [hoffset] at h
      cases h
    | some offset =>
      obtain ⟨drive, hdrive, hbackslash, hnull⟩ := exists_drive (w := w) (path.take offset)
      rw [hoffset] at h
      simp only [hdrive, Option.some.injEq] at h
      right
      have hcut : (upToNull 0 ([drive, 0x3A] ++ path.drop offset)).head? = some drive := by
        simp [upToNull, hnull]
      cases hlong : w.getLongPathName (upToNull 0 ([drive, 0x3A] ++ path.drop offset)) with
      | none =>
        rw [hlong] at h
        rw [← h]
        simpa using hbackslash
      | some long =>
        rw [hlong] at h
        rw [← h]
        have hhead := w.head?_getLongPathName _ _ hlong
        rw [hcut] at hhead
        simpa [hhead] using hbackslash
  · exact Or.inl (Option.some.inj h).symm
  · exact Or.inl (Option.some.inj h).symm

theorem convert_of_head? (h : path.head? ≠ some backslash) :
    convertFileObjectPathToDOSPath w path = some path := by
  rw [convertFileObjectPathToDOSPath, if_neg (mt findFrom_zero.mp h)]

/-- The second conversion makes no difference. -/
theorem convert_of_convert (h : convertFileObjectPathToDOSPath w path = some dosPath) :
    convertFileObjectPathToDOSPath w dosPath = some dosPath := by
  rcases head?_of_convert h with rfl | hhead
  · exact h
  · exact convert_of_head? hhead

/-! ## Results -/

theorem convert_eq_none_iff : convertFileObjectPathToDOSPath w path = none ↔ DeviceOnly path := by
  unfold convertFileObjectPathToDOSPath DeviceOnly
  split_ifs with hhead hlength
  · rw [findFrom_zero] at hhead
    rw [and_iff_right hhead, and_iff_right hlength, ← pathOffset_eq_none_iff hhead]
    cases pathOffset path <;> simp
  · simp [hlength]
  · simp [findFrom_zero.not.mp hhead]

/-- A path is converted, and only once, exactly if it is not just the name of a device. -/
theorem settles_iff (w : Windows) (path : Units) : Settles w path ↔ ¬ DeviceOnly path := by
  rw [← convert_eq_none_iff (w := w)]
  constructor
  · rintro ⟨dosPath, hpath, -⟩
    rw [hpath]
    exact Option.some_ne_none dosPath
  · intro hpath
    obtain ⟨dosPath, hdosPath⟩ := Option.ne_none_iff_exists'.mp hpath
    exact ⟨dosPath, hdosPath, convert_of_convert hdosPath⟩

/-- `\Device\HarddiskVolume10` -/
def harddiskVolume10 : Units :=
  backslash :: ['D', 'e', 'v', 'i', 'c', 'e'].map (fun c => UInt16.ofNat c.toNat) ++
    backslash :: ['H', 'a', 'r', 'd', 'd', 'i', 's', 'k', 'V', 'o', 'l', 'u', 'm', 'e', '1', '0'].map
      (fun c => UInt16.ofNat c.toNat)

/-- A computer whose drive `C:` is `\Device\HarddiskVolume10`. -/
def oneDrive : Windows where
  queryDosDevice drive := if drive = 0x43 then some harddiskVolume10 else none
  getLongPathName _ := none
  head?_getLongPathName := by simp

/-- The name of the device ends the path. -/
theorem not_settles_device : ¬ Settles oneDrive harddiskVolume10 := by
  rintro ⟨dosPath, hpath, -⟩
  cases hpath

/-- A file on the drive. -/
example : convertFileObjectPathToDOSPath oneDrive (harddiskVolume10 ++ [backslash, 0x61]) =
    some [0x43, 0x3A, backslash, 0x61] := by
  decide

/-! ## The map of the processes -/

/-- The map gets the path that has been converted once. -/
theorem onProcessEvent_create (processMap : ProcessMap) (processId : UInt32) (process : Units) :
    onProcessEvent w processMap (.create processId process) =
      (convertFileObjectPathToDOSPath w process).map fun dosPath id =>
        if id = processId then some dosPath else processMap id := by
  cases hpath : convertFileObjectPathToDOSPath w process with
  | none => simp [onProcessEvent, hpath]
  | some dosPath => simp [onProcessEvent, insertProcess, hpath, convert_of_convert hpath]

/-- The paths in the map are those that another conversion leaves as they are. -/
def Settled (w : Windows) (processMap : ProcessMap) : Prop :=
  ∀ processId path, processMap processId = some path →
    convertFileObjectPathToDOSPath w path = some path

theorem Settled.step {processMap processMap' : ProcessMap} {event : ProcessEvent}
    (h : Settled w processMap) (hstep : onProcessEvent w processMap event = some processMap') :
    Settled w processMap' := by
  cases event with
  | create processId process =>
    rw [onProcessEvent_create] at hstep
    obtain ⟨dosPath, hdosPath, rfl⟩ := Option.map_eq_some_iff.mp hstep
    intro id path hpath
    dsimp only at hpath
    split_ifs at hpath with hid
    · rw [← Option.some.inj hpath]
      exact convert_of_convert hdosPath
    · exact h id path hpath
  | terminate processId process =>
    rw [← Option.some.inj hstep]
    exact h

theorem settled_of_run {events : List ProcessEvent} {processMap : ProcessMap}
    (h : run w events = some processMap) : Settled w processMap := by
  suffices ∀ start, Settled w start → events.foldlM (onProcessEvent w) start = some processMap →
      Settled w processMap from this _ (fun _ _ hnone => by cases hnone) h
  clear h
  induction events with
  | nil =>
    intro start hstart h
    rwa [← Option.some.inj h]
  | cons event events ih =>
    intro start hstart h
    rw [List.foldlM_cons] at h
    obtain ⟨next, hnext, hrest⟩ := Option.bind_eq_some_iff.mp h
    exact ih next (hstart.step hnext) hrest

/-- The run comes to an end exactly if no process is created whose path is just a device. -/
theorem isSome_run_iff (w : Windows) (events : List ProcessEvent) :
    (run w events).isSome ↔ ∀ processId process, .create processId process ∈ events →
      ¬ DeviceOnly process := by
  suffices ∀ start, (events.foldlM (onProcessEvent w) start).isSome ↔ ∀ processId process,
      .create processId process ∈ events → ¬ DeviceOnly process from this _
  induction events with
  | nil => simp
  | cons event events ih =>
    intro start
    rw [List.foldlM_cons]
    cases event with
    | create processId process =>
      rw [onProcessEvent_create]
      cases hpath : convertFileObjectPathToDOSPath w process with
      | none =>
        have hdevice := convert_eq_none_iff.mp hpath
        simp only [Option.map_none, Option.bind_eq_bind, Option.bind_none, Option.isSome_none,
          Bool.false_eq_true, false_iff]
        exact fun h => h processId process List.mem_cons_self hdevice
      | some dosPath =>
        have hdevice : ¬ DeviceOnly process := by
          rw [← convert_eq_none_iff (w := w), hpath]
          exact Option.some_ne_none dosPath
        simp only [Option.map_some, Option.bind_eq_bind, Option.bind_some, ih, List.mem_cons,
          ProcessEvent.create.injEq]
        constructor
        · rintro h id p (⟨-, rfl⟩ | hmem)
          · exact hdevice
          · exact h id p hmem
        · exact fun h id p hmem => h id p (Or.inr hmem)
    | terminate processId process => simp [onProcessEvent, ih]

end ProcessManager

end CaptureHpc
