import DeepSecurity.Lib.CxxString
import DeepSecurity.Lib.Xml

/-!
# Paths of processes

`ProcessManager.cpp`: the paths that the kernel has for the images of processes begin with the name of a
device and are turned into paths with a drive letter. `onProcessEvent` converts a path and hands it to
`insertProcess`, which converts it once more.
-/

namespace CaptureHpc

namespace ProcessManager

open CxxString Xml

/-- The backslash. -/
def backslash : UInt16 := 0x5C

/-- The functions of Windows that are called. -/
structure Windows where
  /-- `QueryDosDevice`: the device of a drive. -/
  queryDosDevice : (drive : UInt16) → Option Units
  /-- `GetLongPathName`: what is in the buffer if the result is positive. -/
  getLongPathName : Units → Option Units
  /-- The drive remains the same. -/
  head?_getLongPathName : ∀ path long, getLongPathName path = some long → long.head? = path.head?

variable (w : Windows)

/-- The letters of the drives, from `A` to `Z`. -/
def drives : List UInt16 := (List.range' 0x41 26).map UInt16.ofNat

/-- The first drive of the device, or `?:`. -/
def convertDevicePathToDOSDrive (devicePath : Units) : Units :=
  let isDevice (drive : UInt16) : Bool :=
    (w.queryDosDevice drive).map (upToNull 0) == some (upToNull 0 devicePath)
  [(drives.find? isDevice).getD 0x3F, 0x3A]

/-- Where the name of the device ends: at the third backslash. A second one that is not found is
`npos`, and `npos + 1` is `0`. -/
def pathOffset (fileObjectPath : Units) : Option ℕ :=
  let second := match findFrom backslash fileObjectPath 1 with
    | some i => i + 1
    | none => 0
  findFrom backslash fileObjectPath second

/-- `none` if `std::out_of_range` is thrown, by `substr(npos)`. -/
def convertFileObjectPathToDOSPath (fileObjectPath : Units) : Option Units :=
  if findFrom backslash fileObjectPath 0 = some 0 then
    if 23 < fileObjectPath.length then
      match pathOffset fileObjectPath with
      | none => none
      | some pathOffset =>
        let devicePath := fileObjectPath.take pathOffset
        let dosDrive := convertDevicePathToDOSDrive w devicePath
        let dosPath := dosDrive ++ fileObjectPath.drop pathOffset
        some ((w.getLongPathName (upToNull 0 dosPath)).getD dosPath)
    else some fileObjectPath
  else some fileObjectPath

/-! ## The map of the processes -/

/-- `processMap` -/
abbrev ProcessMap := UInt32 → Option Units

/-- The process is put into the map with its path, which is converted here. -/
def insertProcess (processId : UInt32) (processPath : Units) (processMap : ProcessMap) :
    Option ProcessMap := do
  let processCompletePath ← convertFileObjectPathToDOSPath w processPath
  return fun id => if id = processId then some processCompletePath else processMap id

/-- An event about a process; only the creation of one matters here. -/
inductive ProcessEvent where
  | create (processId : UInt32) (process : Units)
  | terminate (processId : UInt32) (process : Units)

/-- The path of a new process is converted before it is inserted. -/
def onProcessEvent (processMap : ProcessMap) : ProcessEvent → Option ProcessMap
  | .create processId process => do
    let processPath ← convertFileObjectPathToDOSPath w process
    insertProcess w processId processPath processMap
  | .terminate _ _ => some processMap

/-- The map after the events, which an exception ends. -/
def run (events : List ProcessEvent) : Option ProcessMap :=
  events.foldlM (onProcessEvent w) fun _ => none

/-! ## What is expected -/

/-- The path is converted, and it makes no difference to convert it once more. -/
def Settles (path : Units) : Prop :=
  ∃ dosPath, convertFileObjectPathToDOSPath w path = some dosPath ∧
    convertFileObjectPathToDOSPath w dosPath = some dosPath

/-- A path of more than 23 characters that ends with the name of the device. -/
def DeviceOnly (path : Units) : Prop :=
  path.head? = some backslash ∧ 23 < path.length ∧ path.count backslash = 2

instance (path : Units) : Decidable (DeviceOnly path) := inferInstanceAs (Decidable (_ ∧ _))

end ProcessManager

end CaptureHpc
