import DeepSecurity.Cloudserver.Jobs
import DeepSecurity.Lib.BufferedFile
import DeepSecurity.Lib.CxxString

/-!
# The receiver of the logs

`CLogReceiver` of `sbxlogserver.py`: the lines of a connection are written to a file that is named after
the current minute. From time to time the receiver looks whether another minute has begun; then it
closes the file and copies it to where it is taken up. The last file is copied when the connection is
lost.
-/

namespace Cloudserver

open BufferedFile

/-- The end of a line. -/
def newline : UInt8 := 0x0A

/-- The slash. -/
def solidus : UInt8 := 0x2F

/-- The two folders of a client. -/
structure Folders where
  /-- The folder that the lines are written to. -/
  logFolder : Bytes
  /-- The folder that the files are copied to. -/
  dstFolder : Bytes
  /-- They are different folders. -/
  ne : logFolder ≠ dstFolder

/-- What `strftime` makes of the current time. -/
abbrev Minute := { l : Bytes // solidus ∉ l }

/-- The receiver of a connection. The last field is not in the source: it is every line that has been
written, with the file it has been written to. -/
structure CLogReceiver where
  /-- The files on the disk, and the open one. -/
  store : Store Bytes UInt8
  /-- The name of the open file. -/
  file2Write : Bytes
  /-- The lines until the time is looked at again. -/
  c : ℕ
  /-- The lines that have been written, with their files. -/
  saved : List (Bytes × Bytes)

/-- The part of a path behind the last slash; all of it if there is none. -/
def baseName (path : Bytes) : Bytes :=
  match CxxString.findLast solidus path with
  | some i => path.drop (i + 1)
  | none => path

namespace Folders

variable (f : Folders)

/-- The file for the current time. -/
def logFile (now : Minute) : Bytes := f.logFolder ++ solidus :: now.1

/-- The copy of a file. -/
def dstFile (file : Bytes) : Bytes := f.dstFolder ++ solidus :: baseName file

end Folders

namespace CLogReceiver

variable (f : Folders) (r : CLogReceiver)

/-- There is no file with the empty name. -/
def fileExists (name : Bytes) : Bool := name ≠ [] && (r.store.files name).isSome

/-- The file is copied as it is on the disk. -/
def copyFile2Write : CLogReceiver :=
  if r.fileExists r.file2Write then
    { r with store := r.store.copyFile r.file2Write (f.dstFile r.file2Write) }
  else r

/-- Another file closes the current one, which is then copied. -/
def leaveFile (file : Bytes) : CLogReceiver :=
  if r.file2Write ≠ file then
    { ({ r with store := r.store.close }.copyFile2Write f) with file2Write := file }
  else r

/-- The file for the current time is opened, unless it is open already. -/
def createFD2Write (now : Minute) : CLogReceiver :=
  let file := f.logFile now
  let r := r.leaveFile f file
  if r.store.out.isNone then { r with store := r.store.openAppend file } else r

/-- The time is looked at with every 65th line only. -/
def revisitFD2Write (now : Minute) : CLogReceiver :=
  if r.c ≤ 0 then { r with c := 64 }.createFD2Write f now else { r with c := r.c - 1 }

/-- The line is written to the open file. -/
def saveIt (line : Bytes) (now : Minute) : CLogReceiver :=
  let r := r.revisitFD2Write f now
  { r with
    store := r.store.write (line ++ [newline])
    saved := r.saved ++ [(r.file2Write, line)] }

/-- Blank lines are ignored. -/
def lineReceived (line : Bytes) (now : Minute) : CLogReceiver :=
  if line = [] then r else r.saveIt f line now

/-- The receiver when the connection is made. -/
def connectionMade (files : Bytes → Option Bytes) (now : Minute) : CLogReceiver :=
  createFD2Write f ⟨⟨files, none⟩, [], 64, []⟩ now

/-- The copy is made before the file is closed. -/
def connectionLost : CLogReceiver :=
  let r := r.copyFile2Write f
  { r with store := r.store.close }

end CLogReceiver

/-- What happens on a connection: a line comes, at a time, or a part of the buffer is written to the
disk. -/
inductive LogEvent where
  | line (line : Bytes) (now : Minute)
  | flush (n : ℕ)

namespace CLogReceiver

variable (f : Folders)

/-- What an event does. -/
def step (r : CLogReceiver) : LogEvent → CLogReceiver
  | .line line now => r.lineReceived f line now
  | .flush n => { r with store := r.store.flush n }

/-- The connection up to its loss. -/
def run (files : Bytes → Option Bytes) (now : Minute) (events : List LogEvent) : CLogReceiver :=
  events.foldl (step f) (connectionMade f files now)

/-! ## What is expected -/

/-- The lines that are not empty. -/
def records (events : List LogEvent) : List Bytes :=
  events.filterMap fun
    | .line line _ => if line = [] then none else some line
    | .flush _ => none

/-- The text of the lines that have been written to a file. -/
def textFor (saved : List (Bytes × Bytes)) (file : Bytes) : Bytes :=
  saved.flatMap fun p => if p.1 = file then p.2 ++ [newline] else []

/-- Every line has been written to some file, and the copy of the file has, behind what was in the file
before, all lines that have been written to it, where the last line break may be missing. -/
structure Forwards (files : Bytes → Option Bytes) (events : List LogEvent) (r : CLogReceiver) :
    Prop where
  /-- Every line has been written. -/
  saved : r.saved.map Prod.snd = records events
  /-- Every file that has been written to has a complete copy. -/
  copies : ∀ file ∈ r.saved.map Prod.fst, ∃ copy, r.store.files (f.dstFile file) = some copy ∧
    (copy = (files file).getD [] ++ textFor r.saved file ∨
      copy ++ [newline] = (files file).getD [] ++ textFor r.saved file)

/-- What is in the buffer. -/
def pending (r : CLogReceiver) : Bytes := r.store.buffered r.file2Write

end CLogReceiver

end Cloudserver
