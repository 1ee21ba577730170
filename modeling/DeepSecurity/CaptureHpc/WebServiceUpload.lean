import DeepSecurity.CaptureHpc.WebService
import DeepSecurity.Lib.Checked
import DeepSecurity.Lib.CxxString
import DeepSecurity.Lib.Path

/-!
# Uploaded files

The part of `serve` for the requests whose target begins with `/file/`, and `recv_file`, which puts the
path of the file together that the body of a `POST` request is written to.
-/

namespace CaptureHpc

namespace WebService

open Path

/-- `/file/` -/
def uriFile : Bytes := [0x2F, 0x66, 0x69, 0x6C, 0x65, 0x2F]

/-- `C:\WINDOWS\Temp\` -/
def tempFileFolder : Bytes :=
  [0x43, 0x3A, 0x5C, 0x57, 0x49, 0x4E, 0x44, 0x4F, 0x57, 0x53, 0x5C, 0x54, 0x65, 0x6D, 0x70, 0x5C]

/-- The backslash. -/
def backslash : UInt8 := 0x5C

/-- `std::string::npos`, a number of 32 bits. -/
def npos : UInt32 := 0xFFFFFFFF

/-- `uri.find_first_of('/', pos)` -/
def findSlash (uri : Bytes) (pos : ℕ) : UInt32 :=
  match CxxString.find [slash] (uri.drop pos) with
  | some i => UInt32.ofNat (pos + i)
  | none => npos

/-- The application and the file path. If there is no second slash, `found` is `npos`, which is not
zero, and `found + 1` is. -/
def appAndFilepath (uri : Bytes) : Option (Bytes × Bytes) := do
  let found := findSlash uri uriFile.length
  if found ≠ 0 then
    let app ← CxxString.substr uri uriFile.length (found - UInt32.ofNat uriFile.length).toNat
    let filepath ← CxxString.substr uri (found + 1).toNat npos.toNat
    return (app, filepath)
  else return ([], [])

/-- `sprintf` of a text into a buffer. -/
def sprintf (size : ℕ) (text : Bytes) : Checked Bytes :=
  if text.length + 1 ≤ size then .ok text else Checked.fault

/-- The file that the post data are written to. -/
def recvFile (message : HttpMessage) (filepath : Bytes) : Checked (Option Bytes) :=
  if message.postData.isSome ∧ message.postDataLen ≠ 0 then do
    let file ← sprintf 1024 (tempFileFolder ++ cStr filepath)
    return some file
  else return none

/-- What is done for a request: a file is sent, a file is written and the command event raised, or an
error is returned. -/
inductive Served where
  | sendFile (filepath : Bytes)
  | writeFile (file app filepath : Bytes)
  | error
deriving DecidableEq

/-- `serve` for a target that begins with `/file/`. -/
def serveFileUri (method : UInt8) (message : HttpMessage) : Checked Served :=
  match appAndFilepath (cStr message.requestUri) with
  | none => Checked.drop
  | some (app, filepath) =>
    if method = 1 then return .sendFile filepath
    else if method = 3 then do
      match ← recvFile message filepath with
      | some file => return .writeFile file app filepath
      | none => return .error
    else return .error

/-! ## What is expected -/

/-- The name of a file in a folder. -/
structure PlainName (name : Bytes) : Prop where
  /-- There is no slash in it. -/
  no_slash : slash ∉ name
  /-- There is no backslash in it. -/
  no_backslash : backslash ∉ name
  /-- It is not the parent folder. -/
  ne_dots : name ≠ [dot, dot]

/-- The path fits into its buffer, and leads into the folder for temporary files. -/
def Confined (message : HttpMessage) : Prop :=
  ∃ name app filepath,
    serveFileUri 3 message = .ok (.writeFile (tempFileFolder ++ name) app filepath) ∧ PlainName name

end WebService

end CaptureHpc
