import DeepSecurity.CaptureHpc.Base64
import DeepSecurity.CaptureHpc.EventController
import DeepSecurity.Lib.CxxString
import DeepSecurity.Lib.Numeral

/-!
# The transfer of a file

`FileUploader`: a file is sent to the server in parts of at most 8192 bytes, each in an element of its
own, until a read comes to the end of the file. The server may ask for a part again.
-/

namespace CaptureHpc

open Xml

/-- An ASCII text in wide characters. -/
def wide (l : List Char) : Units := l.map fun c => UInt16.ofNat c.toNat

/-- The value of the first attribute with the name. -/
def Element.getAttributeValue (e : Element) (name : Units) : Units :=
  match e.attributes.find? (·.1 == name) with
  | some a => a.2
  | none => []

/-- The conversion of an `unsigned int` to an `int`. -/
def toSigned (n : UInt32) : ℤ := if n.toNat < 2 ^ 31 then n.toNat else n.toNat - 2 ^ 32

/-- The conversion of an `int` to an `unsigned int`. -/
def toUnsigned (z : ℤ) : UInt32 := UInt32.ofNat (z % 2 ^ 32).toNat

/-- `boost::lexical_cast<int>`; the exception ends the handler. -/
def lexicalCast (value : Units) : Checked ℤ :=
  match Numeral.read value with
  | some z => if -2 ^ 31 ≤ z ∧ z < 2 ^ 31 then .ok z else Checked.drop
  | none => Checked.drop

/-! ## Streams -/

/-- A file that is open for reading. -/
structure Stream where
  /-- The bytes of the file. -/
  content : List UInt8
  /-- The position of the next read. -/
  position : ℕ
  /-- A read has come to the end of the file. -/
  eof : Bool

namespace Stream

/-- An offset that is negative as a `long` is refused. -/
def fseek (f : Stream) (offset : UInt32) : Stream :=
  if offset.toNat < 2 ^ 31 then { f with position := offset.toNat, eof := false } else f

/-- The end of the file is noticed by a read that wants more than there is. -/
def fread (f : Stream) (size : ℕ) : List UInt8 × Stream :=
  let l := (f.content.drop f.position).take size
  (l, { f with position := f.position + l.length, eof := f.eof || l.length < size })

end Stream

/-! ## The uploader -/

/-- What the server is given to send. -/
inductive Message where
  | xml (elementName : Units) (attributes : List (Units × Units))
  | element (e : Element)

/-- The fields of the class, and the messages that have been sent. -/
structure FileUploader where
  /-- The server has accepted a file. -/
  fileAccepted : Bool
  /-- The file is open. -/
  fileOpened : Bool
  /-- The name of the file. -/
  fileName : Units
  /-- A transfer is going on. -/
  busy : Bool
  /-- The size of the file. -/
  fileSize : ℕ
  /-- The open file. -/
  pFileStream : Stream
  /-- What the server has got so far. -/
  sent : List Message

/-- What is outside: the connection, the files, whether they can be opened for reading by the C library,
and what comes while the uploader waits. `reply` is `none` if nothing comes within five seconds, and
else says whether the file is accepted. -/
structure Outside where
  /-- The server is connected. -/
  connected : Bool
  /-- The contents of the files that exist. -/
  files : Units → Option (List UInt8)
  /-- The files that can be opened. -/
  opens : Units → Bool
  /-- What the server answers to the request. -/
  reply : Option Bool

/-- The attribute with the offset of a part. -/
def partStart : Units := wide ['p', 'a', 'r', 't', '-', 's', 't', 'a', 'r', 't']

/-- The attribute with the offset behind a part. -/
def partEnd : Units := wide ['p', 'a', 'r', 't', '-', 'e', 'n', 'd']

namespace FileUploader

/-- Reads a part of the file and sends it, unless it is empty. The result is the number of bytes, or
zero at the end of the file. -/
def sendFilePart (u : FileUploader) (offset size : UInt32) : Checked (UInt32 × FileUploader) :=
  if u.fileOpened then do
    let (filePart, stream) := (u.pFileStream.fseek offset).fread size.toNat
    let bytesRead := UInt32.ofNat filePart.length
    let encoded ← Base64.encode filePart
    let element : Element :=
      ⟨wide ['p', 'a', 'r', 't'],
        [(wide ['n', 'a', 'm', 'e'], u.fileName),
          (partStart, Numeral.write offset.toNat),
          (wide ['e', 'n', 'c', 'o', 'd', 'i', 'n', 'g'], wide ['b', 'a', 's', 'e', '6', '4']),
          (partEnd, Numeral.write (toSigned (offset + bytesRead)))],
        [], encoded.mem.take encoded.k⟩
    let sent := if 0 < bytesRead then u.sent ++ [.element element] else u.sent
    return (if stream.eof then 0 else bytesRead, { u with pFileStream := stream, sent := sent })
  else return (0, u)

/-- The loop of `sendFile`. -/
def sendParts : (rounds : ℕ) → (offset : UInt32) → FileUploader → Checked FileUploader
  | 0, _, _ => Checked.diverge
  | rounds + 1, offset, u => do
    let (bytesRead, u) ← u.sendFilePart offset 8192
    if 0 < bytesRead then sendParts rounds (offset + bytesRead) u else return u

/-- What follows the last dot; the whole name if there is none, since `npos + 1` is `0`. -/
def fileType (file : Units) : Units :=
  match CxxString.findLast 0x2E file with
  | some pos => file.drop (pos + 1)
  | none => file

/-- The attributes of the messages before and after the parts. -/
def atts (file : Units) (fileSize : ℕ) : List (Units × Units) :=
  [(wide ['n', 'a', 'm', 'e'], file), (wide ['s', 'i', 'z', 'e'], Numeral.write fileSize),
    (wide ['t', 'y', 'p', 'e'], fileType file)]

/-- The file is open, the server is asked to accept it, and the wait for its reply is over. -/
def request (o : Outside) (u : FileUploader) (file : Units) (content : List UInt8) : FileUploader :=
  { u with
    fileOpened := true
    pFileStream := ⟨content, 0, false⟩
    sent := u.sent ++ [.xml (wide ['f', 'i', 'l', 'e']) (atts file u.fileSize)]
    fileAccepted := u.fileAccepted || o.reply.getD false }

/-- `sendFile`, with the number of rounds that its loop may take. -/
def sendFile (o : Outside) (rounds : ℕ) (u : FileUploader) (file : Units) :
    Checked (Bool × FileUploader) :=
  if !o.connected then return (false, u)
  else
    let u := { u with busy := true, fileName := file }
    match o.files file with
    | none => return (false, { u with busy := false })
    | some content =>
      let u := { u with fileSize := content.length }
      if !o.opens file then return (false, { u with busy := false })
      else
        let u := request o u file content
        if o.reply.isNone || !u.fileAccepted then
          return (false, { u with busy := false, fileOpened := false })
        else do
          let u ← sendParts rounds 0 u
          let finished := wide ['f', 'i', 'l', 'e', '-', 'f', 'i', 'n', 'i', 's', 'h', 'e', 'd']
          let sent := u.sent ++ [.xml finished (atts file u.fileSize)]
          return (true, { u with sent := sent, fileOpened := false, busy := false })

/-- The last attribute of a name counts. -/
def requestedRange (range : ℤ × ℤ) (a : Units × Units) : Checked (ℤ × ℤ) :=
  if a.1 = partStart then return (← lexicalCast a.2, range.2)
  else if a.1 = partEnd then return (range.1, ← lexicalCast a.2)
  else return range

/-- The end of the requested range is passed for the size of the part. -/
def onReceiveFileErrorEvent (u : FileUploader) (element : Element) : Checked FileUploader := do
  let (start, stop) ← element.attributes.foldlM requestedRange (0, 0)
  if start ≠ 0 ∧ stop ≠ 0 then
    let (_, u) ← u.sendFilePart (toUnsigned start) (toUnsigned stop)
    return u
  else return u

end FileUploader

/-! ## What is expected -/

/-- What an element says about the file. -/
structure Part where
  /-- The offset of the first byte. -/
  start : ℤ
  /-- The offset behind the last byte. -/
  stop : ℤ
  /-- The bytes. -/
  data : List UInt8

/-- The part that an element stands for, if it can be read. -/
def Element.part (e : Element) : Option Part := do
  let start ← Numeral.read (e.getAttributeValue partStart)
  let stop ← Numeral.read (e.getAttributeValue partEnd)
  let data ← StandardBase64.decode e.data
  if e.name = wide ['p', 'a', 'r', 't'] then some ⟨start, stop, data⟩ else none

/-- The parts go from the one position to the other without a gap. -/
def Consecutive : ℤ → List Part → ℤ → Prop
  | a, [], b => a = b
  | a, p :: ps, b => p.start = a ∧ Consecutive p.stop ps b

/-- The elements are the content of the file from the offset on. -/
structure Transfers (elements : List Element) (content : List UInt8) (offset : ℕ) : Prop where
  /-- There are parts that the elements stand for, none of them empty, one behind the other. -/
  parts : ∃ ps : List Part, elements.map Element.part = ps.map some ∧
    (∀ p ∈ ps, p.start < p.stop ∧ p.data ≠ []) ∧ Consecutive offset ps content.length ∧
    ps.flatMap Part.data = content.drop offset

/-- The event asks for the bytes of the file from `start` to `stop`. -/
structure Requests (event : Element) (start stop : ℕ) : Prop where
  /-- No name of an attribute occurs twice. -/
  distinct : (event.attributes.map Prod.fst).Nodup
  /-- The offset of the first byte is given. -/
  start_eq : Numeral.read (event.getAttributeValue partStart) = some (start : ℤ)
  /-- The offset behind the last byte is given. -/
  stop_eq : Numeral.read (event.getAttributeValue partEnd) = some (stop : ℤ)

/-- The file can be sent: there is a connection, the file can be opened, and the server lets it pass. -/
def Outside.admits (o : Outside) (u : FileUploader) (file : Units) : Bool :=
  o.connected && o.opens file && o.reply.isSome && (u.fileAccepted || o.reply.getD false)

namespace FileUploader

/-- The elements that have been sent. -/
def elements (u : FileUploader) : List Element :=
  u.sent.filterMap fun
    | .element e => some e
    | .xml _ _ => none

/-- One part is sent, and it is the requested one. -/
def Resends (u : FileUploader) (event : Element) (start stop : ℕ) : Prop :=
  ∃ u' e, u.onReceiveFileErrorEvent event = .ok u' ∧ u'.sent = u.sent ++ [.element e] ∧
    e.part = some ⟨start, stop, (u.pFileStream.content.drop start).take (stop - start)⟩

end FileUploader

end CaptureHpc
