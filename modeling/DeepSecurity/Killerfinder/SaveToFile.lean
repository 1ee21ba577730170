import DeepSecurity.Killerfinder.DBManager
import DeepSecurity.Killerfinder.Packet
import DeepSecurity.Lib.CxxString
import DeepSecurity.Lib.Path
import Mathlib.Data.PNat.Notation

/-!
# Saving what a session has transferred

`CHttpTxnDecoder::saveToFile` writes the bodies of the responses of a session to files, and
`CSmtpTxnDecoder::saveToFile` the attachments of its mails. The answers of the file system are a
parameter. The result is the list of the files that are opened, in order.
-/

namespace Killerfinder

open CxxString Path

/-! ## Settings and the file system -/

/-- The settings of `CConfig` that are read here. The root path comes out of an XML file as a C
string. -/
structure SaveConfig where
  /-- The directory below which everything is saved. -/
  mRootPath : Bytes
  /-- The content types that are saved. One that occurs anywhere in the type of an object counts. -/
  mCaredContentTypes : List Bytes
  /-- A C string has no null character. -/
  root_no_null : 0 ∉ mRootPath

/-- The answers of the system calls. -/
structure FileSystem where
  /-- `access(path, F_OK)` succeeds. -/
  access : Bytes → Bool
  /-- `mkdir` succeeds. -/
  mkdir : Bytes → Bool
  /-- `f_bavail` and `f_bsize`. -/
  statfs : Bytes → Option (ℕ × ℕ+)

/-- An existing path counts as a directory. -/
def makeDir (fs : FileSystem) (path : Bytes) : Bool := fs.access path || fs.mkdir path

/-- There must be 200 MB left. -/
def isFileSystemOk (fs : FileSystem) (path : Bytes) : Bool :=
  makeDir fs path &&
    match fs.statfs path with
    | none => false
    | some (spaceLeft, bsize) => !decide (spaceLeft < 200 * 1024 * 1024 / (bsize : ℕ))

/-! ## Numbers and ids as text -/

/-- A number as `operator<<` writes it. -/
def decimal (n : ℕ) : Bytes := lit (Nat.toDigits 10 n)

/-- A signed number as `operator<<` writes it. -/
def decimalInt (n : ℤ) : Bytes := if n < 0 then lit ['-'] ++ decimal n.natAbs else decimal n.natAbs

/-- All bytes behind the first four are null. Some IPv6 addresses pass this, too. -/
def CIpAddress.isV4 (a : CIpAddress) : Bool := (a.mAddr.drop 4).all (· = 0)

/-- The first bytes of an address, each followed by a dot. -/
def CIpAddress.dotted (a : CIpAddress) (loop : ℕ) : Bytes :=
  (a.mAddr.take loop).flatMap fun b => decimal b.toNat ++ lit ['.']

/-- The name of a connection in logs and file names: four numbers an address if both look like IPv4
addresses, 16 otherwise. -/
def CTcpSessionId.getIdStr (id : CTcpSessionId) : Bytes :=
  let loop := if id.mSrcIp.isV4 && id.mDstIp.isV4 then 4 else 16
  id.mSrcIp.dotted loop ++ decimal id.mSrcPort.toNat ++ lit ['-'] ++
    id.mDstIp.dotted loop ++ decimal id.mDstPort.toNat

/-! ## Opening files -/

/-- A file that is opened: the name that has been appended for it, the path as the operating system
sees it, and what is written. -/
structure Opened where
  /-- The name that has been appended for it. -/
  name : Bytes
  /-- The path up to its first null character. -/
  path : Bytes
  /-- The bytes written to the file. -/
  content : Bytes
deriving DecidableEq

/-- The stream `path` and the files opened so far. -/
structure Saving where
  /-- What has been written to the stream. -/
  path : Bytes
  /-- The files in the order of their opening. -/
  opened : List Opened

/-- The end of the loop body of both functions. The stream keeps what is written to it. -/
def Saving.save (st : Saving) (name content : Bytes) : Saving :=
  let path := st.path ++ slash :: name
  ⟨path, st.opened ++ [⟨name, cStr path, content⟩]⟩

/-- The directory `files`. -/
def SaveConfig.filesDir (cfg : SaveConfig) : Bytes :=
  cfg.mRootPath ++ lit ['/', 'f', 'i', 'l', 'e', 's']

/-- The directory for the time `t`. Its name is the minute, converted to an `int`. -/
def SaveConfig.minuteDir (cfg : SaveConfig) (t : ℤ) : Bytes :=
  cfg.filesDir ++ lit ['/'] ++ decimalInt ((t.tdiv 60).bmod (2 ^ 32))

/-- The frame of both functions: the loop is not reached if a directory cannot be made. -/
def withDir (cfg : SaveConfig) (fs : FileSystem) (t : ℤ) (loop : Saving → Saving) : List Opened :=
  if !isFileSystemOk fs cfg.filesDir then []
  else if !makeDir fs (cfg.minuteDir t) then []
  else (loop ⟨cfg.minuteDir t, []⟩).opened

/-! ## HTTP -/

/-- The part of a request that a file name needs. -/
structure CRequestHttpInfo where
  /-- The request target. -/
  mUrl : Bytes

/-- The defaults are those of the constructor. -/
structure CResponseHttpInfo where
  /-- The status code. -/
  mStatus : ℤ := 0
  /-- The value of the header `Content-Type`. -/
  mContentType : Bytes := lit ['U', 'n', 'k', 'n', 'o', 'w', 'n', 'T', 'y', 'p', 'e']
  /-- The decoded body. -/
  mBody : Bytes := []

/-- A response without a type is saved, and so is one whose type has a configured one as a part. -/
def CResponseHttpInfo.isContentTypeCared (cfg : SaveConfig) (response : CResponseHttpInfo) : Bool :=
  response.mContentType = lit ['U', 'n', 'k', 'n', 'o', 'w', 'n', 'T', 'y', 'p', 'e'] ||
    cfg.mCaredContentTypes.any fun ct => (find ct response.mContentType).isSome

namespace CHttpTxnDecoder

/-- The content type in the name of a file. -/
def typeText (ct : Bytes) : Bytes :=
  ct.flatMap fun c =>
    if c = '/'.toUInt8 then lit ['+'] else if c = ' '.toUInt8 then [] else [c]

/-- A URL without its scheme. Here and below, `substr` gets positions that `find` has returned. -/
def behindScheme (url : Bytes) : Bytes :=
  match find (lit [':', '/', '/']) url with
  | some pos => url.drop (pos + 3)
  | none => url

/-- The fragment is only cut off if there is no query. -/
def cutQuery (tmpname : Bytes) : Bytes :=
  match find (lit ['?']) tmpname with
  | some pos => tmpname.take pos
  | none =>
    match find (lit ['#']) tmpname with
    | some pos => tmpname.take pos
    | none => tmpname

/-- The last segment of a URL. -/
def urlFile (url : Bytes) : Bytes :=
  let tmpurl := behindScheme url
  match findLast '/'.toUInt8 tmpurl with
  | none => lit ['n', 'o', 'n', 'e']
  | some pos =>
    if pos + 1 = tmpurl.length then lit ['n', 'o', 'n', 'e'] else cutQuery (tmpurl.drop (pos + 1))

/-- The name of the file for the `i`th response. -/
def fileName (id : CTcpSessionId) (i : ℕ) (request : CRequestHttpInfo)
    (response : CResponseHttpInfo) : Bytes :=
  id.getIdStr ++ lit ['_'] ++ typeText response.mContentType ++ lit ['_'] ++ decimal i ++
    lit ['_', 'n', 'a', 'm', 'e', '='] ++ urlFile request.mUrl

/-- The loop from the `i`th response on. It ends with the shorter one of the vectors. -/
def saveLoop (cfg : SaveConfig) (id : CTcpSessionId) :
    ℕ → List CRequestHttpInfo → List CResponseHttpInfo → Saving → Saving
  | i, request :: requests, response :: responses, st =>
    if response.mStatus ≠ 200 then saveLoop cfg id (i + 1) requests responses st
    else if !response.isContentTypeCared cfg then saveLoop cfg id (i + 1) requests responses st
    else if response.mBody.length = 0 then saveLoop cfg id (i + 1) requests responses st
    else saveLoop cfg id (i + 1) requests responses
      (st.save (fileName id i request response) response.mBody)
  | _, _, _, st => st

/-- Save the bodies of the responses of a session that ended at the time `t`. -/
def saveToFile (cfg : SaveConfig) (fs : FileSystem) (t : ℤ) (id : CTcpSessionId)
    (requests : List CRequestHttpInfo) (responses : List CResponseHttpInfo) : List Opened :=
  withDir cfg fs t (saveLoop cfg id 0 requests responses)

end CHttpTxnDecoder

/-! ## SMTP -/

/-- A part of a mail. -/
structure CAttachment where
  /-- The type before the slash. -/
  mMainType : Bytes
  /-- The type behind the slash. -/
  mSubType : Bytes
  /-- The decoded part. -/
  mContent : Bytes

/-- A part without a type is saved, and so is one for which one half of the type has a configured
one as a part. -/
def CAttachment.isContentTypeCared (cfg : SaveConfig) (a : CAttachment) : Bool :=
  a.mMainType.isEmpty || a.mSubType.isEmpty ||
    cfg.mCaredContentTypes.any fun ct => (find ct a.mMainType).isSome || (find ct a.mSubType).isSome

/-- The part of a mail that is saved. -/
structure CMailInfo where
  /-- The attachments in their order. -/
  mAttachments : List CAttachment

namespace CSmtpTxnDecoder

/-- The name of the file for the `j`th attachment of the mail `index`. Nothing stands between the two
numbers. -/
def fileName (id : CTcpSessionId) (index j : ℕ) (a : CAttachment) : Bytes :=
  id.getIdStr ++ lit ['_'] ++ a.mMainType ++ lit ['+'] ++ a.mSubType ++ lit ['_'] ++ decimal index ++
    decimal j

/-- The inner loop, from the `j`th attachment on. -/
def saveAttachments (cfg : SaveConfig) (id : CTcpSessionId) (index : ℕ) :
    ℕ → List CAttachment → Saving → Saving
  | _, [], st => st
  | j, a :: attachments, st =>
    if !a.isContentTypeCared cfg then saveAttachments cfg id index (j + 1) attachments st
    else saveAttachments cfg id index (j + 1) attachments
      (st.save (fileName id index j a) a.mContent)

/-- The outer loop, from the mail `index` on. -/
def saveMails (cfg : SaveConfig) (id : CTcpSessionId) : ℕ → List CMailInfo → Saving → Saving
  | _, [], st => st
  | index, mail :: mails, st =>
    saveMails cfg id (index + 1) mails (saveAttachments cfg id index 0 mail.mAttachments st)

/-- Save the attachments of the mails of a session that ended at the time `t`. -/
def saveToFile (cfg : SaveConfig) (fs : FileSystem) (t : ℤ) (id : CTcpSessionId)
    (mails : List CMailInfo) : List Opened :=
  withDir cfg fs t (saveMails cfg id 0 mails)

end CSmtpTxnDecoder

/-! ## Decoded sessions -/

/-- What a session has been decoded to. -/
inductive Decoded where
  | http (requests : List CRequestHttpInfo) (responses : List CResponseHttpInfo)
  | smtp (mails : List CMailInfo)

/-- An object that is to be saved, with the name of its file. -/
structure SavedObject where
  /-- The name of its file, without the directory. -/
  name : Bytes
  /-- The bytes to save. -/
  body : Bytes

namespace Decoded

/-- The decoder of the protocol saves what it has decoded. -/
def saveToFile (cfg : SaveConfig) (fs : FileSystem) (t : ℤ) (id : CTcpSessionId) :
    Decoded → List Opened
  | http requests responses => CHttpTxnDecoder.saveToFile cfg fs t id requests responses
  | smtp mails => CSmtpTxnDecoder.saveToFile cfg fs t id mails

/-- The object to save for the `i`th response, if it passes the filters. -/
def httpObject (cfg : SaveConfig) (id : CTcpSessionId)
    (p : (CRequestHttpInfo × CResponseHttpInfo) × ℕ) : Option SavedObject :=
  if p.1.2.mStatus = 200 ∧ p.1.2.isContentTypeCared cfg = true ∧ p.1.2.mBody ≠ [] then
    some ⟨CHttpTxnDecoder.fileName id p.2 p.1.1 p.1.2, p.1.2.mBody⟩
  else none

/-- The object to save for the `j`th attachment of the mail `index`, if it passes the filter. -/
def smtpObject (cfg : SaveConfig) (id : CTcpSessionId) (index : ℕ) (p : CAttachment × ℕ) :
    Option SavedObject :=
  if p.1.isContentTypeCared cfg = true then
    some ⟨CSmtpTxnDecoder.fileName id index p.2 p.1, p.1.mContent⟩
  else none

/-- The objects of a session that pass the filters. -/
def objects (cfg : SaveConfig) (id : CTcpSessionId) : Decoded → List SavedObject
  | http requests responses => (requests.zip responses).zipIdx.filterMap (httpObject cfg id)
  | smtp mails =>
    mails.zipIdx.flatMap fun m => m.1.mAttachments.zipIdx.filterMap (smtpObject cfg id m.2)

/-- One file for each object: exactly the path in the directory of the minute that the name of the
object stands for is opened, with the body of the object, and no two paths are the same. -/
def OneFileEach (cfg : SaveConfig) (fs : FileSystem) (t : ℤ) (id : CTcpSessionId) (d : Decoded) :
    Prop :=
  (d.saveToFile cfg fs t id).map (fun o => (o.path, o.content)) =
      (d.objects cfg id).map (fun o => (cStr (cfg.minuteDir t ++ slash :: o.name), o.body)) ∧
    ((d.saveToFile cfg fs t id).map Opened.path).Nodup

/-- No name has a slash, and every path that is opened leads to something inside the directory of the
minute. -/
def StaysInside (cfg : SaveConfig) (fs : FileSystem) (t : ℤ) (id : CTcpSessionId) (d : Decoded) :
    Prop :=
  ∀ o ∈ d.saveToFile cfg fs t id, slash ∉ o.name ∧ Inside (cfg.minuteDir t) o.path

/-- The types of the attachments that are saved have no slash. -/
def PlainTypes (cfg : SaveConfig) : Decoded → Prop
  | http _ _ => True
  | smtp mails => ∀ mail ∈ mails, ∀ a ∈ mail.mAttachments, a.isContentTypeCared cfg = true →
      slash ∉ a.mMainType ∧ slash ∉ a.mSubType

end Decoded

/-- The directories can be made and there is enough space. -/
def DirsOk (cfg : SaveConfig) (fs : FileSystem) (t : ℤ) : Prop :=
  isFileSystemOk fs cfg.filesDir = true ∧ makeDir fs (cfg.minuteDir t) = true

end Killerfinder
