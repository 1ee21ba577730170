import DeepSecurity.Lib.FileTree
import DeepSecurity.Lib.Trace

/-!
# The jobs of the cloud server

`sbxuwsgi.py`, `sbxredis.py` and the loop of `sbxcapturesender.py`: any number of upload requests are
handled at the same time, while the sender takes the jobs off the queue and passes them on to a
capture agent. The commands of Redis are atomic; what a handler does between two of them, and the
writing of a file, may be interleaved with everything else.
-/

namespace Cloudserver

open FileTree

/-- The bytes of a file. -/
abbrev Bytes := List UInt8

/-- The texts of Python. -/
abbrev Str := List Char

/-! ## `sbxredis.py` -/

/-- The keys of the description of a job. -/
inductive Field where
  | status | jobType | filename | filepath | sha1sum | url
deriving DecidableEq, Repr

/-- The description of a job, a dictionary; the hash of a key that does not exist is empty. -/
abbrev Info := List (Field × Str)

/-- Jobs are numbered in the order of their calls of `get_uuid`, which never returns the same value
twice. -/
structure Redis where
  /-- The list `job`. -/
  job : List ℕ
  /-- The list `history`. -/
  history : List ℕ
  /-- The descriptions of the jobs. -/
  hash : ℕ → Info

namespace Redis

/-- A database without keys. -/
def empty : Redis := ⟨[], [], fun _ => []⟩

variable (r : Redis)

/-- `lpush`: at the front of the list. -/
def addJobQueue (jobname : ℕ) : Redis := { r with job := jobname :: r.job }

/-- The same for the list of all jobs. -/
def addHistoryQueue (jobname : ℕ) : Redis := { r with history := jobname :: r.history }

/-- `hmset`: the given fields are set, all others stay. -/
def addInfo (jobname : ℕ) (info : Info) : Redis :=
  let others := (r.hash jobname).filter fun kv => info.all fun new => new.1 ≠ kv.1
  { r with hash := Function.update r.hash jobname (info ++ others) }

/-- `lpop`: from the front of the list. -/
def removeJobQueue : Option ℕ × Redis := (r.job.head?, { r with job := r.job.tail })

/-- `hgetall`. There is no hash under the key `None`. -/
def getInfo : Option ℕ → Info
  | none => []
  | some jobname => r.hash jobname

end Redis

/-! ## Requests -/

/-- What a handler reads of a request. Headers may be missing; `contentLength` is `none` if it is not
a number, too. -/
structure Environ where
  /-- The method of the request. -/
  requestMethod : Str
  /-- Its path. -/
  pathInfo : Str
  /-- The header `X_FILES`. -/
  httpXFiles : Option Str
  /-- The header with the name of the file. -/
  httpFilename : Option Str
  /-- The header with its checksum. -/
  httpSha1sum : Option Str
  /-- The header with the URL. -/
  httpUrl : Option Str
  /-- The length of the body. -/
  contentLength : Option ℕ
  /-- What comes after the headers. -/
  wsgiInput : Bytes

/-- The two types of jobs. -/
inductive JobType where
  | file | url
deriving DecidableEq, Repr

/-- The `filepath` of a file job, which is also the path that `save_file` opens. -/
def filepath (filename : Str) : Str := "/var/www/tmp/".toList ++ filename

namespace Environ

variable (env : Environ)

/-- The job that a request makes, if it does not fail before it gets to `get_uuid`. -/
def jobType : Option JobType :=
  if env.requestMethod = "PUT".toList then
    if env.pathInfo = "/".toList then some .file
    -- the URL is logged first
    else if env.pathInfo = "/url".toList ∧ env.httpUrl.isSome then some .url
    else none
  else none

/-- The uploaded body. -/
def body : Bytes := env.wsgiInput.take (env.contentLength.getD 0)

/-- `jobinfo`; a missing header is an exception. -/
def jobinfo : JobType → Option Info
  | .file => do
    let filename ← env.httpFilename
    let sha1sum ← env.httpSha1sum
    return [(.status, "uploaded".toList), (.jobType, "file".toList), (.filename, filename),
      (.filepath, filepath filename), (.sha1sum, sha1sum)]
  | .url => do
    let url ← env.httpUrl
    return [(.url, url), (.jobType, "url".toList)]

end Environ

/-! ## The server -/

/-- What the model does not describe: the directories and the files that the server may write, and the
answers of `libmagic` for the content of a file. -/
structure Site where
  /-- The directories. -/
  isDir : Path → Bool
  /-- The files that can be opened for writing. -/
  writable : Path → Bool
  /-- What `libmagic` says about a content. -/
  magic : Bytes → Str

/-- The directory of the uploads. -/
def uploads : Path := ["var".toList, "www".toList, "tmp".toList]

/-- What a handler does next. -/
inductive HandlerPc where
  | addJobQueue
  | addHistoryQueue
  | addInfo
  | openFile
  /-- The body up to the offset has been written. -/
  | write (path : Path) (offset : ℕ)
  | returned
  /-- An exception has ended the handler. -/
  | raised
deriving DecidableEq, Repr

/-- A request that is being handled. -/
structure Handler where
  /-- The request. -/
  env : Environ
  /-- The type of its job. -/
  jobType : JobType
  /-- What comes next. -/
  pc : HandlerPc

/-- What the sender does next. -/
inductive SenderPc where
  | removeJobQueue
  | getInfo (jobid : Option ℕ)
  | dispatch (jobid : Option ℕ) (info : Info)
  /-- An exception has ended the loop. -/
  | died
deriving DecidableEq, Repr

/-- What is passed on to a capture agent. -/
inductive Post where
  /-- `uri` is `none` if the file type has no first word; this exception is caught. -/
  | file (uri : Option Str) (filename filetype : Str) (body : Bytes)
  | url (uri : Str)
deriving DecidableEq, Repr

/-- The bytes read for a job. -/
def Post.body : Post → Option Bytes
  | .file _ _ _ body => some body
  | .url _ => none

/-- Something that has been passed on, with its job. -/
structure Sent where
  /-- The job. -/
  jobid : Option ℕ
  /-- What has been passed on. -/
  post : Post
deriving DecidableEq, Repr

/-- The state of the server. The last three fields are not part of it; they record the jobs that have
been taken off the queue, the jobs whose file has been written to its end, and the files that have
been opened for writing. -/
structure Server where
  /-- The database. -/
  redis : Redis
  /-- The handler of job `i` has index `i`. -/
  handlers : List Handler
  /-- The files on the disk. -/
  files : Path → Option Bytes
  /-- Where the loop of the sender is. -/
  sender : SenderPc
  /-- What has been passed on, in its order. -/
  sent : List Sent
  /-- The jobs that have been taken off the queue. -/
  popped : List ℕ
  /-- The jobs whose file has been written. -/
  saved : List ℕ
  /-- The files that have been opened for writing. -/
  opened : List Path

namespace Server

/-- The server before the first request. -/
def start (files : Path → Option Bytes) : Server where
  redis := .empty
  handlers := []
  files := files
  sender := .removeJobQueue
  sent := []
  popped := []
  saved := []
  opened := []

variable (site : Site) (s : Server)

/-! ### Handlers -/

/-- The handler of job `i` goes on. -/
def goto (i : ℕ) (h : Handler) (pc : HandlerPc) : Server :=
  { s with handlers := s.handlers.set i { h with pc } }

/-- A request that makes a job gets the next number. All others are answered and change nothing. -/
def request (env : Environ) : Server :=
  match env.jobType with
  | none => s
  | some jobType => { s with handlers := s.handlers ++ [⟨env, jobType, .addJobQueue⟩] }

/-- Where the handler goes on once the job has been described. The header `X_FILES` is not used, but
it has to be there. -/
def afterInfo (h : Handler) : HandlerPc :=
  match h.jobType with
  | .file => if h.env.httpXFiles.isSome then .openFile else .raised
  | .url => .returned

/-- The file that `save_file` writes. -/
def savePath (env : Environ) : Option Path := do
  let _ ← env.contentLength
  let filename ← env.httpFilename
  let path ← resolve site.isDir (filepath filename)
  if site.writable path then some path else none

/-- Writes the next `n` bytes of the body, or all that are left. -/
def writeChunk (i : ℕ) (h : Handler) (path : Path) (offset n : ℕ) : Server :=
  let chunk := (h.env.body.drop offset).take n
  let content := writeAt ((s.files path).getD []) offset chunk
  let s' := { s with files := Function.update s.files path (some content) }
  if offset + chunk.length = h.env.body.length then
    { s' with saved := s.saved ++ [i] }.goto i h .returned
  else s'.goto i h (.write path (offset + chunk.length))

/-- The next step of the handler of job `i`: `application.__iter__` and `save_file`. The file is never
closed explicitly, so that the body gets there in pieces, the last one when the generator ends. -/
def handle (i n : ℕ) : Server :=
  match s.handlers[i]? with
  | none => s
  | some h =>
    match h.pc with
    | .addJobQueue => { s with redis := s.redis.addJobQueue i }.goto i h .addHistoryQueue
    | .addHistoryQueue => { s with redis := s.redis.addHistoryQueue i }.goto i h .addInfo
    | .addInfo =>
      match h.env.jobinfo h.jobType with
      | none => s.goto i h .raised
      | some info => { s with redis := s.redis.addInfo i info }.goto i h (afterInfo h)
    | .openFile =>
      match savePath site h.env with
      | none => s.goto i h .raised
      | some path =>
        -- mode `w` truncates the file
        { s with files := Function.update s.files path (some []), opened := s.opened ++ [path] }.goto i h
          (.write path 0)
    | .write path offset => s.writeChunk i h path offset n
    | .returned => s
    | .raised => s

/-! ### The sender -/

/-- `is_pe` -/
def isPe (filemagic : Str) : Bool := "PE32".toList <:+: filemagic

/-- `is_pdf` -/
def isPdf (filemagic : Str) : Bool := "PDF".toList <:+: filemagic

/-- The first word of the file type decides on the kind of the sandbox. -/
def kind (filetype : Str) : Option Str :=
  let word := (filetype.dropWhile Char.isWhitespace).takeWhile fun c => !c.isWhitespace
  if word = [] then none
  else if word = "WCG_EXE".toList then some "exe".toList
  else if word = "WCG_DOC".toList then some "doc".toList
  else if word = "WCG_PDF".toList then some "pdf".toList
  else some []

/-- A file is sent under a name that fits its type. -/
def sendFileToCaptureAgent (content : Bytes) (filename : Str) : Post :=
  let filetype := site.magic content
  let filename := if isPdf filetype then filename ++ ".pdf".toList else filename
  let filename := if isPe filetype then filename ++ ".exe".toList else filename
  let uri := (kind filetype).map fun type => "/file/".toList ++ type ++ "/".toList ++ filename
  .file uri filename filetype content

/-- A URL is sent to be opened in the Internet Explorer. -/
def sendUrlToCaptureAgent (url : Str) : Post :=
  .url ("/url/".toList ++ "IE".toList ++ "/".toList ++ url)

/-- What a job with the given description becomes. `none` is an exception that is not caught: a missing
key, or a file that does not exist. -/
def post (info : Info) : Option Post := do
  let jobType ← info.lookup .jobType
  if jobType = "file".toList then do
    let filepath ← info.lookup .filepath
    let filename ← info.lookup .filename
    let path ← resolve site.isDir filepath
    let content ← s.files path
    return sendFileToCaptureAgent site content filename
  else do
    let url ← info.lookup .url
    return sendUrlToCaptureAgent url

/-- The next step of the loop of the sender. -/
def send : Server :=
  match s.sender with
  | .removeJobQueue =>
    let (jobid, redis) := s.redis.removeJobQueue
    { s with redis, sender := .getInfo jobid, popped := s.popped ++ jobid.toList }
  | .getInfo jobid => { s with sender := .dispatch jobid (s.redis.getInfo jobid) }
  | .dispatch jobid info =>
    if info ≠ [] then
      match s.post site info with
      | none => { s with sender := .died }
      | some post => { s with sender := .removeJobQueue, sent := s.sent ++ [⟨jobid, post⟩] }
    else { s with sender := .removeJobQueue }
  | .died => s

end Server

/-! ## Runs -/

/-- A step of the server. -/
inductive Action where
  | request (env : Environ)
  /-- Of the handler of job `i`; a step that writes writes `n` bytes. -/
  | handler (i n : ℕ)
  | sender

namespace Server

variable (site : Site)

/-- What a step does. -/
def step (s : Server) : Action → Server
  | .request env => s.request env
  | .handler i n => s.handle site i n
  | .sender => s.send site

/-- The server after the given steps, in any order. -/
def run (files : Path → Option Bytes) (actions : List Action) : Server :=
  actions.foldl (step site) (start files)

/-! ## What is expected of a run -/

/-- The job that has been taken off the queue and not yet passed on. -/
def inHand (s : Server) : List (Option ℕ) :=
  match s.sender with
  | .getInfo (some j) => [some j]
  | .dispatch (some j) _ => [some j]
  | _ => []

/-- Every job that has been taken off the queue is passed on before the next one is taken; it has a
description, and if it is a file job, its file has been written completely. -/
structure NoJobLost (s : Server) : Prop where
  /-- The loop of the sender goes on. -/
  alive : s.sender ≠ .died
  /-- Every job is passed on before the next one is taken. -/
  dispatched : s.sent.map Sent.jobid ++ s.inHand = s.popped.map some
  /-- Every job has a description. -/
  described : ∀ j ∈ s.popped, s.redis.getInfo (some j) ≠ []
  /-- The file of a file job has been written. -/
  written : ∀ j ∈ s.popped, (s.redis.getInfo (some j)).lookup .jobType = some "file".toList → j ∈ s.saved

/-- The handler of job `i` has returned. -/
def Returned (s : Server) (i : ℕ) : Prop := s.handlers[i]?.map Handler.pc = some .returned

instance (s : Server) (i : ℕ) : Decidable (s.Returned i) :=
  inferInstanceAs (Decidable (_ = some HandlerPc.returned))

/-- A job is taken off the queue only after its handler has returned. -/
def PopsReturned (s : Server) : Action → Prop
  | .sender => s.sender = .removeJobQueue → ∀ j ∈ s.redis.job.head?, s.Returned j
  | _ => True

/-- What has been read for a file job is the body that its request has uploaded, and no file outside
the directory of the uploads has been opened for writing. -/
structure Isolated (s : Server) : Prop where
  /-- What has been read for a job is the body of its request. -/
  bodies : ∀ sent ∈ s.sent, ∀ content, sent.post.body = some content →
    ∃ j h, sent.jobid = some j ∧ s.handlers[j]? = some h ∧ content = h.env.body
  /-- Only files in the directory of the uploads are opened. -/
  inside : ∀ path ∈ s.opened, uploads <+: path

/-- The file that a handler has opened. -/
def heldFile (h : Handler) : Option Path :=
  match h.pc with
  | .write path _ => some path
  | .returned => if h.jobType = .file then savePath site h.env else none
  | _ => none

/-- The job that the sender passes on in its next step. -/
def inDispatch (s : Server) : Option (ℕ × Info) :=
  match s.sender with
  | .dispatch (some j) info => some (j, info)
  | _ => none

/-- Job `i` has been passed on to a capture agent. -/
def PassedOn (s : Server) (i : ℕ) : Prop := some i ∈ s.sent.map Sent.jobid

instance (s : Server) (i : ℕ) : Decidable (s.PassedOn i) :=
  inferInstanceAs (Decidable (some i ∈ s.sent.map Sent.jobid))

/-- The file is in the directory of the uploads, and all other jobs with this file have been passed
on. -/
def FreeFor (s : Server) (i : ℕ) (path : Path) : Prop :=
  uploads <+: path ∧ ∀ k < s.handlers.length, k ≠ i →
    s.handlers[k]?.bind (heldFile site) = some path → s.PassedOn k

instance (s : Server) (i : ℕ) (path : Path) : Decidable (s.FreeFor site i path) :=
  inferInstanceAs (Decidable (_ ∧ ∀ k < s.handlers.length, _ → _ → _))

/-- A file is opened for writing only if it is free, and a file job is passed on only after its handler
has returned. -/
def OwnFile (s : Server) : Action → Prop
  | .request _ => True
  | .handler i _ => ∀ h ∈ s.handlers[i]?, h.pc = .openFile →
    ∀ path ∈ savePath site h.env, s.FreeFor site i path
  | .sender => ∀ d ∈ s.inDispatch, d.2.lookup .jobType = some "file".toList → s.Returned d.1

instance (s : Server) : (a : Action) → Decidable (s.OwnFile site a)
  | .request _ => inferInstanceAs (Decidable True)
  | .handler i _ => inferInstanceAs (Decidable (∀ h ∈ s.handlers[i]?, _ → ∀ path ∈ _, _))
  | .sender => inferInstanceAs (Decidable (∀ d ∈ s.inDispatch, _ → _))

end Server

end Cloudserver
