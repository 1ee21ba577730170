import Mathlib.Data.List.DropRight

/-!
# Requests to the command server

`sockethandler` of `WebService.cpp` with its callbacks: the bytes of a request come in with any number
of calls of `recv`, are kept in one buffer and handed to `http_parser`, which reports the target and
the body of the request in pieces. The parser is taken to find the parts of a request where they are;
how it cuts them into pieces is that of `http_parser.c`.
-/

namespace CaptureHpc

namespace WebService

/-- The bytes of a request. -/
abbrev Bytes := List UInt8

/-! ## Requests -/

/-- What a byte of a request belongs to. -/
inductive Part where
  | other | target | body
deriving DecidableEq, Repr

/-- With `Content-Length` the data are together; otherwise each chunk has bytes before it (its size, and
the end of the chunk before), and there are some at the end. -/
inductive Body where
  | identity (data : Bytes)
  | chunked (chunks : List (Bytes × Bytes)) (last : Bytes)

/-- The data that are sent with the request. -/
def Body.data : Body → Bytes
  | .identity data => data
  | .chunked chunks _ => chunks.flatMap Prod.snd

/-- Bytes that belong to one part. -/
def marked (part : Part) (l : Bytes) : List (UInt8 × Part) := l.map fun x => (x, part)

/-- The bytes of the body, each with its part. -/
def Body.wire : Body → List (UInt8 × Part)
  | .identity data => marked .body data
  | .chunked chunks last =>
    (chunks.flatMap fun c => marked .other c.1 ++ marked .body c.2) ++ marked .other last

/-- The method with its space, the target, and everything from there to the empty line. -/
structure HttpRequest where
  /-- The method, with its space. -/
  front : Bytes
  /-- The target. -/
  target : Bytes
  /-- The rest of the request line and the headers, up to the empty line. -/
  head : Bytes
  /-- The body. -/
  body : Body
  /-- There is a target. -/
  target_ne : target ≠ []
  /-- There is something behind it. -/
  head_ne : head ≠ []

namespace HttpRequest

/-- The bytes of the request, each with its part. -/
def wire (r : HttpRequest) : List (UInt8 × Part) :=
  marked .other r.front ++ (marked .target r.target ++ (marked .other r.head ++ r.body.wire))

/-- The bytes of the request. -/
def bytes (r : HttpRequest) : Bytes := r.wire.map Prod.fst

/-- The parts that the bytes belong to. -/
def parts (r : HttpRequest) : List Part := r.wire.map Prod.snd

/-- Where the target begins. -/
def targetStart (r : HttpRequest) : ℕ := r.front.length

/-- Where the target ends. -/
def targetEnd (r : HttpRequest) : ℕ := r.front.length + r.target.length

end HttpRequest

/-- The end of the last byte of a body. -/
def bodyEnd (parts : List Part) : ℕ := (parts.rdropWhile (· ≠ .body)).length

/-! ## The parser -/

/-- A call of `on_url` or `on_body`. -/
inductive Callback where
  | url (pos len : ℕ)
  | body (pos len : ℕ)

/-- A mark that is set when its part ends: the bytes from there on are reported. -/
def flush : Option (Part × ℕ) → ℕ → List Callback
  | some (.target, a), p => [.url a (p - a)]
  | some (.body, a), p => [.body a (p - a)]
  | _, _ => []

/-- `http_parser_execute`: a mark is set at the first byte of a part; its bytes are reported at the first
byte of another part, and at the end of what has been received. -/
def scan : Option (Part × ℕ) → ℕ → List Part → List Callback
  | mark, p, [] => flush mark p
  | mark, p, part :: rest =>
    if mark.map Prod.fst = some part then scan mark (p + 1) rest
    else flush mark p ++ scan (if part = .other then none else some (part, p)) (p + 1) rest

/-- After a byte of the target the parser still waits for its end, so that the mark is set before the
first byte is looked at. -/
def initialMark (inTarget : Bool) (p : ℕ) : Option (Part × ℕ) :=
  if inTarget then some (.target, p) else none

/-! ## The handler -/

/-- `MAX_URI_SIZE` -/
def maxUriSize : ℕ := 1024

/-- `SERVER_BUFLEN` -/
def serverBuflen : ℕ := 1024 * 8

/-- `SERVER_BUFSTEP` -/
def serverBufstep : ℕ := 1024 * 1024 * 8

/-- The post data are a place in the buffer. -/
structure HttpMessage where
  /-- The target, as it is after `InternetCanonicalizeUrlA`. -/
  requestUri : Bytes
  /-- Where the post data are, if there are any. -/
  postData : Option ℕ
  /-- The length of the post data. -/
  postDataLen : ℕ

section Callbacks

variable (canonicalize : Bytes → Bytes) (buf : Bytes)

/-- `callback_uri`, with what `InternetCanonicalizeUrlA` makes of a string. The program ends if the string
does not fit into the buffer that it is copied to. -/
def callbackUri (pos len : ℕ) (message : HttpMessage) : Option HttpMessage :=
  if len < maxUriSize then
    some { message with requestUri := canonicalize ((buf.drop pos).take len) }
  else none

/-- The place is set behind the bytes that are reported, and their length is added. -/
def callbackBody (pos len : ℕ) (message : HttpMessage) : HttpMessage :=
  { message with postData := some (pos + len), postDataLen := message.postDataLen + len }

/-- The callback of the handler. -/
def invoke (message : HttpMessage) : Callback → Option HttpMessage
  | .url pos len => callbackUri canonicalize buf pos len message
  | .body pos len => some (callbackBody pos len message)

end Callbacks

/-- The bytes received so far, the size of the buffer, and whether the parser waits for the end of the
target. -/
structure Handler where
  /-- What has been received. -/
  buf : Bytes
  /-- The size of the buffer. -/
  buflen : ℕ
  /-- The parser waits for the end of the target. -/
  inTarget : Bool
  /-- What the callbacks have noted. -/
  message : HttpMessage

/-- The handler before the first call of `recv`. -/
def Handler.start : Handler := ⟨[], serverBuflen, false, ⟨[], none, 0⟩⟩

/-- A buffer that is full is reallocated before more is received. -/
def Handler.reallocate (h : Handler) : Handler :=
  if h.buf.length = h.buflen then
    { h with buflen := h.buflen + serverBufstep, message := { h.message with postData := none } }
  else h

/-- One round of the loop, with the bytes that `recv` returns. -/
def Handler.receive (canonicalize : Bytes → Bytes) (h : Handler) (received : List (UInt8 × Part)) :
    Option Handler := do
  let h := h.reallocate
  let datasize := h.buf.length
  let buf := h.buf ++ received.map Prod.fst
  let message ← (scan (initialMark h.inTarget datasize) datasize (received.map Prod.snd)).foldlM
    (invoke canonicalize buf) h.message
  return { h with buf, message, inTarget := received.getLast?.map Prod.snd = some .target }

/-- The post data are moved to their beginning after the last round. -/
def Handler.finish (h : Handler) : Handler :=
  if h.message.postData.isSome ∧ h.message.postDataLen ≠ 0 then
    { h with
      message :=
        { h.message with postData := h.message.postData.map fun p => p - h.message.postDataLen } }
  else h

/-- `sockethandler` up to the call of `serve`. -/
def sockethandler (canonicalize : Bytes → Bytes) (received : List (List (UInt8 × Part))) :
    Option Handler :=
  (received.foldlM (Handler.receive canonicalize) Handler.start).map Handler.finish

/-! ## What is expected -/

/-- Every call of `recv` returns at least one byte and not more than there is space for. -/
def Fits : (datasize buflen : ℕ) → List (List (UInt8 × Part)) → Prop
  | _, _, [] => True
  | datasize, buflen, c :: rest =>
    c ≠ [] ∧
    datasize + c.length ≤ (if datasize = buflen then buflen + serverBufstep else buflen) ∧
    Fits (datasize + c.length) (if datasize = buflen then buflen + serverBufstep else buflen) rest

instance decidableFits : (datasize buflen : ℕ) → (l : List (List (UInt8 × Part))) →
    Decidable (Fits datasize buflen l)
  | _, _, [] => inferInstanceAs (Decidable True)
  | datasize, buflen, c :: rest => @instDecidableAnd _ _ inferInstance
      (@instDecidableAnd _ _ inferInstance (decidableFits (datasize + c.length)
        (if datasize = buflen then buflen + serverBufstep else buflen) rest))

/-- A way in which the bytes of a request come in. -/
structure Segmentation (r : HttpRequest) where
  /-- What the calls of `recv` return. -/
  received : List (List (UInt8 × Part))
  /-- Together they are the request. -/
  flatten_eq : received.flatten = r.wire
  /-- Each of them fits into the buffer. -/
  fits : Fits 0 serverBuflen received

/-- The message that `serve` gets has the whole target and the whole body. -/
def Sees (canonicalize : Bytes → Bytes) (r : HttpRequest) (result : Option Handler) : Prop :=
  ∃ h, result = some h ∧ h.message.requestUri = canonicalize r.target ∧
    h.message.postDataLen = r.body.data.length ∧
    (r.body.data ≠ [] → ∃ p, h.message.postData = some p ∧
      (h.buf.drop p).take h.message.postDataLen = r.body.data)

/-- No call of `recv` brings 1024 bytes of the target, or more. -/
def ShortFragments (r : HttpRequest) : ℕ → List (List (UInt8 × Part)) → Prop
  | _, [] => True
  | d, c :: rest =>
    min r.targetEnd (d + c.length) - max r.targetStart d < maxUriSize ∧
      ShortFragments r (d + c.length) rest

instance decidableShortFragments (r : HttpRequest) : (d : ℕ) →
    (l : List (List (UInt8 × Part))) → Decidable (ShortFragments r d l)
  | _, [] => inferInstanceAs (Decidable True)
  | d, c :: rest => @instDecidableAnd _ _ inferInstance
      (decidableShortFragments r (d + c.length) rest)

/-- What the call of `recv` that brings the first byte behind the target brings of the target itself. -/
def lastFragment (r : HttpRequest) : ℕ → List (List (UInt8 × Part)) → Bytes
  | _, [] => []
  | d, c :: rest =>
    if r.targetEnd < d + c.length then r.target.drop (d - r.targetStart)
    else lastFragment r (d + c.length) rest

/-- The size that the buffer has when it has just taken in `d` bytes. -/
def buflenAt (d : ℕ) : ℕ :=
  serverBuflen + (d - serverBuflen + (serverBufstep - 1)) / serverBufstep * serverBufstep

/-- The bytes before the end of the body are the body, and from there on the buffer does not grow. -/
def BodyTogether (r : HttpRequest) : Prop :=
  r.body.data = [] ∨
    ((r.bytes.take (bodyEnd r.parts)).drop (bodyEnd r.parts - r.body.data.length) = r.body.data ∧
      r.wire.length ≤ buflenAt (bodyEnd r.parts))

instance (r : HttpRequest) : Decidable (BodyTogether r) := inferInstanceAs (Decidable (_ ∨ _))

end WebService

end CaptureHpc
