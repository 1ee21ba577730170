import DeepSecurity.Lib.Bytes

/-!
# The HTTP parser

`http_parser.c`, built with `HTTP_PARSER_STRICT`: `http_parser_execute` with its states, its marks and
its callbacks. A `case` of the switch is given by the parser after it and what the macros in it then do
with the marks and the callbacks (`Action`), in the order of the source; a failed `assert` and an access
outside a table or the data have no result.
-/

namespace CaptureHpc

namespace HttpParser

/-- The bytes of the data. -/
abbrev Bytes := List UInt8

/-! ## Characters -/

/-- `CR` -/
def cr : UInt8 := 13

/-- `LF` -/
def lf : UInt8 := 10

/-- The horizontal tab. -/
def tab : UInt8 := 9

/-- `LOWER`: the lower-case letter for a letter; other characters may change, too. -/
def lower (c : UInt8) : UInt8 := c ||| 0x20

/-- `IS_ALPHA` -/
def isAlpha (c : UInt8) : Bool := chr 'a' ≤ lower c && lower c ≤ chr 'z'

/-- `IS_NUM` -/
def isNum (c : UInt8) : Bool := chr '0' ≤ c && c ≤ chr '9'

/-- `IS_ALPHANUM` -/
def isAlphanum (c : UInt8) : Bool := isAlpha c || isNum c

/-- `IS_MARK` -/
def isMark (c : UInt8) : Bool :=
  c == chr '-' || c == chr '_' || c == chr '.' || c == chr '!' || c == chr '~' || c == chr '*' ||
    c == 39 || c == chr '(' || c == chr ')'

/-- `IS_USERINFO_CHAR` -/
def isUserinfoChar (c : UInt8) : Bool :=
  isAlphanum c || isMark c || c == chr '%' || c == chr ';' || c == chr ':' || c == chr '&' ||
    c == chr '=' || c == chr '+' || c == chr '$' || c == chr ','

/-- `tokens`: the lower-case letter for a letter, the character itself for the other characters of a
token, and zero for the rest. -/
def token (c : UInt8) : UInt8 :=
  if isAlpha c then lower c
  else if isNum c || (bytesOf "!#$%&*+-.^_|~").contains c || c == 39 || c == 96 then c
  else 0

/-- `normal_url_char` in strict mode. -/
def isUrlChar (c : UInt8) : Bool := 33 ≤ c && c ≤ 126 && c != chr '#' && c != chr '?'

/-- `unhex`, of which only the first 128 entries are given: those of the other bytes are zero. -/
def unhex (c : UInt8) : Option ℕ :=
  if isNum c then some (c.toNat - 48)
  else if chr 'a' ≤ lower c && lower c ≤ chr 'f' then some ((lower c).toNat - 87)
  else if 128 ≤ c then some 0
  else none

/-! ## The parser -/

/-- `enum http_parser_type` -/
inductive ParserType where
  | request | response | both
deriving DecidableEq, Repr

/-- `enum http_method`, in its order. -/
inductive Method where
  | delete | get | head | post | put | connect | options | trace | copy | lock | mkcol | move
  | propfind | proppatch | search | unlock | report | mkactivity | checkout | merge | msearch
  | notify | subscribe | unsubscribe | patch | purge
deriving DecidableEq, Repr

/-- `method_strings`. -/
def methodString : Method → Bytes
  | .delete => bytesOf "DELETE"
  | .get => bytesOf "GET"
  | .head => bytesOf "HEAD"
  | .post => bytesOf "POST"
  | .put => bytesOf "PUT"
  | .connect => bytesOf "CONNECT"
  | .options => bytesOf "OPTIONS"
  | .trace => bytesOf "TRACE"
  | .copy => bytesOf "COPY"
  | .lock => bytesOf "LOCK"
  | .mkcol => bytesOf "MKCOL"
  | .move => bytesOf "MOVE"
  | .propfind => bytesOf "PROPFIND"
  | .proppatch => bytesOf "PROPPATCH"
  | .search => bytesOf "SEARCH"
  | .unlock => bytesOf "UNLOCK"
  | .report => bytesOf "REPORT"
  | .mkactivity => bytesOf "MKACTIVITY"
  | .checkout => bytesOf "CHECKOUT"
  | .merge => bytesOf "MERGE"
  | .msearch => bytesOf "M-SEARCH"
  | .notify => bytesOf "NOTIFY"
  | .subscribe => bytesOf "SUBSCRIBE"
  | .unsubscribe => bytesOf "UNSUBSCRIBE"
  | .patch => bytesOf "PATCH"
  | .purge => bytesOf "PURGE"

/-- A C string with its terminator, read at an index. -/
def charAt (s : Bytes) (i : ℕ) : Option UInt8 := (s ++ [0])[i]?

/-- `enum state`, in its order. -/
inductive State where
  | dead
  | startReqOrRes | resOrRespH
  | startRes | resH | resHT | resHTT | resHTTP | resFirstHttpMajor | resHttpMajor
  | resFirstHttpMinor | resHttpMinor | resFirstStatusCode | resStatusCode | resStatus
  | resLineAlmostDone
  | startReq | reqMethod | reqSpacesBeforeUrl | reqSchema | reqSchemaSlash | reqSchemaSlashSlash
  | reqServerStart | reqServer | reqServerWithAt | reqPath | reqQueryStringStart | reqQueryString
  | reqFragmentStart | reqFragment | reqHttpStart | reqHttpH | reqHttpHT | reqHttpHTT | reqHttpHTTP
  | reqFirstHttpMajor | reqHttpMajor | reqFirstHttpMinor | reqHttpMinor | reqLineAlmostDone
  | headerFieldStart | headerField | headerValueStart | headerValue | headerValueLws
  | headerAlmostDone
  | chunkSizeStart | chunkSize | chunkParameters | chunkSizeAlmostDone
  | headersAlmostDone | headersDone
  | chunkData | chunkDataAlmostDone | chunkDataDone
  | bodyIdentity | bodyIdentityEof
  | messageDone
deriving DecidableEq, Repr

/-- `PARSING_HEADER`: the states up to `s_headers_done`. -/
def State.parsingHeader : State → Bool
  | .chunkData | .chunkDataAlmostDone | .chunkDataDone | .bodyIdentity | .bodyIdentityEof
  | .messageDone => false
  | _ => true

/-- `enum header_states` -/
inductive HeaderState where
  | general | C | CO | CON
  | matchingConnection | matchingProxyConnection | matchingContentLength
  | matchingTransferEncoding | matchingUpgrade
  | connection | contentLength | transferEncoding | upgrade
  | matchingTransferEncodingChunked | matchingConnectionKeepAlive | matchingConnectionClose
  | transferEncodingChunked | connectionKeepAlive | connectionClose
deriving DecidableEq, Repr

/-- What data a callback is about. -/
inductive Part where
  | headerField | headerValue | url | body
deriving DecidableEq, Repr

/-- What a callback without data is about. -/
inductive Note where
  | messageBegin | headersComplete | messageComplete
deriving DecidableEq, Repr

/-- `enum http_errno`; the errors of the callbacks are named by what they are about. -/
inductive Errno where
  | ok
  | note (n : Note)
  | data (part : Part)
  | invalidEofState | headerOverflow | closedConnection | invalidVersion | invalidStatus
  | invalidMethod | invalidUrl | lfExpected | invalidHeaderToken | invalidContentLength
  | invalidChunkSize | invalidConstant | strict | paused | unknown
deriving DecidableEq, Repr

/-- `enum flags`, a field for each bit. -/
structure Flags where
  /-- The body comes in chunks. -/
  chunked : Bool := false
  /-- The connection is to be kept. -/
  connectionKeepAlive : Bool := false
  /-- The connection is to be closed. -/
  connectionClose : Bool := false
  /-- The headers that are read come after the body. -/
  trailing : Bool := false
  /-- Another protocol is asked for. -/
  upgrade : Bool := false
  /-- There is no body, whatever the headers say. -/
  skipbody : Bool := false
deriving DecidableEq, Repr

/-- `HTTP_MAX_HEADER_SIZE` -/
def maxHeaderSize : ℕ := 80 * 1024

/-- `ULLONG_MAX`, which stands for no content length. -/
def ullongMax : ℕ := 2 ^ 64 - 1

/-- `struct http_parser`, without the pointer of the program that uses it. -/
structure Parser where
  /-- Whether requests or responses are parsed. -/
  type : ParserType
  /-- What is known from the headers of the message. -/
  flags : Flags
  /-- The state of the machine. -/
  state : State
  /-- What the current header is. -/
  headerState : HeaderState
  /-- The position in the word that is matched. -/
  index : ℕ
  /-- The number of bytes of the header, or of a chunk size, that have been read. -/
  nread : ℕ
  /-- The bytes of the body, or of the chunk, that are still to come. -/
  contentLength : ℕ
  /-- The major version. -/
  httpMajor : ℕ
  /-- The minor version. -/
  httpMinor : ℕ
  /-- The status code of a response. -/
  statusCode : ℕ
  /-- The method of a request. -/
  method : Method
  /-- The error, if there is one. -/
  errno : Errno
  /-- The bytes that follow belong to another protocol. -/
  upgrade : Bool
deriving DecidableEq, Repr

/-- `start_state` -/
def startState (q : Parser) : State := if q.type = .request then .startReq else .startRes

/-- `http_parser_init`. -/
def init (t : ParserType) : Parser where
  type := t
  flags := {}
  state := match t with
    | .request => .startReq
    | .response => .startRes
    | .both => .startReqOrRes
  headerState := .general
  index := 0
  nread := 0
  contentLength := 0
  httpMajor := 0
  httpMinor := 0
  statusCode := 0
  method := .delete
  errno := .ok
  upgrade := false

/-- `http_message_needs_eof`. -/
def messageNeedsEof (q : Parser) : Bool :=
  if q.type = .request then false
  else if q.statusCode / 100 = 1 ∨ q.statusCode = 204 ∨ q.statusCode = 304 ∨ q.flags.skipbody then false
  else if q.flags.chunked ∨ q.contentLength ≠ ullongMax then false
  else true

/-- `http_should_keep_alive`. -/
def shouldKeepAlive (q : Parser) : Bool :=
  if 0 < q.httpMajor ∧ 0 < q.httpMinor then
    if q.flags.connectionClose then false else !messageNeedsEof q
  else if q.flags.connectionKeepAlive then !messageNeedsEof q
  else false

/-- `NEW_MESSAGE`. -/
def newMessage (q : Parser) : State := if shouldKeepAlive q then startState q else .dead

/-- `http_parser_pause`; a parser in an error state must not be paused. -/
def pause (q : Parser) (paused : Bool) : Option Parser :=
  if q.errno = .ok ∨ q.errno = .paused then
    some { q with errno := if paused then .paused else .ok }
  else none

/-! ## Cases of the switch -/

/-- What is done with the marks and the callbacks. The second number of a callback is what is added to
`p - data` for the result if the callback ends the call, the first one of `data` what is added to the
length. -/
inductive Action where
  | mark (part : Part)
  | skip (n : ℕ)
  | notify (n : Note) (consumed : ℕ)
  | data (part : Part) (extra consumed : ℕ)
  | headersComplete
deriving DecidableEq, Repr

/-- `break`, `goto reexecute_byte`, `goto error`, and `return` with the current byte consumed. -/
inductive Exit where
  | next | again | error | finish
deriving DecidableEq, Repr

/-- What a `case` does. -/
structure Step where
  /-- The parser after it. -/
  parser : Parser
  /-- What it does with the marks and the callbacks. -/
  actions : List Action := []
  /-- How it ends. -/
  exit : Exit := .next
deriving DecidableEq, Repr

/-- The parser in another state. -/
def Parser.goto (q : Parser) (s : State) : Parser := { q with state := s }

/-- `SET_ERRNO` and `goto error`. -/
def fail (q : Parser) (e : Errno) : Step where
  parser := { q with errno := e }
  exit := .error

/-- `CALLBACK_NOTIFY` and `break`. -/
def notifying (q : Parser) (n : Note) : Step where
  parser := q
  actions := [.notify n 1]

/-- `CALLBACK_DATA` and `break`. -/
def reporting (q : Parser) (part : Part) : Step where
  parser := q
  actions := [.data part 0 1]

/-- `goto reexecute_byte`. -/
def reexecuting (q : Parser) : Step where
  parser := q
  exit := .again

/-- `STRICT_CHECK` of a character, and the next state. -/
def expect (q : Parser) (ch c : UInt8) (s : State) : Step :=
  if ch ≠ c then fail q .strict else { parser := q.goto s }

/-- A carriage return or a line feed. -/
def isNewline (ch : UInt8) : Bool := ch == cr || ch == lf

/-- After a message that closes the connection, only line ends may follow. -/
def caseDead (q : Parser) (ch : UInt8) : Step :=
  if isNewline ch then { parser := q } else fail q .closedConnection

/-- A new message: what is set before its first character is looked at. -/
def Parser.reset (q : Parser) : Parser := { q with flags := {}, contentLength := ullongMax }

/-- The first byte of a message of either type. -/
def caseStartReqOrRes (q : Parser) (ch : UInt8) : Step :=
  if isNewline ch then { parser := q }
  else if ch = chr 'H' then notifying (q.reset.goto .resOrRespH) .messageBegin
  else reexecuting { q.reset with type := .request, state := .startReq }

/-- The second byte of a message that begins with an `H`. -/
def caseResOrRespH (q : Parser) (ch : UInt8) : Step :=
  if ch = chr 'T' then { parser := { q with type := .response, state := .resHT } }
  else if ch ≠ chr 'E' then fail q .invalidConstant
  else
    { parser := { q with type := .request, method := .head, index := 2, state := .reqMethod } }

/-- The first byte of a response. A line end is no error, but the message begins. -/
def caseStartRes (q : Parser) (ch : UInt8) : Step :=
  if ch = chr 'H' then notifying (q.reset.goto .resH) .messageBegin
  else if isNewline ch then notifying q.reset .messageBegin
  else fail q.reset .invalidConstant

/-- Another digit of a number of the first line. -/
def decimalDigit (n : ℕ) (ch : UInt8) : ℕ := n * 10 + (ch.toNat - 48)

/-- The first digit of the version of a response. -/
def caseResFirstHttpMajor (q : Parser) (ch : UInt8) : Step :=
  if !isNum ch then fail q .invalidVersion
  else { parser := { q with httpMajor := ch.toNat - 48, state := .resHttpMajor } }

/-- The first digit of the version of a request, which is not zero. -/
def caseReqFirstHttpMajor (q : Parser) (ch : UInt8) : Step :=
  if ch < chr '1' ∨ chr '9' < ch then fail q .invalidVersion
  else { parser := { q with httpMajor := ch.toNat - 48, state := .reqHttpMajor } }

/-- The other digits of the major version. -/
def caseHttpMajor (q : Parser) (ch : UInt8) (firstMinor : State) : Step :=
  if ch = chr '.' then { parser := q.goto firstMinor }
  else if !isNum ch then fail q .invalidVersion
  else
    let q := { q with httpMajor := decimalDigit q.httpMajor ch }
    if 999 < q.httpMajor then fail q .invalidVersion else { parser := q }

/-- The first digit of the minor version. -/
def caseFirstHttpMinor (q : Parser) (ch : UInt8) (minor : State) : Step :=
  if !isNum ch then fail q .invalidVersion
  else { parser := { q with httpMinor := ch.toNat - 48, state := minor } }

/-- The other digits of the minor version. -/
def minorDigit (q : Parser) (ch : UInt8) : Step :=
  if !isNum ch then fail q .invalidVersion
  else
    let q := { q with httpMinor := decimalDigit q.httpMinor ch }
    if 999 < q.httpMinor then fail q .invalidVersion else { parser := q }

/-- The minor version of a response, up to the space. -/
def caseResHttpMinor (q : Parser) (ch : UInt8) : Step :=
  if ch = chr ' ' then { parser := q.goto .resFirstStatusCode } else minorDigit q ch

/-- The minor version of a request, up to the end of the line. -/
def caseReqHttpMinor (q : Parser) (ch : UInt8) : Step :=
  if ch = cr then { parser := q.goto .reqLineAlmostDone }
  else if ch = lf then { parser := q.goto .headerFieldStart }
  else minorDigit q ch

/-- The first digit of the status code, before which spaces are skipped. -/
def caseResFirstStatusCode (q : Parser) (ch : UInt8) : Step :=
  if !isNum ch then
    if ch = chr ' ' then { parser := q } else fail q .invalidStatus
  else { parser := { q with statusCode := ch.toNat - 48, state := .resStatusCode } }

/-- The other digits of the status code. -/
def caseResStatusCode (q : Parser) (ch : UInt8) : Step :=
  if !isNum ch then
    if ch = chr ' ' then { parser := q.goto .resStatus }
    else if ch = cr then { parser := q.goto .resLineAlmostDone }
    else if ch = lf then { parser := q.goto .headerFieldStart }
    else fail q .invalidStatus
  else
    let q := { q with statusCode := decimalDigit q.statusCode ch }
    if 999 < q.statusCode then fail q .invalidStatus else { parser := q }

/-- The text of the status is skipped. -/
def caseResStatus (q : Parser) (ch : UInt8) : Step :=
  if ch = cr then { parser := q.goto .resLineAlmostDone }
  else if ch = lf then { parser := q.goto .headerFieldStart }
  else { parser := q }

/-! ### The request line -/

/-- The method that the first character of a request stands for until more is known. -/
def firstMethod (ch : UInt8) : Option Method :=
  if ch = chr 'C' then some .connect
  else if ch = chr 'D' then some .delete
  else if ch = chr 'G' then some .get
  else if ch = chr 'H' then some .head
  else if ch = chr 'L' then some .lock
  else if ch = chr 'M' then some .mkcol
  else if ch = chr 'N' then some .notify
  else if ch = chr 'O' then some .options
  else if ch = chr 'P' then some .post
  else if ch = chr 'R' then some .report
  else if ch = chr 'S' then some .subscribe
  else if ch = chr 'T' then some .trace
  else if ch = chr 'U' then some .unlock
  else none

/-- The first letter of a request. -/
def caseStartReq (q : Parser) (ch : UInt8) : Step :=
  if isNewline ch then { parser := q }
  else if !isAlpha ch then fail q.reset .invalidMethod
  else
    match firstMethod ch with
    | some m => notifying { q.reset with method := m, index := 1, state := .reqMethod } .messageBegin
    | none => fail { q.reset with method := .delete, index := 1 } .invalidMethod

/-- The branches for a character that is not the next one of the method: the method that it is then, or
an error, which is `ok` where the source does not give it a number. -/
def otherMethod (m : Method) (index : ℕ) (ch : UInt8) : Except Errno Method :=
  if m = .connect then
    if index = 1 ∧ ch = chr 'H' then .ok .checkout
    else if index = 2 ∧ ch = chr 'P' then .ok .copy
    else .error .ok
  else if m = .mkcol then
    if index = 1 ∧ ch = chr 'O' then .ok .move
    else if index = 1 ∧ ch = chr 'E' then .ok .merge
    else if index = 1 ∧ ch = chr '-' then .ok .msearch
    else if index = 2 ∧ ch = chr 'A' then .ok .mkactivity
    else .error .ok
  else if m = .subscribe then
    if index = 1 ∧ ch = chr 'E' then .ok .search else .error .ok
  else if index = 1 ∧ m = .post then
    if ch = chr 'R' then .ok .propfind
    else if ch = chr 'U' then .ok .put
    else if ch = chr 'A' then .ok .patch
    else .error .ok
  else if index = 2 then
    -- any character is let through here, also one that belongs to no method
    if m = .put then .ok (if ch = chr 'R' then .purge else .put)
    else if m = .unlock then .ok (if ch = chr 'S' then .unsubscribe else .unlock)
    else .ok m
  else if index = 4 ∧ m = .propfind ∧ ch = chr 'P' then .ok .proppatch
  else .error .invalidMethod

/-- The next letter of the method. A letter that does not match may lead to another method. -/
def caseReqMethod (q : Parser) (ch : UInt8) : Option Step :=
  if ch = 0 then some (fail q .invalidMethod)
  else do
    let c ← charAt (methodString q.method) q.index
    if ch = chr ' ' ∧ c = 0 then
      return { parser := { q with state := .reqSpacesBeforeUrl, index := q.index + 1 } }
    else if ch = c then return { parser := { q with index := q.index + 1 } }
    else
      match otherMethod q.method q.index ch with
      | .ok m => return { parser := { q with method := m, index := q.index + 1 } }
      | .error e => return fail q e

/-- The states that accept a character of the host. -/
def serverChar (ch : UInt8) : State :=
  if ch = chr '/' then .reqPath
  else if ch = chr '?' then .reqQueryStringStart
  else if ch = chr '@' then .reqServerWithAt
  else if isUserinfoChar ch || ch == chr '[' || ch == chr ']' then .reqServer
  else .dead

/-- `parse_url_char`. -/
def parseUrlChar (s : State) (ch : UInt8) : State :=
  if ch = chr ' ' ∨ isNewline ch ∨ ch = tab ∨ ch = 12 then .dead
  else
    match s with
    | .reqSpacesBeforeUrl =>
      if ch = chr '/' ∨ ch = chr '*' then .reqPath else if isAlpha ch then .reqSchema else .dead
    | .reqSchema =>
      if isAlpha ch then .reqSchema else if ch = chr ':' then .reqSchemaSlash else .dead
    | .reqSchemaSlash => if ch = chr '/' then .reqSchemaSlashSlash else .dead
    | .reqSchemaSlashSlash => if ch = chr '/' then .reqServerStart else .dead
    | .reqServerWithAt => if ch = chr '@' then .dead else serverChar ch
    | .reqServerStart | .reqServer => serverChar ch
    | .reqPath =>
      if isUrlChar ch then .reqPath
      else if ch = chr '?' then .reqQueryStringStart
      else if ch = chr '#' then .reqFragmentStart
      else .dead
    | .reqQueryStringStart | .reqQueryString =>
      if isUrlChar ch then .reqQueryString
      else if ch = chr '?' then .reqQueryString
      else if ch = chr '#' then .reqFragmentStart
      else .dead
    | .reqFragmentStart =>
      if isUrlChar ch then .reqFragment
      else if ch = chr '?' then .reqFragment
      else if ch = chr '#' then .reqFragmentStart
      else .dead
    | .reqFragment => if isUrlChar ch || ch == chr '?' || ch == chr '#' then .reqFragment else .dead
    | _ => .dead

/-- The state that `parse_url_char` gives, unless it is `s_dead`. -/
def urlStep (q : Parser) (s : State) (ch : UInt8) (actions : List Action) : Step :=
  let q := q.goto (parseUrlChar s ch)
  if q.state = .dead then { fail q .invalidUrl with actions } else { parser := q, actions }

/-- The first byte of the target, after any spaces. -/
def caseReqSpacesBeforeUrl (q : Parser) (ch : UInt8) : Step :=
  if ch = chr ' ' then { parser := q }
  else
    urlStep q (if q.method = .connect then .reqServerStart else q.state) ch [.mark .url]

/-- The target before the host, where it must not end. -/
def caseReqSchema (q : Parser) (ch : UInt8) : Step :=
  if ch = chr ' ' ∨ isNewline ch then fail q .invalidUrl else urlStep q q.state ch []

/-- The rest of the target. -/
def caseReqUrl (q : Parser) (ch : UInt8) : Step :=
  if ch = chr ' ' then reporting (q.goto .reqHttpStart) .url
  else if isNewline ch then
    reporting
      { q with
        httpMajor := 0
        httpMinor := 9
        state := if ch = cr then .reqLineAlmostDone else .headerFieldStart } .url
  else urlStep q q.state ch []

/-- The word `HTTP`, after any spaces. -/
def caseReqHttpStart (q : Parser) (ch : UInt8) : Step :=
  if ch = chr 'H' then { parser := q.goto .reqHttpH }
  else if ch = chr ' ' then { parser := q }
  else fail q .invalidConstant

/-- The line feed of the request line. -/
def caseReqLineAlmostDone (q : Parser) (ch : UInt8) : Step :=
  if ch ≠ lf then fail q .lfExpected else { parser := q.goto .headerFieldStart }

/-! ### Headers -/

/-- The next character of a word that is looked for: sizes and indices are those of `sizeof`. -/
def matchWord (word : Bytes) (found : HeaderState) (q : Parser) (c : UInt8) : Parser :=
  let q := { q with index := q.index + 1 }
  if word.length < q.index ∨ charAt word q.index ≠ some c then { q with headerState := .general }
  else if q.index = word.length - 1 then { q with headerState := found }
  else q

/-- The name `CONNECTION`, in lower case. -/
def connectionName : Bytes := bytesOf "connection"

/-- The name `PROXY_CONNECTION`, in lower case. -/
def proxyConnectionName : Bytes := bytesOf "proxy-connection"

/-- The name `CONTENT_LENGTH`, in lower case. -/
def contentLengthName : Bytes := bytesOf "content-length"

/-- The name `TRANSFER_ENCODING`, in lower case. -/
def transferEncodingName : Bytes := bytesOf "transfer-encoding"

/-- The name `UPGRADE`, in lower case. -/
def upgradeName : Bytes := bytesOf "upgrade"

/-- The value `CHUNKED`, in lower case. -/
def chunkedValue : Bytes := bytesOf "chunked"

/-- The value `KEEP_ALIVE`, in lower case. -/
def keepAliveValue : Bytes := bytesOf "keep-alive"

/-- The value `CLOSE`, in lower case. -/
def closeValue : Bytes := bytesOf "close"

/-- The headers that a first letter may belong to. -/
def firstHeaderState (c : UInt8) : HeaderState :=
  if c = chr 'c' then .C
  else if c = chr 'p' then .matchingProxyConnection
  else if c = chr 't' then .matchingTransferEncoding
  else if c = chr 'u' then .matchingUpgrade
  else .general

/-- The first byte of a header, or the end of the headers. -/
def caseHeaderFieldStart (q : Parser) (ch : UInt8) : Step :=
  if ch = cr then { parser := q.goto .headersAlmostDone }
  else if ch = lf then reexecuting (q.goto .headersAlmostDone)
  else if token ch = 0 then fail q .invalidHeaderToken
  else
    { parser :=
        { q with index := 0, state := .headerField, headerState := firstHeaderState (token ch) }
      actions := [.mark .headerField] }

/-- The `switch` over the header state for a character of a token, whose lower-case form is `c`. -/
def nameChar (q : Parser) (ch c : UInt8) : Option Parser :=
  match q.headerState with
  | .general => some q
  | .C =>
    some { q with index := q.index + 1, headerState := if c = chr 'o' then .CO else .general }
  | .CO =>
    some { q with index := q.index + 1, headerState := if c = chr 'n' then .CON else .general }
  | .CON =>
    some
      { q with
        index := q.index + 1
        headerState :=
          if c = chr 'n' then .matchingConnection
          else if c = chr 't' then .matchingContentLength
          else .general }
  | .matchingConnection => some (matchWord connectionName .connection q c)
  | .matchingProxyConnection => some (matchWord proxyConnectionName .connection q c)
  | .matchingContentLength => some (matchWord contentLengthName .contentLength q c)
  | .matchingTransferEncoding => some (matchWord transferEncodingName .transferEncoding q c)
  | .matchingUpgrade => some (matchWord upgradeName .upgrade q c)
  | .connection | .contentLength | .transferEncoding | .upgrade =>
    some (if ch ≠ chr ' ' then { q with headerState := .general } else q)
  | _ => none

/-- The next byte of a name, up to the colon or the end of the line. -/
def caseHeaderField (q : Parser) (ch : UInt8) : Option Step :=
  if token ch ≠ 0 then (nameChar q ch (token ch)).map fun q => { parser := q }
  else if ch = chr ':' then some (reporting (q.goto .headerValueStart) .headerField)
  else if ch = cr then some (reporting (q.goto .headerAlmostDone) .headerField)
  else if ch = lf then some (reporting (q.goto .headerFieldStart) .headerField)
  else some (fail q .invalidHeaderToken)

/-- The first character of a value, whose lower-case form is `c`. -/
def firstValueChar (q : Parser) (ch c : UInt8) : Step :=
  match q.headerState with
  | .upgrade =>
    { parser := { q with flags := { q.flags with upgrade := true }, headerState := .general } }
  | .transferEncoding =>
    { parser :=
        { q with
          headerState := if c = chr 'c' then .matchingTransferEncodingChunked else .general } }
  | .contentLength =>
    if !isNum ch then fail q .invalidContentLength
    else { parser := { q with contentLength := ch.toNat - 48 } }
  | .connection =>
    { parser :=
        { q with
          headerState :=
            if c = chr 'k' then .matchingConnectionKeepAlive
            else if c = chr 'c' then .matchingConnectionClose
            else .general } }
  | _ => { parser := { q with headerState := .general } }

/-- The first byte of a value, after blanks. -/
def caseHeaderValueStart (q : Parser) (ch : UInt8) : Step :=
  if ch = chr ' ' ∨ ch = tab then { parser := q }
  else
    let q := { q with state := .headerValue, index := 0 }
    if ch = cr then
      { parser := { q with headerState := .general, state := .headerAlmostDone }
        actions := [.mark .headerValue, .data .headerValue 0 1] }
    else if ch = lf then
      { parser := q.goto .headerFieldStart
        actions := [.mark .headerValue, .data .headerValue 0 1] }
    else { firstValueChar q ch (lower ch) with actions := [.mark .headerValue] }

/-- A digit of a length: the sum is a `uint64_t`, and it must not be less than before. -/
def lengthDigit (q : Parser) (base digit : ℕ) : Step :=
  let t := (q.contentLength * base + digit) % 2 ^ 64
  if t < q.contentLength ∨ t = ullongMax then fail q .invalidContentLength
  else { parser := { q with contentLength := t } }

/-- Another character of a value, whose lower-case form is `c`. -/
def valueChar (q : Parser) (ch c : UInt8) : Option Step :=
  match q.headerState with
  | .general => some { parser := q }
  | .connection | .transferEncoding => none
  | .contentLength =>
    if ch = chr ' ' then some { parser := q }
    else if !isNum ch then some (fail q .invalidContentLength)
    else some (lengthDigit q 10 (ch.toNat - 48))
  | .matchingTransferEncodingChunked =>
    some { parser := matchWord chunkedValue .transferEncodingChunked q c }
  | .matchingConnectionKeepAlive =>
    some { parser := matchWord keepAliveValue .connectionKeepAlive q c }
  | .matchingConnectionClose => some { parser := matchWord closeValue .connectionClose q c }
  | .transferEncodingChunked | .connectionKeepAlive | .connectionClose =>
    some { parser := if ch ≠ chr ' ' then { q with headerState := .general } else q }
  | _ => some { parser := { q with state := .headerValue, headerState := .general } }

/-- The next byte of a value, up to the end of the line. -/
def caseHeaderValue (q : Parser) (ch : UInt8) : Option Step :=
  if ch = cr then some (reporting (q.goto .headerAlmostDone) .headerValue)
  else if ch = lf then
    some
      { parser := q.goto .headerAlmostDone
        actions := [.data .headerValue 0 0]
        exit := .again }
  else valueChar q ch (lower ch)

/-- The line feed of a header; its value now counts. -/
def caseHeaderAlmostDone (q : Parser) (ch : UInt8) : Step :=
  if ch ≠ lf then fail q .strict
  else
    let flags :=
      match q.headerState with
      | .connectionKeepAlive => { q.flags with connectionKeepAlive := true }
      | .connectionClose => { q.flags with connectionClose := true }
      | .transferEncodingChunked => { q.flags with chunked := true }
      | _ => q.flags
    { parser := { q with state := .headerValueLws, flags } }

/-- A line that begins with a blank goes on with the value of the last header. -/
def caseHeaderValueLws (q : Parser) (ch : UInt8) : Step :=
  if ch = chr ' ' ∨ ch = tab then { parser := q.goto .headerValueStart }
  else reexecuting (q.goto .headerFieldStart)

/-- The line feed after the headers. The call of `on_headers_complete` may change the flags, so the
byte is looked at again. -/
def caseHeadersAlmostDone (q : Parser) (ch : UInt8) : Step :=
  if ch ≠ lf then fail q .strict
  else if q.flags.trailing then notifying (q.goto (newMessage q)) .messageComplete
  else
    { parser :=
        { q with state := .headersDone, upgrade := q.flags.upgrade || q.method == .connect }
      actions := [.headersComplete]
      exit := .again }

/-- The flags and the content length say whether there is a body, and how it comes. -/
def caseHeadersDone (q : Parser) (ch : UInt8) : Step :=
  if ch ≠ lf then fail q .strict
  else
    let q := { q with nread := 0 }
    let complete := notifying (q.goto (newMessage q)) .messageComplete
    if q.upgrade then { complete with exit := .finish }
    else if q.flags.skipbody then complete
    else if q.flags.chunked then { parser := q.goto .chunkSizeStart }
    else if q.contentLength = 0 then complete
    else if q.contentLength ≠ ullongMax then { parser := q.goto .bodyIdentity }
    else if q.type = .request ∨ !messageNeedsEof q then complete
    else { parser := q.goto .bodyIdentityEof }

/-! ### Bodies -/

/-- A length that a body may have. -/
def validLength (q : Parser) : Bool := q.contentLength != 0 && q.contentLength != ullongMax

/-- `remaining` is the number of bytes of the data from the current one on. -/
def caseBodyIdentity (q : Parser) (remaining : ℕ) : Option Step :=
  let toRead := min q.contentLength remaining
  if !validLength q then none
  else
    let q := { q with contentLength := q.contentLength - toRead }
    if q.contentLength = 0 then
      some
        { parser := q.goto .messageDone
          actions := [.mark .body, .skip (toRead - 1), .data .body 1 0]
          exit := .again }
    else some { parser := q, actions := [.mark .body, .skip (toRead - 1)] }

/-- A body that ends with the connection: the rest of the data belongs to it. -/
def caseBodyIdentityEof (q : Parser) (remaining : ℕ) : Step where
  parser := q
  actions := [.mark .body, .skip (remaining - 1)]

/-- The end of a body with a content length. -/
def caseMessageDone (q : Parser) : Step := notifying (q.goto (newMessage q)) .messageComplete

/-- The first digit of a chunk size. -/
def caseChunkSizeStart (q : Parser) (ch : UInt8) : Option Step :=
  if q.nread ≠ 1 ∨ !q.flags.chunked then none
  else
    match unhex ch with
    | none => some (fail q .invalidChunkSize)
    | some n => some { parser := { q with contentLength := n, state := .chunkSize } }

/-- The other digits of a chunk size. -/
def caseChunkSize (q : Parser) (ch : UInt8) : Option Step :=
  if !q.flags.chunked then none
  else if ch = cr then some { parser := q.goto .chunkSizeAlmostDone }
  else
    match unhex ch with
    | none =>
      if ch = chr ';' ∨ ch = chr ' ' then some { parser := q.goto .chunkParameters }
      else some (fail q .invalidChunkSize)
    | some n => some (lengthDigit q 16 n)

/-- What follows a chunk size is skipped. -/
def caseChunkParameters (q : Parser) (ch : UInt8) : Option Step :=
  if !q.flags.chunked then none
  else if ch = cr then some { parser := q.goto .chunkSizeAlmostDone }
  else some { parser := q }

/-- The line feed of a chunk size; after the size zero come the trailing headers. -/
def caseChunkSizeAlmostDone (q : Parser) (ch : UInt8) : Option Step :=
  if !q.flags.chunked then none
  else if ch ≠ lf then some (fail q .strict)
  else
    let q := { q with nread := 0 }
    if q.contentLength = 0 then
      some { parser := { q with flags := { q.flags with trailing := true }, state := .headerFieldStart } }
    else some { parser := q.goto .chunkData }

/-- The bytes of a chunk. -/
def caseChunkData (q : Parser) (remaining : ℕ) : Option Step :=
  let toRead := min q.contentLength remaining
  if !q.flags.chunked || !validLength q then none
  else
    let q := { q with contentLength := q.contentLength - toRead }
    let actions := [.mark .body, .skip (toRead - 1)]
    if q.contentLength = 0 then some { parser := q.goto .chunkDataAlmostDone, actions }
    else some { parser := q, actions }

/-- The carriage return after a chunk, with which its bytes are reported. -/
def caseChunkDataAlmostDone (q : Parser) (ch : UInt8) : Option Step :=
  if !q.flags.chunked ∨ q.contentLength ≠ 0 then none
  else if ch ≠ cr then some (fail q .strict)
  else some (reporting (q.goto .chunkDataDone) .body)

/-- The line feed after a chunk. -/
def caseChunkDataDone (q : Parser) (ch : UInt8) : Option Step :=
  if !q.flags.chunked then none
  else if ch ≠ lf then some (fail q .strict)
  else some { parser := { q with nread := 0, state := .chunkSizeStart } }

/-- `switch (parser->state)`. -/
def switch (q : Parser) (ch : UInt8) (remaining : ℕ) : Option Step :=
  match q.state with
  | .dead => some (caseDead q ch)
  | .startReqOrRes => some (caseStartReqOrRes q ch)
  | .resOrRespH => some (caseResOrRespH q ch)
  | .startRes => some (caseStartRes q ch)
  | .resH => some (expect q ch (chr 'T') .resHT)
  | .resHT => some (expect q ch (chr 'T') .resHTT)
  | .resHTT => some (expect q ch (chr 'P') .resHTTP)
  | .resHTTP => some (expect q ch (chr '/') .resFirstHttpMajor)
  | .resFirstHttpMajor => some (caseResFirstHttpMajor q ch)
  | .resHttpMajor => some (caseHttpMajor q ch .resFirstHttpMinor)
  | .resFirstHttpMinor => some (caseFirstHttpMinor q ch .resHttpMinor)
  | .resHttpMinor => some (caseResHttpMinor q ch)
  | .resFirstStatusCode => some (caseResFirstStatusCode q ch)
  | .resStatusCode => some (caseResStatusCode q ch)
  | .resStatus => some (caseResStatus q ch)
  | .resLineAlmostDone => some (expect q ch lf .headerFieldStart)
  | .startReq => some (caseStartReq q ch)
  | .reqMethod => caseReqMethod q ch
  | .reqSpacesBeforeUrl => some (caseReqSpacesBeforeUrl q ch)
  | .reqSchema | .reqSchemaSlash | .reqSchemaSlashSlash | .reqServerStart => some (caseReqSchema q ch)
  | .reqServer | .reqServerWithAt | .reqPath | .reqQueryStringStart | .reqQueryString
  | .reqFragmentStart | .reqFragment => some (caseReqUrl q ch)
  | .reqHttpStart => some (caseReqHttpStart q ch)
  | .reqHttpH => some (expect q ch (chr 'T') .reqHttpHT)
  | .reqHttpHT => some (expect q ch (chr 'T') .reqHttpHTT)
  | .reqHttpHTT => some (expect q ch (chr 'P') .reqHttpHTTP)
  | .reqHttpHTTP => some (expect q ch (chr '/') .reqFirstHttpMajor)
  | .reqFirstHttpMajor => some (caseReqFirstHttpMajor q ch)
  | .reqHttpMajor => some (caseHttpMajor q ch .reqFirstHttpMinor)
  | .reqFirstHttpMinor => some (caseFirstHttpMinor q ch .reqHttpMinor)
  | .reqHttpMinor => some (caseReqHttpMinor q ch)
  | .reqLineAlmostDone => some (caseReqLineAlmostDone q ch)
  | .headerFieldStart => some (caseHeaderFieldStart q ch)
  | .headerField => caseHeaderField q ch
  | .headerValueStart => some (caseHeaderValueStart q ch)
  | .headerValue => caseHeaderValue q ch
  | .headerAlmostDone => some (caseHeaderAlmostDone q ch)
  | .headerValueLws => some (caseHeaderValueLws q ch)
  | .headersAlmostDone => some (caseHeadersAlmostDone q ch)
  | .headersDone => some (caseHeadersDone q ch)
  | .bodyIdentity => caseBodyIdentity q remaining
  | .bodyIdentityEof => some (caseBodyIdentityEof q remaining)
  | .messageDone => some (caseMessageDone q)
  | .chunkSizeStart => caseChunkSizeStart q ch
  | .chunkSize => caseChunkSize q ch
  | .chunkParameters => caseChunkParameters q ch
  | .chunkSizeAlmostDone => caseChunkSizeAlmostDone q ch
  | .chunkData => caseChunkData q remaining
  | .chunkDataAlmostDone => caseChunkDataAlmostDone q ch
  | .chunkDataDone => caseChunkDataDone q ch

/-! ## Callbacks -/

/-- What a callback returns, whether it has paused the parser, and what it leaves of the state of the
program that uses the parser. -/
structure Reply (σ : Type) where
  /-- The result of the callback. -/
  code : ℤ
  /-- The callback has called `http_parser_pause`. -/
  paused : Bool
  /-- The state of the program after it. -/
  app : σ

/-- `http_parser_settings`. Data are given by their place in the data of the call and their bytes. -/
structure Settings (σ : Type) where
  /-- A message begins. -/
  onMessageBegin : Option (Parser → σ → Reply σ) := none
  /-- A piece of the target. -/
  onUrl : Option (Parser → ℕ → Bytes → σ → Reply σ) := none
  /-- A piece of a name. -/
  onHeaderField : Option (Parser → ℕ → Bytes → σ → Reply σ) := none
  /-- A piece of a value. -/
  onHeaderValue : Option (Parser → ℕ → Bytes → σ → Reply σ) := none
  /-- The headers are complete; the result 1 says that there is no body. -/
  onHeadersComplete : Option (Parser → σ → Reply σ) := none
  /-- A piece of the body. -/
  onBody : Option (Parser → ℕ → Bytes → σ → Reply σ) := none
  /-- The message is complete. -/
  onMessageComplete : Option (Parser → σ → Reply σ) := none

section Execute

variable {σ : Type} (s : Settings σ)

/-- The callback of a note. -/
def Settings.onNote : Note → Option (Parser → σ → Reply σ)
  | .messageBegin => s.onMessageBegin
  | .headersComplete => s.onHeadersComplete
  | .messageComplete => s.onMessageComplete

/-- The callback for the data of a part. -/
def Settings.onData : Part → Option (Parser → ℕ → Bytes → σ → Reply σ)
  | .headerField => s.onHeaderField
  | .headerValue => s.onHeaderValue
  | .url => s.onUrl
  | .body => s.onBody

/-- The parser after a callback that may have paused it: a result other than zero is the error `e`. -/
def Parser.answered (q : Parser) (r : Reply σ) (e : Errno) : Parser :=
  if r.code ≠ 0 then { q with errno := e }
  else if r.paused then { q with errno := .paused }
  else q

/-- The local variables of `http_parser_execute`; `p` and the marks are places in the data. -/
structure Frame (σ : Type) where
  /-- The parser. -/
  parser : Parser
  /-- The state of the program. -/
  app : σ
  /-- The current byte. -/
  p : ℕ
  /-- Where the data of a part begin. -/
  marks : Part → Option ℕ

/-- A part of the call: it goes on, it returns, or it fails. -/
inductive Outcome (σ α : Type) where
  | cont (a : α)
  | stop (q : Parser) (app : σ) (parsed : ℕ)
  | abort

/-- The call goes on with `k` unless it has ended. -/
def Outcome.bind {α β : Type} (o : Outcome σ α) (k : α → Outcome σ β) : Outcome σ β :=
  match o with
  | .cont a => k a
  | .stop q app n => .stop q app n
  | .abort => .abort

/-- `CALLBACK_NOTIFY_`. -/
def callbackNotify (n : Note) (consumed : ℕ) (f : Frame σ) : Outcome σ (Frame σ) :=
  if f.parser.errno ≠ .ok then .abort
  else
    match s.onNote n with
    | none => .cont f
    | some cb =>
      let r := cb f.parser f.app
      let q := f.parser.answered r (.note n)
      if q.errno ≠ .ok then .stop q r.app (f.p + consumed)
      else .cont { f with parser := q, app := r.app }

/-- The call of `on_headers_complete`, whose result 1 means that there is no body. -/
def callbackHeadersComplete (f : Frame σ) : Outcome σ (Frame σ) :=
  match s.onHeadersComplete with
  | none => if f.parser.errno ≠ .ok then .stop f.parser f.app f.p else .cont f
  | some cb =>
    let r := cb f.parser f.app
    let q := if r.paused then { f.parser with errno := .paused } else f.parser
    if r.code = 0 ∨ r.code = 1 then
      let q := if r.code = 1 then { q with flags := { q.flags with skipbody := true } } else q
      if q.errno ≠ .ok then .stop q r.app f.p else .cont { f with parser := q, app := r.app }
    else .stop { q with errno := .note .headersComplete } r.app f.p

variable (data : Bytes)

/-- `CALLBACK_DATA_`: the data from the mark up to `p` and `extra` bytes more. -/
def callbackData (part : Part) (extra consumed : ℕ) (f : Frame σ) : Outcome σ (Frame σ) :=
  if f.parser.errno ≠ .ok then .abort
  else
    match f.marks part with
    | none => .cont f
    | some m =>
      if f.p < m ∨ data.length < f.p + extra then .abort
      else
        let marks := fun k => if k = part then none else f.marks k
        match s.onData part with
        | none => .cont { f with marks }
        | some cb =>
          let r := cb f.parser m ((data.drop m).take (f.p - m + extra)) f.app
          let q := f.parser.answered r (.data part)
          if q.errno ≠ .ok then .stop q r.app (f.p + consumed)
          else .cont { f with parser := q, app := r.app, marks }

/-- `MARK`. -/
def Frame.mark (part : Part) (f : Frame σ) : Frame σ :=
  { f with marks := fun k => if k = part then some ((f.marks part).getD f.p) else f.marks k }

/-- What is done for an action. -/
def act : Action → Frame σ → Outcome σ (Frame σ)
  | .mark part, f => .cont (f.mark part)
  | .skip n, f => .cont { f with p := f.p + n }
  | .notify n consumed, f => callbackNotify s n consumed f
  | .data part extra consumed, f => callbackData s data part extra consumed f
  | .headersComplete, f => callbackHeadersComplete s f

/-- The actions, in their order. -/
def perform : List Action → Frame σ → Outcome σ (Frame σ)
  | [], f => .cont f
  | a :: as, f => (act s data a f).bind (perform as)

/-- `error:`, where `HPE_UNKNOWN` stands for an error that has not been given a number. -/
def gotoError {α : Type} (f : Frame σ) : Outcome σ α :=
  .stop (if f.parser.errno = .ok then { f.parser with errno := .unknown } else f.parser) f.app f.p

/-- The byte at `p`, with the number of times it may be looked at. -/
def reexecuteByte (ch : UInt8) : ℕ → Frame σ → Outcome σ (Frame σ)
  | 0, _ => .abort
  | n + 1, f =>
    match switch f.parser ch (data.length - f.p) with
    | none => .abort
    | some step =>
      (perform s data step.actions { f with parser := step.parser }).bind fun f =>
        match step.exit with
        | .next => .cont f
        | .again => reexecuteByte ch n f
        | .error => gotoError f
        | .finish => .stop f.parser f.app (f.p + 1)

/-- The number of marks that are set. -/
def markCount (marks : Part → Option ℕ) : ℕ :=
  ([.headerField, .headerValue, .url, .body].filter fun k => (marks k).isSome).length

/-- What is left when there are no more bytes. -/
def leftover (f : Frame σ) : Outcome σ (Frame σ) :=
  if 1 < markCount f.marks then .abort
  else
    (callbackData s data .headerField 0 0 f).bind fun f =>
    (callbackData s data .headerValue 0 0 f).bind fun f =>
    (callbackData s data .url 0 0 f).bind fun f =>
    callbackData s data .body 0 0 f

/-- The bytes read in the header are counted. -/
def Parser.count (q : Parser) : Parser :=
  if q.state.parsingHeader then { q with nread := q.nread + 1 } else q

/-- One round of the loop over the bytes. -/
def round (ch : UInt8) (f : Frame σ) : Outcome σ (Frame σ) :=
  let f := { f with parser := f.parser.count }
  if f.parser.state.parsingHeader ∧ maxHeaderSize < f.parser.nread then
    gotoError { f with parser := { f.parser with errno := .headerOverflow } }
  else (reexecuteByte s data ch 4 f).bind fun f => .cont { f with p := f.p + 1 }

/-- The loop over the bytes, with the number of rounds that it is given. -/
def loop : ℕ → Frame σ → Outcome σ (Frame σ)
  | n, f =>
    if f.p = data.length then leftover s data f
    else
      match n, data[f.p]? with
      | n + 1, some ch => (round s data ch f).bind (loop n)
      | _, _ => .abort

/-- The states in which the data of a call begin within a part. -/
def State.part : State → Option Part
  | .headerField => some .headerField
  | .headerValue => some .headerValue
  | .reqPath | .reqSchema | .reqSchemaSlash | .reqSchemaSlashSlash | .reqServerStart | .reqServer
  | .reqServerWithAt | .reqQueryStringStart | .reqQueryString | .reqFragmentStart | .reqFragment =>
    some .url
  | _ => none

/-- A part that has not been reported as a whole goes on at the first byte. -/
def initialMarks (q : Parser) : Part → Option ℕ :=
  fun k => if q.state.part = some k then some 0 else none

/-- The call with no data, which stands for the end of the connection. -/
def executeEof (q : Parser) (app : σ) : Option (Parser × σ × ℕ) :=
  match q.state with
  | .bodyIdentityEof =>
    match callbackNotify s .messageComplete 0 ⟨q, app, 0, fun _ => none⟩ with
    | .cont f => some (f.parser, f.app, 0)
    | .stop q app n => some (q, app, n)
    | .abort => none
  | .dead | .startReqOrRes | .startRes | .startReq => some (q, app, 0)
  | _ => some ({ q with errno := .invalidEofState }, app, 1)

/-- `http_parser_execute`: the parser, the state of the program and the number of bytes parsed; nothing
if an assertion fails, an access is outside its table or the data, or the loop does not end. -/
def execute (q : Parser) (app : σ) : Option (Parser × σ × ℕ) :=
  if q.errno ≠ .ok then some (q, app, 0)
  else if data = [] then executeEof s q app
  else
    match loop s data data.length ⟨q, app, 0, initialMarks q⟩ with
    | .cont f => some (f.parser, f.app, data.length)
    | .stop q app n => some (q, app, n)
    | .abort => none

end Execute

end HttpParser

end CaptureHpc
