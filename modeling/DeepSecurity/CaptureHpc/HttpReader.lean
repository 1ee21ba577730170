import DeepSecurity.CaptureHpc.HttpParser
import DeepSecurity.Lib.Pieces

/-!
# Reading a stream byte by byte

What `http_parser_execute` is for: it reads a stream and reports the messages in it. Here the stream is
read one byte at a time by the cases of the switch, without marks, and every byte of a URL, a header or a
body is reported when it is read. This is what the parser is compared with.
-/

namespace CaptureHpc

namespace HttpParser

/-! ## What is reported -/

/-- A notification; at the end of the headers the method and the version are known. -/
inductive Notice where
  | messageBegin
  | headersComplete (method : Method) (httpMajor httpMinor : ℕ)
  | messageComplete
deriving DecidableEq, Repr

/-- What a notification says about the parser that it comes from. -/
def Note.notice (q : Parser) : Note → Notice
  | .messageBegin => .messageBegin
  | .headersComplete => .headersComplete q.method q.httpMajor q.httpMinor
  | .messageComplete => .messageComplete

/-- What is reported of a stream: notifications, and pieces of URLs, headers and bodies. -/
abbrev Report := Pieces.Event Notice Part UInt8

/-- Callbacks that write down what they are called with. -/
def recorder : Settings (List Report) where
  onMessageBegin := some fun _ es => ⟨0, false, es ++ [.note .messageBegin]⟩
  onUrl := some fun _ _ l es => ⟨0, false, es ++ [.piece .url l]⟩
  onHeaderField := some fun _ _ l es => ⟨0, false, es ++ [.piece .headerField l]⟩
  onHeaderValue := some fun _ _ l es => ⟨0, false, es ++ [.piece .headerValue l]⟩
  onHeadersComplete := some fun q es =>
    ⟨0, false, es ++ [.note (.headersComplete q.method q.httpMajor q.httpMinor)]⟩
  onBody := some fun _ _ l es => ⟨0, false, es ++ [.piece .body l]⟩
  onMessageComplete := some fun _ es => ⟨0, false, es ++ [.note .messageComplete]⟩

/-- The part that may be marked in a state. -/
def State.markable : State → Option Part
  | .bodyIdentity | .bodyIdentityEof | .chunkData | .chunkDataAlmostDone => some .body
  | s => s.part

/-- The part that may be marked after some actions. -/
def track : List Action → Option Part → Option Part
  | [], c => c
  | .mark k :: as, _ => track as (some k)
  | .data k _ _ :: as, c => track as (if c = some k then none else c)
  | _ :: as, c => track as c

/-- What an action reports, apart from what has been read before: a mark opens a part, and a callback
with one byte more than there are before `p` reports the current byte. -/
def Action.reports (q : Parser) (ch : UInt8) : Action → List Report
  | .mark k => [.piece k []]
  | .notify n _ => [.note (n.notice q)]
  | .headersComplete => [.note (Note.headersComplete.notice q)]
  | .data k extra _ => if extra = 0 then [] else [.piece k [ch]]
  | .skip _ => []

/-- The part that the current byte belongs to if it has been read by this step. -/
def Step.part (q : Parser) (step : Step) : Option Part :=
  if step.exit = .next then track step.actions q.state.part else none

/-- A byte of a part. -/
def readIn (ch : UInt8) : Option Part → List Report
  | some k => [.piece k [ch]]
  | none => []

/-- What a step from the parser `q` reports. -/
def Step.reports (q : Parser) (step : Step) (ch : UInt8) : List Report :=
  step.actions.flatMap (Action.reports step.parser ch) ++ readIn ch (step.part q)

/-! ## Reading -/

/-- A byte by itself. -/
def lookAt (ch : UInt8) : ℕ → Parser → Option (Parser × List Report × Exit)
  | 0, _ => none
  | n + 1, q =>
    match switch q ch 1 with
    | none => none
    | some step =>
      match step.exit with
      | .again =>
        (lookAt ch n step.parser).map fun (q', es, exit) => (q', step.reports q ch ++ es, exit)
      | .error =>
        some (if step.parser.errno = .ok then { step.parser with errno := .unknown } else step.parser,
          step.reports q ch, .error)
      | exit => some (step.parser, step.reports q ch, exit)

/-- The bytes of a stream, up to an error or the end of the protocol: the parser, what is reported, and
the number of bytes read. -/
def read : Parser → Bytes → Option (Parser × List Report × ℕ)
  | q, [] => some (q, [], 0)
  | q, ch :: l =>
    let q := q.count
    if q.state.parsingHeader ∧ maxHeaderSize < q.nread then
      some ({ q with errno := .headerOverflow }, [], 0)
    else
      match lookAt ch 4 q with
      | none => none
      | some (q', es, .error) => some (q', es, 0)
      | some (q', es, .finish) => some (q', es, 1)
      | some (q', es, _) => (read q' l).map fun (q'', es', n) => (q'', es ++ es', n + 1)

/-! ## Pieces of a stream -/

/-- A stream that comes in pieces, up to an error or the end of the protocol. -/
def feed {σ : Type} (s : Settings σ) : List Bytes → Parser → σ → Option (Parser × σ × ℕ)
  | [], q, app => some (q, app, 0)
  | data :: rest, q, app => do
    let (q, app, n) ← execute s data q app
    if q.errno ≠ .ok ∨ q.upgrade then return (q, app, n)
    else
      let (q, app, m) ← feed s rest q app
      return (q, app, n + m)

end HttpParser

end CaptureHpc
