import DeepSecurity.Lib.CxxString
import DeepSecurity.Lib.Trace
import Mathlib.Logic.Function.Basic

/-!
# Transactions of a connection

The event handlers of `logfile.bro`. The record of a transaction gets a field with its headers when its
request is seen, to which the other handlers append. A file that comes over the connection gets the text
of that field. Transactions are numbered; an event comes with the number of the transaction that
`c$http` designates, and a request begins a new record.
-/

namespace Netmonitor

/-- A `string` of a script. -/
abbrev Str := List UInt8

/-- A literal of ASCII characters. -/
def lit (l : List Char) : Str := l.map fun c => UInt8.ofNat c.toNat

/-- `line_sep` -/
def lineSep : Str := lit ['\r', '\n']

/-- `caredtypes` -/
def caredtypes : List Str :=
  [lit ['a', 'p', 'p', 'l', 'i', 'c', 'a', 't', 'i', 'o', 'n'], lit ['a', 'u', 'd', 'i', 'o'],
    lit ['e', 'x', 'a', 'm', 'p', 'l', 'e'], lit ['i', 'm', 'a', 'g', 'e'],
    lit ['m', 'e', 's', 's', 'a', 'g', 'e'], lit ['m', 'o', 'd', 'e', 'l'],
    lit ['m', 'u', 'l', 't', 'i', 'p', 'a', 'r', 't'], lit ['v', 'i', 'd', 'e', 'o']]

/-- `mime_header_rec` -/
structure Header where
  /-- The name as it was sent. -/
  name : Str
  /-- The value as the analyzer passes it on. -/
  value : Str

/-- A table of headers: the headers by index, and as a loop over the table visits them. -/
structure HeaderList where
  /-- The headers in the order in which they were sent. -/
  byIndex : List Header
  /-- The headers in the order of the loop. -/
  visited : List Header
  /-- The loop visits every header once. -/
  perm : visited.Perm byIndex

/-! ## The texts -/

/-- `fmt("%s %s HTTP/%s", method, original_URI, version) + line_sep` -/
def requestLine (method originalUri version : Str) : Str :=
  method ++ lit [' '] ++ originalUri ++ lit [' ', 'H', 'T', 'T', 'P', '/'] ++ version ++ lineSep

/-- `fmt("HTTP/%s %d %s", version, code, reason) + line_sep` -/
def statusLine (version : Str) (code : ℕ) (reason : Str) : Str :=
  lit ['H', 'T', 'T', 'P', '/'] ++ version ++ lit [' '] ++ lit (Nat.toDigits 10 code) ++ lit [' '] ++
    reason ++ lineSep

/-- The text that the loop appends for a header. -/
def headerLine (h : Header) : Str := h.name ++ lit [':', ' '] ++ h.value ++ lineSep

/-! ## The handlers -/

/-- `httphead` -/
structure HttpHead where
  /-- The text that identifies the connection. -/
  cnid : Str
  /-- The request line and the headers of the request. -/
  reqH : Str
  /-- The status line and the headers of the response. -/
  resH : Str

/-- The optional field `current_header` of each transaction, the details of each file, and whether an
absent field has been read. -/
structure State where
  /-- The field `current_header` of each transaction, if it is set. -/
  currentHeader : ℕ → Option HttpHead
  /-- The details of each file, if there are any. -/
  details : ℕ → Option (List Str)
  /-- An absent field has been read. -/
  failed : Bool

/-- The events that the script handles, with the number of the transaction `c$http`. -/
inductive Event where
  | httpRequest (transaction : ℕ) (method originalUri version : Str)
  | httpReply (transaction : ℕ) (version : Str) (code : ℕ) (reason : Str)
  | httpAllHeaders (transaction : ℕ) (isOrig : Bool) (hlist : HeaderList)
  | fileOverNewConnection (file : ℕ) (mimeType : Option Str) (http : Option ℕ)

/-- A file without a type is cared for, and so is one whose type has one of the list as a part. -/
def caredType : Option Str → Bool
  | none => true
  | some mimeType => caredtypes.any fun t => (CxxString.find t mimeType).isSome

namespace State

/-- No transaction and no file has been seen. -/
def initial : State := ⟨fun _ => none, fun _ => none, false⟩

variable (s : State)

/-- The field of a transaction is changed, if it is there. -/
def modify (transaction : ℕ) (change : HttpHead → HttpHead) : State :=
  let head := (s.currentHeader transaction).map change
  { s with currentHeader := Function.update s.currentHeader transaction head }

/-- The headers as the loop visits them, and an empty line. -/
def loop (hlist : HeaderList) (text : Str) : Str :=
  hlist.visited.foldl (fun text h => text ++ headerLine h) text ++ lineSep

/-- `http_request` -/
def httpRequest (cnid : Str) (transaction : ℕ) (method originalUri version : Str) : State :=
  let head : HttpHead :=
    match s.currentHeader transaction with
    | none => ⟨cnid, [], []⟩
    | some head => { head with reqH := [], resH := [] }
  let head := { head with reqH := head.reqH ++ requestLine method originalUri version }
  { s with currentHeader := Function.update s.currentHeader transaction (some head) }

/-- `http_reply`: what the response had before is overwritten. -/
def httpReply (transaction : ℕ) (version : Str) (code : ℕ) (reason : Str) : State :=
  s.modify transaction fun head => { head with resH := statusLine version code reason }

/-- `http_all_headers` -/
def httpAllHeaders (transaction : ℕ) (isOrig : Bool) (hlist : HeaderList) : State :=
  s.modify transaction fun head =>
    if isOrig then { head with reqH := loop hlist head.reqH }
    else { head with resH := loop hlist head.resH }

/-- An absent field ends the handler with an error. -/
def fileOverNewConnection (file : ℕ) (mimeType : Option Str) (http : Option ℕ) : State :=
  if !caredType mimeType then s
  else
    match http with
    | none => s
    | some transaction =>
      match s.currentHeader transaction with
      | none => { s with failed := true }
      | some head =>
        let content := head.cnid ++ head.reqH ++ head.resH
        let details :=
          match s.details file with
          | none => [content]
          | some l => l ++ [content]
        { s with details := Function.update s.details file (some details) }

/-- The record of a request is a new one, without the field. -/
def step (cnid : Str) : Event → State
  | .httpRequest transaction method originalUri version =>
    httpRequest { s with currentHeader := Function.update s.currentHeader transaction none } cnid
      transaction method originalUri version
  | .httpReply transaction version code reason => s.httpReply transaction version code reason
  | .httpAllHeaders transaction isOrig hlist => s.httpAllHeaders transaction isOrig hlist
  | .fileOverNewConnection file mimeType http => s.fileOverNewConnection file mimeType http

/-- The state after the events of a connection. -/
def run (cnid : Str) (events : List Event) : State := events.foldl (fun s e => s.step cnid e) initial

end State

/-! ## What is expected -/

/-- What has been seen of a transaction: its request, the headers of the request, its latest status line
and the headers since. -/
structure Transaction where
  /-- The request line. -/
  request : Str
  /-- The tables of headers of the request. -/
  requestHeaders : List HeaderList
  /-- The latest status line, or nothing. -/
  status : Str
  /-- The tables of headers since then. -/
  responseHeaders : List HeaderList

/-- The text of a table for an order of its headers, with the empty line. -/
def tableText (order : HeaderList → List Header) (h : HeaderList) : Str :=
  (order h).flatMap headerLine ++ lineSep

/-- The text for a file of the transaction. -/
def Transaction.text (order : HeaderList → List Header) (cnid : Str) (t : Transaction) : Str :=
  cnid ++ (t.request ++ t.requestHeaders.flatMap (tableText order)) ++
    (t.status ++ t.responseHeaders.flatMap (tableText order))

/-- The transactions whose request has been seen. -/
def observe (seen : ℕ → Option Transaction) : Event → ℕ → Option Transaction
  | .httpRequest transaction method originalUri version =>
    Function.update seen transaction (some ⟨requestLine method originalUri version, [], [], []⟩)
  | .httpReply transaction version code reason =>
    Function.update seen transaction ((seen transaction).map fun t =>
      { t with status := statusLine version code reason, responseHeaders := [] })
  | .httpAllHeaders transaction isOrig hlist =>
    Function.update seen transaction ((seen transaction).map fun t =>
      if isOrig then { t with requestHeaders := t.requestHeaders ++ [hlist] }
      else { t with responseHeaders := t.responseHeaders ++ [hlist] })
  | .fileOverNewConnection _ _ _ => seen

/-- What has been seen of the transactions after the events. -/
def seen (events : List Event) : ℕ → Option Transaction := events.foldl observe fun _ => none

/-- The transaction whose text the event is to store for a file. -/
def Event.stores : Event → Option (ℕ × ℕ)
  | .fileOverNewConnection file mimeType (some transaction) =>
    if caredType mimeType then some (file, transaction) else none
  | _ => none

/-- What the event is to add to the details of a file, with the headers by index. -/
def expectedText (cnid : Str) (file : ℕ) (before : List Event) (e : Event) : List Str :=
  match e.stores with
  | some (file', transaction) =>
    if file' = file then (seen before transaction).toList.map (Transaction.text HeaderList.byIndex cnid)
    else []
  | none => []

/-- What the events are to add to the details of a file, after the events `before`. -/
def expectedDetails (cnid : Str) (file : ℕ) : List Event → List Event → List Str
  | _, [] => []
  | before, e :: events =>
    expectedText cnid file before e ++ expectedDetails cnid file (before ++ [e]) events

/-- No absent field is read, and the details of every file are the transactions on the wire. -/
structure OnTheWire (cnid : Str) (events : List Event) : Prop where
  /-- No handler has read an absent field. -/
  no_absent : (State.run cnid events).failed = false
  /-- The details of a file are the texts of its transactions. -/
  details : ∀ file, ((State.run cnid events).details file).getD [] = expectedDetails cnid file [] events

/-- The loop has visited the headers so that their text is the one by index. -/
def Transaction.InOrder (t : Transaction) : Prop :=
  ∀ h ∈ t.requestHeaders ++ t.responseHeaders,
    h.visited.flatMap headerLine = h.byIndex.flatMap headerLine

/-- When a text is stored, the request has been seen and its headers have been visited in order. -/
def Stored (before : List Event) (e : Event) : Prop :=
  ∀ file transaction, e.stores = some (file, transaction) →
    ∃ t, seen before transaction = some t ∧ t.InOrder

end Netmonitor
