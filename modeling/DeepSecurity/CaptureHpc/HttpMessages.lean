import DeepSecurity.CaptureHpc.HttpReader

/-!
# Requests and their meaning

A request as it is meant, how it is written, and what a parser has to report of it: which headers change
the way a message is read, and what they say. The requests are those of HTTP/1.1 for a path: the target
begins with a slash. `CONNECT` and requests for another protocol are left out.
-/

namespace CaptureHpc

namespace HttpParser

/-! ## Headers -/

/-- The headers that the parser knows. -/
inductive HeaderKind where
  | connection | contentLength | transferEncoding | upgrade | other
deriving DecidableEq, Repr

/-- The kind of a header by its name in lower case. -/
def headerKind (name : Bytes) : HeaderKind :=
  if name = connectionName ∨ name = proxyConnectionName then .connection
  else if name = contentLengthName then .contentLength
  else if name = transferEncodingName then .transferEncoding
  else if name = upgradeName then .upgrade
  else .other

/-- A value is a word in any case, perhaps with spaces after it. -/
def isWord (word value : Bytes) : Bool :=
  (value.take word.length).map lower == word && (value.drop word.length).all (· == chr ' ')

/-- A decimal number. -/
def decimal (digits : Bytes) : ℕ := digits.foldl decimalDigit 0

/-- What the value of a header does to the flags. -/
def valueFlags (k : HeaderKind) (value : Bytes) (f : Flags) : Flags :=
  match k with
  | .transferEncoding => if isWord chunkedValue value then { f with chunked := true } else f
  | .connection =>
    if isWord keepAliveValue value then { f with connectionKeepAlive := true }
    else if isWord closeValue value then { f with connectionClose := true }
    else f
  | .upgrade => if value = [] then f else { f with upgrade := true }
  | _ => f

/-- A header line. -/
structure Header where
  /-- The name. -/
  name : Bytes
  /-- The value. -/
  value : Bytes
deriving DecidableEq, Repr

namespace Header

/-- What the parser makes of the name. -/
def kind (h : Header) : HeaderKind := headerKind (h.name.map token)

/-- A header that can be written on a line, with a number if it is a content length. -/
structure WellFormed (h : Header) : Prop where
  /-- The name is not empty. -/
  name_ne : h.name ≠ []
  /-- It has only characters of a token. -/
  name_token : ∀ c ∈ h.name, token c ≠ 0
  /-- The value is on one line. -/
  value_line : ∀ c ∈ h.value, c ≠ cr ∧ c ≠ lf
  /-- It does not begin with a blank. -/
  value_first : ∀ c ∈ h.value.head?, c ≠ chr ' ' ∧ c ≠ tab
  /-- A content length is a number that the parser can hold. -/
  length_digits : h.kind = .contentLength →
    h.value ≠ [] ∧ (∀ c ∈ h.value, isNum c = true) ∧ decimal h.value < ullongMax

instance (h : Header) : Decidable h.WellFormed :=
  decidable_of_iff (h.name ≠ [] ∧ (∀ c ∈ h.name, token c ≠ 0) ∧ (∀ c ∈ h.value, c ≠ cr ∧ c ≠ lf) ∧
      (∀ c ∈ h.value.head?, c ≠ chr ' ' ∧ c ≠ tab) ∧
      (h.kind = .contentLength → h.value ≠ [] ∧ (∀ c ∈ h.value, isNum c = true) ∧ decimal h.value < ullongMax))
    ⟨fun ⟨a, b, c, d, e⟩ => ⟨a, b, c, d, e⟩, fun ⟨a, b, c, d, e⟩ => ⟨a, b, c, d, e⟩⟩

/-- The line of the header. -/
def print (h : Header) : Bytes := h.name ++ [chr ':', chr ' '] ++ h.value ++ [cr, lf]

/-- What the parser is to report of it. -/
def reports (h : Header) : List Report := [.piece .headerField h.name, .piece .headerValue h.value]

/-- What a header does to the flags. -/
def flags (h : Header) (f : Flags) : Flags := valueFlags h.kind h.value f

/-- What a header does to the length of the body. -/
def length (h : Header) (n : ℕ) : ℕ := if h.kind = .contentLength then decimal h.value else n

end Header

/-- What all headers do to the flags. -/
def headerFlags (hs : List Header) : Flags := hs.foldl (fun f h => h.flags f) {}

/-- The last content length, or none. -/
def headerLength (hs : List Header) : ℕ := hs.foldl (fun n h => h.length n) ullongMax

/-! ## Requests -/

/-- What follows the empty line. -/
inductive Body where
  | none
  | sized (data : Bytes)
  | chunked (chunks : List Bytes)
deriving DecidableEq, Repr

/-- A digit to the base 16. -/
def hexDigit (n : ℕ) : UInt8 := if n < 10 then UInt8.ofNat (48 + n) else UInt8.ofNat (87 + n)

/-- The last `k` digits of a number to the base 16, without zeros before them. -/
def hexDigits : ℕ → ℕ → Bytes
  | 0, _ => []
  | k + 1, n => if n < 16 then [hexDigit n] else hexDigits k (n / 16) ++ [hexDigit (n % 16)]

/-- A number to the base 16. -/
def hex (n : ℕ) : Bytes := hexDigits 16 n

/-- A chunk with its size before it. -/
def printChunk (data : Bytes) : Bytes := hex data.length ++ [cr, lf] ++ data ++ [cr, lf]

namespace Body

/-- The bytes that the body carries. -/
def data : Body → Bytes
  | .none => []
  | .sized data => data
  | .chunked chunks => chunks.flatten

/-- The text of the body. -/
def print : Body → Bytes
  | .none => []
  | .sized data => data
  | .chunked chunks => chunks.flatMap printChunk ++ [chr '0', cr, lf, cr, lf]

/-- The body is the one that the headers announce. -/
def Announced (hs : List Header) : Body → Prop
  | .none => (headerFlags hs).chunked = false ∧ headerLength hs = ullongMax
  | .sized data => (headerFlags hs).chunked = false ∧ headerLength hs = data.length ∧
      data.length < ullongMax
  | .chunked chunks => (headerFlags hs).chunked ∧ ∀ c ∈ chunks, c ≠ [] ∧ c.length < ullongMax

instance (hs : List Header) : (b : Body) → Decidable (b.Announced hs)
  | .none => inferInstanceAs (Decidable (_ ∧ _))
  | .sized _ => inferInstanceAs (Decidable (_ ∧ _ ∧ _))
  | .chunked _ => inferInstanceAs (Decidable (_ ∧ _))

/-- What the parser is to report of it. -/
def reports (b : Body) : List Report := if b.data = [] then [] else [.piece .body b.data]

end Body

/-- A request of HTTP/1.1 for a path. -/
structure Request where
  /-- The method. -/
  method : Method
  /-- The target without the slash it begins with. -/
  path : Bytes
  /-- The headers, in their order. -/
  headers : List Header
  /-- The body. -/
  body : Body
deriving DecidableEq, Repr

namespace Request

/-- The target, a path from the root. -/
def target (r : Request) : Bytes := chr '/' :: r.path

/-- The request line and the headers, with the empty line behind them. -/
def head (r : Request) : Bytes :=
  methodString r.method ++ [chr ' '] ++ r.target ++ bytesOf " HTTP/1.1" ++ [cr, lf] ++
    r.headers.flatMap Header.print ++ [cr, lf]

/-- The text of the request. -/
def print (r : Request) : Bytes := r.head ++ r.body.print

/-- A request that does not ask for another protocol; its header is not too long, with two bytes for the
end of a chunked request before it. -/
structure WellFormed (r : Request) : Prop where
  /-- It is no `CONNECT`. -/
  method : r.method ≠ .connect
  /-- The path has printable characters only. -/
  path : ∀ c ∈ r.path, 33 ≤ c ∧ c ≤ 126
  /-- The headers are well-formed. -/
  headers : ∀ h ∈ r.headers, h.WellFormed
  /-- None of them asks for another protocol. -/
  upgrade : (headerFlags r.headers).upgrade = false
  /-- The body is the one that they announce. -/
  body : r.body.Announced r.headers
  /-- The header fits into the parser. -/
  size : r.head.length + 2 ≤ maxHeaderSize

instance (r : Request) : Decidable r.WellFormed :=
  decidable_of_iff (r.method ≠ .connect ∧ (∀ c ∈ r.path, 33 ≤ c ∧ c ≤ 126) ∧
      (∀ h ∈ r.headers, h.WellFormed) ∧ (headerFlags r.headers).upgrade = false ∧
      r.body.Announced r.headers ∧ r.head.length + 2 ≤ maxHeaderSize)
    ⟨fun ⟨a, b, c, d, e, f⟩ => ⟨a, b, c, d, e, f⟩, fun ⟨a, b, c, d, e, f⟩ => ⟨a, b, c, d, e, f⟩⟩

/-- The connection is kept for another request. -/
def keepsAlive (r : Request) : Bool := !(headerFlags r.headers).connectionClose

/-- What the parser is to report of the request. -/
def reports (r : Request) : List Report :=
  [.note .messageBegin, .piece .url r.target] ++ r.headers.flatMap Header.reports ++
    [.note (.headersComplete r.method 1 1)] ++ r.body.reports ++ [.note .messageComplete]

end Request

end HttpParser

end CaptureHpc
