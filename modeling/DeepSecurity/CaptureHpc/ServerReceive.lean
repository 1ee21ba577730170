import Mathlib.Data.List.Basic

/-!
# Messages of the server

`ServerReceive::run`: the stream of the server is cut into documents at its null bytes. The document
that is being collected is a variable of the outer loop, which begins anew after every call of `recv`
that returns two bytes or less.
-/

namespace CaptureHpc

namespace ServerReceive

/-- The bytes of a message. -/
abbrev Bytes := List UInt8

/-- `MAX_RECEIVE_BUFFER` -/
def maxReceiveBuffer : ℕ := 2048

/-- What a call of `recv` returns from a stream that goes on. -/
abbrev Chunk := { l : Bytes // l ≠ [] ∧ l.length ≤ maxReceiveBuffer }

/-- The `for` loop: the documents that are passed on, and what is left in `xmlDocument`. -/
def collect : (xmlDocument buffer : Bytes) → List Bytes × Bytes
  | xmlDocument, [] => ([], xmlDocument)
  | xmlDocument, c :: rest =>
    if c ≠ 0 then collect (xmlDocument ++ [c]) rest
    else (xmlDocument :: (collect [] rest).1, (collect [] rest).2)

/-- The documents that are passed to `receiveServerEvent`. -/
def run : (xmlDocument : Bytes) → List Chunk → List Bytes
  | _, [] => []
  | xmlDocument, c :: rest =>
    if c.1.length > 2 then
      (collect xmlDocument c.1).1 ++ run (collect xmlDocument c.1).2 rest
    else run [] rest

/-- The bytes that have been received. -/
def stream (chunks : List Chunk) : Bytes := chunks.flatMap Subtype.val

/-- The pieces of a stream that end with a null byte, without it. -/
def documents (l : Bytes) : List Bytes := (l.splitOn 0).dropLast

/-- Neither in a chunk of one or two bytes nor after it is there a null byte. -/
def NoShortChunk : List Chunk → Prop
  | [] => True
  | c :: rest => (c.1.length ≤ 2 → 0 ∉ c.1 ++ stream rest) ∧ NoShortChunk rest

end ServerReceive

end CaptureHpc
