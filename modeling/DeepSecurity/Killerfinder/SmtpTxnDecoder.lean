import DeepSecurity.Killerfinder.TcpSession
import DeepSecurity.Lib.Checked

/-!
# The mails of a session

`CSmtpTxnDecoder::getMailDatas` cuts the mails out of the bytes of one direction of a session. The
positions are of type `size_t`, and the buffer is read as a C string: a null character follows it, and
what lies behind that one is out of bounds.
-/

namespace Killerfinder

open Checked CTcpSession

namespace CSmtpTxnDecoder

/-- The command `DATA` on a line of its own. -/
def startTag : Bytes := lit ['\r', '\n', 'D', 'A', 'T', 'A', '\r', '\n']

/-- The line with a single dot. -/
def endTag : Bytes := lit ['\r', '\n', '.', '\r', '\n']

/-- `a - b` of type `size_t`. -/
def sizeSub (a b : ℕ) : ℕ := if b ≤ a then a - b else a + 2 ^ 64 - b

/-- `string s(begin + pos, a - b)`. A length that wraps around is one that no string can have. -/
def newString (buf : Bytes) (pos a b : ℕ) : Checked Bytes :=
  if a < b then fault
  else do
    let s ← slice buf pos (a - b)
    return s.1

/-- `begin[pos]`. Behind the last character of a string is a null character. -/
def charAt (buf : Bytes) (pos : ℕ) : Checked UInt8 :=
  match buf[pos]? with
  | some c => .ok c
  | none => if pos = buf.length then .ok 0 else fault

/-- Is the result of `strncasecmp(begin + pos, tag, strlen(tag))` zero? It reads up to the first
difference. -/
def strncasecmp (buf : Bytes) : ℕ → Bytes → Checked Bool
  | _, [] => .ok true
  | pos, t :: tag => do
    let c ← charAt buf pos
    if tolower c = tolower t then strncasecmp buf (pos + 1) tag else return false

/-- The inner loop: the mail that begins with the start tag at `off1` ends with the first end tag from
`off2` on. The result is `off2` after the loop. The first argument is the number of rounds that the
loop is given. -/
def findEnd (buf : Bytes) (off1 : ℕ) (mails : List Bytes) : ℕ → ℕ → Checked (ℕ × List Bytes)
  | 0, _ => diverge
  | rounds + 1, off2 =>
    -- `len - endTagLen + 1`
    if off2 < sizeSub (buf.length + 1) endTag.length then do
      let found ← strncasecmp buf off2 endTag
      if found then do
        let s ← newString buf (off1 + startTag.length) (off2 - off1) startTag.length
        return (off2, mails ++ [s])
      else findEnd buf off1 mails rounds (off2 + 1)
    else return (off2, mails)

/-- The outer loop, which goes on at the end tag of a mail. -/
def findMails (buf : Bytes) : ℕ → ℕ → List Bytes → Checked (List Bytes)
  | 0, _, _ => diverge
  | rounds + 1, off1, mails =>
    if off1 < sizeSub (buf.length + 1) startTag.length then do
      let found ← strncasecmp buf off1 startTag
      if found then do
        let (off2, mails) ← findEnd buf off1 mails rounds off1
        findMails buf rounds off2 mails
      else findMails buf rounds (off1 + 1) mails
    else return mails

/-- The mails of the buffer are appended to `mails`. -/
def getMailDatas (rounds : ℕ) (mails : List Bytes) (buf : Bytes) : Checked (List Bytes) :=
  findMails buf rounds 0 mails

/-- The part of `decodeSmtp` before the mails are parsed, with the bytes of the two directions of the
session. -/
def decodeSmtp (rounds : ℕ) (toServer toClient : Bytes) : Checked (List Bytes) := do
  let mails ← getMailDatas rounds [] toServer
  getMailDatas rounds mails toClient

/-! ## Dialogues -/

/-- The end of a line. -/
def crlf : Bytes := lit ['\r', '\n']

/-- `tag` is a `DATA` line, in any case, and the first one of the text `command` that ends with it. -/
def Introduces (command tag : Bytes) : Prop :=
  tag.map tolower = startTag.map tolower ∧
    CxxString.find (startTag.map tolower) ((command ++ tag).map tolower) = some command.length

/-- No line of the body is a single dot. -/
def NoDotLine (body : Bytes) : Prop := ¬ endTag <:+: crlf ++ body ++ crlf

/-- The first mail without a body, not even an empty line, comes after complete mails. A line that
follows a mail begins behind the end of its last line. -/
inductive HasEmptyMail : Bytes → Prop
  | here (command tag rest : Bytes) (h : Introduces command tag) :
      HasEmptyMail (command ++ (tag ++ (lit ['.', '\r', '\n'] ++ rest)))
  | later (command tag body rest : Bytes) (h : Introduces command tag) (hbody : NoDotLine body)
      (hrest : HasEmptyMail (crlf ++ rest)) :
      HasEmptyMail (command ++ (tag ++ (body ++ (endTag ++ rest))))

/-- The mails are taken out of the buffer, after finitely many rounds and within its bounds. -/
def Safe (buf : Bytes) : Prop := ∀ mails, ∃ rounds out, getMailDatas rounds mails buf = .ok out

/-- A mail with the commands before it and its `DATA` line. -/
structure Mail where
  /-- The commands before the `DATA` line. -/
  command : Bytes
  /-- The `DATA` line, with the line break before it. -/
  tag : Bytes
  /-- The mail itself, without its last line break. -/
  body : Bytes
  /-- The mail has no line that would end it earlier. -/
  noDotLine : NoDotLine body

/-- Mails one after the other, and what comes after them. -/
def dialogue : List Mail → Bytes → Bytes
  | [], rest => rest
  | m :: mails, rest => m.command ++ (m.tag ++ (m.body ++ (endTag ++ dialogue mails rest)))

/-- Each mail is introduced by its own `DATA` line. `before` is what the first line begins behind. -/
def EachIntroduced : Bytes → List Mail → Prop
  | _, [] => True
  | before, m :: mails => Introduces (before ++ m.command) m.tag ∧ EachIntroduced crlf mails

/-- What the commands after the mails begin behind. -/
def lineBefore : Bytes → List Mail → Bytes
  | before, [] => before
  | _, _ :: _ => crlf

/-- The side of the client in a session. -/
structure Dialogue where
  /-- The mails in the order in which they are sent. -/
  mails : List Mail
  /-- The commands after the last mail. -/
  last : Bytes
  /-- There is no other `DATA` line in the commands. -/
  introduced : EachIntroduced [] mails
  /-- There is no `DATA` line after the last mail. -/
  last_plain : ¬ startTag.map tolower <:+: (lineBefore [] mails ++ last).map tolower

/-- Exactly the bodies of the mails are found, after finitely many rounds. -/
def Exact (d : Dialogue) : Prop :=
  ∀ mails, ∃ rounds, getMailDatas rounds mails (dialogue d.mails d.last) =
    .ok (mails ++ d.mails.map Mail.body)

end CSmtpTxnDecoder

end Killerfinder
