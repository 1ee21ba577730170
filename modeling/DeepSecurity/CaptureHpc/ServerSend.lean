import DeepSecurity.Lib.CxxString
import DeepSecurity.Lib.XmlEntity

/-!
# Messages to the server

`Server::xml_escape` and `Server::sendXML`. The loop of `xml_escape` goes over the positions of the
string that it is given, while the string that it changes gets longer.
-/

namespace CaptureHpc

open Xml

namespace Server

/-- One round of the loop; `none` is the exception of `at`. -/
def escapeAt (escaped : Units) (i : ℕ) : Option Units := do
  let c ← escaped[i]?
  if c = 0x0026 then CxxString.replace escaped i 1 Entity.amp.reference
  else if c = 0x003C then CxxString.replace escaped i 1 Entity.lt.reference
  else if c = 0x003E then CxxString.replace escaped i 1 Entity.gt.reference
  else if c = 0x0022 then CxxString.replace escaped i 1 Entity.quot.reference
  else if c = 0x0027 then CxxString.replace escaped i 1 Entity.apos.reference
  else some escaped

/-- The loop of `xml_escape`, whose number of rounds is the length of the text before the first
replacement. -/
def xmlEscape (xml : Units) : Option Units := (List.range xml.length).foldlM escapeAt xml

/-- The message that is sent, if the client is connected. -/
def sendXML (connected : Bool) (elementName : Units) (vAttributes : List (Units × Units)) :
    Option (Option Units) :=
  if !connected then some none
  else do
    let xmlDocument ← vAttributes.foldlM
      (fun xmlDocument a => do
        let value ← xmlEscape a.2
        return xmlDocument ++ 0x20 :: (a.1 ++ 0x3D :: 0x22 :: (value ++ [0x22])))
      (0x3C :: elementName)
    return some (xmlDocument ++ [0x2F, 0x3E, 0x0D, 0x0A])

/-! ## What is expected -/

/-- The text `w` is the text `v` with its special characters escaped. -/
structure EscapedAs (v w : Units) : Prop where
  /-- No special character is left as it is. -/
  no_raw : ∀ c ∈ w, c ≠ 0x3C ∧ c ≠ 0x3E ∧ c ≠ 0x22 ∧ c ≠ 0x27
  /-- Every ampersand begins a reference. -/
  references : ∀ s, s <:+ w → s.head? = some 0x26 → ∃ e : Entity, e.reference <+: s
  /-- A reader gets the text back. -/
  reversible : unescape w = v

/-- The loop escapes the text. -/
def Reversible (v : Units) : Prop := ∃ w, xmlEscape v = some w ∧ EscapedAs v w

/-- A reader gets the values from the message that is sent. -/
def Recovered (refs : References) (elementName : Units) (vAttributes : List (Units × Units)) : Prop :=
  ∃ xmlDocument, sendXML true elementName vAttributes = some (some xmlDocument) ∧
    readElement refs xmlDocument = some (elementName, vAttributes)

/-! ## What the loop comes to -/

/-- The text up to where a loop of so many rounds comes, and the rest of it. A special character takes
as many rounds as its reference has characters. -/
def scanned : (rounds : ℕ) → Units → Units × Units
  | 0, v => ([], v)
  | _ + 1, [] => ([], [])
  | rounds + 1, c :: v =>
    let rest := scanned (rounds + 1 - (escapeChar c).length) v
    (c :: rest.1, rest.2)

/-- The part of a text that the loop comes to. -/
def reached (v : Units) : Units := (scanned v.length v).1

/-- The part of a text that the loop does not come to. -/
def leftOver (v : Units) : Units := (scanned v.length v).2

/-- The value of an attribute is read as it is: it has neither tabs nor line ends, which are read as
blanks, nor characters that are not allowed, and what is left over has no quote, ampersand or
bracket. -/
def Readable (v : Units) : Prop := Xml.Readable (reached v) (leftOver v) ∧ isLegal v

end Server

end CaptureHpc
