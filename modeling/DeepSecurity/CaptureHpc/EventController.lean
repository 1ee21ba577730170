import DeepSecurity.Lib.Xml

/-!
# Element trees

`Element.h` and `EventController`: an element is printed as a document, and the callbacks of expat
rebuild it. A start tag with the name of the element that is open does not make an element, the data
of an element are those of its last callback, and nothing is escaped when an element is printed.
-/

namespace CaptureHpc

open Xml

/-- An element of the protocol, with wide characters in its name and its attributes. -/
structure Element where
  /-- The name of the element. -/
  name : Units
  /-- The attributes, in their order. -/
  attributes : List (Units × Units)
  /-- The child elements, in their order. -/
  childElements : List Element
  /-- The character data, as bytes. -/
  data : List UInt8

namespace Element

/-- The cast of a signed `char` to `wchar_t`. -/
def widen (c : UInt8) : UInt16 := if c < 0x80 then c.toUInt16 else 0xFF00 + c.toUInt16

/-- `document += tempData` stops at a null character. -/
def dataToString (data : List UInt8) : Units := (data.map widen).takeWhile (· != 0)

mutual

/-- The text of an element: its attributes, its children and its data between the two tags. -/
def toStringWithoutNewLine : Element → Units
  | ⟨name, attributes, childElements, data⟩ =>
    0x3C :: (name ++ (attributes.flatMap writeAttribute ++ [0x3E])) ++
      childrenToString childElements ++ dataToString data ++ 0x3C :: 0x2F :: (name ++ [0x3E])

/-- The texts of the children, one after the other. -/
def childrenToString : List Element → Units
  | [] => []
  | e :: es => toStringWithoutNewLine e ++ childrenToString es

end

/-- The text that is sent, with the end of the line. -/
def toString (e : Element) : Units := e.toStringWithoutNewLine ++ [0x0D, 0x0A]

/-- The tokens of the character data, of which there is none if they are empty. -/
def dataTokens (data : List UInt8) : List Token :=
  if data = [] then [] else [.text (data.map widen)]

mutual

/-- The tags and texts that an element stands for. -/
def tokens : Element → List Token
  | ⟨name, attributes, childElements, data⟩ =>
    .startTag name attributes :: (childrenTokens childElements ++ (dataTokens data ++ [.endTag name]))

/-- The tokens of the children. -/
def childrenTokens : List Element → List Token
  | [] => []
  | e :: es => tokens e ++ childrenTokens es

end

mutual

/-- Names, values and data have no character that would need an escape. -/
def Plain : Element → Prop
  | ⟨name, attributes, childElements, data⟩ =>
    IsName name ∧ (∀ a ∈ attributes, IsName a.1 ∧ IsValue a.2) ∧
      (data ≠ [] → IsText (data.map widen)) ∧ AllPlain childElements

/-- All children are plain. -/
def AllPlain : List Element → Prop
  | [] => True
  | e :: es => Plain e ∧ AllPlain es

end

mutual

/-- No element has two attributes of one name. -/
def DistinctAttributes : Element → Prop
  | ⟨_, attributes, childElements, _⟩ =>
    (attributes.map Prod.fst).Nodup ∧ AllDistinctAttributes childElements

/-- All children have distinct attributes. -/
def AllDistinctAttributes : List Element → Prop
  | [] => True
  | e :: es => DistinctAttributes e ∧ AllDistinctAttributes es

end

mutual

/-- No element has the name of its parent. -/
def NamesDiffer : Element → Prop
  | ⟨name, _, childElements, _⟩ => NamesDifferFrom name childElements

/-- The elements of a list have other names than their parent, and so do their children. -/
def NamesDifferFrom : Units → List Element → Prop
  | _, [] => True
  | parent, e :: es => e.name ≠ parent ∧ NamesDiffer e ∧ NamesDifferFrom parent es

end

end Element

/-- The open elements are `currentElement` and its parents. An element is put into its parent when it
ends, and a null pointer or a failed assertion ends the process. -/
structure EventController where
  /-- The open elements, the innermost one first. -/
  path : List Element := []
  /-- The elements that the listeners have got. -/
  notified : List Element := []
  /-- The process has ended. -/
  down : Bool := false

namespace EventController

/-- The element is passed to the listeners of its name and deleted. -/
def notifyListeners (s : EventController) (current : Element) : EventController :=
  if current.name.length > 0 then { s with path := [], notified := s.notified ++ [current] } else s

/-- A start tag opens an element; if it has the name of the current one, only its attributes are
added to that. -/
def startElement (name : Units) (atts : List (Units × Units)) (s : EventController) :
    EventController :=
  match s.path with
  | [] => { s with path := [⟨name, atts, [], []⟩] }
  | current :: parents =>
    if current.name ≠ name then { s with path := ⟨name, atts, [], []⟩ :: current :: parents }
    else { s with path := { current with attributes := current.attributes ++ atts } :: parents }

/-- `asserts` says whether the program was built with assertions. -/
def endElement (asserts : Bool) (name : Units) (s : EventController) : EventController :=
  match s.path with
  | [] => { s with down := true }
  | [current] => s.notifyListeners current
  | current :: parent :: rest =>
    if current.name = name then
      { s with path := { parent with childElements := parent.childElements ++ [current] } :: rest }
    else { s with down := asserts }

/-- The data of the current element are replaced. -/
def charData (data : List UInt8) (s : EventController) : EventController :=
  match s.path with
  | [] => { s with down := true }
  | current :: parents => { s with path := { current with data := data } :: parents }

/-- The callback for a token. -/
def step (asserts : Bool) (s : EventController) (c : Token) : EventController :=
  if s.down then s
  else
    match c with
    | .startTag name atts => s.startElement name atts
    | .text l => s.charData (l.map UInt16.toUInt8)
    | .endTag name => s.endElement asserts name

/-- The callbacks for the tokens, in their order. -/
def run (asserts : Bool) (s : EventController) (cs : List Token) : EventController :=
  cs.foldl (step asserts) s

/-- The callbacks rebuild the element, and the listeners are notified once, by the last of them. -/
structure Rebuilds (asserts : Bool) (e : Element) (cs : List Token) : Prop where
  /-- The process goes on. -/
  up : (run asserts {} cs).down = false
  /-- The listeners get the element, and nothing else. -/
  notified : (run asserts {} cs).notified = [e]
  /-- They have got nothing before the last token. -/
  before : (run asserts {} cs.dropLast).notified = []

end EventController

end CaptureHpc
