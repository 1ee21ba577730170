import DeepSecurity.Lib.CxxString
import DeepSecurity.Lib.PerlRegex
import DeepSecurity.Lib.Xml
import Mathlib.Logic.Function.Basic

/-!
# Exclusions of the monitors

`Permission.cpp` and the part of `Monitor.cpp` that decides whether an event is reported: every type of
event has a list of permissions, each with regular expressions for the subject and the object of the
event. The expressions are those of a library `engine`; `towlower` is the function of the C library.
-/

namespace CaptureHpc

open CxxString PerlRegex Xml

/-! ## Permissions -/

/-- `PERMISSION_CLASSIFICATION` -/
inductive PermissionClassification where
  | noMatch
  | allowed
  | disallowed
deriving DecidableEq, Repr

/-- A permission with compiled expressions of the type `R`. -/
structure Permission (R : Type) where
  /-- The expressions for the subject, of which one has to match. -/
  subjects : List R
  /-- The expressions for the object, of which one has to match. -/
  objects : List R
  /-- Whether the event is allowed then. -/
  allow : Bool
  /-- Whether the permission stays when the exclusion lists are cleared. -/
  permaneant : Bool

/-- The texts are handed over as C strings. -/
def Permission.check {R : Type} (regexMatch : R → Units → Bool) (p : Permission R)
    (subject object : Units) : PermissionClassification :=
  if p.subjects.any fun re => regexMatch re (upToNull 0 subject) then
    if p.objects.any fun re => regexMatch re (upToNull 0 object) then
      if p.allow then .allowed else .disallowed
    else .noMatch
  else .noMatch

/-! ## The monitor -/

/-- `permissionMap` -/
abbrev PermissionMap (R : Type) := Units → Option (List (Permission R))

namespace Monitor

section

variable {R : Type} (regexMatch : R → Units → Bool) (towlower : UInt16 → UInt16)

/-- What a permission makes of the answer so far. -/
def combine (excluded newExcluded : PermissionClassification) : PermissionClassification :=
  match newExcluded with
  | .allowed => if excluded ≠ .disallowed then .allowed else excluded
  | .disallowed => .disallowed
  | .noMatch => excluded

/-- The loop over the permissions. -/
def classify (permissions : List (Permission R)) (subject object : Units) : PermissionClassification :=
  permissions.foldl (fun excluded p => combine excluded (p.check regexMatch subject object)) .noMatch

/-- An event is allowed if the permissions of its type say so. -/
def isEventAllowed (permissionMap : PermissionMap R) (eventType subject object : Units) : Bool :=
  let excluded := match permissionMap (eventType.map towlower) with
    | some permissions => classify regexMatch permissions subject object
    | none => .noMatch
  excluded == .allowed

/-- The permissions for a type of event, which may have none. -/
def rules (permissionMap : PermissionMap R) (eventType : Units) : List (Permission R) :=
  (permissionMap (eventType.map towlower)).getD []

end

/-! ## Adding exclusions -/

/-- The arguments of `addExclusion`. -/
structure Exclusion where
  /-- The text that says whether the event is allowed. -/
  excluded : Units
  /-- The type of the event. -/
  action : Units
  /-- The expression for the subject. -/
  subject : Units
  /-- The expression for the object. -/
  object : Units
  /-- Whether the exclusion stays when the lists are cleared. -/
  permaneant : Bool

/-- `yes` or `+` -/
def Exclusion.allow (e : Exclusion) : Bool := e.excluded == [0x79, 0x65, 0x73] || e.excluded == [0x2B]

section

variable {fold : UInt16 → UInt16} (engine : Engine fold) (towlower : UInt16 → UInt16)

/-- `none` if `boost::regex_error` is thrown. Without an allowed text the permission is not to allow
anything, as the members of a new object are zero. -/
def Exclusion.permission (e : Exclusion) : Option (Permission engine.Compiled) := do
  let subjectRegex ← engine.compile (upToNull 0 e.subject)
  let objectRegex ← engine.compile (upToNull 0 e.object)
  return ⟨[subjectRegex], [objectRegex], e.allow, e.permaneant⟩

/-- The permission is put behind the others of its type. -/
def addExclusion (permissionMap : PermissionMap engine.Compiled) (e : Exclusion) :
    Option (PermissionMap engine.Compiled) := do
  let p ← e.permission engine
  let action := e.action.map towlower
  match permissionMap action with
  | none => return Function.update permissionMap action (some [p])
  | some permissions => return Function.update permissionMap action (some (permissions ++ [p]))

/-- The exclusions one after the other, from the files, the server and the monitors themselves. -/
def addExclusions (exclusions : List Exclusion) : Option (PermissionMap engine.Compiled) :=
  exclusions.foldlM (addExclusion engine towlower) fun _ => none

end

/-! ## Preparing a path -/

/-- The loop that replaces a character by a text, from `offset` on; `none` if it does not come to an end
within the given number of rounds. -/
def replaceLoop (c : UInt16) (replacement : Units) : (rounds offset : ℕ) → Units → Option Units
  | 0, _, _ => none
  | rounds + 1, offset, s =>
    match findFrom c s offset with
    | none => some s
    | some offset => do
      let s ← CxxString.replace s offset 1 replacement
      replaceLoop c replacement rounds (offset + replacement.length) s

/-- One more round than there are characters is enough for each loop. -/
def prepareStringForExclusion (s : Units) : Option Units := do
  let s ← replaceLoop 0x5C [0x5C, 0x5C] (s.length + 1) 0 s
  replaceLoop 0x2E [0x5C, 0x2E] (s.length + 1) 0 s

/-- A path has no null character. -/
abbrev Path := { s : Units // 0 ∉ s }

/-- The expression for the path uses nothing but what is modelled of the syntax. -/
def Covered (s : Path) : Prop :=
  ∀ pattern ∈ prepareStringForExclusion s.1, parse (upToNull 0 pattern) ≠ .error .notCovered

/-- The expression that is made of the path matches a path exactly if the two are equal up to the case of
letters. -/
def Exact {fold : UInt16 → UInt16} (engine : Engine fold) (s : Path) : Prop :=
  ∃ pattern re, prepareStringForExclusion s.1 = some pattern ∧
    engine.compile (upToNull 0 pattern) = some re ∧
    ∀ t : Path, engine.fullMatch re (upToNull 0 t.1) = true ↔ t.1.map fold = s.1.map fold

end Monitor

end CaptureHpc
