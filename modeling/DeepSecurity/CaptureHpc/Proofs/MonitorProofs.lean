import DeepSecurity.CaptureHpc.Monitor
import Mathlib.Data.List.Perm.Basic

/-!
# Proofs: which events are excluded

The loop over the permissions ends with `disallowed` if one of them says so, and otherwise with `allowed`
if one of them does. So only the set of their answers matters.
-/

namespace CaptureHpc

namespace Monitor

open CxxString PerlRegex Xml

variable {R : Type} {regexMatch : R → Units → Bool} {towlower : UInt16 → UInt16}
  {permissions : List (Permission R)} {subject object : Units}

/-! ## The loop -/

theorem classify_snoc (p : Permission R) :
    classify regexMatch (permissions ++ [p]) subject object =
      combine (classify regexMatch permissions subject object) (p.check regexMatch subject object) := by
  simp [classify]

theorem classify_eq_disallowed_iff :
    classify regexMatch permissions subject object = .disallowed ↔
      ∃ p ∈ permissions, p.check regexMatch subject object = .disallowed := by
  induction permissions using List.reverseRecOn with
  | nil => simp [classify]
  | append_singleton permissions p ih =>
    rw [classify_snoc]
    cases hp : p.check regexMatch subject object with
    | noMatch => simp [combine, ih, hp, or_and_right, exists_or]
    | allowed =>
      by_cases hd : classify regexMatch permissions subject object = .disallowed
      · simpa [combine, hd, hp, or_and_right, exists_or] using ih.mp hd
      · simpa [combine, hd, hp, or_and_right, exists_or] using ih.not.mp hd
    | disallowed => simp [combine, hp, or_and_right, exists_or]

theorem combine_allowed {excluded : PermissionClassification} :
    combine excluded .allowed = .allowed ↔ excluded ≠ .disallowed := by
  cases excluded <;> simp [combine]

theorem classify_eq_allowed_iff :
    classify regexMatch permissions subject object = .allowed ↔
      (∃ p ∈ permissions, p.check regexMatch subject object = .allowed) ∧
        ∀ p ∈ permissions, p.check regexMatch subject object ≠ .disallowed := by
  induction permissions using List.reverseRecOn with
  | nil => simp [classify]
  | append_singleton permissions p ih =>
    rw [classify_snoc]
    cases hp : p.check regexMatch subject object with
    | noMatch => simp [combine, ih, hp, or_and_right, exists_or, or_imp, forall_and]
    | allowed =>
      -- this permission allows the event, so only the others can forbid it
      rw [combine_allowed, ne_eq, classify_eq_disallowed_iff]
      simp [hp, or_and_right, exists_or, or_imp, forall_and]
    | disallowed => simp [combine, hp, or_imp, forall_and]

/-! ## Decisions -/

theorem isEventAllowed_eq_true_iff {permissionMap : PermissionMap R} {eventType : Units} :
    isEventAllowed regexMatch towlower permissionMap eventType subject object = true ↔
      (∃ p ∈ rules towlower permissionMap eventType, p.check regexMatch subject object = .allowed) ∧
        ∀ p ∈ rules towlower permissionMap eventType, p.check regexMatch subject object ≠ .disallowed := by
  unfold isEventAllowed rules
  cases permissionMap (eventType.map towlower) with
  | none => simp
  | some permissions => simp [classify_eq_allowed_iff]

/-- An event is allowed exactly if one of the permissions for its type allows it and none forbids it. The
order of the permissions does not matter, and without permissions it is not allowed. -/
theorem isEventAllowed_iff (regexMatch : R → Units → Bool) (towlower : UInt16 → UInt16)
    (permissionMap : PermissionMap R) (eventType subject object : Units) :
    (isEventAllowed regexMatch towlower permissionMap eventType subject object = true ↔
      (∃ p ∈ rules towlower permissionMap eventType, p.check regexMatch subject object = .allowed) ∧
        ∀ p ∈ rules towlower permissionMap eventType,
          p.check regexMatch subject object ≠ .disallowed) ∧
    (∀ permissionMap', (rules towlower permissionMap' eventType).Perm
        (rules towlower permissionMap eventType) →
      isEventAllowed regexMatch towlower permissionMap' eventType subject object =
        isEventAllowed regexMatch towlower permissionMap eventType subject object) ∧
    (rules towlower permissionMap eventType = [] →
      isEventAllowed regexMatch towlower permissionMap eventType subject object = false) := by
  refine ⟨isEventAllowed_eq_true_iff, ?_, ?_⟩
  · intro permissionMap' hperm
    rw [Bool.eq_iff_iff, isEventAllowed_eq_true_iff, isEventAllowed_eq_true_iff]
    simp only [hperm.mem_iff]
  · intro hnil
    rw [← Bool.not_eq_true, isEventAllowed_eq_true_iff, hnil]
    simp

/-- One permission for every subject and object, and one that forbids the subject `a`. -/
def twoRules : PermissionMap (Option Units) := fun eventType =>
  if eventType = [0x77] then some [⟨[none], [none], true, false⟩, ⟨[some [0x61]], [none], false, false⟩]
  else none

/-- What the expressions of these permissions match: everything, or one text. -/
def isText (re : Option Units) (t : Units) : Bool := re.all (· == t)

theorem isEventAllowed_two_rules :
    (rules id twoRules [0x77]).reverse.Perm (rules id twoRules [0x77]) ∧
    isEventAllowed isText id (fun eventType => (twoRules eventType).map List.reverse) [0x77] [0x62] [] =
      isEventAllowed isText id twoRules [0x77] [0x62] [] ∧
    isEventAllowed isText id twoRules [0x77] [0x62] [] = true ∧
    isEventAllowed isText id twoRules [0x77] [0x61] [] = false :=
  ⟨List.reverse_perm _,
    (isEventAllowed_iff isText id twoRules [0x77] [0x62] []).2.1 _ (List.reverse_perm _), by decide,
    by decide⟩

/-! ## Adding exclusions -/

section

variable {fold : UInt16 → UInt16} {engine : Engine fold}

/-- The permissions for a type of event that the exclusions make. -/
def permissionsFor (engine : Engine fold) (towlower : UInt16 → UInt16) (exclusions : List Exclusion)
    (eventType : Units) : List (Permission engine.Compiled) :=
  (exclusions.filter fun e => e.action.map towlower = eventType.map towlower).filterMap
    (Exclusion.permission engine)

/-- The permission becomes the last one for its action. -/
theorem rules_addExclusion {permissionMap permissionMap' : PermissionMap engine.Compiled} {e : Exclusion}
    (h : addExclusion engine towlower permissionMap e = some permissionMap') (eventType : Units) :
    rules towlower permissionMap' eventType =
      rules towlower permissionMap eventType ++ permissionsFor engine towlower [e] eventType := by
  obtain ⟨p, hp, hupdate⟩ := Option.bind_eq_some_iff.mp h
  dsimp only at hupdate
  have hmap : permissionMap' = Function.update permissionMap (e.action.map towlower)
      (some ((permissionMap (e.action.map towlower)).getD [] ++ [p])) := by
    cases hold : permissionMap (e.action.map towlower) <;>
      · rw [hold] at hupdate
        exact (Option.some.inj hupdate).symm
  by_cases haction : e.action.map towlower = eventType.map towlower
  · simp [rules, permissionsFor, hmap, haction, hp]
  · simp [rules, permissionsFor, hmap, haction, Function.update_of_ne (Ne.symm haction)]

theorem rules_addExclusions {exclusions : List Exclusion} {permissionMap : PermissionMap engine.Compiled}
    (h : addExclusions engine towlower exclusions = some permissionMap) (eventType : Units) :
    rules towlower permissionMap eventType = permissionsFor engine towlower exclusions eventType := by
  suffices ∀ start, exclusions.foldlM (addExclusion engine towlower) start = some permissionMap →
      rules towlower permissionMap eventType = rules towlower start eventType ++
        permissionsFor engine towlower exclusions eventType from this _ h
  clear h
  induction exclusions with
  | nil =>
    intro start h
    rw [← Option.some.inj h]
    simp [permissionsFor]
  | cons e exclusions ih =>
    intro start h
    rw [List.foldlM_cons] at h
    obtain ⟨next, hnext, hrest⟩ := Option.bind_eq_some_iff.mp h
    rw [ih next hrest, rules_addExclusion hnext, List.append_assoc]
    simp only [permissionsFor, ← List.filterMap_append, ← List.filter_append, List.singleton_append]

/-- The decisions do not depend on the order in which the exclusions have been added. -/
theorem isEventAllowed_of_perm {exclusions exclusions' : List Exclusion}
    {permissionMap permissionMap' : PermissionMap engine.Compiled} (hperm : exclusions'.Perm exclusions)
    (h : addExclusions engine towlower exclusions = some permissionMap)
    (h' : addExclusions engine towlower exclusions' = some permissionMap') (eventType : Units) :
    isEventAllowed engine.fullMatch towlower permissionMap' eventType subject object =
      isEventAllowed engine.fullMatch towlower permissionMap eventType subject object := by
  rw [Bool.eq_iff_iff, isEventAllowed_eq_true_iff, isEventAllowed_eq_true_iff, rules_addExclusions h,
    rules_addExclusions h']
  have hrules : (permissionsFor engine towlower exclusions' eventType).Perm
      (permissionsFor engine towlower exclusions eventType) := (hperm.filter _).filterMap _
  simp only [hrules.mem_iff]

end

end Monitor

end CaptureHpc
