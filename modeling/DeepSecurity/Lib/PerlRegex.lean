import Mathlib.Data.List.Basic
import Mathlib.Data.UInt

/-!
# Regular expressions in Perl syntax

Characters, escaped characters, the dot, anchors, groups, alternatives and the quantifiers `*`, `+` and
`?`. The parser goes over an expression once, with a stack of the groups that are open. What it meets
besides (classes, counted and possessive quantifiers, extended groups, escaped letters and digits) is
`notCovered`. `Matches` says what an expression matches; the case of letters does not matter, which is a
function `fold` that maps the letters of one case to those of the other.
-/

namespace PerlRegex

/-- A regular expression. `start` and `stop` are the anchors, `any` is the dot. -/
inductive Regex where
  | empty
  | char (c : UInt16)
  | any
  | start
  | stop
  | seq (r s : Regex)
  | alt (r s : Regex)
  | opt (r : Regex)
  | star (r : Regex)
deriving DecidableEq

/-- The expression matches the text in the middle, with what is before and after it. -/
inductive Matches (fold : UInt16 → UInt16) :
    Regex → (before text after : List UInt16) → Prop where
  | empty {x y} : Matches fold .empty x [] y
  | char {a c x y} (h : fold a = fold c) : Matches fold (.char c) x [a] y
  | any {a x y} (h : a ≠ 0x0A) : Matches fold .any x [a] y
  | start {y} : Matches fold .start [] [] y
  | stop {x y} (h : y = [] ∨ y = [0x0A]) : Matches fold .stop x [] y
  | seq {r s x t u y} (hr : Matches fold r x t (u ++ y)) (hs : Matches fold s (x ++ t) u y) :
      Matches fold (.seq r s) x (t ++ u) y
  | altLeft {r s x t y} (h : Matches fold r x t y) : Matches fold (.alt r s) x t y
  | altRight {r s x t y} (h : Matches fold s x t y) : Matches fold (.alt r s) x t y
  | optNone {r x y} : Matches fold (.opt r) x [] y
  | optSome {r x t y} (h : Matches fold r x t y) : Matches fold (.opt r) x t y
  | starNil {r x y} : Matches fold (.star r) x [] y
  | starCons {r x t u y} (hr : Matches fold r x t (u ++ y)) (hs : Matches fold (.star r) (x ++ t) u y) :
      Matches fold (.star r) x (t ++ u) y

/-! ## The parser -/

/-- Why there is no expression. -/
inductive Problem where
  | invalid
  | notCovered
deriving DecidableEq

/-- A group that is open: the alternatives before, and the items of the last one. -/
structure Frame where
  /-- The alternatives that have been completed. -/
  alternatives : Option Regex
  /-- The items of the current alternative but the last one. -/
  items : Regex
  /-- The last item, to which a quantifier would apply. -/
  last : Option Regex

namespace Frame

/-- A group that has just been opened. -/
def new : Frame := ⟨none, .empty, none⟩

/-- The items of the current alternative. -/
def sequence (f : Frame) : Regex :=
  match f.last with
  | none => f.items
  | some r => .seq f.items r

/-- The group, if it is closed now. -/
def regex (f : Frame) : Regex :=
  match f.alternatives with
  | none => f.sequence
  | some r => .alt r f.sequence

/-- One more item. -/
def push (f : Frame) (r : Regex) : Frame := { f with items := f.sequence, last := some r }

/-- The current alternative is completed. -/
def nextAlternative (f : Frame) : Frame := ⟨some f.regex, .empty, none⟩

/-- A quantifier applies to the last item. -/
def quantify (f : Frame) (q : Regex → Regex) : Frame := { f with last := f.last.map q }

end Frame

/-- What a quantifier would refer to. -/
inductive Mode where
  | nothing
  | group
  | item
  | quantified
  | nongreedy
  | anchor
  | escape
deriving DecidableEq

/-- The state of the parser between two characters. -/
structure Parser where
  /-- The groups around the current one, the innermost first. -/
  outer : List Frame
  /-- The group that is read. -/
  frame : Frame
  /-- What the last character was. -/
  mode : Mode

namespace Parser

/-- The parser at the start of an expression. -/
def new : Parser := ⟨[], Frame.new, .nothing⟩

/-- One more item in the current group. -/
def push (p : Parser) (r : Regex) (mode : Mode) : Parser := { p with frame := p.frame.push r, mode }

/-- The letters and digits of ASCII. After a backslash they have a meaning of their own. -/
def isAlphanumeric (c : UInt16) : Bool :=
  (0x30 ≤ c && c ≤ 0x39) || (0x41 ≤ c && c ≤ 0x5A) || (0x61 ≤ c && c ≤ 0x7A)

/-- `*`, `+` and `?`. One of the latter two after a quantifier changes its kind. -/
def quantify (p : Parser) (c : UInt16) : Except Problem Parser :=
  match p.mode with
  | .item =>
    let q (r : Regex) : Regex := if c = 0x2A then .star r else if c = 0x2B then .seq r (.star r) else .opt r
    .ok { p with frame := p.frame.quantify q, mode := .quantified }
  | .quantified =>
    if c = 0x3F then .ok { p with mode := .nongreedy }
    else if c = 0x2B then .error .notCovered
    else .error .invalid
  | .group => if c = 0x2B then .error .invalid else .error .notCovered
  | .anchor => .error .notCovered
  | _ => .error .invalid

/-- The characters `^`, `$`, `|`, `(`, `)`, `*`, `+` and `?`. -/
def metacharacters : List UInt16 := [0x5E, 0x24, 0x7C, 0x28, 0x29, 0x2A, 0x2B, 0x3F]

/-- The characters `[`, `{` and `}`. -/
def uncovered : List UInt16 := [0x5B, 0x7B, 0x7D]

/-- All characters with a meaning of their own but the backslash and the dot. -/
def special : List UInt16 := metacharacters ++ uncovered

/-- One character. -/
def step (p : Parser) (c : UInt16) : Except Problem Parser :=
  if p.mode = .escape then
    if isAlphanumeric c then .error .notCovered else .ok (p.push (.char c) .item)
  else if c = 0x5C then .ok { p with mode := .escape }
  else if c = 0x28 then .ok ⟨p.frame :: p.outer, Frame.new, .group⟩
  else if c = 0x29 then
    match p.outer with
    | [] => .error .invalid
    | f :: outer => .ok ⟨outer, f.push p.frame.regex, .item⟩
  else if c = 0x7C then .ok { p with frame := p.frame.nextAlternative, mode := .nothing }
  else if c = 0x2A ∨ c = 0x2B ∨ c = 0x3F then p.quantify c
  else if c = 0x5E then .ok (p.push .start .anchor)
  else if c = 0x24 then .ok (p.push .stop .anchor)
  else if c = 0x2E then .ok (p.push .any .item)
  else if c ∈ uncovered then .error .notCovered
  else .ok (p.push (.char c) .item)

/-- The end of the expression. -/
def finish (p : Parser) : Except Problem Regex :=
  if p.mode = .escape ∨ p.outer ≠ [] then .error .invalid else .ok p.frame.regex

end Parser

/-- The expression that a pattern denotes. -/
def parse (pattern : List UInt16) : Except Problem Regex := do
  let p ← pattern.foldlM Parser.step Parser.new
  p.finish

/-- A library for regular expressions: it compiles what can be parsed, refuses what is invalid, and
tells if a whole text is matched. -/
structure Engine (fold : UInt16 → UInt16) where
  /-- Compiled expressions. -/
  Compiled : Type
  /-- The compilation of a pattern, `none` if it is refused. -/
  compile : List UInt16 → Option Compiled
  /-- The whole text is matched. -/
  fullMatch : Compiled → List UInt16 → Bool
  /-- What the parser reads is compiled to what it means. -/
  compile_of_ok : ∀ pattern r, parse pattern = .ok r →
    ∃ e, compile pattern = some e ∧ ∀ t, fullMatch e t = true ↔ Matches fold r [] t []
  /-- What the parser finds invalid is refused. -/
  compile_of_invalid : ∀ pattern, parse pattern = .error .invalid → compile pattern = none

/-- An engine for what the parser covers, and for nothing else. -/
noncomputable def Engine.reference (fold : UInt16 → UInt16) : Engine fold where
  Compiled := Regex
  compile pattern := (parse pattern).toOption
  fullMatch r t := open Classical in decide (Matches fold r [] t [])
  compile_of_ok pattern r h := ⟨r, by rw [h]; rfl, by simp⟩
  compile_of_invalid pattern h := by
    rw [h]
    rfl

/-- Two cases of a letter are mapped to one; the metacharacters are no letters. -/
structure CaseFolding where
  /-- One of the cases of a letter. -/
  fold : UInt16 → UInt16
  /-- A metacharacter is no case of another character. -/
  eq_of_fold_eq : ∀ c ∈ Parser.metacharacters, ∀ d, fold d = fold c → d = c

/-- The small letters of ASCII. -/
def foldAscii (c : UInt16) : UInt16 := if 0x41 ≤ c ∧ c ≤ 0x5A then c + 0x20 else c

/-- The letters of ASCII are the only ones with two cases. -/
def CaseFolding.ascii : CaseFolding where
  fold := foldAscii
  eq_of_fold_eq := by
    have hupper (c : UInt16) (h : 0x41 ≤ c ∧ c ≤ 0x5A) : 0x61 ≤ c + 0x20 ∧ c + 0x20 ≤ 0x7A := by
      obtain ⟨hlow, hhigh⟩ := h
      rw [UInt16.le_iff_toNat_le] at hlow hhigh ⊢
      rw [UInt16.le_iff_toNat_le, UInt16.toNat_add]
      have hlow' : 0x41 ≤ c.toNat := hlow
      have hhigh' : c.toNat ≤ 0x5A := hhigh
      exact ⟨by change 0x61 ≤ (c.toNat + 0x20) % 2 ^ 16; omega,
        by change (c.toNat + 0x20) % 2 ^ 16 ≤ 0x7A; omega⟩
    have hmeta : Parser.metacharacters.all fun c => foldAscii c = c ∧ ¬ (0x61 ≤ c ∧ c ≤ 0x7A) := by decide
    intro c hc d hd
    obtain ⟨hfold, hletter⟩ := of_decide_eq_true (List.all_eq_true.mp hmeta c hc)
    rw [hfold, foldAscii] at hd
    split_ifs at hd with hcase
    · exact absurd (hd ▸ hupper d hcase) hletter
    · exact hd

/-! ## Texts without special characters -/

variable {fold : UInt16 → UInt16} {p p' : Parser} {c : UInt16} {r : Regex} {x t y : List UInt16}

/-- A character that stands for itself. -/
theorem step_char (hmode : p.mode ≠ .escape) (hspecial : c ∉ Parser.special)
    (hbackslash : c ≠ 0x5C) (hdot : c ≠ 0x2E) :
    p.step c = .ok (p.push (.char c) .item) := by
  obtain ⟨hmeta, hcovered⟩ : c ∉ Parser.metacharacters ∧ c ∉ Parser.uncovered := by
    simpa [Parser.special] using hspecial
  simp only [Parser.metacharacters, List.mem_cons, List.not_mem_nil, or_false, not_or] at hmeta
  simp [Parser.step, hmode, hmeta, hcovered, hbackslash, hdot]

theorem step_uncovered (hmode : p.mode ≠ .escape) (h : c ∈ Parser.uncovered) :
    p.step c = .error .notCovered := by
  simp only [Parser.uncovered, List.mem_cons, List.not_mem_nil, or_false] at h
  rcases h with rfl | rfl | rfl <;> simp [Parser.step, hmode, Parser.uncovered]

theorem foldlM_escaped (hmode : p.mode ≠ .escape) (hc : Parser.isAlphanumeric c = false) :
    [0x5C, c].foldlM Parser.step p = .ok (p.push (.char c) .item) := by
  have hfirst : p.step 0x5C = .ok { p with mode := .escape } := by simp [Parser.step, hmode]
  have hsecond : Parser.step { p with mode := .escape } c = .ok (p.push (.char c) .item) := by
    simp [Parser.step, hc, Parser.push]
  simp only [List.foldlM_cons, hfirst, hsecond, List.foldlM_nil, bind, Except.bind, pure, Except.pure]

theorem matches_empty : Matches fold .empty x t y ↔ t = [] := by
  constructor
  · rintro ⟨⟩
    rfl
  · rintro rfl
    exact .empty

theorem matches_seq_char :
    Matches fold (.seq r (.char c)) x t y ↔
      ∃ u a, t = u ++ [a] ∧ Matches fold r x u (a :: y) ∧ fold a = fold c := by
  constructor
  · intro h
    cases h with
    | seq hr hs =>
      cases hs with
      | char ha => exact ⟨_, _, rfl, hr, ha⟩
  · rintro ⟨u, a, rfl, hr, ha⟩
    exact .seq hr (.char ha)

/-- The items match the text `s`, up to case. -/
def Frame.Spells (fold : UInt16 → UInt16) (f : Frame) (s : List UInt16) : Prop :=
  f.alternatives = none ∧ ∀ x t y, Matches fold f.sequence x t y ↔ t.map fold = s.map fold

theorem Frame.spells_new : Frame.new.Spells fold [] :=
  ⟨rfl, fun x t y => by simp [Frame.new, Frame.sequence, matches_empty]⟩

theorem Frame.Spells.push {f : Frame} {s : List UInt16} (h : f.Spells fold s) (c : UInt16) :
    (f.push (.char c)).Spells fold (s ++ [c]) := by
  refine ⟨h.1, fun x t y => ?_⟩
  have hsequence : (f.push (.char c)).sequence = .seq f.sequence (.char c) := rfl
  rw [hsequence, matches_seq_char]
  constructor
  · rintro ⟨u, a, rfl, hu, ha⟩
    rw [List.map_append, List.map_append, (h.2 _ _ _).mp hu, List.map_singleton, List.map_singleton, ha]
  · intro ht
    rw [List.map_append] at ht
    obtain ⟨u, v, rfl, hu, hv⟩ := List.map_eq_append_iff.mp ht
    obtain ⟨a, rfl, ha⟩ := List.map_eq_singleton_iff.mp hv
    exact ⟨u, a, rfl, (h.2 _ _ _).mpr hu, ha⟩

theorem Frame.Spells.matches_regex {f : Frame} {s : List UInt16} (h : f.Spells fold s) :
    Matches fold f.regex x t y ↔ t.map fold = s.map fold := by
  rw [Frame.regex, h.1]
  exact h.2 x t y

/-! ## Characters that are not matched -/

/-- None of the characters is one of the expression, and there is no dot. -/
def Regex.Avoids (bad : List UInt16) : Regex → Prop
  | .char c => c ∉ bad
  | .any => False
  | .seq r s => r.Avoids bad ∧ s.Avoids bad
  | .alt r s => r.Avoids bad ∧ s.Avoids bad
  | .opt r => r.Avoids bad
  | .star r => r.Avoids bad
  | _ => True

variable {bad : List UInt16}

theorem Regex.avoids_char : (Regex.char c).Avoids bad ↔ c ∉ bad := Iff.rfl

theorem Matches.exists_char (h : Matches fold r x t y) (hr : r.Avoids bad) {a : UInt16} (ha : a ∈ t) :
    ∃ c, c ∉ bad ∧ fold a = fold c := by
  induction h with
  | empty => cases ha
  | char hc => exact ⟨_, hr, List.mem_singleton.mp ha ▸ hc⟩
  | any => exact hr.elim
  | start => cases ha
  | stop => cases ha
  | seq _ _ ihr ihs => exact (List.mem_append.mp ha).elim (ihr hr.1) (ihs hr.2)
  | altLeft _ ih => exact ih hr.1 ha
  | altRight _ ih => exact ih hr.2 ha
  | optNone => cases ha
  | optSome _ ih => exact ih hr ha
  | starNil => cases ha
  | starCons _ _ ihr ihs => exact (List.mem_append.mp ha).elim (ihr hr) (ihs hr)

/-- The parts of an open group avoid the characters. -/
structure Frame.Avoids (bad : List UInt16) (f : Frame) : Prop where
  /-- The alternatives before the current one. -/
  alternatives : ∀ r ∈ f.alternatives, r.Avoids bad
  /-- The items of the current one but the last. -/
  items : f.items.Avoids bad
  /-- The last item. -/
  last : ∀ r ∈ f.last, r.Avoids bad

namespace Frame.Avoids

variable {f : Frame}

theorem new : Frame.new.Avoids bad := ⟨by simp [Frame.new], trivial, by simp [Frame.new]⟩

theorem sequence (h : f.Avoids bad) : f.sequence.Avoids bad := by
  unfold Frame.sequence
  cases hlast : f.last with
  | none => exact h.items
  | some r => exact ⟨h.items, h.last r hlast⟩

theorem regex (h : f.Avoids bad) : f.regex.Avoids bad := by
  unfold Frame.regex
  cases halt : f.alternatives with
  | none => exact h.sequence
  | some r => exact ⟨h.alternatives r halt, h.sequence⟩

theorem push (h : f.Avoids bad) (hr : r.Avoids bad) : (f.push r).Avoids bad :=
  ⟨h.alternatives, h.sequence, by simpa [Frame.push] using hr⟩

theorem nextAlternative (h : f.Avoids bad) : f.nextAlternative.Avoids bad :=
  ⟨by simpa [Frame.nextAlternative] using h.regex, trivial, by simp [Frame.nextAlternative]⟩

theorem quantify (h : f.Avoids bad) {q : Regex → Regex} (hq : ∀ r, r.Avoids bad → (q r).Avoids bad) :
    (f.quantify q).Avoids bad := by
  refine ⟨h.alternatives, h.items, ?_⟩
  rintro r hr
  obtain ⟨r', hr', rfl⟩ := Option.map_eq_some_iff.mp hr
  exact hq r' (h.last r' hr')

end Frame.Avoids

/-- Between two characters of the text that is read. -/
structure Parser.Avoids (bad : List UInt16) (p : Parser) : Prop where
  /-- The group that is read. -/
  frame : p.frame.Avoids bad
  /-- The groups around it. -/
  outer : ∀ f ∈ p.outer, f.Avoids bad
  /-- No backslash is waiting for its character. -/
  mode : p.mode ≠ .escape

namespace Parser.Avoids

theorem new : Parser.new.Avoids bad := ⟨Frame.Avoids.new, by simp [Parser.new], by simp [Parser.new]⟩

theorem push (h : p.Avoids bad) (hr : r.Avoids bad) {mode : Mode} (hmode : mode ≠ .escape) :
    (p.push r mode).Avoids bad := ⟨h.frame.push hr, h.outer, hmode⟩

theorem quantify (h : p.Avoids bad) (hstep : p.quantify c = .ok p') : p'.Avoids bad := by
  unfold Parser.quantify at hstep
  split at hstep
  · rw [← Except.ok.inj hstep]
    refine ⟨h.frame.quantify fun r hr => ?_, h.outer, by simp⟩
    split_ifs
    · exact hr
    · exact ⟨hr, hr⟩
    · exact hr
  · split_ifs at hstep
    rw [← Except.ok.inj hstep]
    exact ⟨h.frame, h.outer, by simp⟩
  · split_ifs at hstep
  · cases hstep
  · cases hstep

/-- A metacharacter does not become a character of the expression. -/
theorem step (h : p.Avoids Parser.metacharacters) (hbackslash : c ≠ 0x5C) (hdot : c ≠ 0x2E)
    (hstep : p.step c = .ok p') : p'.Avoids Parser.metacharacters := by
  unfold Parser.step at hstep
  rw [if_neg h.mode, if_neg hbackslash] at hstep
  split_ifs at hstep with hopen hclose hbar hquantifier hstart hstop huncovered
  · rw [← Except.ok.inj hstep]
    refine ⟨Frame.Avoids.new, ?_, by simp⟩
    simpa using ⟨h.frame, h.outer⟩
  · cases houter : p.outer with
    | nil =>
      rw [houter] at hstep
      cases hstep
    | cons f outer =>
      rw [houter] at hstep
      have hall : ∀ f' ∈ f :: outer, f'.Avoids Parser.metacharacters := houter ▸ h.outer
      rw [← Except.ok.inj hstep]
      exact ⟨(hall f List.mem_cons_self).push h.frame.regex,
        fun f' hf' => hall f' (List.mem_cons_of_mem f hf'), by simp⟩
  · rw [← Except.ok.inj hstep]
    exact ⟨h.frame.nextAlternative, h.outer, by simp⟩
  · exact h.quantify hstep
  · rw [← Except.ok.inj hstep]
    exact Avoids.push h (r := .start) trivial (by simp)
  · rw [← Except.ok.inj hstep]
    exact Avoids.push h (r := .stop) trivial (by simp)
  · rw [← Except.ok.inj hstep]
    refine h.push ?_ (by simp)
    simp only [not_or] at hquantifier
    rw [Regex.avoids_char]
    simp only [Parser.metacharacters, List.mem_cons, List.not_mem_nil, or_false, not_or]
    exact ⟨hstart, hstop, hbar, hopen, hclose, hquantifier⟩

theorem finish (h : p.Avoids bad) (hfinish : p.finish = .ok r) : r.Avoids bad := by
  unfold Parser.finish at hfinish
  split_ifs at hfinish
  rw [← Except.ok.inj hfinish]
  exact h.frame.regex

end Parser.Avoids

end PerlRegex
