import DeepSecurity.Lib.Xml

/-!
# References

The predefined entities of XML, a text with its special characters escaped, and the reader of an element
without content: what it makes of references, of white space and of quotes in the values of attributes.
`readValue_eq_some_iff` says which texts it reads back when only the first part of them is escaped.
-/

namespace Xml

/-! ## Predefined entities -/

/-- The entities that need no declaration. -/
inductive Entity where
  | amp
  | lt
  | gt
  | quot
  | apos
deriving DecidableEq, Repr

namespace Entity

/-- The character that an entity stands for. -/
def char : Entity → UInt16
  | amp => 0x26
  | lt => 0x3C
  | gt => 0x3E
  | quot => 0x22
  | apos => 0x27

/-- The name in a reference. -/
def name : Entity → Units
  | amp => [0x61, 0x6D, 0x70]
  | lt => [0x6C, 0x74]
  | gt => [0x67, 0x74]
  | quot => [0x71, 0x75, 0x6F, 0x74]
  | apos => [0x61, 0x70, 0x6F, 0x73]

/-- The reference as it stands in a document. -/
def reference (e : Entity) : Units := 0x26 :: (e.name ++ [0x3B])

/-- All entities, in the order in which they are tried. -/
def all : List Entity := [amp, lt, gt, quot, apos]

/-- The entity for a character, if it has one. -/
def ofChar (c : UInt16) : Option Entity := all.find? (·.char = c)

/-- The entity whose reference the text begins with. -/
def atStart (l : Units) : Option Entity := all.find? fun e => e.reference.isPrefixOf l

end Entity

/-- The character is escaped. -/
def isSpecial (c : UInt16) : Bool := (Entity.ofChar c).isSome

/-- What is written for a character. -/
def escapeChar (c : UInt16) : Units :=
  match Entity.ofChar c with
  | some e => e.reference
  | none => [c]

/-- The references are replaced by their characters; `skip` is what is left of a reference that has been
replaced. -/
def unescapeFrom : (skip : ℕ) → Units → Units
  | _, [] => []
  | skip + 1, _ :: l => unescapeFrom skip l
  | 0, c :: l =>
    match Entity.atStart (c :: l) with
    | some e => e.char :: unescapeFrom (e.reference.length - 1) l
    | none => c :: unescapeFrom 0 l

/-- All references to entities are replaced, once and from the left. -/
def unescape (l : Units) : Units := unescapeFrom 0 l

/-! ## Reading an element -/

/-- What a reader makes of the names of references. A document without declarations has the predefined
entities and references to characters. -/
structure References where
  /-- What a reference with this name stands for. -/
  resolve : Units → Option Units
  /-- The predefined entities are resolved. -/
  resolve_entity : ∀ e : Entity, resolve e.name = some [e.char]
  /-- The name of a reference has no characters but those of names and the number sign. -/
  resolve_name : ∀ {name l}, resolve name = some l → name.all fun c => isNameChar c || c == 0x23
  /-- A resolved reference is shorter than it was in the document. -/
  resolve_short : ∀ {name l}, resolve name = some l → l.length < name.length + 2

/-- A reader that knows the predefined entities only. -/
def References.predefined : References where
  resolve name := (Entity.all.find? (·.name = name)).map fun e => [e.char]
  resolve_entity e := by cases e <;> rfl
  resolve_name {name l} h := by
    obtain ⟨e, he, -⟩ := Option.map_eq_some_iff.mp h
    have hname : e.name = name := by simpa using List.find?_some he
    rw [← hname]
    cases e <;> rfl
  resolve_short {name l} h := by
    obtain ⟨e, -, rfl⟩ := Option.map_eq_some_iff.mp h
    exact Nat.lt_add_left _ Nat.one_lt_two

/-- The white space that is read as a blank. -/
def isBreak (c : UInt16) : Bool := c == 0x09 || c == 0x0A || c == 0x0D

/-- Carriage return and line feed are one end of a line. -/
def dropLineFeed : Units → Units
  | [] => []
  | c :: l => if c = 0x0A then l else c :: l

/-- The characters that a document may have, surrogates apart. -/
def isChar (c : UInt16) : Bool :=
  isBreak c || (0x20 ≤ c && c < 0xD800) || (0xE000 ≤ c && c ≤ 0xFFFD)

/-- The characters are allowed, and surrogates come in pairs. -/
def isLegal : Units → Bool
  | [] => true
  | c :: l =>
    if 0xD800 ≤ c ∧ c < 0xDC00 then
      match l with
      | [] => false
      | d :: l => 0xDC00 ≤ d && d < 0xE000 && isLegal l
    else isChar c && isLegal l

section Reader

variable (refs : References)

/-- The value up to the closing quote. -/
def readValue (quote : UInt16) : ℕ → Units → Option (Units × Units)
  | 0, _ => none
  | _ + 1, [] => none
  | fuel + 1, c :: l =>
    if c = quote then some ([], l)
    else if c = 0x3C then none
    else if c = 0x26 then do
      let rest ← readUnit 0x3B (l.dropWhile (· != 0x3B))
      let chars ← refs.resolve (l.takeWhile (· != 0x3B))
      let (value, rest) ← readValue quote fuel rest
      some (chars ++ value, rest)
    else if c = 0x0D then do
      let (value, rest) ← readValue quote fuel (dropLineFeed l)
      some (0x20 :: value, rest)
    else do
      let (value, rest) ← readValue quote fuel l
      some ((if isBreak c then 0x20 else c) :: value, rest)

/-- A value in single or double quotes, and the rest. -/
def readQuoted : Units → Option (Units × Units)
  | [] => none
  | quote :: l =>
    if quote = 0x22 ∨ quote = 0x27 then do
      let (value, rest) ← readValue refs quote l.length l
      if isLegal value then some (value, rest) else none
    else none

/-- An attribute, with white space around the equals sign, and the rest. -/
def readReferencedAttribute (l : Units) : Option ((Units × Units) × Units) := do
  let (name, l) ← readName l
  let l ← readUnit 0x3D (l.dropWhile isSpace)
  let (value, l) ← readQuoted refs (l.dropWhile isSpace)
  some ((name, value), l)

/-- The attributes of a tag of an element without content, and its end. -/
def readEmptyTag : ℕ → Units → Option (List (Units × Units) × Units)
  | 0, _ => none
  | fuel + 1, l =>
    match readUnit 0x2F (l.dropWhile isSpace) with
    | some l => (readUnit 0x3E l).map ([], ·)
    | none =>
      if l.head?.any isSpace then do
        let (a, l) ← readReferencedAttribute refs (l.dropWhile isSpace)
        let (as, l) ← readEmptyTag fuel l
        some (a :: as, l)
      else none

/-- A document that is one element without content: its name and its attributes. -/
def readElement (document : Units) : Option (Units × List (Units × Units)) := do
  let l ← readUnit 0x3C document
  let (name, l) ← readName l
  let (as, l) ← readEmptyTag refs l.length l
  if l.all isSpace ∧ (as.map Prod.fst).Nodup then some (name, as) else none

end Reader

/-! ## Escaped texts -/

section Escape

variable {c : UInt16} {l : Units}

@[simp]
theorem Entity.ofChar_char (e : Entity) : Entity.ofChar e.char = some e := by
  cases e <;> rfl

theorem exists_entity_of_isSpecial (h : isSpecial c) : ∃ e : Entity, e.char = c := by
  obtain ⟨e, he⟩ := Option.isSome_iff_exists.mp h
  exact ⟨e, by simpa using List.find?_some he⟩

@[simp]
theorem isSpecial_char (e : Entity) : isSpecial e.char := by
  rw [isSpecial, Entity.ofChar_char]
  rfl

theorem escapeChar_char (e : Entity) : escapeChar e.char = e.reference := by
  rw [escapeChar, Entity.ofChar_char]

theorem escapeChar_of_not_special (h : ¬ isSpecial c) : escapeChar c = [c] := by
  rw [escapeChar]
  split
  · next e he => exact absurd (by rw [isSpecial, he]; rfl) h
  · rfl

/-- Behind the ampersand a reference has no special character. -/
theorem not_special_of_mem_name {e : Entity} (h : c ∈ e.name ++ [0x3B]) : ¬ isSpecial c := by
  have hall : (e.name ++ [0x3B]).all fun c => !isSpecial c := by
    cases e <;> rfl
  simpa using List.all_eq_true.mp hall c h

theorem atStart_reference (e : Entity) (l : Units) : Entity.atStart (e.reference ++ l) = some e := by
  cases e <;> rfl

theorem reference_prefix_of_atStart {e : Entity} (h : Entity.atStart l = some e) :
    e.reference <+: l := by
  have hpre := List.find?_some h
  exact List.isPrefixOf_iff_prefix.mp hpre

theorem atStart_of_ne (h : c ≠ 0x26) (l : Units) : Entity.atStart (c :: l) = none := by
  rw [Entity.atStart, List.find?_eq_none]
  intro e _ hpre
  have hhead := (List.cons_prefix_cons.mp (List.isPrefixOf_iff_prefix.mp hpre)).1
  exact h hhead.symm

theorem unescapeFrom_append (p l : Units) : unescapeFrom p.length (p ++ l) = unescapeFrom 0 l := by
  induction p with
  | nil => rfl
  | cons c p ih => exact ih

theorem unescape_reference (e : Entity) (l : Units) :
    unescape (e.reference ++ l) = e.char :: unescape l := by
  have hstart := atStart_reference e l
  rw [Entity.reference, List.cons_append] at hstart ⊢
  rw [unescape, unescapeFrom, hstart]
  exact congrArg _ (unescapeFrom_append (e.name ++ [0x3B]) l)

theorem unescape_cons_of_ne (h : c ≠ 0x26) (l : Units) : unescape (c :: l) = c :: unescape l := by
  rw [unescape, unescapeFrom, atStart_of_ne h, unescape]

/-- What is escaped comes back, whatever follows. -/
theorem unescape_flatMap_append (d r : Units) :
    unescape (d.flatMap escapeChar ++ r) = d ++ unescape r := by
  induction d with
  | nil => rfl
  | cons c d ih =>
    rw [List.flatMap_cons, List.append_assoc]
    by_cases hc : isSpecial c
    · obtain ⟨e, rfl⟩ := exists_entity_of_isSpecial hc
      rw [escapeChar_char, unescape_reference, ih, List.cons_append]
    · have hamp : c ≠ 0x26 := by
        rintro rfl
        exact hc rfl
      rw [escapeChar_of_not_special hc, List.singleton_append, unescape_cons_of_ne hamp, ih,
        List.cons_append]

theorem length_unescapeFrom_le (skip : ℕ) (l : Units) :
    (unescapeFrom skip l).length ≤ l.length - skip := by
  induction l generalizing skip with
  | nil => cases skip <;> simp [unescapeFrom]
  | cons c l ih =>
    cases skip with
    | zero =>
      rw [unescapeFrom]
      split
      · next e _ =>
        have hle := ih (e.reference.length - 1)
        simp only [List.length_cons]
        omega
      · have hle := ih 0
        simp only [List.length_cons]
        omega
    | succ skip =>
      have hle := ih skip
      rw [unescapeFrom]
      simp only [List.length_cons]
      omega

/-- A text in which every ampersand begins a reference is not its own meaning, unless it has none. -/
theorem not_mem_of_unescape_eq
    (hamp : ∀ s, s <:+ l → s.head? = some 0x26 → ∃ e : Entity, e.reference <+: s)
    (h : unescape l = l) : 0x26 ∉ l := by
  induction l with
  | nil => exact List.not_mem_nil
  | cons c l ih =>
    have hl := fun s (hs : s <:+ l) => hamp s (hs.trans (List.suffix_cons c l))
    rw [unescape, unescapeFrom] at h
    split at h
    · next e he =>
      -- a reference is longer than its character
      have hlength := length_unescapeFrom_le (e.reference.length - 1) l
      have hle := (reference_prefix_of_atStart he).length_le
      have hpos : 1 < e.reference.length := by simp [Entity.reference]
      rw [(List.cons.inj h).2] at hlength
      simp only [List.length_cons] at hle
      omega
    · next hnone =>
      have hc : c ≠ 0x26 := by
        rintro rfl
        obtain ⟨e, he⟩ := hamp _ List.suffix_rfl rfl
        obtain ⟨rest, hrest⟩ := he
        rw [← hrest, atStart_reference] at hnone
        cases hnone
      rw [List.mem_cons, not_or]
      exact ⟨hc.symm, ih hl (List.cons.inj h).2⟩

end Escape

/-! ## Values that are read back -/

section Value

variable {refs : References} {c : UInt16} {d r u x tail tail' : Units} {fuel : ℕ}

/-- The characters that end a value or that the reader looks at twice. -/
def isDelimiter (c : UInt16) : Bool := c == 0x22 || c == 0x26 || c == 0x3C

theorem readValue_plain (hc : ¬ isDelimiter c) (hbreak : ¬ isBreak c) (fuel : ℕ) (l : Units) :
    readValue refs 0x22 (fuel + 1) (c :: l) =
      (readValue refs 0x22 fuel l).map fun p => (c :: p.1, p.2) := by
  have h1 : c ≠ 0x22 := by rintro rfl; exact hc rfl
  have h2 : c ≠ 0x3C := by rintro rfl; exact hc rfl
  have h3 : c ≠ 0x26 := by rintro rfl; exact hc rfl
  have h4 : c ≠ 0x0D := by rintro rfl; exact hbreak rfl
  rw [readValue, if_neg h1, if_neg h2, if_neg h3, if_neg h4, if_neg hbreak]
  cases readValue refs 0x22 fuel l <;> rfl

theorem readValue_reference (e : Entity) (fuel : ℕ) (l : Units) :
    readValue refs 0x22 (fuel + 1) (e.reference ++ l) =
      (readValue refs 0x22 fuel l).map fun p => (e.char :: p.1, p.2) := by
  have hname : e.name.all (· != 0x3B) := by
    cases e <;> rfl
  have hsemicolon : ∀ c ∈ (0x3B :: l).head?, ¬ (c != 0x3B) = true := by simp
  obtain ⟨htake, hdrop⟩ := span_append hname hsemicolon
  have hrest : e.reference ++ l = 0x26 :: (e.name ++ 0x3B :: l) := by simp [Entity.reference]
  rw [hrest, readValue, if_neg (by decide), if_neg (by decide), if_pos rfl, htake, hdrop,
    readUnit_cons_self, refs.resolve_entity]
  simp only [Option.bind_eq_bind, Option.bind_some]
  cases readValue refs 0x22 fuel l <;> rfl

theorem isSpecial_of_isDelimiter (h : isDelimiter c) : isSpecial c := by
  simp only [isDelimiter, Bool.or_eq_true, beq_iff_eq] at h
  rcases h with (rfl | rfl) | rfl <;> rfl

theorem not_isBreak_of_isSpecial (h : isSpecial c) : ¬ isBreak c := by
  obtain ⟨e, rfl⟩ := exists_entity_of_isSpecial h
  cases e <;> decide

theorem readValue_escapeChar (hbreak : ¬ isBreak c) (fuel : ℕ) (l : Units) :
    readValue refs 0x22 (fuel + 1) (escapeChar c ++ l) =
      (readValue refs 0x22 fuel l).map fun p => (c :: p.1, p.2) := by
  by_cases hc : isSpecial c
  · obtain ⟨e, rfl⟩ := exists_entity_of_isSpecial hc
    rw [escapeChar_char, readValue_reference]
  · rw [escapeChar_of_not_special hc, List.singleton_append,
      readValue_plain (mt isSpecial_of_isDelimiter hc) hbreak]

/-- A name that can be resolved ends before the quote. -/
theorem split_of_resolve {chars : Units}
    (h : refs.resolve ((x ++ 0x22 :: tail).takeWhile (· != 0x3B)) = some chars) :
    ∃ name x', x = name ++ 0x3B :: x' ∧ refs.resolve name = some chars ∧
      (x ++ 0x22 :: tail).dropWhile (· != 0x3B) = 0x3B :: (x' ++ 0x22 :: tail) := by
  have hsplit := List.takeWhile_append_dropWhile (p := (· != 0x3B)) (l := x)
  have hname : (x.takeWhile (· != 0x3B)).all (· != 0x3B) := List.all_takeWhile
  rcases hdrop : x.dropWhile (· != 0x3B) with _ | ⟨c, x'⟩
  · -- the name would have the quote in it
    rw [hdrop, List.append_nil] at hsplit
    have hx : ∀ c ∈ x, (c != 0x3B) = true := by
      rw [← hsplit]
      exact List.all_eq_true.mp hname
    rw [List.takeWhile_append_of_pos hx] at h
    have hall := List.all_eq_true.mp (refs.resolve_name h) 0x22
      (List.mem_append_right _
        (by rw [List.takeWhile_cons_of_pos (by decide)]; exact List.mem_cons_self))
    exact absurd hall (by decide)
  · have hc : c = 0x3B := by
      have hhead := List.head?_dropWhile_not (· != (0x3B : UInt16)) x
      rw [hdrop] at hhead
      simpa using hhead
    rw [hdrop, hc] at hsplit
    have hsemicolon : ∀ c ∈ (0x3B :: (x' ++ 0x22 :: tail)).head?, ¬ (c != 0x3B) = true := by simp
    obtain ⟨htake', hdrop'⟩ := span_append hname hsemicolon
    have hx : x.takeWhile (· != 0x3B) ++ 0x3B :: (x' ++ 0x22 :: tail) = x ++ 0x22 :: tail := by
      rw [← List.cons_append, ← List.append_assoc, hsplit]
    rw [hx] at htake' hdrop'
    rw [htake'] at h
    exact ⟨_, x', hsplit.symm, h, hdrop'⟩

theorem eq_of_readUnit {l rest : Units} (h : readUnit c l = some rest) : l = c :: rest := by
  cases l with
  | nil => cases h
  | cons b l =>
    rw [readUnit] at h
    split_ifs at h with hb
    rw [hb, Option.some.inj h]

/-- What the reader can do with the first character of a value. -/
theorem readValue_cases {l : Units} (h : readValue refs 0x22 (fuel + 1) (c :: l) = some (u, tail')) :
    (c = 0x22 ∧ u = [] ∧ tail' = l) ∨
    (c = 0x26 ∧ ∃ rest chars value, l.dropWhile (· != 0x3B) = 0x3B :: rest ∧
      refs.resolve (l.takeWhile (· != 0x3B)) = some chars ∧
      readValue refs 0x22 fuel rest = some (value, tail') ∧ u = chars ++ value) ∨
    (isBreak c ∧ ∃ rest value, (rest = l ∨ l = 0x0A :: rest) ∧
      readValue refs 0x22 fuel rest = some (value, tail') ∧ u = 0x20 :: value) ∨
    (¬ isDelimiter c ∧ ¬ isBreak c ∧ ∃ value, readValue refs 0x22 fuel l = some (value, tail') ∧
      u = c :: value) := by
  rw [readValue] at h
  split_ifs at h with h1 h2 h3 h4 h5
  · obtain ⟨rfl, rfl⟩ := Prod.mk.inj (Option.some.inj h)
    exact .inl ⟨h1, rfl, rfl⟩
  · simp only [Option.bind_eq_bind, Option.bind_eq_some_iff, Option.some.injEq, Prod.mk.injEq,
      Prod.exists] at h
    obtain ⟨rest, hrest, chars, hchars, value, tail, hvalue, rfl, rfl⟩ := h
    exact .inr (.inl ⟨h3, rest, chars, value, eq_of_readUnit hrest, hchars, hvalue, rfl⟩)
  · simp only [Option.bind_eq_bind, Option.bind_eq_some_iff, Option.some.injEq, Prod.mk.injEq,
      Prod.exists] at h
    obtain ⟨value, tail, hvalue, rfl, rfl⟩ := h
    refine .inr (.inr (.inl ⟨by rw [h4]; rfl, dropLineFeed l, value, ?_, hvalue, rfl⟩))
    cases l with
    | nil => exact .inl rfl
    | cons b l =>
      rw [dropLineFeed]
      split_ifs with hb
      · exact .inr (by rw [hb])
      · exact .inl rfl
  · simp only [Option.bind_eq_bind, Option.bind_eq_some_iff, Option.some.injEq, Prod.mk.injEq,
      Prod.exists] at h
    obtain ⟨value, tail, hvalue, rfl, rfl⟩ := h
    exact .inr (.inr (.inl ⟨h5, l, value, .inl rfl, hvalue, rfl⟩))
  · simp only [Option.bind_eq_bind, Option.bind_eq_some_iff, Option.some.injEq, Prod.mk.injEq,
      Prod.exists] at h
    obtain ⟨value, tail, hvalue, rfl, rfl⟩ := h
    refine .inr (.inr (.inr ⟨?_, h5, value, hvalue, rfl⟩))
    simp [isDelimiter, h1, h2, h3]

/-- A value is not longer than the text before the quote. -/
theorem length_readValue_le (h : readValue refs 0x22 fuel (x ++ 0x22 :: tail) = some (u, tail')) :
    u.length ≤ x.length := by
  induction fuel generalizing x u with
  | zero => cases h
  | succ fuel ih =>
    cases x with
    | nil =>
      rw [List.nil_append, readValue, if_pos rfl] at h
      rw [← (Prod.mk.inj (Option.some.inj h)).1]
    | cons c x =>
      rw [List.cons_append] at h
      obtain ⟨-, rfl, -⟩ | ⟨-, rest, chars, value, hrest, hchars, hvalue, rfl⟩ |
        ⟨-, rest, value, hrest, hvalue, rfl⟩ | ⟨-, -, value, hvalue, rfl⟩ := readValue_cases h
      · exact Nat.zero_le _
      · obtain ⟨name, x', rfl, hname, hdrop⟩ := split_of_resolve hchars
        have hshort := refs.resolve_short hname
        rw [hrest, List.cons.injEq] at hdrop
        rw [hdrop.2] at hvalue
        have hle := ih hvalue
        simp only [List.length_append, List.length_cons]
        omega
      · rcases hrest with rfl | hrest
        · have hle := ih hvalue
          simp only [List.length_cons]
          omega
        · cases x with
          | nil => cases hrest
          | cons b x =>
            obtain ⟨-, rfl⟩ := List.cons.inj hrest
            have hle := ih hvalue
            simp only [List.length_cons]
            omega
      · have hle := ih hvalue
        simp only [List.length_cons]
        omega

/-- What the reader needs to get back a value of which the part `d` has been escaped and `r` has not. -/
structure Readable (d r : Units) : Prop where
  /-- White space would be read as a blank. -/
  no_break : ∀ c ∈ d ++ r, ¬ isBreak c
  /-- A part that has not been escaped must not end the value or begin a reference. -/
  no_delimiter : ∀ c ∈ r, ¬ isDelimiter c

theorem Readable.tail_left (h : Readable (c :: d) r) : Readable d r :=
  ⟨fun b hb => h.no_break b (List.mem_cons_of_mem c hb), h.no_delimiter⟩

theorem Readable.tail_right (h : Readable [] (c :: r)) : Readable [] r :=
  ⟨fun b hb => h.no_break b (List.mem_cons_of_mem c hb),
    fun b hb => h.no_delimiter b (List.mem_cons_of_mem c hb)⟩

theorem Readable.cons_left (h : Readable d r) (hc : ¬ isBreak c) : Readable (c :: d) r :=
  ⟨List.forall_mem_cons.mpr ⟨hc, h.no_break⟩, h.no_delimiter⟩

theorem Readable.cons_right (h : Readable [] r) (hc : ¬ isBreak c) (hd : ¬ isDelimiter c) :
    Readable [] (c :: r) :=
  ⟨List.forall_mem_cons.mpr ⟨hc, h.no_break⟩, List.forall_mem_cons.mpr ⟨hd, h.no_delimiter⟩⟩

theorem length_escapeChar_pos (c : UInt16) : 0 < (escapeChar c).length := by
  unfold escapeChar
  split
  · simp [Entity.reference]
  · exact Nat.zero_lt_one

/-- A value that is not escaped. -/
theorem readValue_raw (h : Readable [] r) (hfuel : r.length < fuel) (tail : Units) :
    readValue refs 0x22 fuel (r ++ 0x22 :: tail) = some (r, tail) := by
  obtain ⟨fuel, rfl⟩ : ∃ k, fuel = k + 1 := ⟨fuel - 1, by omega⟩
  induction r generalizing fuel with
  | nil => rw [List.nil_append, readValue, if_pos rfl]
  | cons c r ih =>
    have hbreak := h.no_break c List.mem_cons_self
    have hdelimiter := h.no_delimiter c List.mem_cons_self
    rw [List.length_cons] at hfuel
    obtain ⟨fuel, rfl⟩ : ∃ k, fuel = k + 1 := ⟨fuel - 1, by omega⟩
    rw [List.cons_append, readValue_plain hdelimiter hbreak, ih h.tail_right fuel (by omega)]
    rfl

theorem readValue_of_readable (h : Readable d r)
    (hfuel : (d.flatMap escapeChar ++ r).length < fuel) (tail : Units) :
    readValue refs 0x22 fuel (d.flatMap escapeChar ++ r ++ 0x22 :: tail) = some (d ++ r, tail) := by
  induction d generalizing fuel with
  | nil => exact readValue_raw h hfuel tail
  | cons c d ih =>
    have hpos := length_escapeChar_pos c
    rw [List.flatMap_cons, List.append_assoc, List.length_append] at hfuel
    obtain ⟨fuel, rfl⟩ : ∃ k, fuel = k + 1 := ⟨fuel - 1, by omega⟩
    rw [List.flatMap_cons, List.append_assoc, List.append_assoc,
      readValue_escapeChar (h.no_break c List.mem_cons_self), ← List.append_assoc,
      ih h.tail_left (by omega)]
    rfl

/-- A tab or the end of a line does not come back. -/
theorem not_readValue_of_isBreak {l : Units} (hc : isBreak c) :
    readValue refs 0x22 (fuel + 1) (c :: l) ≠ some (c :: u, tail') := by
  intro h
  obtain ⟨-, hnil, -⟩ | ⟨rfl, -⟩ | ⟨-, rest, value, -, -, heq⟩ | ⟨-, hbreak, -⟩ := readValue_cases h
  · cases hnil
  · exact absurd hc (by decide)
  · rw [(List.cons.inj heq).1] at hc
    exact absurd hc (by decide)
  · exact hbreak hc

theorem readable_of_readValue_raw
    (h : readValue refs 0x22 fuel (r ++ 0x22 :: tail) = some (r, tail')) :
    Readable [] r ∧ tail' = tail := by
  induction r generalizing fuel with
  | nil =>
    cases fuel with
    | zero => cases h
    | succ fuel =>
      rw [List.nil_append, readValue, if_pos rfl] at h
      exact ⟨⟨by simp, by simp⟩, (Prod.mk.inj (Option.some.inj h)).2.symm⟩
  | cons c r ih =>
    cases fuel with
    | zero => cases h
    | succ fuel =>
      rw [List.cons_append] at h
      obtain ⟨-, hnil, -⟩ | ⟨-, rest, chars, value, hrest, hchars, hvalue, heq⟩ | ⟨hbreak, -⟩ |
        ⟨hdelimiter, hbreak, value, hvalue, heq⟩ := readValue_cases h
      · cases hnil
      · -- what the reference stands for is too short
        obtain ⟨name, x', rfl, hname, hdrop⟩ := split_of_resolve hchars
        have hshort := refs.resolve_short hname
        rw [hrest, List.cons.injEq] at hdrop
        rw [hdrop.2] at hvalue
        have hle := length_readValue_le hvalue
        have hlength := congrArg List.length heq
        simp only [List.length_append, List.length_cons] at hlength
        omega
      · exact absurd h (not_readValue_of_isBreak hbreak)
      · rw [← (List.cons.inj heq).2] at hvalue
        obtain ⟨hreadable, rfl⟩ := ih hvalue
        exact ⟨hreadable.cons_right hbreak hdelimiter, rfl⟩

theorem readable_of_readValue
    (h : readValue refs 0x22 fuel (d.flatMap escapeChar ++ r ++ 0x22 :: tail) = some (d ++ r, tail')) :
    Readable d r ∧ tail' = tail := by
  induction d generalizing fuel with
  | nil => exact readable_of_readValue_raw h
  | cons c d ih =>
    cases fuel with
    | zero => cases h
    | succ fuel =>
      rw [List.flatMap_cons, List.append_assoc, List.append_assoc] at h
      have hbreak : ¬ isBreak c := by
        intro hbreak
        rw [escapeChar_of_not_special (mt not_isBreak_of_isSpecial (not_not.mpr hbreak)),
          List.singleton_append] at h
        exact not_readValue_of_isBreak hbreak h
      rw [readValue_escapeChar hbreak, Option.map_eq_some_iff] at h
      obtain ⟨p, hp, heq⟩ := h
      rw [← List.append_assoc] at hp
      obtain ⟨hvalue, htail⟩ := Prod.mk.inj heq
      have hp' : p = (d ++ r, tail') := Prod.ext (List.cons.inj hvalue).2 htail
      obtain ⟨hreadable, rfl⟩ := ih (hp.trans (congrArg some hp'))
      exact ⟨hreadable.cons_left hbreak, rfl⟩

/-- Exactly the readable values are read back. -/
theorem readValue_eq_some_iff (hfuel : (d.flatMap escapeChar ++ r).length < fuel) :
    readValue refs 0x22 fuel (d.flatMap escapeChar ++ r ++ 0x22 :: tail) = some (d ++ r, tail') ↔
      Readable d r ∧ tail' = tail := by
  constructor
  · exact readable_of_readValue
  · rintro ⟨h, rfl⟩
    exact readValue_of_readable h hfuel tail'

end Value

/-! ## Elements that are read back -/

/-- An attribute of whose value the first part has been escaped. -/
structure WrittenAttribute where
  /-- The name of the attribute. -/
  name : Units
  /-- The part that has been escaped. -/
  escaped : Units
  /-- The part that has not. -/
  raw : Units

namespace WrittenAttribute

/-- The value that was to be written. -/
def value (a : WrittenAttribute) : Units := a.escaped ++ a.raw

/-- The attribute as it has been written. -/
def write (a : WrittenAttribute) : Units :=
  writeAttribute (a.name, a.escaped.flatMap escapeChar ++ a.raw)

/-- The attribute as it should be read. -/
def pair (a : WrittenAttribute) : Units × Units := (a.name, a.value)

/-- The value comes back. -/
def ReadBack (a : WrittenAttribute) : Prop := Readable a.escaped a.raw ∧ isLegal a.value

end WrittenAttribute

section Element

variable (refs : References) {a : WrittenAttribute} {as : List WrittenAttribute}
  {name rest rest' : Units} {fuel : ℕ}

theorem readQuoted_iff :
    readQuoted refs (0x22 :: (a.escaped.flatMap escapeChar ++ a.raw ++ 0x22 :: rest)) =
      some (a.value, rest') ↔ a.ReadBack ∧ rest' = rest := by
  have hfuel : (a.escaped.flatMap escapeChar ++ a.raw).length <
      (a.escaped.flatMap escapeChar ++ a.raw ++ 0x22 :: rest).length := by
    simp only [List.length_append, List.length_cons]
    omega
  rw [readQuoted, if_pos (.inl rfl), Option.bind_eq_bind, Option.bind_eq_some_iff]
  constructor
  · rintro ⟨⟨value, tail⟩, hvalue, h⟩
    simp only at h
    split_ifs at h with hlegal
    obtain ⟨rfl, rfl⟩ := Prod.mk.inj (Option.some.inj h)
    obtain ⟨hread, htail⟩ := (readValue_eq_some_iff hfuel).mp hvalue
    exact ⟨⟨hread, hlegal⟩, htail⟩
  · rintro ⟨⟨hread, hlegal⟩, rfl⟩
    refine ⟨(a.value, rest'), (readValue_eq_some_iff hfuel).mpr ⟨hread, rfl⟩, ?_⟩
    exact if_pos hlegal

theorem readReferencedAttribute_iff (hname : IsName a.name) :
    readReferencedAttribute refs
        (a.name ++ 0x3D :: 0x22 :: (a.escaped.flatMap escapeChar ++ a.raw ++ 0x22 :: rest)) =
      some (a.pair, rest') ↔ a.ReadBack ∧ rest' = rest := by
  have hequals : ∀ c ∈ (0x3D :: 0x22 ::
      (a.escaped.flatMap escapeChar ++ a.raw ++ 0x22 :: rest)).head?, ¬ isNameChar c := by
    simp [show isNameChar 0x3D = false by decide]
  have hspace : ∀ (c : UInt16) (l : Units), ¬ isSpace c → (c :: l).dropWhile isSpace = c :: l :=
    fun c l hc => List.dropWhile_cons_of_neg hc
  simp only [readReferencedAttribute, readName_append hname hequals, Option.bind_eq_bind,
    Option.bind_some, hspace 0x3D _ (by decide), hspace 0x22 _ (by decide), readUnit_cons_self]
  rw [← readQuoted_iff refs, Option.bind_eq_some_iff]
  constructor
  · rintro ⟨⟨value, tail⟩, hvalue, h⟩
    obtain ⟨hpair, htail⟩ := Prod.mk.inj (Option.some.inj h)
    rw [hvalue, ← htail, ← (Prod.mk.inj hpair).2]
  · intro h
    exact ⟨(a.value, rest'), h, rfl⟩

theorem IsName.dropWhile_isSpace (h : IsName name) (rest : Units) :
    (name ++ rest).dropWhile isSpace = name ++ rest := by
  obtain ⟨-, hhead⟩ := h
  cases name with
  | nil => simp at hhead
  | cons c l =>
    have hc : ¬ isSpace c := by
      intro hspace
      simp only [isSpace, Bool.or_eq_true, beq_iff_eq] at hspace
      rcases hspace with ((rfl | rfl) | rfl) | rfl <;> cases hhead
    rw [List.cons_append, List.dropWhile_cons_of_neg hc]

/-- The attributes are read back together exactly if each of them is. -/
theorem readEmptyTag_iff (hnames : ∀ a ∈ as, IsName a.name) (hfuel : as.length < fuel) :
    readEmptyTag refs fuel (as.flatMap WrittenAttribute.write ++ 0x2F :: 0x3E :: rest) =
      some (as.map WrittenAttribute.pair, rest') ↔ (∀ a ∈ as, a.ReadBack) ∧ rest' = rest := by
  obtain ⟨fuel, rfl⟩ : ∃ k, fuel = k + 1 := ⟨fuel - 1, by omega⟩
  induction as generalizing fuel with
  | nil =>
    have hslash : (0x2F :: 0x3E :: rest : Units).dropWhile isSpace = 0x2F :: 0x3E :: rest :=
      List.dropWhile_cons_of_neg (by decide)
    simp only [List.flatMap_nil, List.nil_append, readEmptyTag, hslash, readUnit_cons_self,
      Option.map_some, List.map_nil, Option.some.injEq, Prod.mk.injEq, true_and]
    simp [eq_comm]
  | cons a as ih =>
    obtain ⟨hname, hnames⟩ := List.forall_mem_cons.mp hnames
    rw [List.length_cons] at hfuel
    obtain ⟨fuel, rfl⟩ : ∃ k, fuel = k + 1 := ⟨fuel - 1, by omega⟩
    have ih := ih hnames fuel (by omega)
    have hwrite : (a :: as).flatMap WrittenAttribute.write ++ 0x2F :: 0x3E :: rest =
        0x20 :: (a.name ++ 0x3D :: 0x22 :: (a.escaped.flatMap escapeChar ++ a.raw ++ 0x22 ::
          (as.flatMap WrittenAttribute.write ++ 0x2F :: 0x3E :: rest))) := by
      simp [WrittenAttribute.write, writeAttribute]
    rw [hwrite, readEmptyTag, List.dropWhile_cons_of_pos (by decide), hname.dropWhile_isSpace]
    obtain ⟨c, l, hl, hc⟩ := hname.head_ne (0x3D :: 0x22 :: (a.escaped.flatMap escapeChar ++ a.raw ++
      0x22 :: (as.flatMap WrittenAttribute.write ++ 0x2F :: 0x3E :: rest)))
    have hslash := readUnit_cons_of_ne (l := l) hc
    rw [← hl] at hslash
    simp only [hslash, List.head?_cons, Option.any_some, show isSpace 0x20 = true from rfl, if_true,
      Option.bind_eq_bind, Option.bind_eq_some_iff, List.map_cons]
    constructor
    · rintro ⟨⟨b, tail⟩, hb, ⟨bs, tail'⟩, hbs, h⟩
      obtain ⟨hcons, rfl⟩ := Prod.mk.inj (Option.some.inj h)
      obtain ⟨rfl, rfl⟩ := List.cons.inj hcons
      obtain ⟨ha, rfl⟩ := (readReferencedAttribute_iff refs hname).mp hb
      obtain ⟨has, htail⟩ := ih.mp hbs
      exact ⟨List.forall_mem_cons.mpr ⟨ha, has⟩, htail⟩
    · rintro ⟨hall, rfl⟩
      obtain ⟨ha, has⟩ := List.forall_mem_cons.mp hall
      exact ⟨(a.pair, _), (readReferencedAttribute_iff refs hname).mpr ⟨ha, rfl⟩,
        (as.map WrittenAttribute.pair, rest'), ih.mpr ⟨has, rfl⟩, rfl⟩

/-- An element without content, as it is written. -/
def writeEmpty (name : Units) (as : List WrittenAttribute) : Units :=
  0x3C :: (name ++ (as.flatMap WrittenAttribute.write ++ [0x2F, 0x3E, 0x0D, 0x0A]))

theorem readElement_iff (hname : IsName name) (hnames : ∀ a ∈ as, IsName a.name)
    (hnodup : (as.map WrittenAttribute.name).Nodup) :
    readElement refs (writeEmpty name as) = some (name, as.map WrittenAttribute.pair) ↔
      ∀ a ∈ as, a.ReadBack := by
  have hhead : ∀ c ∈ (as.flatMap WrittenAttribute.write ++ [0x2F, 0x3E, 0x0D, 0x0A]).head?,
      ¬ isNameChar c := by
    cases as with
    | nil => simp [show isNameChar 0x2F = false by decide]
    | cons a as =>
      simp [WrittenAttribute.write, writeAttribute, show isNameChar 0x20 = false by decide]
  have hfuel : as.length < (as.flatMap WrittenAttribute.write ++ [0x2F, 0x3E, 0x0D, 0x0A]).length := by
    have hle := length_le_flatMap_writeAttribute
      (as.map fun a => (a.name, a.escaped.flatMap escapeChar ++ a.raw))
    rw [List.length_map, List.flatMap_map] at hle
    rw [List.length_append]
    exact Nat.lt_add_right_iff_pos.mpr (by decide) |>.trans_le' hle
  have hpairs : ((as.map WrittenAttribute.pair).map Prod.fst).Nodup := by
    rw [List.map_map]
    exact hnodup
  simp only [readElement, writeEmpty, readUnit_cons_self, readName_append hname hhead,
    Option.bind_eq_bind, Option.bind_some, Option.bind_eq_some_iff]
  constructor
  · rintro ⟨⟨pairs, rest⟩, hread, h⟩
    simp only at h
    split_ifs at h
    rw [(Prod.mk.inj (Option.some.inj h)).2] at hread
    exact ((readEmptyTag_iff refs hnames hfuel).mp hread).1
  · intro hall
    exact ⟨(as.map WrittenAttribute.pair, [0x0D, 0x0A]),
      (readEmptyTag_iff refs hnames hfuel).mpr ⟨hall, rfl⟩, if_pos ⟨rfl, hpairs⟩⟩

end Element

end Xml
