import Mathlib.Data.List.Basic
import Mathlib.Data.List.DropRight
import Mathlib.Data.List.Infix

/-!
# Documents of tags and text

The part of XML that is written with start tags, end tags and text alone: there are no references,
comments, declarations or marked sections, and no characters beyond ASCII. `content` reads a document
of this kind, `Reports` is what a reader may call back with, and `tokens_write` says that what is
written is read again.
-/

namespace Xml

/-- A text as its units of 16 bits. -/
abbrev Units := List UInt16

/-- A tag, or the text between two tags. -/
inductive Token where
  | startTag (name : Units) (attributes : List (Units × Units))
  | text (l : Units)
  | endTag (name : Units)
deriving DecidableEq

/-! ## Characters -/

/-- The letters, the underscore and the colon. -/
def isNameStart (c : UInt16) : Bool :=
  (0x41 ≤ c && c ≤ 0x5A) || (0x61 ≤ c && c ≤ 0x7A) || c == 0x5F || c == 0x3A

/-- The digits, the minus and the dot may stand in a name, too. -/
def isNameChar (c : UInt16) : Bool :=
  isNameStart c || (0x30 ≤ c && c ≤ 0x39) || c == 0x2D || c == 0x2E

/-- A tab or a line break in a value is read as a blank, so it is not one of these. -/
def isValueChar (c : UInt16) : Bool :=
  0x20 ≤ c && c ≤ 0x7F && c != 0x22 && c != 0x26 && c != 0x3C

/-- A carriage return in a text is read as a line feed, so it is not one of these. -/
def isTextChar (c : UInt16) : Bool :=
  ((0x20 ≤ c && c ≤ 0x7F) || c == 0x09 || c == 0x0A) && c != 0x26 && c != 0x3C

/-- The white space of a document. -/
def isSpace (c : UInt16) : Bool := c == 0x20 || c == 0x09 || c == 0x0A || c == 0x0D

/-- A name of a tag or of an attribute. -/
def IsName (l : Units) : Prop := l.all isNameChar ∧ l.head?.any isNameStart

/-- The value of an attribute, without its quotes. -/
def IsValue (l : Units) : Prop := l.all isValueChar

/-- The end mark of a section may not occur in a text. -/
def IsText (l : Units) : Prop := l ≠ [] ∧ l.all isTextChar ∧ ¬ [0x5D, 0x5D, 0x3E] <:+: l

instance (l : Units) : Decidable (IsName l) := inferInstanceAs (Decidable (_ ∧ _))

instance (l : Units) : Decidable (IsValue l) := inferInstanceAs (Decidable (_ = true))

instance (l : Units) : Decidable (IsText l) := inferInstanceAs (Decidable (_ ∧ _ ∧ _))

namespace Token

/-- The names, values and texts of a token have the characters that they may have. -/
def Valid : Token → Prop
  | startTag name attributes => IsName name ∧ ∀ a ∈ attributes, IsName a.1 ∧ IsValue a.2
  | text l => IsText l
  | endTag name => IsName name

/-- The token is not a text. -/
def isTag : Token → Bool
  | text _ => false
  | _ => true

end Token

/-- No two texts are next to each other. -/
def Separated (ts : List Token) : Prop := ts.IsChain fun t u => t.isTag ∨ u.isTag

instance (ts : List Token) : Decidable (Separated ts) :=
  inferInstanceAs (Decidable (ts.IsChain fun t u => t.isTag ∨ u.isTag))

theorem Separated.tail {t : Token} {ts : List Token} (h : Separated (t :: ts)) : Separated ts :=
  List.IsChain.of_cons h

theorem Separated.cons_tag {t : Token} {ts : List Token} (h : Separated ts) (ht : t.isTag) :
    Separated (t :: ts) := by
  cases ts with
  | nil => exact .singleton t
  | cons u ts => exact List.isChain_cons_cons.2 ⟨.inl ht, h⟩

/-! ## Writing -/

/-- An attribute with the blank before it. The value stands in double quotes. -/
def writeAttribute (a : Units × Units) : Units := 0x20 :: (a.1 ++ 0x3D :: 0x22 :: (a.2 ++ [0x22]))

/-- A token as it stands in a document. -/
def Token.write : Token → Units
  | startTag name attributes => 0x3C :: (name ++ (attributes.flatMap writeAttribute ++ [0x3E]))
  | text l => l
  | endTag name => 0x3C :: 0x2F :: (name ++ [0x3E])

/-! ## Reading -/

/-- The text behind the unit `c`, `none` if it does not begin with it. -/
def readUnit (c : UInt16) : Units → Option Units
  | [] => none
  | d :: l => if d = c then some l else none

/-- The name that a text begins with, and the rest. -/
def readName (l : Units) : Option (Units × Units) :=
  if IsName (l.takeWhile isNameChar) then
    some (l.takeWhile isNameChar, l.dropWhile isNameChar)
  else none

/-- An attribute and the rest. -/
def readAttribute (l : Units) : Option ((Units × Units) × Units) := do
  let (name, l) ← readName l
  let l ← readUnit 0x3D l
  let l ← readUnit 0x22 l
  let rest ← readUnit 0x22 (l.dropWhile isValueChar)
  some ((name, l.takeWhile isValueChar), rest)

/-- The attributes of a start tag and its closing bracket. -/
def readAttributes : ℕ → Units → Option (List (Units × Units) × Units)
  | 0, _ => none
  | fuel + 1, l =>
    match readUnit 0x3E l with
    | some l => some ([], l)
    | none => do
      let l ← readUnit 0x20 l
      let (a, l) ← readAttribute l
      let (as, l) ← readAttributes fuel l
      some (a :: as, l)

/-- A start tag behind its opening bracket, and the rest. -/
def readStartTag (l : Units) : Option (Token × Units) := do
  let (name, l) ← readName l
  let (attributes, l) ← readAttributes l.length l
  some (.startTag name attributes, l)

/-- An end tag behind its slash, and the rest. -/
def readEndTag (l : Units) : Option (Token × Units) := do
  let (name, l) ← readName l
  let l ← readUnit 0x3E l
  some (.endTag name, l)

/-- The text up to the next tag, and the rest. -/
def readText (l : Units) : Option (Token × Units) :=
  if IsText (l.takeWhile (· != 0x3C)) then
    some (.text (l.takeWhile (· != 0x3C)), l.dropWhile (· != 0x3C))
  else none

/-- The first token and the rest. -/
def readToken (l : Units) : Option (Token × Units) :=
  match readUnit 0x3C l with
  | none => readText l
  | some l =>
    match readUnit 0x2F l with
    | none => readStartTag l
    | some l => readEndTag l

/-- All tokens of a text. The first argument bounds their number. -/
def tokens : ℕ → Units → Option (List Token)
  | _, [] => some []
  | 0, _ :: _ => none
  | fuel + 1, c :: l => do
    let (t, l) ← readToken (c :: l)
    let ts ← tokens fuel l
    some (t :: ts)

/-- The tags match, within the elements `names` that are open, and there is nothing behind the end of
the root. No tag has two attributes of one name. -/
def nested : (names : List Units) → List Token → Bool
  | names, [] => names.isEmpty
  | names, .startTag name attributes :: ts =>
    decide (attributes.map Prod.fst).Nodup && nested (name :: names) ts
  | names, .text _ :: ts => !names.isEmpty && nested names ts
  | [], .endTag _ :: _ => false
  | m :: names, .endTag name :: ts =>
    m == name && (!names.isEmpty || ts.isEmpty) && nested names ts

/-- The tokens of a document, which has one root and may end with white space. -/
def content (document : Units) : Option (List Token) :=
  let body := document.rdropWhile isSpace
  match tokens body.length body with
  | some (t :: ts) => if nested [] (t :: ts) then some (t :: ts) else none
  | _ => none

/-- The text is a document of the kind that is read here. -/
def WellFormed (document : Units) : Prop := (content document).isSome

/-- What a reader calls back with: the tags as they are, and each text in pieces of its choice. -/
inductive Reports : List Token → List Token → Prop
  | nil : Reports [] []
  | tag {t : Token} {ts cs : List Token} (h : t.isTag) (hs : Reports ts cs) :
      Reports (t :: ts) (t :: cs)
  | text {pieces : List Units} {ts cs : List Token} (h : ∀ p ∈ pieces, p ≠ [])
      (hs : Reports ts cs) : Reports (.text pieces.flatten :: ts) (pieces.map .text ++ cs)

/-- A reader that reports well-formed documents correctly. -/
structure Reader where
  /-- The calls for a document, in order, that are possible. -/
  reports : Units → List Token → Prop
  /-- For a document that can be read, they report its content. -/
  reports_content : ∀ {document ts cs},
    content document = some ts → reports document cs → Reports ts cs

/-- The reader that may do all that is correct. -/
def Reader.full : Reader where
  reports document cs := ∃ ts, content document = some ts ∧ Reports ts cs
  reports_content hts h := by
    obtain ⟨us, hus, hcs⟩ := h
    obtain rfl : us = _ := Option.some.inj (hus.symm.trans hts)
    exact hcs

/-! ## What is written is read -/

theorem span_append {p : UInt16 → Bool} {l rest : Units} (hl : l.all p)
    (hrest : ∀ c ∈ rest.head?, ¬ p c) :
    (l ++ rest).takeWhile p = l ∧ (l ++ rest).dropWhile p = rest := by
  rw [List.all_eq_true] at hl
  rw [List.takeWhile_append_of_pos hl, List.dropWhile_append_of_pos hl]
  cases rest with
  | nil => simp
  | cons c rest =>
    have hc : ¬ p c = true := hrest c rfl
    rw [List.takeWhile_cons_of_neg hc, List.dropWhile_cons_of_neg hc]
    simp

@[simp] theorem readUnit_cons_self {c : UInt16} {l : Units} : readUnit c (c :: l) = some l := by
  simp [readUnit]

theorem readUnit_cons_of_ne {c d : UInt16} {l : Units} (h : d ≠ c) : readUnit c (d :: l) = none := by
  simp [readUnit, h]

theorem readName_append {name rest : Units} (h : IsName name)
    (hrest : ∀ c ∈ rest.head?, ¬ isNameChar c) : readName (name ++ rest) = some (name, rest) := by
  obtain ⟨htake, hdrop⟩ := span_append h.1 hrest
  rw [readName, htake, hdrop, if_pos h]

theorem readAttribute_write {a : Units × Units} {rest : Units} (hname : IsName a.1)
    (hvalue : IsValue a.2) :
    readAttribute (a.1 ++ 0x3D :: 0x22 :: (a.2 ++ 0x22 :: rest)) = some (a, rest) := by
  have hequals : ∀ c ∈ (0x3D :: 0x22 :: (a.2 ++ 0x22 :: rest)).head?, ¬ isNameChar c := by
    simp [show isNameChar 0x3D = false by decide]
  have hquote : ∀ c ∈ (0x22 :: rest).head?, ¬ isValueChar c := by
    simp [show isValueChar 0x22 = false by decide]
  obtain ⟨htake, hdrop⟩ := span_append hvalue hquote
  simp [readAttribute, readName_append hname hequals, htake, hdrop]

theorem readAttributes_write {as : List (Units × Units)} {rest : Units}
    (h : ∀ a ∈ as, IsName a.1 ∧ IsValue a.2) (fuel : ℕ) :
    readAttributes (fuel + as.length + 1) (as.flatMap writeAttribute ++ 0x3E :: rest) =
      some (as, rest) := by
  induction as with
  | nil => simp [readAttributes]
  | cons a as ih =>
    obtain ⟨hname, hvalue⟩ := h a (by simp)
    have hrest := ih fun b hb => h b (by simp [hb])
    have hwrite : (a :: as).flatMap writeAttribute ++ 0x3E :: rest =
        0x20 :: (a.1 ++ 0x3D :: 0x22 :: (a.2 ++ 0x22 ::
          (as.flatMap writeAttribute ++ 0x3E :: rest))) := by
      simp [writeAttribute]
    rw [hwrite, List.length_cons, ← Nat.add_assoc, readAttributes,
      readUnit_cons_of_ne (by decide)]
    simp [readAttribute_write hname hvalue, hrest]

theorem length_le_flatMap_writeAttribute (as : List (Units × Units)) :
    as.length ≤ (as.flatMap writeAttribute).length := by
  induction as with
  | nil => simp
  | cons a as ih =>
    simp only [List.flatMap_cons, List.length_append, List.length_cons, writeAttribute]
    omega

theorem head_attributes (as : List (Units × Units)) (rest : Units) :
    ∀ c ∈ (as.flatMap writeAttribute ++ 0x3E :: rest).head?, ¬ isNameChar c := by
  cases as with
  | nil => simp [show isNameChar 0x3E = false by decide]
  | cons a as => simp [writeAttribute, show isNameChar 0x20 = false by decide]

theorem IsName.head_ne {name : Units} (h : IsName name) (rest : Units) :
    ∃ c l, name ++ rest = c :: l ∧ c ≠ 0x2F := by
  obtain ⟨_, hhead⟩ := h
  cases name with
  | nil => simp at hhead
  | cons c l =>
    refine ⟨c, l ++ rest, rfl, ?_⟩
    rintro rfl
    exact absurd hhead (by simp [show isNameStart 0x2F = false by decide])

theorem readToken_startTag {name rest : Units} {as : List (Units × Units)}
    (h : (Token.startTag name as).Valid) :
    readToken ((Token.startTag name as).write ++ rest) = some (.startTag name as, rest) := by
  obtain ⟨hname, has⟩ := h
  obtain ⟨c, l, hl, hc⟩ := hname.head_ne (as.flatMap writeAttribute ++ 0x3E :: rest)
  have hlength : (as.flatMap writeAttribute ++ 0x3E :: rest).length =
      ((as.flatMap writeAttribute).length - as.length + rest.length) + as.length + 1 := by
    have := length_le_flatMap_writeAttribute as
    simp only [List.length_append, List.length_cons]
    omega
  have hwrite : (Token.startTag name as).write ++ rest =
      0x3C :: (name ++ (as.flatMap writeAttribute ++ 0x3E :: rest)) := by
    simp [Token.write]
  have hslash : readUnit 0x2F (name ++ (as.flatMap writeAttribute ++ 0x3E :: rest)) = none := by
    rw [hl, readUnit_cons_of_ne hc]
  simp only [hwrite, readToken, readUnit_cons_self, hslash, readStartTag,
    readName_append hname (head_attributes as rest), Option.bind_eq_bind, Option.bind_some,
    hlength, readAttributes_write has]

theorem readToken_endTag {name rest : Units} (h : IsName name) :
    readToken ((Token.endTag name).write ++ rest) = some (.endTag name, rest) := by
  have hbracket : ∀ c ∈ (0x3E :: rest).head?, ¬ isNameChar c := by
    simp [show isNameChar 0x3E = false by decide]
  simp [Token.write, readToken, readEndTag, readName_append h hbracket]

theorem isTextChar_ne {c : UInt16} (h : isTextChar c) : (c != 0x3C) = true := by
  simp only [isTextChar, Bool.and_eq_true] at h
  exact h.2

/-- A text is read up to the next tag. -/
theorem readToken_text {l rest : Units} (h : IsText l)
    (hrest : ∀ c ∈ rest.head?, ¬ (c != 0x3C) = true) :
    readToken ((Token.text l).write ++ rest) = some (.text l, rest) := by
  obtain ⟨hne, hall, _⟩ := id h
  have hlt : l.all (· != 0x3C) := by
    rw [List.all_eq_true] at hall ⊢
    intro c hc
    exact isTextChar_ne (hall c hc)
  obtain ⟨htake, hdrop⟩ := span_append hlt hrest
  obtain ⟨c, l', rfl⟩ := List.exists_cons_of_ne_nil hne
  have hc : c ≠ 0x3C := by simpa using (List.all_eq_true.1 hlt) c (by simp)
  have hunit : readUnit 0x3C ((c :: l') ++ rest) = none := readUnit_cons_of_ne hc
  simp only [Token.write, readToken, hunit, readText, htake, hdrop, if_pos h]

theorem write_ne_nil {t : Token} (h : t.Valid) : t.write ≠ [] := by
  cases t with
  | startTag name attributes => simp [Token.write]
  | text l => exact h.1
  | endTag name => simp [Token.write]

theorem length_le_flatMap_write {ts : List Token} (h : ∀ t ∈ ts, t.Valid) :
    ts.length ≤ (ts.flatMap Token.write).length := by
  induction ts with
  | nil => simp
  | cons t ts ih =>
    have ht := List.length_pos_of_ne_nil (write_ne_nil (h t (by simp)))
    have hts := ih fun u hu => h u (by simp [hu])
    simp only [List.flatMap_cons, List.length_append, List.length_cons]
    omega

/-- What follows a text begins with a tag, or there is nothing. -/
theorem head_after_text {l : Units} {ts : List Token} (h : Separated (.text l :: ts)) :
    ∀ c ∈ (ts.flatMap Token.write).head?, ¬ (c != 0x3C) = true := by
  cases ts with
  | nil => simp
  | cons t ts =>
    have ht : t.isTag = true := by simpa [Token.isTag] using (List.isChain_cons_cons.1 h).1
    cases t with
    | text l' => simp [Token.isTag] at ht
    | startTag name attributes => simp [Token.write]
    | endTag name => simp [Token.write]

theorem readToken_write {t : Token} {ts : List Token} (h : t.Valid) (hs : Separated (t :: ts)) :
    readToken (t.write ++ ts.flatMap Token.write) = some (t, ts.flatMap Token.write) := by
  cases t with
  | startTag name attributes => exact readToken_startTag h
  | text l => exact readToken_text h (head_after_text hs)
  | endTag name => exact readToken_endTag h

theorem tokens_write {ts : List Token} (h : ∀ t ∈ ts, t.Valid) (hs : Separated ts) (fuel : ℕ) :
    tokens (fuel + ts.length) (ts.flatMap Token.write) = some ts := by
  induction ts with
  | nil => simp [tokens]
  | cons t ts ih =>
    have hts := ih (fun u hu => h u (by simp [hu])) hs.tail
    have ht : t.Valid := h t (by simp)
    have hread := readToken_write ht hs
    obtain ⟨c, l, hl⟩ := List.exists_cons_of_ne_nil
      (List.append_ne_nil_of_left_ne_nil (write_ne_nil ht) (ts.flatMap Token.write))
    rw [List.flatMap_cons, List.length_cons, ← Nat.add_assoc, hl, tokens, ← hl, hread]
    simp [hts]

/-! ## What is read is valid -/

theorem valid_readName {l rest name : Units} (h : readName l = some (name, rest)) :
    IsName name := by
  unfold readName at h
  split at h
  · next hname =>
    simp only [Option.some.injEq, Prod.mk.injEq] at h
    exact h.1 ▸ hname
  · simp at h

theorem valid_readAttribute {l rest : Units} {a : Units × Units}
    (h : readAttribute l = some (a, rest)) : IsName a.1 ∧ IsValue a.2 := by
  simp only [readAttribute, Option.bind_eq_bind, Option.bind_eq_some_iff, Option.some.injEq,
    Prod.mk.injEq, Prod.exists] at h
  obtain ⟨name, l₁, hname, l₂, -, l₃, -, l₄, -, rfl, -⟩ := h
  exact ⟨valid_readName hname, List.all_takeWhile⟩

theorem valid_readAttributes {as : List (Units × Units)} {fuel : ℕ} {l rest : Units}
    (h : readAttributes fuel l = some (as, rest)) : ∀ a ∈ as, IsName a.1 ∧ IsValue a.2 := by
  induction fuel generalizing l rest as with
  | zero => simp [readAttributes] at h
  | succ fuel ih =>
    unfold readAttributes at h
    split at h
    · obtain ⟨rfl, -⟩ := by simpa using h
      simp
    · simp only [Option.bind_eq_bind, Option.bind_eq_some_iff, Option.some.injEq, Prod.mk.injEq,
        Prod.exists] at h
      obtain ⟨l₁, -, n, v, l₂, ha, bs, l₃, hbs, rfl, -⟩ := h
      intro b hb
      rcases List.mem_cons.1 hb with rfl | hb
      · exact valid_readAttribute ha
      · exact ih hbs b hb

theorem valid_readToken {l rest : Units} {t : Token} (h : readToken l = some (t, rest)) :
    t.Valid := by
  unfold readToken at h
  split at h
  · unfold readText at h
    split at h
    · next htext =>
      simp only [Option.some.injEq, Prod.mk.injEq] at h
      exact h.1 ▸ htext
    · simp at h
  · split at h
    · simp only [readStartTag, Option.bind_eq_bind, Option.bind_eq_some_iff, Option.some.injEq,
        Prod.mk.injEq, Prod.exists] at h
      obtain ⟨name, l₁, hname, as, l₂, has, rfl, -⟩ := h
      exact ⟨valid_readName hname, valid_readAttributes has⟩
    · simp only [readEndTag, Option.bind_eq_bind, Option.bind_eq_some_iff, Option.some.injEq,
        Prod.mk.injEq, Prod.exists] at h
      obtain ⟨name, l₁, hname, l₂, -, rfl, -⟩ := h
      exact valid_readName hname

theorem valid_tokens {ts : List Token} {fuel : ℕ} {l : Units} (h : tokens fuel l = some ts) :
    ∀ t ∈ ts, t.Valid := by
  induction fuel generalizing l ts with
  | zero =>
    cases l with
    | nil => simp_all [tokens]
    | cons c l => simp [tokens] at h
  | succ fuel ih =>
    cases l with
    | nil => simp_all [tokens]
    | cons c l =>
      simp only [tokens, Option.bind_eq_bind, Option.bind_eq_some_iff, Option.some.injEq,
        Prod.exists] at h
      obtain ⟨t, l₁, ht, us, hus, rfl⟩ := h
      intro u hu
      rcases List.mem_cons.1 hu with rfl | hu
      · exact valid_readToken ht
      · exact ih hus u hu

theorem valid_content {ts : List Token} {document : Units} (h : content document = some ts) :
    ∀ t ∈ ts, t.Valid := by
  unfold content at h
  simp only at h
  split at h
  · next t us hts =>
    split at h
    · obtain rfl : t :: us = ts := by simpa using h
      exact valid_tokens hts
    · simp at h
  · simp at h

/-! ## Reports -/

theorem IsText.piece {l p : Units} (h : IsText l) (hp : p <:+: l) (hne : p ≠ []) : IsText p := by
  obtain ⟨_, hall, hend⟩ := h
  refine ⟨hne, ?_, fun hmark => hend (hmark.trans hp)⟩
  rw [List.all_eq_true] at hall ⊢
  exact fun c hc => hall c (hp.subset hc)

theorem Reports.refl {ts : List Token} (h : .text [] ∉ ts) : Reports ts ts := by
  induction ts with
  | nil => exact .nil
  | cons t ts ih =>
    have hts := ih fun hmem => h (List.mem_cons_of_mem t hmem)
    cases t with
    | text l =>
      have hl : l ≠ [] := by
        rintro rfl
        exact h List.mem_cons_self
      have hone : Reports (.text [l].flatten :: ts) ([l].map .text ++ ts) :=
        .text (by simpa using hl) hts
      simpa using hone
    | startTag name attributes => exact .tag rfl hts
    | endTag name => exact .tag rfl hts

theorem Reports.valid {ts cs : List Token} (h : Reports ts cs) (hts : ∀ t ∈ ts, t.Valid) :
    ∀ c ∈ cs, c.Valid := by
  induction h with
  | nil => simp
  | tag _ _ ih =>
    intro c hc
    rcases List.mem_cons.1 hc with rfl | hc
    · exact hts _ (by simp)
    · exact ih (fun t ht => hts t (by simp [ht])) c hc
  | text hpieces _ ih =>
    intro c hc
    rcases List.mem_append.1 hc with hc | hc
    · obtain ⟨p, hp, rfl⟩ := List.mem_map.1 hc
      have htext : IsText _ := hts (.text _) List.mem_cons_self
      exact htext.piece (List.infix_of_mem_flatten hp) (hpieces p hp)
    · exact ih (fun t ht => hts t (by simp [ht])) c hc

/-- A report without two texts in a row has each text in one piece. -/
theorem Reports.eq_of_separated {ts cs : List Token} (h : Reports ts cs)
    (hts : ∀ t ∈ ts, t.Valid) (hs : Separated cs) : cs = ts := by
  induction h with
  | nil => rfl
  | tag _ _ ih => rw [ih (fun t ht => hts t (by simp [ht])) hs.tail]
  | @text pieces ts cs hpieces _ ih =>
    have hne : pieces.flatten ≠ [] := (hts (.text pieces.flatten) (by simp)).1
    rcases pieces with _ | ⟨p, _ | ⟨q, pieces⟩⟩
    · exact absurd rfl hne
    · rw [ih (fun t ht => hts t (by simp [ht])) hs.tail]
      simp
    · simpa [Token.isTag] using (List.isChain_cons_cons.1 hs).1

end Xml
