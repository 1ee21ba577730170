import DeepSecurity.CaptureHpc.EventController
import Mathlib.Algebra.GroupWithZero.Nat
import Mathlib.Data.List.Chain

/-!
# What survives printing and reading an element

An element that is printed without characters that need an escape is read as its own tags and texts.
The callbacks then rebuild it unless one of them loses something: a start tag that makes no element,
or data that overwrite other data. What is lost is never made up for, which the weight of an element,
the number of its elements and bytes, shows.
-/

namespace CaptureHpc

open Xml

namespace Element

/-! ## Printing -/

theorem toUInt8_widen (c : UInt8) : (widen c).toUInt8 = c := by
  unfold widen
  split
  · exact UInt8.toUInt8_toUInt16 c
  · rw [UInt16.toUInt8_add, UInt8.toUInt8_toUInt16]
    exact UInt8.zero_add c

theorem toUInt8_map_widen (data : List UInt8) : (data.map widen).map UInt16.toUInt8 = data := by
  simp [Function.comp_def, toUInt8_widen]

theorem widen_toUInt8 {c : UInt16} (h : isTextChar c) : widen c.toUInt8 = c := by
  have hc : c.toNat ≤ 127 := by
    simp only [isTextChar, Bool.and_eq_true, Bool.or_eq_true, decide_eq_true_eq, beq_iff_eq] at h
    obtain ⟨⟨(⟨-, h⟩ | rfl) | rfl, -⟩, -⟩ := h
    · exact UInt16.le_iff_toNat_le.1 h
    · decide
    · decide
  have hlow : c.toUInt8 < 0x80 := by
    rw [UInt8.lt_iff_toNat_lt, UInt16.toNat_toUInt8]
    show c.toNat % 256 < 128
    omega
  rw [widen, if_pos hlow]
  apply UInt16.toNat_inj.1
  rw [UInt8.toNat_toUInt16, UInt16.toNat_toUInt8]
  omega

/-- The bytes of a text are printed as the text. -/
theorem widen_map_toUInt8 {l : Units} (h : IsText l) :
    (l.map UInt16.toUInt8).map widen = l := by
  rw [List.map_map]
  apply (List.map_congr_left _).trans l.map_id
  intro c hc
  exact widen_toUInt8 (List.all_eq_true.1 h.2.1 c hc)

theorem dataToString_eq {data : List UInt8} (h : data ≠ [] → IsText (data.map widen)) :
    dataToString data = (dataTokens data).flatMap Token.write := by
  unfold dataToString dataTokens
  split
  · next hnil => simp [hnil]
  · next hne =>
    have hnull : ∀ c ∈ data.map widen, (c != 0) = true := by
      intro c hc
      have hchar := List.all_eq_true.1 (h hne).2.1 c hc
      rw [bne_iff_ne]
      rintro rfl
      exact absurd hchar (by decide)
    rw [List.takeWhile_eq_self_iff.2 hnull]
    simp [Token.write]

mutual

theorem toStringWithoutNewLine_eq : (e : Element) → e.Plain →
    e.toStringWithoutNewLine = e.tokens.flatMap Token.write
  | ⟨name, attributes, childElements, data⟩, h => by
    obtain ⟨_, _, hdata, hchildren⟩ := h
    simp [toStringWithoutNewLine, tokens, Token.write, dataToString_eq hdata,
      childrenToString_eq childElements hchildren]

theorem childrenToString_eq : (es : List Element) → AllPlain es →
    childrenToString es = (childrenTokens es).flatMap Token.write
  | [], _ => rfl
  | e :: es, h => by
    rw [childrenToString, childrenTokens, List.flatMap_append, toStringWithoutNewLine_eq e h.1,
      childrenToString_eq es h.2]

end

mutual

theorem valid_tokens : (e : Element) → e.Plain → ∀ t ∈ e.tokens, t.Valid
  | ⟨name, attributes, childElements, data⟩, h => by
    obtain ⟨hname, hattributes, hdata, hchildren⟩ := h
    intro t ht
    simp only [tokens, List.mem_cons, List.mem_append, List.not_mem_nil, or_false] at ht
    rcases ht with rfl | ht | ht | rfl
    · exact ⟨hname, hattributes⟩
    · exact valid_childrenTokens childElements hchildren t ht
    · unfold dataTokens at ht
      split at ht
      · simp at ht
      · next hne =>
        obtain rfl := List.mem_singleton.1 ht
        exact hdata hne
    · exact hname

theorem valid_childrenTokens : (es : List Element) → AllPlain es → ∀ t ∈ childrenTokens es, t.Valid
  | [], _ => by simp [childrenTokens]
  | e :: es, h => by
    intro t ht
    rw [childrenTokens, List.mem_append] at ht
    rcases ht with ht | ht
    · exact valid_tokens e h.1 t ht
    · exact valid_childrenTokens es h.2 t ht

end

mutual

/-- An element ends with a tag, so anything may follow it. -/
theorem separated_tokens : (e : Element) → (ts : List Token) → Separated ts →
    Separated (e.tokens ++ ts)
  | ⟨name, attributes, childElements, data⟩, ts, h => by
    have hend : Separated (.endTag name :: ts) := h.cons_tag rfl
    have hdata : Separated (dataTokens data ++ .endTag name :: ts) := by
      unfold dataTokens
      split
      · exact hend
      · exact List.isChain_cons_cons.2 ⟨.inr rfl, hend⟩
    have hchildren := separated_childrenTokens childElements _ hdata
    simpa [tokens] using hchildren.cons_tag (t := .startTag name attributes) rfl

theorem separated_childrenTokens : (es : List Element) → (ts : List Token) → Separated ts →
    Separated (childrenTokens es ++ ts)
  | [], _, h => h
  | e :: es, ts, h => by
    rw [childrenTokens, List.append_assoc]
    exact separated_tokens e _ (separated_childrenTokens es ts h)

end

mutual

theorem nested_tokens : (e : Element) → e.DistinctAttributes → (names : List Units) →
    (ts : List Token) →
    nested names (e.tokens ++ ts) = ((!names.isEmpty || ts.isEmpty) && nested names ts)
  | ⟨name, attributes, childElements, data⟩, h, names, ts => by
    obtain ⟨hnodup, hchildren⟩ := h
    have hdata : nested (name :: names) (dataTokens data ++ .endTag name :: ts) =
        nested (name :: names) (.endTag name :: ts) := by
      unfold dataTokens
      split <;> simp [nested]
    have hrest := nested_childrenTokens childElements hchildren name names
      (dataTokens data ++ .endTag name :: ts)
    simp [tokens, nested, hnodup, hrest, hdata]

theorem nested_childrenTokens : (es : List Element) → AllDistinctAttributes es → (name : Units) →
    (names : List Units) → (ts : List Token) →
    nested (name :: names) (childrenTokens es ++ ts) = nested (name :: names) ts
  | [], _, _, _, _ => rfl
  | e :: es, h, name, names, ts => by
    rw [childrenTokens, List.append_assoc, nested_tokens e h.1, nested_childrenTokens es h.2]
    simp

end

/-- A carriage return and a line feed behind the root are not part of the content. -/
theorem body_toString (e : Element) :
    e.toString.rdropWhile isSpace = e.toStringWithoutNewLine := by
  obtain ⟨name, attributes, childElements, data⟩ := e
  have hlast : toStringWithoutNewLine ⟨name, attributes, childElements, data⟩ =
      (0x3C :: (name ++ (attributes.flatMap writeAttribute ++ [0x3E])) ++
        childrenToString childElements ++ dataToString data ++ 0x3C :: 0x2F :: name) ++ [0x3E] := by
    simp [toStringWithoutNewLine]
  rw [toString, hlast, ← List.singleton_append (l := [0x0A]), ← List.append_assoc,
    List.rdropWhile_concat_pos _ _ _ (by decide), List.rdropWhile_concat_pos _ _ _ (by decide),
    List.rdropWhile_concat_neg _ _ _ (by decide)]

/-- A document that is well formed has no other content than the element. -/
theorem tokens_toString {e : Element} (h : e.Plain) :
    Xml.tokens (e.toString.rdropWhile isSpace).length (e.toString.rdropWhile isSpace) =
      some e.tokens := by
  have hvalid := valid_tokens e h
  have hseparated : Separated e.tokens := by
    simpa using separated_tokens e [] .nil
  have hlength := length_le_flatMap_write hvalid
  rw [body_toString, toStringWithoutNewLine_eq e h]
  obtain ⟨fuel, hfuel⟩ := Nat.exists_eq_add_of_le' hlength
  rw [hfuel]
  exact tokens_write hvalid hseparated fuel

/-! ## Weight -/

mutual

/-- The number of elements and bytes. -/
def weight : Element → ℕ
  | ⟨_, _, childElements, data⟩ => 1 + weightAll childElements + data.length

def weightAll : List Element → ℕ
  | [] => 0
  | e :: es => weight e + weightAll es

end

theorem weight_eq (e : Element) : e.weight = 1 + weightAll e.childElements + e.data.length := by
  cases e
  rw [weight]

theorem weightAll_append (es fs : List Element) :
    weightAll (es ++ fs) = weightAll es + weightAll fs := by
  induction es with
  | nil => simp [weightAll]
  | cons e es ih =>
    rw [List.cons_append, weightAll, weightAll, ih]
    omega

/-- What the callback can add to the weight. -/
def tokenWeight : Token → ℕ
  | .startTag _ _ => 1
  | .text l => l.length
  | .endTag _ => 0

def tokensWeight (ts : List Token) : ℕ := (ts.map tokenWeight).sum

theorem tokensWeight_append (ts us : List Token) :
    tokensWeight (ts ++ us) = tokensWeight ts + tokensWeight us := by
  simp [tokensWeight]

theorem tokensWeight_reports {ts cs : List Token} (h : Reports ts cs) :
    tokensWeight cs = tokensWeight ts := by
  induction h with
  | nil => rfl
  | tag _ _ ih => simpa [tokensWeight] using ih
  | @text pieces ts cs _ _ ih =>
    have hpieces : tokensWeight (pieces.map .text) = pieces.flatten.length := by
      simp [tokensWeight, tokenWeight, Function.comp_def, List.length_flatten]
    rw [tokensWeight_append, hpieces, ih]
    simp [tokensWeight, tokenWeight]

mutual

theorem tokensWeight_tokens : (e : Element) → tokensWeight e.tokens = e.weight
  | ⟨name, attributes, childElements, data⟩ => by
    have hdata : tokensWeight (dataTokens data) = data.length := by
      unfold dataTokens
      split
      · next hnil => simp [hnil, tokensWeight]
      · simp [tokensWeight, tokenWeight]
    have hchildren := tokensWeight_childrenTokens childElements
    have hends : tokensWeight [.endTag name] = 0 := rfl
    show tokensWeight ([.startTag name attributes] ++
      (childrenTokens childElements ++ (dataTokens data ++ [.endTag name]))) = _
    rw [tokensWeight_append, tokensWeight_append, tokensWeight_append, hdata, hchildren, hends,
      weight]
    show 1 + _ = _
    omega

theorem tokensWeight_childrenTokens : (es : List Element) →
    tokensWeight (childrenTokens es) = weightAll es
  | [] => rfl
  | e :: es => by
    rw [childrenTokens, tokensWeight_append, tokensWeight_tokens e, tokensWeight_childrenTokens es,
      weightAll]

end

/-- What comes before the end tag. -/
def opening (e : Element) : List Token :=
  .startTag e.name e.attributes :: (childrenTokens e.childElements ++ dataTokens e.data)

theorem tokens_eq (e : Element) : e.tokens = e.opening ++ [.endTag e.name] := by
  cases e
  simp [tokens, opening]

end Element

namespace EventController

open Element

variable {asserts : Bool} {s : EventController}

def weight (s : EventController) : ℕ := weightAll s.path + weightAll s.notified

theorem weight_startElement (name : Units) (atts : List (Units × Units)) :
    (s.startElement name atts).weight ≤ s.weight + 1 := by
  unfold startElement weight
  split
  · next hpath =>
    simp only [hpath, weightAll, weight_eq, List.length_nil]
    omega
  · next current parents hpath =>
    split <;> simp only [hpath, weightAll, weight_eq, List.length_nil] <;> omega

/-- A start tag with the name of the open element makes no element. -/
theorem weight_startElement_same {name : Units} {atts : List (Units × Units)} {current : Element}
    {parents : List Element} (hpath : s.path = current :: parents) (hname : current.name = name) :
    (s.startElement name atts).weight = s.weight := by
  simp [startElement, weight, hpath, hname, weightAll, weight_eq]

/-- What an element has of data is lost with the next callback. -/
theorem weight_charData (data : List UInt8) {current : Element} {parents : List Element}
    (hpath : s.path = current :: parents) :
    (s.charData data).weight + current.data.length = s.weight + data.length := by
  simp only [charData, weight, hpath, weightAll, weight_eq]
  omega

theorem weight_charData_le (data : List UInt8) :
    (s.charData data).weight ≤ s.weight + data.length := by
  cases hpath : s.path with
  | nil => simp [charData, weight, hpath]
  | cons current parents =>
    have := weight_charData data hpath
    omega

theorem weight_endElement (name : Units) :
    (s.endElement asserts name).weight = s.weight := by
  unfold endElement notifyListeners weight
  split
  · rfl
  · next current hpath =>
    split
    · simp only [hpath, weightAll_append, weightAll]
      omega
    · rfl
  · next current parent rest hpath =>
    split
    · simp only [hpath, weightAll, weight_eq, weightAll_append]
      omega
    · rfl

theorem weight_step (asserts : Bool) (s : EventController) (c : Token) :
    (step asserts s c).weight ≤ s.weight + tokenWeight c := by
  unfold step
  split
  · omega
  · cases c with
    | startTag name atts => exact weight_startElement name atts
    | text l => simpa [tokenWeight] using weight_charData_le (l.map UInt16.toUInt8)
    | endTag name => exact (weight_endElement name).le

theorem run_cons (c : Token) (cs : List Token) :
    run asserts s (c :: cs) = run asserts (step asserts s c) cs := rfl

theorem run_append (cs ds : List Token) :
    run asserts s (cs ++ ds) = run asserts (run asserts s cs) ds := List.foldl_append

theorem weight_run (asserts : Bool) (s : EventController) (cs : List Token) :
    (run asserts s cs).weight ≤ s.weight + tokensWeight cs := by
  induction cs generalizing s with
  | nil => simp [run, tokensWeight]
  | cons c cs ih =>
    have hstep := weight_step asserts s c
    have hrest := ih (step asserts s c)
    have hcons : tokensWeight (c :: cs) = tokenWeight c + tokensWeight cs := by
      simp [tokensWeight]
    rw [run_cons]
    omega

theorem run_of_down (h : s.down = true) (cs : List Token) : run asserts s cs = s := by
  induction cs with
  | nil => rfl
  | cons c cs ih =>
    have hstep : step asserts s c = s := by simp [step, h]
    rw [run_cons, hstep, ih]

/-! ## Callbacks that lose something -/

/-- The process ends, or there is less than the callbacks have brought. -/
def Loses (asserts : Bool) (s : EventController) (cs : List Token) : Prop :=
  (run asserts s cs).down = true ∨ (run asserts s cs).weight < s.weight + tokensWeight cs

theorem Loses.append {cs : List Token} (h : Loses asserts s cs) (ds : List Token) :
    Loses asserts s (cs ++ ds) := by
  unfold Loses at h ⊢
  rw [run_append, tokensWeight_append]
  rcases h with hdown | hweight
  · rw [run_of_down hdown]
    exact .inl hdown
  · have := weight_run asserts (run asserts s cs) ds
    right
    omega

theorem Loses.after {cs ds : List Token} (h : Loses asserts (run asserts s cs) ds) :
    Loses asserts s (cs ++ ds) := by
  unfold Loses at h ⊢
  rw [run_append, tokensWeight_append]
  have := weight_run asserts s cs
  rcases h with hdown | hweight
  · exact .inl hdown
  · right
    omega

/-- A second piece of data overwrites the first one. -/
theorem loses_texts {p q : Units} (hp : p ≠ []) : Loses asserts s [.text p, .text q] := by
  by_cases hdown : s.down = true
  · exact .inl (by rw [run_of_down hdown]; exact hdown)
  · cases hpath : s.path with
    | nil =>
      have hfirst : step asserts s (.text p) = { s with down := true } := by
        simp [step, hdown, charData, hpath]
      left
      rw [run_cons, hfirst, run_of_down rfl]
    | cons current parents =>
      right
      have hfirst : step asserts s (.text p) =
          { s with path := { current with data := p.map UInt16.toUInt8 } :: parents } := by
        simp [step, hdown, charData, hpath]
      have hsecond : run asserts s [.text p, .text q] =
          (step asserts s (.text p)).charData (q.map UInt16.toUInt8) := by
        rw [run_cons, hfirst]
        simp [run, step, hdown]
      have hp' := List.length_pos_of_ne_nil hp
      have hle := weight_step asserts s (.text p)
      rw [hfirst] at hle hsecond
      have hlast := weight_charData (q.map UInt16.toUInt8)
        (show { s with path := { current with data := p.map UInt16.toUInt8 } :: parents }.path =
          _ :: parents from rfl)
      rw [hsecond]
      simp only [tokensWeight, tokenWeight, List.map_cons, List.map_nil, List.sum_cons,
        List.sum_nil, List.length_map] at hle hlast ⊢
      omega

theorem loses_of_not_separated {cs : List Token} (hcs : ∀ c ∈ cs, c.Valid)
    (h : ¬ Separated cs) : Loses asserts s cs := by
  rw [Separated, List.isChain_iff_forall_rel_of_append_cons_cons] at h
  push Not at h
  obtain ⟨c, d, before, after, rfl, hc, hd⟩ := h
  cases c with
  | text p =>
    cases d with
    | text q =>
      have hp : p ≠ [] := (hcs (.text p) (by simp)).1
      exact (loses_texts (q := q) hp).append after |>.after
    | _ => exact absurd rfl hd
  | _ => exact absurd rfl hc

/-! ## Elements that are rebuilt -/

/-- Only a child of another name than `currentElement` is one of its own. -/
def Opens (s : EventController) (name : Units) : Prop := ∀ c ∈ s.path.head?, c.name ≠ name

theorem step_startTag {name : Units} {atts : List (Units × Units)} (hup : s.down = false)
    (h : s.Opens name) : step asserts s (.startTag name atts) =
      { s with path := ⟨name, atts, [], []⟩ :: s.path } := by
  cases hpath : s.path with
  | nil => simp [step, hup, startElement, hpath]
  | cons current parents =>
    have hname : current.name ≠ name := h current (by simp [hpath])
    simp [step, hup, startElement, hpath, hname]

theorem run_dataTokens (data : List UInt8) {name : Units} {atts : List (Units × Units)}
    {es parents : List Element} (hup : s.down = false) :
    run asserts { s with path := ⟨name, atts, es, []⟩ :: parents } (dataTokens data) =
      { s with path := ⟨name, atts, es, data⟩ :: parents } := by
  unfold dataTokens
  split
  · next hnil => simp [run, hnil]
  · simp only [run, List.foldl_cons, List.foldl_nil, step, hup, charData, toUInt8_map_widen]
    rfl

/-- The end tag puts an element into its parent. -/
theorem run_child {e current : Element} {parents : List Element} (hup : s.down = false)
    (hpath : s.path = current :: parents)
    (hopen : run asserts s e.opening = { s with path := e :: s.path }) :
    run asserts s e.tokens = { s with path :=
      { current with childElements := current.childElements ++ [e] } :: parents } := by
  rw [tokens_eq, run_append, hopen, hpath, run_cons]
  simp [run, step, hup, endElement]

theorem opens_of_ne {current : Element} {parents : List Element} {name : Units}
    (hpath : s.path = current :: parents) (hname : name ≠ current.name) : s.Opens name := by
  intro c hc
  rw [hpath, List.head?_cons, Option.mem_some_iff] at hc
  exact hc ▸ hname.symm

mutual

/-- Before its end tag an element is `currentElement`. -/
theorem run_opening (asserts : Bool) : (e : Element) → (s : EventController) → s.down = false →
    s.Opens e.name → e.NamesDiffer → run asserts s e.opening = { s with path := e :: s.path }
  | ⟨name, attributes, childElements, data⟩, s, hup, hopens, h => by
    have hchildren := run_childrenTokens asserts childElements
      { s with path := ⟨name, attributes, [], []⟩ :: s.path } hup rfl h
    rw [opening, run_cons, step_startTag hup hopens, run_append, hchildren]
    exact run_dataTokens data hup

theorem run_childrenTokens (asserts : Bool) : (es : List Element) → (s : EventController) →
    s.down = false → {current : Element} → {parents : List Element} →
    s.path = current :: parents → NamesDifferFrom current.name es →
    run asserts s (childrenTokens es) = { s with path :=
      { current with childElements := current.childElements ++ es } :: parents }
  | [], s, _, current, parents, hpath, _ => by
    cases current
    simp [run, childrenTokens, ← hpath]
  | e :: es, s, hup, current, parents, hpath, h => by
    obtain ⟨hname, hdiffer, hrest⟩ := h
    have hopen := run_opening asserts e s hup (opens_of_ne hpath hname) hdiffer
    have hchildren := run_childrenTokens asserts es { s with path :=
      { current with childElements := current.childElements ++ [e] } :: parents } hup rfl hrest
    rw [childrenTokens, run_append, run_child hup hpath hopen, hchildren]
    simp

end

mutual

/-- An element within an element of its name is lost. -/
theorem loses_tokens (asserts : Bool) : (e : Element) → (s : EventController) → s.down = false →
    s.Opens e.name → ¬ e.NamesDiffer → Loses asserts s e.tokens
  | ⟨name, attributes, childElements, data⟩, s, hup, hopens, h => by
    have hchildren := loses_childrenTokens asserts childElements
      { s with path := ⟨name, attributes, [], []⟩ :: s.path } hup rfl h
    have hstart : run asserts s [.startTag name attributes] =
        { s with path := ⟨name, attributes, [], []⟩ :: s.path } := by
      rw [run_cons, step_startTag hup hopens]
      rfl
    rw [← hstart] at hchildren
    rw [Element.tokens, ← List.singleton_append]
    exact (hchildren.append _).after

theorem loses_childrenTokens (asserts : Bool) : (es : List Element) → (s : EventController) →
    s.down = false → {current : Element} → {parents : List Element} →
    s.path = current :: parents → ¬ NamesDifferFrom current.name es →
    Loses asserts s (childrenTokens es)
  | [], _, _, _, _, _, h => absurd trivial h
  | e :: es, s, hup, current, parents, hpath, h => by
    rw [childrenTokens]
    by_cases hname : e.name = current.name
    · have hsame : Loses asserts s [.startTag e.name e.attributes] := by
        right
        have hstep : run asserts s [.startTag e.name e.attributes] =
            s.startElement e.name e.attributes := by simp [run, step, hup]
        rw [hstep, weight_startElement_same hpath hname.symm]
        simp [tokensWeight, tokenWeight]
      rw [tokens_eq, opening, List.append_assoc, ← List.singleton_append, List.append_assoc]
      exact hsame.append _
    by_cases hdiffer : e.NamesDiffer
    · have hrest : ¬ NamesDifferFrom current.name es := fun hrest => h ⟨hname, hdiffer, hrest⟩
      have hopen := run_opening asserts e s hup (opens_of_ne hpath hname) hdiffer
      have hchildren := loses_childrenTokens asserts es { s with path :=
        { current with childElements := current.childElements ++ [e] } :: parents } hup rfl hrest
      rw [← run_child hup hpath hopen] at hchildren
      exact hchildren.after
    · exact (loses_tokens asserts e s hup (opens_of_ne hpath hname) hdiffer).append _

end

/-! ## Only plain elements are rebuilt -/

theorem plain_iff {e : Element} : e.Plain ↔ IsName e.name ∧
    (∀ a ∈ e.attributes, IsName a.1 ∧ IsValue a.2) ∧ (e.data ≠ [] → IsText (e.data.map widen)) ∧
    AllPlain e.childElements := by
  cases e
  exact Iff.rfl

theorem allPlain_append {es fs : List Element} :
    AllPlain (es ++ fs) ↔ AllPlain es ∧ AllPlain fs := by
  induction es with
  | nil => simp [AllPlain]
  | cons e es ih => simp [AllPlain, ih, and_assoc]

/-- What has been read is plain. -/
structure PlainState (s : EventController) : Prop where
  path : AllPlain s.path
  notified : AllPlain s.notified

theorem PlainState.startElement {name : Units} {atts : List (Units × Units)} (h : PlainState s)
    (hc : (Token.startTag name atts).Valid) : PlainState (s.startElement name atts) := by
  obtain ⟨hpath, hnotified⟩ := h
  obtain ⟨hname, hatts⟩ := hc
  have hnew : (⟨name, atts, [], []⟩ : Element).Plain := plain_iff.2 ⟨hname, hatts, by simp, trivial⟩
  unfold EventController.startElement
  split
  · exact ⟨⟨hnew, trivial⟩, hnotified⟩
  · next current parents heq =>
    rw [heq] at hpath
    split
    · exact ⟨⟨hnew, hpath⟩, hnotified⟩
    · obtain ⟨hcurrent, hparents⟩ := hpath
      obtain ⟨hname', hatts', hdata, hchildren⟩ := plain_iff.1 hcurrent
      refine ⟨⟨plain_iff.2 ⟨hname', ?_, hdata, hchildren⟩, hparents⟩, hnotified⟩
      intro a ha
      rcases List.mem_append.1 ha with ha | ha
      · exact hatts' a ha
      · exact hatts a ha

theorem PlainState.charData {l : Units} (h : PlainState s) (hl : IsText l) :
    PlainState (s.charData (l.map UInt16.toUInt8)) := by
  obtain ⟨hpath, hnotified⟩ := h
  unfold EventController.charData
  split
  · exact ⟨hpath, hnotified⟩
  · next current parents heq =>
    rw [heq] at hpath
    obtain ⟨hcurrent, hparents⟩ := hpath
    obtain ⟨hname, hatts, _, hchildren⟩ := plain_iff.1 hcurrent
    refine ⟨⟨plain_iff.2 ⟨hname, hatts, fun _ => ?_, hchildren⟩, hparents⟩, hnotified⟩
    rw [widen_map_toUInt8 hl]
    exact hl

theorem PlainState.endElement {name : Units} (h : PlainState s) :
    PlainState (s.endElement asserts name) := by
  obtain ⟨hpath, hnotified⟩ := h
  unfold EventController.endElement notifyListeners
  split
  · exact ⟨hpath, hnotified⟩
  · next current heq =>
    split
    · rw [heq] at hpath
      exact ⟨trivial, allPlain_append.2 ⟨hnotified, hpath⟩⟩
    · exact ⟨hpath, hnotified⟩
  · next current parent rest heq =>
    split
    · rw [heq] at hpath
      obtain ⟨hcurrent, hparent, hrest⟩ := hpath
      obtain ⟨hname, hatts, hdata, hchildren⟩ := plain_iff.1 hparent
      have hchildren' : AllPlain (parent.childElements ++ [current]) :=
        allPlain_append.2 ⟨hchildren, hcurrent, trivial⟩
      exact ⟨⟨plain_iff.2 ⟨hname, hatts, hdata, hchildren'⟩, hrest⟩, hnotified⟩
    · exact ⟨hpath, hnotified⟩

theorem PlainState.run {cs : List Token} (h : PlainState s) (hcs : ∀ c ∈ cs, c.Valid) :
    PlainState (run asserts s cs) := by
  induction cs generalizing s with
  | nil => exact h
  | cons c cs ih =>
    have hc : c.Valid := hcs c (by simp)
    have hstep : PlainState (step asserts s c) := by
      unfold step
      split
      · exact h
      · cases c with
        | startTag name atts => exact h.startElement hc
        | text l => exact h.charData hc
        | endTag name => exact h.endElement
    exact ih hstep fun d hd => hcs d (by simp [hd])

/-! ## Round trips -/

theorem content_toString {e : Element} (h : e.Plain) :
    content e.toString = if nested [] e.tokens then some e.tokens else none := by
  rw [content, tokens_toString h, tokens_eq, opening]
  rfl

theorem wellFormed_toString {e : Element} (h : e.Plain) (hdistinct : e.DistinctAttributes) :
    WellFormed e.toString := by
  have hnested := nested_tokens e hdistinct [] []
  rw [List.append_nil] at hnested
  rw [WellFormed, content_toString h, hnested]
  rfl

/-- The callbacks of an element bring it to the listeners. -/
theorem rebuilds_tokens {e : Element} (h : e.Plain) (hnames : e.NamesDiffer) :
    Rebuilds asserts e e.tokens := by
  have hopen := run_opening asserts e {} rfl (by simp [Opens]) hnames
  have hname : e.name.length > 0 := by
    have hhead := (plain_iff.1 h).1.2
    cases hn : e.name with
    | nil => simp [hn] at hhead
    | cons c l => simp
  have hend : run asserts {} e.tokens = { notified := [e] } := by
    rw [tokens_eq, run_append, hopen, run_cons]
    simp [run, step, endElement, notifyListeners, hname]
  refine ⟨by rw [hend], by rw [hend], ?_⟩
  rw [tokens_eq, List.dropLast_concat, hopen]

theorem Rebuilds.not_loses {e : Element} {cs : List Token} (h : Rebuilds asserts e cs)
    (hweight : tokensWeight cs = e.weight) : ¬ Loses asserts {} cs := by
  rintro (hdown | hless)
  · rw [h.up] at hdown
    exact absurd hdown (by simp)
  · rw [weight, h.notified, hweight] at hless
    simp only [weightAll, weight] at hless
    omega

theorem rebuilds_iff (reader : Xml.Reader) (asserts : Bool) (e : Element) (cs : List Token)
    (h : reader.reports e.toString cs) :
    (WellFormed e.toString →
      (Rebuilds asserts e cs ↔ e.Plain ∧ e.NamesDiffer ∧ Separated cs)) ∧
    (e.Plain → e.DistinctAttributes → WellFormed e.toString) := by
  refine ⟨fun hwell => ?_, wellFormed_toString⟩
  obtain ⟨ts, hts⟩ := Option.isSome_iff_exists.1 hwell
  have hreports := reader.reports_content hts h
  have hvalid := valid_content hts
  -- the content of a plain element is the element
  have heq : e.Plain → ts = e.tokens := by
    intro hplain
    rw [content_toString hplain] at hts
    split at hts
    · simpa using hts.symm
    · simp at hts
  constructor
  · intro hrebuilds
    have hplain : e.Plain := by
      have hstate : PlainState (run asserts {} cs) :=
        PlainState.run ⟨trivial, trivial⟩ (hreports.valid hvalid)
      have := hstate.notified
      rw [hrebuilds.notified] at this
      exact this.1
    obtain rfl := heq hplain
    have hkeeps := hrebuilds.not_loses
      ((tokensWeight_reports hreports).trans (tokensWeight_tokens e))
    have hseparated : Separated cs := by
      by_contra hsplit
      exact hkeeps (loses_of_not_separated (hreports.valid hvalid) hsplit)
    refine ⟨hplain, ?_, hseparated⟩
    by_contra hnames
    rw [hreports.eq_of_separated hvalid hseparated] at hkeeps
    exact hkeeps (loses_tokens asserts e {} rfl (by simp [Opens]) hnames)
  · rintro ⟨hplain, hnames, hseparated⟩
    obtain rfl := heq hplain
    rw [hreports.eq_of_separated hvalid hseparated]
    exact rebuilds_tokens hplain hnames

/-- An element `a` with the attribute `x="1"` and a child `b` with the data `hi`. -/
def visit : Element :=
  ⟨[0x61], [([0x78], [0x31])], [⟨[0x62], [], [], [0x68, 0x69]⟩], []⟩

theorem rebuilds_visit : Rebuilds true visit visit.tokens := by
  have hplain : visit.Plain := by
    simp only [visit, Plain, AllPlain]
    decide
  have hdistinct : visit.DistinctAttributes := by
    simp only [visit, DistinctAttributes, AllDistinctAttributes]
    decide
  have hreports : Xml.Reader.full.reports visit.toString visit.tokens :=
    ⟨visit.tokens, by decide, Reports.refl (by decide)⟩
  obtain ⟨hiff, hwell⟩ := rebuilds_iff Xml.Reader.full true visit visit.tokens hreports
  exact (hiff (hwell hplain hdistinct)).2 ⟨hplain, by
    simp only [visit, NamesDiffer, NamesDifferFrom]
    decide, by decide⟩

/-- An element `a` with a child `a`, and an element with two bytes of data. -/
def nestedElement : Element := ⟨[0x61], [], [⟨[0x61], [], [], []⟩], []⟩

def dataElement : Element := ⟨[0x61], [], [], [0x68, 0x69]⟩

def splitReport : List Token :=
  [.startTag [0x61] [], .text [0x68], .text [0x69], .endTag [0x61]]

theorem not_rebuilds_nested_split :
    (Xml.Reader.full.reports nestedElement.toString nestedElement.tokens ∧
      ¬ Rebuilds false nestedElement nestedElement.tokens) ∧
    Xml.Reader.full.reports dataElement.toString splitReport ∧
      ¬ Rebuilds false dataElement splitReport := by
  refine ⟨⟨⟨nestedElement.tokens, by decide, Reports.refl (by decide)⟩, ?_⟩,
    ⟨dataElement.tokens, by decide, ?_⟩, ?_⟩
  · intro h
    exact absurd h.up (by decide)
  · have hpieces : ∀ p ∈ ([[0x68], [0x69]] : List Units), p ≠ [] := by simp
    have hend : Reports [.endTag [0x61]] [.endTag [0x61]] := .tag rfl .nil
    exact .tag rfl (Reports.text hpieces hend)
  · intro h
    have hdata : (run false {} splitReport).notified.map Element.data = [[0x69]] := by decide
    rw [h.notified] at hdata
    exact absurd hdata (by decide)

end EventController

end CaptureHpc
