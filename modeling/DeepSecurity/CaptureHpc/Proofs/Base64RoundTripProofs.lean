import DeepSecurity.CaptureHpc.Proofs.Base64Proofs
import DeepSecurity.Lib.Trace

/-!
# Proofs: what is encoded is decoded

The `int`s of the encoder may overflow, but they are still right as addresses, so that it does what
`encode` does. The decoder turns each group of four characters into three bytes, one round after the
group has been read.
-/

namespace CaptureHpc

namespace Base64

open StandardBase64 (digit group padding sextets)

/-! ## The encoder in 32-bit arithmetic -/

def EncodedBuffer.toInt32 (buf : EncodedBuffer ℕ) : EncodedBuffer Int32 := ⟨buf.mem, Int32.ofNat buf.k⟩

theorem toNat_ofNat_int32 {k : ℕ} (h : k < 2 ^ 32) : (Int32.ofNat k).toUInt32.toNat = k := by
  have hbits : (Int32.ofNat k).toUInt32 = UInt32.ofNat k := rfl
  rw [hbits, UInt32.toNat_ofNat', Nat.mod_eq_of_lt h]

theorem push_toInt32 {buf buf' : EncodedBuffer ℕ} {c : UInt8} (h : buf.push natural c = .ok buf')
    (hk : buf.k < 2 ^ 32) :
    buf'.k = buf.k + 1 ∧ buf.toInt32.push int32 c = .ok buf'.toInt32 := by
  obtain ⟨mem, hmem, hbuf'⟩ := Checked.bind_eq_ok.mp h
  obtain rfl := Except.ok.inj hbuf'
  refine ⟨rfl, ?_⟩
  have hnext : int32.next (Int32.ofNat buf.k) = Int32.ofNat (buf.k + 1) := by
    rw [Int32.ofNat_add]
    rfl
  have haddress : int32.address (Int32.ofNat buf.k) = natural.address buf.k := toNat_ofNat_int32 hk
  simp only [EncodedBuffer.push, EncodedBuffer.toInt32, haddress, hmem, hnext]
  rfl

theorem encodeBlock_toInt32 {x : List UInt8} {i : ℕ} {buf buf' : EncodedBuffer ℕ}
    (h : encodeBlock natural x buf i = .ok buf') (hk : buf.k + 4 ≤ 2 ^ 32) :
    buf'.k = buf.k + 4 ∧ encodeBlock int32 x buf.toInt32 i = .ok buf'.toInt32 := by
  simp only [encodeBlock, Checked.bind_eq_ok] at h
  obtain ⟨block, hblock, c1, hc1, b1, h1, c2, hc2, b2, h2, c3, hc3, b3, h3, c4, hc4, h4⟩ := h
  obtain ⟨hk1, p1⟩ := push_toInt32 h1 (by omega)
  obtain ⟨hk2, p2⟩ := push_toInt32 h2 (by omega)
  obtain ⟨hk3, p3⟩ := push_toInt32 h3 (by omega)
  obtain ⟨hk4, p4⟩ := push_toInt32 h4 (by omega)
  refine ⟨by omega, ?_⟩
  simp only [encodeBlock, hblock, hc1, p1, hc2, p2, hc3, p3, hc4, p4, bind, Except.bind]

theorem foldlM_encodeBlock_toInt32 {x : List UInt8} {l : List ℕ} {buf buf' : EncodedBuffer ℕ}
    (h : l.foldlM (encodeBlock natural x) buf = .ok buf') (hk : buf.k + 4 * l.length ≤ 2 ^ 32) :
    buf'.k = buf.k + 4 * l.length ∧
      l.foldlM (encodeBlock int32 x) buf.toInt32 = .ok buf'.toInt32 := by
  induction l generalizing buf with
  | nil =>
    rw [← Except.ok.inj h]
    exact ⟨rfl, rfl⟩
  | cons i l ih =>
    rw [List.foldlM_cons] at h
    obtain ⟨buf₁, hstep, hrest⟩ := Checked.bind_eq_ok.mp h
    simp only [List.length_cons] at hk ⊢
    obtain ⟨hk₁, hstep'⟩ := encodeBlock_toInt32 hstep (by omega)
    obtain ⟨hk', hrest'⟩ := ih hrest (by omega)
    refine ⟨by omega, ?_⟩
    rw [List.foldlM_cons, hstep']
    exact hrest'

theorem toNat_remainder {n : ℕ} (hn : n < 2 ^ 31) : (UInt32.ofNat n % 3).toNat = n % 3 := by
  have hlt : n < 2 ^ 32 := by omega
  rw [UInt32.toNat_mod, UInt32.toNat_ofNat', Nat.mod_eq_of_lt hlt]
  rfl

/-- The size of the buffer, although the product may overflow. -/
theorem allocated_int32 {n : ℕ} (hn : n < 2 ^ 31) : int32.allocated n = natural.allocated n := by
  have hrem : UInt32.ofNat n % 3 ≠ 0 ↔ n % 3 ≠ 0 := by
    rw [← toNat_remainder hn, ne_eq, ← UInt32.toNat_inj]
    rfl
  have hdiv : (UInt32.ofNat n / 3).toInt32 = Int32.ofNat (n / 3) := by
    have hnat : UInt32.ofNat n / 3 = UInt32.ofNat (n / 3) := by
      rw [← UInt32.toNat_inj, UInt32.toNat_div, UInt32.toNat_ofNat', UInt32.toNat_ofNat',
        Nat.mod_eq_of_lt (by omega), Nat.mod_eq_of_lt (by omega)]
      rfl
    rw [hnat]
    rfl
  have hblocks : (if UInt32.ofNat n % 3 ≠ 0 then (UInt32.ofNat n / 3).toInt32 + 1
      else (UInt32.ofNat n / 3).toInt32) = Int32.ofNat (if n % 3 ≠ 0 then n / 3 + 1 else n / 3) := by
    rw [hdiv]
    simp only [hrem]
    split_ifs
    · rw [Int32.ofNat_add]
      rfl
    · rfl
  have hsize : Int32.ofNat (if n % 3 ≠ 0 then n / 3 + 1 else n / 3) * 4 + 2 =
      Int32.ofNat ((if n % 3 ≠ 0 then n / 3 + 1 else n / 3) * 4 + 2) := by
    rw [Int32.ofNat_add, Int32.ofNat_mul]
    rfl
  simp only [int32, natural, hblocks, hsize]
  refine toNat_ofNat_int32 ?_
  split_ifs <;> omega

/-- The position of a padding character. -/
theorem padding_int32 {k i : ℕ} (hk : k < 2 ^ 32) (hi : i < 3) (hle : 3 - i ≤ k) :
    int32.padding (Int32.ofNat k) i = natural.padding k i := by
  show ((Int32.ofNat k).toUInt32 - (3 - UInt32.ofNat i)).toNat = k - (3 - i)
  have hsub : (3 - UInt32.ofNat i).toNat = 3 - i := by
    have hall : ∀ i < 3, (3 - UInt32.ofNat i).toNat = 3 - i := by decide
    exact hall i hi
  rw [UInt32.toNat_sub_of_le, toNat_ofNat_int32 hk, hsub]
  rw [UInt32.le_iff_toNat_le, toNat_ofNat_int32 hk, hsub]
  exact hle

/-- Below `2 ^ 31` bytes the encoder does the same in 32-bit arithmetic. -/
theorem encodeInt32_eq {x : List UInt8} (hx : x.length < 2 ^ 31) {buf : EncodedBuffer ℕ}
    (h : encode x = .ok buf) : encodeInt32 x = .ok buf.toInt32 := by
  simp only [encode, encodeWith] at h
  obtain ⟨buf₁, hfold, hpad⟩ := Checked.bind_eq_ok.mp h
  obtain ⟨hk, hfold'⟩ := foldlM_encodeBlock_toInt32 hfold (by simp [natural]; omega)
  have hzero : natural.zero = 0 := rfl
  simp only [List.length_range', hzero, Nat.zero_add] at hk
  have hstart : EncodedBuffer.toInt32 ⟨List.replicate (natural.allocated x.length) 0, natural.zero⟩ =
      ⟨List.replicate (natural.allocated x.length) 0, int32.zero⟩ := rfl
  rw [hstart] at hfold'
  have hremainder : int32.remainder x.length = natural.remainder x.length := toNat_remainder hx
  simp only [encodeInt32, encodeWith, allocated_int32 hx, hfold', hremainder, bind, Except.bind]
  split_ifs at hpad ⊢ with hr
  · obtain ⟨mem, hstore, hbuf⟩ := Checked.bind_eq_ok.mp hpad
    have hlt : natural.remainder x.length < 3 := Nat.mod_lt _ (by decide)
    have hpos : 0 < x.length := Nat.pos_of_ne_zero fun hzero => by
      simp [natural, hzero] at hr
    have hsame : (List.range' (natural.remainder x.length) (3 - natural.remainder x.length)).foldlM
        (fun mem i => store mem (int32.padding buf₁.toInt32.k i) 0x3D) buf₁.mem = .ok mem := by
      rw [← hstore]
      refine Trace.foldlM_congr fun mem i hi => ?_
      obtain ⟨hlo, hhi⟩ := List.mem_range'_1.mp hi
      rw [EncodedBuffer.toInt32, padding_int32 (by omega) (by omega) (by omega)]
    have hmem : buf₁.toInt32.mem = buf₁.mem := rfl
    rw [hmem, hsame, ← Except.ok.inj hbuf]
    rfl
  · rw [← Except.ok.inj hpad]
    rfl

/-! ## The decoder -/

/-- Four characters that are read together. -/
structure Quad where
  p : UInt8
  q : UInt8
  r : UInt8
  s : UInt8

namespace Quad

def text (g : Quad) : List UInt8 := [g.p, g.q, g.r, g.s]

/-- The characters are found in the table, and none of them ends the text. -/
def Plain (g : Quad) : Prop := ∀ c ∈ g.text, c ≠ 0 ∧ c < 0x80

def index (c : UInt8) : ℕ := (b64Index[c.toNat]?).getD 0

def bytes (g : Quad) : List UInt8 :=
  [UInt8.ofNat (index g.p <<< 2 ||| index g.q >>> 4), UInt8.ofNat (index g.q <<< 4 ||| index g.r >>> 2),
    UInt8.ofNat (index g.r <<< 6 ||| index g.s)]

theorem length_flatMap_text (gs : List Quad) : (gs.flatMap text).length = 4 * gs.length := by
  induction gs with
  | nil => rfl
  | cons g gs ih =>
    rw [List.flatMap_cons, List.length_append, ih]
    simp only [text, List.length_cons, List.length_nil]
    omega

theorem length_flatMap_bytes (gs : List Quad) : (gs.flatMap bytes).length = 3 * gs.length := by
  induction gs with
  | nil => rfl
  | cons g gs ih =>
    rw [List.flatMap_cons, List.length_append, ih]
    simp only [bytes, List.length_cons, List.length_nil]
    omega

end Quad

theorem indexOf_eq {c : UInt8} (hc : c < 0x80) : indexOf c = .ok (Quad.index c) := by
  have hlt : c.toNat < b64Index.length := by
    have hlen : b64Index.length = 256 := by
      rw [b64Index, List.length_append, List.length_replicate]
      rfl
    have hc' := UInt8.lt_iff_toNat_lt.mp hc
    rw [hlen]
    exact hc'.trans (by decide)
  rw [indexOf, if_pos hc]
  apply Checked.get_eq_ok
  rw [Quad.index, List.getElem?_eq_getElem hlt]
  rfl

/-- The bytes that have been written, as in the buffer of the encoder. -/
def Decoding.written (d : Decoding) : EncodedBuffer ℕ := ⟨d.buffer, d.position⟩

theorem Decoding.push_ok {d : Decoding} {size : ℕ} {out : List UInt8} (h : d.written.Holds size out)
    (hlt : out.length < size) (n : ℕ) :
    ∃ d', d.push n = .ok d' ∧ d'.written.Holds size (out ++ [UInt8.ofNat n]) ∧
      d'.encoded = d.encoded := by
  obtain ⟨buf', hpush, hholds⟩ := h.push hlt (UInt8.ofNat n)
  obtain ⟨mem, hmem, hbuf'⟩ := Checked.bind_eq_ok.mp hpush
  refine ⟨{ d with buffer := mem, position := d.position + 1 }, ?_, ?_, rfl⟩
  · have hstore : store d.buffer d.position (UInt8.ofNat n) = .ok mem := hmem
    rw [Decoding.push, hstore]
    rfl
  · rw [← Except.ok.inj hbuf'] at hholds
    exact hholds

theorem Decoding.flush_ok {d : Decoding} {g : Quad} {size : ℕ} {out : List UInt8}
    (hencoded : d.encoded = g.text) (hg : g.Plain) (h : d.written.Holds size out)
    (hlt : out.length + 3 ≤ size) :
    ∃ d', d.flush = .ok d' ∧ d'.written.Holds size (out ++ g.bytes) ∧ d'.encoded = g.text := by
  simp only [Quad.Plain, Quad.text, List.mem_cons, List.not_mem_nil, or_false, forall_eq_or_imp,
    forall_eq] at hg
  obtain ⟨⟨-, hp⟩, ⟨-, hq⟩, ⟨-, hr⟩, ⟨-, hs⟩⟩ := hg
  obtain ⟨d1, h1, hd1, he1⟩ := push_ok h (by omega) (Quad.index g.p <<< 2 ||| Quad.index g.q >>> 4)
  obtain ⟨d2, h2, hd2, he2⟩ :=
    push_ok hd1 (by simp; omega) (Quad.index g.q <<< 4 ||| Quad.index g.r >>> 2)
  obtain ⟨d3, h3, hd3, he3⟩ := push_ok hd2 (by simp; omega) (Quad.index g.r <<< 6 ||| Quad.index g.s)
  refine ⟨d3, ?_, by simpa [Quad.bytes] using hd3, by rw [he3, he2, he1, hencoded]⟩
  have hget (i : ℕ) {c : UInt8} (hc : g.text[i]? = some c) : Checked.get d.encoded i = .ok c := by
    rw [hencoded]
    exact Checked.get_eq_ok hc
  simp only [Decoding.flush, hget 0 rfl, hget 1 rfl, hget 2 rfl, hget 3 rfl, indexOf_eq hp,
    indexOf_eq hq, indexOf_eq hr, indexOf_eq hs, h1, h2, h3, bind, Except.bind]

theorem decodeStep_eq {mem : List UInt8} (d d₁ : Decoding) {i : ℕ} {c : UInt8}
    (hflush : (if 0 < i ∧ i % 4 = 0 then d.flush else pure d) = .ok d₁)
    (hget : Checked.get mem i = .ok c) :
    decodeStep mem d i = .ok { d₁ with encoded := d₁.encoded.set (i % 4) c } := by
  rw [decodeStep]
  split_ifs at hflush ⊢ with hi
  · rw [hflush, hget]
    rfl
  · rw [← Except.ok.inj hflush, hget]
    rfl

/-- The rounds of one group: the group before it is turned into bytes, and its own characters are
read. -/
theorem foldlM_decodeStep_quad (pre : List UInt8) (hpre : pre.length % 4 = 0) (g : Quad)
    (rest : List UInt8) (d d₁ : Decoding) (hlen : d₁.encoded.length = 4)
    (hflush : (if 0 < pre.length then d.flush else pure d) = .ok d₁) :
    (List.range' pre.length 4).foldlM (decodeStep (pre ++ (g.text ++ rest))) d =
      .ok { d₁ with encoded := g.text } := by
  have hget (i : ℕ) {c : UInt8} (hc : g.text[i]? = some c) :
      Checked.get (pre ++ (g.text ++ rest)) (pre.length + i) = .ok c := by
    apply Checked.get_eq_ok
    have hi : i < g.text.length := (List.getElem?_eq_some_iff.mp hc).1
    rw [List.getElem?_append_right (by omega), Nat.add_sub_cancel_left,
      List.getElem?_append_left hi, hc]
  have hfirst : decodeStep (pre ++ (g.text ++ rest)) d pre.length =
      .ok { d₁ with encoded := d₁.encoded.set 0 g.p } := by
    have hstep := decodeStep_eq d d₁ (i := pre.length) (by simpa only [hpre, and_true] using hflush)
      (hget 0 rfl)
    rwa [hpre] at hstep
  -- the other rounds only store a character
  have hnext (d : Decoding) (i : ℕ) {c : UInt8} (hc : g.text[i]? = some c) (h0 : 0 < i) (h4 : i < 4) :
      decodeStep (pre ++ (g.text ++ rest)) d (pre.length + i) =
        .ok { d with encoded := d.encoded.set i c } := by
    have hmod : (pre.length + i) % 4 = i := by omega
    have hstep := decodeStep_eq d d (by rw [hmod, if_neg (by omega)]; rfl) (hget i hc)
    rwa [hmod] at hstep
  obtain ⟨a, b, c, e, hfour⟩ : ∃ a b c e, d₁.encoded = [a, b, c, e] := by
    match d₁.encoded, hlen with
    | [a, b, c, e], _ => exact ⟨a, b, c, e, rfl⟩
  have hrange : List.range' pre.length 4 =
      [pre.length, pre.length + 1, pre.length + 2, pre.length + 3] := rfl
  simp only [hrange, List.foldlM_cons, List.foldlM_nil, hfirst, hnext _ 1 rfl (by decide) (by decide),
    hnext _ 2 rfl (by decide) (by decide), hnext _ 3 rfl (by decide) (by decide), hfour, bind,
    Except.bind]
  rfl

/-- The loop from a group on that has been read, up to the end of the text. -/
theorem foldlM_decodeStep (gs : List Quad) (hgs : ∀ g ∈ gs, g.Plain) (pre : List UInt8)
    (hpre : pre.length % 4 = 0) (hpos : 0 < pre.length) (rest : List UInt8) {d : Decoding} {g : Quad}
    (hencoded : d.encoded = g.text) (hg : g.Plain) (size : ℕ) (out : List UInt8)
    (hd : d.written.Holds size out) (hsize : out.length + 3 * (gs.length + 1) ≤ size) :
    ∃ d', (List.range' pre.length (4 * gs.length + 1)).foldlM
        (decodeStep (pre ++ (gs.flatMap Quad.text ++ 0 :: rest))) d = .ok d' ∧
      d'.written.Holds size (out ++ (g.bytes ++ gs.flatMap Quad.bytes)) := by
  induction gs generalizing pre d g out with
  | nil =>
    obtain ⟨d₁, hflush, hd₁, -⟩ := Decoding.flush_ok hencoded hg hd (by simpa using hsize)
    have hget : Checked.get (pre ++ ([] ++ 0 :: rest)) pre.length = .ok 0 :=
      Checked.get_eq_ok (by simp)
    have hstep := decodeStep_eq d d₁ (by rw [if_pos ⟨hpos, hpre⟩, hflush]) hget
    refine ⟨{ d₁ with encoded := d₁.encoded.set (pre.length % 4) 0 }, ?_, by
      simpa [Decoding.written] using hd₁⟩
    simp only [List.length_nil, List.range', List.flatMap_nil, List.foldlM_cons, List.foldlM_nil, hstep]
    rfl
  | cons g' gs ih =>
    obtain ⟨d₁, hflush, hd₁, hencoded₁⟩ :=
      Decoding.flush_ok hencoded hg hd (by simp only [List.length_cons] at hsize; omega)
    have hquad := foldlM_decodeStep_quad pre hpre g' (gs.flatMap Quad.text ++ 0 :: rest) d d₁
      (by rw [hencoded₁]; rfl) (by rw [if_pos hpos, hflush])
    have hlength : (pre ++ g'.text).length = pre.length + 4 := by simp [Quad.text]
    obtain ⟨d', hfold, hd'⟩ := ih (fun g hmem => hgs g (List.mem_cons_of_mem g' hmem))
      (pre ++ g'.text) (by omega) (by omega) (d := { d₁ with encoded := g'.text }) rfl
      (hgs g' List.mem_cons_self) (out ++ g.bytes) hd₁ (by
        simp only [List.length_append, List.length_cons, Quad.bytes, List.length_nil] at hsize ⊢
        omega)
    refine ⟨d', ?_, by simpa using hd'⟩
    have hsplit : List.range' pre.length (4 * (g' :: gs).length + 1) =
        List.range' pre.length 4 ++ List.range' (pre.length + 4) (4 * gs.length + 1) := by
      rw [List.range'_append_1]
      congr 1
      simp only [List.length_cons]
      omega
    rw [hlength, List.append_assoc] at hfold
    rw [hsplit, List.foldlM_append, List.flatMap_cons, List.append_assoc, hquad]
    exact hfold

theorem strlen_eq (gs : List Quad) (hgs : ∀ g ∈ gs, g.Plain) (rest : List UInt8) :
    strlen (gs.flatMap Quad.text ++ 0 :: rest) = .ok (4 * gs.length) := by
  have hidx : (gs.flatMap Quad.text ++ 0 :: rest).findIdx? (· == 0) = some (4 * gs.length) := by
    have hnone : (gs.flatMap Quad.text).findIdx? (· == 0) = none := by
      rw [List.findIdx?_eq_none_iff]
      intro c hc
      obtain ⟨g, hg, hmem⟩ := List.mem_flatMap.mp hc
      simpa using (hgs g hg c hmem).1
    rw [List.findIdx?_append, hnone, List.findIdx?_cons, Quad.length_flatMap_text]
    simp
  rw [strlen, hidx]

/-- The decoder stays in its buffer, and the bytes of the groups come first in it. -/
theorem decode_quads (gs : List Quad) (hgs : ∀ g ∈ gs, g.Plain) (rest : List UInt8) :
    ∃ buffer, decode (gs.flatMap Quad.text ++ 0 :: rest) = .ok buffer ∧
      buffer.take (3 * gs.length) = gs.flatMap Quad.bytes := by
  cases gs with
  | nil => exact ⟨[], rfl, rfl⟩
  | cons g gs =>
    have hquad := foldlM_decodeStep_quad [] rfl g (gs.flatMap Quad.text ++ 0 :: rest)
      ⟨List.replicate (4 * (g :: gs).length) 0, 0, List.replicate 4 0⟩ _ (by rfl) rfl
    obtain ⟨d', hfold, hd'⟩ := foldlM_decodeStep gs (fun g' h => hgs g' (List.mem_cons_of_mem g h))
      g.text (by simp [Quad.text]) (by simp [Quad.text]) rest
      (d := ⟨List.replicate (4 * (g :: gs).length) 0, 0, g.text⟩) rfl (hgs g List.mem_cons_self)
      (4 * (g :: gs).length) []
      ⟨by simp [Decoding.written], rfl, rfl⟩ (by simp only [List.length_nil, List.length_cons]; omega)
    have hout : (g.bytes ++ gs.flatMap Quad.bytes).length = 3 * (g :: gs).length :=
      Quad.length_flatMap_bytes (g :: gs)
    have hposition : d'.position = 3 * (g :: gs).length := hd'.k_eq.trans hout
    have hbuffer : d'.buffer.length = 4 * (g :: gs).length := hd'.length_mem
    have htake : d'.buffer.take (3 * (g :: gs).length) = g.bytes ++ gs.flatMap Quad.bytes := by
      rw [← hposition]
      exact hd'.take_k
    have hless : 3 * (g :: gs).length < 4 * (g :: gs).length := by simp only [List.length_cons]; omega
    have hloop : (List.range (4 * (g :: gs).length + 1)).foldlM
        (decodeStep (g.text ++ (gs.flatMap Quad.text ++ 0 :: rest)))
        ⟨List.replicate (4 * (g :: gs).length) 0, 0, List.replicate 4 0⟩ = .ok d' := by
      have hsplit : List.range (4 * (g :: gs).length + 1) =
          List.range' 0 4 ++ List.range' 4 (4 * gs.length + 1) := by
        rw [List.range'_append_1, List.range_eq_range']
        congr 1
        simp only [List.length_cons]
        omega
      rw [hsplit, List.foldlM_append]
      exact (congrArg (· >>= _) hquad).trans hfold
    refine ⟨d'.buffer.set (3 * (g :: gs).length) 0, ?_, ?_⟩
    · rw [decode, strlen_eq _ hgs, List.flatMap_cons, List.append_assoc]
      simp only [bind, Except.bind, hloop, hposition]
      rw [if_pos hless, store_of_lt (by omega)]
    · rw [List.take_set, List.set_eq_of_length_le (by rw [List.length_take]; omega), htake,
        List.flatMap_cons]

/-! ## The standard text -/

/-- The groups of the standard text. -/
def quads : List UInt8 → List Quad
  | [] => []
  | [a] => [⟨digit (a.toNat / 4), digit (a.toNat % 4 * 16), padding, padding⟩]
  | [a, b] => [⟨digit (a.toNat / 4), digit (a.toNat % 4 * 16 + b.toNat / 16),
      digit (b.toNat % 16 * 4), padding⟩]
  | a :: b :: c :: rest => ⟨digit (a.toNat / 4), digit (a.toNat % 4 * 16 + b.toNat / 16),
      digit (b.toNat % 16 * 4 + c.toNat / 64), digit (c.toNat % 64)⟩ :: quads rest

theorem flatMap_text_quads (x : List UInt8) : (quads x).flatMap Quad.text = StandardBase64.encode x := by
  induction x using quads.induct with
  | case1 => rfl
  | case2 a => simp [quads, Quad.text, StandardBase64.encode, group, sextets]
  | case3 a b => simp [quads, Quad.text, StandardBase64.encode, group, sextets]
  | case4 a b c rest ih =>
    rw [quads, List.flatMap_cons, ih]
    rfl

theorem plain_digit {n : ℕ} (h : n < 64) : digit n ≠ 0 ∧ digit n < 0x80 := by
  have hall : ∀ n < 64, digit n ≠ 0 ∧ digit n < 0x80 := by decide
  exact hall n h

theorem plain_padding : padding ≠ 0 ∧ padding < 0x80 := by decide

theorem plain_quads (x : List UInt8) : ∀ g ∈ quads x, g.Plain := by
  have hplain {p q r s : UInt8} (hp : p ≠ 0 ∧ p < 0x80) (hq : q ≠ 0 ∧ q < 0x80)
      (hr : r ≠ 0 ∧ r < 0x80) (hs : s ≠ 0 ∧ s < 0x80) : Quad.Plain ⟨p, q, r, s⟩ := by
    simp only [Quad.Plain, Quad.text, List.mem_cons, List.not_mem_nil, or_false, forall_eq_or_imp,
      forall_eq]
    exact ⟨hp, hq, hr, hs⟩
  induction x using quads.induct with
  | case1 => simp [quads]
  | case2 a =>
    have ha := a.toNat_lt
    simp only [quads, List.mem_singleton, forall_eq]
    exact hplain (plain_digit (by omega)) (plain_digit (by omega)) plain_padding plain_padding
  | case3 a b =>
    have ha := a.toNat_lt
    have hb := b.toNat_lt
    simp only [quads, List.mem_singleton, forall_eq]
    exact hplain (plain_digit (by omega)) (plain_digit (by omega)) (plain_digit (by omega)) plain_padding
  | case4 a b c rest ih =>
    have ha := a.toNat_lt
    have hb := b.toNat_lt
    have hc := c.toNat_lt
    simp only [quads, List.mem_cons, forall_eq_or_imp]
    exact ⟨hplain (plain_digit (by omega)) (plain_digit (by omega)) (plain_digit (by omega))
      (plain_digit (by omega)), ih⟩

theorem index_digit {n : ℕ} (h : n < 64) : Quad.index (digit n) = n := by
  have hall : ∀ n < 64, Quad.index (digit n) = n := by decide
  exact hall n h

/-- Two parts of a byte: the low bits of `m` above the `k` bits of `n`. -/
theorem ofNat_shift_or {m n k j : ℕ} (hn : n < 2 ^ k) (hjk : 2 ^ j * 2 ^ k = 256) :
    UInt8.ofNat (m <<< k ||| n) = UInt8.ofNat (m % 2 ^ j * 2 ^ k + n) := by
  have hm : m * 2 ^ k = 256 * (m / 2 ^ j) + m % 2 ^ j * 2 ^ k := by
    conv_lhs => rw [← Nat.div_add_mod m (2 ^ j)]
    rw [Nat.add_mul, ← hjk, Nat.mul_right_comm]
  rw [← Nat.shiftLeft_add_eq_or_of_lt hn, Nat.shiftLeft_eq, hm, Nat.add_assoc, ← UInt8.toNat_inj,
    UInt8.toNat_ofNat', UInt8.toNat_ofNat']
  exact Nat.mul_add_mod _ _ _

/-- The first byte of a group, whatever follows. -/
theorem first_byte {p q : ℕ} (hp : p < 64) (hq : q < 64) :
    UInt8.ofNat (Quad.index (digit p) <<< 2 ||| Quad.index (digit q) >>> 4) =
      UInt8.ofNat (p * 4 + q / 16) := by
  rw [index_digit hp, index_digit hq, Nat.shiftRight_eq_div_pow,
    ofNat_shift_or (j := 6) (by omega) rfl, Nat.mod_eq_of_lt (by exact hp)]
  rfl

theorem second_byte {q r : ℕ} (hq : q < 64) (hr : r < 64) :
    UInt8.ofNat (Quad.index (digit q) <<< 4 ||| Quad.index (digit r) >>> 2) =
      UInt8.ofNat (q % 16 * 16 + r / 4) := by
  rw [index_digit hq, index_digit hr, Nat.shiftRight_eq_div_pow,
    ofNat_shift_or (j := 4) (by omega) rfl]
  rfl

theorem third_byte {r s : ℕ} (hr : r < 64) (hs : s < 64) :
    UInt8.ofNat (Quad.index (digit r) <<< 6 ||| Quad.index (digit s)) =
      UInt8.ofNat (r % 4 * 64 + s) := by
  rw [index_digit hr, index_digit hs, ofNat_shift_or (j := 2) hs rfl]
  rfl

/-- The bytes come back from their groups; what padding is taken for comes behind them. -/
theorem take_bytes_quads (x : List UInt8) : ((quads x).flatMap Quad.bytes).take x.length = x := by
  induction x using quads.induct with
  | case1 => rfl
  | case2 a =>
    have ha := a.toNat_lt
    have hbyte : a.toNat / 4 * 4 + a.toNat % 4 * 16 / 16 = a.toNat := by omega
    simp only [quads, List.flatMap_cons, Quad.bytes]
    rw [first_byte (by omega) (by omega), hbyte, UInt8.ofNat_toNat]
    rfl
  | case3 a b =>
    have ha := a.toNat_lt
    have hb := b.toNat_lt
    have hfirst : a.toNat / 4 * 4 + (a.toNat % 4 * 16 + b.toNat / 16) / 16 = a.toNat := by omega
    have hsecond : (a.toNat % 4 * 16 + b.toNat / 16) % 16 * 16 + b.toNat % 16 * 4 / 4 = b.toNat := by
      omega
    simp only [quads, List.flatMap_cons, Quad.bytes]
    rw [first_byte (by omega) (by omega), second_byte (by omega) (by omega), hfirst, hsecond,
      UInt8.ofNat_toNat, UInt8.ofNat_toNat]
    rfl
  | case4 a b c rest ih =>
    have hlt := StandardBase64.sextets_lt a b c
    simp only [sextets, List.mem_cons, List.not_mem_nil, or_false, forall_eq_or_imp, forall_eq] at hlt
    obtain ⟨hp, hq, hr, hs⟩ := hlt
    have hbytes : Quad.bytes ⟨digit (a.toNat / 4), digit (a.toNat % 4 * 16 + b.toNat / 16),
        digit (b.toNat % 16 * 4 + c.toNat / 64), digit (c.toNat % 64)⟩ = [a, b, c] := by
      rw [Quad.bytes, first_byte hp hq, second_byte hq hr, third_byte hr hs]
      exact StandardBase64.bytes_sextets a b c
    rw [quads, List.flatMap_cons, hbytes]
    simp [ih]

/-! ## Round trip -/

/-- The encoder writes the standard text into its buffer, and the decoder gets the bytes back from it. -/
theorem decode_encodeInt32 (x : List UInt8) (hx : x.length < 2 ^ 31) (rest : List UInt8) :
    ∃ buf, encodeInt32 x = .ok buf ∧ buf.k.toUInt32.toNat = 4 * ((x.length + 2) / 3) ∧
      buf.mem.take buf.k.toUInt32.toNat = StandardBase64.encode x ∧
      ∃ buffer, decode (buf.mem.take buf.k.toUInt32.toNat ++ 0 :: rest) = .ok buffer ∧
        buffer.take x.length = x := by
  obtain ⟨buf, hbuf, hk, htext⟩ := encode_spec x
  have hlength : buf.toInt32.k.toUInt32.toNat = buf.k := toNat_ofNat_int32 (by omega)
  have hmem : buf.toInt32.mem = buf.mem := rfl
  refine ⟨buf.toInt32, encodeInt32_eq hx hbuf, by rw [hlength, hk], by rw [hlength, hmem, htext], ?_⟩
  obtain ⟨buffer, hbuffer, htake⟩ := decode_quads (quads x) (plain_quads x) rest
  refine ⟨buffer, ?_, ?_⟩
  · rw [hlength, hmem, htext, ← flatMap_text_quads]
    exact hbuffer
  · have hbytes := take_bytes_quads x
    have hle : x.length ≤ 3 * (quads x).length := by
      have hlen := congrArg List.length hbytes
      rw [List.length_take, Quad.length_flatMap_bytes] at hlen
      omega
    rw [← Nat.min_eq_left hle, ← List.take_take, htake, hbytes]

/-- Two bytes: `TWE=` -/
theorem decode_encodeInt32_two : [77, 97].length < 2 ^ 31 ∧
    ∃ buf, encodeInt32 [77, 97] = .ok buf ∧ buf.k.toUInt32.toNat = 4 ∧
      buf.mem.take buf.k.toUInt32.toNat = [84, 87, 69, 61] ∧
      ∃ buffer, decode (buf.mem.take buf.k.toUInt32.toNat ++ [0]) = .ok buffer ∧
        buffer.take 2 = [77, 97] :=
  ⟨by decide, decode_encodeInt32 [77, 97] (by decide) []⟩

end Base64

end CaptureHpc
