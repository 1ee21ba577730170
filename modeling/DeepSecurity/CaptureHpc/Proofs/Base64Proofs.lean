import DeepSecurity.CaptureHpc.Base64

/-!
# The encoder writes the standard text

Each round of the loop appends one full group of four characters. The text before the padding is
therefore `unpadded`, and the padding turns it into the standard text.
-/

namespace CaptureHpc

namespace Base64

open StandardBase64 (group digit sextets)

/-! ## The buffer -/

/-- The buffer has so many bytes, and holds the text `t` so far. -/
structure EncodedBuffer.Holds (buf : EncodedBuffer ℕ) (size : ℕ) (t : List UInt8) : Prop where
  length_mem : buf.mem.length = size
  k_eq : buf.k = t.length
  take_k : buf.mem.take buf.k = t

theorem store_of_lt {mem : List UInt8} {i : ℕ} (h : i < mem.length) (c : UInt8) :
    store mem i c = .ok (mem.set i c) := by
  rw [store, if_pos h]

theorem take_set_succ {mem : List UInt8} {i : ℕ} (h : i < mem.length) (c : UInt8) :
    (mem.set i c).take (i + 1) = mem.take i ++ [c] := by
  have hset : i < (mem.set i c).length := by rwa [List.length_set]
  rw [← List.take_concat_get' _ _ hset, List.take_set, List.getElem_set_self,
    List.set_eq_of_length_le (List.length_take_le i mem)]

theorem EncodedBuffer.Holds.push {buf : EncodedBuffer ℕ} {size : ℕ} {t : List UInt8}
    (h : buf.Holds size t) (hlt : t.length < size) (c : UInt8) :
    ∃ buf', buf.push natural c = .ok buf' ∧ buf'.Holds size (t ++ [c]) := by
  have hk : buf.k < buf.mem.length := by rw [h.k_eq, h.length_mem]; exact hlt
  refine ⟨⟨buf.mem.set buf.k c, buf.k + 1⟩, ?_, ?_, ?_, ?_⟩
  · have hstore : store buf.mem (natural.address buf.k) c = .ok (buf.mem.set buf.k c) := store_of_lt hk c
    rw [EncodedBuffer.push, hstore]
    rfl
  · rw [List.length_set, h.length_mem]
  · simp [h.k_eq]
  · rw [take_set_succ hk, h.take_k]

/-! ## A block -/

def block24 (a b c : UInt8) : UInt32 := a.toUInt32 <<< 16 ||| b.toUInt32 <<< 8 ||| c.toUInt32

theorem toNat_block24 (a b c : UInt8) :
    (block24 a b c).toNat = a.toNat * 65536 + b.toNat * 256 + c.toNat := by
  have ha := a.toNat_lt
  have hb := b.toNat_lt
  have hc := c.toNat_lt
  have h16 : (a.toUInt32 <<< 16).toNat = a.toNat <<< 16 := by
    rw [UInt32.toNat_shiftLeft, UInt8.toNat_toUInt32]
    exact Nat.mod_eq_of_lt (by simp [Nat.shiftLeft_eq]; omega)
  have h8 : (b.toUInt32 <<< 8).toNat = b.toNat <<< 8 := by
    rw [UInt32.toNat_shiftLeft, UInt8.toNat_toUInt32]
    exact Nat.mod_eq_of_lt (by simp [Nat.shiftLeft_eq]; omega)
  have hb8 : b.toNat <<< 8 < 2 ^ 16 := by rw [Nat.shiftLeft_eq]; omega
  have hab : a.toNat <<< 16 + b.toNat <<< 8 = (a.toNat * 256 + b.toNat) <<< 8 := by
    simp only [Nat.shiftLeft_eq]
    omega
  rw [block24, UInt32.toNat_or, UInt32.toNat_or, h16, h8, UInt8.toNat_toUInt32,
    ← Nat.shiftLeft_add_eq_or_of_lt hb8, hab, ← Nat.shiftLeft_add_eq_or_of_lt hc, Nat.shiftLeft_eq]
  omega

/-- The characters for six bits of a block. -/
theorem get_b64List (a b c : UInt8) (s : UInt32) {n : ℕ}
    (hn : (a.toNat * 65536 + b.toNat * 256 + c.toNat) / 2 ^ (s.toNat % 32) % 64 = n) :
    Checked.get b64List (block24 a b c >>> s &&& 0x3F).toNat = .ok (digit n) := by
  have hall : ∀ n < 64, b64List[n]? = some (digit n) := by decide
  have hbits : (block24 a b c >>> s &&& 0x3F).toNat = n := by
    rw [UInt32.toNat_and, UInt32.toNat_shiftRight, Nat.shiftRight_eq_div_pow, toNat_block24, ← hn]
    exact Nat.and_two_pow_sub_one_eq_mod _ 6
  rw [hbits]
  exact Checked.get_eq_ok (hall n (hn ▸ Nat.mod_lt _ (by decide)))

/-- A round of the loop appends the four characters of its block. -/
theorem encodeBlock_of_blockAt {x : List UInt8} {i : ℕ} {a b c : UInt8}
    (hblock : blockAt x i = .ok (block24 a b c)) {buf : EncodedBuffer ℕ} {size : ℕ} {t : List UInt8}
    (h : buf.Holds size t) (hlt : t.length + 4 ≤ size) :
    ∃ buf', encodeBlock natural x buf i = .ok buf' ∧ buf'.Holds size (t ++ group a b c) := by
  have ha := a.toNat_lt
  have hb := b.toNat_lt
  have hc := c.toNat_lt
  have hp := get_b64List a b c 18 (n := a.toNat / 4) (by simp; omega)
  have hq := get_b64List a b c 12 (n := a.toNat % 4 * 16 + b.toNat / 16) (by simp; omega)
  have hr := get_b64List a b c 6 (n := b.toNat % 16 * 4 + c.toNat / 64) (by simp; omega)
  have hs := get_b64List a b c 0 (n := c.toNat % 64) (by simp; omega)
  rw [UInt32.shiftRight_zero] at hs
  obtain ⟨b1, h1, hb1⟩ := h.push (by omega) (digit (a.toNat / 4))
  obtain ⟨b2, h2, hb2⟩ := hb1.push (by simp; omega) (digit (a.toNat % 4 * 16 + b.toNat / 16))
  obtain ⟨b3, h3, hb3⟩ := hb2.push (by simp; omega) (digit (b.toNat % 16 * 4 + c.toNat / 64))
  obtain ⟨b4, h4, hb4⟩ := hb3.push (by simp; omega) (digit (c.toNat % 64))
  refine ⟨b4, ?_, by simpa [group, sextets] using hb4⟩
  simp only [encodeBlock, hblock, bind, Except.bind, hp, hq, hr, hs, h1, h2, h3, h4]

/-- The missing bytes of a block are zero. -/
theorem blockAt_append (pre : List UInt8) (a : UInt8) (rest : List UInt8) :
    blockAt (pre ++ a :: rest) pre.length =
      .ok (block24 a (rest.headD 0) (rest.tail.headD 0)) := by
  have hget (l : List UInt8) (n : ℕ) {b : UInt8} (hb : l[n]? = some b) :
      Checked.get (pre ++ l) (pre.length + n) = .ok b := by
    apply Checked.get_eq_ok
    rw [List.getElem?_append_right (by omega), Nat.add_sub_cancel_left, hb]
  have h0 := hget (a :: rest) 0 rfl
  match rest with
  | [] => simp_all [blockAt, block24, bind, Except.bind, pure, Except.pure]
  | [b] =>
    have h1 := hget [a, b] 1 rfl
    simp_all [blockAt, block24, bind, Except.bind, pure, Except.pure]
  | b :: c :: rest =>
    have h1 := hget (a :: b :: c :: rest) 1 rfl
    have h2 := hget (a :: b :: c :: rest) 2 rfl
    simp_all [blockAt, block24, bind, Except.bind, pure, Except.pure]

/-! ## The loop -/

/-- The groups of the text, the last one with zeros. -/
def unpadded : List UInt8 → List UInt8
  | [] => []
  | [a] => group a 0 0
  | [a, b] => group a b 0
  | a :: b :: c :: rest => group a b c ++ unpadded rest

@[simp]
theorem length_group (a b c : UInt8) : (group a b c).length = 4 := rfl

@[simp]
theorem length_unpadded (x : List UInt8) : (unpadded x).length = 4 * ((x.length + 2) / 3) := by
  induction x using unpadded.induct with
  | case1 => rfl
  | case2 a => simp [unpadded]
  | case3 a b => simp [unpadded]
  | case4 a b c rest ih =>
    simp only [unpadded, List.length_append, length_group, ih, List.length_cons]
    omega

/-- The rounds of the loop from the block behind `pre` on. -/
theorem foldlM_encodeBlock (x : List UInt8) (pre : List UInt8) {buf : EncodedBuffer ℕ} {size : ℕ}
    {t : List UInt8} (h : buf.Holds size t) (hlt : t.length + 4 * ((x.length + 2) / 3) ≤ size) :
    ∃ buf', (List.range' pre.length ((x.length + 2) / 3) 3).foldlM (encodeBlock natural (pre ++ x))
      buf =
      .ok buf' ∧ buf'.Holds size (t ++ unpadded x) := by
  induction x using unpadded.induct generalizing pre buf t with
  | case1 => exact ⟨buf, rfl, by simpa [unpadded] using h⟩
  | case2 a =>
    obtain ⟨buf', hbuf', h'⟩ := encodeBlock_of_blockAt (blockAt_append pre a []) h (by simpa using hlt)
    refine ⟨buf', ?_, h'⟩
    simp [hbuf']
  | case3 a b =>
    obtain ⟨buf', hbuf', h'⟩ := encodeBlock_of_blockAt (blockAt_append pre a [b]) h (by simpa using hlt)
    refine ⟨buf', ?_, h'⟩
    simp [hbuf']
  | case4 a b c rest ih =>
    have hn : ((a :: b :: c :: rest).length + 2) / 3 = (rest.length + 2) / 3 + 1 := by simp; omega
    rw [hn] at hlt ⊢
    obtain ⟨buf₁, hbuf₁, h₁⟩ :=
      encodeBlock_of_blockAt (blockAt_append pre a (b :: c :: rest)) h (by omega)
    obtain ⟨buf', hbuf', h'⟩ := ih (pre ++ [a, b, c]) h₁ (by simp; omega)
    refine ⟨buf', ?_, by simpa [unpadded] using h'⟩
    simp only [List.length_append, List.length_cons, List.length_nil, List.append_assoc,
      List.cons_append, List.nil_append] at hbuf'
    rw [List.range'_succ, List.foldlM_cons, hbuf₁]
    exact hbuf'

/-! ## The padding -/

/-- The padding stands where a character stands for no byte. -/
theorem encode_eq (x : List UInt8) :
    StandardBase64.encode x = (unpadded x).take ((unpadded x).length - (3 - x.length % 3) % 3) ++
      List.replicate ((3 - x.length % 3) % 3) StandardBase64.padding := by
  induction x using unpadded.induct with
  | case1 => rfl
  | case2 a => rfl
  | case3 a b => rfl
  | case4 a b c rest ih =>
    have hmod : (a :: b :: c :: rest).length % 3 = rest.length % 3 := by
      simp only [List.length_cons]
      omega
    have hlen : (unpadded (a :: b :: c :: rest)).length =
        (group a b c).length + (unpadded rest).length := by
      rw [unpadded, List.length_append]
    have hle : (3 - rest.length % 3) % 3 ≤ (unpadded rest).length := by
      rw [length_unpadded]
      omega
    rw [hmod, hlen, Nat.add_sub_assoc hle, StandardBase64.encode, ih, unpadded, List.take_length_add_append,
      List.append_assoc]

/-- Stores at the positions from `p` on leave what is before them. -/
theorem foldlM_store (c : UInt8) (mem : List UInt8) {p n : ℕ} (hlen : p + n ≤ mem.length) (s : ℕ)
    {f : ℕ → ℕ} (hf : ∀ j < n, f (s + j) = p + j) :
    ∃ mem', (List.range' s n).foldlM (fun mem i => store mem (f i) c) mem = .ok mem' ∧
      mem'.length = mem.length ∧ mem'.take (p + n) = mem.take p ++ List.replicate n c := by
  induction n with
  | zero => exact ⟨mem, rfl, rfl, by simp⟩
  | succ n ih =>
    obtain ⟨mem₁, hfold, hlen₁, htake⟩ := ih (by omega) fun j hj => hf j (by omega)
    have hlt : p + n < mem₁.length := by omega
    refine ⟨mem₁.set (p + n) c, ?_, by rw [List.length_set, hlen₁], ?_⟩
    · rw [List.range'_concat, List.foldlM_append, hfold, Nat.one_mul]
      simp [bind, Except.bind, hf n (by omega), store_of_lt hlt, pure, Except.pure]
    · rw [← Nat.add_assoc, take_set_succ hlt, htake, List.append_assoc, List.replicate_succ']

/-- The encoder stays in its buffer, and the text in it has full groups only. -/
theorem encode_spec (x : List UInt8) :
    ∃ buf, encode x = .ok buf ∧ buf.k = 4 * ((x.length + 2) / 3) ∧
      buf.mem.take buf.k = StandardBase64.encode x := by
  have hblocks : natural.allocated x.length = 4 * ((x.length + 2) / 3) + 2 := by
    simp only [natural]
    split_ifs <;> omega
  have hstart : EncodedBuffer.Holds ⟨List.replicate (4 * ((x.length + 2) / 3) + 2) 0, 0⟩
      (4 * ((x.length + 2) / 3) + 2) [] := ⟨by simp, rfl, rfl⟩
  obtain ⟨buf, hbuf, hholds⟩ := foldlM_encodeBlock x [] hstart (by simp)
  simp only [List.nil_append, List.length_nil] at hbuf hholds
  have hk : buf.k = 4 * ((x.length + 2) / 3) := by rw [hholds.k_eq, length_unpadded]
  have htext (p : ℕ) : (unpadded x).take (buf.k - p) = buf.mem.take (buf.k - p) := by
    rw [← hholds.take_k, List.take_take, Nat.min_eq_left (Nat.sub_le _ _)]
  have hzero : natural.zero = 0 := rfl
  have hremainder : natural.remainder x.length = x.length % 3 := rfl
  simp only [encode, encodeWith, hblocks, hzero, hremainder, hbuf, bind, Except.bind]
  rw [encode_eq, ← hholds.k_eq, htext]
  by_cases hr : 0 < x.length % 3
  · have hp : (3 - x.length % 3) % 3 = 3 - x.length % 3 := by omega
    obtain ⟨mem, hfold, -, htake⟩ := foldlM_store 0x3D buf.mem
      (p := buf.k - (3 - x.length % 3)) (n := 3 - x.length % 3) (by rw [hholds.length_mem]; omega)
      (x.length % 3) (f := natural.padding buf.k) (by intro j hj; simp only [natural]; omega)
    rw [if_pos hr, hfold, hp]
    refine ⟨⟨mem, buf.k⟩, rfl, hk, ?_⟩
    rw [← StandardBase64.padding.eq_def, Nat.sub_add_cancel (by omega)] at htake
    exact htake
  · have hp : (3 - x.length % 3) % 3 = 0 := by omega
    rw [if_neg hr, hp]
    exact ⟨buf, rfl, hk, by simp⟩

theorem encode_ok (x : List UInt8) :
    ∃ buf, encode x = .ok buf ∧ buf.mem.take buf.k = StandardBase64.encode x := by
  obtain ⟨buf, hbuf, -, htext⟩ := encode_spec x
  exact ⟨buf, hbuf, htext⟩

end Base64

end CaptureHpc
