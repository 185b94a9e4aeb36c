import BitcoinClient.MiningBase

/-!
# The header preimage

`Header::hash` feeds SHA-256 the parent, the nonce as 4 big-endian bytes, the difficulty,
the timestamp as 8 big-endian bytes and the Merkle root, with no length prefix and no
separator (`Header.preimage`). Every field has a fixed width, so the layout is fixed:
108 bytes, the fields at offsets 0, 32, 36, 68 and 76. `decodePreimage` reads them back.

* `fromBeBytes_toBeBytes`: reading `w` big-endian bytes back gives the value mod `256^w`;
* `Header.preimage_slices`: each field is the slice of the preimage at its offset;
* `Header.decodePreimage_preimage`: decoding the preimage gives the header back;
* `preimage_layout`: the length, the fields read at their offsets, and so injectivity:
  headers that differ in any field, the nonce alone included, feed SHA-256 different bytes;
* `probe_preimages_nodup`: the headers one burst probes feed SHA-256 distinct bytes.

The order `H256` derives on its bytes is the order of the big-endian integers they spell
(`H256.lt_iff_fromBeBytes_lt`), so a higher target never makes a burst fail or stop later
(`miningBase_mono`).
-/

namespace BitcoinClient

/-- `from_be_bytes`: a byte string read as a big-endian unsigned integer. -/
def fromBeBytes (bs : List UInt8) : Nat := bs.foldl (fun n b => n * 256 + b.toNat) 0

/-- The `len` bytes of `bs` from offset `off`. -/
def slice (bs : List UInt8) (off len : Nat) : List UInt8 := (bs.drop off).take len

/-- The 32 bytes of a 108-byte string from offset `off`, as a digest. -/
def sliceH256 (bs : List UInt8) (hl : bs.length = 108) (off : Nat) (ho : off ≤ 76) : H256 :=
  ⟨slice bs off 32, by simp [slice, hl]; omega⟩

/-- The header whose preimage a 108-byte string is: the fields read at offsets 0, 32, 36,
68 and 76, the integers big-endian. -/
def decodePreimage (bs : List UInt8) : Option Header :=
  if hl : bs.length = 108 then
    some { parent := sliceH256 bs hl 0 (by decide),
           nonce := .ofNat (fromBeBytes (slice bs 32 4)),
           difficulty := sliceH256 bs hl 36 (by decide),
           timestamp := .ofNat (fromBeBytes (slice bs 68 8)),
           merkleRoot := sliceH256 bs hl 76 (by decide) }
  else none

@[simp] theorem length_toBeBytes : ∀ (w n : Nat), (toBeBytes w n).length = w
  | 0, _ => rfl
  | w + 1, n => by simp [toBeBytes, length_toBeBytes w]

/-- Reading back `w` big-endian bytes gives the value mod `256^w`. -/
theorem fromBeBytes_toBeBytes : ∀ (w n : Nat), fromBeBytes (toBeBytes w n) = n % 256 ^ w
  | 0, _ => by simp [toBeBytes, fromBeBytes, Nat.mod_one]
  | w + 1, n => by
    rw [toBeBytes, fromBeBytes, List.foldl_append, ← fromBeBytes, fromBeBytes_toBeBytes w,
      Nat.pow_succ, Nat.mul_comm _ 256, Nat.mod_mul]
    simp [UInt8.ofNat, UInt8.toNat, BitVec.toNat_ofNat]
    omega

theorem H256.eq_of_bytes {a b : H256} (h : a.bytes = b.bytes) : a = b := by
  cases a; cases b; cases h; rfl

namespace Header

theorem length_preimage (h : Header) : h.preimage.length = 108 := by
  simp [preimage, H256.length_bytes]

/-- The five fields of the preimage, each at its offset. -/
theorem preimage_slices (h : Header) :
    slice h.preimage 0 32 = h.parent.bytes ∧
    slice h.preimage 32 4 = toBeBytes 4 h.nonce.toNat ∧
    slice h.preimage 36 32 = h.difficulty.bytes ∧
    slice h.preimage 68 8 = toBeBytes 8 h.timestamp.toNat ∧
    slice h.preimage 76 32 = h.merkleRoot.bytes := by
  simp [slice, preimage, List.drop_append_eq_append_drop, List.take_append_eq_append_take,
    H256.length_bytes, List.drop_of_length_le, List.take_of_length_le]

theorem fromBeBytes_nonce (h : Header) :
    fromBeBytes (slice h.preimage 32 4) = h.nonce.toNat := by
  rw [h.preimage_slices.2.1, fromBeBytes_toBeBytes]
  exact Nat.mod_eq_of_lt h.nonce.toNat_lt_size

theorem fromBeBytes_timestamp (h : Header) :
    fromBeBytes (slice h.preimage 68 8) = h.timestamp.toNat := by
  rw [h.preimage_slices.2.2.2.1, fromBeBytes_toBeBytes]
  exact Nat.mod_eq_of_lt h.timestamp.toNat_lt_size

/-- Decoding the preimage gives the header back. -/
theorem decodePreimage_preimage (h : Header) : decodePreimage h.preimage = some h := by
  obtain ⟨hp, -, hd, -, hm⟩ := h.preimage_slices
  rw [decodePreimage, dif_pos h.length_preimage, fromBeBytes_nonce, fromBeBytes_timestamp]
  congr
  · exact H256.eq_of_bytes hp
  · exact UInt32.toNat.inj (by simp [UInt32.ofNat, UInt32.toNat, BitVec.toNat_ofNat])
  · exact H256.eq_of_bytes hd
  · exact UInt64.toNat.inj (by simp [UInt64.ofNat, UInt64.toNat, BitVec.toNat_ofNat])
  · exact H256.eq_of_bytes hm

/-- The decoder is a left inverse, so the preimage is injective. -/
theorem preimage_injective : Function.Injective preimage := fun h₁ h₂ he => by
  have hd := h₁.decodePreimage_preimage
  rw [he, h₂.decodePreimage_preimage] at hd
  exact (Option.some.inj hd).symm

end Header

/-- The preimage of every header is 108 bytes, and read at offsets 0, 32, 36, 68 and 76, the
integers big-endian, it gives the header's parent, nonce, difficulty, timestamp and Merkle
root. So the preimage is injective: two headers that differ in any field, only in the nonce
included, never feed SHA-256 the same bytes. -/
theorem preimage_layout :
    (∀ h : Header, h.preimage.length = 108 ∧
      slice h.preimage 0 32 = h.parent.bytes ∧
      fromBeBytes (slice h.preimage 32 4) = h.nonce.toNat ∧
      slice h.preimage 36 32 = h.difficulty.bytes ∧
      fromBeBytes (slice h.preimage 68 8) = h.timestamp.toNat ∧
      slice h.preimage 76 32 = h.merkleRoot.bytes) ∧
    Function.Injective Header.preimage := by
  refine ⟨fun h => ?_, Header.preimage_injective⟩
  obtain ⟨hp, -, hd, -, hm⟩ := h.preimage_slices
  exact ⟨h.length_preimage, hp, h.fromBeBytes_nonce, hd, h.fromBeBytes_timestamp, hm⟩

/-- The `MINING_STEP` headers a burst can probe from `h`, one per nonce, feed SHA-256
pairwise different bytes. -/
theorem probe_preimages_nodup {Tx : Type} (E : Env Tx) (h : Header) :
    ((List.range E.miningStep.toNat).map fun k => (h.shift k).preimage).Nodup :=
  (List.nodup_range _).map_on fun _ hi _ hj e =>
    h.shift_nonce_inj ((List.mem_range.1 hi).trans E.miningStep.toNat_lt_size)
      ((List.mem_range.1 hj).trans E.miningStep.toNat_lt_size)
      (congrArg Header.nonce (Header.preimage_injective e))

/-! ## The order of digests -/

theorem foldl_fromBeBytes : ∀ (bs : List UInt8) (acc : Nat),
    bs.foldl (fun n b => n * 256 + b.toNat) acc = acc * 256 ^ bs.length + fromBeBytes bs
  | [], acc => by simp [fromBeBytes]
  | b :: bs, acc => by
    simp only [fromBeBytes, List.foldl_cons, List.length_cons]
    rw [foldl_fromBeBytes bs, foldl_fromBeBytes bs, Nat.pow_succ, Nat.add_mul, Nat.zero_mul,
      Nat.zero_add, Nat.mul_right_comm acc 256, ← Nat.mul_assoc]
    omega

theorem fromBeBytes_cons (b : UInt8) (bs : List UInt8) :
    fromBeBytes (b :: bs) = b.toNat * 256 ^ bs.length + fromBeBytes bs := by
  rw [fromBeBytes, List.foldl_cons, foldl_fromBeBytes, Nat.zero_mul, Nat.zero_add]

theorem fromBeBytes_lt : ∀ bs : List UInt8, fromBeBytes bs < 256 ^ bs.length
  | [] => by simp [fromBeBytes]
  | b :: bs => by
    rw [fromBeBytes_cons, List.length_cons, Nat.pow_succ, Nat.mul_comm _ 256]
    calc b.toNat * 256 ^ bs.length + fromBeBytes bs
        < b.toNat * 256 ^ bs.length + 256 ^ bs.length := by
          have := fromBeBytes_lt bs; omega
      _ = (b.toNat + 1) * 256 ^ bs.length := (Nat.succ_mul _ _).symm
      _ ≤ 256 * 256 ^ bs.length := Nat.mul_le_mul_right _ b.toNat_lt_size

/-- A lower leading digit wins, whatever the digits after it. -/
theorem mul_add_lt_mul_add {a b r r' p : Nat} (hab : a < b) (hr : r < p) :
    a * p + r < b * p + r' :=
  calc a * p + r < a * p + p := by omega
    _ = (a + 1) * p := (Nat.succ_mul a p).symm
    _ ≤ b * p := Nat.mul_le_mul_right p hab
    _ ≤ b * p + r' := Nat.le_add_right _ _

/-- On byte strings of one length, `lexLt` is the order of the big-endian integers they
spell. -/
theorem lexLt_iff : ∀ {a b : List UInt8}, a.length = b.length →
    (lexLt a b = true ↔ fromBeBytes a < fromBeBytes b)
  | [], [], _ => by simp [lexLt, fromBeBytes]
  | x :: xs, y :: ys, h => by
    have hl : xs.length = ys.length := by simpa using h
    have hx := fromBeBytes_lt xs
    have hy := fromBeBytes_lt ys
    rw [fromBeBytes_cons, fromBeBytes_cons, ← hl]
    rw [← hl] at hy
    simp only [lexLt, Bool.or_eq_true, decide_eq_true_eq, Bool.and_eq_true, lexLt_iff hl]
    rcases Nat.lt_trichotomy x.toNat y.toNat with hxy | hxy | hxy
    · exact iff_of_true (.inl hxy) (mul_add_lt_mul_add hxy hx)
    · obtain rfl := UInt8.toNat.inj hxy
      simp only [UInt8.lt_irrefl, true_and, false_or]
      omega
    · refine iff_of_false ?_ (Nat.lt_asymm (mul_add_lt_mul_add hxy hy))
      rintro (h | ⟨rfl, -⟩)
      · exact Nat.lt_asymm hxy h
      · exact Nat.lt_irrefl _ hxy

/-- The test `hash < difficulty` of `mining_base` compares the 256-bit big-endian integers
the two digests spell. -/
theorem H256.lt_iff_fromBeBytes_lt (a b : H256) :
    a < b ↔ fromBeBytes a.bytes < fromBeBytes b.bytes :=
  lexLt_iff (a.length_bytes.trans b.length_bytes.symm)

/-- Raising the target never hurts a burst: a `mining_base` that succeeds against `d`
succeeds against every target `d'` at least as high, and stops at the same nonce or an
earlier one. -/
theorem miningBase_mono {Tx : Type} (E : Env Tx) (h : Header) {d d' : H256}
    (hd : fromBeBytes d.bytes ≤ fromBeBytes d'.bytes) (hb : (miningBase E h d).1 = true) :
    (miningBase E h d').1 = true ∧ ∃ k k', k' ≤ k ∧
      (miningBase E h d).2 = h.shift k ∧ (miningBase E h d').2 = h.shift k' := by
  obtain ⟨k, hk, hB, hkd⟩ := miningBase_true E hb
  have hp : (h.shift k).hash E < d' := by
    have := (lexLt_iff ((h.shift k).hash E |>.length_bytes.trans d.length_bytes.symm)).1 hkd
    exact (lexLt_iff ((h.shift k).hash E |>.length_bytes.trans d'.length_bytes.symm)).2 (by omega)
  suffices h' : ∃ k' ≤ k, miningBase E h d' = (true, h.shift k') by
    obtain ⟨k', hk', he⟩ := h'
    exact ⟨by rw [he], k, k', hk', hB, by rw [he]⟩
  rw [miningBase, miningLoop_eq]
  rcases hf : (List.range E.miningStep.toNat).find? (fun j => decide ((h.shift j).hash E < d'))
    with _ | k'
  · exact absurd (List.find?_range_eq_none.1 hf k hk) (by simpa using hp)
  · obtain ⟨-, -, hmin⟩ := List.find?_range_eq_some.1 hf
    refine ⟨k', Nat.le_of_not_lt fun hlt => ?_, rfl⟩
    exact absurd (hmin k hlt) (by simpa using hp)

theorem miningBase_mono_sample :
    let h : Header := .new .zero 0 0 (genDifficultyArray 0) .zero
    let d := H256.ofByte 2; let d' := genDifficultyArray 0
    d ≠ d' ∧ fromBeBytes d.bytes ≤ fromBeBytes d'.bytes ∧ (miningBase sampleEnv h d).1 = true ∧
      (miningBase sampleEnv h d').1 = true ∧ ∃ k k', k' ≤ k ∧
        (miningBase sampleEnv h d).2 = h.shift k ∧ (miningBase sampleEnv h d').2 = h.shift k' :=
  ⟨by decide, by decide, by decide,
    @miningBase_mono Nat sampleEnv (.new .zero 0 0 (genDifficultyArray 0) .zero) (.ofByte 2)
      (genDifficultyArray 0) (by decide) (by decide)⟩

end BitcoinClient
