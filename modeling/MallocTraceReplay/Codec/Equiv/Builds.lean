import MallocTraceReplay.Codec.Equiv.AltVarint

/-!
# The two builds of the codec

The encoders of the two builds are the same (`encodeUnsignedPortable_eq`).  The decoders are not:
without `__x86_64__` the bit scan counts from 1, and the decoder moves one byte too far, or beyond
its masks (`builds_agree_iff`).
-/

namespace MallocTraceReplay.AltVarintCodec

/-! ### Bit scans -/

/-- The position counted from the top is the position counted from the bottom. -/
theorem clzll_eq {v : UInt64} (h : v ≠ 0) : 63 - clzll v = bsr v := by
  have hv : v.toNat ≠ 0 := fun heq => h (UInt64.toNat_inj.mp heq)
  have hlog : v.toNat.log2 < 64 := (Nat.log2_lt hv).mpr v.toNat_lt
  have hfind : (List.range 64).find? (fun i => v.toNat.testBit (63 - i)) =
      some (63 - v.toNat.log2) := by
    refine List.find?_range_eq_some.mpr ⟨?_, List.mem_range.mpr (by omega), fun i hi => ?_⟩
    · rw [show 63 - (63 - v.toNat.log2) = v.toNat.log2 by omega]
      exact Nat.testBit_log2 hv
    · have hlt : v.toNat < 2 ^ (63 - i) := (Nat.log2_lt hv).mp (by omega)
      rw [Nat.testBit_lt_two_pow hlt]
      rfl
  rw [clzll, hfind, Option.getD_some, bsr]
  omega

/-- A word whose low byte is not zero: the scan is one more than the other one. -/
theorem ffsll_eq {v : UInt64} {b : UInt8} (hb : b ≠ 0) (h : v.toNat % 256 = b.toNat) :
    ffsll v = bsf b.toUInt32 + 1 := by
  obtain ⟨h8, hbit, hlow⟩ := bsf_byte b hb
  have htest : ∀ j < 8, v.toNat.testBit j = b.toNat.testBit j := by
    intro j hj
    rw [← h, show (256 : ℕ) = 2 ^ 8 by norm_num, Nat.testBit_mod_two_pow]
    simp [hj]
  have hfind : (List.range 64).find? v.toNat.testBit = some (bsf b.toUInt32) := by
    refine List.find?_range_eq_some.mpr ⟨?_, List.mem_range.mpr (by omega), fun j hj => ?_⟩
    · rw [htest _ h8, hbit]
    · rw [htest j (by omega), hlow j hj]
      rfl
  rw [ffsll, hfind]

/-! ### The builds -/

/-- **The encoders agree** on every word. -/
theorem encodeUnsignedPortable_eq (v : UInt64) : encodeUnsignedPortable v = encodeUnsigned v := by
  have hodd : (v <<< 1) ||| 1 ≠ 0 := by
    intro heq
    have hbit := congrArg (fun w : UInt64 => w.toNat.testBit 0) heq
    simp [UInt64.toNat_or] at hbit
  unfold encodeUnsignedPortable encodeUnsigned
  dsimp only
  rw [clzll_eq hodd]

/-- The word at the front of nine bytes, by its first byte. -/
theorem load_first {bytes : List UInt8} (h : 9 ≤ bytes.length) :
    ∃ v b, load (fun i => bytes[i]?) 0 = some v ∧ bytes[0]? = some b ∧
      v.toNat % 256 = b.toNat ∧ (v &&& 0xff = 0 ↔ b = 0) := by
  have hbytes : ∀ i < 8, bytes[0 + i]? = some (bytes.getD (0 + i) 0) := by
    intro i hi
    rw [List.getD_eq_getElem?_getD, List.getElem?_eq_getElem (by omega)]
    rfl
  set word := (List.range 8).map fun i => bytes.getD (0 + i) 0 with hword
  have hload : load (fun i => bytes[i]?) 0 = some (loadBytes word) :=
    load_eq (f := fun i => bytes.getD i 0) hbytes
  have hmod : (loadBytes word).toNat % 256 = (bytes.getD 0 0).toNat := by
    have hfirst := leValue_take word 1 (by simp [hword])
    rw [toNat_loadBytes word (by simp [hword]), ← pow_one 256, ← hfirst]
    simp [hword, List.range_succ_eq_map, leValue]
  refine ⟨loadBytes word, bytes.getD 0 0, hload, hbytes 0 (by decide), hmod, ?_⟩
  rw [← UInt64.toNat_inj, UInt64.toNat_and, ← UInt8.toNat_inj, ← hmod]
  exact Eq.congr_left (Nat.and_two_pow_sub_one_eq_mod _ 8)

/-- **The decoders agree** just when the first byte is zero. -/
theorem decoders_agree_iff {bytes : List UInt8} (h : 9 ≤ bytes.length) :
    ∃ r, decodeUnsigned (fun i => bytes[i]?) = some r ∧
      (decodeUnsignedPortable (fun i => bytes[i]?) = some r ↔ bytes[0]? = some 0) := by
  obtain ⟨v, b, hload, hfirst, hmod, hmask⟩ := load_first h
  rw [decodeUnsigned, decodeUnsignedPortable, hload, hfirst]
  simp only [Option.bind_eq_bind, Option.bind_some, Option.some.injEq]
  by_cases hb : b = 0
  · rw [if_pos (hmask.mpr hb), if_pos (hmask.mpr hb)]
    obtain ⟨w, hw⟩ : ∃ w, load (fun i => bytes[i]?) 1 = some w := by
      refine ⟨_, load_eq (f := fun i => bytes.getD i 0) fun i hi => ?_⟩
      rw [List.getD_eq_getElem?_getD, List.getElem?_eq_getElem (by omega)]
      rfl
    rw [hw]
    exact ⟨_, rfl, iff_of_true rfl hb⟩
  · rw [if_neg (fun heq => hb (hmask.mp heq)), if_neg (fun heq => hb (hmask.mp heq)),
      bsf_of_mod_256 hb hmod, ffsll_eq hb hmod]
    refine ⟨_, rfl, iff_of_false (fun heq => ?_) hb⟩
    obtain ⟨mask, -, heq⟩ := Option.bind_eq_some_iff.mp heq
    -- one byte more than the other decoder moves over
    have hadvance := congrArg (fun r : DecodeResult => r.advance.toNat) (Option.some.inj heq)
    have h8 := (bsf_byte b hb).1
    simp only [UInt64.toNat_ofNat'] at hadvance
    omega

/-- The words whose encoding starts with a zero byte. -/
theorem encode_zero_iff (v : UInt64) (rest : List UInt8) :
    (encode v ++ rest)[0]? = some 0 ↔ 2 ^ 56 ≤ v.toNat := by
  obtain ⟨b, tail, hencode, hlength, -⟩ := encode_eq_cons v
  rw [length_encode] at hlength
  rw [hencode, List.cons_append, List.getElem?_cons_zero, Option.some.injEq]
  constructor
  · rintro rfl
    by_contra hv
    obtain ⟨bits, hbits, -, -, henc⟩ := encodeUnsigned_short (Nat.lt_of_not_le hv)
    rw [henc, UInt64.toNat_add, UInt64.toNat_ofNat', show varintLength 0 = 9 from rfl] at hlength
    simp only [UInt64.reduceToNat] at hlength
    omega
  · intro hv
    rw [encode, encodeUnsigned_long (Nat.not_lt_of_le hv)] at hencode
    exact (List.cons.inj hencode).1.symm

/-- **The two builds.**  The decoders agree, with no access beyond the masks, on the bytes that
start with a zero; the encoders agree on every word.  What is encoded is decoded again by the x86-64
build, and by the other one if it is a word from `2^56` on. -/
theorem builds_agree_iff {bytes : List UInt8} (h : 9 ≤ bytes.length) {v : UInt64}
    {rest : List UInt8} (hrest : 9 ≤ (encode v ++ rest).length) :
    (∃ r, decodeUnsigned (fun i => bytes[i]?) = some r ∧
      (decodeUnsignedPortable (fun i => bytes[i]?) = some r ↔ bytes[0]? = some 0)) ∧
    encodeUnsignedPortable v = encodeUnsigned v ∧
    decodeUnsigned (fun i => (encode v ++ rest)[i]?) = some ⟨(encodeUnsigned v).2, v⟩ ∧
    (decodeUnsignedPortable (fun i => (encode v ++ rest)[i]?) = some ⟨(encodeUnsigned v).2, v⟩ ↔
      2 ^ 56 ≤ v.toNat) := by
  have hdecode : decodeUnsigned (fun i => (encode v ++ rest)[i]?) =
      some ⟨(encodeUnsigned v).2, v⟩ := by
    refine decodeUnsigned_encode (fun i hi => List.getElem?_append_left hi) fun i hi => ?_
    rw [List.getElem?_eq_getElem (by omega)]
    rfl
  obtain ⟨r, hr, hiff⟩ := decoders_agree_iff hrest
  obtain rfl := Option.some.inj (hr.symm.trans hdecode)
  exact ⟨decoders_agree_iff h, encodeUnsignedPortable_eq v, hdecode,
    hiff.trans (encode_zero_iff v rest)⟩

theorem builds_agree_iff_one :
    decodeUnsignedPortable (fun i => (encode 1 ++ [0, 0, 0, 0, 0, 0, 0, 0])[i]?) ≠
      some ⟨(encodeUnsigned 1).2, 1⟩ := by
  have hbytes : 9 ≤ ([0, 1, 2, 3, 4, 5, 6, 7, 8] : List UInt8).length := by decide
  have hrest : 9 ≤ (encode 1 ++ [0, 0, 0, 0, 0, 0, 0, 0]).length := by decide
  intro heq
  exact absurd ((builds_agree_iff hbytes hrest).2.2.2.mp heq) (by decide)

/-- The byte of the word `1`: one decoder moves over it and returns `1`, the other one moves over
two bytes and returns `0`.  For a first byte `0x80` the other one has no mask. -/
theorem builds_disagree :
    decodeUnsigned (fun i => [3, 0, 0, 0, 0, 0, 0, 0, 0][i]?) = some ⟨1, 1⟩ ∧
      decodeUnsignedPortable (fun i => [3, 0, 0, 0, 0, 0, 0, 0, 0][i]?) = some ⟨2, 0⟩ ∧
      decodeUnsignedPortable (fun i => [0x80, 0, 0, 0, 0, 0, 0, 0, 0][i]?) = none ∧
      ¬ ∀ bytes : List UInt8, 9 ≤ bytes.length →
        decodeUnsignedPortable (fun i => bytes[i]?) = decodeUnsigned fun i => bytes[i]? := by
  refine ⟨by decide, by decide, by decide, fun hagree => ?_⟩
  exact absurd (hagree [3, 0, 0, 0, 0, 0, 0, 0, 0] (by decide)) (by decide)

end MallocTraceReplay.AltVarintCodec
