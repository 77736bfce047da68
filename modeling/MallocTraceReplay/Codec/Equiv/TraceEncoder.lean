import MallocTraceReplay.Codec.TraceWriter

/-!
# Round trips of words

What `MallocTraceEncoder` puts into the words of a record, it takes out again: signed values
(`unzigzag_zigzag`), the types and values of first words (`toNat_tagged`), and times with cpus
(`unbundle_bundle`).
-/

namespace MallocTraceReplay

namespace AltVarintCodec

/-! ### Signed values -/

/-- The sign of a value in every bit. -/
theorem shiftRight_63 (v : Int64) : v >>> 63 = if v.toUInt64.toNat < 2 ^ 63 then 0 else -1 := by
  apply Int64.toBitVec_inj.mp
  rw [Int64.toBitVec_shiftRight]
  have hnat : v.toBitVec.toNat = v.toUInt64.toNat := rfl
  have hmsb := BitVec.msb_eq_decide v.toBitVec
  show v.toBitVec.sshiftRight 63 = _
  split
  · next h =>
    rw [BitVec.sshiftRight_eq_of_msb_false (by rw [hmsb, hnat]; simpa using h)]
    apply BitVec.eq_of_toNat_eq
    rw [BitVec.toNat_ushiftRight, hnat, Nat.shiftRight_eq_div_pow, Nat.div_eq_of_lt h]
    rfl
  · next h =>
    rw [BitVec.sshiftRight_eq_of_msb_true (by rw [hmsb, hnat]; simpa using h)]
    have hzero : (~~~v.toBitVec) >>> 63 = 0 := by
      apply BitVec.eq_of_toNat_eq
      rw [BitVec.toNat_ushiftRight, BitVec.toNat_not, hnat, Nat.shiftRight_eq_div_pow]
      show _ = 0
      omega
    rw [hzero]
    rfl

/-- The word of a signed value: twice its distance from zero, less one when it is negative. -/
theorem toNat_zigzag (v : Int64) : (zigzag v).toNat =
    if v.toUInt64.toNat < 2 ^ 63 then 2 * v.toUInt64.toNat
    else 2 ^ 65 - 1 - 2 * v.toUInt64.toNat := by
  have hlt := v.toUInt64.toNat_lt
  have hdouble : (v <<< 1).toUInt64.toNat = 2 * v.toUInt64.toNat % 2 ^ 64 := by
    show (v <<< 1).toBitVec.toNat = _
    rw [Int64.toBitVec_shiftLeft]
    show (v.toBitVec <<< 1).toNat = _
    rw [BitVec.toNat_shiftLeft, Nat.shiftLeft_eq, Nat.mul_comm]
    rfl
  unfold zigzag
  rw [shiftRight_63]
  split
  · rw [Int64.xor_zero, hdouble]
    omega
  · rw [Int64.xor_neg_one]
    show (~~~(v <<< 1).toUInt64).toNat = _
    rw [UInt64.toNat_not, hdouble]
    show 2 ^ 64 - 1 - _ = _
    omega

theorem toNat_unzigzag (w : UInt64) : (unzigzag w).toUInt64.toNat =
    if w.toNat % 2 = 0 then w.toNat / 2 else 2 ^ 64 - 1 - w.toNat / 2 := by
  have hsign : w &&& 1 = if w.toNat % 2 = 0 then 0 else 1 := by
    apply UInt64.toNat_inj.mp
    rw [UInt64.toNat_and]
    show w.toNat &&& 2 ^ 1 - 1 = _
    rw [Nat.and_two_pow_sub_one_eq_mod]
    split
    · next h => simpa using h
    · next h => simpa using h
  unfold unzigzag
  rw [UInt64.toUInt64_toInt64, hsign]
  split
  · rw [UInt64.sub_zero, UInt64.xor_zero, UInt64.toNat_shiftRight]
    rfl
  · have hones : (0 - 1 : UInt64) = -1 := rfl
    rw [hones, UInt64.xor_neg_one, UInt64.toNat_not, UInt64.toNat_shiftRight]
    rfl

/-- **Signed values** come back. -/
theorem unzigzag_zigzag (v : Int64) : unzigzag (zigzag v) = v := by
  have hlt := v.toUInt64.toNat_lt
  have h : (unzigzag (zigzag v)).toUInt64 = v.toUInt64 := by
    apply UInt64.toNat_inj.mp
    rw [toNat_unzigzag, toNat_zigzag]
    split <;> split <;> omega
  rw [← Int64.toInt64_toUInt64 (unzigzag _), h, Int64.toInt64_toUInt64]

/-- The difference of two words below a bound takes one bit more. -/
theorem toNat_zigzag_sub_lt {a b : UInt64} {n : ℕ} (ha : a.toNat < n) (hb : b.toNat < n)
    (hn : n ≤ 2 ^ 62) : (zigzag (a - b).toInt64).toNat < 2 * n := by
  rw [toNat_zigzag, UInt64.toUInt64_toInt64, UInt64.toNat_sub]
  split <;> omega

end AltVarintCodec

namespace MallocTraceEncoder

open AltVarintCodec

/-! ### First words -/

/-- A value and a type in one word. -/
theorem toNat_tagged {x c k : UInt64} (hk : k.toNat < 64) (hx : x.toNat < 2 ^ (64 - k.toNat))
    (hc : c.toNat < 2 ^ k.toNat) :
    ((x <<< k) ||| c).toNat = x.toNat * 2 ^ k.toNat + c.toNat := by
  have hshift : x.toNat <<< k.toNat < 2 ^ 64 := by
    rw [Nat.shiftLeft_eq]
    calc x.toNat * 2 ^ k.toNat < 2 ^ (64 - k.toNat) * 2 ^ k.toNat :=
          Nat.mul_lt_mul_of_pos_right hx (Nat.two_pow_pos _)
      _ = 2 ^ 64 := by rw [← Nat.pow_add]; congr 1; omega
  rw [UInt64.toNat_or, UInt64.toNat_shiftLeft, Nat.mod_eq_of_lt hk, Nat.mod_eq_of_lt hshift,
    ← Nat.shiftLeft_add_eq_or_of_lt hc, Nat.shiftLeft_eq]

/-- The value of a word that carries a type, as a number. -/
theorem toNat_tagged_shiftRight {x c k : UInt64} (hk : k.toNat < 64)
    (hx : x.toNat < 2 ^ (64 - k.toNat)) (hc : c.toNat < 2 ^ k.toNat) :
    ((x <<< k) ||| c).toNat >>> k.toNat = x.toNat := by
  rw [toNat_tagged hk hx hc, Nat.shiftRight_eq_div_pow, Nat.add_comm,
    Nat.add_mul_div_right _ _ (Nat.two_pow_pos _), Nat.div_eq_of_lt hc, Nat.zero_add]

/-- The value of a word that carries a type. -/
theorem tagged_shiftRight {x c k : UInt64} (hk : k.toNat < 64)
    (hx : x.toNat < 2 ^ (64 - k.toNat)) (hc : c.toNat < 2 ^ k.toNat) :
    ((x <<< k) ||| c) >>> k = x := by
  apply UInt64.toNat_inj.mp
  rw [UInt64.toNat_shiftRight, Nat.mod_eq_of_lt hk, toNat_tagged_shiftRight hk hx hc]

/-- The low bits of a word that carries a type. -/
theorem tagged_and {x c k : UInt64} {n : ℕ} (hk : k.toNat < 64) (hn : n ≤ k.toNat) :
    (((x <<< k) ||| c) &&& UInt64.ofNat (2 ^ n - 1)).toNat = c.toNat % 2 ^ n := by
  have hn64 : 2 ^ n < 2 ^ 64 := Nat.pow_lt_pow_right (by decide) (by omega)
  have hmask : (UInt64.ofNat (2 ^ n - 1)).toNat = 2 ^ n - 1 := by
    rw [UInt64.toNat_ofNat', Nat.mod_eq_of_lt (by omega)]
  rw [UInt64.toNat_and, hmask, Nat.and_two_pow_sub_one_eq_mod, UInt64.toNat_or,
    UInt64.toNat_shiftLeft, Nat.mod_eq_of_lt hk, Nat.or_mod_two_pow]
  -- nothing of the value is in the low bits
  have hzero : x.toNat <<< k.toNat % 2 ^ 64 % 2 ^ n = 0 := by
    rw [Nat.mod_mod_of_dvd _ (Nat.pow_dvd_pow 2 (by omega)), Nat.shiftLeft_eq]
    exact Nat.mod_eq_zero_of_dvd ((Nat.pow_dvd_pow 2 hn).mul_left _)
  rw [hzero, Nat.zero_or]

/-- The types in the low three bits, whatever value comes with them. -/
theorem decodeType_tagged (type : EventType) (x : UInt64) (htype : type.code.toNat < 7) :
    decodeType ((x <<< kTypeShift) ||| type.code) = type.code := by
  have hlow : ((x <<< kTypeShift) ||| type.code) &&& kTypeMask = type.code := by
    apply UInt64.toNat_inj.mp
    have h := tagged_and (x := x) (c := type.code) (k := kTypeShift) (n := 3) (by decide)
      (by decide)
    rw [Nat.mod_eq_of_lt (by omega)] at h
    exact h
  unfold decodeType
  rw [hlow]
  refine if_pos fun heq => ?_
  have := congrArg UInt64.toNat heq
  rw [show kEventExtBase.toNat = 7 from rfl] at this
  omega

/-- The types in the low eight bits, whatever value comes with them. -/
theorem decodeType_extTagged (type : EventType) (x : UInt64) (htype : type.code.toNat % 8 = 7)
    (hlt : type.code.toNat < 256) :
    decodeType ((x <<< kExtTypeShift) ||| type.code) = type.code := by
  have hlow : ((x <<< kExtTypeShift) ||| type.code) &&& kTypeMask = kEventExtBase := by
    apply UInt64.toNat_inj.mp
    have h := tagged_and (x := x) (c := type.code) (k := kExtTypeShift) (n := 3) (by decide)
      (by decide)
    exact h.trans htype
  unfold decodeType
  rw [hlow, if_neg (by simp)]
  apply UInt64.toNat_inj.mp
  have h := tagged_and (x := x) (c := type.code) (k := kExtTypeShift) (n := 8) (by decide)
    (by decide)
  rw [Nat.mod_eq_of_lt (by omega)] at h
  exact h

@[simp] theorem ofCode?_code (type : EventType) : EventType.ofCode? type.code = some type := by
  cases type <;> decide

/-! ### Times -/

/-- The cpu is what the mask of the time leaves out. -/
theorem and_not_kTSMask {w : UInt64} : (w &&& ~~~kTSMask).toNat = w.toNat % 1024 := by
  rw [UInt64.toNat_and]
  show _ &&& 2 ^ 10 - 1 = _
  rw [Nat.and_two_pow_sub_one_eq_mod]

theorem and_kTSMask_or_self (w : UInt64) : (w &&& kTSMask) ||| (w &&& ~~~kTSMask) = w := by
  apply UInt64.toBitVec_inj.mp
  apply BitVec.eq_of_getLsbD_eq
  intro i hi
  simp only [UInt64.toBitVec_or, UInt64.toBitVec_and, UInt64.toBitVec_not, BitVec.getLsbD_or,
    BitVec.getLsbD_and, BitVec.getLsbD_not, hi, decide_true, Bool.true_and]
  cases w.toBitVec.getLsbD i <;> cases kTSMask.toBitVec.getLsbD i <;> rfl

/-- A time and a cpu are kept apart by the mask. -/
theorem unbundle_bundle_eq (ts cpu : UInt64) :
    unbundleTsAndCpu (bundleTsAndCpu ts cpu) = (ts &&& kTSMask, cpu &&& ~~~kTSMask) := by
  unfold unbundleTsAndCpu bundleTsAndCpu
  congr 1
  all_goals
    apply UInt64.toBitVec_inj.mp
    apply BitVec.eq_of_getLsbD_eq
    intro i hi
    simp only [UInt64.toBitVec_or, UInt64.toBitVec_and, UInt64.toBitVec_not, BitVec.getLsbD_or,
      BitVec.getLsbD_and, BitVec.getLsbD_not, hi, decide_true, Bool.true_and]
    cases ts.toBitVec.getLsbD i <;> cases cpu.toBitVec.getLsbD i <;>
      cases kTSMask.toBitVec.getLsbD i <;> rfl

/-- **Times and cpus** come back. -/
theorem unbundle_bundle {ts cpu : UInt64} (hts : ts.toNat % 1024 = 0) (hcpu : cpu.toNat < 1024) :
    unbundleTsAndCpu (bundleTsAndCpu ts cpu) = (ts, cpu) := by
  have hlow : ts &&& ~~~kTSMask = 0 := by
    apply UInt64.toNat_inj.mp
    rw [and_not_kTSMask, hts]
    rfl
  have htime : ts &&& kTSMask = ts := by
    have h := and_kTSMask_or_self ts
    rwa [hlow, UInt64.or_zero] at h
  have hkept : cpu &&& ~~~kTSMask = cpu := by
    apply UInt64.toNat_inj.mp
    rw [and_not_kTSMask, Nat.mod_eq_of_lt hcpu]
  rw [unbundle_bundle_eq, htime, hkept]

/-! ### Sizes -/

/-- A size rounded up to eight bytes. -/
def roundUp8 (size : UInt64) : UInt64 := UInt64.ofNat ((size.toNat + 7) / 8 * 8)

theorem toNat_sizeUnits {size : UInt64} (hsize : size.toNat ≤ 2 ^ 58 - 8) :
    (sizeUnits size).toUInt64.toNat = (size.toNat + 7) / 8 := by
  unfold sizeUnits
  rw [UInt64.toUInt64_toInt64, UInt64.toNat_shiftRight, UInt64.toNat_add]
  show ((size.toNat + 7) % 2 ^ 64) >>> 3 = _
  rw [Nat.shiftRight_eq_div_pow, Nat.mod_eq_of_lt (by omega)]

/-- The units of a size make its rounded value. -/
theorem sizeUnits_shiftLeft {size : UInt64} (hsize : size.toNat ≤ 2 ^ 58 - 8) :
    (sizeUnits size).toUInt64 <<< 3 = roundUp8 size := by
  apply UInt64.toNat_inj.mp
  rw [UInt64.toNat_shiftLeft, toNat_sizeUnits hsize]
  show ((size.toNat + 7) / 8) <<< 3 % 2 ^ 64 = _
  rw [Nat.shiftLeft_eq, roundUp8, UInt64.toNat_ofNat']

end MallocTraceEncoder

end MallocTraceReplay
