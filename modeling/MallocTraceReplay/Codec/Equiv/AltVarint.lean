import MallocTraceReplay.Codec.AltVarint
import Mathlib.Data.Nat.Digits.Lemmas
import Mathlib.Tactic.IntervalCases
import Mathlib.Tactic.NormNum

/-!
# Correctness of `AltVarintCodec`

`readVarint` reads a varint off a list of bytes, without words or masks.  `decodeUnsigned` computes
it from any memory that starts with the bytes of the varint (`decodeUnsigned_eq`): what follows
them does not matter.  `readVarint_encode` is the round trip.

Words are compared through their values: `loadBytes` is `Nat.ofDigits 256` and `storeBytes` the
digits, so that both directions become arithmetic on powers of two.
-/

namespace MallocTraceReplay.AltVarintCodec

/-! ### Loading and storing words -/

/-- `mapM` over an option that is always there. -/
theorem mapM_eq_some_map {α β : Type*} {f : α → Option β} {g : α → β} {l : List α}
    (h : ∀ a ∈ l, f a = some (g a)) : l.mapM f = some (l.map g) := by
  induction l with
  | nil => rfl
  | cons a l ih =>
    rw [List.mapM_cons, h a (List.mem_cons_self ..),
      ih fun b hb => h b (List.mem_cons_of_mem _ hb)]
    rfl

/-- `mapM` over an option that is missing somewhere. -/
theorem mapM_eq_none {α β : Type*} {f : α → Option β} {l : List α} {a : α} (ha : a ∈ l)
    (h : f a = none) : l.mapM f = none := by
  induction l with
  | nil => simp at ha
  | cons b l ih =>
    rw [List.mapM_cons]
    rcases List.mem_cons.mp ha with rfl | ha
    · rw [h]; rfl
    · rw [ih ha]
      cases f b <;> rfl

/-- The value of a loaded word. -/
def leValue (bs : List UInt8) : ℕ := Nat.ofDigits 256 (bs.map UInt8.toNat)

theorem leValue_cons (b : UInt8) (bs : List UInt8) :
    leValue (b :: bs) = b.toNat + 256 * leValue bs := by
  rw [leValue, List.map_cons, Nat.ofDigits_cons]
  rfl

theorem leValue_lt (bs : List UInt8) : leValue bs < 256 ^ bs.length := by
  have h := Nat.ofDigits_lt_base_pow_length (b := 256) (l := bs.map UInt8.toNat) (by norm_num)
    (fun x hx => by
      obtain ⟨b, -, rfl⟩ := List.mem_map.mp hx
      exact b.toNat_lt)
  rwa [List.length_map] at h

theorem leValue_append (as bs : List UInt8) :
    leValue (as ++ bs) = leValue as + 256 ^ as.length * leValue bs := by
  rw [leValue, List.map_append, Nat.ofDigits_append, List.length_map]
  rfl

/-- The first bytes are the value modulo a power of `256`. -/
theorem leValue_take (bs : List UInt8) (k : ℕ) (hk : k ≤ bs.length) :
    leValue (bs.take k) = leValue bs % 256 ^ k := by
  conv_rhs => rw [← List.take_append_drop k bs, leValue_append]
  rw [List.length_take, Nat.min_eq_left hk, Nat.add_mul_mod_self_left, Nat.mod_eq_of_lt]
  have h := leValue_lt (bs.take k)
  rwa [List.length_take, Nat.min_eq_left hk] at h

theorem toNat_loadBytes (bs : List UInt8) (h : bs.length ≤ 8) :
    (loadBytes bs).toNat = leValue bs := by
  induction bs with
  | nil => rfl
  | cons b bs ih =>
    have hlt := leValue_lt bs
    have hpow : (256 : ℕ) ^ bs.length ≤ 256 ^ 7 :=
      Nat.pow_le_pow_right (by norm_num) (by simp only [List.length_cons] at h; omega)
    have hb := b.toNat_lt
    rw [loadBytes, UInt64.toNat_or, UInt64.toNat_shiftLeft, UInt8.toNat_toUInt64,
      ih (by simp only [List.length_cons] at h; omega), leValue_cons]
    simp only [UInt64.reduceToNat, Nat.reduceMod, Nat.shiftLeft_eq]
    rw [Nat.mod_eq_of_lt (by norm_num at hpow; omega), Nat.or_comm, Nat.mul_comm,
      ← Nat.two_pow_add_eq_or_of_lt (i := 8) (by simpa using hb)]
    norm_num
    omega

theorem length_storeBytes (v : UInt64) : (storeBytes v).length = 8 := by simp [storeBytes]

theorem toNat_getElem_storeBytes (v : UInt64) (i : ℕ) (hi : i < (storeBytes v).length) :
    ((storeBytes v)[i]).toNat = v.toNat / 256 ^ i % 256 := by
  have h8 : i < 8 := by simpa [storeBytes] using hi
  simp only [storeBytes, List.getElem_map, List.getElem_range, UInt64.toNat_toUInt8,
    UInt64.toNat_shiftRight, UInt64.toNat_mul, UInt64.toNat_ofNat', UInt64.reduceToNat]
  rw [Nat.mod_eq_of_lt (show i < 2 ^ 64 by omega), Nat.mod_eq_of_lt (show 8 * i < 2 ^ 64 by omega),
    Nat.mod_eq_of_lt (show 8 * i < 64 by omega), Nat.shiftRight_eq_div_pow, Nat.pow_mul]

/-- The first bytes stored for a word are its value modulo a power of `256`. -/
theorem leValue_take_storeBytes (v : UInt64) (k : ℕ) (hk : k ≤ 8) :
    leValue ((storeBytes v).take k) = v.toNat % 256 ^ k := by
  induction k with
  | zero => simp [leValue, Nat.mod_one]
  | succ k ih =>
    have hlt : k < (storeBytes v).length := by rw [length_storeBytes]; omega
    rw [List.take_add_one, List.getElem?_eq_getElem hlt, Option.toList_some, leValue_append,
      ih (by omega), List.length_take, length_storeBytes, Nat.min_eq_left (by omega),
      leValue_cons, toNat_getElem_storeBytes v k hlt, Nat.mod_pow_succ]
    simp [leValue]

theorem leValue_storeBytes (v : UInt64) : leValue (storeBytes v) = v.toNat := by
  have h := leValue_take_storeBytes v 8 (le_refl _)
  rw [List.take_of_length_le (by rw [length_storeBytes])] at h
  rw [h]
  exact Nat.mod_eq_of_lt v.toNat_lt

/-- Loading undoes storing. -/
theorem loadBytes_storeBytes (v : UInt64) : loadBytes (storeBytes v) = v := by
  apply UInt64.toNat.inj
  rw [toNat_loadBytes _ (by rw [length_storeBytes]), leValue_storeBytes]

/-- A load where eight bytes can be read. -/
theorem load_eq {byteAt : ℕ → Option UInt8} {off : ℕ} {f : ℕ → UInt8}
    (h : ∀ i < 8, byteAt (off + i) = some (f (off + i))) :
    load byteAt off = some (loadBytes ((List.range 8).map fun i => f (off + i))) := by
  rw [load, mapM_eq_some_map fun i hi => h i (List.mem_range.mp hi)]
  rfl

/-! ### The lowest bit -/

/-- A word whose bit `k` is its lowest. -/
theorem bsf_eq {x : UInt32} {k : ℕ} (hk : k < 32) (hbit : x.toNat.testBit k = true)
    (hlow : ∀ j < k, x.toNat.testBit j = false) : bsf x = k := by
  rw [bsf, List.find?_range_eq_some.mpr ⟨hbit, List.mem_range.mpr hk, by simpa using hlow⟩]
  rfl

/-- A byte other than `0` has a lowest bit, among the low eight. -/
theorem bsf_byte (b : UInt8) (hb : b ≠ 0) :
    bsf b.toUInt32 < 8 ∧ b.toNat.testBit (bsf b.toUInt32) = true ∧
      ∀ j < bsf b.toUInt32, b.toNat.testBit j = false := by
  obtain ⟨i, hi⟩ : ∃ i, b.toNat.testBit i = true := by
    by_contra hno
    push Not at hno
    exact hb (UInt8.toNat.inj (Nat.eq_of_testBit_eq fun i => by simpa using hno i))
  have hex : ∃ i, b.toNat.testBit i = true := ⟨i, hi⟩
  obtain ⟨k, hk, hmin⟩ : ∃ k, b.toNat.testBit k = true ∧ ∀ j < k, b.toNat.testBit j = false :=
    ⟨Nat.find hex, Nat.find_spec hex, fun j hj => by simpa using Nat.find_min hex hj⟩
  have hk8 : k < 8 := by
    by_contra hge
    have hz := Nat.testBit_lt_two_pow (x := b.toNat) (i := k)
      (lt_of_lt_of_le b.toNat_lt (Nat.pow_le_pow_right (by norm_num) (by omega)))
    rw [hz] at hk
    exact absurd hk (by simp)
  have heq : bsf b.toUInt32 = k :=
    bsf_eq (by omega) (by rwa [UInt8.toNat_toUInt32]) (by rwa [UInt8.toNat_toUInt32])
  rw [heq]
  exact ⟨hk8, hk, hmin⟩

/-- The lowest bit of a word is that of its first byte, when that is not `0`. -/
theorem bsf_of_mod_256 {v : UInt64} {b : UInt8} (hb : b ≠ 0) (h : v.toNat % 256 = b.toNat) :
    bsf v.toUInt32 = bsf b.toUInt32 := by
  obtain ⟨h8, hbit, hlow⟩ := bsf_byte b hb
  have htest : ∀ j < 8, v.toUInt32.toNat.testBit j = b.toNat.testBit j := by
    intro j hj
    rw [← h, UInt64.toNat_toUInt32, Nat.testBit_mod_two_pow,
      show (256 : ℕ) = 2 ^ 8 by norm_num, Nat.testBit_mod_two_pow]
    simp [hj, show j < 32 by omega]
  refine bsf_eq (by omega) ?_ fun j hj => ?_
  · rw [htest _ h8, hbit]
  · rw [htest _ (by omega), hlow j hj]

/-! ### Varints in a list of bytes -/

/-- The length of a varint, by its first byte. -/
def varintLength (b : UInt8) : ℕ := if b = 0 then 9 else bsf b.toUInt32 + 1

/-- The value of the varint that the bytes start with. -/
def varintValue (bs : List UInt8) : UInt64 :=
  match bs with
  | [] => 0
  | b :: rest =>
    if b = 0 then loadBytes (rest.take 8)
    else loadBytes (bs.take (varintLength b)) >>> UInt64.ofNat (varintLength b)

/-- Takes a varint off a list of bytes, if there is a whole one. -/
def readVarint (bs : List UInt8) : Option (UInt64 × List UInt8) :=
  match bs with
  | [] => none
  | b :: _ =>
    if bs.length < varintLength b then none
    else some (varintValue bs, bs.drop (varintLength b))

theorem varintLength_pos (b : UInt8) : 0 < varintLength b := by
  unfold varintLength
  split <;> omega

theorem varintLength_le (b : UInt8) : varintLength b ≤ 9 := by
  unfold varintLength
  split
  · omega
  · next h => have := (bsf_byte b h).1; omega

/-- A varint has at least one byte. -/
theorem readVarint_length_lt {bs rest : List UInt8} {v : UInt64}
    (h : readVarint bs = some (v, rest)) : rest.length < bs.length := by
  cases bs with
  | nil => simp [readVarint] at h
  | cons b tail =>
    rw [readVarint] at h
    split at h
    · simp at h
    · obtain ⟨-, rfl⟩ := Prod.mk.inj (Option.some.inj h)
      have hpos := varintLength_pos b
      rw [List.length_drop, List.length_cons]
      omega

/-- The mask for a length keeps that many groups of seven bits. -/
theorem toNat_mask (x : UInt64) (p : ℕ) (h1 : 1 ≤ p) (h8 : p ≤ 8) :
    ((x >>> UInt64.ofNat p) &&& decodeMasks.getD p 0).toNat = x.toNat / 2 ^ p % 2 ^ (7 * p) := by
  have hx := x.toNat_lt
  interval_cases p <;>
    simp only [decodeMasks, List.getD_cons_succ, List.getD_cons_zero, UInt64.toNat_and,
      UInt64.toNat_shiftRight, UInt64.reduceOfNat, UInt64.reduceToNat, Nat.reduceMod,
      Nat.shiftRight_eq_div_pow] <;>
    first
    | exact Nat.and_two_pow_sub_one_eq_mod _ 7
    | exact Nat.and_two_pow_sub_one_eq_mod _ 14
    | exact Nat.and_two_pow_sub_one_eq_mod _ 21
    | exact Nat.and_two_pow_sub_one_eq_mod _ 28
    | exact Nat.and_two_pow_sub_one_eq_mod _ 35
    | exact Nat.and_two_pow_sub_one_eq_mod _ 42
    | exact Nat.and_two_pow_sub_one_eq_mod _ 49
    | (rw [show (18446744073709551615 : ℕ) = 2 ^ 64 - 1 by norm_num,
        Nat.and_two_pow_sub_one_eq_mod]
       omega)

/-- **The decoder reads the varint that memory starts with**, whatever follows it, as long as
eight bytes can be read from each place it looks at. -/
theorem decodeUnsigned_eq {byteAt : ℕ → Option UInt8} {b : UInt8} {rest : List UInt8}
    (hlen : varintLength b ≤ (b :: rest).length)
    (hbytes : ∀ i < varintLength b, byteAt i = (b :: rest)[i]?)
    (hreads : ∀ i < 9, (byteAt i).isSome) :
    decodeUnsigned byteAt =
      some ⟨UInt64.ofNat (varintLength b), varintValue (b :: rest)⟩ := by
  obtain ⟨f, hf⟩ : ∃ f : ℕ → UInt8, ∀ i < 9, byteAt i = some (f i) :=
    ⟨fun i => (byteAt i).getD 0, fun i hi => by
      obtain ⟨x, hx⟩ := Option.isSome_iff_exists.mp (hreads i hi)
      simp [hx]⟩
  have hfb : ∀ i (hi : i < varintLength b), f i = (b :: rest).get ⟨i, by omega⟩ := by
    intro i hi
    have h := hf i (by have := varintLength_le b; omega)
    rw [hbytes i hi, List.getElem?_eq_getElem (by omega)] at h
    exact (Option.some.inj h).symm
  have hf0 : f 0 = b := hfb 0 (varintLength_pos b)
  set word := (List.range 8).map fun i => f (0 + i) with hword
  have hload : load byteAt 0 = some (loadBytes word) :=
    load_eq fun i hi => hf (0 + i) (by omega)
  have hwlen : word.length = 8 := by simp [hword]
  have hval : (loadBytes word).toNat = leValue word := toNat_loadBytes word (by omega)
  have hmod : (loadBytes word).toNat % 256 = b.toNat := by
    have h := leValue_take word 1 (by omega)
    rw [hval, ← pow_one 256, ← h]
    simp [hword, List.range_succ_eq_map, hf0, leValue]
  have hmask : (loadBytes word &&& 0xff = 0) ↔ b = 0 := by
    rw [← UInt64.toNat_inj, UInt64.toNat_and, ← UInt8.toNat_inj, ← hmod]
    exact Eq.congr_left (Nat.and_two_pow_sub_one_eq_mod _ 8)
  rw [decodeUnsigned, hload, Option.bind_eq_bind, Option.bind_some]
  by_cases hb : b = 0
  · -- the nine-byte form
    subst hb
    have hl : varintLength 0 = 9 := rfl
    rw [hl] at hlen
    have hload1 : load byteAt 1 = some (loadBytes (rest.take 8)) := by
      rw [load_eq (f := f) fun i hi => hf (1 + i) (by omega)]
      congr 2
      refine List.ext_getElem (by simp; simp at hlen; omega) fun i hi _ => ?_
      simp only [List.length_map, List.length_range] at hi
      have h := hfb (i + 1) (by rw [hl]; omega)
      simpa [Nat.add_comm 1 i] using h
    rw [if_pos (hmask.mpr rfl), hload1]
    rfl
  · obtain ⟨h8, -, -⟩ := bsf_byte b hb
    have hl : varintLength b = bsf b.toUInt32 + 1 := by rw [varintLength, if_neg hb]
    rw [if_neg (fun h => hb (hmask.mp h)), bsf_of_mod_256 hb hmod, ← hl]
    simp only [pure, Option.some.injEq, DecodeResult.mk.injEq, true_and]
    -- the bits of the value are in the first bytes
    have htake : word.take (varintLength b) = (b :: rest).take (varintLength b) := by
      refine List.ext_getElem (by rw [List.length_take, List.length_take]; omega) fun i hi _ => ?_
      rw [List.length_take] at hi
      rw [List.getElem_take, List.getElem_take]
      refine Eq.trans ?_ (hfb i (by omega))
      simp [hword]
    apply UInt64.toNat.inj
    have hshort : (word.take (varintLength b)).length ≤ 8 := by rw [List.length_take]; omega
    rw [toNat_mask _ _ (by omega) (by omega), varintValue, if_neg hb, ← htake,
      UInt64.toNat_shiftRight, toNat_loadBytes _ hshort, leValue_take _ _ (by omega), hval,
      UInt64.toNat_ofNat',
      Nat.mod_eq_of_lt (show varintLength b < 2 ^ 64 by omega),
      Nat.mod_eq_of_lt (show varintLength b < 64 by omega), Nat.shiftRight_eq_div_pow,
      show (256 : ℕ) ^ varintLength b = 2 ^ varintLength b * 2 ^ (7 * varintLength b) by
        rw [← pow_add, show (256 : ℕ) = 2 ^ 8 by norm_num, ← pow_mul]; congr 1; omega,
      Nat.mod_mul_right_div_self]

/-! ### The encoder -/

/-- The bytes of the encoding of a word: those stored, up to the place returned. -/
def encode (v : UInt64) : List UInt8 :=
  (encodeUnsigned v).1.take (encodeUnsigned v).2.toNat

/-- The table: as many bytes follow the first as there are groups of seven bits. -/
theorem encodeBits_eq (i : ℕ) (hi : i < 64) :
    (encodeBits.getD i 0).toNat = (i - 1) / 7 := by
  have h : ∀ i : Fin 64, (encodeBits.getD i.val 0).toNat = (i.val - 1) / 7 := by decide
  exact h ⟨i, hi⟩

/-- The shifted word of the short form: its lowest bit and its size say how long it is. -/
theorem encodeUnsigned_short {v : UInt64} (hv : v.toNat < 2 ^ 56) :
    ∃ bits ≤ 7, bits = ((2 * v.toNat + 1).log2 - 1) / 7 ∧
      (2 * v.toNat + 1) * 2 ^ bits < 256 ^ (bits + 1) ∧
      encodeUnsigned v =
        (storeBytes (UInt64.ofNat ((2 * v.toNat + 1) * 2 ^ bits)), UInt64.ofNat bits + 1) := by
  have hshift : v >>> 56 = 0 := by
    apply UInt64.toNat.inj
    rw [UInt64.toNat_shiftRight]
    simpa [Nat.shiftRight_eq_div_pow] using hv
  -- the value with the stop bit below it
  have hodd : ((v <<< 1) ||| 1).toNat = 2 * v.toNat + 1 := by
    rw [UInt64.toNat_or, UInt64.toNat_shiftLeft]
    simp only [UInt64.reduceToNat, Nat.reduceMod, Nat.shiftLeft_eq]
    rw [Nat.mod_eq_of_lt (by omega), Nat.mul_comm,
      ← Nat.two_pow_add_eq_or_of_lt (i := 1) (by norm_num), pow_one]
  set x := 2 * v.toNat + 1 with hx
  have hx0 : x ≠ 0 := by omega
  have hlog : bsr ((v <<< 1) ||| 1) = x.log2 := by rw [bsr, hodd]
  have hlog57 : x.log2 < 57 := (Nat.log2_lt hx0).mpr (by omega)
  have hbits : (encodeBits.getD x.log2 0).toUInt64 = UInt64.ofNat ((x.log2 - 1) / 7) := by
    apply UInt64.toNat.inj
    rw [UInt8.toNat_toUInt64, encodeBits_eq _ (by omega), UInt64.toNat_ofNat',
      Nat.mod_eq_of_lt (by omega)]
  set bits := (x.log2 - 1) / 7 with hbits_def
  have hb7 : bits ≤ 7 := by omega
  -- it has room in the bytes that the table gives
  have hfit : x * 2 ^ bits < 256 ^ (bits + 1) := by
    have h1 : x < 2 ^ (x.log2 + 1) := Nat.lt_log2_self
    have h2 : 2 ^ (x.log2 + 1) ≤ 2 ^ (7 * bits + 8) :=
      Nat.pow_le_pow_right (by norm_num) (by omega)
    calc x * 2 ^ bits < 2 ^ (7 * bits + 8) * 2 ^ bits :=
          Nat.mul_lt_mul_of_pos_right (by omega) (Nat.two_pow_pos bits)
      _ = 256 ^ (bits + 1) := by
          rw [← pow_add, show (256 : ℕ) = 2 ^ 8 by norm_num, ← pow_mul]; congr 1; omega
  have hfit64 : x * 2 ^ bits < 2 ^ 64 :=
    lt_of_lt_of_le hfit (by
      rw [show (256 : ℕ) = 2 ^ 8 by norm_num, ← pow_mul]
      exact Nat.pow_le_pow_right (by norm_num) (by omega))
  refine ⟨bits, hb7, hbits_def, hfit, ?_⟩
  rw [encodeUnsigned, if_neg (fun h => h hshift)]
  simp only [hlog, hbits]
  congr 2
  apply UInt64.toNat.inj
  rw [UInt64.toNat_shiftLeft, hodd, UInt64.toNat_ofNat', UInt64.toNat_ofNat',
    Nat.mod_eq_of_lt (show bits < 2 ^ 64 by omega), Nat.mod_eq_of_lt (show bits < 64 by omega),
    Nat.shiftLeft_eq]

/-- The encoding of a word from `2^56` on: a zero byte and all eight. -/
theorem encodeUnsigned_long {v : UInt64} (hv : ¬ v.toNat < 2 ^ 56) :
    encodeUnsigned v = (0 :: storeBytes v, 9) := by
  have hv64 := v.toNat_lt
  have hshift : v >>> 56 ≠ 0 := by
    intro h
    have h' := congrArg UInt64.toNat h
    rw [UInt64.toNat_shiftRight] at h'
    simp only [UInt64.reduceToNat, Nat.reduceMod, Nat.shiftRight_eq_div_pow] at h'
    omega
  rw [encodeUnsigned, if_pos hshift]
  refine Prod.ext (List.ext_getElem ?_ fun i hi _ => ?_) rfl
  · simp only [List.length_append, List.length_cons, List.length_nil, length_storeBytes]
  have hi9 : i < 9 := by simpa [length_storeBytes] using hi
  apply UInt8.toNat.inj
  -- the first byte has no stop bit
  rcases Nat.eq_zero_or_pos i with rfl | hpos
  · rw [List.getElem_append_left (by rw [length_storeBytes]; omega), toNat_getElem_storeBytes,
      UInt64.toNat_shiftLeft]
    simp only [UInt64.reduceToNat, Nat.reduceMod, Nat.shiftLeft_eq, List.getElem_cons_zero,
      pow_zero, UInt8.toNat_zero]
    omega
  · -- the other ones are those of the value
    obtain ⟨j, rfl⟩ : ∃ j, i = j + 1 := ⟨i - 1, by omega⟩
    rw [List.getElem_cons_succ, toNat_getElem_storeBytes]
    by_cases h7 : j + 1 < 8
    · rw [List.getElem_append_left (by rw [length_storeBytes]; omega), toNat_getElem_storeBytes,
        UInt64.toNat_shiftLeft]
      simp only [UInt64.reduceToNat, Nat.reduceMod, Nat.shiftLeft_eq]
      have hj : j < 7 := by omega
      clear hi hi9 h7 hpos
      interval_cases j <;> norm_num <;> omega
    · obtain rfl : j = 7 := by omega
      rw [List.getElem_append_right (by rw [length_storeBytes])]
      simp only [length_storeBytes, Nat.reduceAdd, Nat.sub_self, List.getElem_cons_zero,
        UInt64.toNat_toUInt8, UInt64.toNat_shiftRight, UInt64.reduceToNat, Nat.reduceMod,
        Nat.shiftRight_eq_div_pow, Nat.reducePow]

/-- The lowest bit of an odd number times a power of two. -/
theorem testBit_odd_mul_two_pow (n k : ℕ) :
    ((2 * n + 1) * 2 ^ k).testBit k = true ∧ ∀ j < k, ((2 * n + 1) * 2 ^ k).testBit j = false := by
  rw [← Nat.shiftLeft_eq]
  refine ⟨?_, fun j hj => ?_⟩
  · rw [Nat.testBit_shiftLeft]; simp
  · rw [Nat.testBit_shiftLeft]; simp; omega

/-- **The round trip**: the varint at the front of an encoded word and more bytes is the word,
and takes just the bytes of the encoding. -/
theorem readVarint_encode (v : UInt64) (rest : List UInt8) :
    readVarint (encode v ++ rest) = some (v, rest) := by
  by_cases hv : v.toNat < 2 ^ 56
  · -- the short form: the length is seen from the lowest bit of the first byte
    obtain ⟨bits, hb7, -, hfit, henc⟩ := encodeUnsigned_short hv
    set y := (2 * v.toNat + 1) * 2 ^ bits with hy
    have hy64 : y < 2 ^ 64 := lt_of_lt_of_le hfit (by
      rw [show (256 : ℕ) = 2 ^ 8 by norm_num, ← pow_mul]
      exact Nat.pow_le_pow_right (by norm_num) (by omega))
    have hadv : (UInt64.ofNat bits + 1).toNat = bits + 1 := by
      rw [UInt64.toNat_add, UInt64.toNat_ofNat']
      simp only [UInt64.reduceToNat]
      omega
    have hencode : encode v = (storeBytes (UInt64.ofNat y)).take (bits + 1) := by
      rw [encode, henc, hadv]
    have hyN : (UInt64.ofNat y).toNat = y := by
      rw [UInt64.toNat_ofNat', Nat.mod_eq_of_lt hy64]
    have hlen : (encode v).length = bits + 1 := by
      rw [hencode, List.length_take, length_storeBytes]; omega
    obtain ⟨b, tl, hcons⟩ : ∃ b tl, encode v = b :: tl :=
      List.exists_cons_of_length_eq_add_one hlen
    -- the first byte has the lowest bits of what is stored
    have hbN : b.toNat = y % 256 := by
      have h := leValue_take (encode v) 1 (by omega)
      rw [hcons, List.take_succ_cons, List.take_zero, leValue_cons, ← hcons, hencode,
        leValue_take_storeBytes _ _ (by omega), hyN, pow_one,
        Nat.mod_mod_of_dvd _ (dvd_pow_self 256 (by omega))] at h
      simpa [leValue] using h
    obtain ⟨htest, hlow⟩ := testBit_odd_mul_two_pow v.toNat bits
    rw [← hy] at htest hlow
    have hbyte : ∀ j < 8, b.toUInt32.toNat.testBit j = y.testBit j := by
      intro j hj
      rw [UInt8.toNat_toUInt32, hbN, show (256 : ℕ) = 2 ^ 8 by norm_num, Nat.testBit_mod_two_pow]
      simp [hj]
    -- its lowest set bit tells the length
    have hb0 : b ≠ 0 := by
      rintro rfl
      have h := hbyte bits (by omega)
      rw [htest] at h
      simp at h
    have hbsf : bsf b.toUInt32 = bits :=
      bsf_eq (by omega) (by rw [hbyte _ (by omega), htest])
        (fun j hj => by rw [hbyte _ (by omega), hlow j hj])
    have hvl : varintLength b = bits + 1 := by rw [varintLength, if_neg hb0, hbsf]
    rw [hcons, List.cons_append, readVarint, ← List.cons_append, ← hcons, hvl,
      if_neg (by rw [List.length_append]; omega)]
    congr 2
    · -- what is loaded is shifted back to the value
      rw [hcons, List.cons_append, varintValue, if_neg hb0, ← List.cons_append, ← hcons, hvl,
        ← hlen, List.take_left]
      apply UInt64.toNat.inj
      rw [UInt64.toNat_shiftRight, toNat_loadBytes _ (by omega), hlen, UInt64.toNat_ofNat',
        Nat.mod_eq_of_lt (show bits + 1 < 2 ^ 64 by omega),
        Nat.mod_eq_of_lt (show bits + 1 < 64 by omega), Nat.shiftRight_eq_div_pow, hencode,
        leValue_take_storeBytes _ _ (by omega), hyN, Nat.mod_eq_of_lt hfit, hy, pow_succ,
        ← Nat.div_div_eq_div_mul, Nat.mul_div_cancel _ (Nat.two_pow_pos bits)]
      omega
    · rw [← hlen, List.drop_left]
  · -- the long form: a zero, and then the whole value
    have hencode : encode v = 0 :: storeBytes v := by
      rw [encode, encodeUnsigned_long hv]
      simp only [UInt64.reduceToNat]
      rw [List.take_of_length_le (by simp [length_storeBytes])]
    have hl : varintLength 0 = 9 := rfl
    rw [hencode, List.cons_append, readVarint, hl,
      if_neg (by simp only [List.length_cons, List.length_append, length_storeBytes]; omega)]
    congr 2
    rw [varintValue, if_pos rfl, ← length_storeBytes v, List.take_left, loadBytes_storeBytes]

/-- The encoder stores at least the bytes that it moves over. -/
theorem length_encode (v : UInt64) : (encode v).length = (encodeUnsigned v).2.toNat := by
  rw [encode, List.length_take, Nat.min_eq_left]
  by_cases hv : v.toNat < 2 ^ 56
  · obtain ⟨bits, hbits, -, -, henc⟩ := encodeUnsigned_short hv
    rw [henc, length_storeBytes, UInt64.toNat_add, UInt64.toNat_ofNat']
    simp only [UInt64.reduceToNat]
    omega
  · rw [encodeUnsigned_long hv, List.length_cons, length_storeBytes]
    rfl

theorem length_encode_le (v : UInt64) : (encode v).length ≤ 9 := by
  rw [encode]
  refine (List.length_take_le' _ _).trans ?_
  by_cases hv : v.toNat < 2 ^ 56
  · obtain ⟨bits, -, -, -, henc⟩ := encodeUnsigned_short hv
    rw [henc, length_storeBytes]
    omega
  · rw [encodeUnsigned_long hv, List.length_cons, length_storeBytes]

/-- The first byte of an encoding says how long it is. -/
theorem encode_eq_cons (v : UInt64) : ∃ b rest, encode v = b :: rest ∧
    varintLength b = (encode v).length ∧ varintValue (encode v) = v := by
  have hread := readVarint_encode v []
  rw [List.append_nil] at hread
  cases hencode : encode v with
  | nil => simp [hencode, readVarint] at hread
  | cons b rest =>
    rw [hencode, readVarint] at hread
    split at hread
    · simp at hread
    · next hlen =>
      obtain ⟨hvalue, hdrop⟩ := Prod.mk.inj (Option.some.inj hread)
      have hshort := List.drop_eq_nil_iff.mp hdrop
      exact ⟨b, rest, rfl, by omega, hvalue⟩

/-- **The decoder finds an encoded word** by the bytes of its encoding. -/
theorem decodeUnsigned_encode {byteAt : ℕ → Option UInt8} {v : UInt64}
    (hbytes : ∀ i < (encode v).length, byteAt i = (encode v)[i]?)
    (hreads : ∀ i < 9, (byteAt i).isSome) :
    decodeUnsigned byteAt = some ⟨(encodeUnsigned v).2, v⟩ := by
  obtain ⟨b, rest, hencode, hlength, hvalue⟩ := encode_eq_cons v
  have hadvance : UInt64.ofNat (varintLength b) = (encodeUnsigned v).2 := by
    rw [hlength, length_encode]
    exact UInt64.ofNat_toNat
  rw [← hlength, hencode] at hbytes
  rw [hencode] at hlength hvalue
  rw [decodeUnsigned_eq (Nat.le_of_eq hlength) hbytes hreads, hvalue, hadvance]

/-- How far the encoder moves: a byte for every seven bits of the word. -/
theorem toNat_advance_of_lt {v : UInt64} {k : ℕ} (hk : k < 8) (hlow : 0 < k → 2 ^ (7 * k) ≤ v.toNat)
    (hhigh : v.toNat < 2 ^ (7 * (k + 1))) : (encodeUnsigned v).2.toNat = k + 1 := by
  have hv : v.toNat < 2 ^ 56 :=
    lt_of_lt_of_le hhigh (Nat.pow_le_pow_right (by norm_num) (by omega))
  obtain ⟨bits, hbits, hlog, -, henc⟩ := encodeUnsigned_short hv
  have hupper : (2 * v.toNat + 1).log2 < 7 * (k + 1) + 1 := by
    rw [Nat.log2_lt (by omega), Nat.pow_succ]
    omega
  have hlower : 0 < k → 7 * k + 1 ≤ (2 * v.toNat + 1).log2 := by
    intro hpos
    rw [Nat.le_log2 (by omega), Nat.pow_succ]
    have := hlow hpos
    omega
  rw [henc, UInt64.toNat_add, UInt64.toNat_ofNat']
  simp only [UInt64.reduceToNat]
  omega

/-- The words from `2^56` on take nine bytes. -/
theorem toNat_advance_of_le {v : UInt64} (h : 2 ^ 56 ≤ v.toNat) :
    (encodeUnsigned v).2.toNat = 9 := by
  rw [encodeUnsigned_long (Nat.not_lt_of_le h)]
  rfl

end MallocTraceReplay.AltVarintCodec
