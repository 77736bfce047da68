import Mathlib.Order.Bounds.Defs
import Mathlib.Order.Basic
import Mathlib.Data.List.GetD
import Mathlib.Tactic.ByContra
import Mathlib.Tactic.Push
import Mathlib.Data.Nat.Notation

/-!
# Bitmaps with summaries

A bitmap is a list of words of 64 bits.  The words that are not there yet count as having every
bit set, so that a bitmap has no end, and growing it by such a word does not change it
(`word_grow`).  A bitmap summarizes another one when its bits say which words of the other have a
bit set (`Summary`).  The least bit set of a summarized bitmap is found through its summary
(`Summary.isLeast`), and the summary is kept up by changing it only when a word becomes zero or
ceases to be (`Summary.setBit_of_unchanged`, `Summary.setBit_both`).
-/

namespace Bitmap

/-! ### Words and bits -/

/-- A word of a bitmap; those beyond its end have every bit set. -/
def word (v : List UInt64) (i : ℕ) : UInt64 := v.getD i (~~~0)

/-- A bit of a bitmap. -/
def bit (v : List UInt64) (i : ℕ) : Bool := (word v (i / 64)).toNat.testBit (i % 64)

/-- The bitmap with a bit changed, in a word that is there. -/
def setBit (v : List UInt64) (pos : ℕ) (b : Bool) : List UInt64 :=
  v.set (pos / 64)
    (if b then word v (pos / 64) ||| ((1 : UInt64) <<< UInt64.ofNat (pos % 64))
    else word v (pos / 64) &&& ~~~((1 : UInt64) <<< UInt64.ofNat (pos % 64)))

/-- The bitmap with the word at its end, if that is the one asked for. -/
def grow (v : List UInt64) (i : ℕ) : List UInt64 := if v.length ≤ i then v ++ [~~~0] else v

theorem word_of_length_le {v : List UInt64} {i : ℕ} (h : v.length ≤ i) : word v i = ~~~0 :=
  List.getD_eq_default _ _ h

theorem word_eq_getElem {v : List UInt64} {i : ℕ} (h : i < v.length) : word v i = v[i] := by
  unfold word
  rw [List.getD_eq_getElem _ _ h]

/-- A word that is zero is there. -/
theorem lt_length_of_word_eq_zero {v : List UInt64} {i : ℕ} (h : word v i = 0) : i < v.length := by
  by_contra hle
  rw [word_of_length_le (Nat.le_of_not_lt hle)] at h
  exact absurd h (by decide)

/-- A word is zero when it has no bit set. -/
theorem ne_zero_iff {w : UInt64} : w ≠ 0 ↔ ∃ k < 64, w.toNat.testBit k = true := by
  constructor
  · intro hne
    by_contra hno
    push Not at hno
    apply hne
    apply UInt64.toNat_inj.mp
    apply Nat.eq_of_testBit_eq
    intro k
    rw [show (0 : UInt64).toNat = 0 from rfl, Nat.zero_testBit]
    by_cases hk : k < 64
    · simpa using hno k hk
    · exact Nat.testBit_lt_two_pow
        (Nat.lt_of_lt_of_le w.toNat_lt
          (Nat.pow_le_pow_right (Nat.succ_pos 1) (Nat.le_of_not_lt hk)))
  · rintro ⟨k, -, hk⟩ rfl
    simp at hk

theorem bit_mul_add {v : List UInt64} {i k : ℕ} (hk : k < 64) :
    bit v (i * 64 + k) = (word v i).toNat.testBit k := by
  unfold bit
  rw [show (i * 64 + k) / 64 = i by omega, show (i * 64 + k) % 64 = k by omega]

/-- The word of a bit that is set is not zero. -/
theorem word_ne_zero_of_bit {v : List UInt64} {i : ℕ} (h : bit v i = true) :
    word v (i / 64) ≠ 0 :=
  ne_zero_iff.mpr ⟨i % 64, Nat.mod_lt _ (by decide), h⟩

/-! ### Growing -/

@[simp] theorem word_grow (v : List UInt64) (i j : ℕ) : word (grow v i) j = word v j := by
  unfold grow
  split
  · by_cases hj : j < v.length
    · unfold word
      rw [List.getD_append _ _ _ _ hj]
    · rw [word_of_length_le (Nat.le_of_not_lt hj), word, List.getD_append_right _ _ _ _ (by omega)]
      cases h : j - v.length <;> rfl
  · rfl

/-- **Growing a bitmap** does not change its bits. -/
@[simp] theorem bit_grow (v : List UInt64) (i j : ℕ) : bit (grow v i) j = bit v j := by
  unfold bit
  rw [word_grow]

theorem length_grow {v : List UInt64} {i : ℕ} (h : i ≤ v.length) :
    (grow v i).length = max v.length (i + 1) := by
  unfold grow
  split
  · rw [List.length_append, List.length_singleton]
    omega
  · omega

/-! ### Changing a bit -/

theorem length_setBit (v : List UInt64) (pos : ℕ) (b : Bool) :
    (setBit v pos b).length = v.length := by
  unfold setBit
  rw [List.length_set]

theorem word_setBit_of_ne {v : List UInt64} {pos i : ℕ} {b : Bool} (h : pos / 64 ≠ i) :
    word (setBit v pos b) i = word v i := by
  unfold word setBit
  rw [List.getD_eq_getElem?_getD, List.getElem?_set_ne h, List.getD_eq_getElem?_getD]

theorem word_setBit_self {v : List UInt64} {pos : ℕ} {b : Bool} (h : pos / 64 < v.length) :
    word (setBit v pos b) (pos / 64) =
      if b then word v (pos / 64) ||| ((1 : UInt64) <<< UInt64.ofNat (pos % 64))
      else word v (pos / 64) &&& ~~~((1 : UInt64) <<< UInt64.ofNat (pos % 64)) := by
  rw [word, setBit, List.getD_eq_getElem?_getD, List.getElem?_set_self h]
  rfl

/-- The word with one bit set. -/
theorem testBit_one_shiftLeft {k j : ℕ} (hk : k < 64) :
    ((1 : UInt64) <<< UInt64.ofNat k).toNat.testBit j = decide (j = k) := by
  have hk64 : (UInt64.ofNat k).toNat = k := by
    rw [UInt64.toNat_ofNat']
    omega
  rw [UInt64.toNat_shiftLeft, hk64, Nat.mod_eq_of_lt hk, show (1 : UInt64).toNat = 1 from rfl,
    Nat.one_shiftLeft, Nat.mod_eq_of_lt (Nat.pow_lt_pow_right (by decide) hk), Nat.testBit_two_pow]
  simp [eq_comm]

/-- The bits of a word that is inverted. -/
theorem testBit_not {w : UInt64} {j : ℕ} (hj : j < 64) :
    (~~~w).toNat.testBit j = !w.toNat.testBit j := by
  have h := Nat.testBit_two_pow_sub_succ w.toNat_lt j
  rw [UInt64.toNat_not]
  show (2 ^ 64 - 1 - w.toNat).testBit j = _
  rw [show 2 ^ 64 - 1 - w.toNat = 2 ^ 64 - (w.toNat + 1) by omega, h]
  simp [hj]

/-- **Changing a bit** changes just that bit. -/
theorem bit_setBit {v : List UInt64} {pos : ℕ} {b : Bool} (h : pos / 64 < v.length) (i : ℕ) :
    bit (setBit v pos b) i = if i = pos then b else bit v i := by
  unfold bit
  by_cases hdiv : pos / 64 = i / 64
  · rw [← hdiv, word_setBit_self h]
    have hpos := Nat.mod_lt pos (show 64 > 0 by decide)
    have hi := Nat.mod_lt i (show 64 > 0 by decide)
    have hiff : i % 64 = pos % 64 ↔ i = pos := by omega
    cases b with
    | true =>
      rw [if_pos rfl, UInt64.toNat_or, Nat.testBit_or, testBit_one_shiftLeft hpos]
      by_cases heq : i = pos
      · simp [heq]
      · simp [hiff, heq]
    | false =>
      rw [if_neg (by decide), UInt64.toNat_and, Nat.testBit_and, testBit_not hi,
        testBit_one_shiftLeft hpos]
      by_cases heq : i = pos
      · simp [heq]
      · simp [hiff, heq]
  · rw [word_setBit_of_ne hdiv, if_neg fun heq => hdiv (by rw [heq])]

/-- A word gets a bit. -/
theorem word_setBit_true {v : List UInt64} {pos : ℕ} (h : pos / 64 < v.length) :
    word (setBit v pos true) (pos / 64) ≠ 0 :=
  word_ne_zero_of_bit (by rw [bit_setBit h, if_pos rfl])

/-- A word that is zero without a bit has no other. -/
theorem word_ne_zero_of_setBit_false {v : List UInt64} {pos : ℕ} (h : pos / 64 < v.length)
    (hne : word (setBit v pos false) (pos / 64) ≠ 0) : word v (pos / 64) ≠ 0 := by
  rintro heq
  apply hne
  rw [word_setBit_self h, heq]
  simp

/-! ### Summaries -/

/-- The bits of `u` say which words of `v` have a bit set, and `u` has just the words for those of
`v` that are there. -/
structure Summary (v u : List UInt64) : Prop where
  bit_iff : ∀ i, bit u i = true ↔ word v i ≠ 0
  covered : v.length ≤ 64 * u.length
  tight : 64 * u.length < v.length + 64

theorem summary_nil : Summary [] [] where
  bit_iff i := by
    have hbit : bit [] i = true := by
      unfold bit
      rw [word_of_length_le (Nat.zero_le _), testBit_not (Nat.mod_lt _ (by decide))]
      simp
    exact ⟨fun _ => by rw [word_of_length_le (Nat.zero_le _)]; decide, fun _ => hbit⟩
  covered := Nat.zero_le _
  tight := by decide

namespace Summary

variable {v u : List UInt64} {pos i k : ℕ} {b : Bool}

/-- **The least bit** is found through the summary. -/
theorem isLeast (h : Summary v u) (hpos : IsLeast {i | bit u i = true} pos)
    (hk : IsLeast {k | (word v pos).toNat.testBit k = true} k) (hk64 : k < 64) :
    IsLeast {i | bit v i = true} (pos * 64 + k) := by
  refine ⟨?_, fun i hi => ?_⟩
  · show bit v (pos * 64 + k) = true
    rw [bit_mul_add hk64]
    exact hk.1
  · have hle : pos ≤ i / 64 := hpos.2 ((h.bit_iff _).mpr (word_ne_zero_of_bit hi))
    by_cases heq : pos = i / 64
    · have : k ≤ i % 64 := hk.2 (by rw [heq]; exact hi)
      omega
    · omega

/-- A summary without bits in its words says that every word is there and zero. -/
theorem exhausted (h : Summary v u) (hzero : ∀ i < u.length, word u i = 0) :
    v.length = 64 * u.length ∧ ∀ i < v.length, word v i = 0 := by
  have hword : ∀ i < 64 * u.length, word v i = 0 := by
    intro i hi
    by_contra hne
    exact word_ne_zero_of_bit ((h.bit_iff i).mpr hne) (hzero _ (by omega))
  have hle : 64 * u.length ≤ v.length := by
    by_contra hlt
    exact absurd (lt_length_of_word_eq_zero (hword v.length (by omega))) (Nat.lt_irrefl _)
  exact ⟨by have := h.covered; omega, fun i hi => hword i (by have := h.covered; omega)⟩

/-- The place of the least bit of a summary is in a word that is there, or the next one. -/
theorem le_length (h : Summary v u) (hpos : IsLeast {i | bit u i = true} pos) : pos ≤ v.length := by
  apply hpos.2
  show bit u v.length = true
  rw [h.bit_iff, word_of_length_le (Nat.le_refl _)]
  decide

/-- No word before the least bit has a bit. -/
theorem word_eq_zero_of_lt (h : Summary v u) (hpos : IsLeast {i | bit u i = true} pos)
    (hi : i < pos) : word v i = 0 := by
  by_contra hne
  exact absurd (hpos.2 ((h.bit_iff i).mpr hne)) (Nat.not_le_of_lt hi)

/-- **A bitmap grows with its summary**, at the least bit. -/
theorem grow (h : Summary v u) (hpos : IsLeast {i | bit u i = true} pos)
    (hdiv : pos / 64 ≤ u.length) (hzero : pos / 64 = u.length → ∀ i < u.length, word u i = 0) :
    Summary (grow v pos) (grow u (pos / 64)) := by
  have hlen := length_grow (h.le_length hpos)
  have hulen := length_grow hdiv
  have hcovered := h.covered
  have htight := h.tight
  refine ⟨fun i => ?_, ?_, ?_⟩
  · rw [bit_grow, word_grow]
    exact h.bit_iff i
  all_goals
    rw [hlen, hulen]
    by_cases hfull : pos / 64 = u.length
    · have := (h.exhausted (hzero hfull)).1
      have := h.le_length hpos
      omega
    · omega

/-- A change of a bit that leaves a word zero, or not, leaves the summary as it is. -/
theorem setBit_of_unchanged (h : Summary v u)
    (hsame : word (setBit v pos b) (pos / 64) ≠ 0 ↔ word v (pos / 64) ≠ 0) :
    Summary (setBit v pos b) u := by
  refine ⟨fun i => ?_, by rw [length_setBit]; exact h.covered, by rw [length_setBit]; exact h.tight⟩
  by_cases hi : pos / 64 = i
  · rw [← hi, hsame]
    exact h.bit_iff _
  · rw [word_setBit_of_ne hi]
    exact h.bit_iff i

/-- A change of a bit that makes a word zero, or not, is made in the summary as well. -/
theorem setBit_both (h : Summary v u) (hpos : pos / 64 / 64 < u.length)
    (hb : word (setBit v pos b) (pos / 64) ≠ 0 ↔ b = true) :
    Summary (setBit v pos b) (setBit u (pos / 64) b) := by
  refine ⟨fun i => ?_, ?_, ?_⟩
  · rw [bit_setBit hpos]
    by_cases hi : i = pos / 64
    · rw [if_pos hi, hi]
      exact hb.symm
    · rw [if_neg hi, word_setBit_of_ne (Ne.symm hi)]
      exact h.bit_iff i
  · rw [length_setBit, length_setBit]
    exact h.covered
  · rw [length_setBit, length_setBit]
    exact h.tight

end Summary

end Bitmap
