import MallocTraceReplay.Postprocess.IdTree
import MallocTraceReplay.Lib.Bitmap
import MallocTraceReplay.Lib.StepMachine
import Mathlib.Data.Finset.Basic

/-!
# Correctness of `IdTree`

Each level of the tree summarizes the one below it (`Valid`).  `allocate_id` takes the least id
that is available (`allocateId_eq`), so the tree is the set of the ids that are allocated, as long
as only those are given back (`Run.agrees`).
-/

namespace MallocTraceReplay.IdTree

open Bitmap StepMachine

/-! ### Bits -/

theorem lowestBit_isLeast {p : UInt64} (hp : p ≠ 0) :
    lowestBit p < 64 ∧ IsLeast {k | p.toNat.testBit k = true} (lowestBit p) := by
  obtain ⟨k, hk, hbit⟩ := ne_zero_iff.mp hp
  unfold lowestBit
  cases hfind : (List.range 64).find? p.toNat.testBit with
  | none =>
    have := List.find?_eq_none.mp hfind k (List.mem_range.mpr hk)
    exact absurd hbit this
  | some j =>
    obtain ⟨hj, hmem, hlow⟩ := List.find?_range_eq_some.mp hfind
    refine ⟨List.mem_range.mp hmem, hj, fun i hi => ?_⟩
    by_contra hlt
    have hno := hlow i (Nat.lt_of_not_le hlt)
    rw [show p.toNat.testBit i = true from hi] at hno
    exact absurd hno (by decide)

theorem word_cons_succ (val : UInt64) (v : List UInt64) (i : ℕ) :
    word (val :: v) (i + 1) = word v i := rfl

theorem bit_cons_add (val : UInt64) (v : List UInt64) (i : ℕ) :
    bit (val :: v) (i + 64) = bit v i := by
  unfold bit
  rw [show (i + 64) / 64 = i / 64 + 1 by omega, word_cons_succ, Nat.add_mod_right]

/-- A bit of the words after a first one that is zero. -/
theorem exists_bit_of_cons_zero {v : List UInt64} {i : ℕ} (h : bit (0 :: v) i = true) :
    ∃ j, i = j + 64 ∧ bit v j = true := by
  by_cases hi : i < 64
  · have hno := word_ne_zero_of_bit h
    rw [Nat.div_eq_of_lt hi] at hno
    exact absurd rfl hno
  · refine ⟨i - 64, by omega, ?_⟩
    rw [← bit_cons_add 0, Nat.sub_add_cancel (by omega)]
    exact h

/-- `find_set_bit` finds the least bit, if one is set in the words that are there. -/
theorem findSetBit_some {v : List UInt64} {pos : ℕ} (h : findSetBit v = some pos) :
    IsLeast {i | bit v i = true} pos ∧ pos / 64 < v.length := by
  induction v generalizing pos with
  | nil => simp [findSetBit] at h
  | cons val v ih =>
    unfold findSetBit at h
    -- the first word decides: a zero one is skipped with its 64 bits
    by_cases hval : val = 0
    · subst hval
      simp only [ne_eq, not_true_eq_false, if_false] at h
      obtain ⟨p, hp, rfl⟩ := Option.map_eq_some_iff.mp h
      obtain ⟨hleast, hlt⟩ := ih hp
      refine ⟨⟨?_, fun i hi => ?_⟩, ?_⟩
      · show bit (0 :: v) (p + 64) = true
        rw [bit_cons_add]
        exact hleast.1
      · obtain ⟨j, rfl, hj⟩ := exists_bit_of_cons_zero hi
        exact Nat.add_le_add_right (hleast.2 hj) 64
      · rw [List.length_cons]
        omega
    · -- in a nonzero one the lowest bit is the least of all
      rw [if_pos hval] at h
      obtain ⟨hlt, hbit, hlow⟩ := lowestBit_isLeast hval
      obtain rfl := Option.some.inj h
      have hword : ∀ i < 64, bit (val :: v) i = val.toNat.testBit i := by
        intro i hi
        unfold bit
        rw [Nat.div_eq_of_lt hi, Nat.mod_eq_of_lt hi]
        rfl
      refine ⟨⟨?_, fun i hi => ?_⟩, by rw [Nat.div_eq_of_lt hlt]; exact Nat.zero_lt_succ _⟩
      · exact (hword _ hlt).trans hbit
      · by_cases h64 : i < 64
        · exact hlow ((hword i h64).symm.trans hi)
        · omega

theorem findSetBit_none {v : List UInt64} (h : findSetBit v = none) :
    ∀ i < v.length, word v i = 0 := by
  induction v with
  | nil => intro i hi; exact absurd hi (Nat.not_lt_zero _)
  | cons val v ih =>
    unfold findSetBit at h
    by_cases hval : val = 0
    · simp only [hval, ne_eq, not_true_eq_false, if_false, Option.map_eq_none_iff] at h
      intro i hi
      cases i with
      | zero => exact hval
      | succ i => exact ih h i (Nat.lt_of_succ_lt_succ hi)
    · rw [if_pos hval] at h
      exact absurd h (by simp)

/-- `is_free_at` for the ids of the words that are there. -/
theorem isFreeAt_eq {t : IdTree} {id : ℕ} (h : id / 64 < t.level0.length) :
    t.isFreeAt id = .ok (bit t.level0 id) := by
  have hk := Nat.mod_lt id (show 64 > 0 by decide)
  have hbit : decide (t.level0[id / 64] &&& ((1 : UInt64) <<< UInt64.ofNat (id % 64)) ≠ 0) =
      bit t.level0 id := by
    rw [Bool.eq_iff_iff, decide_eq_true_eq, ne_zero_iff, bit, word_eq_getElem h]
    simp only [UInt64.toNat_and, Nat.testBit_and, testBit_one_shiftLeft hk, Bool.and_eq_true,
      decide_eq_true_eq]
    constructor
    · rintro ⟨k, -, hbit, rfl⟩
      exact hbit
    · intro hbit
      exact ⟨_, hk, hbit, rfl⟩
  simp only [isFreeAt, h, decide_true, check_true, ok_bind,
    List.getElem?_eq_getElem h, pure_eq_ok, hbit]

/-- Beyond them `is_free_at` fails. -/
theorem isFreeAt_of_length_le {t : IdTree} {id : ℕ} (h : ¬ id / 64 < t.level0.length) :
    t.isFreeAt id = .error (.assertion .isFreeAtRange) := by
  simp [isFreeAt, h, check]

/-! ### Setting bits -/

theorem setBitVector_eq {v : List UInt64} {pos : ℕ} (h : pos / 64 < v.length) (b : Bool) :
    setBitVector pos b v = .ok
      (decide ((if b then word v (pos / 64) else word (Bitmap.setBit v pos b) (pos / 64)) = 0),
        Bitmap.setBit v pos b) := by
  have hself := word_setBit_self (b := b) h
  rw [word_eq_getElem h] at hself
  unfold setBitVector
  simp only [h, decide_true, check_true, ok_bind, List.getElem?_eq_getElem h]
  cases b with
  | true =>
    simp only [if_true, Bitmap.setBit, word_eq_getElem h]
    rfl
  | false =>
    rw [hself]
    simp only [Bool.false_eq_true, if_false, Bitmap.setBit, word_eq_getElem h]
    rfl

/-- Each level summarizes the one below it. -/
structure Valid (t : IdTree) : Prop where
  summary1 : Summary t.level0 t.level1
  summary2 : Summary t.level1 t.level2
  summary3 : Summary t.level2 t.level3

/-- A summary and a change of a bit: either the summary need not change, or the bit is changed in
it as well. -/
theorem summary_setBitVector {v u : List UInt64} {pos : ℕ} {b flip : Bool} {v' : List UInt64}
    (h : Summary v u) (hpos : pos / 64 < v.length)
    (heq : setBitVector pos b v = .ok (flip, v')) :
    if flip then Summary v' (Bitmap.setBit u (pos / 64) b) else Summary v' u := by
  rw [setBitVector_eq hpos] at heq
  obtain ⟨rfl, rfl⟩ := Prod.mk.inj (Except.ok.inj heq)
  have hdiv : pos / 64 / 64 < u.length := by
    have := h.covered
    omega
  cases b with
  | true =>
    simp only [if_true, decide_eq_true_eq]
    split
    · exact h.setBit_both hdiv ⟨fun _ => rfl, fun _ => word_setBit_true hpos⟩
    · next hne => exact h.setBit_of_unchanged ⟨fun _ => hne, fun _ => word_setBit_true hpos⟩
  | false =>
    simp only [Bool.false_eq_true, if_false, decide_eq_true_eq]
    split
    · next hzero =>
      exact h.setBit_both hdiv ⟨fun hne => absurd hzero hne, fun hno => absurd hno (by decide)⟩
    · next hne =>
      exact h.setBit_of_unchanged ⟨word_ne_zero_of_setBit_false hpos, fun _ => hne⟩

/-- **`set_bit`** changes one bit of level 0 and keeps the summaries up. -/
theorem setBit_eq {t : IdTree} (ht : t.Valid) {pos : ℕ} (hpos : pos / 64 < t.level0.length)
    (b : Bool) : ∃ t', t.setBit pos b = .ok t' ∧ t'.Valid ∧
      t'.level0 = Bitmap.setBit t.level0 pos b := by
  -- every level covers the one below it
  have h1 : pos / 64 / 64 < t.level1.length := by
    have := ht.summary1.covered
    omega
  have h2 : pos / 64 / 64 / 64 < t.level2.length := by
    have := ht.summary2.covered
    omega
  have h3 : pos / 64 / 64 / 64 / 64 < t.level3.length := by
    have := ht.summary3.covered
    omega
  obtain ⟨flip0, hset0⟩ : ∃ flip, setBitVector pos b t.level0 = .ok (flip, _) :=
    ⟨_, setBitVector_eq hpos b⟩
  obtain ⟨flip1, hset1⟩ : ∃ flip, setBitVector (pos / 64) b t.level1 = .ok (flip, _) :=
    ⟨_, setBitVector_eq h1 b⟩
  obtain ⟨flip2, hset2⟩ : ∃ flip, setBitVector (pos / 64 / 64) b t.level2 = .ok (flip, _) :=
    ⟨_, setBitVector_eq h2 b⟩
  -- a word of the level below that flips is one bit of the next
  have hsummary1 := summary_setBitVector ht.summary1 hpos hset0
  have hsummary2 := summary_setBitVector ht.summary2 h1 hset1
  have hsummary3 := summary_setBitVector ht.summary3 h2 hset2
  unfold setBit
  rw [hset0, ok_bind]
  cases flip0 with
  | false => exact ⟨_, rfl, ⟨hsummary1, ht.summary2, ht.summary3⟩, rfl⟩
  | true =>
    simp only [Bool.not_true, Bool.false_eq_true, if_false]
    rw [hset1, ok_bind]
    cases flip1 with
    | false => exact ⟨_, rfl, ⟨hsummary1, hsummary2, ht.summary3⟩, rfl⟩
    | true =>
      simp only [Bool.not_true, Bool.false_eq_true, if_false]
      rw [hset2, ok_bind]
      cases flip2 with
      | false => exact ⟨_, rfl, ⟨hsummary1, hsummary2, hsummary3⟩, rfl⟩
      | true =>
        simp only [Bool.not_true, Bool.false_eq_true, if_false]
        rw [setBitVector_eq h3, ok_bind]
        exact ⟨_, rfl, ⟨hsummary1, hsummary2, hsummary3⟩, rfl⟩

/-! ### Allocation -/

/-- The place to allocate from at the top, which grows when it is exhausted. -/
theorem topPos_eq {t : IdTree} (ht : t.Valid) :
    ∃ pos, t.topPos = .ok (pos, { t with level3 := grow t.level3 (pos / 64) }) ∧
      IsLeast {i | bit t.level3 i = true} pos ∧ pos / 64 ≤ t.level3.length ∧
      (pos / 64 = t.level3.length → ∀ i < t.level3.length, word t.level3 i = 0) := by
  unfold topPos
  cases hfind : findSetBit t.level3 with
  | some pos =>
    -- there is room below
    obtain ⟨hleast, hlt⟩ := findSetBit_some hfind
    refine ⟨pos, ?_, hleast, Nat.le_of_lt hlt, fun heq => by omega⟩
    rw [grow, if_neg (by omega)]
  | none =>
    -- all is full, so the lengths of the levels are those of full trees
    have hzero3 := findSetBit_none hfind
    obtain ⟨hlen2, hzero2⟩ := ht.summary3.exhausted hzero3
    obtain ⟨hlen1, hzero1⟩ := ht.summary2.exhausted hzero2
    obtain ⟨hlen0, -⟩ := ht.summary1.exhausted hzero1
    have hdiv : t.level3.length * 64 / 64 = t.level3.length := by omega
    refine ⟨t.level3.length * 64, ?_, ⟨?_, fun i hi => ?_⟩, by omega, fun _ => hzero3⟩
    · have hsize2 : t.level2.length = t.level3.length * 64 := by omega
      have hsize1 : t.level1.length = t.level3.length * 64 * 64 := by omega
      have hsize0 : t.level0.length = t.level3.length * 64 * 64 * 64 := by omega
      simp only [hsize2, hsize1, hsize0, decide_true, check_true, ok_bind,
        pure_eq_ok, hdiv, grow, Nat.le_refl]
      rfl
    · -- the top level grows by one word, of which the first bit is free
      show bit t.level3 (t.level3.length * 64 + 0) = true
      rw [bit_mul_add (by decide), word_of_length_le (Nat.le_refl _), testBit_not (by decide)]
      rfl
    · by_contra hlt
      exact word_ne_zero_of_bit hi (hzero3 _ (by omega))

/-- A descent goes to the least bit of the word. -/
theorem descend_eq (sizes : Bool) {v : List UInt64} {pos : ℕ} (hle : pos ≤ v.length)
    (hne : word v pos ≠ 0) (hsizes : pos = v.length → sizes = true) :
    ∃ k < 64, IsLeast {k | (word v pos).toNat.testBit k = true} k ∧
      descend v pos sizes = .ok (pos * 64 + k, grow v pos) := by
  unfold descend
  by_cases hfull : pos = v.length
  · refine ⟨0, by decide, ⟨?_, fun _ _ => Nat.zero_le _⟩, ?_⟩
    · show (word v pos).toNat.testBit 0 = true
      rw [word_of_length_le (Nat.le_of_eq hfull.symm), testBit_not (by decide)]
      rfl
    · rw [if_pos (Nat.le_of_eq hfull.symm)]
      simp only [hfull, hsizes hfull, decide_true, check_true, ok_bind,
        pure_eq_ok, grow, Nat.le_refl, Nat.add_zero]
      rfl
  · have hlt : pos < v.length := by omega
    obtain ⟨hk, hleast⟩ := lowestBit_isLeast hne
    refine ⟨_, hk, hleast, ?_⟩
    rw [if_neg (by omega)]
    rw [word_eq_getElem hlt] at hne ⊢
    simp only [List.getElem?_eq_getElem hlt, bsf, hne, ne_eq, not_false_eq_true, decide_true,
      check_true, ok_bind, pure_eq_ok, grow, if_neg (Nat.not_le_of_lt hlt)]

/-- **`allocate_id`** takes the least id that is available. -/
theorem allocateId_eq {t : IdTree} (ht : t.Valid) :
    ∃ id t', t.allocateId = .ok (id, t') ∧ t'.Valid ∧ IsLeast {i | bit t.level0 i = true} id ∧
      id / 64 < t'.level0.length ∧
      ∀ i, bit t'.level0 i = if i = id then false else bit t.level0 i := by
  obtain ⟨pos, htop, hpos, hdiv, hzero3⟩ := topPos_eq ht
  -- level 2
  have hle2 := ht.summary3.le_length hpos
  have hzero2 : pos = t.level2.length → ∀ i < t.level2.length, word t.level2 i = 0 :=
    fun heq i hi => ht.summary3.word_eq_zero_of_lt hpos (by omega)
  obtain ⟨k2, hk2, hleast2, hdescend2⟩ := descend_eq
    (decide (t.level1.length = t.level2.length * 64) &&
      decide (t.level0.length = t.level2.length * 64 * 64))
    hle2 ((ht.summary3.bit_iff _).mp hpos.1) (fun heq => by
      obtain ⟨hlen1, hzero1⟩ := ht.summary2.exhausted (hzero2 heq)
      have hlen0 := (ht.summary1.exhausted hzero1).1
      simp only [Bool.and_eq_true, decide_eq_true_eq]
      omega)
  have hpos2 := ht.summary3.isLeast hpos hleast2 hk2
  -- level 1
  have hle1 := ht.summary2.le_length hpos2
  have hzero1 : pos * 64 + k2 = t.level1.length → ∀ i < t.level1.length, word t.level1 i = 0 :=
    fun heq i hi => ht.summary2.word_eq_zero_of_lt hpos2 (by omega)
  obtain ⟨k1, hk1, hleast1, hdescend1⟩ := descend_eq
    (decide (t.level0.length = t.level1.length * 64))
    hle1 ((ht.summary2.bit_iff _).mp hpos2.1) (fun heq => by
      have hlen0 := (ht.summary1.exhausted (hzero1 heq)).1
      simp only [decide_eq_true_eq]
      omega)
  have hpos1 := ht.summary2.isLeast hpos2 hleast1 hk1
  -- level 0
  have hle0 := ht.summary1.le_length hpos1
  obtain ⟨k0, hk0, hleast0, hdescend0⟩ := descend_eq true hle0
    ((ht.summary1.bit_iff _).mp hpos1.1) (fun _ => rfl)
  have hpos0 := ht.summary1.isLeast hpos1 hleast0 hk0
  -- the tree after it has grown
  set pos2 := pos * 64 + k2 with hpos2_def
  set pos1 := pos2 * 64 + k1 with hpos1_def
  set pos0 := pos1 * 64 + k0 with hpos0_def
  have hdiv2 : pos2 / 64 = pos := by omega
  have hdiv1 : pos1 / 64 = pos2 := by omega
  have hdiv0 : pos0 / 64 = pos1 := by omega
  set grown : IdTree :=
    { level0 := grow t.level0 pos1, level1 := grow t.level1 pos2, level2 := grow t.level2 pos
      level3 := grow t.level3 (pos / 64) } with hgrown_def
  have hgrown : grown.Valid := by
    refine ⟨?_, ?_, ht.summary3.grow hpos hdiv hzero3⟩
    · have := ht.summary1.grow hpos1 (by omega) (by rw [hdiv1]; exact hzero1)
      rwa [hdiv1] at this
    · have := ht.summary2.grow hpos2 (by omega) (by rw [hdiv2]; exact hzero2)
      rwa [hdiv2] at this
  have hlen0 : pos0 / 64 < grown.level0.length := by
    show _ < (grow t.level0 pos1).length
    rw [length_grow hle0]
    omega
  have hfree : grown.isFreeAt pos0 = .ok true := by
    rw [isFreeAt_eq hlen0, show bit grown.level0 pos0 = true from (bit_grow _ _ _).trans hpos0.1]
  obtain ⟨t', hset, ht', hlevel0⟩ := setBit_eq hgrown hlen0 false
  refine ⟨pos0, t', ?_, ht', hpos0, by rw [hlevel0, length_setBit]; exact hlen0, fun i => ?_⟩
  · unfold allocateId
    simp only [htop, ok_bind, hdescend2, hdescend1, hdescend0]
    rw [← hgrown_def, hfree, ok_bind]
    simp only [check_true, ok_bind, hset, pure_eq_ok]
  · rw [hlevel0, bit_setBit hlen0, show bit grown.level0 i = bit t.level0 i from bit_grow _ _ _]

/-- **`free_id`** makes an allocated id available. -/
theorem freeId_eq {t : IdTree} (ht : t.Valid) {id : ℕ} (hid : bit t.level0 id = false) :
    ∃ t', t.freeId id = .ok t' ∧ t'.Valid ∧
      ∀ i, bit t'.level0 i = if i = id then true else bit t.level0 i := by
  have hlen : id / 64 < t.level0.length := by
    by_contra hle
    unfold bit at hid
    rw [word_of_length_le (Nat.le_of_not_lt hle), testBit_not (Nat.mod_lt _ (by decide))] at hid
    simp at hid
  obtain ⟨t', hset, ht', hlevel0⟩ := setBit_eq ht hlen true
  have hbit : ∀ i, bit t'.level0 i = if i = id then true else bit t.level0 i := by
    intro i
    rw [hlevel0, bit_setBit hlen]
  refine ⟨t', ?_, ht', hbit⟩
  have hlen' : id / 64 < t'.level0.length := by
    rw [hlevel0, length_setBit]
    exact hlen
  unfold freeId
  rw [isFreeAt_eq hlen, hid, ok_bind, Bool.not_false, check_true, ok_bind, hset, ok_bind,
    isFreeAt_eq hlen', hbit, if_pos rfl, ok_bind, check_true]
  rfl

/-! ### Runs -/

/-- The ids that are allocated after some calls.  Only allocated ids are given back. -/
inductive Run : IdTree → Finset ℕ → Prop
  | empty : Run .empty ∅
  | allocate {t t' : IdTree} {ids : Finset ℕ} {id : ℕ} (hrun : Run t ids)
      (hcall : t.allocateId = .ok (id, t')) : Run t' (insert id ids)
  | free {t t' : IdTree} {ids : Finset ℕ} {id : ℕ} (hrun : Run t ids) (hid : id ∈ ids)
      (hcall : t.freeId id = .ok t') : Run t' (ids.erase id)

/-- The tree stands for the ids that are allocated. -/
structure Represents (t : IdTree) (ids : Finset ℕ) : Prop where
  valid : t.Valid
  bit_iff : ∀ i, bit t.level0 i = true ↔ i ∉ ids

theorem represents_empty : Represents .empty ∅ where
  valid := ⟨summary_nil, summary_nil, summary_nil⟩
  bit_iff i := by
    constructor
    · intro _ hi
      exact absurd hi (Finset.notMem_empty i)
    · intro _
      refine (summary_nil.bit_iff i).mpr ?_
      rw [word_of_length_le (Nat.zero_le _)]
      decide

variable {t t' : IdTree} {ids : Finset ℕ} {id : ℕ}

/-- An allocation takes the least id that is not allocated. -/
theorem Represents.allocateId (h : Represents t ids) :
    ∃ id t', t.allocateId = .ok (id, t') ∧ IsLeast {i | i ∉ ids} id ∧
      Represents t' (insert id ids) := by
  obtain ⟨id, t', hcall, ht', hleast, -, hbit⟩ := allocateId_eq h.valid
  have hset : {i | bit t.level0 i = true} = {i | i ∉ ids} := Set.ext h.bit_iff
  refine ⟨id, t', hcall, hset ▸ hleast, ht', fun i => ?_⟩
  rw [hbit, Finset.mem_insert]
  by_cases hi : i = id
  · simp [hi]
  · simp only [hi, if_false, false_or]
    exact h.bit_iff i

/-- An allocated id can be given back. -/
theorem Represents.freeId (h : Represents t ids) (hid : id ∈ ids) :
    ∃ t', t.freeId id = .ok t' ∧ Represents t' (ids.erase id) := by
  have hbit : bit t.level0 id = false := by
    rw [← Bool.not_eq_true, h.bit_iff]
    exact fun hno => hno hid
  obtain ⟨t', hcall, ht', hbit'⟩ := freeId_eq h.valid hbit
  refine ⟨t', hcall, ht', fun i => ?_⟩
  rw [hbit', Finset.mem_erase]
  by_cases hi : i = id
  · simp [hi]
  · simp only [hi, if_false]
    rw [h.bit_iff]
    exact ⟨fun hno hboth => hno hboth.2, fun hno hmem => hno ⟨hi, hmem⟩⟩

theorem Run.represents (h : Run t ids) : Represents t ids := by
  induction h with
  | empty => exact represents_empty
  | allocate hrun hcall ih =>
    obtain ⟨id, t', hcall', -, ht'⟩ := ih.allocateId
    rw [hcall] at hcall'
    obtain ⟨rfl, rfl⟩ := Prod.mk.inj (Except.ok.inj hcall')
    exact ht'
  | free hrun hid hcall ih =>
    obtain ⟨t', hcall', ht'⟩ := ih.freeId hid
    rw [hcall] at hcall'
    obtain rfl := Except.ok.inj hcall'
    exact ht'

/-- **The tree is the set of the allocated ids.**  After any calls from the empty tree that give
back allocated ids only: an allocation returns the least id that is not allocated, an allocated id
can be given back, neither with a failed assertion or an access beyond a level, and `is_free_at`
tells the ids of level 0 that are not allocated. -/
theorem Run.agrees (h : Run t ids) :
    (∃ id t', t.allocateId = .ok (id, t') ∧ IsLeast {i | i ∉ ids} id) ∧
      (∀ id ∈ ids, ∃ t', t.freeId id = .ok t') ∧
      ∀ id, t.isFreeAt id = .ok true ↔ id < 64 * t.level0.length ∧ id ∉ ids := by
  have hrep := h.represents
  refine ⟨?_, fun id hid => ?_, fun id => ?_⟩
  · obtain ⟨id, t', hcall, hleast, -⟩ := hrep.allocateId
    exact ⟨id, t', hcall, hleast⟩
  · obtain ⟨t', hcall, -⟩ := hrep.freeId hid
    exact ⟨t', hcall⟩
  · by_cases hlen : id / 64 < t.level0.length
    · rw [isFreeAt_eq hlen, ← hrep.bit_iff]
      simp only [Except.ok.injEq]
      exact ⟨fun hbit => ⟨by omega, hbit⟩, fun hboth => hboth.2⟩
    · rw [isFreeAt_of_length_le hlen]
      simp only [reduceCtorEq, false_iff, not_and]
      intro hlt
      omega

/-- The first `n` allocations give the ids below `n`. -/
theorem Run.of_allocations {n : ℕ}
    (h : iterate (fun t : IdTree => t.allocateId.map Prod.snd) n .empty = .ok t) :
    Run t (Finset.range n) := by
  induction n generalizing t with
  | zero =>
    obtain rfl := Except.ok.inj h
    exact Run.empty
  | succ n ih =>
    rw [iterate_succ'] at h
    obtain ⟨t₀, h₀, hlast⟩ := bind_eq_ok.mp h
    obtain ⟨⟨id, t'⟩, hcall, rfl⟩ := map_eq_ok.mp hlast
    have hrun := ih h₀
    obtain ⟨id', t'', hcall', hleast, -⟩ := hrun.represents.allocateId
    obtain ⟨rfl, -⟩ := Prod.mk.inj (Except.ok.inj (hcall.symm.trans hcall'))
    -- the least id that is not below `n` is `n`
    obtain rfl : id = n :=
      Nat.le_antisymm (hleast.2 (by simp)) (by simpa using hleast.1)
    rw [Finset.range_add_one]
    exact hrun.allocate hcall

/-- The tree after 65 allocations, when the id 3 has been given back. -/
def recycledTree : IdTree := ⟨[8, 0xFFFFFFFFFFFFFFFE], [allSet], [allSet], [allSet]⟩

theorem Run.agrees_recycled :
    (∃ id t', allocateId recycledTree = .ok (id, t') ∧
      IsLeast {i : ℕ | i ∉ (Finset.range 65).erase 3} id) ∧
      (∀ id ∈ (Finset.range 65).erase 3, ∃ t', freeId recycledTree id = .ok t') ∧
      ∀ id, isFreeAt recycledTree id = .ok true ↔
        id < 64 * 2 ∧ id ∉ (Finset.range 65).erase 3 := by
  have h₆₅ : Run ⟨[0, 0xFFFFFFFFFFFFFFFE], [0xFFFFFFFFFFFFFFFE], [allSet], [allSet]⟩
      (Finset.range 65) := Run.of_allocations (by decide +kernel)
  have hfreed : Run recycledTree ((Finset.range 65).erase 3) :=
    h₆₅.free (by decide) (by decide +kernel)
  exact Run.agrees hfreed

end MallocTraceReplay.IdTree
