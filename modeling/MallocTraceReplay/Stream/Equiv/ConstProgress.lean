import MallocTraceReplay.Stream.Equiv.ConstMemStream

/-!
# Progress over a `ConstMapper`

A word that is read takes a stream over a `ConstMapper` ahead, up to the end of the mapper's bytes
at most, whatever the bytes are and whether they can be read (`Bounded.mustReadVarint`).
-/

namespace MallocTraceReplay

open AltVarintCodec StepMachine

namespace AltVarintCodec

theorem bsf_lt (val : UInt32) : bsf val < 32 := by
  unfold bsf
  cases hfind : (List.range 32).find? val.toNat.testBit with
  | none => simp
  | some i => exact List.mem_range.mp (List.mem_of_find?_eq_some hfind)

/-- A varint is not empty, whatever memory holds. -/
theorem decodeUnsigned_advance {byteAt : ℕ → Option UInt8} {res : DecodeResult}
    (h : decodeUnsigned byteAt = some res) : 0 < res.advance.toNat ∧ res.advance.toNat ≤ 32 := by
  unfold decodeUnsigned at h
  obtain ⟨val, -, h⟩ := Option.bind_eq_some_iff.mp h
  split at h
  · obtain ⟨val', -, h⟩ := Option.bind_eq_some_iff.mp h
    rw [← Option.some.inj h]
    show 0 < (9 : UInt64).toNat ∧ (9 : UInt64).toNat ≤ 32
    decide
  · have hlt := bsf_lt val.toUInt32
    rw [← Option.some.inj h]
    dsimp only
    rw [UInt64.toNat_ofNat']
    omega

end AltVarintCodec

namespace MemStream

/-- The end of the bytes of the mapper. -/
def limit (s : MemStream ConstMapper) : ℕ := (s.mapper.begin_ + s.mapper.size_).toNat

/-- The stream is over bytes that end in user space, and its window, if it shows anything, is over
these bytes. -/
structure Bounded (s : MemStream ConstMapper) : Prop where
  limit_le : s.limit ≤ 2 ^ 63
  window : s.ptr.toNat < s.end_.toNat → s.end_.toNat ≤ s.limit
  strict : s.permissiveAdvance = false

variable {s s' : MemStream ConstMapper} {amount : UInt64} {ok : Bool}

/-- An extension of the window does not fail. -/
theorem realizeMore_const_eq (s : MemStream ConstMapper) (amount : UInt64) :
    ∃ ok, s.realizeMore amount = .ok (ok, { s with
      end_ := if s.ptr + max amount kRealizeSize > s.mapper.begin_ + s.mapper.size_ then
        s.mapper.begin_ + s.mapper.size_ else s.ptr + max amount kRealizeSize }) := by
  have hend := add_realize s.mapper s.realizedStart
    (s.ptr - s.realizedStart + max amount kRealizeSize)
  have hask : s.realizedStart + (s.ptr - s.realizedStart + max amount kRealizeSize) =
      s.ptr + max amount kRealizeSize := by
    rw [← UInt64.add_assoc, UInt64.add_comm s.realizedStart, UInt64.sub_add_cancel]
  rw [hask] at hend
  rw [← hend]
  exact ⟨_, rfl⟩

/-- An extension of the window ends where the bytes do at the latest. -/
theorem realizeMore_const (s : MemStream ConstMapper) (amount : UInt64) :
    ∃ ok end_, s.realizeMore amount = .ok (ok, { s with end_ := end_ }) ∧
      end_.toNat ≤ s.limit ∧
      (s.ptr.toNat ≤ s.limit → s.ptr.toNat + max amount.toNat (2 ^ 20) < 2 ^ 64 →
        s.ptr.toNat ≤ end_.toNat) := by
  obtain ⟨ok, heq⟩ := realizeMore_const_eq s amount
  refine ⟨ok, _, heq, ?_⟩
  unfold limit
  split
  · next hgt =>
    rw [gt_iff_lt, UInt64.lt_iff_toNat_lt] at hgt
    exact ⟨Nat.le_refl _, fun hle _ => hle⟩
  · next hle =>
    rw [gt_iff_lt, UInt64.lt_iff_toNat_lt] at hle
    refine ⟨by omega, fun _ hfits => ?_⟩
    have hmax := toNat_max_kRealizeSize amount
    rw [UInt64.toNat_add, hmax]
    omega

theorem Bounded.of_end (h : s.Bounded) {end_ : UInt64} (hend : end_.toNat ≤ s.limit) :
    Bounded { s with end_ := end_ } :=
  ⟨h.limit_le, fun _ => hend, h.strict⟩

/-- **`has_more`** sees bytes only where there are some. -/
theorem Bounded.hasMore (h : s.Bounded) :
    ∃ more s', s.hasMore = .ok (more, s') ∧ s'.Bounded ∧ s'.mapper = s.mapper ∧ s'.ptr = s.ptr ∧
      (more = true → s.ptr.toNat < s.limit) := by
  by_cases hlt : s.ptr < s.end_
  · refine ⟨true, s, by rw [MemStream.hasMore, if_pos hlt], h, rfl, rfl, fun _ => ?_⟩
    rw [UInt64.lt_iff_toNat_lt] at hlt
    have := h.window hlt
    omega
  · obtain ⟨ok, end_, heq, hend, -⟩ := realizeMore_const s 0
    refine ⟨decide (s.ptr < end_), _, by rw [MemStream.hasMore, if_neg hlt, heq]; rfl,
      h.of_end hend, rfl, rfl, fun hmore => ?_⟩
    rw [decide_eq_true_eq, UInt64.lt_iff_toNat_lt] at hmore
    omega

/-! ### Words -/

/-- What reading a word comes to: the stream is ahead, or the program stops. -/
def Advances (s : MemStream ConstMapper) :
    Except Abort (UInt64 × MemStream ConstMapper) → Prop
  | .error e => e ≠ .outOfFuel
  | .ok (_, s') => s'.Bounded ∧ s'.mapper = s.mapper ∧ s.ptr.toNat < s'.ptr.toNat ∧
      s'.ptr.toNat ≤ s'.limit

/-- Bytes are skipped from a place within the window. -/
theorem Bounded.advanceBy (h : s.Bounded) (hptr : s.ptr.toNat ≤ s.limit)
    (hle : s.ptr.toNat ≤ s.end_.toNat) (hpos : 0 < amount.toNat) (hamount : amount.toNat ≤ 32) :
    Advances s (s.advanceBy amount) := by
  have hlimit := h.limit_le
  -- a step within a window that shows the amount
  have hstep : ∀ end_ : UInt64, (s.ptr.toNat < end_.toNat → end_.toNat ≤ s.limit) →
      s.ptr.toNat ≤ end_.toNat → end_ - s.ptr ≥ amount →
      Advances s (.ok (s.ptr, { s with end_ := end_, ptr := s.ptr + amount })) := by
    intro end_ hend hle hge
    have hsub : (end_ - s.ptr).toNat = end_.toNat - s.ptr.toNat :=
      UInt64.toNat_sub_of_le _ _ (UInt64.le_iff_toNat_le.mpr hle)
    rw [ge_iff_le, UInt64.le_iff_toNat_le, hsub] at hge
    have hend := hend (by omega)
    have hnew : (s.ptr + amount).toNat = s.ptr.toNat + amount.toNat := by
      rw [UInt64.toNat_add]
      omega
    refine ⟨⟨hlimit, fun _ => hend, h.strict⟩, rfl, ?_, ?_⟩
    · show s.ptr.toNat < (s.ptr + amount).toNat
      omega
    · show (s.ptr + amount).toNat ≤ s.limit
      omega
  unfold MemStream.advanceBy
  split
  · next hge => exact hstep s.end_ h.window hle hge
  · obtain ⟨ok, end_, heq, hend, hshown⟩ := realizeMore_const s amount
    have hok := realizeMore_eq_ok heq
    rw [advanceBySlow, heq, ok_bind]
    dsimp only at hok ⊢
    split
    · next htrue =>
      rw [htrue] at hok
      exact hstep end_ (fun _ => hend) (hshown hptr (by omega)) (by simpa using hok.symm)
    · rw [h.strict, if_neg (by simp)]
      simp [Advances]

theorem Bounded.takeDecoded (h : s.Bounded) (hptr : s.ptr.toNat ≤ s.limit)
    (hle : s.ptr.toNat ≤ s.end_.toNat) (byteAt : ℕ → Option UInt8) :
    Advances s (s.takeDecoded byteAt) := by
  unfold MemStream.takeDecoded
  cases hdec : decodeUnsigned byteAt with
  | none => simp [Advances]
  | some res =>
    obtain ⟨hpos, hbound⟩ := decodeUnsigned_advance hdec
    have hadvance := h.advanceBy hptr hle hpos hbound
    dsimp only
    cases hres : s.advanceBy res.advance with
    | error e =>
      rw [hres] at hadvance
      exact hadvance
    | ok r =>
      rw [hres] at hadvance
      exact hadvance

/-- **`must_read_varint`** takes the stream ahead, within the bytes. -/
theorem Bounded.mustReadVarint (h : s.Bounded) (hptr : s.ptr.toNat ≤ s.limit)
    (stack : StackBytes) : Advances s (s.mustReadVarint stack) := by
  have hlimit := h.limit_le
  -- where there is a whole varint the window does not end before the place
  have hfast : ∀ s : MemStream ConstMapper, s.ptr.toNat ≤ 2 ^ 63 → s.hasAtLeastVarint = true →
      s.ptr.toNat ≤ s.end_.toNat := by
    intro s hptr hvarint
    unfold hasAtLeastVarint kMaxSize at hvarint
    rw [decide_eq_true_eq, UInt64.le_iff_toNat_le, UInt64.toNat_add] at hvarint
    simp only [UInt64.reduceToNat] at hvarint
    omega
  unfold MemStream.mustReadVarint
  split
  · next hvarint => exact h.takeDecoded hptr (hfast s (by omega) hvarint) _
  · obtain ⟨ok, end_, heq, hend, hshown⟩ := realizeMore_const s 0
    have hle := hshown hptr (by simp only [UInt64.reduceToNat]; omega)
    have h' := h.of_end hend
    rw [readVarintSlow, heq, ok_bind]
    dsimp only
    split
    · exact h'.takeDecoded hptr hle _
    · cases htmp : fillTmp stack { s with end_ := end_ } with
      | error e =>
        unfold fillTmp at htmp
        dsimp only at htmp
        rw [error_bind]
        split at htmp
        · rw [← Except.error.inj htmp]
          simp [Advances]
        · split at htmp
          · rw [← Except.error.inj htmp]
            simp [Advances]
          · simp at htmp
      | ok tmp => exact h'.takeDecoded hptr hle tmp

end MemStream

end MallocTraceReplay
