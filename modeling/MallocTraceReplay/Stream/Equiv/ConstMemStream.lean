import MallocTraceReplay.Stream.Equiv.MemStream

/-!
# Streams over a `ConstMapper`

`Before m s rest`: a stream over the mapper `m`, whose bytes from the place of the stream on are
`rest`.  These streams are `Served`, and their window always shows what is asked for.
-/

namespace MallocTraceReplay

open AltVarintCodec StepMachine

/-- The bytes at an address. -/
structure BytesAt (mem : UInt64 → Option UInt8) (place : UInt64) (bytes : List UInt8) : Prop where
  fits : place.toNat + bytes.length ≤ 2 ^ 63
  loads : ∀ i < bytes.length, mem (place + UInt64.ofNat i) = bytes[i]?

theorem BytesAt.drop {mem : UInt64 → Option UInt8} {place : UInt64} {bytes : List UInt8}
    (h : BytesAt mem place bytes) {n : ℕ} (hn : n ≤ bytes.length) :
    BytesAt mem (place + UInt64.ofNat n) (bytes.drop n) := by
  have hfits := h.fits
  have hplace : (place + UInt64.ofNat n).toNat = place.toNat + n :=
    MemStream.toNat_add_ofNat (by omega)
  refine ⟨by rw [hplace, List.length_drop]; omega, fun i hi => ?_⟩
  rw [List.length_drop] at hi
  rw [List.getElem?_drop, ← h.loads (n + i) (by omega), UInt64.ofNat_add, UInt64.add_assoc]

namespace MemStream

/-- The stream over the mapper stands before `rest`.  Its window may end before its place. -/
structure Before (m : ConstMapper) (s : MemStream ConstMapper) (rest : List UInt8) : Prop where
  mapper : s.mapper = m
  start : s.realizedStart = m.begin_
  begin_le : m.begin_.toNat ≤ s.ptr.toNat
  ends : s.ptr.toNat + rest.length = m.begin_.toNat + m.size_.toNat
  window : s.end_.toNat ≤ s.ptr.toNat + rest.length
  bytes : BytesAt m.mem s.ptr rest

theorem Before.reads {m : ConstMapper} {s : MemStream ConstMapper} {rest : List UInt8}
    (h : Before m s rest) (hle : s.ptr ≤ s.end_) : Reads s rest where
  fits := h.bytes.fits
  le := UInt64.le_iff_toNat_le.mp hle
  window := h.window
  loads i hi := by
    have := h.window
    rw [h.mapper]
    exact h.bytes.loads i (by omega)

theorem toNat_max (a b : UInt64) : (max a b).toNat = max a.toNat b.toNat := by
  rw [UInt64.max_def]
  split
  · next h => rw [Nat.max_eq_right (UInt64.le_iff_toNat_le.mp h)]
  · next h =>
    rw [UInt64.le_iff_toNat_le] at h
    rw [Nat.max_eq_left (by omega)]

/-- What an extension of the window asks for. -/
theorem toNat_max_kRealizeSize (minAmount : UInt64) :
    (max minAmount kRealizeSize).toNat = max minAmount.toNat (2 ^ 20) :=
  toNat_max minAmount kRealizeSize

/-- The end of the window that the mapper gives: what is asked for, or the end of the data. -/
theorem add_realize (m : ConstMapper) (start amount : UInt64) :
    start + m.realize start amount =
      if start + amount > m.begin_ + m.size_ then m.begin_ + m.size_ else start + amount := by
  unfold ConstMapper.realize
  rw [UInt64.add_comm, UInt64.sub_add_cancel]

/-- The end of the window after a request from the place of the stream on. -/
theorem Before.toNat_realize {m : ConstMapper} {s : MemStream ConstMapper} {rest : List UInt8}
    (h : Before m s rest) {amount : UInt64} (hfits : s.ptr.toNat + amount.toNat < 2 ^ 64) :
    (s.realizedStart + m.realize s.realizedStart (s.ptr - s.realizedStart + amount)).toNat =
      s.ptr.toNat + min amount.toNat rest.length := by
  have hbegin := h.begin_le
  have hends := h.ends
  have hlen := h.bytes.fits
  have hrs : s.realizedStart.toNat = m.begin_.toNat := by rw [h.start]
  -- no sum of the request wraps around
  have hamount : (s.ptr - s.realizedStart + amount).toNat =
      s.ptr.toNat - m.begin_.toNat + amount.toNat := by
    rw [UInt64.toNat_add, UInt64.toNat_sub, hrs]
    omega
  have hend : (s.realizedStart + (s.ptr - s.realizedStart + amount)).toNat =
      s.ptr.toNat + amount.toNat := by
    rw [UInt64.toNat_add, hamount, hrs]
    omega
  have hsize : (m.begin_ + m.size_).toNat = s.ptr.toNat + rest.length := by
    rw [UInt64.toNat_add]
    omega
  rw [add_realize]
  split
  · next hgt =>
    rw [gt_iff_lt, UInt64.lt_iff_toNat_lt, hend, hsize] at hgt
    rw [hsize]
    omega
  · next hgt =>
    rw [gt_iff_lt, UInt64.lt_iff_toNat_lt, hend, hsize] at hgt
    rw [hend]
    omega

/-- What an extension of the window shows: as much as is asked for, at least a megabyte, up to
the end of the data. -/
theorem Before.realizeMore_eq {m : ConstMapper} {s : MemStream ConstMapper} {rest : List UInt8}
    (h : Before m s rest) (minAmount : UInt64)
    (hfits : s.ptr.toNat + minAmount.toNat < 2 ^ 64) :
    ∃ ok end_, s.realizeMore minAmount = .ok (ok, { s with end_ := end_ }) ∧
      end_.toNat = s.ptr.toNat + min (max minAmount.toNat (2 ^ 20)) rest.length := by
  have hlen := h.bytes.fits
  have hmax := toNat_max_kRealizeSize minAmount
  have hplace : s.ptr.toNat + (max minAmount kRealizeSize).toNat < 2 ^ 64 := by omega
  have hend := h.toNat_realize hplace
  rw [hmax] at hend
  set end_ := s.realizedStart +
    m.realize s.realizedStart (s.ptr - s.realizedStart + max minAmount kRealizeSize) with hend_
  have heq : s.realizeMore minAmount =
      .ok (decide (end_ - s.ptr ≥ minAmount), { s with end_ := end_ }) := by
    rw [hend_, ← h.mapper]
    rfl
  exact ⟨_, _, heq, hend⟩

/-- **The streams over a `ConstMapper` are served.** -/
theorem served_before (m : ConstMapper) : Served (Before m) where
  reads := fun h hle => h.reads hle
  realizeMore := by
    intro s rest minAmount ok s' h hfits heq
    obtain ⟨ok', end_, heq', hend⟩ := h.realizeMore_eq _ hfits
    rw [heq'] at heq
    obtain ⟨rfl, rfl⟩ := Prod.mk.inj (Except.ok.inj heq)
    refine ⟨⟨h.mapper, h.start, h.begin_le, h.ends, ?_, h.bytes⟩, rfl, ?_, rfl⟩
    · rw [hend]; show _ ≤ s.ptr.toNat + _; omega
    · rw [UInt64.le_iff_toNat_le, hend]; show s.ptr.toNat ≤ _; omega
  skip := by
    intro s rest n h hle hn
    have hr := h.reads hle
    have hlen := hr.shown_le
    have hptr := hr.ptr_skip hn
    have hwin := h.window
    have hends := h.ends
    have hbegin := h.begin_le
    refine ⟨h.mapper, h.start, by rw [hptr]; omega, ?_, ?_, h.bytes.drop (by omega)⟩
    · rw [hptr, List.length_drop]; omega
    · rw [hptr, List.length_drop]; show s.end_.toNat ≤ _; omega
  permissive := fun h b => ⟨h.mapper, h.start, h.begin_le, h.ends, h.window, h.bytes⟩

/-! ### The windows show what is read -/

variable {m : ConstMapper} {s : MemStream ConstMapper} {rest : List UInt8}

theorem Before.moreShown (h : Before m s rest) : MoreShown s rest := by
  obtain ⟨ok, end_, heq, hend⟩ := h.realizeMore_eq 0 (by simpa using s.ptr.toNat_lt)
  refine Or.inr ⟨ok, _, heq, ?_⟩
  show _ ≤ end_.toNat - s.ptr.toNat
  omega

theorem Before.varintShown (h : Before m s rest) : VarintShown s rest := by
  have hlen := h.bytes.fits
  obtain ⟨ok, end_, heq, hend⟩ := h.realizeMore_eq 0 (by simpa using s.ptr.toNat_lt)
  have hneed := varintNeed_le rest
  refine Or.inr ⟨ok, _, heq, ?_, fun _ n hn => ?_⟩
  · show _ ≤ end_.toNat - s.ptr.toNat
    omega
  · have h' := ((served_before m).realizeMore h (by simpa using s.ptr.toNat_lt) heq).1
    rw [UInt64.le_iff_toNat_le] at hn
    simp only [UInt64.reduceToNat] at hn
    obtain ⟨ok', end_', heq', -⟩ := h'.realizeMore_eq n
      (by show s.ptr.toNat + _ < _; omega)
    exact ⟨ok', _, heq'⟩

theorem Before.blockShown (h : Before m s rest) {amount : UInt64}
    (hfits : s.ptr.toNat + amount.toNat < 2 ^ 64) : BlockShown s amount rest := by
  obtain ⟨ok, end_, heq, hend⟩ := h.realizeMore_eq _ hfits
  refine Or.inr ⟨ok, _, heq, fun hle => ?_⟩
  show _ ≤ end_.toNat - s.ptr.toNat
  omega

/-- A new stream over a mapper whose end is below its beginning has nothing to read: the window
that the mapper gives ends before the place of the stream. -/
theorem hasMore_new_of_lt (h : m.begin_ + m.size_ < m.begin_)
    (hfits : m.begin_.toNat + 2 ^ 20 < 2 ^ 64) :
    ∃ s', (new m : MemStream ConstMapper).hasMore = .ok (false, s') := by
  have hamount : (m.begin_ - m.begin_ + max 0 kRealizeSize).toNat = 2 ^ 20 := by
    rw [UInt64.sub_self]; rfl
  have hgt : m.begin_ + (m.begin_ - m.begin_ + max 0 kRealizeSize) > m.begin_ + m.size_ := by
    rw [gt_iff_lt, UInt64.lt_iff_toNat_lt, UInt64.toNat_add _ (_ + _), hamount]
    rw [UInt64.lt_iff_toNat_lt] at h
    omega
  set end_ := m.begin_ + m.realize m.begin_ (m.begin_ - m.begin_ + max 0 kRealizeSize) with hend_
  have hend : end_ = m.begin_ + m.size_ := by rw [hend_, add_realize, if_pos hgt]
  have heq : (new m : MemStream ConstMapper).hasMore =
      .ok (decide (m.begin_ < end_), { (new m : MemStream ConstMapper) with end_ := end_ }) := by
    have hnew : ¬ (new m : MemStream ConstMapper).ptr < (new m : MemStream ConstMapper).end_ :=
      UInt64.lt_irrefl _
    rw [hasMore, if_neg hnew]
    rfl
  rw [heq, hend, decide_eq_false (UInt64.not_lt.mpr (UInt64.le_of_lt h))]
  exact ⟨_, rfl⟩

/-! ### The reading functions on these streams -/

theorem Before.hasMore_eq (h : Before m s rest) :
    ∃ s', s.hasMore = .ok (!rest.isEmpty, s') ∧ Before m s' rest ∧ s'.ptr = s.ptr ∧
      s'.ptr ≤ s'.end_ ∧ s'.permissiveAdvance = s.permissiveAdvance :=
  MemStream.hasMore_eq (served_before m) h h.moreShown

theorem Before.mustReadVarint_eq (h : Before m s rest) (hle : s.ptr ≤ s.end_)
    (hstrict : s.permissiveAdvance = false) (stack : StackBytes) :
    match readVarint rest with
    | some (v, rest') => ∃ s', s.mustReadVarint stack = .ok (v, s') ∧ Before m s' rest' ∧
        s'.ptr ≤ s'.end_ ∧ s'.permissiveAdvance = false
    | none => s.mustReadVarint stack =
        .error (.panic "trying to realize with min_amount beyond end of data") :=
  MemStream.mustReadVarint_eq (served_before m) h hle hstrict h.varintShown stack

theorem Before.tryReadVarint_eq (h : Before m s rest) (hle : s.ptr ≤ s.end_)
    (hstrict : s.permissiveAdvance = false) (stack : StackBytes) :
    match readVarint rest with
    | some (v, rest') => ∃ s', s.tryReadVarint stack = .ok (some v, s') ∧ Before m s' rest' ∧
        s'.ptr ≤ s'.end_ ∧ s'.permissiveAdvance = false
    | none => ∃ s', s.tryReadVarint stack = .ok (none, s') :=
  MemStream.tryReadVarint_eq (served_before m) h hle hstrict
    ((served_before m).permissive h true).varintShown stack

theorem Before.tryAdvanceBy_eq (h : Before m s rest) (hle : s.ptr ≤ s.end_) {amount : UInt64}
    (hfits : s.ptr.toNat + amount.toNat < 2 ^ 64) :
    if amount.toNat ≤ rest.length then
      ∃ s', s.tryAdvanceBy amount = .ok (some s.ptr, s') ∧
        Before m s' (rest.drop amount.toNat) ∧ s'.ptr ≤ s'.end_ ∧
        s'.permissiveAdvance = false ∧
        ∀ i < amount.toNat, Mapper.load s'.mapper (s.ptr + UInt64.ofNat i) = rest[i]?
    else ∃ s', s.tryAdvanceBy amount = .ok (none, s') :=
  MemStream.tryAdvanceBy_eq (served_before m) h hle hfits
    (((served_before m).permissive h true).blockShown hfits)

end MemStream

end MallocTraceReplay
