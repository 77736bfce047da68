import MallocTraceReplay.Stream.Equiv.OuterEvStream

/-!
# Reading a trace that stands in memory

What `next` does on any bytes over `ConstMapper.ofBytes`, also on those that no tracer writes.  The
size of a buffer may be so large that the end of the buffer wraps around; the stream then goes
on at an earlier place of the trace, or outside of it, where the next read ends the run.  In
every case a buffer lies within the trace or ends before it starts (`next_reader`).
-/

namespace MallocTraceReplay

open AltVarintCodec MallocTraceEncoder StepMachine

/-- The bytes are mapped in user space, which is the lower half of the addresses, and no lower
than they are long. -/
structure InUserSpace (begin_ : UInt64) (data : List UInt8) : Prop where
  length_le : data.length ≤ begin_.toNat
  fits : begin_.toNat + data.length ≤ 2 ^ 63

namespace MemStream

variable {b : UInt64} {data : List UInt8} {s s' : MemStream ConstMapper}

/-- The stream stands outside of the trace. -/
def Lost (b : UInt64) (data : List UInt8) (s : MemStream ConstMapper) : Prop :=
  data.length < (s.ptr - b).toNat

/-- A stream over a trace, wherever it stands. -/
structure Reader (b : UInt64) (data : List UInt8) (s : MemStream ConstMapper) : Prop where
  mapper : s.mapper = .ofBytes b data
  start : s.realizedStart = b
  strict : s.permissiveAdvance = false
  place : (∃ rest, Before (.ofBytes b data) s rest) ∨ Lost b data s

theorem toNat_size_ofBytes (hfits : b.toNat + data.length ≤ 2 ^ 63) :
    (ConstMapper.ofBytes b data).size_.toNat = data.length := by
  show (UInt64.ofNat data.length).toNat = _
  rw [UInt64.toNat_ofNat']
  omega

/-- The bytes of the trace from a place on. -/
theorem bytesAt_ofBytes (h : InUserSpace b data) {a : UInt64} {p : ℕ}
    (ha : a.toNat = b.toNat + p) (hp : p ≤ data.length) :
    BytesAt (ConstMapper.ofBytes b data).mem a (data.drop p) := by
  have hfits := h.fits
  refine ⟨by rw [List.length_drop]; omega, fun i hi => ?_⟩
  rw [List.length_drop] at hi
  show data[(a + UInt64.ofNat i - b).toNat]? = _
  have hidx : (a + UInt64.ofNat i - b).toNat = p + i := by
    rw [UInt64.toNat_sub, toNat_add_ofNat (by omega)]
    omega
  rw [hidx, List.getElem?_drop]

/-- A stream whose place is within the trace, and whose window is. -/
theorem before_ofBytes (h : InUserSpace b data) (hmapper : s.mapper = .ofBytes b data)
    (hstart : s.realizedStart = b) {p : ℕ} (hptr : s.ptr.toNat = b.toNat + p)
    (hp : p ≤ data.length) (hwindow : s.end_.toNat ≤ b.toNat + data.length) :
    Before (.ofBytes b data) s (data.drop p) := by
  refine ⟨hmapper, hstart, ?_, ?_, ?_, bytesAt_ofBytes h hptr hp⟩
  · show b.toNat ≤ _; omega
  · show _ = b.toNat + _
    rw [toNat_size_ofBytes h.fits, List.length_drop]; omega
  · rw [List.length_drop]; omega

/-- The stream of a new mapper. -/
theorem reader_new (h : InUserSpace b data) :
    Reader b data (new (ConstMapper.ofBytes b data)) where
  mapper := rfl
  start := rfl
  strict := rfl
  place := Or.inl ⟨_, before_ofBytes h rfl rfl (p := 0) rfl (Nat.zero_le _)
    (Nat.le_add_right _ _)⟩

theorem Before.ptr_le (hfits : b.toNat + data.length ≤ 2 ^ 63) {rest : List UInt8}
    (hs : Before (.ofBytes b data) s rest) :
    s.ptr.toNat + rest.length = b.toNat + data.length := by
  rw [hs.ends, toNat_size_ofBytes hfits]
  rfl

/-! ### A stream that is lost -/

/-- Nothing can be read where a lost stream stands. -/
theorem Lost.load_eq_none (hlost : Lost b data s) (hmapper : s.mapper = .ofBytes b data) :
    Mapper.load s.mapper (s.ptr + UInt64.ofNat 0) = none := by
  rw [hmapper]
  show data[(s.ptr + 0 - b).toNat]? = none
  rw [UInt64.add_zero]
  exact List.getElem?_eq_none (Nat.le_of_lt hlost)

/-- An extension of the window changes its end only. -/
theorem Reader.realizeMore_eq (hmapper : s.mapper = .ofBytes b data)
    (hstart : s.realizedStart = b) (minAmount : UInt64) :
    ∃ ok, s.realizeMore minAmount = .ok (ok, { s with
      end_ := if s.ptr + max minAmount kRealizeSize > b + (ConstMapper.ofBytes b data).size_ then
          b + (ConstMapper.ofBytes b data).size_
        else s.ptr + max minAmount kRealizeSize }) := by
  have hsum : b + (s.ptr - b + max minAmount kRealizeSize) =
      s.ptr + max minAmount kRealizeSize := by
    rw [← UInt64.add_assoc, UInt64.add_comm b, UInt64.sub_add_cancel]
  have hend := add_realize (ConstMapper.ofBytes b data) b (s.ptr - b + max minAmount kRealizeSize)
  rw [hsum] at hend
  refine ⟨decide (b + (ConstMapper.ofBytes b data).realize b
    (s.ptr - b + max minAmount kRealizeSize) - s.ptr ≥ minAmount), ?_⟩
  rw [show (ConstMapper.ofBytes b data).begin_ = b from rfl] at hend
  rw [← hend]
  unfold realizeMore
  rw [hmapper, hstart]
  rfl

theorem mapM_range_none {f : ℕ → Option UInt8} {n : ℕ} (hn : n ≠ 0) (h : f 0 = none) :
    (List.range n).mapM f = none :=
  mapM_eq_none (List.mem_range.mpr (Nat.pos_of_ne_zero hn)) h

/-- Nothing is decoded where a lost stream stands. -/
theorem Lost.readVarintFast_eq (hlost : Lost b data s) (hmapper : s.mapper = .ofBytes b data) :
    s.readVarintFast = .error .fault := by
  have hno := mapM_range_none (n := 8) (by omega)
    (f := fun i => Mapper.load s.mapper (s.ptr + UInt64.ofNat (0 + i)))
    (hlost.load_eq_none hmapper)
  unfold readVarintFast takeDecoded decodeUnsigned AltVarintCodec.load
  rw [hno]
  rfl

/-- The window of a lost stream does not end at its place. -/
theorem Lost.window_ne (h : InUserSpace b data) (hlost : Lost b data s) :
    (if s.ptr + max 0 kRealizeSize > b + (ConstMapper.ofBytes b data).size_ then
      b + (ConstMapper.ofBytes b data).size_ else s.ptr + max 0 kRealizeSize) ≠ s.ptr := by
  intro heq
  split at heq
  · have hback : s.ptr - b = (ConstMapper.ofBytes b data).size_ := by
      rw [← heq, UInt64.add_comm, UInt64.add_sub_cancel]
    unfold Lost at hlost
    rw [hback, toNat_size_ofBytes h.fits] at hlost
    omega
  · have hmega : (s.ptr + max 0 kRealizeSize).toNat = (s.ptr.toNat + 2 ^ 20) % 2 ^ 64 := by
      rw [UInt64.toNat_add, toNat_max_kRealizeSize]; rfl
    have := s.ptr.toNat_lt
    rw [heq] at hmega
    omega

/-- A varint is not read by a lost stream: the access faults. -/
theorem Lost.tryReadVarint_eq (h : InUserSpace b data) (hlost : Lost b data s)
    (hmapper : s.mapper = .ofBytes b data) (hstart : s.realizedStart = b) (stack : StackBytes) :
    s.tryReadVarint stack = .error .fault := by
  unfold tryReadVarint
  by_cases hwin : s.hasAtLeastVarint = true
  · rw [if_pos hwin, hlost.readVarintFast_eq hmapper]
    rfl
  · rw [if_neg hwin]
    obtain ⟨ok, hmore⟩ := Reader.realizeMore_eq
      (s := { s with permissiveAdvance := true }) hmapper hstart 0
    have hne := hlost.window_ne h
    dsimp only at hmore
    generalize (if s.ptr + max 0 kRealizeSize > b + (ConstMapper.ofBytes b data).size_ then
      b + (ConstMapper.ofBytes b data).size_ else s.ptr + max 0 kRealizeSize) = end_ at hmore hne
    generalize hs₁ : ({ s with end_ := end_, permissiveAdvance := true } :
      MemStream ConstMapper) = s₁ at hmore
    have hmapper₁ : s₁.mapper = .ofBytes b data := by rw [← hs₁]; exact hmapper
    have hlost₁ : Lost b data s₁ := by unfold Lost; rw [← hs₁]; exact hlost
    have hslow : ({ s with permissiveAdvance := true } : MemStream ConstMapper).readVarintSlow
        stack = .error .fault := by
      rw [readVarintSlow, hmore, ok_bind]
      dsimp only
      by_cases hwin₁ : s₁.hasAtLeastVarint = true
      · rw [if_pos hwin₁, hlost₁.readVarintFast_eq hmapper₁]
      · -- the temporary cannot be filled
        rw [if_neg hwin₁]
        have hn : (s₁.end_ - s₁.ptr).toNat ≠ 0 := by
          intro hzero
          apply hne
          have hsub : end_ - s.ptr = 0 := by
            rw [← hs₁] at hzero
            exact UInt64.toNat.inj hzero
          calc end_ = end_ - s.ptr + s.ptr := (UInt64.sub_add_cancel _ _).symm
            _ = s.ptr := by rw [hsub, UInt64.zero_add]
        have hno := mapM_range_none hn
          (f := fun i => Mapper.load s₁.mapper (s₁.ptr + UInt64.ofNat i))
          (hlost₁.load_eq_none hmapper₁)
        unfold fillTmp
        dsimp only
        split
        · rfl
        · rw [hno]
          rfl
    rw [hslow]
    rfl

/-- **A lost stream has no further record.** -/
theorem Lost.next_eq (h : InUserSpace b data) (hlost : Lost b data s)
    (hmapper : s.mapper = .ofBytes b data) (hstart : s.realizedStart = b) {stack : StackBytes}
    {ev ev' : OuterEvent} {ok : Bool} (hnext : s.next stack ev = .ok (ok, ev', s')) :
    ok = false := by
  unfold next at hnext
  obtain ⟨⟨more, s₁⟩, hmore, hnext⟩ := bind_eq_ok.mp hnext
  have hs₁ : s₁.ptr = s.ptr ∧ s₁.mapper = s.mapper ∧ s₁.realizedStart = s.realizedStart := by
    unfold hasMore at hmore
    split at hmore
    · rw [← (Prod.mk.inj (Except.ok.inj hmore)).2]
      exact ⟨rfl, rfl, rfl⟩
    · obtain ⟨ok', heq⟩ := Reader.realizeMore_eq hmapper hstart 0
      rw [heq, ok_bind] at hmore
      rw [← (Prod.mk.inj (Except.ok.inj hmore)).2]
      exact ⟨rfl, rfl, rfl⟩
  cases more with
  | false =>
    simp only [Bool.not_false, if_true, pure_eq_ok, Except.ok.injEq, Prod.mk.injEq] at hnext
    exact hnext.1.symm
  | true =>
    have hlost₁ : Lost b data s₁ := by unfold Lost; rw [hs₁.1]; exact hlost
    have hfault := hlost₁.tryReadVarint_eq h (hs₁.2.1.trans hmapper) (hs₁.2.2.trans hstart) stack
    simp only [Bool.not_true, Bool.false_eq_true, if_false, hfault, error_bind] at hnext
    exact absurd hnext (by simp)

/-! ### A stream within the trace -/

/-- A place somewhere, and a window that ends there. -/
theorem reader_of_window (h : InUserSpace b data) (hmapper : s.mapper = .ofBytes b data)
    (hstart : s.realizedStart = b) (hstrict : s.permissiveAdvance = false)
    (hwindow : s.end_.toNat ≤ b.toNat + data.length) : Reader b data s := by
  refine ⟨hmapper, hstart, hstrict, ?_⟩
  by_cases hlost : Lost b data s
  · exact Or.inr hlost
  · have hfits := h.fits
    have hptr : s.ptr.toNat = b.toNat + (s.ptr - b).toNat := by
      unfold Lost at hlost
      have := s.ptr.toNat_lt
      rw [UInt64.toNat_sub] at hlost ⊢
      omega
    exact Or.inl ⟨_, before_ofBytes h hmapper hstart hptr (by unfold Lost at hlost; omega) hwindow⟩

/-- A block whose end wraps around: the stream goes on there. -/
theorem Before.tryAdvanceBy_wrap (hfits : b.toNat + data.length ≤ 2 ^ 63) {rest : List UInt8}
    (hs : Before (.ofBytes b data) s rest) (hle : s.ptr ≤ s.end_) {amount : UInt64}
    (hwrap : 2 ^ 64 ≤ s.ptr.toNat + amount.toNat) :
    s.tryAdvanceBy amount = .ok (some s.ptr,
      { s with ptr := s.ptr + amount, end_ := s.ptr + amount, permissiveAdvance := false }) := by
  have hptr := hs.ptr_le hfits
  have hlen := (hs.reads hle).shown_le
  have hsum : (s.ptr + amount).toNat = s.ptr.toNat + amount.toNat - 2 ^ 64 := by
    have := amount.toNat_lt
    rw [UInt64.toNat_add]
    omega
  -- an amount that wraps is far above a megabyte
  have hmax : max amount kRealizeSize = amount := by
    apply UInt64.toNat.inj
    rw [toNat_max_kRealizeSize]
    omega
  obtain ⟨ok, hmore⟩ := Reader.realizeMore_eq
    (s := { s with permissiveAdvance := true }) hs.mapper hs.start amount
  -- the comparison with the end of the trace is made with the wrapped sum
  have hngt : ¬ s.ptr + amount > b + (ConstMapper.ofBytes b data).size_ := by
    have := amount.toNat_lt
    rw [gt_iff_lt, UInt64.lt_iff_toNat_lt, hsum, UInt64.toNat_add, toNat_size_ofBytes hfits]
    omega
  rw [hmax] at hmore
  dsimp only at hmore
  rw [if_neg hngt] at hmore
  have hok : ok = true := by
    rw [realizeMore_eq_ok hmore, decide_eq_true_eq]
    show s.ptr + amount - s.ptr ≥ amount
    rw [UInt64.add_comm, UInt64.add_sub_cancel]
    exact UInt64.le_refl _
  have hno : ¬ s.end_ - s.ptr ≥ amount := by
    rw [(hs.reads hle).window_iff]
    omega
  rw [tryAdvanceBy_def, advanceBy, if_neg hno, advanceBySlow, hmore, ok_bind]
  simp only [hok, if_true, pure_eq_ok, ok_bind, gt_iff_lt, UInt64.lt_irrefl, if_false]

/-- A block that is skipped is a buffer.  The stream may be lost afterwards. -/
theorem Before.tryAdvanceBy_reader (h : InUserSpace b data) {rest : List UInt8}
    (hs : Before (.ofBytes b data) s rest) (hle : s.ptr ≤ s.end_) {amount place : UInt64}
    (heq : s.tryAdvanceBy amount = .ok (some place, s')) :
    Reader b data s' ∧ s'.ptr ≤ s'.end_ ∧ s'.end_.toNat ≤ b.toNat + data.length ∧
      ∀ ev : OuterEvent, ev.bufStart = place → ev.bufEnd = place + amount →
        GoodBuf (ConstMapper.ofBytes b data).mem ev := by
  have hfits := h.fits
  have hptr := hs.ptr_le h.fits
  by_cases hwrap : s.ptr.toNat + amount.toNat < 2 ^ 64
  · -- no wrap: the block is in the trace, or it is not there
    have hadv := hs.tryAdvanceBy_eq hle hwrap
    by_cases hrest : amount.toNat ≤ rest.length
    · rw [if_pos hrest] at hadv
      obtain ⟨s₁, heq₁, hs₁, hle₁, hstrict₁, -⟩ := hadv
      rw [heq₁] at heq
      obtain ⟨hplace, rfl⟩ := Prod.mk.inj (Except.ok.inj heq)
      have hplace := Option.some.inj hplace
      have hptr₁ := hs₁.ptr_le h.fits
      have hwin₁ := hs₁.window
      refine ⟨⟨hs₁.mapper, hs₁.start, hstrict₁, Or.inl ⟨_, hs₁⟩⟩, hle₁, by omega, ?_⟩
      intro ev hstart hend
      have hendN : ev.bufEnd.toNat = s.ptr.toNat + amount.toNat := by
        rw [hend, ← hplace, UInt64.toNat_add]
        omega
      rw [← hplace] at hstart
      -- its bytes are those of the trace
      refine ⟨by rw [hstart]; omega, by omega, fun i hi => ?_⟩
      rw [hstart, hs.bytes.loads i (by rw [hendN, hstart] at hi; omega),
        List.getElem?_eq_getElem (by rw [hendN, hstart] at hi; omega)]
      rfl
    · rw [if_neg hrest] at hadv
      obtain ⟨s₁, heq₁⟩ := hadv
      rw [heq₁] at heq
      simp at heq
  · -- a wrap: the block ends before it starts, so it has no byte
    have hsum : (s.ptr + amount).toNat = s.ptr.toNat + amount.toNat - 2 ^ 64 := by
      have := amount.toNat_lt
      rw [UInt64.toNat_add]
      omega
    have := amount.toNat_lt
    rw [hs.tryAdvanceBy_wrap h.fits hle (by omega)] at heq
    obtain ⟨hplace, rfl⟩ := Prod.mk.inj (Except.ok.inj heq)
    have hplace := Option.some.inj hplace
    have hwin : (s.ptr + amount).toNat ≤ b.toNat + data.length := by omega
    refine ⟨reader_of_window h hs.mapper hs.start rfl hwin, UInt64.le_refl _, hwin, ?_⟩
    intro ev hstart hend
    refine ⟨by rw [hstart, ← hplace]; omega, by rw [hend, ← hplace]; omega, fun i hi => ?_⟩
    rw [hstart, hend, ← hplace, hsum] at hi
    omega

/-- The buffer of a `kEventBuf` record. -/
theorem Before.nextBuf_reader (h : InUserSpace b data) {rest : List UInt8}
    (hs : Before (.ofBytes b data) s rest) (hle : s.ptr ≤ s.end_)
    (hstrict : s.permissiveAdvance = false) {stack : StackBytes} {ev ev' : OuterEvent}
    {w : UInt64} (heq : s.nextBuf stack ev w = .ok (true, ev', s')) :
    Reader b data s' ∧ s'.ptr ≤ s'.end_ ∧ s'.end_.toNat ≤ b.toNat + data.length ∧
      ev'.type = ev.type ∧ GoodBuf (ConstMapper.ofBytes b data).mem ev' := by
  unfold nextBuf at heq
  have h₁ := hs.tryReadVarint_eq hle hstrict stack
  cases hv₁ : readVarint rest with
  | none =>
    simp only [hv₁] at h₁
    obtain ⟨s₁, heq₁⟩ := h₁
    simp [heq₁] at heq
  | some r₁ =>
    simp only [hv₁] at h₁
    obtain ⟨s₁, heq₁, hs₁, hle₁, hstrict₁⟩ := h₁
    have h₂ := hs₁.tryReadVarint_eq hle₁ hstrict₁ stack
    simp only [heq₁, ok_bind] at heq
    cases hv₂ : readVarint r₁.2 with
    | none =>
      simp only [hv₂] at h₂
      obtain ⟨s₂, heq₂⟩ := h₂
      simp [heq₂] at heq
    | some r₂ =>
      simp only [hv₂] at h₂
      obtain ⟨s₂, heq₂, hs₂, hle₂, hstrict₂⟩ := h₂
      simp only [heq₂, ok_bind] at heq
      obtain ⟨⟨place?, s₃⟩, hadv, heq⟩ := bind_eq_ok.mp heq
      cases place? with
      | none => simp at heq
      | some place =>
        simp only [pure_eq_ok, Except.ok.injEq, Prod.mk.injEq, true_and] at heq
        obtain ⟨hev, rfl⟩ := heq
        -- the block is skipped, and its place is where it started
        obtain ⟨hreader, hle₃, hwin₃, hgood⟩ := hs₂.tryAdvanceBy_reader h hle₂ hadv
        exact ⟨hreader, hle₃, hwin₃, by rw [← hev], hgood ev' (by rw [← hev]) (by rw [← hev])⟩

/-- **Every record of a trace**: the stream stays a reader of the trace, and the buffer of a
buffer record can be read. -/
theorem Reader.next (h : InUserSpace b data) (hs : Reader b data s) {stack : StackBytes}
    {ev ev' : OuterEvent} (heq : s.next stack ev = .ok (true, ev', s')) :
    Reader b data s' ∧ s'.ptr ≤ s'.end_ ∧ s'.end_.toNat ≤ b.toNat + data.length ∧
      (ev'.type ≠ .buf → ∃ rest, Before (.ofBytes b data) s' rest) ∧
      (ev'.type = .buf → GoodBuf (ConstMapper.ofBytes b data).mem ev') := by
  rcases hs.place with ⟨rest, hbefore⟩ | hlost
  · unfold MemStream.next at heq
    obtain ⟨s₁, hmore, hs₁, -, hle₁, hstrict₁⟩ := hbefore.hasMore_eq
    rw [hs.strict] at hstrict₁
    simp only [hmore, ok_bind] at heq
    cases hempty : rest.isEmpty with
    | true => simp [hempty] at heq
    | false =>
      simp only [hempty, Bool.not_false, Bool.not_true, Bool.false_eq_true, if_false] at heq
      have h₂ := hs₁.tryReadVarint_eq hle₁ hstrict₁ stack
      -- a record that ends with varints leaves the stream before what follows
      have hdone : ∀ {s₃ : MemStream ConstMapper} {rest₃ : List UInt8},
          Before (.ofBytes b data) s₃ rest₃ → s₃.ptr ≤ s₃.end_ → s₃.permissiveAdvance = false →
          ∀ {ev₃ : OuterEvent}, ev₃.type ≠ .buf → (true, ev₃, s₃) = (true, ev', s') →
          Reader b data s' ∧ s'.ptr ≤ s'.end_ ∧ s'.end_.toNat ≤ b.toNat + data.length ∧
            (ev'.type ≠ .buf → ∃ rest, Before (.ofBytes b data) s' rest) ∧
            (ev'.type = .buf → GoodBuf (ConstMapper.ofBytes b data).mem ev') := by
        intro s₃ rest₃ hs₃ hle₃ hstrict₃ ev₃ htype heq
        obtain ⟨-, hev⟩ := Prod.mk.inj heq
        obtain ⟨rfl, rfl⟩ := Prod.mk.inj hev
        have hwin := hs₃.window
        have hptr := hs₃.ptr_le h.fits
        exact ⟨⟨hs₃.mapper, hs₃.start, hstrict₃, Or.inl ⟨_, hs₃⟩⟩, hle₃, by omega,
          fun _ => ⟨_, hs₃⟩, fun hbuf => absurd hbuf htype⟩
      cases hv : readVarint rest with
      | none =>
        simp only [hv] at h₂
        obtain ⟨s₂, heq₂⟩ := h₂
        simp [heq₂] at heq
      | some r =>
        simp only [hv] at h₂
        obtain ⟨s₂, heq₂, hs₂, hle₂, hstrict₂⟩ := h₂
        simp only [heq₂, ok_bind] at heq
        cases htype : EventType.ofCode? (decodeType r.1) with
        | none => simp [htype] at heq
        | some type =>
          simp only [htype] at heq
          cases type with
          | malloc | free | tok | freeSized | realloc | memalign => simp at heq
          | end_ => exact hdone hs₂ hle₂ hstrict₂ (by simp) (Except.ok.inj heq)
          | buf =>
            obtain ⟨hreader, hle₃, hwin₃, htype', hgood⟩ := hs₂.nextBuf_reader h hle₂ hstrict₂ heq
            exact ⟨hreader, hle₃, hwin₃, fun hno => absurd htype' hno, fun _ => hgood⟩
          | death =>
            have h₃ := hs₂.mustReadVarint_eq hle₂ hstrict₂ stack
            cases hv₂ : readVarint r.2 with
            | none => simp [hv₂] at h₃; simp [h₃] at heq
            | some r₂ =>
              simp only [hv₂] at h₃
              obtain ⟨s₃, heq₃, hs₃, hle₃, hstrict₃⟩ := h₃
              simp only [heq₃, ok_bind] at heq
              exact hdone hs₃ hle₃ hstrict₃ (by simp) (Except.ok.inj heq)
          | syncBarrier =>
            have h₃ := hs₂.tryReadVarint_eq hle₂ hstrict₂ stack
            cases hv₂ : readVarint r.2 with
            | none =>
              simp only [hv₂] at h₃
              obtain ⟨s₃, heq₃⟩ := h₃
              simp [heq₃] at heq
            | some r₂ =>
              simp only [hv₂] at h₃
              obtain ⟨s₃, heq₃, hs₃, hle₃, hstrict₃⟩ := h₃
              simp only [heq₃, ok_bind] at heq
              exact hdone hs₃ hle₃ hstrict₃ (by simp) (Except.ok.inj heq)
  · exact absurd (hlost.next_eq h hs.mapper hs.start heq) (by simp)

/-! ### Before the first record -/

/-- The first bytes are skipped. -/
theorem reader_advanceBy_new (h : InUserSpace b data) {amount place : UInt64}
    (heq : (new (ConstMapper.ofBytes b data)).advanceBy amount = .ok (place, s')) :
    Reader b data s' := by
  have hfits := h.fits
  have hlen := toNat_size_ofBytes h.fits
  unfold advanceBy at heq
  split at heq
  · obtain ⟨-, rfl⟩ := Prod.mk.inj (Except.ok.inj heq)
    exact reader_of_window h rfl rfl rfl (Nat.le_add_right _ _)
  · obtain ⟨ok, hmore⟩ := Reader.realizeMore_eq (s := new (ConstMapper.ofBytes b data)) rfl rfl
      amount
    rw [advanceBySlow, hmore, ok_bind] at heq
    cases ok with
    | false => exact absurd heq (by simp [new])
    | true =>
      obtain ⟨-, rfl⟩ := Prod.mk.inj (Except.ok.inj heq)
      refine reader_of_window h rfl rfl rfl ?_
      show (if _ then _ else _ : UInt64).toNat ≤ _
      have hend : (b + (ConstMapper.ofBytes b data).size_).toNat = b.toNat + data.length := by
        rw [UInt64.toNat_add, hlen]
        omega
      split
      · rw [hend]
      · next hle =>
        rw [gt_iff_lt, UInt64.lt_iff_toNat_lt, hend] at hle
        omega

/-! ### Giving memory back -/

/-- A word in the lower half is not negative. -/
theorem toInt_toInt64 {a : UInt64} (h : a.toNat < 2 ^ 63) : a.toInt64.toInt = a.toNat :=
  BitVec.toInt_eq_toNat_of_lt (x := a.toBitVec) (by rw [UInt64.toNat_toBitVec]; omega)

/-- An address moves back by at most a page. -/
theorem sub_and_4096 (a : UInt64) :
    (a - (a &&& 4096)).toNat ≤ a.toNat ∧ a.toNat ≤ (a - (a &&& 4096)).toNat + 4096 := by
  have hpage : (a &&& 4096).toNat ≤ 4096 := by
    rw [UInt64.toNat_and]
    exact Nat.and_le_right
  have hle : (a &&& 4096).toNat ≤ a.toNat := by
    rw [UInt64.toNat_and]
    exact Nat.and_le_left
  rw [UInt64.toNat_sub_of_le _ _ (UInt64.le_iff_toNat_le.mpr hle)]
  omega

/-- `unrealize_up_to` acts when it is `128 << 20` bytes ahead at least, in a signed comparison. -/
theorem not_idle_iff {a : UInt64} :
    ¬ a.toInt64 < kUnrealizeStep.toInt64 ↔ 2 ^ 27 ≤ a.toNat ∧ a.toNat < 2 ^ 63 := by
  have hstep : kUnrealizeStep.toInt64.toInt = 2 ^ 27 := by decide
  rw [Int64.lt_iff_toInt_lt, hstep]
  by_cases hsmall : a.toNat < 2 ^ 63
  · rw [toInt_toInt64 hsmall]
    omega
  · -- such a difference is negative
    have hint : a.toInt64.toInt = (a.toNat : ℤ) - 2 ^ 64 := by
      show a.toBitVec.toInt = _
      rw [BitVec.toInt_eq_toNat_cond, if_neg (by rw [UInt64.toNat_toBitVec]; omega)]
      rfl
    have hlt := a.toNat_lt
    omega

/-- **Giving memory back** has no effect on a trace in memory but for the end of the window, which
comes to lie too early. -/
theorem Before.unrealizeUpTo_reader (h : InUserSpace b data) {rest : List UInt8}
    (hs : s.Before (.ofBytes b data) rest) (hstrict : s.permissiveAdvance = false)
    (hle : s.ptr ≤ s.end_) {ptr : UInt64} (hptr : ptr.toNat ≤ b.toNat + data.length)
    (heq : s.unrealizeUpTo false ptr = .ok s') :
    s'.ptr = s.ptr ∧ s'.Reader b data := by
  have hfits := h.fits
  have hlow := h.length_le
  have hat := hs.ptr_le h.fits
  have hwin := hs.window
  unfold unrealizeUpTo at heq
  obtain ⟨_, hcheck, heq⟩ := bind_eq_ok.mp heq
  have hstart : s.realizedStart = b := hs.start
  have hge : b.toNat ≤ ptr.toNat := by
    have := check_eq_ok.mp hcheck
    rw [hstart] at this
    simpa [UInt64.le_iff_toNat_le] using this
  split at heq
  · obtain rfl := Except.ok.inj heq
    -- it is not worth the call
    exact ⟨rfl, hs.mapper, hstart, hstrict, Or.inl ⟨_, hs⟩⟩
  · next hstep =>
    -- the trace does not wrap, so the distances are those of naturals
    have hdiff : (ptr - b).toNat = ptr.toNat - b.toNat := by
      rw [UInt64.toNat_sub]
      have := b.toNat_lt
      omega
    have hfar := (not_idle_iff.mp hstep).1
    rw [hstart, hdiff] at hfar
    have hpage := sub_and_4096 ptr
    generalize ptr - (ptr &&& 4096) = page at heq hpage
    obtain ⟨⟨got, m⟩, hrealize, heq⟩ := bind_eq_ok.mp heq
    have hgot : got = s.end_ - page ∧ m = s.mapper := by
      -- the mapper realizes up to the end that was there before: nothing of the trace is lost
      obtain ⟨hgot, hm⟩ := Prod.mk.inj (Except.ok.inj hrealize)
      refine ⟨?_, hm.symm⟩
      rw [← hgot, hs.mapper, ConstMapper.realize]
      have hsum : page + (s.end_ - page) = s.end_ := by
        rw [UInt64.add_comm, UInt64.sub_add_cancel]
      rw [hsum, if_neg]
      rw [gt_iff_lt, UInt64.lt_iff_toNat_lt, UInt64.toNat_add, toNat_size_ofBytes h.fits]
      have : (ConstMapper.ofBytes b data).begin_ = b := rfl
      rw [this]
      omega
    obtain ⟨rfl, rfl⟩ := hgot
    dsimp only at heq
    split at heq
    · simp at heq
    · obtain rfl := Except.ok.inj heq
      refine ⟨rfl, reader_of_window h hs.mapper hstart hstrict ?_⟩
      show (s.realizedStart + (s.end_ - page)).toNat ≤ _
      rw [hstart, UInt64.toNat_add, UInt64.toNat_sub]
      rw [UInt64.le_iff_toNat_le] at hle
      have hbegin : b.toNat ≤ s.ptr.toNat := hs.begin_le
      have hend : s.end_.toNat ≤ b.toNat + data.length := by omega
      -- the place of `unrealize_up_to` is not known to be inside the window
      by_cases hcmp : page.toNat ≤ s.end_.toNat
      · omega
      · omega

/-- **Giving memory back** behind the place of a stream always works, and has no effect but on the
end of the window. -/
theorem Before.unrealizeUpTo_eq {m : ConstMapper} {rest : List UInt8} (hs : s.Before m rest)
    (hle : s.ptr ≤ s.end_) {ptr : UInt64} (hlow : m.begin_.toNat ≤ ptr.toNat)
    (hhigh : ptr.toNat ≤ s.ptr.toNat) (ndebug : Bool) :
    ∃ s', s.unrealizeUpTo ndebug ptr = .ok s' ∧ s'.Before m rest ∧ s'.ptr = s.ptr ∧
      s'.permissiveAdvance = s.permissiveAdvance := by
  have hfits := hs.bytes.fits
  have hwin := hs.window
  have hends := hs.ends
  rw [UInt64.le_iff_toNat_le] at hle
  have hge : decide (ptr ≥ s.realizedStart) = true := by
    rw [decide_eq_true_eq, hs.start]
    exact UInt64.le_iff_toNat_le.mpr hlow
  unfold unrealizeUpTo
  rw [hge, check_true, ok_bind]
  split
  · exact ⟨s, rfl, hs, rfl, rfl⟩
  · next hstep =>
    have hdiff : (ptr - m.begin_).toNat = ptr.toNat - m.begin_.toNat := by
      rw [UInt64.toNat_sub]
      have := ptr.toNat_lt
      omega
    have hfar := (not_idle_iff.mp hstep).1
    rw [hs.start, hdiff] at hfar
    have hpage := sub_and_4096 ptr
    dsimp only
    generalize ptr - (ptr &&& 4096) = page at hpage
    -- the request ends where the window does
    have hsum : page + (s.end_ - page) = s.end_ := by rw [UInt64.add_comm, UInt64.sub_add_cancel]
    have hgot : s.mapper.realize page (s.end_ - page) = s.end_ - page := by
      rw [hs.mapper, ConstMapper.realize, hsum, if_neg]
      rw [gt_iff_lt, UInt64.lt_iff_toNat_lt, UInt64.toNat_add]
      omega
    have hrealize : Mapper.realize s.mapper page (s.end_ - page) = .ok (s.end_ - page, s.mapper) :=
      congrArg (fun got => Except.ok (got, s.mapper)) hgot
    rw [hrealize, ok_bind]
    dsimp only
    rw [hsum, if_neg (UInt64.lt_irrefl _)]
    refine ⟨_, rfl, ⟨hs.mapper, hs.start, hs.begin_le, hends, ?_, hs.bytes⟩, rfl, rfl⟩
    show (s.realizedStart + (s.end_ - page)).toNat ≤ s.ptr.toNat + _
    rw [hs.start, UInt64.toNat_add, UInt64.toNat_sub]
    omega

end MemStream

end MallocTraceReplay
