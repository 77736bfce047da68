import MallocTraceReplay.Stream.Equiv.RecordRoundTrip
import MallocTraceReplay.Stream.Equiv.TraceReader

/-!
# Progress of `OuterEvStream::next`

Every record that `next` returns takes the stream ahead, within the data, unless it is a buffer
whose end wraps around (`next_progresses_iff`).  Such a buffer may take the stream back to where it
was (`next_loops`).
-/

namespace MallocTraceReplay

open AltVarintCodec MallocTraceEncoder StepMachine

/-! ### Records in bytes -/

theorem nextBufRecord_length_lt {w : UInt64} {bytes rest : List UInt8} {r : OuterRecord}
    (h : nextBufRecord w bytes = some (r, rest)) : r.body.length + rest.length < bytes.length := by
  unfold nextBufRecord at h
  obtain ⟨⟨w₂, rest₂⟩, hv₂, h⟩ := Option.bind_eq_some_iff.mp h
  obtain ⟨⟨size, rest₃⟩, hv₃, h⟩ := Option.bind_eq_some_iff.mp h
  have hlen₂ := readVarint_length_lt hv₂
  have hlen₃ := readVarint_length_lt hv₃
  dsimp only [decodeBuffer] at h hlen₃
  split at h
  · obtain ⟨rfl, rfl⟩ := Prod.mk.inj (Option.some.inj h)
    rw [List.length_take, List.length_drop]
    omega
  · simp at h

/-- A record takes bytes, and a buffer more than its own. -/
theorem nextRecord_length_lt {bytes rest : List UInt8} {r : OuterRecord}
    (h : nextRecord bytes = .ok (some (r, rest))) : r.body.length + rest.length < bytes.length := by
  unfold nextRecord at h
  cases hv : readVarint bytes with
  | none => simp [hv] at h
  | some word =>
    obtain ⟨w, rest₁⟩ := word
    have hlen₁ := readVarint_length_lt hv
    simp only [hv] at h
    split at h
    · split at h
      · simp at h
      · next hv₂ =>
        have hlen₂ := readVarint_length_lt hv₂
        obtain ⟨rfl, rfl⟩ := Prod.mk.inj (Option.some.inj (Except.ok.inj h))
        simp only [List.length_nil]
        omega
    · have hlen := nextBufRecord_length_lt (Except.ok.inj h)
      omega
    · obtain ⟨rfl, rfl⟩ := Prod.mk.inj (Option.some.inj (Except.ok.inj h))
      simp only [List.length_nil]
      omega
    · split at h
      · simp at h
      · next hv₂ =>
        have hlen₂ := readVarint_length_lt hv₂
        obtain ⟨rfl, rfl⟩ := Prod.mk.inj (Option.some.inj (Except.ok.inj h))
        simp only [List.length_nil]
        omega
    · simp at h

namespace MemStream

/-! ### Where a buffer ends -/

section Ends

variable {M : Type} [Mapper M] {s s' : MemStream M}

/-- A block that is skipped: the stream goes on behind it. -/
theorem tryAdvanceBy_ptr {amount place : UInt64}
    (h : s.tryAdvanceBy amount = .ok (some place, s')) (hend : s'.ptr ≠ 0) :
    s'.ptr = place + amount := by
  obtain ⟨rfl, hle, hptr | hbehind⟩ := tryAdvanceBy_place h
  · exact hptr
  · -- the place behind the last address
    refine absurd (UInt64.toNat_inj.mp ?_) hend
    have hlt := s'.end_.toNat_lt
    rw [hbehind, UInt64.le_iff_toNat_le, UInt64.toNat_add] at hle
    rw [hbehind, UInt64.toNat_add]
    simp only [UInt64.reduceToNat] at hle ⊢
    omega

/-- The stream goes on behind the buffer. -/
theorem next_bufEnd {stack : StackBytes} {ev ev' : OuterEvent}
    (h : s.next stack ev = .ok (true, ev', s')) (hbuf : ev'.type = .buf) (hend : s'.ptr ≠ 0) :
    ev'.bufEnd = s'.ptr := by
  unfold next at h
  obtain ⟨⟨more, s₁⟩, -, h⟩ := bind_eq_ok.mp h
  cases more with
  | false => simp at h
  | true =>
    simp only [Bool.not_true, Bool.false_eq_true, if_false] at h
    obtain ⟨⟨w?, s₂⟩, -, h⟩ := bind_eq_ok.mp h
    cases w? with
    | none => simp at h
    | some w =>
      dsimp only at h
      split at h
      · obtain ⟨⟨w₂, s₃⟩, -, h⟩ := bind_eq_ok.mp h
        rw [← (Prod.mk.inj (Prod.mk.inj (Except.ok.inj h)).2).1] at hbuf
        simp at hbuf
      · unfold nextBuf at h
        obtain ⟨⟨w₂?, s₃⟩, -, h⟩ := bind_eq_ok.mp h
        cases w₂? with
        | none => simp at h
        | some w₂ =>
          obtain ⟨⟨w₃?, s₄⟩, -, h⟩ := bind_eq_ok.mp h
          cases w₃? with
          | none => simp at h
          | some w₃ =>
            obtain ⟨⟨place?, s₅⟩, hadvance, h⟩ := bind_eq_ok.mp h
            cases place? with
            | none => simp at h
            | some place =>
              -- `buf_end` is the sum of the place and the size, and the stream goes on there
              obtain ⟨hev, rfl⟩ := Prod.mk.inj (Prod.mk.inj (Except.ok.inj h)).2
              rw [tryAdvanceBy_ptr hadvance hend, ← hev]
      · rw [← (Prod.mk.inj (Prod.mk.inj (Except.ok.inj h)).2).1] at hbuf
        simp at hbuf
      · obtain ⟨⟨w₂?, s₃⟩, -, h⟩ := bind_eq_ok.mp h
        cases w₂? with
        | none => simp at h
        | some w₂ =>
          rw [← (Prod.mk.inj (Prod.mk.inj (Except.ok.inj h)).2).1] at hbuf
          simp at hbuf
      · simp at h

end Ends

/-! ### One record -/

variable {b : UInt64} {data bytes : List UInt8} {s s' : MemStream ConstMapper}
  {stack : StackBytes} {ev ev' : OuterEvent}

/-- A record takes the stream ahead within the data; a buffer lies where the stream was. -/
structure Progresses (b : UInt64) (data : List UInt8) (s s' : MemStream ConstMapper)
    (ev : OuterEvent) : Prop where
  lt : s.ptr < s'.ptr
  le : s'.ptr.toNat ≤ b.toNat + data.length
  buf : ev.type = .buf → s.ptr ≤ ev.bufStart ∧ ev.bufStart ≤ ev.bufEnd ∧ ev.bufEnd = s'.ptr

/-- **A record whose end does not wrap around** is within the data. -/
theorem Before.next_progresses (hfits : b.toNat + data.length ≤ 2 ^ 63)
    (h : Before (.ofBytes b data) s bytes) (hstrict : s.permissiveAdvance = false)
    (hno : ¬ WrapsAround s.ptr bytes) (hnext : s.next stack ev = .ok (true, ev', s')) :
    Progresses b data s s' ev' ∧ ∃ rest, rest.length < bytes.length ∧
      Before (.ofBytes b data) s' rest ∧ s'.permissiveAdvance = false := by
  have hspec := next_eq (served_before _) h hstrict (h.nextShown hstrict hno stack) ev
  rw [hnext] at hspec
  cases hr : nextRecord bytes with
  | error e => simp [hr] at hspec
  | ok record =>
    cases record with
    | none => simp [hr] at hspec
    | some record =>
      obtain ⟨r, rest⟩ := record
      simp only [hr] at hspec
      obtain ⟨ev'', s'', heq, hholds, hs', -, hstrict'⟩ := hspec
      obtain ⟨rfl, rfl⟩ := Prod.mk.inj (Prod.mk.inj (Except.ok.inj heq)).2
      have hlen := nextRecord_length_lt hr
      have hptr := h.ptr_le hfits
      have hptr' := hs'.ptr_le hfits
      refine ⟨⟨UInt64.lt_iff_toNat_lt.mpr (by omega), by omega, fun hbuf => ?_⟩, rest, by omega,
        hs', hstrict'⟩
      -- the stream goes on in the trace, hence not at the null pointer
      have hend := next_bufEnd hnext hbuf (by
        intro hzero
        rw [hzero] at hptr'
        simp only [UInt64.reduceToNat] at hptr'
        omega)
      have hfits' := hholds.fits
      have hbody : (ev'.bufStart + UInt64.ofNat r.body.length).toNat =
          ev'.bufStart.toNat + r.body.length := toNat_add_ofNat (by omega)
      have hends : s'.ptr.toNat = ev'.bufStart.toNat + r.body.length := by
        rw [← hend, hholds.bufEnd, hbody]
      refine ⟨UInt64.le_iff_toNat_le.mpr (by omega), UInt64.le_iff_toNat_le.mpr ?_, hend⟩
      rw [hend]
      omega

/-- **A buffer whose end wraps around** ends before it starts. -/
theorem Before.next_wraps (hfits : b.toNat + data.length ≤ 2 ^ 63)
    (h : Before (.ofBytes b data) s bytes) (hstrict : s.permissiveAdvance = false)
    (hwraps : WrapsAround s.ptr bytes) (hnext : s.next stack ev = .ok (true, ev', s')) :
    ev'.type = .buf ∧ ev'.bufEnd < ev'.bufStart := by
  obtain ⟨w, rest₁, w₂, rest₂, size, rest₃, hv, htype, hv₂, hv₃, hwraps⟩ :=
    wrapsAround_iff.mp hwraps
  obtain ⟨s₁, hmore, h₁, -, hle₁, hstrict₁⟩ := h.hasMore_eq
  -- a record was read, so there are bytes
  have hne : bytes.isEmpty = false := by
    cases bytes with
    | nil => simp [readVarint] at hv
    | cons => rfl
  have h₂ := h₁.tryReadVarint_eq hle₁ (hstrict₁.trans hstrict) stack
  simp only [hv] at h₂
  obtain ⟨s₂, hread₂, h₂, hle₂, hstrict₂⟩ := h₂
  have h₃ := h₂.tryReadVarint_eq hle₂ hstrict₂ stack
  simp only [hv₂] at h₃
  obtain ⟨s₃, hread₃, h₃, hle₃, hstrict₃⟩ := h₃
  have h₄ := h₃.tryReadVarint_eq hle₃ hstrict₃ stack
  simp only [hv₃] at h₄
  obtain ⟨s₄, hread₄, h₄, hle₄, -⟩ := h₄
  have hptr := h.ptr_le hfits
  have hptr₄ := h₄.ptr_le hfits
  have hlen₁ := readVarint_length_lt hv
  have hlen₂ := readVarint_length_lt hv₂
  have hlen₃ := readVarint_length_lt hv₃
  have hlong : 2 ^ 64 ≤ s₄.ptr.toNat + size.toNat := by omega
  -- the three words are in the trace; the block alone wraps
  have hadvance := h₄.tryAdvanceBy_wrap hfits hle₄ hlong
  simp only [next, hmore, hne, ok_bind, Bool.not_false, Bool.not_true, Bool.false_eq_true, if_false,
    hread₂, htype, nextBuf, hread₃, hread₄, decodeBuffer, hadvance] at hnext
  obtain ⟨rfl, -⟩ := Prod.mk.inj (Prod.mk.inj (Except.ok.inj hnext)).2
  refine ⟨rfl, UInt64.lt_iff_toNat_lt.mpr ?_⟩
  have hsize := size.toNat_lt
  show (s₄.ptr + size).toNat < s₄.ptr.toNat
  rw [UInt64.toNat_add]
  omega

/-! ### Runs -/

/-- Calls of `next` that return true, made where some condition holds. -/
inductive NextCalls (stack : StackBytes) (C : MemStream ConstMapper → Prop)
    (s₀ : MemStream ConstMapper) : ℕ → MemStream ConstMapper → Prop
  | start : NextCalls stack C s₀ 0 s₀
  | next {n s s' ev ev'} (hcalls : NextCalls stack C s₀ n s) (hC : C s)
      (hnext : s.next stack ev = .ok (true, ev', s')) : NextCalls stack C s₀ (n + 1) s'

/-- The record where the stream stands is no buffer whose end wraps around. -/
def Fits (b : UInt64) (data : List UInt8) (s : MemStream ConstMapper) : Prop :=
  ¬ WrapsAround s.ptr (data.drop (s.ptr - b).toNat)

/-- A stream before bytes of the data: which ones they are. -/
theorem Before.eq_drop (hfits : b.toNat + data.length ≤ 2 ^ 63)
    (h : Before (.ofBytes b data) s bytes) : bytes = data.drop (s.ptr - b).toNat := by
  have hptr := h.ptr_le hfits
  have hbegin : b.toNat ≤ s.ptr.toNat := h.begin_le
  have hplace : (s.ptr - b).toNat = s.ptr.toNat - b.toNat :=
    UInt64.toNat_sub_of_le _ _ (UInt64.le_iff_toNat_le.mpr hbegin)
  refine List.ext_getElem? fun i => ?_
  by_cases hi : i < bytes.length
  · rw [← h.bytes.loads i hi, List.getElem?_drop]
    show data[(s.ptr + UInt64.ofNat i - b).toNat]? = _
    congr 1
    rw [UInt64.toNat_sub, toNat_add_ofNat (by omega)]
    omega
  · rw [List.getElem?_eq_none (by omega), List.getElem?_eq_none (by rw [List.length_drop]; omega)]

/-- **A run of records that fit**: the stream is within the data, and every record took bytes. -/
theorem NextCalls.before (hfits : b.toNat + data.length ≤ 2 ^ 63) {s₀ : MemStream ConstMapper}
    {rest₀ : List UInt8} (h₀ : Before (.ofBytes b data) s₀ rest₀)
    (hstrict₀ : s₀.permissiveAdvance = false) {n : ℕ}
    (hcalls : NextCalls stack (Fits b data) s₀ n s) :
    ∃ rest, Before (.ofBytes b data) s rest ∧ s.permissiveAdvance = false ∧
      n + rest.length ≤ rest₀.length := by
  induction hcalls with
  | start => exact ⟨rest₀, h₀, hstrict₀, Nat.le_of_eq (Nat.zero_add _)⟩
  | next hcalls hC hnext ih =>
    obtain ⟨bytes, h, hstrict, hlen⟩ := ih
    rw [Fits, ← h.eq_drop hfits] at hC
    obtain ⟨-, rest, hlt, hs', hstrict'⟩ := h.next_progresses hfits hstrict hC hnext
    exact ⟨rest, hs', hstrict', by omega⟩

/-- **Progress.**  From the start of the data, perhaps after some bytes are skipped: as long as no
buffer was met whose end wraps around, a record takes the stream ahead within the data just when it
is no such buffer either, and there are no more records than bytes.  So the reading comes to an end,
or to such a buffer. -/
theorem next_progresses_iff (hfits : b.toNat + data.length ≤ 2 ^ 63) {amount place : UInt64}
    {s₀ : MemStream ConstMapper} (hamount : amount.toNat ≤ data.length)
    (hopen : (new (ConstMapper.ofBytes b data)).advanceBy amount = .ok (place, s₀))
    (stack : StackBytes) :
    (∀ n s, NextCalls stack (Fits b data) s₀ n s → n ≤ data.length ∧
      ∀ ev ev' s', s.next stack ev = .ok (true, ev', s') →
        (Progresses b data s s' ev' ↔ Fits b data s)) ∧
    ∃ n s, NextCalls stack (Fits b data) s₀ n s ∧
      (¬ Fits b data s ∨ ∀ ev ev' s', s.next stack ev ≠ .ok (true, ev', s')) := by
  obtain ⟨s₀', hopen', h₀, hstrict₀⟩ := advanceBy_new hfits hamount
  obtain rfl := (Prod.mk.inj (Except.ok.inj (hopen.symm.trans hopen'))).2
  have hlen₀ := h₀.ptr_le hfits
  have hbegin : b.toNat ≤ s₀.ptr.toNat := h₀.begin_le
  constructor
  · intro n s hcalls
    obtain ⟨bytes, h, hstrict, hlen⟩ := hcalls.before hfits h₀ hstrict₀
    refine ⟨by omega, fun ev ev' s' hnext => ⟨fun hprogress => ?_, fun hC => ?_⟩⟩
    · rw [Fits, ← h.eq_drop hfits]
      intro hwraps
      obtain ⟨hbuf, hlt⟩ := h.next_wraps hfits hstrict hwraps hnext
      exact absurd (hprogress.buf hbuf).2.1 (UInt64.not_le.mpr hlt)
    · rw [Fits, ← h.eq_drop hfits] at hC
      exact (h.next_progresses hfits hstrict hC hnext).1
  · -- a run that never ends has more records than there are bytes
    by_contra hno
    push Not at hno
    have hruns : ∀ n, ∃ s, NextCalls stack (Fits b data) s₀ n s := by
      intro n
      induction n with
      | zero => exact ⟨s₀, .start⟩
      | succ n ih =>
        obtain ⟨s, hcalls⟩ := ih
        obtain ⟨hC, ev, ev', s', hnext⟩ := hno n s hcalls
        exact ⟨s', hcalls.next hC hnext⟩
    obtain ⟨s, hcalls⟩ := hruns (data.length + 1)
    obtain ⟨bytes, -, -, hlen⟩ := hcalls.before hfits h₀ hstrict₀
    omega

/-- Where no large buffer is declared, no size wraps around. -/
theorem fits_of_declares (hfits : b.toNat + data.length ≤ 2 ^ 63)
    (hsmall : ∀ k size rest, declaredSize? (data.drop k) = some (size, rest) →
      size.toNat ≤ 2 ^ 30) (s : MemStream ConstMapper) : Fits b data s := by
  unfold Fits WrapsAround
  set k := (s.ptr - b).toNat with hk
  by_cases hlt : k < data.length
  · have hptr : s.ptr.toNat = b.toNat + k := by
      rw [← toNat_add_ofNat (show b.toNat + k < 2 ^ 64 by omega), hk, UInt64.ofNat_toNat,
        UInt64.add_comm, UInt64.sub_add_cancel]
    cases hsize : declaredSize? (data.drop k) with
    | none => simp
    | some p =>
      have hle := hsmall k p.1 p.2 hsize
      rw [List.length_drop]
      omega
  · -- behind the data there is no record
    rw [List.drop_eq_nil_of_le (by omega)]
    simp [declaredSize?, readVarint]

/-- That no large buffer is declared is seen from the places of the data. -/
theorem declares_of_all (hall : (List.range data.length).all (fun k =>
      (declaredSize? (data.drop k)).all fun p => p.1.toNat ≤ 2 ^ 30) = true) (k : ℕ)
    (size : UInt64) (rest : List UInt8) (h : declaredSize? (data.drop k) = some (size, rest)) :
    size.toNat ≤ 2 ^ 30 := by
  by_cases hk : k < data.length
  · have hsize := List.all_eq_true.mp hall k (List.mem_range.mpr hk)
    rw [h] at hsize
    simpa using hsize
  · rw [List.drop_eq_nil_of_le (by omega)] at h
    simp [declaredSize?, readVarint] at h

/-- A buffer of two bytes. -/
def shortTrace : List UInt8 := writeWords [11, 0, 2] ++ [1, 1]

theorem next_progresses_iff_short :
    (∀ n s, NextCalls (fun _ _ => 0) (Fits 0x10000 shortTrace)
        (new (ConstMapper.ofBytes 0x10000 shortTrace)) n s → n ≤ shortTrace.length ∧
      ∀ ev ev' s', s.next (fun _ _ => 0) ev = .ok (true, ev', s') →
        Progresses 0x10000 shortTrace s s' ev') ∧
    ∃ n s, NextCalls (fun _ _ => 0) (Fits 0x10000 shortTrace)
        (new (ConstMapper.ofBytes 0x10000 shortTrace)) n s ∧
      ∀ ev ev' s', s.next (fun _ _ => 0) ev ≠ .ok (true, ev', s') := by
  have hfits : ∀ s, Fits 0x10000 shortTrace s :=
    fits_of_declares (by decide) (declares_of_all (by decide +kernel))
  have hamount : (0 : UInt64).toNat ≤ shortTrace.length := Nat.zero_le _
  obtain ⟨hprogress, n, s, hcalls, hends⟩ :=
    next_progresses_iff (b := 0x10000) (by decide) hamount rfl fun _ _ => 0
  refine ⟨fun n s hcalls => ?_, n, s, hcalls, hends.resolve_left fun hno => hno (hfits s)⟩
  obtain ⟨hle, hiff⟩ := hprogress n s hcalls
  exact ⟨hle, fun ev ev' s' hnext => (hiff ev ev' s' hnext).mpr (hfits s)⟩

/-- A buffer record whose size takes the stream back to where the record starts. -/
def loopingTrace : List UInt8 := writeWords [11, 0, 0xFFFFFFFFFFFFFFF5]

/-- **A loop**: the record is returned again and again. -/
theorem next_loops :
    (∃ ev, (new (ConstMapper.ofBytes 0x10000 loopingTrace)).next (fun _ _ => 0) .zero =
        .ok (true, ev, new (ConstMapper.ofBytes 0x10000 loopingTrace)) ∧
      ev.type = .buf ∧ ev.bufEnd < ev.bufStart) ∧
    ∀ n, NextCalls (fun _ _ => 0) (fun _ => True) (new (ConstMapper.ofBytes 0x10000 loopingTrace)) n
      (new (ConstMapper.ofBytes 0x10000 loopingTrace)) := by
  set s₀ := new (ConstMapper.ofBytes 0x10000 loopingTrace) with hs₀
  have hspace : InUserSpace 0x10000 loopingTrace := ⟨by decide, by decide⟩
  obtain ⟨⟨ok, ev, s⟩, hnext, hsee⟩ := map_eq_ok.mp (show (s₀.next (fun _ _ => 0) .zero).map
    (fun r => (r.1, r.2.1, r.2.2.ptr, r.2.2.end_, r.2.2.begin_)) =
    .ok (true, ⟨.buf, 0, 0, 1, 0x1000b, 0x10000⟩, 0x10000, 0x10000, 0x10000) by decide +kernel)
  simp only [Prod.mk.injEq] at hsee
  obtain ⟨rfl, rfl, hptr, hend, hbegin⟩ := hsee
  obtain ⟨hmapper, hstart, hstrict, -⟩ := ((reader_new hspace).next hspace hnext).1
  have hsame : s = s₀ := by
    obtain ⟨ptr, end_, realizedStart, begin_, mapper, permissiveAdvance⟩ := s
    simp only at hptr hend hstart hbegin hmapper hstrict
    subst hptr hend hstart hbegin hmapper hstrict
    rfl
  rw [hsame] at hnext
  refine ⟨⟨_, hnext, rfl, by decide⟩, fun n => ?_⟩
  induction n with
  | zero => exact .start
  | succ n ih => exact ih.next trivial hnext

end MemStream

end MallocTraceReplay
