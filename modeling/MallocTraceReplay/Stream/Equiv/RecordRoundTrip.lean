import MallocTraceReplay.Codec.Equiv.TraceEncoder
import MallocTraceReplay.Stream.Equiv.OuterEvStream

/-!
# Round trip of the outer records

The record at the front of what `writeRecord` gives is the one that was written
(`nextRecord_writeRecord`), and `OuterEvStream::next` finds it there (`Before.next_of_record`).
-/

namespace MallocTraceReplay

open AltVarintCodec MallocTraceEncoder StepMachine

/-! ### Records in bytes -/

/-- The word at the front of written words. -/
@[simp] theorem readVarint_writeWords (w : UInt64) (ws : List UInt64) (rest : List UInt8) :
    readVarint (writeWords (w :: ws) ++ rest) = some (w, writeWords ws ++ rest) := by
  rw [writeWords, List.flatMap_cons, List.append_assoc, readVarint_encode]
  rfl

theorem writeWords_append (ws ws' : List UInt64) :
    writeWords (ws ++ ws') = writeWords ws ++ writeWords ws' := List.flatMap_append

/-- A word takes at least one byte. -/
theorem length_le_writeWords (ws : List UInt64) : ws.length ≤ (writeWords ws).length := by
  induction ws with
  | nil => exact Nat.le_refl _
  | cons w ws ih =>
    have hread := readVarint_length_lt (readVarint_writeWords w ws [])
    simp only [List.append_nil] at hread
    rw [List.length_cons]
    omega

/-- Written words are not nothing. -/
theorem isEmpty_writeWords_append (w : UInt64) (ws : List UInt64) (rest : List UInt8) :
    (writeWords (w :: ws) ++ rest).isEmpty = false := by
  cases hbytes : writeWords (w :: ws) ++ rest with
  | nil =>
    have hread := readVarint_writeWords w ws rest
    rw [hbytes] at hread
    exact absurd hread (by simp [readVarint])
  | cons b bs => rfl

/-- **One record**: what is written is at the front. -/
theorem nextRecord_write {r : OuterRecord} (hr : r.WellFormed) {rest : List UInt8}
    (hfits : (r.write ++ rest).length < 2 ^ 64) :
    nextRecord (r.write ++ rest) = .ok (some (r, rest)) := by
  obtain ⟨type, cpu, ts, threadId, body⟩ := r
  obtain ⟨⟨hts, hcpu⟩, htype⟩ := hr
  -- the words are read one by one, until none is left before what follows
  have hnil : ∀ bytes : List UInt8, writeWords [] ++ bytes = bytes := fun _ => rfl
  have hcpu64 : cpu.toUInt64.toNat < 1024 := hcpu
  cases type with
  | malloc | free | tok | freeSized | realloc | memalign => exact htype.elim
  | end_ =>
    -- its first word is all of it
    obtain ⟨rfl, rfl, rfl, rfl⟩ := htype
    have htype : decodeType encodeEnd = EventType.end_.code := by decide
    simp only [nextRecord, OuterRecord.write, OuterRecord.words, List.append_assoc,
      readVarint_writeWords, htype, ofCode?_code]
    rfl
  | syncBarrier =>
    obtain ⟨rfl, rfl⟩ := htype
    have htype : decodeType EventType.syncBarrier.code = EventType.syncBarrier.code := by decide
    simp only [nextRecord, OuterRecord.write, OuterRecord.words, encodeSyncBarrier,
      List.append_assoc, readVarint_writeWords, htype, ofCode?_code, hnil, decodeSyncBarrier,
      unbundle_bundle hts hcpu64, UInt32.toUInt32_toUInt64]
    rfl
  | death =>
    obtain ⟨hid, rfl⟩ := htype
    simp only [nextRecord, OuterRecord.write, OuterRecord.words, encodeDeath, List.append_assoc,
      readVarint_writeWords, decodeType_extTagged .death _ (by decide) (by decide), ofCode?_code,
      hnil, decodeDeath, unbundle_bundle hts hcpu64, UInt32.toUInt32_toUInt64]
    -- the thread id stands above the type in the first word
    rw [tagged_shiftRight (by decide) hid (by decide)]
    rfl
  | buf =>
    have hid61 : threadId.toNat < 2 ^ 61 := htype
    -- the size is a word, which the body fits
    have hbody : (UInt64.ofNat body.length).toNat = body.length := by
      simp only [OuterRecord.write, List.length_append] at hfits
      rw [UInt64.toNat_ofNat']
      omega
    simp only [nextRecord, OuterRecord.write, OuterRecord.words, encodeBuffer, List.append_assoc,
      readVarint_writeWords, decodeType_tagged .buf _ (by decide), ofCode?_code,
      nextBufRecord, hnil, decodeBuffer, unbundle_bundle hts hcpu64, Option.bind_eq_bind,
      Option.bind_some, hbody, UInt32.toUInt32_toUInt64]
    rw [tagged_shiftRight (by decide) hid61 (by decide), List.take_left, List.drop_left,
      if_pos (by simp)]
    rfl

/-- The outer record that is written, with the bytes of its events. -/
def TraceRecord.outer (st : UInt64 → EncoderState) : TraceRecord → OuterRecord
  | .buf threadId ts cpu events =>
    ⟨.buf, cpu.toUInt32, ts, threadId, (writeEvents (st threadId) events).1⟩
  | .death threadId ts cpu => ⟨.death, cpu.toUInt32, ts, threadId, []⟩
  | .syncBarrier ts cpu => ⟨.syncBarrier, cpu.toUInt32, ts, 0, []⟩
  | .end_ => ⟨.end_, 0, 0, 0, []⟩

/-- A small cpu survives the narrow field. -/
theorem toUInt64_toUInt32 {cpu : UInt64} (hcpu : cpu.toNat < 1024) :
    cpu.toUInt32.toNat = cpu.toNat ∧ cpu.toUInt32.toUInt64 = cpu := by
  have hnat : cpu.toUInt32.toNat = cpu.toNat := by
    rw [UInt64.toNat_toUInt32]
    omega
  exact ⟨hnat, UInt64.toNat_inj.mp hnat⟩

/-- The records of threads are outer records. -/
theorem TraceRecord.write_outer (st : UInt64 → EncoderState) {r : TraceRecord} (hr : r.Bounded) :
    (writeRecord st r).1 = (r.outer st).write ∧ (r.outer st).WellFormed := by
  cases r with
  | end_ => exact ⟨rfl, ⟨rfl, show 0 < 1024 by decide⟩, rfl, rfl, rfl, rfl⟩
  | syncBarrier ts cpu =>
    obtain ⟨hts, hcpu⟩ := hr
    obtain ⟨hnat, hback⟩ := toUInt64_toUInt32 hcpu
    refine ⟨?_, ⟨hts, by rw [← hnat] at hcpu; exact hcpu⟩, rfl, rfl⟩
    simp only [writeRecord, outer, OuterRecord.write, OuterRecord.words, hback, List.append_nil]
  | death threadId ts cpu =>
    obtain ⟨hid, hts, hcpu⟩ := hr
    obtain ⟨hnat, hback⟩ := toUInt64_toUInt32 hcpu
    refine ⟨?_, ⟨hts, by rw [← hnat] at hcpu; exact hcpu⟩, hid, rfl⟩
    simp only [writeRecord, outer, OuterRecord.write, OuterRecord.words, hback, List.append_nil]
  | buf threadId ts cpu events =>
    obtain ⟨hid, hts, hcpu, -⟩ := hr
    obtain ⟨hnat, hback⟩ := toUInt64_toUInt32 hcpu
    refine ⟨?_, ⟨hts, by rw [← hnat] at hcpu; exact hcpu⟩, hid.trans (by decide)⟩
    simp only [writeRecord, outer, OuterRecord.write, OuterRecord.words, hback]

/-- **One record of threads**: what is written is at the front. -/
theorem nextRecord_writeRecord {st : UInt64 → EncoderState} {r : TraceRecord} (hr : r.Bounded)
    {rest : List UInt8} (hfits : ((writeRecord st r).1 ++ rest).length < 2 ^ 64) :
    nextRecord ((writeRecord st r).1 ++ rest) = .ok (some (r.outer st, rest)) := by
  obtain ⟨hwrite, hformed⟩ := TraceRecord.write_outer st hr
  rw [hwrite] at hfits ⊢
  exact nextRecord_write hformed hfits

/-- The size that a buffer declares, by the words of its record. -/
theorem declaredSize?_eq_some {bytes rest : List UInt8} {size : UInt64} :
    declaredSize? bytes = some (size, rest) ↔ ∃ w rest₁ w₂ rest₂,
      readVarint bytes = some (w, rest₁) ∧ EventType.ofCode? (decodeType w) = some .buf ∧
      readVarint rest₁ = some (w₂, rest₂) ∧ readVarint rest₂ = some (size, rest) := by
  unfold declaredSize?
  constructor
  · intro h
    obtain ⟨⟨w, rest₁⟩, hv, h⟩ := Option.bind_eq_some_iff.mp h
    dsimp only at h
    split at h
    · next htype =>
      obtain ⟨⟨w₂, rest₂⟩, hv₂, h⟩ := Option.bind_eq_some_iff.mp h
      exact ⟨w, rest₁, w₂, rest₂, hv, htype, hv₂, h⟩
    · simp at h
  · rintro ⟨w, rest₁, w₂, rest₂, hv, htype, hv₂, hv₃⟩
    simp only [hv, htype, hv₂, hv₃, Option.bind_eq_bind, Option.bind_some, if_true]

theorem declaredSize?_length_le {bytes rest : List UInt8} {size : UInt64}
    (h : declaredSize? bytes = some (size, rest)) : rest.length ≤ bytes.length := by
  obtain ⟨w, rest₁, w₂, rest₂, hv, -, hv₂, hv₃⟩ := declaredSize?_eq_some.mp h
  have hlen₁ := readVarint_length_lt hv
  have hlen₂ := readVarint_length_lt hv₂
  have hlen₃ := readVarint_length_lt hv₃
  omega

/-- A buffer whose end wraps around, by its words. -/
theorem wrapsAround_iff {place : UInt64} {bytes : List UInt8} :
    WrapsAround place bytes ↔ ∃ w rest₁ w₂ rest₂ size rest₃,
      readVarint bytes = some (w, rest₁) ∧ EventType.ofCode? (decodeType w) = some .buf ∧
      readVarint rest₁ = some (w₂, rest₂) ∧ readVarint rest₂ = some (size, rest₃) ∧
      2 ^ 64 ≤ place.toNat + (bytes.length - rest₃.length) + size.toNat := by
  unfold WrapsAround
  constructor
  · intro h
    cases hsize : declaredSize? bytes with
    | none => simp [hsize] at h
    | some p =>
      obtain ⟨size, rest₃⟩ := p
      simp only [hsize] at h
      obtain ⟨w, rest₁, w₂, rest₂, hv, htype, hv₂, hv₃⟩ := declaredSize?_eq_some.mp hsize
      exact ⟨w, rest₁, w₂, rest₂, size, rest₃, hv, htype, hv₂, hv₃, h⟩
  · rintro ⟨w, rest₁, w₂, rest₂, size, rest₃, hv, htype, hv₂, hv₃, hwraps⟩
    have hsize := declaredSize?_eq_some.mpr ⟨w, rest₁, w₂, rest₂, hv, htype, hv₂, hv₃⟩
    simp only [hsize]
    exact hwraps

/-! ### Records of a stream -/

/-- The events that `next` returns one after another, until there are no more. -/
inductive ReadsRecords (stack : StackBytes) :
    MemStream ConstMapper → OuterEvent → List OuterEvent → MemStream ConstMapper → Prop
  | none {s s' ev ev'} (h : s.next stack ev = .ok (false, ev', s')) : ReadsRecords stack s ev [] s'
  | some {s s' s'' ev ev' evs} (h : s.next stack ev = .ok (true, ev', s'))
      (hrest : ReadsRecords stack s' ev' evs s'') : ReadsRecords stack s ev (ev' :: evs) s''

namespace MemStream

variable {m : ConstMapper} {s : MemStream ConstMapper} {bytes rest : List UInt8} {r : OuterRecord}

/-- The streams over a mapper show every record, but for buffers whose end wraps around. -/
theorem shows_before (m : ConstMapper) : Shows (Before m) fun rest amount =>
    m.begin_.toNat + m.size_.toNat + amount.toNat < 2 ^ 64 + rest.length where
  served := served_before m
  more h := h.moreShown
  varint h := h.varintShown
  block {s rest amount} h hC := by
    have hends := h.ends
    have hfits : s.ptr.toNat + amount.toNat < 2 ^ 64 := by omega
    exact ⟨hfits, h.blockShown hfits⟩

theorem Before.nextShown (h : Before m s bytes) (hstrict : s.permissiveAdvance = false)
    (hno : ¬ WrapsAround s.ptr bytes) (stack : StackBytes) : NextShown stack s bytes := by
  refine (shows_before m).nextShown h hstrict (fun size rest hsize => ?_) stack
  have hends := h.ends
  unfold WrapsAround at hno
  simp only [hsize] at hno
  have hlen := declaredSize?_length_le hsize
  omega

/-- The end of a buffer that is there does not wrap around. -/
theorem Before.not_wrapsAround (h : Before m s bytes)
    (hr : nextRecord bytes = .ok (some (r, rest))) : ¬ WrapsAround s.ptr bytes := by
  intro hwraps
  obtain ⟨w, rest₁, w₂, rest₂, size, rest₃, hv, htype, hv₂, hv₃, hwraps⟩ :=
    wrapsAround_iff.mp hwraps
  -- there are as many bytes as the record says
  have hle : size.toNat ≤ rest₃.length := by
    by_contra hlong
    simp [nextRecord, hv, htype, nextBufRecord, hv₂, hv₃, decodeBuffer, hlong] at hr
  have hfits := h.bytes.fits
  have hlen₁ := readVarint_length_lt hv
  have hlen₂ := readVarint_length_lt hv₂
  have hlen₃ := readVarint_length_lt hv₃
  omega

/-- **`OuterEvStream::next` finds the record** at the front. -/
theorem Before.next_of_record (h : Before m s bytes) (hstrict : s.permissiveAdvance = false)
    (hr : nextRecord bytes = .ok (some (r, rest))) (stack : StackBytes) (ev : OuterEvent) :
    ∃ ev' s', s.next stack ev = .ok (true, ev', s') ∧ Holds s' ev' r ∧ Before m s' rest ∧
      s'.ptr ≤ s'.end_ ∧ s'.permissiveAdvance = false := by
  have hshown := h.nextShown hstrict (h.not_wrapsAround hr) stack
  have hspec := next_eq (served_before m) h hstrict hshown ev
  simp only [hr] at hspec
  exact hspec

/-- At the end there is no record. -/
theorem Before.next_nil (h : Before m s []) (stack : StackBytes) (ev : OuterEvent) :
    ∃ s', s.next stack ev = .ok (false, ev, s') := by
  obtain ⟨s', hmore, -⟩ := h.hasMore_eq
  refine ⟨s', ?_⟩
  rw [next, hmore]
  rfl

/-- A trace in memory, at its beginning. -/
theorem before_new {b : UInt64} {data : List UInt8} (hfits : b.toNat + data.length ≤ 2 ^ 63) :
    Before (.ofBytes b data) (new (ConstMapper.ofBytes b data)) data where
  mapper := rfl
  start := rfl
  begin_le := Nat.le_refl _
  ends := by
    show b.toNat + data.length = b.toNat + (UInt64.ofNat data.length).toNat
    rw [UInt64.toNat_ofNat']
    omega
  window := Nat.le_add_right _ _
  bytes := by
    refine ⟨hfits, fun i hi => ?_⟩
    show data[(b + UInt64.ofNat i - b).toNat]? = data[i]?
    have hplace : (b + UInt64.ofNat i).toNat = b.toNat + i := toNat_add_ofNat (by omega)
    rw [UInt64.toNat_sub, hplace]
    congr 1
    omega

/-- An extension of the window leaves the rest of the stream alone. -/
theorem realizeMore_same {M : Type} [Mapper M] {s s' : MemStream M} {minAmount : UInt64} {ok : Bool}
    (h : s.realizeMore minAmount = .ok (ok, s')) :
    s'.ptr = s.ptr ∧ s'.permissiveAdvance = s.permissiveAdvance := by
  unfold realizeMore at h
  obtain ⟨⟨got, mapper⟩, -, h⟩ := bind_eq_ok.mp h
  obtain ⟨-, rfl⟩ := Prod.mk.inj (Except.ok.inj h)
  exact ⟨rfl, rfl⟩

theorem advanceBy_permissive {M : Type} [Mapper M] {s s' : MemStream M} {amount place : UInt64}
    (h : s.advanceBy amount = .ok (place, s')) : s'.permissiveAdvance = s.permissiveAdvance := by
  unfold advanceBy at h
  split at h
  · obtain ⟨-, rfl⟩ := Prod.mk.inj (Except.ok.inj h)
    rfl
  · unfold advanceBySlow at h
    obtain ⟨⟨ok, s₁⟩, hmore, h⟩ := bind_eq_ok.mp h
    dsimp only at h
    split at h
    · obtain ⟨-, rfl⟩ := Prod.mk.inj (Except.ok.inj h)
      exact (realizeMore_same hmore).2
    · split at h
      · obtain ⟨-, rfl⟩ := Prod.mk.inj (Except.ok.inj h)
        exact (realizeMore_same hmore).2
      · simp at h

/-- Where the block is that `advance_by` skips, and where the stream goes on. -/
theorem advanceBy_place {M : Type} [Mapper M] {s s' : MemStream M} {amount place : UInt64}
    (h : s.advanceBy amount = .ok (place, s')) :
    place = s.ptr ∧ (s'.ptr = s.ptr + amount ∨ s'.ptr = s'.end_ + 1) := by
  unfold advanceBy at h
  split at h
  · obtain ⟨rfl, rfl⟩ := Prod.mk.inj (Except.ok.inj h)
    exact ⟨rfl, .inl rfl⟩
  · unfold advanceBySlow at h
    obtain ⟨⟨ok, s₁⟩, hmore, h⟩ := bind_eq_ok.mp h
    have hptr := (realizeMore_same hmore).1
    dsimp only at h hptr
    split at h
    · obtain ⟨rfl, rfl⟩ := Prod.mk.inj (Except.ok.inj h)
      exact ⟨rfl, .inl (congrArg (· + amount) hptr)⟩
    · split at h
      · obtain ⟨rfl, rfl⟩ := Prod.mk.inj (Except.ok.inj h)
        exact ⟨rfl, .inr rfl⟩
      · simp at h

/-- The same for `try_advance_by`, when there is a block. -/
theorem tryAdvanceBy_place {M : Type} [Mapper M] {s s' : MemStream M} {amount place : UInt64}
    (h : s.tryAdvanceBy amount = .ok (some place, s')) :
    place = s.ptr ∧ s'.ptr ≤ s'.end_ ∧ (s'.ptr = s.ptr + amount ∨ s'.ptr = s'.end_ + 1) := by
  rw [tryAdvanceBy_def] at h
  obtain ⟨⟨place', s₁⟩, hadvance, h⟩ := bind_eq_ok.mp h
  obtain ⟨hplace, hptr⟩ := advanceBy_place hadvance
  dsimp only at h
  split at h
  · simp at h
  · next hngt =>
    obtain ⟨hsome, rfl⟩ := Prod.mk.inj (Except.ok.inj h)
    rw [← Option.some.inj hsome]
    exact ⟨hplace, UInt64.not_lt.mp hngt, hptr⟩

/-- The first bytes of a trace in memory are skipped. -/
theorem advanceBy_new {b : UInt64} {data : List UInt8} (hfits : b.toNat + data.length ≤ 2 ^ 63)
    {amount : UInt64} (hamount : amount.toNat ≤ data.length) :
    ∃ s, (new (ConstMapper.ofBytes b data)).advanceBy amount = .ok (b, s) ∧
      Before (.ofBytes b data) s (data.drop amount.toNat) ∧ s.permissiveAdvance = false := by
  have hnew := before_new hfits
  have hP := served_before (.ofBytes b data)
  have hplace : (new (ConstMapper.ofBytes b data)).ptr.toNat + amount.toNat < 2 ^ 64 := by
    show b.toNat + amount.toNat < _
    omega
  obtain ⟨s, hadvance, hs, -, hle, hshown⟩ := advanceBy_enough hP hnew (UInt64.le_refl _) hplace
    (hnew.blockShown hplace) hamount
  exact ⟨s.skip amount.toNat, hadvance, hP.skip hs hle hshown, advanceBy_permissive hadvance⟩

end MemStream

end MallocTraceReplay
