import MallocTraceReplay.Lib.Bisimulation
import MallocTraceReplay.Stream.Equiv.Chunking
import MallocTraceReplay.Stream.Equiv.KeptWindow
import MallocTraceReplay.Stream.Equiv.NextProgress
import MallocTraceReplay.Stream.Equiv.StreamInvariant

/-!
# Records of a file and of its image in memory

A stream over a `FDInputMapper`, where no call of `read` is short, and a stream over a `ConstMapper`
with the whole file at the same address stand before the same bytes.  Their calls of `next` then
return the same event, or fail in the same way (`InFile.next_matches`).
-/

namespace MallocTraceReplay

open StepMachine MallocTraceEncoder FDInputMapper

namespace MemStream

/-! ### What `next` returns -/

section Next

variable {M : Type} [Mapper M] {s s' : MemStream M} {stack : StackBytes} {ev ev' : OuterEvent}

/-- There is no record: nothing was left, or what was left is not the end. -/
theorem next_false (h : s.next stack ev = .ok (false, ev', s')) :
    (s.hasMore = .ok (false, s') ∧ ev' = ev) ∨
      (∃ s₁, s.hasMore = .ok (true, s₁)) ∧ ev'.type ≠ .end_ := by
  unfold next at h
  obtain ⟨⟨more, s₁⟩, hmore, h⟩ := bind_eq_ok.mp h
  cases more with
  | false =>
    simp only [Bool.not_false, if_true, pure_eq_ok, Except.ok.injEq, Prod.mk.injEq] at h
    obtain ⟨-, rfl, rfl⟩ := h
    exact Or.inl ⟨hmore, rfl⟩
  | true =>
    refine Or.inr ⟨⟨s₁, hmore⟩, ?_⟩
    simp only [Bool.not_true, Bool.false_eq_true, if_false] at h
    obtain ⟨⟨w?, s₂⟩, -, h⟩ := bind_eq_ok.mp h
    cases w? with
    | none =>
      -- the first word ran out, and the event was zeroed before
      simp only [pure_eq_ok, Except.ok.injEq, Prod.mk.injEq] at h
      simp [← h.2.1, OuterEvent.zero]
    | some w =>
      dsimp only at h
      split at h
      · -- a `Death` panics where its second word runs out
        obtain ⟨⟨w₂, s₃⟩, -, h⟩ := bind_eq_ok.mp h
        simp at h
      · -- a `Buf` runs out in one of its words or in its bytes, and already has its type
        unfold nextBuf at h
        obtain ⟨⟨w₂?, s₃⟩, -, h⟩ := bind_eq_ok.mp h
        cases w₂? with
        | none =>
          simp only [pure_eq_ok, Except.ok.injEq, Prod.mk.injEq] at h
          simp [← h.2.1]
        | some w₂ =>
          obtain ⟨⟨w₃?, s₄⟩, -, h⟩ := bind_eq_ok.mp h
          cases w₃? with
          | none =>
            simp only [pure_eq_ok, Except.ok.injEq, Prod.mk.injEq] at h
            simp [← h.2.1]
          | some w₃ =>
            obtain ⟨⟨place?, s₅⟩, -, h⟩ := bind_eq_ok.mp h
            cases place? with
            | none =>
              simp only [pure_eq_ok, Except.ok.injEq, Prod.mk.injEq] at h
              simp [← h.2.1]
            | some place => simp at h
      · simp at h
      · -- so does a `SyncBarrier`
        obtain ⟨⟨w₂?, s₃⟩, -, h⟩ := bind_eq_ok.mp h
        cases w₂? with
        | none =>
          simp only [pure_eq_ok, Except.ok.injEq, Prod.mk.injEq] at h
          simp [← h.2.1]
        | some w₂ => simp at h
      · simp at h

/-- Only a buffer lies somewhere. -/
theorem next_noBuf (h : s.next stack ev = .ok (true, ev', s')) (htype : ev'.type ≠ .buf) :
    ev'.bufStart = 0 ∧ ev'.bufEnd = 0 := by
  unfold next at h
  obtain ⟨⟨more, s₁⟩, -, h⟩ := bind_eq_ok.mp h
  cases more with
  | false => simp at h
  | true =>
    simp only [Bool.not_true, Bool.false_eq_true, if_false] at h
    obtain ⟨⟨w?, s₂⟩, -, h⟩ := bind_eq_ok.mp h
    cases w? with
    | none => simp at h
    | some w =>
      dsimp only at h
      split at h
      · -- the event was zeroed before its type was set
        obtain ⟨⟨w₂, s₃⟩, -, h⟩ := bind_eq_ok.mp h
        rw [← (Prod.mk.inj (Prod.mk.inj (Except.ok.inj h)).2).1]
        exact ⟨rfl, rfl⟩
      · unfold nextBuf at h
        obtain ⟨⟨w₂?, s₃⟩, -, h⟩ := bind_eq_ok.mp h
        cases w₂? with
        | none => simp at h
        | some w₂ =>
          obtain ⟨⟨w₃?, s₄⟩, -, h⟩ := bind_eq_ok.mp h
          cases w₃? with
          | none => simp at h
          | some w₃ =>
            obtain ⟨⟨place?, s₅⟩, -, h⟩ := bind_eq_ok.mp h
            cases place? with
            | none => simp at h
            | some place =>
              -- a `Buf` that is read has its type
              rw [← (Prod.mk.inj (Prod.mk.inj (Except.ok.inj h)).2).1] at htype
              exact absurd rfl htype
      · rw [← (Prod.mk.inj (Prod.mk.inj (Except.ok.inj h)).2).1]
        exact ⟨rfl, rfl⟩
      · obtain ⟨⟨w₂?, s₃⟩, -, h⟩ := bind_eq_ok.mp h
        cases w₂? with
        | none => simp at h
        | some w₂ =>
          rw [← (Prod.mk.inj (Prod.mk.inj (Except.ok.inj h)).2).1]
          exact ⟨rfl, rfl⟩
      · simp at h

end Next

/-! ### Two streams before the same bytes -/

variable {b : UInt64} {content rest : List UInt8} {s : MemStream FDInputMapper}
  {s' : MemStream ConstMapper}

/-- The bytes of the file from the place of the stream on. -/
def bytesAhead (b : UInt64) (content : List UInt8) (s : MemStream FDInputMapper) : List UInt8 :=
  content.drop (s.ptr.toNat - b.toNat)

theorem InFile.overFile (h : s.InFile b content) : OverFile b content s (s.bytesAhead b content) :=
  ⟨h.image, h.start, h.kept, h.ptr_le, h.end_le, rfl⟩

/-- Wherever the stream goes, its calls of `read` stay as they are. -/
theorem streamInvariant_generous :
    StreamInvariant fun s : MemStream FDInputMapper => Generous s.mapper where
  realizeMore := by
    intro s minAmount ok s' h heq
    unfold MemStream.realizeMore at heq
    obtain ⟨⟨got, m'⟩, hrealize, heq⟩ := bind_eq_ok.mp heq
    obtain ⟨-, rfl⟩ := Prod.mk.inj (Except.ok.inj heq)
    exact h.realize hrealize
  move h _ _ := h

/-- Where `next` has gone, no call of `read` is short, and the stream is in its window. -/
theorem InFile.next_generous (h : s.InFile b content) (hm : Generous s.mapper) {stack : StackBytes}
    {ev : OuterEvent} {r : Bool × OuterEvent × MemStream FDInputMapper}
    (heq : s.next stack ev = .ok r) :
    r.2.2.InFile b content ∧ s.ptr ≤ r.2.2.ptr ∧ Generous r.2.2.mapper ∧
      r.2.2.ptr ≤ r.2.2.end_ := by
  obtain ⟨hs', -, -, hmoves, -⟩ := h.next heq
  have hsettled := ((windowInvariant_onward.next trivial h.hasMore fun _ _ _ => trivial) ev).of_ok
    heq
  exact ⟨hs', hmoves, streamInvariant_generous.next hm heq, hsettled.settled.ordered.ptr_le⟩

/-- What two calls of `next` have in common: both are out of records, or both return the same one
and stand before the same bytes again. -/
structure SameNext (b : UInt64) (content : List UInt8)
    (r : Bool × OuterEvent × MemStream FDInputMapper)
    (r' : Bool × OuterEvent × MemStream ConstMapper) : Prop where
  ok : r'.1 = r.1
  end_iff : r'.2.1.type = .end_ ↔ r.2.1.type = .end_
  event : r.1 = true → r'.2.1 = r.2.1
  holds : r.1 = true → ∃ record, Holds r'.2.2 r'.2.1 record
  before : r.1 = true → Before (.ofBytes b content) r'.2.2 (r.2.2.bytesAhead b content) ∧
    r'.2.2.ptr ≤ r'.2.2.end_ ∧ r'.2.2.permissiveAdvance = false

/-- The streams are at the same place. -/
theorem Before.ptr_eq (hfits : b.toNat + content.length ≤ 2 ^ 63)
    (h' : Before (.ofBytes b content) s' rest) (h : OverFile b content s rest) :
    s'.ptr = s.ptr := by
  have hptr := h'.ptr_le hfits
  have hends := h.ends.2.1
  apply UInt64.toNat_inj.mp
  omega

/-- Two events that hold the same record and end at the same place. -/
theorem Holds.event_eq {M M' : Type} [Mapper M] [Mapper M'] {s : MemStream M} {s' : MemStream M'}
    {ev ev' : OuterEvent} {r : OuterRecord} (h' : Holds s' ev' r) (h : Holds s ev r)
    (hend : ev'.bufEnd = ev.bufEnd) : ev' = ev := by
  obtain ⟨type', cpu', ts', threadId', start', end'⟩ := ev'
  obtain ⟨type, cpu, ts, threadId, start, end_⟩ := ev
  obtain rfl : type' = type := h'.type.trans h.type.symm
  obtain rfl : cpu' = cpu := h'.cpu.trans h.cpu.symm
  obtain rfl : ts' = ts := h'.ts.trans h.ts.symm
  obtain rfl : threadId' = threadId := h'.threadId.trans h.threadId.symm
  obtain rfl : end' = end_ := hend
  obtain rfl : start' = start :=
    (UInt64.add_left_inj _).mp (h'.bufEnd.symm.trans h.bufEnd)
  rfl

/-- **`next`** over the file and over its image. -/
theorem InFile.next_matches (hroom : b.toNat + content.length + 2 ^ 31 ≤ 2 ^ 63)
    (h : s.InFile b content) (hm : Generous s.mapper)
    (h' : Before (.ofBytes b content) s' (s.bytesAhead b content))
    (hstrict' : s'.permissiveAdvance = false)
    (hsmall : ∀ size rest, declaredSize? (s.bytesAhead b content) = some (size, rest) →
      size.toNat ≤ 2 ^ 30) (stack : StackBytes) (ev : OuterEvent) :
    Matches (SameNext b content) (s.next stack ev) (s'.next stack ev) := by
  have hover := h.overFile
  have hshows := shows_generous hroom
  have hfits : b.toNat + content.length ≤ 2 ^ 63 := by omega
  have hno : ¬ WrapsAround s'.ptr (s.bytesAhead b content) := by
    have hptr := h'.ptr_le hfits
    unfold WrapsAround
    cases hsize : declaredSize? (s.bytesAhead b content) with
    | none => simp
    | some p =>
      have hle := hsmall p.1 p.2 hsize
      dsimp only
      omega
  have hfile := next_eq hshows.served ⟨hover, hm⟩ h.strict
    (hshows.nextShown ⟨hover, hm⟩ h.strict hsmall stack) ev
  have hconst := next_eq (served_before _) h' hstrict' (h'.nextShown hstrict' hno stack) ev
  cases hrecord : nextRecord (s.bytesAhead b content) with
  | error e =>
    rw [hrecord] at hfile hconst
    rw [hfile, hconst]
    exact .error e
  | ok record =>
    cases record with
    | none =>
      simp only [hrecord] at hfile hconst
      obtain ⟨ev₁, s₁, hnext⟩ := hfile
      obtain ⟨ev₁', s₁', hnext'⟩ := hconst
      rw [hnext, hnext']
      refine .ok ⟨rfl, ?_, by simp, by simp, by simp⟩
      -- both have seen whether there is a byte
      obtain ⟨s₂, hmore, -⟩ := hasMore_eq hshows.served ⟨hover, hm⟩ (hshows.more ⟨hover, hm⟩)
      obtain ⟨s₂', hmore', -⟩ := h'.hasMore_eq
      have hbyte : ∀ {more more' : Bool} {s₃ s₃'}, s.hasMore = .ok (more, s₃) →
          s'.hasMore = .ok (more', s₃') → more' = more := by
        intro more more' s₃ s₃' h₃ h₃'
        rw [hmore] at h₃
        rw [hmore'] at h₃'
        rw [← (Prod.mk.inj (Except.ok.inj h₃)).1, ← (Prod.mk.inj (Except.ok.inj h₃')).1]
      obtain ⟨hnone, rfl⟩ | ⟨⟨s₃, hsome⟩, htype⟩ := next_false hnext
      · obtain ⟨-, rfl⟩ | ⟨⟨s₃', hsome'⟩, -⟩ := next_false hnext'
        · exact Iff.rfl
        · exact absurd (hbyte hnone hsome') Bool.true_eq_false_eq_False
      · obtain ⟨hnone', -⟩ | ⟨-, htype'⟩ := next_false hnext'
        · exact absurd (hbyte hsome hnone') Bool.false_ne_true
        · exact iff_of_false htype' htype
    | some record =>
      obtain ⟨r, rest⟩ := record
      simp only [hrecord] at hfile hconst
      obtain ⟨ev₁, s₁, hnext, hholds, ⟨hs₁, hm₁⟩, hle, -⟩ := hfile
      obtain ⟨ev₁', s₁', hnext', hholds', hs₁', hle', hstrict₁'⟩ := hconst
      rw [hnext, hnext']
      have hptr : s₁'.ptr = s₁.ptr := hs₁'.ptr_eq hfits hs₁
      have htype : ev₁'.type = ev₁.type := hholds'.type.trans hholds.type.symm
      refine .ok ⟨rfl, by rw [htype], fun _ => ?_, fun _ => ⟨r, hholds'⟩,
        fun _ => ⟨?_, hle', hstrict₁'⟩⟩
      · refine hholds'.event_eq hholds ?_
        by_cases hbuf : ev₁.type = .buf
        · have hlt := UInt64.lt_iff_toNat_lt.mp
            (h'.next_progresses hfits hstrict' hno hnext').1.lt
          have hpos : s₁'.ptr ≠ 0 := by
            intro hzero
            rw [hzero] at hlt
            exact absurd hlt (Nat.not_lt_zero _)
          rw [next_bufEnd hnext' (htype.trans hbuf) hpos, hptr, ((h.next hnext).2.2.2.2 rfl hbuf).2]
        · rw [(next_noBuf hnext' (by rwa [htype])).2, (next_noBuf hnext hbuf).2]
      · rw [bytesAhead, ← hs₁.bytes]
        exact hs₁'

end MemStream

end MallocTraceReplay
