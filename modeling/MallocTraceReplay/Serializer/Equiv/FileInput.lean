import MallocTraceReplay.Serializer.Equiv.Input
import MallocTraceReplay.Serializer.Equiv.RoundTrip
import MallocTraceReplay.Stream.Equiv.Chunking
import MallocTraceReplay.Stream.Equiv.KeptWindow

/-!
# Reading a file

The input over a `FDInputMapper` stands in the part of the file that is kept, and so do the barriers
it remembers (`Input.InFile`).  A record leaves the part as it is, and a buffer lies in it; the end
of a batch may give memory back, up to the page of the barrier before the last one
(`Input.releasedBelow`).  Where no call of `read` is short, a written trace is read record after
record (`Input.Written`).
-/

namespace MallocTraceReplay

open AltVarintCodec MallocTraceEncoder StepMachine FDInputMapper

/-- A buffer lies in the part of the memory that is kept. -/
def FDInputMapper.Keeps (m : FDInputMapper) (ev : OuterEvent) : Prop :=
  m.lastStart ≤ ev.bufStart ∧ ev.bufEnd ≤ m.lastEnd

/-- The page below which the next item gives memory back, if it ends a batch and does so. -/
def Input.releasedBelow {M : Type} [Mapper M] (env : Env) (i : Input M) : Option UInt64 := do
  let (ok, ev, s) ← (i.s.next env.stack i.ev).toOption
  if (ok = false ∨ ev.type = .syncBarrier) ∧ ev.type ≠ .end_ then s.unrealizedBelow i.prevBarrier
  else none

/-! ### Items -/

namespace Input

variable {b : UInt64} {content : List UInt8} {ndebug : Bool} {env : Env}
  {i i' : Input FDInputMapper}

theorem releasedBelow_of_next {ok : Bool} {ev : OuterEvent} {s : MemStream FDInputMapper}
    (h : i.s.next env.stack i.ev = .ok (ok, ev, s)) :
    i.releasedBelow env = if (ok = false ∨ ev.type = .syncBarrier) ∧ ev.type ≠ .end_ then
      s.unrealizedBelow i.prevBarrier else none := by
  unfold releasedBelow
  rw [h]
  rfl

/-- The input of a file: the barriers are behind the place of its stream. -/
structure InFile (b : UInt64) (content : List UInt8) (i : Input FDInputMapper) : Prop where
  stream : i.s.InFile b content
  barriers : ∀ j, b ≤ i.lastBarriers j ∧ i.lastBarriers j ≤ i.s.ptr

/-- The input after the magic word. -/
theorem inFile_open {fd : InputFd} {mmapOk : UInt64 → UInt64 → Bool}
    (haligned : b.toNat % 4096 = 0) (hfits : b.toNat + fd.content.length < 2 ^ 63)
    (hposition : fd.position = 0) (hopen : open_ env (FDInputMapper.new fd b mmapOk) = .ok i) :
    InFile b fd.content i := by
  have hnew : MemStream.InFile b fd.content (MemStream.new (FDInputMapper.new fd b mmapOk)) :=
    ⟨image_new haligned hfits hposition mmapOk, rfl, UInt64.le_refl _, UInt64.le_refl _,
      UInt64.le_refl _, UInt64.le_refl _, rfl⟩
  have hsettled := MemStream.settled_new (J := MemStream.Onward b fd.content
    (MemStream.new (FDInputMapper.new fd b mmapOk))) ⟨hnew.image, rfl, rfl, UInt64.le_refl _,
      UInt64.le_refl _, UInt64.le_refl _, UInt64.le_refl _⟩
  unfold open_ at hopen
  obtain ⟨⟨place, s⟩, hadvance, hopen⟩ := bind_eq_ok.mp hopen
  obtain ⟨hinv, hmoves⟩ := (MemStream.windowInvariant_onward.advanceBy hsettled.inv
    hsettled.ordered trivial).of_ok hadvance
  have hs : s.InFile b fd.content := hnew.onward (hmoves.settled hsettled hinv).1
  dsimp only at hopen
  split at hopen
  · simp at hopen
  · split at hopen
    · simp at hopen
    · obtain rfl := Except.ok.inj hopen
      refine ⟨hs, fun _ => ?_⟩
      show b ≤ s.mapper.mmapArea ∧ s.mapper.mmapArea ≤ s.ptr
      rw [hs.image.area]
      exact ⟨UInt64.le_refl _, hs.begin_le_ptr⟩

/-- A record that is read: nothing is given back, and a buffer is kept. -/
theorem InFile.record (h : InFile b content i) {ev : OuterEvent}
    (hadv : i.advance ndebug env = .ok (.record ev, i')) :
    InFile b content i' ∧ i'.s.mapper.lastStart = i.s.mapper.lastStart ∧
      i.s.mapper.lastEnd ≤ i'.s.mapper.lastEnd ∧ (ev.type = .buf → i'.s.mapper.Keeps ev) ∧
      i.releasedBelow env = none := by
  obtain ⟨ok, ev', s, hnext, -, ⟨rfl, hend, hbarrier, hitem, rfl⟩ | ⟨hitem, -⟩⟩ :=
    advance_cases hadv
  · obtain rfl := Item.record.inj hitem
    obtain ⟨hs, hstart, hmore, hptr, hbuf⟩ := h.stream.next hnext
    refine ⟨⟨hs, fun j => ⟨(h.barriers j).1, UInt64.le_trans (h.barriers j).2 hptr⟩⟩, hstart,
      hmore, fun htype => ?_, ?_⟩
    · obtain ⟨hkept, hplace⟩ := hbuf rfl htype
      refine ⟨hkept, ?_⟩
      rw [hplace]
      exact hs.ptr_le
    rw [releasedBelow_of_next hnext]
    exact if_neg fun hreleases => hreleases.1.elim (by simp) hbarrier
  · simp at hitem

/-- The end of a batch. -/
theorem InFile.batchEnd (h : InFile b content i)
    (hadv : i.advance ndebug env = .ok (.batchEnd, i')) :
    InFile b content i' ∧ i.s.mapper.lastEnd ≤ i'.s.mapper.lastEnd ∧
      i'.s.mapper.lastStart =
        (i.releasedBelow env).elim i.s.mapper.lastStart (max · i.s.mapper.lastStart) := by
  obtain ⟨ok, ev, s, hnext, -, ⟨-, -, -, hitem, -⟩ | ⟨-, hends, hfinish⟩⟩ := advance_cases hadv
  · simp at hitem
  · obtain ⟨hs, hstart, hmore, hptr, -⟩ := h.stream.next hnext
    have hbarriers : ∀ j, b ≤ i.lastBarriers j ∧ i.lastBarriers j ≤ s.ptr := fun j =>
      ⟨(h.barriers j).1, UInt64.le_trans (h.barriers j).2 hptr⟩
    rw [releasedBelow_of_next hnext]
    unfold finishBatch at hfinish
    dsimp only at hfinish ⊢
    split at hfinish
    · next hend =>
      obtain rfl := Except.ok.inj hfinish
      rw [if_neg fun hreleases => hreleases.2 hend]
      exact ⟨⟨hs, hbarriers⟩, hmore, hstart⟩
    · next hend =>
      obtain ⟨s', hrelease, hfinish⟩ := bind_eq_ok.mp hfinish
      obtain rfl := Except.ok.inj hfinish
      have hreleases : (ok = false ∨ ev.type = .syncBarrier) ∧ ev.type ≠ .end_ := by
        refine ⟨?_, hend⟩
        cases ok with
        | false => exact Or.inl rfl
        | true => exact Or.inr ((hends rfl).resolve_left hend)
      rw [if_pos hreleases, ← hstart]
      obtain ⟨hs', hsame, hmore', hstart'⟩ :=
        hs.unrealizeUpTo (hbarriers _).1 (hbarriers _).2 hrelease
      refine ⟨⟨hs', fun j => ?_⟩, UInt64.le_trans hmore hmore', hstart'⟩
      -- the barrier that is entered is the place of the stream
      dsimp only
      rw [hsame]
      split
      · exact ⟨hs.begin_le_ptr, UInt64.le_refl _⟩
      · exact hbarriers j

/-! ### Written traces -/

end Input

/-- A buffer whose record is whole declares no more bytes than there are. -/
theorem declaredSize?_le {bytes rest rest' : List UInt8} {r : OuterRecord} {size : UInt64}
    (h : nextRecord bytes = .ok (some (r, rest)))
    (hsize : declaredSize? bytes = some (size, rest')) :
    size.toNat ≤ bytes.length := by
  obtain ⟨w, rest₁, w₂, rest₂, hv, htype, hv₂, hv₃⟩ := declaredSize?_eq_some.mp hsize
  have hlen₁ := readVarint_length_lt hv
  have hlen₂ := readVarint_length_lt hv₂
  have hlen₃ := readVarint_length_lt hv₃
  unfold nextRecord at h
  simp only [hv, htype] at h
  have h := Except.ok.inj h
  unfold nextBufRecord at h
  simp only [hv₂, hv₃, Option.bind_eq_bind, Option.bind_some] at h
  split at h
  · next hle =>
    have hle : size.toNat ≤ rest'.length := hle
    omega
  · simp at h

namespace MemStream

variable {b : UInt64} {content rest : List UInt8} {s s' : MemStream FDInputMapper}

/-- **A record of a file** where nothing is short is returned. -/
theorem OverFile.next_generous (hroom : b.toNat + content.length + 2 ^ 31 ≤ 2 ^ 63)
    (hlen : content.length ≤ 2 ^ 30) (h : OverFile b content s rest) (hm : Generous s.mapper)
    (hstrict : s.permissiveAdvance = false) {r : OuterRecord} {rest' : List UInt8}
    (hr : nextRecord rest = .ok (some (r, rest'))) (stack : StackBytes) (ev : OuterEvent) :
    ∃ ev' s', s.next stack ev = .ok (true, ev', s') ∧ Holds s' ev' r ∧
      OverFile b content s' rest' ∧ Generous s'.mapper ∧ s'.ptr ≤ s'.end_ := by
  have hshows := shows_generous hroom
  have hsmall : ∀ size rest', declaredSize? rest = some (size, rest') → size.toNat ≤ 2 ^ 30 := by
    intro size rest'' hsize
    have hdeclared := declaredSize?_le hr hsize
    rw [h.bytes, List.length_drop] at hdeclared
    omega
  have hspec := next_eq hshows.served ⟨h, hm⟩ hstrict
    (hshows.nextShown ⟨h, hm⟩ hstrict hsmall stack) ev
  simp only [hr] at hspec
  obtain ⟨ev', s', heq, hholds, ⟨hs', hm'⟩, hle, -⟩ := hspec
  exact ⟨ev', s', heq, hholds, hs', hm', hle⟩

/-- **`unrealize_up_to`** works where nothing is short. -/
theorem InFile.unrealizeUpTo_generous (hroom : b.toNat + content.length + 2 ^ 31 ≤ 2 ^ 63)
    (h : InFile b content s) (hm : Generous s.mapper) (hle : s.ptr ≤ s.end_) (ndebug : Bool)
    {ptr : UInt64} (hlow : b ≤ ptr) (hptr : ptr ≤ s.ptr) :
    ∃ s', s.unrealizeUpTo ndebug ptr = .ok s' ∧ Generous s'.mapper := by
  -- the window starts where the file does
  have hassert : decide (ptr ≥ s.realizedStart) = true := by
    rw [decide_eq_true_eq, h.start]
    exact hlow
  unfold MemStream.unrealizeUpTo
  rw [hassert, check_true, ok_bind]
  split
  · exact ⟨s, rfl, hm⟩
  · -- the page is not beyond the place, whatever bits the mask leaves
    have hback : ptr - (ptr &&& 4096) ≤ ptr := by
      rw [UInt64.le_iff_toNat_le, UInt64.toNat_sub_of_le]
      · exact Nat.sub_le _ _
      · rw [UInt64.le_iff_toNat_le, UInt64.toNat_and]
        exact Nat.and_le_left
    dsimp only
    generalize ptr - (ptr &&& 4096) = start at hback ⊢
    have hstart := UInt64.le_trans hback (UInt64.le_trans hptr hle)
    have hstart' := UInt64.le_iff_toNat_le.mp hstart
    have hend := UInt64.le_iff_toNat_le.mp h.end_le
    obtain ⟨got, m', hrealize, -⟩ := h.image.realize_generous hm hroom
      (UInt64.le_trans hstart h.end_le) (show start.toNat + (s.end_ - start).toNat ≤ _ by
        rw [UInt64.toNat_sub_of_le _ _ hstart]
        omega)
    obtain ⟨-, hmore, -, hgot, -⟩ := h.image.realize hrealize
    have hclass : Mapper.realize s.mapper start (s.end_ - start) = .ok (got, m') := hrealize
    rw [hclass, ok_bind]
    dsimp only
    -- what was in the window is realized again
    have hshown : ¬ start + got < s.end_ := by
      rw [hgot, UInt64.add_comm, UInt64.sub_add_cancel]
      exact UInt64.not_lt.mpr (UInt64.le_trans h.end_le hmore)
    rw [if_neg hshown]
    exact ⟨_, rfl, hm.realize hrealize⟩

end MemStream

namespace Input

/-- The input of a file stands before some records of a written trace, and nothing is short. -/
structure Written (b : UInt64) (content : List UInt8) (st : UInt64 → EncoderState)
    (records : List TraceRecord) (i : Input FDInputMapper) : Prop where
  inFile : i.InFile b content
  bytes : writeRecords st records = content.drop (i.s.ptr.toNat - b.toNat)
  generous : Generous i.s.mapper

variable {b : UInt64} {content : List UInt8} {ndebug : Bool} {env : Env}
  {i : Input FDInputMapper} {st : UInt64 → EncoderState} {r : TraceRecord}
  {records : List TraceRecord}

/-- The input of a file with a trace, after the magic word. -/
theorem exists_written {fd : InputFd} {mmapOk : UInt64 → UInt64 → Bool}
    (haligned : b.toNat % 4096 = 0) (hroom : b.toNat + fd.content.length + 2 ^ 31 ≤ 2 ^ 63)
    (hposition : fd.position = 0) (htrace : fd.content = writeTrace records)
    (hgenerous : Generous (FDInputMapper.new fd b mmapOk)) (env : Env) :
    ∃ i, open_ env (FDInputMapper.new fd b mmapOk) = .ok i ∧
      Written b fd.content (fun _ => .init) records i ∧ i.seenEnd = false ∧
      i.lastBarriersIndex = 0 := by
  have hfits : b.toNat + fd.content.length < 2 ^ 63 := by omega
  have hshows := MemStream.shows_generous hroom
  have hnew := MemStream.overFile_new hposition haligned hfits mmapOk
  rw [htrace, writeTrace] at hnew
  rw [htrace, writeTrace] at hshows
  obtain ⟨s, hopen, ⟨hs, hm⟩, -⟩ := exists_open hshows.served env ⟨hnew, hgenerous⟩
    (hshows.block ⟨hnew, hgenerous⟩ (by decide)).2
  refine ⟨_, hopen, ⟨inFile_open haligned hfits hposition hopen, ?_, hm⟩, rfl, rfl⟩
  rw [htrace, writeTrace]
  exact hs.bytes

/-- **A written record** is read next. -/
theorem Written.next (h : Written b content st (r :: records) i) (hr : r.Bounded)
    (hroom : b.toNat + content.length + 2 ^ 31 ≤ 2 ^ 63) (hlen : content.length ≤ 2 ^ 30)
    (env : Env) :
    ∃ ev s, i.s.next env.stack i.ev = .ok (true, ev, s) ∧ MemStream.Holds s ev (r.outer st) ∧
      s.InFile b content ∧ writeRecords (writeRecord st r).2 records =
        content.drop (s.ptr.toNat - b.toNat) ∧ Generous s.mapper ∧ s.ptr ≤ s.end_ := by
  have hs := h.inFile.stream
  have hover : MemStream.OverFile b content i.s (writeRecords st (r :: records)) :=
    ⟨hs.image, hs.start, hs.kept, hs.ptr_le, hs.end_le, h.bytes⟩
  have hle : (writeRecords st (r :: records)).length ≤ content.length := by
    rw [h.bytes, List.length_drop]
    exact Nat.sub_le _ _
  have hfits : (writeRecords st (r :: records)).length < 2 ^ 64 := by omega
  obtain ⟨ev, s, hnext, hholds, hs', hm', hshown⟩ := hover.next_generous hroom hlen h.generous
    hs.strict (nextRecord_writeRecord hr hfits) env.stack i.ev
  exact ⟨ev, s, hnext, hholds, (hs.next hnext).1, hs'.bytes, hm', hshown⟩

/-- **A written buffer** is read. -/
theorem Written.buf {threadId ts cpu : UInt64} {events : List InnerRecord}
    (h : Written b content st (.buf threadId ts cpu events :: records) i)
    (hr : (TraceRecord.buf threadId ts cpu events).Bounded)
    (hroom : b.toNat + content.length + 2 ^ 31 ≤ 2 ^ 63) (hlen : content.length ≤ 2 ^ 30)
    (ndebug : Bool) (env : Env) :
    ∃ ev i', i.advance ndebug env = .ok (.record ev, i') ∧
      Written b content (writeRecord st (.buf threadId ts cpu events)).2 records i' ∧
      MemStream.Holds i'.s ev (TraceRecord.outer st (.buf threadId ts cpu events)) ∧
      ev.bufEnd = i'.s.ptr ∧ i'.seenEnd = i.seenEnd ∧
      i'.lastBarriersIndex = i.lastBarriersIndex := by
  obtain ⟨ev, s, hnext, hholds, hs, hbytes, hm, -⟩ := h.next hr hroom hlen env
  have htype : ev.type = .buf := hholds.type
  have hadv : i.advance ndebug env =
      .ok (.record ev, { i with s := s, ev := ev, read := i.read ++ [.record ev] }) := by
    unfold advance
    rw [hnext, ok_bind]
    simp [htype]
  exact ⟨ev, _, hadv, ⟨(h.inFile.record hadv).1, hbytes, hm⟩, hholds,
    ((h.inFile.stream.next hnext).2.2.2.2 rfl htype).2, rfl, rfl⟩

/-- **A written barrier** is read and entered. -/
theorem Written.barrier {ts cpu : UInt64}
    (h : Written b content st (.syncBarrier ts cpu :: records) i)
    (hr : (TraceRecord.syncBarrier ts cpu).Bounded)
    (hroom : b.toNat + content.length + 2 ^ 31 ≤ 2 ^ 63) (hlen : content.length ≤ 2 ^ 30)
    (ndebug : Bool) (env : Env) :
    ∃ i', i.advance ndebug env = .ok (.batchEnd, i') ∧ Written b content st records i' ∧
      i'.seenEnd = i.seenEnd ∧ i.s.ptr ≤ i'.s.ptr ∧
      i'.lastBarriersIndex = i.lastBarriersIndex + 1 ∧
      i'.lastBarriers = (fun j =>
        if j = i.lastBarriersIndex + 1 then i'.s.ptr else i.lastBarriers j) ∧
      i.releasedBelow env = i.s.unrealizedBelow i.prevBarrier := by
  obtain ⟨ev, s, hnext, hholds, hs, hbytes, hm, hshown⟩ := h.next hr hroom hlen env
  have htype : ev.type = .syncBarrier := hholds.type
  obtain ⟨-, hstart, -, hmoves, -⟩ := h.inFile.stream.next hnext
  obtain ⟨hlow, hptr⟩ := h.inFile.barriers (i.lastBarriersIndex + 1)
  have hptr' := UInt64.le_trans hptr hmoves
  -- the older bound of the ring is behind the stream
  obtain ⟨s', hrelease, hm'⟩ := hs.unrealizeUpTo_generous hroom hm hshown ndebug hlow hptr'
  obtain ⟨-, hsame, -⟩ := hs.unrealizeUpTo hlow hptr' hrelease
  have hadv : i.advance ndebug env = .ok (.batchEnd, { i with
      s := s'
      lastBarriers := fun j => if j = i.lastBarriersIndex + 1 then s'.ptr else i.lastBarriers j
      lastBarriersIndex := i.lastBarriersIndex + 1
      ev := env.newEvent
      read := i.read ++ [.batchEnd] }) := by
    unfold advance
    rw [hnext, ok_bind]
    simp only [htype, finishBatch, hrelease, ok_bind, pure_eq_ok, Bool.not_true,
      Bool.false_eq_true, if_false, or_true, if_true, reduceCtorEq]
  refine ⟨_, hadv, ⟨(h.inFile.batchEnd hadv).1, ?_, hm'⟩, rfl, ?_, rfl, rfl, ?_⟩
  · show _ = content.drop (s'.ptr.toNat - b.toNat)
    rw [hsame]
    exact hbytes
  · show i.s.ptr ≤ s'.ptr
    rw [hsame]
    exact hmoves
  · rw [releasedBelow_of_next hnext, if_pos ⟨Or.inr htype, by simp [htype]⟩]
    unfold MemStream.unrealizedBelow
    rw [hs.start, h.inFile.stream.start]

end Input

end MallocTraceReplay
