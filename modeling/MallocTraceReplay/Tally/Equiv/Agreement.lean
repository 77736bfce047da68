import MallocTraceReplay.Tally.Equiv.EvCounter
import MallocTraceReplay.Serializer.Equiv.StreamCounts

/-!
# Tally and serializer

The tally counts the events that the serializer decodes from the same stream, as long as no sized
free is written (`EvCounter.agrees_of_noSizedFrees`): `process_one` skips a word after the word of a
sized free, and there is none.  A stream with sized frees may still come out right, when a word that
is taken for another record makes up for one that is skipped (`EvCounter.agrees_makeUpRecords`).
-/

namespace MallocTraceReplay

open AltVarintCodec MallocTraceEncoder

/-- The serializer decodes `n` events of a type from the bytes of a mapper: they are read to their
end, what is read there decodes to as many, and as many are delivered in a run that leaves no thread
waiting. -/
structure SerializerDecodes (env : Env) (mapper : ConstMapper) (type : EventType) (n : ℕ) :
    Prop where
  ends : ∃ i, Input.Reached env mapper i ∧ i.seenEnd = true
  decoded : ∀ i, Input.Reached env mapper i → i.seenEnd = true → i.decodedCount env type = n
  delivered : ∀ m, Machine.Reached false env mapper m → m.loc = .returned →
    m.state.pendingFrees = [] → countOf type (m.state.deliveries.map (·.2)) = n

/-- The numbers of events in a stream are those that the serializer decodes. -/
theorem serializerDecodes_stream {b : UInt64} {records : List EncodedRecord}
    (h : InUserSpace b (magicBytes ++ recordStream records)) (env : Env) {type : EventType}
    (htype : type ≠ .tok) :
    SerializerDecodes env (.ofBytes b (magicBytes ++ recordStream records)) type
      (eventCount type records) where
  ends := by
    obtain ⟨i, hi, hend, -⟩ := Input.exists_counted_stream env h.fits
    exact ⟨i, hi, hend⟩
  decoded _ hi hend := hi.decodedCount_stream h hend htype
  delivered _ hm hloc hno := hm.countP_deliveries h hloc hno htype

namespace EvCounter

/-- The tally of a stream that stands at `b'`, with or without its assertions: the loop ends at the
end record, and the counters are what the serializer decodes from the stream after the magic word at
`b`. -/
def Agrees (ndebug : Bool) (stack : StackBytes) (lastBuf b' : UInt64) (env : Env) (b : UInt64)
    (records : List EncodedRecord) : Prop :=
  ∃ fuel c c', (new (ConstMapper.ofBytes b' (recordStream records)) lastBuf).processAll ndebug
      stack fuel = .ok (c, c') ∧
    c.s.ptr.toNat = b'.toNat + (writeEncoded records).length ∧
    SerializerDecodes env (.ofBytes b (magicBytes ++ recordStream records)) .malloc
      c'.mallocs.toNat ∧
    SerializerDecodes env (.ofBytes b (magicBytes ++ recordStream records)) .free
      c'.frees.toNat ∧
    SerializerDecodes env (.ofBytes b (magicBytes ++ recordStream records)) .freeSized
      c'.sizedFrees.toNat

/-- **Tally and serializer** count the same on every stream without sized frees. -/
theorem agrees_of_noSizedFrees {b b' : UInt64} {records : List EncodedRecord}
    (h : InUserSpace b (magicBytes ++ recordStream records))
    (hfits : b'.toNat + (recordStream records).length ≤ 2 ^ 63) (hno : NoSizedFrees records)
    (ndebug : Bool) (stack : StackBytes) (lastBuf : UInt64) (env : Env) :
    Agrees ndebug stack lastBuf b' env b records := by
  obtain ⟨fuel, c, c', hall, hplace, hmallocs, hfrees, hsized⟩ :=
    processAll_stream hfits hno ndebug stack lastBuf
  refine ⟨fuel, c, c', hall, hplace, ?_, ?_, ?_⟩
  · rw [hmallocs]
    exact serializerDecodes_stream h env (by decide)
  · rw [hfrees]
    exact serializerDecodes_stream h env (by decide)
  · rw [hsized]
    exact serializerDecodes_stream h env (by decide)

/-- All types of records but sized frees. -/
def mixedRecords : List EncodedRecord :=
  [.buf 1 1027 [(.init, .tok 7 1024 3), (.init, .malloc 24), (.init, .realloc 7 40)],
    .syncBarrier 2048, .buf 2 3072 [(.init, .memalign 64 4096), (.init, .free 8)], .death 1 4096]

theorem agrees_of_noSizedFrees_mixedRecords :
    Agrees false (fun _ _ => 0) 0 0x10000 .tokenSet 0x20000 mixedRecords :=
  agrees_of_noSizedFrees ⟨by decide, by decide⟩ (by decide) (by decide) _ _ _ _

/-- What the tally comes to decides whether it agrees. -/
theorem Agrees.mallocs_eq {ndebug : Bool} {stack : StackBytes} {lastBuf b' : UInt64} {env : Env}
    {b : UInt64} {records : List EncodedRecord}
    (hagrees : Agrees ndebug stack lastBuf b' env b records)
    (h : InUserSpace b (magicBytes ++ recordStream records)) {fuel : ℕ}
    {r : EvCounter ConstMapper × EvCounter ConstMapper}
    (hr : (new (ConstMapper.ofBytes b' (recordStream records)) lastBuf).processAll ndebug stack
      fuel = .ok r) : r.2.mallocs.toNat = eventCount .malloc records := by
  obtain ⟨fuel', c, c', hall, -, hdecodes, -⟩ := hagrees
  obtain rfl := processAll_unique hr hall
  obtain ⟨i, hi, hend⟩ := hdecodes.ends
  rw [← hdecodes.decoded i hi hend]
  exact (serializerDecodes_stream h env (by decide)).decoded i hi hend

/-- An allocation whose word is skipped after that of a sized free. -/
def skippedRecords : List EncodedRecord :=
  [.buf 1 1024 [(.init, .freeSized 7), (.init, .malloc 24)]]

/-- The tally does not count the allocation. -/
theorem not_agrees : ¬ Agrees false (fun _ _ => 0) 0 0x10000 .tokenSet 0x20000 skippedRecords := by
  intro hagrees
  have hrun : ((new (ConstMapper.ofBytes 0x10000 (recordStream skippedRecords)) 0).processAll false
      (fun _ _ => 0) 4).map (fun r => r.2.mallocs) = .ok 0 := by
    decide +kernel
  obtain ⟨r, hr, hmallocs⟩ := StepMachine.map_eq_ok.mp hrun
  have hcount := hagrees.mallocs_eq ⟨by decide, by decide⟩ hr
  rw [hmallocs] at hcount
  exact absurd hcount (by decide)

/-- Sized frees before a `Realloc`, whose second word the tally takes for an allocation, and before
an allocation, which it skips. -/
def makeUpRecords : List EncodedRecord :=
  [.buf 1 1024 [(.init, .freeSized 7), (.init, .realloc 4 8), (.init, .freeSized 7),
    (.init, .malloc 24)]]

/-- The tally of a stream with sized frees may still come out right. -/
theorem agrees_makeUpRecords : ¬ NoSizedFrees makeUpRecords ∧
    Agrees false (fun _ _ => 0) 0 0x10000 .tokenSet 0x20000 makeUpRecords := by
  refine ⟨by decide, ?_⟩
  have hrun : ((new (ConstMapper.ofBytes 0x10000 (recordStream makeUpRecords)) 0).processAll false
      (fun _ _ => 0) 5).map (fun r => (r.1.s.ptr, r.2.mallocs, r.2.frees, r.2.sizedFrees)) =
        .ok (0x10000 + UInt64.ofNat (writeEncoded makeUpRecords).length, 1, 0, 2) := by
    decide +kernel
  obtain ⟨⟨c, c'⟩, hall, hsame⟩ := StepMachine.map_eq_ok.mp hrun
  simp only [Prod.mk.injEq] at hsame
  obtain ⟨hplace, hmallocs, hfrees, hsized⟩ := hsame
  have hspace : InUserSpace 0x20000 (magicBytes ++ recordStream makeUpRecords) :=
    ⟨by decide, by decide⟩
  refine ⟨5, c, c', hall, by rw [hplace]; decide, ?_, ?_, ?_⟩
  · rw [hmallocs]
    exact serializerDecodes_stream hspace _ (by decide)
  · rw [hfrees]
    exact serializerDecodes_stream hspace _ (by decide)
  · rw [hsized]
    exact serializerDecodes_stream hspace _ (by decide)

end EvCounter

end MallocTraceReplay
