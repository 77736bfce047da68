import Mathlib.Algebra.BigOperators.Group.Finset.Piecewise
import MallocTraceReplay.Codec.RecordStream
import MallocTraceReplay.Serializer.Equiv.Completeness
import MallocTraceReplay.Serializer.Equiv.RoundTrip

/-!
# The events that the serializer decodes from a stream

Whatever the arguments of the encode functions are, the serializer reads the records of a stream one
after another, its decoders take every event of a buffer for one of the type that was written
(`readRecord_words_type`), and so it decodes as many events of a type as the stream has
(`Input.exists_counted_stream`).
-/

namespace MallocTraceReplay

open AltVarintCodec MallocTraceEncoder StepMachine MemStream Interleaving

/-! ### The events of a buffer -/

/-- The type of an event that is decoded. -/
def InnerEvent.type : InnerEvent → EventType
  | .malloc _ _ => .malloc
  | .memalign _ _ _ => .memalign
  | .free _ => .free
  | .freeSized _ => .freeSized
  | .realloc _ _ _ => .realloc

/-- The number of events of a type. -/
def countOf (type : EventType) (es : List TraceEvent) : ℕ := es.countP fun e => e.ev.type = type

/-- **One record** is decoded as one of its type, and its words are used up. -/
theorem readRecord_words_type (t : ThreadState) (s : EncoderState) (r : InnerRecord)
    (rest : List UInt8) :
    ∃ ev? t', readRecord t (writeWords (r.words s).1 ++ rest) = .ok (ev?, t', rest) ∧
      ev?.map InnerEvent.type = if r.type = .tok then none else some r.type := by
  have hnil : writeWords [] ++ rest = rest := rfl
  -- a token record gives no event, all the others give one of their type
  cases r with
  | tok =>
    simp only [readRecord, InnerRecord.words, encodeToken, readWord_writeWords, ok_bind,
      decodeType_tagged .tok _ (by decide), ofCode?_code, hnil]
    exact ⟨_, _, rfl, rfl⟩
  | malloc =>
    simp only [readRecord, InnerRecord.words, encodeMalloc, readWord_writeWords, ok_bind,
      decodeType_tagged .malloc _ (by decide), ofCode?_code, hnil]
    exact ⟨_, _, rfl, rfl⟩
  | memalign =>
    simp only [readRecord, InnerRecord.words, encodeMemalign, readWord_writeWords, ok_bind,
      decodeType_extTagged .memalign _ (by decide) (by decide), ofCode?_code, hnil]
    exact ⟨_, _, rfl, rfl⟩
  | free =>
    simp only [readRecord, InnerRecord.words, encodeFree, readWord_writeWords, ok_bind,
      decodeType_tagged .free _ (by decide), ofCode?_code, hnil]
    exact ⟨_, _, rfl, rfl⟩
  | freeSized =>
    simp only [readRecord, InnerRecord.words, encodeFreeSized, readWord_writeWords, ok_bind,
      decodeType_tagged .freeSized _ (by decide), ofCode?_code, hnil]
    exact ⟨_, _, rfl, rfl⟩
  | realloc =>
    simp only [readRecord, InnerRecord.words, encodeRealloc, readWord_writeWords, ok_bind,
      decodeType_extTagged .realloc _ (by decide) (by decide), ofCode?_code, hnil]
    exact ⟨_, _, rfl, rfl⟩

/-- **The events of a buffer** are decoded as many of each type as were written. -/
theorem decodeBytes_eventWords (t : ThreadState) (events : List (EncoderState × InnerRecord)) :
    ∃ es t', decodeBytes t (writeWords (eventWords events)) = (es, .ok t') ∧
      ∀ type, type ≠ .tok → countOf type es = events.countP fun e => e.2.type = type := by
  induction events generalizing t with
  | nil => exact ⟨[], t, rfl, fun _ _ => rfl⟩
  | cons e events ih =>
    have hwords : writeWords (eventWords (e :: events)) =
        writeWords (e.2.words e.1).1 ++ writeWords (eventWords events) := List.flatMap_append
    obtain ⟨ev?, t₁, hread, htype⟩ :=
      readRecord_words_type t e.1 e.2 (writeWords (eventWords events))
    obtain ⟨es, t', hrest, hcount⟩ := ih t₁
    refine ⟨_, t', by rw [hwords, decodeBytes_of_record hread, hrest], fun type hne => ?_⟩
    rw [countOf, List.countP_append, List.countP_cons, ← hcount type hne]
    cases ev? with
    | none =>
      have htok : e.2.type = .tok := by
        by_contra hno
        simp [hno] at htype
      simp [htok, countOf, Ne.symm hne]
    | some ev =>
      have hev : ev.type = e.2.type := by
        split at htype
        · simp at htype
        · exact Option.some.inj htype
      simp [hev, countOf, Nat.add_comm]

/-! ### The records of a stream -/

/-- What the reader makes of the head words of a record. -/
theorem EncodedRecord.nextRecord_write (r : EncodedRecord) {rest : List UInt8}
    (hfits : (r.write ++ rest).length < 2 ^ 64) :
    ∃ out : OuterRecord, nextRecord (r.write ++ rest) = .ok (some (out, rest)) ∧
      out.type = r.type ∧ out.body = writeWords (eventWords r.events) := by
  have hnil : ∀ bytes : List UInt8, writeWords [] ++ bytes = bytes := fun _ => rfl
  cases r with
  | syncBarrier tsAndCpu =>
    have htype : decodeType EventType.syncBarrier.code = EventType.syncBarrier.code := by decide
    simp only [nextRecord, write, headWords, events, eventWords, encodeSyncBarrier,
      List.flatMap_nil, List.append_nil, readVarint_writeWords, htype, ofCode?_code, hnil]
    exact ⟨_, rfl, rfl, rfl⟩
  | death threadId tsAndCpu =>
    simp only [nextRecord, write, headWords, events, eventWords, encodeDeath,
      List.flatMap_nil, List.append_nil, readVarint_writeWords,
      decodeType_extTagged .death _ (by decide) (by decide), ofCode?_code, hnil]
    exact ⟨_, rfl, rfl, rfl⟩
  | buf threadId tsAndCpu events =>
    have hsplit : (EncodedRecord.buf threadId tsAndCpu events).write =
        writeWords (EncodedRecord.buf threadId tsAndCpu events).headWords ++
          writeWords (eventWords events) := List.flatMap_append
    -- the size that is written is the one of the body
    have hbody : (UInt64.ofNat (writeWords (eventWords events)).length).toNat =
        (writeWords (eventWords events)).length := by
      rw [hsplit] at hfits
      simp only [List.length_append] at hfits
      rw [UInt64.toNat_ofNat']
      omega
    rw [hsplit]
    simp only [nextRecord, headWords, encodeBuffer, List.append_assoc, readVarint_writeWords,
      decodeType_tagged .buf _ (by decide), ofCode?_code, nextBufRecord, hnil, decodeBuffer,
      Option.bind_eq_bind, Option.bind_some, hbody]
    rw [List.take_left, List.drop_left, if_pos (by simp)]
    exact ⟨_, rfl, rfl, rfl⟩

namespace Input

/-- The threads of the records that were read. -/
def threads {M : Type} (i : Input M) : Finset UInt64 :=
  (i.read.filterMap Item.threadId?).toFinset

/-- The number of events of a type that were decoded, over all threads. -/
def decodedCount {M : Type} [Mapper M] (env : Env) (i : Input M) (type : EventType) : ℕ :=
  ∑ id ∈ i.threads, countOf type (i.events env id)

variable {env : Env} {b : UInt64} {data rest : List UInt8} {i : Input ConstMapper}

/-- The input stands before some bytes of a trace in memory. -/
structure Stands (b : UInt64) (data : List UInt8) (i : Input ConstMapper) (rest : List UInt8) :
    Prop where
  before : i.s.Before (.ofBytes b data) rest
  strict : i.s.permissiveAdvance = false
  goesOn : i.seenEnd = false
  barriers : ∀ j, b.toNat ≤ (i.lastBarriers j).toNat ∧ (i.lastBarriers j).toNat ≤ i.s.ptr.toNat

theorem Stands.mem_eq (h : i.Stands b data rest) : i.mem = (ConstMapper.ofBytes b data).mem := by
  show Mapper.load i.s.mapper = _
  rw [h.before.mapper]
  rfl

/-- The buffers read so far decode, and hold so many events of each type. -/
structure Counted (env : Env) (mem : UInt64 → Option UInt8) (i : Input ConstMapper)
    (n : EventType → ℕ) : Prop where
  decodes : ∀ id, ∃ t, (recorded env mem i.read id).2 = .ok t
  counts : ∀ ids, i.threads ⊆ ids → ∀ type, type ≠ .tok →
    ∑ id ∈ ids, countOf type (recorded env mem i.read id).1 = n type

/-- The end of a batch adds nothing. -/
theorem Counted.batchEnd {mem : UInt64 → Option UInt8} {n : EventType → ℕ}
    {i' : Input ConstMapper} (h : i.Counted env mem n) (hread : i'.read = i.read ++ [.batchEnd]) :
    i'.Counted env mem n := by
  have hthreads : i'.threads = i.threads := by
    have hno : [Item.batchEnd].filterMap Item.threadId? = [] := rfl
    rw [threads, hread, List.filterMap_append, hno, List.append_nil]
    rfl
  constructor
  · intro id
    rw [hread, recorded_batchEnd]
    exact h.decodes id
  · intro ids hids type htype
    rw [hthreads] at hids
    rw [← h.counts ids hids type htype, hread]
    simp only [recorded_batchEnd]

/-- A record adds the events that it has. -/
theorem Counted.record {mem : UInt64 → Option UInt8} {n k : EventType → ℕ}
    {i' : Input ConstMapper} {ev : OuterEvent} (h : i.Counted env mem n)
    (hread : i'.read = i.read ++ [.record ev])
    (hadds : ∀ t, ∃ es t', recordItem env mem ev.threadId (.pure t) (.record ev) = (es, .ok t') ∧
      ∀ type, type ≠ .tok → countOf type es = k type) :
    i'.Counted env mem fun type => n type + k type := by
  -- only the thread of the record has more events
  have hother : ∀ id, ev.threadId ≠ id →
      recorded env mem i'.read id = recorded env mem i.read id := by
    intro id hne
    rw [hread, recorded_append, recordItem, if_neg hne]
  obtain ⟨t, ht⟩ := h.decodes ev.threadId
  obtain ⟨es, t', hitem, hcount⟩ := hadds t
  have hown : recorded env mem i'.read ev.threadId =
      ((recorded env mem i.read ev.threadId).1 ++ es, .ok t') := by
    rw [hread, recorded_append]
    rcases hrec : recorded env mem i.read ev.threadId with ⟨es₀, res⟩
    rw [hrec] at ht
    obtain rfl : res = .ok t := ht
    rw [recordItem, if_pos rfl] at hitem ⊢
    cases htype : ev.type with
    | buf | death =>
      simp only [htype, Decoding.pure_andThen] at hitem ⊢
      simp only [Decoding.andThen, hitem]
    | malloc | free | tok | freeSized | end_ | realloc | memalign | syncBarrier =>
      simp only [htype] at hitem ⊢
      obtain ⟨rfl, hok⟩ := Prod.mk.inj hitem
      rw [← Except.ok.inj hok]
      exact Prod.ext (List.append_nil _).symm rfl
  constructor
  · intro id
    by_cases hid : ev.threadId = id
    · exact ⟨t', by rw [← hid, hown]⟩
    · rw [hother id hid]
      exact h.decodes id
  · intro ids hids type htype
    have hthreads : i'.threads = insert ev.threadId i.threads := by
      ext id
      simp [threads, hread, Item.threadId?, eq_comm]
    rw [hthreads, Finset.insert_subset_iff] at hids
    have hsum : ∀ id ∈ ids, countOf type (recorded env mem i'.read id).1 =
        countOf type (recorded env mem i.read id).1 + if ev.threadId = id then k type else 0 := by
      intro id _
      by_cases hid : ev.threadId = id
      · subst hid
        rw [hown, if_pos rfl, ← hcount type htype, countOf, List.countP_append]
        rfl
      · rw [hother id hid, if_neg hid, Nat.add_zero]
    rw [Finset.sum_congr rfl hsum, Finset.sum_add_distrib, h.counts ids hids.2 type htype,
      Finset.sum_ite_eq, if_pos hids.1]

/-- **One record of a stream** is read, and the events of it are added. -/
theorem Stands.advance {r : EncodedRecord} (h : i.Stands b data (r.write ++ rest))
    {n : EventType → ℕ} (hn : i.Counted env (ConstMapper.ofBytes b data).mem n) :
    ∃ item i', i.advance false env = .ok (item, i') ∧ i'.Stands b data rest ∧
      i'.Counted env (ConstMapper.ofBytes b data).mem
        fun type => n type + r.events.countP fun e => e.2.type = type := by
  have hfits := h.before.bytes.fits
  have hlen : (r.write ++ rest).length < 2 ^ 64 := by omega
  obtain ⟨out, hrecord, htype, hbody⟩ := r.nextRecord_write hlen
  obtain ⟨ev, s, hnext, hholds, hs, hle, hstrict⟩ :=
    h.before.next_of_record h.strict hrecord env.stack i.ev
  have hevtype : ev.type = r.type := hholds.type.trans htype
  have hplace : i.s.ptr.toNat ≤ s.ptr.toNat := by
    have hends := h.before.ends
    have hends' := hs.ends
    rw [List.length_append] at hends
    omega
  have hbarriers : ∀ j, b.toNat ≤ (i.lastBarriers j).toNat ∧
      (i.lastBarriers j).toNat ≤ s.ptr.toNat :=
    fun j => ⟨(h.barriers j).1, (h.barriers j).2.trans hplace⟩
  -- a record that is passed on
  have hpassed : ev.type ≠ .end_ → ev.type ≠ .syncBarrier → i.advance false env = .ok (.record ev,
      { i with s := s, ev := ev, read := i.read ++ [.record ev] }) := by
    intro hend hsync
    unfold Input.advance
    rw [hnext, ok_bind]
    simp only [Bool.not_true, Bool.false_eq_true, if_false]
    rw [if_neg (by simp [hend, hsync])]
    rfl
  have hstands : ({ i with s := s, ev := ev, read := i.read ++ [.record ev] } :
      Input ConstMapper).Stands b data rest := ⟨hs, hstrict, h.goesOn, hbarriers⟩
  cases r with
  | buf threadId tsAndCpu events =>
    refine ⟨_, _, hpassed (by simp [hevtype, EncodedRecord.type])
      (by simp [hevtype, EncodedRecord.type]), hstands, hn.record rfl fun t => ?_⟩
    have hbytes := bufBytes_of_holds hholds hstands.mem_eq
    rw [hbody] at hbytes
    obtain ⟨es, t', hdecode, hcount⟩ := decodeBytes_eventWords t events
    refine ⟨es, t'.updateWithBuf ev, ?_, hcount⟩
    have hbuf : ev.type = .buf := hevtype
    rw [recordItem, if_pos rfl]
    simp only [hbuf, Decoding.pure_andThen, decodeBuf, hbytes, EncodedRecord.events, hdecode]
    simp [Decoding.andThen, Decoding.pure]
  | death threadId tsAndCpu =>
    refine ⟨_, _, hpassed (by simp [hevtype, EncodedRecord.type])
      (by simp [hevtype, EncodedRecord.type]), hstands, hn.record rfl fun t => ?_⟩
    have hdeath : ev.type = .death := hevtype
    refine ⟨[], freshState env ev.threadId, ?_, fun _ _ => rfl⟩
    rw [recordItem, if_pos rfl]
    simp only [hdeath, Decoding.pure_andThen]
    rfl
  | syncBarrier tsAndCpu =>
    have hsync : ev.type = .syncBarrier := hevtype
    obtain ⟨s', hback, hs', hptr, hperm⟩ := hs.unrealizeUpTo_eq hle
      (hbarriers (i.lastBarriersIndex + 1)).1 (hbarriers (i.lastBarriersIndex + 1)).2 false
    refine ⟨.batchEnd, { i with
      s := s'
      lastBarriers := fun j => if j = i.lastBarriersIndex + 1 then s'.ptr else i.lastBarriers j
      lastBarriersIndex := i.lastBarriersIndex + 1
      ev := env.newEvent
      read := i.read ++ [.batchEnd] }, ?_, ?_, hn.batchEnd rfl⟩
    · unfold Input.advance
      rw [hnext, ok_bind]
      simp only [Bool.not_true, Bool.false_eq_true, if_false, hsync, or_true, if_true, finishBatch,
        hback, ok_bind, reduceCtorEq]
      rfl
    · refine ⟨hs', hperm.trans hstrict, h.goesOn, fun j => ?_⟩
      dsimp only
      have hbegin : b.toNat ≤ s.ptr.toNat := hs.begin_le
      rw [hptr]
      split
      · exact ⟨hbegin, Nat.le_refl _⟩
      · exact hbarriers j

/-- The end record of a stream is read, and ends it. -/
theorem Stands.advance_end (env : Env) (h : i.Stands b data endBytes) :
    ∃ item i', i.advance false env = .ok (item, i') ∧ i'.seenEnd = true ∧
      i'.read = i.read ++ [.batchEnd] := by
  have hrecord : nextRecord endBytes = .ok (some (⟨.end_, 0, 0, 0, []⟩, [])) := by decide
  obtain ⟨ev, s, hnext, hholds, -⟩ := h.before.next_of_record h.strict hrecord env.stack i.ev
  have hend : ev.type = .end_ := hholds.type
  refine ⟨.batchEnd, { i with
    s := s, ev := env.newEvent, seenEnd := true, read := i.read ++ [.batchEnd] }, ?_, rfl, rfl⟩
  unfold Input.advance
  rw [hnext, ok_bind]
  simp only [Bool.not_true, Bool.false_eq_true, if_false, hend, true_or, if_true, finishBatch,
    ok_bind]
  rfl

/-- **The records of a stream** are read one after another. -/
theorem Stands.iterate {records : List EncodedRecord}
    (h : i.Stands b data (recordStream records)) {n : EventType → ℕ}
    (hn : i.Counted env (ConstMapper.ofBytes b data).mem n) :
    ∃ k i', StepMachine.iterate (step false env) k i = .ok i' ∧ i'.seenEnd = true ∧
      i'.Counted env (ConstMapper.ofBytes b data).mem
        fun type => n type + eventCount type records := by
  induction records generalizing i n with
  | nil =>
    obtain ⟨item, i', hadvance, hend, hread⟩ := h.advance_end env
    -- the records that are left end with an `End`
    refine ⟨1, i', ?_, hend, hn.batchEnd hread⟩
    rw [iterate_succ, step, h.goesOn, if_neg (by simp), hadvance]
    rfl
  | cons r records ih =>
    have hbytes : recordStream (r :: records) = r.write ++ recordStream records := by
      rw [recordStream, writeEncoded, List.flatMap_cons, List.append_assoc]
      rfl
    rw [hbytes] at h
    -- one record is read, and its events are counted
    obtain ⟨item, i₁, hadvance, h₁, hn₁⟩ := h.advance hn
    obtain ⟨k, i', hiterate, hend, hn'⟩ := ih h₁ hn₁
    refine ⟨k + 1, i', ?_, hend, ?_⟩
    · rw [iterate_succ, step, h.goesOn, if_neg (by simp), hadvance]
      exact hiterate
    · have hcount : ∀ type, n type + eventCount type (r :: records) =
          n type + (r.events.countP fun e => e.2.type = type) + eventCount type records := by
        intro type
        rw [eventCount, List.flatMap_cons, List.countP_append, Nat.add_assoc]
        rfl
      simp only [hcount]
      exact hn'

/-- A stream after the magic word is opened. -/
theorem exists_open_stream (env : Env) (rest : List UInt8)
    (hfits : b.toNat + (magicBytes ++ rest).length ≤ 2 ^ 63) :
    ∃ i : Input ConstMapper, open_ env (ConstMapper.ofBytes b (magicBytes ++ rest)) = .ok i ∧
      i.Stands b (magicBytes ++ rest) rest ∧ i.read = [] := by
  have hnew := before_new hfits
  have hplace : (MemStream.new (ConstMapper.ofBytes b (magicBytes ++ rest))).ptr.toNat +
      (4 : UInt64).toNat < 2 ^ 64 := by
    show b.toNat + 4 < 2 ^ 64
    omega
  obtain ⟨s, hopen, hs, hstrict⟩ :=
    exists_open (served_before _) env hnew (hnew.blockShown hplace)
  refine ⟨_, hopen, ?_, rfl⟩
  have hbegin : Mapper.getBegin s.mapper = b := by rw [hs.mapper]; rfl
  refine ⟨hs, hstrict, rfl, fun j => ?_⟩
  dsimp only
  rw [hbegin]
  exact ⟨Nat.le_refl _, hs.begin_le⟩

/-- A stream is read to its end. -/
theorem exists_counted_stream (env : Env) {records : List EncodedRecord}
    (hfits : b.toNat + (magicBytes ++ recordStream records).length ≤ 2 ^ 63) :
    ∃ i, Reached env (ConstMapper.ofBytes b (magicBytes ++ recordStream records)) i ∧
      i.seenEnd = true ∧
      i.Counted env (ConstMapper.ofBytes b (magicBytes ++ recordStream records)).mem
        fun type => eventCount type records := by
  obtain ⟨i₀, hopen, hstands, hread₀⟩ := exists_open_stream env (recordStream records) hfits
  have hn₀ : i₀.Counted env (ConstMapper.ofBytes b (magicBytes ++ recordStream records)).mem
      fun _ => 0 := by
    constructor
    · intro id
      exact ⟨_, by rw [hread₀]; rfl⟩
    · intro ids _ type _
      rw [hread₀]
      exact Finset.sum_eq_zero fun _ _ => rfl
  obtain ⟨k, i, hiterate, hend, hn⟩ := hstands.iterate hn₀
  simp only [Nat.zero_add] at hn
  exact ⟨i, ⟨k, by rw [hopen]; exact hiterate⟩, hend, hn⟩

/-- **The events that are decoded** from a stream are as many of each type as were written. -/
theorem Reached.decodedCount_stream {records : List EncodedRecord}
    (h : InUserSpace b (magicBytes ++ recordStream records))
    (hi : Reached env (ConstMapper.ofBytes b (magicBytes ++ recordStream records)) i)
    (hend : i.seenEnd = true) {type : EventType} (htype : type ≠ .tok) :
    i.decodedCount env type = eventCount type records := by
  obtain ⟨i', hi', hend', hn⟩ := exists_counted_stream env h.fits
  -- what is read at the end does not depend on how it is reached
  have hprefix := hi.read_prefix_of_seenEnd hi' hend'
  have hread : i.read = i'.read := hprefix.eq_of_length
    (Nat.le_antisymm hprefix.length_le (hi'.read_prefix_of_seenEnd hi hend).length_le)
  have hthreads : i.threads = i'.threads := by rw [threads, threads, hread]
  rw [← hn.counts i'.threads (fun _ h => h) type htype, decodedCount, hthreads]
  refine Finset.sum_congr rfl fun id _ => ?_
  rw [events, hi.mem_eq h, hread]

end Input

/-- **A run that leaves no thread waiting** has delivered the events that are decoded. -/
theorem Machine.Reached.countP_deliveries {env : Env} {b : UInt64} {records : List EncodedRecord}
    {m : Machine ConstMapper} (h : InUserSpace b (magicBytes ++ recordStream records))
    (hm : Reached false env (ConstMapper.ofBytes b (magicBytes ++ recordStream records)) m)
    (hloc : m.loc = .returned) (hno : m.state.pendingFrees = []) {type : EventType}
    (htype : type ≠ .tok) :
    countOf type (m.state.deliveries.map (·.2)) = eventCount type records := by
  have hinput := hm.reads.input
  have hevents : ∀ id, project id m.state.deliveries = m.input.events env id := by
    intro id
    rw [SerializeState.project_deliveries, Input.events, hinput.mem_eq h]
    -- a thread that neither waits nor is in the heap is idle
    refine ((hm.books h id).idle ?_).1
    have hp := hm.scheduled.placed_threadFor env id
    by_contra hbufs
    by_cases hflag : (m.state.threadFor env id).inPendingFrees = true
    · obtain ⟨tok, htok⟩ := hp.mem_pending.mpr hflag
      simp [hno] at htok
    · have hheap := hp.mem_heap.mpr ⟨hbufs, by simpa using hflag⟩
      simp [hm.heap_eq_nil (by simp [hloc]) (by simp [hloc])] at hheap
  have hthreads : ∀ d ∈ m.state.deliveries, d.1 ∈ m.input.threads := by
    rintro ⟨id, e⟩ hd
    by_contra hid
    have hmem := mem_project.mpr hd
    rw [hevents, Input.events_eq_nil fun hmem => hid (List.mem_toFinset.mpr hmem)] at hmem
    simp at hmem
  rw [← hinput.decodedCount_stream h (hm.seenEnd_of_returned hloc) htype, Input.decodedCount,
    countOf, List.countP_map]
  refine (countP_eq_sum_project (fun e => decide (e.ev.type = type)) hthreads).trans ?_
  exact Finset.sum_congr rfl fun id _ => by rw [hevents]; rfl

end MallocTraceReplay
