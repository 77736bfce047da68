import MallocTraceReplay.Serializer.Equiv.EventRoundTrip
import MallocTraceReplay.Serializer.Equiv.Steps
import MallocTraceReplay.Stream.Equiv.RecordRoundTrip

/-!
# Round trip of the whole format

A trace that is written is read back: `OuterEvStream::next` returns its records, and
`update_last_event` the inner events of each thread, in whatever order its buffers arrive and its
events are read (`roundTrip_writeTrace`).
-/

namespace MallocTraceReplay

open AltVarintCodec MallocTraceEncoder StepMachine

/-! ### What is read -/

/-- The event has the type and the fields of the record. -/
def TraceRecord.Returned (ev : OuterEvent) : TraceRecord → Prop
  | .buf threadId ts cpu _ =>
    ev.type = .buf ∧ ev.threadId = threadId ∧ ev.ts = ts ∧ ev.cpu.toUInt64 = cpu
  | .death threadId ts cpu =>
    ev.type = .death ∧ ev.threadId = threadId ∧ ev.ts = ts ∧ ev.cpu.toUInt64 = cpu
  | .syncBarrier ts cpu => ev.type = .syncBarrier ∧ ev.ts = ts ∧ ev.cpu.toUInt64 = cpu
  | .end_ => ev.type = .end_

/-- The buffers of a thread, in order. -/
def bufsOf (id : UInt64) (evs : List OuterEvent) : List OuterEvent :=
  evs.filter fun ev => ev.type = .buf ∧ ev.threadId = id

/-- What can be done with a thread: its next buffer arrives, or its next event is read. -/
inductive ThreadAct
  | arrive
  | read
  deriving DecidableEq, Repr

/-- A thread, its buffers that have not arrived, and the events read. -/
structure ThreadRun where
  thread : FullThreadState
  toCome : List OuterEvent
  events : List TraceEvent

namespace ThreadRun

/-- A buffer is queued, as in `SerializeMallocEvents`, or an event is read.  Nothing is done
when there is no buffer. -/
def step (stack : StackBytes) (mem : UInt64 → Option UInt8) (r : ThreadRun) :
    ThreadAct → Except Abort ThreadRun
  | .arrive =>
    match r.toCome with
    | [] => .ok r
    | ev :: evs =>
      .ok { r with
        thread :=
          if r.thread.bufs.isEmpty then SerializeState.started r.thread mem ev
          else { r.thread with bufs := r.thread.bufs ++ [ev] }
        toCome := evs }
  | .read =>
    if r.thread.bufs.isEmpty then .ok r
    else do
      let (ok, t) ← r.thread.updateLastEvent stack mem
      return { r with
        thread := t
        events := if ok then r.events ++ [⟨t.lastEvent, t.lastTs, t.lastCpu⟩] else r.events }

def run (stack : StackBytes) (mem : UInt64 → Option UInt8) (r : ThreadRun)
    (acts : List ThreadAct) : Except Abort ThreadRun :=
  acts.foldlM (step stack mem) r

end ThreadRun

/-! ### What is expected -/

/-- The inner events written for a thread, over all its buffers. -/
def innerRecords (id : UInt64) (records : List TraceRecord) : List InnerRecord :=
  records.flatMap fun
    | .buf threadId _ _ events => if threadId = id then events else []
    | .death _ _ _ => []
    | .syncBarrier _ _ => []
    | .end_ => []

/-- The inner events as they are read: sizes are rounded up, and the `i`-th allocation since the
last `Tok` has the token `tokenBase + i`. -/
def innerEvents : (tokenBase : UInt64) → (i : ℕ) → List InnerRecord → List InnerEvent
  | _, _, [] => []
  | _, _, .tok tokenBase _ _ :: rs => innerEvents tokenBase 0 rs
  | tokenBase, i, .malloc size :: rs =>
    .malloc (tokenBase + UInt64.ofNat i) (roundUp8 size) :: innerEvents tokenBase (i + 1) rs
  | tokenBase, i, .memalign size alignment :: rs =>
    .memalign (tokenBase + UInt64.ofNat i) (roundUp8 size) alignment ::
      innerEvents tokenBase (i + 1) rs
  | tokenBase, i, .free token :: rs => .free token :: innerEvents tokenBase i rs
  | tokenBase, i, .freeSized token :: rs => .freeSized token :: innerEvents tokenBase i rs
  | tokenBase, i, .realloc oldToken newSize :: rs =>
    .realloc oldToken (tokenBase + UInt64.ofNat i) (roundUp8 newSize) ::
      innerEvents tokenBase (i + 1) rs

/-- The events of a thread with their times, which are those of the last `Tok` in the same
buffer, or else of the buffer before. -/
def recordsMean (id : UInt64) : Meaning → List TraceRecord → List TraceEvent × Meaning
  | k, [] => ([], k)
  | k, .buf threadId ts cpu events :: rs =>
    if threadId = id then
      let (es, k) := eventsMean k events
      let (es', k) := recordsMean id { k with ts := ts, cpu := cpu } rs
      (es ++ es', k)
    else recordsMean id k rs
  | k, .death _ _ _ :: rs => recordsMean id k rs
  | k, .syncBarrier _ _ :: rs => recordsMean id k rs
  | k, .end_ :: rs => recordsMean id k rs

/-- The division into buffers has no effect on the events of a buffer and those after it. -/
theorem innerEvents_append (k : Meaning) (rs rs' : List InnerRecord) :
    innerEvents k.tokenBase k.allocations (rs ++ rs') =
      (eventsMean k rs).1.map TraceEvent.ev ++
        innerEvents (eventsMean k rs).2.tokenBase (eventsMean k rs).2.allocations rs' := by
  induction rs generalizing k with
  | nil => rfl
  | cons r rs ih =>
    cases r with
    | tok tokenBase ts cpu =>
      exact ih { tokenBase := tokenBase, allocations := 0, ts := ts, cpu := cpu }
    | malloc | memalign | realloc => exact congrArg (_ :: ·) (ih k.allocate)
    | free | freeSized => exact congrArg (_ :: ·) (ih k)

/-- **The division into buffers** has no effect on the events. -/
theorem recordsMean_map_ev (id : UInt64) (k : Meaning) (records : List TraceRecord) :
    (recordsMean id k records).1.map TraceEvent.ev =
      innerEvents k.tokenBase k.allocations (innerRecords id records) := by
  induction records generalizing k with
  | nil => rfl
  | cons r rs ih =>
    cases r with
    | death | syncBarrier | end_ => exact ih k
    | buf threadId ts cpu events =>
      unfold recordsMean innerRecords
      rw [List.flatMap_cons]
      by_cases hid : threadId = id
      · simp only [hid, if_true, List.map_append]
        rw [innerEvents_append]
        congr 1
        exact ih { (eventsMean k events).2 with ts := ts, cpu := cpu }
      · simp only [hid, if_false, List.nil_append]
        exact ih k

/-! ### The buffers of a thread -/

section Buffers

variable {mem : UInt64 → Option UInt8} {stack : StackBytes} {t₀ : ThreadState}

/-- What the buffers that have arrived decode to is what was read and what remains. -/
structure ThreadRun.Accounts (mem : UInt64 → Option UInt8) (t₀ : ThreadState)
    (bufs : List OuterEvent) (r : ThreadRun) : Prop where
  good : ∀ ev ∈ r.toCome, GoodBuf mem ev
  decodes : ∃ arrived, bufs = arrived ++ r.toCome ∧
    ((r.thread.bufs = [] ∧ decodeBufs mem arrived t₀ = (r.events, .ok r.thread.toThreadState)) ∨
      ∃ rest, Reading mem r.thread rest ∧ decodeBufs mem arrived t₀ =
        (r.events ++ (remaining mem r.thread rest).1, (remaining mem r.thread rest).2))

/-- A buffer arrives. -/
theorem ThreadRun.Accounts.arrive (stack : StackBytes) {bufs : List OuterEvent} {r : ThreadRun}
    (h : r.Accounts mem t₀ bufs) :
    ∃ r', r.step stack mem .arrive = .ok r' ∧ r'.Accounts mem t₀ bufs ∧
      r'.toCome = r.toCome.tail ∧ r'.events = r.events := by
  obtain ⟨arrived, hbufs, hplace⟩ := h.decodes
  unfold step
  cases htoCome : r.toCome with
  | nil => exact ⟨r, rfl, h, htoCome, rfl⟩
  | cons ev evs =>
    rw [htoCome] at hbufs
    have hgood : GoodBuf mem ev := h.good ev (by rw [htoCome]; exact List.mem_cons_self ..)
    have hlater : ∀ e ∈ evs, GoodBuf mem e := fun e he =>
      h.good e (by rw [htoCome]; exact List.mem_cons_of_mem _ he)
    refine ⟨_, rfl, ⟨hlater, arrived ++ [ev], by rw [hbufs]; simp, Or.inr ?_⟩, rfl, rfl⟩
    rcases hplace with ⟨hidle, hdecode⟩ | ⟨rest, hreading, hdecode⟩
    · -- the thread was idle and starts up
      refine ⟨bufBytes mem ev, ?_, ?_⟩
      · simp only [hidle, List.isEmpty_nil, if_true]
        refine ⟨⟨_, rfl, stands_constMemStream hgood⟩, ⟨[], rfl⟩, fun e he => ?_⟩
        rw [List.mem_singleton.mp he]
        exact hgood
      · simp only [hidle, List.isEmpty_nil, if_true]
        rw [decodeBufs_concat, hdecode]
        rfl
    · obtain ⟨later, hfront⟩ := hreading.front
      have hne : r.thread.bufs ≠ [] := by rw [hfront]; simp
      have hempty : r.thread.bufs.isEmpty = false := by simp [hfront]
      refine ⟨rest, ?_, ?_⟩
      · simp only [hempty, Bool.false_eq_true, if_false]
        refine ⟨hreading.stream, ⟨later ++ [ev], by simp [hfront]⟩, fun e he => ?_⟩
        rcases List.mem_append.mp he with he | he
        · exact hreading.good e he
        · rw [List.mem_singleton.mp he]
          exact hgood
      · simp only [hempty, Bool.false_eq_true, if_false]
        rw [decodeBufs_concat, hdecode, Decoding.append_andThen]
        have hremaining : (remaining mem r.thread rest).andThen (decodeBuf mem ev) =
            remaining mem { r.thread with bufs := r.thread.bufs ++ [ev] } rest := by
          rw [remaining, remaining, Decoding.andThen_assoc, List.tail_append_of_ne_nil hne]
          congr 1
          funext ts
          exact (decodeBufs_concat mem _ _ _).symm
        rw [hremaining]

/-- An event is read: there is one more, or the thread is idle afterwards. -/
theorem ThreadRun.Accounts.read (stack : StackBytes) {bufs : List OuterEvent} {r : ThreadRun}
    (h : r.Accounts mem t₀ bufs) {ts : ThreadState} (hok : (decodeBufs mem bufs t₀).2 = .ok ts) :
    ∃ r', r.step stack mem .read = .ok r' ∧ r'.Accounts mem t₀ bufs ∧ r'.toCome = r.toCome ∧
      (r'.thread.bufs = [] ∨ r'.events.length = r.events.length + 1) := by
  obtain ⟨arrived, hbufs, hplace⟩ := h.decodes
  unfold step
  rcases hplace with ⟨hidle, hdecode⟩ | ⟨rest, hreading, hdecode⟩
  · rw [if_pos (by rw [hidle]; rfl)]
    exact ⟨r, rfl, h, rfl, Or.inl hidle⟩
  · obtain ⟨later, hfront⟩ := hreading.front
    rw [if_neg (by simp [hfront])]
    -- what has arrived decodes, because everything does
    obtain ⟨ts', hts'⟩ : ∃ ts', (remaining mem r.thread rest).2 = .ok ts' := by
      rw [hbufs, decodeBufs_append] at hok
      obtain ⟨ts', hts'⟩ := Decoding.andThen_ok hok
      rw [hdecode] at hts'
      exact ⟨ts', hts'⟩
    have hspec := FullThreadState.updateLastEvent_eq stack hreading
    rcases hrem : remaining mem r.thread rest with ⟨es, res⟩
    simp only [hrem] at hspec hts' hdecode
    subst hts'
    cases es with
    | cons e es =>
      obtain ⟨t', rest', heq, hreading', hev, hlastTs, hlastCpu, hrem'⟩ := hspec
      rw [heq]
      refine ⟨_, rfl, ⟨h.good, arrived, hbufs, Or.inr ⟨rest', hreading', ?_⟩⟩, rfl, Or.inr ?_⟩
      · show _ = ((r.events ++ [⟨t'.lastEvent, t'.lastTs, t'.lastCpu⟩]) ++
          (remaining mem t' rest').1, (remaining mem t' rest').2)
        rw [hdecode, hrem', hev, hlastTs, hlastCpu, List.append_assoc]
        rfl
      · simp
    | nil =>
      obtain ⟨t', heq, hts⟩ := hspec
      have hframe := FullThreadState.updateLastEvent_frame (by simp [hfront]) heq
      rw [heq]
      refine ⟨_, rfl, ⟨h.good, arrived, hbufs, Or.inl ⟨(hframe.idle rfl).1, ?_⟩⟩, rfl,
        Or.inl (hframe.idle rfl).1⟩
      rw [hdecode]
      simp [hts]

variable {bufs : List OuterEvent} {es : List TraceEvent} {ts : ThreadState}

/-- What is read is there to be read. -/
theorem ThreadRun.Accounts.prefix_events {r : ThreadRun} (h : r.Accounts mem t₀ bufs)
    (hes : decodeBufs mem bufs t₀ = (es, .ok ts)) : r.events <+: es := by
  obtain ⟨arrived, hbufs, hplace⟩ := h.decodes
  have harrived : r.events <+: (decodeBufs mem arrived t₀).1 := by
    rcases hplace with ⟨-, hdecode⟩ | ⟨rest, -, hdecode⟩
    · rw [hdecode]
    · rw [hdecode]
      exact List.prefix_append _ _
  refine harrived.trans ?_
  have happend := decodeBufs_append mem arrived r.toCome t₀
  rw [← hbufs, hes] at happend
  have := Decoding.prefix_andThen (decodeBufs mem arrived t₀) (decodeBufs mem r.toCome)
  rwa [← happend] at this

/-- When everything has arrived and the thread is idle, everything was read. -/
theorem ThreadRun.Accounts.events_eq {r : ThreadRun} (h : r.Accounts mem t₀ bufs)
    (hes : decodeBufs mem bufs t₀ = (es, .ok ts)) (hcome : r.toCome = [])
    (hidle : r.thread.bufs = []) : r.events = es := by
  obtain ⟨arrived, hbufs, hplace⟩ := h.decodes
  rw [hcome, List.append_nil] at hbufs
  subst hbufs
  rcases hplace with ⟨-, hdecode⟩ | ⟨rest, hreading, -⟩
  · rw [hes] at hdecode
    exact (Prod.mk.inj hdecode).1.symm
  · obtain ⟨later, hfront⟩ := hreading.front
    simp [hidle] at hfront

/-- **In any order** of arrivals and reads, no read fails. -/
theorem ThreadRun.Accounts.run (stack : StackBytes) {r : ThreadRun} (h : r.Accounts mem t₀ bufs)
    (hes : decodeBufs mem bufs t₀ = (es, .ok ts)) (acts : List ThreadAct) :
    ∃ r', r.run stack mem acts = .ok r' ∧ r'.Accounts mem t₀ bufs ∧
      r'.toCome = r.toCome.drop (acts.count .arrive) := by
  induction acts generalizing r with
  | nil => exact ⟨r, rfl, h, rfl⟩
  | cons act acts ih =>
    unfold ThreadRun.run
    rw [List.foldlM_cons]
    cases act with
    | arrive =>
      obtain ⟨r₁, hstep, h₁, hcome₁, -⟩ := h.arrive stack
      obtain ⟨r₂, hrun, h₂, hcome₂⟩ := ih h₁
      refine ⟨r₂, by rw [hstep]; exact hrun, h₂, ?_⟩
      rw [hcome₂, hcome₁, List.count_cons_self, List.drop_tail]
    | read =>
      obtain ⟨r₁, hstep, h₁, hcome₁, -⟩ := h.read stack (by rw [hes])
      obtain ⟨r₂, hrun, h₂, hcome₂⟩ := ih h₁
      refine ⟨r₂, by rw [hstep]; exact hrun, h₂, ?_⟩
      rw [hcome₂, hcome₁, List.count_cons_of_ne (by decide)]

/-- Reads after everything has arrived read everything. -/
theorem ThreadRun.Accounts.run_reads {r : ThreadRun} (h : r.Accounts mem t₀ bufs)
    (hes : decodeBufs mem bufs t₀ = (es, .ok ts)) (hcome : r.toCome = []) {n : ℕ}
    (hn : es.length < r.events.length + n) :
    ∃ r', r.run stack mem (List.replicate n .read) = .ok r' ∧ r'.events = es ∧
      r'.thread.bufs = [] := by
  induction n generalizing r with
  | zero =>
    have := (h.prefix_events hes).length_le
    omega
  | succ n ih =>
    unfold ThreadRun.run
    rw [List.replicate_succ, List.foldlM_cons]
    obtain ⟨r₁, hstep, h₁, hcome₁, hmore⟩ := h.read stack (by rw [hes])
    rw [hstep]
    rcases hmore with hidle | hmore
    · refine ⟨r₁, ?_, h₁.events_eq hes (hcome₁.trans hcome) hidle, hidle⟩
      have hstay : ∀ n, r₁.run stack mem (List.replicate n .read) = .ok r₁ := by
        intro n
        induction n with
        | zero => rfl
        | succ n ihn =>
          unfold ThreadRun.run
          rw [List.replicate_succ, List.foldlM_cons, step, if_pos (by rw [hidle]; rfl)]
          exact ihn
      exact hstay n
    · exact ih h₁ (hcome₁.trans hcome) (by omega)

end Buffers

/-! ### The records of a trace -/

section Held

variable {M : Type} [Mapper M] {s : MemStream M} {mem : UInt64 → Option UInt8}

/-- An event that holds a record has its fields. -/
theorem TraceRecord.returned_of_holds {st : UInt64 → EncoderState} {r : TraceRecord}
    (hr : r.Bounded) {ev : OuterEvent} (h : MemStream.Holds s ev (r.outer st)) :
    r.Returned ev := by
  cases r with
  | buf threadId ts cpu events =>
    exact ⟨h.type, h.threadId, h.ts, by rw [h.cpu]; exact (toUInt64_toUInt32 hr.2.2.1).2⟩
  | death threadId ts cpu =>
    exact ⟨h.type, h.threadId, h.ts, by rw [h.cpu]; exact (toUInt64_toUInt32 hr.2.2).2⟩
  | syncBarrier ts cpu => exact ⟨h.type, h.ts, by rw [h.cpu]; exact (toUInt64_toUInt32 hr.2).2⟩
  | end_ => exact h.type

/-- The address after the bytes of a record. -/
theorem toNat_bufEnd {ev : OuterEvent} {r : OuterRecord} (h : MemStream.Holds s ev r) :
    ev.bufEnd.toNat = ev.bufStart.toNat + r.body.length := by
  have hfits := h.fits
  rw [h.bufEnd, MemStream.toNat_add_ofNat (by omega)]

/-- The bytes of a record are those of the buffer. -/
theorem bufBytes_of_holds {ev : OuterEvent} {r : OuterRecord} (h : MemStream.Holds s ev r)
    (hmem : Mapper.load s.mapper = mem) : bufBytes mem ev = r.body := by
  have hend := toNat_bufEnd h
  apply List.ext_getElem
  · rw [length_bufBytes]; omega
  · intro i hi hi'
    have hload := h.bytes i hi'
    rw [hmem, List.getElem?_eq_getElem hi'] at hload
    simp [bufBytes, hload]

theorem goodBuf_of_holds {ev : OuterEvent} {r : OuterRecord} (h : MemStream.Holds s ev r)
    (hmem : Mapper.load s.mapper = mem) : GoodBuf mem ev := by
  have hfits := h.fits
  have hend := toNat_bufEnd h
  refine ⟨by omega, by omega, fun i hi => ?_⟩
  rw [← hmem, h.bytes i (by omega), List.getElem?_eq_getElem (by omega)]
  rfl

end Held

section Records

variable {m : ConstMapper} {s : MemStream ConstMapper} {stack : StackBytes}

/-- At the end of a buffer the time is that of its record. -/
theorem InStep.updateWithBuf {e : EncoderState} {k : Meaning} {t : ThreadState}
    (h : InStep e k t) {ev : OuterEvent} {ts cpu : UInt64} (hts : ev.ts = ts)
    (hcpu : ev.cpu.toUInt64 = cpu) :
    InStep e { k with ts := ts, cpu := cpu } (t.updateWithBuf ev) :=
  { h with
    mallocTokSeq := h.mallocTokSeq
    lastTs := hts
    lastCpu := hcpu }

/-- **The records** are returned, and the buffers of every thread hold its events. -/
theorem readsRecords_write (stack : StackBytes) {st : UInt64 → EncoderState}
    {records : List TraceRecord} (hbounded : ∀ r ∈ records, r.Bounded)
    (h : s.Before m (writeRecords st records)) (hstrict : s.permissiveAdvance = false)
    (ev : OuterEvent) :
    ∃ evs s', ReadsRecords stack s ev evs s' ∧
      List.Forall₂ (fun r ev => r.Returned ev) records evs ∧
      (∀ ev ∈ evs, GoodBuf m.mem ev) ∧
      ∀ id k t, InStep (st id) k t →
        ∃ t', decodeBufs m.mem (bufsOf id evs) t = ((recordsMean id k records).1, .ok t') := by
  induction records generalizing s st ev with
  | nil =>
    obtain ⟨s', hnext⟩ := h.next_nil stack ev
    exact ⟨[], s', .none hnext, .nil, by simp, fun id k t _ => ⟨t, rfl⟩⟩
  | cons r records ih =>
    have hr := hbounded r (List.mem_cons_self ..)
    have hlen := h.bytes.fits
    change s.Before m ((writeRecord st r).1 ++ writeRecords (writeRecord st r).2 records) at h
    have hnextRecord := nextRecord_writeRecord hr
      (show ((writeRecord st r).1 ++ writeRecords (writeRecord st r).2 records).length < 2 ^ 64 by
        change _ + ((writeRecord st r).1 ++ _).length ≤ _ at hlen
        omega)
    obtain ⟨ev', s', hnext, hholds, hs', -, hstrict'⟩ :=
      h.next_of_record hstrict hnextRecord stack ev
    have hmem : Mapper.load s'.mapper = m.mem := by rw [hs'.mapper]; rfl
    have hreturned := TraceRecord.returned_of_holds hr hholds
    obtain ⟨evs, s'', hreads, hall, hgood, hdecode⟩ :=
      ih (fun r' hr' => hbounded r' (List.mem_cons_of_mem _ hr')) hs' hstrict' ev'
    refine ⟨ev' :: evs, s'', .some hnext hreads, .cons hreturned hall, ?_, ?_⟩
    · intro e he
      rcases List.mem_cons.mp he with rfl | he
      · exact goodBuf_of_holds hholds hmem
      · exact hgood e he
    · intro id k t hstep
      -- only a buffer of the thread adds to its events
      have hskip : bufsOf id (ev' :: evs) = bufsOf id evs → (writeRecord st r).2 id = st id →
          (recordsMean id k (r :: records)).1 = (recordsMean id k records).1 →
          ∃ t', decodeBufs m.mem (bufsOf id (ev' :: evs)) t =
            ((recordsMean id k (r :: records)).1, .ok t') := by
        intro hbufs hst hmean
        rw [hbufs, hmean]
        exact hdecode id k t (by rw [hst]; exact hstep)
      cases r with
      | death threadId ts cpu => exact hskip (by simp [bufsOf, hreturned.1]) rfl rfl
      | syncBarrier ts cpu => exact hskip (by simp [bufsOf, hreturned.1]) rfl rfl
      | end_ => exact hskip (by simp [bufsOf, show ev'.type = .end_ from hreturned]) rfl rfl
      | buf threadId ts cpu events =>
        obtain ⟨htype, hid, hts, hcpu⟩ := hreturned
        by_cases hmine : threadId = id
        · subst hmine
          have hbytes := bufBytes_of_holds hholds hmem
          obtain ⟨t₁, hbody, hstep₁⟩ := decodeBytes_writeEvents hstep hr.2.2.2
          have hst : (writeRecord st (.buf threadId ts cpu events)).2 threadId =
              (writeEvents (st threadId) events).2 := by simp [writeRecord]
          obtain ⟨t', hrest⟩ := hdecode threadId _ _
            (by rw [hst]; exact hstep₁.updateWithBuf hts hcpu)
          refine ⟨t', ?_⟩
          have hbufs : bufsOf threadId (ev' :: evs) = ev' :: bufsOf threadId evs := by
            simp [bufsOf, htype, hid]
          have hbuf : decodeBuf m.mem ev' t =
              ((eventsMean k events).1, .ok (t₁.updateWithBuf ev')) := by
            rw [decodeBuf, hbytes]
            show (decodeBytes t (writeEvents (st threadId) events).1).andThen _ = _
            rw [hbody]
            simp [Decoding.andThen, Decoding.pure]
          rw [hbufs, decodeBufs, hbuf]
          simp only [Decoding.andThen, hrest, recordsMean, if_true]
        · refine hskip ?_ ?_ ?_
          · simp [bufsOf, hid, hmine]
          · simp [writeRecord, Ne.symm hmine]
          · simp [recordsMean, hmine]

end Records

/-! ### The whole trace -/

/-- The meaning of no records: a new thread has seen no `Tok`. -/
def Meaning.init (env : Env) : Meaning :=
  { tokenBase := 0, allocations := 0, ts := env.newTs, cpu := env.newCpu }

theorem inStep_init (env : Env) (id : UInt64) :
    InStep .init (.init env) (FullThreadState.new env id).toThreadState where
  prevSize := rfl
  prevToken := rfl
  mallocTokSeq := rfl
  lastTs := rfl
  lastCpu := rfl
  size_lt := by decide
  token_lt := by decide

/-- The magic word is skipped. -/
theorem MemStream.advanceBy_magic {b : UInt64} {rest : List UInt8}
    (hfits : b.toNat + (magicBytes ++ rest).length ≤ 2 ^ 63) :
    ∃ s, (MemStream.new (ConstMapper.ofBytes b (magicBytes ++ rest))).advanceBy 4 = .ok (b, s) ∧
      s.Before (.ofBytes b (magicBytes ++ rest)) rest ∧ s.permissiveAdvance = false := by
  have hlen : (4 : UInt64).toNat ≤ (magicBytes ++ rest).length := by
    rw [List.length_append, show magicBytes.length = 4 from rfl]
    exact Nat.le_add_right _ _
  exact MemStream.advanceBy_new hfits hlen

/-- **The magic word is read** from a stream that shows it. -/
theorem Input.exists_open {M : Type} [Mapper M] {P : MemStream M → List UInt8 → Prop}
    (hP : MemStream.Served P) {mapper : M} {rest : List UInt8} (env : Env)
    (hnew : P (MemStream.new mapper) (magicBytes ++ rest))
    (hshown : MemStream.BlockShown (MemStream.new mapper) 4 (magicBytes ++ rest)) :
    ∃ s, Input.open_ env mapper = .ok {
        s := s, lastBarriers := fun _ => Mapper.getBegin s.mapper, lastBarriersIndex := 0,
        seenEnd := false, ev := env.newEvent, read := [] } ∧
      P s rest ∧ s.permissiveAdvance = false := by
  have hlen : magicBytes.length = 4 := rfl
  have hbytes : 4 ≤ (magicBytes ++ rest).length := by
    rw [List.length_append]
    omega
  have hplace := (hP.reads hnew (UInt64.le_refl _)).fits
  have hamount : (4 : UInt64).toNat ≤ (magicBytes ++ rest).length := hbytes
  obtain ⟨s, hadvance, hs, hptr, hle, hfour⟩ := MemStream.advanceBy_enough hP hnew
    (UInt64.le_refl _) (by omega) hshown hamount
  have hfour' : 4 ≤ s.end_.toNat - s.ptr.toNat := hfour
  -- the four bytes at the beginning
  have hloads : ∀ k ∈ List.range 4, Mapper.load s.mapper ((MemStream.new mapper).ptr +
      UInt64.ofNat k) = some (magicBytes.getD k 0) := by
    intro k hk
    have hk4 := List.mem_range.mp hk
    rw [← hptr, (hP.reads hs hle).loads k (by omega), List.getElem?_append_left (by omega),
      List.getD_eq_getElem?_getD, List.getElem?_eq_getElem (by omega)]
    rfl
  have hword : loadBytes ((List.range 4).map fun k => magicBytes.getD k 0) = kMagic.toUInt64 := by
    decide
  refine ⟨s.skip 4, ?_, hP.skip hs hle hfour, MemStream.advanceBy_permissive hadvance⟩
  unfold Input.open_
  dsimp only
  rw [hadvance, ok_bind]
  dsimp only
  rw [show (s.skip (4 : UInt64).toNat).mapper = s.mapper from rfl, mapM_eq_some_map hloads]
  simp only [hword, ne_eq, not_true_eq_false, if_false]
  rfl

/-- **The round trip of the whole format.**  A trace in memory is written from records that the
format has room for.  Then `next`, started after the magic word, returns the records; and the
inner events of a thread are read from its buffers without an error, however the arrivals of the
buffers and the reads follow each other: never others than those written, and all of them once
every buffer has arrived. -/
theorem roundTrip_writeTrace {b : UInt64} {records : List TraceRecord}
    (hfits : b.toNat + (writeTrace records).length ≤ 2 ^ 63)
    (hbounded : ∀ r ∈ records, r.Bounded) (env : Env) (ev : OuterEvent) :
    ∃ s evs s',
      (MemStream.new (ConstMapper.ofBytes b (writeTrace records))).advanceBy 4 = .ok (b, s) ∧
      ReadsRecords env.stack s ev evs s' ∧
      List.Forall₂ (fun r ev => r.Returned ev) records evs ∧
      ∀ id, ∃ es : List TraceEvent,
        es = (recordsMean id (.init env) records).1 ∧
        es.map TraceEvent.ev = innerEvents 0 0 (innerRecords id records) ∧
        ∀ acts, ∃ r, ThreadRun.run env.stack (ConstMapper.ofBytes b (writeTrace records)).mem
            ⟨.new env id, bufsOf id evs, []⟩ acts = .ok r ∧
          r.events <+: es ∧
          ((bufsOf id evs).length ≤ acts.count .arrive → ∀ n, es.length < r.events.length + n →
            ∃ r', ThreadRun.run env.stack (ConstMapper.ofBytes b (writeTrace records)).mem
              r (List.replicate n .read) = .ok r' ∧ r'.events = es ∧ r'.thread.bufs = []) := by
  obtain ⟨s, hmagic, hs, hstrict⟩ := MemStream.advanceBy_magic hfits
  obtain ⟨evs, s', hreads, hall, hgood, hdecode⟩ :=
    readsRecords_write env.stack hbounded hs hstrict ev
  refine ⟨s, evs, s', hmagic, hreads, hall, fun id => ⟨_, rfl, recordsMean_map_ev id _ _, ?_⟩⟩
  intro acts
  obtain ⟨t', hes⟩ := hdecode id (.init env) _ (inStep_init env id)
  have hstart : ThreadRun.Accounts (ConstMapper.ofBytes b (writeTrace records)).mem
      (FullThreadState.new env id).toThreadState (bufsOf id evs)
      ⟨.new env id, bufsOf id evs, []⟩ :=
    ⟨fun e he => hgood e (List.mem_of_mem_filter he), [], rfl, Or.inl ⟨rfl, rfl⟩⟩
  obtain ⟨r, hrun, hr, hcome⟩ := hstart.run env.stack hes acts
  refine ⟨r, hrun, hr.prefix_events hes, fun hcount n hn => ?_⟩
  exact hr.run_reads hes (by rw [hcome]; exact List.drop_eq_nil_of_le hcount) hn

/-- Two threads whose buffers alternate, one of the buffers empty. -/
def interleavedRecords : List TraceRecord :=
  [.buf 1 1024 3 [.tok 8 1024 3, .malloc 5, .free 8],
    .buf 2 1024 0 [.tok 9 2048 1, .memalign 100 64],
    .buf 1 3072 3 [], .buf 1 4096 3 [.realloc 9 17], .death 1 4096 3, .syncBarrier 4096 0, .end_]

theorem roundTrip_interleavedRecords :
    ∃ s evs s',
      (MemStream.new (ConstMapper.ofBytes 0x10000 (writeTrace interleavedRecords))).advanceBy 4 =
        .ok (0x10000, s) ∧
      ReadsRecords Env.tokenSet.stack s .zero evs s' ∧
      List.Forall₂ (fun r ev => r.Returned ev) interleavedRecords evs ∧
      ∃ r r', ThreadRun.run Env.tokenSet.stack
          (ConstMapper.ofBytes 0x10000 (writeTrace interleavedRecords)).mem
          ⟨.new .tokenSet 1, bufsOf 1 evs, []⟩ (List.replicate 7 .arrive) = .ok r ∧
        ThreadRun.run Env.tokenSet.stack
          (ConstMapper.ofBytes 0x10000 (writeTrace interleavedRecords)).mem
          r (List.replicate 4 .read) = .ok r' ∧
        r'.events.map TraceEvent.ev = [.malloc 8 8, .free 8, .realloc 9 9 24] ∧
        r'.thread.bufs = [] := by
  have hbounded : ∀ r ∈ interleavedRecords, r.Bounded := by
    simp [interleavedRecords, TraceRecord.Bounded, InnerRecord.Bounded]
  obtain ⟨s, evs, s', hmagic, hreads, hall, hevents⟩ :=
    roundTrip_writeTrace (b := 0x10000) (by decide +kernel) hbounded .tokenSet .zero
  obtain ⟨es, -, hmap, hrun⟩ := hevents 1
  have hinner : innerEvents 0 0 (innerRecords 1 interleavedRecords) =
      [.malloc 8 8, .free 8, .realloc 9 9 24] := by
    decide
  rw [hinner] at hmap
  -- every buffer of the thread has arrived after seven arrivals
  obtain ⟨r, hr, -, hreads'⟩ := hrun (List.replicate 7 .arrive)
  have hlength : evs.length = 7 := hall.length_eq.symm
  have hcount : (bufsOf 1 evs).length ≤ (List.replicate 7 ThreadAct.arrive).count .arrive := by
    rw [List.count_replicate_self, ← hlength]
    exact List.length_filter_le _ _
  have hmany : es.length < r.events.length + 4 := by
    rw [← List.length_map (f := TraceEvent.ev), hmap, List.length_cons]
    simp
  obtain ⟨r', hr', rfl, hbufs⟩ := hreads' hcount 4 hmany
  exact ⟨s, evs, s', hmagic, hreads, hall, r, r', hr, hr', hmap, hbufs⟩

end MallocTraceReplay
