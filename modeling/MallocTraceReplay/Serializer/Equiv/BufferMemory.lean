import MallocTraceReplay.Lib.Bisimulation
import MallocTraceReplay.Serializer.Equiv.Accounting

/-!
# Buffers in two memories

A thread reads nothing but its queued buffers: in two memories that hold the same bytes there
(`AlikeAt`) it decodes the same events.  Two threads have the same events before them when both are
idle in the same state, or both read on to the same end (`SameThread`), and `update_last_event`
keeps this, whatever has become of the memory beside the buffers (`SameThread.updateLastEvent`).
-/

namespace MallocTraceReplay

open StepMachine MallocTraceEncoder

/-! ### Bytes -/

/-- Two memories hold the same bytes where a buffer is. -/
def AlikeAt (mem mem' : UInt64 → Option UInt8) (ev : OuterEvent) : Prop :=
  ∀ i < ev.bufEnd.toNat - ev.bufStart.toNat,
    mem' (ev.bufStart + UInt64.ofNat i) = mem (ev.bufStart + UInt64.ofNat i)

section Alike

variable {mem mem' : UInt64 → Option UInt8} {ev : OuterEvent}

theorem AlikeAt.symm (h : AlikeAt mem mem' ev) : AlikeAt mem' mem ev := fun i hi => (h i hi).symm

theorem AlikeAt.bufBytes (h : AlikeAt mem mem' ev) : bufBytes mem' ev = bufBytes mem ev := by
  unfold MallocTraceReplay.bufBytes
  refine List.map_congr_left fun i hi => ?_
  rw [h i (List.mem_range.mp hi)]

theorem AlikeAt.goodBuf (h : AlikeAt mem mem' ev) (hgood : GoodBuf mem ev) : GoodBuf mem' ev where
  start_le := hgood.start_le
  end_le := hgood.end_le
  loads i hi := by
    rw [h i hi]
    exact hgood.loads i hi

/-- The queued buffers decode to the same events. -/
theorem decodeBufs_alike {evs : List OuterEvent} (h : ∀ ev ∈ evs, AlikeAt mem mem' ev)
    (t : ThreadState) : decodeBufs mem' evs t = decodeBufs mem evs t := by
  induction evs generalizing t with
  | nil => rfl
  | cons ev evs ih =>
    have hlater : decodeBufs mem' evs = decodeBufs mem evs :=
      funext fun t => ih (fun ev' hev' => h ev' (List.mem_cons_of_mem _ hev')) t
    unfold decodeBufs decodeBuf
    rw [(h ev (List.mem_cons_self ..)).bufBytes, hlater]

/-! ### Streams -/

/-- The stream reads a buffer. -/
def OverBuf (s : MemStream ConstMapper) (ev : OuterEvent) : Prop :=
  s.mapper.begin_ = ev.bufStart ∧ s.mapper.size_ = ev.bufEnd - ev.bufStart

/-- The same stream in another memory. -/
def MemStream.seeing (mem : UInt64 → Option UInt8) (s : MemStream ConstMapper) :
    MemStream ConstMapper :=
  { s with mapper := { s.mapper with mem := mem } }

/-- Whether there is more does not depend on the memory. -/
theorem MemStream.hasMore_seeing (s : MemStream ConstMapper) :
    (s.seeing mem).hasMore.map Prod.fst = s.hasMore.map Prod.fst := by
  unfold MemStream.hasMore
  by_cases hmore : s.ptr < s.end_
  · have hmore' : (s.seeing mem).ptr < (s.seeing mem).end_ := hmore
    rw [if_pos hmore, if_pos hmore']
    rfl
  · have hmore' : ¬ (s.seeing mem).ptr < (s.seeing mem).end_ := hmore
    rw [if_neg hmore, if_neg hmore']
    rfl

/-- **A stream over a buffer** reads on in another memory that holds the buffer. -/
theorem Stands.alike {s : MemStream ConstMapper} {rest : List UInt8} (h : Stands mem s rest)
    (hover : OverBuf s ev) (halike : AlikeAt mem mem' ev) : Stands mem' (s.seeing mem') rest := by
  obtain ⟨hmem, ⟨m, hs, hstrict⟩ | ⟨hrest, s', hno⟩⟩ := h
  · obtain rfl := hs.mapper
    obtain ⟨hbegin, hsize⟩ := hover
    have hfits := hs.bytes.fits
    have hends := hs.ends
    have hlow := hs.begin_le
    rw [hbegin] at hends hlow
    rw [hsize, UInt64.toNat_sub] at hends
    refine ⟨rfl, Or.inl ⟨_,
      ⟨rfl, hs.start, hs.begin_le, hs.ends, hs.window, ⟨hfits, fun i hi => ?_⟩⟩,
      hstrict⟩⟩
    -- the byte is one of the buffer
    have hplace : s.ptr + UInt64.ofNat i =
        ev.bufStart + UInt64.ofNat (s.ptr.toNat - ev.bufStart.toNat + i) := by
      apply UInt64.toNat_inj.mp
      rw [MemStream.toNat_add_ofNat (by omega), MemStream.toNat_add_ofNat (by omega)]
      omega
    have hload := hs.bytes.loads i hi
    have hstart := ev.bufStart.toNat_lt
    have hend := ev.bufEnd.toNat_lt
    show mem' (s.ptr + UInt64.ofNat i) = _
    rw [hmem, hplace] at hload
    rw [hplace, halike _ (by omega), hload]
  · refine ⟨rfl, Or.inr ⟨hrest, ?_⟩⟩
    have hsame : (s.seeing mem').hasMore.map Prod.fst = s.hasMore.map Prod.fst :=
      MemStream.hasMore_seeing s
    rw [hno] at hsame
    obtain ⟨⟨more, s₁⟩, hs₁, hmore⟩ := map_eq_ok.mp hsame
    obtain rfl : more = false := hmore
    exact ⟨s₁, hs₁⟩

end Alike

/-! ### Threads -/

namespace FullThreadState

variable {mem mem' : UInt64 → Option UInt8} {stack : StackBytes} {t t' : FullThreadState}

/-- The stream of the thread, if there is one, reads the active buffer. -/
def OnFront (t : FullThreadState) : Prop :=
  ∀ s, t.activeStream = some s → OverBuf s t.activeBuf

theorem seeing_seeing (t : FullThreadState) : (t.seeing mem).seeing mem' = t.seeing mem' := by
  unfold seeing
  cases t.activeStream <;> rfl

theorem onFront_seeing : (t.seeing mem).OnFront ↔ t.OnFront := by
  unfold OnFront seeing
  cases t.activeStream with
  | none => simp
  | some s => simp [OverBuf]

/-- Reading an event keeps the invariants of the stream. -/
theorem readInner_invariant {J : MemStream ConstMapper → Prop} (hJ : MemStream.StreamInvariant J)
    {fuel : ℕ} {ts ts' : ThreadState} {s s' : MemStream ConstMapper} {ev? : Option InnerEvent}
    (hs : J s) (h : readInner stack fuel ts s = .ok (ev?, ts', s')) : J s' := by
  induction fuel generalizing ts s with
  | zero => simp [readInner] at h
  | succ fuel ih =>
    unfold readInner at h
    obtain ⟨⟨more, s₁⟩, hmore, h⟩ := bind_eq_ok.mp h
    -- the stream moves by these reads only, and each keeps `J`
    have hs₁ := hJ.hasMore hs hmore
    cases more with
    | false =>
      simp only [Bool.not_false, if_true, pure_eq_ok, Except.ok.injEq, Prod.mk.injEq] at h
      rw [← h.2.2]
      exact hs₁
    | true =>
      simp only [Bool.not_true, Bool.false_eq_true, if_false] at h
      obtain ⟨⟨w, s₂⟩, hread, h⟩ := bind_eq_ok.mp h
      have hs₂ := hJ.mustReadVarint hs₁ hread
      cases htype : EventType.ofCode? (decodeType w) with
      | none => simp [htype] at h
      | some type =>
        cases type with
        | malloc | free | freeSized =>
          simp only [htype, pure_eq_ok, Except.ok.injEq, Prod.mk.injEq] at h
          rw [← h.2.2]
          exact hs₂
        | tok =>
          simp only [htype] at h
          -- after a token record the loop goes on
          obtain ⟨⟨w₂, s₃⟩, hread₂, h⟩ := bind_eq_ok.mp h
          exact ih (hJ.mustReadVarint hs₂ hread₂) h
        | realloc | memalign =>
          simp only [htype] at h
          obtain ⟨⟨w₂, s₃⟩, hread₂, h⟩ := bind_eq_ok.mp h
          simp only [pure_eq_ok, Except.ok.injEq, Prod.mk.injEq] at h
          rw [← h.2.2]
          exact hJ.mustReadVarint hs₂ hread₂
        | buf | death | end_ | syncBarrier => simp [htype] at h

theorem updateLastEventInner_front {ok : Bool} (h : t.updateLastEventInner stack = .ok (ok, t')) :
    (t.OnFront → t'.OnFront) ∧ (ok = false → t'.lastEvent = .zero) := by
  unfold updateLastEventInner at h
  cases hs : t.activeStream with
  | none => simp [hs] at h
  | some s =>
    simp only [hs] at h
    obtain ⟨⟨ev?, ts, s'⟩, hread, h⟩ := bind_eq_ok.mp h
    obtain ⟨rfl, rfl⟩ := Prod.mk.inj (Except.ok.inj h)
    have hmapper := readInner_invariant (Input.streamInvariant_mapper s.mapper) rfl hread
    refine ⟨fun hfront s₁ hs₁ => ?_, fun hno => ?_⟩
    · rw [← Option.some.inj hs₁]
      show s'.mapper.begin_ = _ ∧ s'.mapper.size_ = _
      rw [hmapper]
      exact hfront s hs
    · obtain rfl : ev? = none := Option.isNone_iff_eq_none.mp (by simpa using hno)
      rfl

theorem updateLoop_front {fuel : ℕ} {ok : Bool} (h : updateLoop stack mem fuel t = .ok (ok, t')) :
    (t.OnFront → t'.OnFront) ∧ (ok = false → t'.lastEvent = .zero) := by
  induction fuel generalizing t with
  | zero => simp [updateLoop] at h
  | succ fuel ih =>
    unfold updateLoop at h
    obtain ⟨⟨ok₁, t₁⟩, hinner, h⟩ := bind_eq_ok.mp h
    -- the stream that is left stands on the first buffer
    obtain ⟨hfront, hzero⟩ := updateLastEventInner_front hinner
    cases ok₁ with
    | true =>
      simp only [if_true, pure_eq_ok, Except.ok.injEq, Prod.mk.injEq] at h
      obtain ⟨rfl, rfl⟩ := h
      exact ⟨hfront, by simp⟩
    | false =>
      simp only [Bool.false_eq_true, if_false] at h
      cases hb : t₁.bufs with
      | nil => simp [hb] at h
      | cons front later =>
        cases later with
        | nil =>
          simp only [hb, pure_eq_ok, Except.ok.injEq, Prod.mk.injEq] at h
          obtain ⟨-, rfl⟩ := h
          -- no stream is left
          exact ⟨fun _ s hs => by simp at hs, fun _ => hzero rfl⟩
        | cons next later =>
          simp only [hb] at h
          obtain ⟨hfront', hzero'⟩ := ih h
          refine ⟨fun _ => hfront' fun s hs => ?_, hzero'⟩
          rw [← Option.some.inj hs]
          exact ⟨rfl, rfl⟩

/-- **`update_last_event`** leaves the stream on the active buffer; where there is no next event the
last one is zero. -/
theorem updateLastEvent_front {ok : Bool} (h : t.updateLastEvent stack mem = .ok (ok, t')) :
    (t.OnFront → t'.OnFront) ∧ (ok = false → t'.lastEvent = .zero) := by
  obtain ⟨hfront, hzero⟩ := updateLoop_front h
  exact ⟨fun hon => hfront (onFront_seeing.mpr hon), hzero⟩

theorem SameFlags.symm (h : SameFlags t t') : SameFlags t' t :=
  ⟨h.threadId.symm, h.dead.symm, h.signalled.symm, h.inPendingFrees.symm⟩

end FullThreadState

section Threads

variable {mem mem' : UInt64 → Option UInt8} {t t' : FullThreadState} {ev : OuterEvent}

/-- **A thread** reads on in another memory that holds its buffers, and has the same before it. -/
theorem Reading.alike {rest : List UInt8} (h : Reading mem (t.seeing mem) rest)
    (hfront : t.OnFront) (halike : ∀ ev ∈ t.bufs, AlikeAt mem mem' ev) :
    Reading mem' (t.seeing mem') rest ∧
      remaining mem' (t.seeing mem') rest = remaining mem (t.seeing mem) rest := by
  obtain ⟨s, hs, hstands⟩ := h.stream
  obtain ⟨s₀, hs₀, rfl⟩ := Option.map_eq_some_iff.mp hs
  obtain ⟨later, hlater⟩ := h.front
  have hbufs : t.bufs = t.activeBuf :: later := hlater
  refine ⟨⟨⟨s₀.seeing mem', ?_, ?_⟩, ⟨later, hlater⟩,
    fun ev hev => (halike ev hev).goodBuf (h.good ev hev)⟩, ?_⟩
  · show t.activeStream.map _ = _
    rw [hs₀]
    rfl
  · exact hstands.alike (hfront s₀ hs₀) (halike t.activeBuf (by rw [hbufs]; simp))
  · have hlater' : decodeBufs mem' t.bufs.tail = decodeBufs mem t.bufs.tail :=
      funext fun ts => decodeBufs_alike (fun ev hev => halike ev (List.mem_of_mem_tail hev)) ts
    show (decodeBytes t.toThreadState rest).andThen (fun ts => decodeBufs mem' t.bufs.tail _) =
      (decodeBytes t.toThreadState rest).andThen fun ts => decodeBufs mem t.bufs.tail _
    rw [hlater']
    rfl

/-- Two threads read on to the same end.  The memory that the stream of the first one sees may be
out of date. -/
structure ReadsAlike (mem : UInt64 → Option UInt8) (t t' : FullThreadState) : Prop where
  flags : t.SameFlags t'
  front : t.OnFront
  reads : ∃ rest rest', Reading mem (t.seeing mem) rest ∧ Reading mem t' rest' ∧
    remaining mem t' rest' = remaining mem (t.seeing mem) rest

/-- Two threads have the same events before them. -/
inductive SameThread (mem : UInt64 → Option UInt8) (t t' : FullThreadState) : Prop
  | idle : t.SameFlags t' → (t.bufs = [] ∧ t.activeStream = none) →
      (t'.bufs = [] ∧ t'.activeStream = none) → t'.toThreadState = t.toThreadState →
      t'.lastEvent = t.lastEvent → SameThread mem t t'
  | busy : ReadsAlike mem t t' → t'.current = t.current → SameThread mem t t'

/-- **`update_last_event`** of a thread that reads. -/
theorem ReadsAlike.updateLastEvent (h : ReadsAlike mem t t')
    (halike : ∀ ev ∈ t.bufs, AlikeAt mem mem' ev) (stack : StackBytes) :
    Matches (fun r r' => r'.1 = r.1 ∧ SameThread mem r.2 r'.2) (t.updateLastEvent stack mem')
      (t'.updateLastEvent stack mem) := by
  obtain ⟨rest, rest', hr, hr', hsame⟩ := h.reads
  obtain ⟨hr₁, hsame₁⟩ := hr.alike h.front halike
  have hbufs : t.bufs ≠ [] := by
    obtain ⟨later, hlater⟩ := hr.front
    have hbufs : t.bufs = t.activeBuf :: later := hlater
    simp [hbufs]
  have hbufs' : t'.bufs ≠ [] := by
    obtain ⟨later, hlater⟩ := hr'.front
    simp [hlater]
  have hflags : ∀ {u u' : FullThreadState}, t.SameFlags u → t'.SameFlags u' → u.SameFlags u' :=
    fun hu hu' => (hu.symm.trans h.flags).trans hu'
  have hseeing : (t.seeing mem').updateLastEvent stack mem' = t.updateLastEvent stack mem' := by
    unfold FullThreadState.updateLastEvent
    rw [FullThreadState.seeing_seeing]
    rfl
  have hspec := FullThreadState.updateLastEvent_eq stack hr₁
  have hspec' := FullThreadState.updateLastEvent_eq stack hr'
  rw [hseeing, hsame₁] at hspec
  rw [hsame] at hspec'
  rcases hrem : remaining mem (t.seeing mem) rest with ⟨es, r⟩
  simp only [hrem] at hspec hspec'
  cases es with
  | cons e es =>
    -- another event
    obtain ⟨u, rest₁, hu, hreads, hevent, hts, hcpu, hremaining⟩ := hspec
    obtain ⟨u', rest₁', hu', hreads', hevent', hts', hcpu', hremaining'⟩ := hspec'
    have hupdated := FullThreadState.updateLastEvent_frame hbufs hu
    have hfront := (FullThreadState.updateLastEvent_front hu).1 h.front
    have hsees := FullThreadState.seeing_eq hreads
    rw [← hsees] at hreads hremaining
    obtain ⟨hback, hsame₂⟩ := hreads.alike hfront fun ev hev =>
      (halike ev (hupdated.suffix.subset hev)).symm
    rw [hu, hu']
    refine .ok ⟨rfl, .busy ⟨?_, hfront, rest₁, rest₁', hback, hreads', ?_⟩ ?_⟩
    · exact hflags hupdated.flags (FullThreadState.updateLastEvent_flags hu')
    · rw [hsame₂, hremaining, hremaining']
    · unfold FullThreadState.current
      rw [hevent, hts, hcpu, hevent', hts', hcpu']
  | nil =>
    cases r with
    | error e =>
      rw [hspec, hspec']
      exact .error e
    | ok ts =>
      obtain ⟨u, hu, hstate⟩ := hspec
      obtain ⟨u', hu', hstate'⟩ := hspec'
      have hupdated := FullThreadState.updateLastEvent_frame hbufs hu
      have hupdated' := FullThreadState.updateLastEvent_frame hbufs' hu'
      rw [hu, hu']
      refine .ok ⟨rfl, .idle ?_ (hupdated.idle rfl) (hupdated'.idle rfl) ?_ ?_⟩
      · exact hflags hupdated.flags hupdated'.flags
      · rw [hstate, hstate']
      · rw [(FullThreadState.updateLastEvent_front hu).2 rfl,
          (FullThreadState.updateLastEvent_front hu').2 rfl]

/-- **`update_last_event`** of any thread. -/
theorem SameThread.updateLastEvent (h : SameThread mem t t')
    (halike : ∀ ev ∈ t.bufs, AlikeAt mem mem' ev) (stack : StackBytes) :
    Matches (fun r r' => r'.1 = r.1 ∧ SameThread mem r.2 r'.2) (t.updateLastEvent stack mem')
      (t'.updateLastEvent stack mem) := by
  cases h with
  | idle _ hidle hidle' _ _ =>
    -- there is no stream to read from
    have hfault : ∀ {u : FullThreadState} (mem : UInt64 → Option UInt8), u.activeStream = none →
        u.updateLastEvent stack mem = .error .fault := by
      intro u mem hu
      unfold FullThreadState.updateLastEvent FullThreadState.updateLoop
        FullThreadState.updateLastEventInner FullThreadState.seeing
      rw [hu]
      rfl
    rw [hfault mem' hidle.2, hfault mem hidle'.2]
    exact .error _
  | busy hreads _ => exact hreads.updateLastEvent halike stack

/-! ### What else happens to a thread -/

theorem SameThread.flags (h : SameThread mem t t') : t.SameFlags t' := by
  cases h with
  | idle hflags => exact hflags
  | busy hreads => exact hreads.flags

theorem SameThread.current (h : SameThread mem t t') : t'.current = t.current := by
  cases h with
  | idle _ _ _ hstate hevent =>
    unfold FullThreadState.current
    rw [hstate, hevent]
  | busy _ hcurrent => exact hcurrent

theorem SameThread.isEmpty_bufs (h : SameThread mem t t') :
    t'.bufs.isEmpty = t.bufs.isEmpty := by
  cases h with
  | idle _ hidle hidle' => rw [hidle.1, hidle'.1]
  | busy hreads =>
    obtain ⟨rest, rest', hr, hr', -⟩ := hreads.reads
    obtain ⟨later, hlater⟩ := hr.front
    obtain ⟨later', hlater'⟩ := hr'.front
    have hbufs : t.bufs = t.activeBuf :: later := hlater
    rw [hbufs, hlater']
    rfl

theorem SameThread.isSome_stream (h : SameThread mem t t') :
    t'.activeStream.isSome = t.activeStream.isSome := by
  cases h with
  | idle _ hidle hidle' => rw [hidle.2, hidle'.2]
  | busy hreads =>
    obtain ⟨rest, rest', hr, hr', -⟩ := hreads.reads
    obtain ⟨s, hs, -⟩ := hr.stream
    obtain ⟨s', hs', -⟩ := hr'.stream
    obtain ⟨s₀, hs₀, -⟩ := Option.map_eq_some_iff.mp hs
    rw [hs₀, hs']
    rfl

theorem SameThread.isNone_stream (h : SameThread mem t t') :
    t'.activeStream.isNone = t.activeStream.isNone := by
  rw [← Option.not_isSome, ← Option.not_isSome, h.isSome_stream]

theorem SameThread.event (h : SameThread mem t t') :
    t'.lastEvent = t.lastEvent ∧ t'.lastTs = t.lastTs ∧ t'.lastCpu = t.lastCpu :=
  TraceEvent.mk.inj h.current

theorem SameThread.origin (h : SameThread mem t t') : t'.origin = t.origin := by
  unfold FullThreadState.origin
  rw [h.flags.threadId, h.event.2.1, h.event.2.2]

/-- A new thread. -/
theorem sameThread_new (env : Env) (id : UInt64) :
    SameThread mem (FullThreadState.new env id) (FullThreadState.new env id) :=
  .idle (.refl _) ⟨rfl, rfl⟩ ⟨rfl, rfl⟩ rfl rfl

/-- Flags are set in both threads. -/
theorem SameThread.setFlags (h : SameThread mem t t') {dead dead' signalled signalled' : Bool}
    {inPendingFrees inPendingFrees' : Bool} (hdead : dead' = dead)
    (hsignalled : signalled' = signalled) (hpending : inPendingFrees' = inPendingFrees) :
    SameThread mem
      { t with dead := dead, signalled := signalled, inPendingFrees := inPendingFrees }
      { t' with dead := dead', signalled := signalled', inPendingFrees := inPendingFrees' } := by
  have hid := h.flags.threadId
  cases h with
  | idle _ hidle hidle' hstate hevent =>
    exact .idle ⟨hid, hdead, hsignalled, hpending⟩ hidle hidle' hstate hevent
  | busy hreads hcurrent =>
    obtain ⟨rest, rest', hr, hr', hsame⟩ := hreads.reads
    exact .busy ⟨⟨hid, hdead, hsignalled, hpending⟩, hreads.front, rest, rest',
      ⟨hr.stream, hr.front, hr.good⟩, ⟨hr'.stream, hr'.front, hr'.good⟩, hsame⟩ hcurrent

/-- A buffer is queued behind others. -/
theorem Reading.queue {rest : List UInt8} (h : Reading mem t rest) (hgood : GoodBuf mem ev) :
    Reading mem { t with bufs := t.bufs ++ [ev] } rest ∧
      remaining mem { t with bufs := t.bufs ++ [ev] } rest =
        (remaining mem t rest).andThen (decodeBuf mem ev) := by
  obtain ⟨later, hlater⟩ := h.front
  refine ⟨⟨h.stream, ⟨later ++ [ev], ?_⟩, fun e he => ?_⟩, ?_⟩
  · show t.bufs ++ [ev] = _
    rw [hlater, List.cons_append]
  · obtain he | he := List.mem_append.mp he
    · exact h.good e he
    · rwa [List.mem_singleton.mp he]
  · rw [remaining, remaining, Decoding.andThen_assoc,
      List.tail_append_of_ne_nil (by rw [hlater]; simp)]
    congr 1
    funext ts
    exact decodeBufs_concat mem _ _ _

theorem SameThread.queue (h : SameThread mem t t') (hbufs : t.bufs ≠ []) (hgood : GoodBuf mem ev) :
    SameThread mem { t with bufs := t.bufs ++ [ev] } { t' with bufs := t'.bufs ++ [ev] } := by
  cases h with
  | idle _ hidle => exact absurd hidle.1 hbufs
  | busy hreads hcurrent =>
    obtain ⟨rest, rest', hr, hr', hsame⟩ := hreads.reads
    obtain ⟨hq, hrem⟩ := hr.queue hgood
    obtain ⟨hq', hrem'⟩ := hr'.queue hgood
    have hflags := hreads.flags
    refine .busy ⟨⟨hflags.threadId, hflags.dead, hflags.signalled, hflags.inPendingFrees⟩,
      hreads.front, rest, rest', hq, hq', ?_⟩ hcurrent
    rw [hrem', hsame]
    exact hrem.symm

/-- A buffer arrives at an idle thread, which starts to read it; the first thread sees another
memory that holds the buffer. -/
theorem SameThread.start (h : SameThread mem t t') (hbufs : t.bufs = []) (hgood : GoodBuf mem ev)
    (mem' : UInt64 → Option UInt8) :
    ReadsAlike mem (SerializeState.started t mem' ev) (SerializeState.started t' mem ev) := by
  cases h with
  | busy hreads =>
    obtain ⟨rest, rest', hr, -⟩ := hreads.reads
    obtain ⟨later, hlater⟩ := hr.front
    have hfront : t.bufs = t.activeBuf :: later := hlater
    simp [hfront] at hbufs
  | idle hflags hidle hidle' hstate hevent =>
    have hreading : ∀ u : FullThreadState, Reading mem (SerializeState.started u mem ev)
        (bufBytes mem ev) := fun u =>
      ⟨⟨_, rfl, stands_constMemStream hgood⟩, ⟨[], rfl⟩, fun e he => by
        rwa [List.mem_singleton.mp he]⟩
    refine ⟨⟨hflags.threadId, hflags.dead, hflags.signalled, hflags.inPendingFrees⟩, ?_,
      bufBytes mem ev, bufBytes mem ev, hreading t, hreading t', ?_⟩
    · intro s hs
      rw [← Option.some.inj hs]
      exact ⟨rfl, rfl⟩
    · show (decodeBytes t'.toThreadState _).andThen _ = (decodeBytes t.toThreadState _).andThen _
      rw [hstate]
      rfl

end Threads

end MallocTraceReplay
