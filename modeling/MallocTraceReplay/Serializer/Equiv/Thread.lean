import MallocTraceReplay.Serializer.Decoding
import MallocTraceReplay.Stream.Equiv.OuterEvStream

/-!
# Correctness of `FullThreadState::update_last_event`

`update_last_event` takes the first event off what the rest of the active buffer and the queued
buffers decode to (`updateLastEvent_eq`).  What it does to the other fields of the thread does not
depend on the memory the buffers are read from (`updateLastEvent_frame`).
-/

namespace MallocTraceReplay

open AltVarintCodec MallocTraceEncoder StepMachine

/-! ### Streams over buffers -/

variable {mem : UInt64 → Option UInt8} {ev : OuterEvent} (stack : StackBytes)

@[simp] theorem length_bufBytes :
    (bufBytes mem ev).length = ev.bufEnd.toNat - ev.bufStart.toNat := by
  simp [bufBytes]

theorem GoodBuf.bytesAt (h : GoodBuf mem ev) : BytesAt mem ev.bufStart (bufBytes mem ev) := by
  have hs := h.start_le
  have he := h.end_le
  refine ⟨by rw [length_bufBytes]; omega, fun i hi => ?_⟩
  rw [length_bufBytes] at hi
  obtain ⟨x, hx⟩ := Option.isSome_iff_exists.mp (h.loads i hi)
  simp [bufBytes, hi, hx]

/-- A stream from which the bytes `rest` are still to be read. -/
def Stands (mem : UInt64 → Option UInt8) (s : MemStream ConstMapper) (rest : List UInt8) : Prop :=
  s.mapper.mem = mem ∧
    ((∃ m, s.Before m rest ∧ s.permissiveAdvance = false) ∨
      rest = [] ∧ ∃ s', s.hasMore = .ok (false, s'))

/-- The recursion bound is large enough for the bytes that are left. -/
theorem Stands.bytesLeft {s : MemStream ConstMapper} {rest : List UInt8}
    (h : Stands mem s rest) : rest.length < bytesLeft s + 1 := by
  obtain ⟨-, ⟨m, h, -⟩ | ⟨rfl, -⟩⟩ := h
  · have hends := h.ends
    have hfits := h.bytes.fits
    rw [MallocTraceReplay.bytesLeft, h.mapper, UInt64.toNat_add]
    omega
  · exact Nat.zero_lt_succ _

/-- The stream over a buffer, at its beginning. -/
theorem stands_constMemStream (h : GoodBuf mem ev) :
    Stands mem (constMemStream mem ev.bufStart ev.bufEnd) (bufBytes mem ev) := by
  have hs := h.start_le
  have he := h.end_le
  by_cases hle : ev.bufStart.toNat ≤ ev.bufEnd.toNat
  · have hsize : (ev.bufEnd - ev.bufStart).toNat = ev.bufEnd.toNat - ev.bufStart.toNat := by
      rw [UInt64.toNat_sub]; omega
    refine ⟨rfl, Or.inl ⟨_, ⟨rfl, rfl, le_refl _, ?_, ?_, h.bytesAt⟩, rfl⟩⟩
    · show ev.bufStart.toNat + _ = ev.bufStart.toNat + (ev.bufEnd - ev.bufStart).toNat
      rw [length_bufBytes, hsize]
    · show ev.bufStart.toNat ≤ ev.bufStart.toNat + _
      omega
  · -- the window that the mapper gives ends before the place of the stream
    have hend : ev.bufStart + (ev.bufEnd - ev.bufStart) = ev.bufEnd := by
      rw [UInt64.add_comm, UInt64.sub_add_cancel]
    refine ⟨rfl, Or.inr ⟨by rw [← List.length_eq_zero_iff, length_bufBytes]; omega,
      MemStream.hasMore_new_of_lt ?_ ?_⟩⟩
    · show ev.bufStart + (ev.bufEnd - ev.bufStart) < ev.bufStart
      rw [hend, UInt64.lt_iff_toNat_lt]
      omega
    · show ev.bufStart.toNat + 2 ^ 20 < 2 ^ 64
      omega

/-! ### One event -/

/-- One record of a stream that stands before bytes. -/
theorem readInner_record {m : ConstMapper} {s : MemStream ConstMapper} {b : UInt8}
    {bs : List UInt8} (h : s.Before m (b :: bs)) (hstrict : s.permissiveAdvance = false)
    (t : ThreadState) (fuel : ℕ) :
    match readRecord t (b :: bs) with
    | .error e => readInner stack (fuel + 1) t s = .error e
    | .ok (some ev, t', rest) => ∃ s', readInner stack (fuel + 1) t s = .ok (some ev, t', s') ∧
        s'.Before m rest ∧ s'.permissiveAdvance = false
    | .ok (none, t', rest) => ∃ s', readInner stack (fuel + 1) t s = readInner stack fuel t' s' ∧
        s'.Before m rest ∧ s'.permissiveAdvance = false := by
  -- `hasMore` moves the stream only over what it realizes, so the word is read from the same bytes
  obtain ⟨s₁, hmore, h₁, -, hle₁, hstrict₁⟩ := h.hasMore_eq
  have hw := h₁.mustReadVarint_eq hle₁ (hstrict₁.trans hstrict) stack
  simp only [List.isEmpty_cons, Bool.not_false] at hmore
  unfold readRecord readWord
  cases hv : readVarint (b :: bs) with
  | none =>
    simp only [hv] at hw
    simp only [error_bind, readInner, hmore, ok_bind, Bool.not_true, Bool.false_eq_true, if_false,
      hw]
  | some r =>
    obtain ⟨w, rest⟩ := r
    simp only [hv] at hw
    obtain ⟨s₂, hw, h₂, hle₂, hstrict₂⟩ := hw
    have hw₂ := h₂.mustReadVarint_eq hle₂ hstrict₂ stack
    simp only [ok_bind, readInner, hmore, Bool.not_true, Bool.false_eq_true, if_false, hw]
    cases htype : EventType.ofCode? (decodeType w) with
    | none => simp only [throw_eq_error]
    | some type =>
      cases type with
      -- one word is the whole record
      | malloc | free | freeSized => exact ⟨s₂, rfl, h₂, hstrict₂⟩
      | buf | death | end_ | syncBarrier => simp only [throw_eq_error]
      | tok | realloc | memalign =>
        -- the second word: its type says how it is used, but it is read in the same way
        cases hv₂ : readVarint rest with
        | none =>
          simp only [hv₂] at hw₂
          simp only [hw₂, error_bind]
        | some r =>
          simp only [hv₂] at hw₂
          obtain ⟨s₃, hw₂, h₃, -, hstrict₃⟩ := hw₂
          simp only [hw₂, ok_bind]
          exact ⟨s₃, rfl, h₃, hstrict₃⟩

/-- **`update_last_event_inner`** takes the first event off what the stream's bytes decode to. -/
theorem readInner_eq {s : MemStream ConstMapper} {rest : List UInt8} {t : ThreadState} {fuel : ℕ}
    (h : Stands mem s rest) (hfuel : rest.length < fuel) :
    match decodeBytes t rest with
    | (e :: es, r) => ∃ t' s' rest', readInner stack fuel t s = .ok (some e.ev, t', s') ∧
        Stands mem s' rest' ∧ t'.threadId = t.threadId ∧ t'.lastTs = e.ts ∧ t'.lastCpu = e.cpu ∧
        decodeBytes t' rest' = (es, r)
    | ([], .ok t') => t'.threadId = t.threadId ∧ ∃ s', readInner stack fuel t s = .ok (none, t', s')
    | ([], .error e) => readInner stack fuel t s = .error e := by
  induction fuel generalizing t s rest with
  | zero => omega
  | succ fuel ih =>
    cases rest with
    | nil =>
      -- both a stream at its end and one over the empty range have nothing more
      have hno : ∃ s', s.hasMore = .ok (false, s') := by
        obtain ⟨-, ⟨m, h, -⟩ | ⟨-, h⟩⟩ := h
        · obtain ⟨s', hmore, -⟩ := h.hasMore_eq
          exact ⟨s', hmore⟩
        · exact h
      obtain ⟨s', hmore⟩ := hno
      simp only [decodeBytes_nil, Decoding.pure]
      refine ⟨trivial, s', ?_⟩
      simp only [readInner, hmore, ok_bind]
      rfl
    | cons b bs =>
      obtain ⟨hmem, h⟩ := h
      obtain ⟨m, hs, hstrict⟩ := h.resolve_right (by simp)
      have hmem' : ∀ (s' : MemStream ConstMapper) rest', s'.Before m rest' →
          s'.mapper.mem = mem := by
        intro s' rest' hs'
        rw [hs'.mapper, ← hs.mapper, hmem]
      have hrec := readInner_record stack hs hstrict t fuel
      rw [decodeBytes_cons]
      cases hr : readRecord t (b :: bs) with
      | error e =>
        simp only [hr] at hrec
        exact hrec
      | ok r =>
        obtain ⟨ev?, t', rest⟩ := r
        have hlt := readRecord_length_lt hr
        have hid := readRecord_threadId hr
        cases ev? with
        | none =>
          simp only [hr] at hrec
          obtain ⟨s', heq, hs', hstrict'⟩ := hrec
          -- a token record only changes the thread: the event comes from what follows it
          have := ih (t := t') ⟨hmem' s' rest hs', Or.inl ⟨m, hs', hstrict'⟩⟩
            (by simp only [List.length_cons] at hlt hfuel; omega)
          rw [heq]
          rw [hid] at this
          exact this
        | some ev =>
          simp only [hr] at hrec
          obtain ⟨s', heq, hs', hstrict'⟩ := hrec
          exact ⟨t', s', rest, heq, ⟨hmem' s' rest hs', Or.inl ⟨m, hs', hstrict'⟩⟩, hid, rfl, rfl,
            rfl⟩

/-! ### Threads -/

/-- The thread reads `rest` and then the queued buffers after the front one. -/
structure Reading (mem : UInt64 → Option UInt8) (t : FullThreadState) (rest : List UInt8) :
    Prop where
  stream : ∃ s, t.activeStream = some s ∧ Stands mem s rest
  front : ∃ later, t.bufs = t.activeBuf :: later
  good : ∀ ev ∈ t.bufs, GoodBuf mem ev

/-- What a thread that reads `rest` is still to decode. -/
def remaining (mem : UInt64 → Option UInt8) (t : FullThreadState) (rest : List UInt8) : Decoding :=
  (decodeBytes t.toThreadState rest).andThen fun ts =>
    decodeBufs mem t.bufs.tail (ts.updateWithBuf t.activeBuf)

namespace FullThreadState

/-- What `update_last_event` leaves alone. -/
structure SameFlags (t t' : FullThreadState) : Prop where
  threadId : t'.threadId = t.threadId
  dead : t'.dead = t.dead
  signalled : t'.signalled = t.signalled
  inPendingFrees : t'.inPendingFrees = t.inPendingFrees

theorem SameFlags.refl (t : FullThreadState) : SameFlags t t := ⟨rfl, rfl, rfl, rfl⟩

theorem SameFlags.trans {t t' t'' : FullThreadState} (h : SameFlags t t')
    (h' : SameFlags t' t'') : SameFlags t t'' :=
  ⟨h'.threadId.trans h.threadId, h'.dead.trans h.dead, h'.signalled.trans h.signalled,
    h'.inPendingFrees.trans h.inPendingFrees⟩

/-- What the outcome of `update_last_event` says about the buffers and the stream. -/
structure Updated (t : FullThreadState) (ok : Bool) (t' : FullThreadState) : Prop where
  flags : SameFlags t t'
  suffix : t'.bufs <:+ t.bufs
  live : ok = true → t'.bufs ≠ [] ∧ t'.activeStream.isSome
  idle : ok = false → t'.bufs = [] ∧ t'.activeStream = none

section Frame

variable {stack}

theorem Updated.bufs_iff {t t' : FullThreadState} {ok : Bool} (h : Updated t ok t') :
    t'.bufs ≠ [] ↔ ok = true := by
  cases ok with
  | true => simp [(h.live rfl).1]
  | false => simp [(h.idle rfl).1]

theorem Updated.stream_iff {t t' : FullThreadState} {ok : Bool} (h : Updated t ok t') :
    t'.activeStream.isSome = true ↔ t'.bufs ≠ [] := by
  rw [h.bufs_iff]
  cases ok with
  | true => simp [(h.live rfl).2]
  | false => simp [(h.idle rfl).2]

/-- Reading an event does not change which thread it is, whatever the bytes. -/
theorem readInner_threadId {fuel : ℕ} {t t' : ThreadState} {s s' : MemStream ConstMapper}
    {ev? : Option InnerEvent} (h : readInner stack fuel t s = .ok (ev?, t', s')) :
    t'.threadId = t.threadId := by
  induction fuel generalizing t s with
  | zero => simp [readInner] at h
  | succ fuel ih =>
    unfold readInner at h
    obtain ⟨⟨more, s₁⟩, -, h⟩ := bind_eq_ok.mp h
    cases more with
    | false =>
      simp only [Bool.not_false, if_true, pure_eq_ok, Except.ok.injEq, Prod.mk.injEq] at h
      rw [← h.2.1]
    | true =>
      simp only [Bool.not_true, Bool.false_eq_true, if_false] at h
      obtain ⟨⟨w, s₂⟩, -, h⟩ := bind_eq_ok.mp h
      cases htype : EventType.ofCode? (decodeType w) with
      | none => simp [htype] at h
      | some type =>
        cases type with
        | malloc | free | freeSized =>
          simp only [htype, pure_eq_ok, Except.ok.injEq, Prod.mk.injEq] at h
          rw [← h.2.1]
          rfl
        | tok =>
          simp only [htype] at h
          obtain ⟨⟨w₂, s₃⟩, -, h⟩ := bind_eq_ok.mp h
          -- the loop goes on behind a token record
          exact (ih h).trans rfl
        | realloc | memalign =>
          simp only [htype] at h
          obtain ⟨⟨w₂, s₃⟩, -, h⟩ := bind_eq_ok.mp h
          simp only [pure_eq_ok, Except.ok.injEq, Prod.mk.injEq] at h
          rw [← h.2.1]
          rfl
        | buf | death | end_ | syncBarrier => simp [htype] at h

theorem updateLastEventInner_frame {t t' : FullThreadState} {ok : Bool}
    (h : t.updateLastEventInner stack = .ok (ok, t')) :
    SameFlags t t' ∧ t'.bufs = t.bufs ∧ t'.activeStream.isSome := by
  unfold updateLastEventInner at h
  cases hs : t.activeStream with
  | none => simp [hs] at h
  | some s =>
    simp only [hs] at h
    obtain ⟨⟨ev?, ts, s'⟩, hread, h⟩ := bind_eq_ok.mp h
    simp only [pure_eq_ok, Except.ok.injEq, Prod.mk.injEq] at h
    rw [← h.2]
    exact ⟨⟨readInner_threadId hread, rfl, rfl, rfl⟩, rfl, rfl⟩

theorem updateLoop_frame {fuel : ℕ} {t t' : FullThreadState} {ok : Bool} (hbufs : t.bufs ≠ [])
    (h : updateLoop stack mem fuel t = .ok (ok, t')) : Updated t ok t' := by
  induction fuel generalizing t with
  | zero => simp [updateLoop] at h
  | succ fuel ih =>
    unfold updateLoop at h
    obtain ⟨⟨ok₁, t₁⟩, hinner, h⟩ := bind_eq_ok.mp h
    obtain ⟨hflags, hbufs₁, hlive⟩ := updateLastEventInner_frame hinner
    cases ok₁ with
    | true =>
      -- the buffer has another event
      simp only [if_true, pure_eq_ok, Except.ok.injEq, Prod.mk.injEq] at h
      obtain ⟨rfl, rfl⟩ := h
      exact ⟨hflags, by rw [hbufs₁], fun _ => ⟨by rwa [hbufs₁], hlive⟩, by simp⟩
    | false =>
      simp only [Bool.false_eq_true, if_false] at h
      cases hb : t₁.bufs with
      -- the last buffer has run out
      | nil => exact absurd (hbufs₁ ▸ hb) hbufs
      | cons front later =>
        cases later with
        | nil =>
          simp only [hb, pure_eq_ok, Except.ok.injEq, Prod.mk.injEq] at h
          obtain ⟨rfl, rfl⟩ := h
          exact ⟨⟨hflags.threadId, hflags.dead, hflags.signalled, hflags.inPendingFrees⟩,
            List.nil_suffix, by simp, fun _ => ⟨rfl, rfl⟩⟩
        | cons next later =>
          simp only [hb] at h
          have hrest := ih (by simp) h
          -- the next buffer is opened, and there the same holds
          refine ⟨?_, ?_, hrest.live, hrest.idle⟩
          · exact hflags.trans ⟨hrest.flags.threadId, hrest.flags.dead, hrest.flags.signalled,
              hrest.flags.inPendingFrees⟩
          · rw [← hbufs₁, hb]
            exact hrest.suffix.trans (List.suffix_cons _ _)

/-- **`update_last_event` keeps the thread apart from its decoder**, and leaves it with a stream
and buffers, or with neither. -/
theorem updateLastEvent_frame {t t' : FullThreadState} {ok : Bool} (hbufs : t.bufs ≠ [])
    (h : t.updateLastEvent stack mem = .ok (ok, t')) : Updated t ok t' := by
  have h' := updateLoop_frame (t := t.seeing mem) hbufs h
  exact ⟨⟨h'.flags.threadId, h'.flags.dead, h'.flags.signalled, h'.flags.inPendingFrees⟩,
    h'.suffix, h'.live, h'.idle⟩

/-- The thread is the same one also where there are no buffers. -/
theorem updateLastEvent_flags {t t' : FullThreadState} {ok : Bool}
    (h : t.updateLastEvent stack mem = .ok (ok, t')) : SameFlags t t' := by
  by_cases hbufs : t.bufs = []
  · unfold updateLastEvent updateLoop at h
    obtain ⟨⟨ok₁, t₁⟩, hinner, h⟩ := bind_eq_ok.mp h
    obtain ⟨hflags, hbufs₁, -⟩ := updateLastEventInner_frame hinner
    cases ok₁ with
    | true =>
      simp only [if_true, pure_eq_ok, Except.ok.injEq, Prod.mk.injEq] at h
      rw [← h.2]
      exact ⟨hflags.threadId, hflags.dead, hflags.signalled, hflags.inPendingFrees⟩
    | false =>
      have hnone : t₁.bufs = [] := hbufs₁.trans hbufs
      simp [hnone] at h
  · exact (updateLastEvent_frame hbufs h).flags

end Frame

/-- The stream of a thread that reads sees the memory as it is. -/
theorem seeing_eq {t : FullThreadState} {rest : List UInt8} (h : Reading mem t rest) :
    t.seeing mem = t := by
  obtain ⟨s, hs, hstands⟩ := h.stream
  have hsame : { s with mapper := { s.mapper with mem := mem } } = s := by rw [← hstands.1]
  unfold seeing
  rw [hs, Option.map_some, hsame, ← hs]

/-- What is remaining is what the active buffer has left, and then the queued ones. -/
theorem remaining_eq {t : FullThreadState} {rest : List UInt8} {later : List OuterEvent}
    (hbufs : t.bufs = t.activeBuf :: later) :
    remaining mem t rest = (decodeBytes t.toThreadState rest).andThen fun ts =>
      decodeBufs mem later (ts.updateWithBuf t.activeBuf) := by
  rw [remaining, hbufs, List.tail_cons]

theorem updateLoop_eq {t : FullThreadState} {rest : List UInt8} {fuel : ℕ}
    (h : Reading mem t rest) (hfuel : t.bufs.length < fuel) :
    match remaining mem t rest with
    | (e :: es, r) => ∃ t' rest', updateLoop stack mem fuel t = .ok (true, t') ∧
        Reading mem t' rest' ∧ t'.lastEvent = e.ev ∧ t'.lastTs = e.ts ∧ t'.lastCpu = e.cpu ∧
        remaining mem t' rest' = (es, r)
    | ([], .ok ts) => ∃ t', updateLoop stack mem fuel t = .ok (false, t') ∧ t'.toThreadState = ts
    | ([], .error e) => updateLoop stack mem fuel t = .error e := by
  induction fuel generalizing t rest with
  | zero => omega
  | succ fuel ih =>
    obtain ⟨s, hs, hstands⟩ := h.stream
    obtain ⟨later, hbufs⟩ := h.front
    have hread := readInner_eq stack (t := t.toThreadState) hstands hstands.bytesLeft
    rw [remaining_eq hbufs]
    rcases hd : decodeBytes t.toThreadState rest with ⟨es, r⟩
    simp only [hd] at hread
    cases es with
    | cons e es =>
      -- the active buffer has another event
      obtain ⟨ts, s', rest', heq, hstands', -, hts, hcpu, hd'⟩ := hread
      have hcons : Decoding.andThen (e :: es, r) (fun ts =>
          decodeBufs mem later (ts.updateWithBuf t.activeBuf)) =
          Decoding.cons e (Decoding.andThen (es, r) fun ts =>
            decodeBufs mem later (ts.updateWithBuf t.activeBuf)) :=
        Decoding.cons_andThen e (es, r) _
      rw [hcons]
      refine ⟨{ t with toThreadState := ts, lastEvent := e.ev, activeStream := some s' }, rest', ?_,
        ⟨⟨s', rfl, hstands'⟩, ⟨later, hbufs⟩, h.good⟩, rfl, hts, hcpu, ?_⟩
      · simp only [updateLoop, updateLastEventInner, hs, heq, ok_bind, pure_eq_ok,
          Option.isSome_some, if_true, Option.getD_some]
      · simp only [remaining, hbufs, List.tail_cons, hd']
    | nil =>
      cases r with
      | error e =>
        simp only [Decoding.andThen]
        simp only [updateLoop, updateLastEventInner, hs, hread, error_bind]
      | ok ts =>
        obtain ⟨hid, s', heq⟩ := hread
        have hpure : Decoding.andThen ([], .ok ts) (fun ts =>
            decodeBufs mem later (ts.updateWithBuf t.activeBuf)) =
            decodeBufs mem later (ts.updateWithBuf t.activeBuf) := Decoding.pure_andThen ts _
        rw [hpure]
        cases later with
        | nil =>
          -- it was the last buffer
          simp only [decodeBufs, Decoding.pure]
          refine ⟨{ t with
            toThreadState := ts.updateWithBuf t.activeBuf, lastEvent := .zero, bufs := [],
            activeStream := none }, ?_, rfl⟩
          simp only [updateLoop, updateLastEventInner, hs, heq, ok_bind, pure_eq_ok,
            Option.isSome_none, Bool.false_eq_true, if_false, hbufs]
          rfl
        | cons next later =>
          have hnext : GoodBuf mem next := h.good next (by rw [hbufs]; simp)
          set t' : FullThreadState := { t with
            toThreadState := ts.updateWithBuf t.activeBuf, lastEvent := .zero,
            bufs := next :: later, activeBuf := next,
            activeStream := some (constMemStream mem next.bufStart next.bufEnd) } with ht'
          have hreading : Reading mem t' (bufBytes mem next) :=
            ⟨⟨_, rfl, stands_constMemStream hnext⟩, ⟨later, rfl⟩,
              fun ev hev => h.good ev (by rw [hbufs]; exact List.mem_cons_of_mem _ hev)⟩
          have hlater := ih hreading
            (by rw [hbufs] at hfuel; simp only [ht', List.length_cons] at hfuel ⊢; omega)
          have hloop : updateLoop stack mem (fuel + 1) t = updateLoop stack mem fuel t' := by
            simp only [updateLoop, updateLastEventInner, hs, heq, ok_bind, pure_eq_ok,
              Option.isSome_none, Bool.false_eq_true, if_false, hbufs]
            rfl
          rw [hloop]
          rw [remaining_eq (show t'.bufs = t'.activeBuf :: later from rfl)] at hlater
          simp only [decodeBufs, decodeBuf, Decoding.andThen_assoc, Decoding.pure_andThen]
          exact hlater

/-- **`update_last_event`** takes the first event off what the thread is still to decode. -/
theorem updateLastEvent_eq {t : FullThreadState} {rest : List UInt8} (h : Reading mem t rest) :
    match remaining mem t rest with
    | (e :: es, r) => ∃ t' rest', t.updateLastEvent stack mem = .ok (true, t') ∧
        Reading mem t' rest' ∧ t'.lastEvent = e.ev ∧ t'.lastTs = e.ts ∧ t'.lastCpu = e.cpu ∧
        remaining mem t' rest' = (es, r)
    | ([], .ok ts) => ∃ t', t.updateLastEvent stack mem = .ok (false, t') ∧ t'.toThreadState = ts
    | ([], .error e) => t.updateLastEvent stack mem = .error e := by
  unfold updateLastEvent
  rw [seeing_eq h]
  exact updateLoop_eq stack h (Nat.lt_succ_self _)

/-- A thread whose bytes decode has its next event decoded. -/
theorem updateLastEvent_ok {t : FullThreadState} {rest : List UInt8} (h : Reading mem t rest)
    {ts : ThreadState} (hok : (remaining mem t rest).2 = .ok ts) :
    ∃ ok t', t.updateLastEvent stack mem = .ok (ok, t') := by
  have hspec := updateLastEvent_eq stack h
  rcases hrem : remaining mem t rest with ⟨es, r⟩
  simp only [hrem] at hspec hok
  subst hok
  cases es with
  | cons e es =>
    obtain ⟨t', rest', heq, -⟩ := hspec
    exact ⟨true, t', heq⟩
  | nil =>
    obtain ⟨t', heq, -⟩ := hspec
    exact ⟨false, t', heq⟩

end FullThreadState

end MallocTraceReplay
