import MallocTraceReplay.Stream.Equiv.NextProgress
import MallocTraceReplay.Serializer.Equiv.Death
import MallocTraceReplay.Serializer.Equiv.StreamCounts
import MallocTraceReplay.Serializer.Equiv.Termination

/-!
# The serializer returns, or blames the trace

Whatever the bytes of a trace are, as long as the reading meets no buffer record whose size wraps
around the address space, the serializer comes to an end: it returns, or it stops for one of the
reasons that a bad trace gives (`Abort.BlamesTrace`).  Memory outside of the trace is never
accessed, and no other assertion fails (`Machine.serialize_returns`).

Every item takes bytes of the trace (`Input.Stands.advance_cases`), every iteration of the drain
loop bytes of the buffers or a thread of the heap, and every iteration of the loop over `to_die` a
thread.
-/

namespace MallocTraceReplay

open AltVarintCodec MallocTraceEncoder MemStream StepMachine

/-- The reasons for which the program stops when there is something wrong with a trace: the magic
word, a type, the end of the bytes; records of a thread after its death, or a death without a
thread; two threads that wait for one token.

`dyingBufsEmpty` is among them, although it is the loop over `to_die` that is wrong there: a thread
may well die in a trace while it waits.  And `abort` is every `abort()`: over a `ConstMapper` only
that of `next` at a record of no known type, over an `FDInputMapper` also those of `Realize` and
`unrealize_up_to`. -/
def Abort.BlamesTrace : Abort → Prop
  | .panic reason =>
    reason = "magic header is missing" ∨ reason = "unknown type" ∨
      reason = "trying to realize with min_amount beyond end of data" ∨
      reason = "needed thread to exist"
  | .abort => True
  | .assertion which =>
    which = .bufThreadNotDead ∨ which = .deathThreadNotDead ∨ which = .pendingFreesFresh ∨
      which = .dyingBufsEmpty
  | .fault | .outOfFuel => False

theorem Abort.Undecodable.blamesTrace {e : Abort} (h : e.Undecodable) : e.BlamesTrace := by
  rcases h with rfl | rfl
  · exact Or.inr (Or.inr (Or.inl rfl))
  · exact Or.inr (Or.inl rfl)

/-! ### Reading -/

/-- A record that ends too early, or of another type. -/
theorem nextRecord_error {bytes : List UInt8} {e : Abort} (h : nextRecord bytes = .error e) :
    e.BlamesTrace := by
  unfold nextRecord at h
  split at h
  · simp at h
  · split at h
    · split at h
      · rw [← Except.error.inj h]
        exact Or.inr (Or.inr (Or.inl rfl))
      · simp at h
    · simp at h
    · simp at h
    · split at h <;> simp at h
    · rw [← Except.error.inj h]
      trivial

namespace MemStream

variable {b : UInt64} {data : List UInt8} {s s' : MemStream ConstMapper}

/-- The window is in the trace. -/
structure InTrace (b : UInt64) (data : List UInt8) (s : MemStream ConstMapper) : Prop where
  mapper : s.mapper = .ofBytes b data
  start : s.realizedStart = b
  window : s.end_.toNat ≤ b.toNat + data.length

theorem Before.inTrace (hfits : b.toNat + data.length ≤ 2 ^ 63) {rest : List UInt8}
    (h : Before (.ofBytes b data) s rest) : InTrace b data s := by
  have hends := h.ptr_le hfits
  have hwindow := h.window
  exact ⟨h.mapper, h.start, by omega⟩

/-- Wherever the stream goes, its window stays in the trace. -/
theorem streamInvariant_inTrace (hfits : b.toNat + data.length ≤ 2 ^ 63) :
    StreamInvariant (InTrace b data) where
  realizeMore := by
    intro s minAmount ok s' h heq
    obtain ⟨ok', heq'⟩ := Reader.realizeMore_eq h.mapper h.start minAmount
    rw [heq'] at heq
    obtain ⟨-, rfl⟩ := Prod.mk.inj (Except.ok.inj heq)
    have hlimit : (b + (ConstMapper.ofBytes b data).size_).toNat = b.toNat + data.length := by
      rw [UInt64.toNat_add, toNat_size_ofBytes hfits]
      omega
    refine ⟨h.mapper, h.start, ?_⟩
    dsimp only
    split
    · exact hlimit.le
    · next hle =>
      rw [gt_iff_lt, UInt64.not_lt, UInt64.le_iff_toNat_le, hlimit] at hle
      exact hle
  move h _ _ := ⟨h.mapper, h.start, h.window⟩

/-- Memory before the window is given back, wherever the stream stands. -/
theorem InTrace.unrealizeUpTo_ok (hfits : b.toNat + data.length ≤ 2 ^ 63) (h : InTrace b data s)
    {ptr : UInt64} (hlow : b.toNat ≤ ptr.toNat) (ndebug : Bool) :
    ∃ s', s.unrealizeUpTo ndebug ptr = .ok s' ∧ s'.mapper = s.mapper := by
  have hge : decide (ptr ≥ s.realizedStart) = true := by
    rw [decide_eq_true_eq, h.start]
    exact UInt64.le_iff_toNat_le.mpr hlow
  unfold unrealizeUpTo
  rw [hge, check_true, ok_bind]
  split
  · exact ⟨s, rfl, rfl⟩
  · dsimp only
    generalize ptr - (ptr &&& 4096) = page
    -- the request ends where the window does
    have hsum : page + (s.end_ - page) = s.end_ := by rw [UInt64.add_comm, UInt64.sub_add_cancel]
    have hgot : s.mapper.realize page (s.end_ - page) = s.end_ - page := by
      have hbegin : (ConstMapper.ofBytes b data).begin_ = b := rfl
      have hwindow := h.window
      rw [h.mapper, ConstMapper.realize, hsum, if_neg]
      rw [gt_iff_lt, UInt64.lt_iff_toNat_lt, UInt64.toNat_add, toNat_size_ofBytes hfits, hbegin]
      omega
    have hrealize : Mapper.realize s.mapper page (s.end_ - page) = .ok (s.end_ - page, s.mapper) :=
      congrArg (fun got => Except.ok (got, s.mapper)) hgot
    rw [hrealize, ok_bind]
    dsimp only
    rw [hsum, if_neg (UInt64.lt_irrefl _)]
    exact ⟨_, rfl, rfl⟩

end MemStream

namespace Input

variable {env : Env} {b : UInt64} {data rest : List UInt8} {i i' : Input ConstMapper}

/-- The bytes that are left to read, and one for the end. -/
def left (b : UInt64) (data : List UInt8) (i : Input ConstMapper) : ℕ :=
  if i.seenEnd then 0 else 1 + (b.toNat + data.length - i.s.ptr.toNat)

/-- What the reading of an item comes to: the input stands further on or at its end, or the program
stops. -/
def Advances (b : UInt64) (data : List UInt8) (i : Input ConstMapper) :
    Except Abort (Item × Input ConstMapper) → Prop
  | .error e => e.BlamesTrace
  | .ok (_, i') =>
    (i'.seenEnd = false → ∃ rest, i'.Stands b data rest) ∧ i'.left b data < i.left b data

/-- **An item takes bytes**, or there is none. -/
theorem Stands.advance_cases (env : Env) (hfits : b.toNat + data.length ≤ 2 ^ 63)
    (h : i.Stands b data rest) (hno : Fits b data i.s) :
    i.Advances b data (i.advance false env) := by
  rw [Fits, ← h.before.eq_drop hfits] at hno
  have hspec := next_eq (served_before _) h.before h.strict
    (h.before.nextShown h.strict hno env.stack) i.ev
  have hends : ∀ i' : Input ConstMapper, i'.seenEnd = true → i'.left b data < i.left b data := by
    intro i' hend
    rw [left, left, if_pos hend, h.goesOn, if_neg Bool.false_ne_true]
    exact Nat.lt_add_right _ Nat.one_pos
  unfold Input.advance
  cases hrecord : nextRecord rest with
  | error e =>
    rw [hrecord] at hspec
    rw [hspec]
    exact nextRecord_error hrecord
  | ok record =>
    cases record with
    | none =>
      -- nothing more is read; the window is still in the trace
      simp only [hrecord] at hspec
      obtain ⟨ev', s', hnext⟩ := hspec
      have hs' := (streamInvariant_inTrace hfits).next (h.before.inTrace hfits) hnext
      obtain ⟨s'', hback, -⟩ := hs'.unrealizeUpTo_ok hfits
        (h.barriers (i.lastBarriersIndex + 1)).1 false
      rw [hnext, ok_bind]
      simp only [Bool.not_false, if_true, finishBatch]
      split
      · exact ⟨by simp, hends _ rfl⟩
      · rw [hback]
        exact ⟨by simp, hends _ rfl⟩
    | some r =>
      obtain ⟨r, rest'⟩ := r
      simp only [hrecord] at hspec
      obtain ⟨ev', s', hnext, -, hs', hle, hstrict⟩ := hspec
      have hprogress := (h.before.next_progresses hfits h.strict hno hnext).1
      have hlt := UInt64.lt_iff_toNat_lt.mp hprogress.lt
      have hplace := hprogress.le
      have hbarriers : ∀ j, b.toNat ≤ (i.lastBarriers j).toNat ∧
          (i.lastBarriers j).toNat ≤ s'.ptr.toNat :=
        fun j => ⟨(h.barriers j).1, (h.barriers j).2.trans hlt.le⟩
      rw [hnext, ok_bind]
      simp only [Bool.not_true, Bool.false_eq_true, if_false]
      split
      · next htype =>
        simp only [finishBatch]
        split
        · exact ⟨by simp, hends _ rfl⟩
        · obtain ⟨s'', hback, hs'', hptr, hperm⟩ := hs'.unrealizeUpTo_eq hle
            (hbarriers (i.lastBarriersIndex + 1)).1 (hbarriers (i.lastBarriersIndex + 1)).2 false
          rw [hback]
          refine ⟨fun _ => ⟨rest', hs'', hperm.trans hstrict, h.goesOn, fun j => ?_⟩, ?_⟩
          · have hbegin : b.toNat ≤ s'.ptr.toNat := hs'.begin_le
            dsimp only
            rw [hptr]
            split
            · exact ⟨hbegin, Nat.le_refl _⟩
            · exact hbarriers j
          · simp only [left, h.goesOn, hptr, Bool.false_eq_true, if_false]
            omega
      · refine ⟨fun _ => ⟨rest', hs', hstrict, h.goesOn, hbarriers⟩, ?_⟩
        simp only [left, h.goesOn, Bool.false_eq_true, if_false]
        omega

/-- A trace is opened, or it has no magic word. -/
theorem open_stands (env : Env) (hfits : b.toNat + data.length ≤ 2 ^ 63) :
    match open_ env (ConstMapper.ofBytes b data) with
    | .error e => e.BlamesTrace
    | .ok i => i.Stands b data (data.drop 4) ∧ i.read = [] := by
  unfold open_
  dsimp only
  by_cases hlen : 4 ≤ data.length
  · -- the magic word is there
    obtain ⟨s, hadvance, hs, hstrict⟩ :=
      advanceBy_new hfits (show (4 : UInt64).toNat ≤ data.length from hlen)
    have hloads : ∀ k ∈ List.range 4, Mapper.load s.mapper (b + UInt64.ofNat k) =
        some (data.getD k 0) := by
      intro k hk
      have hk4 := List.mem_range.mp hk
      have hload := (before_new hfits).bytes.loads k (by omega)
      rw [hs.mapper]
      refine hload.trans ?_
      rw [List.getD_eq_getElem?_getD, List.getElem?_eq_getElem (by omega)]
      rfl
    rw [hadvance, ok_bind]
    dsimp only
    rw [mapM_eq_some_map hloads]
    dsimp only
    by_cases hmagic : loadBytes ((List.range 4).map fun k => data.getD k 0) ≠ kMagic.toUInt64
    · rw [if_pos hmagic]
      exact Or.inl rfl
    · rw [if_neg hmagic]
      have hbegin : Mapper.getBegin s.mapper = b := by rw [hs.mapper]; rfl
      refine ⟨⟨hs, hstrict, rfl, fun j => ?_⟩, rfl⟩
      dsimp only
      rw [hbegin]
      exact ⟨Nat.le_refl _, hs.begin_le⟩
  · -- it is not: `advance_by` panics, since the stream is not permissive yet
    have hnew := before_new hfits
    have hplace : (MemStream.new (ConstMapper.ofBytes b data)).ptr.toNat + (4 : UInt64).toNat <
        2 ^ 64 := by
      show b.toNat + 4 < 2 ^ 64
      omega
    have hshort := advanceBy_short (served_before _) hnew (UInt64.le_refl _) hplace
      (hnew.blockShown hplace) hlen
    have hstrict : (MemStream.new (ConstMapper.ofBytes b data)).permissiveAdvance = false := rfl
    rw [hstrict, if_neg Bool.false_ne_true] at hshort
    rw [hshort]
    exact Or.inr (Or.inr (Or.inl rfl))

/-- **Before its end** the input stands within the trace, where no size wraps around. -/
theorem Reached.stands (h : InUserSpace b data)
    (hno : ∀ i, Reached env (ConstMapper.ofBytes b data) i → i.seenEnd = false → Fits b data i.s)
    (hi : Reached env (ConstMapper.ofBytes b data) i) (hend : i.seenEnd = false) :
    ∃ rest, i.Stands b data rest := by
  refine (hi.invariant (I := fun i => Reached env (ConstMapper.ofBytes b data) i ∧
    (i.seenEnd = false → ∃ rest, i.Stands b data rest)) (fun i hopen => ?_)
    fun i item i' hI hend hadv => ?_).2 hend
  · have hstands := open_stands env h.fits
    rw [hopen] at hstands
    exact ⟨⟨0, by rw [hopen]; rfl⟩, fun _ => ⟨_, hstands.1⟩⟩
  · obtain ⟨hi, hstands⟩ := hI
    obtain ⟨rest, hrest⟩ := hstands hend
    have hcases := hrest.advance_cases env h.fits (hno i hi hend)
    rw [hadv] at hcases
    exact ⟨hi.advance hend hadv, hcases.1⟩

/-- The buffers that were read are in the trace. -/
theorem Reached.goodBufs (h : InUserSpace b data)
    (hi : Reached env (ConstMapper.ofBytes b data) i) {ev : OuterEvent}
    (hev : .record ev ∈ i.read) (htype : ev.type = .buf) :
    GoodBuf (ConstMapper.ofBytes b data).mem ev := by
  refine (hi.invariant (I := fun i => ReadsTrace b data i ∧ ∀ ev, .record ev ∈ i.read →
    ev.type = .buf → GoodBuf (ConstMapper.ofBytes b data).mem ev) (fun i hopen => ?_)
    fun i item i' hI hend hadv => ?_).2 ev hev htype
  · refine ⟨readsTrace_open h hopen, fun ev hev => ?_⟩
    have hopened := open_stands env h.fits
    rw [hopen] at hopened
    rw [hopened.2] at hev
    simp at hev
  · obtain ⟨hreads, hgood⟩ := hI
    obtain ⟨hreads', hnew⟩ := hreads.advance h hend hadv
    refine ⟨hreads', fun ev hev htype => ?_⟩
    rw [advance_read hadv, List.mem_append, List.mem_singleton] at hev
    rcases hev with hold | hlast
    · exact hgood ev hold htype
    · exact hnew ev hlast.symm htype

end Input

/-! ### Where the serializer stops -/

namespace SerializeState

variable {env : Env} {mem : UInt64 → Option UInt8} {st : SerializeState} {id : UInt64}
  {ev : OuterEvent} {e : Abort}

/-- A buffer of a dead thread, or one that cannot be decoded. -/
theorem bufArrives_error (hs : Scheduled st) (hgood : GoodBuf mem ev)
    (h : st.bufArrives false env mem ev = .error e) : e.BlamesTrace := by
  have hp := hs.placed_threadFor env ev.threadId
  unfold bufArrives at h
  rw [← threadFor] at h
  rcases bind_eq_error.mp h with h | ⟨-, -, h⟩
  · obtain ⟨-, -, rfl⟩ := check_eq_error.mp h
    exact Or.inl rfl
  · by_cases hbufs : (st.threadFor env ev.threadId).bufs = []
    · have hnone : (st.threadFor env ev.threadId).activeStream = none := by
        by_contra hno
        exact hp.stream.mp (Option.isSome_iff_ne_none.mpr hno) hbufs
      have hr : Reading mem (started (st.threadFor env ev.threadId) mem ev) (bufBytes mem ev) := by
        refine ⟨⟨_, rfl, stands_constMemStream hgood⟩, ⟨[], rfl⟩, fun e he => ?_⟩
        rw [List.mem_singleton.mp he]
        exact hgood
      simp only [hbufs, hnone, List.isEmpty_nil, Option.isNone_none, check_true, if_true, ok_bind,
        List.nil_append] at h
      rcases bind_eq_error.mp h with h | ⟨⟨ok, t'⟩, -, h⟩
      · exact (updateLastEvent_error hr h).blamesTrace
      · simp at h
    · have hne : (st.threadFor env ev.threadId).bufs.isEmpty = false := by simpa using hbufs
      simp only [hne, Bool.false_eq_true, if_false, pure_eq_ok, reduceCtorEq] at h

/-- A death without a thread, or a second one. -/
theorem deathArrives_error (h : st.deathArrives false ev = .error e) : e.BlamesTrace := by
  unfold deathArrives at h
  cases ht : st.threads ev.threadId with
  | none =>
    rw [ht] at h
    rw [← Except.error.inj h]
    exact Or.inr (Or.inr (Or.inr rfl))
  | some t =>
    rw [ht] at h
    rcases bind_eq_error.mp h with h | ⟨-, -, h⟩
    · obtain ⟨-, -, rfl⟩ := check_eq_error.mp h
      exact Or.inr (Or.inl rfl)
    · simp at h

end SerializeState

namespace Machine

variable {env : Env} {b : UInt64} {data : List UInt8} {m m' : Machine ConstMapper}

/-- What is left of the loop. -/
def loopLeft (m : Machine ConstMapper) : ℕ ×ₗ ℕ :=
  match m.loc with
  | .drain => m.drainMeasure
  | .toDie todo _ => toLex (todo.length, 0)
  | .records | .returned => toLex (0, 0)

/-- The bytes of the trace, then the loops of the batch, then the loop. -/
def measure (b : UInt64) (data : List UInt8) (m : Machine ConstMapper) : ℕ ×ₗ ℕ ×ₗ ℕ ×ₗ ℕ :=
  toLex (m.input.left b data, toLex (Loc.phase m.loc, m.loopLeft))

theorem measure_lt_of_left (h : m'.input.left b data < m.input.left b data) :
    m'.measure b data < m.measure b data :=
  Prod.Lex.toLex_lt_toLex.mpr (Or.inl h)

theorem measure_lt_of_phase (hinput : m'.input = m.input) (h : Loc.phase m'.loc < Loc.phase m.loc) :
    m'.measure b data < m.measure b data := by
  rw [measure, measure, hinput, Prod.Lex.toLex_lt_toLex]
  exact Or.inr ⟨rfl, Prod.Lex.toLex_lt_toLex.mpr (Or.inl h)⟩

theorem measure_lt_of_loopLeft (hinput : m'.input = m.input)
    (hphase : Loc.phase m'.loc = Loc.phase m.loc)
    (h : m'.loopLeft < m.loopLeft) : m'.measure b data < m.measure b data := by
  rw [measure, measure, hinput, Prod.Lex.toLex_lt_toLex]
  exact Or.inr ⟨rfl, Prod.Lex.toLex_lt_toLex.mpr (Or.inr ⟨hphase, h⟩)⟩

/-- What a step comes to: less is left to do, or the program stops. -/
def GoesOn (b : UInt64) (data : List UInt8) (m : Machine ConstMapper) :
    Except Abort (Machine ConstMapper) → Prop
  | .error e => e.BlamesTrace
  | .ok m' => m'.measure b data < m.measure b data

/-- The record loop takes an item. -/
theorem Reached.records_goesOn (h : InUserSpace b data)
    (hno : ∀ i, Input.Reached env (ConstMapper.ofBytes b data) i → i.seenEnd = false →
      Fits b data i.s)
    (hm : Reached false env (ConstMapper.ofBytes b data) m) (hloc : m.loc = .records) :
    m.GoesOn b data (m.step false env) := by
  have hi := hm.reads.input
  have hend := hm.reads.goesOn hloc
  obtain ⟨rest, hrest⟩ := hi.stands h hno hend
  have hadvances := hrest.advance_cases env h.fits (hno m.input hi hend)
  rw [Machine.step, hloc]
  simp only [stepRecords]
  cases hadv : m.input.advance false env with
  | error e =>
    rw [hadv] at hadvances
    exact hadvances
  | ok r =>
    obtain ⟨item, input⟩ := r
    rw [hadv] at hadvances
    obtain ⟨-, hless⟩ := hadvances
    rw [ok_bind]
    cases item with
    | batchEnd => exact measure_lt_of_left hless
    | record ev =>
      have hmem : input.mem = (ConstMapper.ofBytes b data).mem := (hi.advance hend hadv).mem_eq h
      rcases Input.advance_type hadv with htype | htype
      · -- a `Buf`: the thread is there or is made, and must not have died
        have hgood := ((hi.readsTrace h).advance h hend hadv).2 ev rfl htype
        simp only [htype, hmem]
        cases hst : m.state.bufArrives false env (ConstMapper.ofBytes b data).mem ev with
        | error e => exact SerializeState.bufArrives_error hm.scheduled hgood hst
        | ok st => exact measure_lt_of_left hless
      · -- a `Death`
        simp only [htype]
        cases hst : m.state.deathArrives false ev with
        | error e => exact SerializeState.deathArrives_error hst
        | ok st => exact measure_lt_of_left hless

/-- The drain loop takes bytes of the buffers, or a thread of the heap, or it ends. -/
theorem Reached.drain_goesOn (h : InUserSpace b data)
    (hm : Reached false env (ConstMapper.ofBytes b data) m) (hloc : m.loc = .drain) :
    m.GoesOn b data (m.step false env) := by
  have hfinite : m.state.FiniteBuffers := hm.finiteBuffers_of_bufs fun ev hev htype =>
    (hm.reads.input.goodBufs h hev htype).end_le
  rw [Machine.step, hloc]
  simp only [stepDrain]
  cases hheap : m.state.heap with
  | nil => exact measure_lt_of_phase rfl (by simp [Loc.phase, hloc])
  | cons id heap =>
    dsimp only
    cases hst : m.state.drainBody false env m.input.mem id with
    | error e =>
      obtain ⟨t, ht, hstream, hbufs, -⟩ := hm.scheduled.front hheap
      rw [SerializeState.drainBody_eq ht hstream hbufs] at hst
      by_cases hperm : m.state.permitted env t = true
      · -- the next event of the thread cannot be decoded
        have hbooks := hm.books h id
        rw [SerializeState.threadFor_of_some ht] at hbooks
        obtain ⟨d, hd, -⟩ := hbooks
        obtain ⟨rest, hr, -⟩ := hd.reading hbufs
        rw [if_pos hperm, hm.mem_eq h] at hst
        cases hu : t.updateLastEvent env.stack (ConstMapper.ofBytes b data).mem with
        | error e' =>
          rw [hu] at hst
          rw [error_bind, ← Except.error.inj hst]
          exact (updateLastEvent_error hr hu).blamesTrace
        | ok r =>
          obtain ⟨ok, t'⟩ := r
          rw [hu] at hst
          cases ok <;> simp at hst
      · -- two threads wait for the same token
        rw [if_neg hperm] at hst
        split at hst
        · simp at hst
        · rw [error_bind, ← Except.error.inj hst]
          exact Or.inr (Or.inr (Or.inl rfl))
    | ok st =>
      obtain ⟨-, hprogress⟩ := SerializeState.drainBody_progress hfinite hheap hst
      refine measure_lt_of_loopLeft rfl (by simp [Loc.phase, hloc]) ?_
      simp only [loopLeft, hloc, drainMeasure]
      rw [Prod.Lex.toLex_lt_toLex]
      dsimp only
      exact hprogress

/-- The loop over `to_die` takes a thread, or it ends. -/
theorem Reached.toDie_goesOn (hm : Reached false env (ConstMapper.ofBytes b data) m)
    {todo next : List UInt64} (hloc : m.loc = .toDie todo next) :
    m.GoesOn b data (m.step false env) := by
  cases todo with
  | nil =>
    rw [Machine.step, hloc]
    refine measure_lt_of_phase rfl ?_
    cases hend : m.input.seenEnd <;> simp [Loc.phase, hloc]
  | cons id todo =>
    have hmem : id ∈ m.dying := by
      rw [Machine.dying, hloc]
      simp
    obtain ⟨t, ht, hdead⟩ := (hm.dying.mem_iff id).mp hmem
    have hp := hm.scheduled.placed ht
    rw [Machine.step, hloc]
    simp only [stepToDie]
    by_cases hbufs : t.bufs = []
    · have hok := hm.toDie_ok hloc ht (hp.idle hbufs).1
      obtain ⟨m', hm'⟩ := hok
      rw [Machine.step, hloc] at hm'
      simp only [stepToDie] at hm'
      rw [hm']
      obtain ⟨⟨carried, st⟩, -, hm'⟩ := bind_eq_ok.mp hm'
      obtain rfl := Except.ok.inj hm'
      refine measure_lt_of_loopLeft rfl (by simp [Loc.phase, hloc]) ?_
      simp only [loopLeft, hloc]
      exact Prod.Lex.toLex_lt_toLex.mpr (Or.inl (by simp))
    · -- the thread waits
      have hne : t.bufs.isEmpty = false := by simpa using hbufs
      simp only [SerializeState.toDieBody, ht, hdead, hne, check_true, ok_bind]
      exact Or.inr (Or.inr (Or.inr rfl))

/-- **Every step lessens what is left to do**, or the serializer stops. -/
theorem Reached.goesOn (h : InUserSpace b data)
    (hno : ∀ i, Input.Reached env (ConstMapper.ofBytes b data) i → i.seenEnd = false →
      Fits b data i.s)
    (hm : Reached false env (ConstMapper.ofBytes b data) m) (hloc : m.loc ≠ .returned) :
    m.GoesOn b data (m.step false env) := by
  cases hl : m.loc with
  | records => exact hm.records_goesOn h hno hl
  | drain => exact hm.drain_goesOn h hl
  | toDie todo next => exact hm.toDie_goesOn hl
  | returned => exact absurd hl hloc

/-- Where no size wraps around, the serializer returns, or it blames the trace. -/
theorem returns_of_fits (env : Env) (h : InUserSpace b data)
    (hno : ∀ i, Input.Reached env (ConstMapper.ofBytes b data) i → i.seenEnd = false →
      Fits b data i.s) :
    ∃ n, (∃ m, serialize false env (ConstMapper.ofBytes b data) n = .ok m ∧
        m.loc = .returned) ∨
      ∃ e, serialize false env (ConstMapper.ofBytes b data) n = .error e ∧ e.BlamesTrace := by
  have hopens := Input.open_stands env h.fits
  cases hopen : Input.open_ env (ConstMapper.ofBytes b data) with
  | error e =>
    rw [hopen] at hopens
    exact ⟨0, Or.inr ⟨e, by simp [serialize, start, hopen], hopens⟩⟩
  | ok i =>
    set m₀ : Machine ConstMapper := ⟨.records, i, .init⟩ with hm₀
    have hrun : ∀ n, serialize false env (ConstMapper.ofBytes b data) n =
        iterate (Machine.step false env) n m₀ := fun n => by
      simp only [serialize, start, hopen, ok_bind, pure_eq_ok, hm₀]
    -- each step stops with a reason or lessens the measure, as long as the function has not
    -- returned
    have hstep : ∀ m, Reached false env (ConstMapper.ofBytes b data) m →
        ¬ m.loc = .returned →
        (∃ e, m.step false env = .error e ∧ e.BlamesTrace) ∨
          ∃ m', m.step false env = .ok m' ∧ Reached false env (ConstMapper.ofBytes b data) m' ∧
            m'.measure b data < m.measure b data := by
      intro m hm hloc
      have hgoes := hm.goesOn h hno hloc
      cases hst : m.step false env with
      | error e =>
        rw [hst] at hgoes
        exact Or.inl ⟨e, rfl, hgoes⟩
      | ok m' =>
        rw [hst] at hgoes
        exact Or.inr ⟨m', rfl, hm.step hst, hgoes⟩
    simp only [hrun]
    exact iterate_reaches_or_aborts wellFounded_lt (Machine.measure b data) hstep
      ⟨0, by rw [hrun, iterate_zero]⟩

/-- **The serializer returns, or it blames the trace**, whatever the bytes are: unless the reading
meets a buffer record whose size wraps around the address space. -/
theorem serialize_returns (env : Env) (h : InUserSpace b data) :
    (∃ i, Input.Reached env (ConstMapper.ofBytes b data) i ∧ i.seenEnd = false ∧
        ¬ Fits b data i.s) ∨
      ∃ n, (∃ m, serialize false env (ConstMapper.ofBytes b data) n = .ok m ∧
          m.loc = .returned) ∨
        ∃ e, serialize false env (ConstMapper.ofBytes b data) n = .error e ∧ e.BlamesTrace := by
  by_cases hwraps : ∃ i, Input.Reached env (ConstMapper.ofBytes b data) i ∧ i.seenEnd = false ∧
      ¬ Fits b data i.s
  · exact Or.inl hwraps
  · refine Or.inr (returns_of_fits env h fun i hi hend => ?_)
    by_contra hfits
    exact hwraps ⟨i, hi, hend, hfits⟩

/-- A death of a thread that has no buffer. -/
def unheardTrace : List UInt8 := writeTrace [.buf 1 0 0 [.malloc 8], .death 2 0 0, .end_]

theorem serialize_returns_unheardTrace :
    ∃ n, serialize false .tokenSet (ConstMapper.ofBytes 0x10000 unheardTrace) n =
        .error (.panic "needed thread to exist") ∧
      Abort.BlamesTrace (.panic "needed thread to exist") := by
  have hspace : InUserSpace 0x10000 unheardTrace := ⟨by decide +kernel, by decide +kernel⟩
  have hstops : serialize false .tokenSet (ConstMapper.ofBytes 0x10000 unheardTrace) 2 =
      .error (.panic "needed thread to exist") :=
    map_eq_error.mp (show (serialize false .tokenSet (ConstMapper.ofBytes 0x10000 unheardTrace)
      2).map loc = .error (.panic "needed thread to exist") by decide +kernel)
  rcases serialize_returns .tokenSet hspace with
    ⟨i, -, -, hwraps⟩ | ⟨n, ⟨m, hm, hloc⟩ | ⟨e, he, hblames⟩⟩
  · exact absurd (fits_of_declares hspace.fits (declares_of_all (by decide +kernel)) i.s) hwraps
  · -- a run that has returned does not stop
    have hsame := serialize_ended_eq hm hstops (by simpa using hloc) (by simp)
    simp at hsame
  · have hsame := serialize_ended_eq he hstops (by simp) (by simp)
    obtain rfl := Except.error.inj hsame
    exact ⟨n, he, hblames⟩

end Machine

end MallocTraceReplay
