import MallocTraceReplay.Serializer.Equiv.Waiting
import MallocTraceReplay.Serializer.Equiv.Death

/-!
# The build without assertions

Without assertions the serializer goes on where the other build stops.  On a trace in which no
record of a thread follows its death until the thread is erased, and no token is consumed twice,
one assertion only can fail: the one on a waiting thread in the loop over `to_die`.  Every other
step is one of the build with assertions (`Sound.step_cases`), so that the invariants hold in both
(`Reached.sound`).
-/

namespace MallocTraceReplay

open StepMachine MallocTraceEncoder

/-! ### Reading the trace -/

/-- The start of the window stays where it was. -/
theorem MemStream.streamInvariant_realizedStart {M : Type} [Mapper M] (start : UInt64) :
    StreamInvariant fun s : MemStream M => s.realizedStart = start where
  realizeMore := by
    intro s minAmount ok s' h heq
    unfold realizeMore at heq
    obtain ⟨⟨got, m⟩, -, heq⟩ := bind_eq_ok.mp heq
    rw [← (Prod.mk.inj (Except.ok.inj heq)).2]
    exact h
  move h _ _ := h

theorem MemStream.realizedStart_unrealizeUpTo {M : Type} [Mapper M] {s s' : MemStream M}
    {ptr : UInt64} (h : s.unrealizeUpTo false ptr = .ok s') :
    s'.realizedStart = s.realizedStart := by
  unfold unrealizeUpTo at h
  obtain ⟨_, -, h⟩ := bind_eq_ok.mp h
  split at h
  · rw [← Except.ok.inj h]
  · obtain ⟨⟨got, m⟩, -, h⟩ := bind_eq_ok.mp h
    dsimp only at h
    split at h
    · simp at h
    · rw [← Except.ok.inj h]

namespace Input

variable {env : Env} {b : UInt64} {data : List UInt8} {i i' : Input ConstMapper}

/-- The barriers are in the window. -/
structure Barred (b : UInt64) (i : Input ConstMapper) : Prop where
  start : i.s.realizedStart = b
  barriers : i.seenEnd = false → ∀ j, b ≤ i.lastBarriers j

theorem barred_open (hopen : open_ env (ConstMapper.ofBytes b data) = .ok i) : Barred b i := by
  unfold open_ at hopen
  obtain ⟨⟨place, s⟩, hadv, hopen⟩ := bind_eq_ok.mp hopen
  have hstart : s.realizedStart = b :=
    (MemStream.streamInvariant_realizedStart b).advanceBy rfl hadv
  dsimp only at hopen
  split at hopen
  · simp at hopen
  · split at hopen
    · simp at hopen
    · rw [← Except.ok.inj hopen]
      refine ⟨hstart, fun _ j => ?_⟩
      have hmapper : s.mapper = ConstMapper.ofBytes b data :=
        (streamInvariant_mapper _).advanceBy rfl hadv
      show b ≤ Mapper.getBegin s.mapper
      rw [hmapper]
      exact UInt64.le_refl b

theorem Barred.advance (h : InUserSpace b data) (hi : Barred b i) (hreads : ReadsTrace b data i)
    (hend : i.seenEnd = false) (hadv : i.advance false env = .ok (item, i')) : Barred b i' := by
  obtain ⟨ok, ev, s, hnext, -, hcases⟩ := advance_cases hadv
  have hstart : s.realizedStart = b :=
    (MemStream.streamInvariant_realizedStart b).next hi.start hnext
  rcases hcases with ⟨-, -, -, -, rfl⟩ | ⟨-, htype, hfinish⟩
  · exact ⟨hstart, hi.barriers⟩
  · unfold finishBatch at hfinish
    split at hfinish
    · obtain rfl := Except.ok.inj hfinish
      exact ⟨hstart, fun h => absurd h (by simp)⟩
    · obtain ⟨s', hs', hfinish⟩ := bind_eq_ok.mp hfinish
      obtain rfl := Except.ok.inj hfinish
      refine ⟨(MemStream.realizedStart_unrealizeUpTo hs').trans hstart, fun hgoes j => ?_⟩
      show b ≤ if _ then _ else _
      split
      · -- the new barrier is where the stream stands
        have hok : ok = true := by simpa [hend] using hgoes
        subst hok
        obtain ⟨hreader, hle, -, hbefore, -⟩ := (hreads.reader hend).next h hnext
        obtain ⟨rest, hrest⟩ := hbefore (by rcases htype rfl with htype | htype <;> simp [htype])
        obtain ⟨hptr, -⟩ := hrest.unrealizeUpTo_reader h hreader.strict hle
          (hreads.barriers hend _) hs'
        rw [hptr, UInt64.le_iff_toNat_le]
        exact hrest.begin_le
      · exact hi.barriers hend j

theorem Reached.barred (h : InUserSpace b data)
    (hi : Reached env (ConstMapper.ofBytes b data) i) : Barred b i :=
  (hi.invariant (I := fun i => ReadsTrace b data i ∧ Barred b i)
    (fun _ hopen => ⟨readsTrace_open h hopen, barred_open hopen⟩)
    fun _ _ _ hI hend hadv =>
      ⟨(hI.1.advance h hend hadv).1, hI.2.advance h hI.1 hend hadv⟩).2

/-- **No assertion fails in the reading**: both builds read the same. -/
theorem Reached.advance_eq (h : InUserSpace b data)
    (hi : Reached env (ConstMapper.ofBytes b data) i) (hend : i.seenEnd = false)
    (ndebug : Bool) : i.advance ndebug env = i.advance false env := by
  obtain ⟨hstart, hbarriers⟩ := hi.barred h
  unfold Input.advance
  cases hnext : i.s.next env.stack i.ev with
  | error e => rfl
  | ok r =>
    obtain ⟨ok, ev, s⟩ := r
    have hstart' : s.realizedStart = b :=
      (MemStream.streamInvariant_realizedStart b).next hstart hnext
    have hsame : ∀ seenEnd, ({ i with s := s, ev := ev, seenEnd := seenEnd } : Input
        ConstMapper).finishBatch ndebug env =
          ({ i with s := s, ev := ev, seenEnd := seenEnd } : Input ConstMapper).finishBatch false
            env := by
      intro seenEnd
      have hge : decide (i.lastBarriers (i.lastBarriersIndex + 1) ≥ s.realizedStart) = true := by
        rw [hstart']
        exact decide_eq_true (hbarriers hend _)
      simp only [finishBatch, MemStream.unrealizeUpTo, hge, check_true]
    simp only [ok_bind, hsame]

end Input

/-! ### Where the builds agree -/

namespace SerializeState

variable {env : Env} {mem : UInt64 → Option UInt8} {st : SerializeState} {id : UInt64}
  {t : FullThreadState} {ev : OuterEvent}

/-- A buffer for a thread that lives, and has no stream when it has no buffers. -/
theorem bufArrives_eq (ndebug : Bool) (hdead : (st.threadFor env ev.threadId).dead = false)
    (hstream : (st.threadFor env ev.threadId).bufs = [] →
      (st.threadFor env ev.threadId).activeStream = none) :
    st.bufArrives ndebug env mem ev = st.bufArrives false env mem ev := by
  unfold bufArrives
  rw [← threadFor]
  by_cases hbufs : (st.threadFor env ev.threadId).bufs = []
  · simp only [hdead, hbufs, hstream hbufs, Bool.not_false, Option.isNone_none, check_true]
  · have hne : (st.threadFor env ev.threadId).bufs.isEmpty = false := by simpa using hbufs
    simp only [hdead, hne, Bool.not_false, check_true, ok_bind, Bool.false_eq_true, if_false]

/-- A death of a thread that lives. -/
theorem deathArrives_eq (ndebug : Bool) (hdead : ¬ st.DeadAt ev.threadId) :
    st.deathArrives ndebug ev = st.deathArrives false ev := by
  unfold deathArrives
  cases ht : st.threads ev.threadId with
  | none => rfl
  | some t =>
    have hlives : t.dead = false := by
      by_contra hno
      exact hdead ⟨t, ht, by simpa using hno⟩
    simp only [hlives, Bool.not_false, check_true]

/-- The thread at the front of the heap has a stream and buffers, and waits for a token that no
other thread waits for. -/
theorem drainBody_ndebug (ndebug : Bool) (ht : st.threads id = some t)
    (hstream : t.activeStream.isSome = true) (hbufs : t.bufs ≠ [])
    (hfresh : st.permitted env t = false → st.pendingFrees.lookup (waitTok t) = none) :
    st.drainBody ndebug env mem id = st.drainBody false env mem id := by
  have hbufs' : (!t.bufs.isEmpty) = true := by simpa using hbufs
  simp only [drainBody, ht, hstream, hbufs', check_true, ok_bind, handle_eq]
  by_cases hperm : st.permitted env t = true
  · simp only [hperm, if_true, Bool.true_or, check_true]
  · have hnone : (((((st.asked t).heapPop env).setThread id
        { t with inPendingFrees := true }).pendingFrees).lookup (waitTok t)).isNone = true := by
      rw [pendingFrees_setThread, pendingFrees_heapPop, pendingFrees_asked,
        hfresh (by simpa using hperm)]
      rfl
    simp only [hperm, if_false, Bool.false_eq_true, decide_true, Bool.or_true, check_true,
      afterBlocked, hnone]

/-- A dead thread that is idle. -/
theorem toDieBody_eq (ndebug : Bool) (ht : st.threads id = some t) (hdead : t.dead = true)
    (hbufs : t.bufs = []) (hstream : t.activeStream = none) (hflag : t.inPendingFrees = false) :
    st.toDieBody ndebug id = st.toDieBody false id := by
  simp only [toDieBody, ht, hdead, hbufs, hstream, hflag, List.isEmpty_nil, Option.isNone_none,
    check_true, Bool.false_eq_true, if_false]

end SerializeState

/-! ### The invariants in both builds -/

namespace Machine

variable {env : Env} {b : UInt64} {data : List UInt8} {m m' : Machine ConstMapper}

/-- The invariants of the build with assertions. -/
structure Sound (env : Env) (b : UInt64) (data : List UInt8) (m : Machine ConstMapper) : Prop where
  reads : Reads env (ConstMapper.ofBytes b data) m
  scheduled : Scheduled m.state
  books : Books env (ConstMapper.ofBytes b data).mem m.input.read m.state
  dying : Dying m
  drained : Drained m

/-- The next record is not one of a dead thread that is still there. -/
def NextLives (env : Env) (m : Machine ConstMapper) : Prop :=
  ∀ ev input, m.loc = .records → m.input.advance true env = .ok (.record ev, input) →
    ¬ m.state.DeadAt ev.threadId

/-- No record of a thread follows its death until the thread has been erased. -/
def NoneWhileDying (env : Env) (mapper : ConstMapper) : Prop :=
  ∀ m, Reached true env mapper m → m.NextLives env

theorem Sound.step (hspace : InUserSpace b data) (h : Sound env b data m)
    (hstep : m.step false env = .ok m') : Sound env b data m' where
  reads := h.reads.step hstep
  scheduled := step_scheduled h.scheduled hstep
  books := step_books hspace h.reads h.scheduled h.books hstep
  dying := h.dying.step h.scheduled hstep
  drained := step_drained h.drained hstep

/-- A dying thread is carried over to the next batch. -/
theorem Sound.carry (h : Sound env b data m) {id : UInt64} {todo next : List UInt64}
    (hloc : m.loc = .toDie (id :: todo) next) :
    Sound env b data { m with loc := .toDie todo (next ++ [id]) } where
  reads := ⟨h.reads.input, fun hno => by simp at hno⟩
  scheduled := h.scheduled
  books := h.books
  dying := h.dying.of_eq (by simp [Machine.dying, hloc]) fun _ => Iff.rfl
  drained := Or.inr (Or.inr (by simpa [Drained, hloc] using h.drained))

/-- A dying thread that does not wait is dead and idle. -/
theorem Sound.dying_idle (h : Sound env b data m) {id : UInt64} {todo next : List UInt64}
    (hloc : m.loc = .toDie (id :: todo) next) {t : FullThreadState}
    (ht : m.state.threads id = some t) :
    t.dead = true ∧ (t.inPendingFrees = false → t.bufs = [] ∧ t.activeStream = none) := by
  have hmem : id ∈ m.dying := by
    rw [Machine.dying, hloc]
    simp
  refine ⟨(SerializeState.deadAt_iff ht).mp ((h.dying.mem_iff id).mp hmem), fun hflag => ?_⟩
  have hp := h.scheduled.placed ht
  have hheap : m.state.heap = [] := by simpa [Drained, hloc] using h.drained
  have hbufs : t.bufs = [] := by
    by_contra hno
    have hin := hp.mem_heap.mpr ⟨hno, hflag⟩
    simp [hheap] at hin
  refine ⟨hbufs, ?_⟩
  by_contra hno
  exact hp.stream.mp (Option.isSome_iff_ne_none.mpr hno) hbufs

/-- **A step without assertions** is the step with them, or it carries a waiting thread over to
the next batch, where the other build stops. -/
theorem Sound.step_cases (hspace : InUserSpace b data) (h : Sound env b data m)
    (honce : TokensUsedOnce env (ConstMapper.ofBytes b data)) (hlives : m.NextLives env)
    (hstep : m.step true env = .ok m') :
    m.step false env = .ok m' ∨ ∃ id todo next t, m.loc = .toDie (id :: todo) next ∧
      m.state.threads id = some t ∧ t.inPendingFrees = true ∧
      m' = { m with loc := .toDie todo (next ++ [id]) } := by
  cases hloc : m.loc with
  | returned =>
    rw [Machine.step, hloc] at hstep ⊢
    exact Or.inl hstep
  | records =>
    left
    have hadv := h.reads.input.advance_eq hspace (h.reads.goesOn hloc) true
    have hlives' : ∀ ev input, m.input.advance false env = .ok (.record ev, input) →
        ¬ m.state.DeadAt ev.threadId := by
      intro ev input hrecord
      exact hlives ev input hloc (hadv.trans hrecord)
    simp only [Machine.step, hloc, stepRecords, hadv] at hstep ⊢
    cases hitem : m.input.advance false env with
    | error e => simp [hitem] at hstep
    | ok r =>
      obtain ⟨item, input⟩ := r
      rw [hitem] at hstep
      simp only [ok_bind] at hstep ⊢
      cases item with
      | batchEnd => exact hstep
      | record ev =>
        have hdead := hlives' ev input hitem
        -- the record is of a living thread, so that the assertion about it holds
        have hp := h.scheduled.placed_threadFor env ev.threadId
        have hlive : (m.state.threadFor env ev.threadId).dead = false := by
          unfold SerializeState.threadFor
          cases ht : m.state.threads ev.threadId with
          | none => rfl
          | some t =>
            by_contra hno
            exact hdead ⟨t, ht, by simpa using hno⟩
        have hstream : (m.state.threadFor env ev.threadId).bufs = [] →
            (m.state.threadFor env ev.threadId).activeStream = none := by
          intro hbufs
          by_contra hno
          exact hp.stream.mp (Option.isSome_iff_ne_none.mpr hno) hbufs
        dsimp only at hstep ⊢
        rwa [SerializeState.bufArrives_eq true hlive hstream,
          SerializeState.deathArrives_eq true hdead] at hstep
  | drain =>
    left
    simp only [Machine.step, hloc, stepDrain] at hstep ⊢
    cases hheap : m.state.heap with
    | nil => simpa only [hheap] using hstep
    | cons id heap =>
      obtain ⟨t, ht, hstream, hbufs, -⟩ := h.scheduled.front hheap
      -- nobody waits for this token yet
      have hfresh : m.state.permitted env t = false →
          m.state.pendingFrees.lookup (SerializeState.waitTok t) = none := by
        intro hperm
        refine lookup_eq_none h.scheduled (honce m.input h.reads.input).2
          (fun {i u} hu hbufs => ?_) hheap ht
          (SerializeState.waitTok?_of_not_permitted hperm).1
        have hbooks := h.books i
        rw [SerializeState.threadFor_of_some hu] at hbooks
        rw [Input.events, h.reads.input.mem_eq hspace]
        exact hbooks.current hbufs
      simp only [hheap, SerializeState.drainBody_ndebug true ht hstream hbufs hfresh] at hstep ⊢
      exact hstep
  | toDie todo next =>
    cases todo with
    | nil =>
      left
      simpa only [Machine.step, hloc, stepToDie] using hstep
    | cons id todo =>
      simp only [Machine.step, hloc, stepToDie] at hstep ⊢
      cases ht : m.state.threads id with
      | none => simp [SerializeState.toDieBody, ht] at hstep
      | some t =>
        obtain ⟨hdead, hidle⟩ := h.dying_idle hloc ht
        by_cases hflag : t.inPendingFrees = true
        · -- the other build stops here: a waiting thread still has its buffers
          refine Or.inr ⟨id, todo, next, t, rfl, ht, hflag, ?_⟩
          have hbody : m.state.toDieBody true id = .ok (true, m.state) := by
            simp only [SerializeState.toDieBody, ht, check, hflag, Bool.true_or, if_true, ok_bind,
              pure_eq_ok]
          rw [hbody, ok_bind] at hstep
          exact (Except.ok.inj hstep).symm
        · -- the thread has run out of buffers, and both builds erase it
          have hflag' : t.inPendingFrees = false := by simpa using hflag
          obtain ⟨hbufs, hstream⟩ := hidle hflag'
          rw [SerializeState.toDieBody_eq true ht hdead hbufs hstream hflag'] at hstep
          exact Or.inl hstep

/-- **The invariants hold without assertions**, on a trace in which no record of a thread follows
its death until the thread is erased and no token is used twice. -/
theorem Reached.sound (hspace : InUserSpace b data)
    (honce : TokensUsedOnce env (ConstMapper.ofBytes b data))
    (hnone : NoneWhileDying env (ConstMapper.ofBytes b data))
    (hm : Reached true env (ConstMapper.ofBytes b data) m) : Sound env b data m := by
  refine hm.invariant (fun m hstart => ?_) fun m m' hm hI hstep => ?_
  · have hreached : Reached false env (ConstMapper.ofBytes b data) m :=
      ⟨0, by rw [serialize, hstart]; rfl⟩
    exact ⟨hreached.reads, hreached.scheduled, hreached.books hspace, hreached.dying,
      hreached.drained⟩
  · rcases hI.step_cases hspace honce (hnone m hm) hstep with hfalse |
      ⟨id, todo, next, t, hloc, -, -, rfl⟩
    · exact hI.step hspace hfalse
    · exact hI.carry hloc

end Machine

end MallocTraceReplay
