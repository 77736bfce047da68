import MallocTraceReplay.Serializer.Trace
import MallocTraceReplay.Serializer.Equiv.Scheduled
import MallocTraceReplay.Codec.TraceWriter

/-!
# The deaths of threads

The threads of `to_die` are the dead threads that are still there, each once (`Machine.Dying`).  The
loop over them means to carry a waiting thread over to the next batch, but asserts before that it
has no buffers, and a waiting thread has some: the loop does what it means to do exactly when no
thread that it comes to waits (`Reached.deathsHandled_iff`).
-/

namespace MallocTraceReplay

open StepMachine MallocTraceEncoder

namespace SerializeState

variable {env : Env} {mem : UInt64 → Option UInt8} {st st' : SerializeState} {id : UInt64}
  {t t' : FullThreadState}

/-- The thread is there and dead. -/
def DeadAt (st : SerializeState) (id : UInt64) : Prop :=
  ∃ t, st.threads id = some t ∧ t.dead = true

theorem deadAt_of_threads (h : st'.threads = (st.setThread id t').threads)
    (hdead : t'.dead = true ↔ st.DeadAt id) (i : UInt64) : st'.DeadAt i ↔ st.DeadAt i := by
  by_cases hi : i = id
  · rw [hi]
    refine Iff.trans ⟨?_, fun hd => ⟨t', by rw [h, threads_setThread_self], hd⟩⟩ hdead
    rintro ⟨t, ht, hd⟩
    rw [h, threads_setThread_self] at ht
    rwa [← Option.some.inj ht] at hd
  · unfold DeadAt
    rw [h, threads_setThread_of_ne hi]

theorem deadAt_iff (ht : st.threads id = some t) : st.DeadAt id ↔ t.dead = true := by
  constructor
  · rintro ⟨u, hu, hd⟩
    rw [ht] at hu
    rwa [← Option.some.inj hu] at hd
  · exact fun hd => ⟨t, ht, hd⟩

/-- A buffer does not bring death. -/
theorem deadAt_bufArrives {ev : OuterEvent} (h : st.bufArrives false env mem ev = .ok st')
    (i : UInt64) : (st'.DeadAt i ↔ st.DeadAt i) ∧ st'.toDie = st.toDie := by
  have hfor : st.DeadAt ev.threadId ↔ (st.threadFor env ev.threadId).dead = true := by
    unfold threadFor
    cases ht : st.threads ev.threadId with
    | some t => exact deadAt_iff ht
    | none => simp [DeadAt, ht, FullThreadState.new]
  obtain ⟨hdead, ⟨hbufs, rfl⟩ | ⟨hbufs, ok, t', hupdate, rfl⟩⟩ := bufArrives_cases h
  · have hdead' : ({ st.threadFor env ev.threadId with
        bufs := (st.threadFor env ev.threadId).bufs ++ [ev] } : FullThreadState).dead = true ↔
        st.DeadAt ev.threadId := hfor.symm
    exact ⟨deadAt_of_threads rfl hdead' i, rfl⟩
  · have hu := FullThreadState.updateLastEvent_frame (by simp [started]) hupdate
    have hdead' : t'.dead = true ↔ st.DeadAt ev.threadId := by
      rw [hfor, hu.flags.dead]
      rfl
    cases ok with
    | true => exact ⟨deadAt_of_threads rfl hdead' i, rfl⟩
    | false => exact ⟨deadAt_of_threads rfl hdead' i, rfl⟩

/-- Whether a thread is there, and dead. -/
def life (st : SerializeState) (id : UInt64) : Option Bool :=
  (st.threads id).map FullThreadState.dead

theorem life_of_some (ht : st.threads id = some t) : st.life id = some t.dead := by
  rw [life, ht, Option.map_some]

theorem deadAt_iff_life : st.DeadAt id ↔ st.life id = some true := by
  unfold life
  cases ht : st.threads id with
  | none => simp [DeadAt, ht]
  | some t => rw [deadAt_iff ht, Option.map_some, Option.some.injEq]

theorem life_of_threads (h : st'.threads = (st.setThread id t').threads)
    (hlife : st.life id = some t'.dead) (i : UInt64) : st'.life i = st.life i := by
  by_cases hi : i = id
  · rw [hi, hlife, life, h, threads_setThread_self, Option.map_some]
  · rw [life, life, h, threads_setThread_of_ne hi]

theorem life_addAllocated (hs : Scheduled st) (tok : UInt64) (i : UInt64) :
    (st.addAllocated env tok).life i = st.life i ∧
      (st.addAllocated env tok).toDie = st.toDie := by
  cases hwait : st.pendingFrees.lookup tok with
  | none =>
    rw [Scheduled.addAllocated_of_none hwait]
    exact ⟨rfl, rfl⟩
  | some id =>
    obtain ⟨t, ht, -, heq⟩ := hs.addAllocated_of_some env hwait
    have hthreads : (st.addAllocated env tok).threads =
        (st.setThread id { t with inPendingFrees := false }).threads := by
      rw [heq]
      rfl
    have hlife : st.life id = some t.dead := life_of_some ht
    exact ⟨life_of_threads hthreads hlife i, by rw [heq]; rfl⟩

theorem life_wake (env : Env) (hs : Scheduled st) (e : InnerEvent) (i : UInt64) :
    (st.wake env e).life i = st.life i ∧ (st.wake env e).toDie = st.toDie := by
  unfold wake
  split
  · exact life_addAllocated hs _ i
  · exact ⟨rfl, rfl⟩

/-- **The drain loop** brings no thread and no death. -/
theorem life_drainBody (hs : Scheduled st) {heap : List UInt64} (hheap : st.heap = id :: heap)
    (h : st.drainBody false env mem id = .ok st') (i : UInt64) :
    st'.life i = st.life i ∧ st'.toDie = st.toDie := by
  obtain ⟨t, ht, -, hbufs, ⟨-, ok, t', hupdate, rfl⟩ | ⟨-, -, rfl⟩⟩ := drainBody_cases h
  · have hu := FullThreadState.updateLastEvent_frame hbufs hupdate
    -- neither the delivery nor the decoding touches `dead`
    have hlife : st.life id = some t'.dead := by rw [life_of_some ht, hu.flags.dead]
    cases ok with
    | true =>
      have hgoes : Scheduled (st.goesOn env id t t') := hs.goesOn hheap ht hu
      have hwake := life_wake env hgoes t.lastEvent i
      refine ⟨hwake.1.trans (life_of_threads Scheduled.goesOn_threads hlife i),
        hwake.2.trans ?_⟩
      unfold goesOn
      dsimp only
      split <;> simp
    | false =>
      have hfinishes : Scheduled (st.finishes env id t t') := hs.finishes hheap ht hu
      have hwake := life_wake env hfinishes t.lastEvent i
      refine ⟨hwake.1.trans (life_of_threads Scheduled.finishes_threads hlife i),
        hwake.2.trans ?_⟩
      unfold finishes
      split <;> simp
  · -- a thread that blocks stays among the threads
    have hthreads : (st.blocks env id t).threads =
        (st.setThread id { t with inPendingFrees := true }).threads := by
      simp [blocks, setThread]
    have hlife : st.life id = some t.dead := life_of_some ht
    exact ⟨life_of_threads hthreads hlife i, by simp [blocks]⟩

end SerializeState

namespace Machine

section Dying

variable {M : Type} {m m' : Machine M}

/-- The threads whose death was recorded and that are still there. -/
def dying (m : Machine M) : List UInt64 :=
  match m.loc with
  | .toDie todo nextToDie => nextToDie ++ todo
  | _ => m.state.toDie

/-- The dying threads are the dead ones, each once. -/
structure Dying (m : Machine M) : Prop where
  nodup : m.dying.Nodup
  mem_iff : ∀ id, id ∈ m.dying ↔ m.state.DeadAt id

theorem Dying.of_eq (h : Dying m) (hdying : m'.dying = m.dying)
    (hdead : ∀ id, m'.state.DeadAt id ↔ m.state.DeadAt id) : Dying m' :=
  ⟨by rw [hdying]; exact h.nodup, fun id => by rw [hdying, hdead]; exact h.mem_iff id⟩

theorem dying_of_ne (h : ∀ todo next, m.loc ≠ .toDie todo next) : m.dying = m.state.toDie := by
  unfold dying
  split
  · next hloc => exact absurd hloc (h _ _)
  · rfl

end Dying

variable {M : Type} [Mapper M] {env : Env} {mapper : M} {m m' : Machine M}

theorem Dying.step (h : Dying m) (hs : Scheduled m.state) (hstep : m.step false env = .ok m') :
    Dying m' := by
  rcases step_cases hstep with ⟨hloc, item, -, hcases⟩ | ⟨hloc, -, hcases⟩ |
    ⟨id, todo, next, carried, hloc, -, hst, hloc'⟩ | ⟨next, hloc, -, hloc', hst⟩ | ⟨-, rfl⟩
  · have hdying : m.dying = m.state.toDie := dying_of_ne (by simp [hloc])
    rcases hcases with ⟨-, hloc', hst⟩ | ⟨hloc', ev, -, ⟨-, hst⟩ | ⟨-, hst⟩⟩
    · refine h.of_eq ?_ (fun id => by rw [hst])
      rw [dying_of_ne (by simp [hloc']), hdying, hst]
    · refine h.of_eq ?_ fun id => (SerializeState.deadAt_bufArrives hst id).1
      rw [dying_of_ne (by simp [hloc']), hdying, (SerializeState.deadAt_bufArrives hst 0).2]
    · -- one more thread dies
      obtain ⟨t, ht, hdead, hst⟩ := SerializeState.deathArrives_cases hst
      have hnot : ev.threadId ∉ m.state.toDie := by
        rw [← hdying, h.mem_iff, SerializeState.deadAt_iff ht, hdead]
        simp
      have hdying' : m'.dying = m.state.toDie ++ [ev.threadId] := by
        rw [dying_of_ne (by simp [hloc']), hst]
      have hself : m'.state.threads ev.threadId = some { t with dead := true } := by
        rw [hst]
        exact SerializeState.threads_setThread_self
      refine ⟨?_, fun id => ?_⟩
      · rw [hdying', List.nodup_append_comm]
        exact List.nodup_cons.mpr ⟨hnot, hdying ▸ h.nodup⟩
      · rw [hdying', List.mem_append, List.mem_singleton]
        by_cases hid : id = ev.threadId
        · rw [hid, SerializeState.deadAt_iff hself]
          simp
        · have hsame : m'.state.threads id = m.state.threads id := by
            rw [hst]
            exact SerializeState.threads_setThread_of_ne hid
          rw [← hdying, h.mem_iff, SerializeState.DeadAt, SerializeState.DeadAt, hsame]
          simp [hid]
  · have hdying : m.dying = m.state.toDie := dying_of_ne (by simp [hloc])
    rcases hcases with ⟨-, hloc', hst⟩ | ⟨hloc', id, heap, hheap, hst⟩
    · refine h.of_eq ?_ (fun id => by rw [hst])
      rw [hdying, dying, hloc']
      exact List.nil_append _
    · have hbody := SerializeState.life_drainBody hs hheap hst
      refine h.of_eq ?_ fun i => by
        rw [SerializeState.deadAt_iff_life, SerializeState.deadAt_iff_life, (hbody i).1]
      rw [dying_of_ne (by simp [hloc']), hdying, (hbody 0).2]
  · have hdying : m.dying = next ++ id :: todo := by rw [dying, hloc]
    have hnodup := h.nodup
    rw [hdying] at hnodup
    obtain ⟨t, ht, -, -, ⟨-, -, rfl, hst'⟩ | ⟨-, -, rfl, hst'⟩⟩ :=
      SerializeState.toDieBody_cases hst
    · refine h.of_eq ?_ (fun i => by rw [hst'])
      rw [hdying, dying, hloc']
      simp
    · -- the thread is gone
      have hdying' : m'.dying = next ++ todo := by
        rw [dying, hloc']
        simp
      have hnot : id ∉ next ++ todo :=
        (List.nodup_cons.mp (List.nodup_middle.mp hnodup)).1
      refine ⟨by rw [hdying']; exact (List.nodup_cons.mp (List.nodup_middle.mp hnodup)).2,
        fun i => ?_⟩
      by_cases hi : i = id
      · rw [hdying', hi]
        refine iff_of_false hnot ?_
        rintro ⟨u, hu, -⟩
        rw [hst'] at hu
        simp [SerializeState.eraseThread] at hu
      · have hsame : m'.state.threads i = m.state.threads i := by
          rw [hst']
          simp [SerializeState.eraseThread, hi]
        have hmem := h.mem_iff i
        rw [hdying] at hmem
        rw [hdying', SerializeState.DeadAt, hsame]
        simpa [hi, SerializeState.DeadAt] using hmem
  · refine h.of_eq ?_ (fun i => by rw [hst]; rfl)
    have hdying' : m'.dying = m'.state.toDie := dying_of_ne (by rw [hloc']; split <;> simp)
    rw [hdying', hst, dying, hloc]
    exact (List.append_nil _).symm
  · exact h

/-- **The dying threads are the dead ones** in every reached state. -/
theorem Reached.dying (h : Reached false env mapper m) : Dying m := by
  refine h.invariant (fun m hstart => ?_) fun m m' hm hI hstep => hI.step hm.scheduled hstep
  obtain ⟨hloc, hstate, -⟩ := start_state hstart
  have hdying : m.dying = [] := by rw [dying_of_ne (by simp [hloc]), hstate]; rfl
  refine ⟨by rw [hdying]; exact List.nodup_nil, fun id => ?_⟩
  rw [hdying, hstate]
  simp [SerializeState.DeadAt, SerializeState.init]

/-- A dying thread that does not wait is idle, and no assertion fails on it. -/
theorem Reached.toDie_ok (h : Reached false env mapper m) {id : UInt64} {todo next : List UInt64}
    (hloc : m.loc = .toDie (id :: todo) next) {t : FullThreadState}
    (ht : m.state.threads id = some t) (hflag : t.inPendingFrees = false) :
    ∃ m', m.step false env = .ok m' := by
  have hmem : id ∈ m.dying := by
    rw [Machine.dying, hloc]
    simp
  have hdead := (SerializeState.deadAt_iff ht).mp ((h.dying.mem_iff id).mp hmem)
  have hp := h.scheduled.placed ht
  have hheap := h.heap_eq_nil (by simp [hloc]) (by simp [hloc])
  have hbufs : t.bufs = [] := by
    by_contra hno
    have := hp.mem_heap.mpr ⟨hno, hflag⟩
    rw [hheap] at this
    simp at this
  have hstream : t.activeStream = none := by
    by_contra hno
    exact hp.stream.mp (Option.isSome_iff_ne_none.mpr hno) hbufs
  simp only [Machine.step, hloc, stepToDie, SerializeState.toDieBody, ht, hdead, hbufs, hflag,
    hstream, check, List.isEmpty_nil, Option.isNone_none, Bool.or_true, if_true, ok_bind,
    Bool.false_eq_true, if_false, pure_eq_ok]
  exact ⟨_, rfl⟩

/-! ### Deaths of waiting threads -/

/-- What the loop over `to_die` means to do: no assertion fails, a waiting thread goes to
`next_to_die`, and `next_to_die` is the `to_die` of the next batch. -/
def DeathsHandled (env : Env) (m : Machine M) : Prop :=
  (∀ id todo next, m.loc = .toDie (id :: todo) next →
    (∀ which, m.step false env ≠ .error (.assertion which)) ∧
      ∀ t, m.state.threads id = some t → t.inPendingFrees = true →
        ∃ m', m.step false env = .ok m' ∧ m'.loc = .toDie todo (next ++ [id])) ∧
  ∀ next, m.loc = .toDie [] next → ∃ m', m.step false env = .ok m' ∧ m'.state.toDie = next

/-- The thread that the loop over `to_die` comes to does not wait. -/
def DyingNotWaiting (m : Machine M) : Prop :=
  ∀ id todo next t, m.loc = .toDie (id :: todo) next → m.state.threads id = some t →
    t.inPendingFrees = false

/-- **Deaths of waiting threads**: in every reached state the loop over `to_die` does what it
means to do exactly when the thread it comes to does not wait. -/
theorem Reached.deathsHandled_iff (h : Reached false env mapper m) :
    m.DeathsHandled env ↔ m.DyingNotWaiting := by
  constructor
  · intro hhandled id todo next t hloc ht
    by_contra hno
    have hflag : t.inPendingFrees = true := by simpa using hno
    -- the step of the loop goes through, whose assertion says that the thread has no buffer
    obtain ⟨m', hm', -⟩ := (hhandled.1 id todo next hloc).2 t ht hflag
    have hbufs : t.bufs ≠ [] := (h.scheduled.placed ht).busy hflag
    obtain ⟨id', todo', next', carried, hloc', hst⟩ : ∃ id' todo' next' carried,
        m.loc = .toDie (id' :: todo') next' ∧
          m.state.toDieBody false id' = .ok (carried, m'.state) := by
      rcases step_cases hm' with ⟨hl, -⟩ | ⟨hl, -⟩ | ⟨id', todo', next', c, hl, -, hst, -⟩ |
        ⟨next', hl, -⟩ | ⟨hl, -⟩
      · -- no other step starts at this head of the loop
        simp [hloc] at hl
      · simp [hloc] at hl
      · exact ⟨id', todo', next', c, hl, hst⟩
      · simp [hloc] at hl
      · simp [hloc] at hl
    obtain ⟨⟨rfl, -⟩, -⟩ : (id = id' ∧ todo = todo') ∧ next = next' := by simpa [hloc] using hloc'
    obtain ⟨u, hu, -, hnone, -⟩ := SerializeState.toDieBody_cases hst
    rw [ht] at hu
    exact hbufs (Option.some.inj hu ▸ hnone)
  · intro hcond
    refine ⟨fun id todo next hloc => ?_, fun next hloc => ?_⟩
    · -- what the loop meets is a dying thread, which does not wait
      have hmem : id ∈ m.dying := by
        rw [Machine.dying, hloc]
        simp
      obtain ⟨t, ht, -⟩ := (h.dying.mem_iff id).mp hmem
      have hflag := hcond id todo next t hloc ht
      obtain ⟨m', hm'⟩ := h.toDie_ok hloc ht hflag
      refine ⟨fun which => by simp [hm'], fun u hu hwaits => ?_⟩
      rw [ht] at hu
      rw [← Option.some.inj hu, hflag] at hwaits
      exact absurd hwaits (by simp)
    · exact ⟨_, by rw [Machine.step, hloc]; rfl, rfl⟩

/-- A thread waits for a token that is allocated in the next batch, and dies before. -/
def dyingTrace : List UInt8 :=
  writeTrace [.buf 1 0 0 [.free 5], .death 1 0 0, .syncBarrier 0 0,
    .buf 2 0 0 [.tok 5 0 0, .malloc 8], .end_]

theorem deathsHandled_iff_dyingTrace :
    ∃ m, Reached false .tokenSet (ConstMapper.ofBytes 0x10000 dyingTrace) m ∧
      m.loc = .toDie [1] [] ∧ (m.DeathsHandled .tokenSet ↔ m.DyingNotWaiting) := by
  obtain ⟨m, hm, hloc⟩ := reached_of_map false .tokenSet
    (ConstMapper.ofBytes 0x10000 dyingTrace) 5
    (f := fun m => m.loc) (a := .toDie [1] []) (by decide +kernel)
  exact ⟨m, hm, hloc, hm.deathsHandled_iff⟩

/-- **The assertion fails** on the death of a waiting thread: its tokens are used once, and no
record follows its death. -/
theorem not_deathsHandled :
    TokensUsedOnce .tokenSet (ConstMapper.ofBytes 0x10000 dyingTrace) ∧
      DeathsLast .tokenSet (ConstMapper.ofBytes 0x10000 dyingTrace) ∧
      ∃ m, Reached false .tokenSet (ConstMapper.ofBytes 0x10000 dyingTrace) m ∧
        m.step false .tokenSet = .error (.assertion .dyingBufsEmpty) ∧
        ¬ m.DeathsHandled .tokenSet := by
  have hspace : InUserSpace 0x10000 dyingTrace := ⟨by decide +kernel, by decide +kernel⟩
  obtain ⟨i, hi, hmeets⟩ := Input.reached_of_map .tokenSet
    (ConstMapper.ofBytes 0x10000 dyingTrace) 5
    (f := fun i => i.meets .tokenSet [1, 2]) (a := true) (by decide +kernel)
  obtain ⟨honce, -, hdeaths⟩ := hi.conditions hspace hmeets
  obtain ⟨m, hm, hsee⟩ := reached_of_map false .tokenSet
    (ConstMapper.ofBytes 0x10000 dyingTrace) 5
    (f := fun m => (m.loc, (m.step false .tokenSet).map fun _ => ()))
    (a := (.toDie [1] [], .error (.assertion .dyingBufsEmpty))) (by decide +kernel)
  obtain ⟨hloc, hstep⟩ := Prod.mk.inj hsee
  have herror : m.step false .tokenSet = .error (.assertion .dyingBufsEmpty) := by
    cases hs : m.step false .tokenSet with
    | ok m' => simp [hs, Except.map] at hstep
    | error e => simpa [hs, Except.map] using hstep
  exact ⟨honce, hdeaths, m, hm, herror, fun h => (h.1 1 [] [] hloc).1 _ herror⟩

end Machine

end MallocTraceReplay
