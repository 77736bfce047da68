import MallocTraceReplay.Serializer.Equiv.Death
import MallocTraceReplay.Serializer.Equiv.Waiting

/-!
# Every step is made

On a trace that decodes, with a receiver that knows the allocated tokens, nothing stops the
serializer on its way: a record is there to be read until the end, a buffer finds its thread alive,
a death finds it there (`Populated`), the next event of a thread can be decoded, and no assertion
fails, as long as no thread dies while it waits (`Reached.step_ok`).
-/

namespace MallocTraceReplay

open StepMachine MallocTraceEncoder History

/-! ### Reading on -/

namespace Input

variable {M : Type} [Mapper M] {env : Env} {mapper : M} {i i' j : Input M} {ev : OuterEvent}

/-- On the way to the end of the trace there is another item. -/
theorem Reached.advance_ok (hj : Reached env mapper j) (hend : j.seenEnd = false)
    (hi : Reached env mapper i) (hi' : i.seenEnd = true) :
    ∃ item j', j.advance false env = .ok (item, j') := by
  obtain ⟨n, hn⟩ := hj
  obtain ⟨n', hn'⟩ := hi
  obtain ⟨i₀, h₀, hn⟩ := bind_eq_ok.mp hn
  rw [h₀, ok_bind] at hn'
  have hfixed : step false env i = .ok i := by rw [step, if_pos hi']
  have hfar : iterate (step false env) (n' + (n + 1)) i₀ = .ok i := by
    rw [iterate_add, hn', ok_bind, iterate_fixed hfixed]
  obtain ⟨j', hj', -⟩ := iterate_le (show n + 1 ≤ n' + (n + 1) by omega) hfar
  rw [iterate_succ', hn, ok_bind, step, if_neg (by simp [hend])] at hj'
  cases hadv : j.advance false env with
  | error e => simp [hadv] at hj'
  | ok r => exact ⟨r.1, r.2, rfl⟩

/-- A record that is passed on is a buffer or a death. -/
theorem advance_type (h : i.advance false env = .ok (.record ev, i')) :
    ev.type = .buf ∨ ev.type = .death := by
  obtain ⟨ok, ev', s, hnext, -, ⟨rfl, hend, hbarrier, hitem, -⟩ | ⟨hitem, -⟩⟩ := advance_cases h
  · obtain rfl := Item.record.inj hitem
    obtain ⟨w, ⟨htype, -⟩ | ⟨htype, -⟩ | ⟨htype | htype, -⟩⟩ := MemStream.next_record hnext
    · exact Or.inl htype
    · exact Or.inr htype
    · exact absurd htype hend
    · exact absurd htype hbarrier
  · simp at hitem

end Input

/-! ### The threads that are there -/

section Records

variable {type : EventType} {items : List Item} {id : UInt64} {ev : OuterEvent}

theorem HasRecord.append (h : HasRecord type items id) (item : Item) :
    HasRecord type (items ++ [item]) id := by
  obtain ⟨ev, hev, hrest⟩ := h
  exact ⟨ev, List.mem_append_left _ hev, hrest⟩

theorem hasRecord_concat (htype : ev.type = type) :
    HasRecord type (items ++ [.record ev]) ev.threadId :=
  ⟨ev, by simp, htype, rfl⟩

/-- A record of another type or of another thread. -/
theorem HasRecord.of_concat (h : HasRecord type (items ++ [.record ev]) id)
    (hne : ev.type ≠ type ∨ ev.threadId ≠ id) : HasRecord type items id := by
  obtain ⟨ev', hev, htype, hid⟩ := h
  rcases List.mem_append.mp hev with hev | hev
  · exact ⟨ev', hev, htype, hid⟩
  · obtain rfl := Item.record.inj (List.mem_singleton.mp hev)
    rcases hne with hne | hne
    · exact absurd htype hne
    · exact absurd hid hne

theorem HasRecord.of_batchEnd (h : HasRecord type (items ++ [.batchEnd]) id) :
    HasRecord type items id := by
  obtain ⟨ev, hev, hrest⟩ := h
  refine ⟨ev, ?_, hrest⟩
  simpa using hev

end Records

/-- The dead threads had a death, and a thread that had a buffer is there unless it died. -/
structure Populated (items : List Item) (st : SerializeState) : Prop where
  dead : ∀ id, st.life id = some true → HasRecord .death items id
  gone : ∀ id, HasRecord .buf items id → st.life id = none → HasRecord .death items id

namespace Populated

variable {env : Env} {mem : UInt64 → Option UInt8} {items : List Item} {st st' : SerializeState}
  {ev : OuterEvent} {id : UInt64}

theorem of_life (h : Populated items st) (hlife : ∀ id, st'.life id = st.life id) :
    Populated items st' where
  dead id hd := h.dead id (by rw [← hlife, hd])
  gone id hb hn := h.gone id hb (by rw [← hlife, hn])

theorem batchEnd (h : Populated items st) : Populated (items ++ [.batchEnd]) st where
  dead id hd := (h.dead id hd).append _
  gone id hb hn := (h.gone id hb.of_batchEnd hn).append _

theorem bufArrives (h : Populated items st)
    (hstep : st.bufArrives false env mem ev = .ok st') :
    Populated (items ++ [.record ev]) st' := by
  -- the thread is there afterwards, and it is alive
  have hlife : ∀ i, st'.life i = if i = ev.threadId then some false else st.life i := by
    have hset : ∀ {st' : SerializeState} {t' : FullThreadState}, t'.dead = false →
        st'.threads = (st.setThread ev.threadId t').threads → ∀ i,
          st'.life i = if i = ev.threadId then some false else st.life i := by
      intro st' t' hdead hthreads i
      unfold SerializeState.life
      rw [hthreads]
      by_cases hi : i = ev.threadId
      · rw [if_pos hi, hi, SerializeState.threads_setThread_self, Option.map_some, hdead]
      · rw [if_neg hi, SerializeState.threads_setThread_of_ne hi]
    -- the `Buf` is queued, or it is started as the first one
    obtain ⟨hdead, ⟨-, rfl⟩ | ⟨-, ok, t', hupdate, rfl⟩⟩ := SerializeState.bufArrives_cases hstep
    · have hflag : ({ st.threadFor env ev.threadId with
          bufs := (st.threadFor env ev.threadId).bufs ++ [ev] } : FullThreadState).dead = false :=
        hdead
      exact hset hflag rfl
    · have hu := FullThreadState.updateLastEvent_frame (by simp [SerializeState.started]) hupdate
      have hdead' : t'.dead = false := hu.flags.dead.trans hdead
      cases ok with
      | true => exact hset hdead' rfl
      | false => exact hset hdead' rfl
  constructor
  · intro id hd
    rw [hlife] at hd
    split at hd
    · simp at hd
    · exact (h.dead id hd).append _
  · intro id hb hn
    rw [hlife] at hn
    split at hn
    · simp at hn
    · -- another thread is missing for the reason that it was missing before
      next hid => exact (h.gone id (hb.of_concat (Or.inr (Ne.symm hid))) hn).append _

theorem deathArrives (h : Populated items st) (htype : ev.type = .death)
    (hstep : st.deathArrives false ev = .ok st') : Populated (items ++ [.record ev]) st' := by
  obtain ⟨t, ht, -, rfl⟩ := SerializeState.deathArrives_cases hstep
  have hother : ∀ i ≠ ev.threadId,
      ({ st.setThread ev.threadId { t with dead := true } with
        toDie := st.toDie ++ [ev.threadId] } : SerializeState).life i = st.life i := by
    intro i hi
    unfold SerializeState.life
    show ((st.setThread ev.threadId _).threads i).map _ = _
    rw [SerializeState.threads_setThread_of_ne hi]
  constructor
  · intro id hd
    by_cases hid : id = ev.threadId
    · rw [hid]
      exact hasRecord_concat htype
    · rw [hother id hid] at hd
      exact (h.dead id hd).append _
  · intro id hb hn
    by_cases hid : id = ev.threadId
    · rw [hid]
      exact hasRecord_concat htype
    · rw [hother id hid] at hn
      exact (h.gone id (hb.of_concat (Or.inr (Ne.symm hid))) hn).append _

theorem toDieBody {carried : Bool} (h : Populated items st)
    (hstep : st.toDieBody false id = .ok (carried, st')) : Populated items st' := by
  obtain ⟨t, ht, hdead, -, ⟨-, -, -, rfl⟩ | ⟨-, -, -, rfl⟩⟩ :=
    SerializeState.toDieBody_cases hstep
  · exact h
  · -- the thread that is erased was dead
    have hlife : ∀ i, ((st.killed t).eraseThread id).life i =
        if i = id then none else st.life i := by
      intro i
      unfold SerializeState.life SerializeState.eraseThread
      dsimp only
      split
      · rfl
      · rw [SerializeState.threads_killed]
    constructor
    · intro i hd
      rw [hlife] at hd
      split at hd
      · simp at hd
      · exact h.dead i hd
    · intro i hb hn
      by_cases hi : i = id
      · rw [hi]
        exact h.dead id (by rw [SerializeState.life_of_some ht, hdead])
      · rw [hlife, if_neg hi] at hn
        exact h.gone i hb hn

end Populated

namespace Machine

section Population

variable {M : Type} [Mapper M] {env : Env} {mapper : M} {m : Machine M}

/-- **Who is there**, in every reached state. -/
theorem Reached.populated (h : Reached false env mapper m) :
    Populated m.input.read m.state := by
  refine h.invariant (I := fun m => Populated m.input.read m.state) (fun m hstart => ?_)
    fun m m' hm hI hstep => ?_
  · obtain ⟨-, hstate, hread⟩ := start_state hstart
    rw [hstate, hread]
    constructor
    · intro id hd
      simp [SerializeState.life, SerializeState.init] at hd
    · rintro id ⟨ev, hev, -⟩
      simp at hev
  · -- only a record and the loop over `to_die` change which threads there are
    rcases step_cases hstep with ⟨-, item, hadv, hcases⟩ | ⟨-, hinput, hcases⟩ |
      ⟨id, todo, next, carried, -, hinput, hst, -⟩ | ⟨next, -, hinput, -, hst⟩ | ⟨-, rfl⟩
    · rw [Input.advance_read hadv]
      rcases hcases with ⟨rfl, -, hst⟩ | ⟨-, ev, rfl, ⟨-, hst⟩ | ⟨htype, hst⟩⟩
      · rw [hst]
        exact hI.batchEnd
      · exact hI.bufArrives hst
      · exact hI.deathArrives htype hst
    · rw [hinput]
      rcases hcases with ⟨-, -, hst⟩ | ⟨-, id, heap, hheap, hst⟩
      · rw [hst]; exact hI
      · exact hI.of_life fun i => (SerializeState.life_drainBody hm.scheduled hheap hst i).1
    · rw [hinput]
      exact hI.toDieBody hst
    · rw [hinput, hst]
      exact hI.of_life fun i => rfl
    · exact hI

end Population

/-! ### No step is refused -/

section Steps

variable {env : Env} {b : UInt64} {data : List UInt8} {m : Machine ConstMapper}
  {i : Input ConstMapper}

/-- No record follows a death: the new record is not of a dead thread. -/
theorem not_hasRecord_death {items : List Item} {ev : OuterEvent}
    (h : (items ++ [Item.record ev]).Pairwise Item.NotDead) :
    ¬ HasRecord .death items ev.threadId := by
  rintro ⟨ev', hev, htype, hid⟩
  have hpair := (List.pairwise_append.mp h).2.2 _ hev (Item.record ev) (by simp)
  exact hpair htype hid.symm

/-- **A record** that was read is handled. -/
theorem Reached.records_ok (h : InUserSpace b data)
    (hlast : DeathsLast env (ConstMapper.ofBytes b data))
    (hi : Input.Reached env (ConstMapper.ofBytes b data) i) (hdec : i.Decodes env)
    (hm : Reached false env (ConstMapper.ofBytes b data) m) (hloc : m.loc = .records) :
    ∃ m', m.step false env = .ok m' := by
  have hend := hm.reads.goesOn hloc
  obtain ⟨item, input, hadv⟩ := hm.reads.input.advance_ok hend hi hdec.seenEnd
  have hinput := hm.reads.input.advance hend hadv
  have hread := Input.advance_read hadv
  have hahead := hinput.read_prefix_of_seenEnd hi hdec.seenEnd
  have hmem : input.mem = (ConstMapper.ofBytes b data).mem := hinput.mem_eq h
  have hgood := ((hm.reads.input.readsTrace h).advance h hend hadv).2
  rw [hread] at hahead
  simp only [Machine.step, hloc, stepRecords, hadv, ok_bind]
  cases item with
  | batchEnd => exact ⟨_, rfl⟩
  | record ev =>
    have hnodeath : ¬ HasRecord .death m.input.read ev.threadId :=
      not_hasRecord_death (by rw [← hread]; exact hlast input hinput)
    rcases Input.advance_type hadv with htype | htype
    · -- a buffer: its thread lives, and what it adds decodes
      have hp := hm.scheduled.placed_threadFor env ev.threadId
      have hbooks := hm.books h ev.threadId
      set t := m.state.threadFor env ev.threadId with ht
      have hdead : t.dead = false := by
        rw [ht]
        unfold SerializeState.threadFor
        cases hthread : m.state.threads ev.threadId with
        | none => rfl
        | some u =>
          by_contra hno
          have hlife := SerializeState.life_of_some hthread
          rw [show u.dead = true by simpa using hno] at hlife
          exact hnodeath (hm.populated.dead _ hlife)
      have harrives : ∃ st, m.state.bufArrives false env input.mem ev = .ok st := by
        unfold SerializeState.bufArrives
        rw [← SerializeState.threadFor, ← ht]
        simp only [check, hdead, Bool.not_false, Bool.or_true, if_true, ok_bind]
        by_cases hbufs : t.bufs = []
        · have hnone : t.activeStream = none := by
            by_contra hno
            exact hp.stream.mp (Option.isSome_iff_ne_none.mpr hno) hbufs
          obtain ⟨d, hd, hrec⟩ := hbooks
          have hidle : recorded env (ConstMapper.ofBytes b data).mem m.input.read ev.threadId =
              (m.state.eventsFor ev.threadId ++ [], .ok t.toThreadState) := by
            rw [hrec, afterwards, if_neg (by simp [hdead]), hd.idle hbufs]
            rfl
          obtain ⟨more, hmore⟩ := hahead
          obtain ⟨ts, hts⟩ := hdec.threads ev.threadId
          rw [hi.mem_eq h, ← hmore] at hts
          obtain ⟨ts', hts'⟩ := recorded_ok _ _ hts
          rw [Books.recorded_buf htype, hidle] at hts'
          have hr : Reading (ConstMapper.ofBytes b data).mem
              (SerializeState.started t (ConstMapper.ofBytes b data).mem ev)
              (bufBytes (ConstMapper.ofBytes b data).mem ev) := by
            refine ⟨⟨_, rfl, stands_constMemStream (hgood ev rfl htype)⟩, ⟨[], rfl⟩, fun e he => ?_⟩
            rw [List.mem_singleton.mp he]
            exact hgood ev rfl htype
          obtain ⟨ok, t', hupdate⟩ := FullThreadState.updateLastEvent_ok env.stack hr hts'
          rw [← hmem] at hupdate
          unfold SerializeState.started at hupdate
          simp only [hdead] at hupdate
          simp only [hbufs, hnone, List.isEmpty_nil, Option.isNone_none, Bool.or_true, if_true,
            ok_bind, List.nil_append, hupdate, pure_eq_ok]
          exact ⟨_, rfl⟩
        · have hne : t.bufs.isEmpty = false := by simpa using hbufs
          simp only [hne, Bool.false_eq_true, if_false, pure_eq_ok]
          exact ⟨_, rfl⟩
      obtain ⟨st, hst⟩ := harrives
      simp only [htype, hst, ok_bind, pure_eq_ok]
      exact ⟨_, rfl⟩
    · -- a death: its thread had a buffer, and did not die before
      obtain ⟨more, hmore⟩ := hahead
      have hbuf : HasRecord .buf m.input.read ev.threadId :=
        hdec.deaths m.input.read (.record ev) more (by rw [← hmore]; simp) htype
      have hlife : m.state.life ev.threadId = some false := by
        cases hl : m.state.life ev.threadId with
        | none => exact absurd (hm.populated.gone _ hbuf hl) hnodeath
        | some dead =>
          cases dead with
          | true => exact absurd (hm.populated.dead _ hl) hnodeath
          | false => rfl
      obtain ⟨t, ht, hdead⟩ := Option.map_eq_some_iff.mp hlife
      simp only [htype, SerializeState.deathArrives, ht, check, hdead, Bool.not_false, Bool.or_true,
        if_true, ok_bind, pure_eq_ok]
      exact ⟨_, rfl⟩

/-- **The drain loop** delivers the event of the thread at the top of the heap, or has it wait. -/
theorem Reached.drain_ok (h : InUserSpace b data)
    (honce : TokensUsedOnce env (ConstMapper.ofBytes b data))
    (hi : Input.Reached env (ConstMapper.ofBytes b data) i) (hdec : i.Decodes env)
    (hm : Reached false env (ConstMapper.ofBytes b data) m) (hloc : m.loc = .drain) :
    ∃ m', m.step false env = .ok m' := by
  cases hheap : m.state.heap with
  | nil => exact ⟨_, by rw [Machine.step, hloc]; simp only [stepDrain, hheap]; rfl⟩
  | cons id heap =>
    obtain ⟨t, ht, hstream, hbufs, -⟩ := hm.scheduled.front hheap
    have hbody : ∃ st, m.state.drainBody false env m.input.mem id = .ok st := by
      rw [SerializeState.drainBody_eq ht hstream hbufs]
      by_cases hperm : m.state.permitted env t = true
      · -- what the thread has left decodes, as all that was recorded for it does
        have hbooks := hm.books h id
        rw [SerializeState.threadFor_of_some ht] at hbooks
        obtain ⟨d, hd, hrec⟩ := hbooks
        obtain ⟨rest, hr, rfl⟩ := hd.reading hbufs
        obtain ⟨more, hmore⟩ := hm.reads.input.read_prefix_of_seenEnd hi hdec.seenEnd
        obtain ⟨ts, hts⟩ := hdec.threads id
        rw [hi.mem_eq h, ← hmore] at hts
        obtain ⟨ts', hts'⟩ := recorded_ok _ _ hts
        rw [hrec] at hts'
        have hrem : ∃ ts, (remaining (ConstMapper.ofBytes b data).mem t rest).2 = .ok ts := by
          unfold afterwards at hts'
          split at hts'
          · have hboth := Decoding.andThen_ok hts'
            exact hboth
          · exact ⟨ts', hts'⟩
        obtain ⟨ts'', hts''⟩ := hrem
        obtain ⟨ok, t', hupdate⟩ := FullThreadState.updateLastEvent_ok env.stack hr hts''
        rw [if_pos hperm, hm.mem_eq h, hupdate]
        cases ok with
        | true => exact ⟨_, rfl⟩
        | false => exact ⟨_, rfl⟩
      · have hnone := hm.lookup_eq_none h honce hheap ht
          (SerializeState.waitTok?_of_not_permitted (Bool.eq_false_iff.mpr hperm)).1
        rw [if_neg hperm, hnone]
        exact ⟨_, rfl⟩
    obtain ⟨st, hst⟩ := hbody
    refine ⟨{ m with state := st }, ?_⟩
    simp only [Machine.step, hloc, stepDrain, hheap, hst, ok_bind, pure_eq_ok]

/-- **Every step is made** on a trace that decodes, where no thread dies while it waits. -/
theorem Reached.step_ok (h : InUserSpace b data)
    (honce : TokensUsedOnce env (ConstMapper.ofBytes b data))
    (hlast : DeathsLast env (ConstMapper.ofBytes b data))
    (hi : Input.Reached env (ConstMapper.ofBytes b data) i) (hdec : i.Decodes env)
    (hm : Reached false env (ConstMapper.ofBytes b data) m) (hdying : m.DyingNotWaiting) :
    ∃ m', m.step false env = .ok m' := by
  cases hloc : m.loc with
  | records => exact hm.records_ok h hlast hi hdec hloc
  | drain => exact hm.drain_ok h honce hi hdec hloc
  | toDie todo next =>
    cases todo with
    | nil => exact ⟨_, by rw [Machine.step, hloc]; rfl⟩
    | cons id todo =>
      have hmem : id ∈ m.dying := by
        rw [Machine.dying, hloc]
        simp
      obtain ⟨t, ht, -⟩ := (hm.dying.mem_iff id).mp hmem
      exact hm.toDie_ok hloc ht (hdying id todo next t hloc ht)
  | returned => exact ⟨m, by rw [Machine.step, hloc]⟩

end Steps

end Machine

end MallocTraceReplay
