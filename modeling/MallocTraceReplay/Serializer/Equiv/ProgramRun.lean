import MallocTraceReplay.Serializer.Equiv.Confluence
import MallocTraceReplay.Serializer.Equiv.Protocol
import MallocTraceReplay.Serializer.Equiv.WrittenTrace

/-!
# The run of a program, serialized

A program runs, and its events are written to a trace by thread, in any buffers, with any times and
barriers.  In the order in which they happened every token was allocated before it was consumed
(`ProgramRun`).  The serializer does not know this order, but delivers all events and returns
(`Machine.completes_run`), and its switches are such that replay accepts them
(`Machine.Reached.threadsAllowed_written`).
-/

namespace MallocTraceReplay

open StepMachine MallocTraceEncoder Interleaving History

/-- The events of some threads in the order in which they happened: a token is allocated before it
is consumed, and allocated and consumed at most once. -/
structure ProgramRun (events : UInt64 → List InnerEvent) (order : List (UInt64 × InnerEvent)) :
    Prop where
  interleaves : ∀ id, project id order = events id
  allocatedOnce : (order.filterMap fun entry => entry.2.newTok?).Nodup
  consumedOnce : (order.filterMap fun entry => entry.2.waitTok?).Nodup
  allocatedBefore : ForAllCuts (fun before entry => ∀ tok, entry.2.waitTok? = some tok →
    ∃ earlier ∈ before, earlier.2.newTok? = some tok) order
  notEmpty : ∀ entry ∈ order, entry.2.newTok? ≠ some kEmptyTok

/-- The event that a call is about. -/
def Call.event? : Call → Option InnerEvent
  | .event ev => some ev
  | .killCurrentThread | .switchThread _ | .setTS _ _ | .barrier | .hasAllocated _ => none

section Events

variable {events : UInt64 → List InnerEvent} {order : List (UInt64 × InnerEvent)}
  {seq : UInt64 → List TraceEvent}

/-- **Another order** of the same events, in which tokens are allocated before as well. -/
theorem ProgramRun.reorder (h : ProgramRun events order) {order' : List (UInt64 × InnerEvent)}
    (hproject : ∀ id, project id order' = events id)
    (hbefore : ForAllCuts (fun before entry => ∀ tok, entry.2.waitTok? = some tok →
      ∃ earlier ∈ before, earlier.2.newTok? = some tok) order') : ProgramRun events order' := by
  have hperm : order'.Perm order := perm_of_project fun id => by rw [hproject, h.interleaves]
  exact {
    interleaves := hproject
    allocatedOnce := (hperm.filterMap _).nodup_iff.mpr h.allocatedOnce
    consumedOnce := (hperm.filterMap _).nodup_iff.mpr h.consumedOnce
    allocatedBefore := hbefore
    notEmpty := fun entry hentry => h.notEmpty entry (hperm.subset hentry) }

/-- The beginning of a run is one. -/
theorem ProgramRun.of_prefix (h : ProgramRun events order) {past : List (UInt64 × InnerEvent)}
    (hpast : past <+: order) : ProgramRun (fun id => project id past) past where
  interleaves _ := rfl
  allocatedOnce := h.allocatedOnce.sublist (hpast.sublist.filterMap _)
  consumedOnce := h.consumedOnce.sublist (hpast.sublist.filterMap _)
  allocatedBefore := by
    obtain ⟨rest, rfl⟩ := hpast
    exact h.allocatedBefore.of_append
  notEmpty entry hentry := h.notEmpty entry (hpast.subset hentry)

/-- Tokens that come up once in the run come up once in the events by thread. -/
theorem usedOnce_of_order {f : InnerEvent → Option UInt64}
    (h : (order.filterMap fun entry => f entry.2).Nodup)
    (hseq : ∀ id, (seq id).map TraceEvent.ev = project id order) : UsedOnce f seq := by
  have hplace : ∀ {id : UInt64} {k : ℕ} {e : TraceEvent}, (seq id)[k]? = some e →
      (project id order)[k]? = some e.ev := by
    intro id k e he
    rw [← hseq, List.getElem?_map, he]
    rfl
  intro tok id id' k k' e e' he he' hf hf'
  exact project_unique h (hplace he) (hplace he') hf hf'

/-- The run puts the events of the threads in an order in which the tokens are supplied. -/
theorem ProgramRun.exists_feasible (h : ProgramRun events order)
    (hseq : ∀ id, (seq id).map TraceEvent.ev = project id order) :
    ∃ l, Feasible seq l ∧ l.map (fun entry => (entry.1, entry.2.ev)) = order := by
  obtain ⟨l, hproject, hmap⟩ := exists_interleaving id TraceEvent.ev order seq fun id => by
    rw [hseq, List.map_id]
  have hmap : l.map (fun entry => (entry.1, entry.2.ev)) = order := by simpa using hmap
  refine ⟨l, ⟨hproject, fun before entry after hcut => ?_⟩, hmap⟩
  have hordered : order = before.map (fun entry => (entry.1, entry.2.ev)) ++
      (entry.1, entry.2.ev) :: after.map fun entry => (entry.1, entry.2.ev) := by
    rw [← hmap, hcut, List.map_append, List.map_cons]
  have hbefore := h.allocatedBefore _ _ _ hordered
  unfold Supplied
  cases htok : entry.2.ev.waitTok? with
  | none => trivial
  | some tok =>
    obtain ⟨earlier, hmem, hnew⟩ := hbefore tok htok
    obtain ⟨entry', hmem', rfl⟩ := List.mem_map.mp hmem
    exact ⟨entry', hmem', hnew⟩

end Events

section Trace

variable {env : Env} {b : UInt64} {body : List TraceRecord} {order : List (UInt64 × InnerEvent)}
  {i : Input ConstMapper} {m : Machine ConstMapper}

namespace Input

/-- On the way through a trace its events are those of the records that have been read. -/
theorem Midway.map_events {done suffix : List TraceRecord}
    (h : i.Midway env b (writeTrace (body ++ [.end_])) body done suffix)
    (hspace : InUserSpace b (writeTrace (body ++ [.end_])))
    (hi : Reached env (ConstMapper.ofBytes b (writeTrace (body ++ [.end_]))) i) (id : UInt64) :
    (i.events env id).map TraceEvent.ev = innerEvents 0 0 (innerRecords id done) := by
  obtain ⟨t, hrecorded⟩ := h.events id
  rw [Input.events, hi.mem_eq hspace, hrecorded]
  exact recordsMean_map_ev id (.init env) done

/-- At the end of a trace its events are those of the run. -/
theorem Told.map_events (h : i.Told env b (writeTrace (body ++ [.end_])) body)
    (hspace : InUserSpace b (writeTrace (body ++ [.end_])))
    (hi : Reached env (ConstMapper.ofBytes b (writeTrace (body ++ [.end_]))) i) (id : UInt64) :
    (i.events env id).map TraceEvent.ev = innerEvents 0 0 (innerRecords id body) := by
  obtain ⟨t, hrecorded⟩ := h.events id
  rw [Input.events, hi.mem_eq hspace, hrecorded]
  exact recordsMean_map_ev id (.init env) body

/-- What has been read is the beginning of the trace. -/
theorem Reached.marks_prefix (hspace : InUserSpace b (writeTrace (body ++ [.end_])))
    (hbody : ProgramTrace body)
    (hi : Reached env (ConstMapper.ofBytes b (writeTrace (body ++ [.end_]))) i) :
    i.read.map Item.mark? <+: (body ++ [TraceRecord.end_]).map fun r => some r.mark := by
  obtain ⟨hmidway, htold⟩ := hi.midway_told hspace.fits hbody
  cases hend : i.seenEnd with
  | false =>
    obtain ⟨done, suffix, h⟩ := hmidway hend
    rw [h.marks, ← h.split, List.append_assoc, List.map_append]
    exact List.prefix_append _ _
  | true =>
    rw [(htold hend).marks]

/-- What a record is that has been read. -/
theorem mark?_record {ev : OuterEvent} {mark : Mark} (h : (Item.record ev).mark? = some mark) :
    (ev.type = .buf ∧ mark = .buf ev.threadId) ∨
      (ev.type = .death ∧ mark = .death ev.threadId) := by
  unfold Item.mark? at h
  dsimp only at h
  split at h
  · next htype => exact Or.inl ⟨htype, (Option.some.inj h).symm⟩
  · next htype => exact Or.inr ⟨htype, (Option.some.inj h).symm⟩
  · simp at h

theorem mark?_death {ev : OuterEvent} (h : ev.type = .death) :
    (Item.record ev).mark? = some (.death ev.threadId) := by
  unfold Item.mark?
  simp only [h]

theorem Reached.exists_mark (hspace : InUserSpace b (writeTrace (body ++ [.end_])))
    (hbody : ProgramTrace body)
    (hi : Reached env (ConstMapper.ofBytes b (writeTrace (body ++ [.end_]))) i) {item : Item}
    (hitem : item ∈ i.read) : ∃ mark, item.mark? = some mark := by
  have hmem := (hi.marks_prefix hspace hbody).subset (List.mem_map_of_mem hitem)
  obtain ⟨r, -, hr⟩ := List.mem_map.mp hmem
  exact ⟨r.mark, hr.symm⟩

/-- Nobody has a record after its death. -/
theorem Reached.pairwise_notDead (hspace : InUserSpace b (writeTrace (body ++ [.end_])))
    (hbody : ProgramTrace body)
    (hi : Reached env (ConstMapper.ofBytes b (writeTrace (body ++ [.end_]))) i) :
    i.read.Pairwise Item.NotDead := by
  -- what is said of the records is said of their marks, and of the `End` behind them
  have hlast : ((body ++ [TraceRecord.end_]).map fun r => some r.mark).Pairwise fun m later =>
      ∀ id, m = some (.death id) → later ≠ some (.buf id) ∧ later ≠ some (.death id) := by
    rw [List.pairwise_map]
    simp only [ne_eq, Option.some.injEq]
    refine List.pairwise_append.mpr ⟨hbody.deathsLast, List.pairwise_singleton .., ?_⟩
    intro r _ r' hr' id _
    rw [List.mem_singleton.mp hr']
    simp [TraceRecord.mark]
  -- what was read is a beginning of it
  have hread := hlast.sublist (hi.marks_prefix hspace hbody).sublist
  rw [List.pairwise_map] at hread
  refine hread.imp_of_mem fun {item later} _ hlater hnot => ?_
  cases item with
  | batchEnd => trivial
  | record ev =>
    cases later with
    | batchEnd => trivial
    | record ev' =>
      intro hdeath hid
      obtain ⟨hbuf, hdies⟩ := hnot ev.threadId (mark?_death hdeath)
      obtain ⟨mark, hmark⟩ := hi.exists_mark hspace hbody hlater
      rw [hmark] at hbuf hdies
      rcases mark?_record hmark with ⟨-, rfl⟩ | ⟨-, rfl⟩
      · exact hbuf (by rw [hid])
      · exact hdies (by rw [hid])

/-- Who dies has had a buffer. -/
theorem Reached.hadBuf (hspace : InUserSpace b (writeTrace (body ++ [.end_])))
    (hbody : ProgramTrace body)
    (hi : Reached env (ConstMapper.ofBytes b (writeTrace (body ++ [.end_]))) i) :
    ForAllCuts Item.HadBuf i.read := by
  intro before item after hcut
  cases item with
  | batchEnd => trivial
  | record ev =>
    intro hdeath
    -- the record that was read last is one of the body, with the same before it
    obtain ⟨rest, hrest⟩ := hi.marks_prefix hspace hbody
    rw [hcut, List.map_append, List.map_cons, List.append_assoc, List.cons_append,
      mark?_death hdeath] at hrest
    obtain ⟨earlier, more, hsplit, hearlier, hmore⟩ := List.map_eq_append_iff.mp hrest.symm
    obtain ⟨r, later, rfl, hr, -⟩ := List.map_eq_cons_iff.mp hmore
    have hmark : r.mark = .death ev.threadId := Option.some.inj hr
    have hcuts : ForAllCuts (fun before r => ∀ id, r.mark = .death id →
        ∃ earlier ∈ before, earlier.mark = .buf id) (body ++ [.end_]) :=
      forAllCuts_concat.mpr ⟨hbody.hadBuf, fun id hend => by simp [TraceRecord.mark] at hend⟩
    obtain ⟨r', hr', hbuf⟩ := hcuts _ _ _ hsplit _ hmark
    -- and what the body has before it was read
    have hmem : some (.buf ev.threadId) ∈ before.map Item.mark? := by
      rw [← hearlier, ← hbuf]
      exact List.mem_map_of_mem (f := fun r : TraceRecord => some r.mark) hr'
    obtain ⟨item', hitem', hmark'⟩ := List.mem_map.mp hmem
    cases item' with
    | batchEnd => simp [Item.mark?] at hmark'
    | record ev' =>
      rcases mark?_record hmark' with ⟨htype, hid⟩ | ⟨-, hid⟩
      · exact ⟨ev', hitem', htype, (Mark.buf.inj hid).symm⟩
      · simp at hid

/-- Where nobody dies in the trace, nobody has died. -/
theorem Reached.nobody_dead (hspace : InUserSpace b (writeTrace (body ++ [.end_])))
    (hbody : ProgramTrace body) (halive : ∀ r ∈ body, ∀ id, r.mark ≠ .death id)
    (hi : Reached env (ConstMapper.ofBytes b (writeTrace (body ++ [.end_]))) i) :
    ∀ ev, .record ev ∈ i.read → ev.type ≠ .death := by
  intro ev hev hdeath
  have hmem := (hi.marks_prefix hspace hbody).subset (List.mem_map_of_mem hev)
  obtain ⟨r, hr, hmark⟩ := List.mem_map.mp hmem
  rw [mark?_death hdeath] at hmark
  rcases List.mem_append.mp hr with hr | hr
  · exact halive r hr ev.threadId (Option.some.inj hmark)
  · rw [List.mem_singleton.mp hr] at hmark
    simp [TraceRecord.mark] at hmark

end Input

/-- **The trace of a run** meets the conditions that the serializer's completeness needs. -/
theorem ProgramRun.conditions
    (h : ProgramRun (fun id => innerEvents 0 0 (innerRecords id body)) order)
    (hspace : InUserSpace b (writeTrace (body ++ [.end_]))) (hbody : ProgramTrace body)
    (env : Env) :
    TokensUsedOnce env (ConstMapper.ofBytes b (writeTrace (body ++ [.end_]))) ∧
      TokensNotEmpty env (ConstMapper.ofBytes b (writeTrace (body ++ [.end_]))) ∧
      DeathsLast env (ConstMapper.ofBytes b (writeTrace (body ++ [.end_]))) ∧
      ∃ i l, Input.Reached env (ConstMapper.ofBytes b (writeTrace (body ++ [.end_]))) i ∧
        i.Decodes env ∧ Feasible (i.events env) l ∧
        l.map (fun entry => (entry.1, entry.2.ev)) = order := by
  -- the whole of the trace can be read
  obtain ⟨i, hi, hend⟩ := Input.exists_seenEnd env hspace.fits hbody
  have htold := (hi.midway_told hspace.fits hbody).2 hend
  -- what was told of a thread is its part of the order
  have hseq : ∀ id, (i.events env id).map TraceEvent.ev = project id order := fun id =>
    (htold.map_events hspace hi id).trans (h.interleaves id).symm
  obtain ⟨l, hfeasible, hmap⟩ := h.exists_feasible hseq
  refine ⟨fun i' hi' => ?_, fun i' hi' id e he htok => ?_,
    fun i' hi' => hi'.pairwise_notDead hspace hbody, i, l, hi,
    ⟨hend, fun id => ?_, hi.hadBuf hspace hbody⟩, hfeasible, hmap⟩
  · have hpart := hi'.events_prefix hspace hi hend
    exact ⟨(usedOnce_of_order h.allocatedOnce hseq).mono hpart,
      (usedOnce_of_order h.consumedOnce hseq).mono hpart⟩
  · have hmem : e.ev ∈ (i.events env id).map TraceEvent.ev :=
      List.mem_map_of_mem ((hi'.events_prefix hspace hi hend id).subset he)
    rw [hseq] at hmem
    exact h.notEmpty _ (mem_project.mp hmem) htok
  · obtain ⟨t, hrecorded⟩ := htold.events id
    rw [hi.mem_eq hspace, hrecorded]
    exact ⟨t, rfl⟩

namespace Machine

/-- The events that have been delivered, in their order, with the threads they are of. -/
def delivered {M : Type} (m : Machine M) : List (UInt64 × InnerEvent) :=
  m.state.deliveries.map fun entry => (entry.1, entry.2.ev)

/-- Nobody is dead, and nobody is about to die. -/
theorem Reached.nobody_dies (hspace : InUserSpace b (writeTrace (body ++ [.end_])))
    (hbody : ProgramTrace body) (halive : ∀ r ∈ body, ∀ id, r.mark ≠ .death id)
    (hm : Reached false env (ConstMapper.ofBytes b (writeTrace (body ++ [.end_]))) m) :
    (∀ id todo next, m.loc ≠ .toDie (id :: todo) next) ∧
      ∀ id t, m.state.threads id = some t → t.dead = false := by
  have hdead : ∀ id, ¬ m.state.DeadAt id := by
    intro id hdead
    obtain ⟨ev, hev, hdeath, -⟩ := hm.populated.dead id (SerializeState.deadAt_iff_life.mp hdead)
    exact hm.reads.input.nobody_dead hspace hbody halive ev hev hdeath
  refine ⟨fun id todo next hloc => hdead id ((hm.dying.mem_iff id).mp ?_), fun id t ht => ?_⟩
  · unfold Machine.dying
    rw [hloc]
    simp
  · by_contra hflag
    exact hdead id ⟨t, ht, by simpa using hflag⟩

/-- **All events of a run are delivered**, as another run of the program, and the serializer
returns, where no thread dies while it waits. -/
theorem completes_run (hf : env.Faithful) (hspace : InUserSpace b (writeTrace (body ++ [.end_])))
    (hbody : ProgramTrace body)
    (hrun : ProgramRun (fun id => innerEvents 0 0 (innerRecords id body)) order)
    (hdying : ∀ m, Reached false env (ConstMapper.ofBytes b (writeTrace (body ++ [.end_]))) m →
      m.DyingNotWaiting) :
    ∃ m, Reached false env (ConstMapper.ofBytes b (writeTrace (body ++ [.end_]))) m ∧
      m.loc = .returned ∧
      ProgramRun (fun id => innerEvents 0 0 (innerRecords id body)) m.delivered := by
  obtain ⟨honce, hne, hlast, i, l, hi, hdec, hfeasible, hmap⟩ := hrun.conditions hspace hbody env
  obtain ⟨m₀, hm₀, -⟩ := Input.exists_midway env body hspace.fits
  have hreached : ∀ n m, iterate (Machine.step false env) n ⟨.records, m₀, .init⟩ = .ok m →
      Reached false env (ConstMapper.ofBytes b (writeTrace (body ++ [.end_]))) m := fun n m hn =>
    ⟨n, by rw [serialize, start, hm₀]; exact hn⟩
  -- every step is taken, and leaves less to do
  obtain ⟨n, m, hn, hloc⟩ : ∃ n m,
      iterate (Machine.step false env) n ⟨.records, m₀, .init⟩ = .ok m ∧ m.loc = .returned := by
    apply iterate_reaches wellFounded_lt (work i.read.length l.length)
    intro n m hn hloc
    have hm := hreached n m hn
    obtain ⟨m', hstep⟩ := hm.step_ok hspace honce hlast hi hdec (hdying m hm)
    exact ⟨m', hstep, hm.work_lt hspace hi hdec.seenEnd hfeasible hloc hstep⟩
  have hm := hreached n m hn
  have htold := (hm.reads.input.midway_told hspace.fits hbody).2 (hm.seenEnd_of_returned hloc)
  have hseq : ∀ id, (m.input.events env id).map TraceEvent.ev = project id order := fun id =>
    (htold.map_events hspace hm.reads.input id).trans (hrun.interleaves id).symm
  obtain ⟨l', hfeasible', -⟩ := hrun.exists_feasible hseq
  have hall := hm.nothing_missing hspace hf honce hne hfeasible' hloc
  have hproject : ∀ id, project id m.delivered = (m.state.eventsFor id).map TraceEvent.ev := by
    intro id
    rw [← SerializeState.project_deliveries, delivered, project, project, List.filterMap_map,
      List.map_filterMap]
    refine List.filterMap_congr fun entry _ => ?_
    by_cases hid : entry.1 = id <;> simp [hid]
  refine ⟨m, hm, hloc, hrun.reorder (fun id => ?_) fun before entry after hcut tok htok => ?_⟩
  · rw [hproject, hall, hseq, hrun.interleaves]
  · obtain ⟨before', rest, hdeliveries, rfl, hrest⟩ := List.map_eq_append_iff.mp hcut
    obtain ⟨entry', after', rfl, rfl, -⟩ := List.map_eq_cons_iff.mp hrest
    have hsupplied := hm.supplied hf _ _ _ hdeliveries
    rw [Supplied, htok] at hsupplied
    obtain ⟨earlier, hmem, hnew⟩ := hsupplied
    exact ⟨_, List.mem_map_of_mem hmem, hnew⟩

/-- The calls about events are what has been delivered. -/
theorem Reached.filterMap_calls {M : Type} [Mapper M] {mapper : M} {m : Machine M}
    (hm : Reached false env mapper m) :
    m.state.calls.filterMap Call.event? = m.state.deliveries.map fun entry => entry.2.ev := by
  rw [SerializeState.calls, SerializeState.deliveries, List.filterMap_map, List.map_filterMap]
  refine List.filterMap_congr fun s hs => ?_
  have horigin := hm.event_origin s hs
  rw [Function.comp_apply, Sent.delivery?]
  cases hcall : s.call with
  | event ev =>
    obtain ⟨o, ho⟩ := horigin ev hcall
    simp [ho, Call.event?]
  | killCurrentThread | switchThread | setTS | barrier | hasAllocated => rfl

/-- **The switches of a trace without deaths** are allowed wherever they are made. -/
theorem Reached.threadsAllowed_written (hspace : InUserSpace b (writeTrace (body ++ [.end_])))
    (hbody : ProgramTrace body) (halive : ∀ r ∈ body, ∀ id, r.mark ≠ .death id)
    (hm : Reached false env (ConstMapper.ofBytes b (writeTrace (body ++ [.end_]))) m) :
    ThreadsAllowed m.state.calls := by
  refine hm.invariant (I := fun m => ThreadsAllowed m.state.calls) (fun m hstart => ?_)
    fun m m' hm hI hstep => ?_
  · rw [(start_state hstart).2.1]
    exact forAllCuts_nil
  · obtain ⟨hnobody, hnotDead⟩ := hm.nobody_dies hspace hbody halive
    refine (hm.threadsAllowed_step hstep).mpr ⟨hI, fun t hkills => ?_, fun t hfinishes => ?_⟩
    · obtain ⟨id, todo, next, hloc, -⟩ := hkills
      exact absurd hloc (hnobody id todo next)
    · obtain ⟨⟨-, id, heap, -, ht, -⟩, hdead, -⟩ := hfinishes
      simp [hnotDead id t ht] at hdead

end Machine

end Trace

end MallocTraceReplay
