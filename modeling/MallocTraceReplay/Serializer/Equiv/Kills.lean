import MallocTraceReplay.Serializer.Equiv.Unchecked
import MallocTraceReplay.Serializer.Equiv.Completeness

/-!
# One kill per death

What is owed to a dead thread is a kill.  The kills made for a thread id and the one still owed are
together the deaths of that id that were read (`Reached.kills_add_owed`); so, in the build without
assertions, a thread whose death was read is killed exactly once before it is erased, after its
last event, unless it waits to the end (`Reached.killed_once`).
-/

namespace MallocTraceReplay

open StepMachine MallocTraceEncoder

/-! ### Kills and deaths -/

/-- The thread that a call kills. -/
def Sent.kill? (s : Sent) : Option UInt64 :=
  match s.call, s.origin with
  | .killCurrentThread, some o => some o.threadId
  | _, _ => none

/-- The number of calls of `KillCurrentThread` for a thread id. -/
def SerializeState.kills (st : SerializeState) (id : UInt64) : ℕ :=
  (st.sent.filterMap Sent.kill?).count id

/-- The thread whose death an item is. -/
def Item.death? : Item → Option UInt64
  | .record ev => if ev.type = .death then some ev.threadId else none
  | .batchEnd => none

/-- The number of deaths of a thread id among some items. -/
def deaths (items : List Item) (id : UInt64) : ℕ := (items.filterMap Item.death?).count id

/-- Whether a thread is still to be killed. -/
def FullThreadState.owed (t : FullThreadState) : ℕ := if t.dead && !t.signalled then 1 else 0

/-- Whether there is a thread with the id that is still to be killed. -/
def SerializeState.owed (st : SerializeState) (id : UInt64) : ℕ :=
  ((st.threads id).map FullThreadState.owed).getD 0

/-- The kills made for a thread id, and the one that is owed. -/
def SerializeState.settled (st : SerializeState) (id : UInt64) : ℕ := st.kills id + st.owed id

theorem deaths_record_death {items : List Item} {ev : OuterEvent} (htype : ev.type = .death)
    (id : UInt64) : deaths (items ++ [.record ev]) id =
      deaths items id + if id = ev.threadId then 1 else 0 := by
  have hdeath : [Item.record ev].filterMap Item.death? = [ev.threadId] := by
    simp [Item.death?, htype]
  rw [deaths, deaths, List.filterMap_append, List.count_append, hdeath]
  by_cases hid : id = ev.threadId
  · simp [hid]
  · simp [hid, Ne.symm hid]

theorem deaths_of_ne {items : List Item} {item : Item} {id : UInt64}
    (h : ∀ ev, item = .record ev → ev.type = .death → ev.threadId ≠ id) :
    deaths (items ++ [item]) id = deaths items id := by
  rw [deaths, deaths, List.filterMap_append, List.count_append, Nat.add_eq_left,
    List.count_eq_zero, List.mem_filterMap]
  rintro ⟨item', hitem, hdeath⟩
  obtain rfl := List.mem_singleton.mp hitem
  cases item' with
  | batchEnd => simp [Item.death?] at hdeath
  | record ev =>
    by_cases htype : ev.type = .death
    · rw [Item.death?, if_pos htype] at hdeath
      exact h ev rfl htype (Option.some.inj hdeath)
    · simp [Item.death?, htype] at hdeath

namespace SerializeState

variable {env : Env} {mem : UInt64 → Option UInt8} {st st' : SerializeState} {id : UInt64}
  {t t' : FullThreadState}

/-! ### The kills of the parts of a step -/

theorem kills_of_sent (h : st'.sent = st.sent) (i : UInt64) : st'.kills i = st.kills i := by
  rw [kills, kills, h]

theorem kills_append (extra : List Sent) (h : st'.sent = st.sent ++ extra) (i : UInt64) :
    st'.kills i = st.kills i + (extra.filterMap Sent.kill?).count i := by
  rw [kills, kills, h, List.filterMap_append, List.count_append]

@[simp] theorem kills_asked (i : UInt64) : (st.asked t).kills i = st.kills i := by
  obtain ⟨extra, h, hextra⟩ := sent_asked st t
  have hnone : extra.filterMap Sent.kill? = [] := by
    rw [List.filterMap_eq_nil_iff]
    intro s hs
    obtain ⟨tok, rfl⟩ := hextra s hs
    rfl
  rw [kills_append extra h, hnone, List.count_nil, Nat.add_zero]

@[simp] theorem kills_delivered (i : UInt64) : (st.delivered t).kills i = st.kills i := by
  have hswitch : ((st.asked t).switchCalls t).filterMap Sent.kill? = [] := by
    unfold switchCalls
    rw [List.filterMap_append]
    split <;> split <;> rfl
  have hsent : (st.delivered t).sent = (st.asked t).sent ++
      ((st.asked t).switchCalls t ++ [⟨.event t.lastEvent, some t.origin⟩]) := by
    rw [delivered, deliver_eq, List.append_assoc]
  rw [kills_append _ hsent, kills_asked, List.filterMap_append, hswitch, List.nil_append]
  rfl

theorem kills_finishes (i : UInt64) : (st.finishes env id t t').kills i =
    st.kills i + if t'.dead ∧ t'.threadId = i then 1 else 0 := by
  rw [kills_append _ sent_finishes, kills_delivered]
  -- the thread that dies with its last event is killed there
  by_cases hdead : t'.dead = true
  · rw [if_pos hdead]
    by_cases hid : t'.threadId = i
    · simp [Sent.kill?, FullThreadState.origin, hdead, hid]
    · simp [Sent.kill?, FullThreadState.origin, hid]
  · rw [if_neg hdead, if_neg (fun h => hdead h.1)]
    rfl

theorem kills_killed (i : UInt64) : (st.killed t).kills i =
    st.kills i + if t.signalled = false ∧ t.threadId = i then 1 else 0 := by
  unfold killed
  by_cases hsig : t.signalled = true
  · rw [if_pos hsig, if_neg (fun h => by simp [hsig] at h), Nat.add_zero]
  · have hsent : ((st.send (.switchThread t.threadId) (some t.origin)).send .killCurrentThread
        (some t.origin)).sent = st.sent ++ [⟨.switchThread t.threadId, some t.origin⟩,
          ⟨.killCurrentThread, some t.origin⟩] := by simp
    rw [if_neg hsig]
    have hkill : [(⟨.switchThread t.threadId, some t.origin⟩ : Sent),
        ⟨.killCurrentThread, some t.origin⟩].filterMap Sent.kill? = [t.threadId] := rfl
    refine (kills_append _ hsent i).trans ?_
    rw [hkill, List.count_singleton]
    simp [hsig]

/-! ### What is owed -/

theorem owed_of_some (h : st.threads id = some t) : st.owed id = t.owed := by
  rw [owed, h]
  rfl

theorem owed_of_none (h : st.threads id = none) : st.owed id = 0 := by
  rw [owed, h]
  rfl

/-- Only dead threads are owed a kill. -/
theorem deadAt_of_owed (h : st.owed id ≠ 0) : st.DeadAt id := by
  cases ht : st.threads id with
  | none => exact absurd (owed_of_none ht) h
  | some t =>
    refine ⟨t, ht, ?_⟩
    by_contra hno
    rw [owed_of_some ht, FullThreadState.owed, if_neg (by simp [hno])] at h
    exact h rfl

/-- A step that touches one thread erases none. -/
theorem threads_ne_none (h : st'.threads = (st.setThread id t').threads) {i : UInt64}
    (hi : st.threads i ≠ none) : st'.threads i ≠ none := by
  rw [h]
  by_cases hid : i = id
  · rw [hid, threads_setThread_self]
    simp
  · rwa [threads_setThread_of_ne hid]

/-- A step that touches one thread. -/
theorem owed_update (h : st'.threads = (st.setThread id t').threads) (i : UInt64) :
    st'.owed i = if i = id then t'.owed else st.owed i := by
  unfold owed
  rw [h]
  by_cases hi : i = id
  · rw [if_pos hi, hi, threads_setThread_self, Option.map_some, Option.getD_some]
  · rw [if_neg hi, threads_setThread_of_ne hi]

/-- A step that touches one thread and leaves the account of it alone. -/
theorem settled_of_threads (h : st'.threads = (st.setThread id t').threads)
    (howed : t'.owed = st.owed id) (hkills : ∀ i, st'.kills i = st.kills i) (i : UInt64) :
    st'.settled i = st.settled i := by
  rw [settled, settled, hkills, owed_update h]
  by_cases hi : i = id
  · rw [if_pos hi, howed, hi]
  · rw [if_neg hi]

theorem settled_bufArrives {ev : OuterEvent} (h : st.bufArrives false env mem ev = .ok st')
    (i : UInt64) : st'.settled i = st.settled i := by
  obtain ⟨hdead, hcases⟩ := bufArrives_cases h
  -- nothing is owed to a thread that lives
  have hnone : st.owed ev.threadId = 0 := by
    unfold threadFor at hdead
    cases ht : st.threads ev.threadId with
    | none => exact owed_of_none ht
    | some t =>
      rw [ht, Option.getD_some] at hdead
      simp [owed_of_some ht, FullThreadState.owed, hdead]
  rcases hcases with ⟨-, rfl⟩ | ⟨-, ok, t', hupdate, rfl⟩
  · -- the thread is busy, and only its queue grows
    refine settled_of_threads rfl ?_ (fun _ => rfl) i
    rw [hnone, FullThreadState.owed, if_neg (by simp [hdead])]
  · -- the thread starts with this buffer
    have hu := FullThreadState.updateLastEvent_flags hupdate
    have howed : t'.owed = st.owed ev.threadId := by
      have hdead' : t'.dead = false := hu.dead.trans hdead
      rw [hnone, FullThreadState.owed, if_neg (by simp [hdead'])]
    cases ok with
    | true => exact settled_of_threads rfl howed (fun _ => rfl) i
    | false => exact settled_of_threads rfl howed (fun _ => rfl) i

/-- **A death** is owed a kill. -/
theorem settled_deathArrives {ev : OuterEvent} (hs : Scheduled st)
    (h : st.deathArrives false ev = .ok st') (i : UInt64) :
    st'.settled i = st.settled i + if i = ev.threadId then 1 else 0 := by
  obtain ⟨t, ht, hdead, rfl⟩ := deathArrives_cases h
  -- a living thread has not been killed
  have hsig : t.signalled = false := by
    by_contra hno
    have hdead' := ((hs.placed ht).signalled (by simpa using hno)).1
    simp [hdead] at hdead'
  have hkills : ({ st.setThread ev.threadId { t with dead := true } with
      toDie := st.toDie ++ [ev.threadId] } : SerializeState).kills i = st.kills i := rfl
  have howed : ({ st.setThread ev.threadId { t with dead := true } with
      toDie := st.toDie ++ [ev.threadId] } : SerializeState).owed i =
        if i = ev.threadId then ({ t with dead := true } : FullThreadState).owed else st.owed i :=
    owed_update rfl i
  rw [settled, settled, hkills, howed]
  by_cases hi : i = ev.threadId
  · rw [if_pos hi, if_pos hi, hi, owed_of_some ht]
    simp [FullThreadState.owed, hdead, hsig]
  · rw [if_neg hi, if_neg hi, Nat.add_zero]

theorem settled_addAllocated (hs : Scheduled st) (tok : UInt64) (i : UInt64) :
    (st.addAllocated env tok).settled i = st.settled i := by
  cases hwait : st.pendingFrees.lookup tok with
  | none => rw [Scheduled.addAllocated_of_none hwait]
  | some id =>
    obtain ⟨t, ht, -, heq⟩ := hs.addAllocated_of_some env hwait
    have howed := owed_of_some ht
    rw [heq]
    have hthreads : (st.addAllocated env tok).threads =
        (st.setThread id { t with inPendingFrees := false }).threads := by
      rw [heq]
      rfl
    rw [← heq]
    exact settled_of_threads hthreads howed.symm
      (fun i => kills_of_sent (sent_addAllocated tok) i) i

theorem settled_wake (hs : Scheduled st) (ev : InnerEvent) (i : UInt64) :
    (st.wake env ev).settled i = st.settled i := by
  unfold wake
  split
  · exact settled_addAllocated hs _ i
  · rfl

/-- **The drain loop** pays what is owed to a dead thread with its last event. -/
theorem settled_drainBody (hs : Scheduled st) {heap : List UInt64} (hheap : st.heap = id :: heap)
    (h : st.drainBody false env mem id = .ok st') (i : UInt64) :
    st'.settled i = st.settled i := by
  obtain ⟨t, ht, -, hbufs, ⟨-, ok, t', hupdate, rfl⟩ | ⟨-, -, rfl⟩⟩ := drainBody_cases h
  · -- an event is delivered, perhaps the last one of the thread
    have hu := FullThreadState.updateLastEvent_frame hbufs hupdate
    have howed : t'.owed = st.owed id := by
      rw [owed_of_some ht, FullThreadState.owed, FullThreadState.owed, hu.flags.dead,
        hu.flags.signalled]
    cases ok with
    | true =>
      rw [if_pos rfl, settled_wake (hs.goesOn hheap ht hu)]
      refine settled_of_threads Scheduled.goesOn_threads howed (fun i => ?_) i
      rw [kills_of_sent (sent_goesOn env st id t t'), kills_delivered]
    | false =>
      rw [if_neg (by simp), settled_wake (hs.finishes hheap ht hu), settled, settled,
        kills_finishes, owed_update Scheduled.finishes_threads]
      have hid : t'.threadId = id := hu.flags.threadId.trans (hs.placed ht).threadId
      -- it had buffers, so that it was not killed before
      have hsig : t'.signalled = false := by
        rw [hu.flags.signalled]
        by_contra hno
        exact hbufs ((hs.placed ht).signalled (by simpa using hno)).2
      by_cases hi : i = id
      · rw [if_pos hi, hi, ← howed, hid]
        cases hdead : t'.dead <;> simp [FullThreadState.owed, hdead, hsig]
      · have hne : ¬ (t'.dead = true ∧ t'.threadId = i) := fun h => hi (h.2.symm.trans hid)
        rw [if_neg hi, if_neg hne, Nat.add_zero]
  · -- the thread goes to sleep
    have hthreads : (st.blocks env id t).threads =
        (st.setThread id { t with inPendingFrees := true }).threads := by
      simp [blocks, setThread]
    have howed := owed_of_some ht
    have hsent : (st.blocks env id t).sent = (st.asked t).sent := rfl
    exact settled_of_threads hthreads howed.symm
      (fun i => (kills_of_sent hsent i).trans (kills_asked i)) i

/-- **The loop over `to_die`** pays what is owed to a thread and erases it. -/
theorem settled_toDieBody {carried : Bool} (hs : Scheduled st)
    (h : st.toDieBody false id = .ok (carried, st')) (i : UInt64) :
    st'.settled i = st.settled i := by
  obtain ⟨t, ht, hdead, -, ⟨-, -, -, rfl⟩ | ⟨-, -, -, rfl⟩⟩ := toDieBody_cases h
  · -- a thread that waits is carried over
    rfl
  · -- another one is killed, unless it was in the drain loop, and erased
    have hkills : ((st.killed t).eraseThread id).kills i = (st.killed t).kills i := rfl
    rw [settled, settled, hkills, kills_killed, (hs.placed ht).threadId]
    by_cases hi : i = id
    · have hgone : ((st.killed t).eraseThread id).threads id = none := by simp [eraseThread]
      rw [hi, owed_of_none hgone, owed_of_some ht]
      cases hsig : t.signalled <;> simp [FullThreadState.owed, hdead, hsig]
    · have hsame : ((st.killed t).eraseThread id).owed i = st.owed i := by
        simp [owed, eraseThread, hi]
      rw [hsame, if_neg (fun h => hi h.2.symm), Nat.add_zero]

end SerializeState

/-! ### Over whole runs -/

namespace Machine

variable {env : Env} {b : UInt64} {data : List UInt8} {m m' m₁ : Machine ConstMapper} {id : UInt64}

/-- **The account** is kept by every step: the kills made and owed for a thread id grow with the
deaths that are read. -/
theorem Sound.settled_step (hspace : InUserSpace b data) (h : Sound env b data m)
    (honce : TokensUsedOnce env (ConstMapper.ofBytes b data)) (hlives : m.NextLives env)
    (hstep : m.step true env = .ok m') (id : UInt64)
    (hI : m.state.settled id = deaths m.input.read id) :
    m'.state.settled id = deaths m'.input.read id := by
  rcases h.step_cases hspace honce hlives hstep with hfalse | ⟨_, _, _, _, -, -, -, rfl⟩
  · rcases Machine.step_cases hfalse with ⟨hloc, item, hadv, hcases⟩ | ⟨-, hinput, hcases⟩ |
      ⟨i, todo, next, carried, -, hinput, hst, -⟩ | ⟨next, -, hinput, -, hst⟩ | ⟨-, rfl⟩
    · -- the record loop: a death is owed a kill from now on
      rw [Input.advance_read hadv]
      rcases hcases with ⟨rfl, -, hst⟩ | ⟨-, ev, rfl, ⟨htype, hst⟩ | ⟨htype, hst⟩⟩
      · rw [deaths_of_ne (by simp), hst, hI]
      · rw [deaths_of_ne (by simp [htype]), SerializeState.settled_bufArrives hst, hI]
      · rw [deaths_record_death htype, SerializeState.settled_deathArrives h.scheduled hst, hI]
    · -- the drain loop
      rw [hinput]
      rcases hcases with ⟨-, -, hst⟩ | ⟨-, i, heap, hheap, hst⟩
      · rw [hst, hI]
      · rw [SerializeState.settled_drainBody h.scheduled hheap hst, hI]
    · rw [hinput, SerializeState.settled_toDieBody h.scheduled hst, hI]
    · -- the barrier after the loop over `to_die`
      have hkills : m'.state.kills id = m.state.kills id := by
        have hsent : m'.state.sent = m.state.sent ++ [⟨.barrier, none⟩] := by rw [hst]; rfl
        rw [SerializeState.kills_append _ hsent]
        rfl
      have howed : m'.state.owed id = m.state.owed id := by rw [hst]; rfl
      rw [hinput, SerializeState.settled, hkills, howed]
      exact hI
    · exact hI
  · -- the other build stops here, and no call is made
    exact hI

/-- The threads that were carried over to the next batch wait. -/
def CarriedWait (m : Machine ConstMapper) : Prop :=
  ∀ id, (match m.loc with
    | .records => False
    | .drain => False
    | .toDie _ next => id ∈ next
    | .returned => id ∈ m.state.toDie) →
      ∃ t, m.state.threads id = some t ∧ t.inPendingFrees = true

theorem CarriedWait.step {ndebug : Bool} (h : CarriedWait m) (hstep : m.step ndebug env = .ok m') :
    CarriedWait m' := by
  rcases Machine.step_cases hstep with ⟨-, item, -, hcases⟩ | ⟨-, -, hcases⟩ |
    ⟨i, todo, next, carried, hloc, -, hst, hloc'⟩ | ⟨next, hloc, -, hloc', hst⟩ | ⟨-, rfl⟩
  · -- before the loop over `to_die` nobody is carried over
    rcases hcases with ⟨-, hloc', -⟩ | ⟨hloc', -⟩
    · intro id hid
      simp [hloc'] at hid
    · intro id hid
      simp [hloc'] at hid
  · -- nor in the drain loop
    rcases hcases with ⟨-, hloc', -⟩ | ⟨hloc', -⟩
    · intro id hid
      simp [hloc'] at hid
    · intro id hid
      simp [hloc'] at hid
  · -- one thread of `to_die`: only one that waits is added, and no other one is erased
    have hbefore : ∀ id ∈ next, ∃ t, m.state.threads id = some t ∧ t.inPendingFrees = true :=
      fun id hid => h id (by simpa [hloc] using hid)
    intro id hid
    simp only [hloc'] at hid
    obtain ⟨t, ht, -, ⟨hflag, -, rfl, hst'⟩ | ⟨hflag, -, rfl, hst'⟩⟩ :=
      SerializeState.toDieBody_effect hst
    · rw [hst']
      rcases List.mem_append.mp hid with hid | hid
      · exact hbefore id hid
      · rw [List.mem_singleton.mp hid]
        exact ⟨t, ht, hflag⟩
    · obtain ⟨u, hu, hwaits⟩ := hbefore id hid
      have hne : id ≠ i := by
        rintro rfl
        rw [ht] at hu
        rw [← Option.some.inj hu, hflag] at hwaits
        exact absurd hwaits (by simp)
      rw [hst']
      exact ⟨u, by simpa [SerializeState.eraseThread, hne] using hu, hwaits⟩
  · -- the end of the loop: the threads carried over are `to_die` now
    have hbefore : ∀ id ∈ next, ∃ t, m.state.threads id = some t ∧ t.inPendingFrees = true :=
      fun id hid => h id (by simpa [hloc] using hid)
    intro id hid
    rw [hst]
    refine hbefore id ?_
    rw [hst] at hid
    by_cases hend : m.input.seenEnd = true
    · simpa [hloc', hend] using hid
    · simp [hloc', hend] at hid
  · exact h

theorem Reached.carriedWait {ndebug : Bool} {mapper : ConstMapper}
    (hm : Reached ndebug env mapper m) : CarriedWait m := by
  refine hm.invariant (fun m hstart => ?_) fun m m' _ hI hstep => hI.step hstep
  intro id hid
  simp [(start_state hstart).1] at hid

/-- What was said stays said. -/
theorem sent_step {M : Type} [Mapper M] {ndebug : Bool} {m m' : Machine M}
    (h : m.step ndebug env = .ok m') : m.state.sent <+: m'.state.sent := by
  show m.state.talk.sent <+: m'.state.talk.sent
  have hadd : ∀ (k : Talk) (extra : List Sent), k.sent <+: (k.add extra).sent :=
    fun k extra => List.prefix_append _ _
  have hdeliver : ∀ (k : Talk) (t : FullThreadState), k.sent <+: (k.deliver t).sent := by
    intro k t
    simp only [Talk.deliver, List.append_assoc]
    exact List.prefix_append _ _
  -- calls are added at the end, whatever the step does
  rcases talk_step h with ⟨-, extra, -, htalk⟩ | ⟨t, -, -, htalk⟩ | ⟨t, t', -, -, htalk⟩ |
    ⟨t, -, htalk⟩ <;> rw [htalk]
  · exact hadd _ _
  · exact (hadd _ _).trans (hdeliver _ _)
  · exact ((hadd _ _).trans (hdeliver _ _)).trans (hadd _ _)
  · exact hadd _ _

theorem kills_mono {M : Type} [Mapper M] {ndebug : Bool} {m m' : Machine M}
    (h : m.step ndebug env = .ok m') (id : UInt64) : m.state.kills id ≤ m'.state.kills id :=
  ((sent_step h).filterMap Sent.kill?).sublist.count_le id

/-- A dead thread is dead until it is erased, and no other death of it is read. -/
theorem Sound.dead_step (hspace : InUserSpace b data) (h : Sound env b data m)
    (honce : TokensUsedOnce env (ConstMapper.ofBytes b data)) (hlives : m.NextLives env)
    (hstep : m.step true env = .ok m') (hdead : m.state.DeadAt id) :
    (m'.state.DeadAt id ∨ m'.state.threads id = none) ∧
      deaths m'.input.read id = deaths m.input.read id := by
  rcases h.step_cases hspace honce hlives hstep with hfalse | ⟨_, _, _, _, -, -, -, rfl⟩
  · rcases Machine.step_cases hfalse with ⟨hloc, item, hadv, hcases⟩ | ⟨-, hinput, hcases⟩ |
      ⟨i, todo, next, carried, -, hinput, hst, -⟩ | ⟨next, -, hinput, -, hst⟩ | ⟨-, rfl⟩
    · rw [Input.advance_read hadv]
      rcases hcases with ⟨rfl, -, hst⟩ | ⟨-, ev, rfl, hcases⟩
      · rw [hst]
        exact ⟨Or.inl hdead, deaths_of_ne (by simp)⟩
      · -- the record is one of another thread
        have hne : ev.threadId ≠ id := by
          rintro rfl
          have hsame := h.reads.input.advance_eq hspace (h.reads.goesOn hloc) true
          exact hlives ev _ hloc (hsame.trans hadv) hdead
        refine ⟨Or.inl ?_, deaths_of_ne fun ev' hev _ => ?_⟩
        · rcases hcases with ⟨-, hst⟩ | ⟨-, hst⟩
          · exact (SerializeState.deadAt_bufArrives hst id).1.mpr hdead
          · obtain ⟨t, -, -, hst⟩ := SerializeState.deathArrives_cases hst
            obtain ⟨u, hu, hd⟩ := hdead
            refine ⟨u, ?_, hd⟩
            rw [hst]
            exact (SerializeState.threads_setThread_of_ne hne.symm).trans hu
        · rwa [← Item.record.inj hev]
    · -- the drain loop changes what a thread reads, not whether it lives
      rw [hinput]
      refine ⟨Or.inl ?_, rfl⟩
      rcases hcases with ⟨-, -, hst⟩ | ⟨-, i, heap, hheap, hst⟩
      · rwa [hst]
      · rw [SerializeState.deadAt_iff_life] at hdead ⊢
        rw [(SerializeState.life_drainBody h.scheduled hheap hst id).1, hdead]
    · -- the loop over `to_die` erases the thread, or another one
      rw [hinput]
      refine ⟨?_, rfl⟩
      obtain ⟨t, ht, -, -, ⟨-, -, -, hst'⟩ | ⟨-, -, -, hst'⟩⟩ :=
        SerializeState.toDieBody_cases hst
      · rw [hst']
        exact Or.inl hdead
      · rw [hst']
        by_cases hi : id = i
        · exact Or.inr (by simp [SerializeState.eraseThread, hi])
        · left
          obtain ⟨u, hu, hd⟩ := hdead
          exact ⟨u, by simpa [SerializeState.eraseThread, hi] using hu, hd⟩
    · rw [hinput, hst]
      exact ⟨Or.inl hdead, rfl⟩
    · exact ⟨Or.inl hdead, rfl⟩
  · exact ⟨Or.inl hdead, rfl⟩

/-- Nothing is delivered for a dead thread that was killed. -/
theorem Sound.silent_step (h : Sound env b data m) {ndebug : Bool}
    (hstep : m.step ndebug env = .ok m') (hdead : m.state.DeadAt id) (hpaid : m.state.owed id = 0) :
    m'.state.eventsFor id = m.state.eventsFor id := by
  rw [← SerializeState.project_deliveries, ← SerializeState.project_deliveries]
  rcases deliveries_step hstep with ⟨t, ⟨-, i, heap, hheap, ht, -⟩, hnew⟩ | ⟨-, hsame⟩
  · rw [hnew, Interleaving.project, Interleaving.project, List.filterMap_append]
    have hid := (h.scheduled.placed ht).threadId
    have hne : t.threadId ≠ id := by
      rintro rfl
      rw [hid] at hdead hpaid
      -- the thread at the front has buffers, so that it was not killed
      obtain ⟨u, hu, -, hbufs, -⟩ := h.scheduled.front hheap
      rw [ht] at hu
      obtain rfl := Option.some.inj hu
      have hsig : t.signalled = false := by
        by_contra hno
        exact hbufs ((h.scheduled.placed ht).signalled (by simpa using hno)).2
      rw [SerializeState.owed_of_some ht, FullThreadState.owed,
        (SerializeState.deadAt_iff ht).mp hdead, hsig] at hpaid
      simp at hpaid
    simp [hne]
  · rw [hsame]

variable (hspace : InUserSpace b data) (honce : TokensUsedOnce env (ConstMapper.ofBytes b data))
  (hnone : NoneWhileDying env (ConstMapper.ofBytes b data))

include hspace honce hnone

/-- **The kills made for a thread id and the one that is owed are the deaths read.** -/
theorem Reached.kills_add_owed (hm : Reached true env (ConstMapper.ofBytes b data) m)
    (id : UInt64) : m.state.kills id + m.state.owed id = deaths m.input.read id := by
  refine hm.invariant (I := fun m => m.state.settled id = deaths m.input.read id)
    (fun m hstart => ?_) fun m m' hm hI hstep =>
      (hm.sound hspace honce hnone).settled_step hspace honce (hnone m hm) hstep id hI
  obtain ⟨-, hstate, hread⟩ := start_state hstart
  rw [hstate, hread]
  rfl

omit hspace honce hnone

/-- The run goes on while a thread is there, at most up to the step that erases it. -/
inductive WhileThere (env : Env) (id : UInt64) (m : Machine ConstMapper) :
    Machine ConstMapper → Prop
  | refl : WhileThere env id m m
  | step {m' m'' : Machine ConstMapper} : WhileThere env id m m' →
      m'.state.threads id ≠ none → m'.step true env = .ok m'' → WhileThere env id m m''

/-- A run from `m`. -/
def Leads (env : Env) (m m' : Machine ConstMapper) : Prop :=
  Relation.ReflTransGen (fun m m' => Machine.step true env m = .ok m') m m'

/-- Either the thread is there up to the end of a run, or it was erased on the way. -/
theorem Leads.split (h : Leads env m m') :
    WhileThere env id m m' ∨
      ∃ m'', WhileThere env id m m'' ∧ m''.state.threads id = none ∧ Leads env m'' m' := by
  induction h with
  | refl => exact Or.inl .refl
  | @tail m₁ m₂ _ hstep ih =>
    rcases ih with hthere | ⟨m'', hthere, hgone, hleads⟩
    · by_cases hgone : m₁.state.threads id = none
      · exact Or.inr ⟨m₁, hthere, hgone, Relation.ReflTransGen.single hstep⟩
      · exact Or.inl (.step hthere hgone hstep)
    · exact Or.inr ⟨m'', hthere, hgone, hleads.tail hstep⟩

theorem WhileThere.trans (h : WhileThere env id m m') (h' : WhileThere env id m' m₁) :
    WhileThere env id m m₁ := by
  induction h' with
  | refl => exact h
  | step _ hsome hstep ih => exact .step ih hsome hstep

theorem WhileThere.reached {mapper : ConstMapper} (h : WhileThere env id m m')
    (hm : Reached true env mapper m) : Reached true env mapper m' := by
  induction h with
  | refl => exact hm
  | step _ _ hstep ih => exact ih.step hstep

theorem WhileThere.kills_mono (h : WhileThere env id m m') :
    m.state.kills id ≤ m'.state.kills id := by
  induction h with
  | refl => exact Nat.le_refl _
  | step _ _ hstep ih => exact ih.trans (Machine.kills_mono hstep id)

/-- A dead thread stays dead while it is there, and no other death of it is read. -/
theorem WhileThere.dead (hspace : InUserSpace b data)
    (honce : TokensUsedOnce env (ConstMapper.ofBytes b data))
    (hnone : NoneWhileDying env (ConstMapper.ofBytes b data)) (h : WhileThere env id m m')
    (hm : Reached true env (ConstMapper.ofBytes b data) m) (hdead : m.state.DeadAt id) :
    (m'.state.DeadAt id ∨ m'.state.threads id = none) ∧
      deaths m'.input.read id = deaths m.input.read id := by
  induction h with
  | refl => exact ⟨Or.inl hdead, rfl⟩
  | @step m' m'' hthere hsome hstep ih =>
    have hm' := hthere.reached hm
    have hdead' := ih.1.resolve_right hsome
    obtain ⟨hdead'', hsame⟩ := (hm'.sound hspace honce hnone).dead_step hspace honce
      (hnone m' hm') hstep hdead'
    exact ⟨hdead'', hsame.trans ih.2⟩

/-- What happens to a thread whose death was read last: it is killed at most once while it is
there, and nothing is delivered for it after that; it was killed when it is erased; and at the end
of a run it was erased, after exactly one kill, or waits in `pending_frees`. -/
structure KilledOnce (env : Env) (id : UInt64) (m : Machine ConstMapper) : Prop where
  atMostOnce : ∀ m', WhileThere env id m m' → m'.state.kills id ≤ m.state.kills id + 1
  lastly : ∀ m' m'', WhileThere env id m m' → m.state.kills id < m'.state.kills id →
    WhileThere env id m' m'' → m''.state.eventsFor id = m'.state.eventsFor id
  erased : ∀ m', WhileThere env id m m' → m'.state.threads id = none →
    m'.state.kills id = m.state.kills id + 1
  returned : ∀ m', Leads env m m' → m'.loc = .returned →
    (∃ m'', WhileThere env id m m'' ∧ m''.state.threads id = none ∧ Leads env m'' m' ∧
      m''.state.kills id = m.state.kills id + 1) ∨ ∃ tok, (tok, id) ∈ m'.state.pendingFrees

include hspace honce hnone

/-- **A dead thread that is owed a kill** is killed once. -/
theorem Reached.killedOnce (hm : Reached true env (ConstMapper.ofBytes b data) m)
    (hdead : m.state.DeadAt id) (howed : m.state.owed id = 1) : m.KilledOnce env id := by
  -- the death of the thread was the last one, so that the account stays as it is
  have haccount : ∀ {m'}, WhileThere env id m m' →
      m'.state.kills id + m'.state.owed id = m.state.kills id + 1 := by
    intro m' hthere
    rw [(hthere.reached hm).kills_add_owed hspace honce hnone, ← howed,
      hm.kills_add_owed hspace honce hnone, (hthere.dead hspace honce hnone hm hdead).2]
  have herased : ∀ m', WhileThere env id m m' → m'.state.threads id = none →
      m'.state.kills id = m.state.kills id + 1 := by
    intro m' hthere hgone
    have h := haccount hthere
    rwa [SerializeState.owed_of_none hgone, Nat.add_zero] at h
  refine ⟨fun m' hthere => ?_, fun m' m'' hthere hkilled hthere' => ?_, herased,
    fun m' hleads hloc => ?_⟩
  · have h := haccount hthere
    omega
  · -- once killed, the thread is owed nothing as long as it is there
    induction hthere' with
    | refl => rfl
    | @step m₁ m₂ hthere₁ hsome hstep ih =>
      have hall := hthere.trans hthere₁
      have hm₁ := hall.reached hm
      have hdead₁ := (hall.dead hspace honce hnone hm hdead).1.resolve_right hsome
      have h := haccount hall
      have hmono := hthere₁.kills_mono
      rw [(hm₁.sound hspace honce hnone).silent_step hstep hdead₁ (by omega), ih]
  · -- the thread was erased on the way, or is there at the end
    rcases hleads.split with hthere | ⟨m'', hthere, hgone, hrest⟩
    · rcases (hthere.dead hspace honce hnone hm hdead).1 with hdead' | hgone
      · -- a dead thread at the end was carried over, because it waits
        right
        have hm' := hthere.reached hm
        have hsound := hm'.sound hspace honce hnone
        have hmem := (hsound.dying.mem_iff id).mpr hdead'
        rw [dying_of_ne (by simp [hloc])] at hmem
        obtain ⟨t, ht, hflag⟩ := hm'.carriedWait id (by simpa [hloc] using hmem)
        exact (hsound.scheduled.placed ht).mem_pending.mpr hflag
      · exact Or.inl ⟨m', hthere, hgone, Relation.ReflTransGen.refl, herased m' hthere hgone⟩
    · exact Or.inl ⟨m'', hthere, hgone, hrest, herased m'' hthere hgone⟩

omit honce hnone in
/-- **A death that is read** is owed a kill. -/
theorem Sound.owed_death (h : Sound env b data m) {ev : OuterEvent} {input : Input ConstMapper}
    (hloc : m.loc = .records) (hadv : m.input.advance true env = .ok (.record ev, input))
    (htype : ev.type = .death) (hstep : m.step false env = .ok m₁) :
    m₁.state.DeadAt ev.threadId ∧ m₁.state.owed ev.threadId = 1 ∧
      m₁.state.kills ev.threadId = m.state.kills ev.threadId := by
  have hsame := h.reads.input.advance_eq hspace (h.reads.goesOn hloc) true
  rcases Machine.step_cases hstep with ⟨-, item, hadv', hcases⟩ | ⟨hloc', -⟩ |
    ⟨_, _, _, _, hloc', -⟩ | ⟨_, hloc', -⟩ | ⟨hloc', -⟩
  · -- the step reads this record
    rw [hsame, hadv'] at hadv
    obtain ⟨rfl, -⟩ := Prod.mk.inj (Except.ok.inj hadv)
    rcases hcases with ⟨hitem, -⟩ | ⟨-, ev', hitem, ⟨htype', -⟩ | ⟨-, hst⟩⟩
    · simp at hitem
    · rw [← Item.record.inj hitem, htype] at htype'
      simp at htype'
    · rw [← Item.record.inj hitem] at hst
      obtain ⟨t, ht, hdead, hst⟩ := SerializeState.deathArrives_cases hst
      have hat : m₁.state.threads ev.threadId = some { t with dead := true } := by
        rw [hst]
        exact SerializeState.threads_setThread_self
      have hsig : t.signalled = false := by
        by_contra hno
        have hdead' := ((h.scheduled.placed ht).signalled (by simpa using hno)).1
        simp [hdead] at hdead'
      refine ⟨⟨_, hat, rfl⟩, ?_, SerializeState.kills_of_sent (by rw [hst]; rfl) _⟩
      rw [SerializeState.owed_of_some hat, FullThreadState.owed, hsig]
      rfl
  all_goals simp [hloc] at hloc'

/-- **Only dead threads are killed.** -/
theorem Reached.deadAt_of_kill (hm : Reached true env (ConstMapper.ofBytes b data) m)
    (hstep : m.step true env = .ok m') (hkill : m'.state.kills id ≠ m.state.kills id) :
    m.state.DeadAt id := by
  have haccount := hm.kills_add_owed hspace honce hnone id
  have haccount' := (hm.step hstep).kills_add_owed hspace honce hnone id
  have hmono := kills_mono hstep id
  have hsilent : m'.state.sent ≠ m.state.sent :=
    fun hsent => hkill (SerializeState.kills_of_sent hsent id)
  -- with no other death read, one more kill is one that was owed
  have hother : m'.input = m.input → m.state.DeadAt id := by
    intro hinput
    rw [hinput] at haccount'
    exact SerializeState.deadAt_of_owed (by omega)
  rcases Machine.step_cases hstep with ⟨-, item, -, hcases⟩ | ⟨-, hinput, -⟩ |
    ⟨_, _, _, _, -, hinput, -⟩ | ⟨_, -, hinput, -⟩ | ⟨-, rfl⟩
  · -- the record loop says nothing
    refine absurd ?_ hsilent
    rcases hcases with ⟨-, -, hst⟩ | ⟨-, ev, -, ⟨-, hst⟩ | ⟨-, hst⟩⟩
    · rw [hst]
    · obtain ⟨-, ⟨-, hst⟩ | ⟨-, ok, t', -, hst⟩⟩ := SerializeState.bufArrives_effect hst
      · rw [hst]; rfl
      · rw [hst]; cases ok <;> rfl
    · obtain ⟨t, -, -, hst⟩ := SerializeState.deathArrives_effect hst
      rw [hst]; rfl
  · exact hother hinput
  · exact hother hinput
  · exact hother hinput
  · exact hother rfl

omit hspace honce hnone in
/-- **A thread that is erased** is neither in the heap nor in `pending_frees`. -/
theorem Sound.erased_unreferenced (h : Sound env b data m) (hstep : m.step false env = .ok m')
    (hthere : m.state.threads id ≠ none) (hgone : m'.state.threads id = none) :
    id ∉ m.state.heap ∧ id ∉ m'.state.heap ∧
      ∀ tok, (tok, id) ∉ m.state.pendingFrees ∧ (tok, id) ∉ m'.state.pendingFrees := by
  have hthreads : m'.state.threads id ≠ m.state.threads id := by
    rw [hgone]
    exact hthere.symm
  rcases Machine.step_cases hstep with ⟨-, item, -, hcases⟩ | ⟨-, -, hcases⟩ |
    ⟨i, todo, next, carried, hloc, -, hst, -⟩ | ⟨next, -, -, -, hst⟩ | ⟨-, rfl⟩
  · -- the record loop erases nobody
    rcases hcases with ⟨-, -, hst⟩ | ⟨-, ev, -, ⟨-, hst⟩ | ⟨-, hst⟩⟩
    · exact absurd (by rw [hst]) hthreads
    · obtain ⟨-, ⟨-, hst⟩ | ⟨-, ok, t', -, hst⟩⟩ := SerializeState.bufArrives_cases hst
      · exact absurd hgone (SerializeState.threads_ne_none (by rw [hst]) hthere)
      · exact absurd hgone
          (SerializeState.threads_ne_none (by rw [hst]; cases ok <;> rfl) hthere)
    · obtain ⟨t, -, -, hst⟩ := SerializeState.deathArrives_cases hst
      exact absurd hgone (SerializeState.threads_ne_none (by rw [hst]) hthere)
  · -- nor does the drain loop
    rcases hcases with ⟨-, -, hst⟩ | ⟨-, i, heap, hheap, hst⟩
    · exact absurd (by rw [hst]) hthreads
    · have hlife := (SerializeState.life_drainBody h.scheduled hheap hst id).1
      rw [SerializeState.life, SerializeState.life, hgone, Option.map_none] at hlife
      exact absurd (Option.map_eq_none_iff.mp hlife.symm) hthere
  · obtain ⟨t, ht, -, -, ⟨-, -, -, hst'⟩ | ⟨hflag, -, -, hst'⟩⟩ :=
      SerializeState.toDieBody_cases hst
    · exact absurd (by rw [hst']) hthreads
    · -- only the thread that the loop over `to_die` has come to is erased
      have hid : id = i := by
        by_contra hne
        exact hthreads (by rw [hst']; simp [SerializeState.eraseThread, hne])
      subst hid
      have hheap : m.state.heap = [] := by simpa [Drained, hloc] using h.drained
      have hnot := (h.scheduled.placed ht).not_pending hflag
      rw [hst']
      refine ⟨by simp [hheap], ?_, fun tok => ⟨hnot tok, ?_⟩⟩
      · show id ∉ (m.state.killed t).heap
        simp [hheap]
      · show (tok, id) ∉ (m.state.killed t).pendingFrees
        simpa using hnot tok
  · exact absurd (by rw [hst]; rfl) hthreads
  · exact absurd rfl hthreads

/-- **One kill per death**, without assertions, on a trace in which no record of a thread follows
its death until the thread is erased, and no token is used twice: a thread whose death is read is
killed once (`KilledOnce`); only dead threads are killed, and no id more often than it died; and
a thread that is erased is neither in the heap nor in `pending_frees`. -/
theorem Reached.killed_once (hm : Reached true env (ConstMapper.ofBytes b data) m) :
    (∀ ev input m₁, m.loc = .records → m.input.advance true env = .ok (.record ev, input) →
      ev.type = .death → m.step true env = .ok m₁ →
        m₁.state.kills ev.threadId = m.state.kills ev.threadId ∧
          m₁.KilledOnce env ev.threadId) ∧
      (∀ id, m.state.kills id ≤ deaths m.input.read id) ∧
      (∀ m' id, m.step true env = .ok m' → m'.state.kills id ≠ m.state.kills id →
        m.state.DeadAt id) ∧
      ∀ m' id, m.step true env = .ok m' → m.state.threads id ≠ none →
        m'.state.threads id = none →
          id ∉ m.state.heap ∧ id ∉ m'.state.heap ∧
            ∀ tok, (tok, id) ∉ m.state.pendingFrees ∧ (tok, id) ∉ m'.state.pendingFrees := by
  have hsound := hm.sound hspace honce hnone
  refine ⟨fun ev input m₁ hloc hadv htype hstep => ?_, fun id => ?_, fun m' id hstep hkill =>
    hm.deadAt_of_kill hspace honce hnone hstep hkill, fun m' id hstep hthere hgone => ?_⟩
  · rcases hsound.step_cases hspace honce (hnone m hm) hstep with hfalse |
      -- where a record is read both builds take the same step
      ⟨_, _, _, _, hloc', -⟩
    · obtain ⟨hdead, howed, hkills⟩ := hsound.owed_death hspace hloc hadv htype hfalse
      exact ⟨hkills, (hm.step hstep).killedOnce hspace honce hnone hdead howed⟩
    · simp [hloc] at hloc'
  · have haccount := hm.kills_add_owed hspace honce hnone id
    omega
  · rcases hsound.step_cases hspace honce (hnone m hm) hstep with hfalse |
      ⟨_, _, _, _, -, -, -, rfl⟩
    · exact hsound.erased_unreferenced hfalse hthere hgone
    · exact absurd hgone hthere

omit hspace honce hnone

/-! ### A run, computed -/

/-- Whether the next record is not one of a dead thread. -/
def nextLives (env : Env) (m : Machine ConstMapper) : Bool :=
  match m.loc with
  | .records =>
    match m.input.advance true env with
    | .ok (.record ev, _) => decide (m.state.life ev.threadId ≠ some true)
    | .ok (.batchEnd, _) => true
    | .error _ => true
  | .drain => true
  | .toDie _ _ => true
  | .returned => true

theorem nextLives_of (h : m.nextLives env = true) : m.NextLives env := by
  intro ev input hloc hadv hdead
  rw [SerializeState.deadAt_iff_life] at hdead
  simp [nextLives, hloc, hadv, hdead] at h

/-- A run that returns is looked through to its end. -/
theorem noneWhileDying_of {mapper : ConstMapper} (n : ℕ)
    (hend : (serialize true env mapper n).map (fun m => m.loc) = .ok .returned)
    (hall : ∀ k < n, (serialize true env mapper k).map (fun m => m.nextLives env) = .ok true) :
    NoneWhileDying env mapper := by
  rintro m ⟨k, hk⟩
  by_cases hlt : k < n
  · have hlives := hall k hlt
    rw [hk] at hlives
    exact nextLives_of (Except.ok.inj hlives)
  · -- once returned, the run stands still
    obtain ⟨m', hm', hloc⟩ := map_eq_ok.mp hend
    obtain ⟨m₀, h₀, hn⟩ := bind_eq_ok.mp hm'
    obtain ⟨j, rfl⟩ : ∃ j, k = n + j := ⟨k - n, by omega⟩
    have hfixed : m'.step true env = .ok m' := by rw [Machine.step, hloc]
    rw [serialize, h₀, ok_bind, iterate_add, hn, ok_bind, iterate_fixed hfixed] at hk
    rw [← Except.ok.inj hk]
    intro ev input hrecords
    simp [hloc] at hrecords

/-- The thread that died while it waited is killed when it has made its last delivery. -/
theorem killed_once_dyingTrace :
    ∃ m m₁ m', Reached true .tokenSet (ConstMapper.ofBytes 0x10000 dyingTrace) m ∧
      m.step true .tokenSet = .ok m₁ ∧ m₁.state.kills 1 = m.state.kills 1 ∧
      m₁.KilledOnce .tokenSet 1 ∧
      Reached true .tokenSet (ConstMapper.ofBytes 0x10000 dyingTrace) m' ∧
      m'.loc = .returned ∧ m'.state.kills 1 = 1 := by
  have hspace : InUserSpace 0x10000 dyingTrace := ⟨by decide +kernel, by decide +kernel⟩
  obtain ⟨i, hi, hmeets⟩ := Input.reached_of_map .tokenSet
    (ConstMapper.ofBytes 0x10000 dyingTrace) 5
    (f := fun i => i.meets .tokenSet [1, 2]) (a := true) (by decide +kernel)
  have hnone : NoneWhileDying .tokenSet (ConstMapper.ofBytes 0x10000 dyingTrace) :=
    noneWhileDying_of 14 (by decide +kernel) (by decide +kernel)
  obtain ⟨m, hm, hsee⟩ := reached_of_map true .tokenSet
    (ConstMapper.ofBytes 0x10000 dyingTrace) 1
    (f := fun m => (m.loc, (m.input.advance true .tokenSet).map fun r => r.1.death?,
      (m.step true .tokenSet).map fun _ => ()))
    (a := (.records, .ok (some 1), .ok ())) (by decide +kernel)
  obtain ⟨m', hm', hsee'⟩ := reached_of_map true .tokenSet
    (ConstMapper.ofBytes 0x10000 dyingTrace) 14
    (f := fun m => (m.loc, m.state.kills 1)) (a := (.returned, 1)) (by decide +kernel)
  simp only [Prod.mk.injEq] at hsee hsee'
  obtain ⟨hloc, hadv, hstep⟩ := hsee
  obtain ⟨⟨item, input⟩, hadv, hdeath⟩ := map_eq_ok.mp hadv
  obtain ⟨m₁, hstep, -⟩ := map_eq_ok.mp hstep
  cases item with
  | batchEnd => simp [Item.death?] at hdeath
  | record ev =>
    by_cases htype : ev.type = .death
    · obtain ⟨hkills, honce⟩ := (hm.killed_once hspace (hi.conditions hspace hmeets).1 hnone).1
        ev input m₁ hloc hadv htype hstep
      have hid : ev.threadId = 1 := by simpa [Item.death?, htype] using hdeath
      rw [hid] at hkills honce
      exact ⟨m, m₁, m', hm, hstep, hkills, honce, hm', hsee'.1, hsee'.2⟩
    · simp [Item.death?, htype] at hdeath

end Machine

end MallocTraceReplay
