import MallocTraceReplay.Serializer.Equiv.Accounting
import MallocTraceReplay.Serializer.Equiv.Death
import MallocTraceReplay.Replay.Equiv.Threads

/-!
# What the serializer tells the receiver about threads and time

The serializer remembers which thread and time it told the receiver last, and says nothing when they
are the same.  Its memory of the time is right.  Its memory of the thread is right or the receiver
has no current thread: a kill in the drain loop is not remembered (`InStep`).  Two claims of the
protocol go wrong through this, and each holds exactly when the steps stay away from it.
-/

namespace MallocTraceReplay

open StepMachine MallocTraceEncoder

/-! ### Ids of threads -/

/-- The id of a thread in a record has at most 61 bits. -/
theorem MemStream.next_threadId {M : Type} [Mapper M] {s s' : MemStream M} {stack : StackBytes}
    {ev ev' : OuterEvent} (h : s.next stack ev = .ok (true, ev', s')) :
    ev'.threadId ≠ kInvalidThreadID := by
  have hshift : ∀ w k : UInt64, 0 < k.toNat % 64 → w >>> k ≠ kInvalidThreadID := by
    intro w k hk heq
    have hlt := w.toNat_lt
    have := congrArg UInt64.toNat heq
    rw [UInt64.toNat_shiftRight, Nat.shiftRight_eq_div_pow,
      show kInvalidThreadID.toNat = 2 ^ 64 - 1 from rfl] at this
    have hhalf : w.toNat / 2 ^ (k.toNat % 64) ≤ w.toNat / 2 :=
      Nat.div_le_div_left (Nat.le_self_pow (by omega) 2) (by omega)
    omega
  obtain ⟨w, ⟨-, hid⟩ | ⟨-, hid⟩ | ⟨-, hid⟩⟩ := next_record h <;> rw [hid]
  · exact hshift w kTypeShift (by decide)
  · exact hshift w kExtTypeShift (by decide)
  · decide

/-! ### Sequences of calls -/

/-- The time of the receiver after a call. -/
def Call.time (current : UInt64 × UInt64) : Call → UInt64 × UInt64
  | .setTS ts cpu => (ts, cpu)
  | .killCurrentThread | .switchThread _ | .event _ | .barrier | .hasAllocated _ => current

/-- The arguments of the last `SetTS`. -/
def currentTime (calls : List Call) : UInt64 × UInt64 := calls.foldl Call.time (0, 0)

theorem currentTime_append (calls : List Call) (call : Call) :
    currentTime (calls ++ [call]) = call.time (currentTime calls) := by
  simp [currentTime]

/-- A call that says nothing about threads and time and delivers no event. -/
def Call.Silent : Call → Prop
  | .hasAllocated _ | .barrier => True
  | .killCurrentThread | .switchThread _ | .setTS .. | .event _ => False

theorem Call.Silent.ne_event {call : Call} (h : call.Silent) (ev : InnerEvent) :
    call ≠ .event ev := by
  rintro rfl
  exact h

/-- Silent calls change nothing. -/
theorem silent_append {calls extra : List Call} (h : ∀ call ∈ extra, call.Silent) :
    currentThread (calls ++ extra) = currentThread calls ∧
      currentTime (calls ++ extra) = currentTime calls ∧
      (ThreadsAllowed (calls ++ extra) ↔ ThreadsAllowed calls) := by
  induction extra using List.reverseRecOn with
  | nil => simp
  | append_singleton extra call ih =>
    obtain ⟨ihthread, ihtime, ihallowed⟩ := ih fun c hc => h c (List.mem_append_left _ hc)
    have hcall := h call (by simp)
    rw [← List.append_assoc, currentThread_append, currentTime_append, threadsAllowed_append,
      ihthread, ihtime, ihallowed]
    cases call with
    | hasAllocated | barrier => simp [Call.thread, Call.time, Call.Allowed]
    | killCurrentThread | switchThread | setTS | event => exact absurd hcall (by simp [Call.Silent])

/-! ### The conversation with the receiver -/

/-- What was said to the receiver, and what the serializer remembers of it. -/
structure Talk where
  sent : List Sent
  recvThreadId : UInt64
  recvTs : UInt64
  recvCpu : UInt64

namespace Talk

def calls (k : Talk) : List Call := k.sent.map Sent.call

/-- More calls. -/
def add (k : Talk) (extra : List Sent) : Talk := { k with sent := k.sent ++ extra }

/-- The switch of thread before an event of a thread. -/
def switching (k : Talk) (t : FullThreadState) : List Sent :=
  if t.threadId ≠ k.recvThreadId then [⟨.switchThread t.threadId, some t.origin⟩] else []

/-- The change of time before an event of a thread. -/
def timing (k : Talk) (t : FullThreadState) : List Sent :=
  if t.lastTs ≠ k.recvTs ∨ t.lastCpu ≠ k.recvCpu then
    [⟨.setTS t.lastTs t.lastCpu, some t.origin⟩] else []

theorem switching_not_event {k : Talk} {t : FullThreadState} :
    ∀ s ∈ k.switching t ++ k.timing t, ∀ ev, s.call ≠ .event ev := by
  intro s hs ev
  unfold switching timing at hs
  rcases List.mem_append.mp hs with hs | hs <;> split at hs
  · rw [List.mem_singleton.mp hs]; simp
  · simp at hs
  · rw [List.mem_singleton.mp hs]; simp
  · simp at hs

/-- The event of a thread is delivered. -/
def deliver (k : Talk) (t : FullThreadState) : Talk where
  sent := k.sent ++ k.switching t ++ k.timing t ++ [⟨.event t.lastEvent, some t.origin⟩]
  recvThreadId := t.threadId
  recvTs := t.lastTs
  recvCpu := t.lastCpu

/-- The current thread of the receiver is killed. -/
def kill (k : Talk) (t : FullThreadState) : Talk :=
  k.add [⟨.killCurrentThread, some t.origin⟩]

/-- A thread is switched to and killed. -/
def switchAndKill (k : Talk) (t : FullThreadState) : Talk :=
  { k.add [⟨.switchThread t.threadId, some t.origin⟩, ⟨.killCurrentThread, some t.origin⟩] with
    recvThreadId := kInvalidThreadID }

end Talk

namespace SerializeState

variable {env : Env} {mem : UInt64 → Option UInt8} {st st' : SerializeState} {id : UInt64}
  {t t' : FullThreadState}

def talk (st : SerializeState) : Talk where
  sent := st.sent
  recvThreadId := st.recvThreadId
  recvTs := st.recvTs
  recvCpu := st.recvCpu

/-- What `HasAllocated` is asked before an event of a thread. -/
def question (t : FullThreadState) : List Sent :=
  (t.lastEvent.waitTok?.map fun tok => ⟨.hasAllocated tok, none⟩).toList

theorem silent_question : ∀ s ∈ question t, s.call.Silent := by
  intro s hs
  unfold question at hs
  cases hw : t.lastEvent.waitTok? with
  | none => simp [hw] at hs
  | some tok =>
    rw [hw, Option.map_some, Option.toList_some, List.mem_singleton] at hs
    rw [hs]
    trivial

theorem talk_asked : (st.asked t).talk = st.talk.add (question t) := by
  unfold asked question
  cases t.lastEvent.waitTok? with
  | none => simp [Talk.add]
  | some tok => rfl

theorem talk_delivered : (st.delivered t).talk = (st.talk.add (question t)).deliver t := by
  rw [← talk_asked, delivered, deliver_eq]
  simp only [talk, Talk.deliver, switchCalls, Talk.switching, Talk.timing, ← List.append_assoc]
  rfl

theorem talk_goesOn : (st.goesOn env id t t').talk = (st.delivered t).talk := by
  unfold goesOn
  dsimp only
  split <;> rfl

theorem talk_finishes : (st.finishes env id t t').talk =
    if t'.dead then (st.delivered t).talk.kill t' else (st.delivered t).talk := by
  unfold finishes
  split <;> rfl

theorem talk_wake (ev : InnerEvent) : (st.wake env ev).talk = st.talk := by
  unfold wake addAllocated
  split
  · split
    · rfl
    · dsimp only
      split <;> rfl
  · rfl

theorem talk_killed (hsig : t.signalled = false) :
    (st.killed t).talk = st.talk.switchAndKill t := by
  unfold killed
  rw [hsig, if_neg (by simp)]
  simp [talk, Talk.switchAndKill, Talk.add, send]

/-- **What an iteration of the drain loop says.** -/
theorem talk_drainBody {ndebug : Bool} (h : st.drainBody ndebug env mem id = .ok st') :
    ∃ t, st.threads id = some t ∧
      ((st.permitted env t = false ∧ st'.talk = st.talk.add (question t)) ∨
        (st.permitted env t = true ∧ ∃ ok t', t.updateLastEvent env.stack mem = .ok (ok, t') ∧
          t'.dead = t.dead ∧ t'.threadId = t.threadId ∧
          st'.talk = if ok = false ∧ t.dead = true then
              ((st.talk.add (question t)).deliver t).kill t'
            else (st.talk.add (question t)).deliver t)) := by
  obtain ⟨t, ht, -, ⟨hperm, ok, t', hupdate, rfl⟩ | ⟨hperm, -, rfl⟩ | ⟨hperm, -, -, rfl⟩⟩ :=
    drainBody_effect h
  · have hu := FullThreadState.updateLastEvent_flags hupdate
    refine ⟨t, ht, Or.inr ⟨hperm, ok, t', hupdate, hu.dead, hu.threadId, ?_⟩⟩
    rw [talk_wake]
    cases ok with
    | true => rw [if_pos rfl, if_neg (by simp), talk_goesOn, talk_delivered]
    | false =>
      rw [if_neg (by simp), talk_finishes, talk_delivered, hu.dead]
      simp only [true_and]
  · exact ⟨t, ht, Or.inl ⟨hperm, talk_asked⟩⟩
  · exact ⟨t, ht, Or.inl ⟨hperm, talk_asked⟩⟩

end SerializeState

/-! ### What a step says -/

namespace Machine

variable {M : Type} [Mapper M] {env : Env} {mapper : M} {m m' : Machine M}

/-- The thread whose event the drain loop is going to deliver. -/
def Delivers (env : Env) (m : Machine M) (t : FullThreadState) : Prop :=
  m.loc = .drain ∧ ∃ id heap, m.state.heap = id :: heap ∧ m.state.threads id = some t ∧
    m.state.permitted env t = true

/-- A dead thread whose last event the drain loop is going to deliver; it is killed then. -/
def Finishes (env : Env) (m : Machine M) (t : FullThreadState) : Prop :=
  m.Delivers env t ∧ t.dead = true ∧
    ∃ t', t.updateLastEvent env.stack m.input.mem = .ok (false, t')

/-- A thread that the loop over `to_die` is going to kill. -/
def Kills (m : Machine M) (t : FullThreadState) : Prop :=
  ∃ id todo next, m.loc = .toDie (id :: todo) next ∧ m.state.threads id = some t ∧
    t.inPendingFrees = false ∧ t.signalled = false

section Locations

omit [Mapper M]

theorem not_kills (h : ∀ id todo next, m.loc ≠ .toDie (id :: todo) next) (t : FullThreadState) :
    ¬ m.Kills t := by
  rintro ⟨id, todo, next, hloc, -⟩
  exact h id todo next hloc

theorem not_delivers (h : m.loc ≠ .drain) (t : FullThreadState) : ¬ m.Delivers env t :=
  fun hd => h hd.1

end Locations

/-- **What a step says to the receiver**: questions and barriers; an event of a thread, with a
kill after its last one when it is dead; or a switch to a thread and a kill. -/
theorem talk_step {ndebug : Bool} (h : m.step ndebug env = .ok m') :
    ((∀ t, ¬ m.Delivers env t ∧ ¬ m.Kills t) ∧
      ∃ extra, (∀ s ∈ extra, s.call.Silent) ∧ m'.state.talk = m.state.talk.add extra) ∨
    (∃ t, m.Delivers env t ∧ ¬ m.Finishes env t ∧
      m'.state.talk = (m.state.talk.add (SerializeState.question t)).deliver t) ∨
    (∃ t t', m.Finishes env t ∧ t'.threadId = t.threadId ∧
      m'.state.talk = ((m.state.talk.add (SerializeState.question t)).deliver t).kill t') ∨
    (∃ t, m.Kills t ∧ m'.state.talk = m.state.talk.switchAndKill t) := by
  have hsame : m'.state.talk = m.state.talk →
      ∃ extra, (∀ s ∈ extra, s.call.Silent) ∧ m'.state.talk = m.state.talk.add extra := fun heq =>
    ⟨[], by simp, by rw [heq]; simp [Talk.add]⟩
  rcases step_cases h with ⟨hloc, item, -, hcases⟩ | ⟨hloc, -, hcases⟩ |
    ⟨id, todo, next, carried, hloc, -, hst, -⟩ | ⟨next, hloc, -, -, hst⟩ | ⟨hloc, rfl⟩
  · refine Or.inl ⟨fun t => ⟨not_delivers (by simp [hloc]) t, not_kills (by simp [hloc]) t⟩,
      hsame ?_⟩
    rcases hcases with ⟨-, -, hst⟩ | ⟨-, ev, -, ⟨-, hst⟩ | ⟨-, hst⟩⟩
    · rw [hst]
    · obtain ⟨-, ⟨-, hst⟩ | ⟨-, ok, t', -, hst⟩⟩ := SerializeState.bufArrives_effect hst
      · rw [hst]; rfl
      · rw [hst]; cases ok <;> rfl
    · obtain ⟨t, -, -, hst⟩ := SerializeState.deathArrives_effect hst
      rw [hst]; rfl
  · rcases hcases with ⟨hheap, -, hst⟩ | ⟨-, id, heap, hheap, hst⟩
    · refine Or.inl ⟨fun t => ⟨?_, not_kills (by simp [hloc]) t⟩, hsame (by rw [hst])⟩
      rintro ⟨-, id, heap, hheap', -⟩
      simp [hheap] at hheap'
    · obtain ⟨t, ht, ⟨hno, htalk⟩ | ⟨hperm, ok, t', hupdate, hdead, hid, htalk⟩⟩ :=
        SerializeState.talk_drainBody hst
      · -- the thread waits: there is only the question
        refine Or.inl ⟨fun u => ⟨?_, not_kills (by simp [hloc]) u⟩, _,
          SerializeState.silent_question, htalk⟩
        rintro ⟨-, id', heap', hheap', hu, hperm⟩
        rw [hheap] at hheap'
        rw [← (List.cons.inj hheap').1, ht] at hu
        rw [← Option.some.inj hu, hno] at hperm
        exact absurd hperm (by simp)
      · have hdelivers : m.Delivers env t := ⟨hloc, id, heap, hheap, ht, hperm⟩
        by_cases hkill : ok = false ∧ t.dead = true
        · -- the last event of a dead thread
          rw [if_pos hkill] at htalk
          obtain ⟨rfl, hd⟩ := hkill
          exact Or.inr (Or.inr (Or.inl ⟨t, t', ⟨hdelivers, hd, t', hupdate⟩, hid, htalk⟩))
        · -- the thread goes on, or it has not died
          rw [if_neg hkill] at htalk
          refine Or.inr (Or.inl ⟨t, hdelivers, ?_, htalk⟩)
          rintro ⟨-, hd, t'', hupdate'⟩
          rw [hupdate] at hupdate'
          exact hkill ⟨(Prod.mk.inj (Except.ok.inj hupdate')).1, hd⟩
  · have hnot : ∀ u, ¬ m.Delivers env u := not_delivers (by simp [hloc])
    have honly : ∀ {t u : FullThreadState}, m.state.threads id = some t → m.Kills u → u = t := by
      rintro t u ht ⟨id', todo', next', hloc', hu, -⟩
      obtain ⟨⟨rfl, -⟩, -⟩ : (id = id' ∧ todo = todo') ∧ next = next' := by
        simpa [hloc] using hloc'
      rw [ht] at hu
      exact (Option.some.inj hu).symm
    obtain ⟨t, ht, -, ⟨hflag, -, -, hst⟩ | ⟨hflag, -, -, hst⟩⟩ :=
      SerializeState.toDieBody_effect hst
    · -- the thread waits, and nothing is said
      refine Or.inl ⟨fun u => ⟨hnot u, fun hu => ?_⟩, hsame (by rw [hst])⟩
      obtain rfl := honly ht hu
      obtain ⟨id', todo', next', -, -, hflag', -⟩ := hu
      rw [hflag] at hflag'
      exact absurd hflag' (by simp)
    · have herase : m'.state.talk = (m.state.killed t).talk := by rw [hst]; rfl
      by_cases hsig : t.signalled = true
      · -- the thread was killed in the drain loop
        refine Or.inl ⟨fun u => ⟨hnot u, fun hu => ?_⟩, hsame ?_⟩
        · obtain rfl := honly ht hu
          obtain ⟨id', todo', next', -, -, -, hsig'⟩ := hu
          rw [hsig] at hsig'
          exact absurd hsig' (by simp)
        · rw [herase, SerializeState.killed, if_pos hsig]
      · -- the thread is switched to and killed
        have hsig : t.signalled = false := by simpa using hsig
        exact Or.inr (Or.inr (Or.inr ⟨t, ⟨id, todo, next, hloc, ht, hflag, hsig⟩,
          herase.trans (SerializeState.talk_killed hsig)⟩))
  · -- the barrier at the end of the batch
    refine Or.inl ⟨fun t => ⟨not_delivers (by simp [hloc]) t, not_kills (by simp [hloc]) t⟩,
      [⟨.barrier, none⟩], by simp [Call.Silent], ?_⟩
    rw [hst]
    rfl
  · exact Or.inl ⟨fun t => ⟨not_delivers (by simp [hloc]) t, not_kills (by simp [hloc]) t⟩,
      hsame rfl⟩

end Machine

/-! ### What the serializer remembers -/

namespace Talk

variable {k : Talk} {t : FullThreadState}

/-- The memory of the time is right; the memory of the thread is, unless there is none. -/
structure InStep (k : Talk) : Prop where
  thread : currentThread k.calls = k.recvThreadId ∨ currentThread k.calls = kInvalidThreadID
  time : currentTime k.calls = (k.recvTs, k.recvCpu)

theorem calls_add (extra : List Sent) : (k.add extra).calls = k.calls ++ extra.map Sent.call := by
  simp [calls, add]

theorem silent_map {extra : List Sent} (h : ∀ s ∈ extra, s.call.Silent) :
    ∀ call ∈ extra.map Sent.call, call.Silent := by
  intro call hcall
  obtain ⟨s, hs, rfl⟩ := List.mem_map.mp hcall
  exact h s hs

theorem currentThread_add {extra : List Sent} (h : ∀ s ∈ extra, s.call.Silent) :
    currentThread (k.add extra).calls = currentThread k.calls := by
  rw [calls_add]
  exact (silent_append (silent_map h)).1

theorem threadsAllowed_add {extra : List Sent} (h : ∀ s ∈ extra, s.call.Silent) :
    ThreadsAllowed (k.add extra).calls ↔ ThreadsAllowed k.calls := by
  rw [calls_add]
  exact (silent_append (silent_map h)).2.2

theorem InStep.add (hk : k.InStep) {extra : List Sent} (h : ∀ s ∈ extra, s.call.Silent) :
    (k.add extra).InStep := by
  obtain ⟨hthread, htime, -⟩ := @silent_append k.calls _ (silent_map h)
  refine ⟨?_, ?_⟩
  · rw [calls_add, hthread]
    exact hk.thread
  · rw [calls_add, htime]
    exact hk.time

/-- The calls up to the event of a thread: the receiver is switched to the thread, unless it is the
one remembered, and has its time. -/
theorem before_event (hk : k.InStep) (t : FullThreadState) :
    currentThread ((k.sent ++ k.switching t ++ k.timing t).map Sent.call) =
        (if t.threadId ≠ k.recvThreadId then t.threadId else currentThread k.calls) ∧
      currentTime ((k.sent ++ k.switching t ++ k.timing t).map Sent.call) =
        (t.lastTs, t.lastCpu) ∧
      (ThreadsAllowed ((k.sent ++ k.switching t ++ k.timing t).map Sent.call) ↔
        ThreadsAllowed k.calls ∧ (t.threadId ≠ k.recvThreadId →
          currentThread k.calls ≠ t.threadId ∧ t.threadId ≠ kInvalidThreadID)) := by
  -- the switch of thread comes first
  have hswitch : currentThread ((k.sent ++ k.switching t).map Sent.call) =
        (if t.threadId ≠ k.recvThreadId then t.threadId else currentThread k.calls) ∧
      currentTime ((k.sent ++ k.switching t).map Sent.call) = currentTime k.calls ∧
      (ThreadsAllowed ((k.sent ++ k.switching t).map Sent.call) ↔
        ThreadsAllowed k.calls ∧ (t.threadId ≠ k.recvThreadId →
          currentThread k.calls ≠ t.threadId ∧ t.threadId ≠ kInvalidThreadID)) := by
    unfold switching
    by_cases hid : t.threadId ≠ k.recvThreadId
    · rw [if_pos hid, if_pos hid, List.map_append, List.map_singleton, currentThread_append,
        currentTime_append, threadsAllowed_append]
      exact ⟨rfl, rfl, by simp [hid, Call.Allowed, calls]⟩
    · rw [if_neg hid, if_neg hid, List.append_nil]
      exact ⟨rfl, rfl, by simp [hid, calls]⟩
  -- then the time, which is no switch
  unfold timing
  by_cases hts : t.lastTs ≠ k.recvTs ∨ t.lastCpu ≠ k.recvCpu
  · rw [if_pos hts, List.map_append, List.map_singleton, currentThread_append,
      currentTime_append, threadsAllowed_append]
    exact ⟨hswitch.1, rfl, (and_iff_left trivial).trans hswitch.2.2⟩
  · rw [if_neg hts, List.append_nil]
    refine ⟨hswitch.1, ?_, hswitch.2.2⟩
    rw [not_or, not_not, not_not] at hts
    rw [hswitch.2.1, hk.time, hts.1, hts.2]

theorem calls_deliver : (k.deliver t).calls =
    (k.sent ++ k.switching t ++ k.timing t).map Sent.call ++ [.event t.lastEvent] := by
  simp [calls, deliver]

theorem currentThread_deliver (hk : k.InStep) : currentThread (k.deliver t).calls =
    if t.threadId ≠ k.recvThreadId then t.threadId else currentThread k.calls := by
  rw [calls_deliver, currentThread_append]
  exact (before_event hk t).1

/-- A switch before an event is to another thread. -/
theorem threadsAllowed_deliver (hk : k.InStep) (hid : t.threadId ≠ kInvalidThreadID) :
    ThreadsAllowed (k.deliver t).calls ↔ ThreadsAllowed k.calls := by
  rw [calls_deliver, threadsAllowed_append, (before_event hk t).2.2]
  constructor
  · exact fun h => h.1.1
  · refine fun h => ⟨⟨h, fun hne => ⟨fun heq => ?_, hid⟩⟩, trivial⟩
    rcases hk.thread with hthread | hthread
    · exact hne (heq.symm.trans hthread)
    · exact hid (heq.symm.trans hthread)

theorem InStep.deliver (hk : k.InStep) : (k.deliver t).InStep := by
  refine ⟨?_, ?_⟩
  · rw [currentThread_deliver hk]
    show _ = t.threadId ∨ _
    split
    · exact Or.inl rfl
    · next hid =>
      rw [not_not] at hid
      rw [hid]
      exact hk.thread
  · rw [calls_deliver, currentTime_append]
    exact (before_event hk t).2.1

theorem calls_kill : (k.kill t).calls = k.calls ++ [.killCurrentThread] := calls_add _

theorem threadsAllowed_kill : ThreadsAllowed (k.kill t).calls ↔
    ThreadsAllowed k.calls ∧ currentThread k.calls ≠ kInvalidThreadID := by
  rw [calls_kill, threadsAllowed_append]
  rfl

theorem InStep.kill (hk : k.InStep) : (k.kill t).InStep := by
  refine ⟨Or.inr ?_, ?_⟩
  · rw [calls_kill, currentThread_append]
    rfl
  · rw [calls_kill, currentTime_append]
    exact hk.time

theorem calls_switchAndKill : (k.switchAndKill t).calls =
    (k.calls ++ [.switchThread t.threadId]) ++ [.killCurrentThread] := by
  simp [calls, switchAndKill, add]

theorem threadsAllowed_switchAndKill (hid : t.threadId ≠ kInvalidThreadID) :
    ThreadsAllowed (k.switchAndKill t).calls ↔
      ThreadsAllowed k.calls ∧ currentThread k.calls ≠ t.threadId := by
  rw [calls_switchAndKill, threadsAllowed_append, threadsAllowed_append, currentThread_append]
  simp [Call.Allowed, Call.thread, hid]

theorem InStep.switchAndKill (hk : k.InStep) : (k.switchAndKill t).InStep := by
  refine ⟨Or.inr ?_, ?_⟩
  · rw [calls_switchAndKill, currentThread_append]
    rfl
  · rw [calls_switchAndKill, currentTime_append, currentTime_append]
    exact hk.time

end Talk

namespace Machine

variable {M : Type} [Mapper M] {env : Env} {mapper : M} {m m' : Machine M}

/-- **The memory of the serializer** over every run. -/
theorem Reached.inStep (h : Reached false env mapper m) : m.state.talk.InStep := by
  refine h.invariant (I := fun m => m.state.talk.InStep) (fun m hstart => ?_)
    fun m m' _ hI hstep => ?_
  · rw [(start_state hstart).2.1]
    exact ⟨Or.inl rfl, rfl⟩
  · rcases talk_step hstep with ⟨-, extra, hextra, htalk⟩ | ⟨t, -, -, htalk⟩ |
      ⟨t, t', -, -, htalk⟩ | ⟨t, -, htalk⟩ <;> rw [htalk]
    · exact hI.add hextra
    · exact (hI.add SerializeState.silent_question).deliver
    · exact (hI.add SerializeState.silent_question).deliver.kill
    · exact hI.switchAndKill

/-- No thread has the id that stands for none. -/
theorem Reached.threads_invalid (h : Reached false env mapper m) :
    m.state.threads kInvalidThreadID = none := by
  refine h.invariant (I := fun m => m.state.threads kInvalidThreadID = none)
    (fun m hstart => ?_) fun m m' hm hI hstep => ?_
  · rw [(start_state hstart).2.1]
    rfl
  · -- a step changes the entries of threads that are there
    have hset : ∀ {st : SerializeState} {id : UInt64} {t : FullThreadState},
        st.threads kInvalidThreadID = none → id ≠ kInvalidThreadID →
        (st.setThread id t).threads kInvalidThreadID = none := by
      intro st id t hst hid
      rw [SerializeState.threads_setThread_of_ne hid.symm, hst]
    have hne : ∀ {st : SerializeState} {id : UInt64} {t : FullThreadState},
        st.threads kInvalidThreadID = none → st.threads id = some t → id ≠ kInvalidThreadID := by
      rintro st id t hst ht rfl
      simp [hst] at ht
    have hwake : ∀ {st : SerializeState} (ev : InnerEvent), Scheduled st →
        st.threads kInvalidThreadID = none →
        (st.wake env ev).threads kInvalidThreadID = none := by
      intro st ev hs hst
      unfold SerializeState.wake
      split
      · cases hwait : st.pendingFrees.lookup (ev.newTok?.getD kEmptyTok) with
        | none => rw [Scheduled.addAllocated_of_none hwait]; exact hst
        | some id =>
          obtain ⟨t, ht, -, heq⟩ := hs.addAllocated_of_some env hwait
          rw [heq]
          exact hset hst (hne hst ht)
      · exact hst
    rcases step_cases hstep with ⟨-, item, hadv, hcases⟩ | ⟨-, -, hcases⟩ |
      ⟨id, todo, next, carried, -, -, hst, -⟩ | ⟨next, -, -, -, hst⟩ | ⟨-, rfl⟩
    · rcases hcases with ⟨-, -, hst⟩ | ⟨-, ev, rfl, ⟨-, hst⟩ | ⟨-, hst⟩⟩
      · rw [hst]; exact hI
      · -- an id that is shifted out of a word is not the invalid one
        have hid : ev.threadId ≠ kInvalidThreadID := by
          obtain ⟨ok, ev', s, hnext, -, ⟨rfl, -, -, hitem, -⟩ | ⟨hitem, -⟩⟩ :=
            Input.advance_cases hadv
          · obtain rfl := Item.record.inj hitem
            exact MemStream.next_threadId hnext
          · simp at hitem
        obtain ⟨-, ⟨-, hst⟩ | ⟨-, ok, t', -, hst⟩⟩ := SerializeState.bufArrives_cases hst
        · rw [hst]; exact hset hI hid
        · rw [hst]
          cases ok with
          | true => exact hset hI hid
          | false => exact hset hI hid
      · obtain ⟨t, ht, -, hst⟩ := SerializeState.deathArrives_cases hst
        rw [hst]
        exact hset hI (hne hI ht)
    · rcases hcases with ⟨-, -, hst⟩ | ⟨-, id, heap, hheap, hst⟩
      · rw [hst]; exact hI
      · have hs := hm.scheduled
        obtain ⟨t, ht, -, hbufs, ⟨-, ok, t', hupdate, hst⟩ | ⟨-, -, hst⟩⟩ :=
          SerializeState.drainBody_cases hst
        · -- the thread at the front of the heap is there
          have hu := FullThreadState.updateLastEvent_frame hbufs hupdate
          rw [hst]
          cases ok with
          | true =>
            refine hwake _ (hs.goesOn hheap ht hu) ?_
            rw [if_pos rfl, Scheduled.goesOn_threads]
            exact hset hI (hne hI ht)
          | false =>
            refine hwake _ (hs.finishes hheap ht hu) ?_
            rw [if_neg (by simp), Scheduled.finishes_threads]
            exact hset hI (hne hI ht)
        · rw [hst]
          simpa [SerializeState.blocks, SerializeState.setThread, hI] using (hne hI ht).symm
    · obtain ⟨t, ht, -, -, ⟨-, -, -, hst⟩ | ⟨-, -, -, hst⟩⟩ := SerializeState.toDieBody_cases hst
      · rw [hst]; exact hI
      · rw [hst]
        simp [SerializeState.eraseThread, hI]
    · rw [hst]; exact hI
    · exact hI

theorem Reached.threadId_ne (h : Reached false env mapper m) {id : UInt64} {t : FullThreadState}
    (ht : m.state.threads id = some t) : t.threadId = id ∧ t.threadId ≠ kInvalidThreadID := by
  have hid := (h.scheduled.placed ht).threadId
  refine ⟨hid, ?_⟩
  rw [hid]
  rintro rfl
  simp [h.threads_invalid] at ht

end Machine

end MallocTraceReplay
