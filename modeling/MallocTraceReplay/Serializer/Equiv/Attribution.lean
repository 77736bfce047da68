import MallocTraceReplay.Lib.History
import MallocTraceReplay.Serializer.Equiv.Protocol
import MallocTraceReplay.Serializer.Equiv.Waiting

/-!
# The attribution of events

A reader of the calls takes an event to be of the current thread and of the current time.  A thread
that is killed in the drain loop stays in `recv_thread_id`, and a later thread with its id is not
switched to: its events come after the kill, and are of no thread.  They are attributed rightly in
exactly those runs whose deliveries avoid this (`attributed_iff_cacheFresh`).
-/

namespace MallocTraceReplay

open StepMachine MallocTraceEncoder History

/-! ### One call -/

/-- A call that delivers an event delivers the next one that a thread recorded, and what was said
before it names this thread, and the time that the thread had then. -/
def Sent.Attributed (seq : UInt64 → List TraceEvent) (before : List Sent) (s : Sent) : Prop :=
  ∀ ev, s.call = .event ev → ∃ id e,
    (seq id)[(before.filterMap (Sent.eventFor? id)).length]? = some e ∧ e.ev = ev ∧
      s.eventFor? id = some e ∧ currentThread (before.map Sent.call) = id ∧
      currentTime (before.map Sent.call) = (e.ts, e.cpu)

section Attributed

variable {seq seq' : UInt64 → List TraceEvent} {before sent extra : List Sent} {s : Sent}

theorem Sent.attributed_of_silent (h : s.call.Silent) : s.Attributed seq before := by
  intro ev hev
  rw [hev] at h
  exact h.elim

/-- What was recorded stays recorded. -/
theorem Sent.Attributed.mono (h : s.Attributed seq before) (hle : ∀ id, seq id <+: seq' id) :
    s.Attributed seq' before := by
  intro ev hev
  obtain ⟨id, e, hk, hrest⟩ := h ev hev
  exact ⟨id, e, getElem?_of_isPrefix (hle id) hk, hrest⟩

/-- Silent calls need no attribution. -/
theorem attributed_silent (h : ∀ s ∈ extra, s.call.Silent) :
    ForAllCuts (Sent.Attributed seq) (sent ++ extra) ↔ ForAllCuts (Sent.Attributed seq) sent :=
  forAllCuts_append_of_forall fun s hs _ => Sent.attributed_of_silent (h s hs)

end Attributed

/-! ### What is said for an event -/

namespace Talk

variable {k : Talk} {t : FullThreadState} {seq : UInt64 → List TraceEvent}

/-- **An event is attributed** to its thread unless the serializer remembers the thread and the
receiver has none. -/
theorem attributed_deliver (hk : k.InStep) (hid : t.threadId ≠ kInvalidThreadID)
    (hseq : (seq t.threadId)[(k.sent.filterMap (Sent.eventFor? t.threadId)).length]? =
      some t.current) :
    ForAllCuts (Sent.Attributed seq) (k.deliver t).sent ↔
      ForAllCuts (Sent.Attributed seq) k.sent ∧
        (t.threadId = k.recvThreadId → currentThread k.calls ≠ kInvalidThreadID) := by
  have hsent : (k.deliver t).sent =
      (k.sent ++ (k.switching t ++ k.timing t)) ++ [⟨.event t.lastEvent, some t.origin⟩] := by
    simp [deliver]
  -- a switch and a time stamp are no events, so only the event itself is in question
  have hquiet : ForAllCuts (Sent.Attributed seq) (k.sent ++ (k.switching t ++ k.timing t)) ↔
      ForAllCuts (Sent.Attributed seq) k.sent :=
    forAllCuts_append_of_forall fun s hs _ ev hev => absurd hev (switching_not_event s hs ev)
  have hown : ∀ id, Sent.eventFor? id ⟨.event t.lastEvent, some t.origin⟩ =
      if t.threadId = id then some t.current else none := fun id => rfl
  obtain ⟨hthread, htime, -⟩ := before_event hk t
  rw [List.append_assoc] at hthread htime
  rw [hsent, forAllCuts_concat, hquiet]
  refine and_congr_right fun _ => ⟨fun h hcache => ?_, fun hfresh ev hev => ?_⟩
  · -- the event is attributed to its own thread, which is then the current one
    obtain ⟨id, e, -, -, he, hcurrent, -⟩ := h _ rfl
    rw [hown] at he
    have hsame : t.threadId = id := by
      by_contra hne
      simp [if_neg hne] at he
    rw [hthread, if_neg (not_not.mpr hcache)] at hcurrent
    rw [hcurrent, ← hsame]
    exact hid
  · refine ⟨t.threadId, t.current, ?_, Call.event.inj hev, by rw [hown, if_pos rfl], ?_, htime⟩
    · rw [filterMap_eventFor?_append switching_not_event]
      exact hseq
    · rw [hthread]
      split
      · rfl
      · next hcache =>
        rw [not_not] at hcache
        rw [hcache]
        -- the thread that `recv_thread_id` names is current, if no kill came in between
        exact hk.thread.resolve_right (hfresh hcache)

end Talk

/-! ### Over whole runs -/

namespace Machine

section Runs

variable {env : Env} {b : UInt64} {data : List UInt8} {m m' : Machine ConstMapper}

/-- Every event delivered so far is attributed to the thread that recorded it. -/
def Attributed (env : Env) (m : Machine ConstMapper) : Prop :=
  ForAllCuts (Sent.Attributed (m.input.events env)) m.state.sent

/-- The drain loop is not about to deliver an event of a thread that it takes for the current one
after that was killed. -/
def CacheFresh (env : Env) (m : Machine ConstMapper) : Prop :=
  ∀ t, m.Delivers env t → t.threadId = m.state.recvThreadId →
    currentThread m.state.calls ≠ kInvalidThreadID

/-- A step reads on. -/
theorem Reached.events_step (h : InUserSpace b data)
    (hm : Reached false env (ConstMapper.ofBytes b data) m) (hstep : m.step false env = .ok m')
    (id : UInt64) : m.input.events env id <+: m'.input.events env id := by
  rw [Input.events, Input.events, hm.mem_eq h, (hm.step hstep).mem_eq h]
  rcases step_cases hstep with ⟨-, item, hadv, -⟩ | ⟨-, hinput, -⟩ | ⟨_, _, _, _, -, hinput, -⟩ |
    ⟨_, -, hinput, -⟩ | ⟨-, rfl⟩
  · rw [Input.advance_read hadv]
    exact prefix_recorded env _ _ _ id
  · rw [hinput]
  · rw [hinput]
  · rw [hinput]
  · exact List.prefix_refl _

/-- A run that returns makes every step on its way. -/
theorem Reached.step_of_returned {M : Type} [Mapper M] {mapper : M} {m r : Machine M}
    (hm : Reached false env mapper m) (hr : Reached false env mapper r)
    (hloc : r.loc = .returned) : ∃ m', m.step false env = .ok m' := by
  obtain ⟨n, hn⟩ := hm
  obtain ⟨n', hn'⟩ := hr
  obtain ⟨m₀, h₀, hn⟩ := bind_eq_ok.mp hn
  rw [serialize, h₀, ok_bind] at hn'
  have hfixed : r.step false env = .ok r := by rw [Machine.step, hloc]
  have hfar : iterate (Machine.step false env) (n' + (n + 1)) m₀ = .ok r := by
    rw [iterate_add, hn', ok_bind, iterate_fixed hfixed]
  obtain ⟨m', hm', -⟩ := iterate_le (show n + 1 ≤ n' + (n + 1) by omega) hfar
  rw [iterate_succ', hn, ok_bind] at hm'
  exact ⟨m', hm'⟩

/-- **What a step adds is attributed** exactly when the memory of the thread is fresh. -/
theorem Reached.attributed_step (h : InUserSpace b data)
    (hm : Reached false env (ConstMapper.ofBytes b data) m) (hstep : m.step false env = .ok m') :
    m'.Attributed env ↔
      ForAllCuts (Sent.Attributed (m'.input.events env)) m.state.sent ∧ m.CacheFresh env := by
  show ForAllCuts (Sent.Attributed (m'.input.events env)) m'.state.talk.sent ↔ _
  have hdeliver : ∀ {t : FullThreadState}, m.Delivers env t →
      (ForAllCuts (Sent.Attributed (m'.input.events env))
          ((m.state.talk.add (SerializeState.question t)).deliver t).sent ↔
        ForAllCuts (Sent.Attributed (m'.input.events env)) m.state.sent ∧ m.CacheFresh env) := by
    intro t hd
    obtain ⟨-, id, heap, hheap, ht, -⟩ := id hd
    obtain ⟨u, hu, -, hbufs, -⟩ := hm.scheduled.front hheap
    rw [ht] at hu
    obtain rfl := Option.some.inj hu
    obtain ⟨rfl, hinvalid⟩ := hm.threadId_ne ht
    have hnext := getElem?_of_isPrefix (hm.events_step h hstep _) (hm.current_mem h ht hbufs)
    -- the question about the token is no event
    have hquestion : ∀ s ∈ SerializeState.question t, ∀ ev, s.call ≠ .event ev := by
      intro s hs ev hev
      have hsilent := SerializeState.silent_question s hs
      rw [hev] at hsilent
      exact hsilent
    rw [Talk.attributed_deliver (hm.inStep.add SerializeState.silent_question) hinvalid]
    · refine and_congr (attributed_silent SerializeState.silent_question) ?_
      rw [Talk.currentThread_add SerializeState.silent_question]
      refine ⟨fun hfresh u hu => ?_, fun hfresh => hfresh t hd⟩
      rw [← hd.eq hu]
      exact hfresh
    · show _[((m.state.sent ++ SerializeState.question t).filterMap _).length]? = _
      rw [filterMap_eventFor?_append hquestion]
      exact hnext
  rcases talk_step hstep with ⟨hnone, extra, hextra, htalk⟩ | ⟨t, hd, -, htalk⟩ |
    ⟨t, t', hf, -, htalk⟩ | ⟨t, hk, htalk⟩
  · -- a silent step delivers nothing
    rw [htalk]
    refine (attributed_silent hextra).trans (and_iff_left ?_).symm
    exact fun t ht => absurd ht (hnone t).1
  · rw [htalk, hdeliver hd]
  · -- the kill after the event is none
    rw [htalk, ← hdeliver hf.1]
    exact forAllCuts_append_of_forall (by simp [Sent.Attributed])
  · rw [htalk]
    refine Iff.trans ?_ (and_iff_left fun t ht => (ht.not_kills hk).elim).symm
    exact forAllCuts_append_of_forall (by simp [Sent.Attributed])

/-- **Attribution**: in a run that returns, every event is delivered while the receiver is at the
thread and the time it was recorded at, exactly when the drain loop delivers no event of a thread
that it takes for the current one after that was killed. -/
theorem attributed_iff_cacheFresh (h : InUserSpace b data)
    (hdone : ∃ r, Reached false env (ConstMapper.ofBytes b data) r ∧ r.loc = .returned) :
    (∀ m, Reached false env (ConstMapper.ofBytes b data) m → m.Attributed env) ↔
      ∀ m, Reached false env (ConstMapper.ofBytes b data) m → m.CacheFresh env := by
  obtain ⟨r, hr, hloc⟩ := hdone
  constructor
  · intro hall m hm
    obtain ⟨m', hstep⟩ := hm.step_of_returned hr hloc
    exact ((hm.attributed_step h hstep).mp (hall m' (hm.step hstep))).2
  · intro hfresh m hm
    refine hm.invariant (I := fun m => m.Attributed env) (fun m hstart => ?_)
      fun m m' hm hI hstep => ?_
    · unfold Attributed
      rw [(start_state hstart).2.1]
      exact forAllCuts_nil
    · refine (hm.attributed_step h hstep).mpr ⟨hI.imp fun before s hs => ?_, hfresh m hm⟩
      exact hs.mono (hm.events_step h hstep)

end Runs

theorem attributed_iff_cacheFresh_waitingTrace :
    (∀ m, Reached false .tokenSet (ConstMapper.ofBytes 0x10000 waitingTrace) m →
        m.Attributed .tokenSet) ↔
      ∀ m, Reached false .tokenSet (ConstMapper.ofBytes 0x10000 waitingTrace) m →
        m.CacheFresh .tokenSet := by
  obtain ⟨r, hr, hloc⟩ := reached_of_map false .tokenSet
    (ConstMapper.ofBytes 0x10000 waitingTrace) 16 (f := Machine.loc) (a := .returned)
    (by decide +kernel)
  exact attributed_iff_cacheFresh ⟨by decide +kernel, by decide +kernel⟩ ⟨r, hr, hloc⟩

/-- A thread that dies, and another one with its id in the next batch. -/
def reusedIdTrace : List UInt8 :=
  writeTrace [.buf 1 0 0 [.tok 5 1024 1, .malloc 8], .death 1 0 0, .syncBarrier 0 0,
    .buf 1 0 0 [.tok 6 2048 1, .malloc 16], .end_]

/-- **An event of no thread**: the second thread is not switched to. -/
theorem not_attributed :
    ∃ m, Reached false .tokenSet (ConstMapper.ofBytes 0x10000 reusedIdTrace) m ∧
      m.loc = .returned ∧ ¬ m.Attributed .tokenSet := by
  obtain ⟨m, hm, hsee⟩ := reached_of_map false .tokenSet
    (ConstMapper.ofBytes 0x10000 reusedIdTrace) 12
    (f := fun m => (m.loc, m.state.sent))
    (a := (.returned, [⟨.switchThread 1, some ⟨1, 1024, 1⟩⟩, ⟨.setTS 1024 1, some ⟨1, 1024, 1⟩⟩,
      ⟨.event (.malloc 5 8), some ⟨1, 1024, 1⟩⟩, ⟨.killCurrentThread, some ⟨1, 0, 0⟩⟩,
      ⟨.barrier, none⟩, ⟨.setTS 2048 1, some ⟨1, 2048, 1⟩⟩,
      ⟨.event (.malloc 6 8), some ⟨1, 2048, 1⟩⟩, ⟨.barrier, none⟩])) (by decide +kernel)
  obtain ⟨hloc, hsent⟩ := Prod.mk.inj hsee
  refine ⟨m, hm, hloc, fun h => ?_⟩
  unfold Attributed at h
  rw [hsent] at h
  obtain ⟨id, e, -, -, he, hthread, -⟩ := h [⟨.switchThread 1, some ⟨1, 1024, 1⟩⟩,
    ⟨.setTS 1024 1, some ⟨1, 1024, 1⟩⟩, ⟨.event (.malloc 5 8), some ⟨1, 1024, 1⟩⟩,
    ⟨.killCurrentThread, some ⟨1, 0, 0⟩⟩, ⟨.barrier, none⟩,
    ⟨.setTS 2048 1, some ⟨1, 2048, 1⟩⟩] ⟨.event (.malloc 6 8), some ⟨1, 2048, 1⟩⟩
    [⟨.barrier, none⟩] rfl _ rfl
  have hid : id = kInvalidThreadID := hthread.symm
  subst hid
  have hnone : Sent.eventFor? kInvalidThreadID
      ⟨.event (.malloc 6 8), some ⟨1, 2048, 1⟩⟩ = none := by decide
  simp [hnone] at he

end Machine

end MallocTraceReplay
