import MallocTraceReplay.Serializer.Equiv.Switching

/-!
# The protocol with replay

Replay asserts that every switch is to another thread and that a kill finds a current thread.  The
kill in the drain loop leaves `recv_thread_id` as it is, and the loop over `to_die` switches without
looking at it: both assertions fail in some runs, and hold in those whose steps avoid these places
(`replaysThreads_iff_switchesSafely`).
-/

namespace MallocTraceReplay

open StepMachine MallocTraceEncoder Replay History

namespace Machine

section Unique

variable {M : Type} {env : Env} {m : Machine M} {t u : FullThreadState}

theorem Kills.eq (ht : m.Kills t) (hu : m.Kills u) : t = u := by
  obtain ⟨id, todo, next, hloc, ht, -⟩ := ht
  obtain ⟨id', todo', next', hloc', hu, -⟩ := hu
  obtain ⟨⟨rfl, -⟩, -⟩ : (id = id' ∧ todo = todo') ∧ next = next' := by simpa [hloc] using hloc'
  rw [ht] at hu
  exact Option.some.inj hu

theorem Delivers.eq (ht : m.Delivers env t) (hu : m.Delivers env u) : t = u := by
  obtain ⟨-, id, heap, hheap, ht, -⟩ := ht
  obtain ⟨-, id', heap', hheap', hu, -⟩ := hu
  rw [hheap] at hheap'
  rw [← (List.cons.inj hheap').1, ht] at hu
  exact Option.some.inj hu

theorem Delivers.not_kills (ht : m.Delivers env t) (hu : m.Kills u) : False := by
  obtain ⟨id, todo, next, hloc, -⟩ := hu
  simp [ht.1] at hloc

end Unique

/-! ### Switches and kills -/

section Switches

variable {M : Type} [Mapper M] {env : Env} {mapper : M} {m m' : Machine M}

/-- The step stays away from what the serializer forgets: the loop over `to_die` does not kill the
receiver's current thread, and the drain loop does not end a dead thread that it takes for the
current one after that was killed. -/
def SwitchesSafely (env : Env) (m : Machine M) : Prop :=
  (∀ t, m.Kills t → currentThread m.state.calls ≠ t.threadId) ∧
    ∀ t, m.Finishes env t → t.threadId = m.state.recvThreadId →
      currentThread m.state.calls ≠ kInvalidThreadID

/-- What a step adds is allowed exactly when the step stays away from it. -/
theorem Reached.threadsAllowed_step (h : Reached false env mapper m)
    (hstep : m.step false env = .ok m') :
    ThreadsAllowed m'.state.calls ↔ ThreadsAllowed m.state.calls ∧ m.SwitchesSafely env := by
  have hid : ∀ {t : FullThreadState}, m.Delivers env t → t.threadId ≠ kInvalidThreadID := by
    rintro t ⟨-, id, heap, -, ht, -⟩
    exact (h.threadId_ne ht).2
  rcases talk_step hstep with ⟨hnone, extra, hextra, htalk⟩ | ⟨t, hd, hnot, htalk⟩ |
    ⟨t, t', hf, -, htalk⟩ | ⟨t, hk, htalk⟩
  · -- a silent step: nothing is delivered and nobody is killed
    have hsafe : m.SwitchesSafely env :=
      ⟨fun t ht => absurd ht (hnone t).2, fun t ht => absurd ht.1 (hnone t).1⟩
    show ThreadsAllowed m'.state.talk.calls ↔ _
    rw [htalk, Talk.threadsAllowed_add hextra]
    exact (and_iff_left hsafe).symm
  · -- an event is delivered, and its thread lives on
    have hsafe : m.SwitchesSafely env := by
      refine ⟨fun u hu => (hd.not_kills hu).elim, fun u hu => ?_⟩
      rw [← hd.eq hu.1] at hu
      exact absurd hu hnot
    show ThreadsAllowed m'.state.talk.calls ↔ _
    rw [htalk, Talk.threadsAllowed_deliver (h.inStep.add SerializeState.silent_question) (hid hd),
      Talk.threadsAllowed_add SerializeState.silent_question]
    exact (and_iff_left hsafe).symm
  · -- the last event of a dead thread: the kill follows it on the thread that it was delivered on
    show ThreadsAllowed m'.state.talk.calls ↔ _
    rw [htalk, Talk.threadsAllowed_kill,
      Talk.threadsAllowed_deliver (h.inStep.add SerializeState.silent_question) (hid hf.1),
      Talk.threadsAllowed_add SerializeState.silent_question,
      Talk.currentThread_deliver (h.inStep.add SerializeState.silent_question),
      Talk.currentThread_add SerializeState.silent_question]
    refine and_congr_right fun _ => ⟨fun hne => ⟨fun u hu => (hf.1.not_kills hu).elim, ?_⟩, ?_⟩
    · -- a thread that was cached gets no switch, so its kill meets the thread that was current
      rintro u hu hcache
      obtain rfl := hf.1.eq hu.1
      rwa [if_neg (by exact not_not.mpr hcache)] at hne
    · intro hsafe
      split
      · exact hid hf.1
      · next hcache => exact hsafe.2 t hf (not_not.mp hcache)
  · -- a kill in the loop over `to_die` has its own switch
    obtain ⟨id, todo, next, hloc, ht, -⟩ := id hk
    show ThreadsAllowed m'.state.talk.calls ↔ _
    rw [htalk, Talk.threadsAllowed_switchAndKill (h.threadId_ne ht).2]
    refine and_congr_right fun _ => ⟨fun hne => ⟨fun u hu => ?_, ?_⟩, fun hsafe => hsafe.1 t hk⟩
    · rw [← hk.eq hu]
      exact hne
    · exact fun u hu => (hu.1.not_kills hk).elim

/-- Where the step does not stay away, it is made. -/
theorem Reached.step_of_not_safe (h : Reached false env mapper m)
    (hrisk : ¬ m.SwitchesSafely env) : ∃ m', m.step false env = .ok m' := by
  unfold SwitchesSafely at hrisk
  rw [not_and_or] at hrisk
  push Not at hrisk
  rcases hrisk with ⟨t, ⟨id, todo, next, hloc, ht, hflag, -⟩, -⟩ |
    ⟨t, ⟨⟨hloc, id, heap, hheap, ht, hperm⟩, -, t', hupdate⟩, -⟩
  · exact h.toDie_ok hloc ht hflag
  · obtain ⟨u, hu, hstream, hbufs, -⟩ := h.scheduled.front hheap
    rw [ht] at hu
    obtain rfl := Option.some.inj hu
    simp only [Machine.step, hloc, stepDrain, hheap,
      SerializeState.drainBody_eq ht hstream hbufs, hperm, if_true, hupdate, ok_bind, pure_eq_ok]
    exact ⟨_, rfl⟩

/-- **The protocol with replay**: in every state of a run replay can execute the switches and
kills, exactly when every step of the run stays away from what the serializer forgets.  They are
the thread instructions that the receiver of postprocessing writes. -/
theorem replaysThreads_iff_switchesSafely (a : Allocator) (env : Env) (mapper : M) :
    ((∀ m, Reached false env mapper m → ReplaysThreads a m.state.calls) ↔
      ∀ m, Reached false env mapper m → m.SwitchesSafely env) ∧
    ∀ m r, Reached false env mapper m → SimpleReceiver.init.receiveAll m.state.calls = .ok r →
      (ReplaysThreads a m.state.calls ↔
        ∃ s, State.init.replayAll a (r.out.filter Instruction.isThread) = .ok s) := by
  refine ⟨⟨?_, ?_⟩, fun m r _ hreceived => ?_⟩
  · intro hall m hm
    by_contra hrisk
    obtain ⟨m', hstep⟩ := hm.step_of_not_safe hrisk
    have hallowed := (replaysThreads_iff a _).mp (hall m' (hm.step hstep))
    exact hrisk ((hm.threadsAllowed_step hstep).mp hallowed).2
  · intro hsafe m hm
    rw [replaysThreads_iff]
    refine hm.invariant (I := fun m => ThreadsAllowed m.state.calls) (fun m hstart => ?_)
      fun m m' hm hI hstep => (hm.threadsAllowed_step hstep).mpr ⟨hI, hsafe m hm⟩
    rw [(start_state hstart).2.1]
    exact forAllCuts_nil
  · rw [SimpleReceiver.receiveAll_out hreceived]
    exact Iff.rfl

end Switches

/-- A thread that allocates, and dies in a later batch with no other thread in between. -/
def lateDeathTrace : List UInt8 :=
  writeTrace [.buf 1 0 0 [.tok 5 1024 1, .malloc 8], .syncBarrier 0 0, .death 1 0 0, .end_]

/-- **Replay stops** at the death of the current thread. -/
theorem not_replaysThreads :
    ∃ m, Reached false .tokenSet (ConstMapper.ofBytes 0x10000 lateDeathTrace) m ∧
      m.loc = .returned ∧ ∀ a, ¬ ReplaysThreads a m.state.calls := by
  obtain ⟨m, hm, hsee⟩ := reached_of_map false .tokenSet
    (ConstMapper.ofBytes 0x10000 lateDeathTrace) 11
    (f := fun m => (m.loc, m.state.calls))
    (a := (.returned, [.switchThread 1, .setTS 1024 1, .event (.malloc 5 8), .barrier,
      .switchThread 1, .killCurrentThread, .barrier])) (by decide +kernel)
  obtain ⟨hloc, hcalls⟩ := Prod.mk.inj hsee
  refine ⟨m, hm, hloc, fun a h => ?_⟩
  rw [replaysThreads_iff, hcalls] at h
  have hagain := h [.switchThread 1, .setTS 1024 1, .event (.malloc 5 8), .barrier]
    (.switchThread 1) [.killCurrentThread, .barrier] rfl
  exact hagain.1 rfl

end Machine

end MallocTraceReplay
