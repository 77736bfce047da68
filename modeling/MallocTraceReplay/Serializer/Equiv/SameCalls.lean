import MallocTraceReplay.Serializer.Equiv.BufferMemory

/-!
# Serializers that make the same calls

Two states of the serializer are alike when they have made the same calls and their threads have the
same events before them (`SerializeState.Alike`).  Every part of a step keeps this, where the first
state works in a memory that holds the buffers it reads (`Alike.bufArrives`, `Alike.drainBody`).
-/

namespace MallocTraceReplay

open StepMachine

namespace SerializeState

variable {env : Env} {mem mem' : UInt64 → Option UInt8} {ndebug : Bool} {st st' : SerializeState}
  {id : UInt64} {t t' : FullThreadState} {ev : OuterEvent}

/-- The threads have the same before them, and everything else is equal. -/
structure Alike (mem : UInt64 → Option UInt8) (st st' : SerializeState) : Prop where
  threads : ∀ id, Option.Rel (SameThread mem) (st.threads id) (st'.threads id)
  others : st' = { st with threads := st'.threads }

theorem Alike.exists_threads (h : Alike mem st st') :
    ∃ threads, st' = { st with threads := threads } :=
  ⟨_, h.others⟩

/-- The threads of an id. -/
theorem Alike.thread (h : Alike mem st st') (id : UInt64) :
    (st.threads id = none ∧ st'.threads id = none) ∨
      ∃ t t', st.threads id = some t ∧ st'.threads id = some t' ∧ SameThread mem t t' := by
  cases ht : st.threads id with
  | none =>
    cases ht' : st'.threads id with
    | none => exact Or.inl ⟨rfl, rfl⟩
    | some t' =>
      have hrel := h.threads id
      rw [ht, ht'] at hrel
      cases hrel
  | some t =>
    have hrel := h.threads id
    rw [ht] at hrel
    cases ht' : st'.threads id with
    | none =>
      rw [ht'] at hrel
      cases hrel
    | some t' =>
      rw [ht'] at hrel
      cases hrel with
      | some hsame => exact Or.inr ⟨t, t', rfl, rfl, hsame⟩

/-! ### The fields -/

theorem Alike.sent (h : Alike mem st st') : st'.sent = st.sent := by
  rw [h.others]

theorem Alike.calls (h : Alike mem st st') : st'.calls = st.calls := by
  unfold SerializeState.calls
  rw [h.sent]

theorem Alike.heap (h : Alike mem st st') : st'.heap = st.heap := by
  rw [h.others]

theorem Alike.toDie (h : Alike mem st st') : st'.toDie = st.toDie := by
  rw [h.others]

theorem Alike.pendingFrees (h : Alike mem st st') : st'.pendingFrees = st.pendingFrees := by
  rw [h.others]

theorem Alike.send (h : Alike mem st st') (call : Call) (origin : Option Origin) :
    Alike mem (st.send call origin) (st'.send call origin) := by
  obtain ⟨threads, rfl⟩ := h.exists_threads
  exact ⟨h.threads, rfl⟩

theorem Alike.setToDie (h : Alike mem st st') (ids : List UInt64) :
    Alike mem { st with toDie := ids } { st' with toDie := ids } := by
  obtain ⟨threads, rfl⟩ := h.exists_threads
  exact ⟨h.threads, rfl⟩

theorem Alike.setPendingFrees (h : Alike mem st st') (entries : List (UInt64 × UInt64)) :
    Alike mem { st with pendingFrees := entries } { st' with pendingFrees := entries } := by
  obtain ⟨threads, rfl⟩ := h.exists_threads
  exact ⟨h.threads, rfl⟩

theorem Alike.setRecvThreadId (h : Alike mem st st') (id : UInt64) :
    Alike mem { st with recvThreadId := id } { st' with recvThreadId := id } := by
  obtain ⟨threads, rfl⟩ := h.exists_threads
  exact ⟨h.threads, rfl⟩

theorem Alike.setThread (h : Alike mem st st') (ht : SameThread mem t t') (id : UInt64) :
    Alike mem (st.setThread id t) (st'.setThread id t') := by
  obtain ⟨threads, rfl⟩ := h.exists_threads
  refine ⟨fun i => ?_, rfl⟩
  unfold SerializeState.setThread
  dsimp only
  split
  · exact .some ht
  · exact h.threads i

theorem Alike.eraseThread (h : Alike mem st st') (id : UInt64) :
    Alike mem (st.eraseThread id) (st'.eraseThread id) := by
  obtain ⟨threads, rfl⟩ := h.exists_threads
  refine ⟨fun i => ?_, rfl⟩
  unfold SerializeState.eraseThread
  dsimp only
  split
  · exact .none
  · exact h.threads i

/-! ### The heap -/

theorem Alike.key (h : Alike mem st st') : st'.key = st.key := by
  funext id
  unfold SerializeState.key
  obtain ⟨ht, ht'⟩ | ⟨t, t', ht, ht', hsame⟩ := h.thread id
  · rw [ht, ht']
  · rw [ht, ht']
    dsimp only
    rw [hsame.event.2.1]

theorem Alike.heapPush (h : Alike mem st st') (env : Env) (id : UInt64) :
    Alike mem (st.heapPush env id) (st'.heapPush env id) := by
  have hkey := h.key
  obtain ⟨threads, rfl⟩ := h.exists_threads
  refine ⟨h.threads, ?_⟩
  unfold SerializeState.heapPush
  rw [hkey]

theorem Alike.heapPop (h : Alike mem st st') (env : Env) :
    Alike mem (st.heapPop env) (st'.heapPop env) := by
  have hkey := h.key
  obtain ⟨threads, rfl⟩ := h.exists_threads
  refine ⟨h.threads, ?_⟩
  unfold SerializeState.heapPop
  rw [hkey]

/-- A thread that waits for the token is woken up. -/
theorem Alike.addAllocated (h : Alike mem st st') (env : Env) (tok : UInt64) :
    Alike mem (st.addAllocated env tok) (st'.addAllocated env tok) := by
  unfold SerializeState.addAllocated
  rw [h.pendingFrees]
  cases hlookup : st.pendingFrees.lookup tok with
  | none => exact h
  | some id =>
    have hpush := h.heapPush env id
    dsimp only
    obtain ⟨ht, ht'⟩ | ⟨t, t', ht, ht', hsame⟩ := hpush.thread id
    · rw [ht, ht', hpush.pendingFrees]
      exact hpush.setPendingFrees _
    · have hwoken : SameThread mem { t with inPendingFrees := false }
          { t' with inPendingFrees := false } :=
        hsame.setFlags hsame.flags.dead hsame.flags.signalled rfl
      have hset := hpush.setThread hwoken id
      rw [ht, ht']
      dsimp only
      rw [hset.pendingFrees]
      exact hset.setPendingFrees _

/-! ### Events -/

theorem Alike.deliver (h : Alike mem st st') (ht : SameThread mem t t') :
    Alike mem (st.deliver t) (st'.deliver t') := by
  obtain ⟨threads, rfl⟩ := h.exists_threads
  obtain ⟨hevent, hts, hcpu⟩ := ht.event
  rw [deliver_eq, deliver_eq]
  unfold switchCalls
  rw [ht.flags.threadId, ht.origin, hevent, hts, hcpu]
  exact ⟨h.threads, rfl⟩

theorem Alike.asked (h : Alike mem st st') (ht : SameThread mem t t') :
    Alike mem (st.asked t) (st'.asked t') := by
  unfold SerializeState.asked
  rw [ht.event.1]
  split
  · exact h
  · exact h.send _ _

/-- **The `switch`** over the event of a thread. -/
theorem Alike.handle (h : Alike mem st st') (ht : SameThread mem t t') (env : Env) :
    (st'.handle env t').processed = (st.handle env t).processed ∧
      (st'.handle env t').newTok = (st.handle env t).newTok ∧
      (st'.handle env t').waitTok = (st.handle env t).waitTok ∧
      Alike mem (st.handle env t).state (st'.handle env t').state := by
  have hpermitted : st'.permitted env t' = st.permitted env t := by
    unfold permitted
    rw [ht.event.1, h.calls]
  have hwait : waitTok t' = waitTok t := by
    unfold waitTok
    rw [ht.event.1]
  rw [handle_eq, handle_eq, hpermitted, hwait, ht.event.1]
  split
  · exact ⟨rfl, rfl, rfl, (h.asked ht).deliver ht⟩
  · exact ⟨rfl, rfl, rfl, h.asked ht⟩

/-! ### Records -/

/-- An assertion about the same value. -/
theorem matches_check {cond cond' : Bool} (hcond : cond' = cond) (which : Assertion) :
    Matches (fun _ _ => True) (check ndebug cond which) (check ndebug cond' which) := by
  rw [hcond]
  cases check ndebug cond which with
  | error e => exact .error e
  | ok _ => exact .ok trivial

theorem Alike.threadFor (h : Alike mem st st') (env : Env) (id : UInt64) :
    SameThread mem (st.threadFor env id) (st'.threadFor env id) := by
  unfold SerializeState.threadFor
  obtain ⟨ht, ht'⟩ | ⟨t, t', ht, ht', hsame⟩ := h.thread id
  · rw [ht, ht']
    exact sameThread_new env id
  · rw [ht, ht']
    exact hsame

/-- **A buffer arrives**, which both memories hold. -/
theorem Alike.bufArrives (h : Alike mem st st') (hgood : GoodBuf mem ev)
    (halike : AlikeAt mem mem' ev) (ndebug : Bool) (env : Env) :
    Matches (Alike mem) (st.bufArrives ndebug env mem' ev) (st'.bufArrives ndebug env mem ev) := by
  have hthread : SameThread mem ((st.threads ev.threadId).getD (.new env ev.threadId))
      ((st'.threads ev.threadId).getD (.new env ev.threadId)) := h.threadFor env ev.threadId
  unfold SerializeState.bufArrives
  generalize (st.threads ev.threadId).getD _ = t at hthread
  generalize (st'.threads ev.threadId).getD _ = t' at hthread
  dsimp only
  -- both sides check the same flag
  refine (matches_check (by rw [hthread.flags.dead]) _).bind fun _ _ _ => ?_
  -- the first buffer is decoded from both memories, a later one is only queued
  by_cases hbufs : t.bufs = []
  · have hempty := hthread.isEmpty_bufs
    rw [hbufs] at hempty
    have hbufs' : t'.bufs = [] := List.isEmpty_iff.mp hempty
    rw [hbufs, hbufs']
    dsimp only [List.isEmpty_nil, List.nil_append]
    rw [if_pos rfl, if_pos rfl]
    refine (matches_check hthread.isNone_stream _).bind fun _ _ _ => ?_
    refine ((hthread.start hbufs hgood mem').updateLastEvent ?_ env.stack).bind
      fun ⟨ok, u⟩ ⟨ok', u'⟩ ⟨hok, hu⟩ => ?_
    · intro ev' hev'
      rwa [List.mem_singleton.mp hev']
    · obtain rfl : ok' = ok := hok
      have hset := h.setThread hu ev.threadId
      cases ok' with
      | true => exact .ok (hset.heapPush env ev.threadId)
      | false => exact .ok hset
  · rw [hthread.isEmpty_bufs, List.isEmpty_eq_false_iff.mpr hbufs, if_neg Bool.false_ne_true,
      if_neg Bool.false_ne_true]
    exact .ok (h.setThread (hthread.queue hbufs hgood) ev.threadId)

/-- **A death arrives.** -/
theorem Alike.deathArrives (h : Alike mem st st') (ndebug : Bool) (ev : OuterEvent) :
    Matches (Alike mem) (st.deathArrives ndebug ev) (st'.deathArrives ndebug ev) := by
  unfold SerializeState.deathArrives
  obtain ⟨ht, ht'⟩ | ⟨t, t', ht, ht', hsame⟩ := h.thread ev.threadId
  · rw [ht, ht']
    exact .error _
  · rw [ht, ht']
    dsimp only
    have hflags := hsame.flags
    refine (matches_check (by rw [hflags.dead]) _).bind fun _ _ _ => ?_
    have hdead : SameThread mem { t with dead := true } { t' with dead := true } :=
      hsame.setFlags rfl hflags.signalled hflags.inPendingFrees
    have hset := h.setThread hdead ev.threadId
    rw [hset.toDie]
    exact .ok (hset.setToDie _)

/-! ### The drain loop -/

/-- The thread goes on to its next event. -/
theorem Alike.afterProcessed (h : Alike mem st st') (ht : SameThread mem t t')
    (halike : ∀ ev ∈ t.bufs, AlikeAt mem mem' ev) (env : Env) (id : UInt64) :
    Matches (Alike mem) (st.afterProcessed env mem' id t) (st'.afterProcessed env mem id t') := by
  unfold SerializeState.afterProcessed
  -- the same event is decoded, or none
  refine (ht.updateLastEvent halike env.stack).bind fun ⟨ok, u⟩ ⟨ok', u'⟩ ⟨hok, hu⟩ => ?_
  obtain rfl : ok' = ok := hok
  have hu : SameThread mem u u' := hu
  have hflags := hu.flags
  cases ok' with
  | false =>
    simp only [Bool.not_false, if_true]
    rw [hflags.dead, hu.origin]
    by_cases hdead : u.dead = true
    · rw [if_pos hdead, if_pos hdead]
      have hsignalled : SameThread mem { u with signalled := true }
          { u' with dead := u.dead, signalled := true } :=
        hu.setFlags rfl rfl hflags.inPendingFrees
      have hset := (h.send .killCurrentThread (some u.origin)).setThread hsignalled id
      exact .ok (hset.heapPop env)
    · rw [if_neg hdead, if_neg hdead]
      exact .ok ((h.setThread hu id).heapPop env)
  | true =>
    simp only [Bool.not_true, Bool.false_eq_true, if_false]
    -- the keys of the two heaps are the same
    rw [hu.event.2.1, ht.event.2.1]
    have hset := h.setThread hu id
    refine .ok ?_
    split
    · exact (hset.heapPop env).heapPush env id
    · exact hset

/-- The thread waits. -/
theorem Alike.afterBlocked (h : Alike mem st st') (ht : SameThread mem t t') (ndebug : Bool)
    (env : Env) (id tok : UInt64) :
    Matches (Alike mem) (st.afterBlocked ndebug env id t tok)
      (st'.afterBlocked ndebug env id t' tok) := by
  unfold SerializeState.afterBlocked
  have hwaits : SameThread mem { t with inPendingFrees := true }
      { t' with inPendingFrees := true } :=
    ht.setFlags ht.flags.dead ht.flags.signalled rfl
  have hset := (h.heapPop env).setThread hwaits id
  dsimp only
  rw [hset.pendingFrees]
  refine (matches_check rfl _).bind fun _ _ _ => .ok ?_
  split
  · exact hset.setPendingFrees _
  · exact hset

/-- **One iteration of the drain loop**, where the first memory holds all queued buffers. -/
theorem Alike.drainBody (h : Alike mem st st')
    (halike : ∀ id t, st.threads id = some t → ∀ ev ∈ t.bufs, AlikeAt mem mem' ev) (ndebug : Bool)
    (env : Env) (id : UInt64) :
    Matches (Alike mem) (st.drainBody ndebug env mem' id) (st'.drainBody ndebug env mem id) := by
  unfold SerializeState.drainBody
  obtain ⟨ht, ht'⟩ | ⟨t, t', ht, ht', hsame⟩ := h.thread id
  · rw [ht, ht']
    exact .error _
  · rw [ht, ht']
    dsimp only
    -- the event is the same, so both sides ask the same question
    obtain ⟨hprocessed, hnew, hwait, hstate⟩ := h.handle hsame env
    rw [hprocessed, hnew, hwait]
    refine (matches_check hsame.isSome_stream _).bind fun _ _ _ => ?_
    refine (matches_check (by rw [hsame.isEmpty_bufs]) _).bind fun _ _ _ => ?_
    refine (matches_check rfl _).bind fun _ _ _ => ?_
    -- and the same thread wakes up
    have hwake : ∀ {tok : UInt64} (st₁ st₁' : SerializeState), Alike mem st₁ st₁' →
        Matches (Alike mem)
          (pure (if tok ≠ kEmptyTok then st₁.addAllocated env tok else st₁) : Except Abort _)
          (pure (if tok ≠ kEmptyTok then st₁'.addAllocated env tok else st₁')) := by
      intro tok st₁ st₁' h₁
      refine .ok ?_
      split
      · exact h₁.addAllocated env tok
      · exact h₁
    split
    · exact (hstate.afterProcessed hsame (halike id t ht) env id).bind hwake
    · exact (hstate.afterBlocked hsame ndebug env id _).bind hwake

/-! ### The loop over `to_die` -/

/-- **One iteration of the loop over `to_die`.** -/
theorem Alike.toDieBody (h : Alike mem st st') (ndebug : Bool) (id : UInt64) :
    Matches (fun r r' => r'.1 = r.1 ∧ Alike mem r.2 r'.2) (st.toDieBody ndebug id)
      (st'.toDieBody ndebug id) := by
  unfold SerializeState.toDieBody
  obtain ⟨ht, ht'⟩ | ⟨t, t', ht, ht', hsame⟩ := h.thread id
  · rw [ht, ht']
    exact .error _
  · rw [ht, ht']
    dsimp only
    have hflags := hsame.flags
    refine (matches_check hflags.dead _).bind fun _ _ _ => ?_
    refine (matches_check hsame.isEmpty_bufs _).bind fun _ _ _ => ?_
    rw [hflags.inPendingFrees, hflags.signalled, hflags.threadId, hsame.origin]
    by_cases hpending : t.inPendingFrees = true
    · rw [if_pos hpending, if_pos hpending]
      exact (matches_check rfl _).bind fun _ _ _ => .ok ⟨rfl, h⟩
    · rw [if_neg hpending, if_neg hpending]
      refine (matches_check hsame.isEmpty_bufs _).bind fun _ _ _ => ?_
      refine (matches_check hsame.isNone_stream _).bind fun _ _ _ => .ok ⟨rfl, ?_⟩
      refine Alike.eraseThread ?_ id
      split
      · exact ((h.send _ _).send _ _).setRecvThreadId _
      · exact h

end SerializeState

end MallocTraceReplay
