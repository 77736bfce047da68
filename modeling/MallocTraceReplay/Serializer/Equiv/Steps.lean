import MallocTraceReplay.Serializer.Serialize
import MallocTraceReplay.Serializer.Tokens
import MallocTraceReplay.Serializer.Equiv.Thread

/-!
# What the steps of the serializer do

Each part of `SerializeMallocEvents` is described once, by what it does when it does not abort
(`bufArrives_effect`, `deathArrives_effect`, `drainBody_effect`, `toDieBody_effect` for either
build, `.._cases` for the build with assertions) and by the fields it leaves alone.
-/

namespace MallocTraceReplay

open StepMachine

namespace SerializeState

variable {env : Env} {mem : UInt64 → Option UInt8} {st st' : SerializeState} {id : UInt64}
  {t : FullThreadState}

/-! ### The fields that the calls leave alone -/

@[simp] theorem threads_send (call : Call) (o : Option Origin) :
    (st.send call o).threads = st.threads := rfl
@[simp] theorem heap_send (call : Call) (o : Option Origin) :
    (st.send call o).heap = st.heap := rfl
@[simp] theorem toDie_send (call : Call) (o : Option Origin) :
    (st.send call o).toDie = st.toDie := rfl
@[simp] theorem pendingFrees_send (call : Call) (o : Option Origin) :
    (st.send call o).pendingFrees = st.pendingFrees := rfl
@[simp] theorem sent_send (call : Call) (o : Option Origin) :
    (st.send call o).sent = st.sent ++ [⟨call, o⟩] := rfl
@[simp] theorem recvThreadId_send (call : Call) (o : Option Origin) :
    (st.send call o).recvThreadId = st.recvThreadId := rfl

@[simp] theorem threads_setThread_self : (st.setThread id t).threads id = some t := by
  simp [setThread]
theorem threads_setThread_of_ne {i : UInt64} (h : i ≠ id) :
    (st.setThread id t).threads i = st.threads i := by
  simp [setThread, h]
@[simp] theorem heap_setThread : (st.setThread id t).heap = st.heap := rfl
@[simp] theorem toDie_setThread : (st.setThread id t).toDie = st.toDie := rfl
@[simp] theorem pendingFrees_setThread : (st.setThread id t).pendingFrees = st.pendingFrees := rfl
@[simp] theorem sent_setThread : (st.setThread id t).sent = st.sent := rfl
@[simp] theorem recvThreadId_setThread : (st.setThread id t).recvThreadId = st.recvThreadId := rfl

@[simp] theorem threads_heapPop : (st.heapPop env).threads = st.threads := rfl
@[simp] theorem toDie_heapPop : (st.heapPop env).toDie = st.toDie := rfl
@[simp] theorem pendingFrees_heapPop : (st.heapPop env).pendingFrees = st.pendingFrees := rfl
@[simp] theorem sent_heapPop : (st.heapPop env).sent = st.sent := rfl
@[simp] theorem recvThreadId_heapPop : (st.heapPop env).recvThreadId = st.recvThreadId := rfl

@[simp] theorem threads_heapPush : (st.heapPush env id).threads = st.threads := rfl
@[simp] theorem toDie_heapPush : (st.heapPush env id).toDie = st.toDie := rfl
@[simp] theorem pendingFrees_heapPush : (st.heapPush env id).pendingFrees = st.pendingFrees := rfl
@[simp] theorem sent_heapPush : (st.heapPush env id).sent = st.sent := rfl
@[simp] theorem recvThreadId_heapPush : (st.heapPush env id).recvThreadId = st.recvThreadId := rfl

@[simp] theorem mem_heapPush {i : UInt64} :
    i ∈ (st.heapPush env id).heap ↔ i = id ∨ i ∈ st.heap := env.queue.mem_push
@[simp] theorem nodup_heapPush :
    (st.heapPush env id).heap.Nodup ↔ id ∉ st.heap ∧ st.heap.Nodup := env.queue.nodup_push

theorem mem_heapPop {heap : List UInt64} (h : st.heap = id :: heap) {i : UInt64} :
    i ∈ (st.heapPop env).heap ↔ i ∈ heap := by
  rw [heapPop, h]; exact env.queue.mem_pop
theorem nodup_heapPop {heap : List UInt64} (h : st.heap = id :: heap) :
    (st.heapPop env).heap.Nodup ↔ heap.Nodup := by
  rw [heapPop, h]; exact env.queue.nodup_pop

theorem length_heapPop {heap : List UInt64} (h : st.heap = id :: heap) :
    (st.heapPop env).heap.length = heap.length := by
  rw [heapPop, h]; exact env.queue.length_pop

/-- What `maybe_switch_thread` sends. -/
def switchCalls (st : SerializeState) (t : FullThreadState) : List Sent :=
  (if t.threadId ≠ st.recvThreadId then [⟨.switchThread t.threadId, some t.origin⟩] else []) ++
    if t.lastTs ≠ st.recvTs ∨ t.lastCpu ≠ st.recvCpu then
      [⟨.setTS t.lastTs t.lastCpu, some t.origin⟩] else []

theorem maybeSwitchThread_eq (st : SerializeState) (t : FullThreadState) :
    st.maybeSwitchThread t = { st with
      recvThreadId := t.threadId, recvTs := t.lastTs, recvCpu := t.lastCpu,
      sent := st.sent ++ st.switchCalls t } := by
  unfold maybeSwitchThread switchCalls
  by_cases hid : t.threadId ≠ st.recvThreadId
  · by_cases hts : t.lastTs ≠ st.recvTs ∨ t.lastCpu ≠ st.recvCpu
    · simp [hid, hts, send]
    · have hts' : t.lastTs = st.recvTs ∧ t.lastCpu = st.recvCpu := by
        constructor <;> by_contra h <;> exact hts (by simp [h])
      simp [hid, hts', send]
  · have hid' : t.threadId = st.recvThreadId := by simpa using hid
    by_cases hts : t.lastTs ≠ st.recvTs ∨ t.lastCpu ≠ st.recvCpu
    · simp [hid', hts, send]
    · have hts' : t.lastTs = st.recvTs ∧ t.lastCpu = st.recvCpu := by
        constructor <;> by_contra h <;> exact hts (by simp [h])
      simp [hid', hts']

/-- `HasAllocated` is asked about the token that the event consumes. -/
def asked (st : SerializeState) (t : FullThreadState) : SerializeState :=
  match t.lastEvent.waitTok? with
  | none => st
  | some tok => st.send (.hasAllocated tok) none

/-- The event of a thread is delivered. -/
def delivered (st : SerializeState) (t : FullThreadState) : SerializeState :=
  (st.asked t).deliver t

@[simp] theorem threads_asked : (st.asked t).threads = st.threads := by unfold asked; split <;> rfl
@[simp] theorem heap_asked : (st.asked t).heap = st.heap := by unfold asked; split <;> rfl
@[simp] theorem toDie_asked : (st.asked t).toDie = st.toDie := by unfold asked; split <;> rfl
@[simp] theorem pendingFrees_asked : (st.asked t).pendingFrees = st.pendingFrees := by
  unfold asked; split <;> rfl
@[simp] theorem recvThreadId_asked : (st.asked t).recvThreadId = st.recvThreadId := by
  unfold asked; split <;> rfl
@[simp] theorem recvTs_asked : (st.asked t).recvTs = st.recvTs := by unfold asked; split <;> rfl
@[simp] theorem recvCpu_asked : (st.asked t).recvCpu = st.recvCpu := by unfold asked; split <;> rfl

theorem deliver_eq (st : SerializeState) (t : FullThreadState) :
    st.deliver t = { st with
      recvThreadId := t.threadId, recvTs := t.lastTs, recvCpu := t.lastCpu,
      sent := st.sent ++ st.switchCalls t ++ [⟨.event t.lastEvent, some t.origin⟩] } := by
  unfold deliver
  rw [maybeSwitchThread_eq]
  rfl

@[simp] theorem threads_delivered : (st.delivered t).threads = st.threads := by
  simp [delivered, deliver_eq]
@[simp] theorem heap_delivered : (st.delivered t).heap = st.heap := by
  simp [delivered, deliver_eq]
@[simp] theorem toDie_delivered : (st.delivered t).toDie = st.toDie := by
  simp [delivered, deliver_eq]
@[simp] theorem pendingFrees_delivered : (st.delivered t).pendingFrees = st.pendingFrees := by
  simp [delivered, deliver_eq]
@[simp] theorem recvThreadId_delivered : (st.delivered t).recvThreadId = t.threadId := by
  rw [delivered, deliver_eq]

/-! ### The record loop -/

/-- The thread that a buffer arrives for. -/
def threadFor (env : Env) (st : SerializeState) (id : UInt64) : FullThreadState :=
  (st.threads id).getD (.new env id)

/-- A thread that a buffer starts up: it reads the buffer. -/
def started (t : FullThreadState) (mem : UInt64 → Option UInt8) (ev : OuterEvent) :
    FullThreadState :=
  { t with
    bufs := [ev], activeBuf := ev,
    activeStream := some (constMemStream mem ev.bufStart ev.bufEnd) }

/-- A buffer arrives, in either build: it is queued behind others, or it starts the thread up and
the thread joins the heap or is idle again. -/
theorem bufArrives_effect {ndebug : Bool} {ev : OuterEvent}
    (h : st.bufArrives ndebug env mem ev = .ok st') :
    (ndebug = false → (st.threadFor env ev.threadId).dead = false) ∧
      ((st.threadFor env ev.threadId).bufs ≠ [] ∧
        st' = st.setThread ev.threadId { st.threadFor env ev.threadId with
          bufs := (st.threadFor env ev.threadId).bufs ++ [ev] } ∨
      (st.threadFor env ev.threadId).bufs = [] ∧ ∃ ok t',
        (started (st.threadFor env ev.threadId) mem ev).updateLastEvent env.stack mem =
          .ok (ok, t') ∧
        st' = if ok then (st.setThread ev.threadId t').heapPush env ev.threadId
          else st.setThread ev.threadId t') := by
  unfold bufArrives at h
  rw [← threadFor] at h
  set thread := st.threadFor env ev.threadId
  obtain ⟨_, hcheck, h⟩ := bind_eq_ok.mp h
  refine ⟨fun hdebug => by simpa [check_eq_ok, hdebug] using hcheck, ?_⟩
  by_cases hbufs : thread.bufs = []
  · simp only [hbufs, List.isEmpty_nil, if_true, List.nil_append] at h
    obtain ⟨_, -, h⟩ := bind_eq_ok.mp h
    obtain ⟨⟨ok, t'⟩, hupdate, h⟩ := bind_eq_ok.mp h
    exact Or.inr ⟨hbufs, ok, t', hupdate, (Except.ok.inj h).symm⟩
  · have hne : thread.bufs.isEmpty = false := by simpa using hbufs
    simp only [hne, Bool.false_eq_true, if_false] at h
    exact Or.inl ⟨hbufs, (Except.ok.inj h).symm⟩

/-- A buffer arrives, with assertions: the thread lives. -/
theorem bufArrives_cases {ev : OuterEvent} (h : st.bufArrives false env mem ev = .ok st') :
    (st.threadFor env ev.threadId).dead = false ∧
      ((st.threadFor env ev.threadId).bufs ≠ [] ∧
        st' = st.setThread ev.threadId { st.threadFor env ev.threadId with
          bufs := (st.threadFor env ev.threadId).bufs ++ [ev] } ∨
      (st.threadFor env ev.threadId).bufs = [] ∧ ∃ ok t',
        (started (st.threadFor env ev.threadId) mem ev).updateLastEvent env.stack mem =
          .ok (ok, t') ∧
        st' = if ok then (st.setThread ev.threadId t').heapPush env ev.threadId
          else st.setThread ev.threadId t') :=
  ⟨(bufArrives_effect h).1 rfl, (bufArrives_effect h).2⟩

/-- A death arrives, in either build, for a thread that is there. -/
theorem deathArrives_effect {ndebug : Bool} {ev : OuterEvent}
    (h : st.deathArrives ndebug ev = .ok st') :
    ∃ t, st.threads ev.threadId = some t ∧ (ndebug = false → t.dead = false) ∧
      st' = { st.setThread ev.threadId { t with dead := true } with
        toDie := st.toDie ++ [ev.threadId] } := by
  unfold deathArrives at h
  cases ht : st.threads ev.threadId with
  | none => simp [ht] at h
  | some t =>
    simp only [ht] at h
    obtain ⟨_, hcheck, h⟩ := bind_eq_ok.mp h
    refine ⟨t, rfl, fun hdebug => ?_, (Except.ok.inj h).symm⟩
    simpa [check_eq_ok, hdebug] using hcheck

/-- A death arrives, with assertions: the thread lives. -/
theorem deathArrives_cases {ev : OuterEvent} (h : st.deathArrives false ev = .ok st') :
    ∃ t, st.threads ev.threadId = some t ∧ t.dead = false ∧
      st' = { st.setThread ev.threadId { t with dead := true } with
        toDie := st.toDie ++ [ev.threadId] } := by
  obtain ⟨t, ht, hdead, hst⟩ := deathArrives_effect h
  exact ⟨t, ht, hdead rfl, hst⟩

/-! ### The drain loop -/

/-- The token that the thread's event consumes. -/
def waitTok (t : FullThreadState) : UInt64 := t.lastEvent.waitTok?.getD kEmptyTok

/-- The thread's event consumes no token, or one that the receiver has. -/
def permitted (env : Env) (st : SerializeState) (t : FullThreadState) : Bool :=
  match t.lastEvent.waitTok? with
  | none => true
  | some tok => env.hasAllocated st.calls tok

/-- A thread that is not permitted to go on waits for a token that the receiver does not have. -/
theorem waitTok?_of_not_permitted (h : st.permitted env t = false) :
    t.lastEvent.waitTok? = some (waitTok t) ∧ env.hasAllocated st.calls (waitTok t) = false := by
  unfold permitted at h
  unfold waitTok
  cases hwait : t.lastEvent.waitTok? with
  | none => simp [hwait] at h
  | some tok =>
    rw [hwait] at h
    exact ⟨rfl, by simpa using h⟩

/-- After an event was delivered, the threads waiting for its token are woken up. -/
def wake (env : Env) (st : SerializeState) (ev : InnerEvent) : SerializeState :=
  if ev.newTok?.getD kEmptyTok ≠ kEmptyTok then
    st.addAllocated env (ev.newTok?.getD kEmptyTok)
  else st

/-- The event is delivered and the thread has another one. -/
def goesOn (env : Env) (st : SerializeState) (id : UInt64) (t t' : FullThreadState) :
    SerializeState :=
  let st := (st.delivered t).setThread id t'
  if t'.lastTs ≠ t.lastTs then (st.heapPop env).heapPush env id else st

/-- The event is delivered and was the last one for now; a dead thread is killed. -/
def finishes (env : Env) (st : SerializeState) (id : UInt64) (t t' : FullThreadState) :
    SerializeState :=
  if t'.dead then
    (((st.delivered t).send .killCurrentThread (some t'.origin)).setThread id
      { t' with signalled := true }).heapPop env
  else ((st.delivered t).setThread id t').heapPop env

/-- The thread leaves the heap to wait. -/
def sleeps (env : Env) (st : SerializeState) (id : UInt64) (t : FullThreadState) :
    SerializeState :=
  ((st.asked t).heapPop env).setThread id { t with inPendingFrees := true }

/-- The thread has to wait. -/
def blocks (env : Env) (st : SerializeState) (id : UInt64) (t : FullThreadState) :
    SerializeState :=
  { ((st.asked t).heapPop env).setThread id { t with inPendingFrees := true } with
    pendingFrees := (waitTok t, id) :: st.pendingFrees }

/-- The `switch` of the drain loop. -/
theorem handle_eq (env : Env) (st : SerializeState) (t : FullThreadState) :
    st.handle env t =
      if st.permitted env t then
        { processed := true, newTok := t.lastEvent.newTok?.getD kEmptyTok, waitTok := waitTok t,
          state := st.delivered t }
      else
        { processed := false, newTok := kEmptyTok, waitTok := waitTok t, state := st.asked t } := by
  cases hev : t.lastEvent with
  | malloc | memalign =>
    simp only [handle, permitted, waitTok, delivered, asked, hev, InnerEvent.waitTok?, if_true]
    rfl
  | free tok | freeSized tok | realloc tok =>
    have hperm : st.permitted env t = env.hasAllocated st.calls tok := by
      rw [permitted, hev]; rfl
    rw [hperm]
    by_cases hallocated : env.hasAllocated st.calls tok = true <;>
      simp only [handle, ask, waitTok, delivered, asked, hev, InnerEvent.waitTok?,
        InnerEvent.newTok?, hallocated, if_true, Bool.false_eq_true, if_false, Option.getD_some,
        Option.getD_none]

/-- **The drain loop**, for a thread at the top of the heap that has a stream and buffers. -/
theorem drainBody_eq (ht : st.threads id = some t) (hstream : t.activeStream.isSome)
    (hbufs : t.bufs ≠ []) :
    st.drainBody false env mem id =
      if st.permitted env t then
        match t.updateLastEvent env.stack mem with
        | .error e => .error e
        | .ok (true, t') => .ok ((st.goesOn env id t t').wake env t.lastEvent)
        | .ok (false, t') => .ok ((st.finishes env id t t').wake env t.lastEvent)
      else if (st.pendingFrees.lookup (waitTok t)).isNone then .ok (st.blocks env id t)
      else .error (.assertion .pendingFreesFresh) := by
  have hbufs' : (!t.bufs.isEmpty) = true := by simpa using hbufs
  simp only [drainBody, ht, hstream, hbufs', check, Bool.false_or, if_true, ok_bind, handle_eq]
  by_cases hperm : st.permitted env t = true
  · simp only [hperm, if_true, Bool.true_or, ok_bind, afterProcessed]
    cases t.updateLastEvent env.stack mem with
    | error e => rfl
    | ok r =>
      obtain ⟨ok, t'⟩ := r
      cases ok with
      | true => simp only [ok_bind, Bool.not_true, Bool.false_eq_true, if_false, pure_eq_ok]; rfl
      | false =>
        -- a thread whose last buffer has run out leaves the heap, and is carried over if it is dead
        simp only [ok_bind, Bool.not_false, if_true, pure_eq_ok, finishes, wake]
        split <;> rfl
  · simp only [hperm, Bool.false_eq_true, if_false, Bool.false_or, decide_true, if_true, ok_bind,
      afterBlocked, check]
    -- the question and the pop of the heap leave `pending_frees` alone
    have hpf : ((((st.asked t).heapPop env).setThread id
        { t with inPendingFrees := true }).pendingFrees) = st.pendingFrees :=
      pendingFrees_asked
    rw [hpf]
    by_cases hfresh : (st.pendingFrees.lookup (waitTok t)).isNone = true
    · simp only [hfresh, if_true, ok_bind, ne_eq, not_true_eq_false, if_false, pure_eq_ok]
      rfl
    · simp only [hfresh, if_false, Bool.false_eq_true, error_bind]

/-- What an iteration of the drain loop finds and does, in either build.  Without assertions a
thread may go to sleep for a token that another one waits for, and is not entered then. -/
theorem drainBody_effect {ndebug : Bool} (h : st.drainBody ndebug env mem id = .ok st') :
    ∃ t, st.threads id = some t ∧ (ndebug = false → t.activeStream.isSome ∧ t.bufs ≠ []) ∧
      ((st.permitted env t = true ∧ ∃ ok t', t.updateLastEvent env.stack mem = .ok (ok, t') ∧
          st' = (if ok then st.goesOn env id t t' else st.finishes env id t t').wake env
            t.lastEvent) ∨
        (st.permitted env t = false ∧ st.pendingFrees.lookup (waitTok t) = none ∧
          st' = st.blocks env id t) ∨
        (st.permitted env t = false ∧ st.pendingFrees.lookup (waitTok t) ≠ none ∧
          ndebug = true ∧ st' = st.sleeps env id t)) := by
  unfold drainBody at h
  cases ht : st.threads id with
  | none => simp [ht] at h
  | some t =>
    simp only [ht, handle_eq] at h
    obtain ⟨_, hstream, h⟩ := bind_eq_ok.mp h
    obtain ⟨_, hbufs, h⟩ := bind_eq_ok.mp h
    refine ⟨t, rfl, fun hdebug => ?_, ?_⟩
    · -- without `assert`s the thread may have no stream; the rest of the body goes through all the
      -- same
      rw [check_eq_ok, hdebug] at hstream hbufs
      exact ⟨by simpa using hstream, by simpa using hbufs⟩
    · obtain ⟨_, -, h⟩ := bind_eq_ok.mp h
      by_cases hperm : st.permitted env t = true
      · simp only [hperm, if_true] at h
        obtain ⟨st₁, hafter, h⟩ := bind_eq_ok.mp h
        refine Or.inl ⟨hperm, ?_⟩
        unfold afterProcessed at hafter
        obtain ⟨⟨ok, t'⟩, hupdate, hafter⟩ := bind_eq_ok.mp hafter
        refine ⟨ok, t', hupdate, ?_⟩
        cases ok with
        -- it has a next event and is put back into the heap
        | true =>
          obtain rfl := Except.ok.inj hafter
          exact (Except.ok.inj h).symm
        | false =>
          simp only [Bool.not_false, if_true] at hafter
          rw [← Except.ok.inj h]
          simp only [Bool.false_eq_true, if_false, finishes, wake]
          -- it has none: with its death recorded, it is among those to be killed
          by_cases hdead : t'.dead = true
          · simp only [hdead, if_true] at hafter ⊢
            rw [← Except.ok.inj hafter]
          · simp only [hdead, if_false, Bool.false_eq_true] at hafter ⊢
            rw [← Except.ok.inj hafter]
      · simp only [hperm, if_false, Bool.false_eq_true] at h
        obtain ⟨st₁, hafter, h⟩ := bind_eq_ok.mp h
        rw [if_neg (by simp)] at h
        obtain rfl := Except.ok.inj h
        unfold afterBlocked at hafter
        obtain ⟨_, hfresh, hafter⟩ := bind_eq_ok.mp hafter
        rw [check_eq_ok] at hfresh
        have hsame : (((st.asked t).heapPop env).setThread id
            { t with inPendingFrees := true }).pendingFrees = st.pendingFrees :=
          pendingFrees_asked
        rw [hsame] at hfresh hafter
        refine Or.inr ?_
        -- the `assert` on the insertion is all that tells the two last cases apart
        by_cases hnone : (st.pendingFrees.lookup (waitTok t)).isNone = true
        · rw [if_pos hnone] at hafter
          exact Or.inl ⟨by simpa using hperm, by simpa using hnone, (Except.ok.inj hafter).symm⟩
        · rw [if_neg hnone] at hafter
          refine Or.inr ⟨by simpa using hperm, by simpa using hnone, ?_,
            (Except.ok.inj hafter).symm⟩
          simpa [hnone] using hfresh

/-- What an iteration of the drain loop finds and does, with assertions. -/
theorem drainBody_cases (h : st.drainBody false env mem id = .ok st') :
    ∃ t, st.threads id = some t ∧ t.activeStream.isSome ∧ t.bufs ≠ [] ∧
      ((st.permitted env t = true ∧ ∃ ok t', t.updateLastEvent env.stack mem = .ok (ok, t') ∧
          st' = (if ok then st.goesOn env id t t' else st.finishes env id t t').wake env
            t.lastEvent) ∨
        (st.permitted env t = false ∧ st.pendingFrees.lookup (waitTok t) = none ∧
          st' = st.blocks env id t)) := by
  obtain ⟨t, ht, hchecks, hcases⟩ := drainBody_effect h
  obtain ⟨hstream, hbufs⟩ := hchecks rfl
  refine ⟨t, ht, hstream, hbufs, ?_⟩
  rcases hcases with hpermitted | hblocked | ⟨-, -, hdebug, -⟩
  · exact Or.inl hpermitted
  · exact Or.inr hblocked
  · exact absurd hdebug (by simp)

/-! ### The loop over `to_die` -/

/-- A dying thread that has not been killed is switched to and killed. -/
def killed (st : SerializeState) (t : FullThreadState) : SerializeState :=
  if t.signalled then st
  else
    { (st.send (.switchThread t.threadId) (some t.origin)).send .killCurrentThread
        (some t.origin) with recvThreadId := kInvalidThreadID }

@[simp] theorem threads_killed : (st.killed t).threads = st.threads := by
  unfold killed; split <;> rfl
@[simp] theorem heap_killed : (st.killed t).heap = st.heap := by unfold killed; split <;> rfl
@[simp] theorem pendingFrees_killed : (st.killed t).pendingFrees = st.pendingFrees := by
  unfold killed; split <;> rfl
@[simp] theorem toDie_killed : (st.killed t).toDie = st.toDie := by unfold killed; split <;> rfl

/-- **The loop over `to_die`**, in either build: a waiting thread is carried over; another one is
killed, if it was not before, and erased. -/
theorem toDieBody_effect {ndebug carried : Bool}
    (h : st.toDieBody ndebug id = .ok (carried, st')) :
    ∃ t, st.threads id = some t ∧ (ndebug = false → t.dead = true ∧ t.bufs = []) ∧
      ((t.inPendingFrees = true ∧ (ndebug = false → t.signalled = false) ∧ carried = true ∧
          st' = st) ∨
        (t.inPendingFrees = false ∧ (ndebug = false → t.activeStream = none) ∧
          carried = false ∧ st' = (st.killed t).eraseThread id)) := by
  unfold toDieBody at h
  cases ht : st.threads id with
  | none => simp [ht] at h
  | some t =>
    simp only [ht] at h
    obtain ⟨_, hdead, h⟩ := bind_eq_ok.mp h
    obtain ⟨_, hbufs, h⟩ := bind_eq_ok.mp h
    rw [check_eq_ok] at hdead hbufs
    refine ⟨t, rfl, fun hdebug => ⟨by simpa [hdebug] using hdead, by simpa [hdebug] using hbufs⟩,
      ?_⟩
    by_cases hpending : t.inPendingFrees = true
    · rw [if_pos hpending] at h
      -- it waits for a token: it is looked at again after the next batch
      obtain ⟨_, hsig, h⟩ := bind_eq_ok.mp h
      rw [check_eq_ok] at hsig
      obtain ⟨rfl, rfl⟩ := Prod.mk.inj (Except.ok.inj h)
      exact Or.inl ⟨hpending, fun hdebug => by simpa [hdebug] using hsig, rfl, rfl⟩
    · -- it goes: a kill is called for only when nothing was waiting for its signal
      rw [if_neg hpending] at h
      obtain ⟨_, -, h⟩ := bind_eq_ok.mp h
      obtain ⟨_, hnone, h⟩ := bind_eq_ok.mp h
      rw [check_eq_ok] at hnone
      obtain ⟨rfl, rfl⟩ := Prod.mk.inj (Except.ok.inj h)
      refine Or.inr ⟨by simpa using hpending, fun hdebug => by simpa [hdebug] using hnone, rfl, ?_⟩
      unfold killed
      cases t.signalled <;> rfl

/-- The loop over `to_die` takes threads away only. -/
theorem threads_of_toDieBody {ndebug carried : Bool}
    (h : st.toDieBody ndebug id = .ok (carried, st')) {i : UInt64} {u : FullThreadState}
    (hu : st'.threads i = some u) : st.threads i = some u := by
  obtain ⟨t, -, -, ⟨-, -, -, rfl⟩ | ⟨-, -, -, rfl⟩⟩ := toDieBody_effect h
  · exact hu
  · unfold eraseThread at hu
    dsimp only at hu
    rw [threads_killed] at hu
    split at hu
    · simp at hu
    · exact hu

/-- **The loop over `to_die`**, with assertions: a waiting thread fails the second one. -/
theorem toDieBody_cases {carried : Bool} (h : st.toDieBody false id = .ok (carried, st')) :
    ∃ t, st.threads id = some t ∧ t.dead = true ∧ t.bufs = [] ∧
      ((t.inPendingFrees = true ∧ t.signalled = false ∧ carried = true ∧ st' = st) ∨
        (t.inPendingFrees = false ∧ t.activeStream = none ∧ carried = false ∧
          st' = (st.killed t).eraseThread id)) := by
  obtain ⟨t, ht, hchecks, ⟨hwaits, hsig, hrest⟩ | ⟨hidle, hnone, hrest⟩⟩ := toDieBody_effect h
  · exact ⟨t, ht, (hchecks rfl).1, (hchecks rfl).2, Or.inl ⟨hwaits, hsig rfl, hrest⟩⟩
  · exact ⟨t, ht, (hchecks rfl).1, (hchecks rfl).2, Or.inr ⟨hidle, hnone rfl, hrest⟩⟩

end SerializeState

end MallocTraceReplay
