import MallocTraceReplay.Serializer.Equiv.Steps
import MallocTraceReplay.Serializer.Equiv.Input

/-!
# The invariant of the scheduler

Where a thread is: idle, in the heap, or waiting in `pending_frees`.  `Scheduled` says it by what
membership in the heap and in `pending_frees` means for the fields of the thread, for any receiver
and whatever the bytes of the buffers; every part of a step preserves it.
-/

namespace MallocTraceReplay

open StepMachine

/-- A thread is where its fields say. -/
structure Placed (heap : List UInt64) (pendingFrees : List (UInt64 × UInt64)) (id : UInt64)
    (t : FullThreadState) : Prop where
  threadId : t.threadId = id
  mem_heap : id ∈ heap ↔ t.bufs ≠ [] ∧ t.inPendingFrees = false
  mem_pending : (∃ tok, (tok, id) ∈ pendingFrees) ↔ t.inPendingFrees = true
  waits : ∀ tok, (tok, id) ∈ pendingFrees → t.lastEvent.waitTok? = some tok
  busy : t.inPendingFrees = true → t.bufs ≠ []
  stream : t.activeStream.isSome = true ↔ t.bufs ≠ []
  signalled : t.signalled = true → t.dead = true ∧ t.bufs = []

namespace Placed

variable {heap : List UInt64} {pendingFrees : List (UInt64 × UInt64)} {id : UInt64}
  {t : FullThreadState}

/-- A thread that does not wait, and is in the heap when it has buffers. -/
theorem active (hid : t.threadId = id) (hheap : id ∈ heap ↔ t.bufs ≠ [])
    (hflag : t.inPendingFrees = false) (hpending : ∀ tok, (tok, id) ∉ pendingFrees)
    (hstream : t.activeStream.isSome = true ↔ t.bufs ≠ [])
    (hsignalled : t.signalled = true → t.dead = true ∧ t.bufs = []) :
    Placed heap pendingFrees id t where
  threadId := hid
  mem_heap := by rw [hheap, hflag]; simp
  mem_pending := by simp [hpending, hflag]
  waits tok htok := absurd htok (hpending tok)
  busy h := by simp [hflag] at h
  stream := hstream
  signalled := hsignalled

theorem not_pending (hp : Placed heap pendingFrees id t) (hflag : t.inPendingFrees = false)
    (tok : UInt64) : (tok, id) ∉ pendingFrees := by
  intro htok
  have := hp.mem_pending.mp ⟨tok, htok⟩
  simp [hflag] at this

theorem idle (hp : Placed heap pendingFrees id t) (hbufs : t.bufs = []) :
    t.inPendingFrees = false ∧ id ∉ heap := by
  refine ⟨?_, fun hid => (hp.mem_heap.mp hid).1 hbufs⟩
  by_contra hflag
  exact hp.busy (by simpa using hflag) hbufs

end Placed

/-- Every thread is where its fields say, in one place and once. -/
structure Scheduled (st : SerializeState) : Prop where
  placed : ∀ {id t}, st.threads id = some t → Placed st.heap st.pendingFrees id t
  heap_nodup : st.heap.Nodup
  heap_mem : ∀ {id}, id ∈ st.heap → (st.threads id).isSome
  pending_mem : ∀ {tok id}, (tok, id) ∈ st.pendingFrees → (st.threads id).isSome
  keys_nodup : (st.pendingFrees.map Prod.fst).Nodup
  ids_nodup : (st.pendingFrees.map Prod.snd).Nodup

namespace Scheduled

variable {env : Env} {mem : UInt64 → Option UInt8} {st st' : SerializeState} {id : UInt64}
  {t t' : FullThreadState}

theorem init : Scheduled .init where
  placed h := by simp [SerializeState.init] at h
  heap_nodup := List.nodup_nil
  heap_mem h := by simp [SerializeState.init] at h
  pending_mem h := by simp [SerializeState.init] at h
  keys_nodup := List.nodup_nil
  ids_nodup := List.nodup_nil

/-- What the invariant is about. -/
theorem of_eq (h : Scheduled st) (hthreads : st'.threads = st.threads) (hheap : st'.heap = st.heap)
    (hpending : st'.pendingFrees = st.pendingFrees) : Scheduled st' := by
  constructor
  · intro id t ht
    rw [hheap, hpending]
    exact h.placed (by rw [← hthreads, ht])
  · rw [hheap]; exact h.heap_nodup
  · intro id hid
    rw [hthreads]
    exact h.heap_mem (by rwa [hheap] at hid)
  · intro tok id hid
    rw [hthreads]
    exact h.pending_mem (by rwa [hpending] at hid)
  · rw [hpending]; exact h.keys_nodup
  · rw [hpending]; exact h.ids_nodup

/-- **A step that touches one thread**: it may move that thread, and nothing else. -/
theorem update (h : Scheduled st) (hthreads : st'.threads = (st.setThread id t').threads)
    (hheap : ∀ i ≠ id, i ∈ st'.heap ↔ i ∈ st.heap) (hnodup : st'.heap.Nodup)
    (hpending : ∀ tok, ∀ i ≠ id, (tok, i) ∈ st'.pendingFrees ↔ (tok, i) ∈ st.pendingFrees)
    (hkeys : (st'.pendingFrees.map Prod.fst).Nodup)
    (hids : (st'.pendingFrees.map Prod.snd).Nodup)
    (hplaced : Placed st'.heap st'.pendingFrees id t') : Scheduled st' := by
  have hself : st'.threads id = some t' := by simp [hthreads, SerializeState.setThread]
  have hother : ∀ i ≠ id, st'.threads i = st.threads i := by
    intro i hi
    simp [hthreads, SerializeState.setThread, hi]
  refine ⟨fun {i u} hu => ?_, hnodup, fun {i} hi => ?_, fun {tok i} hi => ?_, hkeys, hids⟩
  · by_cases hid : i = id
    · subst hid
      rw [hself] at hu
      rw [← Option.some.inj hu]
      exact hplaced
    · -- a thread of another id: its place in the heap and in `pending_frees` is as it was
      rw [hother i hid] at hu
      have hp := h.placed hu
      refine ⟨hp.threadId, ?_, ?_, ?_, hp.busy, hp.stream, hp.signalled⟩
      · rw [hheap i hid]; exact hp.mem_heap
      · simp only [hpending _ i hid]; exact hp.mem_pending
      · intro tok htok
        exact hp.waits tok ((hpending tok i hid).mp htok)
  · by_cases hid : i = id
    · rw [hid, hself]; rfl
    · rw [hother i hid]
      exact h.heap_mem ((hheap i hid).mp hi)
  · by_cases hid : i = id
    · rw [hid, hself]; rfl
    · rw [hother i hid]
      exact h.pending_mem ((hpending tok i hid).mp hi)

/-! ### Threads that are not there -/

theorem not_mem_heap (h : Scheduled st) (hnone : st.threads id = none) : id ∉ st.heap := by
  intro hid
  have := h.heap_mem hid
  simp [hnone] at this

theorem not_mem_pending (h : Scheduled st) (hnone : st.threads id = none) (tok : UInt64) :
    (tok, id) ∉ st.pendingFrees := by
  intro hid
  have := h.pending_mem hid
  simp [hnone] at this

/-- A new thread is idle. -/
theorem placed_threadFor (h : Scheduled st) (env : Env) (id : UInt64) :
    Placed st.heap st.pendingFrees id (st.threadFor env id) := by
  unfold SerializeState.threadFor
  cases ht : st.threads id with
  | some t => exact h.placed ht
  | none =>
    have hheap := h.not_mem_heap ht
    have hpending := h.not_mem_pending ht
    exact ⟨rfl, by simp [hheap, FullThreadState.new], by simp [hpending, FullThreadState.new],
      fun tok htok => absurd htok (hpending tok), by simp [FullThreadState.new],
      by simp [FullThreadState.new], by simp [FullThreadState.new]⟩

/-! ### The record loop -/

theorem bufArrives {ev : OuterEvent} (h : Scheduled st)
    (hstep : st.bufArrives false env mem ev = .ok st') : Scheduled st' := by
  have hp := h.placed_threadFor env ev.threadId
  obtain ⟨hdead, ⟨hbufs, rfl⟩ | ⟨hbufs, ok, t', hupdate, rfl⟩⟩ :=
    SerializeState.bufArrives_cases hstep
  · -- the buffer is queued behind others
    refine h.update rfl (fun i _ => Iff.rfl) h.heap_nodup (fun tok i _ => Iff.rfl)
      h.keys_nodup h.ids_nodup ⟨hp.threadId, ?_, hp.mem_pending, hp.waits, ?_, ?_, ?_⟩
    · simpa [hbufs] using hp.mem_heap
    · simp
    · simpa [hbufs] using hp.stream
    · intro hsig
      exact absurd (hp.signalled hsig).2 hbufs
  · -- the thread was idle
    obtain ⟨hflag, hheap⟩ := hp.idle hbufs
    have hu := FullThreadState.updateLastEvent_frame (by simp [SerializeState.started]) hupdate
    have hsig : ¬ t'.signalled = true := by
      rw [hu.flags.signalled]
      intro hsig
      simpa [hdead] using (hp.signalled hsig).1
    cases ok with
    | true =>
      simp only [if_true]
      refine h.update rfl (fun i hi => ?_) ?_ (fun tok i _ => Iff.rfl) h.keys_nodup h.ids_nodup
        (Placed.active (hu.flags.threadId.trans hp.threadId) ?_
          (hu.flags.inPendingFrees.trans hflag) (hp.not_pending hflag) hu.stream_iff
          (fun h => absurd h hsig))
      · simp [hi]
      · simpa using ⟨hheap, h.heap_nodup⟩
      · simp [hu.bufs_iff]
    | false =>
      simp only [Bool.false_eq_true, if_false]
      refine h.update rfl (fun i _ => Iff.rfl) h.heap_nodup (fun tok i _ => Iff.rfl)
        h.keys_nodup h.ids_nodup
        (Placed.active (hu.flags.threadId.trans hp.threadId) ?_
          (hu.flags.inPendingFrees.trans hflag) (hp.not_pending hflag) hu.stream_iff
          (fun h => absurd h hsig))
      simpa [hu.bufs_iff] using hheap

theorem deathArrives {ev : OuterEvent} (h : Scheduled st)
    (hstep : st.deathArrives false ev = .ok st') : Scheduled st' := by
  obtain ⟨t, ht, hdead, rfl⟩ := SerializeState.deathArrives_cases hstep
  have hp := h.placed ht
  refine h.update rfl (fun i _ => Iff.rfl) h.heap_nodup (fun tok i _ => Iff.rfl)
    h.keys_nodup h.ids_nodup
    ⟨hp.threadId, hp.mem_heap, hp.mem_pending, hp.waits, hp.busy, hp.stream, fun hsig => ?_⟩
  exact ⟨rfl, (hp.signalled hsig).2⟩

/-! ### The drain loop -/

/-- The front of the heap is there, and has a stream and buffers. -/
theorem front (h : Scheduled st) {heap : List UInt64} (hheap : st.heap = id :: heap) :
    ∃ t, st.threads id = some t ∧ t.activeStream.isSome = true ∧ t.bufs ≠ [] ∧
      t.inPendingFrees = false := by
  have hid : id ∈ st.heap := by rw [hheap]; exact List.mem_cons_self ..
  obtain ⟨t, ht⟩ := Option.isSome_iff_exists.mp (h.heap_mem hid)
  obtain ⟨hbufs, hflag⟩ := (h.placed ht).mem_heap.mp hid
  exact ⟨t, ht, (h.placed ht).stream.mpr hbufs, hbufs, hflag⟩

/-- Whether the heap is keyed anew or not. -/
theorem goesOn_heap (env : Env) (t t' : FullThreadState) {heap : List UInt64}
    (hheap : st.heap = id :: heap) :
    (∀ i, i ∈ (st.goesOn env id t t').heap ↔ i ∈ st.heap) ∧
      (st.heap.Nodup → (st.goesOn env id t t').heap.Nodup) := by
  have hheap' : ((st.delivered t).setThread id t').heap = id :: heap := by simpa using hheap
  unfold SerializeState.goesOn
  dsimp only
  split
  · refine ⟨fun i => ?_, fun hnodup => ?_⟩
    · rw [SerializeState.mem_heapPush, SerializeState.mem_heapPop hheap', hheap, List.mem_cons]
    · rw [SerializeState.nodup_heapPush, SerializeState.mem_heapPop hheap',
        SerializeState.nodup_heapPop hheap']
      rwa [hheap, List.nodup_cons] at hnodup
  · simp

theorem goesOn_threads : (st.goesOn env id t t').threads = (st.setThread id t').threads := by
  unfold SerializeState.goesOn
  dsimp only
  split <;> simp [SerializeState.setThread]

theorem goesOn_pendingFrees : (st.goesOn env id t t').pendingFrees = st.pendingFrees := by
  unfold SerializeState.goesOn
  dsimp only
  split <;> simp

/-- A delivered event, and another one. -/
theorem goesOn (h : Scheduled st) {heap : List UInt64} (hheap : st.heap = id :: heap)
    (ht : st.threads id = some t) (hu : FullThreadState.Updated t true t') :
    Scheduled (st.goesOn env id t t') := by
  have hid : id ∈ st.heap := by rw [hheap]; exact List.mem_cons_self ..
  have hp := h.placed ht
  obtain ⟨hbufs, hflag⟩ := hp.mem_heap.mp hid
  obtain ⟨hmem, hnodup⟩ := goesOn_heap env t t' hheap
  have hsig : ¬ t'.signalled = true := by
    rw [hu.flags.signalled]
    intro hsig
    exact hbufs (hp.signalled hsig).2
  refine h.update goesOn_threads (fun i _ => hmem i) (hnodup h.heap_nodup)
    (fun tok i _ => by rw [goesOn_pendingFrees]) (by rw [goesOn_pendingFrees]; exact h.keys_nodup)
    (by rw [goesOn_pendingFrees]; exact h.ids_nodup)
    (Placed.active (hu.flags.threadId.trans hp.threadId) ?_
      (hu.flags.inPendingFrees.trans hflag)
        (by rw [goesOn_pendingFrees]; exact hp.not_pending hflag)
      hu.stream_iff (fun h => absurd h hsig))
  rw [hmem, hu.bufs_iff]
  simpa using hid

theorem finishes_threads : (st.finishes env id t t').threads =
    (st.setThread id { t' with signalled := t'.signalled || t'.dead }).threads := by
  unfold SerializeState.finishes
  by_cases hdead : t'.dead = true
  · simp [SerializeState.setThread, hdead]
  · rw [Bool.not_eq_true] at hdead
    have hsame : (t'.signalled || t'.dead) = t'.signalled := by rw [hdead, Bool.or_false]
    rw [hsame, if_neg (by simp [hdead])]
    simp [SerializeState.setThread]

theorem finishes_pendingFrees : (st.finishes env id t t').pendingFrees = st.pendingFrees := by
  unfold SerializeState.finishes
  split <;> simp

theorem finishes_heap (env : Env) (t t' : FullThreadState) {heap : List UInt64}
    (hheap : st.heap = id :: heap) :
    (∀ i, i ∈ (st.finishes env id t t').heap ↔ i ∈ heap) ∧
      (heap.Nodup → (st.finishes env id t t').heap.Nodup) := by
  unfold SerializeState.finishes
  split
  · have hheap' : (((st.delivered t).send .killCurrentThread (some t'.origin)).setThread id
        { t' with signalled := true }).heap = id :: heap := by simpa using hheap
    exact ⟨fun i => SerializeState.mem_heapPop hheap', (SerializeState.nodup_heapPop hheap').mpr⟩
  · have hheap' : ((st.delivered t).setThread id t').heap = id :: heap := by simpa using hheap
    exact ⟨fun i => SerializeState.mem_heapPop hheap', (SerializeState.nodup_heapPop hheap').mpr⟩

/-- A delivered event that was the last one. -/
theorem finishes (h : Scheduled st) {heap : List UInt64} (hheap : st.heap = id :: heap)
    (ht : st.threads id = some t) (hu : FullThreadState.Updated t false t') :
    Scheduled (st.finishes env id t t') := by
  have hid : id ∈ st.heap := by rw [hheap]; exact List.mem_cons_self ..
  have hp := h.placed ht
  obtain ⟨hbufs, hflag⟩ := hp.mem_heap.mp hid
  have hnodup := h.heap_nodup
  rw [hheap, List.nodup_cons] at hnodup
  obtain ⟨hmem, hnodup'⟩ := finishes_heap env t t' hheap
  refine h.update finishes_threads (fun i hi => ?_) (hnodup' hnodup.2)
    (fun tok i _ => by rw [finishes_pendingFrees])
    (by rw [finishes_pendingFrees]; exact h.keys_nodup)
    (by rw [finishes_pendingFrees]; exact h.ids_nodup)
    (Placed.active (hu.flags.threadId.trans hp.threadId) ?_
      (hu.flags.inPendingFrees.trans hflag)
      (by rw [finishes_pendingFrees]; exact hp.not_pending hflag) hu.stream_iff (fun hsig => ?_))
  · rw [hmem, hheap, List.mem_cons]
    simp [hi]
  · rw [hmem]
    simp [hnodup.1, (hu.idle rfl).1]
  · refine ⟨?_, (hu.idle rfl).1⟩
    rcases Bool.or_eq_true _ _ ▸ hsig with hsig | hdead
    · rw [hu.flags.signalled] at hsig
      exact absurd (hp.signalled hsig).2 hbufs
    · exact hdead

/-- A thread that has to wait. -/
theorem blocks (h : Scheduled st) {heap : List UInt64} (hheap : st.heap = id :: heap)
    (ht : st.threads id = some t) (hperm : st.permitted env t = false)
    (hfresh : st.pendingFrees.lookup (SerializeState.waitTok t) = none) :
    Scheduled (st.blocks env id t) := by
  have hid : id ∈ st.heap := by rw [hheap]; exact List.mem_cons_self ..
  have hp := h.placed ht
  obtain ⟨hbufs, hflag⟩ := hp.mem_heap.mp hid
  have hnodup := h.heap_nodup
  rw [hheap, List.nodup_cons] at hnodup
  have hheap' : (st.asked t).heap = id :: heap := by simpa using hheap
  have hnot := hp.not_pending hflag
  have hwait := (SerializeState.waitTok?_of_not_permitted hperm).1
  -- the token is new in `pending_frees`, which the `assert` on the insertion says
  have hfresh' : SerializeState.waitTok t ∉ st.pendingFrees.map Prod.fst := by
    intro hmem
    obtain ⟨⟨tok, i⟩, hmem, rfl⟩ := List.mem_map.mp hmem
    simpa using List.lookup_eq_none_iff.mp hfresh _ hmem
  have hthreads : (st.blocks env id t).threads =
      (st.setThread id { t with inPendingFrees := true }).threads := by
    simp [SerializeState.blocks, SerializeState.setThread]
  refine h.update hthreads (fun i hi => ?_) ?_ (fun tok i hi => ?_) ?_ ?_
    ⟨hp.threadId, ?_, ?_, fun tok htok => ?_, fun _ => hbufs, hp.stream, hp.signalled⟩
  · show i ∈ ((st.asked t).heapPop env).heap ↔ _
    rw [SerializeState.mem_heapPop hheap', hheap, List.mem_cons]
    simp [hi]
  · show ((st.asked t).heapPop env).heap.Nodup
    rw [SerializeState.nodup_heapPop hheap']
    exact hnodup.2
  · simp [SerializeState.blocks, hi]
  · exact List.nodup_cons.mpr ⟨hfresh', h.keys_nodup⟩
  · -- the thread was in the heap, and so it was not waiting
    refine List.nodup_cons.mpr ⟨fun hmem => ?_, h.ids_nodup⟩
    obtain ⟨⟨tok, i⟩, hi, heq⟩ := List.mem_map.mp hmem
    obtain rfl : i = id := heq
    exact hnot tok hi
  · show id ∈ ((st.asked t).heapPop env).heap ↔ _
    rw [SerializeState.mem_heapPop hheap']
    simp [hnodup.1]
  · exact ⟨fun _ => rfl, fun _ => ⟨_, List.mem_cons_self ..⟩⟩
  · rcases List.mem_cons.mp htok with htok | htok
    · rw [(Prod.mk.inj htok).1]
      exact hwait
    · exact absurd htok (hnot tok)

/-- A token has one thread that waits for it. -/
theorem pending_id_eq (h : Scheduled st) {tok i j : UInt64} (hi : (tok, i) ∈ st.pendingFrees)
    (hj : (tok, j) ∈ st.pendingFrees) : i = j :=
  (Prod.mk.inj (List.inj_on_of_nodup_map h.keys_nodup hi hj rfl)).2

/-- A thread waits for one token. -/
theorem pending_tok_eq (h : Scheduled st) {tok tok' i : UInt64} (hi : (tok, i) ∈ st.pendingFrees)
    (hj : (tok', i) ∈ st.pendingFrees) : tok = tok' :=
  (Prod.mk.inj (List.inj_on_of_nodup_map h.ids_nodup hi hj rfl)).1

/-- What waking up does: nothing, when no thread waits for the token. -/
theorem addAllocated_of_none {tok : UInt64} (hno : st.pendingFrees.lookup tok = none) :
    st.addAllocated env tok = st := by
  simp only [SerializeState.addAllocated, hno]

/-- What waking up does: the waiting thread joins the heap. -/
theorem addAllocated_of_some (h : Scheduled st) (env : Env) {tok : UInt64}
    (hwait : st.pendingFrees.lookup tok = some id) :
    ∃ t, st.threads id = some t ∧ (tok, id) ∈ st.pendingFrees ∧
      st.addAllocated env tok =
        { (st.heapPush env id).setThread id { t with inPendingFrees := false } with
          pendingFrees := st.pendingFrees.filter fun entry => entry.1 ≠ tok } := by
  obtain ⟨l₁, l₂, hl, -⟩ := List.lookup_eq_some_iff.mp hwait
  have hmem : (tok, id) ∈ st.pendingFrees := by rw [hl]; simp
  obtain ⟨t, ht⟩ := Option.isSome_iff_exists.mp (h.pending_mem hmem)
  refine ⟨t, ht, hmem, ?_⟩
  simp only [SerializeState.addAllocated, hwait, SerializeState.threads_heapPush, ht]
  rfl

/-- **Waking up** the thread that waits for a token. -/
theorem addAllocated (h : Scheduled st) (tok : UInt64) : Scheduled (st.addAllocated env tok) := by
  cases hwait : st.pendingFrees.lookup tok with
  | none => rw [addAllocated_of_none hwait]; exact h
  | some id =>
    obtain ⟨t, ht, hmem, heq⟩ := h.addAllocated_of_some env hwait
    rw [heq]
    have hp := h.placed ht
    have hflag := hp.mem_pending.mp ⟨tok, hmem⟩
    have hbufs := hp.busy hflag
    have hnot : id ∉ st.heap := fun hid => by simpa [hflag] using (hp.mem_heap.mp hid).2
    have hsub : (st.pendingFrees.filter fun entry => entry.1 ≠ tok).Sublist st.pendingFrees :=
      List.filter_sublist
    refine h.update rfl (fun i hi => ?_) ?_ (fun tok' i hi => ?_)
      (h.keys_nodup.sublist (hsub.map _)) (h.ids_nodup.sublist (hsub.map _))
      (Placed.active hp.threadId ?_ rfl (fun tok' htok' => ?_) hp.stream hp.signalled)
    · show i ∈ (st.heapPush env id).heap ↔ _
      simp [hi]
    · show (st.heapPush env id).heap.Nodup
      simpa using ⟨hnot, h.heap_nodup⟩
    · simp only [List.mem_filter, decide_eq_true_eq, and_iff_left_iff_imp]
      rintro hi' rfl
      exact hi (h.pending_id_eq hi' hmem)
    · show id ∈ (st.heapPush env id).heap ↔ _
      simp [hbufs]
    · simp only [List.mem_filter, decide_eq_true_eq] at htok'
      exact htok'.2 (h.pending_tok_eq htok'.1 hmem)

theorem wake (h : Scheduled st) (ev : InnerEvent) : Scheduled (st.wake env ev) := by
  unfold SerializeState.wake
  split
  · exact h.addAllocated _
  · exact h

/-- An iteration of the drain loop. -/
theorem drainBody (h : Scheduled st) {heap : List UInt64} (hheap : st.heap = id :: heap)
    (hstep : st.drainBody false env mem id = .ok st') : Scheduled st' := by
  obtain ⟨t, ht, -, hbufs, ⟨hperm, ok, t', hupdate, rfl⟩ | ⟨hperm, hfresh, rfl⟩⟩ :=
    SerializeState.drainBody_cases hstep
  · have hu := FullThreadState.updateLastEvent_frame hbufs hupdate
    cases ok with
    | true => exact (h.goesOn hheap ht hu).wake _
    | false => exact (h.finishes hheap ht hu).wake _
  · exact h.blocks hheap ht hperm hfresh

/-! ### The loop over `to_die` -/

/-- An idle thread goes away. -/
theorem erase (h : Scheduled st) (ht : st.threads id = some t) (hbufs : t.bufs = []) :
    Scheduled (st.eraseThread id) := by
  have hp := h.placed ht
  obtain ⟨hflag, hheap⟩ := hp.idle hbufs
  have hother : ∀ {i u}, (st.eraseThread id).threads i = some u → i ≠ id ∧
      st.threads i = some u := by
    intro i u hu
    by_cases hi : i = id
    · simp [SerializeState.eraseThread, hi] at hu
    · exact ⟨hi, by simpa [SerializeState.eraseThread, hi] using hu⟩
  refine ⟨fun {i u} hu => h.placed (hother hu).2, h.heap_nodup, fun {i} hi => ?_,
    fun {tok i} hi => ?_, h.keys_nodup, h.ids_nodup⟩
  · have hne : i ≠ id := by rintro rfl; exact hheap hi
    simpa [SerializeState.eraseThread, hne] using h.heap_mem hi
  · have hne : i ≠ id := by rintro rfl; exact hp.not_pending hflag tok hi
    simpa [SerializeState.eraseThread, hne] using h.pending_mem hi

theorem toDieBody {carried : Bool} (h : Scheduled st)
    (hstep : st.toDieBody false id = .ok (carried, st')) : Scheduled st' := by
  obtain ⟨t, ht, -, hbufs, ⟨-, -, -, rfl⟩ | ⟨-, -, -, rfl⟩⟩ :=
    SerializeState.toDieBody_cases hstep
  · exact h
  · have hk : Scheduled (st.killed t) := h.of_eq (by simp) (by simp) (by simp)
    exact hk.erase (by simpa using ht) hbufs

end Scheduled

/-! ### Over whole runs -/

namespace Machine

variable {M : Type} [Mapper M] {env : Env} {mapper : M} {m m' : Machine M}

/-- The scheduler before the first record. -/
theorem start_state (h : start env mapper = .ok m) :
    m.loc = .records ∧ m.state = .init ∧ m.input.read = [] := by
  refine ⟨?_, ?_, ?_⟩ <;>
    (unfold start at h
     obtain ⟨i, hi, h⟩ := bind_eq_ok.mp h
     obtain rfl := Except.ok.inj h)
  · rfl
  · rfl
  · unfold Input.open_ at hi
    obtain ⟨⟨place, s⟩, -, hi⟩ := bind_eq_ok.mp hi
    dsimp only at hi
    split at hi
    · simp at hi
    · split at hi
      · simp at hi
      · obtain rfl := Except.ok.inj hi
        rfl

theorem step_scheduled (h : Scheduled m.state) (hstep : m.step false env = .ok m') :
    Scheduled m'.state := by
  rcases step_cases hstep with ⟨-, item, -, hcases⟩ | ⟨-, -, hcases⟩ |
    ⟨id, todo, next, carried, -, -, hst, -⟩ | ⟨next, -, -, -, hst⟩ | ⟨-, rfl⟩
  · rcases hcases with ⟨-, -, hst⟩ | ⟨-, ev, -, ⟨-, hst⟩ | ⟨-, hst⟩⟩
    · rw [hst]; exact h
    · exact h.bufArrives hst
    · exact h.deathArrives hst
  · rcases hcases with ⟨-, -, hst⟩ | ⟨-, id, heap, hheap, hst⟩
    · rw [hst]; exact h
    · exact h.drainBody hheap hst
  · exact h.toDieBody hst
  · rw [hst]; exact h.of_eq rfl rfl rfl
  · exact h

/-- **Every reached state is scheduled**, whatever the trace and the receiver. -/
theorem Reached.scheduled (h : Reached false env mapper m) : Scheduled m.state := by
  refine h.invariant (fun m hstart => ?_) fun m m' _ hI hstep => step_scheduled hI hstep
  rw [(start_state hstart).2.1]
  exact .init

/-- The heap is empty from the end of the drain loop to the next batch. -/
def Drained (m : Machine M) : Prop := m.loc = .records ∨ m.loc = .drain ∨ m.state.heap = []

theorem step_drained {ndebug : Bool} (h : Drained m) (hstep : m.step ndebug env = .ok m') :
    Drained m' := by
  rcases step_cases hstep with ⟨-, item, -, hcases⟩ | ⟨-, -, hcases⟩ |
    ⟨id, todo, next, carried, hloc, -, hst, -⟩ | ⟨next, hloc, -, -, hst⟩ | ⟨-, rfl⟩
  · rcases hcases with ⟨-, hloc', -⟩ | ⟨hloc', -⟩
    · exact Or.inr (Or.inl hloc')
    · exact Or.inl hloc'
  · rcases hcases with ⟨hheap, -, hst⟩ | ⟨hloc', -⟩
    · exact Or.inr (Or.inr (by rw [hst, hheap]))
    · exact Or.inr (Or.inl hloc')
  · have hheap : m.state.heap = [] := by simpa [Drained, hloc] using h
    obtain ⟨t, -, -, ⟨-, -, -, hst'⟩ | ⟨-, -, -, hst'⟩⟩ := SerializeState.toDieBody_effect hst
    · exact Or.inr (Or.inr (by rw [hst', hheap]))
    · refine Or.inr (Or.inr ?_)
      rw [hst']
      show (m.state.killed t).heap = []
      rw [SerializeState.heap_killed, hheap]
  · have hheap : m.state.heap = [] := by simpa [Drained, hloc] using h
    exact Or.inr (Or.inr (by rw [hst]; exact hheap))
  · exact h

theorem Reached.drained {ndebug : Bool} (h : Reached ndebug env mapper m) : Drained m :=
  h.invariant (fun _ hstart => Or.inl (start_state hstart).1)
    fun _ _ _ hI hstep => step_drained hI hstep

theorem Reached.heap_eq_nil {ndebug : Bool} (h : Reached ndebug env mapper m)
    (hrecords : m.loc ≠ .records) (hdrain : m.loc ≠ .drain) : m.state.heap = [] :=
  (h.drained.resolve_left hrecords).resolve_left hdrain

end Machine

end MallocTraceReplay
