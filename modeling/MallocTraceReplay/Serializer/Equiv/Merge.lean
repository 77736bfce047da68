import MallocTraceReplay.Serializer.Equiv.Completeness

/-!
# The merge by timestamps

The heap is keyed by the `last_ts` of the threads in it, which changes under it.  `Arranged` says
which threads are in the heap and that the heap is ordered by their current `last_ts`; it holds in
every reached state of either build, for any trace and any receiver.  So the drain loop delivers
the events in the order of their `last_ts`, as long as nothing but the heap decides
(`Reached.merge_ordered`).
-/

namespace MallocTraceReplay

open StepMachine

/-- The thread has an event and does not wait. -/
def FullThreadState.Runnable (t : FullThreadState) : Prop := t.bufs ≠ [] ∧ t.inPendingFrees = false

/-- The heap holds the threads that have an event and do not wait, each once, and is ordered by
their `last_ts`; the waiting threads are there, each for one token. -/
structure Arranged (st : SerializeState) : Prop where
  ids : ∀ {id t}, st.threads id = some t → t.threadId = id
  runnable : ∀ {id t}, st.threads id = some t → (id ∈ st.heap ↔ t.Runnable)
  heap_mem : ∀ {id}, id ∈ st.heap → (st.threads id).isSome
  heap_nodup : st.heap.Nodup
  busy : ∀ {id t}, st.threads id = some t → t.inPendingFrees = true → t.bufs ≠ []
  waiting : ∀ {tok id}, (tok, id) ∈ st.pendingFrees →
    ∃ t, st.threads id = some t ∧ t.inPendingFrees = true
  ids_nodup : (st.pendingFrees.map Prod.snd).Nodup
  ordered : HeapOrdered st.key st.heap

namespace SerializeState

variable {st st' : SerializeState} {id : UInt64} {t : FullThreadState}

theorem key_of_some (h : st.threads id = some t) : st.key id = t.lastTs.toNat := by
  simp only [key, h]

theorem key_of_threads {i : UInt64} (h : st'.threads i = st.threads i) : st'.key i = st.key i := by
  simp only [key, h]

@[simp] theorem key_setThread_self : (st.setThread id t).key id = t.lastTs.toNat :=
  key_of_some threads_setThread_self

theorem key_setThread_of_ne {i : UInt64} (h : i ≠ id) : (st.setThread id t).key i = st.key i :=
  key_of_threads (threads_setThread_of_ne h)

end SerializeState

namespace Arranged

variable {env : Env} {mem : UInt64 → Option UInt8} {st st' : SerializeState} {id : UInt64}
  {t t' : FullThreadState}

theorem init : Arranged .init where
  ids h := by simp [SerializeState.init] at h
  runnable h := by simp [SerializeState.init] at h
  heap_mem h := by simp [SerializeState.init] at h
  heap_nodup := List.nodup_nil
  busy h := by simp [SerializeState.init] at h
  waiting h := by simp [SerializeState.init] at h
  ids_nodup := List.nodup_nil
  ordered j hj := by simp [SerializeState.init] at hj

/-- What the invariant is about. -/
theorem of_eq (h : Arranged st) (hthreads : st'.threads = st.threads) (hheap : st'.heap = st.heap)
    (hpending : st'.pendingFrees = st.pendingFrees) : Arranged st' := by
  have hkey : st'.key = st.key := funext fun i => SerializeState.key_of_threads (by rw [hthreads])
  constructor
  · intro id t ht
    exact h.ids (by rw [← hthreads, ht])
  · intro id t ht
    rw [hheap]
    exact h.runnable (by rw [← hthreads, ht])
  · intro id hid
    rw [hthreads]
    exact h.heap_mem (by rwa [hheap] at hid)
  · rw [hheap]; exact h.heap_nodup
  · intro id t ht
    exact h.busy (by rw [← hthreads, ht])
  · intro tok id hid
    rw [hthreads]
    exact h.waiting (by rwa [hpending] at hid)
  · rw [hpending]; exact h.ids_nodup
  · rw [hkey, hheap]; exact h.ordered

/-- **A step that touches one thread**: it may move that thread, and nothing else. -/
theorem update (h : Arranged st) (hthreads : st'.threads = (st.setThread id t').threads)
    (hid : t'.threadId = id) (hheap : ∀ i ≠ id, i ∈ st'.heap ↔ i ∈ st.heap)
    (hself : id ∈ st'.heap ↔ t'.Runnable) (hnodup : st'.heap.Nodup)
    (hbusy : t'.inPendingFrees = true → t'.bufs ≠ [])
    (hpending : ∀ tok, ∀ i ≠ id, (tok, i) ∈ st'.pendingFrees → (tok, i) ∈ st.pendingFrees)
    (hwaits : ∀ tok, (tok, id) ∈ st'.pendingFrees → t'.inPendingFrees = true)
    (hids : (st'.pendingFrees.map Prod.snd).Nodup) (hordered : HeapOrdered st'.key st'.heap) :
    Arranged st' := by
  have hat : st'.threads id = some t' := by simp [hthreads, SerializeState.setThread]
  have hother : ∀ i ≠ id, st'.threads i = st.threads i := by
    intro i hi
    simp [hthreads, SerializeState.setThread, hi]
  -- every thread is the one that was updated, or is what it was
  have heach : ∀ {i u}, st'.threads i = some u →
      i = id ∧ u = t' ∨ i ≠ id ∧ st.threads i = some u := by
    intro i u hu
    by_cases hne : i = id
    · rw [hne, hat] at hu
      exact Or.inl ⟨hne, (Option.some.inj hu).symm⟩
    · rw [hother i hne] at hu
      exact Or.inr ⟨hne, hu⟩
  refine ⟨fun {i u} hu => ?_, fun {i u} hu => ?_, fun {i} hi => ?_, hnodup, fun {i u} hu => ?_,
    fun {tok i} hi => ?_, hids, hordered⟩
  · rcases heach hu with ⟨rfl, rfl⟩ | ⟨-, hu⟩
    · exact hid
    · exact h.ids hu
  · rcases heach hu with ⟨rfl, rfl⟩ | ⟨hne, hu⟩
    · exact hself
    · rw [hheap i hne]
      exact h.runnable hu
  · by_cases hne : i = id
    · rw [hne, hat]; rfl
    · rw [hother i hne]
      exact h.heap_mem ((hheap i hne).mp hi)
  · rcases heach hu with ⟨rfl, rfl⟩ | ⟨-, hu⟩
    · exact hbusy
    · exact h.busy hu
  · by_cases hne : i = id
    · rw [hne] at hi ⊢
      exact ⟨t', hat, hwaits tok hi⟩
    · rw [hother i hne]
      exact h.waiting (hpending tok i hne hi)

/-! ### Threads that are not in the heap -/

theorem not_mem_heap (h : Arranged st) (hnone : st.threads id = none) : id ∉ st.heap := by
  intro hid
  have := h.heap_mem hid
  simp [hnone] at this

theorem flag_of_pending (h : Arranged st) (ht : st.threads id = some t) {tok : UInt64}
    (htok : (tok, id) ∈ st.pendingFrees) : t.inPendingFrees = true := by
  obtain ⟨u, hu, hflag⟩ := h.waiting htok
  rw [ht] at hu
  rwa [← Option.some.inj hu] at hflag

theorem not_pending (h : Arranged st) (ht : st.threads id = some t)
    (hflag : t.inPendingFrees = false) (tok : UInt64) : (tok, id) ∉ st.pendingFrees := by
  intro htok
  have hwaits := h.flag_of_pending ht htok
  simp [hflag] at hwaits

theorem threadFor_id (h : Arranged st) (env : Env) (id : UInt64) :
    (st.threadFor env id).threadId = id := by
  unfold SerializeState.threadFor
  cases ht : st.threads id with
  | some t => exact h.ids ht
  | none => rfl

/-- A thread with buffers is there. -/
theorem threadFor_busy (hbufs : (st.threadFor env id).bufs ≠ []) :
    st.threads id = some (st.threadFor env id) := by
  unfold SerializeState.threadFor at hbufs ⊢
  cases ht : st.threads id with
  | some t => rfl
  | none => simp [ht, FullThreadState.new] at hbufs

/-- A thread without buffers is not in the heap and does not wait. -/
theorem threadFor_idle (h : Arranged st) (hbufs : (st.threadFor env id).bufs = []) :
    id ∉ st.heap ∧ (st.threadFor env id).inPendingFrees = false ∧
      ∀ tok, (tok, id) ∉ st.pendingFrees := by
  unfold SerializeState.threadFor at hbufs ⊢
  cases ht : st.threads id with
  | some t =>
    rw [ht, Option.getD_some] at hbufs
    have hflag : t.inPendingFrees = false := by
      by_contra hno
      exact h.busy ht (by simpa using hno) hbufs
    exact ⟨fun hid => ((h.runnable ht).mp hid).1 hbufs, hflag, h.not_pending ht hflag⟩
  | none =>
    refine ⟨h.not_mem_heap ht, rfl, fun tok htok => ?_⟩
    obtain ⟨u, hu, -⟩ := h.waiting htok
    simp [ht] at hu

/-- The key of a thread that is not in the heap may change. -/
theorem ordered_setThread (h : Arranged st) (hid : id ∉ st.heap) :
    HeapOrdered (st.setThread id t').key st.heap :=
  h.ordered.congr fun _ hi =>
    SerializeState.key_setThread_of_ne fun heq => hid (heq ▸ hi)

/-- A thread that keeps its `last_ts` keeps its place. -/
theorem ordered_of_lastTs (t' : FullThreadState) {heap : List UInt64}
    (hordered : HeapOrdered st.key heap) (hthreads : st'.threads = (st.setThread id t').threads)
    (ht : st.threads id = some t)
    (hts : t'.lastTs = t.lastTs) : HeapOrdered st'.key heap := by
  refine hordered.congr fun i _ => ?_
  have hkey : st'.key i = (st.setThread id t').key i :=
    SerializeState.key_of_threads (by rw [hthreads])
  rw [hkey]
  by_cases hi : i = id
  · rw [hi, SerializeState.key_setThread_self, hts, SerializeState.key_of_some ht]
  · exact SerializeState.key_setThread_of_ne hi

/-! ### The record loop -/

theorem bufArrives {ndebug : Bool} {ev : OuterEvent} (h : Arranged st)
    (hstep : st.bufArrives ndebug env mem ev = .ok st') : Arranged st' := by
  have hid := h.threadFor_id env ev.threadId
  obtain ⟨-, ⟨hbufs, rfl⟩ | ⟨hbufs, ok, t', hupdate, rfl⟩⟩ :=
    SerializeState.bufArrives_effect hstep
  · -- the buffer is queued behind others, and the thread keeps its `last_ts`
    have ht := threadFor_busy hbufs
    have hwaits : ∀ tok, (tok, ev.threadId) ∈ st.pendingFrees →
        (st.threadFor env ev.threadId).inPendingFrees = true :=
      fun tok htok => h.flag_of_pending ht htok
    refine h.update rfl hid (fun i _ => Iff.rfl) ?_ h.heap_nodup (fun _ => by simp)
      (fun tok i _ htok => htok) hwaits h.ids_nodup (ordered_of_lastTs _ h.ordered rfl ht rfl)
    simpa [FullThreadState.Runnable, hbufs] using h.runnable ht
  · -- the thread was idle, so that its key is not one of the heap
    obtain ⟨hheap, hflag, hnot⟩ := h.threadFor_idle hbufs
    have hu := FullThreadState.updateLastEvent_frame (by simp [SerializeState.started]) hupdate
    have hflag' : t'.inPendingFrees = false := hu.flags.inPendingFrees.trans hflag
    cases ok with
    | true =>
      simp only [if_true]
      refine h.update rfl (hu.flags.threadId.trans hid) (fun i hi => ?_) ?_ ?_ ?_
        (fun tok i _ htok => htok) (fun tok htok => absurd htok (hnot tok)) h.ids_nodup
        (env.queue.push_ordered _ _ _ (h.ordered_setThread hheap))
      · simp [hi]
      · simp [FullThreadState.Runnable, hu.bufs_iff, hflag']
      · simpa using ⟨hheap, h.heap_nodup⟩
      · simp [hflag']
    | false =>
      simp only [Bool.false_eq_true, if_false]
      refine h.update rfl (hu.flags.threadId.trans hid) (fun i _ => Iff.rfl) ?_ h.heap_nodup ?_
        (fun tok i _ htok => htok) (fun tok htok => absurd htok (hnot tok)) h.ids_nodup
        (h.ordered_setThread hheap)
      · simpa [FullThreadState.Runnable, hu.bufs_iff] using hheap
      · simp [hflag']

theorem deathArrives {ndebug : Bool} {ev : OuterEvent} (h : Arranged st)
    (hstep : st.deathArrives ndebug ev = .ok st') : Arranged st' := by
  obtain ⟨t, ht, -, rfl⟩ := SerializeState.deathArrives_effect hstep
  have hid := h.ids ht
  have hrunnable := h.runnable ht
  have hbusy := h.busy ht
  have hwaits : ∀ tok, (tok, ev.threadId) ∈ st.pendingFrees → t.inPendingFrees = true :=
    fun tok htok => h.flag_of_pending ht htok
  exact h.update rfl hid (fun i _ => Iff.rfl) hrunnable h.heap_nodup hbusy
    (fun tok i _ htok => htok) hwaits h.ids_nodup (ordered_of_lastTs _ h.ordered rfl ht rfl)

/-! ### The drain loop -/

/-- The front of the heap is runnable, and the rest of the heap is other threads. -/
theorem front (h : Arranged st) {heap : List UInt64} (hheap : st.heap = id :: heap)
    (ht : st.threads id = some t) : t.Runnable ∧ id ∉ heap ∧ heap.Nodup := by
  have hnodup := h.heap_nodup
  rw [hheap, List.nodup_cons] at hnodup
  exact ⟨(h.runnable ht).mp (by rw [hheap]; exact List.mem_cons_self ..), hnodup⟩

/-- The thread at the front is popped, whatever its key has become. -/
theorem ordered_heapPop (h : Arranged st) (t' : FullThreadState) {heap : List UInt64}
    (hheap : st.heap = id :: heap) (hheap' : st'.heap = id :: heap)
    (hthreads : st'.threads = (st.setThread id t').threads) :
    HeapOrdered (st'.heapPop env).key (st'.heapPop env).heap := by
  have hnodup := h.heap_nodup
  rw [hheap, List.nodup_cons] at hnodup
  have hordered := h.ordered
  rw [hheap] at hordered
  show HeapOrdered st'.key (env.queue.pop st'.key st'.heap)
  rw [hheap']
  refine env.queue.pop_ordered _ _ _ (hordered.below fun i hi => ?_)
  have hne : i ≠ id := by rintro rfl; exact hnodup.1 hi
  refine SerializeState.key_of_threads ?_
  rw [hthreads, SerializeState.threads_setThread_of_ne hne]

/-- A delivered event, and another one: the heap is keyed anew when `last_ts` changed. -/
theorem goesOn (h : Arranged st) {heap : List UInt64} (hheap : st.heap = id :: heap)
    (ht : st.threads id = some t) (hu : FullThreadState.Updated t true t') :
    Arranged (st.goesOn env id t t') := by
  obtain ⟨⟨hbufs, hflag⟩, -⟩ := h.front hheap ht
  have hflag' : t'.inPendingFrees = false := hu.flags.inPendingFrees.trans hflag
  obtain ⟨hmem, hnodup⟩ := Scheduled.goesOn_heap env t t' hheap
  have hpending : (st.goesOn env id t t').pendingFrees = st.pendingFrees :=
    Scheduled.goesOn_pendingFrees
  refine h.update Scheduled.goesOn_threads (hu.flags.threadId.trans (h.ids ht))
    (fun i _ => hmem i) ?_ (hnodup h.heap_nodup) (by simp [hflag']) ?_ ?_ ?_ ?_
  · rw [hmem, hheap]
    simp [FullThreadState.Runnable, hu.bufs_iff, hflag']
  · rw [hpending]
    exact fun tok i _ htok => htok
  · rw [hpending]
    exact fun tok htok => absurd htok (h.not_pending ht hflag tok)
  · rw [hpending]
    exact h.ids_nodup
  · have hheap' : ((st.delivered t).setThread id t').heap = id :: heap := by simpa using hheap
    have hthreads : ((st.delivered t).setThread id t').threads = (st.setThread id t').threads := by
      simp [SerializeState.setThread]
    unfold SerializeState.goesOn
    by_cases hts : t'.lastTs ≠ t.lastTs
    · rw [if_pos hts]
      exact env.queue.push_ordered _ _ _ (h.ordered_heapPop t' hheap hheap' hthreads)
    · rw [if_neg hts, hheap', ← hheap]
      exact ordered_of_lastTs _ h.ordered hthreads ht (by simpa using hts)

/-- A delivered event that was the last one. -/
theorem finishes (h : Arranged st) {heap : List UInt64} (hheap : st.heap = id :: heap)
    (ht : st.threads id = some t) (hu : FullThreadState.Updated t false t') :
    Arranged (st.finishes env id t t') := by
  obtain ⟨⟨-, hflag⟩, hnot, hnodup⟩ := h.front hheap ht
  have hflag' : t'.inPendingFrees = false := hu.flags.inPendingFrees.trans hflag
  obtain ⟨hmem, hnodup'⟩ := Scheduled.finishes_heap env t t' hheap
  have hpending : (st.finishes env id t t').pendingFrees = st.pendingFrees :=
    Scheduled.finishes_pendingFrees
  refine h.update Scheduled.finishes_threads (hu.flags.threadId.trans (h.ids ht))
    (fun i hi => ?_) ?_ (hnodup' hnodup) (by simp [hflag']) ?_ ?_ ?_ ?_
  · rw [hmem, hheap, List.mem_cons]
    simp [hi]
  · rw [hmem]
    simp [FullThreadState.Runnable, hnot, (hu.idle rfl).1]
  · rw [hpending]
    exact fun tok i _ htok => htok
  · rw [hpending]
    exact fun tok htok => absurd htok (h.not_pending ht hflag tok)
  · rw [hpending]
    exact h.ids_nodup
  · unfold SerializeState.finishes
    split
    · exact h.ordered_heapPop { t' with signalled := true } hheap (by simpa using hheap)
        (by simp [SerializeState.setThread])
    · exact h.ordered_heapPop t' hheap (by simpa using hheap) (by simp [SerializeState.setThread])

/-- A thread that leaves the heap to wait, whatever becomes of its entry in `pending_frees`. -/
theorem leaves (h : Arranged st) {heap : List UInt64} (hheap : st.heap = id :: heap)
    (ht : st.threads id = some t) {pendingFrees : List (UInt64 × UInt64)}
    (hpending : pendingFrees = st.pendingFrees ∨ ∃ tok,
      pendingFrees = (tok, id) :: st.pendingFrees) :
    Arranged { st.sleeps env id t with pendingFrees := pendingFrees } := by
  obtain ⟨⟨hbufs, hflag⟩, hnot, hnodup⟩ := h.front hheap ht
  have hheap' : (st.asked t).heap = id :: heap := by simpa using hheap
  have hmem : ∀ i, i ∈ ((st.asked t).heapPop env).heap ↔ i ∈ heap :=
    fun i => SerializeState.mem_heapPop hheap'
  have hthreads : (st.sleeps env id t).threads =
      (st.setThread id { t with inPendingFrees := true }).threads := by
    simp [SerializeState.sleeps, SerializeState.setThread]
  have hid := h.ids ht
  refine h.update hthreads hid (fun i hi => ?_) ?_ ?_ (fun _ => hbufs) (fun tok i hi htok => ?_)
    (fun _ _ => rfl) ?_ ?_
  · show i ∈ ((st.asked t).heapPop env).heap ↔ _
    rw [hmem, hheap, List.mem_cons]
    simp [hi]
  · show id ∈ ((st.asked t).heapPop env).heap ↔ _
    rw [hmem]
    simp [FullThreadState.Runnable, hnot]
  · show ((st.asked t).heapPop env).heap.Nodup
    exact (SerializeState.nodup_heapPop hheap').mpr hnodup
  · rcases hpending with rfl | ⟨tok', rfl⟩
    · exact htok
    · simpa [hi] using htok
  · rcases hpending with rfl | ⟨tok', rfl⟩
    · exact h.ids_nodup
    · refine List.nodup_cons.mpr ⟨fun hmem => ?_, h.ids_nodup⟩
      obtain ⟨⟨tok, i⟩, hi, rfl⟩ := List.mem_map.mp hmem
      exact h.not_pending ht hflag tok hi
  · -- without its first element the heap is ordered, by the keys that the threads had
    have hpopped : HeapOrdered ((st.asked t).heapPop env).key ((st.asked t).heapPop env).heap :=
      h.ordered_heapPop t hheap hheap' (by
        simp only [SerializeState.threads_asked]
        funext i
        by_cases hi : i = id
        · rw [hi, ht, SerializeState.threads_setThread_self]
        · rw [SerializeState.threads_setThread_of_ne hi])
    have hat : ((st.asked t).heapPop env).threads id = some t := by simpa using ht
    exact ordered_of_lastTs { t with inPendingFrees := true } hpopped rfl hat rfl

/-- **Waking up** the thread that waits for a token. -/
theorem addAllocated (h : Arranged st) (tok : UInt64) : Arranged (st.addAllocated env tok) := by
  cases hwait : st.pendingFrees.lookup tok with
  | none => rw [Scheduled.addAllocated_of_none hwait]; exact h
  | some id =>
    obtain ⟨l₁, l₂, hl, -⟩ := List.lookup_eq_some_iff.mp hwait
    have hmem : (tok, id) ∈ st.pendingFrees := by rw [hl]; simp
    obtain ⟨t, ht, hflag⟩ := h.waiting hmem
    have heq : st.addAllocated env tok =
        { (st.heapPush env id).setThread id { t with inPendingFrees := false } with
          pendingFrees := st.pendingFrees.filter fun entry => entry.1 ≠ tok } := by
      simp only [SerializeState.addAllocated, hwait, SerializeState.threads_heapPush, ht]
      rfl
    have hbufs := h.busy ht hflag
    have hnot : id ∉ st.heap := fun hid => by simpa [hflag] using ((h.runnable ht).mp hid).2
    have hid := h.ids ht
    have hpushed : HeapOrdered (st.heapPush env id).key (st.heapPush env id).heap :=
      env.queue.push_ordered _ _ _ h.ordered
    rw [heq]
    refine h.update rfl hid (fun i hi => ?_) ?_ ?_ (fun hno => by simp at hno)
      (fun tok' i _ hi => (List.mem_filter.mp hi).1) (fun tok' htok' => ?_)
      (h.ids_nodup.sublist (List.filter_sublist.map _))
      (ordered_of_lastTs { t with inPendingFrees := false } hpushed rfl ht rfl)
    · show i ∈ (st.heapPush env id).heap ↔ _
      simp [hi]
    · show id ∈ (st.heapPush env id).heap ↔ _
      simp [FullThreadState.Runnable, hbufs]
    · show (st.heapPush env id).heap.Nodup
      simpa using ⟨hnot, h.heap_nodup⟩
    · -- the thread waited for that token only
      obtain ⟨htok', hne⟩ := List.mem_filter.mp htok'
      have hsame := List.inj_on_of_nodup_map h.ids_nodup htok' hmem rfl
      simp [(Prod.mk.inj hsame).1] at hne

theorem wake (h : Arranged st) (ev : InnerEvent) : Arranged (st.wake env ev) := by
  unfold SerializeState.wake
  split
  · exact h.addAllocated _
  · exact h

/-- An iteration of the drain loop. -/
theorem drainBody {ndebug : Bool} (h : Arranged st) {heap : List UInt64}
    (hheap : st.heap = id :: heap) (hstep : st.drainBody ndebug env mem id = .ok st') :
    Arranged st' := by
  obtain ⟨t, ht, -, ⟨-, ok, t', hupdate, rfl⟩ | ⟨-, -, rfl⟩ | ⟨-, -, -, rfl⟩⟩ :=
    SerializeState.drainBody_effect hstep
  · have hu := FullThreadState.updateLastEvent_frame (h.front hheap ht).1.1 hupdate
    cases ok with
    | true => exact (h.goesOn hheap ht hu).wake _
    | false => exact (h.finishes hheap ht hu).wake _
  · exact h.leaves hheap ht (Or.inr ⟨SerializeState.waitTok t, rfl⟩)
  · have hpending : (st.sleeps env id t).pendingFrees = st.pendingFrees :=
      SerializeState.pendingFrees_asked
    exact h.leaves hheap ht (Or.inl hpending)

/-! ### The loop over `to_die` -/

/-- A thread that is neither in the heap nor waits goes away. -/
theorem erase (h : Arranged st) (ht : st.threads id = some t) (hheap : st.heap = [])
    (hflag : t.inPendingFrees = false) : Arranged (st.eraseThread id) := by
  have hother : ∀ {i u}, (st.eraseThread id).threads i = some u →
      i ≠ id ∧ st.threads i = some u := by
    intro i u hu
    by_cases hi : i = id
    · simp [SerializeState.eraseThread, hi] at hu
    · exact ⟨hi, by simpa [SerializeState.eraseThread, hi] using hu⟩
  have hempty : (st.eraseThread id).heap = [] := hheap
  refine ⟨fun {i u} hu => h.ids (hother hu).2, fun {i u} hu => h.runnable (hother hu).2,
    fun {i} hi => ?_, h.heap_nodup, fun {i u} hu => h.busy (hother hu).2, fun {tok i} hi => ?_,
    h.ids_nodup, fun j hj => ?_⟩
  · rw [hempty] at hi
    simp at hi
  · have hne : i ≠ id := by rintro rfl; exact h.not_pending ht hflag tok hi
    simpa [SerializeState.eraseThread, hne] using h.waiting hi
  · rw [hempty] at hj
    simp at hj

theorem toDieBody {ndebug carried : Bool} (h : Arranged st) (hheap : st.heap = [])
    (hstep : st.toDieBody ndebug id = .ok (carried, st')) : Arranged st' := by
  obtain ⟨t, ht, -, ⟨-, -, -, rfl⟩ | ⟨hflag, -, -, rfl⟩⟩ := SerializeState.toDieBody_effect hstep
  · exact h
  · have hk : Arranged (st.killed t) := h.of_eq (by simp) (by simp) (by simp)
    exact hk.erase (by simpa using ht) (by simpa using hheap) hflag

end Arranged

namespace Machine

variable {M : Type} [Mapper M] {ndebug : Bool} {env : Env} {mapper : M} {m m' : Machine M}

/-! ### Over whole runs -/

theorem step_arranged (h : Arranged m.state) (hdrained : Drained m)
    (hstep : m.step ndebug env = .ok m') : Arranged m'.state := by
  rcases step_cases hstep with ⟨-, item, -, hcases⟩ | ⟨-, -, hcases⟩ |
    ⟨id, todo, next, carried, hloc, -, hst, -⟩ | ⟨next, hloc, -, -, hst⟩ | ⟨-, rfl⟩
  · rcases hcases with ⟨-, -, hst⟩ | ⟨-, ev, -, ⟨-, hst⟩ | ⟨-, hst⟩⟩
    · rw [hst]; exact h
    · exact h.bufArrives hst
    · exact h.deathArrives hst
  · rcases hcases with ⟨-, -, hst⟩ | ⟨-, id, heap, hfront, hst⟩
    · rw [hst]; exact h
    · exact h.drainBody hfront hst
  · exact h.toDieBody (by simpa [Drained, hloc] using hdrained) hst
  · rw [hst]; exact h.of_eq rfl rfl rfl
  · exact h

/-- **Every reached state is arranged**, whatever the trace, the receiver and the build. -/
theorem Reached.arranged (h : Reached ndebug env mapper m) : Arranged m.state := by
  refine h.invariant (I := fun m => Arranged m.state) (fun m hstart => ?_)
    fun m m' hm hI hstep => step_arranged hI hm.drained hstep
  rw [(start_state hstart).2.1]
  exact .init

/-! ### The order of the deliveries -/

/-- A thread that delivers is runnable, and none that is runnable has a smaller `last_ts`. -/
theorem Reached.delivers_first (h : Reached ndebug env mapper m) {t : FullThreadState}
    (hd : m.Delivers env t) : t.Runnable ∧ ∀ i u, m.state.threads i = some u → u.Runnable →
      t.lastTs ≤ u.lastTs := by
  obtain ⟨-, id, heap, hheap, ht, -⟩ := hd
  have harranged := h.arranged
  refine ⟨(harranged.front hheap ht).1, fun i u hu hrunnable => ?_⟩
  have hmem : i ∈ id :: heap := by
    rw [← hheap]
    exact (harranged.runnable hu).mpr hrunnable
  have hle := (hheap ▸ harranged.ordered : HeapOrdered m.state.key (id :: heap)).front_le hmem
  rw [SerializeState.key_of_some ht, SerializeState.key_of_some hu] at hle
  exact UInt64.le_iff_toNat_le.mpr hle

/-- Nothing but the heap decides in an iteration of the drain loop: no event has to wait, no
waiting thread is woken up, and no thread that goes on does so with a smaller `last_ts`. -/
structure Quiet (env : Env) (m m' : Machine M) : Prop where
  drains : m.loc = .drain
  permitted : ∀ id ∈ m.state.heap.head?, ∀ t ∈ m.state.threads id,
    m.state.permitted env t = true
  waits : m.state.pendingFrees ⊆ m'.state.pendingFrees
  ages : ∀ id ∈ m'.state.heap, m.state.key id ≤ m'.state.key id

/-- A quiet iteration of the drain loop. -/
def QuietStep (ndebug : Bool) (env : Env) (m m' : Machine M) : Prop :=
  m.step ndebug env = .ok m' ∧ Quiet env m m'

/-- Nothing is woken up where no waiting thread goes. -/
theorem addAllocated_of_subset {st : SerializeState} {tok : UInt64}
    (h : st.pendingFrees ⊆ (st.addAllocated env tok).pendingFrees) :
    st.addAllocated env tok = st := by
  cases hwait : st.pendingFrees.lookup tok with
  | none => exact Scheduled.addAllocated_of_none hwait
  | some id =>
    obtain ⟨l₁, l₂, hl, -⟩ := List.lookup_eq_some_iff.mp hwait
    have hmem : (tok, id) ∈ st.pendingFrees := by rw [hl]; simp
    have hgone := h hmem
    simp only [SerializeState.addAllocated, hwait] at hgone
    exact absurd (List.mem_filter.mp hgone).2 (by simp)

/-- What a quiet iteration leaves in the heap was there before. -/
theorem QuietStep.heap_subset (h : QuietStep ndebug env m m') (hm : Reached ndebug env mapper m) :
    m'.state.heap ⊆ m.state.heap := by
  obtain ⟨hstep, hquiet⟩ := h
  rcases step_cases hstep with ⟨hloc, -⟩ | ⟨-, -, hcases⟩ | ⟨_, _, _, _, hloc, -⟩ |
    ⟨_, hloc, -⟩ | ⟨-, rfl⟩
  · simp [hquiet.drains] at hloc
  · rcases hcases with ⟨-, -, hst⟩ | ⟨-, id, heap, hheap, hst⟩
    · rw [hst]
      exact List.Subset.refl _
    · obtain ⟨t, ht, -, ⟨-, ok, t', hupdate, hst⟩ | ⟨hno, -⟩ | ⟨hno, -⟩⟩ :=
        SerializeState.drainBody_effect hst
      · -- in a quiet step nobody waits for what was allocated, so `add_allocated` changes nothing
        have hwake : ∀ {st : SerializeState}, st.pendingFrees = m.state.pendingFrees →
            m'.state = st.wake env t.lastEvent → m'.state.heap = st.heap := by
          intro st hpending hst
          have hwaits := hquiet.waits
          rw [hst, ← hpending] at hwaits
          rw [hst]
          unfold SerializeState.wake at hwaits ⊢
          split
          · next hnew =>
            rw [if_pos hnew] at hwaits
            rw [addAllocated_of_subset hwaits]
          · rfl
        cases ok with
        | true =>
          rw [hwake Scheduled.goesOn_pendingFrees hst]
          exact fun i hi => ((Scheduled.goesOn_heap env t t' hheap).1 i).mp hi
        | false =>
          rw [hwake Scheduled.finishes_pendingFrees hst, hheap]
          exact fun i hi =>
            List.mem_cons_of_mem _ (((Scheduled.finishes_heap env t t' hheap).1 i).mp hi)
      -- a thread that blocks would not be quiet
      all_goals
        have hyes := hquiet.permitted id (by rw [hheap]; rfl) t ht
        simp [hno] at hyes
  · simp [hquiet.drains] at hloc
  · simp [hquiet.drains] at hloc
  · exact List.Subset.refl _

/-- **A quiet iteration** delivers an event of a thread, and the threads that are runnable after
it have no smaller `last_ts` than that event; or it delivers nothing. -/
theorem QuietStep.delivers (h : QuietStep ndebug env m m') (hm : Reached ndebug env mapper m) :
    ∃ new, m'.state.deliveries = m.state.deliveries ++ new ∧
      (new.map fun d => d.2.ts).Pairwise (· ≤ ·) ∧
      (∀ d ∈ new, ∀ i ∈ m'.state.heap, d.2.ts.toNat ≤ m'.state.key i) ∧
      ∀ d ∈ new, ∀ bound, (∀ i ∈ m.state.heap, bound ≤ m.state.key i) →
        bound ≤ d.2.ts.toNat := by
  rcases deliveries_step h.1 with ⟨t, hd, hnew⟩ | ⟨-, hnew⟩
  · refine ⟨[(t.threadId, t.current)], hnew, List.pairwise_singleton _ _, ?_, ?_⟩
    · intro d hmem i hi
      rw [List.mem_singleton.mp hmem]
      have hi' := h.heap_subset hm hi
      obtain ⟨u, hu⟩ := Option.isSome_iff_exists.mp (hm.arranged.heap_mem hi')
      have hle := (hm.delivers_first hd).2 i u hu ((hm.arranged.runnable hu).mp hi')
      calc t.lastTs.toNat ≤ u.lastTs.toNat := UInt64.le_iff_toNat_le.mp hle
        _ = m.state.key i := (SerializeState.key_of_some hu).symm
        _ ≤ m'.state.key i := h.2.ages i hi
    · intro d hmem bound hbound
      rw [List.mem_singleton.mp hmem]
      obtain ⟨-, id, heap, hheap, ht, -⟩ := hd
      have hle := hbound id (by rw [hheap]; exact List.mem_cons_self ..)
      rwa [SerializeState.key_of_some ht] at hle
  · exact ⟨[], by rw [hnew, List.append_nil], List.Pairwise.nil, by simp, by simp⟩

/-- **A quiet part of the drain loop** delivers in the order of the timestamps, and nothing below
the timestamps of the threads that were runnable before. -/
theorem Reached.quiet_run (hm : Reached ndebug env mapper m)
    (hrun : Relation.ReflTransGen (QuietStep ndebug env) m m') :
    ∃ new, m'.state.deliveries = m.state.deliveries ++ new ∧
      (new.map fun d => d.2.ts).Pairwise (· ≤ ·) ∧
      ∀ d ∈ new, ∀ bound, (∀ i ∈ m.state.heap, bound ≤ m.state.key i) →
        bound ≤ d.2.ts.toNat := by
  -- from the end of the run backwards: the first delivery is a bound for the rest
  induction hrun using Relation.ReflTransGen.head_induction_on with
  | refl => exact ⟨[], by rw [List.append_nil], List.Pairwise.nil, by simp⟩
  | @head m m₁ hstep _ ih =>
    obtain ⟨new, hnew, hpair, hafter, hbelow⟩ := hstep.delivers hm
    obtain ⟨rest, hrest, hpair', hbelow'⟩ := ih (hm.step hstep.1)
    refine ⟨new ++ rest, by rw [hrest, hnew, List.append_assoc], ?_, ?_⟩
    · rw [List.map_append, List.pairwise_append]
      refine ⟨hpair, hpair', ?_⟩
      intro a ha b hb
      obtain ⟨d, hd, rfl⟩ := List.mem_map.mp ha
      obtain ⟨e, he, rfl⟩ := List.mem_map.mp hb
      exact UInt64.le_iff_toNat_le.mpr (hbelow' e he _ (hafter d hd))
    · intro d hd bound hbound
      rcases List.mem_append.mp hd with hd | hd
      · exact hbelow d hd bound hbound
      · refine hbelow' d hd bound fun i hi => ?_
        calc bound ≤ m.state.key i := hbound i (hstep.heap_subset hm hi)
          _ ≤ m₁.state.key i := hstep.2.ages i hi

/-- The `last_ts` of the events delivered between two states. -/
def timestampsSince (m m' : Machine M) : List UInt64 :=
  (m'.state.deliveries.drop m.state.deliveries.length).map fun d => d.2.ts

/-- **The merge is by timestamps**: in every reached state the heap is ordered by the current
`last_ts`; an event is delivered for a runnable thread with the smallest `last_ts`; and in every
part of the drain loop in which nothing but the heap decides the `last_ts` of the delivered events
do not decrease. -/
theorem Reached.merge_ordered (h : Reached ndebug env mapper m) :
    HeapOrdered m.state.key m.state.heap ∧
      (∀ m', m.step ndebug env = .ok m' → m'.state.deliveries ≠ m.state.deliveries →
        ∃ t, m.state.threads t.threadId = some t ∧
          m'.state.deliveries = m.state.deliveries ++ [(t.threadId, t.current)] ∧
          t.Runnable ∧ ∀ i u, m.state.threads i = some u → u.Runnable → t.lastTs ≤ u.lastTs) ∧
      ∀ m', Relation.ReflTransGen (QuietStep ndebug env) m m' →
        (m.timestampsSince m').Pairwise (· ≤ ·) := by
  refine ⟨h.arranged.ordered, fun m' hstep hnew => ?_, fun m' hrun => ?_⟩
  · rcases deliveries_step hstep with ⟨t, hd, hsent⟩ | ⟨-, hsame⟩
    · obtain ⟨hrunnable, hfirst⟩ := h.delivers_first hd
      obtain ⟨-, id, -, -, ht, -⟩ := hd
      exact ⟨t, by rw [h.arranged.ids ht, ht], hsent, hrunnable, hfirst⟩
    · exact absurd hsame hnew
  · obtain ⟨new, hnew, hpair, -⟩ := h.quiet_run hrun
    rw [timestampsSince, hnew, List.drop_left]
    exact hpair

/-! ### A quiet run, computed -/

instance (env : Env) (m m' : Machine M) : Decidable (Quiet env m m') :=
  decidable_of_iff (m.loc = .drain ∧
      (m.state.heap.head?.all fun id =>
        (m.state.threads id).all fun t => m.state.permitted env t) = true ∧
      (m.state.pendingFrees.all fun entry => m'.state.pendingFrees.contains entry) = true ∧
      (m'.state.heap.all fun id => decide (m.state.key id ≤ m'.state.key id)) = true) <| by
    simp only [Option.all_eq_true, List.all_eq_true, decide_eq_true_eq, List.contains_iff_mem]
    exact ⟨fun h => ⟨h.1, h.2.1, h.2.2.1, h.2.2.2⟩,
      fun h => ⟨h.drains, h.permitted, h.waits, h.ages⟩⟩

/-- So many iterations of the drain loop, if they are quiet. -/
def quietRun (ndebug : Bool) (env : Env) : ℕ → Machine M → Option (Machine M)
  | 0, m => some m
  | n + 1, m =>
    match m.step ndebug env with
    | .ok m' => if Quiet env m m' then quietRun ndebug env n m' else none
    | .error _ => none

theorem quietRun_reaches {n : ℕ} (h : m.quietRun ndebug env n = some m') :
    Relation.ReflTransGen (QuietStep ndebug env) m m' := by
  induction n generalizing m with
  | zero =>
    obtain rfl := Option.some.inj h
    exact Relation.ReflTransGen.refl
  | succ n ih =>
    unfold quietRun at h
    cases hstep : m.step ndebug env with
    | error e => simp [hstep] at h
    | ok m₁ =>
      simp only [hstep] at h
      by_cases hquiet : Quiet env m m₁
      · rw [if_pos hquiet] at h
        exact Relation.ReflTransGen.head ⟨hstep, hquiet⟩ (ih h)
      · simp [hquiet] at h

/-- Two threads whose events are interleaved by their timestamps. -/
def interleavedTrace : List UInt8 :=
  writeTrace [.buf 1 4096 0 [.tok 1 1024 0, .malloc 8, .tok 2 3072 0, .malloc 8],
    .buf 2 4096 0 [.tok 5 2048 0, .malloc 8], .end_]

theorem merge_ordered_interleavedTrace :
    ∃ m m', Reached true .tokenSet (ConstMapper.ofBytes 0x10000 interleavedTrace) m ∧
      Relation.ReflTransGen (QuietStep true .tokenSet) m m' ∧
      m.state.heap = [1, 2] ∧ HeapOrdered m.state.key m.state.heap ∧
      m.timestampsSince m' = [1024, 2048, 3072] ∧
      (m.timestampsSince m').Pairwise (· ≤ ·) := by
  obtain ⟨m, hm, hsee⟩ := reached_of_map true .tokenSet
    (ConstMapper.ofBytes 0x10000 interleavedTrace) 3
    (f := fun m => (m.state.heap, (m.quietRun true .tokenSet 3).map (timestampsSince m)))
    (a := ([1, 2], some [1024, 2048, 3072])) (by decide +kernel)
  obtain ⟨hheap, hrun⟩ := Prod.mk.inj hsee
  obtain ⟨m', hquiet, htimes⟩ := Option.map_eq_some_iff.mp hrun
  have hreaches := quietRun_reaches hquiet
  exact ⟨m, m', hm, hreaches, hheap, hm.merge_ordered.1, htimes,
    hm.merge_ordered.2.2 m' hreaches⟩

end Machine

end MallocTraceReplay
