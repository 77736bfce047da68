import MallocTraceReplay.Serializer.Equiv.Accounting

/-!
# Idle, runnable and waiting threads

With a receiver that knows the allocated tokens, a thread in `pending_frees` waits for a token that
is not allocated: the event that allocates it wakes the thread up (`Unallocated`).  Where no token
is used twice, no two threads wait for the same one.  So every thread is idle, runnable or waiting,
and the assertions of the drain loop hold (`Reached.situated`).
-/

namespace MallocTraceReplay

open StepMachine MallocTraceEncoder AltVarintCodec

/-! ### The tokens that are allocated -/

/-- Calls that are not events leave the tokens as they are. -/
theorem liveTokens_append_of_not_event {calls extra : List Call}
    (h : ∀ call ∈ extra, ∀ ev, call ≠ .event ev) :
    liveTokens (calls ++ extra) = liveTokens calls := by
  induction extra using List.reverseRecOn with
  | nil => rw [List.append_nil]
  | append_singleton extra call ih =>
    rw [← List.append_assoc, liveTokens_append, ih fun c hc => h c (List.mem_append_left _ hc)]
    have hcall := h call (by simp)
    cases call with
    | event ev => exact absurd rfl (hcall ev)
    | _ => rfl

namespace SerializeState

variable {env : Env} {mem : UInt64 → Option UInt8} {st st' : SerializeState} {id : UInt64}
  {t t' : FullThreadState}

/-- The tokens that are allocated after the calls made so far. -/
def live (st : SerializeState) : List UInt64 := liveTokens st.calls

theorem live_of_sent (h : st'.sent = st.sent) : st'.live = st.live := by
  rw [live, live, calls, calls, h]

theorem live_append (extra : List Sent) (h : st'.sent = st.sent ++ extra)
    (hextra : ∀ s ∈ extra, ∀ ev, s.call ≠ .event ev) : st'.live = st.live := by
  rw [live, calls, h, List.map_append]
  refine liveTokens_append_of_not_event fun call hcall => ?_
  obtain ⟨s, hs, rfl⟩ := List.mem_map.mp hcall
  exact hextra s hs

@[simp] theorem live_asked : (st.asked t).live = st.live := by
  obtain ⟨extra, h, hextra⟩ := sent_asked st t
  refine live_append extra h fun s hs ev => ?_
  obtain ⟨tok, rfl⟩ := hextra s hs
  simp

theorem live_delivered : (st.delivered t).live = t.lastEvent.apply st.live := by
  have hswitch : ∀ s ∈ (st.asked t).switchCalls t, ∀ ev, s.call ≠ .event ev := by
    intro s hs ev
    unfold switchCalls at hs
    rcases List.mem_append.mp hs with hs | hs <;> split at hs
    · rw [List.mem_singleton.mp hs]; simp
    · simp at hs
    · rw [List.mem_singleton.mp hs]; simp
    · simp at hs
  have hcalls : (st.delivered t).calls =
      ((st.asked t).calls ++ ((st.asked t).switchCalls t).map Sent.call) ++
        [.event t.lastEvent] := by
    rw [delivered, deliver_eq]
    simp [calls]
  rw [live, hcalls, liveTokens_append, liveTokens_append_of_not_event]
  · show t.lastEvent.apply (st.asked t).live = _
    rw [live_asked]
  · intro call hcall
    obtain ⟨s, hs, rfl⟩ := List.mem_map.mp hcall
    exact hswitch s hs

theorem live_goesOn : (st.goesOn env id t t').live = t.lastEvent.apply st.live := by
  rw [live_of_sent (sent_goesOn env st id t t'), live_delivered]

theorem live_finishes : (st.finishes env id t t').live = t.lastEvent.apply st.live := by
  rw [live_append _ sent_finishes, live_delivered]
  intro s hs ev
  split at hs
  · rw [List.mem_singleton.mp hs]
    simp
  · simp at hs

theorem live_wake (ev : InnerEvent) : (st.wake env ev).live = st.live :=
  live_of_sent (sent_wake ev)

theorem live_blocks : (st.blocks env id t).live = st.live := by
  have hsent : (st.blocks env id t).sent = (st.asked t).sent := rfl
  rw [live_of_sent hsent, live_asked]

theorem live_killed : (st.killed t).live = st.live := by
  unfold killed
  split
  · rfl
  · refine live_append [⟨.switchThread t.threadId, some t.origin⟩,
      ⟨.killCurrentThread, some t.origin⟩] (by simp) ?_
    simp

end SerializeState

/-! ### No wake-up is lost -/

/-- A thread waits for a token that is not allocated. -/
def Unallocated (st : SerializeState) : Prop :=
  ∀ tok id, (tok, id) ∈ st.pendingFrees → tok ∉ st.live

namespace Unallocated

variable {env : Env} {mem : UInt64 → Option UInt8} {st st' : SerializeState} {id : UInt64}
  {t t' : FullThreadState}

theorem of_eq (h : Unallocated st) (hpending : st'.pendingFrees = st.pendingFrees)
    (hlive : st'.live = st.live) : Unallocated st' := by
  unfold Unallocated
  rw [hpending, hlive]
  exact h

/-- **Waking up**: after an event is delivered, no thread waits for the token it allocated. -/
theorem wake {ev : InnerEvent} (hs : Scheduled st)
    (h : ∀ tok id, (tok, id) ∈ st.pendingFrees → tok ∈ st.live → ev.newTok? = some tok)
    (hne : ev.newTok? ≠ some kEmptyTok) : Unallocated (st.wake env ev) := by
  intro tok id hmem hlive
  rw [SerializeState.live_wake] at hlive
  unfold SerializeState.wake at hmem
  cases hnew : ev.newTok? with
  | none =>
    -- nothing was allocated
    rw [hnew, Option.getD_none, if_neg (by simp)] at hmem
    simpa [hnew] using h tok id hmem hlive
  | some new =>
    have hnot : new ≠ kEmptyTok := fun heq => hne (by rw [hnew, heq])
    rw [hnew, Option.getD_some, if_pos hnot] at hmem
    cases hwait : st.pendingFrees.lookup new with
    | none =>
      -- nobody waits for the new token
      rw [Scheduled.addAllocated_of_none hwait] at hmem
      have htok := h tok id hmem hlive
      rw [hnew] at htok
      obtain rfl := Option.some.inj htok
      have := List.lookup_eq_none_iff.mp hwait _ hmem
      simp at this
    | some i =>
      -- the thread that waited for it is out of `pending_frees`
      obtain ⟨u, -, -, heq⟩ := hs.addAllocated_of_some env hwait
      rw [heq] at hmem
      obtain ⟨hmem, hkey⟩ := List.mem_filter.mp hmem
      have htok := h tok id hmem hlive
      rw [hnew] at htok
      simp [Option.some.inj htok] at hkey

/-- An iteration of the drain loop, for an event that does not allocate the empty token. -/
theorem drainBody (hf : env.Faithful) (hs : Scheduled st) (h : Unallocated st)
    {heap : List UInt64} (hheap : st.heap = id :: heap)
    (hne : ∀ t, st.threads id = some t → t.lastEvent.newTok? ≠ some kEmptyTok)
    (hstep : st.drainBody false env mem id = .ok st') : Unallocated st' := by
  obtain ⟨t, ht, -, hbufs, ⟨-, ok, t', hupdate, rfl⟩ | ⟨hperm, -, rfl⟩⟩ :=
    SerializeState.drainBody_cases hstep
  · have hu := FullThreadState.updateLastEvent_frame hbufs hupdate
    have hnew : ∀ tok i, (tok, i) ∈ st.pendingFrees → tok ∈ t.lastEvent.apply st.live →
        t.lastEvent.newTok? = some tok := fun tok i hmem hlive =>
      (mem_apply.mp hlive).resolve_right fun hold => h tok i hmem hold.1
    cases ok with
    | true =>
      rw [if_pos rfl]
      refine wake (hs.goesOn hheap ht hu) (fun tok i hmem hlive => ?_) (hne t ht)
      rw [Scheduled.goesOn_pendingFrees] at hmem
      rw [SerializeState.live_goesOn] at hlive
      exact hnew tok i hmem hlive
    | false =>
      rw [if_neg (by simp)]
      refine wake (hs.finishes hheap ht hu) (fun tok i hmem hlive => ?_) (hne t ht)
      rw [Scheduled.finishes_pendingFrees] at hmem
      rw [SerializeState.live_finishes] at hlive
      exact hnew tok i hmem hlive
  · -- the token that the thread waits for now was not allocated when it was asked for
    intro tok i hmem
    rw [SerializeState.live_blocks]
    rcases List.mem_cons.mp hmem with heq | hmem
    · obtain ⟨rfl, rfl⟩ := Prod.mk.inj heq
      intro hlive
      have hallocated := (hf st.calls _).mpr hlive
      rw [(SerializeState.waitTok?_of_not_permitted hperm).2] at hallocated
      simp at hallocated
    · exact h tok i hmem

end Unallocated

/-! ### Situations -/

/-- Nothing to do until a buffer arrives. -/
def SerializeState.Idle (st : SerializeState) (id : UInt64) (t : FullThreadState) : Prop :=
  t.bufs = [] ∧ t.activeStream = none ∧ id ∉ st.heap ∧ ∀ tok, (tok, id) ∉ st.pendingFrees

/-- Ready to deliver an event. -/
def SerializeState.Runnable (st : SerializeState) (id : UInt64) (t : FullThreadState) : Prop :=
  t.bufs ≠ [] ∧ st.heap.count id = 1 ∧ ∀ tok, (tok, id) ∉ st.pendingFrees

/-- Waiting for the token that its event consumes, which the receiver does not have. -/
def SerializeState.Waiting (env : Env) (st : SerializeState) (id : UInt64)
    (t : FullThreadState) : Prop :=
  t.bufs ≠ [] ∧ id ∉ st.heap ∧ t.inPendingFrees = true ∧
    ∃ tok, st.pendingFrees.filter (fun entry => entry.2 = id) = [(tok, id)] ∧
      t.lastEvent.waitTok? = some tok ∧ env.hasAllocated st.calls tok = false

/-- A list without duplicates of what is picked has one element that picks a given one. -/
theorem filter_eq_singleton_of_nodup_map {α β : Type} [DecidableEq β] {f : α → β} {l : List α}
    (h : (l.map f).Nodup) {a : α} (ha : a ∈ l) : l.filter (fun x => f x = f a) = [a] := by
  induction l with
  | nil => simp at ha
  | cons x xs ih =>
    rw [List.map_cons, List.nodup_cons] at h
    rcases List.mem_cons.mp ha with rfl | ha
    · rw [List.filter_cons_of_pos (by simp), List.filter_eq_nil_iff.mpr]
      intro y hy
      simp only [decide_eq_true_eq]
      exact fun heq => h.1 (heq ▸ List.mem_map_of_mem hy)
    · rw [List.filter_cons_of_neg, ih h.2 ha]
      simp only [decide_eq_true_eq]
      exact fun heq => h.1 (heq ▸ List.mem_map_of_mem ha)

/-- **Every thread is idle, runnable or waiting.** -/
theorem Scheduled.situation {env : Env} {st : SerializeState} (hf : env.Faithful)
    (hs : Scheduled st) (h : Unallocated st) {id : UInt64} {t : FullThreadState}
    (ht : st.threads id = some t) :
    st.Idle id t ∨ st.Runnable id t ∨ st.Waiting env id t := by
  have hp := hs.placed ht
  by_cases hbufs : t.bufs = []
  · obtain ⟨hflag, hheap⟩ := hp.idle hbufs
    refine Or.inl ⟨hbufs, ?_, hheap, hp.not_pending hflag⟩
    by_contra hno
    exact hp.stream.mp (Option.isSome_iff_ne_none.mpr hno) hbufs
  · by_cases hflag : t.inPendingFrees = true
    · obtain ⟨tok, htok⟩ := hp.mem_pending.mpr hflag
      refine Or.inr (Or.inr ⟨hbufs, fun hheap => ?_, hflag, tok, ?_, hp.waits tok htok, ?_⟩)
      · simpa [hflag] using (hp.mem_heap.mp hheap).2
      · exact filter_eq_singleton_of_nodup_map hs.ids_nodup htok
      · rw [← Bool.not_eq_true]
        exact fun hyes => h tok id htok ((hf st.calls tok).mp hyes)
    · have hflag : t.inPendingFrees = false := by simpa using hflag
      refine Or.inr (Or.inl ⟨hbufs, ?_, hp.not_pending hflag⟩)
      exact List.count_eq_one_of_mem hs.heap_nodup (hp.mem_heap.mpr ⟨hbufs, hflag⟩)

/-- A thread is in one situation only. -/
theorem SerializeState.situations_disjoint {env : Env} {st : SerializeState} {id : UInt64}
    {t : FullThreadState} :
    ¬ (st.Idle id t ∧ st.Runnable id t) ∧ ¬ (st.Idle id t ∧ st.Waiting env id t) ∧
      ¬ (st.Runnable id t ∧ st.Waiting env id t) := by
  refine ⟨fun h => h.2.1 h.1.1, fun h => h.2.1 h.1.1, fun h => h.2.2.1 ?_⟩
  exact List.count_pos_iff.mp (by rw [h.1.2.1]; exact Nat.one_pos)

/-! ### Bytes that cannot be decoded -/

/-- The reasons for which the decoder stops. -/
def Abort.Undecodable (e : Abort) : Prop :=
  e = .panic "trying to realize with min_amount beyond end of data" ∨ e = .panic "unknown type"

theorem readWord_error {bytes : List UInt8} {e : Abort} (h : readWord bytes = .error e) :
    e.Undecodable := by
  unfold readWord at h
  cases hv : readVarint bytes with
  | none =>
    rw [hv] at h
    exact Or.inl (Except.error.inj h).symm
  | some r => simp [hv] at h

/-- A record that ends too early, or of another type. -/
theorem readRecord_error {t : ThreadState} {bytes : List UInt8} {e : Abort}
    (h : readRecord t bytes = .error e) : e.Undecodable := by
  unfold readRecord at h
  rcases bind_eq_error.mp h with h | ⟨⟨w, rest⟩, -, h⟩
  · exact readWord_error h
  · cases htype : EventType.ofCode? (decodeType w) with
    | none =>
      simp only [htype, throw_eq_error, Except.error.injEq] at h
      exact Or.inr h.symm
    | some type =>
      cases type with
      | malloc | free | freeSized => simp [htype] at h
      | tok | realloc | memalign =>
        simp only [htype] at h
        rcases bind_eq_error.mp h with h | ⟨r, -, h⟩
        · exact readWord_error h
        · simp at h
      | buf | death | end_ | syncBarrier =>
        simp only [htype, throw_eq_error, Except.error.injEq] at h
        exact Or.inr h.symm

theorem decodeBytes_error {t : ThreadState} {bytes : List UInt8} {e : Abort}
    (h : (decodeBytes t bytes).2 = .error e) : e.Undecodable := by
  induction hlen : bytes.length using Nat.strong_induction_on generalizing t bytes with
  | _ n ih =>
    cases bytes with
    | nil => simp [Decoding.pure] at h
    | cons b bs =>
      rw [decodeBytes_cons] at h
      cases hr : readRecord t (b :: bs) with
      | error e' =>
        rw [hr] at h
        rw [← Except.error.inj h]
        exact readRecord_error hr
      | ok r =>
        obtain ⟨ev?, t', rest⟩ := r
        have hlt := readRecord_length_lt hr
        cases ev? with
        | none => simp only [hr] at h; exact ih _ (by omega) h rfl
        | some ev => simp only [hr, Decoding.cons] at h; exact ih _ (by omega) h rfl

theorem decodeBufs_error {mem : UInt64 → Option UInt8} {evs : List OuterEvent}
    {t : ThreadState} {e : Abort} (h : (decodeBufs mem evs t).2 = .error e) : e.Undecodable := by
  induction evs generalizing t with
  | nil => simp [decodeBufs, Decoding.pure] at h
  | cons ev evs ih =>
    rw [decodeBufs, decodeBuf, Decoding.andThen_assoc] at h
    unfold Decoding.andThen at h
    cases hd : (decodeBytes t (bufBytes mem ev)).2 with
    | error e' =>
      rw [hd] at h
      rw [← Except.error.inj h]
      exact decodeBytes_error hd
    | ok t' =>
      rw [hd] at h
      exact ih h

/-- **`update_last_event` stops** where the bytes of the thread cannot be decoded. -/
theorem updateLastEvent_error {stack : StackBytes} {mem : UInt64 → Option UInt8}
    {t : FullThreadState} {rest : List UInt8} {e : Abort} (hr : Reading mem t rest)
    (h : t.updateLastEvent stack mem = .error e) : e.Undecodable := by
  have hspec := FullThreadState.updateLastEvent_eq stack hr
  rcases hrem : remaining mem t rest with ⟨es, r⟩
  simp only [hrem] at hspec
  cases es with
  | cons e' es =>
    obtain ⟨t', rest', heq, -⟩ := hspec
    simp [h] at heq
  | nil =>
    cases r with
    | ok ts =>
      obtain ⟨t', heq, -⟩ := hspec
      simp [h] at heq
    | error e' =>
      rw [h] at hspec
      rw [Except.error.inj hspec]
      have hsnd : (remaining mem t rest).2 = .error e' := by rw [hrem]
      unfold remaining Decoding.andThen at hsnd
      -- the record that is not decoded is in the active buffer, or in a later one
      cases hd : (decodeBytes t.toThreadState rest).2 with
      | error e'' =>
        rw [hd] at hsnd
        rw [← Except.error.inj hsnd]
        exact decodeBytes_error hd
      | ok t' =>
        rw [hd] at hsnd
        exact decodeBufs_error hsnd

theorem updateLastEvent_ne_assertion {stack : StackBytes} {mem : UInt64 → Option UInt8}
    {t : FullThreadState} {rest : List UInt8} {e : Abort} (hr : Reading mem t rest)
    (h : t.updateLastEvent stack mem = .error e) (which : Assertion) : e ≠ .assertion which := by
  rcases updateLastEvent_error hr h with rfl | rfl
  · simp
  · simp

/-! ### Over whole runs -/

namespace Machine

variable {env : Env} {b : UInt64} {data : List UInt8} {m m' : Machine ConstMapper}

/-- The current event of a thread with buffers is the next one recorded. -/
theorem Reached.current_mem (h : InUserSpace b data)
    (hm : Reached false env (ConstMapper.ofBytes b data) m) {id : UInt64} {t : FullThreadState}
    (ht : m.state.threads id = some t) (hbufs : t.bufs ≠ []) :
    (m.input.events env id)[(m.state.eventsFor id).length]? = some t.current := by
  have hbooks := hm.books h id
  rw [SerializeState.threadFor_of_some ht] at hbooks
  rw [Input.events, hm.mem_eq h]
  exact hbooks.current hbufs

/-- **No lost wake-up**, in every reached state. -/
theorem Reached.unallocated (h : InUserSpace b data) (hf : env.Faithful)
    (hne : TokensNotEmpty env (ConstMapper.ofBytes b data))
    (hm : Reached false env (ConstMapper.ofBytes b data) m) : Unallocated m.state := by
  refine hm.invariant (I := fun m => Unallocated m.state) (fun m hstart => ?_)
    fun m m' hm hI hstep => ?_
  · obtain ⟨-, hstate, -⟩ := start_state hstart
    rw [hstate]
    intro tok id hmem
    simp [SerializeState.init] at hmem
  · have hs := hm.scheduled
    rcases step_cases hstep with ⟨-, item, -, hcases⟩ | ⟨-, -, hcases⟩ |
      ⟨id, todo, next, carried, -, -, hst, -⟩ | ⟨next, -, -, -, hst⟩ | ⟨-, rfl⟩
    · -- reading asks for nothing, and delivers nothing
      rcases hcases with ⟨-, -, hst⟩ | ⟨-, ev, -, ⟨-, hst⟩ | ⟨-, hst⟩⟩
      · rw [hst]; exact hI
      · obtain ⟨-, ⟨-, hst⟩ | ⟨-, ok, t', -, hst⟩⟩ := SerializeState.bufArrives_cases hst
        · exact hI.of_eq (by rw [hst]; rfl) (SerializeState.live_of_sent (by rw [hst]; rfl))
        · cases ok with
          | true =>
            exact hI.of_eq (by rw [hst]; rfl) (SerializeState.live_of_sent (by rw [hst]; rfl))
          | false =>
            exact hI.of_eq (by rw [hst]; rfl) (SerializeState.live_of_sent (by rw [hst]; rfl))
      · obtain ⟨t, -, -, hst⟩ := SerializeState.deathArrives_cases hst
        exact hI.of_eq (by rw [hst]; rfl) (SerializeState.live_of_sent (by rw [hst]; rfl))
    · rcases hcases with ⟨-, -, hst⟩ | ⟨-, id, heap, hheap, hst⟩
      · rw [hst]; exact hI
      · refine hI.drainBody hf hs hheap (fun t ht => ?_) hst
        -- the event that is delivered is one of the trace
        obtain ⟨u, hu, -, hbufs, -⟩ := hs.front hheap
        rw [ht] at hu
        obtain rfl := Option.some.inj hu
        have hmem := hm.current_mem h ht hbufs
        exact hne m.input hm.reads.input id _ (List.mem_of_getElem? hmem)
    · -- a thread that goes was waiting for nothing, and one that is carried over stays as it is
      obtain ⟨t, -, -, -, ⟨-, -, -, hst⟩ | ⟨-, -, -, hst⟩⟩ := SerializeState.toDieBody_cases hst
      · rw [hst]; exact hI
      · refine hI.of_eq (by rw [hst]; exact SerializeState.pendingFrees_killed) ?_
        rw [hst]
        exact SerializeState.live_killed
    · refine hI.of_eq (by rw [hst]; rfl) ?_
      exact SerializeState.live_append [⟨.barrier, none⟩] (by rw [hst]; rfl) (by simp)
    · exact hI

/-- Two threads do not wait for the same token, where no token is consumed twice. -/
theorem lookup_eq_none {st : SerializeState} (hs : Scheduled st)
    {seq : UInt64 → List TraceEvent} (honce : UsedOnce InnerEvent.waitTok? seq)
    (hcurrent : ∀ {id t}, st.threads id = some t → t.bufs ≠ [] →
      (seq id)[(st.eventsFor id).length]? = some t.current)
    {id : UInt64} {heap : List UInt64} (hheap : st.heap = id :: heap) {t : FullThreadState}
    (ht : st.threads id = some t) {tok : UInt64} (hwait : t.lastEvent.waitTok? = some tok) :
    st.pendingFrees.lookup tok = none := by
  obtain ⟨u, hu, -, hbufs, hflag⟩ := hs.front hheap
  rw [ht] at hu
  obtain rfl := Option.some.inj hu
  cases hlookup : st.pendingFrees.lookup tok with
  | none => rfl
  | some i =>
    obtain ⟨l₁, l₂, hl, -⟩ := List.lookup_eq_some_iff.mp hlookup
    have hmem : (tok, i) ∈ st.pendingFrees := by rw [hl]; simp
    obtain ⟨u, hu⟩ := Option.isSome_iff_exists.mp (hs.pending_mem hmem)
    have hp := hs.placed hu
    have huflag := hp.mem_pending.mp ⟨tok, hmem⟩
    obtain ⟨rfl, -⟩ := honce (hcurrent ht hbufs) (hcurrent hu (hp.busy huflag)) hwait
      (hp.waits tok hmem)
    rw [ht] at hu
    rw [← Option.some.inj hu, hflag] at huflag
    exact absurd huflag (by simp)

theorem Reached.lookup_eq_none (h : InUserSpace b data)
    (honce : TokensUsedOnce env (ConstMapper.ofBytes b data))
    (hm : Reached false env (ConstMapper.ofBytes b data) m) {id : UInt64} {heap : List UInt64}
    (hheap : m.state.heap = id :: heap) {t : FullThreadState} (ht : m.state.threads id = some t)
    {tok : UInt64} (hwait : t.lastEvent.waitTok? = some tok) :
    m.state.pendingFrees.lookup tok = none :=
  Machine.lookup_eq_none hm.scheduled (honce m.input hm.reads.input).2
    (fun ht hbufs => hm.current_mem h ht hbufs) hheap ht hwait

/-- What is meant by the state of the scheduler to be right. -/
structure Situated (env : Env) (m : Machine ConstMapper) : Prop where
  threads : ∀ id t, m.state.threads id = some t →
    (m.state.Idle id t ∨ m.state.Runnable id t ∨ m.state.Waiting env id t) ∧
      ¬ (m.state.Idle id t ∧ m.state.Runnable id t) ∧
      ¬ (m.state.Idle id t ∧ m.state.Waiting env id t) ∧
      ¬ (m.state.Runnable id t ∧ m.state.Waiting env id t)
  batchEnd : m.loc ≠ .records → m.loc ≠ .drain → m.state.heap = []
  asserts : m.loc = .drain → ∀ which, m.step false env ≠ .error (.assertion which)

/-- **The scheduler**: in every reached state each thread is idle, runnable or waiting, the heap
is empty at the end of a batch, and no assertion of the drain loop fails. -/
theorem Reached.situated (h : InUserSpace b data) (hf : env.Faithful)
    (honce : TokensUsedOnce env (ConstMapper.ofBytes b data))
    (hne : TokensNotEmpty env (ConstMapper.ofBytes b data))
    (hm : Reached false env (ConstMapper.ofBytes b data) m) : m.Situated env where
  threads id t ht := ⟨hm.scheduled.situation hf (hm.unallocated h hf hne) ht,
    SerializeState.situations_disjoint⟩
  batchEnd hrecords hdrain := hm.heap_eq_nil hrecords hdrain
  asserts hloc which hstep := by
    rw [Machine.step, hloc] at hstep
    simp only [stepDrain] at hstep
    cases hheap : m.state.heap with
    | nil => simp [hheap] at hstep
    | cons id heap =>
      simp only [hheap] at hstep
      obtain ⟨t, ht, hstream, hbufs, -⟩ := hm.scheduled.front hheap
      have hbody : m.state.drainBody false env m.input.mem id = .error (.assertion which) := by
        -- only the drain body has assertions; the calls before it fail otherwise or not at all
        rcases bind_eq_error.mp hstep with h | ⟨st, -, h⟩
        · exact h
        · simp at h
      rw [SerializeState.drainBody_eq ht hstream hbufs] at hbody
      -- the thread goes on, and what its bytes decode to gives panics only
      by_cases hperm : m.state.permitted env t = true
      · rw [if_pos hperm] at hbody
        have hbooks := hm.books h id
        rw [SerializeState.threadFor_of_some ht] at hbooks
        obtain ⟨d, hd, -⟩ := hbooks
        obtain ⟨rest, hr, -⟩ := hd.reading hbufs
        rw [hm.mem_eq h] at hbody
        cases hu : t.updateLastEvent env.stack (ConstMapper.ofBytes b data).mem with
        | error e =>
          rw [hu] at hbody
          exact updateLastEvent_ne_assertion hr hu which (Except.error.inj hbody)
        | ok r =>
          obtain ⟨ok, t'⟩ := r
          rw [hu] at hbody
          cases ok <;> simp at hbody
      · -- it blocks, and nobody else waits for a token that is consumed once
        rw [if_neg hperm] at hbody
        have hnone := hm.lookup_eq_none h honce hheap ht
          (SerializeState.waitTok?_of_not_permitted (Bool.eq_false_iff.mpr hperm)).1
        rw [hnone] at hbody
        simp at hbody

theorem situated_waitingTrace :
    ∃ m, Reached false .tokenSet (ConstMapper.ofBytes 0x10000 waitingTrace) m ∧
      m.loc = .returned ∧ m.state.pendingFrees = [(9, 2)] ∧ m.Situated .tokenSet := by
  have hspace : InUserSpace 0x10000 waitingTrace := ⟨by decide +kernel, by decide +kernel⟩
  obtain ⟨i, hi, hmeets⟩ := Input.reached_of_map .tokenSet
    (ConstMapper.ofBytes 0x10000 waitingTrace) 5
    (f := fun i => i.meets .tokenSet [1, 2]) (a := true) (by decide +kernel)
  obtain ⟨honce, hne, -⟩ := hi.conditions hspace hmeets
  obtain ⟨m, hm, hsee⟩ := reached_of_map false .tokenSet
    (ConstMapper.ofBytes 0x10000 waitingTrace) 16
    (f := fun m => (m.loc, m.state.pendingFrees)) (a := (.returned, [(9, 2)]))
    (by decide +kernel)
  obtain ⟨hloc, hpending⟩ := Prod.mk.inj hsee
  exact ⟨m, hm, hloc, hpending, hm.situated hspace Env.faithful_tokenSet honce hne⟩

end Machine

end MallocTraceReplay
