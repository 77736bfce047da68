import Mathlib.Algebra.BigOperators.Group.Finset.Basic
import Mathlib.Algebra.Order.BigOperators.Group.Finset
import Mathlib.Data.Prod.Lex
import MallocTraceReplay.Stream.Equiv.ConstProgress
import MallocTraceReplay.Serializer.Equiv.Scheduled

/-!
# The drain loop terminates

A thread that is drained has its next event decoded, which takes bytes of its buffers or ends them
(`FullThreadState.updateLastEvent_progress`); a thread that blocks leaves the heap and has decoded
nothing.  So an iteration lessens the bytes that are left or, with the same bytes left, the heap
(`Machine.stepDrain_progress`), and the loop ends or aborts (`Machine.Reached.drain_terminates`).
-/

namespace MallocTraceReplay

open AltVarintCodec MallocTraceEncoder MemStream StepMachine

/-! ### One event -/

section Events

variable {s s' : MemStream ConstMapper} {stack : StackBytes}

theorem bytesLeft_lt (hmapper : s'.mapper = s.mapper) (hlt : s.ptr.toNat < s'.ptr.toNat)
    (hptr : s.ptr.toNat < s.limit) : bytesLeft s' < bytesLeft s := by
  unfold limit at hptr
  unfold bytesLeft
  rw [hmapper]
  omega

/-- What decoding an event comes to: bytes are taken if there is one, or the program stops. -/
def DecodesOn (s : MemStream ConstMapper) :
    Except Abort (Option InnerEvent × ThreadState × MemStream ConstMapper) → Prop
  | .error e => e ≠ .outOfFuel
  | .ok (ev?, _, s') => s'.Bounded ∧ (ev?.isSome = true → bytesLeft s' < bytesLeft s)

theorem DecodesOn.of_lt {r : Except Abort (Option InnerEvent × ThreadState × MemStream ConstMapper)}
    (h : DecodesOn s' r) (hlt : bytesLeft s' < bytesLeft s) : DecodesOn s r := by
  cases r with
  | error e => exact h
  | ok r => exact ⟨h.1, fun hev => (h.2 hev).trans hlt⟩

/-- **The recursion over `Tok` events ends**: each of them takes bytes. -/
theorem readInner_progress (stack : StackBytes) {fuel : ℕ} (h : s.Bounded)
    (hfuel : bytesLeft s < fuel)
    (t : ThreadState) : DecodesOn s (readInner stack fuel t s) := by
  induction fuel generalizing s t with
  | zero => omega
  | succ fuel ih =>
    obtain ⟨more, s₁, hmore, h₁, hmapper₁, hptr₁, hbytes⟩ := h.hasMore
    rw [readInner, hmore, ok_bind]
    cases more with
    | false => exact ⟨h₁, by simp⟩
    | true =>
      have hlimit₁ : s₁.limit = s.limit := by rw [limit, hmapper₁, limit]
      have hword := h₁.mustReadVarint (by rw [hlimit₁, hptr₁]; exact (hbytes rfl).le) stack
      dsimp only
      rw [if_neg (by simp)]
      cases hw : s₁.mustReadVarint stack with
      | error e =>
        rw [hw] at hword
        exact hword
      | ok r =>
        obtain ⟨w, s₂⟩ := r
        rw [hw] at hword
        obtain ⟨h₂, hmapper₂, hlt₂, hle₂⟩ := hword
        have hless : bytesLeft s₂ < bytesLeft s :=
          bytesLeft_lt (hmapper₂.trans hmapper₁) (by rw [← hptr₁]; exact hlt₂) (hbytes rfl)
        have hword₂ := h₂.mustReadVarint hle₂ stack
        rw [ok_bind]
        dsimp only
        -- an event of two words
        have htwo : ∀ f : UInt64 → Option InnerEvent × ThreadState,
            DecodesOn s (s₂.mustReadVarint stack >>= fun r =>
              Except.ok ((f r.1).1, (f r.1).2, r.2)) := by
          intro f
          cases hw₂ : s₂.mustReadVarint stack with
          | error e =>
            rw [hw₂] at hword₂
            exact hword₂
          | ok r =>
            rw [hw₂] at hword₂
            obtain ⟨h₃, hmapper₃, hlt₃, hle₃⟩ := hword₂
            have hlimit₃ : r.2.limit = s₂.limit := by rw [limit, hmapper₃, limit]
            have hless₃ := bytesLeft_lt hmapper₃ hlt₃ (by omega)
            exact ⟨h₃, fun _ => hless₃.trans hless⟩
        cases htype : EventType.ofCode? (decodeType w) with
        | none => simp [DecodesOn]
        | some type =>
          cases type with
          | malloc | free | freeSized => exact ⟨h₂, fun _ => hless⟩
          | buf | death | end_ | syncBarrier => simp [DecodesOn]
          | realloc => exact htwo fun w₂ =>
              (some (t.consumeRealloc w w₂).1, (t.consumeRealloc w w₂).2)
          | memalign => exact htwo fun w₂ =>
              (some (t.consumeMemalign w w₂).1, (t.consumeMemalign w w₂).2)
          | tok =>
            dsimp only
            cases hw₂ : s₂.mustReadVarint stack with
            | error e =>
              rw [hw₂] at hword₂
              exact hword₂
            | ok r =>
              rw [hw₂] at hword₂
              obtain ⟨h₃, hmapper₃, hlt₃, hle₃⟩ := hword₂
              have hlimit₃ : r.2.limit = s₂.limit := by rw [limit, hmapper₃, limit]
              have hless₃ := bytesLeft_lt hmapper₃ hlt₃ (by omega)
              have hrest := ih h₃ (by omega) (t.consumeTok w r.1)
              exact hrest.of_lt (hless₃.trans hless)

end Events

/-! ### One thread -/

/-- A buffer that ends in user space. -/
def OuterEvent.Finite (ev : OuterEvent) : Prop := ev.bufEnd.toNat ≤ 2 ^ 63

/-- The stream over a buffer. -/
theorem bounded_constMemStream {mem : UInt64 → Option UInt8} {ev : OuterEvent} (h : ev.Finite) :
    (constMemStream mem ev.bufStart ev.bufEnd).Bounded where
  limit_le := by
    show (ev.bufStart + (ev.bufEnd - ev.bufStart)).toNat ≤ _
    rw [UInt64.add_comm, UInt64.sub_add_cancel]
    exact h
  window hlt := absurd hlt (Nat.lt_irrefl _)
  strict := rfl

/-- The length of a buffer; one that ends before it starts has none. -/
def OuterEvent.length (ev : OuterEvent) : ℕ := ev.bufEnd.toNat - ev.bufStart.toNat

theorem bytesLeft_constMemStream {mem : UInt64 → Option UInt8} {ev : OuterEvent} :
    bytesLeft (constMemStream mem ev.bufStart ev.bufEnd) = ev.length := by
  show (ev.bufStart + (ev.bufEnd - ev.bufStart)).toNat - ev.bufStart.toNat = _
  rw [UInt64.add_comm, UInt64.sub_add_cancel]
  rfl

namespace FullThreadState

/-- The thread's stream and buffers are finite. -/
structure Finite (t : FullThreadState) : Prop where
  stream : ∀ s, t.activeStream = some s → s.Bounded
  bufs : ∀ ev ∈ t.bufs, ev.Finite

/-- The bytes that the thread can still decode, and one for the event that is decoded. -/
def bytes (t : FullThreadState) : ℕ :=
  match t.activeStream with
  | none => 0
  | some s => 1 + bytesLeft s + (t.bufs.tail.map OuterEvent.length).sum

variable {t t' : FullThreadState} {stack : StackBytes} {mem : UInt64 → Option UInt8} {ok : Bool}

/-- What `update_last_event` comes to: less is left to decode, or the program stops. -/
def Lessens (t : FullThreadState) : Except Abort (Bool × FullThreadState) → Prop
  | .error e => e ≠ .outOfFuel
  | .ok (_, t') => t'.Finite ∧ t'.bytes < t.bytes

/-- `update_last_event_inner`: an event takes bytes of the stream. -/
theorem updateLastEventInner_progress (stack : StackBytes) (h : t.Finite) :
    match t.updateLastEventInner stack with
    | .error e => e ≠ .outOfFuel
    | .ok (ok, t') => t'.Finite ∧ t'.bufs = t.bufs ∧ (ok = true → t'.bytes < t.bytes) ∧
        0 < t.bytes ∧ (t.bufs.tail.map OuterEvent.length).sum < t.bytes := by
  unfold updateLastEventInner
  cases hs : t.activeStream with
  | none => simp
  | some s =>
    have hread := readInner_progress stack (h.stream s hs) (Nat.lt_succ_self _)
      t.toThreadState
    dsimp only
    cases hr : readInner stack (bytesLeft s + 1) t.toThreadState s with
    | error e =>
      rw [hr] at hread
      exact hread
    | ok r =>
      obtain ⟨ev?, ts, s'⟩ := r
      rw [hr] at hread
      obtain ⟨hs', hless⟩ := hread
      have hbytes : t.bytes = 1 + bytesLeft s + (t.bufs.tail.map OuterEvent.length).sum := by
        rw [bytes, hs]
      refine ⟨⟨fun s'' heq => ?_, h.bufs⟩, rfl, fun hok => ?_, by omega, by omega⟩
      · rw [← Option.some.inj heq]
        exact hs'
      · have := hless hok
        rw [hbytes]
        show 1 + bytesLeft s' + (t.bufs.tail.map OuterEvent.length).sum < _
        omega

/-- **The loop of `update_last_event` ends**: every iteration but the last drops a buffer. -/
theorem updateLoop_progress (stack : StackBytes) (mem : UInt64 → Option UInt8) {fuel : ℕ}
    (h : t.Finite) (hfuel : t.bufs.length < fuel) :
    Lessens t (updateLoop stack mem fuel t) := by
  induction fuel generalizing t with
  | zero => omega
  | succ fuel ih =>
    have hinner := updateLastEventInner_progress stack h
    rw [updateLoop]
    cases hi : t.updateLastEventInner stack with
    | error e =>
      rw [hi] at hinner
      exact hinner
    | ok r =>
      obtain ⟨ok, t₁⟩ := r
      rw [hi] at hinner
      obtain ⟨h₁, hbufs₁, hless, hpos, htail⟩ := hinner
      rw [ok_bind]
      cases ok with
      -- an event takes at least one byte of the active buffer
      | true => exact ⟨h₁, hless rfl⟩
      -- the active buffer has run out
      | false =>
        dsimp only
        rw [if_neg (by simp)]
        cases hb : t₁.bufs with
        | nil => simp [Lessens]
        | cons front later =>
          cases later with
          | nil =>
            refine ⟨⟨by simp, by simp⟩, ?_⟩
            show 0 < t.bytes
            exact hpos
          | cons next later =>
            rw [← hbufs₁, hb, List.tail_cons, List.map_cons, List.sum_cons] at htail
            rw [← hbufs₁, hb] at hfuel
            dsimp only
            -- the next buffer is opened
            set t₂ : FullThreadState := { t₁ with
              toThreadState := t₁.toThreadState.updateWithBuf t₁.activeBuf
              bufs := next :: later, activeBuf := next
              activeStream := some (constMemStream mem next.bufStart next.bufEnd) } with ht₂
            have hnext : ∀ ev ∈ next :: later, ev.Finite := fun ev hev =>
              h₁.bufs ev (by rw [hb]; exact List.mem_cons_of_mem _ hev)
            have h₂ : t₂.Finite := by
              refine ⟨fun s hs => ?_, hnext⟩
              rw [← Option.some.inj hs]
              exact bounded_constMemStream (hnext next (List.mem_cons_self ..))
            have hbytes₂ : t₂.bytes = 1 + next.length + (later.map OuterEvent.length).sum := by
              show 1 + bytesLeft (constMemStream mem next.bufStart next.bufEnd) + _ = _
              rw [bytesLeft_constMemStream]
              rfl
            -- it starts with no more than was left, and the loop lessens that
            have hloop :=
              ih h₂ (by simp only [List.length_cons] at hfuel; exact Nat.lt_of_succ_lt_succ hfuel)
            cases hr : updateLoop stack mem fuel t₂ with
            | error e =>
              rw [hr] at hloop
              exact hloop
            | ok r =>
              rw [hr] at hloop
              exact ⟨hloop.1, by have := hloop.2; omega⟩

/-- **`update_last_event`** leaves less to decode. -/
theorem updateLastEvent_progress (stack : StackBytes) (mem : UInt64 → Option UInt8) (h : t.Finite) :
    Lessens t (t.updateLastEvent stack mem) := by
  have hseeing : (t.seeing mem).Finite := by
    refine ⟨fun s hs => ?_, h.bufs⟩
    obtain ⟨s₀, hs₀, rfl⟩ := Option.map_eq_some_iff.mp hs
    have hb := h.stream s₀ hs₀
    exact ⟨hb.limit_le, hb.window, hb.strict⟩
  have hsame : (t.seeing mem).bytes = t.bytes := by
    unfold bytes seeing
    cases t.activeStream <;> rfl
  have hloop := updateLoop_progress stack mem hseeing (Nat.lt_succ_self _)
  unfold Lessens at hloop ⊢
  rw [hsame] at hloop
  exact hloop

end FullThreadState

/-! ### All threads -/

namespace SerializeState

variable {env : Env} {mem : UInt64 → Option UInt8} {st st' : SerializeState} {id : UInt64}
  {ndebug : Bool}

/-- All buffers are finite. -/
def FiniteBuffers (st : SerializeState) : Prop := ∀ id t, st.threads id = some t → t.Finite

/-- The bytes that a thread has left. -/
def bytesOf (st : SerializeState) (id : UInt64) : ℕ := (st.threads id).elim 0 FullThreadState.bytes

/-- The bytes that all threads have left. -/
def bytes (st : SerializeState) : ℕ := ∑ i ∈ Finset.range (2 ^ 64), st.bytesOf (UInt64.ofNat i)

theorem bytes_lt (hle : ∀ i, st'.bytesOf i ≤ st.bytesOf i) (hlt : st'.bytesOf id < st.bytesOf id) :
    st'.bytes < st.bytes := by
  refine Finset.sum_lt_sum (fun i _ => hle _) ⟨id.toNat, Finset.mem_range.mpr id.toNat_lt, ?_⟩
  rwa [UInt64.ofNat_toNat]

/-- Threads with the same streams and buffers. -/
def SameBytes (st st' : SerializeState) : Prop :=
  ∀ id, (st'.threads id).map (fun t => (t.activeStream, t.bufs)) =
    (st.threads id).map fun t => (t.activeStream, t.bufs)

theorem SameBytes.bytesOf (h : SameBytes st st') (id : UInt64) :
    st'.bytesOf id = st.bytesOf id := by
  have hid := h id
  unfold SerializeState.bytesOf
  cases ht : st.threads id with
  | none =>
    rw [ht, Option.map_none, Option.map_eq_none_iff] at hid
    rw [hid]
  | some t =>
    rw [ht, Option.map_some] at hid
    obtain ⟨t', ht', heq⟩ := Option.map_eq_some_iff.mp hid
    obtain ⟨hstream, hbufs⟩ := Prod.mk.inj heq
    rw [ht', Option.elim_some, Option.elim_some, FullThreadState.bytes, FullThreadState.bytes,
      hstream, hbufs]

theorem SameBytes.finiteBuffers (h : SameBytes st st') (hfinite : st.FiniteBuffers) :
    st'.FiniteBuffers := by
  intro id t' ht'
  have hid := h id
  rw [ht', Option.map_some] at hid
  obtain ⟨t, ht, heq⟩ := Option.map_eq_some_iff.mp hid.symm
  obtain ⟨hstream, hbufs⟩ := Prod.mk.inj heq
  obtain ⟨hbounded, hends⟩ := hfinite id t ht
  exact ⟨by rwa [← hstream], by rwa [← hbufs]⟩

theorem sameBytes_of_threads (h : st'.threads = st.threads) : SameBytes st st' := fun id => by
  rw [h]

theorem SameBytes.trans {st'' : SerializeState} (h : SameBytes st st') (h' : SameBytes st' st'') :
    SameBytes st st'' := fun id => (h' id).trans (h id)

/-- A flag of a thread. -/
theorem sameBytes_setThread {t t' : FullThreadState} (ht : st.threads id = some t)
    (hstream : t'.activeStream = t.activeStream) (hbufs : t'.bufs = t.bufs) :
    SameBytes st (st.setThread id t') := by
  intro i
  by_cases hi : i = id
  · rw [hi, threads_setThread_self, ht, Option.map_some, Option.map_some, hstream, hbufs]
  · rw [threads_setThread_of_ne hi]

/-- Waking up a thread. -/
theorem sameBytes_wake (env : Env) (st : SerializeState) (ev : InnerEvent) :
    SameBytes st (st.wake env ev) := by
  unfold wake
  split
  · unfold addAllocated
    cases hwait : st.pendingFrees.lookup (ev.newTok?.getD kEmptyTok) with
    | none => exact sameBytes_of_threads rfl
    | some id =>
      dsimp only
      rw [threads_heapPush]
      cases ht : st.threads id with
      | none => exact sameBytes_of_threads rfl
      | some t =>
        have ht' : (st.heapPush env id).threads id = some t := ht
        exact sameBytes_setThread ht' rfl rfl
  · exact sameBytes_of_threads rfl

theorem FiniteBuffers.setThread {t : FullThreadState} (h : st.FiniteBuffers) (ht : t.Finite) :
    (st.setThread id t).FiniteBuffers := by
  intro i u hu
  by_cases hi : i = id
  · rw [hi, threads_setThread_self] at hu
    rw [← Option.some.inj hu]
    exact ht
  · rw [threads_setThread_of_ne hi] at hu
    exact h i u hu

/-- A thread that has less to decode. -/
theorem bytes_setThread_lt {t t' : FullThreadState} (ht : st.threads id = some t)
    (hless : t'.bytes < t.bytes) : (st.setThread id t').bytes < st.bytes := by
  have hid : (st.setThread id t').bytesOf id < st.bytesOf id := by
    rw [bytesOf, bytesOf, threads_setThread_self, ht]
    exact hless
  refine bytes_lt (fun i => ?_) hid
  by_cases hi : i = id
  · rw [hi]
    exact hid.le
  · rw [bytesOf, bytesOf, threads_setThread_of_ne hi]

/-- What an iteration of the drain loop does to the streams and the queues: an event is delivered
and the next one of its thread is decoded, or the thread leaves the heap as it is. -/
theorem drainBody_threads {heap : List UInt64} (hheap : st.heap = id :: heap)
    (hst : st.drainBody ndebug env mem id = .ok st') :
    ∃ t, st.threads id = some t ∧
      ((∃ ok t' t₁, t.updateLastEvent env.stack mem = .ok (ok, t') ∧
          t₁.activeStream = t'.activeStream ∧ t₁.bufs = t'.bufs ∧
          SameBytes (st.setThread id t₁) st') ∨
        SameBytes st st' ∧ st'.heap.length = heap.length) := by
  obtain ⟨t, ht, -, ⟨-, ok, t', hupdate, rfl⟩ | ⟨-, -, rfl⟩ | ⟨-, -, -, rfl⟩⟩ :=
    drainBody_effect hst
  · refine ⟨t, ht, Or.inl ⟨ok, t', ?_⟩⟩
    have hset : ∃ t₁ : FullThreadState, t₁.activeStream = t'.activeStream ∧ t₁.bufs = t'.bufs ∧
        (if ok then st.goesOn env id t t' else st.finishes env id t t').threads =
          (st.setThread id t₁).threads := by
      cases ok with
      | true => exact ⟨t', rfl, rfl, Scheduled.goesOn_threads⟩
      | false => exact ⟨{ t' with signalled := t'.signalled || t'.dead }, rfl, rfl,
          Scheduled.finishes_threads⟩
    obtain ⟨t₁, hstream, hbufs, hthreads⟩ := hset
    exact ⟨t₁, hupdate, hstream, hbufs, (sameBytes_of_threads hthreads).trans
      (sameBytes_wake env (if ok then st.goesOn env id t t' else st.finishes env id t t')
        t.lastEvent)⟩
  all_goals
    have hsame : SameBytes st ((st.setThread id { t with inPendingFrees := true })) :=
      sameBytes_setThread ht rfl rfl
    have hasked : (st.asked t).heap = id :: heap := by simpa using hheap
    have hlength : ((st.asked t).heapPop env).heap.length = heap.length := length_heapPop hasked
  · exact ⟨t, ht, Or.inr ⟨hsame.trans (sameBytes_of_threads (by simp [blocks, setThread])),
      hlength⟩⟩
  · exact ⟨t, ht, Or.inr ⟨hsame.trans (sameBytes_of_threads (by simp [sleeps, setThread])),
      hlength⟩⟩

/-- **One iteration of the drain loop** that goes on: less is left, or the heap is smaller. -/
theorem drainBody_progress {heap : List UInt64} (h : st.FiniteBuffers)
    (hheap : st.heap = id :: heap)
    (hst : st.drainBody ndebug env mem id = .ok st') :
    st'.FiniteBuffers ∧ (st'.bytes < st.bytes ∨
      st'.bytes = st.bytes ∧ st'.heap.length < st.heap.length) := by
  obtain ⟨t, ht, ⟨ok, t', t₁, hupdate, hstream, hbufs, hsame⟩ | ⟨hsame, hlength⟩⟩ :=
    drainBody_threads hheap hst
  · -- an event was delivered, and the next one of its thread decoded
    have hless := FullThreadState.updateLastEvent_progress env.stack mem
      (h id t ht)
    rw [hupdate] at hless
    obtain ⟨hfinite, hless⟩ := hless
    have hfinite₁ : t₁.Finite := by
      constructor
      · rw [hstream]
        exact hfinite.stream
      · rw [hbufs]
        exact hfinite.bufs
    have hless₁ : t₁.bytes < t.bytes := by
      rw [FullThreadState.bytes, hstream, hbufs]
      exact hless
    have hlt := bytes_setThread_lt ht hless₁
    refine ⟨hsame.finiteBuffers (h.setThread hfinite₁), Or.inl ?_⟩
    rw [bytes, Finset.sum_congr rfl fun i _ => hsame.bytesOf _]
    exact hlt
  · -- the thread leaves the heap
    refine ⟨hsame.finiteBuffers h, Or.inr ⟨?_, ?_⟩⟩
    · exact Finset.sum_congr rfl fun i _ => hsame.bytesOf _
    · rw [hlength, hheap, List.length_cons]
      exact Nat.lt_succ_self _

/-- An iteration that aborts does so in the program: no bound of the model is used up. -/
theorem drainBody_error {e : Abort} (h : st.FiniteBuffers)
    (hst : st.drainBody ndebug env mem id = .error e) : e ≠ .outOfFuel := by
  -- no assertion is about fuel
  have hcheck : ∀ {cond : Bool} {which : Assertion},
      check ndebug cond which = .error e → e ≠ .outOfFuel := by
    intro cond which hc
    obtain ⟨-, -, rfl⟩ := check_eq_error.mp hc
    simp
  unfold drainBody at hst
  cases ht : st.threads id with
  | none =>
    rw [ht] at hst
    rw [← Except.error.inj hst]
    simp
  | some t =>
    simp only [ht, handle_eq] at hst
    -- the three assertions at the head of the body
    obtain hc | ⟨_, -, hst⟩ := bind_eq_error.mp hst
    · exact hcheck hc
    obtain hc | ⟨_, -, hst⟩ := bind_eq_error.mp hst
    · exact hcheck hc
    obtain hc | ⟨_, -, hst⟩ := bind_eq_error.mp hst
    · exact hcheck hc
    by_cases hperm : st.permitted env t = true
    · simp only [hperm, if_true] at hst
      obtain hafter | ⟨_, -, hst⟩ := bind_eq_error.mp hst
      · unfold afterProcessed at hafter
        obtain hupdate | ⟨⟨ok, t'⟩, -, hafter⟩ := bind_eq_error.mp hafter
        · have hless := FullThreadState.updateLastEvent_progress env.stack mem
            -- the only loop of the body has the fuel that the buffers call for
            (h id t ht)
          rw [hupdate] at hless
          exact hless
        · dsimp only at hafter
          split at hafter
          · split at hafter <;> simp at hafter
          · simp at hafter
      · simp at hst
    · simp only [hperm, if_false, Bool.false_eq_true] at hst
      obtain hafter | ⟨_, -, hst⟩ := bind_eq_error.mp hst
      · unfold afterBlocked at hafter
        obtain hc | ⟨_, -, hafter⟩ := bind_eq_error.mp hafter
        · exact hcheck hc
        · simp at hafter
      · simp at hst

/-! ### Where the buffers come from -/

theorem FiniteBuffers.threadFor (h : st.FiniteBuffers) : (st.threadFor env id).Finite := by
  unfold SerializeState.threadFor
  cases ht : st.threads id with
  | none => exact ⟨by simp [FullThreadState.new], by simp [FullThreadState.new]⟩
  | some t => exact h id t ht

theorem FiniteBuffers.bufArrives {ev : OuterEvent} (h : st.FiniteBuffers) (hev : ev.Finite)
    (hst : st.bufArrives ndebug env mem ev = .ok st') : st'.FiniteBuffers := by
  have ht : (st.threadFor env ev.threadId).Finite := h.threadFor
  obtain ⟨-, ⟨-, rfl⟩ | ⟨-, ok, t', hupdate, rfl⟩⟩ := bufArrives_effect hst
  · refine h.setThread ⟨ht.stream, fun ev' hev' => ?_⟩
    obtain hold | hnew := List.mem_append.mp hev'
    · exact ht.bufs ev' hold
    · rwa [List.mem_singleton.mp hnew]
  · have hstarted : (started (st.threadFor env ev.threadId) mem ev).Finite := by
      refine ⟨fun s hs => ?_, fun ev' hev' => ?_⟩
      · rw [← Option.some.inj hs]
        exact bounded_constMemStream hev
      · rwa [List.mem_singleton.mp hev']
    have hless := FullThreadState.updateLastEvent_progress env.stack mem hstarted
    rw [hupdate] at hless
    have hset : (st.setThread ev.threadId t').FiniteBuffers := h.setThread hless.1
    split
    · exact hset
    · exact hset

theorem FiniteBuffers.deathArrives {ev : OuterEvent} (h : st.FiniteBuffers)
    (hst : st.deathArrives ndebug ev = .ok st') : st'.FiniteBuffers := by
  obtain ⟨t, ht, -, rfl⟩ := deathArrives_effect hst
  have hfin := h _ t ht
  exact FiniteBuffers.setThread (t := { t with dead := true }) h ⟨hfin.stream, hfin.bufs⟩

theorem FiniteBuffers.toDieBody {carried : Bool} (h : st.FiniteBuffers)
    (hst : st.toDieBody ndebug id = .ok (carried, st')) : st'.FiniteBuffers :=
  fun i u hu => h i u (threads_of_toDieBody hst hu)

end SerializeState

/-! ### The drain loop -/

namespace Machine

variable {M : Type} [Mapper M] {ndebug : Bool} {env : Env} {mapper : M} {m m' : Machine M}

/-- The bytes left and the threads in the heap. -/
def drainMeasure (m : Machine M) : ℕ ×ₗ ℕ := toLex (m.state.bytes, m.state.heap.length)

/-- The drain loop stands before an iteration, with finite buffers. -/
def Drains (m : Machine M) : Prop := m.loc = .drain ∧ m.state.FiniteBuffers

/-- The drain loop is left: the loop over `to_die` begins. -/
def LeftDrain (m : Machine M) : Prop := m.state.heap = [] ∧ m.loc = .toDie m.state.toDie []

/-- **The drain loop ends** after finitely many iterations, or one of them aborts. -/
theorem drain_ends (ndebug : Bool) (env : Env) (m : Machine M) (hloc : m.loc = .drain)
    (hfinite : m.state.FiniteBuffers) :
    ∃ n, (∃ m', iterate (Machine.step ndebug env) n m = .ok m' ∧ m'.LeftDrain) ∨
      ∃ e, iterate (Machine.step ndebug env) n m = .error e ∧ e ≠ .outOfFuel := by
  -- from the head of the loop with an empty heap there is one step left
  have hleave : ∀ m : Machine M, m.loc = .drain → m.state.heap = [] →
      ∃ m', Machine.step ndebug env m = .ok m' ∧ m'.LeftDrain := by
    intro m hloc hheap
    refine ⟨{ m with loc := .toDie m.state.toDie [] }, ?_, hheap, rfl⟩
    rw [Machine.step, hloc]
    simp only [stepDrain, hheap]
  have hstep : ∀ t : Machine M, t.Drains → ¬ (t.loc = .drain ∧ t.state.heap = []) →
      (∃ e, Machine.step ndebug env t = .error e ∧ e ≠ .outOfFuel) ∨
        ∃ t', Machine.step ndebug env t = .ok t' ∧ t'.Drains ∧
          t'.drainMeasure < t.drainMeasure := by
    rintro t ⟨hdrain, hfin⟩ hnot
    cases hheap : t.state.heap with
    | nil => exact absurd ⟨hdrain, hheap⟩ hnot
    | cons id heap =>
      have hbody : Machine.step ndebug env t =
          t.state.drainBody ndebug env t.input.mem id >>= fun state =>
            .ok { t with state := state } := by
        have hloop : Machine.step ndebug env t = t.stepDrain ndebug env := by
          rw [Machine.step, hdrain]
        rw [hloop, stepDrain, hheap]
        rfl
      rw [hbody]
      cases hst : t.state.drainBody ndebug env t.input.mem id with
      | error e => exact Or.inl ⟨e, rfl, SerializeState.drainBody_error hfin hst⟩
      | ok st =>
        obtain ⟨hfin', hprogress⟩ := SerializeState.drainBody_progress hfin hheap hst
        refine Or.inr ⟨{ t with state := st }, rfl, ⟨hdrain, hfin'⟩, ?_⟩
        unfold drainMeasure
        rw [Prod.Lex.toLex_lt_toLex]
        dsimp only
        exact hprogress
  obtain ⟨n, ⟨m₁, hm₁, hdrain₁, hheap₁⟩ | haborts⟩ := iterate_reaches_or_aborts
    (wellFounded_lt (α := ℕ ×ₗ ℕ)) drainMeasure hstep ⟨hloc, hfinite⟩
  · obtain ⟨m', hm', hdrained⟩ := hleave m₁ hdrain₁ hheap₁
    exact ⟨n + 1, Or.inl ⟨m', by rw [iterate_succ', hm₁, ok_bind, hm'], hdrained⟩⟩
  · exact ⟨n, Or.inr haborts⟩

/-- **The buffers of a reached state are finite**, if those read are. -/
theorem Reached.finiteBuffers_of_bufs (h : Reached ndebug env mapper m)
    (hread : ∀ ev, .record ev ∈ m.input.read → ev.type = .buf → ev.Finite) :
    m.state.FiniteBuffers := by
  refine h.invariant (I := fun m => (∀ ev, .record ev ∈ m.input.read → ev.type = .buf →
    ev.Finite) → m.state.FiniteBuffers) (fun m hstart _ id t ht => ?_)
    (fun m m' _ hI hstep hread => ?_) hread
  · rw [(start_state hstart).2.1] at ht
    simp [SerializeState.init] at ht
  · rcases step_cases hstep with ⟨-, item, hadv, hcases⟩ |
      ⟨-, hinput, ⟨-, -, hst⟩ | ⟨-, id, heap, hheap, hst⟩⟩ |
      ⟨id, todo, next, carried, -, hinput, hst, -⟩ | ⟨next, -, hinput, -, hst⟩ | ⟨-, rfl⟩
    · rw [Input.advance_read hadv] at hread
      have hfin := hI fun ev hev => hread ev (List.mem_append_left _ hev)
      rcases hcases with ⟨-, -, hst⟩ | ⟨-, ev, rfl, ⟨htype, hst⟩ | ⟨-, hst⟩⟩
      · rw [hst]
        exact hfin
      · exact hfin.bufArrives (hread ev (by simp) htype) hst
      · exact hfin.deathArrives hst
    · rw [hst]
      exact hI (by rwa [hinput] at hread)
    · exact (SerializeState.drainBody_progress (hI (by rwa [hinput] at hread)) hheap hst).1
    · exact (hI (by rwa [hinput] at hread)).toDieBody hst
    · rw [hst]
      exact hI (by rwa [hinput] at hread)
    · exact hI hread

theorem Reached.finiteBuffers (h : Reached ndebug env mapper m)
    (hread : ∀ ev, .record ev ∈ m.input.read → ev.Finite) : m.state.FiniteBuffers :=
  h.finiteBuffers_of_bufs fun ev hev _ => hread ev hev

/-- **Every drain phase ends** or aborts, in whatever state it begins. -/
theorem Reached.drain_terminates (h : Reached ndebug env mapper m) (hloc : m.loc = .drain)
    (hread : ∀ ev, .record ev ∈ m.input.read → ev.Finite) :
    ∃ n, (∃ m', iterate (Machine.step ndebug env) n m = .ok m' ∧ m'.LeftDrain) ∨
      ∃ e, iterate (Machine.step ndebug env) n m = .error e ∧ e ≠ .outOfFuel :=
  Machine.drain_ends ndebug env m hloc (h.finiteBuffers hread)

/-- A buffer that was read ends in user space. -/
def endsInUserSpace : Item → Bool
  | .record ev => decide (ev.bufEnd.toNat ≤ 2 ^ 63)
  | .batchEnd => true

/-- Two threads, of which one waits for the token of the other; then the trace ends. -/
def drainedTrace : List UInt8 :=
  writeTrace [.buf 1 0 0 [.free 5], .buf 2 1024 0 [.tok 5 1024 0, .malloc 8], .end_]

theorem drain_terminates_drainedTrace :
    ∃ m, Reached true .tokenSet (ConstMapper.ofBytes 0x10000 drainedTrace) m ∧
      m.state.heap = [1, 2] ∧
      ∃ n, (∃ m', iterate (Machine.step true .tokenSet) n m = .ok m' ∧ m'.LeftDrain) ∨
        ∃ e, iterate (Machine.step true .tokenSet) n m = .error e ∧ e ≠ .outOfFuel := by
  obtain ⟨m, hm, hsee⟩ := reached_of_map true .tokenSet
    (ConstMapper.ofBytes 0x10000 drainedTrace) 3
    (f := fun m => (m.loc, m.state.heap, m.input.read.all endsInUserSpace))
    (a := (.drain, [1, 2], true)) (by decide +kernel)
  simp only [Prod.mk.injEq] at hsee
  obtain ⟨hloc, hheap, hread⟩ := hsee
  refine ⟨m, hm, hheap, hm.drain_terminates hloc fun ev hev => ?_⟩
  have hends := List.all_eq_true.mp hread _ hev
  rw [endsInUserSpace, decide_eq_true_eq] at hends
  exact hends

end Machine

end MallocTraceReplay
