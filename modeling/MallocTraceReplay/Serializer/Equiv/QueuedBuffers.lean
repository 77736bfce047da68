import MallocTraceReplay.Serializer.Equiv.FileInput
import MallocTraceReplay.Serializer.Equiv.Termination

/-!
# The buffers that are queued, and the memory that is kept

A thread's queued buffers are addresses in the memory of the mapper.  The end of a batch gives back
the memory below the barrier before the last one, whatever is queued: a thread that waits keeps its
buffers over any number of barriers.  In a run the queued buffers are kept just as long as no batch
ends with a queued buffer that starts below the page up to which it gives memory back
(`queuedKept_iff`).
-/

namespace MallocTraceReplay

open StepMachine MallocTraceEncoder FDInputMapper

/-- The queued buffers of all threads have a property. -/
def SerializeState.Queued (B : OuterEvent → Prop) (st : SerializeState) : Prop :=
  ∀ id t, st.threads id = some t → ∀ ev ∈ t.bufs, B ev

/-- Every queued buffer, also of a thread that waits, lies in the part that is kept. -/
def Machine.QueuedKept (m : Machine FDInputMapper) : Prop :=
  m.state.Queued m.input.s.mapper.Keeps

/-- No buffer is queued that starts below the page up to which the step gives memory back. -/
def Machine.ReleasesUnqueued {M : Type} [Mapper M] (env : Env) (m : Machine M) : Prop :=
  m.loc = .records → ∀ page, m.input.releasedBelow env = some page →
    m.state.Queued fun ev => page ≤ ev.bufStart

/-! ### The queues -/

namespace FullThreadState

/-- `update_last_event` takes buffers off the front of the queue only. -/
theorem updateLastEvent_bufs {stack : StackBytes} {mem : UInt64 → Option UInt8}
    {t t' : FullThreadState} {ok : Bool} (h : t.updateLastEvent stack mem = .ok (ok, t')) :
    t'.bufs <:+ t.bufs := by
  by_cases hbufs : t.bufs = []
  · unfold updateLastEvent updateLoop at h
    obtain ⟨⟨ok₁, t₁⟩, hinner, h⟩ := bind_eq_ok.mp h
    have hsame : t₁.bufs = t.bufs := (updateLastEventInner_frame hinner).2.1
    cases ok₁ with
    | true =>
      obtain ⟨-, rfl⟩ := Prod.mk.inj (Except.ok.inj h)
      rw [hsame]
    | false => simp [hsame.trans hbufs] at h
  · exact (updateLastEvent_frame hbufs h).suffix

end FullThreadState

namespace SerializeState

variable {B : OuterEvent → Prop} {env : Env} {mem : UInt64 → Option UInt8} {ndebug : Bool}
  {st st' : SerializeState} {id : UInt64}

theorem Queued.setThread {t : FullThreadState} (h : st.Queued B) (ht : ∀ ev ∈ t.bufs, B ev) :
    (st.setThread id t).Queued B := by
  intro i u hu
  by_cases hi : i = id
  · rw [hi, threads_setThread_self] at hu
    rw [← Option.some.inj hu]
    exact ht
  · rw [threads_setThread_of_ne hi] at hu
    exact h i u hu

theorem Queued.bufArrives {ev : OuterEvent} (h : st.Queued B) (hev : B ev)
    (hst : st.bufArrives ndebug env mem ev = .ok st') : st'.Queued B := by
  have hbefore : ∀ ev' ∈ (st.threadFor env ev.threadId).bufs, B ev' := by
    unfold threadFor
    cases ht : st.threads ev.threadId with
    | none => simp [FullThreadState.new]
    | some t => exact h _ t ht
  obtain ⟨-, ⟨-, rfl⟩ | ⟨-, ok, t', hupdate, rfl⟩⟩ := bufArrives_effect hst
  · refine h.setThread fun ev' hev' => ?_
    obtain hold | hnew := List.mem_append.mp hev'
    · exact hbefore ev' hold
    · rwa [List.mem_singleton.mp hnew]
  · have hset : (st.setThread ev.threadId t').Queued B := by
      refine h.setThread fun ev' hev' => ?_
      have hmem := (FullThreadState.updateLastEvent_bufs hupdate).subset hev'
      rwa [List.mem_singleton.mp hmem]
    split
    · exact hset
    · exact hset

theorem Queued.deathArrives {ev : OuterEvent} (h : st.Queued B)
    (hst : st.deathArrives ndebug ev = .ok st') : st'.Queued B := by
  obtain ⟨t, ht, -, rfl⟩ := deathArrives_effect hst
  exact Queued.setThread (t := { t with dead := true }) h (h _ t ht)

/-- Where the threads have the same queues. -/
theorem Queued.of_sameBytes (h : st.Queued B) (hsame : SameBytes st st') : st'.Queued B := by
  intro id t' ht'
  have hid := hsame id
  rw [ht', Option.map_some] at hid
  obtain ⟨t, ht, heq⟩ := Option.map_eq_some_iff.mp hid.symm
  rw [← (Prod.mk.inj heq).2]
  exact h id t ht

theorem Queued.drainBody (h : st.Queued B) {heap : List UInt64} (hheap : st.heap = id :: heap)
    (hst : st.drainBody ndebug env mem id = .ok st') : st'.Queued B := by
  obtain ⟨t, ht, ⟨ok, t', t₁, hupdate, -, hbufs, hsame⟩ | ⟨hsame, -⟩⟩ :=
    drainBody_threads hheap hst
  · refine Queued.of_sameBytes (h.setThread fun ev hev => ?_) hsame
    rw [hbufs] at hev
    exact h id t ht ev ((FullThreadState.updateLastEvent_bufs hupdate).subset hev)
  · exact h.of_sameBytes hsame

theorem Queued.toDieBody {carried : Bool} (h : st.Queued B)
    (hst : st.toDieBody ndebug id = .ok (carried, st')) : st'.Queued B :=
  fun i u hu => h i u (threads_of_toDieBody hst hu)

end SerializeState

/-! ### Runs -/

namespace Machine

variable {b : UInt64} {content : List UInt8} {ndebug : Bool} {env : Env}
  {m m' : Machine FDInputMapper}

/-- **A step** keeps the queued buffers just when it gives back nothing below that they need. -/
theorem queuedKept_step (h : m.input.InFile b content) (hkept : m.QueuedKept)
    (hstep : m.step ndebug env = .ok m') :
    m'.input.InFile b content ∧ (m'.QueuedKept ↔ m.ReleasesUnqueued env) := by
  unfold QueuedKept at hkept ⊢
  -- steps that read nothing
  have hidle : m.loc ≠ .records → m'.input = m.input →
      m'.state.Queued m.input.s.mapper.Keeps → m'.input.InFile b content ∧
        (m'.state.Queued m'.input.s.mapper.Keeps ↔ m.ReleasesUnqueued env) := by
    intro hloc hinput hqueued
    rw [hinput]
    exact ⟨h, fun _ hrecords => absurd hrecords hloc, fun _ => hqueued⟩
  rcases step_cases hstep with ⟨hloc, item, hadv, ⟨rfl, -, hst⟩ | ⟨-, ev, rfl, hev⟩⟩ |
    ⟨hloc, hinput, ⟨-, -, hst⟩ | ⟨-, id, heap, hheap, hst⟩⟩ |
    ⟨id, todo, next, carried, hloc, hinput, hst, -⟩ | ⟨next, hloc, hinput, -, hst⟩ | ⟨hloc, rfl⟩
  · -- the end of a batch
    obtain ⟨h', hmore, hstart⟩ := h.batchEnd hadv
    refine ⟨h', ?_⟩
    unfold ReleasesUnqueued
    rw [hst]
    constructor
    · intro hkept' _ page hpage id t ht ev hev
      have hstart' := (hkept' id t ht ev hev).1
      rw [hstart, hpage, Option.elim_some, UInt64.le_iff_toNat_le, MemStream.toNat_max] at hstart'
      rw [UInt64.le_iff_toNat_le]
      omega
    · intro hreleases id t ht ev hev
      obtain ⟨hold, hend⟩ := hkept id t ht ev hev
      refine ⟨?_, UInt64.le_trans hend hmore⟩
      rw [hstart]
      cases hpage : m.input.releasedBelow env with
      | none => exact hold
      | some page =>
        have hpage' := UInt64.le_iff_toNat_le.mp (hreleases hloc page hpage id t ht ev hev)
        rw [UInt64.le_iff_toNat_le] at hold
        rw [Option.elim_some, UInt64.le_iff_toNat_le, MemStream.toNat_max]
        omega
  · -- a record
    obtain ⟨h', hstart, hmore, hbuf, hnone⟩ := h.record hadv
    have hkept' : m.state.Queued m'.input.s.mapper.Keeps := by
      intro id t ht ev' hev'
      obtain ⟨hold, hend⟩ := hkept id t ht ev' hev'
      exact ⟨by rwa [hstart], UInt64.le_trans hend hmore⟩
    refine ⟨h', fun _ _ page hpage => ?_, fun _ => ?_⟩
    · rw [hnone] at hpage
      simp at hpage
    · obtain ⟨htype, hst⟩ | ⟨-, hst⟩ := hev
      · exact hkept'.bufArrives (hbuf htype) hst
      · exact hkept'.deathArrives hst
  · exact hidle (by simp [hloc]) hinput (by rwa [hst])
  · exact hidle (by simp [hloc]) hinput (hkept.drainBody hheap hst)
  · exact hidle (by simp [hloc]) hinput (hkept.toDieBody hst)
  · exact hidle (by simp [hloc]) hinput (by rwa [hst])
  · exact hidle (by simp [hloc]) rfl hkept

/-- A step that gives memory back leads to the drain loop. -/
theorem loc_of_releases (h : m.input.InFile b content) (hstep : m.step ndebug env = .ok m')
    (hloc : m.loc = .records) {page : UInt64} (hpage : m.input.releasedBelow env = some page) :
    m'.loc = .drain := by
  rcases step_cases hstep with ⟨-, item, hadv, ⟨-, hdrain, -⟩ | ⟨-, ev, rfl, -⟩⟩ | ⟨hother, -⟩ |
    ⟨_, _, _, _, hother, -⟩ | ⟨_, hother, -⟩ | ⟨hother, -⟩
  · exact hdrain
  · simp [(h.record hadv).2.2.2.2] at hpage
  all_goals simp [hloc] at hother

variable {fd : InputFd} {mmapOk : UInt64 → UInt64 → Bool}

/-- Runs whose steps have given back only what is not queued. -/
theorem queuedKept_run (haligned : b.toNat % 4096 = 0)
    (hfits : b.toNat + fd.content.length < 2 ^ 63) (hposition : fd.position = 0) {n : ℕ}
    (h : serialize ndebug env (FDInputMapper.new fd b mmapOk) n = .ok m)
    (hmeets : ∀ k < n, ∀ m, serialize ndebug env (FDInputMapper.new fd b mmapOk) k = .ok m →
      m.ReleasesUnqueued env) :
    m.input.InFile b fd.content ∧ m.QueuedKept := by
  induction n generalizing m with
  | zero =>
    obtain ⟨m₀, hstart, hm⟩ := bind_eq_ok.mp h
    obtain rfl := Except.ok.inj hm
    have hinit := (start_state hstart).2.1
    obtain ⟨i, hopen, hstart⟩ := bind_eq_ok.mp hstart
    obtain rfl := Except.ok.inj hstart
    refine ⟨Input.inFile_open haligned hfits hposition hopen, fun id t ht => ?_⟩
    rw [hinit] at ht
    simp [SerializeState.init] at ht
  | succ n ih =>
    rw [serialize_succ] at h
    obtain ⟨m₁, hm₁, hstep⟩ := bind_eq_ok.mp h
    obtain ⟨hinput, hkept⟩ := ih hm₁ fun k hk => hmeets k (Nat.lt_succ_of_lt hk)
    obtain ⟨hinput', hiff⟩ := queuedKept_step hinput hkept hstep
    exact ⟨hinput', hiff.mpr (hmeets n (Nat.lt_succ_self n) m₁ hm₁)⟩

/-- **The queued buffers are kept** in every state of the drain loop, in a run of any length, if and
only if no batch of the run ends with a queued buffer that starts below the page up to which it
gives memory back. -/
theorem queuedKept_iff (haligned : b.toNat % 4096 = 0)
    (hfits : b.toNat + fd.content.length < 2 ^ 63) (hposition : fd.position = 0) {n : ℕ}
    (h : serialize ndebug env (FDInputMapper.new fd b mmapOk) n = .ok m) :
    (∀ k ≤ n, ∀ m, serialize ndebug env (FDInputMapper.new fd b mmapOk) k = .ok m →
      m.loc = .drain → m.QueuedKept) ↔
    ∀ k < n, ∀ m, serialize ndebug env (FDInputMapper.new fd b mmapOk) k = .ok m →
      m.ReleasesUnqueued env := by
  constructor
  · intro hall k hk
    induction k using Nat.strong_induction_on with
    | _ k ih =>
      intro m₁ hm₁ hloc page hpage
      obtain ⟨hinput, hkept⟩ := queuedKept_run haligned hfits hposition hm₁ fun j hj =>
        ih j hj (hj.trans hk)
      obtain ⟨m₂, hm₂⟩ := serialize_le hk h
      have hstep := hm₂
      rw [serialize_succ, hm₁, ok_bind] at hstep
      have hdrain := loc_of_releases hinput hstep hloc hpage
      exact (queuedKept_step hinput hkept hstep).2.mp (hall (k + 1) hk m₂ hm₂ hdrain) hloc page
        hpage
  · intro hmeets k hk m₁ hm₁ _
    exact (queuedKept_run haligned hfits hposition hm₁ fun j hj => hmeets j (hj.trans_le hk)).2

/-- Two threads; the first one waits for the token of the second one. -/
def queuedFile : InputFd where
  content := writeTrace [.buf 1 0 0 [.free 5], .syncBarrier 0 0, .buf 2 0 0 [.tok 5 0 0, .malloc 8],
    .end_]
  schedule := fun _ => .bytes 7

theorem queuedKept_iff_queuedFile :
    ∃ m, serialize false .tokenSet (FDInputMapper.new queuedFile 0x10000 fun _ _ => true) 5 =
      .ok m ∧
      ((∀ k ≤ 5, ∀ m, serialize false .tokenSet
          (FDInputMapper.new queuedFile 0x10000 fun _ _ => true) k = .ok m →
          m.loc = .drain → m.QueuedKept) ↔
        ∀ k < 5, ∀ m, serialize false .tokenSet
          (FDInputMapper.new queuedFile 0x10000 fun _ _ => true) k = .ok m →
          m.ReleasesUnqueued .tokenSet) := by
  have hruns : (serialize false .tokenSet (FDInputMapper.new queuedFile 0x10000 fun _ _ => true)
      5).map (fun _ => ()) = .ok () := by
    decide +kernel
  obtain ⟨m, hm, -⟩ := map_eq_ok.mp hruns
  exact ⟨m, hm, queuedKept_iff (by decide) (by decide +kernel) rfl hm⟩

end Machine

/-! ### A thread that waits -/

/-- A thread frees a token that is allocated after three barriers, and allocates `n` times before
them. -/
def waitingRecords (n : ℕ) : List TraceRecord :=
  [.buf 1 0 0 (.free 5 :: List.replicate n (.malloc 0)), .syncBarrier 0 0, .syncBarrier 0 0,
    .syncBarrier 0 0, .buf 2 0 0 [.tok 5 0 0, .malloc 8], .end_]

def waitingFile (n : ℕ) : InputFd where
  content := writeTrace (waitingRecords n)
  schedule := fun _ => .bytes maxRead

/-- An allocation that is like the one before takes a byte. -/
theorem length_writeEvents_mallocs {e : EncoderState} (he : e.prevSize = 0) (n : ℕ) :
    (writeEvents e (List.replicate n (.malloc 0))).1.length = n := by
  induction n generalizing e with
  | zero => rfl
  | succ n ih =>
    have hwords : (InnerRecord.malloc 0).words e = ([EventType.malloc.code], e) := by
      have hword : encodeMalloc 0 0 = (EventType.malloc.code, 0) := by decide
      unfold InnerRecord.words
      dsimp only
      rw [he, hword, ← he]
    rw [List.replicate_succ]
    unfold writeEvents
    rw [hwords]
    dsimp only
    rw [List.length_append, ih he]
    have hcode : (writeWords [EventType.malloc.code]).length = 1 := by decide
    omega

/-- The bytes of the thread that waits. -/
theorem length_writeEvents_waiting (n : ℕ) :
    (writeEvents .init (.free 5 :: List.replicate n (.malloc 0))).1.length = n + 1 := by
  have hword : (writeWords ((InnerRecord.free 5).words .init).1).length = 1 := by decide
  unfold writeEvents
  dsimp only
  rw [List.length_append, length_writeEvents_mallocs rfl, hword, Nat.add_comm]

/-- The size of the file. -/
theorem length_waitingFile_le (n : ℕ) : (waitingFile n).content.length ≤ n + 100 := by
  have hwords : ∀ w w₂ w₃, (writeWords [w, w₂, w₃]).length ≤ 27 := by
    intro w w₂ w₃
    have hw := AltVarintCodec.length_encode_le w
    have hw₂ := AltVarintCodec.length_encode_le w₂
    have hw₃ := AltVarintCodec.length_encode_le w₃
    simp only [writeWords, List.flatMap_cons, List.flatMap_nil, List.length_append,
      List.length_nil]
    omega
  have hlater : ∀ st, st 2 = EncoderState.init →
      (writeRecords st [.syncBarrier 0 0, .syncBarrier 0 0, .syncBarrier 0 0,
        .buf 2 0 0 [.tok 5 0 0, .malloc 8], .end_]).length ≤ 60 := by
    intro st hst
    simp only [writeRecords, writeRecord, hst]
    decide
  have hbody := length_writeEvents_waiting n
  show (magicBytes ++ ((writeRecord _ _).1 ++ writeRecords _ _)).length ≤ _
  have hrest := hlater (writeRecord (fun _ => .init)
    (.buf 1 0 0 (.free 5 :: List.replicate n (.malloc 0)))).2 rfl
  rw [List.length_append, List.length_append]
  unfold writeRecord at hrest ⊢
  dsimp only at hrest ⊢
  rw [List.length_append, hbody]
  refine (Nat.add_le_add_left (Nat.add_le_add (Nat.add_le_add_right (hwords _ _ _) _) hrest)
    _).trans ?_
  have hmagic : magicBytes.length = 4 := rfl
  omega

/-- There is room for the file. -/
theorem room_waitingFile {n : ℕ} (hn : n ≤ 2 ^ 28) :
    (waitingFile n).content.length ≤ 2 ^ 30 ∧
      (0x10000 : UInt64).toNat + (waitingFile n).content.length + 2 ^ 31 ≤ 2 ^ 63 := by
  have hlength := length_waitingFile_le n
  have hb : (0x10000 : UInt64).toNat = 0x10000 := rfl
  omega

theorem bounded_waitingRecords (n : ℕ) : ∀ r ∈ waitingRecords n, r.Bounded := by
  intro r hr
  unfold waitingRecords at hr
  simp only [List.mem_cons, List.not_mem_nil, or_false] at hr
  rcases hr with rfl | rfl | rfl | rfl | rfl | rfl
  · refine ⟨by decide, by decide, by decide, fun e he => ?_⟩
    obtain rfl | he := List.mem_cons.mp he
    · show (5 : UInt64).toNat < 2 ^ 60
      decide
    · rw [List.eq_of_mem_replicate he]
      show (0 : UInt64).toNat ≤ 2 ^ 58 - 8
      decide
  · exact ⟨by decide, by decide⟩
  · exact ⟨by decide, by decide⟩
  · exact ⟨by decide, by decide⟩
  · refine ⟨by decide, by decide, by decide, fun e he => ?_⟩
    simp only [List.mem_cons, List.not_mem_nil, or_false] at he
    rcases he with rfl | rfl
    · exact ⟨by decide, by decide, by decide⟩
    · show (8 : UInt64).toNat ≤ 2 ^ 58 - 8
      decide
  · trivial

/-- A buffer that starts with the free of a token starts its thread up. -/
theorem SerializeState.exists_bufArrives_free {env : Env} {mem : UInt64 → Option UInt8}
    {ev : OuterEvent} {tok ts cpu : UInt64} {es : List TraceEvent} {res : Except Abort ThreadState}
    (hgood : GoodBuf mem ev)
    (hdecode : decodeBytes (FullThreadState.new env ev.threadId).toThreadState (bufBytes mem ev) =
      (⟨.free tok, ts, cpu⟩ :: es, res)) (ndebug : Bool) :
    ∃ t, SerializeState.init.bufArrives ndebug env mem ev =
        .ok ((SerializeState.init.setThread ev.threadId t).heapPush env ev.threadId) ∧
      t.bufs = [ev] ∧ t.lastEvent = .free tok ∧ t.activeStream.isSome := by
  have hreading : Reading mem (started (.new env ev.threadId) mem ev) (bufBytes mem ev) := by
    refine ⟨⟨_, rfl, stands_constMemStream hgood⟩, ⟨[], rfl⟩, fun e he => ?_⟩
    rw [List.mem_singleton.mp he]
    exact hgood
  have hspec := FullThreadState.updateLastEvent_eq env.stack hreading
  have hremaining : ∃ es' res', remaining mem (started (.new env ev.threadId) mem ev)
      (bufBytes mem ev) = (⟨.free tok, ts, cpu⟩ :: es', res') := by
    rw [remaining]
    show ∃ es' res',
      (decodeBytes (FullThreadState.new env ev.threadId).toThreadState _).andThen _ = _
    rw [hdecode]
    exact ⟨_, _, Decoding.cons_andThen _ (es, res) _⟩
  obtain ⟨es', res', hremaining⟩ := hremaining
  simp only [hremaining] at hspec
  obtain ⟨t, rest, hupdate, hreads, hevent, -⟩ := hspec
  obtain ⟨later, hfront⟩ := hreads.front
  obtain ⟨s, hstream, -⟩ := hreads.stream
  refine ⟨t, ?_, ?_, hevent, by rw [hstream]; rfl⟩
  · have hthread : (SerializeState.init.threads ev.threadId).getD (.new env ev.threadId) =
        .new env ev.threadId := rfl
    unfold bufArrives
    simp only [hthread]
    show (check ndebug true _ >>= fun _ => check ndebug true _ >>= fun _ =>
      (started (.new env ev.threadId) mem ev).updateLastEvent env.stack mem >>= _) = _
    rw [check_true, ok_bind, check_true, ok_bind, hupdate]
    rfl
  · -- the only buffer is still there
    have hsuffix := FullThreadState.updateLastEvent_bufs hupdate
    rcases List.suffix_cons_iff.mp hsuffix with heq | hnil
    · exact heq
    · rw [List.suffix_nil.mp hnil] at hfront
      simp at hfront

/-- The only thread frees a token that is not allocated: it waits, and keeps its buffer. -/
theorem SerializeState.exists_drainBody_waits {mem : UInt64 → Option UInt8} {ev : OuterEvent}
    {tok ts cpu : UInt64} {es : List TraceEvent} {res : Except Abort ThreadState}
    (hgood : GoodBuf mem ev)
    (hdecode : decodeBytes (FullThreadState.new .tokenSet ev.threadId).toThreadState
      (bufBytes mem ev) = (⟨.free tok, ts, cpu⟩ :: es, res)) (mem' : UInt64 → Option UInt8) :
    ∃ st st' t, SerializeState.init.bufArrives false .tokenSet mem ev = .ok st ∧
      st.heap = [ev.threadId] ∧ st.drainBody false .tokenSet mem' ev.threadId = .ok st' ∧
      st'.heap = [] ∧ st'.toDie = [] ∧ st'.threads ev.threadId = some t ∧ t.bufs = [ev] := by
  obtain ⟨t, harrives, hbufs, hevent, hstream⟩ := exists_bufArrives_free hgood hdecode false
  set st := (SerializeState.init.setThread ev.threadId t).heapPush .tokenSet ev.threadId
  have ht : st.threads ev.threadId = some t := threads_setThread_self
  have hpermitted : st.permitted .tokenSet t = false := by
    unfold permitted
    rw [hevent]
    rfl
  refine ⟨st, st.blocks .tokenSet ev.threadId t, { t with inPendingFrees := true }, harrives, rfl,
    ?_, ?_, ?_, threads_setThread_self, hbufs⟩
  · rw [drainBody_eq ht hstream (by rw [hbufs]; simp), hpermitted]
    rfl
  · -- nobody else is in the heap
    show (sortedQueue UInt64 ℕ).pop _ (st.asked t).heap = []
    rw [heap_asked]
    rfl
  · show (st.asked t).toDie = []
    rw [toDie_asked]
    rfl

namespace Machine

variable {M : Type} [Mapper M] {ndebug : Bool} {env : Env} {mapper : M} {m : Machine M}

/-- A batch is done with, and a buffer stays queued. -/
structure Waits (ev : OuterEvent) (m : Machine M) : Prop where
  heap : m.state.heap = []
  toDie : m.state.toDie = []
  queued : ∃ id t, m.state.threads id = some t ∧ ev ∈ t.bufs

/-- When a batch is done with and nobody dies, the next one is read. -/
theorem Waits.reached_records {ev : OuterEvent} (h : m.Waits ev)
    (hm : Reached ndebug env mapper m) (hloc : m.loc = .drain) (hend : m.input.seenEnd = false) :
    ∃ m', Reached ndebug env mapper m' ∧ m'.loc = .records ∧ m'.input = m.input ∧ m'.Waits ev := by
  have hdrain : m.step ndebug env = .ok { m with loc := .toDie [] [] } := by
    unfold step stepDrain
    simp only [hloc, h.heap, h.toDie]
  have htoDie : ({ m with loc := .toDie [] [] } : Machine M).step ndebug env =
      .ok { m with loc := .records, state := { m.state with toDie := [] }.send .barrier none } := by
    unfold step stepToDie
    simp only [hend, Bool.false_eq_true, if_false]
  exact ⟨_, (hm.step hdrain).step htoDie, rfl, rfl, ⟨h.heap, rfl, h.queued⟩⟩

/-- The end of a batch. -/
theorem Waits.reached_drain {ev : OuterEvent} (h : m.Waits ev) (hm : Reached ndebug env mapper m)
    (hloc : m.loc = .records) {i : Input M}
    (hadv : m.input.advance ndebug env = .ok (.batchEnd, i)) :
    ∃ m', Reached ndebug env mapper m' ∧ m'.loc = .drain ∧ m'.input = i ∧ m'.Waits ev := by
  have hstep : m.step ndebug env = .ok { m with loc := .drain, input := i } := by
    unfold step stepRecords
    simp only [hloc, hadv, ok_bind, pure_eq_ok]
  exact ⟨_, hm.step hstep, rfl, rfl, ⟨h.heap, h.toDie, h.queued⟩⟩

/-- The first batch: the only thread waits. -/
theorem exists_waits {n : ℕ} (hn : n ≤ 2 ^ 28) :
    ∃ m ev, Reached false .tokenSet (FDInputMapper.new (waitingFile n) 0x10000 fun _ _ => true) m ∧
      m.loc = .drain ∧ m.Waits ev ∧ m.input.seenEnd = false ∧
      (∃ st, m.input.Written 0x10000 (waitingFile n).content st (waitingRecords n).tail.tail) ∧
      m.input.lastBarriersIndex = 1 ∧ (0x10000 : UInt64) ≤ ev.bufStart ∧
      ev.bufStart.toNat + n ≤ (m.input.lastBarriers 1).toNat := by
  obtain ⟨hlen, hroom⟩ := room_waitingFile hn
  have hbounded := bounded_waitingRecords n
  have hgenerous : Generous (FDInputMapper.new (waitingFile n) 0x10000 fun _ _ => true) :=
    ⟨fun _ => ⟨_, rfl, le_refl _⟩, fun _ _ => rfl⟩
  obtain ⟨i₀, hopen, hwritten, hend₀, hindex₀⟩ :=
    Input.exists_written (by decide) hroom rfl rfl hgenerous Env.tokenSet
  -- the buffer arrives
  obtain ⟨ev, i₁, hadv, hwritten₁, hholds, hplace, hend₁, hindex₁⟩ :=
    hwritten.buf (hbounded _ (List.mem_cons_self ..)) hroom hlen false Env.tokenSet
  have hevents := (hbounded _ (List.mem_cons_self ..)).2.2.2
  have hbody := toNat_bufEnd hholds
  obtain ⟨ts, hdecode, -⟩ := decodeBytes_writeEvents (inStep_init Env.tokenSet ev.threadId) hevents
  -- the barrier
  obtain ⟨i₂, hadv₂, hwritten₂, hend₂, hmoves₂, hindex₂, hbarriers₂, -⟩ :=
    hwritten₁.barrier (hbounded _ (List.mem_cons_of_mem _ (List.mem_cons_self ..))) hroom hlen false
      Env.tokenSet
  -- the thread waits
  obtain ⟨st, st', t, harrives, hheap, hdrain, hheap', htoDie', ht, hbufs⟩ :=
    SerializeState.exists_drainBody_waits (goodBuf_of_holds hholds rfl)
      (by rw [bufBytes_of_holds hholds rfl]; exact hdecode) i₂.mem
  have hstart : Reached false .tokenSet (FDInputMapper.new (waitingFile n) 0x10000 fun _ _ => true)
      ⟨.records, i₀, .init⟩ := ⟨0, by rw [serialize, start, hopen]; rfl⟩
  have hbuf : (⟨.records, i₀, .init⟩ : Machine FDInputMapper).step false .tokenSet =
      .ok ⟨.records, i₁, st⟩ := by
    have htype : ev.type = .buf := hholds.type
    unfold step stepRecords
    simp only [hadv, ok_bind, htype]
    unfold Input.mem
    rw [harrives]
    rfl
  have hbarrier : (⟨.records, i₁, st⟩ : Machine FDInputMapper).step false .tokenSet =
      .ok ⟨.drain, i₂, st⟩ := by
    unfold step stepRecords
    simp only [hadv₂, ok_bind, pure_eq_ok]
  have hwaits : (⟨.drain, i₂, st⟩ : Machine FDInputMapper).step false .tokenSet =
      .ok ⟨.drain, i₂, st'⟩ := by
    unfold step stepDrain
    simp only [hheap, hdrain, ok_bind, pure_eq_ok]
  refine ⟨_, ev, ((hstart.step hbuf).step hbarrier).step hwaits, rfl,
    ⟨hheap', htoDie', _, t, ht, ?_⟩, ?_, ⟨_, hwritten₂⟩, ?_, ?_, ?_⟩
  · rw [hbufs]
    exact List.mem_singleton_self ev
  · rw [hend₂, hend₁, hend₀]
  · rw [hindex₂, hindex₁, hindex₀]
    rfl
  · have hkept := ((hwritten.inFile.record hadv).2.2.2.1 hholds.type).1
    have hstart := hwritten₁.inFile.stream.image.le_lastStart
    exact UInt64.le_trans (UInt64.le_iff_toNat_le.mpr hstart) hkept
  · have hbarrier : i₂.lastBarriers 1 = i₂.s.ptr := by
      rw [hbarriers₂, hindex₁, hindex₀]
      rfl
    have hlength : (TraceRecord.outer (fun _ => EncoderState.init)
        (.buf 1 0 0 (.free 5 :: List.replicate n (.malloc 0)))).body.length = n + 1 :=
      length_writeEvents_waiting n
    show _ ≤ (i₂.lastBarriers 1).toNat
    rw [hbarrier]
    rw [hlength, hplace] at hbody
    have hmoves := UInt64.le_iff_toNat_le.mp hmoves₂
    omega

/-- **Memory that a thread waits to read** is given back after the third barrier. -/
theorem exists_not_queuedKept {n : ℕ} (hmany : 2 ^ 27 ≤ n) (hn : n ≤ 2 ^ 28) :
    ∃ m, Reached false .tokenSet (FDInputMapper.new (waitingFile n) 0x10000 fun _ _ => true) m ∧
      m.loc = .drain ∧ ¬ m.QueuedKept := by
  obtain ⟨hlen, hroom⟩ := room_waitingFile hn
  have hbounded : (TraceRecord.syncBarrier 0 0).Bounded :=
    bounded_waitingRecords n _ (List.mem_cons_of_mem _ (List.mem_cons_self ..))
  obtain ⟨m₁, ev, hm₁, hloc₁, hwaits₁, hend₁, ⟨st, hwritten₁⟩, hindex₁, hstart, hfar⟩ :=
    exists_waits hn
  obtain ⟨m₂, hm₂, hloc₂, hinput₂, hwaits₂⟩ := hwaits₁.reached_records hm₁ hloc₁ hend₁
  rw [← hinput₂] at hend₁ hwritten₁ hindex₁ hfar
  -- the second barrier
  obtain ⟨i₃, hadv₃, hwritten₃, hend₃, -, hindex₃, hbarriers₃, -⟩ :=
    hwritten₁.barrier hbounded hroom hlen false Env.tokenSet
  obtain ⟨m₃, hm₃, hloc₃, rfl, hwaits₃⟩ := hwaits₂.reached_drain hm₂ hloc₂ hadv₃
  obtain ⟨m₄, hm₄, hloc₄, hinput₄, hwaits₄⟩ :=
    hwaits₃.reached_records hm₃ hloc₃ (hend₃.trans hend₁)
  rw [← hinput₄] at hwritten₃ hindex₃ hbarriers₃
  -- the third barrier gives back what is before the first one
  obtain ⟨i₅, hadv₅, -, -, -, -, -, hreleased⟩ :=
    hwritten₃.barrier hbounded hroom hlen false Env.tokenSet
  obtain ⟨m₅, hm₅, hloc₅, rfl, -, -, id, t, ht, hev⟩ := hwaits₄.reached_drain hm₄ hloc₄ hadv₅
  have hplace : m₄.input.prevBarrier = m₂.input.lastBarriers 1 := by
    unfold Input.prevBarrier
    rw [hindex₃, hindex₁, hbarriers₃, hindex₁]
    rfl
  have hplaced : (m₂.input.lastBarriers 1).toNat < 2 ^ 63 := by
    have hbefore := UInt64.le_iff_toNat_le.mp (hwritten₁.inFile.barriers 1).2
    have hread := UInt64.le_iff_toNat_le.mp hwritten₁.inFile.stream.ptr_le
    have hbelow := hwritten₁.inFile.stream.image.partImage.below
    omega
  have hstart' := UInt64.le_iff_toNat_le.mp hstart
  have hbegin := congrArg UInt64.toNat hwritten₃.inFile.stream.start
  obtain ⟨page, hpage, hnear⟩ :=
    MemStream.exists_unrealizedBelow (s := m₄.input.s) (by omega) hplaced
  have hlast := (hwritten₃.inFile.batchEnd hadv₅).2.2
  rw [hreleased, hplace, hpage, Option.elim_some] at hlast
  refine ⟨m₅, hm₅, hloc₅, fun hkept => ?_⟩
  have hlow := UInt64.le_iff_toNat_le.mp (hkept id t ht ev hev).1
  rw [hlast, MemStream.toNat_max] at hlow
  omega

/-- Not all queued buffers are kept: the thread waits for a token that is allocated after three
barriers, with `128 << 20` allocations queued. -/
theorem not_queuedKept :
    ¬ ∀ (fd : InputFd) (b : UInt64) (mmapOk : UInt64 → UInt64 → Bool) (env : Env)
      (m : Machine FDInputMapper), b.toNat % 4096 = 0 → b.toNat + fd.content.length < 2 ^ 63 →
      fd.position = 0 → Reached false env (FDInputMapper.new fd b mmapOk) m → m.loc = .drain →
      m.QueuedKept := by
  intro h
  obtain ⟨m, hm, hloc, hnot⟩ := exists_not_queuedKept (n := 2 ^ 27) (le_refl _) (by norm_num)
  have hroom := (room_waitingFile (n := 2 ^ 27) (by norm_num)).2
  exact hnot (h _ _ _ _ m (by decide) (by omega) rfl hm hloc)

end Machine

end MallocTraceReplay
