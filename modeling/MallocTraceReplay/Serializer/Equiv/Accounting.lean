import MallocTraceReplay.Serializer.Trace
import MallocTraceReplay.Codec.TraceWriter
import MallocTraceReplay.Serializer.Equiv.Scheduled
import MallocTraceReplay.Serializer.Equiv.Input

/-!
# No event is lost or delivered twice

At every moment what a thread recorded is what was delivered for it, followed by what it has still
pending: its event decoded ahead, the rest of its active buffer and its queued buffers
(`Accounted`).  Every part of a step of the serializer keeps this equation, and with it the
delivered events are a prefix of the recorded ones.
-/

namespace MallocTraceReplay

open StepMachine MallocTraceEncoder

/-! ### What was delivered -/

/-- The event that a call delivers for a thread. -/
def Sent.eventFor? (id : UInt64) (s : Sent) : Option TraceEvent :=
  match s.call, s.origin with
  | .event ev, some o => if o.threadId = id then some ⟨ev, o.ts, o.cpu⟩ else none
  | _, _ => none

theorem filterMap_eventFor?_append {sent extra : List Sent}
    (h : ∀ s ∈ extra, ∀ ev, s.call ≠ .event ev) (id : UInt64) :
    (sent ++ extra).filterMap (Sent.eventFor? id) = sent.filterMap (Sent.eventFor? id) := by
  have hnone : extra.filterMap (Sent.eventFor? id) = [] := by
    rw [List.filterMap_eq_nil_iff]
    intro s hs
    have hcall := h s hs
    unfold Sent.eventFor?
    split
    · next ev o heq _ => exact absurd heq (hcall ev)
    · rfl
  rw [List.filterMap_append, hnone, List.append_nil]

/-- The events delivered for a thread, with the time stamp and the cpu it had. -/
def SerializeState.eventsFor (st : SerializeState) (id : UInt64) : List TraceEvent :=
  st.sent.filterMap (Sent.eventFor? id)

/-- The event of a thread that was decoded ahead. -/
def FullThreadState.current (t : FullThreadState) : TraceEvent :=
  ⟨t.lastEvent, t.lastTs, t.lastCpu⟩

/-! ### What is pending -/

section Pending

variable {env : Env} {mem : UInt64 → Option UInt8} {t t' : FullThreadState} {d rec : Decoding}
  {events : List TraceEvent} {ev : OuterEvent}

/-- What a thread has still to deliver: nothing when it is idle, else its current event and
what it is to decode. -/
def Pending (mem : UInt64 → Option UInt8) (t : FullThreadState) (d : Decoding) : Prop :=
  (t.bufs = [] ∧ d = .pure t.toThreadState) ∨
    ∃ rest, Reading mem t rest ∧ d = .cons t.current (remaining mem t rest)

/-- After what is pending, a dead thread starts afresh. -/
def afterwards (env : Env) (t : FullThreadState) (d : Decoding) : Decoding :=
  if t.dead then d.andThen fun _ => .pure (freshState env t.threadId) else d

/-- **The equation**: what was recorded is what was delivered and what is pending. -/
def Accounted (env : Env) (mem : UInt64 → Option UInt8) (t : FullThreadState)
    (events : List TraceEvent) (rec : Decoding) : Prop :=
  ∃ d, Pending mem t d ∧ rec = (events ++ (afterwards env t d).1, (afterwards env t d).2)

/-- Nothing was recorded, delivered or is pending for a new thread. -/
theorem accounted_new (id : UInt64) :
    Accounted env mem (.new env id) [] (.pure (freshState env id)) :=
  ⟨_, Or.inl ⟨rfl, rfl⟩, rfl⟩

/-- What is pending does not depend on the flags. -/
theorem Pending.of_eq (h : Pending mem t d) (hstate : t'.toThreadState = t.toThreadState)
    (hbufs : t'.bufs = t.bufs) (hactive : t'.activeBuf = t.activeBuf)
    (hstream : t'.activeStream = t.activeStream) (hevent : t'.lastEvent = t.lastEvent) :
    Pending mem t' d := by
  rcases h with ⟨hb, hd⟩ | ⟨rest, hr, hd⟩
  · exact Or.inl ⟨hbufs.trans hb, by rw [hd, hstate]⟩
  · refine Or.inr ⟨rest, ⟨?_, ?_, ?_⟩, ?_⟩
    · rw [hstream]; exact hr.stream
    · rw [hbufs, hactive]; exact hr.front
    · rw [hbufs]; exact hr.good
    · rw [hd, FullThreadState.current, FullThreadState.current, remaining, remaining, hevent,
        hstate, hbufs, hactive]

/-- Waiting or not makes no difference. -/
theorem Accounted.setInPendingFrees (h : Accounted env mem t events rec) (flag : Bool) :
    Accounted env mem { t with inPendingFrees := flag } events rec := by
  obtain ⟨d, hd, hrec⟩ := h
  exact ⟨d, hd.of_eq rfl rfl rfl rfl rfl, hrec⟩

/-- A thread that has buffers reads them. -/
theorem Pending.reading (h : Pending mem t d) (hbufs : t.bufs ≠ []) :
    ∃ rest, Reading mem t rest ∧ d = .cons t.current (remaining mem t rest) :=
  h.resolve_left fun hidle => hbufs hidle.1

/-- What an idle thread has pending. -/
theorem Pending.idle (h : Pending mem t d) (hbufs : t.bufs = []) : d = .pure t.toThreadState := by
  rcases h with ⟨-, hd⟩ | ⟨rest, hr, -⟩
  · exact hd
  · obtain ⟨later, hl⟩ := hr.front
    simp [hbufs] at hl

/-! ### One thread through the parts of a step -/

/-- A buffer is queued behind others. -/
theorem Accounted.queue (h : Accounted env mem t events rec) (hdead : t.dead = false)
    (hbufs : t.bufs ≠ []) (hgood : GoodBuf mem ev) :
    Accounted env mem { t with bufs := t.bufs ++ [ev] } events
      (rec.andThen (decodeBuf mem ev)) := by
  obtain ⟨d, hd, rfl⟩ := h
  obtain ⟨rest, hr, rfl⟩ := hd.reading hbufs
  obtain ⟨later, hlater⟩ := hr.front
  set t' : FullThreadState := { t with bufs := t.bufs ++ [ev] } with ht'
  have hr' : Reading mem t' rest := by
    refine ⟨hr.stream, ⟨later ++ [ev], ?_⟩, fun e he => ?_⟩
    · rw [ht']
      simp [hlater]
    · rcases List.mem_append.mp he with he | he
      · exact hr.good e he
      · rw [List.mem_singleton.mp he]
        exact hgood
  have hremaining : remaining mem t' rest =
      (remaining mem t rest).andThen (decodeBuf mem ev) := by
    rw [remaining, remaining, Decoding.andThen_assoc, List.tail_append_of_ne_nil hbufs]
    congr 1
    funext ts
    exact decodeBufs_concat mem _ _ _
  refine ⟨_, Or.inr ⟨rest, hr', rfl⟩, ?_⟩
  simp only [afterwards, ht', hdead, Bool.false_eq_true, if_false]
  rw [Decoding.append_andThen, Decoding.cons_andThen, ← hremaining]
  rfl

/-- A thread decodes its next event from what is remaining for it. -/
theorem accounted_updateLastEvent {rest : List UInt8} {ok : Bool} (hr : Reading mem t rest)
    (hupdate : t.updateLastEvent env.stack mem = .ok (ok, t')) :
    ∃ d, Pending mem t' d ∧ d = remaining mem t rest := by
  have hspec := FullThreadState.updateLastEvent_eq env.stack hr
  have hframe := FullThreadState.updateLastEvent_frame
    (by obtain ⟨later, hl⟩ := hr.front; simp [hl]) hupdate
  rcases hrem : remaining mem t rest with ⟨es, r⟩
  simp only [hrem] at hspec
  cases es with
  | cons e es =>
    obtain ⟨t₁, rest₁, heq, hr₁, hev, hts, hcpu, hrem₁⟩ := hspec
    rw [hupdate] at heq
    obtain ⟨-, rfl⟩ := Prod.mk.inj (Except.ok.inj heq)
    refine ⟨_, Or.inr ⟨rest₁, hr₁, rfl⟩, ?_⟩
    rw [hrem₁, FullThreadState.current, hev, hts, hcpu]
    rfl
  | nil =>
    cases r with
    | error e => simp [hupdate] at hspec
    | ok ts =>
      obtain ⟨t₁, heq, hts⟩ := hspec
      rw [hupdate] at heq
      obtain ⟨rfl, rfl⟩ := Prod.mk.inj (Except.ok.inj heq)
      exact ⟨_, Or.inl ⟨(hframe.idle rfl).1, rfl⟩, by rw [hts]; rfl⟩

/-- A buffer starts an idle thread up. -/
theorem Accounted.start {ok : Bool} (h : Accounted env mem t events rec) (hdead : t.dead = false)
    (hbufs : t.bufs = []) (hgood : GoodBuf mem ev)
    (hupdate : (SerializeState.started t mem ev).updateLastEvent env.stack mem = .ok (ok, t')) :
    Accounted env mem t' events (rec.andThen (decodeBuf mem ev)) := by
  obtain ⟨d, hd, rfl⟩ := h
  have hr : Reading mem (SerializeState.started t mem ev) (bufBytes mem ev) := by
    refine ⟨⟨_, rfl, stands_constMemStream hgood⟩, ⟨[], rfl⟩, fun e he => ?_⟩
    rw [List.mem_singleton.mp he]
    exact hgood
  have hframe := FullThreadState.updateLastEvent_frame (by simp [SerializeState.started]) hupdate
  obtain ⟨d', hd', hrem⟩ := accounted_updateLastEvent hr hupdate
  refine ⟨d', hd', ?_⟩
  have hdead' : t'.dead = false := hframe.flags.dead.trans hdead
  simp only [afterwards, hdead, hdead', Bool.false_eq_true, if_false]
  rw [Decoding.append_andThen, hd.idle hbufs, Decoding.pure_andThen, hrem]
  rfl

/-- The thread dies. -/
theorem Accounted.die (h : Accounted env mem t events rec) (hdead : t.dead = false) :
    Accounted env mem { t with dead := true } events
      (rec.andThen fun _ => .pure (freshState env t.threadId)) := by
  obtain ⟨d, hd, rfl⟩ := h
  refine ⟨d, hd.of_eq rfl rfl rfl rfl rfl, ?_⟩
  simp only [afterwards, hdead, Bool.false_eq_true, if_false, if_true]
  rw [Decoding.append_andThen]

/-- **The current event is delivered** and the next one decoded. -/
theorem Accounted.deliver {ok : Bool} (h : Accounted env mem t events rec) (hbufs : t.bufs ≠ [])
    (hupdate : t.updateLastEvent env.stack mem = .ok (ok, t')) :
    Accounted env mem t' (events ++ [t.current]) rec := by
  obtain ⟨d, hd, rfl⟩ := h
  obtain ⟨rest, hr, rfl⟩ := hd.reading hbufs
  have hframe := FullThreadState.updateLastEvent_frame hbufs hupdate
  obtain ⟨d', hd', rfl⟩ := accounted_updateLastEvent hr hupdate
  refine ⟨_, hd', ?_⟩
  unfold afterwards
  rw [hframe.flags.dead, hframe.flags.threadId]
  split
  · rw [Decoding.cons_andThen]
    simp [Decoding.cons]
  · simp [Decoding.cons]

/-- A dead and idle thread is gone, and the next one with its id is new. -/
theorem Accounted.erase (h : Accounted env mem t events rec) (hdead : t.dead = true)
    (hbufs : t.bufs = []) : Accounted env mem (.new env t.threadId) events rec := by
  obtain ⟨d, hd, rfl⟩ := h
  refine ⟨_, Or.inl ⟨rfl, rfl⟩, ?_⟩
  simp only [afterwards, hdead, if_true, hd.idle hbufs, Decoding.pure_andThen]
  rfl

/-- What was delivered is a prefix of what was recorded. -/
theorem Accounted.delivered_first (h : Accounted env mem t events rec) : events <+: rec.1 := by
  obtain ⟨d, -, rfl⟩ := h
  exact List.prefix_append _ _

/-- What was delivered for an idle thread is all that was recorded. -/
theorem Accounted.idle (h : Accounted env mem t events rec) (hbufs : t.bufs = []) :
    events = rec.1 ∧ ∃ ts, rec.2 = .ok ts := by
  obtain ⟨d, hd, rfl⟩ := h
  rw [hd.idle hbufs]
  unfold afterwards
  split
  · exact ⟨(List.append_nil _).symm, _, rfl⟩
  · exact ⟨(List.append_nil _).symm, _, rfl⟩

/-- The current event is the first one that was not delivered. -/
theorem Accounted.current (h : Accounted env mem t events rec) (hbufs : t.bufs ≠ []) :
    rec.1[events.length]? = some t.current := by
  obtain ⟨d, hd, rfl⟩ := h
  obtain ⟨rest, -, rfl⟩ := hd.reading hbufs
  unfold afterwards
  split
  · rw [Decoding.cons_andThen]
    simp [Decoding.cons]
  · simp [Decoding.cons]

end Pending

/-! ### The calls of the parts of a step -/

namespace SerializeState

variable {env : Env} {mem : UInt64 → Option UInt8} {st st' : SerializeState} {id : UInt64}
  {t t' : FullThreadState}

theorem eventsFor_of_sent (h : st'.sent = st.sent) (id : UInt64) :
    st'.eventsFor id = st.eventsFor id := by
  rw [eventsFor, eventsFor, h]

/-- Calls that are not events deliver nothing. -/
theorem eventsFor_append (extra : List Sent) (h : st'.sent = st.sent ++ extra)
    (hextra : ∀ s ∈ extra, ∀ ev, s.call ≠ .event ev) (id : UInt64) :
    st'.eventsFor id = st.eventsFor id := by
  rw [eventsFor, eventsFor, h, filterMap_eventFor?_append hextra]

theorem sent_asked (st : SerializeState) (t : FullThreadState) :
    ∃ extra, (st.asked t).sent = st.sent ++ extra ∧
    ∀ s ∈ extra, ∃ tok, s = ⟨.hasAllocated tok, none⟩ := by
  unfold asked
  split
  · exact ⟨[], by simp, by simp⟩
  · next tok _ => exact ⟨[⟨.hasAllocated tok, none⟩], rfl, by simp⟩

@[simp] theorem eventsFor_asked : (st.asked t).eventsFor id = st.eventsFor id := by
  obtain ⟨extra, h, hextra⟩ := sent_asked st t
  refine eventsFor_append extra h (fun s hs ev => ?_) id
  obtain ⟨tok, rfl⟩ := hextra s hs
  simp

theorem eventsFor_deliver : (st.deliver t).eventsFor id =
    st.eventsFor id ++ if t.threadId = id then [t.current] else [] := by
  have hswitch : (st.switchCalls t).filterMap (Sent.eventFor? id) = [] := by
    unfold switchCalls
    rw [List.filterMap_append]
    split <;> split <;> rfl
  rw [deliver_eq]
  unfold eventsFor
  simp only [List.filterMap_append, hswitch, List.append_nil]
  congr 1
  by_cases hid : t.threadId = id
  · rw [if_pos hid, List.filterMap_cons_some (b := t.current)]
    · rfl
    · simp [Sent.eventFor?, FullThreadState.origin, hid, FullThreadState.current]
  · rw [if_neg hid, List.filterMap_cons_none]
    · rfl
    · simp [Sent.eventFor?, FullThreadState.origin, hid]

/-- The event is delivered for its thread. -/
theorem eventsFor_delivered : (st.delivered t).eventsFor id =
    st.eventsFor id ++ if t.threadId = id then [t.current] else [] := by
  rw [delivered, eventsFor_deliver, eventsFor_asked]

theorem sent_goesOn (env : Env) (st : SerializeState) (id : UInt64) (t t' : FullThreadState) :
    (st.goesOn env id t t').sent = (st.delivered t).sent := by
  unfold goesOn
  dsimp only
  split <;> rfl

theorem sent_finishes : (st.finishes env id t t').sent = (st.delivered t).sent ++
    if t'.dead then [⟨.killCurrentThread, some t'.origin⟩] else [] := by
  unfold finishes
  split
  · rfl
  · simp

theorem sent_addAllocated (tok : UInt64) : (st.addAllocated env tok).sent = st.sent := by
  unfold addAllocated
  split
  · rfl
  · dsimp only
    split <;> rfl

theorem sent_wake (ev : InnerEvent) : (st.wake env ev).sent = st.sent := by
  unfold wake
  split
  · exact sent_addAllocated _
  · rfl

theorem threadFor_of_threads (h : st'.threads = (st.setThread id t').threads) (i : UInt64) :
    st'.threadFor env i = if i = id then t' else st.threadFor env i := by
  unfold threadFor
  rw [h]
  by_cases hi : i = id
  · rw [if_pos hi, hi, threads_setThread_self, Option.getD_some]
  · rw [if_neg hi, threads_setThread_of_ne hi]

theorem threadFor_of_some (h : st.threads id = some t) : st.threadFor env id = t := by
  rw [threadFor, h, Option.getD_some]

end SerializeState

/-! ### The whole state -/

/-- **The books of the serializer**: for every thread, what the items read so far recorded is
what was delivered and what is pending. -/
def Books (env : Env) (mem : UInt64 → Option UInt8) (items : List Item) (st : SerializeState) :
    Prop :=
  ∀ id, Accounted env mem (st.threadFor env id) (st.eventsFor id) (recorded env mem items id)

namespace Books

variable {env : Env} {mem : UInt64 → Option UInt8} {items items' : List Item}
  {st st' : SerializeState} {id : UInt64} {t t' : FullThreadState} {ev : OuterEvent}

theorem init : Books env mem [] .init := fun id => accounted_new id

/-- **A step that touches one thread.** -/
theorem update (h : Books env mem items st) (hthreads : st'.threads = (st.setThread id t').threads)
    (hevents : ∀ i ≠ id, st'.eventsFor i = st.eventsFor i)
    (hitems : ∀ i ≠ id, recorded env mem items' i = recorded env mem items i)
    (hself : Accounted env mem t' (st'.eventsFor id) (recorded env mem items' id)) :
    Books env mem items' st' := by
  intro i
  rw [SerializeState.threadFor_of_threads hthreads]
  by_cases hi : i = id
  · rw [if_pos hi, hi]
    exact hself
  · rw [if_neg hi, hevents i hi, hitems i hi]
    exact h i

/-- What the books are about. -/
theorem of_eq (h : Books env mem items st) (hthreads : st'.threads = st.threads)
    (hevents : ∀ i, st'.eventsFor i = st.eventsFor i) : Books env mem items st' := by
  intro i
  have := h i
  rw [hevents i]
  unfold SerializeState.threadFor at this ⊢
  rw [hthreads]
  exact this

theorem recorded_of_ne {i : UInt64} (hi : i ≠ ev.threadId) :
    recorded env mem (items ++ [.record ev]) i = recorded env mem items i := by
  rw [recorded_append, recordItem, if_neg (fun h => hi h.symm)]

theorem recorded_buf (htype : ev.type = .buf) :
    recorded env mem (items ++ [.record ev]) ev.threadId =
      (recorded env mem items ev.threadId).andThen (decodeBuf mem ev) := by
  rw [recorded_append, recordItem, if_pos rfl]
  simp only [htype]

theorem recorded_death (htype : ev.type = .death) :
    recorded env mem (items ++ [.record ev]) ev.threadId =
      (recorded env mem items ev.threadId).andThen
        fun _ => .pure (freshState env ev.threadId) := by
  rw [recorded_append, recordItem, if_pos rfl]
  simp only [htype]

theorem bufArrives (h : Books env mem items st) (htype : ev.type = .buf) (hgood : GoodBuf mem ev)
    (hstep : st.bufArrives false env mem ev = .ok st') :
    Books env mem (items ++ [.record ev]) st' := by
  have ha := h ev.threadId
  obtain ⟨hdead, ⟨hbufs, rfl⟩ | ⟨hbufs, ok, t', hupdate, rfl⟩⟩ :=
    SerializeState.bufArrives_cases hstep
  · refine h.update rfl (fun i _ => rfl) (fun i hi => recorded_of_ne hi) ?_
    rw [recorded_buf htype]
    exact ha.queue hdead hbufs hgood
  · have hstart := ha.start hdead hbufs hgood hupdate
    rw [← recorded_buf htype] at hstart
    cases ok with
    | true => exact h.update rfl (fun i _ => rfl) (fun i hi => recorded_of_ne hi) hstart
    | false => exact h.update rfl (fun i _ => rfl) (fun i hi => recorded_of_ne hi) hstart

theorem deathArrives (h : Books env mem items st) (hs : Scheduled st) (htype : ev.type = .death)
    (hstep : st.deathArrives false ev = .ok st') :
    Books env mem (items ++ [.record ev]) st' := by
  obtain ⟨t, ht, hdead, rfl⟩ := SerializeState.deathArrives_cases hstep
  have ha := h ev.threadId
  rw [SerializeState.threadFor_of_some ht] at ha
  have hdie := ha.die hdead
  rw [(hs.placed ht).threadId, ← recorded_death htype] at hdie
  exact h.update rfl (fun i _ => rfl) (fun i hi => recorded_of_ne hi) hdie

theorem addAllocated (h : Books env mem items st) (hs : Scheduled st) (tok : UInt64) :
    Books env mem items (st.addAllocated env tok) := by
  cases hwait : st.pendingFrees.lookup tok with
  | none => rw [Scheduled.addAllocated_of_none hwait]; exact h
  | some id =>
    obtain ⟨t, ht, -, heq⟩ := hs.addAllocated_of_some env hwait
    have ha := h id
    rw [SerializeState.threadFor_of_some ht] at ha
    rw [heq]
    exact h.update rfl (fun i _ => rfl) (fun i _ => rfl) (ha.setInPendingFrees false)

theorem wake (h : Books env mem items st) (hs : Scheduled st) (e : InnerEvent) :
    Books env mem items (st.wake env e) := by
  unfold SerializeState.wake
  split
  · exact h.addAllocated hs _
  · exact h

theorem drainBody (h : Books env mem items st) (hs : Scheduled st) {heap : List UInt64}
    (hheap : st.heap = id :: heap) (hstep : st.drainBody false env mem id = .ok st') :
    Books env mem items st' := by
  obtain ⟨t, ht, -, hbufs, ⟨-, ok, t', hupdate, rfl⟩ | ⟨-, -, rfl⟩⟩ :=
    SerializeState.drainBody_cases hstep
  · have ha := h id
    have hid := (hs.placed ht).threadId
    have hu := FullThreadState.updateLastEvent_frame hbufs hupdate
    rw [SerializeState.threadFor_of_some ht] at ha
    have hself := ha.deliver hbufs hupdate
    -- only this thread has a call more
    have hevents : ∀ i ≠ id, (st.delivered t).eventsFor i = st.eventsFor i := by
      intro i hi
      rw [SerializeState.eventsFor_delivered, if_neg (by rw [hid]; exact hi.symm), List.append_nil]
    have hown : (st.delivered t).eventsFor id = st.eventsFor id ++ [t.current] := by
      rw [SerializeState.eventsFor_delivered, if_pos hid]
    cases ok with
    | true =>
      -- a switch and a time stamp are no events
      have hsent := SerializeState.eventsFor_of_sent
        (SerializeState.sent_goesOn env st id t t')
      refine wake (h.update Scheduled.goesOn_threads (fun i hi => ?_) (fun i _ => rfl) ?_)
        (hs.goesOn hheap ht hu) _
      · rw [hsent, hevents i hi]
      · rw [hsent, hown]
        exact hself
    | false =>
      -- nor is a kill
      have hsent : ∀ i, (st.finishes env id t t').eventsFor i = (st.delivered t).eventsFor i :=
        SerializeState.eventsFor_append _ SerializeState.sent_finishes (by
          intro s hs ev
          split at hs
          · rw [List.mem_singleton.mp hs]
            simp
          · simp at hs)
      refine wake (h.update Scheduled.finishes_threads (fun i hi => ?_) (fun i _ => rfl) ?_)
        (hs.finishes hheap ht hu) _
      · rw [hsent, hevents i hi]
      · rw [hsent, hown]
        obtain ⟨d, hd, hrec⟩ := hself
        exact ⟨d, hd.of_eq rfl rfl rfl rfl rfl, hrec⟩
  · -- it blocks: the event stays where it is, and `HasAllocated` is no event either
    have ha := h id
    rw [SerializeState.threadFor_of_some ht] at ha
    have hsent : ∀ i, (st.blocks env id t).eventsFor i = st.eventsFor i := fun i =>
      SerializeState.eventsFor_asked
    have hthreads : (st.blocks env id t).threads =
        (st.setThread id { t with inPendingFrees := true }).threads := by
      simp [SerializeState.blocks, SerializeState.setThread]
    refine h.update hthreads (fun i _ => hsent i) (fun i _ => rfl) ?_
    rw [hsent]
    exact ha.setInPendingFrees true

theorem toDieBody {carried : Bool} (h : Books env mem items st) (hs : Scheduled st)
    (hstep : st.toDieBody false id = .ok (carried, st')) : Books env mem items st' := by
  obtain ⟨t, ht, hdead, hbufs, ⟨-, -, -, rfl⟩ | ⟨-, -, -, rfl⟩⟩ :=
    SerializeState.toDieBody_cases hstep
  · exact h
  · have hsent : ∀ i, ((st.killed t).eraseThread id).eventsFor i = st.eventsFor i := by
      intro i
      show (st.killed t).eventsFor i = _
      unfold SerializeState.killed
      split
      · rfl
      · refine SerializeState.eventsFor_append
          [⟨.switchThread t.threadId, some t.origin⟩, ⟨.killCurrentThread, some t.origin⟩]
            (by simp) ?_ i
        simp
    intro i
    rw [hsent]
    have ha := h i
    by_cases hi : i = id
    · rw [hi, SerializeState.threadFor_of_some ht] at ha
      have hnew : ((st.killed t).eraseThread id).threadFor env id = .new env id := by
        simp [SerializeState.threadFor, SerializeState.eraseThread]
      rw [hi, hnew]
      have herase := ha.erase hdead hbufs
      rwa [(hs.placed ht).threadId] at herase
    · have hsame : ((st.killed t).eraseThread id).threadFor env i = st.threadFor env i := by
        simp [SerializeState.threadFor, SerializeState.eraseThread, hi]
      rw [hsame]
      exact ha

end Books

/-! ### Over whole runs -/

namespace Machine

variable {env : Env} {b : UInt64} {data : List UInt8} {m m' : Machine ConstMapper}

/-- The buffers are read from the trace. -/
theorem Reached.mem_eq (h : InUserSpace b data)
    (hm : Reached false env (ConstMapper.ofBytes b data) m) :
    m.input.mem = (ConstMapper.ofBytes b data).mem :=
  hm.reads.input.mem_eq h

/-- **The books are kept by every step** on a trace that stands in memory. -/
theorem step_books (h : InUserSpace b data) (hreads : Reads env (ConstMapper.ofBytes b data) m)
    (hs : Scheduled m.state) (hI : Books env (ConstMapper.ofBytes b data).mem m.input.read m.state)
    (hstep : m.step false env = .ok m') :
    Books env (ConstMapper.ofBytes b data).mem m'.input.read m'.state := by
  have hmem := hreads.input.mem_eq h
  rcases step_cases hstep with ⟨hloc, item, hadv, hcases⟩ | ⟨-, hinput, hcases⟩ |
    ⟨id, todo, next, carried, -, hinput, hst, -⟩ | ⟨next, -, hinput, -, hst⟩ | ⟨-, rfl⟩
  · have hread := Input.advance_read hadv
    have hgood := ((hreads.input.readsTrace h).advance h (hreads.goesOn hloc) hadv).2
    have hmem' := (hreads.step hstep).input.mem_eq h
    rw [hread]
    rcases hcases with ⟨rfl, -, hst⟩ | ⟨-, ev, rfl, ⟨htype, hst⟩ | ⟨htype, hst⟩⟩
    · intro id
      rw [hst, recorded_batchEnd]
      exact hI id
    · rw [hmem'] at hst
      exact hI.bufArrives htype (hgood ev rfl htype) hst
    · exact hI.deathArrives hs htype hst
  · rw [hinput]
    rcases hcases with ⟨-, -, hst⟩ | ⟨-, id, heap, hheap, hst⟩
    · rw [hst]; exact hI
    · rw [hmem] at hst
      exact hI.drainBody hs hheap hst
  · rw [hinput]
    exact hI.toDieBody hs hst
  · rw [hinput, hst]
    refine hI.of_eq rfl fun i => ?_
    exact SerializeState.eventsFor_append [⟨.barrier, none⟩] rfl (by simp) i
  · exact hI

/-- **The books are kept over every run** on a trace that stands in memory. -/
theorem Reached.books (h : InUserSpace b data)
    (hm : Reached false env (ConstMapper.ofBytes b data) m) :
    Books env (ConstMapper.ofBytes b data).mem m.input.read m.state := by
  refine hm.invariant
    (I := fun m => Books env (ConstMapper.ofBytes b data).mem m.input.read m.state)
    (fun m hstart => ?_) fun m m' hm hI hstep => step_books h hm.reads hm.scheduled hI hstep
  obtain ⟨-, hstate, hread⟩ := start_state hstart
  rw [hstate, hread]
  exact .init

/-- **No event is lost, delivered twice or out of order**: at every moment of every run the
events delivered for a thread are a prefix of those its buffers decode to, and when the function
returns they are all of them, unless the thread waits for a token. -/
theorem Reached.delivered_in_order (h : InUserSpace b data)
    (hm : Reached false env (ConstMapper.ofBytes b data) m) (id : UInt64) :
    m.state.eventsFor id <+:
        (recorded env (ConstMapper.ofBytes b data).mem m.input.read id).1 ∧
      (m.loc = .returned → (∀ tok, (tok, id) ∉ m.state.pendingFrees) →
        m.state.eventsFor id =
          (recorded env (ConstMapper.ofBytes b data).mem m.input.read id).1) := by
  have hbooks := hm.books h id
  refine ⟨hbooks.delivered_first, fun hloc hno => (hbooks.idle ?_).1⟩
  have hp := hm.scheduled.placed_threadFor env id
  have hheap := hm.heap_eq_nil (by simp [hloc]) (by simp [hloc])
  by_contra hbufs
  by_cases hflag : (m.state.threadFor env id).inPendingFrees = true
  · obtain ⟨tok, htok⟩ := hp.mem_pending.mpr hflag
    exact hno tok htok
  · have := hp.mem_heap.mpr ⟨hbufs, by simpa using hflag⟩
    rw [hheap] at this
    simp at this

/-- A thread that allocates and frees, and one that waits for a token to the end. -/
def waitingTrace : List UInt8 :=
  writeTrace [.buf 1 1024 0 [.tok 7 1024 3, .malloc 24, .free 7], .syncBarrier 2048 0,
    .buf 2 2048 1 [.free 9], .end_]

theorem delivered_in_order_waitingTrace :
    ∃ m, Reached false .tokenSet (ConstMapper.ofBytes 0x10000 waitingTrace) m ∧
      m.state.eventsFor 1 = [⟨.malloc 7 24, 1024, 3⟩, ⟨.free 7, 1024, 3⟩] ∧
      (recorded .tokenSet (ConstMapper.ofBytes 0x10000 waitingTrace).mem m.input.read 1).1 =
        m.state.eventsFor 1 ∧
      m.state.eventsFor 2 <+:
        (recorded .tokenSet (ConstMapper.ofBytes 0x10000 waitingTrace).mem m.input.read 2).1 := by
  have hspace : InUserSpace 0x10000 waitingTrace := ⟨by decide +kernel, by decide +kernel⟩
  obtain ⟨m, hm, hsee⟩ := reached_of_map false .tokenSet
    (ConstMapper.ofBytes 0x10000 waitingTrace) 16
    (f := fun m => (m.loc, m.state.pendingFrees, m.state.eventsFor 1))
    (a := (.returned, [(9, 2)], [⟨.malloc 7 24, 1024, 3⟩, ⟨.free 7, 1024, 3⟩]))
    (by decide +kernel)
  simp only [Prod.mk.injEq] at hsee
  obtain ⟨hloc, hpending, hevents⟩ := hsee
  refine ⟨m, hm, hevents, ?_, (hm.delivered_in_order hspace 2).1⟩
  exact ((hm.delivered_in_order hspace 1).2 hloc (by simp [hpending])).symm

end Machine

end MallocTraceReplay
