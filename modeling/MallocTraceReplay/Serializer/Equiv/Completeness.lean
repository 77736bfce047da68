import Mathlib.Data.Prod.Lex
import MallocTraceReplay.Serializer.Equiv.Progress
import MallocTraceReplay.Serializer.Equiv.Switching

/-!
# The scheduler is complete

The drain loop is greedy: it delivers what it can in the order of the time stamps, and threads wait
for the tokens of others.  It ends nevertheless (`Reached.work_lt`), and nothing is left behind
where the events can be ordered at all: the first event of such an order that was not delivered
would wait for a token that is allocated (`Reached.delivers_all`, `Reached.nothing_missing`).  So
the function returns with every event delivered (`completes`).
-/

namespace MallocTraceReplay

open StepMachine MallocTraceEncoder History Interleaving

/-! ### The deliveries in their order -/

/-- The event that a call delivers, with its thread. -/
def Sent.delivery? (s : Sent) : Option (UInt64 × TraceEvent) :=
  match s.call, s.origin with
  | .event ev, some o => some (o.threadId, ⟨ev, o.ts, o.cpu⟩)
  | _, _ => none

/-- The events delivered so far, in their order. -/
def SerializeState.deliveries (st : SerializeState) : List (UInt64 × TraceEvent) :=
  st.sent.filterMap Sent.delivery?

theorem Sent.eventFor?_eq (s : Sent) (id : UInt64) :
    s.eventFor? id = s.delivery?.bind fun p => if p.1 = id then some p.2 else none := by
  unfold eventFor? delivery?
  cases s.call with
  | event ev => cases s.origin <;> rfl
  | killCurrentThread | switchThread | setTS | barrier | hasAllocated => rfl

theorem Sent.delivery?_eq_none {s : Sent} (h : ∀ ev, s.call ≠ .event ev) :
    s.delivery? = none := by
  unfold delivery?
  split
  · next ev o hcall _ => exact absurd hcall (h ev)
  · rfl

/-- The deliveries are an interleaving of what was delivered for each thread. -/
theorem SerializeState.project_deliveries (st : SerializeState) (id : UInt64) :
    project id st.deliveries = st.eventsFor id := by
  unfold project deliveries eventsFor
  rw [List.filterMap_filterMap]
  congr 1
  funext s
  exact (s.eventFor?_eq id).symm

namespace Talk

variable {k : Talk} {t : FullThreadState}

/-- Calls that are not events deliver nothing. -/
theorem filterMap_delivery?_append {sent extra : List Sent}
    (h : ∀ s ∈ extra, ∀ ev, s.call ≠ .event ev) :
    (sent ++ extra).filterMap Sent.delivery? = sent.filterMap Sent.delivery? := by
  rw [List.filterMap_append, List.filterMap_eq_nil_iff.mpr fun s hs =>
    Sent.delivery?_eq_none (h s hs), List.append_nil]

theorem deliveries_deliver : (k.deliver t).sent.filterMap Sent.delivery? =
    k.sent.filterMap Sent.delivery? ++ [(t.threadId, t.current)] := by
  unfold deliver
  rw [List.filterMap_append, List.append_assoc, filterMap_delivery?_append switching_not_event]
  rfl

end Talk

namespace Machine

section Deliveries

variable {M : Type} [Mapper M] {env : Env} {mapper : M} {m m' : Machine M}

/-- **What a step delivers**: an event of the thread that it delivers for, or nothing. -/
theorem deliveries_step {ndebug : Bool} (h : m.step ndebug env = .ok m') :
    (∃ t, m.Delivers env t ∧
      m'.state.deliveries = m.state.deliveries ++ [(t.threadId, t.current)]) ∨
    ((∀ t, ¬ m.Delivers env t) ∧ m'.state.deliveries = m.state.deliveries) := by
  have hsilent : ∀ {extra : List Sent}, (∀ s ∈ extra, s.call.Silent) →
      ∀ s ∈ extra, ∀ ev, s.call ≠ .event ev := fun hextra s hs => (hextra s hs).ne_event
  have hquestion : ∀ t, (m.state.talk.add (SerializeState.question t)).sent.filterMap
      Sent.delivery? = m.state.deliveries := fun t =>
    Talk.filterMap_delivery?_append (hsilent SerializeState.silent_question)
  show (∃ t, _ ∧ m'.state.talk.sent.filterMap Sent.delivery? = _) ∨
    (_ ∧ m'.state.talk.sent.filterMap Sent.delivery? = _)
  rcases talk_step h with ⟨hnone, extra, hextra, htalk⟩ | ⟨t, hd, -, htalk⟩ |
    ⟨t, t', hf, -, htalk⟩ | ⟨t, hk, htalk⟩
  · -- nothing is delivered
    right
    rw [htalk]
    exact ⟨fun t => (hnone t).1, Talk.filterMap_delivery?_append (hsilent hextra)⟩
  · -- the event is the only delivery of the step, before it the question
    left
    refine ⟨t, hd, ?_⟩
    rw [htalk, Talk.deliveries_deliver, hquestion]
  · left
    refine ⟨t, hf.1, ?_⟩
    rw [htalk, ← hquestion t, ← Talk.deliveries_deliver]
    exact Talk.filterMap_delivery?_append (by simp)
  · -- the loop over `to_die` delivers no event
    right
    rw [htalk]
    refine ⟨fun u hu => ?_, Talk.filterMap_delivery?_append (by simp)⟩
    obtain ⟨id, todo, next, hloc, -⟩ := hk
    simp [hu.1] at hloc

/-- An event is sent for some thread. -/
theorem Reached.event_origin (h : Reached false env mapper m) :
    ∀ s ∈ m.state.sent, ∀ ev, s.call = .event ev → ∃ o, s.origin = some o := by
  refine h.invariant (I := fun m => ∀ s ∈ m.state.sent, ∀ ev, s.call = .event ev →
    ∃ o, s.origin = some o) (fun m hstart => ?_) fun m m' hm hI hstep => ?_
  · rw [(start_state hstart).2.1]
    simp [SerializeState.init]
  · -- a call that is no event needs no origin
    have hsilent : ∀ {extra : List Sent}, (∀ s ∈ extra, s.call.Silent) →
        ∀ s ∈ extra, ∀ ev, s.call = .event ev → ∃ o, s.origin = some o :=
      fun hextra s hs ev hev => absurd hev ((hextra s hs).ne_event ev)
    have hadd : ∀ {k : Talk} {extra : List Sent},
        (∀ s ∈ k.sent, ∀ ev, s.call = .event ev → ∃ o, s.origin = some o) →
        (∀ s ∈ extra, ∀ ev, s.call = .event ev → ∃ o, s.origin = some o) →
        ∀ s ∈ (k.add extra).sent, ∀ ev, s.call = .event ev → ∃ o, s.origin = some o := by
      intro k extra hk hextra s hs
      rcases List.mem_append.mp hs with hs | hs
      · exact hk s hs
      · exact hextra s hs
    have hdeliver : ∀ {k : Talk} {t : FullThreadState},
        (∀ s ∈ k.sent, ∀ ev, s.call = .event ev → ∃ o, s.origin = some o) →
        ∀ s ∈ (k.deliver t).sent, ∀ ev, s.call = .event ev → ∃ o, s.origin = some o := by
      intro k t hk s hs ev hev
      simp only [Talk.deliver, Talk.switching, Talk.timing, List.mem_append] at hs
      rcases hs with ((hs | hs) | hs) | hs
      · exact hk s hs ev hev
      · split at hs
        · exact ⟨_, by rw [List.mem_singleton.mp hs]⟩
        · simp at hs
      · split at hs
        · exact ⟨_, by rw [List.mem_singleton.mp hs]⟩
        · simp at hs
      · exact ⟨_, by rw [List.mem_singleton.mp hs]⟩
    show ∀ s ∈ m'.state.talk.sent, _
    rcases talk_step hstep with ⟨-, extra, hextra, htalk⟩ | ⟨t, -, -, htalk⟩ |
      ⟨t, t', -, -, htalk⟩ | ⟨t, -, htalk⟩ <;> rw [htalk]
    · exact hadd hI (hsilent hextra)
    · exact hdeliver (hadd hI (hsilent SerializeState.silent_question))
    · exact hadd (hdeliver (hadd hI (hsilent SerializeState.silent_question))) (by simp)
    · exact hadd hI (by simp)

/-- An event is delivered for some thread. -/
theorem Reached.mem_deliveries (h : Reached false env mapper m) {ev : InnerEvent}
    (hev : Call.event ev ∈ m.state.calls) : ∃ p ∈ m.state.deliveries, p.2.ev = ev := by
  obtain ⟨s, hs, hcall⟩ := List.mem_map.mp hev
  obtain ⟨o, ho⟩ := h.event_origin s hs ev hcall
  refine ⟨(o.threadId, ⟨ev, o.ts, o.cpu⟩), List.mem_filterMap.mpr ⟨s, hs, ?_⟩, rfl⟩
  rw [Sent.delivery?, hcall, ho]

/-- The end was seen when the function returns. -/
theorem Reached.seenEnd_of_returned (h : Reached false env mapper m) (hloc : m.loc = .returned) :
    m.input.seenEnd = true := by
  refine h.invariant (I := fun m => m.loc = .returned → m.input.seenEnd = true)
    (fun m hstart hloc => ?_) (fun m m' _ hI hstep hloc => ?_) hloc
  · rw [(start_state hstart).1] at hloc
    exact absurd hloc (by simp)
  · rcases step_cases hstep with ⟨-, _, -, ⟨-, hdrain, -⟩ | ⟨hrecords, -⟩⟩ |
      ⟨-, -, ⟨-, hdie, -⟩ | ⟨hdrain, -⟩⟩ | ⟨_, _, _, _, -, -, -, hdie⟩ |
      ⟨_, -, hinput, hback, -⟩ | ⟨hold, rfl⟩
    · simp [hdrain] at hloc
    · simp [hrecords] at hloc
    · simp [hdie] at hloc
    · simp [hdrain] at hloc
    · simp [hdie] at hloc
    · rw [hinput]
      by_contra hend
      simp [hback, hend] at hloc
    · exact hI hold

end Deliveries

/-! ### The work that is left -/

section Work

variable {M : Type} {m : Machine M}

/-- How far the location is from the end of a batch. -/
def Loc.phase : Loc → ℕ
  | .drain => 2
  | .toDie _ _ => 1
  | .records | .returned => 0

/-- The iterations left of a loop that delivers nothing. -/
def idleWork (m : Machine M) : ℕ :=
  match m.loc with
  | .drain => m.state.heap.length
  | .toDie todo _ => todo.length
  | .records | .returned => 0

/-- The work that is left, of a number of items and a number of events in all. -/
def work (items events : ℕ) (m : Machine M) : ℕ ×ₗ ℕ ×ₗ ℕ ×ₗ ℕ :=
  toLex (items - m.input.read.length, toLex (Loc.phase m.loc,
    toLex (events - m.state.deliveries.length, m.idleWork)))

end Work

section Completeness

variable {env : Env} {b : UInt64} {data : List UInt8} {m m' : Machine ConstMapper}
  {i : Input ConstMapper} {order : List (UInt64 × TraceEvent)}

/-- What was delivered for a thread is the beginning of what the whole trace recorded. -/
theorem Reached.delivered_of_trace (h : InUserSpace b data)
    (hi : Input.Reached env (ConstMapper.ofBytes b data) i) (hend : i.seenEnd = true)
    (hm : Reached false env (ConstMapper.ofBytes b data) m) (id : UInt64) :
    m.state.eventsFor id <+: i.events env id := by
  have hbooks := (hm.books h id).delivered_first
  rw [← hm.mem_eq h] at hbooks
  exact hbooks.trans (hm.reads.input.events_prefix h hi hend id)

/-- **A step leaves less work.** -/
theorem Reached.work_lt (h : InUserSpace b data)
    (hi : Input.Reached env (ConstMapper.ofBytes b data) i) (hend : i.seenEnd = true)
    (hfeasible : Feasible (i.events env) order)
    (hm : Reached false env (ConstMapper.ofBytes b data) m) (hloc : m.loc ≠ .returned)
    (hstep : m.step false env = .ok m') :
    work i.read.length order.length m' < work i.read.length order.length m := by
  have hm' := hm.step hstep
  have hread : m'.input.read.length ≤ i.read.length :=
    (hm'.reads.input.read_prefix_of_seenEnd hi hend).length_le
  have hdelivered : m'.state.deliveries.length ≤ order.length := by
    apply length_le_of_project
    intro id
    rw [SerializeState.project_deliveries, hfeasible.interleaves]
    exact hm'.delivered_of_trace h hi hend id
  unfold work
  rw [Prod.Lex.toLex_lt_toLex]
  rcases step_cases hstep with ⟨-, item, hadv, -⟩ | ⟨hdrain, hinput, hcases⟩ |
    ⟨id, todo, next, carried, hdie, hinput, hst, hdie'⟩ | ⟨next, hdie, hinput, hloc', -⟩ | ⟨hret, -⟩
  · -- an item more was read
    left
    rw [Input.advance_read hadv, List.length_append, List.length_singleton] at hread ⊢
    omega
  · right
    refine ⟨by rw [hinput], ?_⟩
    rw [Prod.Lex.toLex_lt_toLex]
    rcases hcases with ⟨-, hdie, -⟩ | ⟨hdrain', id, heap, hheap, hst⟩
    · left
      rw [hdie, hdrain]
      exact Nat.lt_succ_self 1
    · right
      refine ⟨by rw [hdrain', hdrain], ?_⟩
      rw [Prod.Lex.toLex_lt_toLex]
      rcases deliveries_step hstep with ⟨t, -, heq⟩ | ⟨hnot, heq⟩
      · left
        rw [heq, List.length_append, List.length_singleton] at hdelivered ⊢
        omega
      · -- nothing was delivered: the thread at the top of the heap has to wait
        right
        refine ⟨by rw [heq], ?_⟩
        obtain ⟨t, ht, -, -, ⟨hperm, -⟩ | ⟨-, -, hblocks⟩⟩ := SerializeState.drainBody_cases hst
        · exact absurd ⟨hdrain, id, heap, hheap, ht, hperm⟩ (hnot t)
        · unfold idleWork
          rw [hdrain', hdrain, hblocks, hheap]
          have hlength : (m.state.blocks env id t).heap.length = heap.length := by
            have hasked : (m.state.asked t).heap = id :: heap := by simpa using hheap
            exact SerializeState.length_heapPop hasked
          simp only [hlength, List.length_cons]
          omega
  · right
    refine ⟨by rw [hinput], ?_⟩
    rw [Prod.Lex.toLex_lt_toLex]
    right
    refine ⟨by rw [hdie', hdie]; rfl, ?_⟩
    rw [Prod.Lex.toLex_lt_toLex]
    right
    have hsame : m'.state.deliveries = m.state.deliveries := by
      rcases deliveries_step hstep with ⟨t, hd, -⟩ | ⟨-, heq⟩
      · simp [hd.1] at hdie
      · exact heq
    refine ⟨by rw [hsame], ?_⟩
    unfold idleWork
    rw [hdie', hdie]
    exact Nat.lt_succ_self _
  · right
    refine ⟨by rw [hinput], ?_⟩
    rw [Prod.Lex.toLex_lt_toLex]
    left
    rw [hloc', hdie]
    split
    · exact Nat.one_pos
    · exact Nat.one_pos
  · exact absurd hret hloc

/-! ### Nothing is left behind -/

/-- At the end of a batch **the next event of a thread** waits for its token. -/
theorem Reached.next_waits (h : InUserSpace b data)
    (hm : Reached false env (ConstMapper.ofBytes b data) m) (hrecords : m.loc ≠ .records)
    (hdrain : m.loc ≠ .drain) {id : UInt64} {e : TraceEvent}
    (hnext : (m.input.events env id)[(m.state.eventsFor id).length]? = some e) :
    ∃ tok, e.ev.waitTok? = some tok ∧ (tok, id) ∈ m.state.pendingFrees := by
  have hbooks := hm.books h id
  have hp := hm.scheduled.placed_threadFor env id
  have hbufs : (m.state.threadFor env id).bufs ≠ [] := by
    intro hnone
    rw [Input.events, hm.mem_eq h, ← (hbooks.idle hnone).1] at hnext
    simp at hnext
  have hflag : (m.state.threadFor env id).inPendingFrees = true := by
    by_contra hno
    have hmem := hp.mem_heap.mpr ⟨hbufs, by simpa using hno⟩
    rw [hm.heap_eq_nil hrecords hdrain] at hmem
    simp at hmem
  obtain ⟨tok, htok⟩ := hp.mem_pending.mpr hflag
  have hcurrent : (m.state.threadFor env id).current = e := by
    have := hbooks.current hbufs
    rw [← hm.mem_eq h] at this
    exact Option.some.inj (this.symm.trans hnext)
  refine ⟨tok, ?_, htok⟩
  rw [← hcurrent]
  exact hp.waits tok htok

/-- **The first event that is missing** at the end of a batch waits for a token that is not
allocated; so it is not the next one of an order in which its token is allocated before.  Whatever
beginnings of the sequences can be ordered so have been delivered. -/
theorem Reached.delivers_all (h : InUserSpace b data) (hf : env.Faithful)
    (honce : TokensUsedOnce env (ConstMapper.ofBytes b data))
    (hne : TokensNotEmpty env (ConstMapper.ofBytes b data))
    (hm : Reached false env (ConstMapper.ofBytes b data) m) (hrecords : m.loc ≠ .records)
    (hdrain : m.loc ≠ .drain) {part : UInt64 → List TraceEvent}
    (hpart : ∀ id, part id <+: m.input.events env id) (hfeasible : Feasible part order)
    (id : UInt64) : part id <+: m.state.eventsFor id := by
  have hbegun : ∀ id, m.state.eventsFor id <+: m.input.events env id := by
    intro id
    rw [Input.events, hm.mem_eq h]
    exact (hm.books h id).delivered_first
  -- of each part, what has been delivered
  have htake : ∀ id, (m.state.eventsFor id).take (part id).length <+: project id order := by
    intro id
    rw [hfeasible.interleaves]
    exact List.prefix_of_prefix_length_le ((List.take_prefix ..).trans (hbegun id)) (hpart id)
      (List.length_take_le ..)
  rcases exists_first_missing htake with hall | ⟨before, id, e, after, horder, hown, hbefore⟩
  · rw [← hfeasible.interleaves, ← hall]
    exact List.take_prefix ..
  · exfalso
    have hplace : (part id)[((m.state.eventsFor id).take (part id).length).length]? = some e := by
      rw [← hown, ← hfeasible.interleaves, horder, project, List.filterMap_append]
      show (project id before ++ project id ((id, e) :: after))[_]? = _
      rw [project_cons_self, List.getElem?_append_right (Nat.le_refl _)]
      simp
    have hshort : (m.state.eventsFor id).length < (part id).length := by
      have hlt := (List.getElem?_eq_some_iff.mp hplace).1
      rw [List.length_take] at hlt
      omega
    rw [List.take_of_length_le (Nat.le_of_lt hshort)] at hplace
    have hnext := getElem?_of_isPrefix (hpart id) hplace
    obtain ⟨tok, hwait, htok⟩ := hm.next_waits h hrecords hdrain hnext
    -- the token was allocated by an event before it, and no event delivered consumed it
    have hsupplied := hfeasible.supplied before (id, e) after horder
    simp only [Supplied, hwait] at hsupplied
    obtain ⟨⟨j, a⟩, ha, hnew⟩ := hsupplied
    have hevent : ∀ (j : UInt64) {a : TraceEvent}, a ∈ m.state.eventsFor j →
        Call.event a.ev ∈ m.state.calls := by
      intro j a ha
      obtain ⟨s, hs, heq⟩ := List.mem_filterMap.mp ha
      refine List.mem_map.mpr ⟨s, hs, ?_⟩
      unfold Sent.eventFor? at heq
      split at heq
      · next ev o hcall _ =>
        split at heq
        · rw [hcall, ← Option.some.inj heq]
        · simp at heq
      · simp at heq
    refine hm.unallocated h hf hne tok id htok (mem_liveTokens ⟨a.ev, hevent j ?_, hnew⟩ ?_)
    · exact List.mem_of_mem_take ((hbefore j).subset (mem_project.mpr ha))
    · intro ev hev hconsumed
      obtain ⟨⟨j', a'⟩, hdelivered, rfl⟩ := hm.mem_deliveries hev
      have hmem : a' ∈ m.state.eventsFor j' := by
        rw [← SerializeState.project_deliveries]
        exact mem_project.mpr hdelivered
      obtain ⟨k, hk, hget⟩ := List.getElem_of_mem hmem
      have hplace := getElem?_of_isPrefix (hbegun j') (List.getElem?_eq_some_iff.mpr ⟨hk, hget⟩)
      obtain ⟨rfl, rfl⟩ := (honce m.input hm.reads.input).2 hplace hnext hconsumed hwait
      exact absurd hk (Nat.lt_irrefl _)

/-- Where all events can be ordered so, all have been delivered at the end. -/
theorem Reached.nothing_missing (h : InUserSpace b data) (hf : env.Faithful)
    (honce : TokensUsedOnce env (ConstMapper.ofBytes b data))
    (hne : TokensNotEmpty env (ConstMapper.ofBytes b data))
    (hm : Reached false env (ConstMapper.ofBytes b data) m)
    (hfeasible : Feasible (m.input.events env) order) (hloc : m.loc = .returned) (id : UInt64) :
    m.state.eventsFor id = m.input.events env id := by
  have hbegun : m.state.eventsFor id <+: m.input.events env id := by
    rw [Input.events, hm.mem_eq h]
    exact (hm.books h id).delivered_first
  have hall := hm.delivers_all h hf honce hne (by simp [hloc]) (by simp [hloc])
    (fun _ => List.prefix_refl _) hfeasible id
  exact hbegun.eq_of_length_le hall.length_le

/-- No thread waits when everything was delivered. -/
theorem Reached.pendingFrees_eq_nil (h : InUserSpace b data)
    (hm : Reached false env (ConstMapper.ofBytes b data) m)
    (hall : ∀ id, m.state.eventsFor id = m.input.events env id) : m.state.pendingFrees = [] := by
  rw [List.eq_nil_iff_forall_not_mem]
  rintro ⟨tok, id⟩ hmem
  have hs := hm.scheduled
  obtain ⟨t, ht⟩ := Option.isSome_iff_exists.mp (hs.pending_mem hmem)
  have hp := hs.placed ht
  have hnext := hm.current_mem h ht (hp.busy (hp.mem_pending.mp ⟨tok, hmem⟩))
  rw [← hall] at hnext
  simp at hnext

/-- **The scheduler is complete**: on a trace that decodes, whose tokens are used once and whose
events can be ordered so that every token is allocated before it is consumed, and where no thread
dies while it waits, the function returns with all events delivered and no thread waiting. -/
theorem completes (h : InUserSpace b data) (hf : env.Faithful)
    (honce : TokensUsedOnce env (ConstMapper.ofBytes b data))
    (hne : TokensNotEmpty env (ConstMapper.ofBytes b data))
    (hlast : DeathsLast env (ConstMapper.ofBytes b data))
    (hi : Input.Reached env (ConstMapper.ofBytes b data) i) (hdec : i.Decodes env)
    (hfeasible : Feasible (i.events env) order)
    (hdying : ∀ m, Reached false env (ConstMapper.ofBytes b data) m → m.DyingNotWaiting) :
    ∃ m, Reached false env (ConstMapper.ofBytes b data) m ∧ m.loc = .returned ∧
      (∀ id, m.state.eventsFor id = i.events env id) ∧ m.state.pendingFrees = [] := by
  -- the trace opens, since a run of its input is given
  obtain ⟨i₀, h₀⟩ : ∃ i₀, Input.open_ env (ConstMapper.ofBytes b data) = .ok i₀ := by
    obtain ⟨n, hn⟩ := hi
    obtain ⟨i₀, h₀, -⟩ := bind_eq_ok.mp hn
    exact ⟨i₀, h₀⟩
  have hreached : ∀ n m, iterate (Machine.step false env) n
      { loc := .records, input := i₀, state := .init } = .ok m →
      Reached false env (ConstMapper.ofBytes b data) m := by
    intro n m hn
    exact ⟨n, by rw [serialize, start, h₀]; exact hn⟩
  -- every step lessens the work that is left, and none of them stops
  obtain ⟨n, m, hn, hloc⟩ : ∃ n m, iterate (Machine.step false env) n
      { loc := .records, input := i₀, state := .init } = .ok m ∧ m.loc = .returned := by
    apply iterate_reaches wellFounded_lt (work i.read.length order.length)
    intro n m hn hloc
    have hm := hreached n m hn
    obtain ⟨m', hstep⟩ := hm.step_ok h honce hlast hi hdec (hdying m hm)
    exact ⟨m', hstep, hm.work_lt h hi hdec.seenEnd hfeasible hloc hstep⟩
  have hm := hreached n m hn
  -- a run that returned has read all that there is
  have hread : m.input.read = i.read := by
    have hend := hm.seenEnd_of_returned hloc
    exact (hm.reads.input.read_prefix_of_seenEnd hi hdec.seenEnd).eq_of_length_le
      (hi.read_prefix_of_seenEnd hm.reads.input hend).length_le
  have hevents : m.input.events env = i.events env := by
    funext id
    rw [Input.events, Input.events, hm.mem_eq h, hi.mem_eq h, hread]
  have hall := hm.nothing_missing h hf honce hne (hevents ▸ hfeasible) hloc
  exact ⟨m, hm, hloc, fun id => (hall id).trans (congrFun hevents id),
    hm.pendingFrees_eq_nil h hall⟩

end Completeness

/-- A run that has returned was in every reached state before. -/
theorem Reached.exists_le {M : Type} [Mapper M] {ndebug : Bool} {env : Env} {mapper : M}
    {m r : Machine M} {n : ℕ} (hr : serialize ndebug env mapper n = .ok r)
    (hloc : r.loc = .returned) (hm : Reached ndebug env mapper m) :
    ∃ k ≤ n, serialize ndebug env mapper k = .ok m := by
  obtain ⟨k, hk⟩ := hm
  rcases Nat.le_total k n with hle | hle
  · exact ⟨k, hle, hk⟩
  · have hended : ∀ m', serialize ndebug env mapper n = .ok m' → m'.loc = .returned := by
      rw [hr]
      simpa using hloc
    exact ⟨n, Nat.le_refl n, (serialize_ended_le hle hended).symm.trans hk⟩

/-- `DyingNotWaiting`, computed. -/
def dyingNotWaiting {M : Type} (m : Machine M) : Bool :=
  match m.loc with
  | .toDie (id :: _) _ => (m.state.threads id).all fun t => !t.inPendingFrees
  | .toDie [] _ | .records | .drain | .returned => true

theorem dyingNotWaiting_of {M : Type} {m : Machine M} (h : m.dyingNotWaiting = true) :
    m.DyingNotWaiting := by
  intro id todo next t hloc ht
  simpa [dyingNotWaiting, hloc, ht] using h

/-- A thread waits for a token that another one allocates in the next batch, and dies there. -/
def wakingTrace : List UInt8 :=
  writeTrace [.buf 2 0 0 [.tok 50 1024 3, .free 9], .syncBarrier 2048 0,
    .buf 1 0 0 [.tok 9 4096 1, .malloc 24], .death 2 0 0, .end_]

theorem completes_wakingTrace :
    ∃ m, Reached false .tokenSet (ConstMapper.ofBytes 0x10000 wakingTrace) m ∧
      m.loc = .returned ∧ m.state.eventsFor 2 = [⟨.free 9, 1024, 3⟩] ∧
      m.state.pendingFrees = [] := by
  have hspace : InUserSpace 0x10000 wakingTrace := ⟨by decide +kernel, by decide +kernel⟩
  obtain ⟨i, hi, hsee⟩ := Input.reached_of_map .tokenSet
    (ConstMapper.ofBytes 0x10000 wakingTrace) 5
    (f := fun i => (i.meets .tokenSet [1, 2], i.decodes .tokenSet [1, 2],
      i.orders .tokenSet [1, 2] [(1, ⟨.malloc 9 24, 4096, 1⟩), (2, ⟨.free 9, 1024, 3⟩)],
      i.events .tokenSet 2))
    (a := (true, true, true, [⟨.free 9, 1024, 3⟩])) (by decide +kernel)
  simp only [Prod.mk.injEq] at hsee
  obtain ⟨hmeets, hdecodes, horders, hevents⟩ := hsee
  obtain ⟨honce, hne, hlast⟩ := hi.conditions hspace hmeets
  obtain ⟨r, hr, hloc⟩ := map_eq_ok.mp (show (serialize false .tokenSet
    (ConstMapper.ofBytes 0x10000 wakingTrace) 13).map Machine.loc = .ok .returned by decide +kernel)
  have hall : ∀ k ≤ 13, (serialize false .tokenSet (ConstMapper.ofBytes 0x10000 wakingTrace) k).map
      dyingNotWaiting = .ok true := by decide +kernel
  have hdying : ∀ m, Reached false .tokenSet (ConstMapper.ofBytes 0x10000 wakingTrace) m →
      m.DyingNotWaiting := by
    intro m hm
    obtain ⟨k, hk, heq⟩ := hm.exists_le hr hloc
    have hsee := hall k hk
    rw [heq] at hsee
    exact dyingNotWaiting_of (Except.ok.inj hsee)
  obtain ⟨m, hm, hreturned, hdelivered, hpending⟩ := completes hspace Env.faithful_tokenSet honce
    hne hlast hi (Input.decodes_of hdecodes) (Input.feasible_of horders) hdying
  exact ⟨m, hm, hreturned, (hdelivered 2).trans hevents, hpending⟩

end Machine

end MallocTraceReplay
