import MallocTraceReplay.Serializer.Equiv.Completeness

/-!
# What is delivered does not depend on the schedule

Some beginnings of the sequences of the threads can be delivered when their events can be ordered
so that every token is allocated before it is consumed (`Deliverable`).  What the serializer
delivers is such a part of what was read (`Reached.deliverable`), and at the end of a batch it is
the largest one (`Reached.delivers_largest`).  So it is given by the events of the threads alone:
two traces that record the same events, with other time stamps, buffers, barriers and another
queue, have the same events delivered and the same threads waiting (`Reached.delivers_same`).
-/

namespace MallocTraceReplay

open StepMachine History Interleaving

/-- Beginnings of the sequences whose events can be delivered in some order. -/
def Deliverable (seq part : UInt64 → List TraceEvent) : Prop :=
  (∀ id, part id <+: seq id) ∧ ∃ order, Feasible part order

/-- A token that is allocated was allocated by an event. -/
theorem exists_newTok_of_mem_liveTokens {calls : List Call} {tok : UInt64}
    (h : tok ∈ liveTokens calls) : ∃ ev, Call.event ev ∈ calls ∧ ev.newTok? = some tok := by
  induction calls using List.reverseRecOn with
  | nil => simp [liveTokens] at h
  | append_singleton calls call ih =>
    rw [liveTokens_append] at h
    have hbefore : tok ∈ liveTokens calls →
        ∃ ev, Call.event ev ∈ calls ++ [call] ∧ ev.newTok? = some tok := by
      intro hlive
      obtain ⟨ev, hev, hnew⟩ := ih hlive
      exact ⟨ev, List.mem_append_left _ hev, hnew⟩
    cases call with
    | killCurrentThread | switchThread | setTS | barrier | hasAllocated => exact hbefore h
    | event ev =>
      rcases mem_apply.mp h with hnew | ⟨hlive, -⟩
      · exact ⟨ev, List.mem_append_right _ (List.mem_singleton_self _), hnew⟩
      · exact hbefore hlive

/-- Whether a token is supplied depends on the events only. -/
theorem supplied_congr {before before' : List (UInt64 × TraceEvent)} {p p' : UInt64 × TraceEvent}
    (hbefore : before.map (fun q => (q.1, q.2.ev)) = before'.map fun q => (q.1, q.2.ev))
    (hp : p.2.ev = p'.2.ev) (h : Supplied before p) : Supplied before' p' := by
  unfold Supplied at h ⊢
  rw [hp] at h
  split at h
  · trivial
  · next tok hwait =>
    obtain ⟨q, hq, hnew⟩ := h
    have hmem : (q.1, q.2.ev) ∈ before'.map fun q => (q.1, q.2.ev) :=
      hbefore ▸ List.mem_map_of_mem hq
    obtain ⟨q', hq', heq⟩ := List.mem_map.mp hmem
    refine ⟨q', hq', ?_⟩
    rw [(Prod.mk.inj heq).2]
    exact hnew

/-- **An order for other times**: it is feasible for sequences with the same events. -/
theorem Feasible.congr {part part' : UInt64 → List TraceEvent}
    {order : List (UInt64 × TraceEvent)} (h : Feasible part order)
    (hsame : ∀ id, (part' id).map TraceEvent.ev = (part id).map TraceEvent.ev) :
    ∃ order', Feasible part' order' := by
  obtain ⟨order', hproject, hmap⟩ := exists_interleaving TraceEvent.ev TraceEvent.ev order part'
    fun id => by rw [hsame, h.interleaves]
  refine ⟨order', hproject, fun before p after hcut => ?_⟩
  rw [hcut, List.map_append, List.map_cons] at hmap
  obtain ⟨before₀, rest, rfl, hbefore, hrest⟩ := List.map_eq_append_iff.mp hmap.symm
  obtain ⟨p₀, after₀, rfl, hp, -⟩ := List.map_eq_cons_iff.mp hrest
  exact supplied_congr hbefore (Prod.mk.inj hp).2 (h.supplied before₀ p₀ after₀ rfl)

namespace Machine

variable {env env' : Env} {b b' : UInt64} {data data' : List UInt8} {m m' : Machine ConstMapper}

/-! ### What is delivered can be delivered -/

section Sound

variable {M : Type} [Mapper M] {mapper : M} {n : Machine M}

/-- An event that consumes a token is delivered after one that allocates it. -/
theorem Reached.supplied (hf : env.Faithful) (hn : Reached false env mapper n) :
    ForAllCuts Supplied n.state.deliveries := by
  refine hn.invariant (I := fun n => ForAllCuts Supplied n.state.deliveries)
    (fun n hstart => ?_) fun n n' hn hI hstep => ?_
  · rw [SerializeState.deliveries, (start_state hstart).2.1]
    exact forAllCuts_nil
  · rcases deliveries_step hstep with ⟨t, ⟨-, id, heap, -, -, hpermitted⟩, heq⟩ | ⟨-, heq⟩
    · rw [heq, forAllCuts_concat]
      refine ⟨hI, ?_⟩
      unfold Supplied
      split
      · trivial
      · next tok hwait =>
        change t.lastEvent.waitTok? = some tok at hwait
        rw [SerializeState.permitted, hwait] at hpermitted
        obtain ⟨ev, hev, hnew⟩ := exists_newTok_of_mem_liveTokens ((hf _ _).mp hpermitted)
        obtain ⟨p, hp, rfl⟩ := hn.mem_deliveries hev
        exact ⟨p, hp, hnew⟩
    · rw [heq]
      exact hI

end Sound

/-- **What was delivered** is a part of what was read that can be delivered. -/
theorem Reached.deliverable (h : InUserSpace b data) (hf : env.Faithful)
    (hm : Reached false env (ConstMapper.ofBytes b data) m) :
    Deliverable (m.input.events env) m.state.eventsFor := by
  refine ⟨fun id => ?_, m.state.deliveries, m.state.project_deliveries, hm.supplied hf⟩
  rw [Input.events, hm.mem_eq h]
  exact (hm.books h id).delivered_first

/-! ### The largest part that can be delivered -/

/-- Who waits at the end of a batch, and for which token. -/
theorem Reached.mem_pendingFrees_iff (h : InUserSpace b data)
    (hm : Reached false env (ConstMapper.ofBytes b data) m) (hrecords : m.loc ≠ .records)
    (hdrain : m.loc ≠ .drain) {tok id : UInt64} :
    (tok, id) ∈ m.state.pendingFrees ↔
      (((m.input.events env id).map TraceEvent.ev)[(m.state.eventsFor id).length]?).bind
        InnerEvent.waitTok? = some tok := by
  rw [List.getElem?_map, Option.bind_map, Option.bind_eq_some_iff]
  constructor
  · intro hmem
    have hs := hm.scheduled
    obtain ⟨t, ht⟩ := Option.isSome_iff_exists.mp (hs.pending_mem hmem)
    have hp := hs.placed ht
    exact ⟨t.current, hm.current_mem h ht (hp.busy (hp.mem_pending.mp ⟨tok, hmem⟩)),
      hp.waits tok hmem⟩
  · rintro ⟨e, hnext, hwait⟩
    obtain ⟨tok', hwait', hmem⟩ := hm.next_waits h hrecords hdrain hnext
    obtain rfl := Option.some.inj (hwait.symm.trans hwait')
    exact hmem

/-- A run on a trace of the threads `1` and `2`, to its end. -/
theorem exists_run {data : List UInt8} (hspace : InUserSpace 0x10000 data) (n k : ℕ)
    (evs₁ evs₂ : List InnerEvent) (pending : List (UInt64 × UInt64))
    (hmeets : (Input.open_ .tokenSet (ConstMapper.ofBytes 0x10000 data) >>=
      iterate (Input.step false .tokenSet) n).map (fun i => i.meets .tokenSet [1, 2]) = .ok true)
    (hrun : (serialize false .tokenSet (ConstMapper.ofBytes 0x10000 data) k).map (fun m =>
      (m.loc, m.state.pendingFrees, m.input.meets .tokenSet [1, 2] &&
        decide ((m.input.events .tokenSet 1).map TraceEvent.ev = evs₁) &&
        decide ((m.input.events .tokenSet 2).map TraceEvent.ev = evs₂))) =
      .ok (.returned, pending, true)) :
    TokensUsedOnce .tokenSet (ConstMapper.ofBytes 0x10000 data) ∧
      TokensNotEmpty .tokenSet (ConstMapper.ofBytes 0x10000 data) ∧
      ∃ m, Reached false .tokenSet (ConstMapper.ofBytes 0x10000 data) m ∧ m.loc = .returned ∧
        m.state.pendingFrees = pending ∧ ∀ id, (m.input.events .tokenSet id).map TraceEvent.ev =
          if id = 1 then evs₁ else if id = 2 then evs₂ else [] := by
  obtain ⟨i, hi, hmeets⟩ := Input.reached_of_map _ _ _ hmeets
  obtain ⟨honce, hne, -⟩ := hi.conditions hspace hmeets
  obtain ⟨m, hm, hsee⟩ := reached_of_map _ _ _ _ hrun
  simp only [Prod.mk.injEq, Bool.and_eq_true, decide_eq_true_eq] at hsee
  obtain ⟨hloc, hpending, ⟨hids, hone⟩, htwo⟩ := hsee
  -- no thread but the two has events
  refine ⟨honce, hne, m, hm, hloc, hpending, fun id => ?_⟩
  split
  · next hid =>
    rw [hid]
    exact hone
  · split
    · next hid =>
      rw [hid]
      exact htwo
    · next hnot hnot' =>
      rw [Input.events_eq_nil, List.map_nil]
      intro hmem
      simp only [Input.meets, Bool.and_eq_true, List.all_eq_true, decide_eq_true_eq] at hids
      have := hids.1.1.1.1.2 id hmem
      simp [hnot, hnot'] at this

/-- **The largest part.**  At the end of a batch the delivered beginnings of the sequences can be
delivered, and they contain all others that can. -/
theorem Reached.delivers_largest (h : InUserSpace b data) (hf : env.Faithful)
    (honce : TokensUsedOnce env (ConstMapper.ofBytes b data))
    (hne : TokensNotEmpty env (ConstMapper.ofBytes b data))
    (hm : Reached false env (ConstMapper.ofBytes b data) m) (hrecords : m.loc ≠ .records)
    (hdrain : m.loc ≠ .drain) :
    Deliverable (m.input.events env) m.state.eventsFor ∧
      ∀ part, Deliverable (m.input.events env) part → ∀ id, part id <+: m.state.eventsFor id := by
  refine ⟨hm.deliverable h hf, ?_⟩
  rintro part ⟨hpart, order, hfeasible⟩
  exact hm.delivers_all h hf honce hne hrecords hdrain hpart hfeasible

theorem delivers_largest_waitingTrace :
    ∃ m, Reached false .tokenSet (ConstMapper.ofBytes 0x10000 waitingTrace) m ∧
      m.state.pendingFrees = [(9, 2)] ∧
      Deliverable (m.input.events .tokenSet) m.state.eventsFor ∧
      ∀ part, Deliverable (m.input.events .tokenSet) part →
        ∀ id, part id <+: m.state.eventsFor id := by
  have hspace : InUserSpace 0x10000 waitingTrace := ⟨by decide +kernel, by decide +kernel⟩
  obtain ⟨honce, hne, m, hm, hloc, hpending, -⟩ := exists_run hspace 5 16
    [.malloc 7 24, .free 7] [.free 9] [(9, 2)] (by decide +kernel) (by decide +kernel)
  exact ⟨m, hm, hpending, hm.delivers_largest hspace Env.faithful_tokenSet honce hne
    (by simp [hloc]) (by simp [hloc])⟩

/-- What is delivered of one trace has a counterpart in another trace with the same events. -/
theorem Reached.length_eventsFor_le (h : InUserSpace b data) (h' : InUserSpace b' data')
    (hf : env.Faithful) (hf' : env'.Faithful)
    (honce' : TokensUsedOnce env' (ConstMapper.ofBytes b' data'))
    (hne' : TokensNotEmpty env' (ConstMapper.ofBytes b' data'))
    (hm : Reached false env (ConstMapper.ofBytes b data) m)
    (hm' : Reached false env' (ConstMapper.ofBytes b' data') m') (hloc' : m'.loc = .returned)
    (hsame : ∀ id, (m.input.events env id).map TraceEvent.ev =
      (m'.input.events env' id).map TraceEvent.ev) (id : UInt64) :
    (m.state.eventsFor id).length ≤ (m'.state.eventsFor id).length := by
  obtain ⟨hpart, order, hfeasible⟩ := hm.deliverable h hf
  have hle : ∀ id, (m.state.eventsFor id).length ≤ (m'.input.events env' id).length := by
    intro id
    have hlen := congrArg List.length (hsame id)
    rw [List.length_map, List.length_map] at hlen
    rw [← hlen]
    exact (hpart id).length_le
  have htake : ∀ id, ((m'.input.events env' id).take (m.state.eventsFor id).length).map
      TraceEvent.ev = (m.state.eventsFor id).map TraceEvent.ev := by
    intro id
    rw [List.map_take, ← hsame, ← List.map_take, ← List.prefix_iff_eq_take.mp (hpart id)]
  obtain ⟨order', hfeasible'⟩ := hfeasible.congr htake
  have hall := hm'.delivers_all h' hf' honce' hne' (by simp [hloc']) (by simp [hloc'])
    (fun _ => List.take_prefix ..) hfeasible' id
  have := hall.length_le
  rwa [List.length_take, Nat.min_eq_left (hle id)] at this

/-- **The schedule does not matter.**  Two traces whose threads recorded the same events, whatever
their time stamps, buffers, barriers, the queue and the receiver that keeps the tokens, have the
same events delivered of every thread, and the same threads waiting for the same tokens. -/
theorem Reached.delivers_same (h : InUserSpace b data) (h' : InUserSpace b' data')
    (hf : env.Faithful) (hf' : env'.Faithful)
    (honce : TokensUsedOnce env (ConstMapper.ofBytes b data))
    (honce' : TokensUsedOnce env' (ConstMapper.ofBytes b' data'))
    (hne : TokensNotEmpty env (ConstMapper.ofBytes b data))
    (hne' : TokensNotEmpty env' (ConstMapper.ofBytes b' data'))
    (hm : Reached false env (ConstMapper.ofBytes b data) m)
    (hm' : Reached false env' (ConstMapper.ofBytes b' data') m') (hloc : m.loc = .returned)
    (hloc' : m'.loc = .returned)
    (hsame : ∀ id, (m.input.events env id).map TraceEvent.ev =
      (m'.input.events env' id).map TraceEvent.ev) :
    (∀ id, (m.state.eventsFor id).map TraceEvent.ev = (m'.state.eventsFor id).map TraceEvent.ev) ∧
      ∀ tok id, (tok, id) ∈ m.state.pendingFrees ↔ (tok, id) ∈ m'.state.pendingFrees := by
  -- each run delivers as much as the other, by the theorem on the largest part
  have hlen : ∀ id, (m.state.eventsFor id).length = (m'.state.eventsFor id).length := fun id =>
    Nat.le_antisymm
      (hm.length_eventsFor_le h h' hf hf' honce' hne' hm' hloc' hsame id)
      (hm'.length_eventsFor_le h' h hf' hf honce hne hm hloc (fun id => (hsame id).symm) id)
  have htake : ∀ id, (m.state.eventsFor id).map TraceEvent.ev =
      (m'.state.eventsFor id).map TraceEvent.ev := by
    intro id
    rw [List.prefix_iff_eq_take.mp ((hm.deliverable h hf).1 id),
      List.prefix_iff_eq_take.mp ((hm'.deliverable h' hf').1 id), List.map_take, List.map_take,
      hsame, hlen]
  -- the same beginnings are left of the same events, so the same tokens are waited for
  refine ⟨htake, fun tok id => ?_⟩
  rw [hm.mem_pendingFrees_iff h (by simp [hloc]) (by simp [hloc]),
    hm'.mem_pendingFrees_iff h' (by simp [hloc']) (by simp [hloc']), hsame, hlen]

/-- The events of `waitingTrace` at other times, in other buffers and batches. -/
def regroupedTrace : List UInt8 :=
  writeTrace [.buf 2 0 1 [.tok 3 8192 1, .free 9], .syncBarrier 1024 0,
    .buf 1 0 0 [.tok 7 4096 0, .malloc 24], .syncBarrier 2048 0, .buf 1 9216 5 [.free 7], .end_]

theorem delivers_same_regroupedTrace :
    ∃ m m', Reached false .tokenSet (ConstMapper.ofBytes 0x10000 waitingTrace) m ∧
      Reached false .tokenSet (ConstMapper.ofBytes 0x10000 regroupedTrace) m' ∧
      m.loc = .returned ∧ m'.loc = .returned ∧ m.state.pendingFrees = [(9, 2)] ∧
      (∀ id, (m.state.eventsFor id).map TraceEvent.ev =
        (m'.state.eventsFor id).map TraceEvent.ev) ∧
      ∀ tok id, (tok, id) ∈ m.state.pendingFrees ↔ (tok, id) ∈ m'.state.pendingFrees := by
  have hspace : InUserSpace 0x10000 waitingTrace := ⟨by decide +kernel, by decide +kernel⟩
  have hspace' : InUserSpace 0x10000 regroupedTrace := ⟨by decide +kernel, by decide +kernel⟩
  obtain ⟨honce, hne, m, hm, hloc, hpending, hevents⟩ := exists_run hspace 5 16
    [.malloc 7 24, .free 7] [.free 9] [(9, 2)] (by decide +kernel) (by decide +kernel)
  obtain ⟨honce', hne', m', hm', hloc', -, hevents'⟩ := exists_run hspace' 6 24
    [.malloc 7 24, .free 7] [.free 9] [(9, 2)] (by decide +kernel) (by decide +kernel)
  exact ⟨m, m', hm, hm', hloc, hloc', hpending, hm.delivers_same hspace hspace'
    Env.faithful_tokenSet Env.faithful_tokenSet honce honce' hne hne' hm' hloc hloc' fun id =>
      (hevents id).trans (hevents' id).symm⟩

end Machine

end MallocTraceReplay
