import MallocTraceReplay.Postprocess.Equiv.AllocatorCalls
import MallocTraceReplay.Replay.Equiv.AllocatorCalls

/-!
# Replay makes the calls of the events

Replay of what `SimpleReceiver` dumped asks the allocator for what the events ask for, call by call,
and then frees what is left.  It may only stop before, at a check of the current thread
(`SimpleReceiver.follows_of_legal`).
-/

namespace MallocTraceReplay

open StepMachine History Allocation

/-- The register of an element has the pointer of its token. -/
theorem Holds.liveRegister {a : Replay.Allocator} {s : Replay.State} {allocs : List UInt64}
    {m : AllocatedMap} {e : Element} (h : Holds a allocs m s.registers) (he : e ∈ m)
    (hlt : e.reg < 2 ^ 30) (stop : Replay.Stop) :
    s.liveRegister (UInt64.ofNat e.reg &&& 0xFFFFFFFFFFFFFF) stop =
      .ok (a.pointer (lastAllocation allocs e.token)) := by
  have hreg : (UInt64.ofNat e.reg &&& 0xFFFFFFFFFFFFFF).toNat = e.reg := by
    rw [regField_eq hlt, toNat_ofNat_reg hlt]
  obtain ⟨k, hk, hpointer⟩ := h.pointer e he
  rw [Replay.State.liveRegister_of_lt (by rw [hreg]; exact hlt), hreg,
    if_neg ((h.live _).mpr ⟨e, he, rfl⟩), lastAllocation_eq hk, hpointer]

namespace SimpleReceiver

variable {a : Replay.Allocator} {s : Replay.State} {calls : List Call} {call : Call}
  {r r' : SimpleReceiver}

/-! ### One event -/

section Event

variable {ev : InnerEvent} {i : Instruction} {m m' : AllocatedMap}

/-- **The call of the allocator** is the one that the event asks for. -/
theorem Agrees.allocatorCalls (h : Agrees a calls r s) (hregs : ∀ e ∈ r.allocated, e.reg < 2 ^ 30)
    (heffect : Effect r.allocated ev i m') :
    s.allocatorCalls a i = [ev.allocatorCall a (allocationsOf calls)] := by
  cases heffect with
  | malloc | memalign =>
    rw [InnerEvent.allocatorCall, ← h.allocations]
    rfl
  | free he | freeSized he =>
    rw [InnerEvent.allocatorCall]
    exact Replay.State.allocatorCalls_free (Or.inr rfl) (h.holds.liveRegister he (hregs _ he))
  | realloc he =>
    rw [InnerEvent.allocatorCall, ← h.allocations]
    exact Replay.State.allocatorCalls_realloc rfl (h.holds.liveRegister he (hregs _ he))

/-- An instruction of an event is counted as the elements are. -/
theorem Effect.count (h : Effect m ev i m') : i.isMemory = true ∧ i.count m.length = m'.length := by
  cases h with
  | malloc | memalign => exact ⟨rfl, rfl⟩
  | free he | freeSized he => exact ⟨rfl, (List.length_erase_of_mem he).symm⟩
  | realloc he =>
    have hlen := List.length_erase_of_mem he
    have hpos := List.length_pos_of_mem he
    refine ⟨rfl, ?_⟩
    show m.length = (List.erase m _).length + 1
    omega

end Event

/-- Replay has done what the receiver was told, in the thread that runs. -/
structure Replays (a : Replay.Allocator) (calls : List Call) (r : SimpleReceiver)
    (s : Replay.State) : Prop extends Agrees a calls r s where
  allocatedCount : s.allocatedCount = r.allocated.length
  currentThreadId : s.currentThreadId = currentThread calls

/-- **One event** is replayed by its call of the allocator. -/
theorem Replays.event {live live' : List UInt64} (ha : ∀ k, a.pointer k ≠ 0)
    (h : Replays a calls r s) (hrep : r.Represents live)
    (hregs : ∀ e ∈ r.allocated, e.reg < 2 ^ 30) {ev : InnerEvent} {i : Instruction}
    (heffect : Effect r.allocated ev i r'.allocated) (hout : r'.out = r.out ++ [i])
    (hrep' : r'.Represents live') (hregs' : ∀ e ∈ r'.allocated, e.reg < 2 ^ 30) :
    ∃ s', s.replayTraced a [i] = ([ev.allocatorCall a (allocationsOf calls)], .ok s') ∧
      Replays a (calls ++ [.event ev]) r' s' := by
  obtain ⟨-, ⟨s', hs', hagrees⟩, -⟩ :=
    h.toAgrees.event ha hrep hregs heffect hout hrep' hregs'
  obtain ⟨hmemory, hcount⟩ := heffect.count
  obtain ⟨hthread, hallocated⟩ := Replay.State.replayInstruction_memory hmemory hs'
  refine ⟨s', ?_, ⟨hagrees, ?_, ?_⟩⟩
  · rw [Replay.State.replayTraced_singleton, h.toAgrees.allocatorCalls hregs heffect, hs']
  · rw [hallocated, h.allocatedCount, hcount]
  · rw [hthread, h.currentThreadId, currentThread_append]
    rfl

/-! ### One call that is no event -/

/-- What a call that is no event dumps calls no allocator, and keeps what the events work on.  It
passes if the call is allowed in the current thread. -/
theorem replayTraced_of_not_event (hcall : ∀ ev, call ≠ .event ev)
    (hreceive : r.receive call = .ok r') :
    ∃ dumped, r'.out = r.out ++ dumped ∧ r'.allocated = r.allocated ∧ r'.memory = r.memory ∧
      ∀ s : Replay.State, (s.replayTraced a dumped).1 = [] ∧
        (∀ s', (s.replayTraced a dumped).2 = .ok s' → Replay.State.SameMemory s s' ∧
          s'.currentThreadId = call.thread s.currentThreadId ∧ call.Allowed s.currentThreadId) ∧
        ∀ stop, (s.replayTraced a dumped).2 = .error stop →
          stop = .threadAssertion ∧ ¬ call.Allowed s.currentThreadId := by
  -- what is no use of memory is filtered out of `memory`
  have hmemory : ∀ {i : Instruction}, i.isMemory = false → r'.out = r.out ++ [i] →
      r'.memory = r.memory := by
    intro i hi hout
    rw [memory, memory, hout, List.filter_append, List.filter_cons_of_neg (by simp [hi]),
      List.filter_nil, List.append_nil]
  -- a switch and a kill are one instruction each, which runs if and only if it is allowed
  have hthread : ∀ {i : Instruction}, i.isMemory = false → call.threadInstruction? = some i →
      ∀ s : Replay.State, (s.replayTraced a [i]).1 = [] ∧
        (∀ s', (s.replayTraced a [i]).2 = .ok s' → Replay.State.SameMemory s s' ∧
          s'.currentThreadId = call.thread s.currentThreadId ∧ call.Allowed s.currentThreadId) ∧
        ∀ stop, (s.replayTraced a [i]).2 = .error stop →
          stop = .threadAssertion ∧ ¬ call.Allowed s.currentThreadId := by
    intro i hi hinstruction s
    obtain ⟨hallowed, hnext⟩ := Replay.replayInstruction_thread (a := a) (s := s) call hinstruction
    rw [Replay.State.replayTraced_singleton]
    refine ⟨Replay.State.quiet_calls hi, fun s' hs' => ?_, fun stop hstop => ?_⟩
    · exact ⟨Replay.State.quiet_keeps hi hs', hnext s' hs', hallowed.mp ⟨s', hs'⟩⟩
    · refine ⟨Replay.State.quiet_stops hi hstop, fun hok => ?_⟩
      obtain ⟨s', hs'⟩ := hallowed.mpr hok
      exact absurd (hs'.symm.trans hstop) (by simp)
  cases call with
  | event ev => exact absurd rfl (hcall ev)
  | killCurrentThread | switchThread =>
    obtain rfl := Except.ok.inj hreceive
    exact ⟨[_], rfl, rfl, hmemory rfl rfl, hthread rfl rfl⟩
  | setTS ts cpu =>
    obtain rfl := Except.ok.inj hreceive
    refine ⟨[_], rfl, rfl, hmemory rfl rfl, fun s => ?_⟩
    -- the counters of time stamps are no part of what is compared
    have hok : ∃ s', s.replayInstruction a
        { Instruction.new .SET_TS_CPU with word0 := ts, word1 := cpu } = .ok s' ∧
          s'.currentThreadId = s.currentThreadId := by
      obtain ⟨s₀, -, hthread, hexecute⟩ := Replay.State.replayInstruction_use a s
        { Instruction.new .SET_TS_CPU with word0 := ts, word1 := cpu }
      exact ⟨_, hexecute, hthread⟩
    obtain ⟨s₁, hs₁, hthread⟩ := hok
    rw [Replay.State.replayTraced_singleton, hs₁, Replay.State.quiet_calls rfl]
    refine ⟨rfl, fun s' hs' => ?_, by simp⟩
    obtain rfl := Except.ok.inj hs'
    exact ⟨Replay.State.quiet_keeps rfl hs₁, hthread, trivial⟩
  -- nothing is written for these calls
  | barrier | hasAllocated =>
    obtain rfl := Except.ok.inj hreceive
    refine ⟨[], (List.append_nil _).symm, rfl, rfl, fun s => ⟨rfl, fun s' hs' => ?_, by
      simp [Replay.State.replayTraced]⟩⟩
    obtain rfl := Except.ok.inj hs'
    exact ⟨.rfl, rfl, trivial⟩

/-! ### All calls -/

/-- Replay of what was dumped makes the calls of the client, or some of them and stops at a check
of the current thread. -/
structure Follows (a : Replay.Allocator) (calls : List Call) (r : SimpleReceiver) : Prop where
  replays : ∀ s, (Replay.State.init.replayTraced a r.out).2 = .ok s →
    (Replay.State.init.replayTraced a r.out).1 = clientCalls a calls ∧ Replays a calls r s ∧
      ThreadsAllowed calls
  stops : ∀ stop, (Replay.State.init.replayTraced a r.out).2 = .error stop →
    (Replay.State.init.replayTraced a r.out).1 <+: clientCalls a calls ∧
      stop = .threadAssertion ∧ ¬ ThreadsAllowed calls

theorem Follows.of_ok
    (htraced : Replay.State.init.replayTraced a r.out = (clientCalls a calls, .ok s))
    (h : Replays a calls r s) (hallowed : ThreadsAllowed calls) : Follows a calls r := by
  refine ⟨fun s' hs' => ?_, fun stop hstop => ?_⟩
  · rw [htraced] at hs' ⊢
    obtain rfl := Except.ok.inj hs'
    exact ⟨rfl, h, hallowed⟩
  · rw [htraced] at hstop
    simp at hstop

theorem Follows.of_error {made : List (AllocatorCall UInt64 UInt64)}
    (htraced : Replay.State.init.replayTraced a r.out = (made, .error .threadAssertion))
    (hmade : made <+: clientCalls a calls) (hnot : ¬ ThreadsAllowed calls) :
    Follows a calls r := by
  refine ⟨fun s hs => ?_, fun stop hstop => ?_⟩
  · rw [htraced] at hs
    simp at hs
  · rw [htraced] at hstop ⊢
    exact ⟨hmade, (Except.error.inj hstop).symm, hnot⟩

/-- What has stopped stays so. -/
theorem Follows.of_stopped (h : Follows a calls r) {stop : Replay.Stop}
    (hstop : (Replay.State.init.replayTraced a r.out).2 = .error stop) {dumped : List Instruction}
    (hout : r'.out = r.out ++ dumped) : Follows a (calls ++ [call]) r' := by
  obtain ⟨hmade, rfl, hnot⟩ := h.stops stop hstop
  have htraced : Replay.State.init.replayTraced a r'.out =
      ((Replay.State.init.replayTraced a r.out).1, .error .threadAssertion) := by
    rw [hout, Replay.State.replayTraced_append_of_error hstop dumped, ← hstop]
  refine .of_error htraced ?_ ?_
  · rw [clientCalls_concat]
    exact hmade.trans (List.prefix_append _ _)
  · rw [threadsAllowed_append]
    exact fun hallowed => hnot hallowed.1

/-- A call that is no event. -/
theorem Replays.of_not_event (h : Replays a calls r s)
    (htraced : Replay.State.init.replayTraced a r.out = (clientCalls a calls, .ok s))
    (hallowed : ThreadsAllowed calls) (hcall : ∀ ev, call ≠ .event ev)
    (hreceive : r.receive call = .ok r') : Follows a (calls ++ [call]) r' := by
  obtain ⟨dumped, hout, hmap, hmemory, hquiet⟩ :=
    replayTraced_of_not_event (a := a) hcall hreceive
  obtain ⟨hnone, hok, herror⟩ := hquiet s
  have hclient : clientCalls a (calls ++ [call]) = clientCalls a calls := by
    rw [clientCalls_concat]
    cases call with
    | event ev => exact absurd rfl (hcall ev)
    | killCurrentThread | switchThread | setTS | barrier | hasAllocated => exact List.append_nil _
  have hmore := Replay.State.replayTraced_append_of_ok (congrArg Prod.snd htraced) dumped
  rw [htraced, hnone, List.append_nil, ← hout] at hmore
  rw [h.currentThreadId] at hok herror
  cases hdumped : (s.replayTraced a dumped).2 with
  | ok s' =>
    obtain ⟨hsame, hthread, hpassed⟩ := hok s' hdumped
    refine .of_ok (s := s') (by rw [hmore, hclient, hdumped]) ⟨?_, ?_, ?_⟩
      ((threadsAllowed_append _ _).mpr ⟨hallowed, hpassed⟩)
    · obtain ⟨hallocations, hholds, hsizes⟩ := h.toAgrees.of_not_event hcall hmap hmemory
      exact ⟨by rw [hsame.allocations, hallocations], by rw [hsame.registers]; exact hholds, hsizes⟩
    · rw [hsame.allocatedCount, h.allocatedCount, hmap]
    · rw [hthread, currentThread_append]
  | error stop =>
    obtain ⟨rfl, hnot⟩ := herror stop hdumped
    refine .of_error (by rw [hmore, hdumped]) (by rw [hclient]) ?_
    rw [threadsAllowed_append]
    exact fun hboth => hnot hboth.2

/-- **The whole stream**: replay makes the calls of the events. -/
theorem follows_of_legal (ha : ∀ k, a.pointer k ≠ 0) (h : LegalCalls calls)
    (hlive : ∀ before after, calls = before ++ after → (liveTokens before).length < 2 ^ 30) :
    ∃ r, init.receiveAll calls = .ok r ∧ r.Represents (liveTokens calls) ∧ Follows a calls r := by
  induction calls using List.reverseRecOn with
  | nil =>
    exact ⟨init, rfl, represents_init, .of_ok rfl ⟨⟨rfl, holds_init a, by simp [init]⟩, rfl, rfl⟩
      forAllCuts_nil⟩
  | append_singleton calls call ih =>
    obtain ⟨hcalls, hcall⟩ := forAllCuts_concat.mp h
    have hlive' : ∀ before after, calls = before ++ after → (liveTokens before).length < 2 ^ 30 :=
      fun before after heq => hlive before (after ++ [call]) (by rw [heq]; simp)
    obtain ⟨r, hreceived, hrep, hfollows⟩ := ih hcalls hlive'
    obtain ⟨r', dumped, hreceive, hout, hrep', hcases⟩ := hrep.receive_call hcall
    have hreceived' : init.receiveAll (calls ++ [call]) = .ok r' := by
      rw [receiveAll_concat, hreceived]
      exact hreceive
    rw [← liveTokens_append] at hrep'
    refine ⟨r', hreceived', hrep', ?_⟩
    cases hreplay : (Replay.State.init.replayTraced a r.out).2 with
    -- replay has already stopped at a thread assertion
    | error stop => exact hfollows.of_stopped hreplay hout
    | ok s =>
      obtain ⟨hmade, hreplays, hallowed⟩ := hfollows.replays s hreplay
      have htraced : Replay.State.init.replayTraced a r.out = (clientCalls a calls, .ok s) :=
        Prod.ext hmade hreplay
      rcases hcases with ⟨ev, i, rfl, rfl, heffect⟩ | ⟨hno, -, -⟩
      · obtain ⟨s', hs', hreplays'⟩ := hreplays.event ha hrep
          (registers_lt hcalls hlive' hreceived).1 heffect hout hrep'
          (registers_lt h hlive hreceived').1
        refine .of_ok (s := s') ?_ hreplays' ((threadsAllowed_append _ _).mpr ⟨hallowed, trivial⟩)
        -- an instruction on memory is never refused, since the registers represent the tokens
        rw [hout, Replay.State.replayTraced_append_of_ok hreplay, htraced, hs', clientCalls_concat]
        rfl
      · -- an instruction on threads may be refused, and then only by its assertion
        exact hreplays.of_not_event htraced hallowed hno hreceive

/-! ### The deallocations -/

/-- What is left is freed in the order in which it is listed. -/
def deallocations (a : Replay.Allocator) (allocs : List UInt64) (elements : List Element) :
    List (AllocatorCall UInt64 UInt64) :=
  elements.map fun e => .free (a.pointer (lastAllocation allocs e.token))

/-- **The deallocations** free the pointers of the elements. -/
theorem traced_deallocations {allocs : List UInt64} {m done rest : List Element}
    (h : Holds a allocs m s.registers) (hm : m.Perm (done ++ rest))
    (hnodup : (m.map Element.reg).Nodup) (hregs : ∀ e ∈ m, e.reg < 2 ^ 30)
    (hcount : s.allocatedCount = m.length) :
    ∃ s', s.replayTraced a (done.map fun e => (Instruction.new .FREE).setReg e.reg) =
        (deallocations a allocs done, .ok s') ∧
      Holds a allocs rest s'.registers ∧ s'.allocatedCount = rest.length := by
  induction done generalizing m s with
  | nil =>
    obtain ⟨s', hs', hholds⟩ := replays_deallocations h hm hnodup hregs
    obtain rfl := Except.ok.inj hs'
    exact ⟨s, rfl, hholds, by rw [hcount, hm.length_eq, List.nil_append]⟩
  | cons e done ih =>
    -- one register is cleared, whose piece is freed
    have he : e ∈ m := hm.mem_iff.mpr (List.mem_cons_self ..)
    have hlt := hregs e he
    obtain ⟨s₁, hs₁, hholds⟩ := replays_deallocations h
      (show m.Perm ([e] ++ (done ++ rest)) from hm) hnodup hregs
    have hstep : s.replayInstruction a ((Instruction.new .FREE).setReg e.reg) = .ok s₁ := by
      rw [← Replay.State.replayTraced_snd, List.map_singleton,
        Replay.State.replayTraced_singleton] at hs₁
      exact hs₁
    have hmade : s.allocatorCalls a ((Instruction.new .FREE).setReg e.reg) =
        [.free (a.pointer (lastAllocation allocs e.token))] :=
      Replay.State.allocatorCalls_free (Or.inl rfl) (h.liveRegister he hlt)
    have hcount₁ : s₁.allocatedCount = (done ++ rest).length := by
      obtain ⟨-, hallocated⟩ := Replay.State.replayInstruction_memory rfl hstep
      rw [hallocated, hcount, hm.length_eq]
      rfl
    -- the registers differ, so the others keep what they hold
    have hnodup' := ((hm.map Element.reg).nodup_iff).mp hnodup
    obtain ⟨s', hs', hrest⟩ := ih hholds (List.Perm.refl _) (List.nodup_cons.mp hnodup').2
      (fun e' he' => hregs e' (hm.mem_iff.mpr (List.mem_cons_of_mem _ he'))) hcount₁
    refine ⟨s', ?_, hrest⟩
    rw [List.map_cons, Replay.State.replayTraced, hstep, hmade]
    dsimp only
    rw [hs']
    rfl

/-- **Replay makes the calls of the events**, and then frees what is left; or it stops on the way
at a check of the current thread. -/
theorem replays_client (ha : ∀ k, a.pointer k ≠ 0) (h : LegalCalls calls)
    (hlive : ∀ before after, calls = before ++ after → (liveTokens before).length < 2 ^ 30) :
    ∃ r, init.receiveAll calls = .ok r ∧ ∀ elements : List Element, elements.Perm r.allocated →
      (WellBehaved (clientCalls a calls ++ deallocations a (allocationsOf calls) elements) ∧
        pieces (clientCalls a calls ++ deallocations a (allocationsOf calls) elements) = []) ∧
      (ThreadsAllowed calls → ∃ s,
        Replay.State.init.replayTraced a (r.dumpAllDeallocations elements).out =
          (clientCalls a calls ++ deallocations a (allocationsOf calls) elements, .ok s) ∧
        s.allocatedCount = 0 ∧ ∀ reg, s.registers reg = 0) ∧
      (¬ ThreadsAllowed calls → ∃ made, made <+: clientCalls a calls ∧
        Replay.State.init.replayTraced a (r.dumpAllDeallocations elements).out =
          (made, .error .threadAssertion)) := by
  obtain ⟨r, hreceived, hrep, hfollows⟩ := follows_of_legal ha h hlive
  refine ⟨r, hreceived, fun elements hperm => ⟨?_, fun hallowed => ?_, fun hnot => ?_⟩⟩
  · obtain ⟨hbehaved, hpieces⟩ := wellBehaved_clientCalls a h
    -- the map has the live tokens in some order, and each stands for the piece allocated for it
    have hleft : (pieces (clientCalls a calls)).Perm (elements.map
        (fun e => a.pointer (lastAllocation (allocationsOf calls) e.token)) ++ []) := by
      rw [List.append_nil]
      refine hpieces.trans ?_
      have htokens := ((hperm.map Element.token).trans hrep.tokens).symm
      have hmap := htokens.map fun tok => a.pointer (lastAllocation (allocationsOf calls) tok)
      rwa [List.map_map] at hmap
    obtain ⟨hall, hnone⟩ := hbehaved.freeAll hleft
    rw [List.map_map] at hall hnone
    exact ⟨hall, hnone.eq_nil⟩
  -- the deallocations come after all else, so a stop comes before them
  all_goals
    rw [out_dumpAllDeallocations]
    cases hreplay : (Replay.State.init.replayTraced a r.out).2
  · exact absurd hallowed (hfollows.stops _ hreplay).2.2
  · next s =>
    obtain ⟨hmade, hreplays, -⟩ := hfollows.replays s hreplay
    have hall : r.allocated.Perm (elements ++ []) := by
      rw [List.append_nil]
      exact hperm.symm
    obtain ⟨s', hs', hholds, hcount⟩ := traced_deallocations hreplays.holds hall hrep.regs_nodup
      (registers_lt h hlive hreceived).1 hreplays.allocatedCount
    refine ⟨s', ?_, hcount, fun reg => hholds.register_eq_zero (by simp)⟩
    rw [Replay.State.replayTraced_append_of_ok hreplay, hmade, hs']
  · next stop =>
    obtain ⟨hmade, rfl, -⟩ := hfollows.stops stop hreplay
    refine ⟨_, hmade, ?_⟩
    rw [Replay.State.replayTraced_append_of_error hreplay, ← hreplay]
  · next s => exact absurd (hfollows.replays s hreplay).2.2 hnot

end SimpleReceiver

/-! ### Postprocessing and replay -/

instance (current : UInt64) : (call : Call) → Decidable (call.Allowed current)
  | .switchThread threadId =>
    inferInstanceAs (Decidable (current ≠ threadId ∧ threadId ≠ Replay.kInvalidThreadId))
  | .killCurrentThread => inferInstanceAs (Decidable (current ≠ Replay.kInvalidThreadId))
  | .setTS _ _ | .event _ | .barrier | .hasAllocated _ => .isTrue trivial

namespace Machine

variable {env : Env} {b : UInt64} {data : List UInt8} {m : Machine ConstMapper}

section Recycling

theorem threadsAllowed_recyclingCalls : ThreadsAllowed recyclingCalls := by
  rw [ThreadsAllowed]
  decide +kernel

theorem allocated_recyclingCalls {r : SimpleReceiver}
    (hr : SimpleReceiver.init.receiveAll recyclingCalls = .ok r) :
    r.allocated = [⟨11, 1, 48⟩] := by
  have hmap := congrArg (Except.map SimpleReceiver.allocated) hr
  exact Except.ok.inj (hmap.symm.trans (by decide +kernel))

end Recycling

/-- **Replay of what postprocessing wrote** asks the allocator for what the delivered events ask
for, call by call with the pointers of the tokens, and then frees what is left: a well-behaved
client, which leaves nothing allocated.  Where the switches between threads are not such that
replay accepts them, it stops there, and has made the first of these calls. -/
theorem Reached.replays_events (h : InUserSpace b data) (hf : env.Faithful)
    (honce : TokensUsedOnce env (ConstMapper.ofBytes b data))
    (hm : Reached false env (ConstMapper.ofBytes b data) m)
    (hlive : ∀ before after, m.state.calls = before ++ after → (liveTokens before).length < 2 ^ 30)
    {a : Replay.Allocator} (ha : ∀ k, a.pointer k ≠ 0) :
    ∃ r, SimpleReceiver.init.receiveAll m.state.calls = .ok r ∧
      ∀ elements : List Element, elements.Perm r.allocated →
        let client := clientCalls a m.state.calls ++
          SimpleReceiver.deallocations a (allocationsOf m.state.calls) elements
        let out := (r.dumpAllDeallocations elements).out
        (WellBehaved client ∧ Allocation.pieces client = []) ∧
        (ThreadsAllowed m.state.calls → ∃ s,
          Replay.State.init.replayTraced a out = (client, .ok s) ∧
          s.allocatedCount = 0 ∧ ∀ reg, s.registers reg = 0) ∧
        (¬ ThreadsAllowed m.state.calls → ∃ made, made <+: clientCalls a m.state.calls ∧
          Replay.State.init.replayTraced a out = (made, .error .threadAssertion)) :=
  SimpleReceiver.replays_client ha (hm.legalCalls h hf honce) hlive

theorem replays_events_recyclingTrace :
    ∃ m r s, Reached false .tokenSet (ConstMapper.ofBytes 0x10000 recyclingTrace) m ∧
      m.loc = .returned ∧ SimpleReceiver.init.receiveAll m.state.calls = .ok r ∧
      Replay.State.init.replayTraced pieces (r.dumpAllDeallocations r.allocated).out =
        ([.malloc 24 0x100000, .free 0x100000, .malloc 40 0x100040, .realloc 0x100040 48 0x100080,
          .free 0x100080], .ok s) := by
  obtain ⟨m, hm, hloc, hcalls⟩ := serialize_recyclingTrace
  have hreached : Reached false .tokenSet (ConstMapper.ofBytes 0x10000 recyclingTrace) m := ⟨16, hm⟩
  obtain ⟨r, hr, hreplays⟩ := hreached.replays_events inUserSpace_recyclingTrace
    Env.faithful_tokenSet tokensUsedOnce_recyclingTrace
    (by rw [hcalls]; exact length_liveTokens_recyclingCalls) pieces_pointer_ne
  obtain ⟨-, hpasses, -⟩ := hreplays r.allocated (List.Perm.refl _)
  obtain ⟨s, hs, -⟩ := hpasses (by rw [hcalls]; exact threadsAllowed_recyclingCalls)
  refine ⟨m, r, s, hreached, hloc, hr, ?_⟩
  rw [hs, allocated_recyclingCalls (hcalls ▸ hr), hcalls, Prod.mk.injEq]
  exact ⟨by decide +kernel, rfl⟩

end Machine

end MallocTraceReplay
