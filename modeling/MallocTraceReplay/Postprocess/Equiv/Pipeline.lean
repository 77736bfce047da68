import MallocTraceReplay.Serializer.Equiv.Confluence
import MallocTraceReplay.Postprocess.Equiv.Registers

/-!
# Postprocessing a trace

Where no token is used twice, the calls that the serializer makes are legal for `SimpleReceiver`
(`Machine.Reached.legalCalls`): none of its lookups fails, and no assertion of its map and of its
registers.  Then its answers are those of a set of tokens, so that postprocessing is the
serializer with such a set as its receiver, step by step (`Machine.serialize_simpleReceiver`).
-/

namespace MallocTraceReplay

open StepMachine History Interleaving

namespace Machine

/-! ### The answers of the receiver -/

section Answers

variable {M : Type} [Mapper M] {env : Env} {answers : List Call → UInt64 → Bool} {m : Machine M}

/-- The receiver is asked about the calls made so far. -/
theorem handle_congr {st : SerializeState}
    (h : ∀ tok, answers st.calls tok = env.hasAllocated st.calls tok) (t : FullThreadState) :
    st.handle { env with hasAllocated := answers } t = st.handle env t := by
  unfold SerializeState.handle SerializeState.ask
  cases t.lastEvent <;> simp only [h]

/-- **Receivers with the same answers** to the calls made so far make the same step. -/
theorem step_congr {ndebug : Bool}
    (h : ∀ tok, answers m.state.calls tok = env.hasAllocated m.state.calls tok) :
    m.step ndebug { env with hasAllocated := answers } = m.step ndebug env := by
  unfold Machine.step
  split
  · rfl
  · unfold stepDrain
    split
    · rfl
    · unfold SerializeState.drainBody
      simp only [handle_congr h]
      rfl
  · rfl
  · rfl

end Answers

/-! ### The calls of the serializer -/

variable {env : Env} {b : UInt64} {data : List UInt8} {m : Machine ConstMapper}

/-- An event that is delivered allocates no token that is allocated. -/
theorem Reached.newTok_not_live (h : InUserSpace b data)
    (honce : TokensUsedOnce env (ConstMapper.ofBytes b data))
    (hm : Reached false env (ConstMapper.ofBytes b data) m) {t : FullThreadState}
    (hd : m.Delivers env t) {tok : UInt64} (hnew : t.lastEvent.newTok? = some tok) :
    tok ∉ liveTokens m.state.calls := by
  obtain ⟨-, id, heap, hheap, ht, -⟩ := hd
  obtain ⟨u, hu, -, hbufs, -⟩ := hm.scheduled.front hheap
  rw [ht] at hu
  obtain rfl := Option.some.inj hu
  intro hlive
  obtain ⟨ev, hev, htok⟩ := exists_newTok_of_mem_liveTokens hlive
  obtain ⟨⟨id', e⟩, hmem, rfl⟩ := hm.mem_deliveries hev
  -- it was allocated by an event delivered before
  have hdelivered : e ∈ m.state.eventsFor id' := by
    rw [← m.state.project_deliveries]
    exact mem_project.mpr hmem
  obtain ⟨k, hk⟩ := List.mem_iff_getElem?.mp hdelivered
  have hread : (m.input.events env id')[k]? = some e := by
    have hprefix : m.state.eventsFor id' <+: m.input.events env id' := by
      rw [Input.events, hm.mem_eq h]
      exact (hm.books h id').delivered_first
    exact getElem?_of_isPrefix hprefix hk
  have hlt : k < (m.state.eventsFor id').length := (List.getElem?_eq_some_iff.mp hk).1
  obtain ⟨rfl, rfl⟩ := (honce m.input hm.reads.input).1 (hm.current_mem h ht hbufs) hread hnew htok
  exact absurd hlt (Nat.lt_irrefl _)

/-- **The calls are legal**: what is freed is allocated, and what is allocated is new. -/
theorem Reached.legalCalls (h : InUserSpace b data) (hf : env.Faithful)
    (honce : TokensUsedOnce env (ConstMapper.ofBytes b data))
    (hm : Reached false env (ConstMapper.ofBytes b data) m) : LegalCalls m.state.calls := by
  refine hm.forAllCuts_calls (fun before call hcall => ?_) fun m hm t hd quiet hquiet => ?_
  · cases call with
    | event ev => exact absurd rfl (hcall ev)
    | killCurrentThread | switchThread | setTS | barrier | hasAllocated => trivial
  · have hquestion : ∀ call ∈ (SerializeState.question t).map Sent.call, ∀ ev,
        call ≠ .event ev := by
      intro call hcall ev heq
      obtain ⟨s, hs, rfl⟩ := List.mem_map.mp hcall
      have hsilent := SerializeState.silent_question s hs
      rw [heq] at hsilent
      exact hsilent
    show t.lastEvent.Legal _
    rw [liveTokens_append_of_not_event hquiet, liveTokens_append_of_not_event hquestion]
    refine ⟨fun tok htok => ?_, fun tok htok hlive => ?_⟩
    · obtain ⟨-, id, heap, -, -, hpermitted⟩ := hd
      rw [SerializeState.permitted, htok] at hpermitted
      exact (hf _ _).mp hpermitted
    · exact absurd hlive (hm.newTok_not_live h honce hd htok)

/-- The answers of `SimpleReceiver` make the run that the answers of a set of tokens make. -/
theorem serialize_answers (h : InUserSpace b data) (hf : env.Faithful)
    (honce : TokensUsedOnce env (ConstMapper.ofBytes b data)) (n : ℕ) :
    serialize false { env with hasAllocated := SimpleReceiver.answers }
      (ConstMapper.ofBytes b data) n = serialize false env (ConstMapper.ofBytes b data) n := by
  induction n with
  | zero => rfl
  | succ n ih =>
    rw [serialize_succ, serialize_succ, ih]
    cases hm : serialize false env (ConstMapper.ofBytes b data) n with
    | error e => rfl
    | ok m =>
      have hreached : Reached false env (ConstMapper.ofBytes b data) m := ⟨n, hm⟩
      obtain ⟨r, hr, hrep⟩ := SimpleReceiver.receiveAll_of_legal (hreached.legalCalls h hf honce)
      refine step_congr fun tok => ?_
      rw [SimpleReceiver.answers, hr, Bool.eq_iff_iff, hf]
      exact hrep.hasAllocated

/-- **Postprocessing.**  With `SimpleReceiver` the serializer goes through the same states as with
a receiver that keeps a set of tokens, where no token is used twice; and the receiver, which has
taken all calls, has just the allocated tokens in its map. -/
theorem serialize_simpleReceiver (h : InUserSpace b data) (hf : env.Faithful)
    (honce : TokensUsedOnce env (ConstMapper.ofBytes b data)) (n : ℕ) :
    serialize false { env with hasAllocated := SimpleReceiver.answers }
        (ConstMapper.ofBytes b data) n = serialize false env (ConstMapper.ofBytes b data) n ∧
      ∀ m, serialize false env (ConstMapper.ofBytes b data) n = .ok m →
        ∃ r, SimpleReceiver.init.receiveAll m.state.calls = .ok r ∧
          r.Represents (liveTokens m.state.calls) := by
  refine ⟨serialize_answers h hf honce n, fun m hm => ?_⟩
  have hreached : Reached false env (ConstMapper.ofBytes b data) m := ⟨n, hm⟩
  exact SimpleReceiver.receiveAll_of_legal (hreached.legalCalls h hf honce)

section Recycling

theorem inUserSpace_recyclingTrace : InUserSpace 0x10000 recyclingTrace :=
  ⟨by decide +kernel, by decide +kernel⟩

theorem tokensUsedOnce_recyclingTrace :
    TokensUsedOnce .tokenSet (ConstMapper.ofBytes 0x10000 recyclingTrace) := by
  obtain ⟨i, hi, hmeets⟩ := Input.reached_of_map .tokenSet
    (ConstMapper.ofBytes 0x10000 recyclingTrace) 4
    (f := fun i => i.meets .tokenSet [1, 2]) (a := true) (by decide +kernel)
  exact (hi.conditions inUserSpace_recyclingTrace hmeets).1

/-- What the receiver is told of the trace. -/
def recyclingCalls : List Call :=
  [.hasAllocated 9, .barrier, .switchThread 1, .setTS 4096 1, .event (.malloc 9 24),
    .hasAllocated 9, .switchThread 2, .setTS 1024 3, .event (.free 9), .switchThread 1,
    .setTS 4096 1, .event (.malloc 10 40), .hasAllocated 10, .event (.realloc 10 11 48), .barrier]

theorem serialize_recyclingTrace :
    ∃ m, serialize false .tokenSet (ConstMapper.ofBytes 0x10000 recyclingTrace) 16 = .ok m ∧
      m.loc = .returned ∧ m.state.calls = recyclingCalls := by
  obtain ⟨m, hm, hsee⟩ := map_eq_ok.mp (show (serialize false .tokenSet
    (ConstMapper.ofBytes 0x10000 recyclingTrace) 16).map (fun m => (m.loc, m.state.calls)) =
      .ok (.returned, recyclingCalls) by decide +kernel)
  exact ⟨m, hm, Prod.mk.inj hsee⟩

theorem length_liveTokens_recyclingCalls (before after : List Call)
    (hcut : recyclingCalls = before ++ after) : (liveTokens before).length < 2 ^ 30 := by
  have hlen := congrArg List.length hcut
  have hle := length_liveTokens_le before
  rw [List.length_append] at hlen
  have hfew : recyclingCalls.length = 15 := rfl
  omega

end Recycling

theorem serialize_simpleReceiver_recyclingTrace :
    ∃ m r, serialize false { Env.tokenSet with hasAllocated := SimpleReceiver.answers }
        (ConstMapper.ofBytes 0x10000 recyclingTrace) 16 = .ok m ∧ m.loc = .returned ∧
      SimpleReceiver.init.receiveAll m.state.calls = .ok r ∧
      r.Represents (liveTokens m.state.calls) := by
  obtain ⟨m, hm, hloc, -⟩ := serialize_recyclingTrace
  obtain ⟨hsame, hreceives⟩ := serialize_simpleReceiver inUserSpace_recyclingTrace
    Env.faithful_tokenSet tokensUsedOnce_recyclingTrace 16
  obtain ⟨r, hr, hrep⟩ := hreceives m hm
  exact ⟨m, r, hsame.trans hm, hloc, hr, hrep⟩

end Machine

end MallocTraceReplay
