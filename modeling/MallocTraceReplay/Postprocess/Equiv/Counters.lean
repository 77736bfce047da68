import MallocTraceReplay.Postprocess.Equiv.Pipeline
import MallocTraceReplay.Postprocess.Output
import MallocTraceReplay.Serializer.Equiv.StreamCounts

/-!
# The counters of postprocessing

`SimpleReceiver` counts the calls of its methods, and `main` computes from these numbers how much is
left allocated, which the destructor takes from the map instead: the two are the same
(`SimpleReceiver.Counts.leftAllocated`).  Where the serializer leaves no thread waiting, the numbers
are those of the events in the trace (`Machine.Reached.counts_stream`).
-/

namespace MallocTraceReplay

open StepMachine History MallocTraceEncoder

/-- The type of the event that a call is about. -/
def Call.type? : Call → Option EventType
  | .event ev => some ev.type
  | .killCurrentThread | .switchThread _ | .setTS _ _ | .barrier | .hasAllocated _ => none

/-- The number of calls about events of a type. -/
def callCount (type : EventType) (calls : List Call) : ℕ :=
  calls.countP fun call => call.type? = some type

theorem callCount_concat (type : EventType) (calls : List Call) (call : Call) :
    callCount type (calls ++ [call]) =
      callCount type calls + if call.type? = some type then 1 else 0 := by
  simp [callCount, List.countP_singleton]

namespace SimpleReceiver

variable {calls : List Call} {call : Call} {r r' : SimpleReceiver}

/-- The counters agree with the calls, and with the map. -/
structure Counts (calls : List Call) (r : SimpleReceiver) : Prop where
  mallocs : r.mallocs = callCount .malloc calls
  frees : r.frees = callCount .free calls
  sizedFrees : r.sizedFrees = callCount .freeSized calls
  reallocs : r.reallocs = callCount .realloc calls
  memaligns : r.memaligns = callCount .memalign calls
  barriers : r.barriers = calls.count .barrier
  time : (r.lastTs, r.lastCpu) = currentTime calls
  left : r.mallocs + r.memaligns = r.frees + r.sizedFrees + r.allocated.length

theorem length_insert {m m' : AllocatedMap} {tok size : UInt64} {reg : ℕ}
    (h : m.insert tok reg size = .ok m') : m'.length = m.length + 1 := by
  obtain ⟨-, -, h⟩ := bind_eq_ok.mp h
  rw [← Except.ok.inj h]
  rfl

theorem length_erase {m : AllocatedMap} {tok : UInt64} {e : Element} (h : m.lookup tok = some e) :
    (m.erase e).length + 1 = m.length := by
  have he : e ∈ m := List.mem_of_find?_eq_some h
  have hlen := List.length_erase_of_mem he
  have hpos := List.length_pos_of_mem he
  show (List.erase m e).length + 1 = m.length
  omega

/-- What one call counts. -/
def one (type : EventType) (call : Call) : ℕ := if call.type? = some type then 1 else 0

/-- **One call**: it is counted once, and what it allocates or frees is in the map or gone. -/
theorem Counts.concat (h : Counts calls r) (hmallocs : r'.mallocs = r.mallocs + one .malloc call)
    (hfrees : r'.frees = r.frees + one .free call)
    (hsizedFrees : r'.sizedFrees = r.sizedFrees + one .freeSized call)
    (hreallocs : r'.reallocs = r.reallocs + one .realloc call)
    (hmemaligns : r'.memaligns = r.memaligns + one .memalign call)
    (hbarriers : r'.barriers = r.barriers + if call = .barrier then 1 else 0)
    (htime : (r'.lastTs, r'.lastCpu) = call.time (r.lastTs, r.lastCpu))
    (hleft : r'.allocated.length + one .free call + one .freeSized call =
      r.allocated.length + one .malloc call + one .memalign call) :
    Counts (calls ++ [call]) r' where
  mallocs := by rw [hmallocs, h.mallocs, callCount_concat, one]
  frees := by rw [hfrees, h.frees, callCount_concat, one]
  sizedFrees := by rw [hsizedFrees, h.sizedFrees, callCount_concat, one]
  reallocs := by rw [hreallocs, h.reallocs, callCount_concat, one]
  memaligns := by rw [hmemaligns, h.memaligns, callCount_concat, one]
  barriers := by
    rw [hbarriers, h.barriers, List.count_append, List.count_singleton]
    simp only [beq_iff_eq]
  time := by rw [htime, h.time, currentTime_append]
  left := by
    have hold := h.left
    omega

/-- An element that is released. -/
theorem release_eq {tok : UInt64} (h : r.release tok = .ok r') :
    ∃ ids allocated out, allocated.length + 1 = r.allocated.length ∧
      r' = { r with idsSpace := ids, allocated := allocated, out := out } := by
  unfold release at h
  split at h
  · simp at h
  · next e he =>
    obtain ⟨ids, -, h⟩ := bind_eq_ok.mp h
    exact ⟨ids, _, _, length_erase he, (Except.ok.inj h).symm⟩

theorem Counts.receive (h : Counts calls r) (hreceive : r.receive call = .ok r') :
    Counts (calls ++ [call]) r' := by
  cases call with
  | killCurrentThread | switchThread | hasAllocated | setTS | barrier =>
    obtain rfl := Except.ok.inj hreceive
    exact h.concat rfl rfl rfl rfl rfl rfl rfl rfl
  | event ev =>
    cases ev with
    | malloc | memalign =>
      obtain ⟨ids, -, hreceive⟩ := bind_eq_ok.mp hreceive
      obtain ⟨allocated, hinsert, hreceive⟩ := bind_eq_ok.mp hreceive
      obtain rfl := Except.ok.inj hreceive
      exact h.concat rfl rfl rfl rfl rfl rfl rfl (length_insert hinsert)
    | free | freeSized =>
      obtain ⟨r₁, hrelease, hreceive⟩ := bind_eq_ok.mp hreceive
      obtain rfl := Except.ok.inj hreceive
      obtain ⟨ids, allocated, out, hlen, rfl⟩ := release_eq hrelease
      exact h.concat rfl rfl rfl rfl rfl rfl rfl hlen
    | realloc =>
      obtain ⟨ids, -, hreceive⟩ := bind_eq_ok.mp hreceive
      dsimp only at hreceive
      split at hreceive
      · simp at hreceive
      · next e he =>
        obtain ⟨allocated, hinsert, hreceive⟩ := bind_eq_ok.mp hreceive
        obtain ⟨ids', -, hreceive⟩ := bind_eq_ok.mp hreceive
        obtain rfl := Except.ok.inj hreceive
        exact h.concat rfl rfl rfl rfl rfl rfl rfl
          ((length_insert hinsert).trans (length_erase he))

/-- **The counters** after all calls. -/
theorem counts_receiveAll (h : init.receiveAll calls = .ok r) : Counts calls r := by
  induction calls using List.reverseRecOn generalizing r with
  | nil =>
    obtain rfl := Except.ok.inj h
    exact ⟨rfl, rfl, rfl, rfl, rfl, rfl, rfl, rfl⟩
  | append_singleton calls call ih =>
    rw [receiveAll_concat] at h
    obtain ⟨r₀, hr₀, hreceive⟩ := bind_eq_ok.mp h
    exact (ih hr₀).receive hreceive

/-- **What is left allocated** is the size of the map. -/
theorem Counts.leftAllocated (h : Counts calls r) :
    r.leftAllocated = UInt64.ofNat r.allocated.length := by
  have hleft := congrArg UInt64.ofNat h.left
  rw [UInt64.ofNat_add, UInt64.ofNat_add, UInt64.ofNat_add] at hleft
  rw [SimpleReceiver.leftAllocated]
  grind

end SimpleReceiver

/-! ### The events of a trace -/

namespace Machine

section Deliveries

variable {M : Type} [Mapper M] {env : Env} {mapper : M} {m : Machine M}

/-- The calls about events are the deliveries. -/
theorem Reached.callCount_eq (hm : m.Reached false env mapper) (type : EventType) :
    callCount type m.state.calls = countOf type (m.state.deliveries.map (·.2)) := by
  rw [callCount, countOf, SerializeState.calls, SerializeState.deliveries, List.countP_map,
    List.countP_map, List.countP_filterMap]
  refine List.countP_congr fun s hs => ?_
  have horigin := hm.event_origin s hs
  rw [Function.comp_apply, Sent.delivery?]
  cases hcall : s.call with
  | event ev =>
    obtain ⟨o, ho⟩ := horigin ev hcall
    rw [ho]
    simp [Call.type?]
  | killCurrentThread | switchThread | setTS | barrier | hasAllocated => simp [Call.type?]

end Deliveries

variable {env : Env} {b : UInt64} {records : List EncodedRecord} {m : Machine ConstMapper}

/-- **What postprocessing prints.**  Where the serializer leaves no thread waiting, the counters of
the receiver are the numbers of events that were recorded, and the size of its map is what `main`
computes from them.  The receiver's time is what the serializer believes it to be. -/
theorem Reached.counts_stream (h : InUserSpace b (magicBytes ++ recordStream records))
    (hf : env.Faithful)
    (honce : TokensUsedOnce env (ConstMapper.ofBytes b (magicBytes ++ recordStream records)))
    (hm : Reached false env (ConstMapper.ofBytes b (magicBytes ++ recordStream records)) m)
    (hloc : m.loc = .returned) (hno : m.state.pendingFrees = []) :
    ∃ r, SimpleReceiver.init.receiveAll m.state.calls = .ok r ∧
      r.mallocs = eventCount .malloc records ∧ r.frees = eventCount .free records ∧
      r.sizedFrees = eventCount .freeSized records ∧ r.reallocs = eventCount .realloc records ∧
      r.memaligns = eventCount .memalign records ∧ r.barriers = m.state.calls.count .barrier ∧
      (r.lastTs, r.lastCpu) = (m.state.recvTs, m.state.recvCpu) ∧
      r.leftAllocated = UInt64.ofNat r.allocated.length := by
  obtain ⟨r, hr, -⟩ := SimpleReceiver.receiveAll_of_legal (hm.legalCalls h hf honce)
  have hcounts := SimpleReceiver.counts_receiveAll hr
  have hevents : ∀ {type : EventType}, type ≠ .tok →
      callCount type m.state.calls = eventCount type records := fun htype =>
    (hm.callCount_eq _).trans (hm.countP_deliveries h hloc hno htype)
  refine ⟨r, hr, ?_, ?_, ?_, ?_, ?_, hcounts.barriers, hcounts.time.trans hm.inStep.time,
    hcounts.leftAllocated⟩
  · rw [hcounts.mallocs, hevents (by decide)]
  · rw [hcounts.frees, hevents (by decide)]
  · rw [hcounts.sizedFrees, hevents (by decide)]
  · rw [hcounts.reallocs, hevents (by decide)]
  · rw [hcounts.memaligns, hevents (by decide)]

/-- A sized free in another thread, of what the first one allocates. -/
def countedRecords : List EncodedRecord :=
  [.buf 1 1027 [(.init, .tok 7 1024 3), (.init, .malloc 24)],
    .buf 2 2048 [(.init, .tok 20 2048 0), (.init, .freeSized 7), (.init, .memalign 64 4096)]]

theorem counts_stream_countedRecords :
    ∃ m r, Reached false .tokenSet
        (ConstMapper.ofBytes 0x10000 (magicBytes ++ recordStream countedRecords)) m ∧
      SimpleReceiver.init.receiveAll m.state.calls = .ok r ∧ r.mallocs = 1 ∧ r.sizedFrees = 1 ∧
      r.memaligns = 1 ∧ r.leftAllocated = UInt64.ofNat r.allocated.length := by
  have hspace : InUserSpace 0x10000 (magicBytes ++ recordStream countedRecords) :=
    ⟨by decide +kernel, by decide +kernel⟩
  obtain ⟨i, hi, hmeets⟩ := Input.reached_of_map .tokenSet
    (ConstMapper.ofBytes 0x10000 (magicBytes ++ recordStream countedRecords)) 3
    (f := fun i => i.meets .tokenSet [1, 2]) (a := true) (by decide +kernel)
  obtain ⟨m, hm, hsee⟩ := map_eq_ok.mp (show (serialize false .tokenSet
    (ConstMapper.ofBytes 0x10000 (magicBytes ++ recordStream countedRecords)) 16).map
      (fun m => (m.loc, m.state.pendingFrees)) = .ok (.returned, []) by decide +kernel)
  obtain ⟨hloc, hno⟩ := Prod.mk.inj hsee
  have hreached : Reached false .tokenSet
      (ConstMapper.ofBytes 0x10000 (magicBytes ++ recordStream countedRecords)) m := ⟨16, hm⟩
  obtain ⟨r, hr, hmallocs, -, hsizedFrees, -, hmemaligns, -, -, hleft⟩ :=
    hreached.counts_stream hspace Env.faithful_tokenSet (hi.conditions hspace hmeets).1 hloc hno
  exact ⟨m, r, hreached, hr, hmallocs.trans (by decide), hsizedFrees.trans (by decide),
    hmemaligns.trans (by decide), hleft⟩

end Machine

end MallocTraceReplay
