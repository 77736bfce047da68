import MallocTraceReplay.Postprocess.Equiv.Output
import MallocTraceReplay.Serializer.Equiv.ConsistentBarriers

/-!
# A run of a program, recorded and replayed

The events of a run are written to a trace by thread.  The trace is read through the window of a
`FDInputMapper` and postprocessed, and the instructions are replayed: this makes the calls of a run
of the same program (`Machine.replays_program`).
-/

namespace MallocTraceReplay

open StepMachine MallocTraceEncoder Interleaving MemStream History

/-! ### The calls of a run -/

theorem Call.mem_of_event? {calls : List Call} {ev : InnerEvent}
    (h : ev ∈ calls.filterMap Call.event?) : .event ev ∈ calls := by
  obtain ⟨call, hcall, hsome⟩ := List.mem_filterMap.mp h
  cases call with
  | event ev' =>
    obtain rfl := Option.some.inj hsome
    exact hcall
  | killCurrentThread | switchThread | setTS | barrier | hasAllocated => simp [event?] at hsome

/-- The client is given by the calls about events. -/
theorem clientCalls_events (a : Replay.Allocator) (calls : List Call) :
    clientCalls a calls = clientCalls a ((calls.filterMap Call.event?).map .event) ∧
      allocationsOf calls = allocationsOf ((calls.filterMap Call.event?).map .event) := by
  induction calls using List.reverseRecOn with
  | nil => exact ⟨rfl, rfl⟩
  | append_singleton calls call ih =>
    obtain ⟨hclient, hallocs⟩ := ih
    rw [clientCalls_concat, allocationsOf_concat, List.filterMap_append]
    cases call with
    | event ev =>
      rw [List.map_append]
      exact ⟨by rw [hclient, hallocs]; exact (clientCalls_concat a _ _).symm,
        by rw [hallocs]; exact (allocationsOf_concat _ _).symm⟩
    | killCurrentThread | switchThread | setTS | barrier | hasAllocated =>
      show clientCalls a calls ++ [] =
          clientCalls a ((calls.filterMap Call.event? ++ []).map .event) ∧
        allocationsOf calls ++ [] = allocationsOf ((calls.filterMap Call.event? ++ []).map .event)
      rw [List.append_nil, List.append_nil, List.append_nil]
      exact ⟨hclient, hallocs⟩

namespace Machine

variable {M : Type} [Mapper M] {env : Env} {mapper : M} {m : Machine M}

/-- Not more tokens are allocated than events have been delivered. -/
theorem Reached.length_liveTokens_le (hm : Reached false env mapper m)
    (hlegal : LegalCalls m.state.calls) {before after : List Call}
    (hcut : m.state.calls = before ++ after) :
    (liveTokens before).length ≤ m.state.deliveries.length := by
  obtain ⟨r, -, hrep⟩ :=
    SimpleReceiver.receiveAll_of_legal (SimpleReceiver.legalCalls_take hlegal hcut)
  have hnodup : (liveTokens before).Nodup := hrep.tokens.nodup_iff.mp hrep.tokens_nodup
  have hsubset : liveTokens before ⊆
      m.state.deliveries.filterMap fun entry => entry.2.ev.newTok? := by
    intro tok htok
    obtain ⟨ev, hev, hnew⟩ := exists_newTok_of_mem_liveTokens htok
    obtain ⟨entry, hentry, rfl⟩ := hm.mem_deliveries (by
      rw [hcut]
      exact List.mem_append_left _ hev)
    exact List.mem_filterMap.mpr ⟨entry, hentry, hnew⟩
  exact (hnodup.subperm hsubset).length_le.trans (List.length_filterMap_le _ _)

end Machine

/-! ### The run -/

namespace Machine

variable {env : Env} {b : UInt64} {body : List TraceRecord} {order : List (UInt64 × InnerEvent)}

/-- What is delivered of a run is replayed. -/
theorem Reached.replays_delivered {m : Machine ConstMapper} {a : Replay.Allocator}
    (h : InUserSpace b (writeTrace (body ++ [.end_]))) (hf : env.Faithful)
    (hbody : ProgramTrace body) (halive : ∀ r ∈ body, ∀ id, r.mark ≠ .death id)
    (hm : Reached false env (ConstMapper.ofBytes b (writeTrace (body ++ [.end_]))) m)
    (hrun : ProgramRun (fun id => innerEvents 0 0 (innerRecords id body)) m.delivered)
    (hne : m.delivered ≠ []) (hfew : m.delivered.length < 2 ^ 30) (ha : ∀ k, a.pointer k ≠ 0) :
    ∃ r, SimpleReceiver.init.receiveAll m.state.calls = .ok r ∧
      ∀ (elements : List Element) (fd : InputFd), elements.Perm r.allocated →
        fd.content.drop fd.position = (r.dumpAllDeallocations elements).written →
        Replay.Reader.Delivers fd →
        let calls := m.delivered.map fun entry => Call.event entry.2
        let client := clientCalls a calls ++
          SimpleReceiver.deallocations a (allocationsOf calls) elements
        let out := (r.dumpAllDeallocations elements).out
        ∃ bound, ∀ fuel ≥ bound, ∃ main,
          Replay.Main.run fuel a fd out.length = .ok main ∧ main.returned = true ∧
          main.replayed = out.map Instruction.bytes ∧
          Replay.State.init.replayTraced a out = (client, .ok main.state) ∧
          main.state.allocatedCount = 0 ∧ ∀ reg, main.state.registers reg = 0 := by
  have hlegal := hm.legalCalls h hf (hrun.conditions h hbody env).1
  have hcalls : m.state.calls.filterMap Call.event? = m.delivered.map (·.2) := by
    rw [hm.filterMap_calls, delivered, List.map_map]
    rfl
  have hevents : (m.state.calls.filterMap Call.event?).map Call.event =
      m.delivered.map fun entry => Call.event entry.2 := by
    rw [hcalls, List.map_map]
    rfl
  have hlive : ∀ before after, m.state.calls = before ++ after →
      (liveTokens before).length < 2 ^ 30 := by
    intro before after hcut
    have hle := hm.length_liveTokens_le hlegal hcut
    rw [delivered, List.length_map] at hfew
    omega
  obtain ⟨r, hreceived, hreplays⟩ := SimpleReceiver.replays_file ha hlegal hlive
  refine ⟨r, hreceived, fun elements fd hperm hinput hdelivers => ?_⟩
  obtain ⟨bound, hbound⟩ := hreplays elements fd hperm hinput hdelivers
  refine ⟨bound, fun fuel hfuel => ?_⟩
  -- something is dumped for the first event
  have hout : (r.dumpAllDeallocations elements).out ≠ [] := by
    obtain ⟨entry, hentry⟩ := List.exists_mem_of_ne_nil _ hne
    have hmem : entry.2 ∈ m.state.calls.filterMap Call.event? := by
      rw [hcalls]
      exact List.mem_map_of_mem hentry
    rw [SimpleReceiver.out_dumpAllDeallocations, ne_eq, List.append_eq_nil_iff]
    exact fun hnil => SimpleReceiver.out_ne_nil hreceived (Call.mem_of_event? hmem) hnil.1
  obtain ⟨hclient, hallocs⟩ := clientCalls_events a m.state.calls
  rw [hevents] at hclient hallocs
  have hreplay := (hbound fuel hfuel).2.1 hout (hm.threadsAllowed_written h hbody halive)
  rw [hclient, hallocs] at hreplay
  exact hreplay

variable {fd : InputFd} {mmapOk : UInt64 → UInt64 → Bool}

/-- **A run of a program is replayed.**  Its events are recorded by thread, in a file that is small
or whose barriers cut the run.  Then the trace is serialized to its end, and replay of the file that
is written makes the calls of a run of the same program, in whose order every token is allocated
before it is consumed, and frees what is left.  The file lies in the area that is reserved for it
(`FDInputMapper.new`). -/
theorem replays_program (hreceiver : env.hasAllocated = SimpleReceiver.answers)
    (hbody : ProgramTrace body) (halive : ∀ r ∈ body, ∀ id, r.mark ≠ .death id)
    (hsmall : SmallBuffers body)
    (hrun : ProgramRun (fun id => innerEvents 0 0 (innerRecords id body)) order) (hne : order ≠ [])
    (hfew : order.length < 2 ^ 30) (hcontent : fd.content = writeTrace (body ++ [.end_]))
    (haligned : b.toNat % 4096 = 0) (hroom : b.toNat + fd.content.length + 2 ^ 31 ≤ 2 ^ 63)
    (hspace : fd.content.length ≤ b.toNat) (hposition : fd.position = 0)
    (hm : FDInputMapper.Generous (FDInputMapper.new fd b mmapOk))
    (hsize : fd.content.length < 2 ^ 27 ∨ ConsistentBarriers body order)
    {a : Replay.Allocator} (ha : ∀ k, a.pointer k ≠ 0) :
    ∃ n m r replayed, serialize false env (FDInputMapper.new fd b mmapOk) n = .ok m ∧
      m.loc = .returned ∧ SimpleReceiver.init.receiveAll m.state.calls = .ok r ∧
      ProgramRun (fun id => innerEvents 0 0 (innerRecords id body)) replayed ∧
      ∀ (elements : List Element) (fd' : InputFd), elements.Perm r.allocated →
        fd'.content.drop fd'.position = (r.dumpAllDeallocations elements).written →
        Replay.Reader.Delivers fd' →
        let calls := replayed.map fun entry => Call.event entry.2
        let client := clientCalls a calls ++
          SimpleReceiver.deallocations a (allocationsOf calls) elements
        let out := (r.dumpAllDeallocations elements).out
        ∃ bound, ∀ fuel ≥ bound, ∃ main,
          Replay.Main.run fuel a fd' out.length = .ok main ∧ main.returned = true ∧
          main.replayed = out.map Instruction.bytes ∧
          Replay.State.init.replayTraced a out = (client, .ok main.state) ∧
          main.state.allocatedCount = 0 ∧ ∀ reg, main.state.registers reg = 0 := by
  have h : InUserSpace b (writeTrace (body ++ [.end_])) := by
    rw [← hcontent]
    exact ⟨hspace, by omega⟩
  -- the receiver answers as one with a set of tokens would
  obtain ⟨env₀, hf, henv⟩ : ∃ env₀ : Env, env₀.Faithful ∧
      { env₀ with hasAllocated := SimpleReceiver.answers } = env :=
    ⟨{ env with hasAllocated := fun calls tok => decide (tok ∈ liveTokens calls) },
      fun _ _ => decide_eq_true_iff, by rw [← hreceiver]⟩
  have hanswers := serialize_answers h hf (hrun.conditions h hbody env₀).1
  rw [henv, ← hcontent] at hanswers
  obtain ⟨m', ⟨n, hm'⟩, hloc, hprogram⟩ := completes_run hf h hbody hrun fun m hm id _ _ _ hdies =>
    absurd hdies ((hm.nobody_dies h hbody halive).1 id _ _)
  -- the window shows the trace
  have hreleases : ∀ n m, serialize false env (FDInputMapper.new fd b mmapOk) n = .ok m →
      (∀ k < n, ∀ m, serialize false env (FDInputMapper.new fd b mmapOk) k = .ok m →
        m.KeepsToFile b env fd.content) → m.ReleasesUnqueued env := by
    intro n m hn hbefore
    rcases hsize with hlt | hbarriers
    · exact releases_of_small haligned (by omega) hposition hlt hn
    · refine (fresh_run hbody hcontent haligned hroom hposition hm ?_ hbefore hn).releasesUnqueued _
      rintro m ⟨k, hk⟩ hrecords hdrain
      have hreached : Reached false env₀ (ConstMapper.ofBytes b (writeTrace (body ++ [.end_]))) m :=
        ⟨k, by rw [← hcontent, ← hanswers, hk]⟩
      exact (hreached.delivers_batch h hf hbody hrun hbarriers hrecords hdrain).2
  -- the run over the file makes the same calls
  have hmatches := serialize_alongside (n := n) haligned hroom hposition hm fun k _ m hk =>
    keepsToFile_written hbody hsmall hcontent haligned hroom hposition hm hreleases hk
  rw [hanswers, hcontent, hm'] at hmatches
  obtain ⟨m, hserialize, hside⟩ := hmatches.exists_ok
  have hperm : m'.delivered.Perm order := perm_of_project fun id => by
    rw [hprogram.interleaves, hrun.interleaves]
  have hnonempty : m'.delivered ≠ [] := fun hnil => hne (hnil ▸ hperm).symm.eq_nil
  obtain ⟨r, hreceived, hreplays⟩ := Reached.replays_delivered h hf hbody halive ⟨n, hm'⟩ hprogram
    hnonempty (hperm.length_eq ▸ hfew) ha
  rw [hside.state.calls] at hreceived
  exact ⟨n, m, r, m'.delivered, hserialize, hside.loc.symm.trans hloc, hreceived, hprogram,
    hreplays⟩

section HandedOver

/-- A thread frees what another one has allocated, and its events come first. -/
def handedRecords : List TraceRecord :=
  [.buf 2 0 0 [.free 5], .syncBarrier 0 0, .buf 1 0 0 [.tok 5 1024 1, .malloc 8]]

def handedOrder : List (UInt64 × InnerEvent) := [(1, .malloc 5 8), (2, .free 5)]

theorem alive_handedRecords : ∀ r ∈ handedRecords, ∀ id, r.mark ≠ .death id := by
  simp [handedRecords, TraceRecord.mark]

def handedFile : InputFd where
  content := writeTrace (handedRecords ++ [.end_])
  schedule := fun _ => .bytes maxRead

theorem programRun_handedOrder :
    ProgramRun (fun id => innerEvents 0 0 (innerRecords id handedRecords)) handedOrder where
  interleaves id := by
    by_cases h₁ : 1 = id
    · subst h₁
      decide
    · by_cases h₂ : 2 = id
      · subst h₂
        decide
      · simp [project, handedOrder, handedRecords, innerRecords, innerEvents, h₁, h₂]
  allocatedOnce := by decide
  consumedOnce := by decide
  allocatedBefore := by
    rw [handedOrder, show [((1 : UInt64), InnerEvent.malloc 5 8), (2, .free 5)] =
      [] ++ [(1, .malloc 5 8)] ++ [(2, .free 5)] from rfl, forAllCuts_concat, forAllCuts_concat]
    refine ⟨⟨forAllCuts_nil, by simp [InnerEvent.waitTok?]⟩, fun tok htok => ?_⟩
    exact ⟨_, List.mem_singleton_self _, htok⟩
  notEmpty := by decide

theorem generous_handedFile :
    FDInputMapper.Generous (FDInputMapper.new handedFile 0x10000 fun _ _ => true) :=
  ⟨fun _ => ⟨_, rfl, le_refl _⟩, fun _ _ => rfl⟩

theorem programTrace_handedRecords : ProgramTrace handedRecords where
  bounded := by simp [handedRecords, TraceRecord.Bounded, InnerRecord.Bounded]
  goesOn := by simp [handedRecords]
  hadBuf before r after hcut id hdeath := by
    have hr : r ∈ handedRecords := by
      rw [hcut]
      simp
    exact absurd hdeath (alive_handedRecords r hr id)
  deathsLast := List.pairwise_of_forall_mem_list fun r hr r' _ id hdeath =>
    absurd hdeath (alive_handedRecords r hr id)

theorem smallBuffers_handedRecords : SmallBuffers handedRecords := by
  intro r hr st
  simp only [handedRecords, List.mem_cons, List.not_mem_nil, or_false] at hr
  rcases hr with rfl | rfl | rfl
  · exact (length_writeEvents_le _ _).trans (by decide)
  · exact Nat.zero_le _
  · exact (length_writeEvents_le _ _).trans (by decide)

theorem replays_program_handedFile :
    ∃ n m r replayed, serialize false { Env.tokenSet with hasAllocated := SimpleReceiver.answers }
        (FDInputMapper.new handedFile 0x10000 fun _ _ => true) n = .ok m ∧ m.loc = .returned ∧
      SimpleReceiver.init.receiveAll m.state.calls = .ok r ∧
      ProgramRun (fun id => innerEvents 0 0 (innerRecords id handedRecords)) replayed ∧
      ∃ bound, ∀ fuel ≥ bound, ∃ main, Replay.Main.run fuel pieces
          { content := (r.dumpAllDeallocations r.allocated).written, schedule := fun _ => .bytes 7 }
          (r.dumpAllDeallocations r.allocated).out.length = .ok main ∧
        main.returned = true ∧ main.state.allocatedCount = 0 := by
  obtain ⟨n, m, r, replayed, hm, hloc, hr, hrun, hreplays⟩ := replays_program
    (show Env.hasAllocated { Env.tokenSet with hasAllocated := SimpleReceiver.answers } = _
      from rfl)
    programTrace_handedRecords alive_handedRecords smallBuffers_handedRecords
    programRun_handedOrder (by decide) (by decide)
    (show handedFile.content = _ from rfl) (by decide) (by decide +kernel) (by decide +kernel) rfl
    generous_handedFile (Or.inl (by decide +kernel)) pieces_pointer_ne
  refine ⟨n, m, r, replayed, hm, hloc, hr, hrun, ?_⟩
  obtain ⟨bound, hbound⟩ := hreplays r.allocated
    { content := (r.dumpAllDeallocations r.allocated).written, schedule := fun _ => .bytes 7 }
    (List.Perm.refl _) rfl fun k => ⟨0, by simp⟩
  refine ⟨bound, fun fuel hfuel => ?_⟩
  obtain ⟨main, hmain, hreturned, -, -, hcount, -⟩ := hbound fuel hfuel
  exact ⟨main, hmain, hreturned, hcount⟩

end HandedOver

end Machine

end MallocTraceReplay
