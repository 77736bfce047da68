import MallocTraceReplay.Serializer.Equiv.ProgramRun
import MallocTraceReplay.Serializer.Equiv.WrittenFile

/-!
# Barriers that cut the run

The barriers of a trace are consistent with a run when what is recorded before each of them is what
had happened at some moment of the run (`ConsistentBarriers`).  Then every batch ends with nothing
left (`Machine.Reached.delivers_batch`): no thread waits at a barrier, none dies while it waits, and
the memory that the end of a batch gives back is not in use, however large the file is in the area
that is reserved for it (`Machine.serialize_consistent`).
-/

namespace MallocTraceReplay

open StepMachine MallocTraceEncoder Interleaving History MemStream

/-- What is recorded before a barrier is what had happened at some moment of a run. -/
def ConsistentBarriers (body : List TraceRecord) (order : List (UInt64 × InnerEvent)) : Prop :=
  ForAllCuts (fun before r => r.mark = .batchEnd → ∃ past, past <+: order ∧
    ∀ id, project id past = innerEvents 0 0 (innerRecords id before)) body

variable {env : Env} {b : UInt64} {body : List TraceRecord} {order : List (UInt64 × InnerEvent)}

namespace Machine

section Batches

variable {M : Type} [Mapper M] {mapper : M} {m : Machine M}

/-- From the drain loop on, a batch has ended. -/
theorem Reached.read_batchEnd (hm : Reached false env mapper m) (hrecords : m.loc ≠ .records) :
    ∃ items, m.input.read = items ++ [.batchEnd] := by
  refine hm.invariant
    (I := fun m => m.loc ≠ .records → ∃ items, m.input.read = items ++ [.batchEnd])
    (fun m hstart hloc => ?_) (fun m m' _ hI hstep hloc => ?_) hrecords
  · exact absurd (start_state hstart).1 hloc
  · rcases step_cases hstep with ⟨-, item, hadv, ⟨rfl, -⟩ | ⟨hrecords, -⟩⟩ | ⟨hdrain, hinput, -⟩ |
      ⟨_, _, _, _, hdie, hinput, -⟩ | ⟨_, hdie, hinput, -⟩ | ⟨-, rfl⟩
    · exact ⟨m.input.read, Input.advance_read hadv⟩
    · exact absurd hrecords hloc
    · rw [hinput]
      exact hI (by simp [hdrain])
    · rw [hinput]
      exact hI (by simp [hdie])
    · rw [hinput]
      exact hI (by simp [hdie])
    · exact hI hloc

/-- At the end of a batch where nobody waits, nothing is queued. -/
theorem Reached.nothing_queued (hm : Reached false env mapper m) (hrecords : m.loc ≠ .records)
    (hdrain : m.loc ≠ .drain) (hpending : m.state.pendingFrees = []) :
    m.state.Queued fun _ => False := by
  intro id t ht ev hev
  have hp := hm.scheduled.placed ht
  have hbufs : t.bufs ≠ [] := List.ne_nil_of_mem hev
  have hflag : t.inPendingFrees = true := by
    by_contra hno
    have hmem := hp.mem_heap.mpr ⟨hbufs, by simpa using hno⟩
    rw [hm.heap_eq_nil hrecords hdrain] at hmem
    simp at hmem
  obtain ⟨tok, htok⟩ := hp.mem_pending.mpr hflag
  rw [hpending] at htok
  simp at htok

end Batches

/-! ### Batches of a trace -/

section Trace

variable {m : Machine ConstMapper}

/-- What has been read at the end of a batch is the beginning of the run. -/
theorem Reached.exists_past (hspace : InUserSpace b (writeTrace (body ++ [.end_])))
    (hbody : ProgramTrace body)
    (hrun : ProgramRun (fun id => innerEvents 0 0 (innerRecords id body)) order)
    (hbarriers : ConsistentBarriers body order)
    (hm : Reached false env (ConstMapper.ofBytes b (writeTrace (body ++ [.end_]))) m)
    (hrecords : m.loc ≠ .records) : ∃ past, past <+: order ∧
      ∀ id, (m.input.events env id).map TraceEvent.ev = project id past := by
  have hinput := hm.reads.input
  obtain ⟨hmidway, htold⟩ := hinput.midway_told hspace.fits hbody
  cases hend : m.input.seenEnd with
  | true => exact ⟨order, List.prefix_refl _, fun id =>
      ((htold hend).map_events hspace hinput id).trans (hrun.interleaves id).symm⟩
  | false =>
    obtain ⟨done, suffix, h⟩ := hmidway hend
    obtain ⟨items, hread⟩ := hm.read_batchEnd hrecords
    have hmarks := h.marks
    rw [hread, List.map_append] at hmarks
    obtain ⟨before, last, rfl, -, hlast⟩ := List.map_eq_append_iff.mp hmarks.symm
    obtain ⟨r, rfl, hr⟩ := List.map_eq_singleton_iff.mp hlast
    have hmark : r.mark = .batchEnd := Option.some.inj hr
    have hsplit : body = before ++ r :: suffix := by
      rw [← h.split, List.append_assoc]
      rfl
    obtain ⟨past, hpast, hproject⟩ := hbarriers _ _ _ hsplit hmark
    refine ⟨past, hpast, fun id => ?_⟩
    rw [h.map_events hspace hinput, hproject, innerRecords, innerRecords, List.flatMap_append]
    cases r with
    | buf | death => simp [TraceRecord.mark] at hmark
    | syncBarrier | end_ => simp

/-- **Every batch is delivered** to its end. -/
theorem Reached.delivers_batch (hspace : InUserSpace b (writeTrace (body ++ [.end_])))
    (hf : env.Faithful) (hbody : ProgramTrace body)
    (hrun : ProgramRun (fun id => innerEvents 0 0 (innerRecords id body)) order)
    (hbarriers : ConsistentBarriers body order)
    (hm : Reached false env (ConstMapper.ofBytes b (writeTrace (body ++ [.end_]))) m)
    (hrecords : m.loc ≠ .records) (hdrain : m.loc ≠ .drain) :
    (∀ id, m.state.eventsFor id = m.input.events env id) ∧ m.state.pendingFrees = [] := by
  obtain ⟨past, hpast, hevents⟩ := hm.exists_past hspace hbody hrun hbarriers hrecords
  obtain ⟨honce, hne, -⟩ := hrun.conditions hspace hbody env
  obtain ⟨l, hfeasible, -⟩ := (hrun.of_prefix hpast).exists_feasible hevents
  have hall : ∀ id, m.state.eventsFor id = m.input.events env id := by
    intro id
    have hbegun : m.state.eventsFor id <+: m.input.events env id := by
      rw [Input.events, hm.mem_eq hspace]
      exact (hm.books hspace id).delivered_first
    have hle := hm.delivers_all hspace hf honce hne hrecords hdrain
      (fun _ => List.prefix_refl _) hfeasible id
    exact hbegun.eq_of_length_le hle.length_le
  exact ⟨hall, hm.pendingFrees_eq_nil hspace hall⟩

/-- No thread dies while it waits. -/
theorem Reached.dyingNotWaiting (hspace : InUserSpace b (writeTrace (body ++ [.end_])))
    (hf : env.Faithful) (hbody : ProgramTrace body)
    (hrun : ProgramRun (fun id => innerEvents 0 0 (innerRecords id body)) order)
    (hbarriers : ConsistentBarriers body order)
    (hm : Reached false env (ConstMapper.ofBytes b (writeTrace (body ++ [.end_]))) m) :
    m.DyingNotWaiting := by
  intro id todo next t hloc ht
  have hnobody := (hm.delivers_batch hspace hf hbody hrun hbarriers (by simp [hloc])
    (by simp [hloc])).2
  by_contra hwaits
  obtain ⟨tok, htok⟩ := (hm.scheduled.placed ht).mem_pending.mpr (by simpa using hwaits)
  rw [hnobody] at htok
  simp at htok

end Trace

end Machine

/-! ### The memory that is given back -/

/-- At the beginning both places are the same. -/
theorem Input.open_barriers {M : Type} [Mapper M] {mapper : M} {i : Input M}
    (hopen : open_ env mapper = .ok i) (j k : Fin 2) : i.lastBarriers j = i.lastBarriers k := by
  unfold open_ at hopen
  obtain ⟨⟨place, s⟩, -, hopen⟩ := bind_eq_ok.mp hopen
  dsimp only at hopen
  split at hopen
  · simp at hopen
  · split at hopen
    · simp at hopen
    · obtain rfl := Except.ok.inj hopen
      rfl

/-- The end of a batch enters its place behind that of the batch before. -/
theorem Input.InFile.ordered_batchEnd {content : List UInt8} {i i' : Input FDInputMapper}
    (h : i.InFile b content) (hadv : i.advance false env = .ok (.batchEnd, i'))
    (hordered : i.prevBarrier ≤ i.lastBarriers i.lastBarriersIndex) :
    i'.prevBarrier ≤ i'.lastBarriers i'.lastBarriersIndex := by
  obtain ⟨ok, ev, s, hnext, -, ⟨-, -, -, hitem, -⟩ | ⟨-, -, hfinish⟩⟩ := advance_cases hadv
  · simp at hitem
  · obtain ⟨hs, -, -, hmoves, -⟩ := h.stream.next hnext
    have hbarriers : ∀ j, b ≤ i.lastBarriers j ∧ i.lastBarriers j ≤ s.ptr := fun j =>
      ⟨(h.barriers j).1, UInt64.le_trans (h.barriers j).2 hmoves⟩
    unfold finishBatch at hfinish
    dsimp only at hfinish
    split at hfinish
    · obtain rfl := Except.ok.inj hfinish
      exact hordered
    · obtain ⟨s', hrelease, hfinish⟩ := bind_eq_ok.mp hfinish
      obtain rfl := Except.ok.inj hfinish
      have hptr := (hs.unrealizeUpTo (hbarriers _).1 (hbarriers _).2 hrelease).2.1
      have htwo : ∀ j : Fin 2, j + 1 + 1 = j ∧ j ≠ j + 1 := by decide
      obtain ⟨hback, hne⟩ := htwo i.lastBarriersIndex
      unfold prevBarrier
      dsimp only
      rw [hback, if_neg hne, if_pos rfl, hptr]
      exact (hbarriers _).2

/-- A page that is given back lies below the barrier before the last one. -/
theorem Input.releasedBelow_le {M : Type} [Mapper M] {i : Input M} {page : UInt64}
    (h : i.releasedBelow env = some page) : page ≤ i.prevBarrier := by
  unfold releasedBelow at h
  obtain ⟨⟨ok, ev, s⟩, -, h⟩ := Option.bind_eq_some_iff.mp h
  dsimp only at h
  split at h
  · unfold MemStream.unrealizedBelow at h
    split at h
    · simp at h
    · obtain rfl := Option.some.inj h
      have hback := sub_and_4096 i.prevBarrier
      rw [UInt64.le_iff_toNat_le, toNat_pageFloor]
      omega
  · simp at h

namespace Machine

variable {content : List UInt8} {m m₁ : Machine FDInputMapper} {m' : Machine ConstMapper}

/-- What is queued while a batch is read is of this batch. -/
structure Fresh (m : Machine FDInputMapper) : Prop where
  ordered : m.input.prevBarrier ≤ m.input.lastBarriers m.input.lastBarriersIndex
  queued : m.loc = .records →
    m.state.Queued fun ev => m.input.lastBarriers m.input.lastBarriersIndex ≤ ev.bufStart

/-- So nothing is queued in the memory that is given back. -/
theorem Fresh.releasesUnqueued (h : m.Fresh) (env : Env) : m.ReleasesUnqueued env := by
  intro hloc page hpage id t ht ev hev
  exact UInt64.le_trans (Input.releasedBelow_le hpage)
    (UInt64.le_trans h.ordered (h.queued hloc id t ht ev hev))

/-- **A step** where nothing is left at the end of a batch. -/
theorem Fresh.step (h : m.Fresh) (hfile : m.input.InFile b content)
    (hnothing : m.loc ≠ .records → m.loc ≠ .drain → m.state.Queued fun _ => False)
    (hbuf : m.loc = .records → ∀ ev i, m.input.advance false env = .ok (.record ev, i) →
      ev.type = .buf → m.input.s.ptr ≤ ev.bufStart) (hstep : m.step false env = .ok m₁) :
    m₁.Fresh := by
  have hidle : m₁.input = m.input → m₁.loc ≠ .records → m₁.Fresh := by
    intro hinput hloc
    exact ⟨by rw [hinput]; exact h.ordered, fun hrecords => absurd hrecords hloc⟩
  rcases step_cases hstep with ⟨hloc, item, hadv, ⟨rfl, hdrain, -⟩ | ⟨-, ev, rfl, hev⟩⟩ |
    ⟨-, hinput, ⟨-, hdie, -⟩ | ⟨hdrain, -⟩⟩ | ⟨id, todo, next, carried, -, hinput, -, hdie⟩ |
    ⟨next, hloc, hinput, -, hst⟩ | ⟨-, rfl⟩
  · exact ⟨hfile.ordered_batchEnd hadv h.ordered, fun hrecords => by simp [hdrain] at hrecords⟩
  · -- a record of the batch
    obtain ⟨ok, ev', s, -, -, ⟨-, -, -, hitem, hinput⟩ | ⟨hitem, -⟩⟩ := Input.advance_cases hadv
    · have hbarriers : m₁.input.lastBarriers = m.input.lastBarriers ∧
          m₁.input.lastBarriersIndex = m.input.lastBarriersIndex := by
        rw [hinput]
        exact ⟨rfl, rfl⟩
      refine ⟨?_, fun _ => ?_⟩
      · unfold Input.prevBarrier
        rw [hbarriers.1, hbarriers.2]
        exact h.ordered
      · rw [hbarriers.1, hbarriers.2]
        obtain ⟨htype, hst⟩ | ⟨-, hst⟩ := hev
        · exact (h.queued hloc).bufArrives (UInt64.le_trans (hfile.barriers _).2
            (hbuf hloc ev _ hadv htype)) hst
        · exact (h.queued hloc).deathArrives hst
    · simp at hitem
  · exact hidle hinput (by simp [hdie])
  · exact hidle hinput (by simp [hdrain])
  · exact hidle hinput (by simp [hdie])
  · refine ⟨by rw [hinput]; exact h.ordered, fun _ id t ht ev hev => ?_⟩
    rw [hst] at ht
    exact (hnothing (by simp [hloc]) (by simp [hloc]) id t ht ev hev).elim
  · exact h

/-- The buffers that the run over the file reads are those of the run over its image. -/
theorem Alongside.ptr_le_bufStart (h : m.Alongside b (writeTrace (body ++ [.end_])) m')
    (hroom : b.toNat + (writeTrace (body ++ [.end_])).length + 2 ^ 31 ≤ 2 ^ 63)
    (hbody : ProgramTrace body) (hfile : m.input.InFile b (writeTrace (body ++ [.end_])))
    (hm' : Reached false env (ConstMapper.ofBytes b (writeTrace (body ++ [.end_]))) m')
    (hmeets : m.KeepsToFile b env (writeTrace (body ++ [.end_]))) (hloc : m.loc = .records)
    {ev : OuterEvent} {i : Input FDInputMapper}
    (hadv : m.input.advance false env = .ok (.record ev, i)) (htype : ev.type = .buf) :
    m.input.s.ptr ≤ ev.bufStart := by
  have hgoes := h.goesOn hloc
  have hfits : b.toNat + (writeTrace (body ++ [.end_])).length ≤ 2 ^ 63 := by omega
  have hmatches := h.input.advance hroom hfile hgoes (hmeets.declares hloc) false env
  rw [hadv] at hmatches
  obtain ⟨⟨item, i'⟩, hadv', hitem, -⟩ := hmatches.exists_ok_right
  obtain rfl : item = .record ev := hitem
  obtain ⟨done, suffix, hmidway⟩ :=
    (hm'.reads.input.midway_told hfits hbody).1 (h.input.seenEnd.trans hgoes)
  have hptr := (h.input.stands hgoes).before.ptr_eq hfits hfile.stream.overFile
  rw [← hptr]
  exact hmidway.ptr_le_bufStart hfits hbody hadv' htype

variable {fd : InputFd} {mmapOk : UInt64 → UInt64 → Bool}

/-- **A run over a file** whose barriers cut the run of the program gives back nothing that is
queued. -/
theorem fresh_run (hbody : ProgramTrace body)
    (hcontent : fd.content = writeTrace (body ++ [.end_])) (haligned : b.toNat % 4096 = 0)
    (hroom : b.toNat + fd.content.length + 2 ^ 31 ≤ 2 ^ 63) (hposition : fd.position = 0)
    (hm : FDInputMapper.Generous (FDInputMapper.new fd b mmapOk))
    (hpending : ∀ m', Reached false env (ConstMapper.ofBytes b fd.content) m' →
      m'.loc ≠ .records → m'.loc ≠ .drain → m'.state.pendingFrees = [])
    {n : ℕ} (hmeets : ∀ k < n, ∀ m, serialize false env (FDInputMapper.new fd b mmapOk) k = .ok m →
      m.KeepsToFile b env fd.content)
    (hrun : serialize false env (FDInputMapper.new fd b mmapOk) n = .ok m) : m.Fresh := by
  induction n generalizing m with
  | zero =>
    obtain ⟨m₀, hstart, h₀⟩ := bind_eq_ok.mp hrun
    obtain rfl := Except.ok.inj h₀
    have hinit := (start_state hstart).2.1
    obtain ⟨i, hopen, hstart⟩ := bind_eq_ok.mp hstart
    obtain rfl := Except.ok.inj hstart
    -- no thread has a buffer yet
    refine ⟨?_, fun _ id t ht => ?_⟩
    · show i.lastBarriers _ ≤ i.lastBarriers _
      rw [Input.open_barriers hopen _ i.lastBarriersIndex]
      exact UInt64.le_refl _
    · rw [hinit] at ht
      simp [SerializeState.init] at ht
  | succ n ih =>
    have hrun' := hrun
    rw [serialize_succ] at hrun'
    obtain ⟨m₀, hm₀, hstep⟩ := bind_eq_ok.mp hrun'
    -- the condition is used of the earlier steps only
    have hbefore : ∀ k < n, ∀ m, serialize false env (FDInputMapper.new fd b mmapOk) k = .ok m →
        m.KeepsToFile b env fd.content := fun k hk => hmeets k (Nat.lt_succ_of_lt hk)
    have hfresh := ih hbefore hm₀
    -- the same run in memory, where nobody waits at the end of a batch
    have hmatches := serialize_alongside haligned hroom hposition hm hbefore
    rw [hm₀] at hmatches
    obtain ⟨m', hm', hside⟩ := hmatches.exists_ok_right
    have hreached : Reached false env (ConstMapper.ofBytes b fd.content) m' := ⟨n, hm'⟩
    have hfile := (queuedKept_run haligned (by omega) hposition hm₀ fun k hk m hk' =>
      (hbefore k hk m hk').releases).1
    refine hfresh.step hfile (fun hrecords hdrain => ?_) (fun hloc ev i hadv htype => ?_) hstep
    · -- after the drain loop nothing is queued, since nobody waits
      have hnobody := hpending m' hreached (by rwa [hside.loc]) (by rwa [hside.loc])
      rw [hside.state.pendingFrees] at hnobody
      exact Reached.nothing_queued ⟨n, hm₀⟩ hrecords hdrain hnobody
    · -- a buffer that arrives lies behind the last barrier
      have hkeeps := hmeets n (Nat.lt_succ_self n) m₀ hm₀
      rw [hcontent] at hroom hside hfile hreached hkeeps
      exact hside.ptr_le_bufStart hroom hbody hfile hreached hkeeps hloc hadv htype

/-! ### Any size -/

/-- **Barriers that cut the run** make the size of the file irrelevant: in every state of the run
over the file the queued buffers are kept, every batch ends with nothing queued and nobody waiting,
and the function returns when it has delivered a run of the program.  The file lies in the area that
is reserved for it (`FDInputMapper.new`). -/
theorem serialize_consistent (hf : env.Faithful) (hbody : ProgramTrace body)
    (hsmall : SmallBuffers body)
    (hrun : ProgramRun (fun id => innerEvents 0 0 (innerRecords id body)) order)
    (hbarriers : ConsistentBarriers body order)
    (hcontent : fd.content = writeTrace (body ++ [.end_])) (haligned : b.toNat % 4096 = 0)
    (hroom : b.toNat + fd.content.length + 2 ^ 31 ≤ 2 ^ 63) (hspace : fd.content.length ≤ b.toNat)
    (hposition : fd.position = 0)
    (hm : FDInputMapper.Generous (FDInputMapper.new fd b mmapOk)) :
    (∀ n m, serialize false env (FDInputMapper.new fd b mmapOk) n = .ok m → m.QueuedKept ∧
      (m.loc ≠ .records → m.loc ≠ .drain →
        m.state.pendingFrees = [] ∧ m.state.Queued fun _ => False)) ∧
    ∃ n m, serialize false env (FDInputMapper.new fd b mmapOk) n = .ok m ∧ m.loc = .returned ∧
      ProgramRun (fun id => innerEvents 0 0 (innerRecords id body)) m.delivered := by
  have h : InUserSpace b (writeTrace (body ++ [.end_])) := by
    rw [← hcontent]
    exact ⟨hspace, by omega⟩
  -- shown of the run in memory, which has the same states
  have hpending : ∀ m', Reached false env (ConstMapper.ofBytes b fd.content) m' →
      m'.loc ≠ .records → m'.loc ≠ .drain → m'.state.pendingFrees = [] := by
    rw [hcontent]
    intro m' hm' hrecords hdrain
    exact (hm'.delivers_batch h hf hbody hrun hbarriers hrecords hdrain).2
  -- the buffers of a batch lie above what is given back (`Fresh`)
  have hkeeps : ∀ n m, serialize false env (FDInputMapper.new fd b mmapOk) n = .ok m →
      m.KeepsToFile b env fd.content := fun n m hn =>
    keepsToFile_written hbody hsmall hcontent haligned hroom hposition hm
      (fun n m hn hbefore => (fresh_run hbody hcontent haligned hroom hposition hm hpending hbefore
        hn).releasesUnqueued env) hn
  have hside : ∀ n, Matches (Alongside b fd.content)
      (serialize false env (FDInputMapper.new fd b mmapOk) n)
      (serialize false env (ConstMapper.ofBytes b fd.content) n) := fun n =>
    serialize_alongside haligned hroom hposition hm fun k _ m hk => hkeeps k m hk
  refine ⟨fun n m hn => ⟨?_, fun hrecords hdrain => ?_⟩, ?_⟩
  · exact (queuedKept_run haligned (by omega) hposition hn fun k _ m hk =>
      (hkeeps k m hk).releases).2
  · -- what waits and what is queued is the same on both sides
    have hmatches := hside n
    rw [hn] at hmatches
    obtain ⟨m', hm', hm⟩ := hmatches.exists_ok_right
    have hnobody := hpending m' ⟨n, hm'⟩ (by rwa [hm.loc]) (by rwa [hm.loc])
    rw [hm.state.pendingFrees] at hnobody
    exact ⟨hnobody, Reached.nothing_queued ⟨n, hn⟩ hrecords hdrain hnobody⟩
  · -- the run in memory returns, and with it the one over the file
    obtain ⟨m', ⟨n, hm'⟩, hloc, hprogram⟩ := completes_run hf h hbody hrun fun m' hm' =>
      hm'.dyingNotWaiting h hf hbody hrun hbarriers
    have hmatches := hside n
    rw [hcontent, hm'] at hmatches
    obtain ⟨m, hn, hm⟩ := hmatches.exists_ok
    refine ⟨n, m, hn, hm.loc.symm.trans hloc, ?_⟩
    rwa [delivered, SerializeState.deliveries, hm.state.sent] at hprogram

section CutRun

/-- A thread allocates and dies; what it leaves is freed by another one behind the barrier. -/
def cutRecords : List TraceRecord :=
  [.buf 1 0 0 [.tok 5 1024 1, .malloc 8], .syncBarrier 0 0, .buf 2 0 0 [.free 5], .death 1 0 0]

def cutOrder : List (UInt64 × InnerEvent) := [(1, .malloc 5 8), (2, .free 5)]

def cutFile : InputFd where
  content := writeTrace (cutRecords ++ [.end_])
  schedule := fun _ => .bytes maxRead

theorem programTrace_cutRecords : ProgramTrace cutRecords where
  bounded := by simp [cutRecords, TraceRecord.Bounded, InnerRecord.Bounded]
  goesOn := by simp [cutRecords]
  hadBuf := by
    refine forAllCuts_iff.mpr fun n hn id hdeath => ?_
    obtain rfl : n = 3 := by
      change n < 4 at hn
      interval_cases n <;> simp [cutRecords, TraceRecord.mark] at hdeath ⊢
    obtain rfl := Mark.death.inj hdeath
    exact ⟨_, List.mem_cons_self .., rfl⟩
  deathsLast := by simp [cutRecords, TraceRecord.mark]

theorem smallBuffers_cutRecords : SmallBuffers cutRecords := by
  intro r hr st
  simp only [cutRecords, List.mem_cons, List.not_mem_nil, or_false] at hr
  rcases hr with rfl | rfl | rfl | rfl
  · exact (length_writeEvents_le _ _).trans (by decide)
  · exact Nat.zero_le _
  · exact (length_writeEvents_le _ _).trans (by decide)
  · exact Nat.zero_le _

theorem programRun_cutOrder :
    ProgramRun (fun id => innerEvents 0 0 (innerRecords id cutRecords)) cutOrder where
  interleaves id := by
    by_cases h₁ : 1 = id
    · subst h₁
      decide
    · by_cases h₂ : 2 = id
      · subst h₂
        decide
      · simp [project, cutOrder, cutRecords, innerRecords, innerEvents, h₁, h₂]
  allocatedOnce := by decide
  consumedOnce := by decide
  allocatedBefore := by
    rw [cutOrder, show [((1 : UInt64), InnerEvent.malloc 5 8), (2, .free 5)] =
      [] ++ [(1, .malloc 5 8)] ++ [(2, .free 5)] from rfl, forAllCuts_concat, forAllCuts_concat]
    refine ⟨⟨forAllCuts_nil, by simp [InnerEvent.waitTok?]⟩, fun tok htok => ?_⟩
    exact ⟨_, List.mem_singleton_self _, htok⟩
  notEmpty := by decide

theorem consistentBarriers_cutRecords : ConsistentBarriers cutRecords cutOrder := by
  refine forAllCuts_iff.mpr fun n hn hmark => ?_
  obtain rfl : n = 1 := by
    change n < 4 at hn
    interval_cases n <;> simp [cutRecords, TraceRecord.mark] at hmark ⊢
  refine ⟨[(1, .malloc 5 8)], ⟨_, rfl⟩, fun id => ?_⟩
  by_cases h₁ : 1 = id
  · subst h₁
    decide
  · simp [project, cutRecords, innerRecords, innerEvents, h₁]

theorem serialize_consistent_cutFile :
    (∀ n m,
      serialize false .tokenSet (FDInputMapper.new cutFile 0x10000 fun _ _ => true) n = .ok m →
      m.QueuedKept ∧ (m.loc ≠ .records → m.loc ≠ .drain →
        m.state.pendingFrees = [] ∧ m.state.Queued fun _ => False)) ∧
    ∃ n m, serialize false .tokenSet (FDInputMapper.new cutFile 0x10000 fun _ _ => true) n = .ok m ∧
      m.loc = .returned ∧
      ProgramRun (fun id => innerEvents 0 0 (innerRecords id cutRecords)) m.delivered :=
  serialize_consistent Env.faithful_tokenSet programTrace_cutRecords smallBuffers_cutRecords
    programRun_cutOrder consistentBarriers_cutRecords (show cutFile.content = _ from rfl)
    (by decide) (by decide +kernel) (by decide +kernel) rfl
    ⟨fun _ => ⟨_, rfl, le_refl _⟩, fun _ _ => rfl⟩

end CutRun

end Machine

end MallocTraceReplay
