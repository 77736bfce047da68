import MallocTraceReplay.Serializer.Trace
import MallocTraceReplay.Stream.Equiv.StreamInvariant
import MallocTraceReplay.Stream.Equiv.TraceReader

/-!
# Reading the trace

What the record loop gets, item after item (`advance_cases`), and the reading of a trace on its own
(`Input.Reached`), which is what a run of the serializer reads (`Machine.Reached.reads`).  Over a
trace that stands in memory every buffer can be read (`ReadsTrace.advance`).
-/

namespace MallocTraceReplay

open StepMachine MallocTraceEncoder

namespace Input

variable {M : Type} [Mapper M] {env : Env} {i i' : Input M} {item : Item}
  {ndebug : Bool}

/-! ### One item -/

/-- The end of a batch: the end of the trace, or a barrier. -/
theorem finishBatch_cases (h : i.finishBatch ndebug env = .ok i') :
    i'.read = i.read ++ [.batchEnd] ∧ (i.seenEnd = true → i'.seenEnd = true) ∧
      ((i'.seenEnd = true ∧ i'.s = i.s) ∨ (i'.seenEnd = i.seenEnd ∧
        i.s.unrealizeUpTo ndebug (i.lastBarriers (i.lastBarriersIndex + 1)) = .ok i'.s)) := by
  unfold finishBatch at h
  split at h
  · obtain rfl := Except.ok.inj h
    exact ⟨rfl, fun _ => rfl, Or.inl ⟨rfl, rfl⟩⟩
  · obtain ⟨s, hs, h⟩ := bind_eq_ok.mp h
    obtain rfl := Except.ok.inj h
    exact ⟨rfl, id, Or.inr ⟨rfl, hs⟩⟩

/-- **One item**: a record is passed on, or the batch is finished. -/
theorem advance_cases (h : i.advance ndebug env = .ok (item, i')) :
    ∃ ok ev s, i.s.next env.stack i.ev = .ok (ok, ev, s) ∧ i'.read = i.read ++ [item] ∧
      ((ok = true ∧ ev.type ≠ .end_ ∧ ev.type ≠ .syncBarrier ∧ item = .record ev ∧
          i' = { i with s := s, ev := ev, read := i.read ++ [.record ev] }) ∨
        (item = .batchEnd ∧ (ok = true → ev.type = .end_ ∨ ev.type = .syncBarrier) ∧ ({ i with
          s := s, ev := ev, seenEnd := i.seenEnd || !ok } : Input M).finishBatch ndebug env =
            .ok i')) := by
  unfold advance at h
  obtain ⟨⟨ok, ev, s⟩, hnext, h⟩ := bind_eq_ok.mp h
  refine ⟨ok, ev, s, hnext, ?_⟩
  cases ok with
  | false =>
    -- nothing is left, which ends the last batch
    simp only [Bool.not_false, if_true] at h
    obtain ⟨i₁, hfinish, h⟩ := bind_eq_ok.mp h
    obtain ⟨rfl, rfl⟩ := Prod.mk.inj (Except.ok.inj h)
    have hf : ({ i with s := s, ev := ev, seenEnd := i.seenEnd || !false } :
        Input M).finishBatch ndebug env = .ok i₁ := by
      rw [Bool.not_false, Bool.or_true]; exact hfinish
    exact ⟨(finishBatch_cases hf).1, Or.inr ⟨rfl, by simp, hf⟩⟩
  | true =>
    simp only [Bool.not_true, Bool.false_eq_true, if_false] at h
    split at h
    · -- the record ends the batch
      next htype =>
      obtain ⟨i₁, hfinish, h⟩ := bind_eq_ok.mp h
      obtain ⟨rfl, rfl⟩ := Prod.mk.inj (Except.ok.inj h)
      have hf : ({ i with s := s, ev := ev, seenEnd := i.seenEnd || !true } :
          Input M).finishBatch ndebug env = .ok i₁ := by
        rw [Bool.not_true, Bool.or_false]; exact hfinish
      exact ⟨(finishBatch_cases hf).1, Or.inr ⟨rfl, fun _ => htype, hf⟩⟩
    · -- the record belongs to the batch
      next htype =>
      rw [not_or] at htype
      obtain ⟨rfl, rfl⟩ := Prod.mk.inj (Except.ok.inj h)
      exact ⟨rfl, Or.inl ⟨rfl, htype.1, htype.2, rfl, rfl⟩⟩

/-- Reading an item adds it to what was read. -/
theorem advance_read (h : i.advance ndebug env = .ok (item, i')) :
    i'.read = i.read ++ [item] := by
  obtain ⟨-, -, -, -, hread, -⟩ := advance_cases h
  exact hread

theorem advance_seenEnd (h : i.advance false env = .ok (item, i')) :
    item ≠ .batchEnd → i'.seenEnd = i.seenEnd := by
  obtain ⟨ok, ev, s, -, -, ⟨-, -, -, -, rfl⟩ | ⟨hitem, -⟩⟩ := advance_cases h
  · exact fun _ => rfl
  · exact fun hne => absurd hitem hne

/-! ### Reading on its own -/

theorem Reached.advance {mapper : M} (h : Reached env mapper i) (hend : i.seenEnd = false)
    (hadv : i.advance false env = .ok (item, i')) : Reached env mapper i' := by
  obtain ⟨n, hn⟩ := h
  obtain ⟨i₀, hopen, hn⟩ := bind_eq_ok.mp hn
  refine ⟨n + 1, ?_⟩
  rw [hopen, ok_bind, iterate_succ', hn, ok_bind, step, hend, if_neg (by simp), hadv]
  rfl

/-- **The invariant rule** for the reading of a trace. -/
theorem Reached.invariant {mapper : M} {I : Input M → Prop}
    (hopen : ∀ i, open_ env mapper = .ok i → I i)
    (hadvance : ∀ i item i', I i → i.seenEnd = false → i.advance false env = .ok (item, i') → I i')
    (h : Reached env mapper i) : I i := by
  obtain ⟨n, hn⟩ := h
  obtain ⟨i₀, h₀, hn⟩ := bind_eq_ok.mp hn
  refine iterate_invariant (fun i i' hI hstep => ?_) (hopen i₀ h₀) hn
  unfold step at hstep
  split at hstep
  · exact Except.ok.inj hstep ▸ hI
  · next hend =>
    cases hadv : i.advance false env with
    | error e => simp [hadv] at hstep
    | ok r =>
      rw [hadv] at hstep
      obtain rfl := Except.ok.inj hstep
      exact hadvance i r.1 r.2 hI (by simpa using hend) hadv

/-- What is read on the way to the end of the trace is the beginning of what is read in all. -/
theorem Reached.read_prefix_of_seenEnd {mapper : M} (h : Reached env mapper i)
    (h' : Reached env mapper i') (hend : i'.seenEnd = true) : i.read <+: i'.read := by
  -- what has been read grows along a run
  have hgrows : ∀ {n : ℕ} {i i' : Input M}, iterate (step false env) n i = .ok i' →
      i.read <+: i'.read := by
    intro n i i' hn
    refine iterate_invariant (P := fun j => i.read <+: j.read) (fun j j' hj hstep => ?_)
      (List.prefix_refl _) hn
    unfold step at hstep
    split at hstep
    · rwa [← Except.ok.inj hstep]
    · cases hadv : j.advance false env with
      | error e => simp [hadv] at hstep
      | ok r =>
        rw [hadv] at hstep
        obtain rfl := Except.ok.inj hstep
        exact hj.trans (by rw [advance_read hadv]; exact List.prefix_append _ _)
  obtain ⟨n, hn⟩ := h
  obtain ⟨n', hn'⟩ := h'
  obtain ⟨i₀, h₀, hn⟩ := bind_eq_ok.mp hn
  rw [h₀, ok_bind] at hn'
  rcases Nat.le_total n n' with hle | hle
  · obtain ⟨j, hj, hrest⟩ := iterate_le hle hn'
    rw [hn] at hj
    obtain rfl := Except.ok.inj hj
    exact hgrows hrest
  · -- the longer run stands still from the end of the trace on
    obtain ⟨j, hj, hrest⟩ := iterate_le hle hn
    rw [hn'] at hj
    obtain rfl := Except.ok.inj hj
    rw [iterate_fixed (by rw [step, if_pos hend])] at hrest
    rw [← Except.ok.inj hrest]

/-! ### A trace that stands in memory -/

variable {b : UInt64} {data : List UInt8} {i i' : Input ConstMapper}

/-- The input reads a trace; its place matters as long as it goes on. -/
structure ReadsTrace (b : UInt64) (data : List UInt8) (i : Input ConstMapper) : Prop where
  mapper : i.s.mapper = .ofBytes b data
  reader : i.seenEnd = false → i.s.Reader b data
  barriers : i.seenEnd = false → ∀ j, (i.lastBarriers j).toNat ≤ b.toNat + data.length

/-- The mapper of a trace in memory stays what it is. -/
theorem streamInvariant_mapper (cm : ConstMapper) :
    MemStream.StreamInvariant fun s : MemStream ConstMapper => s.mapper = cm where
  realizeMore := by
    intro s minAmount ok s' h heq
    unfold MemStream.realizeMore at heq
    obtain ⟨⟨got, m⟩, hm, heq⟩ := bind_eq_ok.mp heq
    rw [← (Prod.mk.inj (Except.ok.inj heq)).2, ← h]
    exact (Prod.mk.inj (Except.ok.inj hm)).2.symm
  move h _ _ := h

theorem unrealizeUpTo_mapper {s s' : MemStream ConstMapper} {ptr : UInt64}
    (h : s.unrealizeUpTo false ptr = .ok s') : s'.mapper = s.mapper := by
  unfold MemStream.unrealizeUpTo at h
  obtain ⟨_, -, h⟩ := bind_eq_ok.mp h
  split at h
  · rw [← Except.ok.inj h]
  · obtain ⟨⟨got, m⟩, hm, h⟩ := bind_eq_ok.mp h
    dsimp only at h
    split at h
    · simp at h
    · rw [← Except.ok.inj h]
      exact (Prod.mk.inj (Except.ok.inj hm)).2.symm

theorem readsTrace_open (h : InUserSpace b data) {i : Input ConstMapper}
    (hopen : open_ env (ConstMapper.ofBytes b data) = .ok i) : ReadsTrace b data i := by
  unfold open_ at hopen
  obtain ⟨⟨place, s⟩, hadv, hopen⟩ := bind_eq_ok.mp hopen
  have hreader := MemStream.reader_advanceBy_new h hadv
  dsimp only at hopen
  split at hopen
  · simp at hopen
  · split at hopen
    · simp at hopen
    · obtain rfl := Except.ok.inj hopen
      refine ⟨hreader.mapper, fun _ => hreader, fun _ j => ?_⟩
      show (Mapper.getBegin s.mapper).toNat ≤ _
      rw [hreader.mapper]
      exact Nat.le_add_right _ _

theorem ReadsTrace.finishBatch (h : InUserSpace b data) (hi : i.s.mapper = .ofBytes b data)
    (hgoes : i.seenEnd = false → (∃ rest, i.s.Before (.ofBytes b data) rest) ∧
      i.s.permissiveAdvance = false ∧ i.s.ptr ≤ i.s.end_ ∧
      ∀ j, (i.lastBarriers j).toNat ≤ b.toNat + data.length)
    (hfinish : i.finishBatch false env = .ok i') : ReadsTrace b data i' := by
  unfold Input.finishBatch at hfinish
  split at hfinish
  · obtain rfl := Except.ok.inj hfinish
    exact ⟨hi, fun h => absurd h (by simp), fun h => absurd h (by simp)⟩
  · obtain ⟨s, hs, hfinish⟩ := bind_eq_ok.mp hfinish
    obtain rfl := Except.ok.inj hfinish
    refine ⟨(unrealizeUpTo_mapper hs).trans hi, fun hend => ?_, fun hend j => ?_⟩ <;>
      obtain ⟨⟨rest, hbefore⟩, hstrict, hle, hbarriers⟩ := hgoes hend <;>
      obtain ⟨hptr, hreader⟩ := hbefore.unrealizeUpTo_reader h hstrict hle (hbarriers _) hs
    · exact hreader
    · show (if _ then _ else _ : UInt64).toNat ≤ _
      split
      · rw [hptr]
        have := hbefore.ptr_le h.fits
        omega
      · exact hbarriers j

/-- **One item of a trace in memory**: the input goes on reading it, and the buffer of a buffer
record can be read. -/
theorem ReadsTrace.advance (h : InUserSpace b data) (hi : ReadsTrace b data i)
    (hend : i.seenEnd = false) (hadv : i.advance false env = .ok (item, i')) :
    ReadsTrace b data i' ∧ ∀ ev, item = .record ev → ev.type = .buf →
      GoodBuf (ConstMapper.ofBytes b data).mem ev := by
  obtain ⟨ok, ev, s, hnext, -, hcases⟩ := advance_cases hadv
  have hmapper := (streamInvariant_mapper _).next hi.mapper hnext
  have hreader := hi.reader hend
  rcases hcases with ⟨rfl, -, -, rfl, rfl⟩ | ⟨rfl, htype, hfinish⟩
  · obtain ⟨hreader', -, -, -, hgood⟩ := hreader.next h hnext
    exact ⟨⟨hmapper, fun _ => hreader', hi.barriers⟩,
      fun ev' hitem htype => by obtain rfl := Item.record.inj hitem; exact hgood htype⟩
  · refine ⟨ReadsTrace.finishBatch h hmapper (fun hgoes => ?_) hfinish, by simp⟩
    have hok : ok = true := by simpa [hend] using hgoes
    subst hok
    obtain ⟨hreader', hle, -, hbefore, -⟩ := hreader.next h hnext
    refine ⟨hbefore ?_, hreader'.strict, hle, hi.barriers hend⟩
    rcases htype rfl with htype | htype <;> simp [htype]

/-- **The reading of a trace in memory** reads the trace, wherever it is. -/
theorem Reached.readsTrace (h : InUserSpace b data)
    (hi : Reached env (ConstMapper.ofBytes b data) i) : ReadsTrace b data i :=
  hi.invariant (fun _ hopen => readsTrace_open h hopen)
    fun _ _ _ hreads hend hadv => (hreads.advance h hend hadv).1

/-- The memory is that of the trace. -/
theorem Reached.mem_eq (h : InUserSpace b data)
    (hi : Reached env (ConstMapper.ofBytes b data) i) :
    i.mem = (ConstMapper.ofBytes b data).mem := by
  show Mapper.load i.s.mapper = _
  rw [(hi.readsTrace h).mapper]
  rfl

/-- The events read on the way to the end of the trace are the first ones of each thread. -/
theorem Reached.events_prefix (h : InUserSpace b data)
    (hi : Reached env (ConstMapper.ofBytes b data) i)
    (hi' : Reached env (ConstMapper.ofBytes b data) i') (hend : i'.seenEnd = true) (id : UInt64) :
    i.events env id <+: i'.events env id := by
  obtain ⟨more, hmore⟩ := hi.read_prefix_of_seenEnd hi' hend
  rw [events, events, hi.mem_eq h, hi'.mem_eq h, ← hmore]
  exact prefix_recorded env _ _ _ id

/-- **The conditions of a trace** that is read to its end can be computed there. -/
theorem Reached.conditions (h : InUserSpace b data)
    (hi : Reached env (ConstMapper.ofBytes b data) i) {ids : List UInt64}
    (hmeets : i.meets env ids = true) :
    TokensUsedOnce env (ConstMapper.ofBytes b data) ∧
      TokensNotEmpty env (ConstMapper.ofBytes b data) ∧
      DeathsLast env (ConstMapper.ofBytes b data) := by
  simp only [meets, Bool.and_eq_true, decide_eq_true_eq, List.all_eq_true] at hmeets
  obtain ⟨⟨⟨⟨⟨hend, hids⟩, hnew⟩, hwait⟩, hempty⟩, hdeaths⟩ := hmeets
  have hrest : ∀ id, id ∉ ids → i.events env id = [] := fun id hid =>
    events_eq_nil fun hmem => hid (hids id hmem)
  have honce : ∀ {f : InnerEvent → Option UInt64}, (i.tokens env ids f).Nodup →
      UsedOnce f (i.events env) := fun {f} hf => usedOnce_of_nodup ids hrest hf
  refine ⟨fun j hj => ⟨(honce hnew).mono (hj.events_prefix h hi hend),
    (honce hwait).mono (hj.events_prefix h hi hend)⟩, fun j hj id e he htok => ?_,
    fun j hj => hdeaths.sublist (hj.read_prefix_of_seenEnd hi hend).sublist⟩
  have he' := (hj.events_prefix h hi hend id).subset he
  have hid : id ∈ ids := by
    by_contra hno
    rw [hrest id hno] at he'
    simp at he'
  exact hempty (List.mem_flatMap.mpr ⟨id, hid, List.mem_filterMap.mpr ⟨e, he', htok⟩⟩)

/-- What reading on its own comes to, from what is seen of it. -/
theorem reached_of_map {M : Type} [Mapper M] (env : Env) (mapper : M) (n : ℕ) {α : Type}
    {f : Input M → α} {a : α}
    (h : (open_ env mapper >>= iterate (step false env) n).map f = .ok a) :
    ∃ i, Reached env mapper i ∧ f i = a := by
  obtain ⟨i, hi, hf⟩ := map_eq_ok.mp h
  exact ⟨i, ⟨n, hi⟩, hf⟩

end Input

/-! ### A run of the serializer reads the trace -/

namespace Machine

variable {M : Type} [Mapper M] {env : Env} {mapper : M} {m m' : Machine M}

/-- What a run comes to, from what is seen of its state. -/
theorem reached_of_map (ndebug : Bool) (env : Env) (mapper : M) (n : ℕ) {α : Type}
    {f : Machine M → α} {a : α} (h : (serialize ndebug env mapper n).map f = .ok a) :
    ∃ m, Reached ndebug env mapper m ∧ f m = a := by
  obtain ⟨m, hm, hf⟩ := map_eq_ok.mp h
  exact ⟨m, ⟨n, hm⟩, hf⟩

theorem serialize_succ (ndebug : Bool) (env : Env) (mapper : M) (n : ℕ) :
    serialize ndebug env mapper (n + 1) =
      serialize ndebug env mapper n >>= Machine.step ndebug env := by
  unfold serialize
  cases start env mapper with
  | error e => rfl
  | ok m => exact iterate_succ' n m

/-- A run has come by a shorter one. -/
theorem serialize_le {ndebug : Bool} {k n : ℕ} (hk : k ≤ n)
    (h : serialize ndebug env mapper n = .ok m) :
    ∃ m', serialize ndebug env mapper k = .ok m' := by
  obtain ⟨m₀, h₀, hn⟩ := bind_eq_ok.mp h
  obtain ⟨m', hm', -⟩ := iterate_le hk hn
  refine ⟨m', ?_⟩
  rw [serialize, h₀, ok_bind, hm']

/-- A run that has returned or stopped stays so. -/
theorem serialize_ended_le {ndebug : Bool} {k n : ℕ} (hk : k ≤ n)
    (hended : ∀ m, serialize ndebug env mapper k = .ok m → m.loc = .returned) :
    serialize ndebug env mapper n = serialize ndebug env mapper k := by
  induction n, hk using Nat.le_induction with
  | base => rfl
  | succ n _ ih =>
    rw [serialize_succ, ih]
    cases hrun : serialize ndebug env mapper k with
    | error e => rfl
    | ok m => rw [ok_bind, Machine.step, hended m hrun]

/-- **A run has one end.** -/
theorem serialize_ended_eq {ndebug : Bool} {k n : ℕ} {x y : Except Abort (Machine M)}
    (hx : serialize ndebug env mapper k = x) (hy : serialize ndebug env mapper n = y)
    (hxended : ∀ m, x = .ok m → m.loc = .returned) (hyended : ∀ m, y = .ok m → m.loc = .returned) :
    x = y := by
  subst hx hy
  rcases Nat.le_total k n with hle | hle
  · exact (serialize_ended_le hle hxended).symm
  · exact serialize_ended_le hle hyended

theorem Reached.step {ndebug : Bool} (h : Reached ndebug env mapper m)
    (hstep : m.step ndebug env = .ok m') : Reached ndebug env mapper m' := by
  obtain ⟨n, hn⟩ := h
  exact ⟨n + 1, by rw [serialize_succ, hn, ok_bind, hstep]⟩

/-- **The invariant rule** for the serializer. -/
theorem Reached.invariant {ndebug : Bool} {I : Machine M → Prop}
    (hstart : ∀ m, start env mapper = .ok m → I m)
    (hstep : ∀ m m', Reached ndebug env mapper m → I m → m.step ndebug env = .ok m' → I m')
    (h : Reached ndebug env mapper m) : I m := by
  obtain ⟨n, hn⟩ := h
  obtain ⟨m₀, h₀, hn⟩ := bind_eq_ok.mp hn
  have hboth : Reached ndebug env mapper m ∧ I m := by
    refine iterate_invariant (P := fun m => Reached ndebug env mapper m ∧ I m) ?_
      ⟨⟨0, by rw [serialize, h₀]; rfl⟩, hstart m₀ h₀⟩ hn
    rintro m m' ⟨hm, hI⟩ hm'
    exact ⟨hm.step hm', hstep m m' hm hI hm'⟩
  exact hboth.2

/-- What a step of the serializer does, by the place where the function stands. -/
theorem step_cases {ndebug : Bool} (h : m.step ndebug env = .ok m') :
    (m.loc = .records ∧ ∃ item, m.input.advance ndebug env = .ok (item, m'.input) ∧
      ((item = .batchEnd ∧ m'.loc = .drain ∧ m'.state = m.state) ∨
        (m'.loc = .records ∧ ∃ ev, item = .record ev ∧
          ((ev.type = .buf ∧ m.state.bufArrives ndebug env m'.input.mem ev = .ok m'.state) ∨
            (ev.type = .death ∧ m.state.deathArrives ndebug ev = .ok m'.state))))) ∨
    (m.loc = .drain ∧ m'.input = m.input ∧
      ((m.state.heap = [] ∧ m'.loc = .toDie m.state.toDie [] ∧ m'.state = m.state) ∨
        (m'.loc = .drain ∧ ∃ id heap, m.state.heap = id :: heap ∧
          m.state.drainBody ndebug env m.input.mem id = .ok m'.state))) ∨
    (∃ id todo next carried, m.loc = .toDie (id :: todo) next ∧ m'.input = m.input ∧
      m.state.toDieBody ndebug id = .ok (carried, m'.state) ∧
      m'.loc = .toDie todo (if carried then next ++ [id] else next)) ∨
    (∃ next, m.loc = .toDie [] next ∧ m'.input = m.input ∧
      m'.loc = (if m.input.seenEnd then .returned else .records) ∧
      m'.state = { m.state with toDie := next }.send .barrier none) ∨
    (m.loc = .returned ∧ m' = m) := by
  unfold Machine.step at h
  cases hloc : m.loc with
  | records =>
    simp only [hloc] at h
    unfold stepRecords at h
    obtain ⟨⟨item, input⟩, hadv, h⟩ := bind_eq_ok.mp h
    refine Or.inl ⟨rfl, item, ?_⟩
    cases item with
    | batchEnd =>
      -- the drain loop comes next
      obtain rfl := Except.ok.inj h
      exact ⟨hadv, Or.inl ⟨rfl, rfl, rfl⟩⟩
    | record ev =>
      cases htype : ev.type with
      | buf =>
        simp only [htype] at h
        obtain ⟨st, hst, h⟩ := bind_eq_ok.mp h
        obtain rfl := Except.ok.inj h
        exact ⟨hadv, Or.inr ⟨hloc, ev, rfl, Or.inl ⟨htype, hst⟩⟩⟩
      | death =>
        simp only [htype] at h
        obtain ⟨st, hst, h⟩ := bind_eq_ok.mp h
        obtain rfl := Except.ok.inj h
        exact ⟨hadv, Or.inr ⟨hloc, ev, rfl, Or.inr ⟨htype, hst⟩⟩⟩
      | malloc | free | tok | freeSized | realloc | memalign | end_ | syncBarrier =>
        simp [htype] at h
  | drain =>
    simp only [hloc] at h
    unfold stepDrain at h
    refine Or.inr (Or.inl ⟨rfl, ?_⟩)
    cases hheap : m.state.heap with
    | nil =>
      -- the heap has run empty
      simp only [hheap] at h
      obtain rfl := Except.ok.inj h
      exact ⟨rfl, Or.inl ⟨rfl, rfl, rfl⟩⟩
    | cons id heap =>
      simp only [hheap] at h
      obtain ⟨st, hst, h⟩ := bind_eq_ok.mp h
      obtain rfl := Except.ok.inj h
      exact ⟨rfl, Or.inr ⟨hloc, id, heap, rfl, hst⟩⟩
  | toDie todo next =>
    simp only [hloc] at h
    cases todo with
    | nil =>
      -- the loop over `to_die` has come to its end
      obtain rfl := Except.ok.inj h
      exact Or.inr (Or.inr (Or.inr (Or.inl ⟨next, rfl, rfl, rfl, rfl⟩)))
    | cons id todo =>
      simp only [stepToDie] at h
      obtain ⟨⟨carried, st⟩, hst, h⟩ := bind_eq_ok.mp h
      obtain rfl := Except.ok.inj h
      exact Or.inr (Or.inr (Or.inl ⟨id, todo, next, carried, rfl, rfl, hst, rfl⟩))
  | returned =>
    simp only [hloc] at h
    exact Or.inr (Or.inr (Or.inr (Or.inr ⟨rfl, (Except.ok.inj h).symm⟩)))

/-- The record loop runs while the end of the trace is not seen, and what is read is read by the
input alone. -/
structure Reads (env : Env) (mapper : M) (m : Machine M) : Prop where
  input : Input.Reached env mapper m.input
  goesOn : m.loc = .records → m.input.seenEnd = false

theorem Reads.step (h : Reads env mapper m) (hstep : m.step false env = .ok m') :
    Reads env mapper m' := by
  rcases step_cases hstep with ⟨hloc, item, hadv, hcases⟩ | ⟨-, hinput, hcases⟩ |
    ⟨id, todo, next, carried, -, hinput, -, hloc'⟩ | ⟨next, -, hinput, hloc', -⟩ | ⟨-, rfl⟩
  · refine ⟨h.input.advance (h.goesOn hloc) hadv, fun hloc' => ?_⟩
    rcases hcases with ⟨-, hdrain, -⟩ | ⟨-, ev, rfl, -⟩
    · rw [hdrain] at hloc'
      exact absurd hloc' (by simp)
    · rw [Input.advance_seenEnd hadv (by simp)]
      exact h.goesOn hloc
  · refine ⟨hinput ▸ h.input, fun hloc' => ?_⟩
    rcases hcases with ⟨-, hdie, -⟩ | ⟨hdrain, -⟩
    · rw [hdie] at hloc'
      exact absurd hloc' (by simp)
    · rw [hdrain] at hloc'
      exact absurd hloc' (by simp)
  · refine ⟨hinput ▸ h.input, fun hrec => ?_⟩
    rw [hloc'] at hrec
    exact absurd hrec (by simp)
  · refine ⟨hinput ▸ h.input, fun hrec => ?_⟩
    rw [hinput]
    rw [hloc'] at hrec
    by_contra hend
    simp [hend] at hrec
  · exact h

/-- **The serializer reads its input as the input alone does.** -/
theorem Reached.reads (h : Reached false env mapper m) : Reads env mapper m := by
  refine h.invariant (fun m hstart => ?_) fun m m' _ hI hstep => hI.step hstep
  unfold start at hstart
  obtain ⟨i, hi, hstart⟩ := bind_eq_ok.mp hstart
  obtain rfl := Except.ok.inj hstart
  refine ⟨⟨0, by rw [hi]; rfl⟩, fun _ => ?_⟩
  unfold Input.open_ at hi
  obtain ⟨⟨place, s⟩, -, hi⟩ := bind_eq_ok.mp hi
  dsimp only at hi
  split at hi
  · simp at hi
  · split at hi
    · simp at hi
    · obtain rfl := Except.ok.inj hi
      rfl

end Machine

end MallocTraceReplay
