import MallocTraceReplay.Serializer.Equiv.StreamCounts
import MallocTraceReplay.Stream.Equiv.NextProgress

/-!
# Reading a written trace

The input stands before the records that are still to be read, and every thread has recorded what
its records so far mean (`Input.Midway`); at the end it has recorded what all of them mean
(`Input.Told`).  A thread dies after its last buffer (`ProgramTrace`).
-/

namespace MallocTraceReplay

open StepMachine MallocTraceEncoder MemStream History

/-! ### The records of a program -/

/-- What a record is, apart from its times and its events. -/
inductive Mark
  | buf (threadId : UInt64)
  | death (threadId : UInt64)
  | batchEnd
  deriving DecidableEq

def TraceRecord.mark : TraceRecord → Mark
  | .buf threadId _ _ _ => .buf threadId
  | .death threadId _ _ => .death threadId
  | .syncBarrier _ _ | .end_ => .batchEnd

def Item.mark? : Item → Option Mark
  | .record ev =>
    match ev.type with
    | .buf => some (.buf ev.threadId)
    | .death => some (.death ev.threadId)
    | _ => none
  | .batchEnd => some .batchEnd

/-- The records before the end of a trace: a thread has had a buffer when it dies, and no record
after that. -/
structure ProgramTrace (body : List TraceRecord) : Prop where
  bounded : ∀ r ∈ body, r.Bounded
  goesOn : ∀ r ∈ body, r ≠ .end_
  hadBuf : ForAllCuts (fun before r => ∀ id, r.mark = .death id →
    ∃ earlier ∈ before, earlier.mark = .buf id) body
  deathsLast : body.Pairwise fun r later => ∀ id, r.mark = .death id →
    later.mark ≠ .buf id ∧ later.mark ≠ .death id

/-- What some records mean, and then others. -/
theorem recordsMean_append (id : UInt64) (k : Meaning) (rs rs' : List TraceRecord) :
    recordsMean id k (rs ++ rs') =
      ((recordsMean id k rs).1 ++ (recordsMean id (recordsMean id k rs).2 rs').1,
        (recordsMean id (recordsMean id k rs).2 rs').2) := by
  induction rs generalizing k with
  | nil => rfl
  | cons r rs ih =>
    cases r with
    | death | syncBarrier | end_ => exact ih k
    | buf threadId ts cpu events =>
      by_cases hid : threadId = id
      · simp only [List.cons_append, recordsMean, hid, if_true, ih, List.append_assoc]
      · simp only [List.cons_append, recordsMean, hid, if_false, ih]

namespace Input

variable {env : Env} {b : UInt64} {data bytes rest : List UInt8} {i i' : Input ConstMapper}
  {body done suffix : List TraceRecord} {r : TraceRecord}

/-! ### One record -/

/-- The first of the records that are left is found. -/
theorem Stands.nextRecord_eq {st : UInt64 → EncoderState} {more : List TraceRecord}
    (h : i.Stands b data (writeRecords st (r :: more))) (hr : r.Bounded) :
    nextRecord (writeRecords st (r :: more)) =
      .ok (some (r.outer st, writeRecords (writeRecord st r).2 more)) := by
  have hlen := h.before.bytes.fits
  refine nextRecord_writeRecord hr ?_
  change _ + ((writeRecord st r).1 ++ _).length ≤ _ at hlen
  omega

/-- **A record of a trace in memory** is read; a buffer or a death is handed on. -/
theorem Stands.advance_record (h : i.Stands b data bytes) {record : OuterRecord}
    (hrecord : nextRecord bytes = .ok (some (record, rest))) (env : Env) :
    (record.type = .buf ∨ record.type = .death → ∃ ev i',
      i.advance false env = .ok (.record ev, i') ∧ i'.read = i.read ++ [.record ev] ∧
      MemStream.Holds i'.s ev record ∧ i'.Stands b data rest) ∧
    (record.type = .syncBarrier → ∃ i', i.advance false env = .ok (.batchEnd, i') ∧
      i'.read = i.read ++ [.batchEnd] ∧ i'.Stands b data rest) ∧
    (record.type = .end_ → ∃ i', i.advance false env = .ok (.batchEnd, i') ∧
      i'.read = i.read ++ [.batchEnd] ∧ i'.seenEnd = true) := by
  obtain ⟨ev, s, hnext, hholds, hs, hle, hstrict⟩ :=
    h.before.next_of_record h.strict hrecord env.stack i.ev
  have hends := h.before.ends
  have hends' := hs.ends
  have hfewer := nextRecord_length_lt hrecord
  -- every barrier is at a place that was passed
  have hbarriers : ∀ j, b.toNat ≤ (i.lastBarriers j).toNat ∧
      (i.lastBarriers j).toNat ≤ s.ptr.toNat :=
    fun j => ⟨(h.barriers j).1, (h.barriers j).2.trans (by omega)⟩
  unfold Input.advance
  rw [hnext, ok_bind]
  simp only [Bool.not_true, Bool.false_eq_true, if_false]
  refine ⟨fun htype => ?_, fun htype => ?_, fun htype => ?_⟩
  · -- a record that the serializer works on
    rw [← hholds.type] at htype
    rw [if_neg (by rcases htype with hbuf | hdeath <;> simp [*])]
    exact ⟨ev, _, rfl, rfl, hholds, ⟨hs, hstrict, h.goesOn, hbarriers⟩⟩
  · -- a barrier: what `unrealize_up_to` gives back lies before the stream
    have hsync : ev.type = .syncBarrier := hholds.type.trans htype
    obtain ⟨s', hback, hs', hptr, hperm⟩ := hs.unrealizeUpTo_eq hle
      (hbarriers (i.lastBarriersIndex + 1)).1 (hbarriers (i.lastBarriersIndex + 1)).2 false
    rw [if_pos (Or.inr hsync), finishBatch, if_neg (by simp [hsync])]
    dsimp only
    rw [hback]
    refine ⟨_, rfl, rfl, hs', hperm.trans hstrict, h.goesOn, fun j => ?_⟩
    dsimp only
    rw [hptr]
    -- the new bound of the ring is the place of the stream, the others stay
    split
    · exact ⟨hs.begin_le, Nat.le_refl _⟩
    · exact hbarriers j
  · -- the end: no memory is given back any more
    have hend : ev.type = .end_ := hholds.type.trans htype
    rw [if_pos (Or.inl hend), finishBatch, if_pos hend]
    exact ⟨_, rfl, rfl, rfl⟩

/-! ### The records of a trace -/

/-- The input stands before the last records of a trace, and the threads have recorded what the
others mean. -/
structure Midway (env : Env) (b : UInt64) (data : List UInt8) (body done suffix : List TraceRecord)
    (i : Input ConstMapper) : Prop where
  split : done ++ suffix = body
  stands : ∃ st, i.Stands b data (writeRecords st (suffix ++ [.end_])) ∧
    ∀ id, (∀ r ∈ done, r.mark ≠ .death id) → ∃ t, recorded env
      (ConstMapper.ofBytes b data).mem i.read id = ((recordsMean id (.init env) done).1, .ok t) ∧
        InStep (st id) (recordsMean id (.init env) done).2 t
  events : ∀ id, ∃ t, recorded env (ConstMapper.ofBytes b data).mem i.read id =
    ((recordsMean id (.init env) done).1, .ok t)
  marks : i.read.map Item.mark? = done.map fun r => some r.mark

/-- The threads have recorded what the records of a trace mean. -/
structure Told (env : Env) (b : UInt64) (data : List UInt8) (body : List TraceRecord)
    (i : Input ConstMapper) : Prop where
  events : ∀ id, ∃ t, recorded env (ConstMapper.ofBytes b data).mem i.read id =
    ((recordsMean id (.init env) body).1, .ok t)
  marks : i.read.map Item.mark? = (body ++ [TraceRecord.end_]).map fun r => some r.mark

theorem Midway.seenEnd (h : i.Midway env b data body done suffix) : i.seenEnd = false := by
  obtain ⟨st, hstands, -⟩ := h.stands
  exact hstands.goesOn

/-- A thread that has a buffer now has not died. -/
theorem Midway.alive (h : i.Midway env b data body done (r :: suffix)) (hbody : ProgramTrace body)
    {id : UInt64} (hr : r.mark = .buf id) : ∀ r' ∈ done, r'.mark ≠ .death id := by
  intro r' hr' hdeath
  have hlast := hbody.deathsLast
  rw [← h.split] at hlast
  exact ((List.pairwise_append.mp hlast).2.2 r' hr' r (List.mem_cons_self ..) id hdeath).1 hr

/-- **The next record** is read. -/
theorem Midway.advance (h : i.Midway env b data body done (r :: suffix))
    (hbody : ProgramTrace body) :
    ∃ item i', i.advance false env = .ok (item, i') ∧
      i'.Midway env b data body (done ++ [r]) suffix := by
  obtain ⟨st, hstands, htold⟩ := h.stands
  have hmem : r ∈ body := by
    rw [← h.split]
    exact List.mem_append_right _ (List.mem_cons_self ..)
  have hr := hbody.bounded r hmem
  obtain ⟨hrecord, hsync, -⟩ := hstands.advance_record (hstands.nextRecord_eq hr) env
  have hsplit : done ++ [r] ++ suffix = body := by
    rw [List.append_assoc]
    exact h.split
  cases r with
  | end_ => exact absurd rfl (hbody.goesOn .end_ hmem)
  | syncBarrier ts cpu =>
    obtain ⟨i', hadv, hread, hstands'⟩ := hsync rfl
    have hsame : ∀ id, recorded env (ConstMapper.ofBytes b data).mem i'.read id =
        recorded env (ConstMapper.ofBytes b data).mem i.read id := by
      intro id
      rw [hread, recorded_batchEnd]
    have hmean : ∀ id, recordsMean id (.init env) (done ++ [.syncBarrier ts cpu]) =
        recordsMean id (.init env) done := by
      intro id
      rw [recordsMean_append]
      simp [recordsMean]
    refine ⟨_, i', hadv, hsplit, ⟨_, hstands', fun id halive => ?_⟩, fun id => ?_, ?_⟩
    · rw [hsame, hmean]
      exact htold id fun r' hr' => halive r' (List.mem_append_left _ hr')
    · rw [hsame, hmean]
      exact h.events id
    · rw [hread, List.map_append, List.map_append, h.marks]
      rfl
  | death threadId ts cpu =>
    obtain ⟨ev, i', hadv, hread, hholds, hstands'⟩ := hrecord (Or.inr rfl)
    obtain ⟨htype, hid, -⟩ := TraceRecord.returned_of_holds hr hholds
    have hmean : ∀ id, recordsMean id (.init env) (done ++ [.death threadId ts cpu]) =
        recordsMean id (.init env) done := by
      intro id
      rw [recordsMean_append]
      simp [recordsMean]
    have hother : ∀ id, threadId ≠ id → recorded env (ConstMapper.ofBytes b data).mem i'.read id =
        recorded env (ConstMapper.ofBytes b data).mem i.read id := by
      intro id hne
      rw [hread, recorded_append, recordItem, if_neg (by rwa [hid])]
    refine ⟨_, i', hadv, hsplit, ⟨_, hstands', fun id halive => ?_⟩, fun id => ?_, ?_⟩
    · have hne : threadId ≠ id := fun heq =>
        halive (.death threadId ts cpu) (by simp) (by rw [heq]; rfl)
      rw [hother id hne, hmean]
      exact htold id fun r' hr' => halive r' (List.mem_append_left _ hr')
    · obtain ⟨t, hrecorded⟩ := h.events id
      by_cases hmine : threadId = id
      · refine ⟨freshState env id, ?_⟩
        rw [hread, recorded_append, hrecorded, recordItem, if_pos (hid.trans hmine), htype, hmean]
        simp [Decoding.andThen, Decoding.pure]
      · rw [hother id hmine, hmean]
        exact ⟨t, hrecorded⟩
    · rw [hread, List.map_append, List.map_append, h.marks]
      simp [Item.mark?, TraceRecord.mark, htype, hid]
  | buf threadId ts cpu events =>
    obtain ⟨ev, i', hadv, hread, hholds, hstands'⟩ := hrecord (Or.inl rfl)
    obtain ⟨htype, hid, hts, hcpu⟩ := TraceRecord.returned_of_holds hr hholds
    -- what the buffer adds
    have hown : ∃ t, recorded env (ConstMapper.ofBytes b data).mem i'.read threadId =
        ((recordsMean threadId (.init env) (done ++ [.buf threadId ts cpu events])).1, .ok t) ∧
        InStep ((writeRecord st (.buf threadId ts cpu events)).2 threadId)
          (recordsMean threadId (.init env) (done ++ [.buf threadId ts cpu events])).2 t := by
      obtain ⟨t, hrecorded, hstep⟩ := htold threadId (h.alive hbody rfl)
      have hbytes := bufBytes_of_holds hholds hstands'.mem_eq
      obtain ⟨t₁, hevents, hstep₁⟩ := decodeBytes_writeEvents hstep hr.2.2.2
      have hdecode : decodeBuf (ConstMapper.ofBytes b data).mem ev t =
          ((eventsMean (recordsMean threadId (.init env) done).2 events).1,
            .ok (t₁.updateWithBuf ev)) := by
        rw [decodeBuf, hbytes]
        show (decodeBytes t (writeEvents (st threadId) events).1).andThen _ = _
        rw [hevents]
        simp [Decoding.andThen, Decoding.pure]
      have hst : (writeRecord st (.buf threadId ts cpu events)).2 threadId =
          (writeEvents (st threadId) events).2 := by simp [writeRecord]
      refine ⟨t₁.updateWithBuf ev, ?_, ?_⟩
      · rw [hread, recorded_append, hrecorded, recordItem, if_pos hid, htype, recordsMean_append]
        simp only [Decoding.andThen, hdecode, recordsMean, if_true, List.append_nil]
      · rw [hst, recordsMean_append]
        simp only [recordsMean, if_true]
        exact hstep₁.updateWithBuf hts hcpu
    have hother : ∀ id, threadId ≠ id →
        recorded env (ConstMapper.ofBytes b data).mem i'.read id =
          recorded env (ConstMapper.ofBytes b data).mem i.read id ∧
        recordsMean id (.init env) (done ++ [.buf threadId ts cpu events]) =
          recordsMean id (.init env) done ∧
        (writeRecord st (.buf threadId ts cpu events)).2 id = st id := by
      intro id hne
      refine ⟨?_, ?_, by simp [writeRecord, Ne.symm hne]⟩
      · rw [hread, recorded_append, recordItem, if_neg (by rwa [hid])]
      · rw [recordsMean_append]
        simp [recordsMean, hne]
    refine ⟨_, i', hadv, hsplit, ⟨_, hstands', fun id halive => ?_⟩, fun id => ?_, ?_⟩
    · by_cases hmine : threadId = id
      · subst hmine
        exact hown
      · obtain ⟨hsame, hmean, hst⟩ := hother id hmine
        rw [hsame, hmean, hst]
        exact htold id fun r' hr' => halive r' (List.mem_append_left _ hr')
    · by_cases hmine : threadId = id
      · subst hmine
        obtain ⟨t, hrecorded, -⟩ := hown
        exact ⟨t, hrecorded⟩
      · obtain ⟨hsame, hmean, -⟩ := hother id hmine
        rw [hsame, hmean]
        exact h.events id
    · rw [hread, List.map_append, List.map_append, h.marks]
      simp [Item.mark?, TraceRecord.mark, htype, hid]

/-- **The end record** is read. -/
theorem Midway.advance_end (h : i.Midway env b data body done []) :
    ∃ i', i.advance false env = .ok (.batchEnd, i') ∧ i'.seenEnd = true ∧
      i'.Told env b data body := by
  obtain ⟨st, hstands, -⟩ := h.stands
  have hnext := Stands.nextRecord_eq (r := .end_) hstands trivial
  obtain rfl : done = body := (List.append_nil done).symm.trans h.split
  obtain ⟨i', hadv, hread, hend⟩ := (hstands.advance_record hnext env).2.2 rfl
  refine ⟨i', hadv, hend, fun id => ?_, ?_⟩
  · rw [hread, recorded_batchEnd]
    exact h.events id
  · rw [hread, List.map_append, List.map_append, h.marks]
    rfl

/-! ### The whole trace -/

/-- A written trace is opened. -/
theorem exists_midway (env : Env) (body : List TraceRecord)
    (hfits : b.toNat + (writeTrace (body ++ [.end_])).length ≤ 2 ^ 63) :
    ∃ i, open_ env (ConstMapper.ofBytes b (writeTrace (body ++ [.end_]))) = .ok i ∧
      i.Midway env b (writeTrace (body ++ [.end_])) body [] body := by
  obtain ⟨i, hopen, hstands, hread⟩ := exists_open_stream env
    (writeRecords (fun _ => .init) (body ++ [.end_])) hfits
  refine ⟨i, hopen, rfl, ⟨_, hstands, fun id _ => ?_⟩, fun id => ?_, ?_⟩
  · rw [hread]
    exact ⟨_, rfl, inStep_init env id⟩
  · rw [hread]
    exact ⟨_, rfl⟩
  · rw [hread]
    rfl

/-- **Wherever the reading of a written trace is**, it is on its way, or at the end. -/
theorem Reached.midway_told (hfits : b.toNat + (writeTrace (body ++ [.end_])).length ≤ 2 ^ 63)
    (hbody : ProgramTrace body)
    (hi : Reached env (ConstMapper.ofBytes b (writeTrace (body ++ [.end_]))) i) :
    (i.seenEnd = false → ∃ done suffix,
      i.Midway env b (writeTrace (body ++ [.end_])) body done suffix) ∧
    (i.seenEnd = true → i.Told env b (writeTrace (body ++ [.end_])) body) := by
  obtain ⟨i₀, hopen₀, hmidway₀⟩ := exists_midway env body hfits
  refine hi.invariant (I := fun i => (i.seenEnd = false → ∃ done suffix,
    i.Midway env b _ body done suffix) ∧ (i.seenEnd = true → i.Told env b _ body))
    (fun i hopen => ?_) fun i item i' hI hend hadv => ?_
  · rw [hopen₀] at hopen
    obtain rfl := Except.ok.inj hopen
    exact ⟨fun _ => ⟨[], body, hmidway₀⟩, fun hend => by simp [hmidway₀.seenEnd] at hend⟩
  · obtain ⟨done, suffix, hmidway⟩ := hI.1 hend
    cases suffix with
    | nil =>
      obtain ⟨i₁, hadv₁, hend₁, htold⟩ := hmidway.advance_end
      rw [hadv] at hadv₁
      obtain rfl := (Prod.mk.inj (Except.ok.inj hadv₁)).2
      exact ⟨by simp [hend₁], fun _ => htold⟩
    | cons r suffix =>
      obtain ⟨item₁, i₁, hadv₁, hmidway₁⟩ := hmidway.advance hbody
      rw [hadv] at hadv₁
      obtain rfl := (Prod.mk.inj (Except.ok.inj hadv₁)).2
      exact ⟨fun _ => ⟨_, suffix, hmidway₁⟩, by simp [hmidway₁.seenEnd]⟩

/-- The reading goes on to the end. -/
theorem Midway.exists_seenEnd (h : i.Midway env b data body done suffix)
    (hbody : ProgramTrace body) :
    ∃ n i', iterate (step false env) n i = .ok i' ∧ i'.seenEnd = true := by
  have hstep : ∀ {i i' : Input ConstMapper} {item}, i.seenEnd = false →
      i.advance false env = .ok (item, i') → i.step false env = .ok i' := by
    intro i i' item hend hadv
    rw [step, hend, if_neg Bool.false_ne_true, hadv]
    rfl
  induction suffix generalizing i done with
  | nil =>
    obtain ⟨i', hadv, hend, -⟩ := h.advance_end
    exact ⟨1, i', by rw [iterate_succ, hstep h.seenEnd hadv]; rfl, hend⟩
  | cons r suffix ih =>
    obtain ⟨item, i₁, hadv, h₁⟩ := h.advance hbody
    obtain ⟨n, i', hrun, hend⟩ := ih h₁
    exact ⟨n + 1, i', by rw [iterate_succ, hstep h.seenEnd hadv]; exact hrun, hend⟩

/-- **A written trace is read to its end.** -/
theorem exists_seenEnd (env : Env)
    (hfits : b.toNat + (writeTrace (body ++ [.end_])).length ≤ 2 ^ 63)
    (hbody : ProgramTrace body) :
    ∃ i, Reached env (ConstMapper.ofBytes b (writeTrace (body ++ [.end_]))) i ∧
      i.seenEnd = true := by
  obtain ⟨i₀, hopen, hmidway⟩ := exists_midway env body hfits
  obtain ⟨n, i, hrun, hend⟩ := hmidway.exists_seenEnd hbody
  exact ⟨i, ⟨n, by rw [hopen]; exact hrun⟩, hend⟩

end Input

end MallocTraceReplay
