import MallocTraceReplay.Stream.Equiv.RecordRoundTrip

/-!
# Truncated traces

When a trace is cut, `OuterEvStream::next` returns the records that lie wholly before the cut and
then false, unless the cut falls into a death behind its first word (`readsRecords_cut_iff`): the
second word of a death is read by `must_read_varint`, which panics.
-/

namespace MallocTraceReplay

open AltVarintCodec MallocTraceEncoder StepMachine

/-! ### Words that are cut -/

/-- An encoding that is cut is no varint. -/
theorem readVarint_take_encode {v : UInt64} {n : ℕ} (h : n < (encode v).length) :
    readVarint ((encode v).take n) = none := by
  obtain ⟨b, rest, hencode, hlength, -⟩ := encode_eq_cons v
  cases n with
  | zero => rfl
  | succ n =>
    rw [hencode, List.take_succ_cons, readVarint, if_pos]
    rw [hencode] at h hlength
    rw [List.length_cons, List.length_take, hlength]
    rw [List.length_cons] at h ⊢
    omega

/-- The word at the front of written words that are cut. -/
theorem readVarint_take_writeWords (w : UInt64) (ws : List UInt64) (rest : List UInt8) (n : ℕ) :
    readVarint ((writeWords (w :: ws) ++ rest).take n) =
      if (encode w).length ≤ n then some (w, (writeWords ws ++ rest).take (n - (encode w).length))
      else none := by
  have hcons : writeWords (w :: ws) ++ rest = encode w ++ (writeWords ws ++ rest) := by
    rw [writeWords, List.flatMap_cons, List.append_assoc]
    rfl
  rw [hcons, List.take_append]
  split
  · next hle => rw [List.take_of_length_le hle, readVarint_encode]
  · next hle =>
    rw [show n - (encode w).length = 0 by omega, List.take_zero, List.append_nil,
      readVarint_take_encode (by omega)]

/-! ### Records that are cut -/

/-- The cut is behind the first word of a death. -/
def OuterRecord.CutsDeath (r : OuterRecord) (n : ℕ) : Prop :=
  r.type = .death ∧ (writeWords (r.words.take 1)).length ≤ n

instance (r : OuterRecord) (n : ℕ) : Decidable (r.CutsDeath n) := by
  unfold OuterRecord.CutsDeath
  infer_instance

theorem length_writeWords_cons (w : UInt64) (ws : List UInt64) :
    (writeWords (w :: ws)).length = (encode w).length + (writeWords ws).length := by
  rw [writeWords, List.flatMap_cons, List.length_append]
  rfl

/-- **A record that is cut** is none, but for a death. -/
theorem nextRecord_take {r : OuterRecord} (hr : r.WellFormed) (hfits : r.write.length < 2 ^ 64)
    {n : ℕ} (hn : n < r.write.length) :
    nextRecord (r.write.take n) =
      if r.CutsDeath n then
        .error (.panic "trying to realize with min_amount beyond end of data")
      else .ok none := by
  obtain ⟨type, cpu, ts, threadId, body⟩ := r
  obtain ⟨⟨hts, hcpu⟩, htype⟩ := hr
  cases type with
  | malloc | free | tok | freeSized | realloc | memalign => exact htype.elim
  | end_ =>
    obtain ⟨rfl, rfl, rfl, rfl⟩ := htype
    have hno : ¬ (OuterRecord.mk .end_ 0 0 0 []).CutsDeath n := by
      rintro ⟨hdeath, -⟩
      simp at hdeath
    simp only [OuterRecord.write, OuterRecord.words, List.length_append,
      length_writeWords_cons] at hn
    rw [if_neg hno, nextRecord, OuterRecord.write, OuterRecord.words, readVarint_take_writeWords,
      if_neg (by simp [writeWords] at hn; omega)]
  | syncBarrier =>
    obtain ⟨rfl, rfl⟩ := htype
    have hno : ¬ (OuterRecord.mk .syncBarrier cpu ts 0 []).CutsDeath n := by
      rintro ⟨hdeath, -⟩
      simp at hdeath
    have htype : decodeType EventType.syncBarrier.code = EventType.syncBarrier.code := by decide
    simp only [OuterRecord.write, OuterRecord.words, encodeSyncBarrier, List.length_append,
      length_writeWords_cons] at hn
    rw [if_neg hno, nextRecord, OuterRecord.write]
    simp only [OuterRecord.words, encodeSyncBarrier, readVarint_take_writeWords]
    split
    · simp
    · next hv =>
      split at hv
      · obtain ⟨rfl, rfl⟩ := Prod.mk.inj (Option.some.inj hv)
        rw [htype, ofCode?_code]
        dsimp only
        rw [readVarint_take_writeWords, if_neg (by simp [writeWords] at hn; omega)]
      · simp at hv
  | death =>
    obtain ⟨hid, rfl⟩ := htype
    have htype := decodeType_extTagged .death threadId (by decide) (by decide)
    simp only [OuterRecord.write, OuterRecord.words, encodeDeath, List.length_append,
      length_writeWords_cons] at hn
    simp only [OuterRecord.CutsDeath, true_and, nextRecord, OuterRecord.write, OuterRecord.words,
      encodeDeath, readVarint_take_writeWords, List.take_succ_cons, List.take_zero,
      length_writeWords_cons]
    by_cases hfirst : (encode (threadId <<< kExtTypeShift ||| EventType.death.code)).length ≤ n
    · simp only [hfirst, if_true, htype, ofCode?_code, readVarint_take_writeWords]
      rw [if_neg (by simp [writeWords] at hn; omega), if_pos (by simpa [writeWords] using hfirst)]
    · simp only [hfirst, if_false]
      rw [if_neg (by simpa [writeWords] using hfirst)]
  | buf =>
    have hid : threadId.toNat < 2 ^ 61 := htype
    have htype := decodeType_tagged .buf threadId (by decide)
    have hno : ¬ (OuterRecord.mk .buf cpu ts threadId body).CutsDeath n := by
      rintro ⟨hdeath, -⟩
      simp at hdeath
    simp only [OuterRecord.write, OuterRecord.words, encodeBuffer, List.length_append,
      length_writeWords_cons] at hn hfits
    have hbody : (UInt64.ofNat body.length).toNat = body.length := by
      rw [UInt64.toNat_ofNat']
      omega
    have hshort : ∀ k < body.length, ¬ (UInt64.ofNat body.length).toNat ≤
        ((writeWords [] ++ body).take k).length := by
      intro k hk
      rw [hbody, List.length_take]
      omega
    rw [if_neg hno]
    simp only [nextRecord, OuterRecord.write, OuterRecord.words, encodeBuffer,
      readVarint_take_writeWords]
    split
    · simp
    · next hv =>
      split at hv
      · obtain ⟨rfl, rfl⟩ := Prod.mk.inj (Option.some.inj hv)
        simp only [htype, ofCode?_code, nextBufRecord, readVarint_take_writeWords]
        split
        · simp only [Option.bind_eq_bind, Option.bind_some, readVarint_take_writeWords]
          split
          · -- the buffer is not there as a whole
            refine congrArg Except.ok (if_neg (hshort _ ?_))
            have hnil : (writeWords []).length = 0 := rfl
            omega
          · rfl
        · rfl
      · simp at hv

/-- The words in front of a buffer that is cut declare no more than its own bytes. -/
theorem not_wrapsAround_take {r : OuterRecord} (hr : r.WellFormed) {place : UInt64}
    (hfits : place.toNat + r.write.length ≤ 2 ^ 63) (n : ℕ) :
    ¬ WrapsAround place (r.write.take n) := by
  intro hwraps
  obtain ⟨w, rest₁, w₂, rest₂, size, rest₃, hv, htype, hv₂, hv₃, hwraps⟩ :=
    wrapsAround_iff.mp hwraps
  obtain ⟨type, cpu, ts, threadId, body⟩ := r
  obtain ⟨-, hformed⟩ := hr
  -- the first word has the type of the record
  have hfirst : ∀ {w' : UInt64} {ws : List UInt64},
      (OuterRecord.mk type cpu ts threadId body).words = w' :: ws → w = w' ∧
        (encode w').length ≤ n ∧ rest₁ = (writeWords ws ++ body).take (n - (encode w').length) := by
    intro w' ws hwords
    rw [OuterRecord.write, hwords, readVarint_take_writeWords] at hv
    split at hv
    · next hle =>
      obtain ⟨rfl, rfl⟩ := Prod.mk.inj (Option.some.inj hv)
      exact ⟨rfl, hle, rfl⟩
    · simp at hv
  cases type with
  | malloc | free | tok | freeSized | realloc | memalign => exact hformed.elim
  | end_ =>
    rw [(hfirst rfl).1, show decodeType encodeEnd = EventType.end_.code by decide, ofCode?_code]
      at htype
    simp at htype
  | syncBarrier =>
    rw [(hfirst rfl).1,
      show decodeType EventType.syncBarrier.code = EventType.syncBarrier.code by decide,
      ofCode?_code] at htype
    simp at htype
  | death =>
    rw [(hfirst rfl).1, decodeType_extTagged .death _ (by decide) (by decide),
      ofCode?_code] at htype
    simp at htype
  | buf =>
    obtain ⟨-, hle₁, rfl⟩ := hfirst rfl
    rw [readVarint_take_writeWords] at hv₂
    split at hv₂
    · next hle₂ =>
      obtain ⟨-, rfl⟩ := Prod.mk.inj (Option.some.inj hv₂)
      rw [readVarint_take_writeWords] at hv₃
      split at hv₃
      · next hle₃ =>
        obtain ⟨rfl, rfl⟩ := Prod.mk.inj (Option.some.inj hv₃)
        have hsize := UInt64.toNat_ofNat' (n := body.length)
        have hmod := Nat.mod_le body.length (2 ^ 64)
        have hnil : (writeWords []).length = 0 := rfl
        simp only [OuterRecord.write, OuterRecord.words, encodeBuffer, List.length_append,
          length_writeWords_cons, List.length_take] at hfits hwraps hle₁ hle₂ hle₃
        omega
      · simp at hv₃
    · simp at hv₂

/-! ### Traces that are cut -/

/-- The records that lie wholly within the first bytes. -/
def wholeRecords (n : ℕ) : List OuterRecord → List OuterRecord
  | [] => []
  | r :: rs =>
    if r.write.length ≤ n then r :: wholeRecords (n - r.write.length) rs else []

/-- The first bytes end in a death, behind its first word. -/
def CutsDeath (n : ℕ) : List OuterRecord → Prop
  | [] => False
  | r :: rs => if r.write.length ≤ n then CutsDeath (n - r.write.length) rs else r.CutsDeath n

instance decidableCutsDeath : ∀ (n : ℕ) (records : List OuterRecord),
    Decidable (CutsDeath n records)
  | _, [] => inferInstanceAs (Decidable False)
  | n, r :: rs =>
    have := decidableCutsDeath (n - r.write.length) rs
    inferInstanceAs (Decidable (if r.write.length ≤ n then CutsDeath (n - r.write.length) rs
      else r.CutsDeath n))

namespace MemStream

variable {m : ConstMapper} {s s' : MemStream ConstMapper} {stack : StackBytes} {ev : OuterEvent}
  {r : OuterRecord}

/-- The bytes of a record stay in memory. -/
theorem Holds.of_mapper (h : Holds s ev r) (hmapper : s'.mapper = s.mapper) : Holds s' ev r := by
  refine ⟨h.type, h.cpu, h.ts, h.threadId, h.bufEnd, h.fits, fun i hi => ?_⟩
  rw [hmapper]
  exact h.bytes i hi

/-- What follows a record that was read. -/
theorem readsRecords_iff {ev₁ : OuterEvent} {s₁ : MemStream ConstMapper}
    (hnext : s.next stack ev = .ok (true, ev₁, s₁)) {evs : List OuterEvent} :
    ReadsRecords stack s ev evs s' ↔ ∃ evs', evs = ev₁ :: evs' ∧
      ReadsRecords stack s₁ ev₁ evs' s' := by
  constructor
  · intro h
    cases h with
    | none hno => simp [hnext] at hno
    | some hyes hrest =>
      rw [hnext] at hyes
      obtain ⟨rfl, rfl⟩ := Prod.mk.inj (Prod.mk.inj (Except.ok.inj hyes)).2
      exact ⟨_, rfl, hrest⟩
  · rintro ⟨evs', rfl, hrest⟩
    exact .some hnext hrest

/-- **A trace that is cut**, from a place on. -/
theorem Before.readsRecords_cut {records : List OuterRecord} (hall : ∀ r ∈ records, r.WellFormed)
    {n : ℕ} (h : Before m s ((records.flatMap OuterRecord.write).take n))
    (hstrict : s.permissiveAdvance = false)
    (hfits : s.ptr.toNat + (records.flatMap OuterRecord.write).length ≤ 2 ^ 63)
    (stack : StackBytes) (ev : OuterEvent) :
    (CutsDeath n records → ∀ evs s', ¬ ReadsRecords stack s ev evs s') ∧
      (¬ CutsDeath n records → ∃ evs s', ReadsRecords stack s ev evs s' ∧
        List.Forall₂ (fun r ev => Holds s ev r) (wholeRecords n records) evs) := by
  induction records generalizing s n ev with
  | nil =>
    refine ⟨False.elim, fun _ => ?_⟩
    rw [List.flatMap_nil, List.take_nil] at h
    obtain ⟨s', hnext⟩ := h.next_nil stack ev
    exact ⟨[], s', .none hnext, .nil⟩
  | cons r records ih =>
    -- the induction is on the records: the first of them is whole, or the cut is in it
    have hr := hall r (List.mem_cons_self ..)
    rw [List.flatMap_cons] at h hfits
    rw [List.length_append] at hfits
    rw [CutsDeath, wholeRecords]
    by_cases hwhole : r.write.length ≤ n
    · rw [if_pos hwhole, if_pos hwhole]
      rw [List.take_append, List.take_of_length_le hwhole] at h
      have hlen := h.bytes.fits
      have hrecord : nextRecord (r.write ++
          (records.flatMap OuterRecord.write).take (n - r.write.length)) = _ :=
        nextRecord_write hr (by omega)
      obtain ⟨ev₁, s₁, hnext, hholds, hs₁, -, hstrict₁⟩ := h.next_of_record hstrict hrecord stack ev
      have hends := h.ends
      have hends₁ := hs₁.ends
      rw [List.length_append] at hends
      obtain ⟨hcut, huncut⟩ := ih (fun r hr => hall r (List.mem_cons_of_mem _ hr)) hs₁ hstrict₁
        (by omega) ev₁
      refine ⟨fun hdeath evs s' hreads => ?_, fun hdeath => ?_⟩
      · obtain ⟨evs', -, hrest⟩ := (readsRecords_iff hnext).mp hreads
        -- the cut is in a later record, and what reads these reads the whole
        exact hcut hdeath evs' s' hrest
      · obtain ⟨evs, s', hreads, hholds'⟩ := huncut hdeath
        have hmapper : s.mapper = s₁.mapper := h.mapper.trans hs₁.mapper.symm
        exact ⟨ev₁ :: evs, s', .some hnext hreads, .cons (hholds.of_mapper hmapper)
          (hholds'.imp fun _ _ hholds => hholds.of_mapper hmapper)⟩
    · rw [if_neg hwhole, if_neg hwhole]
      rw [List.take_append, show n - r.write.length = 0 by omega, List.take_zero,
        -- only the beginning of this record is there, and nothing of the later ones
        List.append_nil] at h
      have hspec := next_eq (served_before m) h hstrict
        (h.nextShown hstrict (not_wrapsAround_take hr (by omega) n) stack) ev
      rw [nextRecord_take hr (by omega) (by omega)] at hspec
      by_cases hdeath : r.CutsDeath n
      · -- a `Death` that lacks its second word ends in a panic, and no record counts as read
        rw [if_pos hdeath] at hspec
        refine ⟨fun _ evs s' hreads => ?_, fun hno => absurd hdeath hno⟩
        cases hreads with
        | none hno => simp [hspec] at hno
        | some hyes => simp [hspec] at hyes
      · -- every other record that is cut looks like the end of the trace
        rw [if_neg hdeath] at hspec
        obtain ⟨ev', s', hnext⟩ := hspec
        exact ⟨fun hno => absurd hno hdeath, fun _ => ⟨[], s', .none hnext, .nil⟩⟩

/-- **Truncated traces.**  The records that lie wholly before the cut are returned, with their
fields and buffers, and then false, just when the cut is not behind the first word of a death. -/
theorem readsRecords_cut_iff {b : UInt64} {records : List OuterRecord}
    (hall : ∀ r ∈ records, r.WellFormed)
    (hfits : b.toNat + (records.flatMap OuterRecord.write).length ≤ 2 ^ 63) (cut : ℕ)
    (stack : StackBytes) (ev : OuterEvent) :
    (∃ evs s', ReadsRecords stack
        (new (ConstMapper.ofBytes b ((records.flatMap OuterRecord.write).take cut))) ev evs s' ∧
      List.Forall₂ (fun r ev => Holds
          (new (ConstMapper.ofBytes b ((records.flatMap OuterRecord.write).take cut))) ev r)
        (wholeRecords cut records) evs) ↔ ¬ CutsDeath cut records := by
  have hnew : Before (.ofBytes b ((records.flatMap OuterRecord.write).take cut))
      (new (ConstMapper.ofBytes b ((records.flatMap OuterRecord.write).take cut)))
      ((records.flatMap OuterRecord.write).take cut) := by
    refine before_new ?_
    rw [List.length_take]
    omega
  obtain ⟨hcut, huncut⟩ := hnew.readsRecords_cut hall rfl hfits stack ev
  constructor
  · rintro ⟨evs, s', hreads, -⟩ hdeath
    exact hcut hdeath evs s' hreads
  · exact huncut

/-- A barrier, a buffer and a death. -/
def deathAtEnd : List OuterRecord :=
  [⟨.syncBarrier, 1, 2048, 0, []⟩, ⟨.buf, 3, 4096, 1, [0, 1, 2]⟩, ⟨.death, 3, 4096, 1, []⟩]

theorem wellFormed_deathAtEnd : ∀ r ∈ deathAtEnd, r.WellFormed := by
  simp [deathAtEnd, OuterRecord.WellFormed]

/-- The cut is within the first word of the death. -/
theorem readsRecords_cut_iff_deathAtEnd :
    ∃ evs s', ReadsRecords (fun _ _ => 0)
        (new (ConstMapper.ofBytes 0x10000 ((deathAtEnd.flatMap OuterRecord.write).take 11))) .zero
        evs s' ∧
      List.Forall₂ (fun r ev => Holds
          (new (ConstMapper.ofBytes 0x10000 ((deathAtEnd.flatMap OuterRecord.write).take 11))) ev r)
        (deathAtEnd.take 2) evs :=
  (readsRecords_cut_iff wellFormed_deathAtEnd (by decide) 11 (fun _ _ => 0) .zero).mpr (by decide)

/-- **A panic**: the cut is between the words of the death. -/
theorem next_cut_panics :
    (do
      let (_, ev, s) ← (new (ConstMapper.ofBytes 0x10000
        ((deathAtEnd.flatMap OuterRecord.write).take 12))).next (fun _ _ => 0) .zero
      let (_, ev, s) ← s.next (fun _ _ => 0) ev
      let (ok, _, _) ← s.next (fun _ _ => 0) ev
      return ok : Except Abort Bool) =
        .error (.panic "trying to realize with min_amount beyond end of data") ∧
    ∀ evs s', ¬ ReadsRecords (fun _ _ => 0)
      (new (ConstMapper.ofBytes 0x10000 ((deathAtEnd.flatMap OuterRecord.write).take 12))) .zero
      evs s' := by
  refine ⟨by decide +kernel, ?_⟩
  have hnew : Before (.ofBytes 0x10000 ((deathAtEnd.flatMap OuterRecord.write).take 12)) _ _ :=
    before_new (by decide)
  exact (hnew.readsRecords_cut wellFormed_deathAtEnd rfl (by decide) _ .zero).1 (by decide)

end MemStream

end MallocTraceReplay
