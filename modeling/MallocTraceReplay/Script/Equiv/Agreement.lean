import MallocTraceReplay.Script.Equiv.Buffers

/-!
# Where the script and the decode functions agree

On a stream that a writer gives, the script has the records and events that the decode functions
have exactly when every word is below `2^56`, no event is a `Realloc`, and each death is that of a
thread with a buffer since its last one (`agrees_iff`).
-/

namespace MallocTraceReplay

open AltVarintCodec MallocTraceEncoder StepMachine

namespace Script

namespace EventsStream

variable {s s' : EventsStream} {states : ℤ → Option ThreadState} {bytes rest : List UInt8}
  {w w₂ x : UInt64} {ws : List UInt64}

/-! ### Streams at a record -/

/-- The stream stands before a record; a buffer is used up. -/
structure AtRecord (s : EventsStream) (bytes : List UInt8) : Prop where
  done : s.done = false
  buf : s.buf = none ∨ s.buf = some []
  main : s.main = bytes

/-- The stream reads from `@main_io`. -/
structure OnMain (s : EventsStream) (states : ℤ → Option ThreadState) (bytes : List UInt8) :
    Prop where
  done : s.done = false
  buf : s.buf = none
  main : s.main = bytes
  threadStates : s.threadStates = states

theorem OnMain.io (h : OnMain s states bytes) : s.io = bytes := by
  rw [EventsStream.io, h.buf]
  exact h.main

theorem OnMain.setIo (h : OnMain s states bytes) (rest : List UInt8) :
    OnMain (s.setIo rest) states rest := by
  have hset : s.setIo rest = { s with main := rest } := by
    unfold EventsStream.setIo
    rw [h.buf]
  rw [hset]
  exact ⟨h.done, h.buf, rfl, h.threadStates⟩

theorem OnMain.atRecord (h : OnMain s states bytes) : AtRecord s bytes :=
  ⟨h.done, .inl h.buf, h.main⟩

/-- The stream goes on at `@main_io`. -/
theorem AtRecord.refill (h : AtRecord s (writeWords (w :: ws) ++ rest)) :
    ∃ s₁, s.refill = .ok s₁ ∧ OnMain s₁ s.threadStates (writeWords (w :: ws) ++ rest) := by
  have hmain : s.main.isEmpty = false := by rw [h.main, isEmpty_writeWords_append]
  unfold EventsStream.refill
  rcases h.buf with hbuf | hbuf
  · have hio : s.io = s.main := by
      rw [EventsStream.io, hbuf]
      rfl
    rw [hio, hmain, if_neg (by simp)]
    exact ⟨s, rfl, h.done, hbuf, h.main, rfl⟩
  · have hio : s.io = [] := by
      rw [EventsStream.io, hbuf]
      rfl
    rw [hio, hmain]
    exact ⟨_, rfl, h.done, rfl, h.main, rfl⟩

/-! ### Heads of records -/

/-- The time and cpu of a word. -/
theorem OnMain.readTsAndCpu (h : OnMain s states (writeWords (w :: ws) ++ rest))
    (hw : w.toNat < 2 ^ 56) :
    s.readTsAndCpu =
      .ok ((toInt (w &&& kTSMask), toInt (w &&& ~~~kTSMask)), s.setIo (writeWords ws ++ rest)) := by
  rw [EventsStream.readTsAndCpu, readVarint_of_lt h.io hw, ok_bind, ← land_ts, ← land_cpu]
  rfl

theorem OnMain.readTsAndCpu_of_ge (h : OnMain s states (writeWords (w :: ws) ++ rest))
    (hw : 2 ^ 56 ≤ w.toNat) : ∃ e, s.readTsAndCpu = .error e := by
  obtain ⟨e, he⟩ := readVarint_of_ge h.io hw
  exact ⟨e, by rw [EventsStream.readTsAndCpu, he]; rfl⟩

/-- A record whose head begins with a word for its type and one for its time. -/
theorem AtRecord.next_two (h : AtRecord s (writeWords (w :: w₂ :: ws) ++ rest)) {code : ℕ}
    (hfirst : ∀ s₁ s₂ : EventsStream, s.refill = .ok s₁ → s₁.readVarint = .ok (w.toNat, s₂) →
      s.next = s₂.nextCase w.toNat x.toNat code)
    (f : (ℤ × ℤ) × EventsStream → Except Raised (StreamEvent ℤ × EventsStream))
    (hcase : ∀ s₂ : EventsStream, s₂.buf = none →
      s₂.nextCase w.toNat x.toNat code = s₂.readTsAndCpu >>= f) :
    (2 ^ 56 ≤ w.toNat ∨ 2 ^ 56 ≤ w₂.toNat → ∃ e, s.next = .error e) ∧
      (w.toNat < 2 ^ 56 → w₂.toNat < 2 ^ 56 →
        ∃ s', OnMain s' s.threadStates (writeWords ws ++ rest) ∧
          s.next = f ((toInt (w₂ &&& kTSMask), toInt (w₂ &&& ~~~kTSMask)), s')) := by
  obtain ⟨s₁, hrefill, hs₁⟩ := h.refill
  have hs₂ := hs₁.setIo (writeWords (w₂ :: ws) ++ rest)
  by_cases hw : w.toNat < 2 ^ 56
  · have hnext := hfirst _ _ hrefill (readVarint_of_lt hs₁.io hw)
    rw [hcase _ hs₂.buf] at hnext
    constructor
    · intro hlong
      have hw₂ : 2 ^ 56 ≤ w₂.toNat := hlong.resolve_left (Nat.not_le.mpr hw)
      obtain ⟨e, he⟩ := hs₂.readTsAndCpu_of_ge hw₂
      exact ⟨e, by rw [hnext, he]; rfl⟩
    · intro _ hw₂
      refine ⟨_, hs₂.setIo _, ?_⟩
      rw [hnext, hs₂.readTsAndCpu hw₂]
      rfl
  · refine ⟨fun _ => next_of_ge h.done hrefill hs₁.io (Nat.le_of_not_lt hw), fun hshort => ?_⟩
    exact absurd hshort hw

/-- The end of a stream. -/
theorem AtRecord.next_end (h : AtRecord s endBytes) :
    ∃ s', s.next = .ok (.end_, s') ∧ s'.done = true := by
  have hbytes : endBytes = writeWords (encodeEnd :: []) ++ [] := by
    rw [List.append_nil]
    rfl
  rw [hbytes] at h
  obtain ⟨s₁, hrefill, hs₁⟩ := h.refill
  have hread := readVarint_of_lt hs₁.io (show encodeEnd.toNat < 2 ^ 56 by decide)
  have hnext := next_extTagged h.done hrefill .end_ (x := 0) (by decide) (by decide) (by decide)
    hread
  exact ⟨_, hnext, rfl⟩

variable {threadId tsAndCpu : UInt64} {events : List (EncoderState × InnerRecord)}

/-- A sync barrier. -/
theorem AtRecord.next_syncBarrier
    (h : AtRecord s (writeWords (EncodedRecord.syncBarrier tsAndCpu).headWords ++ rest)) :
    ((∃ w ∈ (EncodedRecord.syncBarrier tsAndCpu).headWords, 2 ^ 56 ≤ w.toNat) →
      ∃ e, s.next = .error e) ∧
    ((∀ w ∈ (EncodedRecord.syncBarrier tsAndCpu).headWords, w.toNat < 2 ^ 56) →
      ∃ s', OnMain s' s.threadStates rest ∧ s.next =
        .ok (.syncBarrier (toInt (tsAndCpu &&& kTSMask)) (toInt (tsAndCpu &&& ~~~kTSMask)),
          s')) := by
  have hword : EventType.syncBarrier.code = ((0 : UInt64) <<< kExtTypeShift) |||
    EventType.syncBarrier.code := by decide
  have hhead : (EncodedRecord.syncBarrier tsAndCpu).headWords =
      [((0 : UInt64) <<< kExtTypeShift) ||| EventType.syncBarrier.code, tsAndCpu] := by
    rw [← hword]
    rfl
  rw [hhead] at h ⊢
  have hnext := h.next_two (fun s₁ s₂ hrefill hread =>
    next_extTagged h.done hrefill .syncBarrier (by decide) (by decide) (by decide) hread)
    (fun p => .ok (.syncBarrier p.1.1 p.1.2, p.2)) (fun _ _ => rfl)
  constructor
  · intro hlong
    exact hnext.1 (by simpa using hlong)
  · intro hshort
    exact hnext.2 (hshort _ (by simp)) (hshort _ (by simp))

/-- The death of a thread. -/
theorem AtRecord.next_death (hid : threadId.toNat < 2 ^ 56)
    (h : AtRecord s (writeWords (EncodedRecord.death threadId tsAndCpu).headWords ++ rest)) :
    ((∃ w ∈ (EncodedRecord.death threadId tsAndCpu).headWords, 2 ^ 56 ≤ w.toNat) →
      ∃ e, s.next = .error e) ∧
    (s.threadStates (toInt threadId) = none → ∃ e, s.next = .error e) ∧
    ((∀ w ∈ (EncodedRecord.death threadId tsAndCpu).headWords, w.toNat < 2 ^ 56) →
      s.threadStates (toInt threadId) ≠ none →
      ∃ s', OnMain s' (fun id => if id = toInt threadId then none else s.threadStates id) rest ∧
        s.next = .ok (.death (toInt threadId) (toInt (tsAndCpu &&& kTSMask))
          (toInt (tsAndCpu &&& ~~~kTSMask)), s')) := by
  have hhead : (EncodedRecord.death threadId tsAndCpu).headWords =
      [(threadId <<< kExtTypeShift) ||| EventType.death.code, tsAndCpu] := rfl
  rw [hhead] at h ⊢
  -- both words are read as for every record of two words; then the thread has to be known
  have hnext := h.next_two (fun s₁ s₂ hrefill hread =>
    next_extTagged h.done hrefill .death hid (by decide) (by decide) hread)
    (fun p => if (p.2.threadStates (toInt threadId)).isNone then .error .runtimeError
      else .ok (.death (toInt threadId) p.1.1 p.1.2, { p.2 with
        threadStates := fun id => if id = toInt threadId then none else p.2.threadStates id }))
    (fun _ _ => rfl)
  have hlong : (∃ w ∈ [(threadId <<< kExtTypeShift) ||| EventType.death.code, tsAndCpu],
      2 ^ 56 ≤ w.toNat) → ∃ e, s.next = .error e := fun hlong => hnext.1 (by simpa using hlong)
  refine ⟨hlong, ?_, ?_⟩
  · intro hnone
    -- with a long word it stops at the word already
    by_cases hshort : ∃ w ∈ [(threadId <<< kExtTypeShift) ||| EventType.death.code, tsAndCpu],
      2 ^ 56 ≤ w.toNat
    · exact hlong hshort
    · have hlt : ∀ w ∈ [(threadId <<< kExtTypeShift) ||| EventType.death.code, tsAndCpu],
          w.toNat < 2 ^ 56 := fun w hw => Nat.lt_of_not_le fun hge => hshort ⟨w, hw, hge⟩
      obtain ⟨s', hs', heq⟩ := hnext.2 (hlt _ (by simp)) (hlt _ (by simp))
      refine ⟨.runtimeError, ?_⟩
      rw [heq]
      dsimp only
      rw [hs'.threadStates, hnone]
      rfl
  · intro hshort hsome
    obtain ⟨s', hs', heq⟩ := hnext.2 (hshort _ (by simp)) (hshort _ (by simp))
    -- a `Buf` of the thread was seen before
    have hknown : (s'.threadStates (toInt threadId)).isNone = false := by
      rw [hs'.threadStates]
      cases hstate : s.threadStates (toInt threadId) with
      | none => exact absurd hstate hsome
      | some t => rfl
    dsimp only at heq
    rw [hknown, if_neg (by simp)] at heq
    refine ⟨_, ?_, heq⟩
    exact ⟨hs'.done, hs'.buf, hs'.main, by rw [← hs'.threadStates]⟩

/-- A buffer: the stream stands in it then. -/
theorem AtRecord.next_buf
    (h : AtRecord s (writeWords (EncodedRecord.buf threadId tsAndCpu events).headWords ++
      (writeWords (eventWords events) ++ rest)))
    (hid : threadId.toNat < 2 ^ 56) (hfits : (writeWords (eventWords events)).length < 2 ^ 64)
    (hrest : rest ≠ []) {t : ThreadState}
    (ht : (s.threadStates (toInt threadId)).getD { threadId := toInt threadId } = t)
    (htid : t.threadId = toInt threadId) :
    ((∃ w ∈ (EncodedRecord.buf threadId tsAndCpu events).headWords, 2 ^ 56 ≤ w.toNat) →
      ∃ e, s.next = .error e) ∧
    ((∀ w ∈ (EncodedRecord.buf threadId tsAndCpu events).headWords, w.toNat < 2 ^ 56) →
      ∃ s', InBuffer s' t (writeWords (eventWords events)) rest ∧
        (∀ id, id ≠ toInt threadId → s'.threadStates id = s.threadStates id) ∧
        s.next = .ok (.buf (toInt threadId) (toInt (tsAndCpu &&& kTSMask))
          (toInt (tsAndCpu &&& ~~~kTSMask))
          (toInt (UInt64.ofNat (writeWords (eventWords events)).length)), s')) := by
  set body := writeWords (eventWords events) with hbody
  have hsize : (UInt64.ofNat body.length).toNat = body.length := by
    rw [UInt64.toNat_ofNat']
    exact Nat.mod_eq_of_lt hfits
  have hhead : (EncodedRecord.buf threadId tsAndCpu events).headWords =
      [(threadId <<< kTypeShift) ||| EventType.buf.code, tsAndCpu, UInt64.ofNat body.length] := rfl
  rw [hhead] at h ⊢
  let f : (ℤ × ℤ) × EventsStream → Except Raised (StreamEvent ℤ × EventsStream) := fun p =>
    p.2.readVarint >>= fun r =>
      if r.1 > 0 ∧ r.2.main.isEmpty then .error .typeError
      else
        let t := (r.2.threadStates (toInt threadId)).getD { threadId := toInt threadId }
        .ok (.buf (toInt threadId) p.1.1 p.1.2 r.1, { r.2 with
          buf := some (r.2.main.take r.1)
          main := r.2.main.drop r.1
          currThread := some t
          threadStates := fun id => if id = toInt threadId then some t else r.2.threadStates id })
  have hnext := h.next_two (fun s₁ s₂ hrefill hread =>
      next_tagged h.done hrefill .buf (by omega) (by decide) hread) f (by
    intro s₂ hbuf
    have hsame : { s₂ with buf := none } = s₂ := by
      cases s₂
      simp only at hbuf
      rw [hbuf]
    show nextBuf s₂ threadId.toNat = _
    rw [nextBuf, hsame]
    rfl)
  constructor
  · intro hlong
    by_cases hlow : 2 ^ 56 ≤ ((threadId <<< kTypeShift) ||| EventType.buf.code).toNat ∨
      2 ^ 56 ≤ tsAndCpu.toNat
    · exact hnext.1 hlow
    · -- the size is the long word
      have hlast : 2 ^ 56 ≤ (UInt64.ofNat body.length).toNat := by
        simp only [List.mem_cons, List.not_mem_nil, or_false, exists_eq_or_imp,
          exists_eq_left] at hlong
        omega
      obtain ⟨s', hs', heq⟩ := hnext.2 (by omega) (by omega)
      obtain ⟨e, he⟩ := readVarint_of_ge hs'.io hlast
      refine ⟨e, ?_⟩
      rw [heq]
      simp only [f, he]
      rfl
  · intro hshort
    obtain ⟨s', hs', heq⟩ := hnext.2 (hshort _ (by simp)) (hshort _ (by simp))
    have hread := readVarint_of_lt hs'.io (hshort _ (by simp))
    have hs'' : OnMain (s'.setIo (writeWords [] ++ (body ++ rest))) s.threadStates (body ++ rest) :=
      hs'.setIo _
    generalize s'.setIo (writeWords [] ++ (body ++ rest)) = s'' at hread hs''
    have hsome : ¬ ((UInt64.ofNat body.length).toNat > 0 ∧ s''.main.isEmpty = true) := by
      rw [hs''.main, List.isEmpty_iff]
      exact fun h => hrest (List.append_eq_nil_iff.mp h.2).2
    simp only [f, hread, ok_bind, if_neg hsome] at heq
    refine ⟨_, ?_, ?_, heq⟩
    · refine ⟨hs''.done, ?_, ?_, ?_, ?_⟩
      · show some _ = some t
        rw [hs''.threadStates, ht]
      · show (if t.threadId = toInt threadId then some _ else _) = some t
        rw [if_pos htid, hs''.threadStates, ht]
      · show some _ = some body
        rw [hs''.main, hsize, List.take_left]
      · show List.drop _ _ = rest
        rw [hs''.main, hsize, List.drop_left]
    · intro id hne
      show (if id = toInt threadId then some _ else _) = _
      rw [if_neg hne, hs''.threadStates]

end EventsStream

/-! ### The heads in the decode functions -/

section DecodeHead

variable {threadId : UInt64} (tsAndCpu : UInt64) (events : List (EncoderState × InnerRecord))

theorem decodeHead_buf (hid : threadId.toNat < 2 ^ 56) :
    decodeHead (EncodedRecord.buf threadId tsAndCpu events).headWords =
      some (.buf threadId (tsAndCpu &&& kTSMask) (tsAndCpu &&& ~~~kTSMask)
        (UInt64.ofNat (writeWords (eventWords events)).length)) := by
  have hlt : threadId.toNat < 2 ^ 61 := hid.trans (by decide)
  show decodeHead [_, _, _] = _
  unfold decodeHead
  dsimp only
  rw [decodeType_tagged .buf threadId (by decide), ofCode?_code]
  dsimp only [decodeBuffer, unbundleTsAndCpu]
  rw [tagged_shiftRight (by decide) hlt (by decide)]

theorem decodeHead_death (hid : threadId.toNat < 2 ^ 56) :
    decodeHead (EncodedRecord.death threadId tsAndCpu).headWords =
      some (.death threadId (tsAndCpu &&& kTSMask) (tsAndCpu &&& ~~~kTSMask)) := by
  show decodeHead [_, _] = _
  unfold decodeHead
  dsimp only
  rw [decodeType_extTagged .death threadId (by decide) (by decide), ofCode?_code]
  dsimp only [decodeDeath, unbundleTsAndCpu]
  rw [tagged_shiftRight (by decide) hid (by decide)]

theorem decodeHead_syncBarrier :
    decodeHead (EncodedRecord.syncBarrier tsAndCpu).headWords =
      some (.syncBarrier (tsAndCpu &&& kTSMask) (tsAndCpu &&& ~~~kTSMask)) := by
  have htype : decodeType EventType.syncBarrier.code = EventType.syncBarrier.code := by decide
  show decodeHead [_, _] = _
  unfold decodeHead
  dsimp only
  rw [htype, ofCode?_code]
  rfl

variable (threads : UInt64 → DecoderState) (rs : List EncodedRecord)

theorem decodeStream_buf (hid : threadId.toNat < 2 ^ 56) :
    decodeStream threads (.buf threadId tsAndCpu events :: rs) =
      (decodeEventWords threadId (threads threadId)
        (events.map fun ev => (ev.2.words ev.1).1)).bind fun p =>
        (decodeStream (fun id => if id = threadId then p.2 else threads id) rs).map
          ((.buf threadId (tsAndCpu &&& kTSMask) (tsAndCpu &&& ~~~kTSMask)
            (UInt64.ofNat (writeWords (eventWords events)).length) :: p.1) ++ ·) := by
  rw [decodeStream, decodeHead_buf tsAndCpu events hid]
  show (decodeEventWords threadId (threads threadId)
    (events.map fun ev => (ev.2.words ev.1).1)).bind _ = _
  congr 1
  funext p
  cases h : decodeStream (fun id => if id = threadId then p.2 else threads id) rs <;> simp [h]

theorem decodeStream_death (hid : threadId.toNat < 2 ^ 56) :
    decodeStream threads (.death threadId tsAndCpu :: rs) =
      (decodeStream (fun id => if id = threadId then .init else threads id) rs).map
        ([.death threadId (tsAndCpu &&& kTSMask) (tsAndCpu &&& ~~~kTSMask)] ++ ·) := by
  rw [decodeStream, decodeHead_death tsAndCpu hid]
  simp only [Option.bind_eq_bind, Option.bind_some]
  cases decodeStream (fun id => if id = threadId then .init else threads id) rs <;> rfl

theorem decodeStream_syncBarrier :
    decodeStream threads (.syncBarrier tsAndCpu :: rs) =
      (decodeStream threads rs).map
        ([.syncBarrier (tsAndCpu &&& kTSMask) (tsAndCpu &&& ~~~kTSMask)] ++ ·) := by
  rw [decodeStream, decodeHead_syncBarrier]
  cases decodeStream threads rs <;> rfl

end DecodeHead

/-! ### Streams -/

/-- The script has the records and events of a stream as the decode functions have them. -/
def Agrees (records : List EncodedRecord) : Prop :=
  ∃ evs, decodeStream (fun _ => .init) records = some evs ∧
    (EventsStream.new (recordStream records)).Yields (evs.map (·.map toInt))

/-- The threads with a buffer since their last death. -/
def knownAfter (known : UInt64 → Prop) : EncodedRecord → UInt64 → Prop
  | .buf threadId _ _ => fun id => id = threadId ∨ known id
  | .death threadId _ => fun id => id ≠ threadId ∧ known id
  | .syncBarrier _ => known

/-- Each death is that of such a thread. -/
def DeathsKnown : (UInt64 → Prop) → List EncodedRecord → Prop
  | _, [] => True
  | known, r :: rs => (∀ threadId tsAndCpu, r = .death threadId tsAndCpu → known threadId) ∧
    DeathsKnown (knownAfter known r) rs

/-- The streams on which both agree. -/
structure Readable (known : UInt64 → Prop) (records : List EncodedRecord) : Prop where
  words_lt : ∀ r ∈ records, ∀ w ∈ r.headWords ++ eventWords r.events, w.toNat < 2 ^ 56
  noRealloc : ∀ r ∈ records, ∀ ev ∈ r.events, ev.2.type ≠ .realloc
  deathsKnown : DeathsKnown known records

theorem readable_nil (known : UInt64 → Prop) : Readable known [] where
  words_lt _ h := by simp at h
  noRealloc _ h := by simp at h
  deathsKnown := trivial

theorem readable_cons {known : UInt64 → Prop} {r : EncodedRecord} {rs : List EncodedRecord} :
    Readable known (r :: rs) ↔ (∀ w ∈ r.headWords, w.toNat < 2 ^ 56) ∧ Plain r.events ∧
      (∀ threadId tsAndCpu, r = .death threadId tsAndCpu → known threadId) ∧
      Readable (knownAfter known r) rs := by
  constructor
  · intro h
    refine ⟨fun w hw => ?_, fun ev hev => ⟨fun w hw => ?_, ?_⟩, h.deathsKnown.1, ?_, ?_, ?_⟩
    · exact h.words_lt r (List.mem_cons_self ..) w (List.mem_append_left _ hw)
    · exact h.words_lt r (List.mem_cons_self ..) w
        (List.mem_append_right _ (List.mem_flatMap.mpr ⟨ev, hev, hw⟩))
    · exact h.noRealloc r (List.mem_cons_self ..) ev hev
    · exact fun r hr => h.words_lt r (List.mem_cons_of_mem _ hr)
    · exact fun r hr => h.noRealloc r (List.mem_cons_of_mem _ hr)
    · exact h.deathsKnown.2
  · rintro ⟨hhead, hplain, hknown, hrest⟩
    refine ⟨fun r' hr' => ?_, fun r' hr' => ?_, hknown, hrest.deathsKnown⟩
    · rcases List.mem_cons.mp hr' with rfl | hr'
      · intro w hw
        rcases List.mem_append.mp hw with hw | hw
        · exact hhead w hw
        · obtain ⟨ev, hev, hw⟩ := List.mem_flatMap.mp hw
          exact (hplain ev hev).1 w hw
      · exact hrest.words_lt r' hr'
    · rcases List.mem_cons.mp hr' with rfl | hr'
      · exact fun ev hev => (hplain ev hev).2
      · exact hrest.noRealloc r' hr'

/-- What both have for the threads: a thread that the script does not know is a new one. -/
def SameThreads (n : ℕ) (st : UInt64 → Option EncoderState) (threads : UInt64 → DecoderState)
    (known : UInt64 → Prop) (states : ℤ → Option ThreadState) : Prop :=
  ∀ id, (known id ∧ ∃ t, states (toInt id) = some t ∧ SameState n id (st id) (threads id) t) ∨
    (¬ known id ∧ states (toInt id) = none ∧ st id = none ∧ threads id = .init)

theorem toInt_inj {a b : UInt64} (h : toInt a = toInt b) : a = b :=
  UInt64.toNat_inj.mp (Int.ofNat.inj h)

namespace SameThreads

variable {n n' : ℕ} {st : UInt64 → Option EncoderState} {threads : UInt64 → DecoderState}
  {known : UInt64 → Prop} {states states' : ℤ → Option ThreadState} {threadId : UInt64}

theorem mono (h : SameThreads n st threads known states) (hle : n' ≤ n) :
    SameThreads n' st threads known states := by
  intro id
  rcases h id with ⟨hknown, t, ht, hsame⟩ | hnew
  · exact .inl ⟨hknown, t, ht, hsame.mono hle⟩
  · exact .inr hnew

/-- The thread of a buffer. -/
theorem thread (h : SameThreads n st threads known states) (hn : n < 2 ^ 64) (threadId : UInt64) :
    SameState n threadId (st threadId) (threads threadId)
      ((states (toInt threadId)).getD { threadId := toInt threadId }) := by
  rcases h threadId with ⟨-, t, ht, hsame⟩ | ⟨-, hstate, hst, hthread⟩
  · rw [ht]
    exact hsame
  · rw [hstate, hst, hthread]
    exact sameState_init hn threadId

/-- A thread whose state is another one. -/
theorem set (h : SameThreads n st threads known states) {e : Option EncoderState}
    {d : DecoderState} {t : ThreadState} (ht : states' (toInt threadId) = some t)
    (hsame : SameState n threadId e d t)
    (hother : ∀ id, id ≠ toInt threadId → states' id = states id) :
    SameThreads n (fun id => if id = threadId then e else st id)
      (fun id => if id = threadId then d else threads id) (fun id => id = threadId ∨ known id)
      states' := by
  intro id
  by_cases hid : id = threadId
  · refine .inl ⟨.inl hid, t, ?_, ?_⟩
    · rw [hid, ht]
    · simp only [hid, if_true]
      exact hsame
  · have hstate := hother (toInt id) fun h => hid (toInt_inj h)
    simp only [hid, false_or, if_false, hstate]
    exact h id

/-- A thread that died. -/
theorem delete (h : SameThreads n st threads known states) :
    SameThreads n (fun id => if id = threadId then none else st id)
      (fun id => if id = threadId then .init else threads id)
      (fun id => id ≠ threadId ∧ known id)
      (fun id => if id = toInt threadId then none else states id) := by
  intro id
  by_cases hid : id = threadId
  · refine .inr ⟨fun hknown => hknown.1 hid, ?_, ?_, ?_⟩ <;> simp [hid]
  · have hne : toInt id ≠ toInt threadId := fun h => hid (toInt_inj h)
    simp only [hid, hne, ne_eq, not_false_eq_true, true_and, if_false]
    exact h id

end SameThreads

theorem length_recordStream_cons (r : EncodedRecord) (rs : List EncodedRecord) :
    (recordStream (r :: rs)).length = r.write.length + (recordStream rs).length := by
  rw [recordStream, writeEncoded, List.flatMap_cons, List.append_assoc, List.length_append]
  rfl

theorem recordStream_cons (r : EncodedRecord) (rs : List EncodedRecord) :
    recordStream (r :: rs) =
      writeWords r.headWords ++ (writeWords (eventWords r.events) ++ recordStream rs) := by
  rw [recordStream, writeEncoded, List.flatMap_cons, EncodedRecord.write, writeWords_append]
  simp only [List.append_assoc]
  rfl

theorem recordStream_ne_nil (rs : List EncodedRecord) : recordStream rs ≠ [] := by
  intro h
  exact absurd (List.append_eq_nil_iff.mp h).2 (by decide)

/-- The events of a record are fewer than its bytes. -/
theorem length_events_le (r : EncodedRecord) : r.events.length ≤ r.write.length := by
  have hwords : r.events.length ≤ (eventWords r.events).length := by
    induction r.events with
    | nil => exact Nat.le_refl _
    | cons ev events ih =>
      have hpos : 0 < (ev.2.words ev.1).1.length := by
        cases ev.2 <;> simp [InnerRecord.words]
      rw [eventWords, List.flatMap_cons, List.length_append, List.length_cons]
      change events.length ≤ (events.flatMap _).length at ih
      omega
  have hbytes := length_le_writeWords (eventWords r.events)
  rw [EncodedRecord.write, writeWords_append, List.length_append]
  omega

/-- Events that both have alike, in front of others. -/
theorem exists_yields_append {s s' : EventsStream} {evs : List (StreamEvent UInt64)}
    (h : ∀ rest, s.Yields (evs.map (·.map toInt) ++ rest) ↔ s'.Yields rest)
    (rest? : Option (List (StreamEvent UInt64))) :
    (∃ all, rest?.map (evs ++ ·) = some all ∧ s.Yields (all.map (·.map toInt))) ↔
      ∃ rest, rest? = some rest ∧ s'.Yields (rest.map (·.map toInt)) := by
  constructor
  · rintro ⟨all, hall, hyields⟩
    obtain ⟨rest, hrest, rfl⟩ := Option.map_eq_some_iff.mp hall
    rw [List.map_append, h] at hyields
    exact ⟨rest, hrest, hyields⟩
  · rintro ⟨rest, rfl, hyields⟩
    exact ⟨evs ++ rest, rfl, by rw [List.map_append, h]; exact hyields⟩

/-- An event that both have alike. -/
theorem yields_head {s s' : EventsStream} (head : StreamEvent UInt64) (hdone : s.done = false)
    (hnext : s.next = .ok (head.map toInt, s')) (rest : List (StreamEvent ℤ)) :
    s.Yields ([head].map (·.map toInt) ++ rest) ↔ s'.Yields rest := by
  rw [List.map_singleton, List.singleton_append, EventsStream.yields_cons_iff hdone hnext]
  exact and_iff_right rfl

/-- **A stream** in both decoders, from its next record on. -/
theorem readable_iff (records : List EncodedRecord) {s : EventsStream}
    {st : UInt64 → Option EncoderState} {threads : UInt64 → DecoderState} {known : UInt64 → Prop}
    (hs : s.AtRecord (recordStream records))
    (hsame : SameThreads (recordStream records).length st threads known s.threadStates)
    (hfits : (recordStream records).length < 2 ^ 63) (hkept : Kept st records)
    (hrange : ∀ r ∈ records, r.InRange) :
    (∃ evs, decodeStream threads records = some evs ∧ s.Yields (evs.map (·.map toInt))) ↔
      Readable known records := by
  induction records generalizing s st threads known with
  | nil =>
    obtain ⟨s', hnext, hdone⟩ := EventsStream.AtRecord.next_end hs
    refine iff_of_true ⟨[.end_], rfl, ?_⟩ (readable_nil known)
    show s.Yields [.end_]
    rw [EventsStream.yields_cons_iff hs.done hnext]
    exact ⟨rfl, (EventsStream.yields_done hdone).mpr rfl⟩
  | cons r rs ih =>
    have hlen := length_recordStream_cons r rs
    have hevents := length_events_le r
    have hfits' : (recordStream rs).length < 2 ^ 63 := by omega
    have hrange' : ∀ r ∈ rs, r.InRange := fun r hr => hrange r (List.mem_cons_of_mem _ hr)
    have hr := hrange r (List.mem_cons_self ..)
    rw [recordStream_cons] at hs
    rw [readable_cons]
    -- a call that raises, where the condition fails
    have hraises : (∃ e, s.next = .error e) → ¬ ∃ evs, decodeStream threads (r :: rs) = some evs ∧
        s.Yields (evs.map (·.map toInt)) := by
      rintro ⟨e, he⟩ ⟨evs, -, hyields⟩
      exact EventsStream.not_yields_of_error hs.done he hyields
    have hshort : (¬ ∃ w ∈ r.headWords, 2 ^ 56 ≤ w.toNat) → ∀ w ∈ r.headWords, w.toNat < 2 ^ 56 :=
      fun h w hw => Nat.lt_of_not_le fun hge => h ⟨w, hw, hge⟩
    have hlong : (∃ w ∈ r.headWords, 2 ^ 56 ≤ w.toNat) → ¬ ∀ w ∈ r.headWords, w.toNat < 2 ^ 56 :=
      fun ⟨w, hw, hge⟩ h => absurd (h w hw) (Nat.not_lt.mpr hge)
    cases r with
    | syncBarrier tsAndCpu =>
      have hcalls := EventsStream.AtRecord.next_syncBarrier hs
      by_cases hwords : ∃ w ∈ (EncodedRecord.syncBarrier tsAndCpu).headWords, 2 ^ 56 ≤ w.toNat
      · exact iff_of_false (hraises (hcalls.1 hwords)) fun h => hlong hwords h.1
      · obtain ⟨s', hs', hnext⟩ := hcalls.2 (hshort hwords)
        have hrest := ih hs'.atRecord (by rw [hs'.threadStates]; exact hsame.mono (by omega)) hfits'
          hkept hrange'
        rw [decodeStream_syncBarrier,
          exists_yields_append (yields_head (.syncBarrier _ _) hs.done hnext),
          hrest]
        constructor
        · exact fun h => ⟨hshort hwords, fun ev hev => by simp [EncodedRecord.events] at hev,
            fun _ _ h => by simp at h, h⟩
        · exact fun h => h.2.2.2
    | death threadId tsAndCpu =>
      have hcalls := EventsStream.AtRecord.next_death hr hs
      by_cases hwords : ∃ w ∈ (EncodedRecord.death threadId tsAndCpu).headWords, 2 ^ 56 ≤ w.toNat
      · exact iff_of_false (hraises (hcalls.1 hwords)) fun h => hlong hwords h.1
      · rcases hsame threadId with ⟨hknown, t, ht, -⟩ | ⟨hnew, hstate, -, -⟩
        · obtain ⟨s', hs', hnext⟩ := hcalls.2.2 (hshort hwords) (by rw [ht]; simp)
          have hrest := ih hs'.atRecord
            (by rw [hs'.threadStates]; exact (hsame.mono (by omega)).delete) hfits' hkept hrange'
          rw [decodeStream_death tsAndCpu threads rs hr,
            exists_yields_append (yields_head (.death _ _ _) hs.done hnext), hrest]
          constructor
          · intro h
            refine ⟨hshort hwords, fun ev hev => by simp [EncodedRecord.events] at hev, ?_, h⟩
            intro id _ heq
            rw [← (EncodedRecord.death.inj heq).1]
            exact hknown
          · exact fun h => h.2.2.2
        · -- the script does not know the thread
          refine iff_of_false (hraises (hcalls.2.1 hstate)) fun h => ?_
          exact hnew (h.2.2.1 threadId tsAndCpu rfl)
    | buf threadId tsAndCpu events =>
      obtain ⟨hid, hinner⟩ := hr
      have hbody : (writeWords (eventWords events)).length ≤ (EncodedRecord.buf threadId tsAndCpu
          events).write.length := by
        rw [EncodedRecord.write, writeWords_append, List.length_append]
        exact Nat.le_add_left ..
      have hthread := hsame.thread (by omega) threadId
      have hcalls := EventsStream.AtRecord.next_buf hs hid (by omega) (recordStream_ne_nil rs) rfl
        hthread.threadId
      by_cases hwords : ∃ w ∈ (EncodedRecord.buf threadId tsAndCpu events).headWords,
        2 ^ 56 ≤ w.toNat
      · exact iff_of_false (hraises (hcalls.1 hwords)) fun h => hlong hwords h.1
      · obtain ⟨s₁, hs₁, hother₁, hnext⟩ := hcalls.2 (hshort hwords)
        have hcount : events.length + (recordStream rs).length ≤
            (recordStream (.buf threadId tsAndCpu events :: rs)).length := by
          change events.length ≤ _ at hevents
          omega
        obtain ⟨hevs, hkept'⟩ := hkept
        have hsameEvents := hs₁.next_events events (hthread.mono hcount) (by omega) hevs hinner
        set head : StreamEvent UInt64 := .buf threadId (tsAndCpu &&& kTSMask)
          (tsAndCpu &&& ~~~kTSMask) (UInt64.ofNat (writeWords (eventWords events)).length)
        have hhead := yields_head head hs.done hnext
        have hdecode := decodeStream_buf tsAndCpu events threads rs hid
        by_cases hplain : Plain events
        · obtain ⟨evs, d', s', t', hdecodeEvents, hs', hother, hstate, hyields⟩ :=
            hsameEvents.right hplain
          have hown : s'.threadStates (toInt threadId) = some t' := by
            rw [← hstate.threadId]
            exact hs'.own
          have hothers : ∀ id, id ≠ toInt threadId → s'.threadStates id = s.threadStates id :=
            fun id hne => (hother id hne).trans (hother₁ id hne)
          have hrest := ih ⟨hs'.done, .inr hs'.buf, hs'.main⟩
            ((hsame.mono (by omega)).set hown hstate hothers) hfits' hkept' hrange'
          have hall : ∀ rest, s.Yields ((head :: evs).map (·.map toInt) ++ rest) ↔
              s'.Yields rest := by
            intro rest
            rw [← hyields, ← hhead, List.map_cons, List.map_singleton, List.cons_append,
              List.singleton_append]
          rw [hdecode, hdecodeEvents, Option.bind_some, exists_yields_append hall, hrest]
          constructor
          · exact fun h => ⟨hshort hwords, hplain, fun _ _ h => by simp at h, h⟩
          · exact fun h => h.2.2.2
        · refine iff_of_false ?_ fun h => hplain h.2.1
          rintro ⟨all, hall, hyields⟩
          rw [hdecode] at hall
          obtain ⟨p, hp, hmap⟩ := Option.bind_eq_some_iff.mp hall
          obtain ⟨rest, -, rfl⟩ := Option.map_eq_some_iff.mp hmap
          rw [List.cons_append, List.map_cons, ← List.singleton_append, ← List.map_singleton, hhead,
            List.map_append] at hyields
          exact hsameEvents.wrong hplain p.1 p.2 hp _ hyields

/-- **Where both agree**: on the streams of a writer without long words, `Realloc`s and deaths of
threads without buffers. -/
theorem agrees_iff (records : List EncodedRecord) (hwritten : Written records)
    (hfits : (recordStream records).length < 2 ^ 63) :
    Agrees records ↔ Readable (fun _ => False) records := by
  refine readable_iff records ⟨rfl, .inl rfl, rfl⟩ ?_ hfits hwritten.kept hwritten.inRange
  exact fun id => .inr ⟨fun h => h, rfl, rfl, rfl⟩

/-- A stream of two threads; one of them dies and starts again. -/
def twoThreads : List EncodedRecord :=
  [.buf 1 1026 [(.init, .tok 0 1024 2), (.init, .malloc 24),
    ({ EncoderState.init with prevSize := 3 }, .free 0)],
    .syncBarrier 2048,
    .buf 2 3072 [(.init, .tok 100 3072 0), (.init, .memalign 100 64)],
    .death 1 4096,
    .buf 1 5120 [(.init, .tok 200 5120 1), (.init, .freeSized 100)],
    .death 2 6144]

theorem written_twoThreads : Written twoThreads where
  kept := by
    have hother : (2 : UInt64) ≠ 1 := by decide
    simp only [twoThreads, Kept, KeptEvents, and_true, if_true, if_neg hother]
    decide
  inRange := by decide +kernel

theorem agrees_twoThreads : Agrees twoThreads := by
  refine (agrees_iff twoThreads written_twoThreads (by decide +kernel)).mpr ⟨?_, ?_, ?_⟩
  · have h : twoThreads.all (fun r => (r.headWords ++ eventWords r.events).all
        fun w => w.toNat < 2 ^ 56) = true := by decide +kernel
    simpa only [List.all_eq_true, decide_eq_true_eq] using h
  · decide +kernel
  · simp [twoThreads, DeathsKnown, knownAfter]

/-! ### Where they do not -/

theorem nextAll_done {s : EventsStream} (h : s.done = true) (fuel : ℕ) :
    s.nextAll fuel = .ok (some []) := by
  cases fuel <;> simp [EventsStream.nextAll, h]

theorem nextAll_zero {s : EventsStream} (h : s.done = false) : s.nextAll 0 = .ok none := by
  simp [EventsStream.nextAll, h]

/-- The calls of `next` have one result. -/
theorem nextAll_unique {fuel fuel' : ℕ} {s : EventsStream} {evs evs' : List (StreamEvent ℤ)}
    (h : s.nextAll fuel = .ok (some evs)) (h' : s.nextAll fuel' = .ok (some evs')) :
    evs' = evs := by
  induction fuel generalizing fuel' s evs evs' with
  | zero =>
    -- a stream that is done gives no more, whatever the fuel
    cases hdone : s.done with
    | true =>
      rw [nextAll_done hdone] at h h'
      exact Option.some.inj (Except.ok.inj (h'.symm.trans h))
    | false =>
      rw [nextAll_zero hdone] at h
      simp at h
  | succ fuel ih =>
    cases hdone : s.done with
    | true =>
      rw [nextAll_done hdone] at h h'
      exact Option.some.inj (Except.ok.inj (h'.symm.trans h))
    | false =>
      cases fuel' with
      | zero =>
        rw [nextAll_zero hdone] at h'
        simp at h'
      | succ fuel' =>
        -- both read the same event, and go on from the same state
        cases hnext : s.next with
        | error e => simp [EventsStream.nextAll, hdone, hnext] at h
        | ok p =>
          rw [EventsStream.nextAll, hdone, if_neg (by simp), hnext, ok_bind] at h h'
          obtain ⟨evs₁?, hevs₁, h⟩ := bind_eq_ok.mp h
          obtain ⟨evs₁'?, hevs₁', h'⟩ := bind_eq_ok.mp h'
          obtain ⟨evs₁, rfl, rfl⟩ := Option.map_eq_some_iff.mp (Except.ok.inj h)
          obtain ⟨evs₁', rfl, rfl⟩ := Option.map_eq_some_iff.mp (Except.ok.inj h')
          rw [ih hevs₁ hevs₁']

/-- A `Realloc` after a `Malloc`. -/
def reallocStream : List EncodedRecord :=
  [.buf 1 1024 [(.init, .tok 0 1024 0), (.init, .malloc 16),
    ({ EncoderState.init with prevSize := 2 }, .realloc 0 32)]]

theorem written_reallocStream : Written reallocStream where
  kept := by
    simp only [reallocStream, Kept, KeptEvents, and_true]
    decide
  inRange := by decide +kernel

/-- A time of more than 56 bits. -/
def longTime : List EncodedRecord := [.syncBarrier ((1 : UInt64) <<< 60)]

theorem written_longTime : Written longTime where
  kept := trivial
  inRange := by decide +kernel

/-- A thread that dies without a buffer. -/
def earlyDeath : List EncodedRecord := [.death 1 1024]

theorem written_earlyDeath : Written earlyDeath where
  kept := trivial
  inRange := by decide +kernel

/-- They do not agree on all streams of a writer: the script has another size for a `Realloc`, and
it raises on a long word and on the death of a thread without a buffer. -/
theorem not_agrees_of_written : ¬ (∀ records, Written records → Agrees records) ∧
    (Written reallocStream ∧ ¬ Agrees reallocStream) ∧
    (Written longTime ∧ ¬ Agrees longTime) ∧ Written earlyDeath ∧ ¬ Agrees earlyDeath := by
  have hrealloc : ¬ Agrees reallocStream := by
    rintro ⟨evs, hevs, fuel, hfuel⟩
    have hdecode : decodeStream (fun _ => .init) reallocStream = some [.buf 1 1024 0 7,
      .tok 0 1024 0, .malloc 1 0 16, .realloc 1 1 32 0, .end_] := by decide +kernel
    have hscript : (EventsStream.new (recordStream reallocStream)).nextAll 5 =
      .ok (some [.buf 1 1024 0 7, .tok 0 1024 0, .malloc 1 0 16, .realloc 1 1 536 0, .end_]) := by
      decide +kernel
    rw [hdecode] at hevs
    rw [← Option.some.inj hevs] at hfuel
    exact absurd (nextAll_unique hscript hfuel) (by decide +kernel)
  refine ⟨fun h => hrealloc (h _ written_reallocStream), ⟨written_reallocStream, hrealloc⟩,
    ⟨written_longTime, ?_⟩, written_earlyDeath, ?_⟩
  · rintro ⟨evs, -, hyields⟩
    have hnext : (EventsStream.new (recordStream longTime)).next = .error .nameError := rfl
    exact EventsStream.not_yields_of_error rfl hnext hyields
  · rintro ⟨evs, -, hyields⟩
    have hnext : (EventsStream.new (recordStream earlyDeath)).next = .error .runtimeError := rfl
    exact EventsStream.not_yields_of_error rfl hnext hyields

end Script

end MallocTraceReplay
