import MallocTraceReplay.Tally.EvCounter
import MallocTraceReplay.Codec.RecordStream
import MallocTraceReplay.Stream.Equiv.RecordRoundTrip
import MallocTraceReplay.Stream.Equiv.TraceReader

/-!
# What `EvCounter` makes of a stream

`process_one` takes a first word and the words that it believes to belong to it (`skippedWords`) off
the bytes that it stands before (`processOne_eq`).  On a stream of groups of as many words it walks
from group to group and counts their types (`processAll_groups`), and where no sized free is
written the groups of a stream are those of its records (`EncodedRecord.groups`).
-/

namespace MallocTraceReplay

open AltVarintCodec MallocTraceEncoder StepMachine MemStream

variable {m : ConstMapper} {s : MemStream ConstMapper} {rest : List UInt8} {w : UInt64}
    {ws : List UInt64}

/-! ### The stream of the tally -/

namespace TallyStream

/-- The stream with its window extended: by 16 megabytes, up to the end of the data. -/
theorem realizeMore_before (h : s.Before m rest) :
    ∃ ok s', realizeMore s 0 = .ok (ok, s') ∧ s'.Before m rest ∧ s'.ptr = s.ptr ∧
      s'.ptr ≤ s'.end_ ∧ s'.shown = min (2 ^ 24) rest.length ∧
      s'.permissiveAdvance = s.permissiveAdvance := by
  have hlen := h.bytes.fits
  have hmax : (max 0 kRealizeSize).toNat = 2 ^ 24 := toNat_max 0 kRealizeSize
  have hplace : s.ptr.toNat + (max 0 kRealizeSize).toNat < 2 ^ 64 := by omega
  have hend := h.toNat_realize hplace
  rw [hmax] at hend
  set end_ := s.realizedStart +
    m.realize s.realizedStart (s.ptr - s.realizedStart + max 0 kRealizeSize) with hend_
  have heq : realizeMore s 0 = .ok (decide (end_ - s.ptr ≥ 0), { s with end_ := end_ }) := by
    rw [hend_, ← h.mapper]
    rfl
  refine ⟨_, _, heq, ?_, rfl, ?_, ?_, rfl⟩
  · refine ⟨h.mapper, h.start, h.begin_le, h.ends, ?_, h.bytes⟩
    show end_.toNat ≤ s.ptr.toNat + _
    omega
  · rw [UInt64.le_iff_toNat_le]
    show s.ptr.toNat ≤ end_.toNat
    omega
  · show end_.toNat - s.ptr.toNat = _
    omega

/-- `has_more` tells whether there are bytes left. -/
theorem hasMore_eq (h : s.Before m rest) :
    ∃ s', hasMore s = .ok (!rest.isEmpty, s') ∧ s'.Before m rest ∧ s'.ptr = s.ptr ∧
      s'.ptr ≤ s'.end_ ∧ s'.permissiveAdvance = s.permissiveAdvance := by
  unfold hasMore
  by_cases hlt : s.ptr < s.end_
  · have hwin := h.window
    rw [UInt64.lt_iff_toNat_lt] at hlt
    have hne : rest.isEmpty = false := by
      cases rest with
      | nil => simp at hwin; omega
      | cons b bs => rfl
    rw [← UInt64.lt_iff_toNat_lt] at hlt
    exact ⟨s, by rw [if_pos hlt, hne]; rfl, h, rfl, UInt64.le_of_lt hlt, rfl⟩
  · obtain ⟨ok, s', heq, hs', hptr, hle, hshown, hperm⟩ := realizeMore_before h
    refine ⟨s', ?_, hs', hptr, hle, hperm⟩
    have hmore : decide (s'.ptr < s'.end_) = !rest.isEmpty := by
      unfold shown at hshown
      cases rest with
      | nil =>
        simp only [List.isEmpty_nil, Bool.not_true, decide_eq_false_iff_not, UInt64.lt_iff_toNat_lt]
        simp only [List.length_nil, Nat.min_zero] at hshown
        omega
      | cons b bs =>
        simp only [List.isEmpty_cons, Bool.not_false, decide_eq_true_eq, UInt64.lt_iff_toNat_lt]
        simp only [List.length_cons] at hshown
        omega
    rw [if_neg hlt, heq, ok_bind, ← hmore]
    rfl

/-- `has_at_least_varint` is about the window. -/
theorem hasAtLeastVarint_iff (h : Reads s rest) : hasAtLeastVarint s = true ↔ 10 ≤ s.shown := by
  have := h.fits
  have := h.le
  unfold hasAtLeastVarint shown kMaxVarintSize
  simp only [decide_eq_true_eq, UInt64.le_iff_toNat_le, UInt64.toNat_add, UInt64.reduceToNat]
  omega

/-- A decoded varint in the window is skipped. -/
theorem takeDecoded_eq (h : Reads s rest) {byteAt : ℕ → Option UInt8} {n : ℕ} {v : UInt64}
    (hn : n ≤ s.shown) (hdec : decodeUnsigned byteAt = some ⟨UInt64.ofNat n, v⟩) :
    takeDecoded s byteAt = .ok (v, s.skip n) := by
  have hge : s.end_ - s.ptr ≥ UInt64.ofNat n := by
    rw [h.window_iff, UInt64.toNat_ofNat']
    exact (Nat.mod_le ..).trans hn
  simp only [takeDecoded, hdec, advanceBy, if_pos hge]
  rfl

/-- The fast path: a whole varint is in the window. -/
theorem readVarintFast_eq (h : Reads s rest) (hfast : hasAtLeastVarint s = true) :
    readVarintFast s = .ok (varintValue rest, s.skip (varintNeed rest)) := by
  have hten := (hasAtLeastVarint_iff h).mp hfast
  have hlen := h.shown_le
  have hneed := varintNeed_le rest
  have hbytes : ∀ i < s.shown, Mapper.load s.mapper (s.ptr + UInt64.ofNat i) = rest[i]? :=
    fun i hi => h.loads i (by unfold shown at hi; omega)
  refine takeDecoded_eq h (by omega) (decodeUnsigned_of_whole (by omega)
    (fun i hi => hbytes i (by omega)) fun i hi => ?_)
  rw [hbytes i (by omega), List.getElem?_eq_getElem (by omega)]
  rfl

/-- `tmp` holds the bytes of the window, and nine bytes of it can be read. -/
theorem fillTmp_eq (h : Reads s rest) (hten : ¬ 10 ≤ s.shown) (stack : StackBytes) :
    ∃ tmp, fillTmp stack s = .ok tmp ∧ (∀ i < s.shown, tmp i = rest[i]?) ∧
      ∀ i < 9, (tmp i).isSome := by
  have hlen := h.shown_le
  have hfill : fillTmp stack s = .ok fun i =>
      if i < s.shown then ((List.range s.shown).map fun i => rest.getD i 0)[i]?
      else if i < 10 then some (stack s.ptr i) else none := by
    simp only [fillTmp, h.toNat_window, if_neg (show ¬ s.shown > 10 by omega),
      h.mapM_loads]
  refine ⟨_, hfill, fun i hi => ?_, fun i hi => ?_⟩
  · simp [hi, show i < rest.length by omega]
  · by_cases hi' : i < s.shown
    · simp [hi']
    · simp [hi', show i < 10 by omega]

/-- The slow path: the varint is whole once the window is extended. -/
theorem readVarintSlow_eq (h : s.Before m rest) (hwhole : varintNeed rest ≤ rest.length)
    (stack : StackBytes) :
    ∃ s' : MemStream ConstMapper,
      readVarintSlow stack s = .ok (varintValue rest, s'.skip (varintNeed rest)) ∧
      s'.Before m rest ∧ s'.ptr ≤ s'.end_ ∧ varintNeed rest ≤ s'.shown := by
  obtain ⟨ok, s', heq, hs', -, hle, hshown, -⟩ := realizeMore_before h
  have hreads := hs'.reads hle
  have hneed := varintNeed_le rest
  refine ⟨s', ?_, hs', hle, by omega⟩
  rw [readVarintSlow, heq, ok_bind]
  by_cases hfast : hasAtLeastVarint s' = true
  · simp only [hfast, if_true]
    exact readVarintFast_eq hreads hfast
  · obtain ⟨tmp, htmp, hbytes, hloads⟩ :=
      fillTmp_eq hreads (fun hten => hfast ((hasAtLeastVarint_iff hreads).mpr hten)) stack
    simp only [if_neg hfast, htmp, ok_bind]
    exact takeDecoded_eq hreads (by omega)
      (decodeUnsigned_of_whole hwhole (fun i hi => hbytes i (by omega)) hloads)

/-- **`try_read_varint`** reads a whole varint. -/
theorem tryReadVarint_eq (h : s.Before m rest) (hle : s.ptr ≤ s.end_)
    (hstrict : s.permissiveAdvance = false) (stack : StackBytes) {v : UInt64} {rest' : List UInt8}
    (hv : readVarint rest = some (v, rest')) :
    ∃ s', tryReadVarint stack s = .ok (some v, s') ∧ s'.Before m rest' ∧ s'.ptr ≤ s'.end_ ∧
      s'.permissiveAdvance = false := by
  have hP := served_before m
  rw [readVarint_eq] at hv
  split at hv
  · simp at hv
  · next hwhole =>
    obtain ⟨rfl, rfl⟩ := Prod.mk.inj (Option.some.inj hv)
    have hreads := h.reads hle
    unfold tryReadVarint
    by_cases hfast : hasAtLeastVarint s = true
    · have hten := (hasAtLeastVarint_iff hreads).mp hfast
      have hneed := varintNeed_le rest
      obtain ⟨hs', hle'⟩ := hP.skip_le h hle (show varintNeed rest ≤ s.shown by omega)
      rw [if_pos hfast, readVarintFast_eq hreads hfast]
      exact ⟨_, rfl, hs', hle', hstrict⟩
    · obtain ⟨s', heq, hs', hle', hneed⟩ :=
        readVarintSlow_eq (hP.permissive h true) (by omega) stack
      obtain ⟨hs'', hle''⟩ := hP.skip_le hs' hle' hneed
      have hngt : ¬ (s'.skip (varintNeed rest)).ptr > (s'.skip (varintNeed rest)).end_ := by
        rw [gt_iff_lt, UInt64.not_lt]
        exact hle''
      rw [if_neg hfast, heq, ok_bind]
      exact ⟨_, if_neg hngt, hP.permissive hs'' false, hle'', rfl⟩

end TallyStream

/-! ### One call -/

/-- The number of words after the first one that `process_one` takes for those of a record. -/
def skippedWords : EventType → ℕ
  | .malloc | .free | .end_ => 0
  | .death | .syncBarrier | .freeSized | .tok | .realloc | .memalign => 1
  | .buf => 2

namespace EvCounter

variable (ndebug : Bool) (stack : StackBytes) {c : EvCounter ConstMapper}

/-- What a record of a type adds to the counters. -/
def count (c : EvCounter ConstMapper) : EventType → EvCounter ConstMapper
  | .malloc => { c with mallocs := c.mallocs + 1 }
  | .free => { c with frees := c.frees + 1 }
  | .freeSized => { c with sizedFrees := c.sizedFrees + 1 }
  | .realloc | .memalign => { c with other := c.other + 1 }
  | .tok | .buf | .death | .end_ | .syncBarrier => c

/-- Words that are there are skipped. -/
theorem skipWords_eq (h : s.Before m (writeWords ws ++ rest)) (hle : s.ptr ≤ s.end_)
    (hstrict : s.permissiveAdvance = false) :
    ∃ s', skipWords stack ws.length s = .ok (true, s') ∧ s'.Before m rest ∧ s'.ptr ≤ s'.end_ ∧
      s'.permissiveAdvance = false := by
  induction ws generalizing s with
  | nil => exact ⟨s, rfl, h, hle, hstrict⟩
  | cons w ws ih =>
    obtain ⟨s₁, hread, hs₁, hle₁, hstrict₁⟩ :=
      TallyStream.tryReadVarint_eq h hle hstrict stack (readVarint_writeWords w ws rest)
    obtain ⟨s', hskip, hs'⟩ := ih hs₁ hle₁ hstrict₁
    refine ⟨s', ?_, hs'⟩
    rw [List.length_cons, skipWords, hread, ok_bind]
    exact hskip

/-- The rest of a record is skipped, and nothing is counted. -/
theorem finishOne_eq (h : c.s.Before m (writeWords ws ++ rest)) (hle : c.s.ptr ≤ c.s.end_)
    (hstrict : c.s.permissiveAdvance = false) :
    ∃ s', finishOne ndebug stack c ws.length = .ok (true, { c with s := s' }) ∧
      s'.Before m rest ∧ s'.permissiveAdvance = false := by
  obtain ⟨s₁, hskip, hs₁, hle₁, hstrict₁⟩ := skipWords_eq stack h hle hstrict
  obtain ⟨s', hback, hs', -, hstrict'⟩ :=
    hs₁.unrealizeUpTo_eq hle₁ hs₁.begin_le (Nat.le_refl _) ndebug
  refine ⟨s', ?_, hs', hstrict'.trans hstrict₁⟩
  rw [finishOne, hskip, ok_bind]
  simp only [Bool.not_true, Bool.false_eq_true, if_false, hback, ok_bind]
  rfl

/-- **One call** on a first word and as many others as are skipped after its type. -/
theorem processOne_eq (h : c.s.Before m (writeWords (w :: ws) ++ rest))
    (hstrict : c.s.permissiveAdvance = false) {type : EventType}
    (htype : EventType.ofCode? (decodeType w) = some type) (hend : type ≠ .end_)
    (hlen : ws.length = skippedWords type) :
    ∃ s' lastBuf, c.processOne ndebug stack =
        .ok (true, { c.count type with s := s', lastBuf := lastBuf }) ∧
      s'.Before m rest ∧ s'.permissiveAdvance = false := by
  obtain ⟨s₁, hmore, hs₁, -, hle₁, hstrict₁⟩ := TallyStream.hasMore_eq h
  obtain ⟨s₂, hread, hs₂, hle₂, hstrict₂⟩ := TallyStream.tryReadVarint_eq hs₁ hle₁
    (hstrict₁.trans hstrict) stack (readVarint_writeWords w ws rest)
  have hne := isEmpty_writeWords_append w ws rest
  -- what is left to do, by what was counted
  have hfinish : ∀ c' : EvCounter ConstMapper, c'.s = s₂ →
      ∃ s', finishOne ndebug stack c' (skippedWords type) = .ok (true, { c' with s := s' }) ∧
        s'.Before m rest ∧ s'.permissiveAdvance = false := by
    rintro c' rfl
    rw [← hlen]
    exact finishOne_eq ndebug stack hs₂ hle₂ hstrict₂
  unfold processOne
  rw [hmore, ok_bind]
  simp only [hne, Bool.not_false, Bool.not_true, Bool.false_eq_true, if_false, hread, ok_bind,
    htype]
  cases type with
  | end_ => exact absurd rfl hend
  | buf =>
    obtain ⟨s', heq, hs'⟩ := hfinish { c with s := s₂, lastBuf := s₂.ptr } rfl
    exact ⟨s', s₂.ptr, heq, hs'⟩
  | malloc =>
    obtain ⟨s', heq, hs'⟩ := hfinish { c with s := s₂, mallocs := c.mallocs + 1 } rfl
    exact ⟨s', c.lastBuf, heq, hs'⟩
  | free =>
    obtain ⟨s', heq, hs'⟩ := hfinish { c with s := s₂, frees := c.frees + 1 } rfl
    exact ⟨s', c.lastBuf, heq, hs'⟩
  | freeSized =>
    obtain ⟨s', heq, hs'⟩ := hfinish { c with s := s₂, sizedFrees := c.sizedFrees + 1 } rfl
    exact ⟨s', c.lastBuf, heq, hs'⟩
  | realloc | memalign =>
    obtain ⟨s', heq, hs'⟩ := hfinish { c with s := s₂, other := c.other + 1 } rfl
    exact ⟨s', c.lastBuf, heq, hs'⟩
  | tok | death | syncBarrier =>
    obtain ⟨s', heq, hs'⟩ := hfinish { c with s := s₂ } rfl
    exact ⟨s', c.lastBuf, heq, hs'⟩

/-- The last call, on the end record. -/
theorem processOne_end (h : c.s.Before m endBytes) (hstrict : c.s.permissiveAdvance = false) :
    ∃ s', c.processOne ndebug stack = .ok (false, { c with s := s' }) ∧ s'.Before m [] := by
  obtain ⟨s₁, hmore, hs₁, -, hle₁, hstrict₁⟩ := TallyStream.hasMore_eq h
  have hword : readVarint endBytes = some (encodeEnd, []) := by decide
  obtain ⟨s₂, hread, hs₂, -⟩ :=
    TallyStream.tryReadVarint_eq hs₁ hle₁ (hstrict₁.trans hstrict) stack hword
  refine ⟨s₂, ?_, hs₂⟩
  unfold processOne
  rw [hmore, ok_bind]
  have hne : endBytes.isEmpty = false := by decide
  have htype : EventType.ofCode? (decodeType encodeEnd) = some .end_ := by decide
  simp only [hne, Bool.not_false, Bool.not_true, Bool.false_eq_true, if_false, hread, ok_bind,
    htype]
  rfl

/-- More calls than needed make no difference. -/
theorem processAll_unique {ndebug : Bool} {stack : StackBytes} {n n' : ℕ}
    {r r' : EvCounter ConstMapper × EvCounter ConstMapper}
    (h : c.processAll ndebug stack n = .ok r) (h' : c.processAll ndebug stack n' = .ok r') :
    r = r' := by
  induction n generalizing n' c with
  | zero => simp [processAll] at h
  | succ n ih =>
    cases n' with
    | zero => simp [processAll] at h'
    | succ n' =>
      rw [processAll] at h h'
      obtain ⟨⟨more, c₁⟩, hone, h⟩ := bind_eq_ok.mp h
      rw [hone, ok_bind] at h'
      cases more with
      | false => exact Except.ok.inj (h.symm.trans h')
      | true => exact ih h h'

end EvCounter

/-! ### Words in groups -/

/-- The words are those of records of some types, each of as many words as the tally takes it to
have. -/
inductive Walks : List UInt64 → List EventType → Prop
  | nil : Walks [] []
  | cons {w ws words type types} (htype : EventType.ofCode? (decodeType w) = some type)
      (hend : type ≠ .end_) (hlen : ws.length = skippedWords type) (hrest : Walks words types) :
      Walks ((w :: ws) ++ words) (type :: types)

theorem Walks.append {words words' : List UInt64} {types types' : List EventType}
    (h : Walks words types) (h' : Walks words' types') :
    Walks (words ++ words') (types ++ types') := by
  induction h with
  | nil => exact h'
  | cons htype hend hlen _ ih =>
    rw [List.append_assoc]
    exact .cons htype hend hlen ih

theorem Walks.length_le {words : List UInt64} {types : List EventType} (h : Walks words types) :
    types.length ≤ words.length := by
  induction h with
  | nil => exact Nat.le_refl _
  | cons _ _ _ _ ih =>
    simp only [List.length_cons, List.length_append]
    omega

/-- **The walk** over groups of words: one call for each of them, which counts its type. -/
theorem EvCounter.processAll_walks {c : EvCounter ConstMapper} {words : List UInt64}
    {types : List EventType} (hwalks : Walks words types)
    (h : c.s.Before m (writeWords words ++ rest)) (hstrict : c.s.permissiveAdvance = false)
    (ndebug : Bool) (stack : StackBytes) :
    ∃ c' : EvCounter ConstMapper, (∀ fuel, c.processAll ndebug stack (fuel + types.length) =
        c'.processAll ndebug stack fuel) ∧
      c'.s.Before m rest ∧ c'.s.permissiveAdvance = false ∧
      c'.mallocs = c.mallocs + UInt64.ofNat (types.count .malloc) ∧
      c'.frees = c.frees + UInt64.ofNat (types.count .free) ∧
      c'.sizedFrees = c.sizedFrees + UInt64.ofNat (types.count .freeSized) := by
  induction hwalks generalizing c with
  | nil => exact ⟨c, fun _ => rfl, h, hstrict, by simp, by simp, by simp⟩
  | @cons w ws words type types htype hend hlen _ ih =>
    rw [writeWords_append, List.append_assoc] at h
    obtain ⟨s', lastBuf, hone, hs', hstrict'⟩ :=
      processOne_eq ndebug stack h hstrict htype hend hlen
    obtain ⟨c', hrest, hs'', hstrict'', hmallocs, hfrees, hsized⟩ :=
      ih (c := { c.count type with s := s', lastBuf := lastBuf }) hs' hstrict'
    refine ⟨c', fun fuel => ?_, hs'', hstrict'', ?_, ?_, ?_⟩
    · rw [List.length_cons, ← Nat.add_assoc, processAll, hone, ok_bind]
      exact hrest fuel
    · rw [hmallocs]
      cases type <;> simp [count, UInt64.add_assoc, UInt64.add_comm 1]
    · rw [hfrees]
      cases type <;> simp [count, UInt64.add_assoc, UInt64.add_comm 1]
    · rw [hsized]
      cases type <;> simp [count, UInt64.add_assoc, UInt64.add_comm 1]

/-! ### The words of a stream -/

/-- The words of an inner event: all but sized frees are as long as the tally takes them to be. -/
theorem InnerRecord.walks (s : EncoderState) {r : InnerRecord} (hr : r.type ≠ .freeSized) :
    Walks (r.words s).1 [r.type] := by
  have hgroup : ∀ (w : UInt64) (ws : List UInt64) (type : EventType),
      decodeType w = type.code → type ≠ .end_ → ws.length = skippedWords type →
      Walks (w :: ws) [type] := by
    intro w ws type hcode hend hlen
    have h := Walks.cons (w := w) (by rw [hcode, ofCode?_code]) hend hlen .nil
    rwa [List.append_nil] at h
  cases r with
  | tok => exact hgroup _ _ .tok (decodeType_tagged .tok _ (by decide)) (by decide) rfl
  | malloc => exact hgroup _ _ .malloc (decodeType_tagged .malloc _ (by decide)) (by decide) rfl
  | memalign =>
    exact hgroup _ _ .memalign (decodeType_extTagged .memalign _ (by decide) (by decide))
      (by decide) rfl
  | free => exact hgroup _ _ .free (decodeType_tagged .free _ (by decide)) (by decide) rfl
  | freeSized => exact absurd rfl hr
  | realloc =>
    exact hgroup _ _ .realloc (decodeType_extTagged .realloc _ (by decide) (by decide))
      (by decide) rfl

/-- The words of the events of a buffer. -/
theorem walks_eventWords {events : List (EncoderState × InnerRecord)}
    (hno : ∀ e ∈ events, e.2.type ≠ .freeSized) :
    Walks (eventWords events) (events.map fun e => e.2.type) := by
  induction events with
  | nil => exact .nil
  | cons e events ih =>
    have hrest := ih fun e' he' => hno e' (List.mem_cons_of_mem _ he')
    exact (e.2.walks e.1 (hno e (List.mem_cons_self ..))).append hrest

namespace EncodedRecord

/-- The types of a record and its events. -/
def types (r : EncodedRecord) : List EventType := r.type :: r.events.map fun e => e.2.type

/-- The first word of a record carries its type. -/
theorem headWords_eq (r : EncodedRecord) :
    ∃ w ws, r.headWords = w :: ws ∧ EventType.ofCode? (decodeType w) = some r.type ∧
      ws.length = skippedWords r.type := by
  cases r with
  | buf threadId _ _ =>
    have htype := decodeType_tagged .buf threadId (by decide)
    exact ⟨_, _, rfl, (congrArg _ htype).trans (ofCode?_code _), rfl⟩
  | death threadId _ =>
    have htype := decodeType_extTagged .death threadId (by decide) (by decide)
    exact ⟨_, _, rfl, (congrArg _ htype).trans (ofCode?_code _), rfl⟩
  | syncBarrier tsAndCpu =>
    have htype : decodeType EventType.syncBarrier.code = EventType.syncBarrier.code := by decide
    exact ⟨_, _, rfl, (congrArg _ htype).trans (ofCode?_code _), rfl⟩

theorem walks {r : EncodedRecord} (hno : ∀ e ∈ r.events, e.2.type ≠ .freeSized) :
    Walks (r.headWords ++ eventWords r.events) r.types := by
  obtain ⟨w, ws, hwords, htype, hlen⟩ := r.headWords_eq
  rw [hwords]
  refine .cons htype ?_ hlen (walks_eventWords hno)
  cases r <;> exact fun h => by cases h

end EncodedRecord

/-- No sized free is written. -/
def NoSizedFrees (records : List EncodedRecord) : Prop :=
  ∀ r ∈ records, ∀ e ∈ r.events, e.2.type ≠ .freeSized

instance (records : List EncodedRecord) : Decidable (NoSizedFrees records) := by
  unfold NoSizedFrees
  infer_instance

/-- The words of the records of a stream. -/
theorem walks_records {records : List EncodedRecord} (hno : NoSizedFrees records) :
    ∃ words, writeEncoded records = writeWords words ∧
      Walks words (records.flatMap (·.types)) := by
  induction records with
  | nil => exact ⟨[], rfl, .nil⟩
  | cons r records ih =>
    obtain ⟨words, hbytes, hwalks⟩ := ih fun r' hr' => hno r' (List.mem_cons_of_mem _ hr')
    refine ⟨(r.headWords ++ eventWords r.events) ++ words, ?_,
      (EncodedRecord.walks (hno r (List.mem_cons_self ..))).append hwalks⟩
    rw [writeWords_append, ← hbytes]
    rfl

/-- The types of a stream that are not those of outer records are the types of its events. -/
theorem count_types {type : EventType} (htype : ∀ r : EncodedRecord, r.type ≠ type)
    (records : List EncodedRecord) :
    (records.flatMap (·.types)).count type = eventCount type records := by
  unfold eventCount
  induction records with
  | nil => rfl
  | cons r records ih =>
    have hhead : r.types.count type = r.events.countP fun e => e.2.type = type := by
      rw [EncodedRecord.types, List.count_cons_of_ne (htype r), List.count, List.countP_map]
      rfl
    rw [List.flatMap_cons, List.flatMap_cons, List.count_append, List.countP_append, ih, hhead]

/-- **The tally of a stream without sized frees**: the loop ends at the end record, and the
counters are the numbers of the events. -/
theorem EvCounter.processAll_stream {b : UInt64} {records : List EncodedRecord}
    (hfits : b.toNat + (recordStream records).length ≤ 2 ^ 63) (hno : NoSizedFrees records)
    (ndebug : Bool) (stack : StackBytes) (lastBuf : UInt64) :
    ∃ fuel c c', (new (ConstMapper.ofBytes b (recordStream records)) lastBuf).processAll ndebug
        stack fuel = .ok (c, c') ∧
      c.s.ptr.toNat = b.toNat + (writeEncoded records).length ∧
      c'.mallocs.toNat = eventCount .malloc records ∧
      c'.frees.toNat = eventCount .free records ∧
      c'.sizedFrees.toNat = eventCount .freeSized records := by
  obtain ⟨words, hbytes, hwalks⟩ := walks_records hno
  have hnew := before_new hfits
  have hstream : recordStream records = writeWords words ++ endBytes := by
    rw [recordStream, hbytes]
  have hlen : (recordStream records).length = (writeWords words).length + endBytes.length := by
    rw [hstream, List.length_append]
  obtain ⟨c, hall, hs, hstrict, hmallocs, hfrees, hsized⟩ :=
    processAll_walks (c := new (ConstMapper.ofBytes b (recordStream records)) lastBuf) hwalks
      (by rw [← hstream]; exact hnew) rfl ndebug stack
  obtain ⟨s', hend, -⟩ := processOne_end ndebug stack hs hstrict
  -- the counters do not wrap around
  have hcount : ∀ type, (∀ r : EncodedRecord, r.type ≠ type) →
      (0 + UInt64.ofNat ((records.flatMap (·.types)).count type)).toNat =
        eventCount type records := by
    intro type htype
    have hle := List.count_le_length (a := type) (l := records.flatMap (·.types))
    have hwords := hwalks.length_le
    have hchars := length_le_writeWords words
    rw [UInt64.zero_add, UInt64.toNat_ofNat', ← count_types htype, Nat.mod_eq_of_lt (by omega)]
  refine ⟨1 + (records.flatMap (·.types)).length, c, { c with s := s' }, ?_, ?_, ?_, ?_, ?_⟩
  · rw [hall 1, processAll, hend]
    rfl
  · have hplace := hs.ptr_le hfits
    rw [hbytes]
    omega
  · show c.mallocs.toNat = _
    rw [hmallocs]
    exact hcount .malloc fun r => by cases r <;> exact fun h => by cases h
  · show c.frees.toNat = _
    rw [hfrees]
    exact hcount .free fun r => by cases r <;> exact fun h => by cases h
  · show c.sizedFrees.toNat = _
    rw [hsized]
    exact hcount .freeSized fun r => by cases r <;> exact fun h => by cases h

end MallocTraceReplay
