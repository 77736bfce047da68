import MallocTraceReplay.Codec.Equiv.TraceEncoder
import MallocTraceReplay.Serializer.Decoding

/-!
# Round trip of the events of a thread

The decoder of a thread makes of the bytes that `writeEvents` gives the events that were written
(`decodeBytes_writeEvents`).  Encoder and decoder stay in step (`InStep`): the `prev_size` and
`prev_token` of the one are those of the other, and the token counter of the decoder is the one that
the records mean (`Meaning`).
-/

namespace MallocTraceReplay

open AltVarintCodec MallocTraceEncoder StepMachine

/-! ### What records mean -/

/-- What the records of a thread have said so far: the last token base, the number of allocations
since, and the time. -/
structure Meaning where
  tokenBase : UInt64
  allocations : ℕ
  ts : UInt64
  cpu : UInt64
  deriving DecidableEq, Repr

namespace Meaning

/-- The token of the next allocation. -/
def token (k : Meaning) : UInt64 := k.tokenBase + UInt64.ofNat k.allocations

def allocate (k : Meaning) : Meaning := { k with allocations := k.allocations + 1 }

theorem token_allocate (k : Meaning) : k.allocate.token = k.token + 1 := by
  unfold token allocate
  rw [UInt64.ofNat_add, UInt64.add_assoc]
  rfl

end Meaning

/-- The event of a record (a `Tok` has none), and what has been said after it. -/
def InnerRecord.means (k : Meaning) : InnerRecord → Option InnerEvent × Meaning
  | .tok tokenBase ts cpu =>
    (none, { tokenBase := tokenBase, allocations := 0, ts := ts, cpu := cpu })
  | .malloc size => (some (.malloc k.token (roundUp8 size)), k.allocate)
  | .memalign size alignment => (some (.memalign k.token (roundUp8 size) alignment), k.allocate)
  | .free token => (some (.free token), k)
  | .freeSized token => (some (.freeSized token), k)
  | .realloc oldToken newSize => (some (.realloc oldToken k.token (roundUp8 newSize)), k.allocate)

/-- The events of some records, with their times. -/
def eventsMean : Meaning → List InnerRecord → List TraceEvent × Meaning
  | k, [] => ([], k)
  | k, r :: rs =>
    let (ev?, k) := r.means k
    let (es, k') := eventsMean k rs
    ((ev?.map fun ev => ⟨ev, k.ts, k.cpu⟩).toList ++ es, k')

/-! ### Encoder and decoder in step -/

/-- The decoder `t` knows what the encoder `s` and the records so far say. -/
structure InStep (s : EncoderState) (k : Meaning) (t : ThreadState) : Prop where
  prevSize : t.prevSize = s.prevSize.toUInt64
  prevToken : t.prevToken = s.prevToken
  mallocTokSeq : t.mallocTokSeq = k.token
  lastTs : t.lastTs = k.ts
  lastCpu : t.lastCpu = k.cpu
  size_lt : s.prevSize.toUInt64.toNat < 2 ^ 55
  token_lt : s.prevToken.toNat < 2 ^ 60

/-- The word at the front of written words. -/
@[simp] theorem readWord_writeWords (w : UInt64) (ws : List UInt64) (rest : List UInt8) :
    readWord (writeWords (w :: ws) ++ rest) = .ok (w, writeWords ws ++ rest) := by
  rw [writeWords, List.flatMap_cons, List.append_assoc, readWord, readVarint_encode]
  rfl

/-- A size is what the decoder adds up. -/
theorem add_sizeDifference {size : UInt64} {prevSize : Int64} :
    (unzigzag (zigzag (sizeUnits size - prevSize))).toUInt64 + prevSize.toUInt64 =
      (sizeUnits size).toUInt64 := by
  rw [unzigzag_zigzag, Int64.toUInt64_sub, UInt64.sub_add_cancel]

/-- A token is what the decoder adds up. -/
theorem add_tokenDifference {token prevToken : UInt64} :
    (unzigzag (zigzag (token - prevToken).toInt64)).toUInt64 + prevToken = token := by
  rw [unzigzag_zigzag, UInt64.toUInt64_toInt64, UInt64.sub_add_cancel]

theorem sizeUnits_lt {size : UInt64} (h : size.toNat ≤ 2 ^ 58 - 8) :
    (sizeUnits size).toUInt64.toNat < 2 ^ 55 := by
  rw [toNat_sizeUnits h]
  omega

/-- The word of a size has room for a type of eight bits. -/
theorem toNat_sizeDifference_lt {size : UInt64} {prevSize : Int64}
    (h : size.toNat ≤ 2 ^ 58 - 8) (hprev : prevSize.toUInt64.toNat < 2 ^ 55) :
    (zigzag (sizeUnits size - prevSize)).toNat < 2 ^ 56 := by
  have hlt := toNat_zigzag_sub_lt (sizeUnits_lt h) hprev (by omega)
  rwa [← Int64.toUInt64_sub, Int64.toInt64_toUInt64] at hlt

/-- The word of a token has room for a type of three bits. -/
theorem toNat_tokenDifference_lt {token prevToken : UInt64} (h : token.toNat < 2 ^ 60)
    (hprev : prevToken.toNat < 2 ^ 60) : (zigzag (token - prevToken).toInt64).toNat < 2 ^ 61 :=
  toNat_zigzag_sub_lt h hprev (by omega)

variable {s : EncoderState} {k : Meaning} {t : ThreadState}

/-- An allocation takes the next token on both sides. -/
theorem InStep.mallocTokSeq_allocate (h : InStep s k t) :
    t.mallocTokSeq + 1 = k.allocate.token := by
  rw [Meaning.token_allocate, h.mallocTokSeq]

/-- **One record**: what is written is read, and encoder and decoder stay in step. -/
theorem readRecord_words (h : InStep s k t) {r : InnerRecord} (hr : r.Bounded)
    (rest : List UInt8) :
    ∃ t', readRecord t (writeWords (r.words s).1 ++ rest) = .ok ((r.means k).1, t', rest) ∧
      InStep (r.words s).2 (r.means k).2 t' := by
  have hnil : writeWords [] ++ rest = rest := rfl
  cases r with
  | tok tokenBase ts cpu =>
    obtain ⟨hbase, hts, hcpu⟩ := hr
    -- the token base and the time are set anew
    refine ⟨{ t with lastCpu := cpu, lastTs := ts, mallocTokSeq := tokenBase }, ?_, ?_⟩
    · simp only [readRecord, InnerRecord.words, encodeToken, readWord_writeWords, ok_bind,
        decodeType_tagged .tok _ (by decide), ofCode?_code, hnil,
        ThreadState.consumeTok, decodeToken, unbundle_bundle hts hcpu]
      rw [tagged_shiftRight (by decide) hbase (by decide)]
      rfl
    · exact { h with
        mallocTokSeq := by simp [InnerRecord.means, Meaning.token]
        lastTs := rfl
        lastCpu := rfl }
  | malloc size =>
    -- the difference of the sizes has room in the word
    have hlt := toNat_sizeDifference_lt hr h.size_lt
    refine ⟨{ t with prevSize := (sizeUnits size).toUInt64, mallocTokSeq := t.mallocTokSeq + 1 },
      ?_, ?_⟩
    · simp only [readRecord, InnerRecord.words, encodeMalloc, readWord_writeWords, ok_bind,
        decodeType_tagged .malloc _ (by decide), ofCode?_code, hnil,
        ThreadState.consumeMalloc, decodeMalloc]
      rw [tagged_shiftRight (by decide) (hlt.trans (by decide)) (by decide), h.prevSize,
        add_sizeDifference, sizeUnits_shiftLeft hr, h.mallocTokSeq]
      rfl
    · exact { h with
        prevSize := rfl
        size_lt := sizeUnits_lt hr
        mallocTokSeq := h.mallocTokSeq_allocate }
  | memalign size alignment =>
    have hlt := toNat_sizeDifference_lt hr h.size_lt
    refine ⟨{ t with prevSize := (sizeUnits size).toUInt64, mallocTokSeq := t.mallocTokSeq + 1 },
      ?_, ?_⟩
    · simp only [readRecord, InnerRecord.words, encodeMemalign, readWord_writeWords, ok_bind,
        decodeType_extTagged .memalign _ (by decide) (by decide), ofCode?_code, hnil,
        ThreadState.consumeMemalign, decodeMemalign]
      rw [tagged_shiftRight (by decide) hlt (by decide), h.prevSize,
        add_sizeDifference, sizeUnits_shiftLeft hr, h.mallocTokSeq]
      rfl
    · exact { h with
        prevSize := rfl
        size_lt := sizeUnits_lt hr
        mallocTokSeq := h.mallocTokSeq_allocate }
  | free token =>
    -- so has the difference of the tokens
    have hlt := toNat_tokenDifference_lt hr h.token_lt
    refine ⟨{ t with prevToken := token }, ?_, ?_⟩
    · simp only [readRecord, InnerRecord.words, encodeFree, readWord_writeWords, ok_bind,
        decodeType_tagged .free _ (by decide), ofCode?_code, hnil,
        ThreadState.consumeFree, decodeFree]
      rw [tagged_shiftRight (by decide) hlt (by decide), h.prevToken, add_tokenDifference]
      rfl
    · exact { h with prevToken := rfl, token_lt := hr }
  | freeSized token =>
    have hlt := toNat_tokenDifference_lt hr h.token_lt
    refine ⟨{ t with prevToken := token }, ?_, ?_⟩
    · simp only [readRecord, InnerRecord.words, encodeFreeSized, readWord_writeWords, ok_bind,
        decodeType_tagged .freeSized _ (by decide), ofCode?_code, hnil,
        ThreadState.consumeFreeSized, decodeFreeSized]
      rw [tagged_shiftRight (by decide) hlt (by decide), h.prevToken, add_tokenDifference]
      rfl
    · exact { h with prevToken := rfl, token_lt := hr }
  | realloc oldToken newSize =>
    obtain ⟨htoken, hsize⟩ := hr
    have hlt := toNat_sizeDifference_lt hsize h.size_lt
    -- one word has the size, the other one the token
    refine ⟨{ t with
      prevSize := (sizeUnits newSize).toUInt64, prevToken := oldToken,
      mallocTokSeq := t.mallocTokSeq + 1 }, ?_, ?_⟩
    · simp only [readRecord, InnerRecord.words, encodeRealloc, readWord_writeWords, ok_bind,
        decodeType_extTagged .realloc _ (by decide) (by decide), ofCode?_code, hnil,
        ThreadState.consumeRealloc, decodeRealloc]
      rw [tagged_shiftRight (by decide) hlt (by decide), h.prevSize, h.prevToken,
        add_sizeDifference, add_tokenDifference, sizeUnits_shiftLeft hsize, h.mallocTokSeq]
      rfl
    · exact { h with
        prevSize := rfl
        size_lt := sizeUnits_lt hsize
        prevToken := rfl
        token_lt := htoken
        mallocTokSeq := h.mallocTokSeq_allocate }

/-! ### Sequences of events -/

/-- A record at the front is decoded first. -/
theorem decodeBytes_of_record {t' : ThreadState} {bytes rest : List UInt8}
    {ev? : Option InnerEvent} (h : readRecord t bytes = .ok (ev?, t', rest)) :
    decodeBytes t bytes = ((ev?.map fun ev => ⟨ev, t'.lastTs, t'.lastCpu⟩).toList ++
      (decodeBytes t' rest).1, (decodeBytes t' rest).2) := by
  cases bytes with
  | nil => simp [readRecord, readWord, readVarint] at h
  | cons b bs =>
    rw [decodeBytes_cons, h]
    cases ev? <;> rfl

/-- **The events of a buffer** come back. -/
theorem decodeBytes_writeEvents (h : InStep s k t) {rs : List InnerRecord}
    (hrs : ∀ r ∈ rs, r.Bounded) :
    ∃ t', decodeBytes t (writeEvents s rs).1 = ((eventsMean k rs).1, .ok t') ∧
      InStep (writeEvents s rs).2 (eventsMean k rs).2 t' := by
  induction rs generalizing s k t with
  | nil => exact ⟨t, rfl, h⟩
  | cons r rs ih =>
    obtain ⟨t₁, hread, h₁⟩ := readRecord_words h (hrs r (List.mem_cons_self ..))
      (writeEvents (r.words s).2 rs).1
    obtain ⟨t₂, hdecode, h₂⟩ := ih h₁ fun r' hr' => hrs r' (List.mem_cons_of_mem _ hr')
    refine ⟨t₂, ?_, h₂⟩
    show decodeBytes t (writeWords (r.words s).1 ++ (writeEvents (r.words s).2 rs).1) = _
    rw [decodeBytes_of_record hread, hdecode, h₁.lastTs, h₁.lastCpu]
    rfl

end MallocTraceReplay
