import MallocTraceReplay.Script.Equiv.EventsStream

/-!
# One inner event in both decoders

The state that the script has for a thread is the one that the decode functions have for it, as long
as nothing wraps around there (`SameState`).  An event whose words are below `2^56` is decoded alike
by both, unless it is a `Realloc`, whose size the script never has right (`InBuffer.next_event`).
-/

namespace MallocTraceReplay

open AltVarintCodec MallocTraceEncoder StepMachine

namespace Script

/-! ### Values -/

/-- A word as one of the integers of the script. -/
def toInt (w : UInt64) : ℤ := w.toNat

/-- The time of a word. -/
theorem land_ts (w : UInt64) : Int.land w.toNat (-1024) = toInt (w &&& kTSMask) := by
  show ((Nat.ldiff w.toNat 1023 : ℕ) : ℤ) = ((w &&& kTSMask).toNat : ℤ)
  congr 1
  apply Nat.eq_of_testBit_eq
  intro i
  have hmask : kTSMask = ~~~(1023 : UInt64) := rfl
  rw [Nat.testBit_ldiff, UInt64.toNat_and, Nat.testBit_and, hmask]
  by_cases hi : i < 64
  · have hbit : (~~~(1023 : UInt64)).toNat.testBit i = !(1023 : ℕ).testBit i := by
      have h : ∀ j : Fin 64, (~~~(1023 : UInt64)).toNat.testBit j = !(1023 : ℕ).testBit j := by
        decide
      exact h ⟨i, hi⟩
    rw [hbit]
  · have hhigh : w.toNat.testBit i = false :=
      Nat.testBit_lt_two_pow (w.toNat_lt.trans_le (Nat.pow_le_pow_right (by decide) (by omega)))
    rw [hhigh, Bool.false_and, Bool.false_and]

/-- The cpu of a word. -/
theorem land_cpu (w : UInt64) : Int.land w.toNat 1023 = toInt (w &&& ~~~kTSMask) := by
  show ((w.toNat &&& 1023 : ℕ) : ℤ) = ((w &&& ~~~kTSMask).toNat : ℤ)
  rw [UInt64.toNat_and]
  rfl

/-- The difference of two words in the lower half. -/
theorem toInt_sub_toInt64 {a b : UInt64} (ha : a.toNat < 2 ^ 62) (hb : b.toNat < 2 ^ 62) :
    (a - b).toInt64.toInt = (a.toNat : ℤ) - b.toNat := by
  have hnat : (a - b).toNat = (2 ^ 64 - b.toNat + a.toNat) % 2 ^ 64 := UInt64.toNat_sub ..
  show (a - b).toBitVec.toInt = _
  rw [BitVec.toInt_eq_toNat_cond]
  show (if 2 * (a - b).toNat < 2 ^ 64 then _ else _) = _
  change (if 2 * (a - b).toNat < 2 ^ 64 then ((a - b).toNat : ℤ)
    else ((a - b).toNat : ℤ) - (2 ^ 64 : ℕ)) = _
  split <;> omega

/-- A size is what the script adds up. -/
theorem unzigzag_size {size : UInt64} {prevSize : Int64} (hsize : size.toNat ≤ 2 ^ 58 - 8)
    (hprev : prevSize.toUInt64.toNat < 2 ^ 55) :
    unzigzag (zigzag (sizeUnits size - prevSize)).toNat + (prevSize.toUInt64.toNat : ℤ) =
      (sizeUnits size).toUInt64.toNat := by
  have hunits := toNat_sizeUnits hsize
  have hdiff : (sizeUnits size - prevSize).toInt =
      ((sizeUnits size).toUInt64.toNat : ℤ) - prevSize.toUInt64.toNat := by
    rw [← toInt_sub_toInt64 (by omega) (by omega), ← Int64.toUInt64_sub, Int64.toInt64_toUInt64]
  rw [unzigzag_toNat_zigzag, hdiff]
  omega

/-- A token is what the script adds up. -/
theorem unzigzag_token {token prevToken : UInt64} (htoken : token.toNat < 2 ^ 60)
    (hprev : prevToken.toNat < 2 ^ 60) :
    unzigzag (zigzag (token - prevToken).toInt64).toNat + (prevToken.toNat : ℤ) = token.toNat := by
  rw [unzigzag_toNat_zigzag, toInt_sub_toInt64 (by omega) (by omega)]
  omega

/-- A size of the decode functions does not wrap around. -/
theorem toNat_shiftLeft_three {u : UInt64} (hu : u.toNat < 2 ^ 55) :
    (u <<< 3).toNat = u.toNat * 8 := by
  rw [UInt64.toNat_shiftLeft]
  show u.toNat <<< 3 % 2 ^ 64 = _
  rw [Nat.shiftLeft_eq]
  omega

/-! ### Streams within a buffer -/

namespace EventsStream

/-- The stream stands in a buffer of a thread. -/
structure InBuffer (s : EventsStream) (t : ThreadState) (bytes main : List UInt8) : Prop where
  done : s.done = false
  curr : s.currThread = some t
  own : s.threadStates t.threadId = some t
  buf : s.buf = some bytes
  main : s.main = main

variable {s : EventsStream} {t t' : ThreadState} {bytes rest main : List UInt8} {w w₂ x : UInt64}
  {ws : List UInt64} {ev : StreamEvent ℤ}

/-- The stream further on in the buffer. -/
theorem InBuffer.setIo (h : InBuffer s t bytes main) (rest : List UInt8) :
    InBuffer (s.setIo rest) t rest main := by
  have hset : s.setIo rest = { s with buf := some rest } := by
    unfold EventsStream.setIo
    rw [h.buf]
  rw [hset]
  exact ⟨h.done, h.curr, h.own, rfl, h.main⟩

theorem setIo_threadStates (s : EventsStream) (rest : List UInt8) :
    (s.setIo rest).threadStates = s.threadStates := by
  unfold EventsStream.setIo
  split <;> rfl

theorem InBuffer.io (h : InBuffer s t bytes main) : s.io = bytes := by
  rw [EventsStream.io, h.buf]
  rfl

/-- Nothing is refilled where the buffer goes on. -/
theorem InBuffer.refill (h : InBuffer s t (writeWords (w :: ws) ++ rest) main) :
    s.refill = .ok s := by
  rw [EventsStream.refill, h.io, isEmpty_writeWords_append, if_neg (by simp)]

/-- A method of the thread is called. -/
theorem InBuffer.consume (h : InBuffer s t bytes main)
    {f : ThreadState → Except Raised (StreamEvent ℤ × ThreadState)} (hf : f t = .ok (ev, t'))
    (hid : t'.threadId = t.threadId) :
    ∃ s', s.consume f = .ok (ev, s') ∧ InBuffer s' t' bytes main ∧
      ∀ id, id ≠ t.threadId → s'.threadStates id = s.threadStates id := by
  unfold EventsStream.consume
  rw [h.curr]
  dsimp only
  rw [hf, ok_bind]
  refine ⟨_, rfl, ⟨h.done, rfl, ?_, h.buf, h.main⟩, fun id hne => if_neg fun hand => hne hand.1⟩
  exact if_pos ⟨hid, by rw [hid, h.own]; rfl⟩

/-- An event of one word. -/
theorem InBuffer.next_one (h : InBuffer s t (writeWords [w] ++ rest) main) (ev : StreamEvent ℤ)
    (t' : ThreadState) {code : ℕ}
    (hfirst : ∀ s₂, s.readVarint = .ok (w.toNat, s₂) → s.next = s₂.nextCase w.toNat x.toNat code)
    {f : ThreadState → Except Raised (StreamEvent ℤ × ThreadState)}
    (hcase : ∀ s₂ : EventsStream, s₂.nextCase w.toNat x.toNat code = s₂.consume f)
    (hf : f t = .ok (ev, t')) (hid : t'.threadId = t.threadId) :
    ((∃ v ∈ [w], 2 ^ 56 ≤ v.toNat) → ∃ e, s.next = .error e) ∧
      ((∀ v ∈ [w], v.toNat < 2 ^ 56) → ∃ s', s.next = .ok (ev, s') ∧ InBuffer s' t' rest main ∧
        ∀ id, id ≠ t.threadId → s'.threadStates id = s.threadStates id) := by
  constructor
  · rintro ⟨v, hv, hlong⟩
    obtain rfl := List.mem_singleton.mp hv
    exact next_of_ge h.done h.refill h.io hlong
  · intro hshort
    have hread := readVarint_of_lt h.io (hshort w (List.mem_cons_self ..))
    have h₂ : InBuffer (s.setIo (writeWords [] ++ rest)) t rest main := h.setIo rest
    obtain ⟨s', hconsume, hs', hother⟩ := h₂.consume hf hid
    refine ⟨s', ?_, hs', fun id hne => ?_⟩
    · rw [hfirst _ hread, hcase, hconsume]
    · rw [hother id hne, setIo_threadStates]

/-- An event of two words. -/
theorem InBuffer.next_two (h : InBuffer s t (writeWords [w, w₂] ++ rest) main)
    (ev : StreamEvent ℤ) (t' : ThreadState) {code : ℕ}
    (hfirst : ∀ s₂, s.readVarint = .ok (w.toNat, s₂) → s.next = s₂.nextCase w.toNat x.toNat code)
    {f : ℕ → ThreadState → Except Raised (StreamEvent ℤ × ThreadState)}
    (hcase : ∀ s₂ : EventsStream, s₂.nextCase w.toNat x.toNat code =
      s₂.readVarint >>= fun r => r.2.consume (f r.1))
    (hf : f w₂.toNat t = .ok (ev, t')) (hid : t'.threadId = t.threadId) :
    ((∃ v ∈ [w, w₂], 2 ^ 56 ≤ v.toNat) → ∃ e, s.next = .error e) ∧
      ((∀ v ∈ [w, w₂], v.toNat < 2 ^ 56) → ∃ s', s.next = .ok (ev, s') ∧ InBuffer s' t' rest main ∧
        ∀ id, id ≠ t.threadId → s'.threadStates id = s.threadStates id) := by
  have h₂ : InBuffer (s.setIo (writeWords [w₂] ++ rest)) t (writeWords [w₂] ++ rest) main :=
    h.setIo _
  constructor
  · rintro ⟨v, hv, hlong⟩
    by_cases hw : w.toNat < 2 ^ 56
    · -- the second word is the long one
      have hread := readVarint_of_lt h.io hw
      have hsecond : 2 ^ 56 ≤ w₂.toNat := by
        rcases List.mem_cons.mp hv with rfl | hv
        · omega
        · obtain rfl := List.mem_singleton.mp hv
          exact hlong
      obtain ⟨e, he⟩ := readVarint_of_ge h₂.io hsecond
      exact ⟨e, by rw [hfirst _ hread, hcase, he]; rfl⟩
    · exact next_of_ge h.done h.refill h.io (Nat.le_of_not_lt hw)
  · intro hshort
    have hread := readVarint_of_lt h.io (hshort w (List.mem_cons_self ..))
    have hread₂ := readVarint_of_lt h₂.io (hshort w₂ (by simp))
    have h₃ : InBuffer ((s.setIo (writeWords [w₂] ++ rest)).setIo (writeWords [] ++ rest)) t rest
      main := h₂.setIo rest
    obtain ⟨s', hconsume, hs', hother⟩ := h₃.consume hf hid
    refine ⟨s', ?_, hs', fun id hne => ?_⟩
    · rw [hfirst _ hread, hcase, hread₂, ok_bind, hconsume]
    · rw [hother id hne, setIo_threadStates, setIo_threadStates]

end EventsStream

/-! ### The states of both decoders -/

/-- What both have for a thread, and its encoder (`none` before its first event); `n` events are
to come, too few for the counter of the allocations to wrap around. -/
structure SameState (n : ℕ) (threadId : UInt64) (e : Option EncoderState) (d : DecoderState)
    (t : ThreadState) : Prop where
  threadId : t.threadId = toInt threadId
  prevSize : t.prevSize = toInt d.prevSize
  prevToken : t.prevToken = toInt d.prevToken
  encoderSize : d.prevSize = (e.getD .init).prevSize.toUInt64
  encoderToken : d.prevToken = (e.getD .init).prevToken
  size_lt : d.prevSize.toNat < 2 ^ 55
  token_lt : d.prevToken.toNat < 2 ^ 60
  tok : e ≠ none → t.mallocTokSeq = some (toInt d.mallocTokSeq)
  room : d.mallocTokSeq.toNat + n < 2 ^ 64

theorem SameState.mono {n n' : ℕ} {threadId : UInt64} {e : Option EncoderState} {d : DecoderState}
    {t : ThreadState} (h : SameState n threadId e d t) (hle : n' ≤ n) :
    SameState n' threadId e d t :=
  { h with room := by have := h.room; omega }

/-- The states of a thread without events. -/
theorem sameState_init {n : ℕ} (hn : n < 2 ^ 64) (threadId : UInt64) :
    SameState n threadId none .init { threadId := toInt threadId } where
  threadId := rfl
  prevSize := rfl
  prevToken := rfl
  encoderSize := rfl
  encoderToken := rfl
  size_lt := by decide
  token_lt := by decide
  tok h := absurd rfl h
  room := by
    show 0 + n < 2 ^ 64
    omega

/-! ### One event -/

namespace SameState

variable {n : ℕ} {threadId : UInt64} {e : Option EncoderState} {d : DecoderState} {t : ThreadState}

/-- The sum of a size difference, for the script. -/
theorem add_size (h : SameState n threadId e d t) {size : UInt64}
    (hsize : size.toNat ≤ 2 ^ 58 - 8) :
    unzigzag (zigzag (sizeUnits size - (e.getD .init).prevSize)).toNat + t.prevSize =
      toInt (sizeUnits size).toUInt64 := by
  have hlt := h.size_lt
  rw [h.encoderSize] at hlt
  rw [h.prevSize, h.encoderSize]
  exact unzigzag_size hsize hlt

/-- The sum of a token difference, for the script. -/
theorem add_token (h : SameState n threadId e d t) {token : UInt64}
    (htoken : token.toNat < 2 ^ 60) :
    unzigzag (zigzag (token - (e.getD .init).prevToken).toInt64).toNat + t.prevToken =
      toInt token := by
  have hlt := h.token_lt
  rw [h.encoderToken] at hlt
  rw [h.prevToken, h.encoderToken]
  exact unzigzag_token htoken hlt

/-- The room that the word of a size has for a type. -/
theorem size_room (h : SameState n threadId e d t) {size : UInt64}
    (hsize : size.toNat ≤ 2 ^ 58 - 8) :
    (zigzag (sizeUnits size - (e.getD .init).prevSize)).toNat < 2 ^ 56 :=
  toNat_sizeDifference_lt hsize (by rw [← h.encoderSize]; exact h.size_lt)

/-- The room that the word of a token has for a type. -/
theorem token_room (h : SameState n threadId e d t) {token : UInt64}
    (htoken : token.toNat < 2 ^ 60) :
    (zigzag (token - (e.getD .init).prevToken).toInt64).toNat < 2 ^ 61 :=
  toNat_tokenDifference_lt htoken (by rw [← h.encoderToken]; exact h.token_lt)

/-- A size in bytes, for the script. -/
theorem size_bytes {size : UInt64} (hsize : size.toNat ≤ 2 ^ 58 - 8) :
    toInt (sizeUnits size).toUInt64 <<< (3 : ℕ) = toInt ((sizeUnits size).toUInt64 <<< 3) := by
  have hnat := toNat_shiftLeft_three (sizeUnits_lt hsize)
  rw [Int.shiftLeft_eq]
  unfold toInt
  omega

/-- The counter after an allocation. -/
theorem tok_succ (h : SameState (n + 1) threadId e d t) :
    (d.mallocTokSeq + 1).toNat = d.mallocTokSeq.toNat + 1 := by
  have := h.room
  rw [UInt64.toNat_add]
  show (_ + 1) % 2 ^ 64 = _
  omega

/-- An allocation takes the next token. -/
theorem nextTok (h : SameState (n + 1) threadId e d t) (he : e ≠ none) (size : ℤ) :
    ({ t with prevSize := size } : ThreadState).nextTok = .ok (toInt d.mallocTokSeq,
      { t with prevSize := size, mallocTokSeq := some (toInt (d.mallocTokSeq + 1)) }) := by
  have hsucc : toInt (d.mallocTokSeq + 1) = toInt d.mallocTokSeq + 1 := by
    have := h.tok_succ
    unfold toInt
    omega
  rw [ThreadState.nextTok, hsucc]
  dsimp only
  rw [h.tok he]

end SameState

/-- What a call of `next` does on an event of some words: it raises when a word is too long, and
otherwise returns what the decode functions have, but for a `Realloc`. -/
structure NextEvent (n : ℕ) (threadId : UInt64) (r : InnerRecord) (e : EncoderState)
    (s : EventsStream) (t : ThreadState) (rest main : List UInt8) (ev : StreamEvent UInt64)
    (d' : DecoderState) : Prop where
  long : (∃ w ∈ (r.words e).1, 2 ^ 56 ≤ w.toNat) → ∃ err, s.next = .error err
  short : (∀ w ∈ (r.words e).1, w.toNat < 2 ^ 56) → ∃ ev' s' t', s.next = .ok (ev', s') ∧
    s'.InBuffer t' rest main ∧ (∀ id, id ≠ t.threadId → s'.threadStates id = s.threadStates id) ∧
    (if r.type = .realloc then ev.map toInt ≠ ev'
      else ev.map toInt = ev' ∧ SameState n threadId (some (r.words e).2) d' t')

variable {n : ℕ} {threadId : UInt64} {e : Option EncoderState} {d : DecoderState} {t : ThreadState}
  {s : EventsStream} {rest main : List UInt8} {r : InnerRecord}

/-- The last part of `NextEvent`, from a call that returns one event. -/
theorem nextEvent_of {enc : EncoderState} {ev : StreamEvent UInt64} {d' : DecoderState}
    {ev' : StreamEvent ℤ} {t' : ThreadState}
    (hcalls : ((∃ w ∈ (r.words enc).1, 2 ^ 56 ≤ w.toNat) → ∃ err, s.next = .error err) ∧
      ((∀ w ∈ (r.words enc).1, w.toNat < 2 ^ 56) → ∃ s', s.next = .ok (ev', s') ∧
        s'.InBuffer t' rest main ∧ ∀ id, id ≠ t.threadId → s'.threadStates id = s.threadStates id))
    (hlast : if r.type = .realloc then ev.map toInt ≠ ev'
      else ev.map toInt = ev' ∧ SameState n threadId (some (r.words enc).2) d' t') :
    NextEvent n threadId r enc s t rest main ev d' where
  long := hcalls.1
  short hall := by
    obtain ⟨s', hnext, hs', hother⟩ := hcalls.2 hall
    exact ⟨ev', s', t', hnext, hs', hother, hlast⟩

/-- The value of a word with a type of three bits, for the script. -/
theorem tagged_shiftRight_three {x c : UInt64} (hx : x.toNat < 2 ^ 61) (hc : c.toNat < 8) :
    ((x <<< kTypeShift) ||| c).toNat >>> 3 = x.toNat :=
  toNat_tagged_shiftRight (k := kTypeShift) (by decide) hx hc

/-- The value of a word with a type of eight bits, for the script. -/
theorem tagged_shiftRight_eight {x c : UInt64} (hx : x.toNat < 2 ^ 56) (hc : c.toNat < 256) :
    ((x <<< kExtTypeShift) ||| c).toNat >>> 8 = x.toNat :=
  toNat_tagged_shiftRight (k := kExtTypeShift) (by decide) hx hc

/-- **One event** in both decoders. -/
theorem EventsStream.InBuffer.next_event
    (hs : s.InBuffer t (writeWords (r.words (e.getD .init)).1 ++ rest) main)
    (h : SameState (n + 1) threadId e d t) (hn : n < 2 ^ 63) (hr : r.InRange)
    (hfirst : e = none → r.type = .tok) :
    ∃ ev d', decodeEvent threadId d (r.words (e.getD .init)).1 = some (ev, d') ∧
      NextEvent n threadId r (e.getD .init) s t rest main ev d' := by
  have hroom : d.mallocTokSeq.toNat + n < 2 ^ 64 := by
    have := h.room
    omega
  have hroom' : (d.mallocTokSeq + 1).toNat + n < 2 ^ 64 := by
    have := h.room
    rw [h.tok_succ]
    omega
  cases r with
  | free token =>
    have he : e ≠ none := fun he => absurd (hfirst he) (by simp [InnerRecord.type])
    have hx := h.token_room hr
    refine ⟨.free threadId token, { d with prevToken := token }, ?_, ?_⟩
    · simp only [decodeEvent, InnerRecord.words, encodeFree, decodeType_tagged .free _ (by decide),
        ofCode?_code, decodeFree]
      rw [tagged_shiftRight (by decide) hx (by decide), h.encoderToken, add_tokenDifference]
    · have hcalls := hs.next_one (.free t.threadId (toInt token))
        { t with prevToken := toInt token }
        (fun s₂ hread => next_tagged hs.done hs.refill .free hx (by decide) hread) (fun _ => rfl)
        (by rw [ThreadState.consumeFree, tagged_shiftRight_three hx (by decide),
          h.add_token hr]) rfl
      refine nextEvent_of hcalls ⟨by rw [h.threadId]; rfl, ?_⟩
      exact { h with
        prevToken := rfl
        encoderToken := rfl
        token_lt := hr
        tok := fun _ => h.tok he
        room := hroom }
  | freeSized token =>
    have he : e ≠ none := fun he => absurd (hfirst he) (by simp [InnerRecord.type])
    have hx := h.token_room hr
    refine ⟨.freeSized threadId token, { d with prevToken := token }, ?_, ?_⟩
    · simp only [decodeEvent, InnerRecord.words, encodeFreeSized,
        decodeType_tagged .freeSized _ (by decide), ofCode?_code, decodeFreeSized]
      rw [tagged_shiftRight (by decide) hx (by decide), h.encoderToken, add_tokenDifference]
    · have hcalls := hs.next_one (.freeSized t.threadId (toInt token))
        { t with prevToken := toInt token }
        (fun s₂ hread => next_tagged hs.done hs.refill .freeSized hx (by decide) hread)
        (fun _ => rfl)
        (by rw [ThreadState.consumeFreeSized, tagged_shiftRight_three hx (by decide),
          h.add_token hr]) rfl
      refine nextEvent_of hcalls ⟨by rw [h.threadId]; rfl, ?_⟩
      exact { h with
        prevToken := rfl
        encoderToken := rfl
        token_lt := hr
        tok := fun _ => h.tok he
        room := hroom }
  | malloc size =>
    have he : e ≠ none := fun he => absurd (hfirst he) (by simp [InnerRecord.type])
    have hx := (h.size_room hr).trans (show 2 ^ 56 < 2 ^ 61 by decide)
    refine ⟨.malloc threadId d.mallocTokSeq ((sizeUnits size).toUInt64 <<< 3),
      { d with prevSize := (sizeUnits size).toUInt64, mallocTokSeq := d.mallocTokSeq + 1 }, ?_, ?_⟩
    · simp only [decodeEvent, InnerRecord.words, encodeMalloc,
        decodeType_tagged .malloc _ (by decide), ofCode?_code, decodeMalloc]
      rw [tagged_shiftRight (by decide) hx (by decide), h.encoderSize, add_sizeDifference]
    · have hcalls := hs.next_one
        (.malloc t.threadId (toInt d.mallocTokSeq) (toInt ((sizeUnits size).toUInt64 <<< 3)))
        { t with
          prevSize := toInt (sizeUnits size).toUInt64
          mallocTokSeq := some (toInt (d.mallocTokSeq + 1)) }
        (fun s₂ hread => next_tagged hs.done hs.refill .malloc hx (by decide) hread)
        (fun _ => rfl)
        (by
          rw [ThreadState.consumeMalloc, tagged_shiftRight_three hx (by decide), h.add_size hr,
            SameState.size_bytes hr]
          dsimp only
          rw [h.nextTok he]
          rfl) rfl
      refine nextEvent_of hcalls ⟨by rw [h.threadId]; rfl, ?_⟩
      exact { h with
        prevSize := rfl
        encoderSize := rfl
        size_lt := sizeUnits_lt hr
        tok := fun _ => rfl
        room := hroom' }
  | memalign size alignment =>
    have he : e ≠ none := fun he => absurd (hfirst he) (by simp [InnerRecord.type])
    have hx := h.size_room hr
    refine ⟨.memalign threadId d.mallocTokSeq ((sizeUnits size).toUInt64 <<< 3) alignment,
      { d with prevSize := (sizeUnits size).toUInt64, mallocTokSeq := d.mallocTokSeq + 1 }, ?_, ?_⟩
    · simp only [decodeEvent, InnerRecord.words, encodeMemalign,
        decodeType_extTagged .memalign _ (by decide) (by decide), ofCode?_code, decodeMemalign]
      rw [tagged_shiftRight (by decide) hx (by decide), h.encoderSize, add_sizeDifference]
    · have hcalls := hs.next_two
        (.memalign t.threadId (toInt d.mallocTokSeq) (toInt ((sizeUnits size).toUInt64 <<< 3))
          (toInt alignment))
        { t with
          prevSize := toInt (sizeUnits size).toUInt64
          mallocTokSeq := some (toInt (d.mallocTokSeq + 1)) }
        (fun s₂ hread =>
          next_extTagged hs.done hs.refill .memalign hx (by decide) (by decide) hread)
        (fun _ => rfl)
        (by
          rw [ThreadState.consumeMemalign, tagged_shiftRight_eight hx (by decide), h.add_size hr,
            SameState.size_bytes hr]
          dsimp only
          rw [h.nextTok he]
          rfl) rfl
      refine nextEvent_of hcalls ⟨by rw [h.threadId]; rfl, ?_⟩
      exact { h with
        prevSize := rfl
        encoderSize := rfl
        size_lt := sizeUnits_lt hr
        tok := fun _ => rfl
        room := hroom' }
  | tok tokenBase ts cpu =>
    have hx : tokenBase.toNat < 2 ^ 61 := hr
    set w₂ := bundleTsAndCpu ts cpu with hw₂
    refine ⟨.tok tokenBase (w₂ &&& kTSMask) (w₂ &&& ~~~kTSMask),
      { d with mallocTokSeq := tokenBase },
      ?_, ?_⟩
    · simp only [decodeEvent, InnerRecord.words, encodeToken,
        decodeType_tagged .tok _ (by decide), ofCode?_code, decodeToken, unbundleTsAndCpu, ← hw₂]
      rw [tagged_shiftRight (by decide) hx (by decide)]
    · have hcase : ∀ s₂ : EventsStream,
          s₂.nextCase ((tokenBase <<< kTypeShift) ||| EventType.tok.code).toNat tokenBase.toNat
            EventType.tok.code.toNat = s₂.readVarint >>= fun r => r.2.consume
              (ThreadState.consumeTok tokenBase.toNat (Int.land r.1 (-1024),
                Int.land r.1 1023)) := by
        intro s₂
        show s₂.readTsAndCpu >>= _ = _
        rw [EventsStream.readTsAndCpu]
        cases s₂.readVarint <;> rfl
      have hcalls := hs.next_two
        (.tok (toInt tokenBase) (toInt (w₂ &&& kTSMask)) (toInt (w₂ &&& ~~~kTSMask)))
        { t with mallocTokSeq := some (toInt tokenBase) }
        (fun s₂ hread => next_tagged hs.done hs.refill .tok hx (by decide) hread)
        (f := fun word => ThreadState.consumeTok tokenBase.toNat
          (Int.land word (-1024), Int.land word 1023)) hcase
        (by rw [← land_ts, ← land_cpu]; rfl) rfl
      refine nextEvent_of hcalls ⟨rfl, ?_⟩
      exact { h with
        tok := fun _ => rfl
        room := (by omega : tokenBase.toNat + n < 2 ^ 64) }
  | realloc oldToken newSize =>
    obtain ⟨htoken, hsize⟩ := hr
    have he : e ≠ none := fun he => absurd (hfirst he) (by simp [InnerRecord.type])
    have hx := h.size_room hsize
    set z := zigzag (sizeUnits newSize - (e.getD .init).prevSize) with hz
    refine ⟨.realloc threadId d.mallocTokSeq ((sizeUnits newSize).toUInt64 <<< 3) oldToken,
      { prevSize := (sizeUnits newSize).toUInt64, prevToken := oldToken,
        mallocTokSeq := d.mallocTokSeq + 1 }, ?_, ?_⟩
    · simp only [decodeEvent, InnerRecord.words, encodeRealloc,
        decodeType_extTagged .realloc _ (by decide) (by decide), ofCode?_code, decodeRealloc, ← hz]
      rw [tagged_shiftRight (by decide) hx (by decide), h.encoderSize, hz, add_sizeDifference,
        h.encoderToken, add_tokenDifference]
    · -- five bits of the type stay below the size
      have hwrong : unzigzag (((z <<< kExtTypeShift) ||| EventType.realloc.code).toNat >>> 3) =
          16 * z.toNat + 1 := by
        have hword : ((z <<< kExtTypeShift) ||| EventType.realloc.code).toNat =
            z.toNat * 2 ^ 8 + 0x17 := toNat_tagged (by decide) hx (by decide)
        have hhalf : (z.toNat * 2 ^ 8 + 0x17) >>> 3 = 2 * (16 * z.toNat + 1) := by
          rw [Nat.shiftRight_eq_div_pow]
          omega
        rw [hword, hhalf, unzigzag_even]
        push_cast
        ring
      have hcalls := hs.next_two
        (.realloc t.threadId (toInt d.mallocTokSeq)
          ((16 * (z.toNat : ℤ) + 1 + t.prevSize) <<< (3 : ℕ))
          (toInt oldToken))
        { t with
          prevSize := 16 * (z.toNat : ℤ) + 1 + t.prevSize
          prevToken := toInt oldToken
          mallocTokSeq := some (toInt (d.mallocTokSeq + 1)) }
        (fun s₂ hread =>
          next_extTagged hs.done hs.refill .realloc hx (by decide) (by decide) hread)
        (fun _ => rfl)
        (by
          rw [ThreadState.consumeRealloc, hwrong]
          dsimp only
          rw [h.nextTok he, ok_bind]
          dsimp only
          rw [h.add_token htoken]
          rfl) rfl
      have htype : (InnerRecord.realloc oldToken newSize).type = .realloc := rfl
      refine nextEvent_of hcalls ?_
      rw [if_pos htype]
      intro heq
      -- the size that the script has is too large
      have hsizes := (StreamEvent.realloc.inj heq).2.2.1
      have hadd := h.add_size hsize
      rw [← hz] at hadd
      rw [← SameState.size_bytes hsize, ← hadd, Int.shiftLeft_eq, Int.shiftLeft_eq] at hsizes
      rcases Nat.even_or_odd' z.toNat with ⟨k, hk | hk⟩
      · rw [hk, unzigzag_even] at hsizes
        omega
      · rw [hk, unzigzag_odd] at hsizes
        omega

end Script

end MallocTraceReplay
