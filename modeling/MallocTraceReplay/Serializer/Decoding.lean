import MallocTraceReplay.Serializer.Thread
import MallocTraceReplay.Codec.Equiv.AltVarint
import MallocTraceReplay.Lib.StepMachine

/-!
# What the buffers of a thread decode to

The meaning of the bytes of buffers, with no streams, windows or queues: `decodeBytes` is the
sequence of events that some bytes stand for, up to where they cannot be decoded, together with
what the thread's decoder knows after them.  Decodings are composed with `andThen`.
-/

namespace MallocTraceReplay

open AltVarintCodec MallocTraceEncoder StepMachine

/-- An event with the time stamp and the cpu of its thread when it was decoded. -/
structure TraceEvent where
  ev : InnerEvent
  ts : UInt64
  cpu : UInt64
  deriving DecidableEq, Repr

/-- Events, and how their decoding ended. -/
abbrev Decoding := List TraceEvent × Except Abort ThreadState

namespace Decoding

/-- Nothing to decode. -/
def pure (t : ThreadState) : Decoding := ([], .ok t)

/-- One more event before the others. -/
def cons (e : TraceEvent) (d : Decoding) : Decoding := (e :: d.1, d.2)

/-- What follows is decoded as well, if there was no error. -/
def andThen (d : Decoding) (f : ThreadState → Decoding) : Decoding :=
  match d.2 with
  | .ok t => (d.1 ++ (f t).1, (f t).2)
  | .error e => (d.1, .error e)

@[simp] theorem pure_andThen (t : ThreadState) (f : ThreadState → Decoding) :
    (pure t).andThen f = f t := rfl

@[simp] theorem cons_andThen (e : TraceEvent) (d : Decoding) (f : ThreadState → Decoding) :
    (cons e d).andThen f = cons e (d.andThen f) := by
  unfold andThen cons
  cases d.2 <;> rfl

@[simp] theorem andThen_pure (d : Decoding) : d.andThen pure = d := by
  obtain ⟨es, t | t⟩ := d
  · rfl
  · simp [andThen, pure]

theorem andThen_assoc (d : Decoding) (f g : ThreadState → Decoding) :
    (d.andThen f).andThen g = d.andThen fun t => (f t).andThen g := by
  obtain ⟨es, t | t⟩ := d
  · rfl
  · simp only [andThen]
    cases (f t).2 <;> simp

/-- Events that are there already come first. -/
theorem append_andThen (es : List TraceEvent) (d : Decoding) (f : ThreadState → Decoding) :
    andThen (es ++ d.1, d.2) f = (es ++ (d.andThen f).1, (d.andThen f).2) := by
  obtain ⟨es', t | t⟩ := d
  · rfl
  · simp [andThen]

/-- The events decoded first are a prefix. -/
theorem prefix_andThen (d : Decoding) (f : ThreadState → Decoding) : d.1 <+: (d.andThen f).1 := by
  unfold andThen
  cases d.2 with
  | error e => exact List.prefix_refl _
  | ok t => exact List.prefix_append _ _

theorem andThen_ok {d : Decoding} {f : ThreadState → Decoding} {t : ThreadState}
    (h : (d.andThen f).2 = .ok t) : ∃ t', d.2 = .ok t' := by
  unfold andThen at h
  cases hd : d.2 with
  | error e => simp [hd] at h
  | ok t' => exact ⟨t', rfl⟩

end Decoding

/-! ### One record -/

/-- The varint at the front, which has to be there. -/
def readWord (bytes : List UInt8) : Except Abort (UInt64 × List UInt8) :=
  match readVarint bytes with
  | none => .error (.panic "trying to realize with min_amount beyond end of data")
  | some r => .ok r

/-- The record at the front: its event (a `Tok` has none), the decoder after it, and the bytes
left. -/
def readRecord (t : ThreadState) (bytes : List UInt8) :
    Except Abort (Option InnerEvent × ThreadState × List UInt8) := do
  let (firstWord, rest) ← readWord bytes
  match EventType.ofCode? (decodeType firstWord) with
  | some .malloc =>
    let (ev, t) := t.consumeMalloc firstWord
    return (some ev, t, rest)
  | some .free =>
    let (ev, t) := t.consumeFree firstWord
    return (some ev, t, rest)
  | some .freeSized =>
    let (ev, t) := t.consumeFreeSized firstWord
    return (some ev, t, rest)
  | some .tok =>
    let (secondWord, rest) ← readWord rest
    return (none, t.consumeTok firstWord secondWord, rest)
  | some .realloc =>
    let (secondWord, rest) ← readWord rest
    let (ev, t) := t.consumeRealloc firstWord secondWord
    return (some ev, t, rest)
  | some .memalign =>
    let (secondWord, rest) ← readWord rest
    let (ev, t) := t.consumeMemalign firstWord secondWord
    return (some ev, t, rest)
  | _ => throw (.panic "unknown type")

theorem readWord_length_lt {bytes rest : List UInt8} {v : UInt64}
    (h : readWord bytes = .ok (v, rest)) : rest.length < bytes.length := by
  unfold readWord at h
  cases hr : readVarint bytes with
  | none => simp [hr] at h
  | some r =>
    simp only [hr, Except.ok.injEq] at h
    exact readVarint_length_lt (h ▸ hr)

/-- A record takes bytes. -/
theorem readRecord_length_lt {t t' : ThreadState} {bytes rest : List UInt8}
    {ev? : Option InnerEvent} (h : readRecord t bytes = .ok (ev?, t', rest)) :
    rest.length < bytes.length := by
  unfold readRecord at h
  obtain ⟨⟨w, rest₁⟩, hw, h⟩ := bind_eq_ok.mp h
  have hlt := readWord_length_lt hw
  -- the types with a second word
  have htwo : ∀ {f : UInt64 → Option InnerEvent × ThreadState},
      (readWord rest₁ >>= fun r => Except.ok ((f r.1).1, (f r.1).2, r.2)) =
        .ok (ev?, t', rest) → rest.length < bytes.length := by
    intro f h
    obtain ⟨⟨w₂, rest₂⟩, hw₂, h⟩ := bind_eq_ok.mp h
    simp only [Except.ok.injEq, Prod.mk.injEq] at h
    have hlt₂ := readWord_length_lt hw₂
    rw [← h.2.2]
    omega
  cases htype : EventType.ofCode? (decodeType w) with
  | none => simp [htype] at h
  | some type =>
    cases type with
    | malloc | free | freeSized =>
      simp only [htype, pure_eq_ok, Except.ok.injEq, Prod.mk.injEq] at h
      rw [← h.2.2]
      exact hlt
    | tok =>
      simp only [htype] at h
      exact htwo (f := fun w₂ => (none, t.consumeTok w w₂)) h
    | realloc =>
      simp only [htype] at h
      exact htwo (f := fun w₂ => (some (t.consumeRealloc w w₂).1, (t.consumeRealloc w w₂).2)) h
    | memalign =>
      simp only [htype] at h
      exact htwo (f := fun w₂ => (some (t.consumeMemalign w w₂).1, (t.consumeMemalign w w₂).2)) h
    | buf | death | end_ | syncBarrier => simp [htype] at h

/-- The decoder of a record is that of the same thread. -/
theorem readRecord_threadId {t t' : ThreadState} {bytes rest : List UInt8}
    {ev? : Option InnerEvent} (h : readRecord t bytes = .ok (ev?, t', rest)) :
    t'.threadId = t.threadId := by
  unfold readRecord at h
  obtain ⟨⟨w, rest₁⟩, -, h⟩ := bind_eq_ok.mp h
  cases htype : EventType.ofCode? (decodeType w) with
  | none => simp [htype] at h
  | some type =>
    cases type with
    | malloc | free | freeSized =>
      simp only [htype, pure_eq_ok, Except.ok.injEq, Prod.mk.injEq] at h
      rw [← h.2.1]
      rfl
    | tok | realloc | memalign =>
      simp only [htype] at h
      obtain ⟨⟨w₂, rest₂⟩, -, h⟩ := bind_eq_ok.mp h
      simp only [pure_eq_ok, Except.ok.injEq, Prod.mk.injEq] at h
      rw [← h.2.1]
      rfl
    | buf | death | end_ | syncBarrier => simp [htype] at h

/-! ### Sequences of records -/

/-- The events of some bytes, with a bound on the number of records. -/
def decodeEvents : ℕ → ThreadState → List UInt8 → Decoding
  | 0, _, _ => ([], .error .outOfFuel)
  | _ + 1, t, [] => .pure t
  | fuel + 1, t, b :: bs =>
    match readRecord t (b :: bs) with
    | .error e => ([], .error e)
    | .ok (none, t, rest) => decodeEvents fuel t rest
    | .ok (some ev, t, rest) => .cons ⟨ev, t.lastTs, t.lastCpu⟩ (decodeEvents fuel t rest)

/-- The events of some bytes: every record takes at least one of them. -/
def decodeBytes (t : ThreadState) (bytes : List UInt8) : Decoding :=
  decodeEvents (bytes.length + 1) t bytes

/-- The bound does not matter when it is large enough. -/
theorem decodeEvents_fuel {fuel : ℕ} {t : ThreadState} {bytes : List UInt8}
    (h : bytes.length < fuel) : decodeEvents fuel t bytes = decodeBytes t bytes := by
  suffices hboth : ∀ f g t bytes, bytes.length < f → bytes.length < g →
      decodeEvents f t bytes = decodeEvents g t bytes from hboth _ _ _ _ h (Nat.lt_succ_self _)
  intro f
  induction f with
  | zero => intro g t bytes hf _; omega
  | succ f ih =>
    intro g t bytes hf hg
    obtain ⟨g, rfl⟩ : ∃ g', g = g' + 1 := ⟨g - 1, by omega⟩
    cases bytes with
    | nil => rfl
    | cons b bs =>
      simp only [decodeEvents]
      cases hr : readRecord t (b :: bs) with
      | error e => rfl
      | ok r =>
        obtain ⟨ev?, t', rest⟩ := r
        have hlt := readRecord_length_lt hr
        cases ev? <;> simp only [ih g t' rest (by omega) (by omega)]

@[simp] theorem decodeBytes_nil (t : ThreadState) : decodeBytes t [] = .pure t := rfl

/-- One record after the other. -/
theorem decodeBytes_cons (t : ThreadState) (b : UInt8) (bs : List UInt8) :
    decodeBytes t (b :: bs) =
      match readRecord t (b :: bs) with
      | .error e => ([], .error e)
      | .ok (none, t, rest) => decodeBytes t rest
      | .ok (some ev, t, rest) => .cons ⟨ev, t.lastTs, t.lastCpu⟩ (decodeBytes t rest) := by
  rw [decodeBytes, decodeEvents]
  cases hr : readRecord t (b :: bs) with
  | error e => rfl
  | ok r =>
    obtain ⟨ev?, t', rest⟩ := r
    cases ev? <;> simp only [decodeEvents_fuel (readRecord_length_lt hr)]

/-! ### Buffers -/

/-- The bytes of a buffer; one that ends before it starts has none. -/
def bufBytes (mem : UInt64 → Option UInt8) (ev : OuterEvent) : List UInt8 :=
  (List.range (ev.bufEnd.toNat - ev.bufStart.toNat)).map fun i =>
    (mem (ev.bufStart + UInt64.ofNat i)).getD 0

/-- The events of a buffer; at its end the thread has the time stamp and the cpu of the buffer. -/
def decodeBuf (mem : UInt64 → Option UInt8) (ev : OuterEvent) (t : ThreadState) : Decoding :=
  (decodeBytes t (bufBytes mem ev)).andThen fun t => .pure (t.updateWithBuf ev)

/-- The events of a sequence of buffers. -/
def decodeBufs (mem : UInt64 → Option UInt8) : List OuterEvent → ThreadState → Decoding
  | [], t => .pure t
  | ev :: evs, t => (decodeBuf mem ev t).andThen (decodeBufs mem evs)

theorem decodeBufs_append (mem : UInt64 → Option UInt8) (evs evs' : List OuterEvent)
    (t : ThreadState) :
    decodeBufs mem (evs ++ evs') t = (decodeBufs mem evs t).andThen (decodeBufs mem evs') := by
  induction evs generalizing t with
  | nil => rfl
  | cons ev evs ih =>
    rw [List.cons_append, decodeBufs, decodeBufs, Decoding.andThen_assoc]
    congr 1
    funext t'
    exact ih t'

theorem decodeBufs_concat (mem : UInt64 → Option UInt8) (evs : List OuterEvent)
    (ev : OuterEvent) (t : ThreadState) :
    decodeBufs mem (evs ++ [ev]) t = (decodeBufs mem evs t).andThen (decodeBuf mem ev) := by
  rw [decodeBufs_append]
  congr 1
  funext t'
  simp [decodeBufs]

end MallocTraceReplay
