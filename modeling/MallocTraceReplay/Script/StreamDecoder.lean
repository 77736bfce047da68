import MallocTraceReplay.Codec.RecordStream
import MallocTraceReplay.Script.EventsStream

/-!
# The decoders of `MallocTraceEncoder` on a stream

The words of a stream, record after record, are given to the decode functions that their types
select.  A thread has the state of its decoder from zero on, and a thread with the id of one that
died is a new one.  The writer keeps the state of the encoder of a thread in the same way (`Kept`).
-/

namespace MallocTraceReplay

open MallocTraceEncoder

/-! ### Decoding -/

structure DecoderState where
  prevSize : UInt64
  prevToken : UInt64
  mallocTokSeq : UInt64
  deriving DecidableEq, Repr

def DecoderState.init : DecoderState := { prevSize := 0, prevToken := 0, mallocTokSeq := 0 }

/-- The inner event of some words, and the state after it. -/
def decodeEvent (threadId : UInt64) (d : DecoderState) (words : List UInt64) :
    Option (StreamEvent UInt64 × DecoderState) :=
  match words with
  | [] => none
  | w :: ws =>
    match EventType.ofCode? (decodeType w), ws with
    | some .malloc, [] =>
      let ((size, token), prevSize, seq) := decodeMalloc w d.prevSize d.mallocTokSeq
      some (.malloc threadId token size, { d with prevSize := prevSize, mallocTokSeq := seq })
    | some .free, [] =>
      let (token, prevToken) := decodeFree w d.prevToken
      some (.free threadId token, { d with prevToken := prevToken })
    | some .freeSized, [] =>
      let (token, prevToken) := decodeFreeSized w d.prevToken
      some (.freeSized threadId token, { d with prevToken := prevToken })
    | some .realloc, [w₂] =>
      let ((oldToken, newToken, newSize), prevSize, prevToken, seq) :=
        decodeRealloc w w₂ d.prevSize d.prevToken d.mallocTokSeq
      some (.realloc threadId newToken newSize oldToken,
        { prevSize := prevSize, prevToken := prevToken, mallocTokSeq := seq })
    | some .memalign, [w₂] =>
      let ((size, token, alignment), prevSize, seq) :=
        decodeMemalign w w₂ d.prevSize d.mallocTokSeq
      some (.memalign threadId token size alignment,
        { d with prevSize := prevSize, mallocTokSeq := seq })
    | some .tok, [w₂] =>
      let (tokenBase, ts, cpu) := decodeToken w w₂
      some (.tok tokenBase ts cpu, { d with mallocTokSeq := tokenBase })
    | _, _ => none

/-- The events of a buffer, and the state after them. -/
def decodeEventWords (threadId : UInt64) :
    DecoderState → List (List UInt64) → Option (List (StreamEvent UInt64) × DecoderState)
  | d, [] => some ([], d)
  | d, words :: rest => do
    let (ev, d) ← decodeEvent threadId d words
    let (evs, d) ← decodeEventWords threadId d rest
    return (ev :: evs, d)

/-- The outer record of some words, without its events. -/
def decodeHead (words : List UInt64) : Option (StreamEvent UInt64) :=
  match words with
  | [] => none
  | w :: ws =>
    match EventType.ofCode? (decodeType w), ws with
    | some .buf, [w₂, w₃] =>
      let (threadId, ts, cpu, size) := decodeBuffer w w₂ w₃
      some (.buf threadId ts cpu size)
    | some .death, [w₂] =>
      let (threadId, ts, cpu) := decodeDeath w w₂
      some (.death threadId ts cpu)
    | some .syncBarrier, [w₂] =>
      let (ts, cpu) := decodeSyncBarrier w w₂
      some (.syncBarrier ts cpu)
    | some .end_, [] => some .end_
    | _, _ => none

/-- The words of the events of a record, event after event. -/
def EncodedRecord.wordsOfEvents (r : EncodedRecord) : List (List UInt64) :=
  r.events.map fun e => (e.2.words e.1).1

/-- **The records and events of a stream**, as the decode functions have them. -/
def decodeStream : (UInt64 → DecoderState) → List EncodedRecord → Option (List (StreamEvent UInt64))
  | _, [] => do
    let head ← decodeHead [encodeEnd]
    return [head]
  | threads, r :: rs => do
    let head ← decodeHead r.headWords
    match r with
    | .buf threadId _ _ =>
      let (evs, d) ← decodeEventWords threadId (threads threadId) r.wordsOfEvents
      let rest ← decodeStream (fun id => if id = threadId then d else threads id) rs
      return head :: (evs ++ rest)
    | .death threadId _ =>
      let rest ← decodeStream (fun id => if id = threadId then .init else threads id) rs
      return head :: rest
    | .syncBarrier _ =>
      let rest ← decodeStream threads rs
      return head :: rest

/-! ### The writer -/

/-- The events of a thread are encoded one against the other: the first one is a `Tok`, from zero
on, and each of the others is encoded against what the one before left. -/
def KeptEvents : Option EncoderState → List (EncoderState × InnerRecord) → Prop
  | _, [] => True
  | none, e :: es => (e.1 = .init ∧ e.2.type = .tok) ∧ KeptEvents (some (e.2.words e.1).2) es
  | some s, e :: es => e.1 = s ∧ KeptEvents (some (e.2.words e.1).2) es

/-- What some events leave. -/
def stateAfter (s : Option EncoderState) (events : List (EncoderState × InnerRecord)) :
    Option EncoderState :=
  events.foldl (fun _ e => some (e.2.words e.1).2) s

/-- The writer keeps the states of the threads; a death ends that of its thread. -/
def Kept : (UInt64 → Option EncoderState) → List EncodedRecord → Prop
  | _, [] => True
  | st, .buf threadId _ events :: rs => KeptEvents (st threadId) events ∧
    Kept (fun id => if id = threadId then stateAfter (st threadId) events else st id) rs
  | st, .death threadId _ :: rs => Kept (fun id => if id = threadId then none else st id) rs
  | st, .syncBarrier _ :: rs => Kept st rs

/-- The sizes of requests, the tokens and the bases of tokens have room in their words. -/
def InnerRecord.InRange : InnerRecord → Prop
  | .tok tokenBase _ _ => tokenBase.toNat < 2 ^ 61
  | .malloc size => size.toNat ≤ 2 ^ 58 - 8
  | .memalign size _ => size.toNat ≤ 2 ^ 58 - 8
  | .free token => token.toNat < 2 ^ 60
  | .freeSized token => token.toNat < 2 ^ 60
  | .realloc oldToken newSize => oldToken.toNat < 2 ^ 60 ∧ newSize.toNat ≤ 2 ^ 58 - 8

instance : DecidablePred InnerRecord.InRange
  | .tok tokenBase _ _ => inferInstanceAs (Decidable (tokenBase.toNat < 2 ^ 61))
  | .malloc size => inferInstanceAs (Decidable (size.toNat ≤ 2 ^ 58 - 8))
  | .memalign size _ => inferInstanceAs (Decidable (size.toNat ≤ 2 ^ 58 - 8))
  | .free token => inferInstanceAs (Decidable (token.toNat < 2 ^ 60))
  | .freeSized token => inferInstanceAs (Decidable (token.toNat < 2 ^ 60))
  | .realloc oldToken newSize =>
    inferInstanceAs (Decidable (oldToken.toNat < 2 ^ 60 ∧ newSize.toNat ≤ 2 ^ 58 - 8))

/-- So do the ids of threads. -/
def EncodedRecord.InRange : EncodedRecord → Prop
  | .buf threadId _ events => threadId.toNat < 2 ^ 56 ∧ ∀ e ∈ events, e.2.InRange
  | .death threadId _ => threadId.toNat < 2 ^ 56
  | .syncBarrier _ => True

instance : DecidablePred EncodedRecord.InRange
  | .buf threadId _ events =>
    inferInstanceAs (Decidable (threadId.toNat < 2 ^ 56 ∧ ∀ e ∈ events, e.2.InRange))
  | .death threadId _ => inferInstanceAs (Decidable (threadId.toNat < 2 ^ 56))
  | .syncBarrier _ => inferInstanceAs (Decidable True)

/-- A stream that a writer gives. -/
structure Written (records : List EncodedRecord) : Prop where
  kept : Kept (fun _ => none) records
  inRange : ∀ r ∈ records, r.InRange

end MallocTraceReplay
