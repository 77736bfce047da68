import MallocTraceReplay.Stream.Mapper
import MallocTraceReplay.Codec.AltVarint

/-!
# `MemStream`

Varints and blocks of bytes read one after another from the memory of a mapper.  The stream sees
the window up to `end_` and has it extended by at least a megabyte when it runs short.
-/

namespace MallocTraceReplay

open AltVarintCodec

/-- What an uninitialised `char tmp[kMaxSize]` on the stack holds, by the stream position at
which it is used. -/
abbrev StackBytes := UInt64 → ℕ → UInt8

structure MemStream (M : Type) where
  ptr : UInt64
  end_ : UInt64
  realizedStart : UInt64
  begin_ : UInt64
  mapper : M
  permissiveAdvance : Bool := false

namespace MemStream

variable {M : Type} [Mapper M]

def new (mapper : M) : MemStream M :=
  let begin_ := Mapper.getBegin mapper
  { ptr := begin_, end_ := begin_, realizedStart := begin_, begin_ := begin_, mapper := mapper }

def kRealizeSize : UInt64 := (1 : UInt64) <<< 20

def hasAtLeastVarint (s : MemStream M) : Bool := decide (s.ptr + kMaxSize ≤ s.end_)

def realizeMore (s : MemStream M) (minAmount : UInt64) : Except Abort (Bool × MemStream M) := do
  let realizeAmount := s.ptr - s.realizedStart + max minAmount kRealizeSize
  let (gotAmount, mapper) ← Mapper.realize s.mapper s.realizedStart realizeAmount
  let s := { s with end_ := s.realizedStart + gotAmount, mapper := mapper }
  return (decide (s.end_ - s.ptr ≥ minAmount), s)

def hasMore (s : MemStream M) : Except Abort (Bool × MemStream M) :=
  if s.ptr < s.end_ then .ok (true, s)
  else do
    let (_, s) ← s.realizeMore 0
    return (decide (s.ptr < s.end_), s)

def advanceBySlow (s : MemStream M) (amount : UInt64) : Except Abort (UInt64 × MemStream M) := do
  let retval := s.ptr
  let (ok, s) ← s.realizeMore amount
  if ok then
    return (retval, { s with ptr := s.ptr + amount })
  else if s.permissiveAdvance then
    return (retval, { s with ptr := s.end_ + 1 })
  else
    throw (.panic "trying to realize with min_amount beyond end of data")

def advanceBy (s : MemStream M) (amount : UInt64) : Except Abort (UInt64 × MemStream M) :=
  if s.end_ - s.ptr ≥ amount then .ok (s.ptr, { s with ptr := s.ptr + amount })
  else s.advanceBySlow amount

/-- The place of the bytes skipped, or `none` when there are not as many. -/
def tryAdvanceBy (s : MemStream M) (amount : UInt64) :
    Except Abort (Option UInt64 × MemStream M) := do
  let (place, s) ← { s with permissiveAdvance := true }.advanceBy amount
  let s := { s with permissiveAdvance := false }
  if s.ptr > s.end_ then return (none, { s with ptr := s.end_ })
  else return (some place, s)

/-- The result of decoding is taken and its bytes are skipped. -/
def takeDecoded (s : MemStream M) (byteAt : ℕ → Option UInt8) :
    Except Abort (UInt64 × MemStream M) :=
  match decodeUnsigned byteAt with
  | none => .error .fault
  | some res => do
    let (_, s) ← s.advanceBy res.advance
    return (res.value, s)

/-- `must_read_varint` when a whole varint is in the window. -/
def readVarintFast (s : MemStream M) : Except Abort (UInt64 × MemStream M) :=
  s.takeDecoded fun i => Mapper.load s.mapper (s.ptr + UInt64.ofNat i)

/-- `memcpy(tmp, ptr_, end_ - ptr_)`: the nine bytes of `tmp` after it. -/
def fillTmp (stack : StackBytes) (s : MemStream M) : Except Abort (ℕ → Option UInt8) :=
  let n := (s.end_ - s.ptr).toNat
  if n > 9 then .error .fault
  else
    match (List.range n).mapM fun i => Mapper.load s.mapper (s.ptr + UInt64.ofNat i) with
    | none => .error .fault
    | some bytes =>
      .ok fun i => if i < n then bytes[i]? else if i < 9 then some (stack s.ptr i) else none

def readVarintSlow (stack : StackBytes) (s : MemStream M) :
    Except Abort (UInt64 × MemStream M) := do
  let (_, s) ← s.realizeMore 0
  -- here `must_read_varint` is called again and finds the varint in the window
  if s.hasAtLeastVarint then s.readVarintFast
  else
    let tmp ← s.fillTmp stack
    s.takeDecoded tmp

def mustReadVarint (stack : StackBytes) (s : MemStream M) :
    Except Abort (UInt64 × MemStream M) :=
  if s.hasAtLeastVarint then s.readVarintFast else s.readVarintSlow stack

def tryReadVarint (stack : StackBytes) (s : MemStream M) :
    Except Abort (Option UInt64 × MemStream M) :=
  if s.hasAtLeastVarint then do
    let (value, s) ← s.readVarintFast
    return (some value, s)
  else do
    let (result, s) ← { s with permissiveAdvance := true }.readVarintSlow stack
    let s := { s with permissiveAdvance := false }
    if s.ptr > s.end_ then return (none, { s with ptr := s.end_ })
    else return (some result, s)

def kUnrealizeStep : UInt64 := (128 : UInt64) <<< 20

/-- `unrealize_up_to`.  Its last lines assign `realized_start_` to the parameter `ptr`, not the
other way around, so the start of the window stays where it was. -/
def unrealizeUpTo (ndebug : Bool) (s : MemStream M) (ptr : UInt64) :
    Except Abort (MemStream M) := do
  check ndebug (decide (ptr ≥ s.realizedStart)) .unrealizeStart
  if (ptr - s.realizedStart).toInt64 < kUnrealizeStep.toInt64 then return s
  else
    let ptr := ptr - (ptr &&& 4096)
    let (gotAmount, mapper) ← Mapper.realize s.mapper ptr (s.end_ - ptr)
    let s := { s with mapper := mapper }
    if ptr + gotAmount < s.end_ then throw .abort
    else return { s with end_ := s.realizedStart + gotAmount }

end MemStream

end MallocTraceReplay
