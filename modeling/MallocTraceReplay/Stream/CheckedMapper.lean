import MallocTraceReplay.Stream.OuterEvStream

/-!
# `FDInputMapper` under observation

A `CheckedMapper` is a `FDInputMapper` that looks at every call of `Realize`: it stops when the call
is for more than the area that was reserved, when it would map a negative number of fresh bytes, and
when a byte between `last_start_` and `last_end_` is not the one of the file afterwards.  Where it
does not stop it does what the `FDInputMapper` does.
-/

namespace MallocTraceReplay

open MallocTraceEncoder

namespace FDInputMapper

/-- The length of the area that the constructor reserves. -/
def areaSize : ℕ := 0x10000000000

/-- The second argument of the `mmap` of fresh pages, as a difference of addresses. -/
def freshLength (m : FDInputMapper) (start len : UInt64) : Int :=
  ((pageCeil (start + len)).toNat : Int) - (pageCeil m.lastEnd).toNat

/-- Each address from `last_start_` to `last_end_` holds the byte of the file at its offset. -/
def holdsFile (m : FDInputMapper) : Bool :=
  (List.range (m.lastEnd.toNat - m.lastStart.toNat)).all fun i =>
    match m.mem (m.lastStart + UInt64.ofNat i),
      m.fd.content[m.lastStart.toNat - m.mmapArea.toNat + i]? with
    | some byte, some byte' => byte == byte'
    | _, _ => false

end FDInputMapper

structure CheckedMapper where
  mapper : FDInputMapper

namespace CheckedMapper

def new (fd : InputFd) (mmapArea : UInt64) (mmapOk : UInt64 → UInt64 → Bool) : CheckedMapper where
  mapper := FDInputMapper.new fd mmapArea mmapOk

/-- A request that is not inside the area. -/
def outsideArea : Abort := .panic "a request outside the area"

/-- A mapping of fresh pages with a negative length. -/
def negativeLength : Abort := .panic "a mapping of negative length"

/-- A byte that is not the one of the file. -/
def lostByte : Abort := .panic "a byte of the file is lost"

def realize (c : CheckedMapper) (start len : UInt64) : Except Abort (UInt64 × CheckedMapper) :=
  if c.mapper.mmapArea.toNat + FDInputMapper.areaSize < start.toNat + len.toNat then
    .error outsideArea
  else if c.mapper.freshLength start len < 0 then .error negativeLength
  else do
    let (got, m) ← c.mapper.realize start len
    if m.holdsFile then return (got, { mapper := m })
    else throw lostByte

end CheckedMapper

instance : Mapper CheckedMapper where
  getBegin c := c.mapper.mmapArea
  realize := CheckedMapper.realize
  load c := c.mapper.mem

/-- The size that the next record declares, if it is one of a buffer. -/
def MemStream.declaredSize {M : Type} [Mapper M] (stack : StackBytes) (s : MemStream M) :
    Except Abort (Option UInt64) := do
  let (more, s) ← s.hasMore
  if !more then return none
  else
    let (firstWord?, s) ← s.tryReadVarint stack
    match firstWord? with
    | none => return none
    | some firstWord =>
      match EventType.ofCode? (decodeType firstWord) with
      | some .buf =>
        let (secondWord?, s) ← s.tryReadVarint stack
        match secondWord? with
        | none => return none
        | some _ =>
          let (thirdWord?, _) ← s.tryReadVarint stack
          return thirdWord?
      | _ => return none

end MallocTraceReplay
