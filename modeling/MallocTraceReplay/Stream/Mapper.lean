import MallocTraceReplay.Abort

/-!
# Mappers

A mapper makes the bytes of a trace appear in memory: `GetBegin` is the address of the first
one, and `Realize(start, len)` asks for the `len` bytes from `start` on to be there and returns how
many there are.  `ConstMapper` holds them all from the beginning; `FDInputMapper` reads them from a
file descriptor into an area it reserves, and gives the pages below `start` back.

Addresses are machine words, with the wrap-around of the machine.
-/

namespace MallocTraceReplay

/-- The virtual functions of `Mapper`, and the memory its user sees: the byte at an address, or
`none` where an access is answered with a signal. -/
class Mapper (M : Type) where
  getBegin : M → UInt64
  realize : M → (start len : UInt64) → Except Abort (UInt64 × M)
  load : M → UInt64 → Option UInt8

/-! ### `ConstMapper` -/

/-- `size_` bytes from `begin_` on, in memory that does not change. -/
structure ConstMapper where
  begin_ : UInt64
  size_ : UInt64
  mem : UInt64 → Option UInt8

def ConstMapper.realize (m : ConstMapper) (start len : UInt64) : UInt64 :=
  let end_ := start + len
  let end_ := if end_ > m.begin_ + m.size_ then m.begin_ + m.size_ else end_
  end_ - start

instance : Mapper ConstMapper where
  getBegin m := m.begin_
  realize m start len := .ok (m.realize start len, m)
  load m := m.mem

/-- The mapper of a trace that stands in memory at an address; nothing else can be read. -/
def ConstMapper.ofBytes (begin_ : UInt64) (data : List UInt8) : ConstMapper where
  begin_ := begin_
  size_ := UInt64.ofNat data.length
  mem := fun a => data[(a - begin_).toNat]?

/-! ### Reading from a file descriptor -/

/-- What a call of `read` does: fail with `EINTR`, or deliver up to some number of bytes (at
least one, as long as there are any left). -/
inductive ReadResult
  | eintr
  | bytes (n : ℕ)
  deriving DecidableEq, Repr

/-- An open file: its content, what the calls of `read` will do, and how far they got. -/
structure InputFd where
  content : List UInt8
  schedule : ℕ → ReadResult
  position : ℕ := 0
  reads : ℕ := 0

/-- The most a single `read` transfers on Linux. -/
def maxRead : ℕ := 0x7ffff000

/-- `read(fd, _, count)`: the bytes it stores, or `none` when it fails with `EINTR`. -/
def InputFd.read (fd : InputFd) (count : ℕ) : Option (List UInt8) × InputFd :=
  match fd.schedule fd.reads with
  | .eintr => (none, { fd with reads := fd.reads + 1 })
  | .bytes n =>
    let got := (fd.content.drop fd.position).take (max 1 (min n (min count maxRead)))
    (some got, { fd with position := fd.position + got.length, reads := fd.reads + 1 })

/-! ### `FDInputMapper` -/

/-- The mapper over a file descriptor.  `mmapOk` says for which ranges the system grants a
mapping with `MAP_FIXED`. -/
structure FDInputMapper where
  fd : InputFd
  mmapArea : UInt64
  lastStart : UInt64
  lastEnd : UInt64
  mem : UInt64 → Option UInt8
  mmapOk : UInt64 → UInt64 → Bool

/-- The constructor: an area is reserved, none of it accessible.  The area of the program has
`2^40` bytes, and `Realize` does not check that it stays inside: what is read of a longer file is
mapped over whatever lies behind the area.  The model has no end of the area, and speaks of files
that lie in it. -/
def FDInputMapper.new (fd : InputFd) (mmapArea : UInt64) (mmapOk : UInt64 → UInt64 → Bool) :
    FDInputMapper where
  fd := fd
  mmapArea := mmapArea
  lastStart := mmapArea
  lastEnd := mmapArea
  mem := fun _ => none
  mmapOk := mmapOk

/-- An address rounded down to its page. -/
def pageFloor (a : UInt64) : UInt64 := a - (a &&& 4095)

/-- An address rounded up to a page. -/
def pageCeil (a : UInt64) : UInt64 := a + ((~~~a + 1) &&& 4095)

namespace FDInputMapper

/-- The pages below `start` are given back. -/
def drop (m : FDInputMapper) (start : UInt64) : FDInputMapper :=
  let start2 := pageFloor start
  { m with
    mem := fun a => if m.lastStart ≤ a ∧ a < start2 then none else m.mem a
    lastStart := start2 }

/-- Fresh pages are mapped over a range. -/
def mapFresh (m : FDInputMapper) (from_ to_ : UInt64) : Except Abort FDInputMapper :=
  if m.mmapOk from_ (to_ - from_) then
    .ok { m with mem := fun a => if from_ ≤ a ∧ a < to_ then some 0 else m.mem a }
  else
    .error .abort

/-- One `read` into memory at `last_end_`; a failure with `EINTR` counts as no bytes. -/
def readMore (m : FDInputMapper) (newLastEnd : UInt64) : FDInputMapper :=
  let readPtr := m.lastEnd
  match m.fd.read (newLastEnd - readPtr).toNat with
  | (none, fd) => { m with fd := fd }
  | (some got, fd) =>
    { m with
      fd := fd
      mem := fun a =>
        if readPtr ≤ a ∧ (a - readPtr).toNat < got.length then got[(a - readPtr).toNat]?
        else m.mem a
      lastEnd := readPtr + UInt64.ofNat got.length }

def realize (m : FDInputMapper) (start len : UInt64) : Except Abort (UInt64 × FDInputMapper) :=
  if start > m.lastEnd then .error .abort
  else if start + len < start then .error .abort
  else
    let toDrop := (start - m.lastStart).toInt64
    let m := if toDrop > 0 then m.drop start else m
    let newLastEnd := pageCeil (start + len)
    let lastEndPage := pageCeil m.lastEnd
    (if lastEndPage ≠ newLastEnd then m.mapFresh lastEndPage newLastEnd else .ok m) >>= fun m =>
    let m := if m.lastEnd < newLastEnd then m.readMore newLastEnd else m
    .ok (m.lastEnd - start, m)

end FDInputMapper

instance : Mapper FDInputMapper where
  getBegin m := m.mmapArea
  realize := FDInputMapper.realize
  load m := m.mem

end MallocTraceReplay
