import MallocTraceReplay.Abort

/-!
# `IdTree`

An allocator of ids.  Level 0 has a bit for every id, `1` when it is available; a bit of level
`k + 1` stands for a word of level `k` and is `1` when that word has a bit set.  A word that is
not there yet counts as having all its bits set: the levels grow when an id is allocated from
such a word.
-/

namespace MallocTraceReplay

structure IdTree where
  level0 : List UInt64
  level1 : List UInt64
  level2 : List UInt64
  level3 : List UInt64
  deriving DecidableEq, Repr

namespace IdTree

def empty : IdTree := { level0 := [], level1 := [], level2 := [], level3 := [] }

/-- The index of the lowest bit set. -/
def lowestBit (p : UInt64) : ℕ := ((List.range 64).find? p.toNat.testBit).getD 0

def bsf (p : UInt64) : Except Abort ℕ := do
  check false (decide (p ≠ 0)) .bsfNonzero
  return lowestBit p

/-- `find_set_bit`: the first bit set in a level, if there is one. -/
def findSetBit : List UInt64 → Option ℕ
  | [] => none
  | val :: v => if val ≠ 0 then some (lowestBit val) else (findSetBit v).map (· + 64)

/-- `set_bit_vector`: true iff the higher level needs to flip. -/
def setBitVector (pos : ℕ) (bval : Bool) (v : List UInt64) : Except Abort (Bool × List UInt64) := do
  let divpos := pos / 64
  check false (decide (divpos < v.length)) .setBitRange
  match v[divpos]? with
  | none => throw .fault
  | some word =>
    let bit := (1 : UInt64) <<< UInt64.ofNat (pos % 64)
    if bval then
      -- flipped from all 0s to a single 1
      return (decide (word = 0), v.set divpos (word ||| bit))
    else
      let newVal := word &&& ~~~bit
      -- flipped to all 0s
      return (decide (newVal = 0), v.set divpos newVal)

def setBit (t : IdTree) (pos : ℕ) (bval : Bool) : Except Abort IdTree := do
  let (flip, level0) ← setBitVector pos bval t.level0
  let t := { t with level0 := level0 }
  if !flip then return t
  else
    let pos := pos / 64
    let (flip, level1) ← setBitVector pos bval t.level1
    let t := { t with level1 := level1 }
    if !flip then return t
    else
      let pos := pos / 64
      let (flip, level2) ← setBitVector pos bval t.level2
      let t := { t with level2 := level2 }
      if !flip then return t
      else
        let pos := pos / 64
        let (_, level3) ← setBitVector pos bval t.level3
        return { t with level3 := level3 }

def isFreeAt (t : IdTree) (id : ℕ) : Except Abort Bool := do
  let divpos := id / 64
  check false (decide (divpos < t.level0.length)) .isFreeAtRange
  match t.level0[divpos]? with
  | none => throw .fault
  | some word => return decide (word &&& ((1 : UInt64) <<< UInt64.ofNat (id % 64)) ≠ 0)

/-- `~0ULL`, a word with all its bits available. -/
def allSet : UInt64 := ~~~0

/-- The top of `allocate_id`: the word of level 2 to allocate from. -/
def topPos (t : IdTree) : Except Abort (ℕ × IdTree) :=
  match findSetBit t.level3 with
  | some pos => .ok (pos, t)
  | none => do
    let sz := t.level3.length
    check false (decide (t.level2.length = sz * 64)) .levelSizes
    check false (decide (t.level1.length = sz * 64 * 64)) .levelSizes
    check false (decide (t.level0.length = sz * 64 * 64 * 64)) .levelSizes
    return (sz * 64, { t with level3 := t.level3 ++ [allSet] })

/-- One descent of `allocate_id`, from a position to one in the level below: the level's word at
the position gives it, or a new word is appended, once the assertions on the sizes hold. -/
def descend (v : List UInt64) (pos : ℕ) (sizes : Bool) : Except Abort (ℕ × List UInt64) :=
  if pos ≥ v.length then do
    let sz := v.length
    check false (decide (sz = pos)) .levelSizes
    check false sizes .levelSizes
    return (sz * 64, v ++ [allSet])
  else
    match v[pos]? with
    | none => throw .fault
    | some word => do
      let p ← bsf word
      return (pos * 64 + p, v)

def allocateId (t : IdTree) : Except Abort (ℕ × IdTree) := do
  let (pos, t) ← t.topPos
  let sz := t.level2.length
  let (pos2, level2) ← descend t.level2 pos
    (decide (t.level1.length = sz * 64) && decide (t.level0.length = sz * 64 * 64))
  let t := { t with level2 := level2 }
  let sz := t.level1.length
  let (pos1, level1) ← descend t.level1 pos2 (decide (t.level0.length = sz * 64))
  let t := { t with level1 := level1 }
  let (pos0, level0) ← descend t.level0 pos1 true
  let t := { t with level0 := level0 }
  let free ← t.isFreeAt pos0
  check false free .idFree
  let t ← t.setBit pos0 false
  return (pos0, t)

def freeId (t : IdTree) (id : ℕ) : Except Abort IdTree := do
  let free ← t.isFreeAt id
  check false (!free) .idNotFree
  let t ← t.setBit id true
  let free ← t.isFreeAt id
  check false free .idFree
  return t

end IdTree

end MallocTraceReplay
