import Mathlib.Data.Nat.Notation

/-!
# `AltVarintCodec`

The variable-length encoding of 64-bit words: the number of trailing zero bits of the first byte
says how many bytes follow, and a zero first byte announces eight whole ones.  Both directions
move eight bytes at a time on a little-endian machine.  The bit scans are those of the x86-64
build (`bsrq`, `bsfl`); the other branches have names of their own (`encodeUnsignedPortable`,
`decodeUnsignedPortable`).
-/

namespace MallocTraceReplay.AltVarintCodec

/-- Nine bytes is what the largest words get encoded into. -/
def kMaxSize : UInt64 := 9

/-- The pair returned by the decoding functions. -/
structure DecodeResult where
  advance : UInt64
  value : UInt64
  deriving DecidableEq, Repr

/-- The pair with a signed value. -/
structure SignedDecodeResult where
  advance : UInt64
  value : Int64
  deriving DecidableEq, Repr

/-! ### Signed values -/

/-- Signed to unsigned, values closer to `0` to smaller words. -/
def zigzag (val : Int64) : UInt64 :=
  ((val <<< 1) ^^^ (val >>> 63)).toUInt64

def unzigzag (val : UInt64) : Int64 :=
  let sign := val &&& 1
  ((val >>> 1) ^^^ (0 - sign)).toInt64

/-! ### Memory words -/

/-- The word a little-endian machine loads from the bytes, the first one lowest. -/
def loadBytes : List UInt8 → UInt64
  | [] => 0
  | b :: bs => b.toUInt64 ||| (loadBytes bs <<< 8)

/-- The eight bytes a little-endian machine stores for a word. -/
def storeBytes (val : UInt64) : List UInt8 :=
  (List.range 8).map fun i => (val >>> (8 * UInt64.ofNat i)).toUInt8

/-- `memcpy(&val, place + off, 8)`, where `byteAt` is the memory from `place` on. -/
def load (byteAt : ℕ → Option UInt8) (off : ℕ) : Option UInt64 :=
  ((List.range 8).mapM fun i => byteAt (off + i)).map loadBytes

/-! ### Bit scans -/

/-- `bsrq`: the index of the highest bit set (of a word that is not `0`). -/
def bsr (val : UInt64) : ℕ := val.toNat.log2

/-- `bsfl`: the index of the lowest bit set (of a word that is not `0`). -/
def bsf (val : UInt32) : ℕ := ((List.range 32).find? val.toNat.testBit).getD 0

/-! ### The encoder and the decoder -/

/-- How many bytes follow the first, by the index of the highest bit of the shifted word. -/
def encodeBits : List UInt8 :=
  [0, 0, 0, 0, 0, 0, 0, 0,
   1, 1, 1, 1, 1, 1, 1, 2,
   2, 2, 2, 2, 2, 2, 3, 3,
   3, 3, 3, 3, 3, 4, 4, 4,
   4, 4, 4, 4, 5, 5, 5, 5,
   5, 5, 5, 6, 6, 6, 6, 6,
   6, 6, 7, 7, 7, 7, 7, 7,
   7, 8, 8, 8, 8, 8, 8, 8]

/-- `encode_unsigned`: the bytes it stores at its place, and how far the place it returns is
ahead.  It may store more bytes than it advances by; what it stores next starts there. -/
def encodeUnsigned (val : UInt64) : List UInt8 × UInt64 :=
  if val >>> 56 ≠ 0 then
    let high := (val >>> 56).toUInt8
    let val := val <<< 8
    (storeBytes val ++ [high], 9)
  else
    let val := (val <<< 1) ||| 1
    -- one more than the index in the format comment, because of the shift above
    let bits := (encodeBits.getD (bsr val) 0).toUInt64
    (storeBytes (val <<< bits), bits + 1)

def encodeSigned (val : Int64) : List UInt8 × UInt64 :=
  encodeUnsigned (zigzag val)

/-- By the number of bytes of the encoding, the bits that belong to the value. -/
def decodeMasks : List UInt64 :=
  [0, 0x0000007F, 0x00003FFF, 0x001FFFFF, 0x0FFFFFFF,
   0x7FFFFFFFF, 0x3FFFFFFFFFF, 0x1FFFFFFFFFFFF, 0xFFFFFFFFFFFFFFFF]

/-- `decode_unsigned`, with the memory from `place` on (`none` where it cannot be read). -/
def decodeUnsigned (byteAt : ℕ → Option UInt8) : Option DecodeResult := do
  let val ← load byteAt 0
  if val &&& 0xff = 0 then
    -- the nine-byte form has no leading bit
    let val ← load byteAt 1
    return { advance := 9, value := val }
  let p := bsf val.toUInt32 + 1
  let val := val >>> UInt64.ofNat p
  let mask := decodeMasks.getD p 0
  return { advance := UInt64.ofNat p, value := val &&& mask }

def decodeSigned (byteAt : ℕ → Option UInt8) : Option SignedDecodeResult := do
  let t ← decodeUnsigned byteAt
  let val := (t.value >>> 1).toInt64
  let val := val ^^^ -(t.value &&& 1).toInt64
  return { advance := t.advance, value := val }

/-! ### The branches of other machines -/

/-- `__builtin_clzll`: how many zero bits are above the highest bit set. -/
def clzll (val : UInt64) : ℕ :=
  ((List.range 64).find? fun i => val.toNat.testBit (63 - i)).getD 64

/-- `__builtin_ffsll`: one plus the index of the lowest bit set, or `0`. -/
def ffsll (val : UInt64) : ℕ :=
  match (List.range 64).find? val.toNat.testBit with
  | some i => i + 1
  | none => 0

/-- `encode_unsigned` without `__x86_64__`. -/
def encodeUnsignedPortable (val : UInt64) : List UInt8 × UInt64 :=
  if val >>> 56 ≠ 0 then
    let high := (val >>> 56).toUInt8
    let val := val <<< 8
    (storeBytes val ++ [high], 9)
  else
    let val := (val <<< 1) ||| 1
    let bit := 63 - clzll val
    let bits := (encodeBits.getD bit 0).toUInt64
    (storeBytes (val <<< bits), bits + 1)

/-- `decode_unsigned` without `__x86_64__`; `none` also where it would read beyond the masks. -/
def decodeUnsignedPortable (byteAt : ℕ → Option UInt8) : Option DecodeResult := do
  let val ← load byteAt 0
  if val &&& 0xff = 0 then
    let val ← load byteAt 1
    return { advance := 9, value := val }
  -- the scan counts from 1 here, and 1 is added to it as to the other one
  let p := ffsll val + 1
  let val := val >>> UInt64.ofNat p
  let mask ← decodeMasks[p]?
  return { advance := UInt64.ofNat p, value := val &&& mask }

end MallocTraceReplay.AltVarintCodec
