import MallocTraceReplay.Codec.AltVarint
import MallocTraceReplay.Postprocess.SimpleReceiver

/-!
# The output of postprocessing

`dump` writes the memory of an `Instruction`: a word that has the type in its lowest byte and the
register above it, and the two words of the union.
-/

namespace MallocTraceReplay

open AltVarintCodec

/-- The number of a type. -/
def Instruction.Type_.number : Instruction.Type_ → UInt64
  | .MALLOC => 0
  | .FREE => 1
  | .FREE_SIZED => 2
  | .MEMALIGN => 3
  | .REALLOC => 4
  | .SWITCH_THREAD => 5
  | .KILL_THREAD => 6
  | .SET_TS_CPU => 7

/-- The memory of an instruction. -/
def Instruction.bytes (i : Instruction) : List UInt8 :=
  storeBytes (i.type.number ||| i.reg <<< 8) ++ storeBytes i.word0 ++ storeBytes i.word1

/-- The file, after all calls of `fwrite_unlocked`. -/
def SimpleReceiver.written (r : SimpleReceiver) : List UInt8 := r.out.flatMap Instruction.bytes

/-- What `main` prints to be left allocated, in `size_t`. -/
def SimpleReceiver.leftAllocated (r : SimpleReceiver) : UInt64 :=
  UInt64.ofNat r.mallocs - UInt64.ofNat r.frees - UInt64.ofNat r.sizedFrees +
    UInt64.ofNat r.memaligns

end MallocTraceReplay
