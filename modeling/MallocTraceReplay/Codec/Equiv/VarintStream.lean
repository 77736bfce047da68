import MallocTraceReplay.Codec.Equiv.TraceEncoder
import MallocTraceReplay.Lib.Buffer

/-!
# Round trip of varint streams

Words written one after another are read back one after another, although each store may reach
beyond the place that the encoder returns (`stream_roundTrip`).
-/

namespace MallocTraceReplay.AltVarintCodec

open Buffer

/-- `encode_unsigned` into a buffer: what it stores, and how far it moves. -/
def unsignedTo (v : UInt64) : List UInt8 × ℕ := ((encodeUnsigned v).1, (encodeUnsigned v).2.toNat)

def signedTo (v : Int64) : List UInt8 × ℕ := ((encodeSigned v).1, (encodeSigned v).2.toNat)

/-- `decode_unsigned` from a buffer: the value, and how far to move. -/
def unsignedFrom (mem : ℕ → UInt8) : Option (UInt64 × ℕ) :=
  (decodeUnsigned fun i => some (mem i)).map fun r => (r.value, r.advance.toNat)

def signedFrom (mem : ℕ → UInt8) : Option (Int64 × ℕ) :=
  (decodeSigned fun i => some (mem i)).map fun r => (r.value, r.advance.toNat)

/-- The end of `decode_signed` is `unzigzag`. -/
theorem decodeSigned_eq (byteAt : ℕ → Option UInt8) :
    decodeSigned byteAt =
      (decodeUnsigned byteAt).map fun r => ⟨r.advance, unzigzag r.value⟩ := by
  rw [decodeSigned, Option.map_eq_bind]
  refine congrArg _ (funext fun r => ?_)
  have hvalue : (r.value >>> 1).toInt64 ^^^ -(r.value &&& 1).toInt64 = unzigzag r.value := by
    unfold unzigzag
    dsimp only
    rw [UInt64.zero_sub, UInt64.toInt64_xor, UInt64.toInt64_neg]
  show some (SignedDecodeResult.mk _ _) = some (SignedDecodeResult.mk _ _)
  rw [hvalue]

theorem decodes_unsigned : Decodes unsignedTo unsignedFrom where
  le_length v := by
    have hlen := length_encode v
    rw [encode, List.length_take] at hlen
    show (encodeUnsigned v).2.toNat ≤ (encodeUnsigned v).1.length
    omega
  decode v mem hmem := by
    have hbytes : ∀ i < (encode v).length, some (mem i) = (encode v)[i]? := by
      intro i hi
      have hlt : i < (encodeUnsigned v).2.toNat := by rwa [length_encode] at hi
      rw [encode, List.getElem?_take_of_lt hlt]
      exact (hmem i hlt).symm
    rw [unsignedFrom, decodeUnsigned_encode hbytes fun _ _ => rfl]
    rfl

theorem decodes_signed : Decodes signedTo signedFrom where
  le_length v := decodes_unsigned.le_length (zigzag v)
  decode v mem hmem := by
    have h := decodes_unsigned.decode (zigzag v) mem hmem
    obtain ⟨r, hr, heq⟩ := Option.map_eq_some_iff.mp h
    obtain ⟨hvalue, hadvance⟩ := Prod.mk.inj heq
    rw [signedFrom, decodeSigned_eq, hr]
    simp only [Option.map_some, Option.some.injEq, Prod.mk.injEq]
    exact ⟨by rw [hvalue, unzigzag_zigzag], hadvance⟩

/-- **Streams of varints.**  Words, or signed values, that are written one after another are read
back from whatever follows them; the decoder moves as far as the encoder did, which is one byte for
every seven bits of a word below `2^56`, and nine bytes for the others. -/
theorem stream_roundTrip (mem tail : ℕ → UInt8) (place : ℕ) (vs : List UInt64) (ws : List Int64) :
    decodeAll unsignedFrom
        (withTail (encodeAll unsignedTo mem place vs).1 (encodeAll unsignedTo mem place vs).2 tail)
        place vs.length =
      some (vs.map fun v => (v, (encodeUnsigned v).2.toNat),
        (encodeAll unsignedTo mem place vs).2) ∧
    decodeAll signedFrom
        (withTail (encodeAll signedTo mem place ws).1 (encodeAll signedTo mem place ws).2 tail)
        place ws.length =
      some (ws.map fun w => (w, (encodeSigned w).2.toNat), (encodeAll signedTo mem place ws).2) ∧
    ∀ v : UInt64,
      (∀ k, 1 ≤ k → k ≤ 8 → 2 ^ (7 * (k - 1)) ≤ v.toNat → v.toNat < 2 ^ (7 * k) →
        (encodeUnsigned v).2 = UInt64.ofNat k) ∧
      (v = 0 → (encodeUnsigned v).2 = 1) ∧ (2 ^ 56 ≤ v.toNat → (encodeUnsigned v).2 = 9) := by
  refine ⟨decodeAll_encodeAll decodes_unsigned mem tail place vs,
    decodeAll_encodeAll decodes_signed mem tail place ws, fun v => ⟨?_, ?_, ?_⟩⟩
  · intro k hpos hle hlow hhigh
    obtain ⟨k, rfl⟩ : ∃ j, k = j + 1 := ⟨k - 1, by omega⟩
    rw [← toNat_advance_of_lt (Nat.lt_of_succ_le hle) (fun _ => hlow) hhigh, UInt64.ofNat_toNat]
  · rintro rfl
    rfl
  · intro h
    exact UInt64.toNat_inj.mp (toNat_advance_of_le h)

/-- The last word below `2^14` and the first one that takes three bytes. -/
theorem stream_roundTrip_boundary :
    (encodeUnsigned 16383).2 = 2 ∧ (encodeUnsigned 16384).2 = 3 ∧
      (encodeUnsigned 0x100000000000000).2 = 9 := by
  obtain ⟨-, -, h⟩ := stream_roundTrip (fun _ => 0xaa) (fun _ => 0xbb) 0
    [16383, 16384, 0x100000000000000] [-1, 0]
  exact ⟨(h 16383).1 2 (by decide) (by decide) (by decide) (by decide),
    (h 16384).1 3 (by decide) (by decide) (by decide) (by decide), (h _).2.2 (by decide)⟩

end MallocTraceReplay.AltVarintCodec
