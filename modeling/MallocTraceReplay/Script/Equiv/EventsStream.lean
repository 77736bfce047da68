import MallocTraceReplay.Script.StreamDecoder
import MallocTraceReplay.Serializer.Equiv.EventRoundTrip
import MallocTraceReplay.Stream.Equiv.RecordRoundTrip

/-!
# What `EventsStream` decodes

`read_varint` gives the words below `2^56` that are written, and raises on the others
(`readVarint_write`).
-/

namespace MallocTraceReplay

open AltVarintCodec MallocTraceEncoder StepMachine

namespace Script

/-! ### Signed values -/

theorem unzigzag_even (n : ℕ) : unzigzag (2 * n) = n := by
  have hsign : 2 * n &&& 1 = 0 := by
    show 2 * n &&& 2 ^ 1 - 1 = 0
    rw [Nat.and_two_pow_sub_one_eq_mod]
    omega
  have hhalf : (2 * n) >>> 1 = n := by
    rw [Nat.shiftRight_eq_div_pow]
    omega
  simp only [unzigzag, hsign, hhalf]
  show Int.xor (n : ℤ) (0 : ℕ) = n
  simp [Int.xor]

theorem unzigzag_odd (n : ℕ) : unzigzag (2 * n + 1) = -(n + 1 : ℤ) := by
  have hsign : 2 * n + 1 &&& 1 = 1 := by
    show 2 * n + 1 &&& 2 ^ 1 - 1 = 1
    rw [Nat.and_two_pow_sub_one_eq_mod]
    omega
  have hhalf : (2 * n + 1) >>> 1 = n := by
    rw [Nat.shiftRight_eq_div_pow]
    omega
  simp only [unzigzag, hsign, hhalf]
  show Int.xor (n : ℤ) (Int.negSucc 0) = _
  simp [Int.xor, Int.negSucc_eq]

/-- **Signed values** come back as they are. -/
theorem unzigzag_toNat_zigzag (v : Int64) : unzigzag (zigzag v).toNat = v.toInt := by
  have hlt := v.toUInt64.toNat_lt
  have hnat : v.toInt = if v.toUInt64.toNat < 2 ^ 63 then (v.toUInt64.toNat : ℤ)
      else (v.toUInt64.toNat : ℤ) - 2 ^ 64 := by
    show v.toBitVec.toInt = _
    rw [BitVec.toInt_eq_toNat_cond]
    show (if 2 * v.toUInt64.toNat < 2 ^ 64 then _ else _) = _
    split <;> split <;> first | rfl | omega
  rw [toNat_zigzag, hnat]
  split
  · exact unzigzag_even _
  · have hodd : 2 ^ 65 - 1 - 2 * v.toUInt64.toNat = 2 * (2 ^ 64 - 1 - v.toUInt64.toNat) + 1 := by
      omega
    rw [hodd, unzigzag_odd]
    omega

/-! ### Varints -/

/-- Bytes are put on top of each other from the lowest on. -/
theorem readBytes_eq {b off : ℕ} (hb : b < 2 ^ off) (xs rest : List UInt8) :
    readBytes xs.length b off (xs ++ rest) = .ok (b + 2 ^ off * leValue xs, rest) := by
  induction xs generalizing b off with
  | nil => simp [readBytes, leValue]
  | cons x xs ih =>
    have hor : b ||| (x.toNat <<< off) = b + 2 ^ off * x.toNat := by
      rw [Nat.or_comm, ← Nat.shiftLeft_add_eq_or_of_lt hb, Nat.shiftLeft_eq, Nat.mul_comm,
        Nat.add_comm]
    have hx : x.toNat < 2 ^ 8 := x.toNat_lt
    have hlt : b + 2 ^ off * x.toNat < 2 ^ (off + 8) := by
      calc b + 2 ^ off * x.toNat < 2 ^ off + 2 ^ off * x.toNat := by omega
        _ = 2 ^ off * (x.toNat + 1) := by ring
        _ ≤ 2 ^ off * 2 ^ 8 := Nat.mul_le_mul_left _ hx
        _ = 2 ^ (off + 8) := (Nat.pow_add ..).symm
    rw [List.length_cons, List.cons_append, readBytes, hor, ih hlt, leValue_cons]
    congr 2
    rw [Nat.pow_add]
    ring

/-- The number of bytes that follow, by the first one. -/
theorem leadingZerosSlow_toNat {b : UInt8} (hb : b ≠ 0) :
    leadingZerosSlow b.toNat + 1 = varintLength b := by
  have h : ∀ n < 256, n ≠ 0 → leadingZerosSlow n + 1 = varintLength (UInt8.ofNat n) := by
    decide +kernel
  have hne : b.toNat ≠ 0 := fun h => hb (UInt8.toNat_inj.mp h)
  rw [h b.toNat b.toNat_lt hne, UInt8.ofNat_toNat]

/-- The first byte of a varint is zero when its word takes nine bytes. -/
theorem varintLength_eq_nine_iff (b : UInt8) : varintLength b = 9 ↔ b = 0 := by
  unfold varintLength
  split
  · next h => simp [h]
  · next h =>
    have := (bsf_byte b h).1
    constructor
    · intro hlen
      omega
    · exact fun hb => absurd hb h

/-- The words that take nine bytes. -/
theorem length_encode_eq_nine_iff (w : UInt64) : (encode w).length = 9 ↔ 2 ^ 56 ≤ w.toNat := by
  rw [length_encode]
  constructor
  · intro h
    by_contra hlt
    obtain ⟨bits, hbits, -, -, hencode⟩ := encodeUnsigned_short (Nat.lt_of_not_le hlt)
    rw [hencode, UInt64.toNat_add, UInt64.toNat_ofNat'] at h
    simp only [UInt64.reduceToNat] at h
    omega
  · exact toNat_advance_of_le

/-- **`read_varint`** gives a word below `2^56`. -/
theorem readVarint_encode_lt {w : UInt64} (hw : w.toNat < 2 ^ 56) (rest : List UInt8) :
    readVarint (encode w ++ rest) = .ok (w.toNat, rest) := by
  obtain ⟨b, xs, hencode, hlength, hvalue⟩ := encode_eq_cons w
  have hb : b ≠ 0 := by
    intro hb
    have hnine := (varintLength_eq_nine_iff b).mpr hb
    rw [hlength, length_encode_eq_nine_iff] at hnine
    omega
  have hne : b.toNat ≠ 0 := fun h => hb (UInt8.toNat_inj.mp h)
  rw [hencode] at hlength hvalue ⊢
  have hbits := leadingZerosSlow_toNat hb
  have hlen : xs.length = leadingZerosSlow b.toNat := by
    rw [List.length_cons] at hlength
    omega
  have hread := readBytes_eq (show b.toNat < 2 ^ 8 from b.toNat_lt) xs rest
  rw [hlen] at hread
  -- the bytes make the value with the bits that tell the length below it
  have hword : w.toNat = leValue (b :: xs) >>> (leadingZerosSlow b.toNat + 1) := by
    have hle := varintLength_le b
    have hnine : varintLength b ≠ 9 := fun h => hb ((varintLength_eq_nine_iff b).mp h)
    rw [varintValue, if_neg hb, hlength, List.take_length] at hvalue
    rw [← hvalue, UInt64.toNat_shiftRight, toNat_loadBytes _ (by omega), UInt64.toNat_ofNat',
      ← hlength, hbits, Nat.mod_eq_of_lt (show varintLength b < 2 ^ 64 by omega),
      Nat.mod_eq_of_lt (show varintLength b < 64 by omega)]
  rw [List.cons_append, readVarint]
  simp only [hne, if_false, hread, ok_bind, hword, leValue_cons]
  rfl

/-- On the other words `read_varint` raises. -/
theorem readVarint_encode_ge {w : UInt64} (hw : 2 ^ 56 ≤ w.toNat) (rest : List UInt8) :
    ∃ e, readVarint (encode w ++ rest) = .error e := by
  obtain ⟨b, xs, hencode, hlength, -⟩ := encode_eq_cons w
  have hb : b = 0 := by
    rw [← varintLength_eq_nine_iff, hlength, length_encode_eq_nine_iff]
    exact hw
  rw [hencode, List.cons_append, readVarint]
  simp only [hb, UInt8.toNat_zero, if_true]
  split
  · exact ⟨_, rfl⟩
  · exact ⟨_, rfl⟩

/-! ### Runs -/

namespace EventsStream

variable {s s' : EventsStream}

/-- The calls of `next` return some events one after another, and then the end is reached. -/
def Yields (s : EventsStream) (evs : List (StreamEvent ℤ)) : Prop :=
  ∃ fuel, s.nextAll fuel = .ok (some evs)

theorem yields_done (h : s.done = true) {evs : List (StreamEvent ℤ)} : s.Yields evs ↔ evs = [] := by
  have hall : ∀ fuel, s.nextAll fuel = .ok (some []) := by
    intro fuel
    cases fuel <;> simp [nextAll, h]
  constructor
  · rintro ⟨fuel, hfuel⟩
    rw [hall] at hfuel
    exact (Option.some.inj (Except.ok.inj hfuel)).symm
  · rintro rfl
    exact ⟨0, hall 0⟩

/-- A call that returns an event. -/
theorem yields_cons_iff {ev ev' : StreamEvent ℤ} {evs : List (StreamEvent ℤ)}
    (hdone : s.done = false) (h : s.next = .ok (ev, s')) :
    s.Yields (ev' :: evs) ↔ ev' = ev ∧ s'.Yields evs := by
  have hsucc : ∀ fuel, s.nextAll (fuel + 1) =
      (s'.nextAll fuel).map fun evs => evs.map (ev :: ·) := by
    intro fuel
    rw [nextAll, if_neg (by simp [hdone]), h, ok_bind]
    dsimp only
    cases s'.nextAll fuel <;> rfl
  constructor
  · rintro ⟨fuel, hfuel⟩
    cases fuel with
    | zero => simp [nextAll, hdone] at hfuel
    | succ fuel =>
      rw [hsucc] at hfuel
      obtain ⟨evs', hevs', hsome⟩ := map_eq_ok.mp hfuel
      cases evs' with
      | none => simp at hsome
      | some evs' =>
        obtain ⟨rfl, rfl⟩ := List.cons.inj (Option.some.inj hsome)
        exact ⟨rfl, fuel, hevs'⟩
  · rintro ⟨rfl, fuel, hfuel⟩
    exact ⟨fuel + 1, by rw [hsucc, hfuel]; rfl⟩

/-- A call that raises. -/
theorem not_yields_of_error {e : Raised} {evs : List (StreamEvent ℤ)} (hdone : s.done = false)
    (h : s.next = .error e) : ¬ s.Yields evs := by
  rintro ⟨fuel, hfuel⟩
  cases fuel with
  | zero => simp [nextAll, hdone] at hfuel
  | succ fuel => simp [nextAll, hdone, h] at hfuel

/-! ### First words -/

@[simp] theorem io_setIo (bytes : List UInt8) : (s.setIo bytes).io = bytes := by
  unfold setIo io
  cases hbuf : s.buf <;> simp

/-- A word at the front is read. -/
theorem readVarint_of_lt {w : UInt64} {ws : List UInt64} {rest : List UInt8}
    (hio : s.io = writeWords (w :: ws) ++ rest) (hw : w.toNat < 2 ^ 56) :
    s.readVarint = .ok (w.toNat, s.setIo (writeWords ws ++ rest)) := by
  have hsplit : writeWords (w :: ws) ++ rest = encode w ++ (writeWords ws ++ rest) := by
    rw [writeWords, List.flatMap_cons, List.append_assoc]
    rfl
  rw [readVarint, hio, hsplit, readVarint_encode_lt hw, ok_bind]
  rfl

/-- A long word at the front raises. -/
theorem readVarint_of_ge {w : UInt64} {ws : List UInt64} {rest : List UInt8}
    (hio : s.io = writeWords (w :: ws) ++ rest) (hw : 2 ^ 56 ≤ w.toNat) :
    ∃ e, s.readVarint = .error e := by
  have hsplit : writeWords (w :: ws) ++ rest = encode w ++ (writeWords ws ++ rest) := by
    rw [writeWords, List.flatMap_cons, List.append_assoc]
    rfl
  obtain ⟨e, he⟩ := readVarint_encode_ge hw (writeWords ws ++ rest)
  exact ⟨e, by rw [readVarint, hio, hsplit, he]; rfl⟩

/-- The case of a word that carries a type in its low three bits. -/
theorem next_tagged (hdone : s.done = false) {s₁ s₂ : EventsStream} (hrefill : s.refill = .ok s₁)
    (type : EventType) {x : UInt64} (hx : x.toNat < 2 ^ 61) (htype : type.code.toNat < 7)
    (hread : s₁.readVarint = .ok (((x <<< kTypeShift) ||| type.code).toNat, s₂)) :
    s.next = s₂.nextCase ((x <<< kTypeShift) ||| type.code).toNat x.toNat type.code.toNat := by
  have hword : ((x <<< kTypeShift) ||| type.code).toNat = x.toNat * 2 ^ 3 + type.code.toNat :=
    toNat_tagged (by decide) hx (show type.code.toNat < 8 by omega)
  have hlow : ((x <<< kTypeShift) ||| type.code).toNat &&& 7 = type.code.toNat := by
    show _ &&& 2 ^ 3 - 1 = _
    rw [Nat.and_two_pow_sub_one_eq_mod, hword]
    omega
  have hhigh : ((x <<< kTypeShift) ||| type.code).toNat >>> 3 = x.toNat := by
    rw [Nat.shiftRight_eq_div_pow, hword]
    omega
  rw [next, if_neg (by simp [hdone]), hrefill, ok_bind, hread, ok_bind]
  simp only [hlow, hhigh]
  rw [if_neg (by omega)]

/-- The case of a word that carries a type in its low eight bits. -/
theorem next_extTagged (hdone : s.done = false) {s₁ s₂ : EventsStream}
    (hrefill : s.refill = .ok s₁) (type : EventType) {x : UInt64} (hx : x.toNat < 2 ^ 56)
    (htype : type.code.toNat % 8 = 7) (hlt : type.code.toNat < 256)
    (hread : s₁.readVarint = .ok (((x <<< kExtTypeShift) ||| type.code).toNat, s₂)) :
    s.next = s₂.nextCase ((x <<< kExtTypeShift) ||| type.code).toNat x.toNat type.code.toNat := by
  have hword : ((x <<< kExtTypeShift) ||| type.code).toNat = x.toNat * 2 ^ 8 + type.code.toNat :=
    toNat_tagged (by decide) hx hlt
  have hlow : ((x <<< kExtTypeShift) ||| type.code).toNat &&& 7 = 7 := by
    show _ &&& 2 ^ 3 - 1 = _
    rw [Nat.and_two_pow_sub_one_eq_mod, hword]
    omega
  have hcode : ((x <<< kExtTypeShift) ||| type.code).toNat &&& 0xff = type.code.toNat := by
    show _ &&& 2 ^ 8 - 1 = _
    rw [Nat.and_two_pow_sub_one_eq_mod, hword]
    omega
  have hhigh : ((x <<< kExtTypeShift) ||| type.code).toNat >>> 8 = x.toNat := by
    rw [Nat.shiftRight_eq_div_pow, hword]
    omega
  rw [next, if_neg (by simp [hdone]), hrefill, ok_bind, hread, ok_bind]
  simp only [hlow, hcode, hhigh, if_true]

/-- A first word that is too long. -/
theorem next_of_ge (hdone : s.done = false) {s₁ : EventsStream} (hrefill : s.refill = .ok s₁)
    {w : UInt64} {ws : List UInt64} {rest : List UInt8}
    (hio : s₁.io = writeWords (w :: ws) ++ rest) (hw : 2 ^ 56 ≤ w.toNat) :
    ∃ e, s.next = .error e := by
  obtain ⟨e, he⟩ := readVarint_of_ge hio hw
  exact ⟨e, by rw [next, if_neg (by simp [hdone]), hrefill, ok_bind, he]; rfl⟩

end EventsStream

end Script

end MallocTraceReplay
