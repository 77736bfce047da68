import MallocTraceReplay.Stream.MemStream
import MallocTraceReplay.Codec.Equiv.AltVarint
import MallocTraceReplay.Lib.StepMachine

/-!
# Correctness of `MemStream`

`Reads s rest` says that a stream stands before the bytes `rest`, of which its window shows the
first ones.  The reading functions then do on the stream what `readVarint` and `List.drop` do on
`rest`, as long as the window, when it is extended, shows all of the item that is read
(`ShowsNext`).  The lemmas are about any family of streams that is closed under the operations
(`Served`), so that they serve every mapper.
-/

namespace MallocTraceReplay

open AltVarintCodec StepMachine

namespace MemStream

variable {M : Type} [Mapper M]

/-! ### Streams before bytes -/

/-- The number of bytes in the window. -/
def shown (s : MemStream M) : ℕ := s.end_.toNat - s.ptr.toNat

/-- The stream stands before `rest`, which ends where the data do. -/
structure Reads (s : MemStream M) (rest : List UInt8) : Prop where
  fits : s.ptr.toNat + rest.length ≤ 2 ^ 63
  le : s.ptr.toNat ≤ s.end_.toNat
  window : s.end_.toNat ≤ s.ptr.toNat + rest.length
  loads : ∀ i, s.ptr.toNat + i < s.end_.toNat →
    Mapper.load s.mapper (s.ptr + UInt64.ofNat i) = rest[i]?

/-- The stream some bytes ahead. -/
def skip (s : MemStream M) (n : ℕ) : MemStream M := { s with ptr := s.ptr + UInt64.ofNat n }

theorem toNat_add_ofNat {a : UInt64} {n : ℕ} (h : a.toNat + n < 2 ^ 64) :
    (a + UInt64.ofNat n).toNat = a.toNat + n := by
  rw [UInt64.toNat_add, UInt64.toNat_ofNat']
  omega

theorem Reads.shown_le {s : MemStream M} {rest : List UInt8} (h : Reads s rest) :
    s.shown ≤ rest.length := by
  have := h.window
  unfold shown
  omega

theorem Reads.toNat_window {s : MemStream M} {rest : List UInt8} (h : Reads s rest) :
    (s.end_ - s.ptr).toNat = s.shown := by
  have := h.le
  have := s.end_.toNat_lt
  unfold shown
  rw [UInt64.toNat_sub]
  omega

theorem Reads.ptr_skip {s : MemStream M} {rest : List UInt8} (h : Reads s rest) {n : ℕ}
    (hn : n ≤ s.shown) : (s.skip n).ptr.toNat = s.ptr.toNat + n := by
  have := h.shown_le
  have := h.fits
  exact toNat_add_ofNat (by omega)

/-- Skipping bytes of the window. -/
theorem Reads.skip {s : MemStream M} {rest : List UInt8} (h : Reads s rest) {n : ℕ}
    (hn : n ≤ s.shown) : Reads (s.skip n) (rest.drop n) := by
  have hle := h.le
  have hwin := h.window
  have hfits := h.fits
  have hlen := h.shown_le
  have hptr := h.ptr_skip hn
  have hsh : n ≤ s.end_.toNat - s.ptr.toNat := hn
  refine ⟨?_, ?_, ?_, fun i hi => ?_⟩
  · rw [hptr, List.length_drop]; omega
  · rw [hptr]; show s.ptr.toNat + n ≤ s.end_.toNat; omega
  · rw [hptr, List.length_drop]; show s.end_.toNat ≤ _; omega
  · have hi' : s.ptr.toNat + n + i < s.end_.toNat := by rw [← hptr]; exact hi
    have h2 := h.loads (n + i) (by omega)
    rw [List.getElem?_drop, ← h2]
    show Mapper.load s.mapper (s.ptr + UInt64.ofNat n + UInt64.ofNat i) = _
    rw [UInt64.ofNat_add, UInt64.add_assoc]

/-- `has_at_least_varint` is about the window. -/
theorem Reads.hasAtLeastVarint_iff {s : MemStream M} {rest : List UInt8} (h : Reads s rest) :
    s.hasAtLeastVarint = true ↔ 9 ≤ s.shown := by
  have := h.fits
  have := h.le
  unfold hasAtLeastVarint shown kMaxSize
  simp only [decide_eq_true_eq, UInt64.le_iff_toNat_le, UInt64.toNat_add, UInt64.reduceToNat]
  omega

/-! ### Families of streams -/

/-- A family of streams before bytes that is closed under what the reading functions do. -/
structure Served (P : MemStream M → List UInt8 → Prop) : Prop where
  /-- A member whose window does not end before its place reads. -/
  reads : ∀ {s rest}, P s rest → s.ptr ≤ s.end_ → Reads s rest
  /-- A successful extension of the window stays in the family. -/
  realizeMore : ∀ {s rest minAmount ok s'}, P s rest → s.ptr.toNat + minAmount.toNat < 2 ^ 64 →
    s.realizeMore minAmount = .ok (ok, s') →
    P s' rest ∧ s'.ptr = s.ptr ∧ s'.ptr ≤ s'.end_ ∧ s'.permissiveAdvance = s.permissiveAdvance
  skip : ∀ {s rest n}, P s rest → s.ptr ≤ s.end_ → n ≤ s.shown → P (s.skip n) (rest.drop n)
  permissive : ∀ {s rest}, P s rest → ∀ b, P { s with permissiveAdvance := b } rest

/-- What an extension of the window reports. -/
theorem realizeMore_eq_ok {s s' : MemStream M} {minAmount : UInt64} {ok : Bool}
    (h : s.realizeMore minAmount = .ok (ok, s')) : ok = decide (s'.end_ - s'.ptr ≥ minAmount) := by
  unfold realizeMore at h
  obtain ⟨⟨got, mapper⟩, -, h⟩ := bind_eq_ok.mp h
  simp only [pure_eq_ok, Except.ok.injEq, Prod.mk.injEq] at h
  rw [← h.1, ← h.2]

/-! ### Varints -/

/-- The length of the varint that `rest` starts with, from the byte that tells it. -/
def varintNeed (rest : List UInt8) : ℕ :=
  match rest with
  | [] => 1
  | b :: _ => varintLength b

theorem varintNeed_pos (rest : List UInt8) : 0 < varintNeed rest := by
  cases rest with
  | nil => exact Nat.one_pos
  | cons b rest => exact varintLength_pos b

theorem varintNeed_le (rest : List UInt8) : varintNeed rest ≤ 9 := by
  cases rest with
  | nil => simp [varintNeed]
  | cons b rest => exact varintLength_le b

/-- Whether there is a whole varint, and what it is. -/
theorem readVarint_eq (rest : List UInt8) :
    readVarint rest =
      if rest.length < varintNeed rest then none
      else some (varintValue rest, rest.drop (varintNeed rest)) := by
  cases rest with
  | nil => rfl
  | cons b rest => rfl

/-- The decoder where memory starts with a whole varint. -/
theorem decodeUnsigned_of_whole {byteAt : ℕ → Option UInt8} {rest : List UInt8}
    (hwhole : varintNeed rest ≤ rest.length)
    (hbytes : ∀ i < varintNeed rest, byteAt i = rest[i]?)
    (hreads : ∀ i < 9, (byteAt i).isSome) :
    decodeUnsigned byteAt = some ⟨UInt64.ofNat (varintNeed rest), varintValue rest⟩ := by
  cases rest with
  | nil => simp [varintNeed] at hwhole
  | cons b rest => exact decodeUnsigned_eq hwhole hbytes hreads

/-- The decoder where memory starts with a varint cut short: it finds a longer one. -/
theorem decodeUnsigned_of_short {byteAt : ℕ → Option UInt8} {rest : List UInt8}
    (hshort : rest.length < varintNeed rest)
    (hbytes : ∀ i < rest.length, byteAt i = rest[i]?)
    (hreads : ∀ i < 9, (byteAt i).isSome) :
    ∃ n v, decodeUnsigned byteAt = some ⟨UInt64.ofNat n, v⟩ ∧ rest.length < n ∧ n ≤ 9 := by
  -- the nine bytes of memory, read as a list of their own
  obtain ⟨f, hf⟩ : ∃ f : ℕ → UInt8, ∀ i < 9, byteAt i = some (f i) :=
    ⟨fun i => (byteAt i).getD 0, fun i hi => by
      obtain ⟨x, hx⟩ := Option.isSome_iff_exists.mp (hreads i hi)
      simp [hx]⟩
  have hmem := varintLength_le (f 0)
  have hdec : decodeUnsigned byteAt = some ⟨UInt64.ofNat (varintLength (f 0)),
      varintValue (f 0 :: (List.range 8).map fun i => f (i + 1))⟩ := by
    refine decodeUnsigned_eq (by simpa using hmem) (fun i hi => ?_) hreads
    rw [hf i (by omega)]
    cases i with
    | zero => rfl
    | succ i => simp [show i < 8 by omega]
  refine ⟨_, _, hdec, ?_, hmem⟩
  cases rest with
  | nil => exact varintLength_pos (f 0)
  | cons b rest =>
    have hb : f 0 = b := by
      have h0 := hbytes 0 (Nat.zero_lt_succ _)
      rw [hf 0 (by omega)] at h0
      simpa using h0
    rw [hb]
    exact hshort

/-! ### The reading functions -/

/-- `has_more` sees a byte, if there is one. -/
def MoreShown (s : MemStream M) (rest : List UInt8) : Prop :=
  s.ptr < s.end_ ∨ ∃ ok s', s.realizeMore 0 = .ok (ok, s') ∧ min 1 rest.length ≤ s'.shown

/-- The window shows all of the varint that `rest` starts with, at once or after it is extended;
when `rest` ends before the varint does, it shows all of `rest` and may be extended again. -/
def VarintShown (s : MemStream M) (rest : List UInt8) : Prop :=
  s.hasAtLeastVarint = true ∨ ∃ ok s', s.realizeMore 0 = .ok (ok, s') ∧
    min (varintNeed rest) rest.length ≤ s'.shown ∧
    (rest.length < varintNeed rest → ∀ n ≤ 9, ∃ ok s'', s'.realizeMore n = .ok (ok, s''))

/-- The window shows a block of bytes, at once or after it is extended. -/
def BlockShown (s : MemStream M) (amount : UInt64) (rest : List UInt8) : Prop :=
  amount.toNat ≤ s.shown ∨ ∃ ok s', s.realizeMore amount = .ok (ok, s') ∧
    (amount.toNat ≤ rest.length → amount.toNat ≤ s'.shown)

/-- Whether a block is in the window. -/
theorem Reads.window_iff {s : MemStream M} {rest : List UInt8} (h : Reads s rest)
    (amount : UInt64) : s.end_ - s.ptr ≥ amount ↔ amount.toNat ≤ s.shown := by
  rw [ge_iff_le, UInt64.le_iff_toNat_le, h.toNat_window]

/-- A decoded varint in the window is skipped. -/
theorem takeDecoded_eq {s : MemStream M} {rest : List UInt8} (h : Reads s rest)
    {byteAt : ℕ → Option UInt8} {n : ℕ} {v : UInt64} (hn : n ≤ s.shown)
    (hdec : decodeUnsigned byteAt = some ⟨UInt64.ofNat n, v⟩) :
    s.takeDecoded byteAt = .ok (v, s.skip n) := by
  have hge : s.end_ - s.ptr ≥ UInt64.ofNat n := by
    rw [h.window_iff, UInt64.toNat_ofNat']
    exact (Nat.mod_le ..).trans hn
  simp only [takeDecoded, hdec, advanceBy, if_pos hge]
  rfl

variable {P : MemStream M → List UInt8 → Prop}

/-- **`has_more`** tells whether there are bytes left. -/
theorem hasMore_eq (hP : Served P) {s : MemStream M} {rest : List UInt8} (hs : P s rest)
    (hmore : MoreShown s rest) :
    ∃ s', s.hasMore = .ok (!rest.isEmpty, s') ∧ P s' rest ∧ s'.ptr = s.ptr ∧ s'.ptr ≤ s'.end_ ∧
      s'.permissiveAdvance = s.permissiveAdvance := by
  by_cases hlt : s.ptr < s.end_
  · -- a byte in the window is one of the bytes ahead
    have hle : s.ptr ≤ s.end_ := UInt64.le_of_lt hlt
    have hwin := (hP.reads hs hle).window
    have hne : rest ≠ [] := by
      rintro rfl
      rw [UInt64.lt_iff_toNat_lt] at hlt
      simp only [List.length_nil] at hwin
      omega
    exact ⟨s, by simp [hasMore, hlt, hne], hs, rfl, hle, rfl⟩
  · -- the window is empty: it is extended, and still empty only at the end
    obtain ⟨ok, s', heq, hshown⟩ := hmore.resolve_left hlt
    obtain ⟨hs', hptr, hle, hperm⟩ :=
      hP.realizeMore hs (by simpa using s.ptr.toNat_lt) heq
    refine ⟨s', ?_, hs', hptr, hle, hperm⟩
    have hlen := (hP.reads hs' hle).shown_le
    have hmore : decide (s'.ptr < s'.end_) = !rest.isEmpty := by
      unfold shown at hshown hlen
      cases rest with
      | nil =>
        simp only [List.length_nil] at hlen
        simp only [List.isEmpty_nil, Bool.not_true, decide_eq_false_iff_not,
          UInt64.lt_iff_toNat_lt]
        omega
      | cons b rest =>
        simp only [List.length_cons] at hshown
        simp only [List.isEmpty_cons, Bool.not_false, decide_eq_true_eq, UInt64.lt_iff_toNat_lt]
        omega
    rw [hasMore, if_neg hlt, heq, ok_bind, ← hmore]
    rfl

/-- The fast path: there is a whole varint in the window. -/
theorem readVarintFast_eq (hP : Served P) {s : MemStream M} {rest : List UInt8} (hs : P s rest)
    (hle : s.ptr ≤ s.end_) (hfast : s.hasAtLeastVarint = true) :
    readVarint rest = some (varintValue rest, rest.drop (varintNeed rest)) ∧
      varintNeed rest ≤ s.shown ∧
      s.readVarintFast = .ok (varintValue rest, s.skip (varintNeed rest)) := by
  have h := hP.reads hs hle
  have h9 : 9 ≤ s.shown := h.hasAtLeastVarint_iff.mp hfast
  have hlen := h.shown_le
  have hneed := varintNeed_le rest
  have hbytes : ∀ i < s.shown, Mapper.load s.mapper (s.ptr + UInt64.ofNat i) = rest[i]? :=
    fun i hi => h.loads i (by unfold shown at hi; omega)
  refine ⟨by rw [readVarint_eq, if_neg (by omega)], by omega,
    takeDecoded_eq h (by omega) (decodeUnsigned_of_whole (by omega)
      (fun i hi => hbytes i (by omega)) fun i hi => ?_)⟩
  rw [hbytes i (by omega), List.getElem?_eq_getElem (by omega)]
  rfl

/-- The bytes of the window, loaded one after the other. -/
theorem Reads.mapM_loads {s : MemStream M} {rest : List UInt8} (h : Reads s rest) :
    ((List.range s.shown).mapM fun i => Mapper.load s.mapper (s.ptr + UInt64.ofNat i)) =
      some ((List.range s.shown).map fun i => rest.getD i 0) := by
  have hlen := h.shown_le
  refine mapM_eq_some_map fun i hi => ?_
  have hi' := List.mem_range.mp hi
  rw [h.loads i (by unfold shown at hi'; omega), List.getD_eq_getElem?_getD,
    List.getElem?_eq_getElem (by omega)]
  rfl

/-- The temporary holds the bytes of the window and then what was on the stack. -/
theorem fillTmp_eq {s : MemStream M} {rest : List UInt8} (h : Reads s rest)
    (hslow : ¬ 9 ≤ s.shown) (stack : StackBytes) :
    ∃ tmp, s.fillTmp stack = .ok tmp ∧ (∀ i < s.shown, tmp i = rest[i]?) ∧
      ∀ i < 9, (tmp i).isSome := by
  have hlen := h.shown_le
  have hfill : s.fillTmp stack = .ok fun i =>
      if i < s.shown then ((List.range s.shown).map fun i => rest.getD i 0)[i]?
      else if i < 9 then some (stack s.ptr i) else none := by
    simp only [fillTmp, h.toNat_window, if_neg (show ¬ s.shown > 9 by omega),
      h.mapM_loads]
  refine ⟨_, hfill, fun i hi => ?_, fun i hi => ?_⟩
  · simp [hi, show i < rest.length by omega]
  · by_cases hi' : i < s.shown
    · simp [hi']
    · simp [hi', hi]

/-- The slow path: the varint is whole once the window is extended. -/
theorem readVarintSlow_whole (hP : Served P) {s : MemStream M} {rest : List UInt8}
    (hs : P s rest) (hslow : s.hasAtLeastVarint = false) (hshown : VarintShown s rest)
    (hwhole : varintNeed rest ≤ rest.length) (stack : StackBytes) :
    ∃ s', s.readVarintSlow stack = .ok (varintValue rest, s'.skip (varintNeed rest)) ∧
      P s' rest ∧ s'.ptr ≤ s'.end_ ∧ varintNeed rest ≤ s'.shown ∧
      s'.permissiveAdvance = s.permissiveAdvance := by
  obtain ⟨ok, s', heq, hneed, -⟩ := hshown.resolve_left (by simp [hslow])
  obtain ⟨hs', -, hle, hperm⟩ := hP.realizeMore hs (by simpa using s.ptr.toNat_lt) heq
  have h := hP.reads hs' hle
  rw [Nat.min_eq_left hwhole] at hneed
  refine ⟨s', ?_, hs', hle, hneed, hperm⟩
  rw [readVarintSlow, heq, ok_bind]
  by_cases hfast : s'.hasAtLeastVarint = true
  · simp only [hfast, if_true]
    exact (readVarintFast_eq hP hs' hle hfast).2.2
  · have h9 : ¬ 9 ≤ s'.shown := fun h9 => hfast (h.hasAtLeastVarint_iff.mpr h9)
    obtain ⟨tmp, htmp, hbytes, hreads⟩ := fillTmp_eq h h9 stack
    simp only [if_neg hfast, htmp, ok_bind]
    exact takeDecoded_eq h hneed
      (decodeUnsigned_of_whole hwhole (fun i hi => hbytes i (by omega)) hreads)

/-- Where a permissive `advance_by` puts a stream whose data are too short. -/
def behind (s : MemStream M) : MemStream M := { s with ptr := s.end_ + 1 }

/-- Where the `try_` functions put such a stream. -/
def atEnd (s : MemStream M) : MemStream M := { s with ptr := s.end_, permissiveAdvance := false }

theorem Reads.behind_gt {s : MemStream M} {rest : List UInt8} (h : Reads s rest) :
    s.behind.ptr > s.behind.end_ := by
  have := h.window
  have := h.fits
  simp only [behind, gt_iff_lt, UInt64.lt_iff_toNat_lt, UInt64.toNat_add, UInt64.reduceToNat]
  omega

/-- The slow path where the data end within the varint: more is asked for than there is. -/
theorem readVarintSlow_short (hP : Served P) {s : MemStream M} {rest : List UInt8}
    (hs : P s rest) (hslow : s.hasAtLeastVarint = false) (hshown : VarintShown s rest)
    (hshort : rest.length < varintNeed rest) (stack : StackBytes) :
    if s.permissiveAdvance then
      ∃ v s₁ s₂ amount, amount ≤ 9 ∧ P s₁ rest ∧ s₁.ptr = s.ptr ∧
        s₁.realizeMore amount = .ok (false, s₂) ∧ s.readVarintSlow stack = .ok (v, s₂.behind)
    else s.readVarintSlow stack =
      .error (.panic "trying to realize with min_amount beyond end of data") := by
  obtain ⟨ok, s₁, heq, hneed, hmore⟩ := hshown.resolve_left (by simp [hslow])
  obtain ⟨hs₁, hptr₁, hle₁, hperm₁⟩ := hP.realizeMore hs (by simpa using s.ptr.toNat_lt) heq
  have h₁ := hP.reads hs₁ hle₁
  have hlen₁ := h₁.shown_le
  have hneed9 := varintNeed_le rest
  rw [Nat.min_eq_right (by omega)] at hneed
  have h9 : ¬ 9 ≤ s₁.shown := by omega
  have hfast : ¬ s₁.hasAtLeastVarint = true := fun hf => h9 (h₁.hasAtLeastVarint_iff.mp hf)
  obtain ⟨tmp, htmp, hbytes, hreads⟩ := fillTmp_eq h₁ h9 stack
  obtain ⟨n, v, hdec, hlong, hn9⟩ :=
    decodeUnsigned_of_short hshort (fun i hi => hbytes i (by omega)) hreads
  have hn9' : UInt64.ofNat n ≤ 9 := by
    rw [UInt64.le_iff_toNat_le, UInt64.toNat_ofNat']
    simp only [UInt64.reduceToNat]
    omega
  obtain ⟨ok₂, s₂, heq₂⟩ := hmore hshort (UInt64.ofNat n) hn9'
  have hfits := h₁.fits
  have hnN : (UInt64.ofNat n).toNat = n := by rw [UInt64.toNat_ofNat']; omega
  obtain ⟨hs₂, hptr₂, hle₂, hperm₂⟩ := hP.realizeMore hs₁ (by omega) heq₂
  have h₂ := hP.reads hs₂ hle₂
  have hlen₂ := h₂.shown_le
  -- the amount asked for is not there, in the window as it was and as it is extended
  have hno₁ : ¬ s₁.end_ - s₁.ptr ≥ UInt64.ofNat n := by
    rw [ge_iff_le, UInt64.le_iff_toNat_le, h₁.toNat_window, hnN]
    omega
  have hno₂ : ok₂ = false := by
    rw [realizeMore_eq_ok heq₂, decide_eq_false_iff_not, ge_iff_le, UInt64.le_iff_toNat_le,
      h₂.toNat_window, hnN]
    omega
  subst hno₂
  have hslow_eq : s.readVarintSlow stack =
      if s₂.permissiveAdvance then .ok (v, s₂.behind)
      else .error (.panic "trying to realize with min_amount beyond end of data") := by
    rw [readVarintSlow, heq, ok_bind]
    simp only [if_neg hfast, htmp, ok_bind, takeDecoded, hdec, advanceBy, if_neg hno₁,
      advanceBySlow, heq₂, Bool.false_eq_true, if_false]
    split <;> rfl
  rw [hslow_eq, hperm₂, hperm₁]
  by_cases hperm : s.permissiveAdvance = true
  · rw [if_pos hperm, if_pos hperm]
    exact ⟨v, s₁, s₂, UInt64.ofNat n, hn9', hs₁, hptr₁, heq₂, rfl⟩
  · rw [if_neg hperm, if_neg hperm]

/-- Skipping bytes of the window, in the family. -/
theorem Served.skip_le (hP : Served P) {s : MemStream M} {rest : List UInt8} (hs : P s rest)
    (hle : s.ptr ≤ s.end_) {n : ℕ} (hn : n ≤ s.shown) :
    P (s.skip n) (rest.drop n) ∧ (s.skip n).ptr ≤ (s.skip n).end_ := by
  refine ⟨hP.skip hs hle hn, ?_⟩
  rw [UInt64.le_iff_toNat_le]
  exact ((hP.reads hs hle).skip hn).le

/-- A whole varint at the front is read. -/
theorem readVarint_whole (hP : Served P) {s : MemStream M} {rest : List UInt8} (hs : P s rest)
    (hle : s.ptr ≤ s.end_) (hshown : VarintShown s rest)
    (hwhole : varintNeed rest ≤ rest.length) (stack : StackBytes) :
    ∃ s', s.mustReadVarint stack = .ok (varintValue rest, s') ∧
      P s' (rest.drop (varintNeed rest)) ∧ s'.ptr ≤ s'.end_ ∧
      s'.permissiveAdvance = s.permissiveAdvance := by
  unfold mustReadVarint
  by_cases hfast : s.hasAtLeastVarint = true
  · obtain ⟨-, hneed, heq⟩ := readVarintFast_eq hP hs hle hfast
    obtain ⟨hs', hle'⟩ := hP.skip_le hs hle hneed
    exact ⟨_, by rw [if_pos hfast, heq], hs', hle', rfl⟩
  · obtain ⟨s', heq, hs', hle', hneed, hperm⟩ :=
      readVarintSlow_whole hP hs (by simpa using hfast) hshown hwhole stack
    obtain ⟨hs'', hle''⟩ := hP.skip_le hs' hle' hneed
    exact ⟨_, by rw [if_neg hfast, heq], hs'', hle'', hperm⟩

/-- **`must_read_varint`** reads the varint at the front, or panics when it is cut short. -/
theorem mustReadVarint_eq (hP : Served P) {s : MemStream M} {rest : List UInt8} (hs : P s rest)
    (hle : s.ptr ≤ s.end_) (hstrict : s.permissiveAdvance = false) (hshown : VarintShown s rest)
    (stack : StackBytes) :
    match readVarint rest with
    | some (v, rest') => ∃ s', s.mustReadVarint stack = .ok (v, s') ∧ P s' rest' ∧
        s'.ptr ≤ s'.end_ ∧ s'.permissiveAdvance = false
    | none => s.mustReadVarint stack =
        .error (.panic "trying to realize with min_amount beyond end of data") := by
  rw [readVarint_eq]
  by_cases hshort : rest.length < varintNeed rest
  · have hfast : s.hasAtLeastVarint = false := by
      rw [Bool.eq_false_iff]
      intro hf
      have := (readVarintFast_eq hP hs hle hf).2.1
      have := (hP.reads hs hle).shown_le
      omega
    have h := readVarintSlow_short hP hs hfast hshown hshort stack
    simp only [hstrict, Bool.false_eq_true, if_false] at h
    simp only [if_pos hshort, mustReadVarint, hfast, Bool.false_eq_true, if_false, h]
  · obtain ⟨s', heq, hs', hle', hperm⟩ :=
      readVarint_whole hP hs hle hshown (by omega) stack
    simp only [if_neg hshort]
    exact ⟨s', heq, hs', hle', by rw [hperm, hstrict]⟩

/-- `try_read_varint` is `must_read_varint` with a permissive advance. -/
theorem tryReadVarint_def (s : MemStream M) (stack : StackBytes) :
    s.tryReadVarint stack =
      if s.hasAtLeastVarint then do
        let (value, s) ← s.mustReadVarint stack
        return (some value, s)
      else do
        let (result, s) ← { s with permissiveAdvance := true }.mustReadVarint stack
        let s := { s with permissiveAdvance := false }
        if s.ptr > s.end_ then return (none, { s with ptr := s.end_ })
        else return (some result, s) := by
  unfold tryReadVarint mustReadVarint
  by_cases hfast : s.hasAtLeastVarint = true
  · simp only [hfast, if_true]
  · have hfast' : ({ s with permissiveAdvance := true } : MemStream M).hasAtLeastVarint = false :=
      Bool.eq_false_iff.mpr hfast
    simp only [hfast, hfast', Bool.false_eq_true, if_false]

/-- `try_read_varint` where the data end within the varint: the last extension of the window does
not show what it asks for, and the stream is put at the end of the window. -/
theorem tryReadVarint_short (hP : Served P) {s : MemStream M} {rest : List UInt8} (hs : P s rest)
    (hle : s.ptr ≤ s.end_)
    (hshown : VarintShown { s with permissiveAdvance := true } rest)
    (hshort : rest.length < varintNeed rest) (stack : StackBytes) :
    ∃ s₁ s₂ amount, amount ≤ 9 ∧ P s₁ rest ∧ s₁.ptr = s.ptr ∧
      s₁.realizeMore amount = .ok (false, s₂) ∧ s.tryReadVarint stack = .ok (none, s₂.atEnd) := by
  have hslow : s.hasAtLeastVarint = false := by
    rw [Bool.eq_false_iff]
    intro hfast
    have := (readVarintFast_eq hP hs hle hfast).2.1
    have := (hP.reads hs hle).shown_le
    omega
  obtain ⟨v, s₁, s₂, amount, h9, hs₁, hptr₁, hno, heq⟩ :=
    readVarintSlow_short hP (hP.permissive hs true) hslow hshown hshort stack
  have hamount : s₁.ptr.toNat + amount.toNat < 2 ^ 64 := by
    have := (hP.reads hs hle).fits
    have : s₁.ptr.toNat = s.ptr.toNat := congrArg UInt64.toNat hptr₁
    rw [UInt64.le_iff_toNat_le] at h9
    simp only [UInt64.reduceToNat] at h9
    omega
  obtain ⟨hs₂, -, hle₂, -⟩ := hP.realizeMore hs₁ hamount hno
  refine ⟨s₁, s₂, amount, h9, hs₁, hptr₁, hno, ?_⟩
  simp only [tryReadVarint, hslow, Bool.false_eq_true, if_false, heq, ok_bind,
    if_pos (hP.reads hs₂ hle₂).behind_gt]
  rfl

/-- **`try_read_varint`** reads the varint at the front, if there is a whole one. -/
theorem tryReadVarint_eq (hP : Served P) {s : MemStream M} {rest : List UInt8} (hs : P s rest)
    (hle : s.ptr ≤ s.end_) (hstrict : s.permissiveAdvance = false)
    (hshown : VarintShown { s with permissiveAdvance := true } rest) (stack : StackBytes) :
    match readVarint rest with
    | some (v, rest') => ∃ s', s.tryReadVarint stack = .ok (some v, s') ∧ P s' rest' ∧
        s'.ptr ≤ s'.end_ ∧ s'.permissiveAdvance = false
    | none => ∃ s', s.tryReadVarint stack = .ok (none, s') := by
  rw [tryReadVarint_def, readVarint_eq]
  by_cases hfast : s.hasAtLeastVarint = true
  · obtain ⟨heq, -⟩ := readVarintFast_eq hP hs hle hfast
    -- the fast path needs the whole varint in the window
    have hwhole : ¬ rest.length < varintNeed rest := by
      intro hshort
      rw [readVarint_eq, if_pos hshort] at heq
      exact absurd heq (by simp)
    obtain ⟨s', hmust, hs', hle', hperm⟩ :=
      readVarint_whole hP hs hle (Or.inl hfast) (by omega) stack
    simp only [hfast, if_true, if_neg hwhole, hmust, ok_bind]
    exact ⟨s', rfl, hs', hle', by rw [hperm, hstrict]⟩
  · simp only [hfast, Bool.false_eq_true, if_false]
    -- the slow path reads with permission to end
    have hsP := hP.permissive hs true
    by_cases hshort : rest.length < varintNeed rest
    · obtain ⟨s₁, s₂, amount, -, -, -, -, heq⟩ :=
        tryReadVarint_short hP hs hle hshown hshort stack
      rw [tryReadVarint_def, if_neg hfast] at heq
      rw [if_pos hshort]
      exact ⟨_, heq⟩
    · -- the permission is not made use of
      obtain ⟨s', hmust, hs', hle', -⟩ :=
        readVarint_whole hP hsP hle hshown (by omega) stack
      have hngt : ¬ s'.ptr > s'.end_ := by
        rw [gt_iff_lt, UInt64.not_lt]; exact hle'
      simp only [if_neg hshort, hmust, ok_bind, if_neg hngt]
      exact ⟨_, rfl, hP.permissive hs' false, hle', rfl⟩

/-- `try_advance_by` is a permissive `advance_by`. -/
theorem tryAdvanceBy_def (s : MemStream M) (amount : UInt64) :
    s.tryAdvanceBy amount =
      ({ s with permissiveAdvance := true } : MemStream M).advanceBy amount >>= fun r =>
        if r.2.ptr > r.2.end_ then
          .ok (none, { r.2 with ptr := r.2.end_, permissiveAdvance := false })
        else .ok (some r.1, { r.2 with permissiveAdvance := false }) := rfl

/-- A block that there is. -/
theorem advanceBy_enough (hP : Served P) {s : MemStream M} {rest : List UInt8} (hs : P s rest)
    (hle : s.ptr ≤ s.end_) {amount : UInt64} (hfits : s.ptr.toNat + amount.toNat < 2 ^ 64)
    (hshown : BlockShown s amount rest) (hrest : amount.toNat ≤ rest.length) :
    ∃ s', s.advanceBy amount = .ok (s.ptr, s'.skip amount.toNat) ∧ P s' rest ∧
      s'.ptr = s.ptr ∧ s'.ptr ≤ s'.end_ ∧ amount.toNat ≤ s'.shown := by
  by_cases hin : amount.toNat ≤ s.shown
  · refine ⟨s, ?_, hs, rfl, hle, hin⟩
    rw [advanceBy, if_pos (((hP.reads hs hle).window_iff _).mpr hin), skip, UInt64.ofNat_toNat]
  · obtain ⟨ok, s₁, heq, hmore⟩ := hshown.resolve_left hin
    obtain ⟨hs₁, hptr₁, hle₁, hperm₁⟩ := hP.realizeMore hs hfits heq
    have hok : ok = true := by
      rw [realizeMore_eq_ok heq, decide_eq_true_eq]
      exact ((hP.reads hs₁ hle₁).window_iff _).mpr (hmore hrest)
    refine ⟨s₁, ?_, hs₁, hptr₁, hle₁, hmore hrest⟩
    rw [advanceBy, if_neg (fun h => hin (((hP.reads hs hle).window_iff _).mp h)), advanceBySlow,
      heq, ok_bind, skip, UInt64.ofNat_toNat]
    simp only [hok, if_true, pure_eq_ok]

/-- A block that there is not: the stream is put behind its window, or panics. -/
theorem advanceBy_short (hP : Served P) {s : MemStream M} {rest : List UInt8} (hs : P s rest)
    (hle : s.ptr ≤ s.end_) {amount : UInt64} (hfits : s.ptr.toNat + amount.toNat < 2 ^ 64)
    (hshown : BlockShown s amount rest) (hrest : ¬ amount.toNat ≤ rest.length) :
    if s.permissiveAdvance then
      ∃ s₁, s.realizeMore amount = .ok (false, s₁) ∧ s.advanceBy amount = .ok (s.ptr, s₁.behind)
    else s.advanceBy amount =
      .error (.panic "trying to realize with min_amount beyond end of data") := by
  have hlen := (hP.reads hs hle).shown_le
  obtain ⟨ok, s₁, heq, -⟩ := hshown.resolve_left (by omega)
  obtain ⟨hs₁, hptr₁, hle₁, hperm₁⟩ := hP.realizeMore hs hfits heq
  have h₁ := hP.reads hs₁ hle₁
  have hlen₁ := h₁.shown_le
  have hwin := h₁.window
  have hfits₁ := h₁.fits
  -- more cannot be shown than there is
  have hno : ok = false := by
    rw [realizeMore_eq_ok heq, decide_eq_false_iff_not, h₁.window_iff]
    omega
  have hadv : s.advanceBy amount = if s.permissiveAdvance then .ok (s.ptr, s₁.behind)
      else .error (.panic "trying to realize with min_amount beyond end of data") := by
    rw [advanceBy, if_neg (by rw [(hP.reads hs hle).window_iff]; omega), advanceBySlow, heq,
      ok_bind]
    simp only [hno, Bool.false_eq_true, if_false, behind, hperm₁]
    rfl
  rw [hadv]
  split
  · exact ⟨s₁, by rw [heq, hno], rfl⟩
  · rfl

/-- `try_advance_by` of a block that there is not. -/
theorem tryAdvanceBy_short (hP : Served P) {s : MemStream M} {rest : List UInt8} (hs : P s rest)
    (hle : s.ptr ≤ s.end_) {amount : UInt64} (hfits : s.ptr.toNat + amount.toNat < 2 ^ 64)
    (hshown : BlockShown { s with permissiveAdvance := true } amount rest)
    (hrest : ¬ amount.toNat ≤ rest.length) :
    ∃ s₁, { s with permissiveAdvance := true }.realizeMore amount = .ok (false, s₁) ∧
      s.tryAdvanceBy amount = .ok (none, s₁.atEnd) := by
  have hsP := hP.permissive hs true
  obtain ⟨s₁, hno, heq⟩ := advanceBy_short hP hsP hle hfits hshown hrest
  obtain ⟨hs₁, -, hle₁, -⟩ := hP.realizeMore hsP hfits hno
  refine ⟨s₁, hno, ?_⟩
  rw [tryAdvanceBy_def, heq, ok_bind, if_pos (hP.reads hs₁ hle₁).behind_gt]
  rfl

/-- **`try_advance_by`** skips a block of bytes, if there are as many. -/
theorem tryAdvanceBy_eq (hP : Served P) {s : MemStream M} {rest : List UInt8} (hs : P s rest)
    (hle : s.ptr ≤ s.end_) {amount : UInt64} (hfits : s.ptr.toNat + amount.toNat < 2 ^ 64)
    (hshown : BlockShown { s with permissiveAdvance := true } amount rest) :
    if amount.toNat ≤ rest.length then
      ∃ s', s.tryAdvanceBy amount = .ok (some s.ptr, s') ∧ P s' (rest.drop amount.toNat) ∧
        s'.ptr ≤ s'.end_ ∧ s'.permissiveAdvance = false ∧
        ∀ i < amount.toNat, Mapper.load s'.mapper (s.ptr + UInt64.ofNat i) = rest[i]?
    else ∃ s', s.tryAdvanceBy amount = .ok (none, s') := by
  have hsP := hP.permissive hs true
  rw [tryAdvanceBy_def]
  by_cases hrest : amount.toNat ≤ rest.length
  · obtain ⟨s₁, heq, hs₁, hptr₁, hle₁, hin⟩ := advanceBy_enough hP hsP hle hfits hshown hrest
    obtain ⟨hs', hle'⟩ := hP.skip_le hs₁ hle₁ hin
    have hngt : ¬ (s₁.skip amount.toNat).ptr > (s₁.skip amount.toNat).end_ := by
      rw [gt_iff_lt, UInt64.not_lt]; exact hle'
    rw [if_pos hrest, heq, ok_bind]
    refine ⟨_, if_neg hngt, hP.permissive hs' false, hle', rfl, fun i hi => ?_⟩
    have hload := (hP.reads hs₁ hle₁).loads i (by unfold shown at hin; omega)
    rw [hptr₁] at hload
    exact hload
  · obtain ⟨s₁, -, heq⟩ := tryAdvanceBy_short hP hs hle hfits hshown hrest
    rw [tryAdvanceBy_def] at heq
    rw [if_neg hrest, heq]
    exact ⟨_, rfl⟩

end MemStream

end MallocTraceReplay
