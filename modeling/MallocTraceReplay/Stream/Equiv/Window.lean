import MallocTraceReplay.Lib.Outcome
import MallocTraceReplay.Stream.Equiv.ConstProgress
import MallocTraceReplay.Stream.Equiv.VarintReading
import MallocTraceReplay.Stream.Equiv.FDMemStream
import MallocTraceReplay.Stream.Equiv.TraceReader

/-!
# The window of a stream

`begin_ ≤ realized_start_ ≤ ptr_ ≤ end_` is kept by the reading functions over both mappers
(`WindowInvariant`), since a window is only ever extended at its end.  `unrealize_up_to` keeps it
when it does nothing: its wrong assignment has `end_` go back when it acts.  A
`ConstMapper` lets a block end beyond the last address, which `FDInputMapper` refuses
(`calls_keep_order_iff`).
-/

namespace MallocTraceReplay

open AltVarintCodec StepMachine

namespace MemStream

variable {M : Type} [Mapper M]

/-- The order of the places of a stream. -/
structure Ordered (s : MemStream M) : Prop where
  begin_le : s.begin_ ≤ s.realizedStart
  start_le : s.realizedStart ≤ s.ptr
  ptr_le : s.ptr ≤ s.end_

/-! ### Calls -/

/-- The functions of a stream that are called from outside. -/
inductive Call
  | read (op : ReadOp)
  | mustReadVarint (stack : StackBytes)
  | unrealizeUpTo (ptr : UInt64)

namespace Call

/-- The stream after a call. -/
def run (ndebug : Bool) (s : MemStream M) : Call → Except Abort (MemStream M)
  | .read op => op.run s
  | .mustReadVarint stack => (s.mustReadVarint stack).map Prod.snd
  | .unrealizeUpTo ptr => s.unrealizeUpTo ndebug ptr

/-- The arguments are those of a caller that keeps to the window. -/
def InDomain (s : MemStream M) : Call → Prop
  | .read (.tryAdvanceBy amount) => (s.ptr - s.realizedStart).toNat + amount.toNat < 2 ^ 64
  | .unrealizeUpTo ptr => s.realizedStart ≤ ptr ∧ ptr ≤ s.ptr
  | .read .hasMore | .read (.tryReadVarint _) | .mustReadVarint _ => True

/-- What a call has to do with the places of a stream. -/
structure Keeps (s s' : MemStream M) (c : Call) : Prop where
  ordered : s'.Ordered
  end_le : s.end_ ≤ s'.end_
  ptr_eq : ∀ ptr, c = .unrealizeUpTo ptr → s'.ptr = s.ptr

/-- The condition: the block fits, and nothing is released. -/
def Fits (BlockFits : UInt64 → UInt64 → Prop) (s : MemStream M) : Call → Prop
  | .read (.tryAdvanceBy amount) => BlockFits s.ptr amount
  | .unrealizeUpTo ptr => (ptr - s.realizedStart).toInt64 < kUnrealizeStep.toInt64
  | .read .hasMore | .read (.tryReadVarint _) | .mustReadVarint _ => True

end Call

/-- The streams that come about from a stream by calls that meet a condition and return. -/
inductive Reached (ndebug : Bool) (Meets : MemStream M → Call → Prop) (s₀ : MemStream M) :
    MemStream M → Prop
  | start : Reached ndebug Meets s₀ s₀
  | call {s s' : MemStream M} {c : Call} : Reached ndebug Meets s₀ s → Meets s c →
      c.run ndebug s = .ok s' → Reached ndebug Meets s₀ s'

/-! ### Windows that are extended at their ends -/

/-- A property of streams that is kept when the place moves forward, or behind the end, such that a
window that is too short is extended at its end or the extension fails in one of the ways
`Fails`.  `BlockFits` is what a request for a block needs. -/
structure WindowInvariant (J : MemStream M → Prop) (BlockFits : UInt64 → UInt64 → Prop)
    (Fails : Abort → Prop) : Prop where
  beyondEnd : Fails (.panic "trying to realize with min_amount beyond end of data")
  fault : Fails .fault
  move : ∀ {s ptr}, J s → s.ptr ≤ ptr ∨ s.end_ ≤ ptr → ∀ permissive,
    J { s with ptr := ptr, permissiveAdvance := permissive }
  end_lt : ∀ {s}, J s → s.end_.toNat + 1 < 2 ^ 64
  varintFits : ∀ {s amount}, J s → s.Ordered → amount.toNat ≤ 32 → BlockFits s.ptr amount
  /-- After a request for more than a megabyte the place has to move. -/
  extend : ∀ {s amount}, J s → s.Ordered →
    s.end_.toNat ≤ s.ptr.toNat + max amount.toNat (2 ^ 20) → BlockFits s.ptr amount →
    Outcome Fails (fun r => s.end_ ≤ r.2.end_ ∧ (amount.toNat ≤ 2 ^ 20 → J r.2) ∧
      ∀ ptr, amount ≤ r.2.end_ - r.2.ptr ∧ r.2.ptr + amount ≤ ptr ∨ r.2.end_ ≤ ptr →
        J { r.2 with ptr := ptr }) (s.realizeMore amount)

/-- An invariant for which the condition is exact: what does not meet it has the window end before
it ended. -/
structure ExactWindowInvariant (J : MemStream M → Prop) (BlockFits : UInt64 → UInt64 → Prop) : Prop
    extends WindowInvariant J BlockFits fun _ => True where
  wraps : ∀ {s amount ok s'}, J s → s.Ordered → ¬ BlockFits s.ptr amount →
    s.realizeMore amount = .ok (ok, s') → s'.end_ < s.end_
  fits_of_shown : ∀ {s amount}, J s → s.Ordered → amount ≤ s.end_ - s.ptr → BlockFits s.ptr amount
  /-- Not much more than the window is there after a release. -/
  release : ∀ {s ptr got m'}, J s → s.Ordered → s.realizedStart ≤ ptr → ptr ≤ s.end_ →
    Mapper.realize s.mapper ptr (s.end_ - ptr) = .ok (got, m') →
    got.toNat ≤ s.end_.toNat - ptr.toNat + 4095

/-- What an extension of the window leaves. -/
theorem realizeMore_ok {s s' : MemStream M} {amount : UInt64} {ok : Bool}
    (h : s.realizeMore amount = .ok (ok, s')) :
    ∃ end_ mapper, s' = { s with end_ := end_, mapper := mapper } ∧
      ok = decide (end_ - s.ptr ≥ amount) := by
  unfold realizeMore at h
  obtain ⟨⟨got, mapper⟩, -, h⟩ := bind_eq_ok.mp h
  obtain ⟨rfl, rfl⟩ := Prod.mk.inj (Except.ok.inj h)
  exact ⟨_, _, rfl, rfl⟩

/-- What the reading functions do to the places of a stream; where there is too little they may
leave the place behind the end. -/
structure Moves (s s' : MemStream M) : Prop where
  begin_eq : s'.begin_ = s.begin_
  start_eq : s'.realizedStart = s.realizedStart
  permissive : s'.permissiveAdvance = s.permissiveAdvance
  end_le : s.end_ ≤ s'.end_
  ptr_le : s.ptr ≤ s'.ptr
  place : s'.ptr ≤ s'.end_ ∨ s.permissiveAdvance = true ∧ s'.ptr.toNat = s'.end_.toNat + 1

/-- A stream between two calls. -/
structure Settled (J : MemStream M → Prop) (s : MemStream M) : Prop where
  inv : J s
  ordered : s.Ordered
  strict : s.permissiveAdvance = false

section

variable {J : MemStream M → Prop} {BlockFits : UInt64 → UInt64 → Prop} {Fails : Abort → Prop}
  {s s' s₁ : MemStream M}
  {amount place value : UInt64} {stack : StackBytes}

omit [Mapper M] in
theorem Moves.ordered (h : Moves s s') (hs : s.Ordered) (hle : s'.ptr ≤ s'.end_) : s'.Ordered where
  begin_le := by
    rw [h.begin_eq, h.start_eq]
    exact hs.begin_le
  start_le := by
    rw [h.start_eq]
    exact UInt64.le_trans hs.start_le h.ptr_le
  ptr_le := hle

omit [Mapper M] in
theorem Moves.trans (h : Moves s s₁) (h' : Moves s₁ s') : Moves s s' where
  begin_eq := h'.begin_eq.trans h.begin_eq
  start_eq := h'.start_eq.trans h.start_eq
  permissive := h'.permissive.trans h.permissive
  end_le := UInt64.le_trans h.end_le h'.end_le
  ptr_le := UInt64.le_trans h.ptr_le h'.ptr_le
  place := by
    rw [← h.permissive]
    exact h'.place

omit [Mapper M] in
theorem Moves.settled (h : Moves s s') (hs : Settled J s) (hinv : J s') :
    Settled J s' ∧ s.end_ ≤ s'.end_ := by
  have hle : s'.ptr ≤ s'.end_ := by
    obtain hle | ⟨hpermissive, -⟩ := h.place
    · exact hle
    · simp [hs.strict] at hpermissive
  exact ⟨⟨hinv, h.ordered hs.ordered hle, h.permissive.trans hs.strict⟩, h.end_le⟩

omit [Mapper M] in
/-- The end of what the window shows. -/
theorem le_add_of_shown (hle : s.ptr ≤ s.end_) (hshown : s.end_ - s.ptr ≥ amount) :
    s.ptr ≤ s.ptr + amount ∧ s.ptr + amount ≤ s.end_ := by
  have hle' := UInt64.le_iff_toNat_le.mp hle
  have hend := s.end_.toNat_lt
  rw [ge_iff_le, UInt64.le_iff_toNat_le, UInt64.toNat_sub_of_le _ _ hle] at hshown
  rw [UInt64.le_iff_toNat_le, UInt64.le_iff_toNat_le, UInt64.toNat_add]
  omega

omit [Mapper M] in
/-- Skipping bytes that the window shows. -/
theorem moves_shown (hle : s.ptr ≤ s.end_) (hshown : s.end_ - s.ptr ≥ amount) :
    Moves s { s with ptr := s.ptr + amount } := by
  obtain ⟨hforward, hend⟩ := le_add_of_shown hle hshown
  exact ⟨rfl, rfl, rfl, UInt64.le_refl _, hforward, .inl hend⟩

variable (hJ : WindowInvariant J BlockFits Fails)

include hJ

/-- An extension of the window leaves the place in it. -/
theorem WindowInvariant.realizeMore (h : J s) (hs : s.Ordered)
    (hshort : s.end_.toNat ≤ s.ptr.toNat + max amount.toNat (2 ^ 20))
    (hfits : BlockFits s.ptr amount) :
    Outcome Fails (fun r => Moves s r.2 ∧ r.2.ptr ≤ r.2.end_ ∧
      r.1 = decide (r.2.end_ - r.2.ptr ≥ amount) ∧ (amount.toNat ≤ 2 ^ 20 → J r.2) ∧
      ∀ ptr, amount ≤ r.2.end_ - r.2.ptr ∧ r.2.ptr + amount ≤ ptr ∨ r.2.end_ ≤ ptr →
        J { r.2 with ptr := ptr }) (s.realizeMore amount) := by
  refine (hJ.extend h hs hshort hfits).imp fun ⟨ok, s₁⟩ heq ⟨hend, hinv⟩ => ?_
  obtain ⟨end_, mapper, rfl, hok⟩ := realizeMore_ok heq
  have hle : s.ptr ≤ end_ := UInt64.le_trans hs.ptr_le hend
  exact ⟨⟨rfl, rfl, rfl, hend, UInt64.le_refl _, .inl hle⟩, hle, hok, hinv⟩

/-- **`advance_by`.** -/
theorem WindowInvariant.advanceBy (h : J s) (hs : s.Ordered) (hfits : BlockFits s.ptr amount) :
    Outcome Fails (fun r => J r.2 ∧ Moves s r.2) (s.advanceBy amount) := by
  unfold MemStream.advanceBy
  split
  · -- the window shows the block
    next hshown =>
    have hforward := (le_add_of_shown hs.ptr_le hshown).1
    exact .ok ⟨hJ.move h (.inl hforward) _, moves_shown hs.ptr_le hshown⟩
  · next hnot =>
    rw [ge_iff_le, UInt64.le_iff_toNat_le, UInt64.toNat_sub_of_le _ _ hs.ptr_le] at hnot
    unfold advanceBySlow
    refine (hJ.realizeMore h hs (by omega) hfits).bind
      fun ⟨ok, s₁⟩ ⟨hmoves, hle, hok, _, hinv⟩ => ?_
    dsimp only at hmoves hle hok hinv ⊢
    split
    · -- the extended window shows it
      next hshown =>
      rw [hok, decide_eq_true_eq] at hshown
      exact .ok ⟨hinv _ (.inl ⟨hshown, UInt64.le_refl _⟩), hmoves.trans (moves_shown hle hshown)⟩
    · split
      · next hpermissive =>
        -- the place is left behind the end
        have hend := hJ.end_lt (hinv s₁.end_ (.inr (UInt64.le_refl _)))
        dsimp only at hend
        have hnew : (s₁.end_ + 1).toNat = s₁.end_.toNat + 1 := by
          rw [UInt64.toNat_add]
          simp only [UInt64.reduceToNat]
          omega
        have hbehind : s₁.end_ ≤ s₁.end_ + 1 := by
          rw [UInt64.le_iff_toNat_le, hnew]
          exact Nat.le_succ _
        exact .ok ⟨hinv _ (.inr hbehind), hmoves.trans ⟨rfl, rfl, rfl, UInt64.le_refl _,
          UInt64.le_trans hle hbehind, .inr ⟨hpermissive, hnew⟩⟩⟩
      · -- a strict stream stops
        exact .error hJ.beyondEnd

theorem WindowInvariant.takeDecoded (byteAt : ℕ → Option UInt8) (h : J s) (hs : s.Ordered) :
    Outcome Fails (fun r => J r.2 ∧ Moves s r.2) (s.takeDecoded byteAt) := by
  unfold MemStream.takeDecoded
  cases hdec : decodeUnsigned byteAt with
  | none => exact .error hJ.fault
  | some res =>
    have hfits := hJ.varintFits h hs (decodeUnsigned_advance hdec).2
    exact (hJ.advanceBy h hs hfits).bind fun _ h' => .ok h'

/-- The temporary is filled, or memory is not there. -/
theorem WindowInvariant.fillTmp (stack : StackBytes) (s : MemStream M) :
    Outcome Fails (fun _ => True) (s.fillTmp stack) := by
  unfold MemStream.fillTmp
  dsimp only
  split
  · exact .error hJ.fault
  · split
    · exact .error hJ.fault
    · exact .ok trivial

theorem WindowInvariant.readVarintSlow (h : J s) (hs : s.Ordered)
    (hshort : s.hasAtLeastVarint = false) :
    Outcome Fails (fun r => J r.2 ∧ Moves s r.2) (s.readVarintSlow stack) := by
  have hend := hJ.end_lt h
  unfold hasAtLeastVarint kMaxSize at hshort
  rw [decide_eq_false_iff_not, UInt64.le_iff_toNat_le, UInt64.toNat_add] at hshort
  simp only [UInt64.reduceToNat] at hshort
  have hfits := hJ.varintFits h hs (show (0 : UInt64).toNat ≤ 32 by decide)
  unfold MemStream.readVarintSlow
  -- the request is for a megabyte, of which there is less
  refine (hJ.realizeMore h hs (by simp only [UInt64.reduceToNat]; omega) hfits).bind ?_
  intro ⟨ok, s₁⟩ ⟨hmoves, hle, _, hinv, _⟩
  have hordered := hmoves.ordered hs hle
  have h₁ := hinv (by simp only [UInt64.reduceToNat]; omega)
  have htake := fun byteAt => (hJ.takeDecoded byteAt h₁ hordered).imp
    fun _ _ (h' : J _ ∧ Moves s₁ _) => (⟨h'.1, hmoves.trans h'.2⟩ : J _ ∧ Moves s _)
  dsimp only
  split
  · exact htake _
  · exact (hJ.fillTmp stack s₁).bind fun tmp _ => htake tmp

/-! ### The calls keep the window -/

/-- A place behind the end is put back to the end. -/
theorem WindowInvariant.settle (hs : Settled J s) (hinv : J s₁)
    (h : Moves { s with permissiveAdvance := true } s₁) :
    let s₂ : MemStream M := { s₁ with permissiveAdvance := false }
    let s' : MemStream M := if s₂.ptr > s₂.end_ then { s₂ with ptr := s₂.end_ } else s₂
    Settled J s' ∧ s.end_ ≤ s'.end_ := by
  intro s₂ s'
  have hstart : s₁.realizedStart ≤ s₁.ptr := by
    rw [h.start_eq]
    exact UInt64.le_trans hs.ordered.start_le h.ptr_le
  have hbegin : s₁.begin_ ≤ s₁.realizedStart := by
    rw [h.begin_eq, h.start_eq]
    exact hs.ordered.begin_le
  by_cases hgt : s₁.ptr > s₁.end_
  · have hs' : s' = { s₂ with ptr := s₂.end_ } := if_pos hgt
    rw [hs']
    refine ⟨⟨hJ.move hinv (.inr (UInt64.le_refl _)) _, ⟨hbegin, ?_, UInt64.le_refl _⟩, rfl⟩,
      h.end_le⟩
    -- the place was in the window, and the end has not moved back
    show s₁.realizedStart ≤ s₁.end_
    rw [h.start_eq]
    exact UInt64.le_trans hs.ordered.start_le (UInt64.le_trans hs.ordered.ptr_le h.end_le)
  · have hs' : s' = s₂ := if_neg hgt
    rw [hs']
    exact ⟨⟨hJ.move hinv (.inl (UInt64.le_refl _)) _, ⟨hbegin, hstart, UInt64.not_lt.mp hgt⟩,
      rfl⟩, h.end_le⟩

/-- **`has_more`.** -/
theorem WindowInvariant.hasMore (hs : Settled J s) :
    Outcome Fails (fun r => Settled J r.2 ∧ s.end_ ≤ r.2.end_) s.hasMore := by
  unfold MemStream.hasMore
  split
  · exact .ok ⟨hs, UInt64.le_refl _⟩
  · next hnot =>
    rw [UInt64.lt_iff_toNat_lt] at hnot
    have hfits := hJ.varintFits hs.inv hs.ordered (show (0 : UInt64).toNat ≤ 32 by decide)
    refine (hJ.realizeMore hs.inv hs.ordered (by omega) hfits).bind fun _ ⟨h, _, _, hinv, _⟩ => ?_
    exact .ok (h.settled hs (hinv (by simp only [UInt64.reduceToNat]; omega)))

/-- **`must_read_varint`.** -/
theorem WindowInvariant.mustReadVarint (stack : StackBytes) (hs : Settled J s) :
    Outcome Fails (fun r => Settled J r.2 ∧ s.end_ ≤ r.2.end_) (s.mustReadVarint stack) := by
  unfold MemStream.mustReadVarint
  split
  · exact (hJ.takeDecoded _ hs.inv hs.ordered).imp fun _ _ h => h.2.settled hs h.1
  · next hshort =>
    exact (hJ.readVarintSlow hs.inv hs.ordered (Bool.eq_false_iff.mpr hshort)).imp
      fun _ _ h => h.2.settled hs h.1

/-- **`try_read_varint`.** -/
theorem WindowInvariant.tryReadVarint (stack : StackBytes) (hs : Settled J s) :
    Outcome Fails (fun r => Settled J r.2 ∧ s.end_ ≤ r.2.end_) (s.tryReadVarint stack) := by
  unfold MemStream.tryReadVarint
  split
  · exact (hJ.takeDecoded _ hs.inv hs.ordered).bind fun _ h => .ok (h.2.settled hs h.1)
  · next hshort =>
    have hordered : Ordered { s with permissiveAdvance := true } :=
      ⟨hs.ordered.begin_le, hs.ordered.start_le, hs.ordered.ptr_le⟩
    refine (hJ.readVarintSlow (hJ.move hs.inv (.inl (UInt64.le_refl _)) true) hordered
      (Bool.eq_false_iff.mpr hshort)).bind fun ⟨value, s₁⟩ ⟨hinv, hmoves⟩ => ?_
    have hsettle := hJ.settle hs hinv hmoves
    dsimp only at hsettle ⊢
    split
    · next hgt =>
      rw [if_pos hgt] at hsettle
      exact .ok hsettle
    · next hle =>
      rw [if_neg hle] at hsettle
      exact .ok hsettle

/-- **`try_advance_by`**, for a block that fits. -/
theorem WindowInvariant.tryAdvanceBy (hs : Settled J s) (hfits : BlockFits s.ptr amount) :
    Outcome Fails (fun r => Settled J r.2 ∧ s.end_ ≤ r.2.end_) (s.tryAdvanceBy amount) := by
  unfold MemStream.tryAdvanceBy
  have hordered : Ordered { s with permissiveAdvance := true } :=
    ⟨hs.ordered.begin_le, hs.ordered.start_le, hs.ordered.ptr_le⟩
  refine (hJ.advanceBy (hJ.move hs.inv (.inl (UInt64.le_refl _)) true) hordered hfits).bind
    fun ⟨place, s₁⟩ ⟨hinv, hmoves⟩ => ?_
  have hsettle := hJ.settle hs hinv hmoves
  dsimp only at hsettle ⊢
  split
  · next hgt =>
    rw [if_pos hgt] at hsettle
    exact .ok hsettle
  · next hle =>
    rw [if_neg hle] at hsettle
    exact .ok hsettle

end

/-! ### What does not meet the condition -/

section

variable {J : MemStream M → Prop} {BlockFits : UInt64 → UInt64 → Prop} {s s' : MemStream M}
  {amount : UInt64} (hJ : ExactWindowInvariant J BlockFits)

include hJ

/-- `try_advance_by` of a block that does not fit has the window end before it ended. -/
theorem ExactWindowInvariant.tryAdvanceBy_wraps {result : Option UInt64} (hs : Settled J s)
    (hfits : ¬ BlockFits s.ptr amount) (heq : s.tryAdvanceBy amount = .ok (result, s')) :
    s'.end_ < s.end_ := by
  unfold MemStream.tryAdvanceBy MemStream.advanceBy at heq
  obtain ⟨⟨place, s₁⟩, hadvance, heq⟩ := bind_eq_ok.mp heq
  have hinv := hJ.move hs.inv (.inl (UInt64.le_refl _)) true
  have hordered : Ordered { s with permissiveAdvance := true } :=
    ⟨hs.ordered.begin_le, hs.ordered.start_le, hs.ordered.ptr_le⟩
  -- the block was not shown, so that the window was extended; its end wrapped around
  have hback : s₁.end_ < s.end_ := by
    split at hadvance
    · next hshown => exact absurd (hJ.fits_of_shown hs.inv hs.ordered hshown) hfits
    · unfold advanceBySlow at hadvance
      obtain ⟨⟨ok, s₂⟩, hmore, hadvance⟩ := bind_eq_ok.mp hadvance
      have hwraps := hJ.wraps hinv hordered hfits hmore
      dsimp only at hadvance
      split at hadvance
      · obtain ⟨-, rfl⟩ := Prod.mk.inj (Except.ok.inj hadvance)
        exact hwraps
      · split at hadvance
        · obtain ⟨-, rfl⟩ := Prod.mk.inj (Except.ok.inj hadvance)
          exact hwraps
        · simp at hadvance
  dsimp only at heq
  split at heq
  · obtain ⟨-, rfl⟩ := Prod.mk.inj (Except.ok.inj heq)
    exact hback
  · obtain ⟨-, rfl⟩ := Prod.mk.inj (Except.ok.inj heq)
    exact hback

/-! ### `unrealize_up_to` -/

omit hJ in
/-- `unrealize_up_to` that does nothing. -/
theorem unrealizeUpTo_idle {ndebug : Bool} {ptr : UInt64}
    (hidle : (ptr - s.realizedStart).toInt64 < kUnrealizeStep.toInt64)
    (heq : s.unrealizeUpTo ndebug ptr = .ok s') : s' = s := by
  unfold MemStream.unrealizeUpTo at heq
  obtain ⟨-, -, heq⟩ := bind_eq_ok.mp heq
  rw [if_pos hidle] at heq
  exact (Except.ok.inj heq).symm

/-- **`unrealize_up_to` that acts** has the window end before it ended. -/
theorem ExactWindowInvariant.unrealizeUpTo_acts {ndebug : Bool} {ptr : UInt64} (hs : Settled J s)
    (hstart : s.realizedStart ≤ ptr) (hptr : ptr ≤ s.ptr)
    (hacts : ¬ (ptr - s.realizedStart).toInt64 < kUnrealizeStep.toInt64)
    (heq : s.unrealizeUpTo ndebug ptr = .ok s') : s'.end_ < s.end_ := by
  have hfar := (not_idle_iff.mp hacts).1
  rw [UInt64.toNat_sub_of_le _ _ hstart] at hfar
  unfold MemStream.unrealizeUpTo at heq
  obtain ⟨-, -, heq⟩ := bind_eq_ok.mp heq
  rw [if_neg hacts] at heq
  dsimp only at heq
  -- the pointer is moved back, by one page at most
  have hnew := sub_and_4096 ptr
  generalize ptr - (ptr &&& 4096) = ptr' at heq hnew
  have hptr' := UInt64.le_iff_toNat_le.mp hptr
  have hend := UInt64.le_iff_toNat_le.mp hs.ordered.ptr_le
  obtain ⟨⟨got, m'⟩, hrealize, heq⟩ := bind_eq_ok.mp heq
  have hgot := hJ.release hs.inv hs.ordered (UInt64.le_iff_toNat_le.mpr (by omega))
    (UInt64.le_iff_toNat_le.mpr (by omega)) hrealize
  dsimp only at heq
  split at heq
  · simp at heq
  · obtain rfl := Except.ok.inj heq
    -- the new end is measured from where the window started, not from the pointer
    show s.realizedStart + got < s.end_
    have hbound := s.end_.toNat_lt
    rw [UInt64.lt_iff_toNat_lt, UInt64.toNat_add]
    omega

/-! ### Runs -/

/-- **A call** of a caller that keeps to the window keeps the order of the places if and only if the
condition holds. -/
theorem ExactWindowInvariant.call {ndebug : Bool} {c : Call} (hs : Settled J s) (hc : c.InDomain s)
    (heq : c.run ndebug s = .ok s') :
    (c.Keeps s s' ↔ c.Fits BlockFits s) ∧ (c.Fits BlockFits s → Settled J s') := by
  -- where the condition holds for the call
  have hkept : c.Fits BlockFits s → (∀ ptr, c = .unrealizeUpTo ptr → s'.ptr = s.ptr) →
      Settled J s' ∧ s.end_ ≤ s'.end_ →
      (c.Keeps s s' ↔ c.Fits BlockFits s) ∧ (c.Fits BlockFits s → Settled J s') :=
    fun hfits hptr h => ⟨⟨fun _ => hfits, fun _ => ⟨h.1.ordered, h.2, hptr⟩⟩, fun _ => h.1⟩
  -- where it does not
  have hbroken : ¬ c.Fits BlockFits s → s'.end_ < s.end_ →
      (c.Keeps s s' ↔ c.Fits BlockFits s) ∧ (c.Fits BlockFits s → Settled J s') :=
    fun hfits hback => ⟨⟨fun h => absurd h.end_le (UInt64.not_le.mpr hback),
      fun h => absurd h hfits⟩, fun h => absurd h hfits⟩
  -- each kind of call against its condition
  cases c with
  | read op =>
    cases op with
    | hasMore =>
      obtain ⟨⟨more, s₁⟩, hmore, rfl⟩ := map_eq_ok.mp heq
      exact hkept trivial (by simp) ((hJ.hasMore hs).of_ok hmore)
    | tryReadVarint stack =>
      obtain ⟨⟨value, s₁⟩, hread, rfl⟩ := map_eq_ok.mp heq
      exact hkept trivial (by simp) ((hJ.tryReadVarint stack hs).of_ok hread)
    | tryAdvanceBy amount =>
      obtain ⟨⟨place, s₁⟩, hadvance, rfl⟩ := map_eq_ok.mp heq
      by_cases hfits : BlockFits s.ptr amount
      · exact hkept hfits (by simp) ((hJ.tryAdvanceBy hs hfits).of_ok hadvance)
      · exact hbroken hfits (hJ.tryAdvanceBy_wraps hs hfits hadvance)
  | mustReadVarint stack =>
    obtain ⟨⟨value, s₁⟩, hread, rfl⟩ := map_eq_ok.mp heq
    exact hkept trivial (by simp) ((hJ.mustReadVarint stack hs).of_ok hread)
  | unrealizeUpTo ptr =>
    by_cases hidle : (ptr - s.realizedStart).toInt64 < kUnrealizeStep.toInt64
    · obtain rfl := unrealizeUpTo_idle hidle heq
      exact hkept hidle (fun _ _ => rfl) ⟨hs, UInt64.le_refl _⟩
    · exact hbroken hidle (hJ.unrealizeUpTo_acts hs hc.1 hc.2 hidle heq)

/-- Runs whose calls all meet the condition. -/
theorem ExactWindowInvariant.reached {ndebug : Bool} (hs : Settled J s)
    (h : Reached ndebug (fun s c => c.InDomain s ∧ c.Fits BlockFits s) s s') : Settled J s' := by
  induction h with
  | start => exact hs
  | call _ hmeets heq ih => exact (hJ.call ih hmeets.1 heq).2 hmeets.2

end

/-! ### The mappers -/

/-- A window over a `ConstMapper` ends where the bytes do at the latest, a megabyte before the end
of the addresses. -/
structure OverConst (s : MemStream ConstMapper) : Prop where
  limit_lt : s.limit + 2 ^ 20 < 2 ^ 64
  end_le : s.end_.toNat ≤ s.limit

/-- A block ends at an address. -/
def EndsAtAddress (ptr amount : UInt64) : Prop := ptr.toNat + amount.toNat < 2 ^ 64

theorem windowInvariant_overConst : ExactWindowInvariant OverConst EndsAtAddress where
  beyondEnd := trivial
  fault := trivial
  move h _ _ := ⟨h.limit_lt, h.end_le⟩
  end_lt h := by
    have := h.limit_lt
    have := h.end_le
    omega
  varintFits h hs hamount := by
    have := h.limit_lt
    have := h.end_le
    have := UInt64.le_iff_toNat_le.mp hs.ptr_le
    unfold EndsAtAddress
    omega
  extend := by
    intro s amount h hs hshort hfits
    have hlimit := h.limit_lt
    have hend := h.end_le
    have hptr := UInt64.le_iff_toNat_le.mp hs.ptr_le
    have hmax := toNat_max_kRealizeSize amount
    unfold EndsAtAddress at hfits
    unfold limit at hlimit hend
    obtain ⟨ok, heq⟩ := realizeMore_const_eq s amount
    have hask : (s.ptr + max amount kRealizeSize).toNat =
        s.ptr.toNat + max amount.toNat (2 ^ 20) := by
      rw [UInt64.toNat_add, hmax]
      omega
    rw [heq]
    refine .ok ?_
    dsimp only
    -- the rest of the bytes is asked for
    split
    · have hinv : OverConst { s with end_ := s.mapper.begin_ + s.mapper.size_ } :=
        ⟨hlimit, Nat.le_refl _⟩
      exact ⟨UInt64.le_iff_toNat_le.mpr hend, fun _ => hinv, fun _ _ => ⟨hlimit, hinv.end_le⟩⟩
    · -- less than the rest is asked for
      next hle =>
      rw [gt_iff_lt, UInt64.lt_iff_toNat_lt, hask] at hle
      have hinv : OverConst { s with end_ := s.ptr + max amount kRealizeSize } := by
        refine ⟨hlimit, ?_⟩
        show (s.ptr + max amount kRealizeSize).toNat ≤ _
        unfold limit
        rw [hask]
        exact Nat.not_lt.mp hle
      refine ⟨?_, fun _ => hinv, fun _ _ => ⟨hlimit, hinv.end_le⟩⟩
      rw [UInt64.le_iff_toNat_le, hask]
      exact hshort
  wraps := by
    intro s amount ok s' h hs hfits heq
    have hlimit := h.limit_lt
    have hend := h.end_le
    have hptr := UInt64.le_iff_toNat_le.mp hs.ptr_le
    have hmax := toNat_max_kRealizeSize amount
    have hamount := amount.toNat_lt
    unfold EndsAtAddress at hfits
    unfold limit at hlimit hend
    obtain ⟨ok', heq'⟩ := realizeMore_const_eq s amount
    rw [heq'] at heq
    obtain ⟨-, rfl⟩ := Prod.mk.inj (Except.ok.inj heq)
    -- the request ends before the place
    have hask : (s.ptr + max amount kRealizeSize).toNat =
        s.ptr.toNat + amount.toNat - 2 ^ 64 := by
      rw [UInt64.toNat_add, hmax]
      omega
    rw [if_neg (by rw [gt_iff_lt, UInt64.lt_iff_toNat_lt, hask]; omega)]
    show s.ptr + max amount kRealizeSize < s.end_
    rw [UInt64.lt_iff_toNat_lt, hask]
    omega
  fits_of_shown := by
    intro s amount h hs hshown
    have hend := s.end_.toNat_lt
    rw [UInt64.le_iff_toNat_le, UInt64.toNat_sub_of_le _ _ hs.ptr_le] at hshown
    have hptr := UInt64.le_iff_toNat_le.mp hs.ptr_le
    unfold EndsAtAddress
    omega
  release := by
    intro s ptr got m' h hs _ hptr heq
    have hend := h.end_le
    unfold limit at hend
    -- what is there from the pointer on was there before
    obtain ⟨rfl, -⟩ := Prod.mk.inj (Except.ok.inj heq)
    have hsum : ptr + (s.end_ - ptr) = s.end_ := by rw [UInt64.add_comm, UInt64.sub_add_cancel]
    rw [ConstMapper.realize, hsum, if_neg (by rw [gt_iff_lt, UInt64.lt_iff_toNat_lt]; omega),
      UInt64.toNat_sub_of_le _ _ hptr]
    exact Nat.le_add_right ..

/-- A window over a `FDInputMapper` ends where what was read does, before the last page of all. -/
structure OverRead (s : MemStream FDInputMapper) : Prop where
  end_eq : s.end_ = s.mapper.lastEnd
  lastEnd_le : s.mapper.lastEnd.toNat ≤ 2 ^ 64 - 4096

/-- No page ends behind the last one. -/
theorem OverRead.of_realize {m m' : FDInputMapper} {start len got : UInt64}
    (h : m.lastEnd.toNat ≤ 2 ^ 64 - 4096) (heq : m.realize start len = .ok (got, m')) :
    m'.lastEnd.toNat ≤ 2 ^ 64 - 4096 := by
  obtain ⟨-, -, hsame | hle⟩ := FDInputMapper.realize_lastEnd heq
  · rw [hsame]
    exact h
  · rw [UInt64.le_iff_toNat_le, toNat_pageCeil_mod] at hle
    omega

theorem windowInvariant_overRead : ExactWindowInvariant OverRead fun _ _ => True where
  beyondEnd := trivial
  fault := trivial
  move h _ _ := ⟨h.end_eq, h.lastEnd_le⟩
  end_lt h := by
    have := h.lastEnd_le
    rw [h.end_eq]
    omega
  varintFits _ _ _ := trivial
  extend := by
    intro s amount h hs _ _
    cases hmore : s.realizeMore amount with
    | error e => exact .error trivial
    | ok r =>
    unfold MemStream.realizeMore at hmore
    obtain ⟨⟨got, m'⟩, hrealize, hmore⟩ := bind_eq_ok.mp hmore
    obtain rfl := Except.ok.inj hmore
    obtain ⟨hgot, hmore, -⟩ := FDInputMapper.realize_lastEnd hrealize
    -- the window ends where the file has been read to
    have hend : s.realizedStart + got = m'.lastEnd := by
      rw [hgot, UInt64.add_comm, UInt64.sub_add_cancel]
    have hlast := OverRead.of_realize h.lastEnd_le hrealize
    refine .ok ⟨?_, fun _ => ⟨hend, hlast⟩, fun _ _ => ⟨hend, hlast⟩⟩
    show s.end_ ≤ s.realizedStart + got
    rw [hend, h.end_eq]
    exact hmore
  wraps _ _ hfits := absurd trivial hfits
  fits_of_shown _ _ _ := trivial
  release := by
    intro s ptr got m' h hs _ hptr heq
    have hlast := h.lastEnd_le
    obtain ⟨rfl, hmore, hbound⟩ := FDInputMapper.realize_lastEnd heq
    have hsum : ptr + (s.end_ - ptr) = s.end_ := by rw [UInt64.add_comm, UInt64.sub_add_cancel]
    rw [hsum, h.end_eq] at hbound
    rw [h.end_eq] at hptr ⊢
    have hptr' := UInt64.le_iff_toNat_le.mp hptr
    rw [UInt64.toNat_sub_of_le _ _ (UInt64.le_trans hptr hmore)]
    -- at most the last page is read to its end
    obtain hsame | hle := hbound
    · rw [hsame]
      exact Nat.le_add_right ..
    · rw [UInt64.le_iff_toNat_le, toNat_pageCeil_mod] at hle
      omega

/-- A new stream. -/
theorem settled_new {J : MemStream M → Prop} {mapper : M} (h : J (new mapper)) :
    Settled J (new mapper) :=
  ⟨h, ⟨UInt64.le_refl _, UInt64.le_refl _, UInt64.le_refl _⟩, rfl⟩

theorem overConst_new {m : ConstMapper} (hm : m.begin_.toNat + m.size_.toNat + 2 ^ 20 < 2 ^ 64) :
    OverConst (new m) := by
  have hlimit : (new m).limit = m.begin_.toNat + m.size_.toNat := by
    show (m.begin_ + m.size_).toNat = _
    rw [UInt64.toNat_add]
    omega
  refine ⟨by rw [hlimit]; exact hm, ?_⟩
  rw [hlimit]
  exact Nat.le_add_right ..

/-- **The window invariant.** In every run whose calls meet the condition the places of the stream
stay in order, and a further call keeps the order, the end of the window and, if it releases memory,
the place if and only if it meets the condition: it does not release memory from `128 << 20` bytes
on, and over a `ConstMapper` no block ends beyond the last address. -/
theorem calls_keep_order_iff (ndebug : Bool) :
    (∀ (m : ConstMapper) (s : MemStream ConstMapper),
      m.begin_.toNat + m.size_.toNat + 2 ^ 20 < 2 ^ 64 →
      Reached ndebug (fun s c => c.InDomain s ∧ c.Fits EndsAtAddress s) (new m) s →
      s.Ordered ∧ ∀ (c : Call) s', c.InDomain s → c.run ndebug s = .ok s' →
        (c.Keeps s s' ↔ c.Fits EndsAtAddress s)) ∧
    ∀ (fd : InputFd) (area : UInt64) (mmapOk : UInt64 → UInt64 → Bool)
      (s : MemStream FDInputMapper),
      area.toNat ≤ 2 ^ 64 - 4096 →
      Reached ndebug (fun s c => c.InDomain s ∧ c.Fits (fun _ _ => True) s)
        (new (FDInputMapper.new fd area mmapOk)) s →
      s.Ordered ∧ ∀ (c : Call) s', c.InDomain s → c.run ndebug s = .ok s' →
        (c.Keeps s s' ↔ c.Fits (fun _ _ => True) s) := by
  constructor
  · intro m s hm h
    have hs := windowInvariant_overConst.reached (settled_new (overConst_new hm)) h
    exact ⟨hs.ordered, fun c s' hc heq => (windowInvariant_overConst.call hs hc heq).1⟩
  · intro fd area mmapOk s harea h
    have hnew : OverRead (new (FDInputMapper.new fd area mmapOk)) := ⟨rfl, harea⟩
    have hs := windowInvariant_overRead.reached (settled_new hnew) h
    exact ⟨hs.ordered, fun c s' hc heq => (windowInvariant_overRead.call hs hc heq).1⟩

/-- The case of a block of two megabytes that has been taken, and of a new stream over a file. -/
theorem calls_keep_order_iff_block :
    let m : ConstMapper := { begin_ := 0x10000, size_ := 0x400000, mem := fun _ => some 0 }
    let fd : InputFd := { content := [1, 2, 3], schedule := fun _ => .bytes 2 }
    let s₀ : MemStream FDInputMapper := new (FDInputMapper.new fd 0x10000 fun _ _ => true)
    (∃ s, (Call.read (.tryAdvanceBy 0x200000)).run false (new m) = .ok s ∧ s.Ordered ∧
      ∀ (c : Call) s', c.InDomain s → c.run false s = .ok s' →
        (c.Keeps s s' ↔ c.Fits EndsAtAddress s)) ∧
    s₀.Ordered ∧ ∀ (c : Call) s', c.InDomain s₀ → c.run false s₀ = .ok s' →
      (c.Keeps s₀ s' ↔ c.Fits (fun _ _ => True) s₀) := by
  intro m fd s₀
  have hm : m.begin_.toNat + m.size_.toNat + 2 ^ 20 < 2 ^ 64 := by decide
  have harea : (0x10000 : UInt64).toNat ≤ 2 ^ 64 - 4096 := by decide
  refine ⟨?_, (calls_keep_order_iff false).2 fd 0x10000 _ s₀ harea .start⟩
  obtain ⟨s, hadvance, -⟩ := map_eq_ok.mp (show
    ((Call.read (.tryAdvanceBy 0x200000)).run false (new m)).map MemStream.ptr = .ok 0x210000 by
      decide +kernel)
  refine ⟨s, hadvance, (calls_keep_order_iff false).1 m s hm (.call .start ⟨?_, ?_⟩ hadvance)⟩
  · show ((0x10000 : UInt64) - 0x10000).toNat + (0x200000 : UInt64).toNat < 2 ^ 64
    decide
  · show (0x10000 : UInt64).toNat + (0x200000 : UInt64).toNat < 2 ^ 64
    decide

/-- Memory is released up to the place of a stream that has taken a block of `128 << 20` bytes: the
window ends where it begins. -/
theorem not_window_of_released :
    ¬ ∀ (m : ConstMapper) (s s' : MemStream ConstMapper) (c : Call),
      m.begin_.toNat + m.size_.toNat + 2 ^ 20 < 2 ^ 64 →
      Reached false (fun s c => c.InDomain s) (new m) s → c.InDomain s →
      c.run false s = .ok s' → c.Keeps s s' := by
  intro h
  let m : ConstMapper := { begin_ := 0x10000, size_ := 0x10000000, mem := fun _ => some 0 }
  have hrun : ((Call.read (.tryAdvanceBy 0x8000000)).run false (new m) >>= fun s =>
      ((Call.unrealizeUpTo 0x8010000).run false s).map fun s' =>
        (s.realizedStart, s.ptr, s'.ptr, s'.end_)) =
      .ok (0x10000, 0x8010000, 0x8010000, 0x10000) := by decide +kernel
  obtain ⟨s, hadvance, hrun⟩ := bind_eq_ok.mp hrun
  obtain ⟨s', hrelease, hplaces⟩ := map_eq_ok.mp hrun
  simp only [Prod.mk.injEq] at hplaces
  obtain ⟨hstart, hptr, hptr', hend'⟩ := hplaces
  have hadvances : (Call.read (.tryAdvanceBy 0x8000000)).InDomain (new m) := by
    show ((0x10000 : UInt64) - 0x10000).toNat + (0x8000000 : UInt64).toNat < 2 ^ 64
    decide
  have hreleases : (Call.unrealizeUpTo 0x8010000).InDomain s := by
    show s.realizedStart ≤ 0x8010000 ∧ 0x8010000 ≤ s.ptr
    rw [hstart, hptr]
    decide
  have hkeeps := h m s s' _ (by decide) (.call .start hadvances hadvance) hreleases hrelease
  have hle := hkeeps.ordered.ptr_le
  rw [hptr', hend'] at hle
  exact absurd hle (by decide)

end MemStream

end MallocTraceReplay
