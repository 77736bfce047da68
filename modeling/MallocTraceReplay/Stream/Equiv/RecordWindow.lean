import MallocTraceReplay.Stream.CheckedMapper
import MallocTraceReplay.Stream.Equiv.Window

/-!
# Records in the window of a stream

`OuterEvStream::next` keeps the window of a stream as the reading functions do, and a buffer that it
returns lies in the window: from a place of the stream on to the one where the stream goes on
(`WindowInvariant.next`).
-/

namespace MallocTraceReplay

open MallocTraceEncoder StepMachine

namespace MemStream

variable {M : Type} [Mapper M] {J : MemStream M → Prop} {BlockFits : UInt64 → UInt64 → Prop}
  {Fails : Abort → Prop} {s s' : MemStream M} {stack : StackBytes}

/-- What `next` comes to: the stream is settled, and a buffer lies between two places of it. -/
structure Recorded (J : MemStream M → Prop) (r : Bool × OuterEvent × MemStream M) : Prop where
  settled : Settled J r.2.2
  buf : r.1 = true → r.2.1.type = .buf →
    (∃ s, Settled J s ∧ r.2.1.bufStart = s.ptr) ∧ r.2.1.bufEnd = r.2.2.ptr

omit [Mapper M] in
/-- There was no record. -/
theorem Settled.noRecord (hs : Settled J s) (ev : OuterEvent) : Recorded J (false, ev, s) :=
  ⟨hs, fun h => absurd h (by simp)⟩

omit [Mapper M] in
/-- A record that is no buffer. -/
theorem Settled.recorded (hs : Settled J s) {ev : OuterEvent} (hev : ev.type ≠ .buf) :
    Recorded J (true, ev, s) :=
  ⟨hs, fun _ h => absurd h hev⟩

variable (hJ : WindowInvariant J BlockFits Fails)

include hJ

/-- A block that is skipped ends where the stream goes on. -/
theorem WindowInvariant.place (hs' : Settled J s') {amount place : UInt64}
    (h : s.tryAdvanceBy amount = .ok (some place, s')) :
    place = s.ptr ∧ place + amount = s'.ptr := by
  obtain ⟨rfl, hle, hptr | hbehind⟩ := tryAdvanceBy_place h
  · exact ⟨rfl, hptr.symm⟩
  · have hend := hJ.end_lt hs'.inv
    rw [hbehind, UInt64.le_iff_toNat_le, UInt64.toNat_add] at hle
    simp only [UInt64.reduceToNat] at hle
    omega

/-- The record of a buffer. -/
theorem WindowInvariant.nextBuf (hs : Settled J s)
    (hfits : ∀ w s₁ w' s₂, s.tryReadVarint stack = .ok (some w, s₁) →
      s₁.tryReadVarint stack = .ok (some w', s₂) → ∀ ptr, BlockFits ptr w')
    (ev : OuterEvent) (firstWord : UInt64) :
    Outcome Fails (Recorded J) (s.nextBuf stack ev firstWord) := by
  unfold MemStream.nextBuf
  refine (hJ.tryReadVarint stack hs).bind_of_ok fun ⟨w?, s₁⟩ hread₁ ⟨hs₁, _⟩ => ?_
  cases w? with
  | none => exact .ok (hs₁.noRecord ev)
  | some w =>
    refine (hJ.tryReadVarint stack hs₁).bind_of_ok fun ⟨w'?, s₂⟩ hread₂ ⟨hs₂, _⟩ => ?_
    cases w'? with
    | none => exact .ok (hs₂.noRecord ev)
    | some w' =>
      have hblock := hfits w s₁ w' s₂ hread₁ hread₂ s₂.ptr
      refine (hJ.tryAdvanceBy hs₂ hblock).bind_of_ok fun ⟨place?, s₃⟩ hadvance ⟨hs₃, _⟩ => ?_
      cases place? with
      | none => exact .ok (hs₃.noRecord _)
      | some place =>
        obtain ⟨hplace, hend⟩ := hJ.place hs₃ hadvance
        exact .ok ⟨hs₃, fun _ _ => ⟨⟨s₂, hs₂, hplace⟩, hend⟩⟩

/-- **`next`**, when `has_more` leaves the window right and the block that a record declares
fits. -/
theorem WindowInvariant.next (habort : Fails .abort)
    (hmore : Outcome Fails (fun r => Settled J r.2) s.hasMore)
    (hfits : ∀ size, s.declaredSize stack = .ok (some size) → ∀ ptr, BlockFits ptr size)
    (ev : OuterEvent) : Outcome Fails (Recorded J) (s.next stack ev) := by
  unfold MemStream.next
  refine hmore.bind_of_ok fun ⟨more, s₁⟩ heq hs₁ => ?_
  cases more with
  | false => exact .ok (hs₁.noRecord ev)
  | true =>
    refine (hJ.tryReadVarint stack hs₁).bind_of_ok fun ⟨w?, s₂⟩ hread ⟨hs₂, _⟩ => ?_
    cases w? with
    | none => exact .ok (hs₂.noRecord _)
    | some w =>
      dsimp only
      split
      · refine (hJ.mustReadVarint stack hs₂).bind fun ⟨w', s₃⟩ ⟨hs₃, _⟩ => ?_
        exact .ok (hs₃.recorded (by simp))
      · next hbuf =>
        refine hJ.nextBuf hs₂ (fun w₁ s₃ w₂ s₄ hread₁ hread₂ => hfits w₂ ?_) _ w
        -- the size is the third word
        unfold declaredSize
        rw [heq, ok_bind]
        dsimp only
        rw [Bool.not_true, if_neg Bool.false_ne_true, hread, ok_bind]
        dsimp only
        rw [hbuf]
        dsimp only
        rw [hread₁, ok_bind]
        dsimp only
        rw [hread₂]
        rfl
      · exact .ok (hs₂.recorded (by simp))
      · refine (hJ.tryReadVarint stack hs₂).bind fun ⟨w'?, s₃⟩ ⟨hs₃, _⟩ => ?_
        cases w'? with
        | none => exact .ok (hs₃.noRecord _)
        | some w' => exact .ok (hs₃.recorded (by simp))
      · exact .error habort

end MemStream

end MallocTraceReplay
