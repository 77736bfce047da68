import MallocTraceReplay.Stream.OuterEvStream
import MallocTraceReplay.Lib.StepMachine

/-!
# Invariants of streams

The reading functions change a stream in two ways: they move its place and they have its window
extended.  A property of streams that both keep (`StreamInvariant`) is kept by all of them, whatever
the mapper and the bytes.
-/

namespace MallocTraceReplay

open AltVarintCodec MallocTraceEncoder StepMachine

namespace MemStream

variable {M : Type} [Mapper M]

/-- A property that does not depend on the place of the stream and that an extension of the
window keeps. -/
structure StreamInvariant (J : MemStream M → Prop) : Prop where
  realizeMore : ∀ {s minAmount ok s'}, J s → s.realizeMore minAmount = .ok (ok, s') → J s'
  move : ∀ {s}, J s → ∀ ptr permissive,
    J { s with ptr := ptr, permissiveAdvance := permissive }

namespace StreamInvariant

variable {J : MemStream M → Prop} (hJ : StreamInvariant J) {s s' : MemStream M}
  {stack : StackBytes}

include hJ

theorem hasMore {more : Bool} (h : J s) (heq : s.hasMore = .ok (more, s')) : J s' := by
  unfold MemStream.hasMore at heq
  split at heq
  · rw [← (Prod.mk.inj (Except.ok.inj heq)).2]
    exact h
  · obtain ⟨⟨ok, s₁⟩, hmore, heq⟩ := bind_eq_ok.mp heq
    rw [← (Prod.mk.inj (Except.ok.inj heq)).2]
    exact hJ.realizeMore h hmore

theorem advanceBy {amount place : UInt64} (h : J s)
    (heq : s.advanceBy amount = .ok (place, s')) : J s' := by
  unfold MemStream.advanceBy at heq
  split at heq
  · rw [← (Prod.mk.inj (Except.ok.inj heq)).2]
    exact hJ.move h _ _
  · unfold advanceBySlow at heq
    obtain ⟨⟨ok, s₁⟩, hmore, heq⟩ := bind_eq_ok.mp heq
    have h₁ := hJ.realizeMore h hmore
    dsimp only at heq
    split at heq
    · rw [← (Prod.mk.inj (Except.ok.inj heq)).2]
      exact hJ.move h₁ _ _
    · split at heq
      · rw [← (Prod.mk.inj (Except.ok.inj heq)).2]
        exact hJ.move h₁ _ _
      · simp at heq

theorem tryAdvanceBy {amount : UInt64} {place : Option UInt64} (h : J s)
    (heq : s.tryAdvanceBy amount = .ok (place, s')) : J s' := by
  unfold MemStream.tryAdvanceBy at heq
  obtain ⟨⟨place', s₁⟩, hadv, heq⟩ := bind_eq_ok.mp heq
  have h₁ := hJ.advanceBy (hJ.move h _ _) hadv
  dsimp only at heq
  split at heq
  · rw [← (Prod.mk.inj (Except.ok.inj heq)).2]
    exact hJ.move h₁ _ _
  · rw [← (Prod.mk.inj (Except.ok.inj heq)).2]
    exact hJ.move h₁ _ _

theorem takeDecoded {byteAt : ℕ → Option UInt8} {v : UInt64} (h : J s)
    (heq : s.takeDecoded byteAt = .ok (v, s')) : J s' := by
  unfold MemStream.takeDecoded at heq
  split at heq
  · simp at heq
  · obtain ⟨⟨place, s₁⟩, hadv, heq⟩ := bind_eq_ok.mp heq
    rw [← (Prod.mk.inj (Except.ok.inj heq)).2]
    exact hJ.advanceBy h hadv

theorem readVarintSlow {v : UInt64} (h : J s)
    (heq : s.readVarintSlow stack = .ok (v, s')) : J s' := by
  unfold MemStream.readVarintSlow at heq
  obtain ⟨⟨ok, s₁⟩, hmore, heq⟩ := bind_eq_ok.mp heq
  have h₁ := hJ.realizeMore h hmore
  dsimp only at heq
  split at heq
  · exact hJ.takeDecoded h₁ heq
  · obtain ⟨tmp, -, heq⟩ := bind_eq_ok.mp heq
    exact hJ.takeDecoded h₁ heq

theorem mustReadVarint {v : UInt64} (h : J s)
    (heq : s.mustReadVarint stack = .ok (v, s')) : J s' := by
  unfold MemStream.mustReadVarint at heq
  split at heq
  · exact hJ.takeDecoded h heq
  · exact hJ.readVarintSlow h heq

theorem tryReadVarint {v : Option UInt64} (h : J s)
    (heq : s.tryReadVarint stack = .ok (v, s')) : J s' := by
  unfold MemStream.tryReadVarint at heq
  split at heq
  · obtain ⟨⟨w, s₁⟩, hread, heq⟩ := bind_eq_ok.mp heq
    rw [← (Prod.mk.inj (Except.ok.inj heq)).2]
    exact hJ.takeDecoded h hread
  · obtain ⟨⟨w, s₁⟩, hread, heq⟩ := bind_eq_ok.mp heq
    have h₁ := hJ.readVarintSlow (hJ.move h _ _) hread
    dsimp only at heq
    split at heq
    · rw [← (Prod.mk.inj (Except.ok.inj heq)).2]
      exact hJ.move h₁ _ _
    · rw [← (Prod.mk.inj (Except.ok.inj heq)).2]
      exact hJ.move h₁ _ _

theorem nextBuf {ev ev' : OuterEvent} {w : UInt64} {ok : Bool} (h : J s)
    (heq : s.nextBuf stack ev w = .ok (ok, ev', s')) : J s' := by
  unfold MemStream.nextBuf at heq
  obtain ⟨⟨w₁?, s₁⟩, hread₁, heq⟩ := bind_eq_ok.mp heq
  have h₁ := hJ.tryReadVarint h hread₁
  cases w₁? with
  | none =>
    simp only [pure_eq_ok, Except.ok.injEq, Prod.mk.injEq] at heq
    exact heq.2.2 ▸ h₁
  | some w₁ =>
    obtain ⟨⟨w₂?, s₂⟩, hread₂, heq⟩ := bind_eq_ok.mp heq
    have h₂ := hJ.tryReadVarint h₁ hread₂
    cases w₂? with
    | none =>
      simp only [pure_eq_ok, Except.ok.injEq, Prod.mk.injEq] at heq
      exact heq.2.2 ▸ h₂
    | some w₂ =>
      obtain ⟨⟨place?, s₃⟩, hadv, heq⟩ := bind_eq_ok.mp heq
      have h₃ := hJ.tryAdvanceBy h₂ hadv
      cases place? with
      | none | some =>
        simp only [pure_eq_ok, Except.ok.injEq, Prod.mk.injEq] at heq
        exact heq.2.2 ▸ h₃

/-- **`OuterEvStream::next`** keeps the invariants of its stream. -/
theorem next {ev ev' : OuterEvent} {ok : Bool} (h : J s)
    (heq : s.next stack ev = .ok (ok, ev', s')) : J s' := by
  -- `next` is made of reads, and each of them keeps the invariant
  unfold MemStream.next at heq
  obtain ⟨⟨more, s₁⟩, hmore, heq⟩ := bind_eq_ok.mp heq
  have h₁ := hJ.hasMore h hmore
  cases more with
  | false =>
    simp only [Bool.not_false, if_true, pure_eq_ok, Except.ok.injEq, Prod.mk.injEq] at heq
    exact heq.2.2 ▸ h₁
  | true =>
    simp only [Bool.not_true, Bool.false_eq_true, if_false] at heq
    obtain ⟨⟨w?, s₂⟩, hread, heq⟩ := bind_eq_ok.mp heq
    have h₂ := hJ.tryReadVarint h₁ hread
    cases w? with
    | none =>
      simp only [pure_eq_ok, Except.ok.injEq, Prod.mk.injEq] at heq
      exact heq.2.2 ▸ h₂
    | some w =>
      cases htype : EventType.ofCode? (decodeType w) with
      | none => simp [htype] at heq
      | some type =>
        simp only [htype] at heq
        cases type with
        | malloc | free | tok | freeSized | realloc | memalign => simp at heq
        | end_ =>
          simp only [pure_eq_ok, Except.ok.injEq, Prod.mk.injEq] at heq
          exact heq.2.2 ▸ h₂
        | buf => exact hJ.nextBuf h₂ heq
        | death =>
          obtain ⟨⟨w₂, s₃⟩, hread₂, heq⟩ := bind_eq_ok.mp heq
          simp only [pure_eq_ok, Except.ok.injEq, Prod.mk.injEq] at heq
          exact heq.2.2 ▸ hJ.mustReadVarint h₂ hread₂
        | syncBarrier =>
          obtain ⟨⟨w₂?, s₃⟩, hread₂, heq⟩ := bind_eq_ok.mp heq
          have h₃ := hJ.tryReadVarint h₂ hread₂
          cases w₂? with
          | none | some =>
            simp only [pure_eq_ok, Except.ok.injEq, Prod.mk.injEq] at heq
            exact heq.2.2 ▸ h₃

end StreamInvariant

end MemStream

end MallocTraceReplay
