import MallocTraceReplay.Lib.Simulation
import MallocTraceReplay.Stream.OuterEvStream

/-!
# Streams over two mappers

When a mapper does what another one does unless it stops (`MapperErasure`), then every function of a
stream over the first does what it does over the second, unless it stops.
-/

namespace MallocTraceReplay

open StepMachine MallocTraceEncoder AltVarintCodec

/-- The mapper `e m` does what the mapper `m` does, unless `m` stops. -/
structure MapperErasure {M N : Type} [Mapper M] [Mapper N] (e : M → N) (Stops : Abort → Prop) :
    Prop where
  getBegin : ∀ m, Mapper.getBegin (e m) = Mapper.getBegin m
  load : ∀ m a, Mapper.load (e m) a = Mapper.load m a
  realize : ∀ m start len, AgreesUnless Stops (fun r : UInt64 × M => (r.1, e r.2))
    (Mapper.realize m start len) (Mapper.realize (e m) start len)

namespace MemStream

variable {M N : Type} {e : M → N} {Stops : Abort → Prop}

/-- The same stream over another mapper. -/
def withMapper (e : M → N) (s : MemStream M) : MemStream N where
  ptr := s.ptr
  end_ := s.end_
  realizedStart := s.realizedStart
  begin_ := s.begin_
  mapper := e s.mapper
  permissiveAdvance := s.permissiveAdvance

/-- A result and the stream it leaves, over another mapper. -/
def resultOver {α : Type} (e : M → N) (r : α × MemStream M) : α × MemStream N :=
  (r.1, r.2.withMapper e)

variable [Mapper M] [Mapper N]

section

variable {s : MemStream M} {amount : UInt64} {stack : StackBytes} (he : MapperErasure e Stops)

include he

theorem new_over (m : M) : new (e m) = (new m).withMapper e := by
  unfold new withMapper
  rw [he.getBegin]

theorem realizeMore_over : AgreesUnless Stops (resultOver e) (s.realizeMore amount)
    ((s.withMapper e).realizeMore amount) := by
  unfold realizeMore
  exact (he.realize s.mapper _ _).bind fun r => .ok _

theorem hasMore_over : AgreesUnless Stops (resultOver e) s.hasMore (s.withMapper e).hasMore := by
  unfold hasMore
  by_cases hmore : s.ptr < s.end_
  · have hmore' : (s.withMapper e).ptr < (s.withMapper e).end_ := hmore
    rw [if_pos hmore, if_pos hmore']
    exact .ok (true, s)
  · have hmore' : ¬ (s.withMapper e).ptr < (s.withMapper e).end_ := hmore
    rw [if_neg hmore, if_neg hmore']
    exact (realizeMore_over he).bind fun r => .ok (decide (r.2.ptr < r.2.end_), r.2)

theorem advanceBy_over : AgreesUnless Stops (resultOver e) (s.advanceBy amount)
    ((s.withMapper e).advanceBy amount) := by
  unfold advanceBy
  by_cases hshown : s.end_ - s.ptr ≥ amount
  · have hshown' : (s.withMapper e).end_ - (s.withMapper e).ptr ≥ amount := hshown
    rw [if_pos hshown, if_pos hshown']
    exact .ok (s.ptr, { s with ptr := s.ptr + amount })
  · have hshown' : ¬ (s.withMapper e).end_ - (s.withMapper e).ptr ≥ amount := hshown
    rw [if_neg hshown, if_neg hshown']
    unfold advanceBySlow
    refine (realizeMore_over he).bind fun ⟨ok, s₁⟩ => ?_
    cases ok with
    | true => exact .ok (s.ptr, { s₁ with ptr := s₁.ptr + amount })
    | false =>
      dsimp only [resultOver]
      rw [if_neg Bool.false_ne_true, if_neg Bool.false_ne_true]
      by_cases hpermissive : s₁.permissiveAdvance = true
      · have hpermissive' : (s₁.withMapper e).permissiveAdvance = true := hpermissive
        rw [if_pos hpermissive, if_pos hpermissive']
        exact .ok (s.ptr, { s₁ with ptr := s₁.end_ + 1 })
      · have hpermissive' : ¬ (s₁.withMapper e).permissiveAdvance = true := hpermissive
        rw [if_neg hpermissive, if_neg hpermissive']
        exact .error _

omit he [Mapper M] [Mapper N] in
/-- What comes after a function that may leave the place behind the end. -/
theorem settle_over {α : Type} {x : Except Abort (α × MemStream M)}
    {y : Except Abort (α × MemStream N)} (h : AgreesUnless Stops (resultOver e) x y) :
    AgreesUnless Stops (resultOver e)
      (x >>= fun r =>
        let s := { r.2 with permissiveAdvance := false }
        if s.ptr > s.end_ then return (none, { s with ptr := s.end_ }) else return (some r.1, s))
      (y >>= fun r =>
        let s := { r.2 with permissiveAdvance := false }
        if s.ptr > s.end_ then return (none, { s with ptr := s.end_ })
        else return (some r.1, s)) := by
  refine h.bind fun r => ?_
  by_cases hgt : r.2.ptr > r.2.end_
  · have hgt' : (resultOver e r).2.ptr > (resultOver e r).2.end_ := hgt
    dsimp only
    rw [if_pos hgt, if_pos hgt']
    exact .ok (none, { r.2 with ptr := r.2.end_, permissiveAdvance := false })
  · have hgt' : ¬ (resultOver e r).2.ptr > (resultOver e r).2.end_ := hgt
    dsimp only
    rw [if_neg hgt, if_neg hgt']
    exact .ok (some r.1, { r.2 with permissiveAdvance := false })

theorem tryAdvanceBy_over : AgreesUnless Stops (resultOver e) (s.tryAdvanceBy amount)
    ((s.withMapper e).tryAdvanceBy amount) :=
  settle_over (advanceBy_over he)

theorem takeDecoded_over (byteAt : ℕ → Option UInt8) :
    AgreesUnless Stops (resultOver e) (s.takeDecoded byteAt)
      ((s.withMapper e).takeDecoded byteAt) := by
  unfold takeDecoded
  cases decodeUnsigned byteAt with
  | none => exact .error _
  | some res => exact (advanceBy_over he).bind fun r => .ok (res.value, r.2)

theorem fillTmp_over : (s.withMapper e).fillTmp stack = s.fillTmp stack := by
  unfold fillTmp
  dsimp only [withMapper]
  simp only [he.load]

theorem readVarintFast_over :
    AgreesUnless Stops (resultOver e) s.readVarintFast (s.withMapper e).readVarintFast := by
  unfold readVarintFast
  have hload : (fun i =>
        Mapper.load (s.withMapper e).mapper ((s.withMapper e).ptr + UInt64.ofNat i)) =
      fun i => Mapper.load s.mapper (s.ptr + UInt64.ofNat i) :=
    funext fun i => he.load s.mapper _
  rw [hload]
  exact takeDecoded_over he _

theorem readVarintSlow_over : AgreesUnless Stops (resultOver e) (s.readVarintSlow stack)
    ((s.withMapper e).readVarintSlow stack) := by
  unfold readVarintSlow
  refine (realizeMore_over he).bind fun ⟨ok, s₁⟩ => ?_
  dsimp only [resultOver]
  cases hvarint : s₁.hasAtLeastVarint with
  | true =>
    have hvarint' : (s₁.withMapper e).hasAtLeastVarint = true := hvarint
    rw [hvarint', if_pos rfl, if_pos rfl]
    exact readVarintFast_over he
  | false =>
    have hvarint' : (s₁.withMapper e).hasAtLeastVarint = false := hvarint
    rw [hvarint', if_neg Bool.false_ne_true, if_neg Bool.false_ne_true, fillTmp_over he]
    cases s₁.fillTmp stack with
    | error e' => exact .error e'
    | ok tmp => exact takeDecoded_over he tmp

theorem mustReadVarint_over : AgreesUnless Stops (resultOver e) (s.mustReadVarint stack)
    ((s.withMapper e).mustReadVarint stack) := by
  unfold mustReadVarint
  cases hvarint : s.hasAtLeastVarint with
  | true =>
    have hvarint' : (s.withMapper e).hasAtLeastVarint = true := hvarint
    rw [hvarint', if_pos rfl, if_pos rfl]
    exact readVarintFast_over he
  | false =>
    have hvarint' : (s.withMapper e).hasAtLeastVarint = false := hvarint
    rw [hvarint', if_neg Bool.false_ne_true, if_neg Bool.false_ne_true]
    exact readVarintSlow_over he

theorem tryReadVarint_over : AgreesUnless Stops (resultOver e) (s.tryReadVarint stack)
    ((s.withMapper e).tryReadVarint stack) := by
  unfold tryReadVarint
  cases hvarint : s.hasAtLeastVarint with
  | true =>
    have hvarint' : (s.withMapper e).hasAtLeastVarint = true := hvarint
    rw [hvarint', if_pos rfl, if_pos rfl]
    exact (readVarintFast_over he).bind fun r => .ok (some r.1, r.2)
  | false =>
    have hvarint' : (s.withMapper e).hasAtLeastVarint = false := hvarint
    rw [hvarint', if_neg Bool.false_ne_true, if_neg Bool.false_ne_true]
    exact settle_over (readVarintSlow_over he)

theorem unrealizeUpTo_over (ndebug : Bool) (ptr : UInt64) :
    AgreesUnless Stops (withMapper e) (s.unrealizeUpTo ndebug ptr)
      ((s.withMapper e).unrealizeUpTo ndebug ptr) := by
  unfold unrealizeUpTo
  have hcheck : decide (ptr ≥ (s.withMapper e).realizedStart) = decide (ptr ≥ s.realizedStart) :=
    rfl
  rw [hcheck]
  cases check ndebug (decide (ptr ≥ s.realizedStart)) .unrealizeStart with
  | error e' => exact .error e'
  | ok _ =>
    rw [ok_bind, ok_bind]
    by_cases hidle : (ptr - s.realizedStart).toInt64 < kUnrealizeStep.toInt64
    · have hidle' : (ptr - (s.withMapper e).realizedStart).toInt64 < kUnrealizeStep.toInt64 := hidle
      rw [if_pos hidle, if_pos hidle']
      exact .ok s
    · have hidle' : ¬ (ptr - (s.withMapper e).realizedStart).toInt64 < kUnrealizeStep.toInt64 :=
        hidle
      rw [if_neg hidle, if_neg hidle']
      refine (he.realize s.mapper _ _).bind fun ⟨got, m⟩ => ?_
      dsimp only [withMapper]
      split
      · exact .error _
      · exact .ok { s with mapper := m, end_ := s.realizedStart + got }

/-! ### `OuterEvStream::next` -/

omit [Mapper M] [Mapper N] he in
/-- The result of `next`, over another mapper. -/
def nextOver (e : M → N) (r : Bool × OuterEvent × MemStream M) : Bool × OuterEvent × MemStream N :=
  (r.1, r.2.1, r.2.2.withMapper e)

theorem nextBuf_over (ev : OuterEvent) (firstWord : UInt64) :
    AgreesUnless Stops (nextOver e) (s.nextBuf stack ev firstWord)
      ((s.withMapper e).nextBuf stack ev firstWord) := by
  unfold nextBuf
  refine (tryReadVarint_over he).bind fun ⟨secondWord?, s₁⟩ => ?_
  cases secondWord? with
  | none => exact .ok (false, ev, s₁)
  | some secondWord =>
    refine (tryReadVarint_over he).bind fun ⟨thirdWord?, s₂⟩ => ?_
    cases thirdWord? with
    | none => exact .ok (false, ev, s₂)
    | some thirdWord =>
      refine (tryAdvanceBy_over he).bind fun ⟨bufStart?, s₃⟩ => ?_
      cases bufStart? with
      | none => exact .ok (false, _, s₃)
      | some bufStart => exact .ok (true, _, s₃)

theorem next_over (ev : OuterEvent) :
    AgreesUnless Stops (nextOver e) (s.next stack ev) ((s.withMapper e).next stack ev) := by
  unfold next
  refine (hasMore_over he).bind fun ⟨more, s₁⟩ => ?_
  cases more with
  | false => exact .ok (false, ev, s₁)
  | true =>
    refine (tryReadVarint_over he).bind fun ⟨firstWord?, s₂⟩ => ?_
    cases firstWord? with
    | none => exact .ok (false, OuterEvent.zero, s₂)
    | some firstWord =>
      dsimp only [resultOver]
      cases EventType.ofCode? (decodeType firstWord) with
      | none => exact .error _
      | some type =>
        cases type with
        | malloc | free | tok | freeSized | realloc | memalign => exact .error _
        | end_ => exact .ok (true, _, s₂)
        | buf => exact nextBuf_over he _ firstWord
        | death => exact (mustReadVarint_over he).bind fun r => .ok (true, _, r.2)
        | syncBarrier =>
          refine (tryReadVarint_over he).bind fun ⟨secondWord?, s₃⟩ => ?_
          cases secondWord? with
          | none => exact .ok (false, _, s₃)
          | some secondWord => exact .ok (true, _, s₃)

end

end MemStream

end MallocTraceReplay
