import MallocTraceReplay.Stream.OuterRecord
import MallocTraceReplay.Stream.Equiv.ConstMemStream

/-!
# Correctness of `OuterEvStream::next`

`next` takes a record off the bytes that the stream stands before (`next_eq`), as long as every
item it reads is in the window when it is decoded (`NextShown`).
-/

namespace MallocTraceReplay

open AltVarintCodec MallocTraceEncoder StepMachine

/-! ### Buffers -/

/-- A buffer below `2^63` whose bytes, if it ends after it starts, can be read. -/
structure GoodBuf (mem : UInt64 → Option UInt8) (ev : OuterEvent) : Prop where
  start_le : ev.bufStart.toNat ≤ 2 ^ 63
  end_le : ev.bufEnd.toNat ≤ 2 ^ 63
  loads : ∀ i < ev.bufEnd.toNat - ev.bufStart.toNat,
    (mem (ev.bufStart + UInt64.ofNat i)).isSome

namespace MemStream

/-! ### One record -/

variable {M : Type} [Mapper M]

/-- The types of records, and the ids of their threads: the upper bits of a word, or none. -/
theorem next_record {s s' : MemStream M} {stack : StackBytes} {ev ev' : OuterEvent}
    (h : s.next stack ev = .ok (true, ev', s')) :
    ∃ w : UInt64, (ev'.type = .buf ∧ ev'.threadId = w >>> kTypeShift) ∨
      (ev'.type = .death ∧ ev'.threadId = w >>> kExtTypeShift) ∨
        ((ev'.type = .end_ ∨ ev'.type = .syncBarrier) ∧ ev'.threadId = 0) := by
  unfold next at h
  obtain ⟨⟨more, s₁⟩, -, h⟩ := bind_eq_ok.mp h
  cases more with
  | false => simp at h
  | true =>
    simp only [Bool.not_true, Bool.false_eq_true, if_false] at h
    obtain ⟨⟨w?, s₂⟩, -, h⟩ := bind_eq_ok.mp h
    cases w? with
    | none => simp at h
    | some w =>
      refine ⟨w, ?_⟩
      cases htype : EventType.ofCode? (decodeType w) with
      | none => simp [htype] at h
      | some type =>
        cases type with
        | malloc | free | tok | freeSized | realloc | memalign => simp [htype] at h
        | end_ =>
          -- a record of the trace, and none of a thread
          simp only [htype, pure_eq_ok, Except.ok.injEq, Prod.mk.injEq, true_and] at h
          rw [← h.1]
          exact Or.inr (Or.inr ⟨Or.inl rfl, rfl⟩)
        | death =>
          simp only [htype] at h
          obtain ⟨⟨w₂, s₃⟩, -, h⟩ := bind_eq_ok.mp h
          simp only [pure_eq_ok, Except.ok.injEq, Prod.mk.injEq, true_and] at h
          rw [← h.1]
          exact Or.inr (Or.inl ⟨rfl, rfl⟩)
        | syncBarrier =>
          simp only [htype] at h
          obtain ⟨⟨w₂?, s₃⟩, -, h⟩ := bind_eq_ok.mp h
          cases w₂? with
          | none => simp at h
          | some w₂ =>
            simp only [pure_eq_ok, Except.ok.injEq, Prod.mk.injEq, true_and] at h
            rw [← h.1]
            exact Or.inr (Or.inr ⟨Or.inr rfl, rfl⟩)
        | buf =>
          simp only [htype] at h
          unfold nextBuf at h
          obtain ⟨⟨w₂?, s₃⟩, -, h⟩ := bind_eq_ok.mp h
          cases w₂? with
          | none => simp at h
          | some w₂ =>
            obtain ⟨⟨w₃?, s₄⟩, -, h⟩ := bind_eq_ok.mp h
            cases w₃? with
            | none => simp at h
            | some w₃ =>
              obtain ⟨⟨place?, s₅⟩, -, h⟩ := bind_eq_ok.mp h
              cases place? with
              | none => simp at h
              | some place =>
                -- all parts of the record were there
                simp only [pure_eq_ok, Except.ok.injEq, Prod.mk.injEq, true_and] at h
                rw [← h.1]
                exact Or.inl ⟨rfl, rfl⟩

/-- The varint of a permissive read is shown. -/
def TryShown (s : MemStream M) (rest : List UInt8) : Prop :=
  VarintShown { s with permissiveAdvance := true } rest

/-- The varints of a buffer record and its bytes are shown. -/
def NextBufShown (stack : StackBytes) (s : MemStream M) (bytes : List UInt8) : Prop :=
  TryShown s bytes ∧ ∀ w rest s₁, readVarint bytes = some (w, rest) →
    s.tryReadVarint stack = .ok (some w, s₁) → TryShown s₁ rest ∧
    ∀ size rest' s₂, readVarint rest = some (size, rest') →
      s₁.tryReadVarint stack = .ok (some size, s₂) →
      s₂.ptr.toNat + size.toNat < 2 ^ 64 ∧
        BlockShown { s₂ with permissiveAdvance := true } size rest'

/-- Every item that `next` reads is shown: the next byte, each varint of the record, and the bytes
of a buffer. -/
def NextShown (stack : StackBytes) (s : MemStream M) (bytes : List UInt8) : Prop :=
  MoreShown s bytes ∧ ∀ s₁, s.hasMore = .ok (true, s₁) → TryShown s₁ bytes ∧
    ∀ w rest s₂, readVarint bytes = some (w, rest) → s₁.tryReadVarint stack = .ok (some w, s₂) →
      match EventType.ofCode? (decodeType w) with
      | some .death => VarintShown s₂ rest
      | some .buf => NextBufShown stack s₂ rest
      | some .syncBarrier => TryShown s₂ rest
      | _ => True

/-- The event holds the fields of a record, and its bytes are in memory. -/
structure Holds (s : MemStream M) (ev : OuterEvent) (r : OuterRecord) : Prop where
  type : ev.type = r.type
  cpu : ev.cpu = r.cpu
  ts : ev.ts = r.ts
  threadId : ev.threadId = r.threadId
  bufEnd : ev.bufEnd = ev.bufStart + UInt64.ofNat r.body.length
  fits : ev.bufStart.toNat + r.body.length ≤ 2 ^ 63
  bytes : ∀ i < r.body.length,
    Mapper.load s.mapper (ev.bufStart + UInt64.ofNat i) = r.body[i]?

variable {P : MemStream M → List UInt8 → Prop}

/-- The `kEventBuf` case. -/
theorem nextBuf_eq (hP : Served P) {s : MemStream M} {bytes : List UInt8} (hs : P s bytes)
    (hle : s.ptr ≤ s.end_) (hstrict : s.permissiveAdvance = false) {stack : StackBytes}
    (hshown : NextBufShown stack s bytes) (ev : OuterEvent) (htype : ev.type = .buf)
    (w : UInt64) :
    match nextBufRecord w bytes with
    | none => ∃ ev' s', s.nextBuf stack ev w = .ok (false, ev', s')
    | some (r, rest) => ∃ ev' s', s.nextBuf stack ev w = .ok (true, ev', s') ∧ Holds s' ev' r ∧
        P s' rest ∧ s'.ptr ≤ s'.end_ ∧ s'.permissiveAdvance = false := by
  obtain ⟨htry, hshown⟩ := hshown
  have h₁ := tryReadVarint_eq hP hs hle hstrict htry stack
  unfold nextBufRecord nextBuf
  cases hv₁ : readVarint bytes with
  | none =>
    simp only [hv₁] at h₁
    obtain ⟨s₁, heq₁⟩ := h₁
    -- the trace ends within the time
    simp only [heq₁, ok_bind, Option.bind_eq_bind, Option.bind_none]
    exact ⟨_, _, rfl⟩
  | some r₁ =>
    obtain ⟨w₁, rest₁⟩ := r₁
    simp only [hv₁] at h₁
    obtain ⟨s₁, heq₁, hs₁, hle₁, hstrict₁⟩ := h₁
    obtain ⟨htry₁, hshown⟩ := hshown _ _ _ hv₁ heq₁
    have h₂ := tryReadVarint_eq hP hs₁ hle₁ hstrict₁ htry₁ stack
    simp only [heq₁, ok_bind, Option.bind_eq_bind, Option.bind_some]
    cases hv₂ : readVarint rest₁ with
    | none =>
      simp only [hv₂] at h₂
      obtain ⟨s₂, heq₂⟩ := h₂
      -- the trace ends within the size
      simp only [heq₂, ok_bind, Option.bind_none]
      exact ⟨_, _, rfl⟩
    | some r₂ =>
      obtain ⟨size, rest₂⟩ := r₂
      simp only [hv₂] at h₂
      obtain ⟨s₂, heq₂, hs₂, hle₂, hstrict₂⟩ := h₂
      obtain ⟨hfits, hblock⟩ := hshown _ _ _ hv₂ heq₂
      have h₃ := tryAdvanceBy_eq hP hs₂ hle₂ hfits hblock
      simp only [heq₂, ok_bind, Option.bind_some, decodeBuffer]
      by_cases hsize : size.toNat ≤ rest₂.length
      · -- the whole buffer is in the trace
        rw [if_pos hsize] at h₃
        obtain ⟨s₃, heq₃, hs₃, hle₃, hstrict₃, hload⟩ := h₃
        simp only [hsize, if_true, heq₃, ok_bind]
        have hlen : (rest₂.take size.toNat).length = size.toNat := by
          rw [List.length_take]; omega
        have hplace := (hP.reads hs₂ hle₂).fits
        refine ⟨_, s₃, rfl, ⟨htype, rfl, rfl, rfl, ?_, ?_, fun i hi => ?_⟩, hs₃, hle₃, hstrict₃⟩
        · rw [hlen, UInt64.ofNat_toNat]
        · show s₂.ptr.toNat + (rest₂.take size.toNat).length ≤ _
          omega
        · rw [hlen] at hi
          rw [List.getElem?_take_of_lt hi]
          exact hload i hi
      · -- the trace ends within the buffer
        rw [if_neg hsize] at h₃
        obtain ⟨s₃, heq₃⟩ := h₃
        simp only [hsize, if_false, heq₃, ok_bind]
        exact ⟨_, _, rfl⟩

/-- **`OuterEvStream::next`** takes a record off the bytes that the stream stands before. -/
theorem next_eq (hP : Served P) {s : MemStream M} {bytes : List UInt8} (hs : P s bytes)
    (hstrict : s.permissiveAdvance = false) {stack : StackBytes}
    (hshown : NextShown stack s bytes) (ev : OuterEvent) :
    match nextRecord bytes with
    | .error e => s.next stack ev = .error e
    | .ok none => ∃ ev' s', s.next stack ev = .ok (false, ev', s')
    | .ok (some (r, rest)) => ∃ ev' s', s.next stack ev = .ok (true, ev', s') ∧ Holds s' ev' r ∧
        P s' rest ∧ s'.ptr ≤ s'.end_ ∧ s'.permissiveAdvance = false := by
  obtain ⟨hmore, hshown⟩ := hshown
  obtain ⟨s₁, heq₁, hs₁, -, hle₁, hstrict₁⟩ := hasMore_eq hP hs hmore
  rw [hstrict] at hstrict₁
  unfold nextRecord next
  cases bytes with
  | nil =>
    -- the trace is at its end
    simp only [heq₁, ok_bind, List.isEmpty_nil, Bool.not_true, Bool.not_false, if_true]
    exact ⟨_, _, rfl⟩
  | cons b bs =>
    simp only [List.isEmpty_cons, Bool.not_false] at heq₁
    obtain ⟨htry, hshown⟩ := hshown _ heq₁
    have h₂ := tryReadVarint_eq hP hs₁ hle₁ hstrict₁ htry stack
    simp only [heq₁, ok_bind, Bool.not_true, Bool.false_eq_true, if_false]
    cases hv : readVarint (b :: bs) with
    | none =>
      simp only [hv] at h₂
      obtain ⟨s₂, heq₂⟩ := h₂
      -- the trace ends within the first word
      simp only [heq₂, ok_bind]
      exact ⟨_, _, rfl⟩
    | some r =>
      obtain ⟨w, rest⟩ := r
      simp only [hv] at h₂
      obtain ⟨s₂, heq₂, hs₂, hle₂, hstrict₂⟩ := h₂
      have hshown := hshown _ _ _ hv heq₂
      simp only [heq₂, ok_bind]
      cases htype : EventType.ofCode? (decodeType w) with
      | none => simp only [throw_eq_error]
      | some type =>
        simp only [htype] at hshown
        cases type with
        | malloc | free | tok | freeSized | realloc | memalign => simp only [throw_eq_error]
        | end_ =>
          refine ⟨_, s₂, rfl, ⟨rfl, rfl, rfl, rfl, ?_, Nat.zero_le _, by simp⟩, hs₂, hle₂, hstrict₂⟩
          rfl
        | buf =>
          have h₃ := nextBuf_eq hP hs₂ hle₂ hstrict₂ hshown { OuterEvent.zero with type := .buf }
            rfl w
          cases hr : nextBufRecord w rest with
          | none =>
            simp only [hr] at h₃ ⊢
            exact h₃
          | some r₂ =>
            simp only [hr] at h₃ ⊢
            exact h₃
        | death =>
          have h₃ := mustReadVarint_eq hP hs₂ hle₂ hstrict₂ hshown stack
          cases hv₂ : readVarint rest with
          | none =>
            simp only [hv₂] at h₃
            -- the second word of a death is read strictly, so that the program stops
            simp only [h₃, error_bind]
          | some r₂ =>
            simp only [hv₂] at h₃
            obtain ⟨s₃, heq₃, hs₃, hle₃, hstrict₃⟩ := h₃
            simp only [heq₃, ok_bind]
            refine ⟨_, s₃, rfl, ⟨rfl, rfl, rfl, rfl, ?_, Nat.zero_le _, by simp⟩, hs₃, hle₃,
              hstrict₃⟩
            rfl
        | syncBarrier =>
          have h₃ := tryReadVarint_eq hP hs₂ hle₂ hstrict₂ hshown stack
          cases hv₂ : readVarint rest with
          | none =>
            simp only [hv₂] at h₃
            obtain ⟨s₃, heq₃⟩ := h₃
            -- that of a barrier is not, so that there is no record
            simp only [heq₃, ok_bind]
            exact ⟨_, _, rfl⟩
          | some r₂ =>
            simp only [hv₂] at h₃
            obtain ⟨s₃, heq₃, hs₃, hle₃, hstrict₃⟩ := h₃
            simp only [heq₃, ok_bind]
            refine ⟨_, s₃, rfl, ⟨rfl, rfl, rfl, rfl, ?_, Nat.zero_le _, by simp⟩, hs₃, hle₃,
              hstrict₃⟩
            rfl

/-! ### Families that show every record -/

/-- A family of streams whose windows show every item; `C rest amount` is what a block of bytes
before `rest` has to satisfy for that. -/
structure Shows (P : MemStream M → List UInt8 → Prop) (C : List UInt8 → UInt64 → Prop) : Prop where
  served : Served P
  more : ∀ {s rest}, P s rest → MoreShown s rest
  varint : ∀ {s rest}, P s rest → VarintShown s rest
  block : ∀ {s rest amount}, P s rest → C rest amount →
    s.ptr.toNat + amount.toNat < 2 ^ 64 ∧ BlockShown s amount rest

/-- **The windows show a record**, if its buffer is as it should be. -/
theorem Shows.nextShown {C : List UInt8 → UInt64 → Prop} (hshows : Shows P C) {s : MemStream M}
    {bytes : List UInt8} (hs : P s bytes) (hstrict : s.permissiveAdvance = false)
    (hC : ∀ size rest, declaredSize? bytes = some (size, rest) → C rest size)
    (stack : StackBytes) : NextShown stack s bytes := by
  have hP := hshows.served
  -- the stream after a varint stands before what follows
  have hafter : ∀ {s s' : MemStream M} {bytes rest : List UInt8} {w : UInt64},
      P s bytes → s.ptr ≤ s.end_ → s.permissiveAdvance = false →
      readVarint bytes = some (w, rest) → s.tryReadVarint stack = .ok (some w, s') →
      P s' rest ∧ s'.ptr ≤ s'.end_ ∧ s'.permissiveAdvance = false := by
    intro s s' bytes rest w h hle hstrict hv hread
    have hspec := tryReadVarint_eq hP h hle hstrict (hshows.varint (hP.permissive h true)) stack
    simp only [hv] at hspec
    obtain ⟨s'', hread', hs''⟩ := hspec
    rw [hread] at hread'
    obtain rfl := (Prod.mk.inj (Except.ok.inj hread')).2
    exact hs''
  refine ⟨hshows.more hs, fun s₁ hmore => ?_⟩
  obtain ⟨s₁', hmore', h₁, -, hle₁, hstrict₁⟩ := hasMore_eq hP hs (hshows.more hs)
  rw [hmore] at hmore'
  obtain rfl := (Prod.mk.inj (Except.ok.inj hmore')).2
  rw [hstrict] at hstrict₁
  refine ⟨hshows.varint (hP.permissive h₁ true), fun w rest₁ s₂ hv hread => ?_⟩
  obtain ⟨h₂, hle₂, hstrict₂⟩ := hafter h₁ hle₁ hstrict₁ hv hread
  cases htype : EventType.ofCode? (decodeType w) with
  | none => trivial
  | some type =>
    cases type with
    | malloc | free | tok | freeSized | realloc | memalign | end_ => trivial
    | death => exact hshows.varint h₂
    | syncBarrier => exact hshows.varint (hP.permissive h₂ true)
    | buf =>
      refine ⟨hshows.varint (hP.permissive h₂ true), fun w₂ rest₂ s₃ hv₂ hread₂ => ?_⟩
      obtain ⟨h₃, hle₃, hstrict₃⟩ := hafter h₂ hle₂ hstrict₂ hv₂ hread₂
      refine ⟨hshows.varint (hP.permissive h₃ true), fun size rest₃ s₄ hv₃ hread₃ => ?_⟩
      obtain ⟨h₄, hle₄, -⟩ := hafter h₃ hle₃ hstrict₃ hv₃ hread₃
      have hdeclared : declaredSize? bytes = some (size, rest₃) := by
        simp only [declaredSize?, hv, htype, hv₂, hv₃, Option.bind_eq_bind, Option.bind_some,
          if_true]
      have hsize := hC _ _ hdeclared
      exact ⟨(hshows.block h₄ hsize).1, (hshows.block (hP.permissive h₄ true) hsize).2⟩

end MemStream

end MallocTraceReplay
