import MallocTraceReplay.Stream.Equiv.RecordRoundTrip

/-!
# Reading varints at a position

`try_read_varint` at position `p` of the bytes `D` that a `ConstMapper` holds gives `varintAt D p`,
however the stream came there (`tryReadVarint_at`): it does not matter where the window ends, which
of the two paths is taken, what the temporary of the slow path holds and what memory there is
outside `D`.
-/

namespace MallocTraceReplay

open AltVarintCodec StepMachine

namespace AltVarintCodec

/-- The value of a varint depends on the bytes of the varint only. -/
theorem varintValue_take (b : UInt8) (bs : List UInt8) :
    varintValue ((b :: bs).take (varintLength b)) = varintValue (b :: bs) := by
  obtain ⟨n, hn⟩ := Nat.exists_eq_add_of_lt (varintLength_pos b)
  rw [Nat.zero_add] at hn
  rw [hn, List.take_succ_cons, varintValue, varintValue]
  by_cases hb : b = 0
  · have h9 : n = 8 := by
      rw [varintLength, if_pos hb] at hn
      omega
    rw [if_pos hb, if_pos hb, h9, List.take_take, Nat.min_self]
  · rw [if_neg hb, if_neg hb, hn, List.take_succ_cons, List.take_succ_cons, List.take_take,
      Nat.min_self]

end AltVarintCodec

/-- The varint at a position of some bytes, and the position after it; the end of the bytes when
there is no whole one. -/
def varintAt (D : List UInt8) (p : ℕ) : Option UInt64 × ℕ :=
  match D[p]? with
  | some b =>
    if p + varintLength b ≤ D.length then
      (some (varintValue ((D.drop p).take (varintLength b))), p + varintLength b)
    else (none, D.length)
  | none => (none, D.length)

namespace MemStream

/-! ### Runs of the reading functions -/

/-- The reading functions that do not panic; a read of a varint with what its temporary holds. -/
inductive ReadOp
  | hasMore
  | tryReadVarint (stack : StackBytes)
  | tryAdvanceBy (amount : UInt64)

variable {M : Type} [Mapper M]

/-- The stream after an operation. -/
def ReadOp.run (s : MemStream M) : ReadOp → Except Abort (MemStream M)
  | .hasMore => s.hasMore.map Prod.snd
  | .tryReadVarint stack => (s.tryReadVarint stack).map Prod.snd
  | .tryAdvanceBy amount => (s.tryAdvanceBy amount).map Prod.snd

/-- The stream after some operations. -/
def runOps (s : MemStream M) (ops : List ReadOp) : Except Abort (MemStream M) :=
  ops.foldlM ReadOp.run s

/-- The amounts are below `2^62`. -/
def ReadOp.Bounded : ReadOp → Prop
  | .tryAdvanceBy amount => amount.toNat < 2 ^ 62
  | .hasMore | .tryReadVarint _ => True

/-- A `ConstMapper` that holds some bytes, with any memory around them. -/
structure HoldsBytes (m : ConstMapper) (D : List UInt8) : Prop where
  size : m.size_.toNat = D.length
  bytes : BytesAt m.mem m.begin_ D

/-- The stream is at a position of the bytes that its mapper holds. -/
def AtPosition (m : ConstMapper) (s : MemStream ConstMapper) (p : ℕ) : Prop :=
  s.ptr.toNat = m.begin_.toNat + p

/-- A stream between two operations. -/
structure Between (m : ConstMapper) (D : List UInt8) (s : MemStream ConstMapper) (p : ℕ) :
    Prop where
  before : Before m s (D.drop p)
  position_le : p ≤ D.length
  ptr_le : s.ptr ≤ s.end_
  strict : s.permissiveAdvance = false

variable {m : ConstMapper} {D rest : List UInt8} {s s' : MemStream ConstMapper} {p : ℕ}

/-- A trace in memory is held by its mapper. -/
theorem HoldsBytes.ofBytes {b : UInt64} (hfits : b.toNat + D.length ≤ 2 ^ 63) :
    HoldsBytes (.ofBytes b D) D where
  size := by
    show (UInt64.ofNat D.length).toNat = D.length
    rw [UInt64.toNat_ofNat']
    omega
  bytes := (before_new hfits).bytes

theorem HoldsBytes.between_new (h : HoldsBytes m D) : Between m D (new m) 0 where
  before :=
    { mapper := rfl
      start := rfl
      begin_le := Nat.le_refl _
      ends := by rw [h.size]; rfl
      window := Nat.le_add_right _ _
      bytes := h.bytes }
  position_le := Nat.zero_le _
  ptr_le := UInt64.le_refl _
  strict := rfl

theorem Between.atPosition (hm : HoldsBytes m D) (h : Between m D s p) : AtPosition m s p := by
  have hends := h.before.ends
  have hp := h.position_le
  rw [hm.size, List.length_drop] at hends
  unfold AtPosition
  omega

theorem Between.of_before {n : ℕ}
    (h : Before m s ((D.drop p).drop n)) (hn : p + n ≤ D.length) (hle : s.ptr ≤ s.end_)
    (hstrict : s.permissiveAdvance = false) : Between m D s (p + n) := by
  rw [List.drop_drop] at h
  exact ⟨h, hn, hle, hstrict⟩

/-- **A failed extension** of the window shows the end of the data. -/
theorem Before.atEnd (h : Before m s rest) {amount : UInt64} {ok : Bool}
    (hfits : s.ptr.toNat + amount.toNat < 2 ^ 64)
    (hlen : rest.length ≤ max amount.toNat (2 ^ 20))
    (heq : s.realizeMore amount = .ok (ok, s')) : Before m s'.atEnd [] := by
  obtain ⟨ok', end_, heq', hend⟩ := h.realizeMore_eq amount hfits
  rw [heq'] at heq
  obtain ⟨-, rfl⟩ := Prod.mk.inj (Except.ok.inj heq)
  rw [Nat.min_eq_right hlen] at hend
  have hends := h.ends
  have hbegin := h.begin_le
  have hbytes := h.bytes.fits
  refine ⟨h.mapper, h.start, ?_, ?_, ?_, ⟨?_, fun i hi => ?_⟩⟩
  · show m.begin_.toNat ≤ end_.toNat
    omega
  · show end_.toNat + 0 = _
    omega
  · show end_.toNat ≤ end_.toNat + 0
    omega
  · show end_.toNat + 0 ≤ _
    omega
  · simp at hi

/-- After a failed extension for more than there is, a stream is at the end of the data. -/
theorem Before.between_atEnd (h : Before m s (D.drop p)) {amount : UInt64} {ok : Bool}
    (hfits : s.ptr.toNat + amount.toNat < 2 ^ 64)
    (hlen : (D.drop p).length ≤ max amount.toNat (2 ^ 20))
    (heq : s.realizeMore amount = .ok (ok, s')) : Between m D s'.atEnd D.length := by
  refine ⟨?_, Nat.le_refl _, UInt64.le_refl _, rfl⟩
  rw [List.drop_length]
  exact h.atEnd hfits hlen heq

/-! ### One operation -/

theorem Between.hasMore (h : Between m D s p) :
    ∃ s', s.hasMore = .ok (!(D.drop p).isEmpty, s') ∧ Between m D s' p := by
  obtain ⟨s', heq, hs', -, hle, hperm⟩ := h.before.hasMore_eq
  exact ⟨s', heq, hs', h.position_le, hle, by rw [hperm, h.strict]⟩

/-- `try_advance_by` moves by the amount, or to the end of the data. -/
theorem Between.tryAdvanceBy (h : Between m D s p) {amount : UInt64}
    (hamount : amount.toNat < 2 ^ 62) :
    ∃ r s', s.tryAdvanceBy amount = .ok (r, s') ∧
      Between m D s' (if p + amount.toNat ≤ D.length then p + amount.toNat else D.length) := by
  have hfits : s.ptr.toNat + amount.toNat < 2 ^ 64 := by
    have := h.before.bytes.fits
    omega
  have hp := h.position_le
  have hlen : (D.drop p).length = D.length - p := List.length_drop
  have hadvance := h.before.tryAdvanceBy_eq h.ptr_le hfits
  by_cases henough : p + amount.toNat ≤ D.length
  · rw [if_pos (by omega)] at hadvance
    obtain ⟨s', heq, hs', hle, hstrict, -⟩ := hadvance
    rw [if_pos henough]
    exact ⟨_, s', heq, .of_before hs' henough hle hstrict⟩
  · obtain ⟨s₁, hno, heq⟩ := tryAdvanceBy_short (served_before m) h.before h.ptr_le hfits
      (((served_before m).permissive h.before true).blockShown hfits) (by omega)
    rw [if_neg henough]
    have hs := (served_before m).permissive h.before true
    exact ⟨_, _, heq, hs.between_atEnd hfits (by omega) hno⟩

/-- `try_read_varint` from any stream at the position. -/
theorem Between.tryReadVarint (h : Between m D s p) (stack : StackBytes) :
    ∃ s', s.tryReadVarint stack = .ok ((varintAt D p).1, s') ∧
      Between m D s' (varintAt D p).2 := by
  have hp := h.position_le
  have hlen : (D.drop p).length = D.length - p := List.length_drop
  -- where the varint is cut short, the last extension shows the end of the data
  have hshort : (D.drop p).length < varintNeed (D.drop p) →
      ∃ s', s.tryReadVarint stack = .ok (none, s') ∧ Between m D s' D.length := by
    intro hshort
    obtain ⟨s₁, s₂, amount, h9, hs₁, -, hno, heq⟩ := tryReadVarint_short (served_before m) h.before
      h.ptr_le ((served_before m).permissive h.before true).varintShown hshort stack
    have hneed := varintNeed_le (D.drop p)
    have hfits := hs₁.bytes.fits
    rw [UInt64.le_iff_toNat_le] at h9
    simp only [UInt64.reduceToNat] at h9
    exact ⟨_, heq, hs₁.between_atEnd (by omega) (by omega) hno⟩
  have hread := h.before.tryReadVarint_eq h.ptr_le h.strict stack
  cases hbyte : D[p]? with
  | none =>
    have hend : p = D.length := by
      have := List.getElem?_eq_none_iff.mp hbyte
      omega
    have hnil : D.drop p = [] := by rw [hend, List.drop_length]
    rw [varintAt, hbyte]
    exact hshort (by rw [hnil]; exact varintNeed_pos [])
  | some b =>
    obtain ⟨hlt, hb⟩ := List.getElem?_eq_some_iff.mp hbyte
    have hcons : D.drop p = b :: D.drop (p + 1) := by rw [← hb, List.drop_eq_getElem_cons hlt]
    have hneed : varintNeed (D.drop p) = varintLength b := by rw [hcons]; rfl
    rw [varintAt, hbyte]
    dsimp only
    by_cases hwhole : p + varintLength b ≤ D.length
    · rw [if_pos hwhole]
      rw [readVarint_eq, if_neg (by omega)] at hread
      obtain ⟨s', heq, hs', hle, hstrict⟩ := hread
      rw [hneed] at hs'
      rw [hcons] at heq ⊢
      rw [varintValue_take]
      exact ⟨s', heq, .of_before hs' hwhole hle hstrict⟩
    · rw [if_neg hwhole]
      exact hshort (by omega)

theorem Between.run (h : Between m D s p) {op : ReadOp} (hop : op.Bounded) :
    ∃ s' p', op.run s = .ok s' ∧ Between m D s' p' := by
  cases op with
  | hasMore =>
    obtain ⟨s', heq, hs'⟩ := h.hasMore
    exact ⟨s', p, by rw [ReadOp.run, heq]; rfl, hs'⟩
  | tryReadVarint stack =>
    obtain ⟨s', heq, hs'⟩ := h.tryReadVarint stack
    exact ⟨s', _, by rw [ReadOp.run, heq]; rfl, hs'⟩
  | tryAdvanceBy amount =>
    obtain ⟨r, s', heq, hs'⟩ := h.tryAdvanceBy hop
    exact ⟨s', _, by rw [ReadOp.run, heq]; rfl, hs'⟩

/-! ### All runs -/

theorem Between.runOps {ops : List ReadOp} (hops : ∀ op ∈ ops, op.Bounded)
    (h : Between m D s p) : ∃ s' p', s.runOps ops = .ok s' ∧ Between m D s' p' := by
  induction ops generalizing s p with
  | nil => exact ⟨s, p, rfl, h⟩
  | cons op ops ih =>
    obtain ⟨s₁, p₁, hop, hs₁⟩ := h.run (hops op (List.mem_cons_self ..))
    obtain ⟨s', p', hrun, hs'⟩ := ih (fun op hmem => hops op (List.mem_cons_of_mem _ hmem)) hs₁
    refine ⟨s', p', ?_, hs'⟩
    rw [MemStream.runOps, List.foldlM_cons, hop]
    exact hrun

/-- **Fast and slow reading agree**: after any operations the stream is at a position `p`, and
`try_read_varint` gives and moves to what `varintAt D p` says. -/
theorem tryReadVarint_at (hm : HoldsBytes m D) (ops : List ReadOp) (hops : ∀ op ∈ ops, op.Bounded) :
    ∃ s p, (new m).runOps ops = .ok s ∧ p ≤ D.length ∧ AtPosition m s p ∧
      ∀ stack, ∃ s', s.tryReadVarint stack = .ok ((varintAt D p).1, s') ∧
        AtPosition m s' (varintAt D p).2 := by
  obtain ⟨s, p, hrun, hs⟩ := hm.between_new.runOps hops
  refine ⟨s, p, hrun, hs.position_le, hs.atPosition hm, fun stack => ?_⟩
  obtain ⟨s', heq, hs'⟩ := hs.tryReadVarint stack
  exact ⟨s', heq, hs'.atPosition hm⟩

/-- After one of four bytes: a varint of two, and then one that is cut short. -/
theorem tryReadVarint_at_fourBytes :
    ∃ s p, (new (.ofBytes 0x10000 [7, 2, 5, 4])).runOps [.hasMore, .tryAdvanceBy 1] = .ok s ∧
      p ≤ 4 ∧ AtPosition (.ofBytes 0x10000 [7, 2, 5, 4]) s p ∧
      ∀ stack, ∃ s', s.tryReadVarint stack = .ok ((varintAt [7, 2, 5, 4] p).1, s') ∧
        AtPosition (.ofBytes 0x10000 [7, 2, 5, 4]) s' (varintAt [7, 2, 5, 4] p).2 := by
  refine tryReadVarint_at (.ofBytes (by decide)) [.hasMore, .tryAdvanceBy 1] fun op hop => ?_
  obtain rfl | rfl : op = .hasMore ∨ op = .tryAdvanceBy 1 := by simpa using hop
  · trivial
  · show (1 : UInt64).toNat < 2 ^ 62
    decide

end MemStream

end MallocTraceReplay
