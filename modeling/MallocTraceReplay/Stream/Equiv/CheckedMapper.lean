import MallocTraceReplay.Stream.CheckedMapper
import MallocTraceReplay.Stream.Equiv.RecordWindow

/-!
# Streams over the observed `FDInputMapper`

What was read ends no later than a megabyte behind the place of a stream, up to a page (`OverArea`):
the window is extended by what is needed, the place is moved over it, and no later request ends
before what was read.  So no mapping of fresh pages has a negative length, and `Realize` keeps the
image of the file (`CheckedMapper.realize_outcome`).  When memory is released the window is left
ending before the place, and the next call of `has_more` sets it right (`Released`).
-/

namespace MallocTraceReplay

open MallocTraceEncoder StepMachine

/-! ### Pages -/

/-- A number rounded up to a page. -/
def roundUp (n : ℕ) : ℕ := (n + 4095) / 4096 * 4096

theorem roundUp_mono {n n' : ℕ} (h : n ≤ n') : roundUp n ≤ roundUp n' :=
  Nat.mul_le_mul_right _ (Nat.div_le_div_right (Nat.add_le_add_right h _))

theorem le_roundUp (n : ℕ) : n ≤ roundUp n ∧ roundUp n ≤ n + 4095 := by
  unfold roundUp
  omega

theorem roundUp_roundUp (n : ℕ) : roundUp (roundUp n) = roundUp n := by
  unfold roundUp
  omega

/-- What ends at a page is not passed by rounding. -/
theorem roundUp_le {n k : ℕ} (h : n ≤ k) (hk : k % 4096 = 0) : roundUp n ≤ k := by
  unfold roundUp
  omega

/-! ### One call of `Realize` -/

namespace FDInputMapper

variable {b : UInt64} {content : List UInt8} {m : FDInputMapper} {start len : UInt64}

/-- The image of a file as it is looked at. -/
theorem PartImage.holdsFile (h : PartImage b content m) : m.holdsFile = true := by
  have hend := h.lastEnd
  have hbelow := h.below
  have hstart := h.le_lastStart
  have hposition := h.position_le
  unfold FDInputMapper.holdsFile
  rw [List.all_eq_true]
  intro i hi
  rw [List.mem_range] at hi
  have hindex : m.lastStart.toNat - b.toNat + i < m.fd.position := by omega
  have hplace : m.lastStart + UInt64.ofNat i =
      b + UInt64.ofNat (m.lastStart.toNat - b.toNat + i) := by
    apply UInt64.toNat_inj.mp
    rw [MemStream.toNat_add_ofNat (by omega), h.toNat_place hindex]
    omega
  have hload := h.loads _ hindex (by omega)
  obtain ⟨byte, hbyte⟩ : ∃ byte, content[m.lastStart.toNat - b.toNat + i]? = some byte :=
    ⟨_, List.getElem?_eq_getElem (by omega)⟩
  rw [hplace, hload, h.area, h.file, hbyte]
  exact beq_self_eq_true byte

/-- `Realize` fails by calling `abort()`. -/
theorem realize_error {e : Abort} (h : m.realize start len = .error e) : e = .abort := by
  unfold FDInputMapper.realize at h
  split at h
  · exact (Except.error.inj h).symm
  · split at h
    · exact (Except.error.inj h).symm
    · dsimp only at h
      generalize (if (start - m.lastStart).toInt64 > 0 then m.drop start else m) = m₁ at h
      obtain h | ⟨m', -, h⟩ := bind_eq_error.mp h
      · split at h
        · unfold FDInputMapper.mapFresh at h
          split at h
          · simp at h
          · exact (Except.error.inj h).symm
        · simp at h
      · simp at h

end FDInputMapper

namespace CheckedMapper

open FDInputMapper

/-- The ways in which a program may fail: not by what is observed. -/
def Unobserved (e : Abort) : Prop := e ≠ negativeLength ∧ e ≠ lostByte

variable {b : UInt64} {content : List UInt8} {c : CheckedMapper} {start len : UInt64}

/-- **`Realize`** keeps the image of the file, if the request does not end before what was read. -/
theorem realize_outcome (h : PartImage b content c.mapper) (haligned : b.toNat % 4096 = 0)
    (harea : b.toNat + 2 ^ 40 < 2 ^ 63)
    (hlen : start.toNat + len.toNat ≤ b.toNat + 2 ^ 40 →
      (pageCeil c.mapper.lastEnd).toNat ≤ (pageCeil (start + len)).toNat) :
    Outcome Unobserved (fun r => PartImage b content r.2.mapper ∧
      start ≤ c.mapper.lastEnd ∧ c.mapper.lastEnd ≤ r.2.mapper.lastEnd ∧
      r.1 = r.2.mapper.lastEnd - start ∧ start.toNat + len.toNat ≤ b.toNat + 2 ^ 40 ∧
      (r.2.mapper.lastEnd = c.mapper.lastEnd ∨ r.2.mapper.lastEnd ≤ pageCeil (start + len)))
      (c.realize start len) := by
  unfold CheckedMapper.realize areaSize
  rw [h.area]
  split
  · -- the request leaves the area
    exact .error ⟨by decide, by decide⟩
  · next hinside =>
    split
    · next hnegative =>
      -- the length of the mapping would be negative, which `hlen` excludes
      have hceil := hlen (Nat.not_lt.mp hinside)
      unfold freshLength at hnegative
      omega
    · -- nothing wraps: the area ends below `2 ^ 63`
      have hsum : (start + len).toNat = start.toNat + len.toNat := by
        rw [UInt64.toNat_add]
        omega
      have hbelow : (pageCeil (start + len)).toNat < 2 ^ 63 := by
        rw [toNat_pageCeil (by omega), hsum]
        omega
      cases hrealize : c.mapper.realize start len with
      | error e =>
        rw [realize_error hrealize]
        exact .error ⟨by decide, by decide⟩
      | ok r =>
        obtain ⟨hkept, hmore, hstart, hgot, -⟩ := h.realize (.inr hbelow) hrealize
        rw [ok_bind]
        dsimp only
        rw [hkept.holdsFile, if_pos rfl]
        -- what is mapped is what the file holds, so the check passes
        exact .ok ⟨hkept, hstart, hmore, hgot, by omega, (realize_lastEnd hrealize).2.2⟩

end CheckedMapper

/-! ### Streams -/

namespace MemStream

open FDInputMapper CheckedMapper

/-- The window over a file in its area, wherever it ends: what was read ends no later than a request
for a megabyte from the place on would have it. -/
structure InArea (b : UInt64) (content : List UInt8) (s : MemStream CheckedMapper) : Prop where
  image : PartImage b content s.mapper.mapper
  start : s.realizedStart = b
  lastEnd_le : s.mapper.mapper.lastEnd.toNat ≤ b.toNat + 2 ^ 40
  near : s.mapper.mapper.lastEnd.toNat ≤ roundUp (s.ptr.toNat + 2 ^ 20)

/-- The window ends where what was read does. -/
structure OverArea (b : UInt64) (content : List UInt8) (s : MemStream CheckedMapper) : Prop
    extends InArea b content s where
  end_eq : s.end_ = s.mapper.mapper.lastEnd

/-- After memory was released: the window ends before the place. -/
structure Released (b : UInt64) (content : List UInt8) (s : MemStream CheckedMapper) : Prop
    extends InArea b content s where
  end_lt : s.end_ < s.ptr
  begin_le : s.begin_ ≤ b
  start_le : b ≤ s.ptr
  ptr_le : s.ptr ≤ s.mapper.mapper.lastEnd
  strict : s.permissiveAdvance = false

/-- A block is no larger than the area. -/
def BlockInArea (_ amount : UInt64) : Prop := amount.toNat ≤ 2 ^ 40

section

variable {b : UInt64} {content : List UInt8} {s s' : MemStream CheckedMapper}
  (haligned : b.toNat % 4096 = 0) (harea : b.toNat + 2 ^ 40 < 2 ^ 63)

include haligned harea

/-- An extension of the window shows all that was read. -/
theorem InArea.realizeMore (amount : UInt64) (h : InArea b content s) (hstart : b ≤ s.ptr)
    (hptr : s.ptr ≤ s.mapper.mapper.lastEnd) (hamount : BlockInArea s.ptr amount) :
    Outcome Unobserved (fun r => PartImage b content r.2.mapper.mapper ∧
      r.2.end_ = r.2.mapper.mapper.lastEnd ∧
      s.mapper.mapper.lastEnd ≤ r.2.mapper.mapper.lastEnd ∧
      r.2.mapper.mapper.lastEnd.toNat ≤ b.toNat + 2 ^ 40 ∧
      r.2.mapper.mapper.lastEnd.toNat ≤
        roundUp (s.ptr.toNat + max amount.toNat (2 ^ 20))) (s.realizeMore amount) := by
  have hstart' := UInt64.le_iff_toNat_le.mp hstart
  have hptr' := UInt64.le_iff_toNat_le.mp hptr
  have hlast := h.lastEnd_le
  have hnear := h.near
  have hmax := toNat_max_kRealizeSize amount
  unfold BlockInArea at hamount
  have hnear' : s.mapper.mapper.lastEnd.toNat ≤
      roundUp (s.ptr.toNat + max amount.toNat (2 ^ 20)) :=
    hnear.trans (roundUp_mono (by omega))
  have hplace : (s.ptr - b + max amount kRealizeSize).toNat =
      s.ptr.toNat - b.toNat + max amount.toNat (2 ^ 20) := by
    rw [UInt64.toNat_add, UInt64.toNat_sub_of_le _ _ hstart, hmax]
    omega
  have hsum : (b + (s.ptr - b + max amount kRealizeSize)).toNat =
      s.ptr.toNat + max amount.toNat (2 ^ 20) := by
    rw [UInt64.toNat_add, hplace]
    omega
  -- a request inside the area is below `2 ^ 63`
  have hceil : b.toNat + (s.ptr - b + max amount kRealizeSize).toNat ≤ b.toNat + 2 ^ 40 →
      (pageCeil (b + (s.ptr - b + max amount kRealizeSize))).toNat =
        roundUp (s.ptr.toNat + max amount.toNat (2 ^ 20)) := by
    intro hinside
    rw [hplace] at hinside
    rw [toNat_pageCeil (by omega), hsum]
    rfl
  have hlen : b.toNat + (s.ptr - b + max amount kRealizeSize).toNat ≤ b.toNat + 2 ^ 40 →
      (pageCeil s.mapper.mapper.lastEnd).toNat ≤
        (pageCeil (b + (s.ptr - b + max amount kRealizeSize))).toNat := by
    intro hinside
    rw [hceil hinside, toNat_pageCeil (by omega)]
    exact (roundUp_mono hnear').trans (roundUp_roundUp _).le
  unfold MemStream.realizeMore
  rw [h.start]
  dsimp only
  refine (realize_outcome h.image haligned harea hlen).bind
    fun ⟨got, c⟩ ⟨hkept, _, hmore, hgot, hinside, hbound⟩ => ?_
  have hmore' := UInt64.le_iff_toNat_le.mp hmore
  have hceil := hceil hinside
  rw [hplace] at hinside
  dsimp only at hgot hbound hmore' hkept hmore ⊢
  have hend : b + got = c.mapper.lastEnd := by rw [hgot, UInt64.add_comm, UInt64.sub_add_cancel]
  have hlast' : c.mapper.lastEnd.toNat ≤
      roundUp (s.ptr.toNat + max amount.toNat (2 ^ 20)) := by
    obtain hsame | hle := hbound
    · rw [hsame]
      exact hnear'
    · rw [← hceil]
      exact UInt64.le_iff_toNat_le.mp hle
  refine .ok ⟨hkept, hend, hmore, ?_, hlast'⟩
  -- the area ends at a page
  show c.mapper.lastEnd.toNat ≤ b.toNat + 2 ^ 40
  exact hlast'.trans (roundUp_le (by omega) (by omega))

theorem windowInvariant_overArea :
    WindowInvariant (OverArea b content) BlockInArea Unobserved where
  beyondEnd := ⟨by decide, by decide⟩
  fault := ⟨by decide, by decide⟩
  move := by
    intro s ptr h hforward permissive
    refine ⟨⟨h.image, h.start, h.lastEnd_le, ?_⟩, h.end_eq⟩
    have hnear := h.near
    rw [h.end_eq, UInt64.le_iff_toNat_le, UInt64.le_iff_toNat_le] at hforward
    show s.mapper.mapper.lastEnd.toNat ≤ roundUp (ptr.toNat + 2 ^ 20)
    -- the window did not end far beyond the place, and the place is further on
    obtain hforward | hbehind := hforward
    · exact hnear.trans (roundUp_mono (Nat.add_le_add_right hforward _))
    · have hround := (le_roundUp (ptr.toNat + 2 ^ 20)).1
      omega
  end_lt h := by
    have hlast := h.lastEnd_le
    rw [h.end_eq]
    omega
  varintFits _ _ hamount := by
    unfold BlockInArea
    omega
  extend := by
    intro s amount h hs _ hamount
    have hbegin : b ≤ s.ptr := by
      rw [← h.start]
      exact hs.start_le
    have hptr := hs.ptr_le
    rw [h.end_eq] at hptr
    refine (h.toInArea.realizeMore haligned harea amount hbegin hptr hamount).imp
      fun ⟨ok, s₁⟩ heq ⟨hkept, hend, hmore, hlast, hnear⟩ => ?_
    obtain ⟨end_, mapper, rfl, -⟩ := realizeMore_ok heq
    dsimp only at hkept hend hmore hlast hnear ⊢
    refine ⟨?_, fun hsmall => ⟨⟨hkept, h.start, hlast, ?_⟩, hend⟩, fun ptr hforward => ?_⟩
    · rw [hend, h.end_eq]
      exact hmore
    · -- a smaller request asks for a megabyte
      rw [Nat.max_eq_right hsmall] at hnear
      exact hnear
    · -- after a larger one the place moves over the block, and the end is near again
      refine ⟨⟨hkept, h.start, hlast, ?_⟩, hend⟩
      have hplace := UInt64.le_iff_toNat_le.mp hptr
      have hold := h.lastEnd_le
      unfold BlockInArea at hamount
      have hsum : (s.ptr + amount).toNat = s.ptr.toNat + amount.toNat := by
        rw [UInt64.toNat_add]
        omega
      have hforward := hforward.imp_left And.right
      rw [hend, UInt64.le_iff_toNat_le, UInt64.le_iff_toNat_le, hsum] at hforward
      dsimp only
      obtain hforward | hbehind := hforward
      · exact hnear.trans (roundUp_mono (by omega))
      · have hround := (le_roundUp (ptr.toNat + 2 ^ 20)).1
        omega

/-- **`has_more`** after a release has the window end where what was read does again. -/
theorem Released.hasMore (h : Released b content s) :
    Outcome Unobserved (fun r => Settled (OverArea b content) r.2) s.hasMore := by
  have hnot : ¬ s.ptr < s.end_ := UInt64.not_lt.mpr (UInt64.le_of_lt h.end_lt)
  unfold MemStream.hasMore
  rw [if_neg hnot]
  have hzero : BlockInArea s.ptr 0 := Nat.zero_le _
  have hrealize := h.toInArea.realizeMore haligned harea 0 h.start_le h.ptr_le hzero
  refine hrealize.bind_of_ok ?_
  intro ⟨ok, s₁⟩ heq ⟨hkept, hend, hmore, hlast, hnear⟩
  obtain ⟨end_, mapper, rfl, -⟩ := realizeMore_ok heq
  have hsmall : (0 : UInt64).toNat ≤ 2 ^ 20 := Nat.zero_le _
  rw [Nat.max_eq_right hsmall] at hnear
  have hptr := UInt64.le_trans h.ptr_le hmore
  rw [← hend] at hptr
  refine .ok ⟨⟨⟨hkept, h.start, hlast, hnear⟩, hend⟩, ⟨?_, ?_, hptr⟩, h.strict⟩
  · show s.begin_ ≤ s.realizedStart
    rw [h.start]
    exact h.begin_le
  · show s.realizedStart ≤ s.ptr
    rw [h.start]
    exact h.start_le

/-- **`unrealize_up_to`** leaves the stream as it was, or released. -/
theorem OverArea.unrealizeUpTo (h : Settled (OverArea b content) s) (ndebug : Bool) (ptr : UInt64) :
    Outcome Unobserved (fun s' => Settled (OverArea b content) s' ∨ Released b content s')
      (s.unrealizeUpTo ndebug ptr) := by
  have hbegin := h.ordered.start_le
  rw [h.inv.start] at hbegin
  have hptr := h.ordered.ptr_le
  rw [h.inv.end_eq] at hptr
  have hlast := h.inv.lastEnd_le
  have hnear := h.inv.near
  unfold MemStream.unrealizeUpTo check
  split
  · rw [ok_bind]
    split
    · exact .ok (.inl h)
    · next hacts =>
      obtain ⟨hfar, hsmall⟩ := not_idle_iff.mp hacts
      rw [h.inv.start] at hfar hsmall
      -- the page that is released up to is far behind the begin
      have hplace : ptr.toNat = b.toNat + (ptr - b).toNat := by
        have hsum : (b + (ptr - b)).toNat = b.toNat + (ptr - b).toNat := by
          rw [UInt64.toNat_add]
          omega
        rw [UInt64.add_comm, UInt64.sub_add_cancel] at hsum
        exact hsum
      have hpage := sub_and_4096 ptr
      dsimp only
      generalize ptr - (ptr &&& 4096) = page at hpage ⊢
      have hsum : page + (s.end_ - page) = s.mapper.mapper.lastEnd := by
        rw [UInt64.add_comm, UInt64.sub_add_cancel, h.inv.end_eq]
      refine (realize_outcome h.inv.image haligned harea fun _ => by rw [hsum]).bind
        fun ⟨got, c⟩ ⟨hkept, hstart, hmore, hgot, _, hbound⟩ => ?_
      dsimp only at hkept hmore hgot hbound ⊢
      split
      · exact .error ⟨by decide, by decide⟩
      · refine .ok (.inr ?_)
        have hround : c.mapper.lastEnd.toNat ≤ roundUp s.mapper.mapper.lastEnd.toNat := by
          obtain hsame | hle := hbound
          · rw [hsame]
            exact (le_roundUp _).1
          · rw [UInt64.le_iff_toNat_le, hsum, toNat_pageCeil (by omega)] at hle
            exact hle
        have hnear' : c.mapper.lastEnd.toNat ≤ roundUp (s.ptr.toNat + 2 ^ 20) :=
          hround.trans ((roundUp_mono hnear).trans (roundUp_roundUp _).le)
        have hlast' : c.mapper.lastEnd.toNat ≤ b.toNat + 2 ^ 40 :=
          hround.trans (roundUp_le hlast (by omega))
        have hfrom := UInt64.le_trans hstart hmore
        have hfrom' := UInt64.le_iff_toNat_le.mp hfrom
        have hend : (s.realizedStart + got).toNat =
            b.toNat + (c.mapper.lastEnd.toNat - page.toNat) := by
          rw [UInt64.toNat_add, h.inv.start, hgot, UInt64.toNat_sub_of_le _ _ hfrom]
          omega
        have hceil := (le_roundUp (s.ptr.toNat + 2 ^ 20)).2
        refine ⟨⟨hkept, h.inv.start, hlast', hnear'⟩, ?_, ?_, hbegin, UInt64.le_trans hptr hmore,
          h.strict⟩
        · show s.realizedStart + got < s.ptr
          rw [UInt64.lt_iff_toNat_lt, hend]
          omega
        · show s.begin_ ≤ b
          rw [← h.inv.start]
          exact h.ordered.begin_le
  · exact .error ⟨by decide, by decide⟩

end

end MemStream

end MallocTraceReplay
