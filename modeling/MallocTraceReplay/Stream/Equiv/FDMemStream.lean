import MallocTraceReplay.Stream.Equiv.FDInputMapper
import MallocTraceReplay.Stream.Equiv.RecordRoundTrip

/-!
# Streams over a `FDInputMapper`

`OverFile b content s rest`: a stream over the image of a file, whose bytes from the place of the
stream on are `rest`.  These streams are `Served` too.  Their window shows what is asked for when
every call of `read` delivers all it can (`OverFile.nextShown`).
-/

namespace MallocTraceReplay

open AltVarintCodec MallocTraceEncoder StepMachine FDInputMapper

namespace MemStream

/-- The stream over the image of a file stands before `rest`, in the part that is kept. -/
structure OverFile (b : UInt64) (content : List UInt8) (s : MemStream FDInputMapper)
    (rest : List UInt8) : Prop where
  image : Image b content s.mapper
  start : s.realizedStart = b
  kept : s.mapper.lastStart ≤ s.ptr
  ptr_le : s.ptr ≤ s.mapper.lastEnd
  end_le : s.end_ ≤ s.mapper.lastEnd
  bytes : rest = content.drop (s.ptr.toNat - b.toNat)

variable {b : UInt64} {content rest : List UInt8} {s s' : MemStream FDInputMapper}

/-- Where the stream stands in the file. -/
theorem OverFile.ends (h : OverFile b content s rest) :
    b.toNat ≤ s.ptr.toNat ∧ s.ptr.toNat + rest.length = b.toNat + content.length ∧
      s.mapper.lastEnd.toNat ≤ b.toNat + content.length := by
  have hstart := h.image.le_lastStart
  have hkept := UInt64.le_iff_toNat_le.mp h.kept
  have hptr := UInt64.le_iff_toNat_le.mp h.ptr_le
  have hend := h.image.lastEnd
  have hposition := h.image.position_le
  rw [h.bytes, List.length_drop]
  omega

theorem OverFile.reads (h : OverFile b content s rest) (hle : s.ptr ≤ s.end_) : Reads s rest := by
  obtain ⟨hbegin, hends, hlast⟩ := h.ends
  have hfits := h.image.fits
  have hend := UInt64.le_iff_toNat_le.mp h.end_le
  refine ⟨by omega, UInt64.le_iff_toNat_le.mp hle, by omega, fun i hi => ?_⟩
  -- the byte is one of the file that is kept
  have hplace : s.ptr + UInt64.ofNat i = b + UInt64.ofNat (s.ptr.toNat - b.toNat + i) := by
    apply UInt64.toNat_inj.mp
    rw [toNat_add_ofNat (by omega), toNat_add_ofNat (by omega)]
    omega
  have hlastEnd := h.image.lastEnd
  have hkept := UInt64.le_iff_toNat_le.mp h.kept
  have hload := h.image.loads (s.ptr.toNat - b.toNat + i) (by omega) (by omega)
  rw [hplace, h.bytes, List.getElem?_drop]
  exact hload

/-- What an extension of the window does. -/
theorem OverFile.realizeMore (h : OverFile b content s rest) {minAmount : UInt64} {ok : Bool}
    (heq : s.realizeMore minAmount = .ok (ok, s')) :
    OverFile b content s' rest ∧ s'.ptr = s.ptr ∧ s'.end_ = s'.mapper.lastEnd ∧
      s.mapper.lastEnd ≤ s'.mapper.lastEnd := by
  unfold MemStream.realizeMore at heq
  obtain ⟨⟨got, m'⟩, hrealize, heq⟩ := bind_eq_ok.mp heq
  obtain ⟨-, rfl⟩ := Prod.mk.inj (Except.ok.inj heq)
  obtain ⟨himage, hmore, -, hgot, hstart⟩ := h.image.realize hrealize
  have hbegin : ¬ s.mapper.lastStart < s.realizedStart := by
    rw [h.start, UInt64.not_lt, UInt64.le_iff_toNat_le]
    exact h.image.le_lastStart
  rw [if_neg hbegin] at hstart
  have hend : s.realizedStart + got = m'.lastEnd := by
    rw [hgot, UInt64.add_comm, UInt64.sub_add_cancel]
  refine ⟨⟨himage, h.start, ?_, UInt64.le_trans h.ptr_le hmore, ?_, h.bytes⟩, rfl, hend, hmore⟩
  · show m'.lastStart ≤ s.ptr
    rw [hstart]
    exact h.kept
  · show s.realizedStart + got ≤ m'.lastEnd
    rw [hend]
    exact UInt64.le_refl _

/-- **The streams over a `FDInputMapper` are served.** -/
theorem served_overFile (b : UInt64) (content : List UInt8) : Served (OverFile b content) where
  reads h hle := h.reads hle
  realizeMore := by
    intro s rest minAmount ok s' h _ heq
    obtain ⟨hs', hptr, hend, -⟩ := h.realizeMore heq
    refine ⟨hs', hptr, ?_, (realizeMore_same heq).2⟩
    rw [hend]
    exact hs'.ptr_le
  skip := by
    intro s rest n h hle hn
    have hptr := (h.reads hle).ptr_skip hn
    obtain ⟨hbegin, hends, hlast⟩ := h.ends
    have hle' := UInt64.le_iff_toNat_le.mp hle
    have hend := UInt64.le_iff_toNat_le.mp h.end_le
    have hkept := UInt64.le_iff_toNat_le.mp h.kept
    have hshown : n ≤ s.end_.toNat - s.ptr.toNat := hn
    refine ⟨h.image, h.start, ?_, ?_, h.end_le, ?_⟩
    · show s.mapper.lastStart ≤ (s.skip n).ptr
      rw [UInt64.le_iff_toNat_le, hptr]
      omega
    · show (s.skip n).ptr ≤ s.mapper.lastEnd
      rw [UInt64.le_iff_toNat_le, hptr]
      omega
    · rw [hptr, h.bytes, List.drop_drop]
      congr 1
      omega
  permissive h b := ⟨h.image, h.start, h.kept, h.ptr_le, h.end_le, h.bytes⟩

/-! ### Where nothing is short -/

/-- An extension of the window where nothing is short: as much as is asked for, at least a megabyte,
up to the end of the file. -/
theorem OverFile.realizeMore_generous (h : OverFile b content s rest) (hm : Generous s.mapper)
    (hroom : b.toNat + content.length + 2 ^ 31 ≤ 2 ^ 63) {minAmount : UInt64}
    (hmin : minAmount.toNat ≤ 2 ^ 30) :
    ∃ ok s', s.realizeMore minAmount = .ok (ok, s') ∧
      min (max minAmount.toNat (2 ^ 20)) rest.length ≤ s'.shown := by
  obtain ⟨hbegin, hends, hlast⟩ := h.ends
  have hptr := UInt64.le_iff_toNat_le.mp h.ptr_le
  have hmax := toNat_max_kRealizeSize minAmount
  have hplace : s.realizedStart ≤ s.ptr := by
    rw [h.start]
    exact UInt64.le_iff_toNat_le.mpr hbegin
  have hstart : s.realizedStart.toNat = b.toNat := by rw [h.start]
  -- nothing wraps, with a gigabyte at most asked for
  have hlen : (s.ptr - s.realizedStart + max minAmount kRealizeSize).toNat =
      s.ptr.toNat - b.toNat + max minAmount.toNat (2 ^ 20) := by
    rw [UInt64.toNat_add, UInt64.toNat_sub_of_le _ _ hplace, hmax, hstart]
    omega
  obtain ⟨got, m', hrealize, hfar⟩ := h.image.realize_generous hm hroom
    (UInt64.le_trans hplace h.ptr_le)
    (by rw [hlen, hstart]; omega)
  have hmore : s.realizeMore minAmount = .ok (decide (s.realizedStart + got - s.ptr ≥ minAmount),
      { s with end_ := s.realizedStart + got, mapper := m' }) := by
    unfold MemStream.realizeMore
    -- `Mapper.realize` of this instance is the function of the mapper
    have hclass : Mapper.realize s.mapper s.realizedStart
        (s.ptr - s.realizedStart + max minAmount kRealizeSize) = .ok (got, m') := hrealize
    dsimp only
    rw [hclass]
    rfl
  refine ⟨_, _, hmore, ?_⟩
  obtain ⟨-, -, hend, -⟩ := h.realizeMore hmore
  rw [hlen, hstart] at hfar
  change s.realizedStart + got = m'.lastEnd at hend
  show _ ≤ (s.realizedStart + got).toNat - s.ptr.toNat
  rw [hend]
  omega

/-- **Where nothing is short** the windows show every record, but for buffers of `2^30` bytes or
more. -/
theorem shows_generous (hroom : b.toNat + content.length + 2 ^ 31 ≤ 2 ^ 63) :
    Shows (fun s rest => OverFile b content s rest ∧ Generous s.mapper)
      fun _ amount => amount.toNat ≤ 2 ^ 30 where
  served := by
    have hP := served_overFile b content
    refine ⟨fun h hle => hP.reads h.1 hle, fun h hfits heq => ?_, fun h hle hn => ?_,
      fun h p => ⟨hP.permissive h.1 p, h.2⟩⟩
    · -- the mapper is as generous after a `realize`
      obtain ⟨hs', hrest⟩ := hP.realizeMore h.1 hfits heq
      refine ⟨⟨hs', ?_⟩, hrest⟩
      unfold MemStream.realizeMore at heq
      obtain ⟨⟨got, m'⟩, hrealize, heq⟩ := bind_eq_ok.mp heq
      obtain ⟨-, rfl⟩ := Prod.mk.inj (Except.ok.inj heq)
      exact h.2.realize hrealize
    · exact ⟨hP.skip h.1 hle hn, h.2⟩
  more := by
    intro s rest ⟨h, hm⟩
    obtain ⟨ok, s', heq, hshown⟩ := h.realizeMore_generous hm hroom (show (0 : UInt64).toNat ≤ _ by
      decide)
    exact .inr ⟨ok, s', heq, by omega⟩
  varint := by
    intro s rest ⟨h, hm⟩
    obtain ⟨ok, s', heq, hshown⟩ := h.realizeMore_generous hm hroom (show (0 : UInt64).toNat ≤ _ by
      decide)
    -- a varint needs no more than the megabyte that `realize_more(0)` asks for
    have hneed := varintNeed_le rest
    refine .inr ⟨ok, s', heq, by omega, fun _ n hn => ?_⟩
    have hs' := (h.realizeMore heq).1
    have hm' : Generous s'.mapper := by
      unfold MemStream.realizeMore at heq
      obtain ⟨⟨got, m'⟩, hrealize, heq⟩ := bind_eq_ok.mp heq
      obtain ⟨-, rfl⟩ := Prod.mk.inj (Except.ok.inj heq)
      exact hm.realize hrealize
    have hn' := UInt64.le_iff_toNat_le.mp hn
    simp only [UInt64.reduceToNat] at hn'
    -- the second request is for at most the longest varint
    obtain ⟨ok', s'', heq', -⟩ := hs'.realizeMore_generous hm' hroom
      (show n.toNat ≤ 2 ^ 30 by omega)
    exact ⟨ok', s'', heq'⟩
  block := by
    intro s rest amount ⟨h, hm⟩ hC
    obtain ⟨-, hends, -⟩ := h.ends
    obtain ⟨ok, s', heq, hshown⟩ := h.realizeMore_generous hm hroom hC
    exact ⟨by omega, .inr ⟨ok, s', heq, fun hle => by omega⟩⟩

end MemStream

end MallocTraceReplay
