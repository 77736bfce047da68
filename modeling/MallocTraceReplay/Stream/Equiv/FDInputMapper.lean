import MallocTraceReplay.Stream.Equiv.MemStream

/-!
# Correctness of `FDInputMapper`

The pages that the mapper keeps hold the bytes of the file, as far as they have been read (`Image`).
`Realize` keeps it so (`Image.realize`), however few bytes its one `read` delivers.
-/

namespace MallocTraceReplay

open StepMachine

/-! ### Pages -/

theorem toNat_pageFloor (a : UInt64) : (pageFloor a).toNat = a.toNat - a.toNat % 4096 := by
  have hand : (a &&& 4095).toNat = a.toNat % 4096 := by
    rw [UInt64.toNat_and]
    exact Nat.and_two_pow_sub_one_eq_mod _ 12
  have hle := Nat.mod_le a.toNat 4096
  rw [pageFloor, UInt64.toNat_sub_of_le _ _ (UInt64.le_iff_toNat_le.mpr (by rw [hand]; exact hle)),
    hand]

/-- An address rounded up to a page; the last page of all is followed by the first. -/
theorem toNat_pageCeil_mod (a : UInt64) :
    (pageCeil a).toNat = (a.toNat + 4095) / 4096 * 4096 % 2 ^ 64 := by
  have hlt := a.toNat_lt
  have hneg : (~~~a + 1).toNat = (2 ^ 64 - a.toNat) % 2 ^ 64 := by
    have hnot : (~~~a).toNat = 2 ^ 64 - 1 - a.toNat := UInt64.toNat_not ..
    rw [UInt64.toNat_add, hnot]
    simp only [UInt64.reduceToNat]
    omega
  have hand : ((~~~a + 1) &&& 4095).toNat = (~~~a + 1).toNat % 4096 := by
    rw [UInt64.toNat_and]
    exact Nat.and_two_pow_sub_one_eq_mod _ 12
  rw [pageCeil, UInt64.toNat_add, hand, hneg]
  omega

/-- An address below `2^63` rounded up to a page. -/
theorem toNat_pageCeil {a : UInt64} (ha : a.toNat ≤ 2 ^ 63) :
    (pageCeil a).toNat = (a.toNat + 4095) / 4096 * 4096 := by
  rw [toNat_pageCeil_mod]
  omega

theorem le_pageCeil {a : UInt64} (ha : a.toNat ≤ 2 ^ 63) : a.toNat ≤ (pageCeil a).toNat := by
  rw [toNat_pageCeil ha]
  omega

/-! ### Calls of `read` -/

namespace InputFd

variable {fd fd' : InputFd} {count : ℕ} {got : List UInt8}

/-- A call of `read` leaves the file and what the later calls will do. -/
theorem read_same {got? : Option (List UInt8)} (h : fd.read count = (got?, fd')) :
    fd'.content = fd.content ∧ fd'.schedule = fd.schedule := by
  unfold read at h
  split at h
  · obtain ⟨-, rfl⟩ := Prod.mk.inj h
    exact ⟨rfl, rfl⟩
  · obtain ⟨-, rfl⟩ := Prod.mk.inj h
    exact ⟨rfl, rfl⟩

/-- A call of `read` that delivers bytes. -/
theorem read_some (h : fd.read count = (some got, fd')) :
    fd'.position = fd.position + got.length ∧
      got = (fd.content.drop fd.position).take got.length := by
  unfold read at h
  split at h
  · simp at h
  · obtain ⟨hgot, rfl⟩ := Prod.mk.inj h
    obtain rfl := Option.some.inj hgot
    refine ⟨rfl, ?_⟩
    rw [List.length_take, List.take_eq_take_iff]
    omega

/-- A call of `read` that fails. -/
theorem read_none (h : fd.read count = (none, fd')) : fd'.position = fd.position := by
  unfold read at h
  split at h
  · obtain ⟨-, rfl⟩ := Prod.mk.inj h
    rfl
  · simp at h

/-- No call of `read` delivers more than it is asked for. -/
theorem read_length_le (h : fd.read count = (some got, fd')) (hcount : 0 < count) :
    got.length ≤ count := by
  unfold read at h
  split at h
  · simp at h
  · obtain ⟨hgot, -⟩ := Prod.mk.inj h
    rw [← Option.some.inj hgot, List.length_take]
    omega

/-- Nothing is delivered at the end of the file only. -/
theorem read_eof (h : fd.read count = (some [], fd')) : fd.content.drop fd.position = [] := by
  unfold read at h
  split at h
  · simp at h
  · obtain ⟨hgot, -⟩ := Prod.mk.inj h
    have hlength := congrArg List.length (Option.some.inj hgot)
    rw [List.length_take, List.length_nil] at hlength
    rw [← List.length_eq_zero_iff]
    omega

/-- A call of `read` fails where the schedule says so. -/
theorem read_eintr (h : fd.read count = (none, fd')) :
    fd.schedule fd.reads = .eintr ∧ fd'.reads = fd.reads + 1 := by
  unfold read at h
  split at h
  · next heintr =>
    obtain ⟨-, rfl⟩ := Prod.mk.inj h
    exact ⟨heintr, rfl⟩
  · simp at h

end InputFd

namespace FDInputMapper

variable {b : UInt64} {content : List UInt8} {m m' : FDInputMapper} {start len got : UInt64}

/-- **The image of the file**: what was read of it stands in the area from `mmap_area_` on, but for
the pages that were given back. -/
structure Image (b : UInt64) (content : List UInt8) (m : FDInputMapper) : Prop where
  area : m.mmapArea = b
  file : m.fd.content = content
  fits : b.toNat + content.length < 2 ^ 63
  position_le : m.fd.position ≤ content.length
  lastEnd : m.lastEnd.toNat = b.toNat + m.fd.position
  le_lastStart : b.toNat ≤ m.lastStart.toNat
  lastStart_le : m.lastStart.toNat ≤ m.lastEnd.toNat
  aligned : m.lastStart.toNat % 4096 = 0
  loads : ∀ i < m.fd.position, m.lastStart.toNat ≤ b.toNat + i →
    m.mem (b + UInt64.ofNat i) = content[i]?

/-- The image of a file of any length, of which no more is read than there are addresses for. -/
structure PartImage (b : UInt64) (content : List UInt8) (m : FDInputMapper) : Prop where
  area : m.mmapArea = b
  file : m.fd.content = content
  below : m.lastEnd.toNat < 2 ^ 63
  position_le : m.fd.position ≤ content.length
  lastEnd : m.lastEnd.toNat = b.toNat + m.fd.position
  le_lastStart : b.toNat ≤ m.lastStart.toNat
  lastStart_le : m.lastStart.toNat ≤ m.lastEnd.toNat
  aligned : m.lastStart.toNat % 4096 = 0
  loads : ∀ i < m.fd.position, m.lastStart.toNat ≤ b.toNat + i →
    m.mem (b + UInt64.ofNat i) = content[i]?

theorem Image.partImage (h : Image b content m) : PartImage b content m where
  area := h.area
  file := h.file
  below := by
    have := h.lastEnd
    have := h.position_le
    have := h.fits
    omega
  position_le := h.position_le
  lastEnd := h.lastEnd
  le_lastStart := h.le_lastStart
  lastStart_le := h.lastStart_le
  aligned := h.aligned
  loads := h.loads

theorem PartImage.image (h : PartImage b content m) (hfits : b.toNat + content.length < 2 ^ 63) :
    Image b content m where
  area := h.area
  file := h.file
  fits := hfits
  position_le := h.position_le
  lastEnd := h.lastEnd
  le_lastStart := h.le_lastStart
  lastStart_le := h.lastStart_le
  aligned := h.aligned
  loads := h.loads

theorem partImage_new {fd : InputFd} (haligned : b.toNat % 4096 = 0) (hbelow : b.toNat < 2 ^ 63)
    (hposition : fd.position = 0) (mmapOk : UInt64 → UInt64 → Bool) :
    PartImage b fd.content (new fd b mmapOk) where
  area := rfl
  file := rfl
  below := hbelow
  position_le := by
    show fd.position ≤ _
    omega
  lastEnd := by
    show b.toNat = b.toNat + fd.position
    omega
  le_lastStart := Nat.le_refl _
  lastStart_le := Nat.le_refl _
  aligned := haligned
  loads i hi := by
    have : i < fd.position := hi
    omega

theorem image_new {fd : InputFd} (haligned : b.toNat % 4096 = 0)
    (hfits : b.toNat + fd.content.length < 2 ^ 63) (hposition : fd.position = 0)
    (mmapOk : UInt64 → UInt64 → Bool) : Image b fd.content (new fd b mmapOk) :=
  (partImage_new haligned (by omega) hposition mmapOk).image hfits

/-- The byte of the file at a place that was read. -/
theorem PartImage.toNat_place (h : PartImage b content m) {i : ℕ} (hi : i < m.fd.position) :
    (b + UInt64.ofNat i).toNat = b.toNat + i := by
  have := h.below
  have := h.lastEnd
  exact MemStream.toNat_add_ofNat (by omega)

/-! ### The parts of `Realize` -/

/-- The pages below an address that is kept. -/
theorem PartImage.le_pageFloor (h : PartImage b content m) (hlt : m.lastStart.toNat ≤ start.toNat) :
    m.lastStart.toNat ≤ (pageFloor start).toNat := by
  have haligned := h.aligned
  rw [toNat_pageFloor]
  omega

/-- Pages are given back. -/
theorem PartImage.drop (h : PartImage b content m) (hlt : m.lastStart.toNat ≤ start.toNat)
    (hend : start ≤ m.lastEnd) : PartImage b content (m.drop start) where
  area := h.area
  file := h.file
  below := h.below
  position_le := h.position_le
  lastEnd := h.lastEnd
  le_lastStart := h.le_lastStart.trans (h.le_pageFloor hlt)
  aligned := by
    show (pageFloor start).toNat % 4096 = 0
    rw [toNat_pageFloor]
    omega
  lastStart_le := by
    have hfloor := toNat_pageFloor start
    have hend' := UInt64.le_iff_toNat_le.mp hend
    show (pageFloor start).toNat ≤ m.lastEnd.toNat
    omega
  loads i hi hkept := by
    have hle := h.le_pageFloor hlt
    change i < m.fd.position at hi
    change (pageFloor start).toNat ≤ b.toNat + i at hkept
    -- a byte at or above the new start is not in the range that is dropped
    have hnot : ¬ (m.lastStart ≤ b + UInt64.ofNat i ∧ b + UInt64.ofNat i < pageFloor start) := by
      rw [UInt64.lt_iff_toNat_lt, h.toNat_place hi]
      omega
    show (if _ then none else m.mem _) = _
    rw [if_neg hnot]
    exact h.loads i hi (by omega)

/-- Fresh pages are mapped behind what was read. -/
theorem PartImage.mapFresh (h : PartImage b content m) {from_ to_ : UInt64}
    (hle : m.lastEnd ≤ from_)
    (heq : m.mapFresh from_ to_ = .ok m') :
    PartImage b content m' ∧ m'.lastStart = m.lastStart ∧ m'.lastEnd = m.lastEnd := by
  unfold FDInputMapper.mapFresh at heq
  split at heq
  · obtain rfl := Except.ok.inj heq
    refine ⟨{ h with loads := fun i hi hkept => ?_ }, rfl, rfl⟩
    have hend := h.lastEnd
    have hle' := UInt64.le_iff_toNat_le.mp hle
    change i < m.fd.position at hi
    have hnot : ¬ (from_ ≤ b + UInt64.ofNat i ∧ b + UInt64.ofNat i < to_) := by
      rw [UInt64.le_iff_toNat_le, h.toNat_place hi]
      omega
    show (if _ then some 0 else m.mem _) = _
    rw [if_neg hnot]
    exact h.loads i hi hkept
  · simp at heq

/-- What a call of `read` delivers is put behind what was read. -/
theorem PartImage.readMore (h : PartImage b content m) {newLastEnd : UInt64}
    (hlt : m.lastEnd < newLastEnd)
    (hroom : b.toNat + content.length < 2 ^ 63 ∨ newLastEnd.toNat < 2 ^ 63) :
    PartImage b content (m.readMore newLastEnd) ∧ (m.readMore newLastEnd).lastStart = m.lastStart ∧
      m.lastEnd ≤ (m.readMore newLastEnd).lastEnd := by
  have hlt' := UInt64.lt_iff_toNat_lt.mp hlt
  have hcount : (newLastEnd - m.lastEnd).toNat = newLastEnd.toNat - m.lastEnd.toNat :=
    UInt64.toNat_sub_of_le _ _ (UInt64.le_of_lt hlt)
  unfold FDInputMapper.readMore
  dsimp only
  split
  · next fd hread =>
    have hposition := InputFd.read_none hread
    have hfile := (InputFd.read_same hread).1.trans h.file
    refine ⟨⟨h.area, hfile, h.below, ?_, ?_, h.le_lastStart, h.lastStart_le, h.aligned, ?_⟩, rfl,
      UInt64.le_refl _⟩
    · rw [hposition]
      exact h.position_le
    · rw [hposition]
      exact h.lastEnd
    · rw [hposition]
      exact h.loads
  · next got fd hread =>
    obtain ⟨hposition, hgot⟩ := InputFd.read_some hread
    have hfile := (InputFd.read_same hread).1.trans h.file
    have hcountLe := InputFd.read_length_le hread (by omega)
    have hend := h.lastEnd
    have hposition_le := h.position_le
    have hstart := h.lastStart_le
    -- the bytes delivered are there
    have hlen : m.fd.position + got.length ≤ content.length := by
      have hlen := congrArg List.length hgot
      rw [List.length_take, List.length_drop, h.file] at hlen
      omega
    have hbelow : m.lastEnd.toNat + got.length < 2 ^ 63 := by
      obtain hfits | hfits := hroom <;> omega
    have hnew : (m.lastEnd + UInt64.ofNat got.length).toNat = m.lastEnd.toNat + got.length :=
      MemStream.toNat_add_ofNat (by omega)
    refine ⟨⟨h.area, hfile, ?_, ?_, ?_, h.le_lastStart, ?_, h.aligned, ?_⟩, rfl, ?_⟩
    · show (m.lastEnd + UInt64.ofNat got.length).toNat < 2 ^ 63
      omega
    · rw [hposition]
      exact hlen
    · rw [hposition]
      show (m.lastEnd + UInt64.ofNat got.length).toNat = _
      omega
    · show m.lastStart.toNat ≤ (m.lastEnd + UInt64.ofNat got.length).toNat
      omega
    · intro i hi hkept
      rw [hposition] at hi
      have hplace : (b + UInt64.ofNat i).toNat = b.toNat + i :=
        MemStream.toNat_add_ofNat (by omega)
      show (if _ then _ else m.mem _) = _
      by_cases hold : i < m.fd.position
      · have hnot : ¬ (m.lastEnd ≤ b + UInt64.ofNat i ∧
            (b + UInt64.ofNat i - m.lastEnd).toNat < got.length) := by
          rw [UInt64.le_iff_toNat_le, hplace]
          omega
        rw [if_neg hnot]
        exact h.loads i hold hkept
      · have hindex : (b + UInt64.ofNat i - m.lastEnd).toNat = i - m.fd.position := by
          rw [UInt64.toNat_sub_of_le _ _ (UInt64.le_iff_toNat_le.mpr (by omega))]
          omega
        have hin : m.lastEnd ≤ b + UInt64.ofNat i ∧
            (b + UInt64.ofNat i - m.lastEnd).toNat < got.length :=
          ⟨UInt64.le_iff_toNat_le.mpr (by omega), by omega⟩
        rw [if_pos hin, hindex, hgot, List.getElem?_take_of_lt (by omega), List.getElem?_drop,
          h.file]
        congr 1
        omega
    · show m.lastEnd ≤ m.lastEnd + UInt64.ofNat got.length
      rw [UInt64.le_iff_toNat_le, hnew]
      exact Nat.le_add_right ..

/-! ### `Realize` -/

/-- The difference of two addresses in the lower half is positive when the first is the larger. -/
theorem toInt64_sub_pos_iff {a c : UInt64} (ha : a.toNat < 2 ^ 63) (hc : c.toNat < 2 ^ 63) :
    (a - c).toInt64 > 0 ↔ c < a := by
  have hnat : (a - c).toNat = (2 ^ 64 - c.toNat + a.toNat) % 2 ^ 64 := UInt64.toNat_sub ..
  have hint : (a - c).toInt64.toInt =
      if 2 * (a - c).toNat < 2 ^ 64 then ((a - c).toNat : ℤ) else ((a - c).toNat : ℤ) - 2 ^ 64 := by
    show (a - c).toBitVec.toInt = _
    rw [BitVec.toInt_eq_toNat_cond]
    rfl
  have hzero : (0 : Int64).toInt = 0 := rfl
  rw [gt_iff_lt, Int64.lt_iff_toInt_lt, hint, hzero, UInt64.lt_iff_toNat_lt]
  split <;> omega

/-- What a call of `Realize` does, part by part. -/
theorem realize_eq_ok (h : m.realize start len = .ok (got, m')) :
    start ≤ m.lastEnd ∧ start ≤ start + len ∧ ∃ m₁ m₂,
      m₁ = (if (start - m.lastStart).toInt64 > 0 then m.drop start else m) ∧
      (m₂ = m₁ ∨ m₁.mapFresh (pageCeil m₁.lastEnd) (pageCeil (start + len)) = .ok m₂) ∧
      m' = (if m₂.lastEnd < pageCeil (start + len) then m₂.readMore (pageCeil (start + len))
        else m₂) ∧ got = m'.lastEnd - start := by
  unfold realize at h
  split at h
  · simp at h
  · next hle =>
    split at h
    · simp at h
    · next hwraps =>
      dsimp only at h
      set m₁ := if (start - m.lastStart).toInt64 > 0 then m.drop start else m with hm₁
      obtain ⟨m₂, hm₂, h⟩ := bind_eq_ok.mp h
      obtain ⟨rfl, rfl⟩ := Prod.mk.inj (Except.ok.inj h)
      refine ⟨UInt64.not_lt.mp hle, UInt64.not_lt.mp hwraps, m₁, m₂, rfl, ?_, rfl, rfl⟩
      clear_value m₁
      split at hm₂
      · exact .inr hm₂
      · exact .inl (Except.ok.inj hm₂).symm

/-- What is read ends where it was asked for at the latest. -/
theorem readMore_lastEnd {newLastEnd : UInt64} (hlt : m.lastEnd < newLastEnd) :
    m.lastEnd ≤ (m.readMore newLastEnd).lastEnd ∧ (m.readMore newLastEnd).lastEnd ≤ newLastEnd := by
  have hlt' := UInt64.lt_iff_toNat_lt.mp hlt
  have hcount : (newLastEnd - m.lastEnd).toNat = newLastEnd.toNat - m.lastEnd.toNat :=
    UInt64.toNat_sub_of_le _ _ (UInt64.le_of_lt hlt)
  unfold FDInputMapper.readMore
  dsimp only
  split
  · exact ⟨UInt64.le_refl _, UInt64.le_of_lt hlt⟩
  · next got fd hread =>
    have hlen := InputFd.read_length_le hread (by omega)
    have hbound := newLastEnd.toNat_lt
    have hnew : (m.lastEnd + UInt64.ofNat got.length).toNat = m.lastEnd.toNat + got.length :=
      MemStream.toNat_add_ofNat (by omega)
    rw [UInt64.le_iff_toNat_le, UInt64.le_iff_toNat_le]
    dsimp only
    rw [hnew]
    omega

/-- **What is there after `Realize`** is what was there and no more than the pages asked for,
whatever the file is. -/
theorem realize_lastEnd (h : m.realize start len = .ok (got, m')) :
    got = m'.lastEnd - start ∧ m.lastEnd ≤ m'.lastEnd ∧
      (m'.lastEnd = m.lastEnd ∨ m'.lastEnd ≤ pageCeil (start + len)) := by
  obtain ⟨-, -, m₁, m₂, hm₁, hm₂, hm', hgot⟩ := realize_eq_ok h
  have h₁ : m₁.lastEnd = m.lastEnd := by
    rw [hm₁]
    split <;> rfl
  have h₂ : m₂.lastEnd = m.lastEnd := by
    rcases hm₂ with rfl | hm₂
    · exact h₁
    · unfold FDInputMapper.mapFresh at hm₂
      split at hm₂
      · obtain rfl := Except.ok.inj hm₂
        exact h₁
      · simp at hm₂
  refine ⟨hgot, ?_⟩
  rw [hm']
  split
  · next hlt =>
    obtain ⟨hmore, hle⟩ := readMore_lastEnd hlt
    rw [h₂] at hmore
    exact ⟨hmore, .inr hle⟩
  · rw [h₂]
    exact ⟨UInt64.le_refl _, .inl rfl⟩

/-- **`Realize`** keeps the image of the file, and gives back pages below `start` only. -/
theorem PartImage.realize (h : PartImage b content m)
    (hroom : b.toNat + content.length < 2 ^ 63 ∨ (pageCeil (start + len)).toNat < 2 ^ 63)
    (hrealize : m.realize start len = .ok (got, m')) :
    PartImage b content m' ∧ m.lastEnd ≤ m'.lastEnd ∧ start ≤ m.lastEnd ∧ got = m'.lastEnd - start ∧
      m'.lastStart = if m.lastStart < start then pageFloor start else m.lastStart := by
  obtain ⟨hle, -, m₁, m₂, hm₁, hm₂, hm', hgot⟩ := realize_eq_ok hrealize
  have hend := h.below
  have hle' := UInt64.le_iff_toNat_le.mp hle
  have hpos := toInt64_sub_pos_iff (hle'.trans_lt hend) (h.lastStart_le.trans_lt hend)
  -- the drop, if the request starts behind the first page
  have h₁ : PartImage b content m₁ ∧ m₁.lastEnd = m.lastEnd ∧
      m₁.lastStart = if m.lastStart < start then pageFloor start else m.lastStart := by
    rw [hm₁]
    by_cases hlt : m.lastStart < start
    · rw [if_pos (hpos.mpr hlt), if_pos hlt]
      have hlt' := UInt64.lt_iff_toNat_lt.mp hlt
      exact ⟨h.drop (Nat.le_of_lt hlt') hle, rfl, rfl⟩
    · rw [if_neg (fun hdrop => hlt (hpos.mp hdrop)), if_neg hlt]
      exact ⟨h, rfl, rfl⟩
  -- fresh pages, if the request ends on another page
  have h₂ : PartImage b content m₂ ∧ m₂.lastEnd = m₁.lastEnd ∧ m₂.lastStart = m₁.lastStart := by
    rcases hm₂ with rfl | hm₂
    · exact ⟨h₁.1, rfl, rfl⟩
    · have hceil : m₁.lastEnd ≤ pageCeil m₁.lastEnd :=
        UInt64.le_iff_toNat_le.mpr (le_pageCeil (by rw [h₁.2.1]; omega))
      obtain ⟨hm, hstart, hsame⟩ := h₁.1.mapFresh hceil hm₂
      exact ⟨hm, hsame, hstart⟩
  have hends : m₂.lastEnd = m.lastEnd := h₂.2.1.trans h₁.2.1
  have hstarts : m₂.lastStart = if m.lastStart < start then pageFloor start else m.lastStart :=
    h₂.2.2.trans h₁.2.2
  rw [hm']
  -- the reading, if the request goes beyond what is there
  split
  · next hlt =>
    obtain ⟨hm, hsame, hmore⟩ := h₂.1.readMore hlt hroom
    rw [hends] at hmore
    refine ⟨hm, hmore, hle, ?_, hsame.trans hstarts⟩
    rw [hgot, hm', if_pos ‹_›]
  · refine ⟨h₂.1, UInt64.le_of_eq hends.symm, hle, ?_, hstarts⟩
    rw [hgot, hm', if_neg ‹_›]

/-- `Realize` keeps the image of a file that there are addresses for. -/
theorem Image.realize (h : Image b content m) (hrealize : m.realize start len = .ok (got, m')) :
    Image b content m' ∧ m.lastEnd ≤ m'.lastEnd ∧ start ≤ m.lastEnd ∧ got = m'.lastEnd - start ∧
      m'.lastStart = if m.lastStart < start then pageFloor start else m.lastStart := by
  obtain ⟨hkept, hrest⟩ := h.partImage.realize (.inl h.fits) hrealize
  exact ⟨hkept.image h.fits, hrest⟩

/-! ### Where nothing is short -/

/-- Every call of `read` delivers all it can, and every mapping is granted. -/
structure Generous (m : FDInputMapper) : Prop where
  reads : ∀ k, ∃ n, m.fd.schedule k = .bytes n ∧ maxRead ≤ n
  mmaps : ∀ from_ size, m.mmapOk from_ size = true

/-- `read` delivers what is asked for, or what is left. -/
theorem Generous.read (hm : Generous m) {count : ℕ} (hpos : 0 < count) (hle : count ≤ maxRead) :
    m.fd.read count = (some ((m.fd.content.drop m.fd.position).take count), { m.fd with
      position := m.fd.position + ((m.fd.content.drop m.fd.position).take count).length
      reads := m.fd.reads + 1 }) := by
  obtain ⟨n, hn, hlong⟩ := hm.reads m.fd.reads
  have hcount : max 1 (min n (min count maxRead)) = count := by omega
  unfold InputFd.read
  rw [hn]
  simp only [hcount]

theorem Generous.realize (hm : Generous m) (h : m.realize start len = .ok (got, m')) :
    Generous m' := by
  obtain ⟨-, -, m₁, m₂, hm₁, hm₂, hm', -⟩ := realize_eq_ok h
  have h₁ : Generous m₁ := by
    rw [hm₁]
    split <;> exact ⟨hm.reads, hm.mmaps⟩
  have h₂ : Generous m₂ := by
    rcases hm₂ with rfl | hm₂
    · exact h₁
    · unfold mapFresh at hm₂
      split at hm₂
      · obtain rfl := Except.ok.inj hm₂
        exact ⟨h₁.reads, h₁.mmaps⟩
      · simp at hm₂
  rw [hm']
  split
  · unfold readMore
    dsimp only
    split
    · next hread => exact ⟨by rw [(InputFd.read_same hread).2]; exact h₂.reads, h₂.mmaps⟩
    · next hread => exact ⟨by rw [(InputFd.read_same hread).2]; exact h₂.reads, h₂.mmaps⟩
  · exact h₂

/-- `Realize` where nothing is short: the file is there as far as was asked for. -/
theorem Image.realize_generous (h : Image b content m) (hm : Generous m)
    (hroom : b.toNat + content.length + 2 ^ 31 ≤ 2 ^ 63) (hstart : start ≤ m.lastEnd)
    (hlen : start.toNat + len.toNat ≤ m.lastEnd.toNat + 2 ^ 30) :
    ∃ got m', m.realize start len = .ok (got, m') ∧
      min (start.toNat + len.toNat) (b.toNat + content.length) ≤ m'.lastEnd.toNat := by
  have hlast := h.lastEnd
  have hposition := h.position_le
  have hsum : (start + len).toNat = start.toNat + len.toNat := by
    rw [UInt64.toNat_add]
    omega
  have hceil : (pageCeil (start + len)).toNat = (start.toNat + len.toNat + 4095) / 4096 * 4096 := by
    rw [toNat_pageCeil (by omega), hsum]
  have hnot : ¬ start > m.lastEnd := UInt64.not_lt.mpr hstart
  have hwraps : ¬ start + len < start := by
    rw [UInt64.lt_iff_toNat_lt, hsum]
    omega
  unfold FDInputMapper.realize
  rw [if_neg hnot, if_neg hwraps]
  dsimp only
  set m₁ := if (start - m.lastStart).toInt64 > 0 then m.drop start else m with hm₁
  have hsame₁ : m₁.fd = m.fd ∧ m₁.lastEnd = m.lastEnd ∧ m₁.mmapOk = m.mmapOk := by
    rw [hm₁]
    split <;> exact ⟨rfl, rfl, rfl⟩
  clear_value m₁
  -- the pages are granted
  obtain ⟨m₂, hm₂, hsame₂⟩ : ∃ m₂, (if pageCeil m₁.lastEnd ≠ pageCeil (start + len) then
      m₁.mapFresh (pageCeil m₁.lastEnd) (pageCeil (start + len)) else .ok m₁) = .ok m₂ ∧
      m₂.fd = m.fd ∧ m₂.lastEnd = m.lastEnd ∧ m₂.mmapOk = m.mmapOk := by
    split
    · have hgranted : m₁.mmapOk (pageCeil m₁.lastEnd)
          (pageCeil (start + len) - pageCeil m₁.lastEnd) = true := by
        rw [hsame₁.2.2]
        exact hm.mmaps _ _
      unfold FDInputMapper.mapFresh
      rw [if_pos hgranted]
      exact ⟨_, rfl, hsame₁⟩
    · exact ⟨m₁, rfl, hsame₁⟩
  rw [hm₂, ok_bind]
  obtain ⟨hfd, hend, hok⟩ := hsame₂
  have hm₂' : Generous m₂ := ⟨by rw [hfd]; exact hm.reads, by rw [hok]; exact hm.mmaps⟩
  refine ⟨_, _, rfl, ?_⟩
  by_cases hmore : m₂.lastEnd < pageCeil (start + len)
  · rw [if_pos hmore]
    rw [hend] at hmore
    have hmore' := UInt64.lt_iff_toNat_lt.mp hmore
    have hcount : (pageCeil (start + len) - m.lastEnd).toNat =
        (pageCeil (start + len)).toNat - m.lastEnd.toNat :=
      UInt64.toNat_sub_of_le _ _ (UInt64.le_of_lt hmore)
    have hread := hm₂'.read (show 0 < (pageCeil (start + len) - m.lastEnd).toNat by omega)
      (by rw [hcount, maxRead]; omega)
    unfold FDInputMapper.readMore
    dsimp only
    rw [hend, hread, hfd, h.file]
    dsimp only
    rw [MemStream.toNat_add_ofNat, List.length_take, List.length_drop]
    · omega
    · rw [List.length_take, List.length_drop]
      omega
  · rw [if_neg hmore]
    have hmore' : (pageCeil (start + len)).toNat ≤ m.lastEnd.toNat := by
      rw [UInt64.not_lt, hend] at hmore
      exact UInt64.le_iff_toNat_le.mp hmore
    rw [hend]
    omega

end FDInputMapper

end MallocTraceReplay
