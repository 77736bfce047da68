import MallocTraceReplay.Stream.Equiv.RecordWindow

/-!
# The part of a file that is kept

A stream over a `FDInputMapper` stands in the part of the file between `last_start_` and `last_end_`
(`InFile`).  Reading a record moves the stream on and leaves `last_start_` alone, so that the buffer
of the record lies in this part (`InFile.next`).  `unrealize_up_to` moves `last_start_` on to a
page, however much of the part is still in use (`InFile.unrealizeUpTo`).
-/

namespace MallocTraceReplay

open MallocTraceEncoder StepMachine FDInputMapper

namespace MemStream

/-- The page below which `unrealize_up_to` gives memory back, when it acts. -/
def unrealizedBelow {M : Type} (s : MemStream M) (ptr : UInt64) : Option UInt64 :=
  if (ptr - s.realizedStart).toInt64 < kUnrealizeStep.toInt64 then none
  else some (pageFloor (ptr - (ptr &&& 4096)))

/-- A stream over the image of a file, between two records. -/
structure InFile (b : UInt64) (content : List UInt8) (s : MemStream FDInputMapper) : Prop where
  image : Image b content s.mapper
  start : s.realizedStart = b
  begin_le : s.begin_ ≤ b
  kept : s.mapper.lastStart ≤ s.ptr
  ptr_le : s.ptr ≤ s.mapper.lastEnd
  end_le : s.end_ ≤ s.mapper.lastEnd
  strict : s.permissiveAdvance = false

/-- A stream that has moved on from `s₀`, while no memory was given back. -/
structure Onward (b : UInt64) (content : List UInt8) (s₀ s : MemStream FDInputMapper) : Prop where
  image : Image b content s.mapper
  start : s.realizedStart = b
  lastStart : s.mapper.lastStart = s₀.mapper.lastStart
  lastEnd_le : s₀.mapper.lastEnd ≤ s.mapper.lastEnd
  end_le : s.end_ ≤ s.mapper.lastEnd
  ptr_le : s₀.ptr ≤ s.ptr
  ptr_le_end : s₀.ptr ≤ s.end_

variable {b ptr : UInt64} {content : List UInt8} {s s₀ s' : MemStream FDInputMapper}

/-! ### Extending the window -/

theorem InFile.begin_le_ptr (h : InFile b content s) : b ≤ s.ptr :=
  UInt64.le_trans (UInt64.le_iff_toNat_le.mpr h.image.le_lastStart) h.kept

/-- The window is extended to the end of what was read, and nothing is given back. -/
theorem realizeMore_image (himage : Image b content s.mapper) (hstart : s.realizedStart = b)
    {amount : UInt64} {ok : Bool} (heq : s.realizeMore amount = .ok (ok, s')) :
    Image b content s'.mapper ∧ s'.mapper.lastStart = s.mapper.lastStart ∧
      s.mapper.lastEnd ≤ s'.mapper.lastEnd ∧ s'.end_ = s'.mapper.lastEnd ∧
      s' = { s with end_ := s'.end_, mapper := s'.mapper } := by
  unfold MemStream.realizeMore at heq
  obtain ⟨⟨got, m'⟩, hrealize, heq⟩ := bind_eq_ok.mp heq
  obtain ⟨-, rfl⟩ := Prod.mk.inj (Except.ok.inj heq)
  obtain ⟨himage', hmore, -, hgot, hlast⟩ := himage.realize hrealize
  have hbegin : ¬ s.mapper.lastStart < s.realizedStart := by
    rw [hstart, UInt64.not_lt, UInt64.le_iff_toNat_le]
    exact himage.le_lastStart
  rw [if_neg hbegin] at hlast
  refine ⟨himage', hlast, hmore, ?_, rfl⟩
  show s.realizedStart + got = m'.lastEnd
  rw [hgot, UInt64.add_comm, UInt64.sub_add_cancel]

/-- **Streams that move on** keep the window, whatever is asked for. -/
theorem windowInvariant_onward :
    WindowInvariant (Onward b content s₀) (fun _ _ => True) fun _ => True where
  beyondEnd := trivial
  fault := trivial
  move h hforward _ := by
    refine ⟨h.image, h.start, h.lastStart, h.lastEnd_le, h.end_le, ?_, h.ptr_le_end⟩
    obtain hforward | hbehind := hforward
    · exact UInt64.le_trans h.ptr_le hforward
    · exact UInt64.le_trans h.ptr_le_end hbehind
  end_lt h := by
    have hend := UInt64.le_iff_toNat_le.mp h.end_le
    have hlast := h.image.partImage.below
    omega
  varintFits _ _ _ := trivial
  extend := by
    intro s amount h hs _ _
    cases hmore : s.realizeMore amount with
    | error e => exact .error trivial
    | ok r =>
      obtain ⟨himage, hlast, hle, hend, heq⟩ := realizeMore_image h.image h.start hmore
      -- the window ends where the mapper ends, which never goes back
      have hend_le : s.end_ ≤ r.2.end_ := by
        rw [hend]
        exact UInt64.le_trans h.end_le hle
      have hmoved : ∀ ptr, s₀.ptr ≤ ptr → Onward b content s₀ { r.2 with ptr := ptr } := by
        intro ptr hptr
        rw [heq]
        exact ⟨himage, h.start, hlast.trans h.lastStart, UInt64.le_trans h.lastEnd_le hle,
          UInt64.le_of_eq hend, hptr, UInt64.le_trans h.ptr_le_end hend_le⟩
      have hsame : r.2.ptr = s.ptr := (realizeMore_same hmore).1
      refine .ok ⟨hend_le, fun _ => hmoved r.2.ptr ?_, fun ptr hforward => hmoved ptr ?_⟩
      · rw [hsame]
        exact h.ptr_le
      · -- behind the block that was asked for, or behind the end: in both cases not before the
        -- start
        obtain ⟨hshown, hforward⟩ | hbehind := hforward
        · have hshows : r.2.ptr ≤ r.2.end_ := by
            rw [hsame]
            exact UInt64.le_trans hs.ptr_le hend_le
          have hadvance := (le_add_of_shown hshows hshown).1
          rw [hsame] at hadvance hforward
          exact UInt64.le_trans h.ptr_le (UInt64.le_trans hadvance hforward)
        · exact UInt64.le_trans h.ptr_le_end (UInt64.le_trans hend_le hbehind)

/-- A stream that has moved on stands in the file as before. -/
theorem InFile.onward (h₀ : InFile b content s₀) (hs : Settled (Onward b content s₀) s) :
    InFile b content s where
  image := hs.inv.image
  start := hs.inv.start
  begin_le := by
    rw [← hs.inv.start]
    exact hs.ordered.begin_le
  kept := by
    rw [hs.inv.lastStart]
    exact UInt64.le_trans h₀.kept hs.inv.ptr_le
  ptr_le := UInt64.le_trans hs.ordered.ptr_le hs.inv.end_le
  end_le := hs.inv.end_le
  strict := hs.strict

/-! ### Records -/

/-- **`has_more`** sets the window right, where memory was given back before. -/
theorem InFile.hasMore (h : InFile b content s) :
    Outcome (fun _ => True) (fun r => Settled (Onward b content s) r.2) s.hasMore := by
  -- a stream of the file stands in the order of its places wherever the window ends
  have hordered : ∀ end_ : UInt64, s.ptr ≤ end_ → ∀ mapper : FDInputMapper,
      Ordered { s with end_ := end_, mapper := mapper } := by
    intro end_ hle mapper
    refine ⟨?_, ?_, hle⟩
    · show s.begin_ ≤ s.realizedStart
      rw [h.start]
      exact h.begin_le
    · show s.realizedStart ≤ s.ptr
      rw [h.start]
      exact h.begin_le_ptr
  unfold MemStream.hasMore
  split
  · -- the window has a byte, and nothing is called
    next hlt =>
    have hle := UInt64.le_of_lt hlt
    exact .ok ⟨⟨h.image, h.start, rfl, UInt64.le_refl _, h.end_le, UInt64.le_refl _, hle⟩,
      hordered s.end_ hle s.mapper, h.strict⟩
  · cases hmore : s.realizeMore 0 with
    | error e => exact .error trivial
    | ok r =>
      obtain ⟨himage, hlast, hle, hend, heq⟩ := realizeMore_image h.image h.start hmore
      have hptr : s.ptr ≤ r.2.end_ := by
        rw [hend]
        exact UInt64.le_trans h.ptr_le hle
      refine .ok ?_
      show Settled (Onward b content s) r.2
      rw [heq]
      exact ⟨⟨himage, h.start, hlast, hle, UInt64.le_of_eq hend, UInt64.le_refl _, hptr⟩,
        hordered r.2.end_ hptr r.2.mapper, h.strict⟩

/-- **A record**: the stream moves on, and a buffer lies in the part that is kept. -/
theorem InFile.next (h : InFile b content s) {stack : StackBytes} {ev ev' : OuterEvent} {ok : Bool}
    (heq : s.next stack ev = .ok (ok, ev', s')) :
    InFile b content s' ∧ s'.mapper.lastStart = s.mapper.lastStart ∧
      s.mapper.lastEnd ≤ s'.mapper.lastEnd ∧ s.ptr ≤ s'.ptr ∧
      (ok = true → ev'.type = .buf → s'.mapper.lastStart ≤ ev'.bufStart ∧ ev'.bufEnd = s'.ptr) := by
  have hJ : WindowInvariant (Onward b content s) _ _ := windowInvariant_onward
  obtain ⟨hs', hbuf⟩ := (hJ.next trivial h.hasMore (fun _ _ _ => trivial) ev).of_ok heq
  refine ⟨h.onward hs', hs'.inv.lastStart, hs'.inv.lastEnd_le, hs'.inv.ptr_le, fun hok htype => ?_⟩
  obtain ⟨⟨s₁, hs₁, hstart⟩, hend⟩ := hbuf hok htype
  refine ⟨?_, hend⟩
  -- the buffer starts at a later place than the stream did
  rw [hs'.inv.lastStart, hstart]
  exact UInt64.le_trans h.kept hs₁.inv.ptr_le

/-! ### Giving memory back -/

/-- The page below an address, or the one that is kept from on already. -/
theorem max_pageFloor {start lastStart : UInt64} (haligned : lastStart.toNat % 4096 = 0) :
    (if lastStart < start then pageFloor start else lastStart) =
      max (pageFloor start) lastStart := by
  apply UInt64.toNat_inj.mp
  rw [toNat_max]
  have hfloor := toNat_pageFloor start
  split
  · next hlt =>
    rw [UInt64.lt_iff_toNat_lt] at hlt
    omega
  · next hnot =>
    rw [UInt64.lt_iff_toNat_lt] at hnot
    omega

/-- Where `unrealize_up_to` acts, the page is less than two pages before the place it is given. -/
theorem exists_unrealizedBelow (hlow : s.realizedStart.toNat + 2 ^ 27 ≤ ptr.toNat)
    (hptr : ptr.toNat < 2 ^ 63) :
    ∃ page, s.unrealizedBelow ptr = some page ∧ ptr.toNat < page.toNat + 2 * 4096 := by
  have hdiff : (ptr - s.realizedStart).toNat = ptr.toNat - s.realizedStart.toNat :=
    UInt64.toNat_sub_of_le _ _ (UInt64.le_iff_toNat_le.mpr (by omega))
  have hpage := sub_and_4096 ptr
  unfold unrealizedBelow
  rw [if_neg (not_idle_iff.mpr (by omega))]
  refine ⟨_, rfl, ?_⟩
  rw [toNat_pageFloor]
  omega

/-- **`unrealize_up_to`** keeps the stream in the file.  When it acts, the part that is kept starts
at the page of the place it is given, or where it started before. -/
theorem InFile.unrealizeUpTo (h : InFile b content s) {ndebug : Bool}
    (hlow : b ≤ ptr) (hptr : ptr ≤ s.ptr) (heq : s.unrealizeUpTo ndebug ptr = .ok s') :
    InFile b content s' ∧ s'.ptr = s.ptr ∧ s.mapper.lastEnd ≤ s'.mapper.lastEnd ∧
      s'.mapper.lastStart =
        (s.unrealizedBelow ptr).elim s.mapper.lastStart (max · s.mapper.lastStart) := by
  unfold MemStream.unrealizeUpTo at heq
  obtain ⟨-, -, heq⟩ := bind_eq_ok.mp heq
  unfold unrealizedBelow
  split at heq
  · next hidle =>
    obtain rfl := Except.ok.inj heq
    rw [if_pos hidle]
    exact ⟨h, rfl, UInt64.le_refl _, rfl⟩
  · next hacts =>
    rw [if_neg hacts]
    have hfar := (not_idle_iff.mp hacts).1
    rw [h.start, UInt64.toNat_sub_of_le _ _ hlow] at hfar
    have hpage := sub_and_4096 ptr
    dsimp only at heq ⊢
    generalize ptr - (ptr &&& 4096) = start at heq hpage ⊢
    obtain ⟨⟨got, m'⟩, hrealize, heq⟩ := bind_eq_ok.mp heq
    obtain ⟨himage, hmore, hstart, hgot, hlast⟩ := h.image.realize hrealize
    rw [max_pageFloor h.image.aligned] at hlast
    dsimp only at heq
    split at heq
    · simp at heq
    · obtain rfl := Except.ok.inj heq
      have hptr' := UInt64.le_iff_toNat_le.mp hptr
      have hfrom := UInt64.le_trans hstart hmore
      have hfrom' := UInt64.le_iff_toNat_le.mp hfrom
      refine ⟨⟨himage, h.start, h.begin_le, ?_, UInt64.le_trans h.ptr_le hmore, ?_, h.strict⟩, rfl,
        hmore, hlast⟩
      · -- the page is not behind the place of the stream
        show m'.lastStart ≤ s.ptr
        have hkept := UInt64.le_iff_toNat_le.mp h.kept
        rw [hlast, UInt64.le_iff_toNat_le, toNat_max, toNat_pageFloor]
        omega
      · show s.realizedStart + got ≤ m'.lastEnd
        have hlt := m'.lastEnd.toNat_lt
        rw [h.start, hgot, UInt64.le_iff_toNat_le, UInt64.toNat_add,
          UInt64.toNat_sub_of_le _ _ hfrom]
        omega

end MemStream

end MallocTraceReplay
