import MallocTraceReplay.Replay.Main
import MallocTraceReplay.Stream.Equiv.FDInputMapper

/-!
# Correctness of the main loop of replay

What a reader is still to give is its window and what is left of the file (`Reader.rest`).
`refill_buffer` keeps it and has the window show an instruction, if there is a whole one
(`Reader.refillBuffer_spec`), and `buffer_read` takes the instruction off (`Reader.bufferRead_safe`,
`Reader.bufferRead_ends`).  So `main` replays the instructions of the input, however it is cut into
reads (`Main.run_replays`).
-/

namespace MallocTraceReplay.Replay

open StepMachine

/-! ### The buffer -/

namespace Reader

variable {r r' : Reader} {fuel totalRead amount : ℕ}

theorem bufferSize_eq : bufferSize = 16777216 := by decide

/-- What is in the buffer and not taken. -/
def window (r : Reader) : List UInt8 := Buffer.slice r.buffer r.bufPtr (r.bufEnd - r.bufPtr)

/-- What is left of the file. -/
def unread (r : Reader) : List UInt8 := r.fd.content.drop r.fd.position

/-- What the reader is still to give. -/
def rest (r : Reader) : List UInt8 := r.window ++ r.unread

/-- The window is in the buffer. -/
structure Good (r : Reader) : Prop where
  ptr_le : r.bufPtr ≤ r.bufEnd
  end_le : r.bufEnd ≤ bufferSize

theorem length_window : r.window.length = r.bufEnd - r.bufPtr := Buffer.length_slice ..

theorem length_rest : r.rest.length = r.bufEnd - r.bufPtr + r.unread.length := by
  rw [rest, List.length_append, length_window]

theorem inBuffer_ok {place amount : ℕ} (h : place + amount ≤ bufferSize) :
    inBuffer place amount = .ok () := if_pos h

/-- The same bytes are still to be given, of the same file. -/
structure Keeps (r r' : Reader) : Prop where
  good : r'.Good
  rest : r'.rest = r.rest
  schedule : r'.fd.schedule = r.fd.schedule

theorem Keeps.trans {r'' : Reader} (h : Keeps r r') (h' : Keeps r' r'') : Keeps r r'' :=
  ⟨h'.good, h'.rest.trans h.rest, h'.schedule.trans h.schedule⟩

/-- **Rebasing** moves the window to the beginning of the buffer: it is short, and far from
there. -/
theorem rebase_spec (h : r.Good) (hshort : r.bufEnd - r.bufPtr < sizeofInstruction)
    (hfull : bufferSize - r.bufEnd < kMinBufSizeToRebase) :
    ∃ r', r.rebase = .ok r' ∧ Keeps r r' ∧ r'.fd = r.fd ∧ r'.bufEnd = r.bufEnd - r.bufPtr := by
  have hptr := h.ptr_le
  have hend := h.end_le
  have hsize := bufferSize_eq
  unfold sizeofInstruction at hshort
  unfold kMinBufSizeToRebase kMinReadAmount at hfull
  set moved := Buffer.slice r.buffer r.bufPtr (r.bufEnd - r.bufPtr) with hmoved
  refine ⟨{ r with
    buffer := Buffer.store r.buffer 0 moved, bufPtr := 0, bufEnd := r.bufEnd - r.bufPtr }, ?_,
    ⟨⟨Nat.zero_le _, by show r.bufEnd - r.bufPtr ≤ _; omega⟩, ?_, rfl⟩, rfl, rfl⟩
  · unfold rebase
    rw [if_neg (by omega)]
    dsimp only
    rw [if_neg (by omega), inBuffer_ok (by omega)]
    rfl
  · have hlength : moved.length = r.bufEnd - r.bufPtr := Buffer.length_slice ..
    have hwindow : Buffer.slice (Buffer.store r.buffer 0 moved) 0 (r.bufEnd - r.bufPtr) =
        moved := by
      rw [← hlength]
      exact Buffer.slice_store ..
    show Buffer.slice _ 0 (r.bufEnd - r.bufPtr - 0) ++ _ = _
    rw [Nat.sub_zero, hwindow]
    rfl

/-- Some bytes are read behind the window. -/
theorem keeps_store (h : r.Good) {fd : InputFd} {got : List UInt8}
    (hread : r.fd.read (bufferSize - r.bufEnd) = (some got, fd))
    (hfits : r.bufEnd + got.length ≤ bufferSize) :
    Keeps r { r with
      buffer := Buffer.store r.buffer r.bufEnd got, bufEnd := r.bufEnd + got.length,
      fd := fd } := by
  have hptr := h.ptr_le
  obtain ⟨hcontent, hschedule⟩ := InputFd.read_same hread
  obtain ⟨hposition, hgot⟩ := InputFd.read_some hread
  refine ⟨⟨by show r.bufPtr ≤ r.bufEnd + _; omega, hfits⟩, ?_, ?_⟩
  · have hsplit : r.bufEnd + got.length - r.bufPtr = r.bufEnd - r.bufPtr + got.length := by omega
    have hplace : r.bufPtr + (r.bufEnd - r.bufPtr) = r.bufEnd := by omega
    have hunread : got ++ fd.content.drop fd.position = r.unread := by
      calc got ++ fd.content.drop fd.position
          = r.unread.take got.length ++ fd.content.drop fd.position := congrArg (· ++ _) hgot
        _ = r.unread.take got.length ++ r.unread.drop got.length := by
            rw [hcontent, hposition, ← List.drop_drop]
            rfl
        _ = r.unread := List.take_append_drop ..
    show Buffer.slice (Buffer.store r.buffer r.bufEnd got) r.bufPtr
      (r.bufEnd + got.length - r.bufPtr) ++ fd.content.drop fd.position = _
    rw [hsplit, Buffer.slice_add, Buffer.slice_store_of_le (by omega), hplace, Buffer.slice_store,
      List.append_assoc, hunread]
    rfl
  · exact hschedule

/-! ### The loop of `refill_buffer` -/

/-- The loop is left with enough bytes, or at the end of the file. -/
structure Filled (r : Reader) (totalRead : ℕ) (r' : Reader) : Prop where
  keeps : Keeps r r'
  ptr : r'.bufPtr = r.bufPtr
  end_le : r.bufEnd ≤ r'.bufEnd
  enough : kMinReadAmount ≤ totalRead + (r'.bufEnd - r.bufEnd) ∨ r'.unread = []

/-- The loop goes on after a call of `read` that fails or that delivers too little. -/
structure GoesOn (r : Reader) (totalRead : ℕ) (r' : Reader) (totalRead' : ℕ) : Prop where
  keeps : Keeps r r'
  ptr : r'.bufPtr = r.bufPtr
  total : totalRead' = totalRead + (r'.bufEnd - r.bufEnd)
  end_le : r.bufEnd ≤ r'.bufEnd
  less : totalRead' < kMinReadAmount
  progress : totalRead < totalRead' ∨
    totalRead' = totalRead ∧ r.fd.schedule r.fd.reads = .eintr ∧ r'.fd.reads = r.fd.reads + 1

theorem Filled.of_goesOn {r₁ : Reader} {totalRead₁ : ℕ} (h : GoesOn r totalRead r₁ totalRead₁)
    (h' : Filled r₁ totalRead₁ r') : Filled r totalRead r' := by
  have htotal := h.total
  have hle := h.end_le
  have hle' := h'.end_le
  refine ⟨h.keeps.trans h'.keeps, h'.ptr.trans h.ptr, by omega, ?_⟩
  obtain hmin | hend := h'.enough
  · unfold kMinReadAmount at hmin ⊢
    left
    omega
  · exact Or.inr hend

/-- **One call of `read`**: it is of some length and stays within the buffer, and the loop is
left or goes on. -/
theorem readLoop_succ (h : r.Good) (htotal : totalRead < kMinReadAmount)
    (hroom : kMinReadAmount ≤ bufferSize - r.bufEnd + totalRead) :
    (∃ r', Filled r totalRead r' ∧ ∀ fuel, readLoop (fuel + 1) totalRead r = .ok r') ∨
      ∃ r' totalRead', GoesOn r totalRead r' totalRead' ∧
        ∀ fuel, readLoop (fuel + 1) totalRead r = readLoop fuel totalRead' r' := by
  have hend := h.end_le
  have hpos : 0 < bufferSize - r.bufEnd := by
    unfold kMinReadAmount at htotal hroom
    omega
  -- neither test at the head of the loop stops it
  have hloop : ∀ fuel, readLoop (fuel + 1) totalRead r = readLoop (fuel + 1) totalRead r :=
    fun _ => rfl
  conv at hloop => intro fuel; rhs; rw [readLoop, if_neg (by omega), if_neg (by omega)]
  cases hread : r.fd.read (bufferSize - r.bufEnd) with
  | mk got? fd =>
    obtain ⟨hcontent, hschedule⟩ := InputFd.read_same hread
    rw [hread] at hloop
    cases got? with
    | none =>
      -- a signal: nothing was read, and the loop goes on
      obtain ⟨heintr, hreads⟩ := InputFd.read_eintr hread
      have hposition := InputFd.read_none hread
      right
      refine ⟨{ r with fd := fd }, totalRead, ⟨⟨⟨h.ptr_le, h.end_le⟩, ?_, hschedule⟩, rfl, ?_,
        Nat.le_refl _, htotal, Or.inr ⟨rfl, heintr, hreads⟩⟩, fun fuel => ?_⟩
      · show r.window ++ fd.content.drop fd.position = _
        rw [hcontent, hposition]
        rfl
      · show totalRead = totalRead + (r.bufEnd - r.bufEnd)
        omega
      · rw [hloop]
        dsimp only
        rw [if_pos htotal]
    | some got =>
      have hlength := InputFd.read_length_le hread hpos
      have hkeeps := keeps_store h hread (by omega)
      cases got with
      | nil =>
        -- the end of the input
        have hposition := (InputFd.read_some hread).1
        have heof := InputFd.read_eof hread
        left
        refine ⟨{ r with fd := fd }, ⟨⟨⟨h.ptr_le, h.end_le⟩, ?_, hschedule⟩, rfl, Nat.le_refl _,
          Or.inr ?_⟩, fun fuel => hloop fuel⟩
        · show r.window ++ fd.content.drop fd.position = _
          rw [hcontent, hposition]
          rfl
        · show fd.content.drop fd.position = []
          rw [hcontent, hposition]
          exact heof
      | cons byte more =>
        -- some bytes, which have room in the buffer
        have hfits : r.bufEnd + (byte :: more).length ≤ bufferSize := by omega
        have hgot : 0 < (byte :: more).length := Nat.zero_lt_succ _
        simp only [inBuffer_ok hfits, ok_bind] at hloop
        -- too few of them for the loop to end
        by_cases hless : totalRead + (byte :: more).length < kMinReadAmount
        · right
          refine ⟨_, totalRead + (byte :: more).length, ⟨hkeeps, rfl, ?_, Nat.le_add_right _ _,
            hless, Or.inl (by omega)⟩, fun fuel => ?_⟩
          · show _ = totalRead + (r.bufEnd + (byte :: more).length - r.bufEnd)
            omega
          · rw [hloop, if_pos hless]
        · -- enough of them
          left
          refine ⟨_, ⟨hkeeps, rfl, Nat.le_add_right _ _, Or.inl ?_⟩, fun fuel => ?_⟩
          · show _ ≤ totalRead + (r.bufEnd + (byte :: more).length - r.bufEnd)
            omega
          · rw [hloop, if_neg hless]
            rfl

theorem GoesOn.room {totalRead' : ℕ} (hgoes : GoesOn r totalRead r' totalRead')
    (hroom : kMinReadAmount ≤ bufferSize - r.bufEnd + totalRead) :
    kMinReadAmount ≤ bufferSize - r'.bufEnd + totalRead' := by
  have htotal := hgoes.total
  have hle := hgoes.end_le
  have hend' := hgoes.keeps.good.end_le
  omega

/-- **The loop is safe**: it fills the buffer, unless it never ends. -/
theorem readLoop_safe (fuel : ℕ) (h : r.Good) (htotal : totalRead < kMinReadAmount)
    (hroom : kMinReadAmount ≤ bufferSize - r.bufEnd + totalRead) :
    readLoop fuel totalRead r = .error .outOfFuel ∨
      ∃ r', Filled r totalRead r' ∧ readLoop fuel totalRead r = .ok r' := by
  induction fuel generalizing r totalRead with
  | zero => exact Or.inl rfl
  | succ fuel ih =>
    obtain ⟨r', hfilled, heq⟩ | ⟨r₁, totalRead₁, hgoes, heq⟩ := readLoop_succ h htotal hroom
    · exact Or.inr ⟨r', hfilled, heq fuel⟩
    · rw [heq]
      obtain hout | ⟨r', hfilled, hr'⟩ := ih hgoes.keeps.good hgoes.less (hgoes.room hroom)
      · exact Or.inl hout
      · exact Or.inr ⟨r', hfilled.of_goesOn hgoes, hr'⟩

/-- The calls of `read` do not fail for ever. -/
def Delivers (fd : InputFd) : Prop := ∀ k, ∃ j, fd.schedule (k + j) ≠ .eintr

/-- **The loop ends**, when the calls of `read` do not fail for ever. -/
theorem readLoop_ends (hdelivers : Delivers r.fd) (h : r.Good) (htotal : totalRead < kMinReadAmount)
    (hroom : kMinReadAmount ≤ bufferSize - r.bufEnd + totalRead) :
    ∃ bound r', Filled r totalRead r' ∧ ∀ fuel ≥ bound, readLoop fuel totalRead r = .ok r' := by
  -- on what is missing, and then on the failures before the next call that delivers
  induction hmissing : kMinReadAmount - totalRead using Nat.strong_induction_on
    generalizing r totalRead with
  | _ missing ih =>
    obtain ⟨j, hj⟩ := hdelivers r.fd.reads
    induction j generalizing r with
    | zero =>
      obtain ⟨r', hfilled, heq⟩ | ⟨r₁, totalRead₁, hgoes, heq⟩ := readLoop_succ h htotal hroom
      · refine ⟨1, r', hfilled, fun fuel hfuel => ?_⟩
        obtain ⟨fuel, rfl⟩ := Nat.exists_eq_add_of_le' hfuel
        exact heq fuel
      · obtain hmore | ⟨-, heintr, -⟩ := hgoes.progress
        · have hless := hgoes.less
          have hdelivers₁ : Delivers r₁.fd := fun k => by
            rw [hgoes.keeps.schedule]
            exact hdelivers k
          obtain ⟨bound, r', hfilled, hbound⟩ := ih (kMinReadAmount - totalRead₁) (by omega)
            hdelivers₁ hgoes.keeps.good hless (hgoes.room hroom) rfl
          refine ⟨bound + 1, r', hfilled.of_goesOn hgoes, fun fuel hfuel => ?_⟩
          obtain ⟨fuel, rfl⟩ := Nat.exists_eq_add_of_le' (Nat.le_of_add_left_le hfuel)
          rw [heq]
          exact hbound fuel (by omega)
        · exact absurd heintr hj
    | succ j ihj =>
      obtain ⟨r', hfilled, heq⟩ | ⟨r₁, totalRead₁, hgoes, heq⟩ := readLoop_succ h htotal hroom
      · refine ⟨1, r', hfilled, fun fuel hfuel => ?_⟩
        obtain ⟨fuel, rfl⟩ := Nat.exists_eq_add_of_le' hfuel
        exact heq fuel
      · have hdelivers₁ : Delivers r₁.fd := fun k => by
          rw [hgoes.keeps.schedule]
          exact hdelivers k
        have hrest : ∃ bound r', Filled r₁ totalRead₁ r' ∧
            ∀ fuel ≥ bound, readLoop fuel totalRead₁ r₁ = .ok r' := by
          obtain hmore | ⟨hsame, -, hreads⟩ := hgoes.progress
          · have hless := hgoes.less
            exact ih (kMinReadAmount - totalRead₁) (by omega) hdelivers₁ hgoes.keeps.good hless
              (hgoes.room hroom) rfl
          · have hroom₁ := hgoes.room hroom
            rw [hsame] at hroom₁ ⊢
            refine ihj hdelivers₁ hgoes.keeps.good hroom₁ ?_
            rw [hgoes.keeps.schedule, hreads, Nat.add_assoc, Nat.add_comm 1]
            exact hj
        obtain ⟨bound, r', hfilled, hbound⟩ := hrest
        refine ⟨bound + 1, r', hfilled.of_goesOn hgoes, fun fuel hfuel => ?_⟩
        obtain ⟨fuel, rfl⟩ := Nat.exists_eq_add_of_le' (Nat.le_of_add_left_le hfuel)
        rw [heq]
        exact hbound fuel (by omega)

/-! ### `buffer_read` -/

/-- `refill_buffer` is its loop, on a buffer with room for what it wants to read. -/
theorem refillBuffer_spec (h : r.Good) (hshort : r.bufEnd - r.bufPtr < sizeofInstruction) :
    ∃ r₁, Keeps r r₁ ∧ r₁.fd = r.fd ∧ kMinReadAmount ≤ bufferSize - r₁.bufEnd + 0 ∧
      ∀ fuel, r.refillBuffer fuel = readLoop fuel 0 r₁ := by
  have hsize := bufferSize_eq
  by_cases hfull : bufferSize - r.bufEnd < kMinBufSizeToRebase
  · obtain ⟨r₁, hrebase, hkeeps, hfd, hend⟩ := rebase_spec h hshort hfull
    refine ⟨r₁, hkeeps, hfd, ?_, fun fuel => ?_⟩
    · unfold sizeofInstruction at hshort
      unfold kMinReadAmount
      omega
    · rw [refillBuffer, if_pos hfull, hrebase]
      rfl
  · refine ⟨r, ⟨h, rfl, rfl⟩, rfl, ?_, fun fuel => ?_⟩
    · unfold kMinBufSizeToRebase at hfull
      omega
    · rw [refillBuffer, if_neg hfull]
      rfl

/-- What `buffer_read` of an instruction gives: the instruction at the front, if it is whole. -/
structure Takes (r : Reader) (bytes? : Option (List UInt8)) (r' : Reader) : Prop where
  good : r'.Good
  schedule : r'.fd.schedule = r.fd.schedule
  some : sizeofInstruction ≤ r.rest.length →
    bytes? = some (r.rest.take sizeofInstruction) ∧ r'.rest = r.rest.drop sizeofInstruction
  none : r.rest.length < sizeofInstruction → bytes? = none

theorem Takes.of_keeps {r₁ : Reader} {bytes? : Option (List UInt8)} (h : Keeps r r₁)
    (h' : Takes r₁ bytes? r') : Takes r bytes? r' := by
  obtain ⟨hgood, hschedule, hsome, hnone⟩ := h'
  rw [h.rest] at hsome hnone
  exact ⟨hgood, hschedule.trans h.schedule, hsome, hnone⟩

/-- The instruction is in the window. -/
theorem takes_window (h : r.Good) (hin : r.bufPtr + sizeofInstruction ≤ r.bufEnd) :
    Takes r (some (Buffer.slice r.buffer r.bufPtr sizeofInstruction))
      { r with bufPtr := r.bufPtr + sizeofInstruction } := by
  obtain ⟨more, hmore⟩ := Nat.exists_eq_add_of_le hin
  have hwindow : r.window = Buffer.slice r.buffer r.bufPtr sizeofInstruction ++
      Buffer.slice r.buffer (r.bufPtr + sizeofInstruction) more := by
    rw [window, ← Buffer.slice_add]
    congr 1
    omega
  have hrest : r.rest = Buffer.slice r.buffer r.bufPtr sizeofInstruction ++
      (Buffer.slice r.buffer (r.bufPtr + sizeofInstruction) more ++ r.unread) := by
    rw [rest, hwindow, List.append_assoc]
  have hlength := Buffer.length_slice r.buffer r.bufPtr sizeofInstruction
  refine ⟨⟨hin, h.end_le⟩, rfl, fun _ => ⟨?_, ?_⟩, fun hshort => ?_⟩
  · rw [hrest, List.take_append_of_le_length (Nat.le_of_eq hlength.symm),
      List.take_of_length_le (Nat.le_of_eq hlength)]
  · rw [hrest, List.drop_append_of_le_length (Nat.le_of_eq hlength.symm),
      List.drop_of_length_le (Nat.le_of_eq hlength), List.nil_append]
    show Buffer.slice r.buffer (r.bufPtr + sizeofInstruction)
      (r.bufEnd - (r.bufPtr + sizeofInstruction)) ++ _ = _
    rw [hmore, Nat.add_sub_cancel_left]
    rfl
  · rw [length_rest] at hshort
    omega

/-- What `buffer_read` does once the buffer shows enough. -/
theorem bufferRead_window (h : r.Good)
    (henough : r.bufPtr + sizeofInstruction ≤ r.bufEnd ∨ r.unread = []) :
    ∃ bytes? r', Takes r bytes? r' ∧
      (if r.bufPtr + sizeofInstruction > r.bufEnd then Except.ok (none, r)
        else do
          inBuffer r.bufPtr sizeofInstruction
          return (some (Buffer.slice r.buffer r.bufPtr sizeofInstruction),
            { r with bufPtr := r.bufPtr + sizeofInstruction })) = .ok (bytes?, r') := by
  have hptr := h.ptr_le
  by_cases hin : r.bufPtr + sizeofInstruction ≤ r.bufEnd
  · refine ⟨_, _, takes_window h hin, ?_⟩
    rw [if_neg (by omega), inBuffer_ok (hin.trans h.end_le)]
    rfl
  · have hend := henough.resolve_left hin
    have hshort : r.rest.length < sizeofInstruction := by
      rw [length_rest, hend, List.length_nil]
      omega
    refine ⟨none, r, ⟨h, rfl, fun hle => ?_, fun _ => rfl⟩, if_pos (by omega)⟩
    omega

theorem Filled.enough_window (h : r.Good) (hfilled : Filled r 0 r') :
    r'.bufPtr + sizeofInstruction ≤ r'.bufEnd ∨ r'.unread = [] := by
  have hptr := h.ptr_le
  have hsame := hfilled.ptr
  obtain hmin | hend := hfilled.enough
  · unfold kMinReadAmount at hmin
    unfold sizeofInstruction
    left
    omega
  · exact Or.inr hend

/-- **`buffer_read` is safe**: it takes the instruction at the front, unless it never ends. -/
theorem bufferRead_safe (fuel : ℕ) (h : r.Good) :
    r.bufferRead fuel sizeofInstruction = .error .outOfFuel ∨
      ∃ bytes? r', Takes r bytes? r' ∧ r.bufferRead fuel sizeofInstruction = .ok (bytes?, r') := by
  have hptr := h.ptr_le
  by_cases hin : r.bufPtr + sizeofInstruction ≤ r.bufEnd
  · obtain ⟨bytes?, r', htakes, heq⟩ := bufferRead_window h (Or.inl hin)
    refine Or.inr ⟨bytes?, r', htakes, ?_⟩
    rw [bufferRead, if_neg (by omega)]
    exact heq
  · obtain ⟨r₁, hkeeps, hfd, hroom, hrefill⟩ := refillBuffer_spec h (by omega)
    rw [bufferRead, if_pos (by omega), hrefill]
    obtain hout | ⟨r₂, hfilled, hr₂⟩ := readLoop_safe fuel hkeeps.good (by decide) hroom
    · left
      rw [hout]
      rfl
    · obtain ⟨bytes?, r', htakes, heq⟩ :=
        bufferRead_window hfilled.keeps.good (hfilled.enough_window hkeeps.good)
      refine Or.inr ⟨bytes?, r', (htakes.of_keeps hfilled.keeps).of_keeps hkeeps, ?_⟩
      rw [hr₂]
      exact heq

/-- **`buffer_read` ends**, when the calls of `read` do not fail for ever. -/
theorem bufferRead_ends (hdelivers : Delivers r.fd) (h : r.Good) :
    ∃ bound bytes? r', Takes r bytes? r' ∧
      ∀ fuel ≥ bound, r.bufferRead fuel sizeofInstruction = .ok (bytes?, r') := by
  have hptr := h.ptr_le
  by_cases hin : r.bufPtr + sizeofInstruction ≤ r.bufEnd
  · obtain ⟨bytes?, r', htakes, heq⟩ := bufferRead_window h (Or.inl hin)
    refine ⟨0, bytes?, r', htakes, fun fuel _ => ?_⟩
    rw [bufferRead, if_neg (by omega)]
    exact heq
  · obtain ⟨r₁, hkeeps, hfd, hroom, hrefill⟩ := refillBuffer_spec h (by omega)
    obtain ⟨bound, r₂, hfilled, hr₂⟩ :=
      readLoop_ends (by rw [hfd]; exact hdelivers) hkeeps.good (by decide) hroom
    obtain ⟨bytes?, r', htakes, heq⟩ :=
      bufferRead_window hfilled.keeps.good (hfilled.enough_window hkeeps.good)
    refine ⟨bound, bytes?, r', (htakes.of_keeps hfilled.keeps).of_keeps hkeeps,
      fun fuel hfuel => ?_⟩
    rw [bufferRead, if_pos (by omega), hrefill, hr₂ fuel hfuel]
    exact heq

end Reader

/-! ### `main` -/

/-- The instructions replayed one after another. -/
def replayBlocks (a : Allocator) (s : State) (blocks : List (List UInt8)) : Except MainStop State :=
  blocks.foldlM (replayBytes a) s

/-- An error of `replay_instruction`. -/
def MainStop.IsReplay : MainStop → Prop
  | .replay _ | .unknownType => True
  | .noInstruction | .outOfBounds | .emptyRead | .outOfFuel => False

theorem isReplay_of_replayBytes {a : Allocator} {s : State} {bytes : List UInt8} {e : MainStop}
    (h : replayBytes a s bytes = .error e) : e.IsReplay := by
  unfold replayBytes at h
  split at h
  · rw [← Except.error.inj h]
    trivial
  · split at h
    · rw [← Except.error.inj h]
      trivial
    · simp at h

theorem replayBlocks_concat (a : Allocator) (s : State) (blocks : List (List UInt8))
    (bytes : List UInt8) :
    replayBlocks a s (blocks ++ [bytes]) =
      replayBlocks a s blocks >>= fun s => replayBytes a s bytes := by
  rw [replayBlocks, List.foldlM_append]
  congr 1
  funext s
  rw [List.foldlM_cons]
  cases replayBytes a s bytes <;> rfl

theorem isReplay_of_replayBlocks {a : Allocator} {s : State} {blocks : List (List UInt8)}
    {e : MainStop} (h : replayBlocks a s blocks = .error e) : e.IsReplay := by
  induction blocks using List.reverseRecOn with
  | nil => simp [replayBlocks] at h
  | append_singleton blocks bytes ih =>
    rw [replayBlocks_concat] at h
    obtain h | ⟨s', -, h⟩ := bind_eq_error.mp h
    · exact ih h
    · exact isReplay_of_replayBytes h

namespace Main

variable {a : Allocator} {blocks : List (List UInt8)} {stray bytes : List UInt8} {fd : InputFd}
  {m m' : Main} {k fuel : ℕ}

/-- `main` after `k` iterations: it has replayed the first `k` instructions, and reads one ahead. -/
structure At (a : Allocator) (blocks : List (List UInt8)) (stray : List UInt8) (fd : InputFd)
    (k : ℕ)
    (m : Main) : Prop where
  state : replayBlocks a .init (blocks.take k) = .ok m.state
  replayed : m.replayed = blocks.take k
  returned : m.returned = decide (blocks.length ≤ k)
  total : m.totalInstructions = m.replayed.length
  next : ∀ bytes, blocks[k]? = some bytes → m.nextInstr = bytes ∧ m.reader.Good ∧
    m.reader.rest = (blocks.drop (k + 1)).flatten ++ stray
  schedule : m.reader.fd.schedule = fd.schedule

/-- What `buffer_read` gives before whole instructions, or before the stray bytes. -/
theorem takes_blocks {r r' : Reader} {bytes? : Option (List UInt8)} {blocks : List (List UInt8)}
    (hblocks : ∀ bytes ∈ blocks, bytes.length = sizeofInstruction)
    (hstray : stray.length < sizeofInstruction) (hrest : r.rest = blocks.flatten ++ stray)
    (htakes : r.Takes bytes? r') :
    bytes? = blocks.head? ∧ (blocks ≠ [] → r'.rest = blocks.tail.flatten ++ stray) := by
  cases blocks with
  | nil =>
    refine ⟨htakes.none ?_, fun h => absurd rfl h⟩
    rw [hrest]
    exact hstray
  | cons bytes blocks =>
    have hlength := hblocks bytes (List.mem_cons_self ..)
    rw [List.flatten_cons, List.append_assoc] at hrest
    obtain ⟨hbytes, hrest'⟩ := htakes.some (by rw [hrest, List.length_append]; omega)
    rw [hrest] at hbytes hrest'
    refine ⟨?_, fun _ => ?_⟩
    · rw [hbytes, ← hlength, List.take_left]
      rfl
    · rw [hrest', ← hlength, List.drop_left]
      rfl

theorem replay_ok {s : State} (h : replayBytes a m.state bytes = .ok s) :
    m.replay a bytes = .ok { m with
      state := s
      totalInstructions := m.totalInstructions + 1
      replayed := m.replayed ++ [bytes] } := by
  rw [Main.replay, h]
  rfl

theorem replay_error {e : MainStop} (h : replayBytes a m.state bytes = .error e) :
    m.replay a bytes = .error e := by
  rw [Main.replay, h]
  rfl

/-- **One iteration**: the next instruction is replayed. -/
theorem At.step (h : At a blocks stray fd k m)
    (hblocks : ∀ bytes ∈ blocks, bytes.length = sizeofInstruction)
    (hstray : stray.length < sizeofInstruction) (hbytes : blocks[k]? = some bytes)
    {bytes? : Option (List UInt8)} {reader : Reader} (htakes : m.reader.Takes bytes? reader)
    (hread : m.reader.bufferRead fuel sizeofInstruction = .ok (bytes?, reader)) :
    (∃ e, m.step fuel a = .error e ∧ replayBlocks a .init (blocks.take (k + 1)) = .error e) ∨
      ∃ m', m.step fuel a = .ok m' ∧ At a blocks stray fd (k + 1) m' := by
  obtain ⟨hlt, -⟩ := List.getElem?_eq_some_iff.mp hbytes
  obtain ⟨rfl, hgood, hrest⟩ := h.next bytes hbytes
  have htake : blocks.take (k + 1) = blocks.take k ++ [m.nextInstr] := by
    rw [List.take_add_one, hbytes, Option.toList_some]
  have hblocks' : ∀ bytes ∈ blocks.drop (k + 1), bytes.length = sizeofInstruction :=
    fun bytes hmem => hblocks bytes (List.mem_of_mem_drop hmem)
  obtain ⟨hhead, htail⟩ := takes_blocks hblocks' hstray hrest htakes
  rw [List.head?_drop] at hhead
  have hrunning : m.returned = false := by
    rw [h.returned]
    exact decide_eq_false (by omega)
  have hreplay : replayBlocks a .init (blocks.take (k + 1)) =
      replayBytes a m.state m.nextInstr := by
    rw [htake, replayBlocks_concat, h.state]
    rfl
  rw [hreplay, Main.step, if_neg (by simp [hrunning])]
  dsimp only
  rw [hread, ok_bind]
  dsimp only
  cases hs : replayBytes a m.state m.nextInstr with
  | error e =>
    left
    refine ⟨e, ?_, rfl⟩
    cases bytes? with
    | none => exact replay_error hs
    | some bytes' => exact replay_error hs
  | ok s =>
    right
    cases bytes? with
    | none =>
      -- the last instruction
      have hlast := List.getElem?_eq_none_iff.mp hhead.symm
      refine ⟨_, replay_ok hs, ?_⟩
      refine ⟨by rw [hreplay, hs], ?_, ?_, ?_, fun bytes' hbytes' => ?_, ?_⟩
      · rw [htake, ← h.replayed]
      · exact (decide_eq_true hlast).symm
      · show m.totalInstructions + 1 = (m.replayed ++ [m.nextInstr]).length
        rw [h.total, List.length_append, List.length_singleton]
      · rw [← hhead] at hbytes'
        simp at hbytes'
      · exact htakes.schedule.trans h.schedule
    | some bytes' =>
      obtain ⟨hlt', -⟩ := List.getElem?_eq_some_iff.mp hhead.symm
      refine ⟨_, replay_ok hs, ?_⟩
      refine ⟨by rw [hreplay, hs], ?_, ?_, ?_, fun bytes'' hbytes'' => ?_, ?_⟩
      · rw [htake, ← h.replayed]
      · show m.returned = _
        rw [hrunning]
        exact (decide_eq_false (by omega)).symm
      · show m.totalInstructions + 1 = (m.replayed ++ [m.nextInstr]).length
        rw [h.total, List.length_append, List.length_singleton]
      · rw [← hhead] at hbytes''
        refine ⟨Option.some.inj hbytes'', htakes.good, ?_⟩
        rw [htail (by rw [← List.length_pos_iff, List.length_drop]; omega), List.tail_drop]
      · exact htakes.schedule.trans h.schedule

theorem At.returned_of_none (h : At a blocks stray fd k m) (hend : blocks[k]? = none) :
    m.returned = true := by
  rw [h.returned]
  exact decide_eq_true (List.getElem?_eq_none_iff.mp hend)

/-- After the end, an iteration does nothing. -/
theorem At.step_returned (h : At a blocks stray fd k m) (hend : blocks[k]? = none) :
    m.step fuel a = .ok m := by
  rw [Main.step, h.returned_of_none hend, if_pos rfl]

theorem At.succ_of_none (h : At a blocks stray fd k m) (hend : blocks[k]? = none) :
    At a blocks stray fd (k + 1) m := by
  have hle := List.getElem?_eq_none_iff.mp hend
  have hsame : blocks.take (k + 1) = blocks.take k := by
    rw [List.take_of_length_le hle, List.take_of_length_le (by omega)]
  refine ⟨by rw [hsame, h.state], by rw [hsame, h.replayed], ?_, h.total, fun bytes hbytes => ?_,
    h.schedule⟩
  · rw [h.returned_of_none hend]
    exact (decide_eq_true (by omega)).symm
  · rw [List.getElem?_eq_none (by omega)] at hbytes
    simp at hbytes

/-- Before the loop, the first instruction has been read. -/
theorem at_start (hblocks : ∀ bytes ∈ blocks, bytes.length = sizeofInstruction)
    (hstray : stray.length < sizeofInstruction) (hne : blocks ≠ [])
    (hinput : fd.content.drop fd.position = blocks.flatten ++ stray)
    {bytes? : Option (List UInt8)} {reader : Reader} (htakes : (Reader.new fd).Takes bytes? reader)
    (hread : (Reader.new fd).bufferRead fuel sizeofInstruction = .ok (bytes?, reader)) :
    ∃ m, start fuel fd = .ok m ∧ At a blocks stray fd 0 m := by
  obtain ⟨hhead, htail⟩ := takes_blocks hblocks hstray (r := Reader.new fd) hinput htakes
  obtain ⟨bytes, more, rfl⟩ := List.exists_cons_of_ne_nil hne
  rw [List.head?_cons] at hhead
  subst hhead
  refine ⟨_, by rw [start, hread]; rfl, rfl, rfl, rfl, rfl, fun bytes' hbytes' => ?_,
    htakes.schedule⟩
  exact ⟨Option.some.inj hbytes', htakes.good, htail (by simp)⟩

theorem good_new : (Reader.new fd).Good := ⟨Nat.le_refl _, Nat.zero_le _⟩

theorem run_succ : run fuel a fd (k + 1) = run fuel a fd k >>= Main.step fuel a := by
  rw [run, run]
  cases start fuel fd with
  | error e => rfl
  | ok m => rw [ok_bind, ok_bind, iterate_succ']

/-- **A run is safe**: it has replayed the first instructions, or stopped where one of them stops,
unless a call of `refill_buffer` never ends. -/
theorem run_safe (a : Allocator) (fuel k : ℕ)
    (hblocks : ∀ bytes ∈ blocks, bytes.length = sizeofInstruction)
    (hstray : stray.length < sizeofInstruction) (hne : blocks ≠ [])
    (hinput : fd.content.drop fd.position = blocks.flatten ++ stray) :
    run fuel a fd k = .error .outOfFuel ∨
      (∃ e, run fuel a fd k = .error e ∧ replayBlocks a .init (blocks.take k) = .error e) ∨
      ∃ m, run fuel a fd k = .ok m ∧ At a blocks stray fd k m := by
  induction k with
  | zero =>
    -- the first instruction is read before the loop
    obtain hout | ⟨bytes?, reader, htakes, hread⟩ :=
      Reader.bufferRead_safe fuel (good_new : (Reader.new fd).Good)
    · left
      rw [run, start, hout]
      rfl
    · obtain ⟨m, hm, hat⟩ := at_start (a := a) hblocks hstray hne hinput htakes hread
      exact Or.inr (Or.inr ⟨m, by rw [run, hm]; rfl, hat⟩)
  | succ k ih =>
    rw [run_succ]
    obtain hout | ⟨e, he, hreplay⟩ | ⟨m, hm, hat⟩ := ih
    · -- the fuel ran out before
      left
      rw [hout]
      rfl
    · -- replay stopped before
      right
      left
      refine ⟨e, by rw [he]; rfl, ?_⟩
      cases hbytes : blocks[k]? with
      | none =>
        have hle := List.getElem?_eq_none_iff.mp hbytes
        rw [List.take_of_length_le hle] at hreplay
        rw [List.take_of_length_le (by omega), hreplay]
      | some bytes =>
        rw [List.take_add_one, hbytes, Option.toList_some, replayBlocks_concat, hreplay]
        rfl
    · rw [hm, ok_bind]
      cases hbytes : blocks[k]? with
      | none =>
        -- there was no instruction left, and main has returned
        exact Or.inr (Or.inr ⟨m, hat.step_returned hbytes, hat.succ_of_none hbytes⟩)
      | some bytes =>
        obtain ⟨-, hgood, -⟩ := hat.next bytes hbytes
        obtain hout | ⟨bytes?, reader, htakes, hread⟩ := Reader.bufferRead_safe fuel hgood
        · -- the fuel runs out in this read
          left
          have hrunning : m.returned = false := by
            obtain ⟨hlt, -⟩ := List.getElem?_eq_some_iff.mp hbytes
            rw [hat.returned]
            exact decide_eq_false (by omega)
          rw [Main.step, if_neg (by simp [hrunning])]
          dsimp only
          rw [hout]
          rfl
        · exact Or.inr (hat.step hblocks hstray hbytes htakes hread)

/-- **A run ends**: with calls of `read` that do not fail for ever, what it comes to does not depend
on how many of them are allowed for. -/
theorem run_ends (a : Allocator) (k : ℕ) (hdelivers : Reader.Delivers fd)
    (hblocks : ∀ bytes ∈ blocks, bytes.length = sizeofInstruction)
    (hstray : stray.length < sizeofInstruction) (hne : blocks ≠ [])
    (hinput : fd.content.drop fd.position = blocks.flatten ++ stray) :
    ∃ bound, (∃ e, (∀ fuel ≥ bound, run fuel a fd k = .error e) ∧ e.IsReplay) ∨
      ∃ m, (∀ fuel ≥ bound, run fuel a fd k = .ok m) ∧ At a blocks stray fd k m := by
  induction k with
  | zero =>
    -- the first instruction is read before the loop
    obtain ⟨bound, bytes?, reader, htakes, hread⟩ :=
      Reader.bufferRead_ends (r := Reader.new fd) hdelivers good_new
    obtain ⟨m, hm, hat⟩ := at_start (a := a) hblocks hstray hne hinput htakes
      (hread bound (Nat.le_refl _))
    refine ⟨bound, Or.inr ⟨m, fun fuel hfuel => ?_, hat⟩⟩
    have hsame : start fuel fd = start bound fd := by
      rw [start, start, hread fuel hfuel, hread bound (Nat.le_refl _)]
    rw [run, hsame, hm]
    rfl
  | succ k ih =>
    obtain ⟨bound, ⟨e, he, hreplay⟩ | ⟨m, hm, hat⟩⟩ := ih
    · -- replay stopped before, and more fuel changes nothing
      refine ⟨bound, Or.inl ⟨e, fun fuel hfuel => ?_, hreplay⟩⟩
      rw [run_succ, he fuel hfuel]
      rfl
    · cases hbytes : blocks[k]? with
      | none =>
        -- main has returned
        refine ⟨bound, Or.inr ⟨m, fun fuel hfuel => ?_, hat.succ_of_none hbytes⟩⟩
        rw [run_succ, hm fuel hfuel]
        exact hat.step_returned hbytes
      | some bytes =>
        obtain ⟨-, hgood, -⟩ := hat.next bytes hbytes
        have hdelivers' : Reader.Delivers m.reader.fd := fun k => by
          rw [hat.schedule]
          exact hdelivers k
        obtain ⟨bound', bytes?, reader, htakes, hread⟩ := Reader.bufferRead_ends hdelivers' hgood
        -- enough fuel for both gives what there is
        have hsame : ∀ fuel ≥ max bound bound',
            run fuel a fd (k + 1) = m.step bound' a := by
          intro fuel hfuel
          rw [run_succ, hm fuel (le_of_max_le_left hfuel), ok_bind, Main.step, Main.step]
          dsimp only
          rw [hread fuel (le_of_max_le_right hfuel), hread bound' (Nat.le_refl _)]
        obtain ⟨e, he, hreplay⟩ | ⟨m', hm', hat'⟩ :=
          hat.step hblocks hstray hbytes htakes (hread bound' (Nat.le_refl _))
        · exact ⟨max bound bound', Or.inl ⟨e, fun fuel hfuel => by rw [hsame fuel hfuel, he],
            isReplay_of_replayBlocks hreplay⟩⟩
        · exact ⟨max bound bound', Or.inr ⟨m', fun fuel hfuel => by rw [hsame fuel hfuel, hm'],
            hat'⟩⟩

/-- What is seen of `main`: the state of the replay, the instructions that were replayed, and
whether it has returned. -/
def outcome (m : Main) : State × List (List UInt8) × Bool := (m.state, m.replayed, m.returned)

/-- **The main loop replays the input**: whatever the calls of `read` do, `k` iterations replay the
first `k` instructions, each once and in order, and return with the last one; they stop only
where an instruction stops, so never for an access outside the buffer or a `read` of no bytes.
The iterations end when the calls of `read` do not fail for ever. -/
theorem run_replays (a : Allocator) (hblocks : ∀ bytes ∈ blocks, bytes.length = sizeofInstruction)
    (hstray : stray.length < sizeofInstruction) (hne : blocks ≠ [])
    (hinput : fd.content.drop fd.position = blocks.flatten ++ stray) :
    (∀ fuel k, run fuel a fd k = .error .outOfFuel ∨
      (run fuel a fd k).map outcome = (replayBlocks a .init (blocks.take k)).map
        fun s => (s, blocks.take k, decide (blocks.length ≤ k))) ∧
    (∀ fuel k e, run fuel a fd k = .error e → e = .outOfFuel ∨ e.IsReplay) ∧
    (Reader.Delivers fd →
      ∃ bound, ∀ fuel ≥ bound, ∀ k, run fuel a fd k ≠ .error .outOfFuel) := by
  refine ⟨fun fuel k => ?_, fun fuel k e he => ?_, fun hdelivers => ?_⟩
  · obtain hout | ⟨e, he, hreplay⟩ | ⟨m, hm, hat⟩ := run_safe a fuel k hblocks hstray hne hinput
    · exact Or.inl hout
    · right
      rw [he, hreplay]
      rfl
    · right
      rw [hm, hat.state]
      show Except.ok (m.state, m.replayed, m.returned) = Except.ok _
      rw [hat.replayed, hat.returned]
  · obtain hout | ⟨e', he', hreplay⟩ | ⟨m, hm, -⟩ := run_safe a fuel k hblocks hstray hne hinput
    · left
      rw [hout] at he
      exact (Except.error.inj he).symm
    · right
      rw [he'] at he
      rw [← Except.error.inj he]
      exact isReplay_of_replayBlocks hreplay
    · simp [hm] at he
  · obtain ⟨bound, hends⟩ := run_ends a blocks.length hdelivers hblocks hstray hne hinput
    refine ⟨bound, fun fuel hfuel k hout => ?_⟩
    by_cases hle : k ≤ blocks.length
    · -- a run that does not end does not end later either
      have hlater : run fuel a fd blocks.length = .error .outOfFuel := by
        obtain ⟨more, hmore⟩ := Nat.exists_eq_add_of_le hle
        rw [run] at hout ⊢
        rw [hmore]
        cases hstart : start fuel fd with
        | error e =>
          rw [hstart] at hout
          exact hout
        | ok m =>
          rw [hstart, ok_bind] at hout
          rw [ok_bind, iterate_add, hout, error_bind]
      obtain ⟨e, he, hreplay⟩ | ⟨m, hm, -⟩ := hends
      · rw [he fuel hfuel] at hlater
        rw [Except.error.inj hlater] at hreplay
        exact hreplay
      · rw [hm fuel hfuel] at hlater
        simp at hlater
    · obtain ⟨more, rfl⟩ := Nat.exists_eq_add_of_le (Nat.le_of_not_le hle)
      have hsplit : run fuel a fd (blocks.length + more) =
          run fuel a fd blocks.length >>= iterate (Main.step fuel a) more := by
        rw [run, run]
        cases start fuel fd with
        | error e => rfl
        | ok m => rw [ok_bind, ok_bind, iterate_add]
      rw [hsplit] at hout
      obtain ⟨e, he, hreplay⟩ | ⟨m, hm, hat⟩ := hends
      · rw [he fuel hfuel] at hout
        have herror : e = .outOfFuel := Except.error.inj hout
        rw [herror] at hreplay
        exact hreplay
      · rw [hm fuel hfuel, ok_bind,
          iterate_fixed (hat.step_returned (List.getElem?_eq_none (Nat.le_refl _)))] at hout
        simp at hout

/-- The case of two instructions and three stray bytes, in reads of a few bytes each. -/
theorem run_replays_twoBlocks :
    let bytes : List UInt8 := 5 :: List.replicate 7 0 ++ 1 :: List.replicate 15 0
    let bytes' : List UInt8 := 6 :: List.replicate 23 0
    let a : Allocator := { pointer := fun _ => 0x1000, attaches := fun _ => false }
    let fd : InputFd := {
      content := bytes ++ bytes' ++ [5, 0, 0]
      schedule := fun i => if i % 3 = 0 then .eintr else .bytes (i % 5 + 1) }
    (∀ fuel k, run fuel a fd k = .error .outOfFuel ∨
      (run fuel a fd k).map outcome = (replayBlocks a .init ([bytes, bytes'].take k)).map
        fun s => (s, [bytes, bytes'].take k, decide (2 ≤ k))) ∧
    (∀ fuel k e, run fuel a fd k = .error e → e = .outOfFuel ∨ e.IsReplay) ∧
    ∃ bound, ∀ fuel ≥ bound, ∀ k, run fuel a fd k ≠ .error .outOfFuel := by
  intro bytes bytes' a fd
  have hdelivers : Reader.Delivers fd := by
    intro k
    by_cases hk : k % 3 = 0
    · have hnext : (k + 1) % 3 ≠ 0 := by omega
      exact ⟨1, by simp [fd, hnext]⟩
    · exact ⟨0, by simp [fd, hk]⟩
  have hinput : fd.content.drop fd.position = [bytes, bytes'].flatten ++ [5, 0, 0] := by decide
  obtain ⟨hexact, hsafe, hends⟩ := run_replays a (by decide) (by decide) (by decide) hinput
  exact ⟨hexact, hsafe, hends hdelivers⟩

end Main

end MallocTraceReplay.Replay
