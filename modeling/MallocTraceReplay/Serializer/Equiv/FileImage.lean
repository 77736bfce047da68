import MallocTraceReplay.Codec.TraceWriter
import MallocTraceReplay.Serializer.Serialize
import MallocTraceReplay.Serializer.Tokens
import MallocTraceReplay.Stream.Equiv.CheckedMapper
import MallocTraceReplay.Stream.Equiv.MapperErasure

/-!
# The image of a file while a trace is read

The reading of a trace over the observed `FDInputMapper` never stops because of what is observed
(`Input.never_lost`): whatever the calls of `read` deliver, no mapping of fresh pages has a negative
length, and after every call of `Realize` the bytes that are kept are those of the file, at
their places.
-/

namespace MallocTraceReplay

open StepMachine MemStream CheckedMapper FDInputMapper

namespace Input

variable {b : UInt64} {content : List UInt8} {i : Input CheckedMapper} {ndebug : Bool} {env : Env}

/-- A stream between two items. -/
def Standing (b : UInt64) (content : List UInt8) (s : MemStream CheckedMapper) : Prop :=
  Settled (OverArea b content) s ∨ Released b content s

/-- The size that the next record declares is not larger than the area. -/
def DeclaresInArea (env : Env) (i : Input CheckedMapper) : Prop :=
  ∀ size, i.s.declaredSize env.stack = .ok (some size) → size.toNat ≤ areaSize

section

variable (haligned : b.toNat % 4096 = 0) (harea : b.toNat + 2 ^ 40 < 2 ^ 63)

include haligned harea

theorem Standing.hasMore {s : MemStream CheckedMapper} (h : Standing b content s) :
    Outcome Unobserved (fun r => Settled (OverArea b content) r.2) s.hasMore := by
  obtain hsettled | hreleased := h
  · have hJ : WindowInvariant (OverArea b content) _ _ := windowInvariant_overArea haligned harea
    exact (hJ.hasMore hsettled).imp fun _ _ h => h.1
  · exact hreleased.hasMore haligned harea

/-- The end of a batch. -/
theorem finishBatch_outcome (hs : Settled (OverArea b content) i.s) :
    Outcome Unobserved (fun i' => Standing b content i'.s) (i.finishBatch ndebug env) := by
  unfold finishBatch
  split
  · exact .ok (.inl hs)
  · exact (OverArea.unrealizeUpTo haligned harea hs ndebug _).bind fun _ h => .ok h

/-- **One item**. -/
theorem advance_outcome (hs : Standing b content i.s) (hsizes : i.DeclaresInArea env) :
    Outcome Unobserved (fun r => Standing b content r.2.s) (i.advance ndebug env) := by
  have hJ : WindowInvariant (OverArea b content) _ _ := windowInvariant_overArea haligned harea
  unfold advance
  refine (hJ.next ⟨by decide, by decide⟩ (hs.hasMore haligned harea)
    (fun size hsize _ => hsizes size hsize) i.ev).bind fun ⟨ok, ev, s⟩ ⟨hs', _⟩ => ?_
  dsimp only
  split
  · exact (finishBatch_outcome haligned harea hs').bind fun _ h => .ok h
  · split
    · exact (finishBatch_outcome haligned harea hs').bind fun _ h => .ok h
    · exact .ok (.inl hs')

/-- The input after the magic word. -/
theorem open_outcome {c : CheckedMapper} (hkept : PartImage b content c.mapper)
    (hnew : c.mapper.lastEnd = b) :
    Outcome Unobserved (fun i => Standing b content i.s) (open_ env c) := by
  have hJ : WindowInvariant (OverArea b content) _ _ := windowInvariant_overArea haligned harea
  have hplace : Mapper.getBegin c = b := hkept.area
  have hsettled : Settled (OverArea b content) (MemStream.new c) := by
    refine settled_new ⟨⟨hkept, hplace, ?_, ?_⟩, hplace.trans hnew.symm⟩
    · show c.mapper.lastEnd.toNat ≤ b.toNat + 2 ^ 40
      rw [hnew]
      exact Nat.le_add_right ..
    · show c.mapper.lastEnd.toNat ≤ roundUp ((Mapper.getBegin c).toNat + 2 ^ 20)
      rw [hnew, hplace]
      exact (Nat.le_add_right ..).trans (le_roundUp _).1
  unfold open_
  refine (hJ.advanceBy hsettled.inv hsettled.ordered (by unfold BlockInArea; decide)).bind
    fun ⟨magicPtr, s⟩ ⟨hinv, hmoves⟩ => ?_
  have hs := (hmoves.settled hsettled hinv).1
  dsimp only
  split
  · exact .error ⟨by decide, by decide⟩
  · split
    · exact .error ⟨by decide, by decide⟩
    · exact .ok (.inl hs)

/-- A run. -/
theorem read_outcome {c : CheckedMapper} (hkept : PartImage b content c.mapper)
    (hnew : c.mapper.lastEnd = b)
    (hsizes : ∀ n i, (open_ env c >>= iterate (step ndebug env) n) = .ok i → i.seenEnd = false →
      i.DeclaresInArea env) (n : ℕ) :
    Outcome Unobserved (fun i => Standing b content i.s)
      (open_ env c >>= iterate (step ndebug env) n) := by
  refine (open_outcome haligned harea hkept hnew).bind_of_ok fun i₀ hopen h₀ => ?_
  refine iterate_outcome (I := fun i : Input CheckedMapper => Standing b content i.s) h₀
    (fun k i hk hi => ?_) n
  unfold step
  split
  · exact .ok hi
  · next hend =>
    have hreached : (open_ env c >>= iterate (step ndebug env) k) = .ok i := by
      rw [hopen, ok_bind, hk]
    exact (advance_outcome haligned harea hi (hsizes k i hreached (by simpa using hend))).map
      fun _ h => h

end

/-! ### The mapper itself -/

/-- The ways in which a run stops that is observed. -/
def Observed (e : Abort) : Prop := e = outsideArea ∨ e = negativeLength ∨ e = lostByte

/-- The observed mapper does what the mapper does, unless it stops. -/
theorem mapperErasure : MapperErasure CheckedMapper.mapper Observed where
  getBegin _ := rfl
  load _ _ := rfl
  realize c start len := by
    show AgreesUnless Observed _ (c.realize start len) (c.mapper.realize start len)
    unfold CheckedMapper.realize
    split
    · exact .stops (.inl rfl)
    · split
      · exact .stops (.inr (.inl rfl))
      · cases c.mapper.realize start len with
        | error e => exact .error e
        | ok r =>
          rw [ok_bind]
          dsimp only
          split
          · exact .ok (r.1, CheckedMapper.mk r.2)
          · exact .stops (.inr (.inr rfl))

/-- The input over the mapper itself. -/
def erase (i : Input CheckedMapper) : Input FDInputMapper where
  s := i.s.withMapper CheckedMapper.mapper
  lastBarriers := i.lastBarriers
  lastBarriersIndex := i.lastBarriersIndex
  seenEnd := i.seenEnd
  ev := i.ev
  read := i.read

theorem finishBatch_erase : AgreesUnless Observed erase (i.finishBatch ndebug env)
    (i.erase.finishBatch ndebug env) := by
  unfold finishBatch
  by_cases hend : i.ev.type = .end_
  · have hend' : i.erase.ev.type = .end_ := hend
    rw [if_pos hend, if_pos hend']
    exact .ok _
  · have hend' : ¬ i.erase.ev.type = .end_ := hend
    rw [if_neg hend, if_neg hend']
    exact (unrealizeUpTo_over mapperErasure ndebug _).bind fun s => .ok _

theorem advance_erase : AgreesUnless Observed
    (fun r : Item × Input CheckedMapper => (r.1, r.2.erase))
    (i.advance ndebug env) (i.erase.advance ndebug env) := by
  unfold advance
  refine (next_over mapperErasure i.ev).bind fun ⟨ok, ev, s⟩ => ?_
  dsimp only [nextOver]
  split
  · exact finishBatch_erase.bind fun i' => .ok (Item.batchEnd, i')
  · split
    · exact finishBatch_erase.bind fun i' => .ok (Item.batchEnd, i')
    · exact .ok (Item.record ev, _)

theorem step_erase (i : Input CheckedMapper) :
    AgreesUnless Observed erase (i.step ndebug env) (i.erase.step ndebug env) := by
  unfold step
  by_cases hend : i.seenEnd = true
  · have hend' : i.erase.seenEnd = true := hend
    rw [if_pos hend, if_pos hend']
    exact .ok i
  · have hend' : ¬ i.erase.seenEnd = true := hend
    rw [if_neg hend, if_neg hend']
    exact advance_erase.map fun _ => rfl

theorem open_erase (c : CheckedMapper) :
    AgreesUnless Observed erase (open_ env c) (open_ env c.mapper) := by
  unfold open_
  rw [new_over mapperErasure c]
  refine (advanceBy_over mapperErasure).bind fun ⟨magicPtr, s⟩ => ?_
  dsimp only [resultOver]
  have hload : (fun i => Mapper.load (s.withMapper CheckedMapper.mapper).mapper
      (magicPtr + UInt64.ofNat i)) =
      fun i => Mapper.load s.mapper (magicPtr + UInt64.ofNat i) := rfl
  rw [hload]
  cases (List.range 4).mapM fun i => Mapper.load s.mapper (magicPtr + UInt64.ofNat i) with
  | none => exact .error _
  | some bytes =>
    dsimp only
    split
    · exact .error _
    · exact .ok _

/-! ### Runs -/

/-- The reading of a trace from its beginning on, in the order of the serializer. -/
def readTrace {M : Type} [Mapper M] (ndebug : Bool) (env : Env) (mapper : M) (n : ℕ) :
    Except Abort (Input M) :=
  open_ env mapper >>= iterate (step ndebug env) n

theorem readTrace_erase (ndebug : Bool) (env : Env) (c : CheckedMapper) (n : ℕ) :
    AgreesUnless Observed erase (readTrace ndebug env c n) (readTrace ndebug env c.mapper n) :=
  (open_erase c).bind fun i => iterate_agreesUnless step_erase n i

/-- **The image of the file stays intact** while a trace is read in the order of the serializer:
unless a request is not inside the area, the reading over the `FDInputMapper` is the one under
observation, and that one finds no mapping of fresh pages that has a negative length, and after no
call of `Realize` a byte between `last_start_` and `last_end_` that is not the one of the file. -/
theorem realize_keeps_file (ndebug : Bool) (env : Env) (content : List UInt8)
    (schedule : ℕ → ReadResult) (area : UInt64) (mmapOk : UInt64 → UInt64 → Bool)
    (haligned : area.toNat % 4096 = 0) (harea : area.toNat + areaSize < 2 ^ 63)
    (hsizes : ∀ n i, readTrace ndebug env
      (CheckedMapper.new { content := content, schedule := schedule } area mmapOk) n = .ok i →
      i.seenEnd = false → i.DeclaresInArea env) (n : ℕ) :
    let m := FDInputMapper.new { content := content, schedule := schedule } area mmapOk
    let observed := readTrace ndebug env (CheckedMapper.mk m) n
    observed ≠ .error negativeLength ∧ observed ≠ .error lostByte ∧
      (observed ≠ .error outsideArea → readTrace ndebug env m n = observed.map erase) := by
  intro m observed
  unfold areaSize at harea
  have hbelow : area.toNat < 2 ^ 63 := by omega
  have hposition : ({ content := content, schedule := schedule } : InputFd).position = 0 := rfl
  have hkept : PartImage area content m := partImage_new haligned hbelow hposition mmapOk
  have houtcome : Outcome Unobserved _ observed :=
    read_outcome haligned harea hkept rfl hsizes n
  have hnegative : observed ≠ .error negativeLength := fun h => (houtcome.of_error h).1 rfl
  have hlost : observed ≠ .error lostByte := fun h => (houtcome.of_error h).2 rfl
  refine ⟨hnegative, hlost, fun hinside => ?_⟩
  refine (readTrace_erase ndebug env (CheckedMapper.mk m) n).eq_map fun e he hobserved => ?_
  obtain rfl | rfl | rfl := hobserved
  · exact hinside he
  · exact hnegative he
  · exact hlost he

/-- A file with a magic word, a buffer and the end. -/
def observedFile : List UInt8 :=
  magicBytes ++ writeWords [0x3b, 2048, 2] ++ [5, 6] ++ writeWords [MallocTraceEncoder.encodeEnd]

/-- Calls of `read` that deliver nine bytes at most; the second one is interrupted. -/
def observedSchedule (k : ℕ) : ReadResult := if k = 1 then .eintr else .bytes 9

/-- What a state says about the sizes that are declared. -/
def sizesInArea (i : Input CheckedMapper) : Bool :=
  (i.s.declaredSize Env.tokenSet.stack).toOption.join.all fun size =>
    decide (size.toNat ≤ areaSize)

theorem DeclaresInArea.of_sizesInArea {i : Input CheckedMapper} (h : sizesInArea i = true) :
    i.DeclaresInArea .tokenSet := by
  intro size hsize
  unfold sizesInArea at h
  rw [hsize] at h
  exact of_decide_eq_true h

theorem realize_keeps_file_observedFile :
    let m := FDInputMapper.new { content := observedFile, schedule := observedSchedule } 0x10000
      fun _ _ => true
    ∀ n, readTrace false .tokenSet (CheckedMapper.mk m) n ≠ .error negativeLength ∧
      readTrace false .tokenSet (CheckedMapper.mk m) n ≠ .error lostByte ∧
      (readTrace false .tokenSet (CheckedMapper.mk m) n ≠ .error outsideArea →
        readTrace false .tokenSet m n =
          (readTrace false .tokenSet (CheckedMapper.mk m) n).map erase) := by
  intro m n
  refine realize_keeps_file false .tokenSet observedFile observedSchedule 0x10000
    (fun _ _ => true) (by decide) (by decide) (fun k i hi hend => ?_) n
  -- the reading ends with the second item
  have hends : (readTrace false .tokenSet (CheckedMapper.mk m) 2).map (fun i => i.seenEnd) =
      .ok true := by decide +kernel
  have hsizes : ∀ k < 2, (readTrace false .tokenSet (CheckedMapper.mk m) k).map sizesInArea =
      .ok true := by decide +kernel
  by_cases hk : k < 2
  · obtain ⟨i', hi', hsees⟩ := map_eq_ok.mp (hsizes k hk)
    have hsame : i' = i := Except.ok.inj (hi'.symm.trans hi)
    rw [hsame] at hsees
    exact .of_sizesInArea hsees
  · obtain ⟨i₂, hi₂, hend₂⟩ := map_eq_ok.mp hends
    obtain ⟨i₀, hopen, hi₂⟩ := bind_eq_ok.mp hi₂
    obtain ⟨more, rfl⟩ := Nat.exists_eq_add_of_le (Nat.le_of_not_lt hk)
    have hlater : iterate (step false .tokenSet) (2 + more) i₀ = .ok i := by
      obtain ⟨i₀', hopen', hi⟩ := bind_eq_ok.mp hi
      rw [Except.ok.inj (hopen.symm.trans hopen')]
      exact hi
    rw [iterate_add, hi₂, ok_bind, iterate_fixed (by rw [step, if_pos hend₂])] at hlater
    rw [← Except.ok.inj hlater, hend₂] at hend
    simp at hend

end Input

end MallocTraceReplay
