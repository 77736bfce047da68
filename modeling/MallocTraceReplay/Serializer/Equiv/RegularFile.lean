import MallocTraceReplay.Serializer.Equiv.QueuedBuffers
import MallocTraceReplay.Serializer.Equiv.Returns
import MallocTraceReplay.Serializer.Equiv.SameCalls
import MallocTraceReplay.Stream.Equiv.SameRecords

/-!
# Serializing a regular file

The serializer reads a file through a `FDInputMapper`, which has a part of the file in memory.
Where no call of `read` is short it makes the calls that it would make over a `ConstMapper` with the
whole file in memory, as long as no batch ends with a queued buffer in the part of the memory that
it gives back (`serialize_regularFile`).
-/

namespace MallocTraceReplay

open AltVarintCodec StepMachine MallocTraceEncoder FDInputMapper MemStream

variable {b : UInt64} {content : List UInt8}

/-- A buffer that is kept lies in memory as it does in the file. -/
theorem FDInputMapper.Image.alikeAt {m : FDInputMapper} {ev : OuterEvent} (h : Image b content m)
    (hkeeps : m.Keeps ev) : AlikeAt (ConstMapper.ofBytes b content).mem (Mapper.load m) ev := by
  obtain ⟨hstart, hend⟩ := hkeeps
  rw [UInt64.le_iff_toNat_le] at hstart hend
  have hlow := h.le_lastStart
  have hlast := h.lastEnd
  have hposition := h.position_le
  have hfits := h.fits
  intro i hi
  have hplace : ev.bufStart + UInt64.ofNat i =
      b + UInt64.ofNat (ev.bufStart.toNat - b.toNat + i) := by
    apply UInt64.toNat_inj.mp
    rw [MemStream.toNat_add_ofNat (by omega), MemStream.toNat_add_ofNat (by omega)]
    omega
  rw [hplace]
  refine (h.loads (ev.bufStart.toNat - b.toNat + i) (by omega) (by omega)).trans ?_
  show _ = content[(b + UInt64.ofNat (ev.bufStart.toNat - b.toNat + i) - b).toNat]?
  have hindex : ev.bufStart.toNat - b.toNat + i < 2 ^ 64 := by omega
  rw [UInt64.add_comm, UInt64.add_sub_cancel, UInt64.toNat_ofNat', Nat.mod_eq_of_lt hindex]

namespace Input

variable {ndebug : Bool} {env : Env} {i : Input FDInputMapper} {i' : Input ConstMapper}

/-- The input over the file and the one over its image have read the same, and stand before the same
bytes until the end. -/
structure Beside (b : UInt64) (content : List UInt8) (i : Input FDInputMapper)
    (i' : Input ConstMapper) : Prop where
  generous : Generous i.s.mapper
  mapper : i'.s.mapper = .ofBytes b content
  seenEnd : i'.seenEnd = i.seenEnd
  read : i'.read = i.read
  stands : i.seenEnd = false → i'.Stands b content (i.s.bytesAhead b content)
  locals : i.seenEnd = false → i'.ev = i.ev ∧ i'.lastBarriers = i.lastBarriers ∧
    i'.lastBarriersIndex = i.lastBarriersIndex

theorem Beside.mem_eq (h : i.Beside b content i') :
    i'.mem = (ConstMapper.ofBytes b content).mem := by
  show Mapper.load i'.s.mapper = _
  rw [h.mapper]
  rfl

/-! ### Opening -/

/-- **The magic word** decides whether a trace is opened. -/
theorem open_eq {M : Type} [Mapper M] {P : MemStream M → List UInt8 → Prop} (hP : Served P)
    {mapper : M} {bytes : List UInt8} (env : Env) (hnew : P (MemStream.new mapper) bytes)
    (hplace : (MemStream.new mapper).ptr.toNat + (4 : UInt64).toNat < 2 ^ 64)
    (hshown : BlockShown (MemStream.new mapper) 4 bytes) :
    if 4 ≤ bytes.length then
      if loadBytes (bytes.take 4) = kMagic.toUInt64 then
        ∃ s, open_ env mapper = .ok {
            s := s, lastBarriers := fun _ => Mapper.getBegin s.mapper, lastBarriersIndex := 0,
            seenEnd := false, ev := env.newEvent, read := [] } ∧
          P s (bytes.drop 4) ∧ s.permissiveAdvance = false
      else open_ env mapper = .error (.panic "magic header is missing")
    else open_ env mapper =
      .error (.panic "trying to realize with min_amount beyond end of data") := by
  split
  · next hlen =>
    obtain ⟨s, hadvance, hs, hptr, hle, hfour⟩ := advanceBy_enough hP hnew (UInt64.le_refl _)
      hplace hshown (show (4 : UInt64).toNat ≤ bytes.length from hlen)
    have hfour' : 4 ≤ s.end_.toNat - s.ptr.toNat := hfour
    -- the four bytes at the beginning
    have hloads : ∀ k ∈ List.range 4, Mapper.load s.mapper ((MemStream.new mapper).ptr +
        UInt64.ofNat k) = some (bytes.getD k 0) := by
      intro k hk
      have hk4 := List.mem_range.mp hk
      rw [← hptr, (hP.reads hs hle).loads k (by omega), List.getD_eq_getElem?_getD,
        List.getElem?_eq_getElem (by omega)]
      rfl
    have htake : (List.range 4).map (fun k => bytes.getD k 0) = bytes.take 4 := by
      refine List.ext_getElem (by simp [hlen]) fun k hk hk' => ?_
      rw [List.length_take, Nat.lt_min] at hk'
      rw [List.getElem_map, List.getElem_range, List.getElem_take, List.getD_eq_getElem?_getD,
        List.getElem?_eq_getElem hk'.2]
      rfl
    have hopen : open_ env mapper =
        if loadBytes (bytes.take 4) ≠ kMagic.toUInt64 then
          .error (.panic "magic header is missing")
        else .ok {
          s := s.skip 4, lastBarriers := fun _ => Mapper.getBegin (s.skip 4).mapper,
          lastBarriersIndex := 0, seenEnd := false, ev := env.newEvent, read := [] } := by
      unfold open_
      dsimp only
      rw [hadvance, ok_bind]
      dsimp only
      rw [show (s.skip (4 : UInt64).toNat).mapper = s.mapper from rfl, mapM_eq_some_map hloads,
        htake]
      rfl
    by_cases hmagic : loadBytes (bytes.take 4) = kMagic.toUInt64
    · rw [if_neg (not_not.mpr hmagic)] at hopen
      rw [if_pos hmagic]
      exact ⟨_, hopen, hP.skip hs hle hfour, advanceBy_permissive hadvance⟩
    · rw [if_pos hmagic] at hopen
      rw [if_neg hmagic]
      exact hopen
  · next hlen =>
    have hshort := advanceBy_short hP hnew (UInt64.le_refl _) hplace hshown hlen
    have hstrict : (MemStream.new mapper).permissiveAdvance = false := rfl
    rw [hstrict, if_neg Bool.false_ne_true] at hshort
    unfold open_
    dsimp only
    rw [hshort]
    rfl

/-- **The file is opened** just as its image is. -/
theorem open_matches {fd : InputFd} {mmapOk : UInt64 → UInt64 → Bool}
    (haligned : b.toNat % 4096 = 0) (hroom : b.toNat + fd.content.length + 2 ^ 31 ≤ 2 ^ 63)
    (hposition : fd.position = 0) (hm : Generous (FDInputMapper.new fd b mmapOk)) (env : Env) :
    Matches (fun i i' => i.Beside b fd.content i' ∧ i.seenEnd = false)
      (open_ env (FDInputMapper.new fd b mmapOk))
      (open_ env (ConstMapper.ofBytes b fd.content)) := by
  have hfits : b.toNat + fd.content.length ≤ 2 ^ 63 := by omega
  have hshows := shows_generous hroom
  have hnew := overFile_new hposition haligned (by omega) mmapOk
  -- both mappers show the magic word, or the same lack of it
  obtain ⟨hplace, hblock⟩ := hshows.block ⟨hnew, hm⟩ (show (4 : UInt64).toNat ≤ 2 ^ 30 by decide)
  have hfile := open_eq hshows.served env ⟨hnew, hm⟩ hplace hblock
  have hnew' := before_new hfits
  have hplace' : (MemStream.new (ConstMapper.ofBytes b fd.content)).ptr.toNat +
      (4 : UInt64).toNat < 2 ^ 64 := by
    show b.toNat + 4 < 2 ^ 64
    omega
  have himage := open_eq (served_before _) env hnew' hplace' (hnew'.blockShown hplace')
  by_cases hlen : 4 ≤ fd.content.length
  · rw [if_pos hlen] at hfile himage
    by_cases hmagic : loadBytes (fd.content.take 4) = kMagic.toUInt64
    · rw [if_pos hmagic] at hfile himage
      obtain ⟨s, hopen, ⟨hs, hms⟩, -⟩ := hfile
      obtain ⟨s', hopen', hs', hstrict'⟩ := himage
      -- the two streams begin at the same place
      have hbegin : Mapper.getBegin s.mapper = b := hs.image.area
      have hbegin' : Mapper.getBegin s'.mapper = b := by
        rw [hs'.mapper]
        rfl
      rw [hopen, hopen', hbegin, hbegin']
      refine .ok ⟨⟨hms, hs'.mapper, rfl, rfl, fun _ => ⟨?_, hstrict', rfl, fun _ => ?_⟩,
        fun _ => ⟨rfl, rfl, rfl⟩⟩, rfl⟩
      · rw [bytesAhead, ← hs.bytes]
        exact hs'
      · exact ⟨Nat.le_refl _, hs'.begin_le⟩
    · rw [if_neg hmagic] at hfile himage
      rw [hfile, himage]
      exact .error _
  · -- the file is shorter than the magic word
    rw [if_neg hlen] at hfile himage
    rw [hfile, himage]
    exact .error _

/-! ### Items -/

/-- **The end of a batch**, wherever the two streams stand after the last record. -/
theorem finishBatch_matches (i : Input FDInputMapper) (i' : Input ConstMapper)
    (hroom : b.toNat + content.length + 2 ^ 31 ≤ 2 ^ 63) (h : i.InFile b content)
    (hm : Generous i.s.mapper) (hle : i.s.ptr ≤ i.s.end_) (h' : i'.s.InTrace b content)
    (hseen : i'.seenEnd = i.seenEnd) (hread : i'.read = i.read)
    (hend : i'.ev.type = .end_ ↔ i.ev.type = .end_) (hbarriers : i'.lastBarriers = i.lastBarriers)
    (hindex : i'.lastBarriersIndex = i.lastBarriersIndex)
    (hstands : i.seenEnd = false → i'.s.Before (.ofBytes b content) (i.s.bytesAhead b content) ∧
      i'.s.ptr ≤ i'.s.end_ ∧ i'.s.permissiveAdvance = false) (ndebug : Bool) (env : Env) :
    Matches (Beside b content) (i.finishBatch ndebug env) (i'.finishBatch ndebug env) := by
  have hfits : b.toNat + content.length ≤ 2 ^ 63 := by omega
  have hlow := fun j => UInt64.le_iff_toNat_le.mp (h.barriers j).1
  unfold finishBatch
  by_cases htype : i.ev.type = .end_
  · rw [if_pos htype, if_pos (hend.mpr htype)]
    exact .ok ⟨hm, h'.mapper, rfl, by rw [hread], by simp, by simp⟩
  · rw [if_neg htype, if_neg fun htype' => htype (hend.mp htype')]
    dsimp only
    obtain ⟨hplace, hbehind⟩ := h.barriers (i.lastBarriersIndex + 1)
    obtain ⟨s₁, hback, hm₁⟩ := h.stream.unrealizeUpTo_generous hroom hm hle ndebug hplace hbehind
    have hptr := (h.stream.unrealizeUpTo hplace hbehind hback).2.1
    rw [hindex, hbarriers, hback, ok_bind]
    by_cases hgoes : i.seenEnd = true
    · obtain ⟨s₁', hback', hmapper'⟩ :=
        h'.unrealizeUpTo_ok hfits (hlow (i.lastBarriersIndex + 1)) ndebug
      rw [hback', ok_bind]
      exact .ok ⟨hm₁, hmapper'.trans h'.mapper, hseen, by rw [hread], by simp [hgoes],
        by simp [hgoes]⟩
    · obtain ⟨hs', hle', hstrict'⟩ := hstands (Bool.eq_false_iff.mpr hgoes)
      -- the barrier is entered at the same place
      have hsame := hs'.ptr_eq hfits h.stream.overFile
      have hlast : ∀ j, (i.lastBarriers j).toNat ≤ i'.s.ptr.toNat := by
        intro j
        rw [hsame]
        exact UInt64.le_iff_toNat_le.mp (h.barriers j).2
      obtain ⟨s₁', hback', hs₁', hptr', hstrict₁'⟩ :=
        hs'.unrealizeUpTo_eq hle' (hlow (i.lastBarriersIndex + 1)) (hlast _) ndebug
      rw [hback', ok_bind]
      refine .ok ⟨hm₁, hs₁'.mapper, hseen, by rw [hread], fun _ => ⟨?_, hstrict₁'.trans hstrict',
        hseen.trans (Bool.eq_false_iff.mpr hgoes), fun j => ?_⟩, fun _ => ⟨rfl, ?_, rfl⟩⟩
      · rw [bytesAhead] at hs₁' ⊢
        rwa [hptr]
      · dsimp only
        rw [hptr']
        split
        · exact ⟨hs'.begin_le, Nat.le_refl _⟩
        · exact ⟨hlow j, hlast j⟩
      · dsimp only
        rw [hptr, hptr', hsame]

/-- **An item** of the file and of its image. -/
theorem Beside.advance (hroom : b.toNat + content.length + 2 ^ 31 ≤ 2 ^ 63)
    (h : i.Beside b content i') (hfile : i.InFile b content) (hgoes : i.seenEnd = false)
    (hsmall : ∀ size rest, declaredSize? (i.s.bytesAhead b content) = some (size, rest) →
      size.toNat ≤ 2 ^ 30) (ndebug : Bool) (env : Env) :
    Matches (fun r r' => r'.1 = r.1 ∧ r.2.Beside b content r'.2 ∧ ∀ ev, r.1 = .record ev →
        r.2.seenEnd = false ∧ (ev.type = .buf → GoodBuf (ConstMapper.ofBytes b content).mem ev))
      (i.advance ndebug env) (i'.advance ndebug env) := by
  have hfits : b.toNat + content.length ≤ 2 ^ 63 := by omega
  have hstands := h.stands hgoes
  obtain ⟨hev, hbarriers, hindex⟩ := h.locals hgoes
  unfold Input.advance
  rw [hev]
  refine (hfile.stream.next_matches hroom h.generous hstands.before hstands.strict hsmall
    env.stack i.ev).bind_of_ok fun ⟨ok, ev, s⟩ ⟨ok', ev', s'⟩ hnext hnext' hsame => ?_
  obtain ⟨hs, hmoves, hm, hle⟩ := hfile.stream.next_generous h.generous hnext
  have hs' := (streamInvariant_inTrace hfits).next (hstands.before.inTrace hfits) hnext'
  have hfile' : ({ i with s := s, ev := ev } : Input FDInputMapper).InFile b content :=
    ⟨hs, fun j => ⟨(hfile.barriers j).1, UInt64.le_trans (hfile.barriers j).2 hmoves⟩⟩
  obtain rfl : ok' = ok := hsame.ok
  cases ok' with
  | false =>
    -- there are no more records
    refine (finishBatch_matches { i with s := s, ev := ev, seenEnd := true }
      { i' with s := s', ev := ev', seenEnd := true } hroom ⟨hs, hfile'.barriers⟩ hm hle hs'
      rfl h.read hsame.end_iff hbarriers hindex (by simp) ndebug env).bind fun i₁ i₁' h₁ => ?_
    exact .ok ⟨rfl, h₁, by simp⟩
  | true =>
    obtain ⟨hbefore, hle', hstrict'⟩ := hsame.before rfl
    obtain rfl : ev' = ev := hsame.event rfl
    simp only [Bool.not_true, Bool.false_eq_true, if_false]
    split
    · refine (finishBatch_matches { i with s := s, ev := ev' } { i' with s := s', ev := ev' } hroom
        hfile' hm hle hs' h.seenEnd h.read Iff.rfl hbarriers hindex
        (fun _ => ⟨hbefore, hle', hstrict'⟩) ndebug env).bind fun i₁ i₁' h₁ => ?_
      exact .ok ⟨rfl, h₁, by simp⟩
    · obtain ⟨record, hholds⟩ := hsame.holds rfl
      have hmem : Mapper.load s'.mapper = (ConstMapper.ofBytes b content).mem := by
        rw [hs'.mapper]
        rfl
      have hptr := hbefore.ptr_eq hfits hs.overFile
      refine .ok ⟨rfl, ⟨hm, hs'.mapper, h.seenEnd, by rw [h.read], fun _ => ⟨hbefore, hstrict',
        hstands.goesOn, fun j => ?_⟩, fun _ => ⟨rfl, hbarriers, hindex⟩⟩, fun ev hev => ?_⟩
      · rw [hbarriers, hptr]
        exact ⟨UInt64.le_iff_toNat_le.mp (hfile'.barriers j).1,
          UInt64.le_iff_toNat_le.mp (hfile'.barriers j).2⟩
      · obtain rfl := Item.record.inj hev
        exact ⟨hgoes, fun _ => goodBuf_of_holds hholds hmem⟩

end Input

/-! ### Runs -/

namespace Machine

variable {ndebug : Bool} {env : Env} {m : Machine FDInputMapper} {m' : Machine ConstMapper}

/-- The machine over the file and the one over its image have read the same and made the same calls,
and the same is before them. -/
structure Alongside (b : UInt64) (content : List UInt8) (m : Machine FDInputMapper)
    (m' : Machine ConstMapper) : Prop where
  loc : m'.loc = m.loc
  input : m.input.Beside b content m'.input
  state : m.state.Alike (ConstMapper.ofBytes b content).mem m'.state
  goesOn : m.loc = .records → m.input.seenEnd = false

/-- A step of a machine over the file gives back no memory with a queued buffer, and reads no record
that declares more than a gigabyte. -/
structure KeepsToFile (b : UInt64) (env : Env) (content : List UInt8) (m : Machine FDInputMapper) :
    Prop where
  releases : m.ReleasesUnqueued env
  declares : m.loc = .records → ∀ size rest,
    declaredSize? (m.input.s.bytesAhead b content) = some (size, rest) → size.toNat ≤ 2 ^ 30

/-- An iteration of the record loop. -/
theorem Alongside.stepRecords (hroom : b.toNat + content.length + 2 ^ 31 ≤ 2 ^ 63)
    (h : m.Alongside b content m') (hfile : m.input.InFile b content) (hloc : m.loc = .records)
    (hmeets : m.KeepsToFile b env content) (ndebug : Bool) :
    Matches (Alongside b content) (m.stepRecords ndebug env) (m'.stepRecords ndebug env) := by
  have hgoes := h.goesOn hloc
  unfold Machine.stepRecords
  refine (h.input.advance hroom hfile hgoes (hmeets.declares hloc) ndebug env).bind_of_ok
    fun ⟨item, i⟩ ⟨item', i'⟩ hadv _ ⟨hitem, hi, hrecord⟩ => ?_
  obtain rfl : item' = item := hitem
  cases item' with
  | batchEnd => exact .ok ⟨rfl, hi, h.state, by simp⟩
  | record ev =>
    obtain ⟨hend, hgood⟩ := hrecord ev rfl
    obtain ⟨hfile', -, -, hkeeps, -⟩ := hfile.record hadv
    have hmem := hi.mem_eq
    dsimp only
    cases htype : ev.type with
    | buf =>
      have halike := hfile'.stream.image.alikeAt (hkeeps htype)
      dsimp only
      rw [hmem]
      exact (h.state.bufArrives (hgood htype) halike ndebug env).bind fun st st' hst =>
        .ok ⟨h.loc, hi, hst, fun _ => hend⟩
    | death =>
      exact (h.state.deathArrives ndebug ev).bind fun st st' hst =>
        .ok ⟨h.loc, hi, hst, fun _ => hend⟩
    | malloc | free | tok | freeSized | realloc | memalign | end_ | syncBarrier => exact .error _

/-- An iteration of the drain loop. -/
theorem Alongside.stepDrain (h : m.Alongside b content m') (hfile : m.input.InFile b content)
    (hkept : m.QueuedKept) (hloc : m.loc = .drain) (ndebug : Bool) (env : Env) :
    Matches (Alongside b content) (m.stepDrain ndebug env) (m'.stepDrain ndebug env) := by
  have hmem := h.input.mem_eq
  unfold Machine.stepDrain
  rw [h.state.heap, h.state.toDie]
  cases m.state.heap with
  | nil => exact .ok ⟨rfl, h.input, h.state, by simp⟩
  | cons id heap =>
    dsimp only
    rw [hmem]
    refine (h.state.drainBody (fun id t ht ev hev => ?_) ndebug env id).bind fun st st' hst =>
      .ok ⟨h.loc, h.input, hst, by simp [hloc]⟩
    exact hfile.stream.image.alikeAt (hkept id t ht ev hev)

/-- An iteration of the loop over `to_die`, and what comes after it. -/
theorem Alongside.stepToDie (h : m.Alongside b content m') (ndebug : Bool)
    (todo next : List UInt64) :
    Matches (Alongside b content) (m.stepToDie ndebug todo next)
      (m'.stepToDie ndebug todo next) := by
  unfold Machine.stepToDie
  cases todo with
  | nil =>
    dsimp only
    rw [h.input.seenEnd]
    refine .ok ⟨rfl, h.input, (h.state.setToDie next).send _ _, fun hloc => ?_⟩
    cases hend : m.input.seenEnd with
    | false => rfl
    | true => simp [hend] at hloc
  | cons id todo =>
    refine (h.state.toDieBody ndebug id).bind
      fun ⟨carried, st⟩ ⟨carried', st'⟩ ⟨hcarried, hst⟩ => ?_
    obtain rfl : carried' = carried := hcarried
    exact .ok ⟨rfl, h.input, hst, by simp⟩

/-- **A step** of the two machines. -/
theorem Alongside.step (hroom : b.toNat + content.length + 2 ^ 31 ≤ 2 ^ 63)
    (h : m.Alongside b content m') (hfile : m.input.InFile b content) (hkept : m.QueuedKept)
    (hmeets : m.KeepsToFile b env content) (ndebug : Bool) :
    Matches (Alongside b content) (m.step ndebug env) (m'.step ndebug env) := by
  unfold Machine.step
  rw [h.loc]
  cases hloc : m.loc with
  | records => exact h.stepRecords hroom hfile hloc hmeets ndebug
  | drain => exact h.stepDrain hfile hkept hloc ndebug env
  | toDie todo next => exact h.stepToDie ndebug todo next
  | returned => exact .ok h

/-- What can be seen of a run: where it stands, the items that it has read, and the calls that it
has made, each with where it comes from. -/
def seen {M : Type} (m : Machine M) : Loc × List Item × List Sent :=
  (m.loc, m.input.read, m.state.sent)

theorem Alongside.seen_eq (h : m.Alongside b content m') : m.seen = m'.seen := by
  unfold seen
  rw [h.loc, h.input.read, h.state.sent]

variable {fd : InputFd} {mmapOk : UInt64 → UInt64 → Bool}

/-- Runs over the file and over its image. -/
theorem serialize_alongside (haligned : b.toNat % 4096 = 0)
    (hroom : b.toNat + fd.content.length + 2 ^ 31 ≤ 2 ^ 63) (hposition : fd.position = 0)
    (hm : Generous (FDInputMapper.new fd b mmapOk)) {n : ℕ}
    (hmeets : ∀ k < n, ∀ m, serialize ndebug env (FDInputMapper.new fd b mmapOk) k = .ok m →
      m.KeepsToFile b env fd.content) :
    Matches (Alongside b fd.content) (serialize ndebug env (FDInputMapper.new fd b mmapOk) n)
      (serialize ndebug env (ConstMapper.ofBytes b fd.content) n) := by
  have hfits : b.toNat + fd.content.length < 2 ^ 63 := by omega
  unfold serialize start at hmeets ⊢
  rw [bind_assoc, bind_assoc]
  refine (Input.open_matches haligned hroom hposition hm env).bind_of_ok
    fun i i' hopen _ hopened => ?_
  obtain ⟨hbeside, hgoes⟩ := hopened
  rw [pure_bind, pure_bind]
  simp only [hopen, ok_bind, pure_bind] at hmeets
  have hkept : (⟨.records, i, .init⟩ : Machine FDInputMapper).QueuedKept := by
    intro id t ht
    simp [SerializeState.init] at ht
  -- what is queued is kept on the way
  refine (iterate_matches (R := fun m m' => m.Alongside b fd.content m' ∧
    m.input.InFile b fd.content ∧ m.QueuedKept) (fun m m' hbefore hmeets => ?_)
    ⟨⟨rfl, hbeside, ⟨fun _ => .none, rfl⟩, fun _ => hgoes⟩,
      Input.inFile_open haligned hfits hposition hopen, hkept⟩ hmeets).imp fun _ _ _ h => h.1
  obtain ⟨h, hfile, hkept⟩ := hbefore
  refine (h.step hroom hfile hkept hmeets ndebug).imp fun m₁ m₁' hstep h₁ => ?_
  obtain ⟨hfile₁, hiff⟩ := queuedKept_step hfile hkept hstep
  exact ⟨h₁, hfile₁, hiff.mpr hmeets.releases⟩

/-- **A file that is serialized through its window** gives what it gives when it is in memory as a
whole, step by step: no call of `read` is short, no batch gives back memory with a queued buffer,
and no record declares more than a gigabyte.  The file lies in the area that is reserved for it
(`FDInputMapper.new`). -/
theorem serialize_regularFile (haligned : b.toNat % 4096 = 0)
    (hroom : b.toNat + fd.content.length + 2 ^ 31 ≤ 2 ^ 63) (hposition : fd.position = 0)
    (hm : Generous (FDInputMapper.new fd b mmapOk)) {n : ℕ}
    (hmeets : ∀ k < n, ∀ m, serialize ndebug env (FDInputMapper.new fd b mmapOk) k = .ok m →
      m.KeepsToFile b env fd.content) :
    (serialize ndebug env (FDInputMapper.new fd b mmapOk) n).map seen =
      (serialize ndebug env (ConstMapper.ofBytes b fd.content) n).map seen :=
  (serialize_alongside haligned hroom hposition hm hmeets).map_eq fun _ _ h => h.seen_eq

/-! ### Small files -/

/-- No memory of a file below `128 << 20` bytes is given back. -/
theorem releasesUnqueued_of_small (h : m.input.InFile b content) (hlen : content.length < 2 ^ 27)
    (env : Env) : m.ReleasesUnqueued env := by
  intro _ page hpage
  unfold Input.releasedBelow at hpage
  cases hnext : m.input.s.next env.stack m.input.ev with
  | error e => simp [hnext, Except.toOption] at hpage
  | ok r =>
    obtain ⟨ok, ev, s⟩ := r
    have hs := (h.stream.next hnext).1
    have hnone : s.unrealizedBelow m.input.prevBarrier = none := by
      obtain ⟨hlow, hhigh⟩ := h.barriers (m.input.lastBarriersIndex + 1)
      have hhigh' := UInt64.le_iff_toNat_le.mp (UInt64.le_trans hhigh h.stream.ptr_le)
      have hlast := h.stream.image.lastEnd
      have hposition := h.stream.image.position_le
      unfold MemStream.unrealizedBelow Input.prevBarrier
      refine if_pos (not_not.mp fun hfar => ?_)
      have hdistance := (not_idle_iff.mp hfar).1
      rw [hs.start, UInt64.toNat_sub_of_le _ _ hlow] at hdistance
      omega
    simp [hnext, Except.toOption, hnone] at hpage

/-- A run over a small file gives back nothing that is queued. -/
theorem releases_of_small (haligned : b.toNat % 4096 = 0)
    (hfits : b.toNat + fd.content.length < 2 ^ 63) (hposition : fd.position = 0)
    (hlen : fd.content.length < 2 ^ 27) {n : ℕ} {m : Machine FDInputMapper}
    (h : serialize ndebug env (FDInputMapper.new fd b mmapOk) n = .ok m) :
    m.ReleasesUnqueued env := by
  induction n using Nat.strong_induction_on generalizing m with
  | _ n ih =>
    have hfile := (queuedKept_run haligned hfits hposition h fun k hk m hm => ih k hk hm).1
    exact releasesUnqueued_of_small hfile hlen env

/-- `queuedFile`, whose calls of `read` deliver all they can. -/
def steadyFile : InputFd where
  content := queuedFile.content
  schedule := fun _ => .bytes maxRead

/-- No place of the file looks like a large buffer. -/
theorem declaredSize?_steadyFile (k : ℕ) (size : UInt64) (rest : List UInt8)
    (h : declaredSize? (steadyFile.content.drop k) = some (size, rest)) : size.toNat ≤ 2 ^ 30 :=
  declares_of_all (by decide +kernel) k size rest h

theorem generous_steadyFile : Generous (FDInputMapper.new steadyFile 0x10000 fun _ _ => true) :=
  ⟨fun _ => ⟨_, rfl, le_refl _⟩, fun _ _ => rfl⟩

theorem releases_steadyFile {n : ℕ} {m : Machine FDInputMapper}
    (h : serialize false .tokenSet (FDInputMapper.new steadyFile 0x10000 fun _ _ => true) n =
      .ok m) : m.ReleasesUnqueued .tokenSet :=
  releases_of_small (by decide) (by decide +kernel) rfl (by decide +kernel) h

theorem serialize_regularFile_steadyFile :
    ∃ m, serialize false .tokenSet (FDInputMapper.new steadyFile 0x10000 fun _ _ => true) 11 =
        .ok m ∧ m.loc = .returned ∧
      (serialize false .tokenSet (ConstMapper.ofBytes 0x10000 steadyFile.content) 11).map seen =
        .ok m.seen := by
  have hruns : (serialize false .tokenSet
      (FDInputMapper.new steadyFile 0x10000 fun _ _ => true) 11).map loc = .ok .returned := by
    decide +kernel
  obtain ⟨m, hm, hloc⟩ := map_eq_ok.mp hruns
  have hsame : (serialize false .tokenSet
      (FDInputMapper.new steadyFile 0x10000 fun _ _ => true) 11).map seen =
      (serialize false .tokenSet (ConstMapper.ofBytes 0x10000 steadyFile.content) 11).map seen :=
    serialize_regularFile (by decide) (by decide +kernel) rfl generous_steadyFile
      fun k _ m hk => ⟨releases_steadyFile hk, fun _ => declaredSize?_steadyFile _⟩
  refine ⟨m, hm, hloc, ?_⟩
  rw [← hsame, hm]
  rfl

/-! ### Termination -/

/-- **A file is serialized to its end**, or the program stops because of what is in it: it stops
over the file in memory as well, so that no `abort()` is one of `Realize` or `unrealize_up_to`.  The
file lies in the area that is reserved for it (`FDInputMapper.new`). -/
theorem serialize_file_returns (env : Env) (haligned : b.toNat % 4096 = 0)
    (hroom : b.toNat + fd.content.length + 2 ^ 31 ≤ 2 ^ 63) (hspace : fd.content.length ≤ b.toNat)
    (hposition : fd.position = 0) (hm : Generous (FDInputMapper.new fd b mmapOk))
    (hsmall : ∀ k size rest, declaredSize? (fd.content.drop k) = some (size, rest) →
      size.toNat ≤ 2 ^ 30)
    (hreleases : ∀ n m, serialize false env (FDInputMapper.new fd b mmapOk) n = .ok m →
      m.ReleasesUnqueued env) :
    ∃ n, (∃ m, serialize false env (FDInputMapper.new fd b mmapOk) n = .ok m ∧
        m.loc = .returned) ∨
      ∃ e, serialize false env (FDInputMapper.new fd b mmapOk) n = .error e ∧
        serialize false env (ConstMapper.ofBytes b fd.content) n = .error e ∧ e.BlamesTrace := by
  have h : InUserSpace b fd.content := ⟨hspace, by omega⟩
  obtain ⟨n, hreturns⟩ := returns_of_fits env h fun i _ _ => fits_of_declares h.fits hsmall i.s
  refine ⟨n, ?_⟩
  have hruns := serialize_alongside (n := n) haligned hroom hposition hm fun k _ m hk =>
    ⟨hreleases k m hk, fun _ => hsmall _⟩
  rcases hreturns with ⟨m', hm', hloc⟩ | ⟨e, he, hblames⟩
  · rw [hm'] at hruns
    obtain ⟨m, hm, hside⟩ := hruns.exists_ok
    exact Or.inl ⟨m, hm, hside.loc.symm.trans hloc⟩
  · rw [he] at hruns
    exact Or.inr ⟨e, hruns.eq_error, he, hblames⟩

theorem serialize_file_returns_steadyFile :
    ∃ n m, serialize false .tokenSet (FDInputMapper.new steadyFile 0x10000 fun _ _ => true) n =
        .ok m ∧ m.loc = .returned := by
  obtain ⟨n, ⟨m, hm, hloc⟩ | ⟨e, he, -, -⟩⟩ := serialize_file_returns .tokenSet (by decide)
    (by decide +kernel) (by decide +kernel) rfl generous_steadyFile declaredSize?_steadyFile
    fun _ _ => releases_steadyFile
  · exact ⟨n, m, hm, hloc⟩
  · -- the run returns after eleven steps, and does not stop
    obtain ⟨m, hm, hloc⟩ := map_eq_ok.mp (show (serialize false .tokenSet
      (FDInputMapper.new steadyFile 0x10000 fun _ _ => true) 11).map loc = .ok .returned by
        decide +kernel)
    have hsame := serialize_ended_eq he hm (by simp) (by simpa using hloc)
    simp at hsame

end Machine

end MallocTraceReplay
