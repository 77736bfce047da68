import MallocTraceReplay.Stream.Equiv.FDMemStream
import MallocTraceReplay.Stream.Equiv.TraceReader

/-!
# Reading a trace in chunks

`nextAll` are the records that the calls of `next` return, with the bytes of their buffers.  Over a
`FDInputMapper` they are those over a `ConstMapper` that holds the whole file, as long as every item
that is read is whole in the window when it is decoded (`RecordsShown`, `nextAll_chunked`).  A
`read` that delivers less than that is not called again, so the records depend on it
(`not_nextAll_chunked`).
-/

namespace MallocTraceReplay

open AltVarintCodec MallocTraceEncoder StepMachine FDInputMapper

/-- The record of an event, with the bytes that are in memory where its buffer is. -/
def OuterEvent.record? (mem : UInt64 → Option UInt8) (ev : OuterEvent) : Option OuterRecord := do
  let body ← (List.range (ev.bufEnd - ev.bufStart).toNat).mapM fun i =>
    mem (ev.bufStart + UInt64.ofNat i)
  return { type := ev.type, cpu := ev.cpu, ts := ev.ts, threadId := ev.threadId, body := body }

namespace MemStream

section NextAll

variable {M : Type} [Mapper M]

/-- The records of some calls of `next`, until one does not return true, and what the last one
does. -/
def nextAll (stack : StackBytes) : ℕ → MemStream M → List (Option OuterRecord) × Except Abort Bool
  | 0, _ => ([], .ok true)
  | n + 1, s =>
    match s.next stack .zero with
    | .error e => ([], .error e)
    | .ok (false, _, _) => ([], .ok false)
    | .ok (true, ev, s) =>
      let (records, last) := nextAll stack n s
      (ev.record? (Mapper.load s.mapper) :: records, last)

/-- The record that an event holds. -/
theorem Holds.record? {s : MemStream M} {ev : OuterEvent} {r : OuterRecord} (h : Holds s ev r) :
    ev.record? (Mapper.load s.mapper) = some r := by
  have hfits := h.fits
  have hlen : (ev.bufEnd - ev.bufStart).toNat = r.body.length := by
    have hend : ev.bufEnd.toNat = ev.bufStart.toNat + r.body.length := by
      rw [h.bufEnd]
      exact toNat_add_ofNat (by omega)
    rw [UInt64.toNat_sub_of_le _ _ (UInt64.le_iff_toNat_le.mpr (by omega)), hend]
    omega
  have hbytes : ∀ i ∈ List.range r.body.length,
      Mapper.load s.mapper (ev.bufStart + UInt64.ofNat i) = some (r.body.getD i 0) := by
    intro i hi
    have hi' := List.mem_range.mp hi
    rw [h.bytes i hi', List.getD_eq_getElem?_getD, List.getElem?_eq_getElem hi']
    rfl
  have hbody : (List.range r.body.length).map (fun i => r.body.getD i 0) = r.body := by
    apply List.ext_getElem
    · simp
    · intro i hi hi'
      simp [List.getD_eq_getElem?_getD, List.getElem?_eq_getElem hi']
  unfold OuterEvent.record?
  rw [hlen, mapM_eq_some_map hbytes, hbody, h.type, h.cpu, h.ts, h.threadId]
  rfl

end NextAll

variable {b c : UInt64} {content rest : List UInt8} {s : MemStream FDInputMapper}
  {s' : MemStream ConstMapper} {stack stack' : StackBytes}

/-- Some calls of `next` each find what they read in the window, and the ends of their buffers do
not wrap around where the whole file is in memory, at `c`. -/
def RecordsShown (stack : StackBytes) (b c : UInt64) (content : List UInt8) :
    ℕ → MemStream FDInputMapper → Prop
  | 0, _ => True
  | n + 1, s =>
    (NextShown stack s (content.drop (s.ptr - b).toNat) ∧
      ¬ WrapsAround (c + (s.ptr - b)) (content.drop (s.ptr - b).toNat)) ∧
    ∀ ev s₁, s.next stack .zero = .ok (true, ev, s₁) → RecordsShown stack b c content n s₁

/-- The place of a stream in the file. -/
theorem OverFile.place (h : OverFile b content s rest) :
    content.drop (s.ptr - b).toNat = rest := by
  obtain ⟨hbegin, -, -⟩ := h.ends
  rw [UInt64.toNat_sub_of_le _ _ (UInt64.le_iff_toNat_le.mpr hbegin), h.bytes]

/-- Two streams before the same bytes. -/
theorem nextAll_eq {n : ℕ} (hs : OverFile b content s rest) (hstrict : s.permissiveAdvance = false)
    (hs' : Before (.ofBytes c content) s' rest) (hstrict' : s'.permissiveAdvance = false)
    (hfits : c.toNat + content.length ≤ 2 ^ 63) (hshown : RecordsShown stack b c content n s) :
    s.nextAll stack n = s'.nextAll stack' n := by
  induction n generalizing s s' rest with
  | zero => rfl
  | succ n ih =>
    obtain ⟨⟨hnext, hwraps⟩, hlater⟩ := hshown
    rw [hs.place] at hnext hwraps
    -- the same offset in the file and in memory
    have hplace : c + (s.ptr - b) = s'.ptr := by
      obtain ⟨hbegin, hends, -⟩ := hs.ends
      have hends' := hs'.ptr_le hfits
      have hb := hs.image.fits
      apply UInt64.toNat_inj.mp
      rw [UInt64.toNat_add, UInt64.toNat_sub_of_le _ _ (UInt64.le_iff_toNat_le.mpr hbegin)]
      omega
    rw [hplace] at hwraps
    -- both sides read by `nextRecord` from the same bytes
    have hfile := next_eq (served_overFile b content) hs hstrict hnext .zero
    have hconst := next_eq (served_before _) hs' hstrict'
      (hs'.nextShown hstrict' hwraps stack') .zero
    unfold nextAll
    cases hr : nextRecord rest with
    | error e =>
      simp only [hr] at hfile hconst
      rw [hfile, hconst]
    | ok record =>
      cases record with
      | none =>
        simp only [hr] at hfile hconst
        obtain ⟨ev, s₁, heq⟩ := hfile
        obtain ⟨ev', s₁', heq'⟩ := hconst
        rw [heq, heq']
      | some record =>
        obtain ⟨r, rest'⟩ := record
        simp only [hr] at hfile hconst
        obtain ⟨ev, s₁, heq, hholds, hs₁, -, hstrict₁⟩ := hfile
        obtain ⟨ev', s₁', heq', hholds', hs₁', -, hstrict₁'⟩ := hconst
        rw [heq, heq']
        dsimp only
        rw [hholds.record?, hholds'.record?, ih hs₁ hstrict₁ hs₁' hstrict₁' (hlater ev s₁ heq)]

/-! ### Traces -/

/-- Bytes that are skipped are there. -/
theorem OverFile.advanceBy {s₁ : MemStream FDInputMapper} (hs : OverFile b content s rest)
    (hle : s.ptr ≤ s.end_) (hstrict : s.permissiveAdvance = false) {amount place : UInt64}
    (h : s.advanceBy amount = .ok (place, s₁)) :
    OverFile b content s₁ (rest.drop amount.toNat) ∧ amount.toNat ≤ rest.length := by
  have hP := served_overFile b content
  -- a block that the window shows is skipped
  have hskip : ∀ s₂ : MemStream FDInputMapper, OverFile b content s₂ rest → s₂.ptr ≤ s₂.end_ →
      s₂.end_ - s₂.ptr ≥ amount → OverFile b content { s₂ with ptr := s₂.ptr + amount }
        (rest.drop amount.toNat) ∧ amount.toNat ≤ rest.length := by
    intro s₂ hs₂ hle₂ henough
    have hreads := hP.reads hs₂ hle₂
    have hshown := (hreads.window_iff amount).mp henough
    have hskipped := hP.skip hs₂ hle₂ hshown
    rw [skip, UInt64.ofNat_toNat] at hskipped
    exact ⟨hskipped, hshown.trans hreads.shown_le⟩
  unfold MemStream.advanceBy at h
  split at h
  · next henough =>
    obtain ⟨-, rfl⟩ := Prod.mk.inj (Except.ok.inj h)
    exact hskip s hs hle henough
  · -- `realize_more` comes first
    unfold advanceBySlow at h
    obtain ⟨⟨ok, s₂⟩, hmore, h⟩ := bind_eq_ok.mp h
    obtain ⟨hs₂, -, hend, -⟩ := hs.realizeMore hmore
    have hle₂ : s₂.ptr ≤ s₂.end_ := by
      rw [hend]
      exact hs₂.ptr_le
    have hok := realizeMore_eq_ok hmore
    dsimp only at h
    split at h
    · next hyes =>
      obtain ⟨-, rfl⟩ := Prod.mk.inj (Except.ok.inj h)
      rw [hyes] at hok
      exact hskip s₂ hs₂ hle₂ (of_decide_eq_true hok.symm)
    · -- a stream that is not permissive panics at a block that is not there
      rw [(realizeMore_same hmore).2, hstrict] at h
      simp at h

/-- The stream at the beginning of a file. -/
theorem overFile_new {fd : InputFd} (hposition : fd.position = 0) (haligned : b.toNat % 4096 = 0)
    (hfits : b.toNat + fd.content.length < 2 ^ 63) (mmapOk : UInt64 → UInt64 → Bool) :
    OverFile b fd.content (MemStream.new (FDInputMapper.new fd b mmapOk)) fd.content := by
  refine ⟨image_new haligned hfits hposition mmapOk, rfl, UInt64.le_refl _, UInt64.le_refl _,
    UInt64.le_refl _, ?_⟩
  show _ = fd.content.drop (b.toNat - b.toNat)
  rw [Nat.sub_self]
  rfl

/-- **Chunks are invisible** where every item is shown: for any file, any results of the calls of
`read`, and any number of records, after any bytes at the beginning are skipped. -/
theorem nextAll_chunked {fd : InputFd} (hposition : fd.position = 0) (haligned : b.toNat % 4096 = 0)
    (hfits : b.toNat + fd.content.length < 2 ^ 63)
    (hfits' : c.toNat + fd.content.length ≤ 2 ^ 63) (mmapOk : UInt64 → UInt64 → Bool)
    {amount place : UInt64}
    (hopen : (MemStream.new (FDInputMapper.new fd b mmapOk)).advanceBy amount = .ok (place, s))
    (stack stack' : StackBytes) (n : ℕ) (hshown : RecordsShown stack b c fd.content n s) :
    ∃ s', (MemStream.new (ConstMapper.ofBytes c fd.content)).advanceBy amount = .ok (c, s') ∧
      s.nextAll stack n = s'.nextAll stack' n := by
  have hnew := overFile_new hposition haligned hfits mmapOk
  obtain ⟨hs, hamount⟩ := hnew.advanceBy (UInt64.le_refl _) rfl hopen
  obtain ⟨s', hopen', hs', hstrict'⟩ := advanceBy_new hfits' hamount
  exact ⟨s', hopen', nextAll_eq hs (advanceBy_permissive hopen) hs' hstrict' hfits' hshown⟩

/-- Where nothing is short every item is shown, if no buffer is large. -/
theorem recordsShown_generous (hroom : b.toNat + content.length + 2 ^ 31 ≤ 2 ^ 63)
    (hfits : c.toNat + content.length ≤ 2 ^ 63)
    (hsmall : ∀ k size rest, declaredSize? (content.drop k) = some (size, rest) →
      size.toNat ≤ 2 ^ 30) {n : ℕ}
    (hs : OverFile b content s rest) (hm : Generous s.mapper)
    (hstrict : s.permissiveAdvance = false) : RecordsShown stack b c content n s := by
  induction n generalizing s rest with
  | zero => trivial
  | succ n ih =>
    have hshows := shows_generous hroom
    have hsmall' : ∀ size rest', declaredSize? rest = some (size, rest') → size.toNat ≤ 2 ^ 30 := by
      intro size rest' hsize
      rw [← hs.place] at hsize
      exact hsmall _ size rest' hsize
    have hnext := hshows.nextShown ⟨hs, hm⟩ hstrict hsmall' stack
    refine ⟨⟨by rw [hs.place]; exact hnext, ?_⟩, fun ev s₁ heq => ?_⟩
    · -- the block of a record that is not declared too long ends in the address space
      rw [hs.place]
      obtain ⟨hbegin, hends, -⟩ := hs.ends
      intro hwraps
      unfold WrapsAround at hwraps
      cases hsize : declaredSize? rest with
      | none => simp [hsize] at hwraps
      | some p =>
        obtain ⟨size, rest'⟩ := p
        have hle := hsmall' _ _ hsize
        simp only [hsize] at hwraps
        rw [UInt64.toNat_add,
          UInt64.toNat_sub_of_le _ _ (UInt64.le_iff_toNat_le.mpr hbegin)] at hwraps
        omega
    · -- the next record leaves the stream at what follows it
      have hspec := next_eq hshows.served ⟨hs, hm⟩ hstrict hnext .zero
      cases hr : nextRecord rest with
      | error e => simp [hr, heq] at hspec
      | ok record =>
        cases record with
        | none => simp [hr, heq] at hspec
        | some record =>
          obtain ⟨r, rest'⟩ := record
          simp only [hr, heq] at hspec
          obtain ⟨ev', s₁', heq', -, ⟨hs₁, hm₁⟩, -, hstrict₁⟩ := hspec
          obtain ⟨-, rfl⟩ := Prod.mk.inj (Prod.mk.inj (Except.ok.inj heq')).2
          exact ih hs₁ hm₁ hstrict₁

/-- A file where nothing is short can be opened, and every item of it is shown. -/
theorem recordsShown_open {fd : InputFd} (hposition : fd.position = 0)
    (haligned : b.toNat % 4096 = 0) (hroom : b.toNat + fd.content.length + 2 ^ 31 ≤ 2 ^ 63)
    (hfits : c.toNat + fd.content.length ≤ 2 ^ 63) {mmapOk : UInt64 → UInt64 → Bool}
    (hm : Generous (FDInputMapper.new fd b mmapOk))
    (hsmall : ∀ k size rest, declaredSize? (fd.content.drop k) = some (size, rest) →
      size.toNat ≤ 2 ^ 30) (amount : UInt64) (hamount : amount.toNat ≤ fd.content.length)
    (hlittle : amount.toNat ≤ 2 ^ 30) (stack : StackBytes) (n : ℕ) :
    ∃ s, (MemStream.new (FDInputMapper.new fd b mmapOk)).advanceBy amount = .ok (b, s) ∧
      RecordsShown stack b c fd.content n s := by
  have hnew := overFile_new hposition haligned (by omega) mmapOk
  have hshows := shows_generous hroom
  obtain ⟨hplace, hblock⟩ := hshows.block ⟨hnew, hm⟩ hlittle
  obtain ⟨s, hopen, hs, -, hle, hshown⟩ := advanceBy_enough hshows.served ⟨hnew, hm⟩
    (UInt64.le_refl _) hplace hblock hamount
  have hskip := hshows.served.skip hs hle hshown
  exact ⟨s.skip amount.toNat, hopen, recordsShown_generous hroom hfits hsmall hskip.1 hskip.2
    (advanceBy_permissive hopen)⟩

/-- A file with a magic word, a barrier, a buffer and the end; its calls of `read` deliver all they
can. -/
def regularFile : InputFd where
  content := [1, 2, 3, 4] ++ writeWords [EventType.syncBarrier.code, 1024, 0x3b, 2048, 2] ++
    [5, 6] ++ writeWords [encodeEnd]
  schedule := fun _ => .bytes maxRead

/-- No place of the file looks like a large buffer. -/
theorem declaredSize?_regularFile (k : ℕ) (size : UInt64) (rest : List UInt8)
    (h : declaredSize? (regularFile.content.drop k) = some (size, rest)) : size.toNat ≤ 2 ^ 30 := by
  have hall : (List.range (regularFile.content.length + 1)).all (fun k =>
      (declaredSize? (regularFile.content.drop k)).all fun p => p.1.toNat ≤ 2 ^ 30) = true := by
    decide +kernel
  by_cases hk : k < regularFile.content.length + 1
  · have hsize := List.all_eq_true.mp hall k (List.mem_range.mpr hk)
    rw [h] at hsize
    simpa using hsize
  · rw [List.drop_eq_nil_of_le (by omega)] at h
    simp [declaredSize?, readVarint] at h

theorem nextAll_chunked_regularFile :
    ∃ s s', (MemStream.new (FDInputMapper.new regularFile 0x10000 fun _ _ => true)).advanceBy 4 =
        .ok (0x10000, s) ∧
      (MemStream.new (ConstMapper.ofBytes 0x20000 regularFile.content)).advanceBy 4 =
        .ok (0x20000, s') ∧
      s.nextAll (fun _ _ => 0) 4 = s'.nextAll (fun _ _ => 1) 4 := by
  have haligned : (0x10000 : UInt64).toNat % 4096 = 0 := by decide
  have hroom : (0x10000 : UInt64).toNat + regularFile.content.length + 2 ^ 31 ≤ 2 ^ 63 := by
    decide +kernel
  have hfits : (0x20000 : UInt64).toNat + regularFile.content.length ≤ 2 ^ 63 := by decide +kernel
  have hm : Generous (FDInputMapper.new regularFile 0x10000 fun _ _ => true) :=
    ⟨fun _ => ⟨maxRead, rfl, Nat.le_refl _⟩, fun _ _ => rfl⟩
  obtain ⟨s, hopen, hshown⟩ := recordsShown_open rfl haligned hroom hfits hm
    declaredSize?_regularFile 4 (by decide +kernel) (by decide) (fun _ _ => 0) 4
  obtain ⟨s', hopen', hsame⟩ := nextAll_chunked rfl haligned (by omega) hfits _ hopen _
    (fun _ _ => 1) 4 hshown
  exact ⟨s, s', hopen, hopen', hsame⟩

/-- A file with a barrier, of which every call of `read` delivers one byte. -/
def drippingFile : InputFd where
  content := writeWords [EventType.syncBarrier.code, 0x4000000]
  schedule := fun _ => .bytes 1

/-- The same file, where the first call of `read` is interrupted. -/
def interruptedFile : InputFd where
  content := drippingFile.content
  schedule := fun k => if k = 0 then .eintr else .bytes maxRead

/-- **Chunks are visible**: the barrier is lost when a `read` is short or interrupted. -/
theorem not_nextAll_chunked :
    let whole := MemStream.new (ConstMapper.ofBytes 0x10000 drippingFile.content)
    whole.nextAll (fun _ _ => 0) 2 = ([some ⟨.syncBarrier, 0, 0x4000000, 0, []⟩], .ok false) ∧
      (MemStream.new (FDInputMapper.new drippingFile 0x10000 fun _ _ => true)).nextAll
        (fun _ _ => 0) 2 = ([], .ok false) ∧
      (MemStream.new (FDInputMapper.new interruptedFile 0x10000 fun _ _ => true)).nextAll
        (fun _ _ => 0) 2 = ([], .ok false) := by
  decide +kernel

end MemStream

end MallocTraceReplay
