import MallocTraceReplay.Serializer.Equiv.RegularFile
import MallocTraceReplay.Serializer.Equiv.WrittenTrace

/-!
# A written trace in a file

A record of a written trace declares the size of its own buffer, so that the run over the file stays
beside the run over its image (`Machine.keepsToFile_written`).
-/

namespace MallocTraceReplay

open StepMachine MallocTraceEncoder MemStream

/-! ### The sizes that a written trace declares -/

/-- A buffer whose record is whole declares its size. -/
theorem declaredSize?_eq_length {bytes rest rest' : List UInt8} {r : OuterRecord} {size : UInt64}
    (h : nextRecord bytes = .ok (some (r, rest)))
    (hsize : declaredSize? bytes = some (size, rest')) : size.toNat = r.body.length := by
  obtain ⟨w, rest₁, w₂, rest₂, hv, htype, hv₂, hv₃⟩ := declaredSize?_eq_some.mp hsize
  unfold nextRecord at h
  simp only [hv, htype] at h
  have h := Except.ok.inj h
  unfold nextBufRecord at h
  simp only [hv₂, hv₃, Option.bind_eq_bind, Option.bind_some] at h
  split at h
  · next hle =>
    obtain ⟨rfl, -⟩ := Prod.mk.inj (Option.some.inj h)
    exact (List.length_take_of_le hle).symm
  · simp at h

/-- An event has at most two words. -/
theorem length_writeEvents_le (s : EncoderState) (rs : List InnerRecord) :
    (writeEvents s rs).1.length ≤ 18 * rs.length := by
  have hwords : ∀ ws : List UInt64, (writeWords ws).length ≤ 9 * ws.length := by
    intro ws
    rw [writeWords, List.length_flatMap]
    refine (List.sum_le_card_nsmul _ 9 fun n hn => ?_).trans (by simp [Nat.mul_comm])
    obtain ⟨w, -, rfl⟩ := List.mem_map.mp hn
    exact AltVarintCodec.length_encode_le w
  induction rs generalizing s with
  | nil => exact Nat.zero_le _
  | cons r rs ih =>
    have htwo : (r.words s).1.length ≤ 2 := by cases r <;> simp [InnerRecord.words]
    have hfirst := hwords (r.words s).1
    have hrest := ih (r.words s).2
    simp only [writeEvents, List.length_append, List.length_cons]
    omega

/-- No buffer of some records has more than a gigabyte. -/
def SmallBuffers (body : List TraceRecord) : Prop :=
  ∀ r ∈ body, ∀ st, (r.outer st).body.length ≤ 2 ^ 30

variable {env : Env} {b : UInt64} {data : List UInt8} {body done suffix : List TraceRecord}

namespace Input

variable {i : Input ConstMapper}

/-- On the way through a trace, the next record is there. -/
theorem Midway.exists_record (h : i.Midway env b data body done suffix)
    (hbody : ProgramTrace body) : ∃ st r more, (r ∈ body ∨ r = .end_) ∧
      i.Stands b data (writeRecords st (r :: more)) ∧
      nextRecord (writeRecords st (r :: more)) =
        .ok (some (r.outer st, writeRecords (writeRecord st r).2 more)) := by
  obtain ⟨st, hstands, -⟩ := h.stands
  cases suffix with
  | nil => exact ⟨st, .end_, [], Or.inr rfl, hstands,
      Stands.nextRecord_eq (r := .end_) hstands trivial⟩
  | cons r suffix =>
    have hmem : r ∈ body := by
      rw [← h.split]
      exact List.mem_append_right _ (List.mem_cons_self ..)
    exact ⟨st, r, _, Or.inl hmem, hstands, hstands.nextRecord_eq (hbody.bounded r hmem)⟩

/-- On the way through a trace, the next buffer is one of its records. -/
theorem Midway.declaredSize?_le {bytes : List UInt8} (h : i.Midway env b data body done suffix)
    (hfits : b.toNat + data.length ≤ 2 ^ 63) (hbody : ProgramTrace body)
    (hsmall : SmallBuffers body) (hstands : i.Stands b data bytes) {size : UInt64}
    {rest : List UInt8} (hsize : declaredSize? bytes = some (size, rest)) :
    size.toNat ≤ 2 ^ 30 := by
  obtain ⟨st, r, more, hr, hstands', hnext⟩ := h.exists_record hbody
  obtain rfl : bytes = writeRecords st (r :: more) :=
    (hstands.before.eq_drop hfits).trans (hstands'.before.eq_drop hfits).symm
  rw [declaredSize?_eq_length hnext hsize]
  rcases hr with hr | rfl
  · exact hsmall r hr st
  · exact Nat.zero_le _

/-- A buffer that is read lies behind the place where the reading was. -/
theorem Midway.ptr_le_bufStart (h : i.Midway env b data body done suffix)
    (hfits : b.toNat + data.length ≤ 2 ^ 63) (hbody : ProgramTrace body) {ev : OuterEvent}
    {i' : Input ConstMapper} (hadv : i.advance false env = .ok (.record ev, i'))
    (htype : ev.type = .buf) : i.s.ptr ≤ ev.bufStart := by
  obtain ⟨st, r, more, -, hstands, hrecord⟩ := h.exists_record hbody
  obtain ⟨ok, ev', s, hnext, -, ⟨rfl, -, -, hitem, -⟩ | ⟨hitem, -⟩⟩ := advance_cases hadv
  · obtain rfl := Item.record.inj hitem
    have hno := hstands.before.not_wrapsAround hrecord
    exact ((hstands.before.next_progresses hfits hstands.strict hno hnext).1.buf htype).1
  · simp at hitem

end Input

/-! ### The run over the file -/

namespace Machine

variable {fd : InputFd} {mmapOk : UInt64 → UInt64 → Bool}

/-- **The window shows the trace**, wherever the run over the file gets. -/
theorem keepsToFile_written (hbody : ProgramTrace body) (hsmall : SmallBuffers body)
    (hcontent : fd.content = writeTrace (body ++ [.end_])) (haligned : b.toNat % 4096 = 0)
    (hroom : b.toNat + fd.content.length + 2 ^ 31 ≤ 2 ^ 63) (hposition : fd.position = 0)
    (hm : FDInputMapper.Generous (FDInputMapper.new fd b mmapOk))
    (hreleases : ∀ n m, serialize false env (FDInputMapper.new fd b mmapOk) n = .ok m →
      (∀ k < n, ∀ m, serialize false env (FDInputMapper.new fd b mmapOk) k = .ok m →
        m.KeepsToFile b env fd.content) → m.ReleasesUnqueued env)
    {n : ℕ} {m : Machine FDInputMapper}
    (hrun : serialize false env (FDInputMapper.new fd b mmapOk) n = .ok m) :
    m.KeepsToFile b env fd.content := by
  induction n using Nat.strong_induction_on generalizing m with
  | _ n ih =>
    have hfits : b.toNat + fd.content.length ≤ 2 ^ 63 := by omega
    have hbefore : ∀ k < n, ∀ m, serialize false env (FDInputMapper.new fd b mmapOk) k = .ok m →
        m.KeepsToFile b env fd.content := fun k hk m hk' => ih k hk hk'
    have hmatches := serialize_alongside haligned hroom hposition hm hbefore
    rw [hrun] at hmatches
    obtain ⟨m', hm', hside⟩ := hmatches.exists_ok_right
    have hreached : Reached false env (ConstMapper.ofBytes b fd.content) m' := ⟨n, hm'⟩
    refine ⟨hreleases n m hrun hbefore, fun hloc size rest hsize => ?_⟩
    have hgoes := hside.goesOn hloc
    have hinput := hreached.reads.input
    rw [hcontent] at hfits hinput
    obtain ⟨done, suffix, hmidway⟩ :=
      (hinput.midway_told hfits hbody).1 (hside.input.seenEnd.trans hgoes)
    rw [← hcontent] at hfits hmidway
    exact hmidway.declaredSize?_le hfits hbody hsmall (hside.input.stands hgoes) hsize

end Machine

end MallocTraceReplay
