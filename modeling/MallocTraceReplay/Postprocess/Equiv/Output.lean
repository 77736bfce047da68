import MallocTraceReplay.Codec.Equiv.AltVarint
import MallocTraceReplay.Postprocess.Output
import MallocTraceReplay.Postprocess.Equiv.ReplayedCalls
import MallocTraceReplay.Replay.Equiv.Main

/-!
# From postprocessing to replay, in bytes

Replay finds in the bytes of an instruction that instruction (`Replay.instructionOfBytes?_bytes`),
so that its main loop replays what the receiver dumped, however the file comes in
(`Replay.Main.run_written`).
-/

namespace MallocTraceReplay

open AltVarintCodec StepMachine History

/-! ### One instruction -/

namespace Instruction

variable {i : Instruction}

theorem number_lt (t : Type_) : t.number.toNat < 2 ^ 8 := by cases t <;> decide

/-- The bit fields do not overlap. -/
theorem toNat_firstWord (h : i.reg.toNat < 2 ^ 56) :
    (i.type.number ||| i.reg <<< 8).toNat = i.reg.toNat * 2 ^ 8 + i.type.number.toNat := by
  have hlt := number_lt i.type
  have hor := Nat.two_pow_add_eq_or_of_lt (i := 8) hlt i.reg.toNat
  rw [UInt64.toNat_or, UInt64.toNat_shiftLeft, Nat.or_comm, Nat.shiftLeft_eq]
  simp only [UInt64.reduceToNat, Nat.reducePow, Nat.reduceMod] at hor ⊢
  rw [Nat.mod_eq_of_lt (by omega), Nat.mul_comm, ← hor]

theorem length_bytes (i : Instruction) : i.bytes.length = Replay.sizeofInstruction := by
  simp [bytes, length_storeBytes, Replay.sizeofInstruction]

end Instruction

namespace Replay

/-- The type is found by its number. -/
theorem typeOfByte?_number (t : Instruction.Type_) : typeOfByte? t.number = some t := by
  cases t <;> rfl

/-- **One instruction** is found in its bytes, with a register that its bit field has room for. -/
theorem instructionOfBytes?_bytes {i : Instruction} (h : i.reg.toNat < 2 ^ 56) :
    instructionOfBytes? i.bytes = some i := by
  have hword := Instruction.toNat_firstWord h
  have hlt := Instruction.number_lt i.type
  have htype : (i.type.number ||| i.reg <<< 8) &&& 0xff = i.type.number := by
    apply UInt64.toNat_inj.mp
    rw [UInt64.toNat_and, hword]
    show _ &&& 2 ^ 8 - 1 = _
    rw [Nat.and_two_pow_sub_one_eq_mod]
    omega
  have hreg : (i.type.number ||| i.reg <<< 8) >>> 8 = i.reg := by
    apply UInt64.toNat_inj.mp
    rw [UInt64.toNat_shiftRight, hword]
    show _ >>> 8 = _
    rw [Nat.shiftRight_eq_div_pow]
    omega
  have hfirst : i.bytes.take 8 = storeBytes (i.type.number ||| i.reg <<< 8) := by
    rw [Instruction.bytes, List.append_assoc, List.take_append_of_le_length
      (by rw [length_storeBytes]), List.take_of_length_le (by rw [length_storeBytes])]
  have hsecond : (i.bytes.drop 8).take 8 = storeBytes i.word0 := by
    rw [Instruction.bytes, List.append_assoc, List.drop_left' (length_storeBytes _),
      List.take_append_of_le_length (by rw [length_storeBytes]),
      List.take_of_length_le (by rw [length_storeBytes])]
  have hthird : (i.bytes.drop 16).take 8 = storeBytes i.word1 := by
    rw [Instruction.bytes, List.drop_left' (by simp [length_storeBytes]),
      List.take_of_length_le (by rw [length_storeBytes])]
  unfold instructionOfBytes?
  dsimp only
  rw [hfirst, hsecond, hthird, loadBytes_storeBytes, loadBytes_storeBytes, loadBytes_storeBytes,
    htype, hreg, typeOfByte?_number]
  rfl

/-! ### All instructions -/

variable {a : Allocator} {s : State} {is_ : List Instruction} {fd : InputFd}

/-- The bytes of instructions are replayed as the instructions are. -/
theorem replayBlocks_bytes (h : ∀ i ∈ is_, i.reg.toNat < 2 ^ 56) :
    replayBlocks a s (is_.map Instruction.bytes) = (s.replayAll a is_).mapError .replay := by
  induction is_ generalizing s with
  | nil => rfl
  | cons i is_ ih =>
    rw [List.forall_mem_cons] at h
    rw [List.map_cons, replayBlocks, State.replayAll, List.foldlM_cons, List.foldlM_cons,
      replayBytes, instructionOfBytes?_bytes h.1]
    dsimp only
    cases hi : s.replayInstruction a i with
    | error stop => rfl
    | ok s' => exact ih h.2

namespace Main

/-- **The whole file**: the main loop replays the instructions in it, however it comes in. -/
theorem run_written (hregs : ∀ i ∈ is_, i.reg.toNat < 2 ^ 56) (hne : is_ ≠ [])
    (hinput : fd.content.drop fd.position = is_.flatMap Instruction.bytes)
    (hdelivers : Reader.Delivers fd) :
    ∃ bound, ∀ fuel ≥ bound,
      (∀ stop, State.init.replayAll a is_ = .error stop →
        run fuel a fd is_.length = .error (.replay stop)) ∧
      ∀ s, State.init.replayAll a is_ = .ok s →
        ∃ m, run fuel a fd is_.length = .ok m ∧ m.state = s ∧
          m.replayed = is_.map Instruction.bytes ∧ m.returned = true := by
  have hblocks : ∀ bytes ∈ is_.map Instruction.bytes, bytes.length = sizeofInstruction := by
    intro bytes hbytes
    -- the file is cut into blocks of the size of an instruction, with nothing behind the last
    obtain ⟨i, -, rfl⟩ := List.mem_map.mp hbytes
    exact Instruction.length_bytes i
  have hinput' : fd.content.drop fd.position = (is_.map Instruction.bytes).flatten ++ [] := by
    rw [hinput, List.append_nil, List.flatMap_def]
  have hne' : is_.map Instruction.bytes ≠ [] := by simpa using hne
  have hstray : ([] : List UInt8).length < sizeofInstruction := by decide
  have hlen : (is_.map Instruction.bytes).length = is_.length := List.length_map _
  have hall : (is_.map Instruction.bytes).take is_.length = is_.map Instruction.bytes :=
    List.take_of_length_le (by rw [hlen])
  have hreplay := replayBlocks_bytes (a := a) (s := .init) hregs
  obtain ⟨bound, hends⟩ := run_ends a is_.length hdelivers hblocks hstray hne' hinput'
  -- the bound on the fuel is the one for the endless `EINTR`
  refine ⟨bound, fun fuel hfuel => ?_⟩
  rcases hends with ⟨e, he, hisReplay⟩ | ⟨m, hm, hat⟩
  · -- it stopped: `run_safe` leaves the replay of the blocks as the only reason
    have herror : replayBlocks a .init (is_.map Instruction.bytes) = .error e := by
      rcases run_safe a fuel is_.length hblocks hstray hne' hinput' with hout | ⟨e', he', hblock⟩ |
        ⟨m, hm, -⟩
      · rw [he fuel hfuel] at hout
        rw [Except.error.inj hout] at hisReplay
        exact hisReplay.elim
      · rw [he fuel hfuel] at he'
        rw [hall, ← Except.error.inj he'] at hblock
        exact hblock
      · simp [he fuel hfuel] at hm
    rw [hreplay] at herror
    refine ⟨fun stop hstop => ?_, fun s hs => ?_⟩
    · rw [hstop] at herror
      rw [he fuel hfuel, ← Except.error.inj herror]
    · simp [hs, Except.mapError] at herror
  · -- it came to the end of the blocks, in the state that they lead to
    have hok := hat.state
    rw [hall, hreplay] at hok
    refine ⟨fun stop hstop => ?_, fun s hs => ⟨m, hm fuel hfuel, ?_, ?_, ?_⟩⟩
    · simp [hstop, Except.mapError] at hok
    · rw [hs] at hok
      exact (Except.ok.inj hok).symm
    · rw [hat.replayed, hall]
    · rw [hat.returned, hlen]
      exact decide_eq_true (Nat.le_refl _)

/-- **The empty file** has no first instruction. -/
theorem run_empty (hinput : fd.content.drop fd.position = []) (hdelivers : Reader.Delivers fd) :
    ∃ bound, ∀ fuel ≥ bound, ∀ k, run fuel a fd k = .error .noInstruction := by
  obtain ⟨bound, bytes?, reader, htakes, hread⟩ :=
    Reader.bufferRead_ends (r := Reader.new fd) hdelivers good_new
  refine ⟨bound, fun fuel hfuel k => ?_⟩
  have hrest : (Reader.new fd).rest = [] := by
    rw [Reader.rest, Reader.unread]
    exact hinput
  rw [htakes.none (by rw [hrest]; decide)] at hread
  rw [run, start, hread fuel hfuel]
  rfl

end Main

end Replay

/-! ### What the receiver dumps -/

namespace SimpleReceiver

variable {r r' : SimpleReceiver} {call : Call} {calls : List Call}

theorem setReg_fits (reg : ℕ) : (UInt64.ofNat reg &&& 0xFFFFFFFFFFFFFF).toNat < 2 ^ 56 := by
  rw [UInt64.toNat_and]
  exact Nat.lt_of_le_of_lt Nat.and_le_right (by decide)

/-- A freed element. -/
theorem release_fits {tok : UInt64} (h : r.release tok = .ok r') :
    ∃ i, r'.out = r.out ++ [i] ∧ i.reg.toNat < 2 ^ 56 := by
  unfold release at h
  split at h
  · simp at h
  · obtain ⟨ids, -, h⟩ := bind_eq_ok.mp h
    obtain rfl := Except.ok.inj h
    exact ⟨_, rfl, setReg_fits _⟩

/-- The registers that are dumped fit into their bit field, and something is dumped for an event. -/
theorem receive_fits (h : r.receive call = .ok r') :
    ∃ dumped, r'.out = r.out ++ dumped ∧ (∀ i ∈ dumped, i.reg.toNat < 2 ^ 56) ∧
      ∀ ev, call = .event ev → dumped ≠ [] := by
  -- one instruction is written, whose register fits the bit field
  have hone : ∀ {i : Instruction}, r'.out = r.out ++ [i] → i.reg.toNat < 2 ^ 56 →
      ∃ dumped, r'.out = r.out ++ dumped ∧ (∀ i ∈ dumped, i.reg.toNat < 2 ^ 56) ∧
        ∀ ev, call = .event ev → dumped ≠ [] :=
    fun hout hreg => ⟨_, hout, by simpa using hreg, fun _ _ => List.cons_ne_nil _ _⟩
  cases call with
  | killCurrentThread | switchThread | setTS =>
    obtain rfl := Except.ok.inj h
    exact hone rfl (by simp [Instruction.new])
  | barrier | hasAllocated =>
    obtain rfl := Except.ok.inj h
    exact ⟨[], (List.append_nil _).symm, by simp, by simp⟩
  | event ev =>
    cases ev with
    | malloc | memalign =>
      obtain ⟨ids, -, h⟩ := bind_eq_ok.mp h
      obtain ⟨allocated, -, h⟩ := bind_eq_ok.mp h
      obtain rfl := Except.ok.inj h
      exact hone rfl (setReg_fits _)
    | free | freeSized =>
      obtain ⟨r₁, hrelease, h⟩ := bind_eq_ok.mp h
      obtain rfl := Except.ok.inj h
      obtain ⟨i, hout, hreg⟩ := release_fits hrelease
      exact hone hout hreg
    | realloc =>
      obtain ⟨ids, -, h⟩ := bind_eq_ok.mp h
      dsimp only at h
      split at h
      · simp at h
      · obtain ⟨allocated, -, h⟩ := bind_eq_ok.mp h
        obtain ⟨ids', -, h⟩ := bind_eq_ok.mp h
        obtain rfl := Except.ok.inj h
        exact hone rfl (setReg_fits _)

theorem receiveAll_fits (h : init.receiveAll calls = .ok r) :
    ∀ i ∈ r.out, i.reg.toNat < 2 ^ 56 := by
  induction calls using List.reverseRecOn generalizing r with
  | nil =>
    obtain rfl := Except.ok.inj h
    simp [init]
  | append_singleton calls call ih =>
    rw [receiveAll_concat] at h
    obtain ⟨r₀, hr₀, hreceive⟩ := bind_eq_ok.mp h
    obtain ⟨dumped, hout, hdumped, -⟩ := receive_fits hreceive
    rw [hout]
    exact List.forall_mem_append.mpr ⟨ih hr₀, hdumped⟩

/-- Something is dumped where there is an event. -/
theorem out_ne_nil (h : init.receiveAll calls = .ok r) {ev : InnerEvent}
    (hev : .event ev ∈ calls) : r.out ≠ [] := by
  induction calls using List.reverseRecOn generalizing r with
  | nil => simp at hev
  | append_singleton calls call ih =>
    rw [receiveAll_concat] at h
    obtain ⟨r₀, hr₀, hreceive⟩ := bind_eq_ok.mp h
    obtain ⟨dumped, hout, -, hdumped⟩ := receive_fits hreceive
    rw [hout, ne_eq, List.append_eq_nil_iff]
    rintro ⟨hbefore, hnone⟩
    rcases List.mem_append.mp hev with hold | hnew
    · exact ih hr₀ hold hbefore
    · exact hdumped ev (List.mem_singleton.mp hnew).symm hnone

theorem out_fits (h : init.receiveAll calls = .ok r) (elements : List Element) :
    ∀ i ∈ (r.dumpAllDeallocations elements).out, i.reg.toNat < 2 ^ 56 := by
  rw [out_dumpAllDeallocations]
  refine List.forall_mem_append.mpr ⟨receiveAll_fits h, fun i hi => ?_⟩
  obtain ⟨e, -, rfl⟩ := List.mem_map.mp hi
  exact setReg_fits _

end SimpleReceiver

/-! ### The two programs -/

/-- **The file is replayed**: legal calls dump instructions whose replay, however their bytes come
in, asks the allocator for what the events of the calls ask for, and then frees what is left. -/
theorem SimpleReceiver.replays_file {a : Replay.Allocator} (ha : ∀ k, a.pointer k ≠ 0)
    {calls : List Call} (h : LegalCalls calls)
    (hlive : ∀ before after, calls = before ++ after → (liveTokens before).length < 2 ^ 30) :
    ∃ r, init.receiveAll calls = .ok r ∧
      ∀ (elements : List Element) (fd : InputFd), elements.Perm r.allocated →
        fd.content.drop fd.position = (r.dumpAllDeallocations elements).written →
        Replay.Reader.Delivers fd →
        let client := clientCalls a calls ++ deallocations a (allocationsOf calls) elements
        let out := (r.dumpAllDeallocations elements).out
        ∃ bound, ∀ fuel ≥ bound,
          (out = [] → ∀ k, Replay.Main.run fuel a fd k = .error .noInstruction) ∧
          (out ≠ [] → ThreadsAllowed calls →
            ∃ main, Replay.Main.run fuel a fd out.length = .ok main ∧ main.returned = true ∧
              main.replayed = out.map Instruction.bytes ∧
              Replay.State.init.replayTraced a out = (client, .ok main.state) ∧
              main.state.allocatedCount = 0 ∧ ∀ reg, main.state.registers reg = 0) ∧
          (out ≠ [] → ¬ ThreadsAllowed calls →
            Replay.Main.run fuel a fd out.length = .error (.replay .threadAssertion)) := by
  obtain ⟨r, hreceived, hreplays⟩ := replays_client ha h hlive
  refine ⟨r, hreceived, ?_⟩
  intro elements fd hperm hinput hdelivers client out
  obtain ⟨-, hpasses, hstops⟩ := hreplays elements hperm
  by_cases hempty : out = []
  · -- no call wrote anything, so that the first instruction is missing
    have hnone : fd.content.drop fd.position = [] := by
      rw [hinput, written]
      show out.flatMap Instruction.bytes = []
      rw [hempty, List.flatMap_nil]
    obtain ⟨bound, hbound⟩ := Replay.Main.run_empty (a := a) hnone hdelivers
    exact ⟨bound, fun fuel hfuel => ⟨fun _ => hbound fuel hfuel,
      fun hne => absurd hempty hne, fun hne => absurd hempty hne⟩⟩
  · obtain ⟨bound, hbound⟩ := Replay.Main.run_written (a := a)
      (out_fits hreceived elements) hempty hinput hdelivers
    refine ⟨bound, fun fuel hfuel => ⟨fun heq => absurd heq hempty, fun _ hallowed => ?_,
      fun _ hnot => ?_⟩⟩
    · -- all is replayed, with the deallocations
      obtain ⟨s, htraced, hcount, hnull⟩ := hpasses hallowed
      have hreplay := (Replay.State.replayTraced_snd a .init out).symm.trans
        (congrArg Prod.snd htraced)
      obtain ⟨main, hrun, rfl, hreplayed, hreturned⟩ := (hbound fuel hfuel).2 s hreplay
      exact ⟨main, hrun, hreturned, hreplayed, htraced, hcount, hnull⟩
    · -- it stops at the first switch or kill that is not allowed
      obtain ⟨made, -, htraced⟩ := hstops hnot
      have hreplay := (Replay.State.replayTraced_snd a .init out).symm.trans
        (congrArg Prod.snd htraced)
      exact (hbound fuel hfuel).1 _ hreplay

namespace Machine

variable {env : Env} {b : UInt64} {data : List UInt8} {m : Machine ConstMapper}

/-- **From the trace to the allocator.**  Replay of the file that postprocessing wrote, however its
bytes come in, runs all its instructions, which ask the allocator for what the delivered events ask
for and then free what is left; it returns with no register set.  It stops where the switches
between threads are not such that it accepts them, and at once if the file is empty. -/
theorem Reached.replays_written (h : InUserSpace b data) (hf : env.Faithful)
    (honce : TokensUsedOnce env (ConstMapper.ofBytes b data))
    (hm : Reached false env (ConstMapper.ofBytes b data) m)
    (hlive : ∀ before after, m.state.calls = before ++ after → (liveTokens before).length < 2 ^ 30)
    {a : Replay.Allocator} (ha : ∀ k, a.pointer k ≠ 0) :
    ∃ r, SimpleReceiver.init.receiveAll m.state.calls = .ok r ∧
      ∀ (elements : List Element) (fd : InputFd), elements.Perm r.allocated →
        fd.content.drop fd.position = (r.dumpAllDeallocations elements).written →
        Replay.Reader.Delivers fd →
        let client := clientCalls a m.state.calls ++
          SimpleReceiver.deallocations a (allocationsOf m.state.calls) elements
        let out := (r.dumpAllDeallocations elements).out
        ∃ bound, ∀ fuel ≥ bound,
          (out = [] → ∀ k, Replay.Main.run fuel a fd k = .error .noInstruction) ∧
          (out ≠ [] → ThreadsAllowed m.state.calls →
            ∃ main, Replay.Main.run fuel a fd out.length = .ok main ∧ main.returned = true ∧
              main.replayed = out.map Instruction.bytes ∧
              Replay.State.init.replayTraced a out = (client, .ok main.state) ∧
              main.state.allocatedCount = 0 ∧ ∀ reg, main.state.registers reg = 0) ∧
          (out ≠ [] → ¬ ThreadsAllowed m.state.calls →
            Replay.Main.run fuel a fd out.length = .error (.replay .threadAssertion)) :=
  SimpleReceiver.replays_file ha (hm.legalCalls h hf honce) hlive

/-- The file comes in seven bytes at a time. -/
theorem replays_written_recyclingTrace :
    ∃ m r, Reached false .tokenSet (ConstMapper.ofBytes 0x10000 recyclingTrace) m ∧
      SimpleReceiver.init.receiveAll m.state.calls = .ok r ∧
      ∃ bound, ∀ fuel ≥ bound, ∃ main, Replay.Main.run fuel pieces
          { content := (r.dumpAllDeallocations r.allocated).written, schedule := fun _ => .bytes 7 }
          11 = .ok main ∧
        main.returned = true ∧ main.replayed.length = 11 ∧ main.state.allocatedCount = 0 := by
  obtain ⟨m, hm, hloc, hcalls⟩ := serialize_recyclingTrace
  have hreached : Reached false .tokenSet (ConstMapper.ofBytes 0x10000 recyclingTrace) m := ⟨16, hm⟩
  obtain ⟨r, hr, hreplays⟩ := hreached.replays_written inUserSpace_recyclingTrace
    Env.faithful_tokenSet tokensUsedOnce_recyclingTrace
    (by rw [hcalls]; exact length_liveTokens_recyclingCalls) pieces_pointer_ne
  have hlen : (r.dumpAllDeallocations r.allocated).out.length = 11 := by
    have hmap := congrArg (Except.map fun r : SimpleReceiver => r.out.length) hr
    rw [hcalls] at hmap
    have hout : r.out.length = 10 := Except.ok.inj (hmap.symm.trans (by decide +kernel))
    rw [SimpleReceiver.out_dumpAllDeallocations, List.length_append, List.length_map, hout,
      allocated_recyclingCalls (hcalls ▸ hr)]
    rfl
  obtain ⟨bound, hbound⟩ := hreplays r.allocated
    { content := (r.dumpAllDeallocations r.allocated).written, schedule := fun _ => .bytes 7 }
    (List.Perm.refl _) rfl fun k => ⟨0, by simp⟩
  refine ⟨m, r, hreached, hr, bound, fun fuel hfuel => ?_⟩
  obtain ⟨main, hrun, hreturned, hreplayed, -, hcount, -⟩ := (hbound fuel hfuel).2.1
    (List.ne_nil_of_length_pos (by rw [hlen]; decide))
    (by rw [hcalls]; exact threadsAllowed_recyclingCalls)
  rw [hlen] at hrun
  exact ⟨main, hrun, hreturned, by rw [hreplayed, List.length_map, hlen], hcount⟩

end Machine

end MallocTraceReplay
