import MallocTraceReplay.Postprocess.Equiv.SimpleReceiver
import MallocTraceReplay.Serializer.Equiv.Attribution

/-!
# Tokens and registers

Replay of the memory instructions that the receiver dumps keeps in the registers just the pointers
of the live tokens (`Holds`): a register of the receiver's elements has the pointer that the last
allocation of its token returned, every other register is null.
-/

namespace MallocTraceReplay

open StepMachine History

/-! ### Allocations -/

/-- The token that a call allocates. -/
def Call.newTok? : Call → Option UInt64
  | .event ev => ev.newTok?
  | .killCurrentThread | .switchThread _ | .setTS _ _ | .barrier | .hasAllocated _ => none

/-- The tokens that calls allocate, in order: the `k`-th one is for the `k`-th allocation of
replay. -/
def allocationsOf (calls : List Call) : List UInt64 := calls.filterMap Call.newTok?

theorem allocationsOf_concat (calls : List Call) (call : Call) :
    allocationsOf (calls ++ [call]) = allocationsOf calls ++ call.newTok?.toList := by
  rw [allocationsOf, List.filterMap_append]
  cases h : call.newTok? <;> simp [h, allocationsOf]

/-- The register that an instruction fills, and the size of the memory. -/
def Instruction.filled? (i : Instruction) : Option (UInt64 × UInt64) :=
  match i.type with
  | .MALLOC | .MEMALIGN => some (i.reg, i.mallocSize)
  | .REALLOC => some (i.reallocNewReg, i.reallocNewSize)
  | .FREE | .FREE_SIZED | .SWITCH_THREAD | .KILL_THREAD | .SET_TS_CPU => none

/-- The size of the instruction that last filled a register. -/
def lastSize (is_ : List Instruction) (reg : UInt64) : Option UInt64 :=
  is_.foldl (fun size i =>
    match i.filled? with
    | some (r, newSize) => if r = reg then some newSize else size
    | none => size) none

/-- A sized free carries the size of the instruction that last filled its register. -/
def SizedFrees (is_ : List Instruction) : Prop :=
  ForAllCuts (fun before i => i.type = .FREE_SIZED → lastSize before i.reg = some i.mallocSize) is_

theorem lastSize_concat (is_ : List Instruction) (i : Instruction) (reg : UInt64) :
    lastSize (is_ ++ [i]) reg =
      match i.filled? with
      | some (r, newSize) => if r = reg then some newSize else lastSize is_ reg
      | none => lastSize is_ reg := by
  rw [lastSize, List.foldl_concat]
  rfl

/-! ### Registers -/

/-- The registers have the pointers of the elements: each the one that the last allocation of its
token returned.  The others are null. -/
structure Holds (a : Replay.Allocator) (allocs : List UInt64) (m : AllocatedMap)
    (registers : ℕ → UInt64) : Prop where
  live : ∀ reg, registers reg ≠ 0 ↔ ∃ e ∈ m, e.reg = reg
  pointer : ∀ e ∈ m, ∃ k, IsGreatest {k | allocs[k]? = some e.token} k ∧
    registers e.reg = a.pointer k

section Holds

variable {a : Replay.Allocator} {allocs : List UInt64} {m : AllocatedMap} {f : ℕ → UInt64}
  {e : Element}

theorem holds_init (a : Replay.Allocator) : Holds a [] [] fun _ => 0 where
  live := by simp
  pointer := by simp

theorem Holds.register_eq_zero (h : Holds a allocs m f) {reg : ℕ} (hreg : ∀ e ∈ m, e.reg ≠ reg) :
    f reg = 0 := by
  by_contra hne
  obtain ⟨e, he, heq⟩ := (h.live reg).mp hne
  exact hreg e he heq

/-- **A register is cleared** with its element. -/
theorem Holds.clear {m' : AllocatedMap} (h : Holds a allocs m f) (hm : m.Perm (e :: m'))
    (hnodup : (e.reg :: m'.map Element.reg).Nodup) :
    Holds a allocs m' fun r => if r = e.reg then 0 else f r := by
  have hne : ∀ e' ∈ m', e'.reg ≠ e.reg := by
    intro e' he' heq
    exact (List.nodup_cons.mp hnodup).1 (List.mem_map.mpr ⟨e', he', heq⟩)
  have hsub : ∀ e' ∈ m', e' ∈ m := fun e' he' => hm.mem_iff.mpr (List.mem_cons_of_mem _ he')
  refine ⟨fun reg => ?_, fun e' he' => ?_⟩
  · split
    · next hreg =>
      subst hreg
      simp only [ne_eq, not_true_eq_false, false_iff, not_exists, not_and]
      exact hne
    · next hreg =>
      rw [h.live]
      constructor
      · rintro ⟨e', he', rfl⟩
        rcases List.mem_cons.mp (hm.mem_iff.mp he') with rfl | he'
        · exact absurd rfl hreg
        · exact ⟨e', he', rfl⟩
      · rintro ⟨e', he', rfl⟩
        exact ⟨e', hsub e' he', rfl⟩
  · rw [if_neg (hne e' he')]
    exact h.pointer e' (hsub e' he')

/-- **A register is filled** for a new element. -/
theorem Holds.put (h : Holds a allocs m f) (hpointer : a.pointer allocs.length ≠ 0)
    (htok : e.token ∉ m.map Element.token) (hreg : e.reg ∉ m.map Element.reg) :
    Holds a (allocs ++ [e.token]) (e :: m)
      fun r => if r = e.reg then a.pointer allocs.length else f r := by
  have hne : ∀ e' ∈ m, e'.reg ≠ e.reg := fun e' he' heq =>
    hreg (List.mem_map.mpr ⟨e', he', heq⟩)
  refine ⟨fun reg => ?_, List.forall_mem_cons.mpr ⟨⟨allocs.length, ⟨?_, ?_⟩, if_pos rfl⟩, ?_⟩⟩
  · split
    · next heq => simp [hpointer, heq]
    · next heq =>
      rw [h.live]
      simp [Ne.symm heq]
  · show (allocs ++ [e.token])[allocs.length]? = some e.token
    simp
  · intro j hj
    have hlt := (List.getElem?_eq_some_iff.mp hj).1
    rw [List.length_append, List.length_singleton] at hlt
    exact Nat.le_of_lt_succ hlt
  · intro e' he'
    obtain ⟨k, hk, hpointer'⟩ := h.pointer e' he'
    -- the new allocation is not of this token
    have hother : e'.token ≠ e.token := fun heq => htok (List.mem_map.mpr ⟨e', he', heq⟩)
    have hset : {k : ℕ | (allocs ++ [e.token])[k]? = some e'.token} =
        {k : ℕ | allocs[k]? = some e'.token} := by
      ext j
      simp only [Set.mem_ofPred_eq, List.getElem?_append]
      split
      · rfl
      · next hj =>
        rw [List.getElem?_eq_none (Nat.le_of_not_lt hj)]
        cases hsub : j - allocs.length with
        | zero => simp [Ne.symm hother]
        | succ n => simp
    refine ⟨k, by rw [hset]; exact hk, ?_⟩
    rw [if_neg (hne e' he')]
    exact hpointer'

end Holds

/-! ### One instruction -/

namespace Replay.State

variable {a : Replay.Allocator} {s : Replay.State} {i : Instruction}

/-- Attaching a thread cache has no effect on the registers. -/
theorem replayInstruction_eq (a : Replay.Allocator) (s : Replay.State) (i : Instruction) :
    ∃ s' : Replay.State, s'.registers = s.registers ∧ s'.allocations = s.allocations ∧
      s.replayInstruction a i = execute a s' i := by
  unfold replayInstruction
  by_cases hattach : a.attaches i.type = true
  · rw [if_pos hattach]
    exact ⟨{ s with caches := s.caches.use }, rfl, rfl, rfl⟩
  · rw [if_neg hattach]
    exact ⟨s, rfl, rfl, rfl⟩

theorem allocate_eq (h : a.pointer s.allocations ≠ 0) :
    s.allocate a = .ok (a.pointer s.allocations, { s with allocations := s.allocations + 1 }) :=
  if_neg h

variable {reg newReg : ℕ}

/-- A `MALLOC` or `MEMALIGN` fills a register that is null. -/
theorem execute_fill (htype : i.type = .MALLOC ∨ i.type = .MEMALIGN) (hreg : i.reg.toNat = reg)
    (hlt : reg < kMaxRegisters) (hpointer : a.pointer s.allocations ≠ 0)
    (hnull : s.registers reg = 0) :
    ∃ s', execute a s i = .ok s' ∧ s'.allocations = s.allocations + 1 ∧
      s'.registers = fun r => if r = reg then a.pointer s.allocations else s.registers r := by
  subst hreg
  rcases htype with htype | htype
  · simp only [execute, htype, allocate_eq hpointer, ok_bind, register_of_lt hlt, hnull, ne_eq,
      not_true_eq_false, if_false, setRegister_of_lt hlt]
    exact ⟨_, rfl, rfl, rfl⟩
  · have hpointer' : a.pointer { s with allocatedCount := s.allocatedCount + 1 }.allocations ≠ 0 :=
      hpointer
    simp only [execute, htype, allocate_eq hpointer', ok_bind, setRegister_of_lt hlt]
    exact ⟨_, rfl, rfl, rfl⟩

/-- A `FREE` or `FREE_SIZED` clears a register that is set. -/
theorem execute_release (htype : i.type = .FREE ∨ i.type = .FREE_SIZED) (hreg : i.reg.toNat = reg)
    (hlt : reg < kMaxRegisters) (hset : s.registers reg ≠ 0) :
    ∃ s', execute a s i = .ok s' ∧ s'.allocations = s.allocations ∧
      s'.registers = fun r => if r = reg then 0 else s.registers r := by
  subst hreg
  rcases htype with htype | htype
  all_goals
    simp only [execute, htype, liveRegister_of_lt hlt, hset, if_false, ok_bind,
      setRegister_of_lt hlt]
    exact ⟨_, rfl, rfl, rfl⟩

/-- A `REALLOC` clears a register that is set, and fills another one. -/
theorem execute_realloc (htype : i.type = .REALLOC) (hreg : i.reg.toNat = reg)
    (hlt : reg < kMaxRegisters) (hset : s.registers reg ≠ 0)
    (hnewReg : i.reallocNewReg.toNat = newReg) (hnewlt : newReg < kMaxRegisters)
    (hpointer : a.pointer s.allocations ≠ 0) :
    ∃ s', execute a s i = .ok s' ∧ s'.allocations = s.allocations + 1 ∧
      s'.registers = fun r => if r = newReg then a.pointer s.allocations
        else if r = reg then 0 else s.registers r := by
  subst hreg hnewReg
  simp only [execute, htype, liveRegister_of_lt hlt, hset, if_false, ok_bind,
    allocate_eq hpointer, setRegister_of_lt hlt, setRegister_of_lt hnewlt]
  exact ⟨_, rfl, rfl, rfl⟩

end Replay.State

/-- A register within the array. -/
theorem toNat_ofNat_reg {reg : ℕ} (h : reg < 2 ^ 30) : (UInt64.ofNat reg).toNat = reg := by
  rw [UInt64.toNat_ofNat']
  omega

/-- The bit field has room for it. -/
theorem regField_eq {reg : ℕ} (h : reg < 2 ^ 30) :
    UInt64.ofNat reg &&& 0xFFFFFFFFFFFFFF = UInt64.ofNat reg := by
  apply UInt64.toNat_inj.mp
  rw [UInt64.toNat_and, toNat_ofNat_reg h]
  show reg &&& 2 ^ 56 - 1 = reg
  rw [Nat.and_two_pow_sub_one_eq_mod]
  omega

theorem ofNat_reg_inj {reg reg' : ℕ} (h : reg < 2 ^ 30) (h' : reg' < 2 ^ 30) :
    UInt64.ofNat reg = UInt64.ofNat reg' ↔ reg = reg' := by
  constructor
  · intro heq
    rw [← toNat_ofNat_reg h, heq, toNat_ofNat_reg h']
  · rintro rfl
    rfl

namespace SimpleReceiver

variable {a : Replay.Allocator} {s : Replay.State} {calls : List Call} {r : SimpleReceiver}

/-- The memory instructions dumped so far. -/
def memory (r : SimpleReceiver) : List Instruction := r.out.filter Instruction.isMemory

/-- Replay has done what the receiver was told. -/
structure Agrees (a : Replay.Allocator) (calls : List Call) (r : SimpleReceiver)
    (s : Replay.State) : Prop where
  allocations : s.allocations = (allocationsOf calls).length
  holds : Holds a (allocationsOf calls) r.allocated s.registers
  sizes : ∀ e ∈ r.allocated, lastSize r.memory (UInt64.ofNat e.reg) = some e.size

section Sizes

variable {m : AllocatedMap} {is_ : List Instruction} {i : Instruction}

/-- A register that is filled has the size; the others have theirs. -/
theorem sizes_fill (hsizes : ∀ e ∈ m, lastSize is_ (UInt64.ofNat e.reg) = some e.size)
    {tok size : UInt64} {reg : ℕ} (hfilled : i.filled? = some (UInt64.ofNat reg, size))
    (hreg : reg ∉ m.map Element.reg) (hlt : reg < 2 ^ 30) (hm : ∀ e ∈ m, e.reg < 2 ^ 30) :
    ∀ e ∈ (⟨tok, reg, size⟩ :: m : AllocatedMap),
      lastSize (is_ ++ [i]) (UInt64.ofNat e.reg) = some e.size := by
  intro e he
  rw [lastSize_concat, hfilled]
  rcases List.mem_cons.mp he with rfl | he
  · exact if_pos rfl
  · have hne : reg ≠ e.reg := fun heq => hreg (List.mem_map.mpr ⟨e, he, heq.symm⟩)
    dsimp only
    rw [if_neg fun heq => hne ((ofNat_reg_inj hlt (hm e he)).mp heq)]
    exact hsizes e he

/-- An instruction that fills no register. -/
theorem lastSize_concat_none (hfilled : i.filled? = none) (reg : UInt64) :
    lastSize (is_ ++ [i]) reg = lastSize is_ reg := by
  rw [lastSize_concat, hfilled]

end Sizes

/-- **One event**: replay passes the checks of its instruction, and agrees with the receiver
again. -/
theorem Agrees.event {live live' : List UInt64} (ha : ∀ k, a.pointer k ≠ 0)
    (h : Agrees a calls r s) (hrep : r.Represents live)
    (hregs : ∀ e ∈ r.allocated, e.reg < 2 ^ 30) {ev : InnerEvent} {i : Instruction}
    {r' : SimpleReceiver} (heffect : Effect r.allocated ev i r'.allocated)
    (hout : r'.out = r.out ++ [i]) (hrep' : r'.Represents live')
    (hregs' : ∀ e ∈ r'.allocated, e.reg < 2 ^ 30) :
    r'.memory = r.memory ++ [i] ∧
      (∃ s', s.replayInstruction a i = .ok s' ∧ Agrees a (calls ++ [.event ev]) r' s') ∧
      (i.type = .FREE_SIZED → lastSize r.memory i.reg = some i.mallocSize) := by
  have hmemory : i.isMemory = true → r'.memory = r.memory ++ [i] := by
    intro hi
    rw [memory, memory, hout, List.filter_append, List.filter_cons_of_pos hi, List.filter_nil]
  obtain ⟨s₁, hregisters, hallocations, hexecute⟩ := Replay.State.replayInstruction_eq a s i
  rw [hexecute]
  have hholds : Holds a (allocationsOf calls) r.allocated s₁.registers := by
    rw [hregisters]
    exact h.holds
  have hcount : s₁.allocations = (allocationsOf calls).length := hallocations.trans h.allocations
  have hpointer := ha s₁.allocations
  have htokens := hrep'.tokens_nodup
  have hregsNodup := hrep'.regs_nodup
  have hsizes := h.sizes
  generalize hm : r'.allocated = m' at heffect hregs' htokens hregsNodup
  -- a new element
  have hfill : ∀ {tok size : UInt64} {reg : ℕ}, ev.newTok? = some tok →
      m' = ⟨tok, reg, size⟩ :: r.allocated → i.type = .MALLOC ∨ i.type = .MEMALIGN →
      i.reg = UInt64.ofNat reg &&& 0xFFFFFFFFFFFFFF → i.mallocSize = size →
      r'.memory = r.memory ++ [i] ∧
        (∃ s', Replay.State.execute a s₁ i = .ok s' ∧
          Agrees a (calls ++ [.event ev]) r' s') ∧
        (i.type = .FREE_SIZED → lastSize r.memory i.reg = some i.mallocSize) := by
    rintro tok size reg hnew rfl htype hreg hsize
    have hlt := hregs' _ (List.mem_cons_self ..)
    change reg < 2 ^ 30 at hlt
    rw [List.map_cons, List.nodup_cons] at htokens hregsNodup
    rw [regField_eq hlt] at hreg
    have hi : i.isMemory = true := by
      unfold Instruction.isMemory
      rcases htype with htype | htype <;> rw [htype]
    have hfilled : i.filled? = some (UInt64.ofNat reg, size) := by
      unfold Instruction.filled?
      rcases htype with htype | htype <;> rw [htype, hreg, hsize]
    have hnull : s₁.registers reg = 0 := hholds.register_eq_zero fun e he heq =>
      hregsNodup.1 (List.mem_map.mpr ⟨e, he, heq⟩)
    obtain ⟨s', hs', hallocations', hregisters'⟩ := Replay.State.execute_fill htype
      (by rw [hreg, toNat_ofNat_reg hlt]) hlt hpointer hnull
    have halloc : allocationsOf (calls ++ [.event ev]) = allocationsOf calls ++ [tok] := by
      rw [allocationsOf_concat, Call.newTok?, hnew, Option.toList_some]
    refine ⟨hmemory hi, ⟨s', hs', ?_, ?_, ?_⟩, ?_⟩
    · rw [hallocations', halloc, List.length_append, List.length_singleton, hcount]
    · rw [hm, hregisters', halloc, hcount]
      rw [hcount] at hpointer
      exact hholds.put (e := ⟨tok, reg, size⟩) hpointer htokens.1 hregsNodup.1
    · rw [hmemory hi, hm]
      exact sizes_fill hsizes hfilled hregsNodup.1 hlt hregs
    · intro hno
      rcases htype with htype | htype <;> rw [htype] at hno <;> exact absurd hno (by decide)
  -- an element that goes
  have hrelease : ∀ {e : Element}, e ∈ r.allocated → ev.newTok? = none →
      m' = List.erase r.allocated e →
      i = { (Instruction.new .FREE_SIZED).setReg e.reg with word0 := e.size } →
      r'.memory = r.memory ++ [i] ∧
        (∃ s', Replay.State.execute a s₁ i = .ok s' ∧
          Agrees a (calls ++ [.event ev]) r' s') ∧
        (i.type = .FREE_SIZED → lastSize r.memory i.reg = some i.mallocSize) := by
    rintro e he hnew rfl rfl
    have hlt := hregs e he
    have hreg : (UInt64.ofNat e.reg &&& 0xFFFFFFFFFFFFFF) = UInt64.ofNat e.reg := regField_eq hlt
    have hset : s₁.registers e.reg ≠ 0 := (hholds.live _).mpr ⟨e, he, rfl⟩
    obtain ⟨s', hs', hallocations', hregisters'⟩ := Replay.State.execute_release (a := a)
      (i := { (Instruction.new .FREE_SIZED).setReg e.reg with word0 := e.size }) (Or.inr rfl)
      (show (UInt64.ofNat e.reg &&& 0xFFFFFFFFFFFFFF).toNat = e.reg by
        rw [hreg, toNat_ofNat_reg hlt]) hlt hset
    have halloc : allocationsOf (calls ++ [.event ev]) = allocationsOf calls := by
      rw [allocationsOf_concat, Call.newTok?, hnew, Option.toList_none, List.append_nil]
    refine ⟨hmemory rfl, ⟨s', hs', ?_, ?_, ?_⟩, fun _ => ?_⟩
    · rw [hallocations', halloc, hcount]
    · rw [hm, hregisters', halloc]
      exact hholds.clear (List.perm_cons_erase he) (hrep.erase_regs he)
    · rw [hmemory rfl, hm]
      intro e' he'
      rw [lastSize_concat_none rfl]
      exact hsizes e' (List.mem_of_mem_erase he')
    · show lastSize r.memory (UInt64.ofNat e.reg &&& 0xFFFFFFFFFFFFFF) = _
      rw [hreg]
      exact hsizes e he
  cases heffect with
  | malloc hleast => exact hfill rfl rfl (Or.inl rfl) rfl rfl
  | memalign hleast => exact hfill rfl rfl (Or.inr rfl) rfl rfl
  | free he => exact hrelease he rfl rfl rfl
  | freeSized he => exact hrelease he rfl rfl rfl
  | @realloc e newTok newSize newReg he hleast =>
    have hlt := hregs e he
    have hnewlt := hregs' _ (List.mem_cons_self ..)
    change newReg < 2 ^ 30 at hnewlt
    rw [List.map_cons, List.nodup_cons] at htokens hregsNodup
    have hset : s₁.registers e.reg ≠ 0 := (hholds.live _).mpr ⟨e, he, rfl⟩
    obtain ⟨s', hs', hallocations', hregisters'⟩ := Replay.State.execute_realloc (a := a)
      (i := { (Instruction.new .REALLOC).setReg e.reg with
        word0 := UInt64.ofNat newReg, word1 := newSize }) rfl
      (show (UInt64.ofNat e.reg &&& 0xFFFFFFFFFFFFFF).toNat = e.reg by
        rw [regField_eq hlt, toNat_ofNat_reg hlt]) hlt hset
      (toNat_ofNat_reg hnewlt) hnewlt hpointer
    have halloc : allocationsOf (calls ++ [.event (.realloc e.token newTok newSize)]) =
        allocationsOf calls ++ [newTok] := allocationsOf_concat _ _
    refine ⟨hmemory rfl, ⟨s', hs', ?_, ?_, ?_⟩, fun hno => absurd hno (by
      simp [Instruction.setReg, Instruction.new])⟩
    · rw [hallocations', halloc, List.length_append, List.length_singleton, hcount]
    · rw [hm, hregisters', halloc, hcount]
      rw [hcount] at hpointer
      have hcleared := hholds.clear (List.perm_cons_erase he) (hrep.erase_regs he)
      exact hcleared.put (e := ⟨newTok, newReg, newSize⟩) hpointer htokens.1 hregsNodup.1
    · rw [hmemory rfl, hm]
      exact sizes_fill (fun e' he' => hsizes e' (List.mem_of_mem_erase he')) rfl hregsNodup.1 hnewlt
        fun e' he' => hregs e' (List.mem_of_mem_erase he')

/-- A call that is no event changes nothing that replay agrees on. -/
theorem Agrees.of_not_event {call : Call} (h : Agrees a calls r s) (hcall : ∀ ev, call ≠ .event ev)
    {r' : SimpleReceiver} (hmap : r'.allocated = r.allocated) (hmemory : r'.memory = r.memory) :
    Agrees a (calls ++ [call]) r' s := by
  have halloc : allocationsOf (calls ++ [call]) = allocationsOf calls := by
    rw [allocationsOf_concat]
    cases call with
    | event ev => exact absurd rfl (hcall ev)
    | killCurrentThread | switchThread | setTS | barrier | hasAllocated => exact List.append_nil _
  exact ⟨by rw [halloc]; exact h.allocations, by rw [halloc, hmap]; exact h.holds,
    by rw [hmap, hmemory]; exact h.sizes⟩

/-- **The whole stream**: replay passes every check, and agrees with the receiver. -/
theorem agrees_of_legal (ha : ∀ k, a.pointer k ≠ 0) (h : LegalCalls calls)
    (hlive : ∀ before after, calls = before ++ after → (liveTokens before).length < 2 ^ 30) :
    ∃ r s, init.receiveAll calls = .ok r ∧ r.Represents (liveTokens calls) ∧
      Replay.State.init.replayAll a r.memory = .ok s ∧ Agrees a calls r s ∧
        SizedFrees r.memory := by
  induction calls using List.reverseRecOn with
  | nil =>
    exact ⟨init, .init, rfl, represents_init, rfl, ⟨rfl, holds_init a, by simp [init]⟩,
      forAllCuts_nil⟩
  | append_singleton calls call ih =>
    obtain ⟨hcalls, hcall⟩ := forAllCuts_concat.mp h
    obtain ⟨r, s, hreceived, hrep, hreplay, hagrees, hsized⟩ := ih hcalls
      fun before after heq => hlive before (after ++ [call]) (by rw [heq]; simp)
    obtain ⟨r', dumped, hreceive, hout, hrep', hcases⟩ := hrep.receive_call hcall
    have hreceived' : init.receiveAll (calls ++ [call]) = .ok r' := by
      rw [receiveAll_concat, hreceived]
      exact hreceive
    rw [← liveTokens_append] at hrep'
    have hregs := (registers_lt hcalls
      (fun before after heq => hlive before (after ++ [call]) (by rw [heq]; simp)) hreceived).1
    have hregs' := (registers_lt h hlive hreceived').1
    -- an event dumps one instruction for the registers
    rcases hcases with ⟨ev, i, rfl, rfl, heffect⟩ | ⟨hno, hmap, hdumped⟩
    · obtain ⟨hmemory, ⟨s', hs', hagrees'⟩, hsize⟩ :=
        hagrees.event ha hrep hregs heffect hout hrep' hregs'
      refine ⟨r', s', hreceived', hrep', ?_, hagrees', ?_⟩
      · rw [hmemory, Replay.State.replayAll, List.foldlM_append]
        rw [Replay.State.replayAll] at hreplay
        rw [hreplay, ok_bind, List.foldlM_cons, hs']
        rfl
      · rw [hmemory]
        exact forAllCuts_concat.mpr ⟨hsized, hsize⟩
    · -- any other call dumps none
      have hmemory_nil : dumped.filter Instruction.isMemory = [] :=
        List.filter_eq_nil_iff.mpr fun i hi => by simp [(hdumped i hi).2.2]
      have hmemory : r'.memory = r.memory := by
        rw [memory, memory, hout, List.filter_append,
          hmemory_nil, List.append_nil]
      refine ⟨r', s, hreceived', hrep', ?_, hagrees.of_not_event hno hmap hmemory, ?_⟩
      · rw [hmemory]
        exact hreplay
      · rw [hmemory]
        exact hsized

/-- The instructions are dumped one by one: those that replay has run so far were dumped by the
first calls. -/
theorem memory_cut (h : LegalCalls calls) {r : SimpleReceiver}
    (hreceived : init.receiveAll calls = .ok r) {is_ rest : List Instruction}
    (hmemory : r.memory = is_ ++ rest) :
    ∃ before after r', calls = before ++ after ∧ init.receiveAll before = .ok r' ∧
      r'.memory = is_ := by
  induction calls using List.reverseRecOn generalizing r rest with
  | nil =>
    obtain rfl := Except.ok.inj hreceived
    exact ⟨[], [], init, rfl, rfl, (List.append_eq_nil_iff.mp hmemory.symm).1.symm⟩
  | append_singleton calls call ih =>
    obtain ⟨hcalls, hcall⟩ := forAllCuts_concat.mp h
    obtain ⟨r₀, hreceived₀, hrep⟩ := receiveAll_of_legal hcalls
    obtain ⟨r', dumped, hreceive, hout, -, hcases⟩ := hrep.receive_call hcall
    rw [receiveAll_concat, hreceived₀, ok_bind, hreceive] at hreceived
    obtain rfl := Except.ok.inj hreceived
    -- a call dumps at most one of them
    have hshort : (dumped.filter Instruction.isMemory).length ≤ 1 := by
      rcases hcases with ⟨ev, i, -, rfl, -⟩ | ⟨-, -, hdumped⟩
      · exact List.length_filter_le _ _
      · rw [List.filter_eq_nil_iff.mpr fun i hi => by simp [(hdumped i hi).2.2]]
        exact Nat.zero_le _
    have hcut := hmemory
    rw [memory, hout, List.filter_append] at hcut
    have hearlier : ∀ {rest'}, r₀.memory = is_ ++ rest' → ∃ before after r'',
        calls ++ [call] = before ++ after ∧ init.receiveAll before = .ok r'' ∧
          r''.memory = is_ := by
      intro rest' hmemory₀
      obtain ⟨before, after, r'', rfl, hr'', heq⟩ := ih hcalls hreceived₀ hmemory₀
      exact ⟨before, after ++ [call], r'', List.append_assoc .., hr'', heq⟩
    -- what has run is all of it, or ends before the last instruction
    rcases List.eq_nil_or_concat rest with rfl | ⟨rest', last, rfl⟩
    · -- all of it was dumped by all of the calls
      refine ⟨calls ++ [call], [], r', (List.append_nil _).symm, ?_, ?_⟩
      · rw [receiveAll_concat, hreceived₀]
        exact hreceive
      · rw [hmemory, List.append_nil]
    · match hl : dumped.filter Instruction.isMemory, hshort with
      | [], _ =>
        -- the last call has dumped nothing
        rw [hl, List.append_nil] at hcut
        exact hearlier hcut
      | [i], _ =>
        -- it has dumped the last instruction
        rw [hl, List.concat_eq_append, ← List.append_assoc] at hcut
        exact hearlier (List.append_inj' hcut rfl).1

/-- What the first calls dump comes first. -/
theorem memory_append {before after : List Call} (h : LegalCalls (before ++ after))
    {r r' : SimpleReceiver} (hbefore : init.receiveAll before = .ok r')
    (hall : init.receiveAll (before ++ after) = .ok r) : ∃ rest, r.memory = r'.memory ++ rest := by
  induction after using List.reverseRecOn generalizing r with
  | nil =>
    rw [List.append_nil, hbefore] at hall
    obtain rfl := Except.ok.inj hall
    exact ⟨[], (List.append_nil _).symm⟩
  | append_singleton after call ih =>
    rw [← List.append_assoc] at h hall
    obtain ⟨hcalls, hcall⟩ := forAllCuts_concat.mp h
    obtain ⟨r₀, hreceived₀, hrep⟩ := receiveAll_of_legal hcalls
    obtain ⟨rest, hrest⟩ := ih hcalls hreceived₀
    -- one more call dumps behind what is there
    obtain ⟨r₁, dumped, hreceive, hout, -, -⟩ := hrep.receive_call hcall
    rw [receiveAll_concat, hreceived₀, ok_bind, hreceive] at hall
    obtain rfl := Except.ok.inj hall
    refine ⟨rest ++ dumped.filter Instruction.isMemory, ?_⟩
    rw [memory, hout, List.filter_append, ← List.append_assoc, ← hrest, memory]

/-- **The deallocations**: they pass their checks, and only the rest of the elements keep their
registers. -/
theorem replays_deallocations {allocs : List UInt64} {m done rest : List Element}
    (h : Holds a allocs m s.registers) (hm : m.Perm (done ++ rest))
    (hnodup : (m.map Element.reg).Nodup) (hregs : ∀ e ∈ m, e.reg < 2 ^ 30) :
    ∃ s', s.replayAll a (done.map fun e => (Instruction.new .FREE).setReg e.reg) = .ok s' ∧
      Holds a allocs rest s'.registers := by
  induction done generalizing m s with
  | nil =>
    refine ⟨s, rfl, fun reg => ?_, fun e he => h.pointer e (hm.mem_iff.mpr he)⟩
    rw [h.live]
    simp only [hm.mem_iff, List.nil_append]
  | cons e done ih =>
    have he : e ∈ m := hm.mem_iff.mpr (List.mem_cons_self ..)
    have hlt := hregs e he
    obtain ⟨s₁, hregisters, -, hexecute⟩ := Replay.State.replayInstruction_eq a s
      ((Instruction.new .FREE).setReg e.reg)
    have hholds : Holds a allocs m s₁.registers := by
      rw [hregisters]
      exact h
    -- the element is live, so that its register is set
    have hset : s₁.registers e.reg ≠ 0 := (hholds.live _).mpr ⟨e, he, rfl⟩
    obtain ⟨s', hs', -, hregisters'⟩ := Replay.State.execute_release (a := a)
      (i := (Instruction.new .FREE).setReg e.reg) (Or.inl rfl)
      (show (UInt64.ofNat e.reg &&& 0xFFFFFFFFFFFFFF).toNat = e.reg by
        rw [regField_eq hlt, toNat_ofNat_reg hlt]) hlt hset
    have hnodup' := ((hm.map Element.reg).nodup_iff).mp hnodup
    -- the other registers keep their pointers
    have hcleared : Holds a allocs (done ++ rest) s'.registers := by
      rw [hregisters']
      exact hholds.clear hm hnodup'
    obtain ⟨s'', hreplay, hrest⟩ := ih hcleared (List.Perm.refl _)
      (List.nodup_cons.mp hnodup').2
      fun e' he' => hregs e' (hm.mem_iff.mpr (List.mem_cons_of_mem _ he'))
    refine ⟨s'', ?_, hrest⟩
    rw [Replay.State.replayAll, List.map_cons, List.foldlM_cons, hexecute, hs']
    exact hreplay

/-- Replay of what legal calls dump, with the deallocations of some elements. -/
theorem registers_of_legal (ha : ∀ k, a.pointer k ≠ 0) (h : LegalCalls calls)
    (hlive : ∀ before after, calls = before ++ after → (liveTokens before).length < 2 ^ 30) :
    ∃ r, init.receiveAll calls = .ok r ∧
      (∀ before after, calls = before ++ after → ∃ r' s rest,
        init.receiveAll before = .ok r' ∧ r.memory = r'.memory ++ rest ∧
        Replay.State.init.replayAll a r'.memory = .ok s ∧
        (r'.allocated.map Element.token).Perm (liveTokens before) ∧
        (r'.allocated.map Element.token).Nodup ∧ (r'.allocated.map Element.reg).Nodup ∧
        Holds a (allocationsOf before) r'.allocated s.registers) ∧
      (∀ is_ rest, r.memory = is_ ++ rest → ∃ before after r' s,
        calls = before ++ after ∧ init.receiveAll before = .ok r' ∧ r'.memory = is_ ∧
        Replay.State.init.replayAll a is_ = .ok s ∧
        (r'.allocated.map Element.token).Perm (liveTokens before) ∧
        (r'.allocated.map Element.token).Nodup ∧ (r'.allocated.map Element.reg).Nodup ∧
        Holds a (allocationsOf before) r'.allocated s.registers) ∧
      ∀ done rest, r.allocated.Perm (done ++ rest) →
        SizedFrees (r.dumpAllDeallocations done).memory ∧
        ∃ s, Replay.State.init.replayAll a (r.dumpAllDeallocations done).memory = .ok s ∧
          Holds a (allocationsOf calls) rest s.registers ∧
          (rest = [] → ∀ reg, s.registers reg = 0) := by
  obtain ⟨r, s, hreceived, hrep, hreplay, hagrees, hsized⟩ := agrees_of_legal ha h hlive
  -- what holds after all calls holds after the first ones
  have hcuts : ∀ before after, calls = before ++ after → ∃ r' s rest,
      init.receiveAll before = .ok r' ∧ r.memory = r'.memory ++ rest ∧
      Replay.State.init.replayAll a r'.memory = .ok s ∧
      (r'.allocated.map Element.token).Perm (liveTokens before) ∧
      (r'.allocated.map Element.token).Nodup ∧ (r'.allocated.map Element.reg).Nodup ∧
      Holds a (allocationsOf before) r'.allocated s.registers := by
    rintro before after rfl
    obtain ⟨r', s', hr', hrep', hreplay', hagrees', -⟩ := agrees_of_legal ha
      (legalCalls_take h rfl) fun before' after' heq => hlive before' (after' ++ after)
        (by rw [heq, List.append_assoc])
    obtain ⟨rest, hrest⟩ := memory_append h hr' hreceived
    exact ⟨r', s', rest, hr', hrest, hreplay', hrep'.tokens, hrep'.tokens_nodup, hrep'.regs_nodup,
      hagrees'.holds⟩
  refine ⟨r, hreceived, hcuts, fun is_ rest hcut => ?_, fun done rest hperm => ?_⟩
  · -- what has run was dumped by some of the calls
    obtain ⟨before, after, r', hsplit, hreceived', rfl⟩ := memory_cut h hreceived hcut
    obtain ⟨r'', s', -, hr'', -, hholds⟩ := hcuts before after hsplit
    obtain rfl := Except.ok.inj (hreceived'.symm.trans hr'')
    exact ⟨before, after, r', s', hsplit, hreceived', rfl, hholds⟩
  · -- what is left is freed by instructions of one kind
    have hfrees : ∀ i ∈ done.map (fun e => (Instruction.new .FREE).setReg e.reg),
        i.type = .FREE := by
      intro i hi
      obtain ⟨e, -, rfl⟩ := List.mem_map.mp hi
      rfl
    have hmemory : (r.dumpAllDeallocations done).memory =
        r.memory ++ done.map fun e => (Instruction.new .FREE).setReg e.reg := by
      rw [memory, out_dumpAllDeallocations, List.filter_append, memory]
      refine congrArg _ (List.filter_eq_self.mpr fun i hi => ?_)
      rw [Instruction.isMemory, hfrees i hi]
    obtain ⟨s', hreplay', hholds⟩ := replays_deallocations hagrees.holds hperm hrep.regs_nodup
      (registers_lt h hlive hreceived).1
    rw [hmemory]
    refine ⟨(forAllCuts_append_of_forall fun i hi before hno => ?_).mpr hsized, s', ?_, hholds, ?_⟩
    · rw [hfrees i hi] at hno
      exact absurd hno (by simp)
    · rw [Replay.State.replayAll, List.foldlM_append]
      rw [Replay.State.replayAll] at hreplay
      rw [hreplay, ok_bind]
      exact hreplay'
    · rintro rfl reg
      exact hholds.register_eq_zero (by simp)

end SimpleReceiver

/-! ### What the serializer delivers -/

/-- An event that consumes a token follows a question about the token that was answered with
yes, with no event between them. -/
def Call.Guarded (env : Env) (before : List Call) : Call → Prop
  | .event ev => ∀ tok, ev.waitTok? = some tok → ∃ pre post,
      before = pre ++ .hasAllocated tok :: post ∧ (∀ call ∈ post, ∀ ev, call ≠ .event ev) ∧
        env.hasAllocated pre tok = true
  | .killCurrentThread | .switchThread _ | .setTS _ _ | .barrier | .hasAllocated _ => True

section Guarded

variable {env : Env} {calls : List Call}

/-- **The answers of the receiver** make guarded calls legal. -/
theorem legalCalls_of_guarded (henv : env.hasAllocated = SimpleReceiver.answers)
    (hguarded : ForAllCuts (Call.Guarded env) calls)
    (hfresh : ForAllCuts (fun before call => call.Fresh (liveTokens before)) calls) :
    LegalCalls calls := by
  induction calls using List.reverseRecOn with
  | nil => exact forAllCuts_nil
  | append_singleton calls call ih =>
    obtain ⟨hguarded, hguard⟩ := forAllCuts_concat.mp hguarded
    obtain ⟨hfresh, hcall⟩ := forAllCuts_concat.mp hfresh
    have hlegal := ih hguarded hfresh
    refine forAllCuts_concat.mpr ⟨hlegal, ?_⟩
    cases call with
    | killCurrentThread | switchThread | setTS | barrier | hasAllocated => trivial
    | event ev =>
      refine ⟨fun tok htok => ?_, hcall⟩
      obtain ⟨pre, post, rfl, hpost, hanswer⟩ := hguard tok htok
      have hsilent : ∀ call ∈ Call.hasAllocated tok :: post, ∀ ev, call ≠ .event ev := by
        intro call hcall
        rcases List.mem_cons.mp hcall with rfl | hcall
        · simp
        · exact hpost call hcall
      rw [liveTokens_append_of_not_event hsilent]
      obtain ⟨r, hreceived, hrep⟩ :=
        SimpleReceiver.receiveAll_of_legal (SimpleReceiver.legalCalls_take hlegal rfl)
      rw [henv, SimpleReceiver.answers, hreceived] at hanswer
      exact hrep.hasAllocated.mp hanswer

end Guarded

namespace Machine

variable {M : Type} [Mapper M] {env : Env} {mapper : M} {m : Machine M}

/-- What holds of an event when it is delivered holds of the calls. -/
theorem forAllCuts_deliver {P : List Call → Call → Prop} {k : Talk} {t : FullThreadState}
    (hquiet : ∀ before call, (∀ ev, call ≠ .event ev) → P before call)
    (h : ForAllCuts P k.calls)
    (hev : ∀ quiet, (∀ call ∈ quiet, ∀ ev, call ≠ .event ev) →
      P (k.calls ++ (SerializeState.question t).map Sent.call ++ quiet) (.event t.lastEvent)) :
    ForAllCuts P ((k.add (SerializeState.question t)).deliver t).calls := by
  set k' := k.add (SerializeState.question t) with hk'
  set quiet := (k'.switching t ++ k'.timing t).map Sent.call with hquiet_def
  have hswitching : ∀ call ∈ quiet, ∀ ev, call ≠ .event ev := by
    intro call hcall
    obtain ⟨s, hs, rfl⟩ := List.mem_map.mp hcall
    exact Talk.switching_not_event s hs
  have hquestion : ∀ call ∈ (SerializeState.question t).map Sent.call, ∀ ev, call ≠ .event ev := by
    intro call hcall ev
    obtain ⟨s, hs, rfl⟩ := List.mem_map.mp hcall
    have hsilent := SerializeState.silent_question s hs
    intro heq
    rw [heq] at hsilent
    exact hsilent
  have hcalls : (k'.deliver t).calls = (k.calls ++ (SerializeState.question t).map Sent.call ++
      quiet) ++ [.event t.lastEvent] := by
    simp [Talk.calls, Talk.deliver, hk', Talk.add, hquiet_def]
  rw [hcalls, forAllCuts_concat,
    forAllCuts_append_of_forall fun call hcall before => hquiet before call (hswitching call hcall),
    forAllCuts_append_of_forall fun call hcall before => hquiet before call (hquestion call hcall)]
  exact ⟨h, hev quiet hswitching⟩

/-- **The rule for the calls of a run**: what holds of every event when it is delivered, after the
question about it and the switch of thread, holds of the calls. -/
theorem Reached.forAllCuts_calls {P : List Call → Call → Prop}
    (hquiet : ∀ before call, (∀ ev, call ≠ .event ev) → P before call)
    (hev : ∀ m, Reached false env mapper m → ∀ t, m.Delivers env t → ∀ quiet,
      (∀ call ∈ quiet, ∀ ev, call ≠ .event ev) →
        P (m.state.calls ++ (SerializeState.question t).map Sent.call ++ quiet)
          (.event t.lastEvent))
    (hm : m.Reached false env mapper) : ForAllCuts P m.state.calls := by
  refine hm.invariant (I := fun m => ForAllCuts P m.state.calls) ?_ ?_
  · intro m₀ h₀
    rw [(start_state h₀).2.1]
    exact forAllCuts_nil
  · intro m m' hm ih hstep
    have hdeliver : ∀ {t}, m.Delivers env t → ForAllCuts P
        ((m.state.talk.add (SerializeState.question t)).deliver t).calls := fun {t} hd =>
      forAllCuts_deliver hquiet ih (hev m hm t hd)
    show ForAllCuts P m'.state.talk.calls
    rcases talk_step hstep with ⟨-, extra, hextra, htalk⟩ | ⟨t, hd, -, htalk⟩ |
      ⟨t, t', hf, -, htalk⟩ | ⟨t, -, htalk⟩
    · -- silent calls are no events
      rw [htalk, Talk.calls_add]
      refine (forAllCuts_append_of_forall fun call hcall before =>
        hquiet before call fun ev heq => ?_).mpr ih
      obtain ⟨s, hs, rfl⟩ := List.mem_map.mp hcall
      have hsilent := hextra s hs
      rw [heq] at hsilent
      exact hsilent
    · -- an event is delivered
      rw [htalk]
      exact hdeliver hd
    · -- the kill after it
      rw [htalk, Talk.calls_kill]
      exact forAllCuts_concat.mpr ⟨hdeliver hf.1, hquiet _ _ (by simp)⟩
    · -- the switch and the kill at the death of a thread
      rw [htalk, Talk.calls_switchAndKill, forAllCuts_concat, forAllCuts_concat]
      exact ⟨⟨ih, hquiet _ _ (by simp)⟩, hquiet _ _ (by simp)⟩

/-- **Every delivered event is guarded**: the serializer asks before it frees. -/
theorem Reached.guarded (hm : m.Reached false env mapper) :
    ForAllCuts (Call.Guarded env) m.state.calls := by
  refine hm.forAllCuts_calls (fun before call hcall => ?_) fun m hm t hd quiet hquiet tok htok => ?_
  · cases call with
    | event ev => exact absurd rfl (hcall ev)
    | killCurrentThread | switchThread | setTS | barrier | hasAllocated => trivial
  · obtain ⟨-, id, heap, -, -, hpermitted⟩ := hd
    rw [SerializeState.permitted, htok] at hpermitted
    have hask : (SerializeState.question t).map Sent.call = [.hasAllocated tok] := by
      rw [SerializeState.question, htok]
      rfl
    refine ⟨m.state.calls, quiet, ?_, hquiet, hpermitted⟩
    rw [hask, List.append_assoc]
    rfl

/-- **Tokens and registers.**  When the calls of a run allocate tokens that are not allocated and
fewer than `2^30` are allocated at once, the receiver passes its checks, and after every call its
map has just the live tokens.  So does replay of the memory instructions: after each of them the
registers have just the pointers of the live tokens.  At the end the deallocations leave every
register null. -/
theorem Reached.tokens_in_registers (hm : m.Reached false env mapper)
    (henv : env.hasAllocated = SimpleReceiver.answers)
    (hfresh : ForAllCuts (fun before call => call.Fresh (liveTokens before)) m.state.calls)
    (hlive : ∀ before after, m.state.calls = before ++ after → (liveTokens before).length < 2 ^ 30)
    {a : Replay.Allocator} (ha : ∀ k, a.pointer k ≠ 0) :
    ∃ r, SimpleReceiver.init.receiveAll m.state.calls = .ok r ∧
      (∀ before after, m.state.calls = before ++ after → ∃ r' s rest,
        SimpleReceiver.init.receiveAll before = .ok r' ∧ r.memory = r'.memory ++ rest ∧
        Replay.State.init.replayAll a r'.memory = .ok s ∧
        (r'.allocated.map Element.token).Perm (liveTokens before) ∧
        (r'.allocated.map Element.token).Nodup ∧ (r'.allocated.map Element.reg).Nodup ∧
        Holds a (allocationsOf before) r'.allocated s.registers) ∧
      (∀ is_ rest, r.memory = is_ ++ rest → ∃ before after r' s,
        m.state.calls = before ++ after ∧ SimpleReceiver.init.receiveAll before = .ok r' ∧
        r'.memory = is_ ∧ Replay.State.init.replayAll a is_ = .ok s ∧
        (r'.allocated.map Element.token).Perm (liveTokens before) ∧
        (r'.allocated.map Element.token).Nodup ∧ (r'.allocated.map Element.reg).Nodup ∧
        Holds a (allocationsOf before) r'.allocated s.registers) ∧
      ∀ done rest, r.allocated.Perm (done ++ rest) →
        SizedFrees (r.dumpAllDeallocations done).memory ∧
        ∃ s, Replay.State.init.replayAll a (r.dumpAllDeallocations done).memory = .ok s ∧
          Holds a (allocationsOf m.state.calls) rest s.registers ∧
          (rest = [] → ∀ reg, s.registers reg = 0) := by
  have hlegal := legalCalls_of_guarded henv hm.guarded hfresh
  refine SimpleReceiver.registers_of_legal ha hlegal hlive

/-- A thread waits for a token that another one allocates, and registers are used again. -/
def recyclingTrace : List UInt8 :=
  writeTrace [.buf 2 0 0 [.tok 50 1024 3, .free 9], .syncBarrier 2048 0,
    .buf 1 0 0 [.tok 9 4096 1, .malloc 24, .malloc 40, .realloc 10 48], .end_]

/-- The allocator that cuts pieces of 64 bytes off an area. -/
def pieces : Replay.Allocator where
  pointer k := UInt64.ofNat (2 ^ 20 + k % 2 ^ 20 * 64)
  attaches _ := true

theorem pieces_pointer_ne (k : ℕ) : pieces.pointer k ≠ 0 := by
  intro heq
  have hzero := congrArg UInt64.toNat heq
  change (UInt64.ofNat (2 ^ 20 + k % 2 ^ 20 * 64)).toNat = 0 at hzero
  rw [UInt64.toNat_ofNat'] at hzero
  omega

theorem tokens_in_registers_recyclingTrace :
    ∃ m r, Reached false { Env.tokenSet with hasAllocated := SimpleReceiver.answers }
        (ConstMapper.ofBytes 0x10000 recyclingTrace) m ∧ m.loc = .returned ∧
      SimpleReceiver.init.receiveAll m.state.calls = .ok r ∧
      (r.allocated.map Element.token).Perm [11] ∧
      ∀ done, r.allocated.Perm done → ∃ s,
        Replay.State.init.replayAll pieces (r.dumpAllDeallocations done).memory = .ok s ∧
        ∀ reg, s.registers reg = 0 := by
  obtain ⟨m, hm, hsee⟩ := map_eq_ok.mp (show (serialize false
    { Env.tokenSet with hasAllocated := SimpleReceiver.answers }
    (ConstMapper.ofBytes 0x10000 recyclingTrace) 16).map (fun m => (m.loc, m.state.calls)) =
      .ok (.returned, [.hasAllocated 9, .barrier, .switchThread 1, .setTS 4096 1,
        .event (.malloc 9 24), .hasAllocated 9, .switchThread 2, .setTS 1024 3, .event (.free 9),
        .switchThread 1, .setTS 4096 1, .event (.malloc 10 40), .hasAllocated 10,
        .event (.realloc 10 11 48), .barrier]) by decide +kernel)
  obtain ⟨hloc, hcalls⟩ := Prod.mk.inj hsee
  have hreached : Reached false { Env.tokenSet with hasAllocated := SimpleReceiver.answers }
      (ConstMapper.ofBytes 0x10000 recyclingTrace) m := ⟨16, hm⟩
  obtain ⟨r, hreceived, hcuts, -, hreplay⟩ := hreached.tokens_in_registers rfl
    (by rw [hcalls]; decide)
    (fun before after hcut => by
      have hlen := congrArg List.length hcut
      have hle := length_liveTokens_le before
      rw [hcalls, List.length_append, List.length_cons] at hlen
      simp only [List.length_cons, List.length_nil] at hlen
      omega)
    pieces_pointer_ne
  -- of the tokens only that of the `realloc` is live
  obtain ⟨r', -, -, hreceived', -, -, htokens, -⟩ := hcuts _ [] (List.append_nil _).symm
  obtain rfl := Except.ok.inj (hreceived.symm.trans hreceived')
  rw [hcalls, show liveTokens _ = [11] by decide] at htokens
  refine ⟨m, r, hreached, hloc, hreceived, htokens, fun done hdone => ?_⟩
  obtain ⟨-, s, hs, -, hzero⟩ := hreplay done [] (by rwa [List.append_nil])
  exact ⟨s, hs, hzero rfl⟩

end Machine

end MallocTraceReplay
