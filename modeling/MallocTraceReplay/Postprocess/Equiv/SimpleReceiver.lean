import MallocTraceReplay.Postprocess.SimpleReceiver
import MallocTraceReplay.Postprocess.Equiv.IdTree
import MallocTraceReplay.Replay.Replay
import MallocTraceReplay.Serializer.Tokens
import MallocTraceReplay.Lib.History
import Mathlib.Algebra.Group.Nat.Defs
import Mathlib.Data.Finset.Card
import Mathlib.Data.Finset.Dedup

/-!
# Correctness of `SimpleReceiver`

The receiver keeps the live tokens, each with a register of its own (`Represents`).  A call that
names the tokens it should (`LegalCalls`) passes every check and dumps an instruction for its
register (`Represents.receive`); a register that is assigned is at most the number of the live
tokens (`registers_dense`).
-/

namespace MallocTraceReplay

open StepMachine History

/-! ### Calls -/

/-- Allocations name a token that is not live; a realloc may name the one it consumes. -/
def InnerEvent.Fresh (live : List UInt64) (ev : InnerEvent) : Prop :=
  ∀ tok, ev.newTok? = some tok → tok ∈ live → ev.waitTok? = some tok

/-- Frees and reallocs name a live token, and allocations one that is not live. -/
def InnerEvent.Legal (live : List UInt64) (ev : InnerEvent) : Prop :=
  (∀ tok, ev.waitTok? = some tok → tok ∈ live) ∧ ev.Fresh live

instance (live : List UInt64) (ev : InnerEvent) : Decidable (ev.Fresh live) :=
  decidable_of_iff
    (ev.newTok?.all (fun tok => decide (tok ∈ live → ev.waitTok? = some tok)) = true) (by
      unfold InnerEvent.Fresh
      cases ev.newTok? with
      | none => simp
      | some tok =>
        rw [Option.all_some, decide_eq_true_eq]
        exact ⟨fun h _ htok => Option.some.inj htok ▸ h, fun h => h tok rfl⟩)

instance (live : List UInt64) (ev : InnerEvent) : Decidable (ev.Legal live) :=
  decidable_of_iff (ev.waitTok?.all (fun tok => decide (tok ∈ live)) = true ∧ ev.Fresh live) (by
    unfold InnerEvent.Legal
    cases ev.waitTok? with
    | none => simp
    | some tok =>
      rw [Option.all_some, decide_eq_true_eq]
      refine and_congr_left fun _ => ?_
      exact ⟨fun h _ htok => Option.some.inj htok ▸ h, fun h => h tok rfl⟩)

def Call.Fresh (live : List UInt64) : Call → Prop
  | .event ev => ev.Fresh live
  | .killCurrentThread | .switchThread _ | .setTS _ _ | .barrier | .hasAllocated _ => True

def Call.Legal (live : List UInt64) : Call → Prop
  | .event ev => ev.Legal live
  | .killCurrentThread | .switchThread _ | .setTS _ _ | .barrier | .hasAllocated _ => True

instance (live : List UInt64) (call : Call) : Decidable (call.Fresh live) := by
  cases call <;> unfold Call.Fresh <;> infer_instance

instance (live : List UInt64) (call : Call) : Decidable (call.Legal live) := by
  cases call <;> unfold Call.Legal <;> infer_instance

/-- Every call names the tokens that it should. -/
def LegalCalls (calls : List Call) : Prop :=
  ForAllCuts (fun before call => call.Legal (liveTokens before)) calls

/-- The register that an instruction assigns a pointer to. -/
def Instruction.assigned? (i : Instruction) : Option UInt64 :=
  match i.type with
  | .MALLOC | .MEMALIGN => some i.reg
  | .REALLOC => some i.reallocNewReg
  | .FREE | .FREE_SIZED | .SWITCH_THREAD | .KILL_THREAD | .SET_TS_CPU => none

/-- The registers that replay uses for an instruction. -/
def Instruction.registers (i : Instruction) : List UInt64 :=
  match i.type with
  | .MALLOC | .MEMALIGN | .FREE | .FREE_SIZED => [i.reg]
  | .REALLOC => [i.reg, i.reallocNewReg]
  | .SWITCH_THREAD | .KILL_THREAD | .SET_TS_CPU => []

/-! ### Elements -/

/-- An element that is looked up is there. -/
theorem AllocatedMap.mem_of_lookup {m : AllocatedMap} {tok : UInt64} {e : Element}
    (h : m.lookup tok = some e) : e ∈ m ∧ e.token = tok :=
  ⟨List.mem_of_find?_eq_some h, by simpa using List.find?_some h⟩

theorem AllocatedMap.lookup_eq_none {m : AllocatedMap} {tok : UInt64} :
    m.lookup tok = none ↔ tok ∉ m.map Element.token := by
  unfold lookup
  rw [List.find?_eq_none, List.mem_map]
  constructor
  · rintro h ⟨e, he, htok⟩
    exact h e he (decide_eq_true htok)
  · intro h e he htok
    exact h ⟨e, he, of_decide_eq_true htok⟩

theorem AllocatedMap.insert_eq {m : AllocatedMap} {tok : UInt64} (h : tok ∉ m.map Element.token)
    (reg : ℕ) (size : UInt64) : m.insert tok reg size = .ok (⟨tok, reg, size⟩ :: m) := by
  unfold AllocatedMap.insert
  rw [AllocatedMap.lookup_eq_none.mpr h, Option.isNone_none, check_true]
  rfl

namespace SimpleReceiver

/-- The registers in use. -/
def regs (m : AllocatedMap) : Finset ℕ := (m.map Element.reg).toFinset

/-- The receiver has the live tokens, with a register for each. -/
structure Represents (r : SimpleReceiver) (live : List UInt64) : Prop where
  ids : r.idsSpace.Represents (regs r.allocated)
  regs_nodup : (r.allocated.map Element.reg).Nodup
  tokens : (r.allocated.map Element.token).Perm live
  tokens_nodup : (r.allocated.map Element.token).Nodup

theorem represents_init : init.Represents [] where
  ids := IdTree.represents_empty
  regs_nodup := List.nodup_nil
  tokens := List.Perm.refl _
  tokens_nodup := List.nodup_nil

/-- What an event does to the elements, and the instruction that is dumped for it. -/
inductive Effect (m : AllocatedMap) : InnerEvent → Instruction → AllocatedMap → Prop
  | malloc {tok size : UInt64} {reg : ℕ} (hreg : IsLeast {k | k ∉ regs m} reg) :
      Effect m (.malloc tok size) { (Instruction.new .MALLOC).setReg reg with word0 := size }
        (⟨tok, reg, size⟩ :: m)
  | memalign {tok size align : UInt64} {reg : ℕ} (hreg : IsLeast {k | k ∉ regs m} reg) :
      Effect m (.memalign tok size align)
        { (Instruction.new .MEMALIGN).setReg reg with word0 := size, word1 := align }
        (⟨tok, reg, size⟩ :: m)
  | free {e : Element} (he : e ∈ m) :
      Effect m (.free e.token)
        { (Instruction.new .FREE_SIZED).setReg e.reg with word0 := e.size } (m.erase e)
  | freeSized {e : Element} (he : e ∈ m) :
      Effect m (.freeSized e.token)
        { (Instruction.new .FREE_SIZED).setReg e.reg with word0 := e.size } (m.erase e)
  | realloc {e : Element} {newTok newSize : UInt64} {newReg : ℕ} (he : e ∈ m)
      (hreg : IsLeast {k | k ∉ regs m} newReg) :
      Effect m (.realloc e.token newTok newSize)
        { (Instruction.new .REALLOC).setReg e.reg with
          word0 := UInt64.ofNat newReg, word1 := newSize }
        (⟨newTok, newReg, newSize⟩ :: m.erase e)

section Effects

variable {m : AllocatedMap} {r : SimpleReceiver} {live : List UInt64} {e : Element}

theorem mem_regs {k : ℕ} : k ∈ regs m ↔ ∃ e ∈ m, e.reg = k := by
  rw [regs, List.mem_toFinset, List.mem_map]

theorem regs_cons (e : Element) : regs (e :: m) = insert e.reg (regs m) := by
  rw [regs, List.map_cons, List.toFinset_cons]
  rfl

theorem regs_erase (hnodup : (m.map Element.reg).Nodup) (he : e ∈ m) :
    regs (List.erase m e) = (regs m).erase e.reg := by
  have hperm := (List.perm_cons_erase he).map Element.reg
  have hnodup' := (hperm.nodup_iff).mp hnodup
  rw [List.map_cons, List.nodup_cons] at hnodup'
  ext k
  rw [Finset.mem_erase, regs, regs, List.mem_toFinset, List.mem_toFinset, hperm.mem_iff,
    List.map_cons, List.mem_cons]
  constructor
  · intro hk
    exact ⟨fun heq => hnodup'.1 (heq ▸ hk), Or.inr hk⟩
  · rintro ⟨hne, hk | hk⟩
    · exact absurd hk hne
    · exact hk

/-- **The least free register** is at most the number of those in use. -/
theorem isLeast_le_length {reg : ℕ} (h : IsLeast {k | k ∉ regs m} reg) : reg ≤ m.length := by
  have hsub : Finset.range reg ⊆ regs m := by
    intro k hk
    by_contra hno
    exact absurd (h.2 hno) (Nat.not_le_of_lt (Finset.mem_range.mp hk))
  calc reg = (Finset.range reg).card := (Finset.card_range reg).symm
    _ ≤ (regs m).card := Finset.card_le_card hsub
    _ ≤ (m.map Element.reg).length := List.toFinset_card_le _
    _ = m.length := List.length_map _

theorem Represents.length_eq (h : r.Represents live) : r.allocated.length = live.length := by
  rw [← h.tokens.length_eq, List.length_map]

/-- `HasAllocated` tells the live tokens. -/
theorem Represents.hasAllocated (h : r.Represents live) {tok : UInt64} :
    r.hasAllocated tok = true ↔ tok ∈ live := by
  rw [SimpleReceiver.hasAllocated, Option.isSome_iff_ne_none, ne_eq, AllocatedMap.lookup_eq_none,
    not_not, h.tokens.mem_iff]

/-- The element of a live token. -/
theorem Represents.lookup (h : r.Represents live) {tok : UInt64} (htok : tok ∈ live) :
    ∃ e, r.allocated.lookup tok = some e ∧ e ∈ r.allocated ∧ e.token = tok := by
  have hsome := h.hasAllocated.mpr htok
  obtain ⟨e, he⟩ := Option.isSome_iff_exists.mp hsome
  exact ⟨e, he, AllocatedMap.mem_of_lookup he⟩

/-- The tokens without one of them. -/
theorem Represents.erase_tokens (h : r.Represents live) (he : e ∈ r.allocated) :
    ((List.erase r.allocated e).map Element.token).Perm
        (live.filter fun tok => (some e.token : Option UInt64) ≠ some tok) ∧
      (e.token :: (List.erase r.allocated e).map Element.token).Nodup := by
  have hperm := (List.perm_cons_erase he).map Element.token
  rw [List.map_cons] at hperm
  have hnodup := hperm.nodup_iff.mp h.tokens_nodup
  refine ⟨?_, hnodup⟩
  have hfilter := (hperm.symm.trans h.tokens).filter
    fun tok => decide ((some e.token : Option UInt64) ≠ some tok)
  rw [List.filter_cons_of_neg (by simp)] at hfilter
  rwa [List.filter_eq_self.mpr] at hfilter
  intro tok htok
  simp only [ne_eq, Option.some.injEq, decide_not, Bool.not_eq_eq_eq_not, Bool.not_true,
    decide_eq_false_iff_not]
  rintro rfl
  exact (List.nodup_cons.mp hnodup).1 htok

theorem Represents.erase_regs (h : r.Represents live) (he : e ∈ r.allocated) :
    (e.reg :: (List.erase r.allocated e).map Element.reg).Nodup := by
  have hperm := (List.perm_cons_erase he).map Element.reg
  rw [List.map_cons] at hperm
  exact hperm.nodup_iff.mp h.regs_nodup

/-- No token is consumed. -/
theorem filter_none (live : List UInt64) :
    live.filter (fun tok => (none : Option UInt64) ≠ some tok) = live :=
  List.filter_eq_self.mpr fun _ _ => by simp

/-- A token that is new gets a register that is free. -/
theorem Represents.allocate (h : r.Represents live) {tok : UInt64} (htok : tok ∉ live)
    (size : UInt64) :
    ∃ reg ids, r.idsSpace.allocateId = .ok (reg, ids) ∧ IsLeast {k | k ∉ regs r.allocated} reg ∧
      r.allocated.insert tok reg size = .ok (⟨tok, reg, size⟩ :: r.allocated) ∧
      ∀ r' : SimpleReceiver, r'.idsSpace = ids → r'.allocated = ⟨tok, reg, size⟩ :: r.allocated →
        r'.Represents (tok :: live) := by
  obtain ⟨reg, ids, hcall, hleast, hids⟩ := h.ids.allocateId
  have hfresh : tok ∉ r.allocated.map Element.token := fun hno => htok (h.tokens.mem_iff.mp hno)
  refine ⟨reg, ids, hcall, hleast, AllocatedMap.insert_eq hfresh reg size, ?_⟩
  rintro r' rfl hmap
  have hreg : reg ∉ r.allocated.map Element.reg := by
    intro hno
    exact hleast.1 (List.mem_toFinset.mpr hno)
  refine ⟨by rw [hmap, regs_cons]; exact hids, ?_, ?_, ?_⟩
  · rw [hmap]
    exact List.nodup_cons.mpr ⟨hreg, h.regs_nodup⟩
  · rw [hmap]
    exact h.tokens.cons tok
  · rw [hmap]
    exact List.nodup_cons.mpr ⟨hfresh, h.tokens_nodup⟩

/-- A live token gives its register back. -/
theorem Represents.release (h : r.Represents live) {tok : UInt64} (htok : tok ∈ live) :
    ∃ e r', e ∈ r.allocated ∧ e.token = tok ∧ r.release tok = .ok r' ∧
      r'.allocated = r.allocated.erase e ∧
      r'.out = r.out ++ [{ (Instruction.new .FREE_SIZED).setReg e.reg with word0 := e.size }] ∧
      r'.Represents (live.filter fun tok' => (some tok : Option UInt64) ≠ some tok') := by
  obtain ⟨e, hlookup, he, rfl⟩ := h.lookup htok
  obtain ⟨ids, hcall, hids⟩ := h.ids.freeId (mem_regs.mpr ⟨e, he, rfl⟩)
  obtain ⟨htokens, hnodup⟩ := h.erase_tokens he
  have hrelease : r.release e.token = .ok (SimpleReceiver.dump
      { r with idsSpace := ids, allocated := r.allocated.erase e }
      { (Instruction.new .FREE_SIZED).setReg e.reg with word0 := e.size }) := by
    simp only [SimpleReceiver.release, hlookup, hcall, ok_bind, pure_eq_ok]
  refine ⟨e, _, he, rfl, hrelease, rfl, rfl, ?_, ?_, htokens, (List.nodup_cons.mp hnodup).2⟩
  · show ids.Represents (regs (List.erase r.allocated e))
    rw [regs_erase h.regs_nodup he]
    exact hids
  · exact (List.nodup_cons.mp (h.erase_regs he)).2

/-- **A legal event** is received without a failed check. -/
theorem Represents.receive (h : r.Represents live) {ev : InnerEvent} (hev : ev.Legal live) :
    ∃ r' i, r.receive (.event ev) = .ok r' ∧ Effect r.allocated ev i r'.allocated ∧
      r'.out = r.out ++ [i] ∧ r'.Represents (ev.apply live) := by
  obtain ⟨hwait, hnew⟩ := hev
  cases ev with
  | malloc tok size =>
    obtain ⟨reg, ids, hcall, hleast, hinsert, hrep⟩ :=
      h.allocate (fun hno => absurd (hnew tok rfl hno) (by simp [InnerEvent.waitTok?])) size
    have hreceive : r.receive (.event (.malloc tok size)) = .ok
        { r with
          idsSpace := ids, allocated := ⟨tok, reg, size⟩ :: r.allocated
          out := r.out ++ [{ (Instruction.new .MALLOC).setReg reg with word0 := size }]
          mallocs := r.mallocs + 1 } := by
      simp only [SimpleReceiver.receive, malloc, hcall, ok_bind, hinsert]
      rfl
    refine ⟨_, _, hreceive, .malloc hleast, rfl, ?_⟩
    rw [InnerEvent.apply, InnerEvent.waitTok?, filter_none]
    exact hrep _ rfl rfl
  | memalign tok size align =>
    obtain ⟨reg, ids, hcall, hleast, hinsert, hrep⟩ :=
      h.allocate (fun hno => absurd (hnew tok rfl hno) (by simp [InnerEvent.waitTok?])) size
    have hreceive : r.receive (.event (.memalign tok size align)) = .ok
        { r with
          idsSpace := ids, allocated := ⟨tok, reg, size⟩ :: r.allocated
          out := r.out ++ [{ (Instruction.new .MEMALIGN).setReg reg with
            word0 := size, word1 := align }]
          memaligns := r.memaligns + 1 } := by
      simp only [SimpleReceiver.receive, memalign, hcall, ok_bind, hinsert]
      rfl
    refine ⟨_, _, hreceive, .memalign hleast, rfl, ?_⟩
    rw [InnerEvent.apply, InnerEvent.waitTok?, filter_none]
    exact hrep _ rfl rfl
  | free tok =>
    obtain ⟨e, r', he, rfl, hrelease, hallocated, hout, hrep⟩ := h.release (hwait tok rfl)
    have hreceive : r.receive (.event (.free e.token)) = .ok { r' with frees := r'.frees + 1 } := by
      simp only [SimpleReceiver.receive, free, hrelease, ok_bind, pure_eq_ok]
    refine ⟨_, _, hreceive, ?_, hout, hrep.ids, hrep.regs_nodup, hrep.tokens, hrep.tokens_nodup⟩
    rw [show ({ r' with frees := r'.frees + 1 } : SimpleReceiver).allocated = _ from hallocated]
    exact .free he
  | freeSized tok =>
    obtain ⟨e, r', he, rfl, hrelease, hallocated, hout, hrep⟩ := h.release (hwait tok rfl)
    have hreceive : r.receive (.event (.freeSized e.token)) =
        .ok { r' with sizedFrees := r'.sizedFrees + 1 } := by
      simp only [SimpleReceiver.receive, freeSized, hrelease, ok_bind, pure_eq_ok]
    refine ⟨_, _, hreceive, ?_, hout, hrep.ids, hrep.regs_nodup, hrep.tokens, hrep.tokens_nodup⟩
    rw [show ({ r' with sizedFrees := r'.sizedFrees + 1 } : SimpleReceiver).allocated = _
      from hallocated]
    exact .freeSized he
  | realloc oldTok newTok newSize =>
    obtain ⟨e, hlookup, he, rfl⟩ := h.lookup (hwait oldTok rfl)
    obtain ⟨newReg, ids, hcall, hleast, hids⟩ := h.ids.allocateId
    obtain ⟨htokens, hnodup⟩ := h.erase_tokens he
    have hregs := h.erase_regs he
    -- the new register is not the old one, which is still held
    have hne : e.reg ≠ newReg := by
      rintro rfl
      exact hleast.1 (mem_regs.mpr ⟨e, he, rfl⟩)
    obtain ⟨ids', hfree, hids'⟩ := hids.freeId
      (Finset.mem_insert_of_mem (mem_regs.mpr ⟨e, he, rfl⟩))
    have hfresh : newTok ∉ (List.erase r.allocated e).map Element.token := by
      intro hno
      have hmem := htokens.mem_iff.mp hno
      rw [List.mem_filter] at hmem
      have := hnew newTok rfl hmem.1
      simp only [InnerEvent.waitTok?, Option.some.injEq] at this
      exact absurd hmem.2 (by simp [this])
    have hinsert := AllocatedMap.insert_eq hfresh newReg newSize
    have hreceive : r.receive (.event (.realloc e.token newTok newSize)) = .ok
        { r with
          idsSpace := ids', allocated := ⟨newTok, newReg, newSize⟩ :: r.allocated.erase e
          out := r.out ++ [{ (Instruction.new .REALLOC).setReg e.reg with
            word0 := UInt64.ofNat newReg, word1 := newSize }]
          reallocs := r.reallocs + 1 } := by
      simp only [SimpleReceiver.receive, realloc, hlookup, hcall, ok_bind, AllocatedMap.erase,
        hinsert, hfree]
      rfl
    refine ⟨_, _, hreceive, .realloc he hleast, rfl, ?_, ?_, ?_, ?_⟩
    · show ids'.Represents (regs (⟨newTok, newReg, newSize⟩ :: List.erase r.allocated e))
      rw [regs_cons, regs_erase h.regs_nodup he]
      rwa [Finset.erase_insert_of_ne hne.symm] at hids'
    · refine List.nodup_cons.mpr ⟨fun hno => hleast.1 ?_, (List.nodup_cons.mp hregs).2⟩
      obtain ⟨e', he', hreg⟩ := List.mem_map.mp hno
      exact mem_regs.mpr ⟨e', List.mem_of_mem_erase he', hreg⟩
    · exact htokens.cons newTok
    · exact List.nodup_cons.mpr ⟨hfresh, (List.nodup_cons.mp hnodup).2⟩

end Effects

/-! ### Runs -/

variable {calls : List Call} {call : Call} {r r' : SimpleReceiver} {live : List UInt64}

theorem receiveAll_concat (calls : List Call) (call : Call) :
    init.receiveAll (calls ++ [call]) = init.receiveAll calls >>= fun r => r.receive call := by
  unfold receiveAll
  rw [List.foldlM_append]
  congr 1
  funext r
  rw [List.foldlM_cons]
  cases r.receive call <;> rfl

/-- A call that is no event leaves the elements alone and dumps no instruction for a register. -/
theorem receive_of_not_event (hcall : ∀ ev, call ≠ .event ev) :
    ∃ r' dumped, r.receive call = .ok r' ∧ r'.idsSpace = r.idsSpace ∧ r'.allocated = r.allocated ∧
      r'.out = r.out ++ dumped ∧ ∀ i ∈ dumped, i.registers = [] ∧ i.assigned? = none ∧
        i.isMemory = false := by
  cases call with
  | event ev => exact absurd rfl (hcall ev)
  | killCurrentThread | switchThread | setTS =>
    refine ⟨_, [_], rfl, rfl, rfl, rfl, ?_⟩
    intro i hi
    rw [List.mem_singleton.mp hi]
    exact ⟨rfl, rfl, rfl⟩
  | barrier | hasAllocated => exact ⟨_, [], rfl, rfl, rfl, (List.append_nil _).symm, by simp⟩

/-- One legal call. -/
theorem Represents.receive_call (h : r.Represents live) (hcall : call.Legal live) :
    ∃ r' dumped, r.receive call = .ok r' ∧ r'.out = r.out ++ dumped ∧
      r'.Represents (call.apply live) ∧
      ((∃ ev i, call = .event ev ∧ dumped = [i] ∧ Effect r.allocated ev i r'.allocated) ∨
        ((∀ ev, call ≠ .event ev) ∧ r'.allocated = r.allocated ∧ ∀ i ∈ dumped, i.registers = [] ∧
          i.assigned? = none ∧ i.isMemory = false)) := by
  by_cases hev : ∃ ev, call = .event ev
  · obtain ⟨ev, rfl⟩ := hev
    obtain ⟨r', i, hreceive, heffect, hout, hrep⟩ := h.receive hcall
    exact ⟨r', [i], hreceive, hout, hrep, Or.inl ⟨ev, i, rfl, rfl, heffect⟩⟩
  · have hno : ∀ ev, call ≠ .event ev := fun ev heq => hev ⟨ev, heq⟩
    obtain ⟨r', dumped, hreceive, hids, hmap, hout, hdumped⟩ := receive_of_not_event (r := r) hno
    have hlive : call.apply live = live := by
      cases call with
      | event ev => exact absurd rfl (hno ev)
      | killCurrentThread | switchThread | setTS | barrier | hasAllocated => rfl
    refine ⟨r', dumped, hreceive, hout, ?_, Or.inr ⟨hno, hmap, hdumped⟩⟩
    rw [hlive]
    exact ⟨by rw [hids, hmap]; exact h.ids, by rw [hmap]; exact h.regs_nodup,
      by rw [hmap]; exact h.tokens, by rw [hmap]; exact h.tokens_nodup⟩

/-- **Legal calls** are received, and the receiver has the live tokens. -/
theorem receiveAll_of_legal (h : LegalCalls calls) :
    ∃ r, init.receiveAll calls = .ok r ∧ r.Represents (liveTokens calls) := by
  induction calls using List.reverseRecOn with
  | nil => exact ⟨init, rfl, represents_init⟩
  | append_singleton calls call ih =>
    obtain ⟨hcalls, hcall⟩ := forAllCuts_concat.mp h
    obtain ⟨r, hreceived, hrep⟩ := ih hcalls
    obtain ⟨r', dumped, hreceive, -, hrep', -⟩ := hrep.receive_call hcall
    refine ⟨r', by rw [receiveAll_concat, hreceived]; exact hreceive, ?_⟩
    rw [liveTokens_append]
    exact hrep'

theorem legalCalls_take (h : LegalCalls calls) {before after : List Call}
    (hcalls : calls = before ++ after) : LegalCalls before := by
  rintro b call a rfl
  exact h b call (a ++ after) (by rw [hcalls]; simp)

/-! ### Registers -/

/-- A register in its bit field. -/
theorem toNat_regField_le (reg : ℕ) : (UInt64.ofNat reg &&& 0xFFFFFFFFFFFFFF).toNat ≤ reg := by
  rw [UInt64.toNat_and, UInt64.toNat_ofNat']
  exact Nat.and_le_left.trans (Nat.mod_le _ _)

/-- The register that an event assigns. -/
theorem Effect.assigned_le {m m' : AllocatedMap} {ev : InnerEvent} {i : Instruction}
    (h : Effect m ev i m') {reg : UInt64} (hreg : i.assigned? = some reg) :
    reg.toNat ≤ m.length := by
  cases h with
  | malloc hleast =>
    rw [← Option.some.inj hreg]
    exact (toNat_regField_le _).trans (isLeast_le_length hleast)
  | memalign hleast =>
    rw [← Option.some.inj hreg]
    exact (toNat_regField_le _).trans (isLeast_le_length hleast)
  | free | freeSized =>
    change none = some reg at hreg
    exact absurd hreg (by simp)
  | realloc he hleast =>
    rw [← Option.some.inj hreg]
    show (UInt64.ofNat _).toNat ≤ _
    rw [UInt64.toNat_ofNat']
    exact (Nat.mod_le _ _).trans (isLeast_le_length hleast)

/-- The registers of an event's instruction are below a bound on the elements. -/
theorem Effect.registers_lt {m m' : AllocatedMap} {ev : InnerEvent} {i : Instruction}
    (h : Effect m ev i m') {n : ℕ} (hlen : m.length < n) (hm : ∀ e ∈ m, e.reg < n) :
    (∀ e ∈ m', e.reg < n) ∧ ∀ reg ∈ i.registers, reg.toNat < n := by
  have hnew : ∀ {reg : ℕ}, IsLeast {k | k ∉ regs m} reg → reg < n := fun hleast =>
    Nat.lt_of_le_of_lt (isLeast_le_length hleast) hlen
  have herase : ∀ {e : Element}, ∀ e' ∈ m.erase e, e'.reg < n := fun e' he' =>
    hm e' (List.mem_of_mem_erase he')
  cases h with
  | malloc hleast | memalign hleast =>
    refine ⟨List.forall_mem_cons.mpr ⟨hnew hleast, hm⟩, ?_⟩
    intro reg hreg
    rw [List.mem_singleton.mp hreg]
    exact Nat.lt_of_le_of_lt (toNat_regField_le _) (hnew hleast)
  | free he | freeSized he =>
    refine ⟨herase, ?_⟩
    intro reg hreg
    rw [List.mem_singleton.mp hreg]
    exact Nat.lt_of_le_of_lt (toNat_regField_le _) (hm _ he)
  | realloc he hleast =>
    refine ⟨List.forall_mem_cons.mpr ⟨hnew hleast, herase⟩, ?_⟩
    intro reg hreg
    rcases List.mem_cons.mp hreg with rfl | hreg
    · exact Nat.lt_of_le_of_lt (toNat_regField_le _) (hm _ he)
    · rw [List.mem_singleton.mp hreg]
      show (UInt64.ofNat _).toNat < _
      rw [UInt64.toNat_ofNat']
      exact Nat.lt_of_le_of_lt (Nat.mod_le _ _) (hnew hleast)

/-- **Registers stay below a bound** on the number of live tokens. -/
theorem registers_lt (h : LegalCalls calls) {n : ℕ}
    (hlive : ∀ before after, calls = before ++ after → (liveTokens before).length < n)
    (hr : init.receiveAll calls = .ok r) :
    (∀ e ∈ r.allocated, e.reg < n) ∧ ∀ i ∈ r.out, ∀ reg ∈ i.registers, reg.toNat < n := by
  induction calls using List.reverseRecOn generalizing r with
  | nil =>
    obtain rfl := Except.ok.inj hr
    exact ⟨by simp [init], by simp [init]⟩
  | append_singleton calls call ih =>
    obtain ⟨hcalls, hcall⟩ := forAllCuts_concat.mp h
    obtain ⟨r₁, hreceived, hrep⟩ := receiveAll_of_legal hcalls
    have hlen : r₁.allocated.length < n := by
      rw [hrep.length_eq]
      exact hlive calls [call] rfl
    obtain ⟨hregs, hout⟩ := ih hcalls
      (fun before after heq => hlive before (after ++ [call]) (by rw [heq]; simp)) hreceived
    obtain ⟨r', dumped, hreceive, hout', -, hcases⟩ := hrep.receive_call hcall
    rw [receiveAll_concat, hreceived, ok_bind, hreceive] at hr
    obtain rfl := Except.ok.inj hr
    -- what is dumped now is dumped behind what is there
    have happend : (∀ i ∈ dumped, ∀ reg ∈ i.registers, reg.toNat < n) →
        ∀ i ∈ r'.out, ∀ reg ∈ i.registers, reg.toNat < n := by
      intro hdumped i hi
      rw [hout'] at hi
      exact (List.mem_append.mp hi).elim (hout i) (hdumped i)
    rcases hcases with ⟨ev, i, -, rfl, heffect⟩ | ⟨-, hmap, hdumped⟩
    · -- an event takes the least register that is free
      obtain ⟨hregs', hi⟩ := heffect.registers_lt hlen hregs
      refine ⟨hregs', happend ?_⟩
      intro j hj
      rw [List.mem_singleton.mp hj]
      exact hi
    · -- any other call names no register
      refine ⟨by rw [hmap]; exact hregs, happend ?_⟩
      intro j hj reg hreg
      rw [(hdumped j hj).1] at hreg
      exact absurd hreg (List.not_mem_nil)

/-- What `DumpAllDeallocations` adds. -/
theorem out_dumpAllDeallocations (r : SimpleReceiver) (elements : List Element) :
    (r.dumpAllDeallocations elements).out =
      r.out ++ elements.map fun e => (Instruction.new .FREE).setReg e.reg := by
  unfold dumpAllDeallocations
  induction elements generalizing r with
  | nil => simp
  | cons e elements ih =>
    rw [List.foldl_cons, ih]
    simp [dump]

end SimpleReceiver

/-! ### Replay within its registers -/

namespace Replay.State

variable {a : Replay.Allocator} {s : Replay.State} {i : Instruction} {reg : UInt64}

theorem register_of_lt (h : reg.toNat < kMaxRegisters) :
    s.register reg = .ok (s.registers reg.toNat) := if_pos h

theorem setRegister_of_lt (h : reg.toNat < kMaxRegisters) (ptr : UInt64) :
    s.setRegister reg ptr = .ok { s with
      registers := fun r => if r = reg.toNat then ptr else s.registers r } := if_pos h

theorem liveRegister_of_lt (h : reg.toNat < kMaxRegisters) (stop : Stop) :
    s.liveRegister reg stop =
      if s.registers reg.toNat = 0 then .error stop else .ok (s.registers reg.toNat) := by
  rw [liveRegister, register_of_lt h]
  rfl

/-- **Replay does not leave its array** on an instruction whose registers are in it. -/
theorem replayInstruction_ne_outOfRange
    (h : ∀ reg ∈ i.registers, reg.toNat < kMaxRegisters) :
    s.replayInstruction a i ≠ .error .outOfRange := by
  unfold replayInstruction
  generalize (if a.attaches i.type then _ else s) = s
  have halloc : s.allocate a ≠ .error .outOfRange := by
    unfold allocate
    dsimp only
    split <;> simp
  obtain ⟨type, reg, word0, word1⟩ := i
  cases type with
  | MALLOC =>
    -- each case: the registers that it names are in range
    have hreg : reg.toNat < kMaxRegisters := h reg (List.mem_singleton.mpr rfl)
    intro heq
    rcases bind_eq_error.mp heq with heq | ⟨⟨ptr, s'⟩, -, heq⟩
    · exact halloc heq
    · simp only [register_of_lt hreg, ok_bind, setRegister_of_lt hreg] at heq
      split at heq <;> simp at heq
  | FREE =>
    have hreg : reg.toNat < kMaxRegisters := h reg (List.mem_singleton.mpr rfl)
    simp only [execute, liveRegister_of_lt hreg, setRegister_of_lt hreg]
    split <;> simp
  | FREE_SIZED =>
    have hreg : reg.toNat < kMaxRegisters := h reg (List.mem_singleton.mpr rfl)
    simp only [execute, liveRegister_of_lt hreg, setRegister_of_lt hreg]
    split <;> simp
  | MEMALIGN =>
    have hreg : reg.toNat < kMaxRegisters := h reg (List.mem_singleton.mpr rfl)
    intro heq
    rcases bind_eq_error.mp heq with heq | ⟨⟨ptr, s'⟩, -, heq⟩
    · unfold allocate at heq
      dsimp only at heq
      split at heq <;> simp at heq
    · dsimp only at heq
      rw [setRegister_of_lt hreg] at heq
      simp at heq
  | REALLOC =>
    have hreg : reg.toNat < kMaxRegisters := h reg (List.mem_cons_self ..)
    have hnew : word0.toNat < kMaxRegisters :=
      h word0 (List.mem_cons_of_mem _ (List.mem_singleton.mpr rfl))
    intro heq
    rcases bind_eq_error.mp heq with heq | ⟨ptr, -, heq⟩
    · rw [liveRegister_of_lt hreg] at heq
      split at heq <;> simp at heq
    · rcases bind_eq_error.mp heq with heq | ⟨⟨ptr, s'⟩, -, heq⟩
      · exact halloc heq
      · simp only [setRegister_of_lt hreg, ok_bind] at heq
        rw [show ({ type := .REALLOC, reg := reg, word0 := word0, word1 := word1 } :
          Instruction).reallocNewReg = word0 from rfl, setRegister_of_lt hnew] at heq
        simp at heq
  | KILL_THREAD =>
    simp only [execute, handleKillThread]
    split <;> simp
  | SWITCH_THREAD =>
    simp only [execute, handleSwitchThread]
    split
    · simp
    · split <;> simp
  | SET_TS_CPU => simp [execute]

end Replay.State

namespace SimpleReceiver

/-- **Registers are dense.**  When the calls name the tokens they should, a register that is
assigned is at most the number of the tokens that are live just before.  When there are never as
many live tokens as replay has registers, replay of all that is dumped stays within them. -/
theorem registers_dense {calls : List Call} (h : LegalCalls calls) :
    ForAllCuts (fun before call => ∃ r r' dumped, init.receiveAll before = .ok r ∧
      r.receive call = .ok r' ∧ r'.out = r.out ++ dumped ∧
      ∀ i ∈ dumped, ∀ reg, i.assigned? = some reg → reg.toNat ≤ (liveTokens before).length) calls ∧
    ((∀ before after, calls = before ++ after → (liveTokens before).length < 2 ^ 30) →
      ∃ r, init.receiveAll calls = .ok r ∧ ∀ elements : List Element, elements.Perm r.allocated →
        (∀ i ∈ (r.dumpAllDeallocations elements).out, ∀ reg ∈ i.registers,
          reg.toNat < Replay.kMaxRegisters) ∧
        ∀ (a : Replay.Allocator) (s : Replay.State),
          s.replayAll a (r.dumpAllDeallocations elements).out ≠ .error .outOfRange) := by
  constructor
  · intro before call after hcalls
    have hbefore := legalCalls_take h hcalls
    obtain ⟨r, hreceived, hrep⟩ := receiveAll_of_legal hbefore
    obtain ⟨r', dumped, hreceive, hout, -, hcases⟩ :=
      hrep.receive_call (h before call after hcalls)
    refine ⟨r, r', dumped, hreceived, hreceive, hout, fun i hi reg hreg => ?_⟩
    rw [← hrep.length_eq]
    rcases hcases with ⟨ev, i', -, rfl, heffect⟩ | ⟨-, -, hdumped⟩
    · -- an event assigns its own register
      rw [List.mem_singleton.mp hi] at hreg
      exact heffect.assigned_le hreg
    · -- other calls assign none
      rw [(hdumped i hi).2.1] at hreg
      exact absurd hreg (by simp)
  · intro hlive
    obtain ⟨r, hreceived, -⟩ := receiveAll_of_legal h
    refine ⟨r, hreceived, fun elements helements => ?_⟩
    obtain ⟨hregs, hout⟩ := registers_lt h hlive hreceived
    have hall : ∀ i ∈ (r.dumpAllDeallocations elements).out, ∀ reg ∈ i.registers,
        reg.toNat < Replay.kMaxRegisters := by
      intro i hi
      rw [out_dumpAllDeallocations] at hi
      -- a register was named by a call, or it is freed at the end
      rcases List.mem_append.mp hi with hi | hi
      · exact hout i hi
      · obtain ⟨e, he, rfl⟩ := List.mem_map.mp hi
        intro reg hreg
        rw [List.mem_singleton.mp hreg]
        exact Nat.lt_of_le_of_lt (toNat_regField_le _) (hregs e (helements.mem_iff.mp he))
    refine ⟨hall, fun a => ?_⟩
    generalize (r.dumpAllDeallocations elements).out = is_ at hall
    induction is_ with
    | nil => exact fun s hno => by simp [Replay.State.replayAll] at hno
    | cons i is_ ih =>
      intro s
      unfold Replay.State.replayAll
      rw [List.foldlM_cons]
      intro heq
      rcases bind_eq_error.mp heq with heq | ⟨s', -, heq⟩
      · exact Replay.State.replayInstruction_ne_outOfRange
          (hall i (List.mem_cons_self ..)) heq
      · exact ih (fun j hj => hall j (List.mem_cons_of_mem _ hj)) s' heq

/-- An allocation, a realloc that takes a second register, and two frees. -/
def reallocatingCalls : List Call :=
  [.event (.malloc 5 16), .event (.memalign 6 32 64), .event (.realloc 5 7 48), .event (.free 6),
    .event (.freeSized 7)]

theorem registers_dense_reallocatingCalls :
    (∃ r r' dumped, init.receiveAll [.event (.malloc 5 16), .event (.memalign 6 32 64)] = .ok r ∧
      r.receive (.event (.realloc 5 7 48)) = .ok r' ∧ r'.out = r.out ++ dumped ∧
      dumped.map Instruction.assigned? = [some 2] ∧
      ∀ i ∈ dumped, ∀ reg, i.assigned? = some reg → reg.toNat ≤ 2) ∧
    ∃ r, init.receiveAll reallocatingCalls = .ok r ∧
      ∀ elements : List Element, elements.Perm r.allocated →
        (∀ i ∈ (r.dumpAllDeallocations elements).out, ∀ reg ∈ i.registers,
          reg.toNat < Replay.kMaxRegisters) ∧
        ∀ (a : Replay.Allocator) (s : Replay.State),
          s.replayAll a (r.dumpAllDeallocations elements).out ≠ .error .outOfRange := by
  have hlegal : LegalCalls reallocatingCalls := by
    unfold LegalCalls
    decide
  refine ⟨?_, (registers_dense hlegal).2 fun before after hcalls => ?_⟩
  · -- the new register of the realloc is the third one
    obtain ⟨r, r', dumped, hr, hr', hout, hle⟩ := (registers_dense hlegal).1
      [.event (.malloc 5 16), .event (.memalign 6 32 64)] (.event (.realloc 5 7 48)) _ rfl
    have hdumped : (init.receiveAll ([.event (.malloc 5 16), .event (.memalign 6 32 64)] ++
        [.event (.realloc 5 7 48)])).map (fun r => r.out.map Instruction.assigned?) =
          .ok [some 0, some 1, some 2] := by
      decide +kernel
    have hfirst : (init.receiveAll [.event (.malloc 5 16), .event (.memalign 6 32 64)]).map
        (fun r => r.out.map Instruction.assigned?) = .ok [some 0, some 1] := by
      decide +kernel
    rw [receiveAll_concat, hr, ok_bind, hr'] at hdumped
    rw [hr] at hfirst
    have hall : r'.out.map Instruction.assigned? = [some 0, some 1] ++ [some 2] :=
      Except.ok.inj hdumped
    rw [hout, List.map_append, show r.out.map Instruction.assigned? = _ from
      Except.ok.inj hfirst] at hall
    exact ⟨r, r', dumped, hr, hr', hout, List.append_cancel_left hall, hle⟩
  have hlen := congrArg List.length hcalls
  have hle := length_liveTokens_le before
  rw [List.length_append, show reallocatingCalls.length = 5 from rfl] at hlen
  omega

end SimpleReceiver

end MallocTraceReplay
