import MallocTraceReplay.Replay.Equiv.Threads

/-!
# The thread caches under replay

Replay moves the caches of the allocator between the attached slot and the entries of
`thread_states`.  `Holds` says where a cache can be found again, `CachesKept` that exactly the
caches not yet destroyed can.  A switch keeps them; a kill keeps them exactly when neither the
killed thread nor the absence of a thread has a cache booked (`KillsCleanly`), which gives
`cachesKept_iff` for whole runs.
-/

namespace MallocTraceReplay.Replay

open StepMachine History

namespace State

variable {a : Allocator} {s s' : State} {i : Instruction} {c : ℕ}

/-! ### Where a cache is -/

/-- The cache is attached, or in the entry of a thread that does not run. -/
def Holds (s : State) (c : ℕ) : Prop :=
  s.caches.attached = some c ∨ ∃ t, t ≠ s.currentThreadId ∧ s.threadStates t = some (some c)

/-- No cache is lost, and none is held after its destruction. -/
structure CachesKept (s : State) : Prop where
  kept : ∀ c < s.caches.created, c ∉ s.caches.destroyed → s.Holds c
  alive : ∀ c ∈ s.caches.destroyed, ¬ s.Holds c

/-- Neither the current thread nor `kInvalidThreadId` has a cache in its entry. -/
def KillsCleanly (s : State) : Prop :=
  ∀ c, s.threadStates s.currentThreadId ≠ some (some c) ∧
    s.threadStates kInvalidThreadId ≠ some (some c)

/-- The state in which replay starts: with or without a cache attached. -/
def start (attached : Bool) : State :=
  if attached then { init with caches := init.caches.use } else init

/-! ### What an instruction does to the threads -/

/-- The caches, the entries and the current thread are the same. -/
structure SameThreads (s s' : State) : Prop where
  caches : s'.caches = s.caches
  threadStates : s'.threadStates = s.threadStates
  currentThreadId : s'.currentThreadId = s.currentThreadId

theorem SameThreads.trans {s'' : State} (h : SameThreads s s') (h' : SameThreads s' s'') :
    SameThreads s s'' :=
  ⟨h'.caches.trans h.caches, h'.threadStates.trans h.threadStates,
    h'.currentThreadId.trans h.currentThreadId⟩

theorem sameThreads_setRegister {reg ptr : UInt64} (h : s.setRegister reg ptr = .ok s') :
    SameThreads s s' := by
  unfold setRegister at h
  split at h
  · rw [← Except.ok.inj h]
    exact ⟨Eq.refl _, Eq.refl _, Eq.refl _⟩
  · simp at h

theorem sameThreads_allocate {ptr : UInt64} (h : s.allocate a = .ok (ptr, s')) :
    SameThreads s s' := by
  unfold allocate at h
  dsimp only at h
  split at h
  · simp at h
  · rw [← (Prod.mk.inj (Except.ok.inj h)).2]
    exact ⟨Eq.refl _, Eq.refl _, Eq.refl _⟩

/-- The memory instructions and the time stamps leave the threads alone. -/
theorem sameThreads_execute (hi : i.isThread = false) (h : execute a s i = .ok s') :
    SameThreads s s' := by
  unfold execute at h
  cases htype : i.type <;> simp only [htype] at h
  -- pieces, registers and counters are apart from the threads
  case MALLOC =>
    obtain ⟨⟨ptr, s₁⟩, halloc, h⟩ := bind_eq_ok.mp h
    obtain ⟨old, -, h⟩ := bind_eq_ok.mp h
    dsimp only at h
    split at h
    · simp at h
    · obtain ⟨s₂, hset, h⟩ := bind_eq_ok.mp h
      rw [← Except.ok.inj h]
      have hsame := (sameThreads_allocate halloc).trans (sameThreads_setRegister hset)
      exact ⟨hsame.caches, hsame.threadStates, hsame.currentThreadId⟩
  case FREE =>
    obtain ⟨old, -, h⟩ := bind_eq_ok.mp h
    obtain ⟨s₁, hset, h⟩ := bind_eq_ok.mp h
    rw [← Except.ok.inj h]
    have hsame := sameThreads_setRegister hset
    exact ⟨hsame.caches, hsame.threadStates, hsame.currentThreadId⟩
  case MEMALIGN =>
    obtain ⟨⟨ptr, s₁⟩, halloc, hset⟩ := bind_eq_ok.mp h
    have hsame := (sameThreads_allocate halloc).trans (sameThreads_setRegister hset)
    exact ⟨hsame.caches, hsame.threadStates, hsame.currentThreadId⟩
  case REALLOC =>
    obtain ⟨old, -, h⟩ := bind_eq_ok.mp h
    obtain ⟨⟨ptr, s₁⟩, halloc, h⟩ := bind_eq_ok.mp h
    obtain ⟨s₂, hset, hset'⟩ := bind_eq_ok.mp h
    exact ((sameThreads_allocate halloc).trans (sameThreads_setRegister hset)).trans
      (sameThreads_setRegister hset')
  case FREE_SIZED =>
    obtain ⟨old, -, hset⟩ := bind_eq_ok.mp h
    have hsame := sameThreads_setRegister hset
    exact ⟨hsame.caches, hsame.threadStates, hsame.currentThreadId⟩
  case SWITCH_THREAD | KILL_THREAD => simp [Instruction.isThread, htype] at hi
  case SET_TS_CPU =>
    rw [← Except.ok.inj h]
    exact ⟨Eq.refl _, Eq.refl _, Eq.refl _⟩

/-- The cache in a thread's entry, null when there is no entry. -/
def entry (s : State) (t : UInt64) : Option ℕ := (s.threadStates t).join

theorem entry_eq_some {t : UInt64} : s.entry t = some c ↔ s.threadStates t = some (some c) := by
  unfold entry
  rw [Option.join_eq_some_iff]

/-- A switch stores the attached cache for the thread that ran and attaches the new thread's. -/
theorem handleSwitchThread_effect {id : UInt64} (h : s.handleSwitchThread id = .ok s') :
    s.currentThreadId ≠ id ∧ id ≠ kInvalidThreadId ∧ s'.currentThreadId = id ∧
      s'.caches = { s.caches with attached := s.entry id } ∧
      ∀ t, s'.entry t = if t = s.currentThreadId then s.caches.attached else s.entry t := by
  have hallowed := handleSwitchThread_iff.mp ⟨s', h⟩
  have hid : id ≠ s.currentThreadId := Ne.symm hallowed.1
  refine ⟨hallowed.1, hallowed.2, currentThreadId_switch h, ?_⟩
  unfold handleSwitchThread at h
  rw [if_neg hallowed.1, if_neg hallowed.2] at h
  dsimp only [ThreadCaches.release] at h
  unfold threadStateAt at h
  dsimp only at h
  rw [if_neg hid] at h
  cases hentry : s.threadStates id with
  | none =>
    -- the new thread has no entry yet, and so no cache to attach
    rw [hentry] at h
    rw [← Except.ok.inj h]
    refine ⟨by simp [entry, hentry], fun t => ?_⟩
    by_cases ht : t = s.currentThreadId
    · simp [entry, ht, hallowed.1]
    · by_cases htid : t = id
      · simp [entry, htid, hentry, hid]
      · simp [entry, ht, htid]
  | some ts =>
    rw [hentry] at h
    cases ts with
    | none =>
      rw [← Except.ok.inj h]
      refine ⟨by simp [entry, hentry], fun t => ?_⟩
      by_cases ht : t = s.currentThreadId <;> simp [entry, ht]
    | some c =>
      -- its cache is attached again
      rw [← Except.ok.inj h]
      refine ⟨by simp [entry, hentry, ThreadCaches.set], fun t => ?_⟩
      by_cases ht : t = s.currentThreadId <;> simp [entry, ht]

/-- A kill erases the entry of the thread, and hands its cache to `delete_malloc_state`. -/
theorem handleKillThread_effect (h : s.handleKillThread = .ok s') :
    s.currentThreadId ≠ kInvalidThreadId ∧ s'.currentThreadId = kInvalidThreadId ∧
      (∀ t, s'.entry t = if t = s.currentThreadId then none else s.entry t) ∧
      s'.caches =
        match s.entry s.currentThreadId with
        | some c => (s.deleteMallocState c).caches
        | none => s.caches := by
  have hallowed := handleKillThread_iff.mp ⟨s', h⟩
  refine ⟨hallowed, currentThreadId_kill h, ?_⟩
  unfold handleKillThread at h
  rw [if_neg hallowed] at h
  unfold threadStateAt at h
  cases hentry : s.threadStates s.currentThreadId with
  | none =>
    rw [hentry] at h
    rw [← Except.ok.inj h]
    refine ⟨fun t => ?_, by simp [entry, hentry]⟩
    by_cases ht : t = s.currentThreadId <;> simp [entry, ht]
  | some ts =>
    rw [hentry] at h
    cases ts with
    | none =>
      rw [← Except.ok.inj h]
      refine ⟨fun t => ?_, by simp [entry, hentry]⟩
      by_cases ht : t = s.currentThreadId <;> simp [entry, ht]
    | some c =>
      -- its cache is destroyed with it
      rw [← Except.ok.inj h]
      refine ⟨fun t => ?_, by simp [entry, hentry, deleteMallocState]⟩
      by_cases ht : t = s.currentThreadId <;> simp [entry, ht, deleteMallocState]

/-! ### The ledger of a run without a bad kill -/

/-- While every kill is clean nothing is destroyed, and every cache is in one place: attached, or
in the entry of one thread that does not run.  The entry of the current thread is a copy of what
was attached when it was switched to. -/
structure Ledger (s : State) : Prop where
  destroyed : s.caches.destroyed = []
  kept : ∀ c < s.caches.created, s.caches.attached = some c ∨
    ∃ t, t ≠ s.currentThreadId ∧ s.entry t = some c
  attached_lt : ∀ c, s.caches.attached = some c → c < s.caches.created
  entry_lt : ∀ t c, s.entry t = some c → c < s.caches.created
  running : ∀ c, s.entry s.currentThreadId = some c → s.caches.attached = some c
  attached_once : ∀ t c, t ≠ s.currentThreadId → s.entry t = some c → s.caches.attached ≠ some c
  entry_once : ∀ t u c, t ≠ s.currentThreadId → u ≠ s.currentThreadId →
    s.entry t = some c → s.entry u = some c → t = u

theorem holds_iff : s.Holds c ↔
    s.caches.attached = some c ∨ ∃ t, t ≠ s.currentThreadId ∧ s.entry t = some c := by
  simp only [Holds, entry_eq_some]

theorem Ledger.cachesKept (h : Ledger s) : s.CachesKept where
  kept c hc _ := holds_iff.mpr (h.kept c hc)
  alive c hc := by simp [h.destroyed] at hc

theorem killsCleanly_iff : s.KillsCleanly ↔
    s.entry s.currentThreadId = none ∧ s.entry kInvalidThreadId = none := by
  simp only [KillsCleanly, ne_eq, ← entry_eq_some, Option.eq_none_iff_forall_ne_some, forall_and]

theorem ledger_start (attached : Bool) : Ledger (start attached) := by
  cases attached with
  | false =>
    constructor
    all_goals simp [start, init, entry]
  | true =>
    constructor
    all_goals simp [start, init, entry, ThreadCaches.use]

theorem Ledger.sameThreads (h : Ledger s) (hsame : SameThreads s s') : Ledger s' := by
  have hentry : ∀ t, s'.entry t = s.entry t := fun t => by rw [entry, hsame.threadStates, entry]
  constructor
  all_goals simp only [hentry, hsame.caches, hsame.currentThreadId]
  · exact h.destroyed
  · exact h.kept
  · exact h.attached_lt
  · exact h.entry_lt
  · exact h.running
  · exact h.attached_once
  · exact h.entry_once

/-- An allocation with no cache attached: the fresh cache is attached, and nowhere else. -/
theorem Ledger.use (h : Ledger s) : Ledger { s with caches := s.caches.use } := by
  -- a cache is made only where none is attached
  cases hattached : s.caches.attached with
  | some c =>
    have huse : s.caches.use = s.caches := by rw [ThreadCaches.use, hattached]
    rw [huse]
    exact h
  | none =>
    have huse : s.caches.use =
        { s.caches with attached := some s.caches.created, created := s.caches.created + 1 } := by
      rw [ThreadCaches.use, hattached]
    rw [huse]
    constructor
    · exact h.destroyed
    · -- the new cache is attached, so it is not lost
      intro c hc
      dsimp only at hc ⊢
      by_cases hnew : c = s.caches.created
      · exact Or.inl (by rw [hnew])
      · obtain hold | hold := h.kept c (by omega)
        · simp [hattached] at hold
        · exact Or.inr hold
    · intro c hc
      obtain rfl := Option.some.inj hc
      exact Nat.lt_succ_self _
    · exact fun t c hc => Nat.lt_succ_of_lt (h.entry_lt t c hc)
    · intro c hc
      have hold := h.running c hc
      simp [hattached] at hold
    · -- and it is in no entry, since it is newer than they are
      intro t c ht hc hnew
      have hlt := h.entry_lt t c hc
      have heq := Option.some.inj hnew
      omega
    · exact h.entry_once

/-- **A switch keeps the ledger.** -/
theorem Ledger.switch {id : UInt64} (h : Ledger s) (hswitch : s.handleSwitchThread id = .ok s') :
    Ledger s' := by
  obtain ⟨hne, -, hcurrent, hcaches, hentry⟩ := handleSwitchThread_effect hswitch
  -- the entries of the threads that do not run now, in terms of the old state
  have hthread : ∀ t c, t ≠ id → s'.entry t = some c →
      t = s.currentThreadId ∧ s.caches.attached = some c ∨
        t ≠ s.currentThreadId ∧ s.entry t = some c := by
    intro t c ht hc
    rw [hentry] at hc
    by_cases hold : t = s.currentThreadId
    · rw [if_pos hold] at hc
      exact Or.inl ⟨hold, hc⟩
    · rw [if_neg hold] at hc
      exact Or.inr ⟨hold, hc⟩
  have hid : s'.entry id = s.entry id := by rw [hentry, if_neg (Ne.symm hne)]
  constructor
  · rw [hcaches]
    exact h.destroyed
  · intro c hc
    rw [hcaches] at hc
    rw [hcaches, hcurrent]
    obtain hold | ⟨t, ht, hold⟩ := h.kept c hc
    · exact Or.inr ⟨s.currentThreadId, hne, by rw [hentry, if_pos rfl, hold]⟩
    · by_cases htid : t = id
      · rw [htid] at hold
        exact Or.inl hold
      · exact Or.inr ⟨t, htid, by rw [hentry, if_neg ht, hold]⟩
  · intro c hc
    rw [hcaches] at hc ⊢
    exact h.entry_lt id c hc
  · intro t c hc
    rw [hcaches]
    by_cases htid : t = id
    · rw [htid, hid] at hc
      exact h.entry_lt id c hc
    · obtain ⟨-, hold⟩ | ⟨-, hold⟩ := hthread t c htid hc
      · exact h.attached_lt c hold
      · exact h.entry_lt t c hold
  · intro c hc
    rw [hcurrent, hid] at hc
    rw [hcaches, hc]
  · intro t c ht hc hattached
    rw [hcurrent] at ht
    rw [hcaches] at hattached
    obtain ⟨-, hold⟩ | ⟨hcur, hold⟩ := hthread t c ht hc
    · exact h.attached_once id c (Ne.symm hne) hattached hold
    · exact ht (h.entry_once t id c hcur (Ne.symm hne) hold hattached)
  · intro t u c ht hu htc huc
    rw [hcurrent] at ht hu
    obtain ⟨htcur, htold⟩ | ⟨htcur, htold⟩ := hthread t c ht htc
    · obtain ⟨hucur, -⟩ | ⟨hucur, huold⟩ := hthread u c hu huc
      · rw [htcur, hucur]
      · exact absurd htold (h.attached_once u c hucur huold)
    · obtain ⟨-, huold⟩ | ⟨hucur, huold⟩ := hthread u c hu huc
      · exact absurd huold (h.attached_once t c htcur htold)
      · exact h.entry_once t u c htcur hucur htold huold

/-- A clean kill keeps the ledger: the attached cache stays attached with no thread running. -/
theorem Ledger.kill (h : Ledger s) (hclean : s.KillsCleanly) (hkill : s.handleKillThread = .ok s') :
    Ledger s' := by
  obtain ⟨hne, hcurrent, hentry, hcaches⟩ := handleKillThread_effect hkill
  obtain ⟨hnull, hinvalid⟩ := killsCleanly_iff.mp hclean
  rw [hnull] at hcaches
  have hsame : ∀ t, s'.entry t = s.entry t := by
    intro t
    rw [hentry]
    by_cases ht : t = s.currentThreadId
    · rw [if_pos ht, ht, hnull]
    · rw [if_neg ht]
  -- an entry with a cache is neither the killed thread's nor that of `kInvalidThreadId`
  have hbooked : ∀ t c, s.entry t = some c → t ≠ s.currentThreadId ∧ t ≠ kInvalidThreadId := by
    intro t c hc
    constructor
    · rintro rfl
      simp [hnull] at hc
    · rintro rfl
      simp [hinvalid] at hc
  constructor
  all_goals simp only [hsame, hcaches, hcurrent]
  · exact h.destroyed
  · intro c hc
    obtain hold | ⟨t, -, hold⟩ := h.kept c hc
    · exact Or.inl hold
    · exact Or.inr ⟨t, (hbooked t c hold).2, hold⟩
  · exact h.attached_lt
  · exact h.entry_lt
  · intro c hc
    simp [hinvalid] at hc
  · exact fun t c _ hc => h.attached_once t c (hbooked t c hc).1 hc
  · exact fun t u c _ _ htc huc => h.entry_once t u c (hbooked t c htc).1
      (hbooked u c huc).1 htc huc

/-- **A kill that is not clean** loses a cache, or destroys the cache that stays attached. -/
theorem Ledger.not_cachesKept (h : Ledger s) (hunclean : ¬ s.KillsCleanly)
    (hkill : s.handleKillThread = .ok s') : ¬ s'.CachesKept := by
  obtain ⟨hne, hcurrent, hentry, hcaches⟩ := handleKillThread_effect hkill
  intro hkept
  cases hown : s.entry s.currentThreadId with
  | some c =>
    -- the killed thread's entry is a copy of the attached slot
    have hattached := h.running c hown
    rw [hown] at hcaches
    have hdead : c ∈ s'.caches.destroyed := by
      rw [hcaches]
      simp [deleteMallocState, ThreadCaches.release, ThreadCaches.set]
    refine hkept.alive c hdead (Or.inl ?_)
    rw [hcaches]
    simp [deleteMallocState, ThreadCaches.release, ThreadCaches.set, hattached]
  | none =>
    rw [hown] at hcaches
    dsimp only at hcaches
    obtain ⟨c, hinvalid⟩ : ∃ c, s.entry kInvalidThreadId = some c := by
      by_contra hnone
      apply hunclean
      rw [killsCleanly_iff]
      exact ⟨hown, Option.eq_none_iff_forall_ne_some.mpr fun c hc => hnone ⟨c, hc⟩⟩
    have halive : c ∉ s'.caches.destroyed := by simp [hcaches, h.destroyed]
    have hlt : c < s'.caches.created := by
      rw [hcaches]
      exact h.entry_lt _ c hinvalid
    obtain hattached | ⟨t, ht, hbooked⟩ := holds_iff.mp (hkept.kept c hlt halive)
    · rw [hcaches] at hattached
      exact h.attached_once _ c (Ne.symm hne) hinvalid hattached
    · rw [hcurrent] at ht
      rw [hentry] at hbooked
      by_cases htcur : t = s.currentThreadId
      · simp [htcur] at hbooked
      · rw [if_neg htcur] at hbooked
        exact ht (h.entry_once t _ c htcur (Ne.symm hne) hbooked hinvalid)

/-! ### Runs -/

/-- The instruction is no kill, or it kills cleanly. -/
def CleanAt (s : State) (i : Instruction) : Prop := i.type = .KILL_THREAD → s.KillsCleanly

/-- **One instruction**: the ledger and the caches survive it iff it is clean. -/
theorem Ledger.replayInstruction (h : Ledger s) (hok : replayInstruction a s i = .ok s') :
    (s.CleanAt i → Ledger s') ∧ (s'.CachesKept → s.CleanAt i) := by
  obtain ⟨s₁, hs₁, hclean, hexec⟩ : ∃ s₁, Ledger s₁ ∧ (s₁.KillsCleanly ↔ s.KillsCleanly) ∧
      execute a s₁ i = .ok s' := by
    unfold State.replayInstruction at hok
    split at hok
    · exact ⟨_, h.use, Iff.rfl, hok⟩
    · exact ⟨s, h, Iff.rfl, hok⟩
  rw [CleanAt, ← hclean]
  by_cases hthread : i.isThread
  · unfold execute at hexec
    cases htype : i.type <;> simp only [htype] at hexec
    case SWITCH_THREAD => exact ⟨fun _ => hs₁.switch hexec, fun _ => by simp⟩
    case KILL_THREAD =>
      refine ⟨fun hc => hs₁.kill (hc rfl) hexec, fun hkept _ => ?_⟩
      by_contra hunclean
      exact hs₁.not_cachesKept hunclean hexec hkept
    all_goals simp [Instruction.isThread, htype] at hthread
  · have hsame := sameThreads_execute (by simpa using hthread) hexec
    refine ⟨fun _ => hs₁.sameThreads hsame, fun _ hkill => ?_⟩
    simp [Instruction.isThread, hkill] at hthread

/-- The states that replay passes: those after the first instructions, up to where it stops. -/
def Passes (a : Allocator) (s₀ : State) (is_ : List Instruction) (s : State) : Prop :=
  ∃ before, before <+: is_ ∧ replayAll a s₀ before = .ok s

/-- Every kill that is executed is clean in the state before it. -/
def KillsAllCleanly (a : Allocator) (s₀ : State) (is_ : List Instruction) : Prop :=
  ForAllCuts (fun before i => ∀ s s', replayAll a s₀ before = .ok s →
    replayInstruction a s i = .ok s' → s.CleanAt i) is_

/-- A run whose kills are clean has a ledger at its end. -/
theorem ledger_replayAll {s₀ : State} {is_ : List Instruction} (h₀ : Ledger s₀)
    (hclean : KillsAllCleanly a s₀ is_) (h : replayAll a s₀ is_ = .ok s) : Ledger s := by
  induction is_ using List.reverseRecOn generalizing s with
  | nil =>
    rw [← Except.ok.inj h]
    exact h₀
  | append_singleton is_ i ih =>
    obtain ⟨hbefore, hlast⟩ := forAllCuts_concat.mp hclean
    rw [replayAll_append] at h
    obtain ⟨s₁, hs₁, hi⟩ := bind_eq_ok.mp h
    exact ((ih hbefore hs₁).replayInstruction hi).1 (hlast s₁ s hs₁ hi)

/-- **No cache is lost, and none is used after its destruction**, in all states that replay passes,
exactly when no kill finds a cache in the entry of the current thread or of `kInvalidThreadId`. -/
theorem cachesKept_iff (a : Allocator) (attached : Bool) (is_ : List Instruction) :
    (∀ s, Passes a (start attached) is_ s → s.CachesKept) ↔
      KillsAllCleanly a (start attached) is_ := by
  constructor
  · intro hkept
    induction is_ using List.reverseRecOn with
    | nil => exact forAllCuts_nil
    | append_singleton is_ i ih =>
      have hclean := ih fun s ⟨before, hprefix, hs⟩ =>
        hkept s ⟨before, hprefix.trans (List.prefix_append _ _), hs⟩
      refine forAllCuts_concat.mpr ⟨hclean, fun s s' hs hi => ?_⟩
      have hledger := ledger_replayAll (ledger_start attached) hclean hs
      apply (hledger.replayInstruction hi).2
      exact hkept s' ⟨is_ ++ [i], List.prefix_rfl, by rw [replayAll_append, hs, ok_bind, hi]⟩
  · rintro hclean s ⟨before, ⟨after, rfl⟩, hs⟩
    exact (ledger_replayAll (ledger_start attached) hclean.of_append hs).cachesKept

/-- A thread allocates, is switched away from and back to, and is killed: the cache that stays
attached is destroyed. -/
theorem not_cachesKept_of_switchedBack :
    ¬ ∀ (a : Allocator) (attached : Bool) (is_ : List Instruction) (s : State),
      Passes a (start attached) is_ s → s.CachesKept := by
  intro h
  let a : Allocator := { pointer := fun _ => 0x1000, attaches := fun type => type == .MALLOC }
  let is_ : List Instruction := [{ Instruction.new .SWITCH_THREAD with word0 := 1 },
    (Instruction.new .MALLOC).setReg 0, { Instruction.new .SWITCH_THREAD with word0 := 2 },
    { Instruction.new .SWITCH_THREAD with word0 := 1 }, .new .KILL_THREAD]
  obtain ⟨s, hs, hattached, hdestroyed⟩ : ∃ s, replayAll a (start false) is_ = .ok s ∧
      s.caches.attached = some 0 ∧ s.caches.destroyed = [0] := ⟨_, rfl, rfl, rfl⟩
  have hkept := h a false is_ s ⟨is_, List.prefix_rfl, hs⟩
  exact hkept.alive 0 (by simp [hdestroyed]) (Or.inl hattached)

end State

end MallocTraceReplay.Replay
