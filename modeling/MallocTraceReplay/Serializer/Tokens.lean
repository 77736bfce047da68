import Mathlib.Data.List.Induction
import MallocTraceReplay.Serializer.Receiver

/-!
# Tokens

Which token an event allocates and which one it consumes, and the tokens that are allocated after
some calls of the receiver.
-/

namespace MallocTraceReplay

/-- The token that an event allocates. -/
def InnerEvent.newTok? : InnerEvent → Option UInt64
  | .malloc token _ => some token
  | .memalign token _ _ => some token
  | .free _ => none
  | .freeSized _ => none
  | .realloc _ newToken _ => some newToken

/-- The token that an event consumes. -/
def InnerEvent.waitTok? : InnerEvent → Option UInt64
  | .malloc _ _ => none
  | .memalign _ _ _ => none
  | .free token => some token
  | .freeSized token => some token
  | .realloc oldToken _ _ => some oldToken

/-- The tokens that are allocated after an event. -/
def InnerEvent.apply (ev : InnerEvent) (live : List UInt64) : List UInt64 :=
  ev.newTok?.toList ++ live.filter fun tok => ev.waitTok? ≠ some tok

/-- The tokens that are allocated after a call. -/
def Call.apply (live : List UInt64) : Call → List UInt64
  | .event ev => ev.apply live
  | _ => live

/-- The tokens that are allocated after some calls. -/
def liveTokens (calls : List Call) : List UInt64 := calls.foldl Call.apply []

/-- A receiver whose `HasAllocated` is true exactly for the tokens currently allocated. -/
def Env.Faithful (env : Env) : Prop :=
  ∀ calls tok, env.hasAllocated calls tok = true ↔ tok ∈ liveTokens calls

theorem mem_apply {ev : InnerEvent} {live : List UInt64} {tok : UInt64} :
    tok ∈ ev.apply live ↔ ev.newTok? = some tok ∨ tok ∈ live ∧ ev.waitTok? ≠ some tok := by
  simp [InnerEvent.apply]

theorem liveTokens_append (calls : List Call) (call : Call) :
    liveTokens (calls ++ [call]) = call.apply (liveTokens calls) := by
  simp [liveTokens]

/-- Every call allocates at most one token. -/
theorem length_liveTokens_le (calls : List Call) : (liveTokens calls).length ≤ calls.length := by
  induction calls using List.reverseRecOn with
  | nil => exact Nat.le_refl _
  | append_singleton calls call ih =>
    rw [liveTokens_append, List.length_append, List.length_singleton]
    cases call with
    | killCurrentThread | switchThread | setTS | barrier | hasAllocated =>
      exact Nat.le_succ_of_le ih
    | event ev =>
      have hfilter := List.length_filter_le (fun tok => decide (ev.waitTok? ≠ some tok))
        (liveTokens calls)
      have hnew : ev.newTok?.toList.length ≤ 1 := by cases ev.newTok? <;> simp
      rw [Call.apply, InnerEvent.apply, List.length_append]
      omega

/-- A token that was allocated and not consumed is allocated. -/
theorem mem_liveTokens {calls : List Call} {tok : UInt64}
    (hnew : ∃ ev, Call.event ev ∈ calls ∧ ev.newTok? = some tok)
    (hwait : ∀ ev, Call.event ev ∈ calls → ev.waitTok? ≠ some tok) : tok ∈ liveTokens calls := by
  induction calls using List.reverseRecOn with
  | nil =>
    obtain ⟨ev, hev, -⟩ := hnew
    simp at hev
  | append_singleton calls call ih =>
    have hbefore : (∃ ev, Call.event ev ∈ calls ∧ ev.newTok? = some tok) →
        tok ∈ liveTokens calls := fun hnew =>
      ih hnew fun ev hev => hwait ev (List.mem_append_left _ hev)
    obtain ⟨ev, hev, htok⟩ := hnew
    rw [liveTokens_append]
    rcases List.mem_append.mp hev with hev | hev
    · have hlive := hbefore ⟨ev, hev, htok⟩
      cases call with
      | event ev' => exact mem_apply.mpr (Or.inr ⟨hlive, hwait ev' (by simp)⟩)
      | killCurrentThread | switchThread | setTS | barrier | hasAllocated => exact hlive
    · rw [← List.mem_singleton.mp hev]
      exact mem_apply.mpr (Or.inl htok)

/-- A receiver that keeps the set of the allocated tokens, with a queue that keeps its entries
sorted. -/
def Env.tokenSet : Env where
  queue := sortedQueue UInt64 ℕ
  hasAllocated := fun calls tok => decide (tok ∈ liveTokens calls)
  stack := fun _ _ => 0
  newTs := 0
  newCpu := 0
  newEvent := .zero

theorem Env.faithful_tokenSet : Env.tokenSet.Faithful := fun _ _ => decide_eq_true_iff

end MallocTraceReplay
