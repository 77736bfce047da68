import MallocTraceReplay.Postprocess.Equiv.Pipeline
import MallocTraceReplay.Replay.AllocatorCalls
import MallocTraceReplay.Replay.Equiv.ThreadCaches

/-!
# What the allocator is asked for

The events stand for calls of an allocator, with the pointers of the tokens in the place of the
tokens (`clientCalls`).  Legal calls of the receiver make a well-behaved client of it
(`wellBehaved_clientCalls`).
-/

namespace MallocTraceReplay

open StepMachine History Allocation

/-! ### The pointers of tokens -/

/-- The place of the last allocation of a token. -/
def lastAllocation (allocs : List UInt64) (tok : UInt64) : ℕ :=
  allocs.length - 1 - allocs.reverse.idxOf tok

theorem lastAllocation_concat_self (allocs : List UInt64) (tok : UInt64) :
    lastAllocation (allocs ++ [tok]) tok = allocs.length := by
  simp [lastAllocation]

theorem lastAllocation_concat_of_ne (allocs : List UInt64) {tok tok' : UInt64} (h : tok' ≠ tok) :
    lastAllocation (allocs ++ [tok]) tok' = lastAllocation allocs tok' := by
  rw [lastAllocation, lastAllocation, List.reverse_concat, List.idxOf_cons_ne _ h.symm,
    List.length_append, List.length_singleton]
  omega

theorem lastAllocation_eq {allocs : List UInt64} {tok : UInt64} {k : ℕ}
    (h : IsGreatest {k | allocs[k]? = some tok} k) : lastAllocation allocs tok = k := by
  induction allocs using List.reverseRecOn with
  | nil =>
    have hmem : ([] : List UInt64)[k]? = some tok := h.1
    simp at hmem
  | append_singleton allocs last ih =>
    have hmem : (allocs ++ [last])[k]? = some tok := h.1
    by_cases hlast : tok = last
    · subst hlast
      rw [lastAllocation_concat_self]
      have hle : allocs.length ≤ k := h.2 (by simp)
      have hlt := (List.getElem?_eq_some_iff.mp hmem).1
      rw [List.length_append, List.length_singleton] at hlt
      omega
    · rw [lastAllocation_concat_of_ne _ hlast]
      have hset : {k : ℕ | (allocs ++ [last])[k]? = some tok} = {k | allocs[k]? = some tok} := by
        ext j
        simp only [Set.mem_ofPred_eq, List.getElem?_append]
        split
        · rfl
        · next hj =>
          rw [List.getElem?_eq_none (Nat.le_of_not_lt hj)]
          cases hsub : j - allocs.length with
          | zero => simp [Ne.symm hlast]
          | succ n => simp
      rw [hset] at h
      exact ih h

/-! ### The client that the events are -/

/-- What an event asks of an allocator, when so many tokens have been allocated. -/
def InnerEvent.allocatorCall (a : Replay.Allocator) (allocs : List UInt64) :
    InnerEvent → AllocatorCall UInt64 UInt64
  | .malloc _ size => .malloc size (a.pointer allocs.length)
  | .memalign _ size align => .memalign align size (a.pointer allocs.length)
  | .free tok | .freeSized tok => .free (a.pointer (lastAllocation allocs tok))
  | .realloc oldTok _ newSize =>
    .realloc (a.pointer (lastAllocation allocs oldTok)) newSize (a.pointer allocs.length)

/-- What a call of the receiver asks of an allocator. -/
def Call.allocatorCall? (a : Replay.Allocator) (allocs : List UInt64) :
    Call → Option (AllocatorCall UInt64 UInt64)
  | .event ev => some (ev.allocatorCall a allocs)
  | .killCurrentThread | .switchThread _ | .setTS _ _ | .barrier | .hasAllocated _ => none

/-- **The client**: what the calls of the receiver ask of an allocator. -/
def clientCalls (a : Replay.Allocator) (calls : List Call) : List (AllocatorCall UInt64 UInt64) :=
  (calls.foldl (fun (allocs, client) call =>
    (allocs ++ call.newTok?.toList, client ++ (call.allocatorCall? a allocs).toList)) ([], [])).2

theorem clientCalls_concat (a : Replay.Allocator) (calls : List Call) (call : Call) :
    clientCalls a (calls ++ [call]) =
      clientCalls a calls ++ (call.allocatorCall? a (allocationsOf calls)).toList := by
  have hfst : ∀ calls : List Call, (calls.foldl (fun (allocs, client) call =>
      (allocs ++ call.newTok?.toList, client ++ (call.allocatorCall? a allocs).toList))
        (([] : List UInt64), ([] : List (AllocatorCall UInt64 UInt64)))).1 =
          allocationsOf calls := by
    intro calls
    induction calls using List.reverseRecOn with
    | nil => rfl
    | append_singleton calls call ih =>
      rw [List.foldl_append, List.foldl_cons, List.foldl_nil, allocationsOf_concat, ← ih]
  rw [clientCalls, List.foldl_append, List.foldl_cons, List.foldl_nil, ← hfst]
  rfl

section Client

variable {a : Replay.Allocator} {calls : List Call}

/-- The pieces of the allocated tokens. -/
def tokenPieces (a : Replay.Allocator) (calls : List Call) : List UInt64 :=
  (liveTokens calls).map fun tok => a.pointer (lastAllocation (allocationsOf calls) tok)

/-- The tokens that are not allocated anew keep their pointers. -/
theorem map_pointer_concat {allocs live : List UInt64} {tok : UInt64} (h : tok ∉ live) :
    live.map (fun t => a.pointer (lastAllocation (allocs ++ [tok]) t)) =
      live.map fun t => a.pointer (lastAllocation allocs t) := by
  refine List.map_congr_left fun t ht => ?_
  rw [lastAllocation_concat_of_ne _ (ne_of_mem_of_not_mem ht h)]

/-- The piece of a token that is consumed goes. -/
theorem erase_pieces {pieces live : List UInt64} {f : UInt64 → UInt64} {tok : UInt64}
    (hpieces : pieces.Perm (live.map f)) (hnodup : live.Nodup) (htok : tok ∈ live) :
    f tok ∈ pieces ∧ (pieces.erase (f tok)).Perm
      ((live.filter fun t => (some tok : Option UInt64) ≠ some t).map f) := by
  have hperm : pieces.Perm (f tok :: (live.erase tok).map f) :=
    hpieces.trans ((List.perm_cons_erase htok).map f)
  refine ⟨hperm.mem_iff.mpr (List.mem_cons_self ..), ?_⟩
  have herase := hperm.erase (f tok)
  rw [List.erase_cons_head, hnodup.erase_eq_filter] at herase
  refine herase.trans (List.Perm.of_eq ?_)
  congr 1
  refine List.filter_congr fun t _ => ?_
  rw [bne, Bool.eq_iff_iff, Bool.not_eq_true', beq_eq_false_iff_ne, decide_eq_true_iff, ne_comm,
    ne_eq, ne_eq, Option.some_inj]

/-- **The events are a well-behaved client**: they free and reallocate only the pointers of tokens
that are allocated, and these are the pointers that are allocated. -/
theorem wellBehaved_clientCalls (a : Replay.Allocator) (h : LegalCalls calls) :
    WellBehaved (clientCalls a calls) ∧
      (pieces (clientCalls a calls)).Perm (tokenPieces a calls) := by
  induction calls using List.reverseRecOn with
  | nil => exact ⟨forAllCuts_nil, List.Perm.refl _⟩
  | append_singleton calls call ih =>
    obtain ⟨hcalls, hcall⟩ := forAllCuts_concat.mp h
    obtain ⟨hbehaved, hpieces⟩ := ih hcalls
    -- the tokens that are live differ, so that one of them can be taken from the pieces
    obtain ⟨r, -, hrep⟩ := SimpleReceiver.receiveAll_of_legal hcalls
    have hnodup : (liveTokens calls).Nodup := hrep.tokens.nodup_iff.mp hrep.tokens_nodup
    have hallocs := allocationsOf_concat calls call
    rw [clientCalls_concat, tokenPieces, liveTokens_append, hallocs]
    cases call with
    | killCurrentThread | switchThread | setTS | barrier | hasAllocated =>
      -- these calls ask for no memory
      simp only [Call.newTok?, Call.allocatorCall?, Option.toList_none, List.append_nil]
      exact ⟨hbehaved, hpieces⟩
    | event ev =>
      obtain ⟨hwait, hfresh⟩ := hcall
      rw [Call.allocatorCall?, Option.toList_some, wellBehaved_concat, pieces_concat,
        Call.newTok?, Call.apply]
      rw [tokenPieces] at hpieces
      cases ev with
      | malloc tok | memalign tok =>
        -- what is live is not allocated again by a call that consumes nothing
        have hnew : tok ∉ liveTokens calls := fun hlive => by
          have := hfresh tok rfl hlive
          simp [InnerEvent.waitTok?] at this
        refine ⟨⟨hbehaved, trivial⟩, ?_⟩
        rw [InnerEvent.apply, InnerEvent.waitTok?, SimpleReceiver.filter_none, InnerEvent.newTok?,
          Option.toList_some, List.singleton_append, List.map_cons, lastAllocation_concat_self,
          map_pointer_concat hnew]
        exact hpieces.cons _
      | free tok | freeSized tok =>
        -- its piece is one of those allocated, and goes from them
        obtain ⟨hmem, herase⟩ := erase_pieces hpieces hnodup (hwait tok rfl)
        refine ⟨⟨hbehaved, hmem⟩, ?_⟩
        rw [InnerEvent.apply, InnerEvent.waitTok?, InnerEvent.newTok?, Option.toList_none,
          List.append_nil, List.nil_append]
        exact herase
      | realloc oldTok newTok =>
        obtain ⟨hmem, herase⟩ := erase_pieces hpieces hnodup (hwait oldTok rfl)
        refine ⟨⟨hbehaved, hmem⟩, ?_⟩
        -- the new token may be the old one, which is no longer live when it is allocated
        have hnew : newTok ∉ (liveTokens calls).filter fun t =>
            (some oldTok : Option UInt64) ≠ some t := fun hlive => by
          rw [List.mem_filter] at hlive
          have hsame := hfresh newTok rfl hlive.1
          rw [InnerEvent.waitTok?] at hsame
          simp [hsame] at hlive
        rw [InnerEvent.apply, InnerEvent.waitTok?, InnerEvent.newTok?, Option.toList_some,
          List.singleton_append, List.map_cons, lastAllocation_concat_self,
          map_pointer_concat hnew]
        exact herase.cons _

end Client

end MallocTraceReplay
