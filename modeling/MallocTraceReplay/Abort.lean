import Mathlib.Data.Nat.Notation

/-!
# How the programs stop early

`panic` prints its reason and calls `abort()`; `assert` is compiled in (the build files do not
define `NDEBUG`) unless a run says otherwise; some places call `abort()` themselves.  An access to
memory that is not there, which the hardware answers with a signal, is an abort as well.
-/

namespace MallocTraceReplay

/-- The assertions of the modelled functions, by what they check. -/
inductive Assertion
  /-- `assert(ptr >= realized_start_)` in `MemStream::unrealize_up_to`. -/
  | unrealizeStart
  /-- `assert(!thread->dead)` when a buffer arrives. -/
  | bufThreadNotDead
  /-- `assert(thread->active_stream.get() == nullptr)` when a buffer arrives. -/
  | idleStreamNull
  /-- `assert(!thread->dead)` when a death arrives. -/
  | deathThreadNotDead
  /-- `assert(thread->active_stream.get() != nullptr)` in the drain loop. -/
  | topStreamLive
  /-- `assert(!thread->bufs.empty())` in the drain loop. -/
  | topBufsNonempty
  /-- `assert(processed || new_tok == kEmptyTok)`. -/
  | processedOrNoToken
  /-- `assert(state.pending_frees.count(wait_tok) == 0)`. -/
  | pendingFreesFresh
  /-- `assert(thread->dead)` in the `to_die` loop. -/
  | dyingDead
  /-- `assert(thread->bufs.empty())` in the `to_die` loop. -/
  | dyingBufsEmpty
  /-- `assert(!thread->signalled)` in the `to_die` loop. -/
  | dyingNotSignalled
  /-- `assert(thread->active_stream.get() == nullptr)` in the `to_die` loop. -/
  | dyingStreamNull
  /-- `assert(p != 0)` in `IdTree::bsf`. -/
  | bsfNonzero
  /-- `assert(divpos < v.size())` in `IdTree::set_bit_vector`. -/
  | setBitRange
  /-- The assertions on the sizes of the levels in `IdTree::allocate_id`. -/
  | levelSizes
  /-- `assert(divpos < level0.size())` in `IdTree::is_free_at`. -/
  | isFreeAtRange
  /-- `assert(is_free_at(id))` in `IdTree::allocate_id` and `IdTree::free_id`. -/
  | idFree
  /-- `assert(!is_free_at(id))` in `IdTree::free_id`. -/
  | idNotFree
  /-- `assert(Lookup(token) == nullptr)` in `AllocatedMap::Insert`. -/
  | insertFresh
  deriving DecidableEq, Repr

/-- The reasons for which a run stops before its end. -/
inductive Abort
  /-- `panic(reason)`. -/
  | panic (reason : String)
  /-- A failed assertion. -/
  | assertion (which : Assertion)
  /-- A direct call of `abort()`. -/
  | abort
  /-- An access to memory that is not mapped, or through a null or dangling pointer. -/
  | fault
  /-- The recursion bound of the model is used up. -/
  | outOfFuel
  deriving DecidableEq, Repr

/-- `assert(cond)`, compiled out when `ndebug` is set. -/
def check (ndebug cond : Bool) (which : Assertion) : Except Abort Unit :=
  if ndebug || cond then .ok () else .error (.assertion which)

/-- A condition that holds passes. -/
theorem check_true (ndebug : Bool) (which : Assertion) : check ndebug true which = .ok () := by
  cases ndebug <;> rfl

theorem check_eq_ok {ndebug cond : Bool} {which : Assertion} {u : Unit} :
    check ndebug cond which = .ok u ↔ ndebug = true ∨ cond = true := by
  unfold check
  cases ndebug <;> cases cond <;> simp

theorem check_eq_error {ndebug cond : Bool} {which : Assertion} {e : Abort} :
    check ndebug cond which = .error e ↔
      ndebug = false ∧ cond = false ∧ e = .assertion which := by
  unfold check
  cases ndebug <;> cases cond <;> simp [eq_comm]

end MallocTraceReplay
