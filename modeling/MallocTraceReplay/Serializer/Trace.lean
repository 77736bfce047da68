import MallocTraceReplay.Serializer.Serialize
import MallocTraceReplay.Serializer.Decoding
import MallocTraceReplay.Serializer.Tokens
import MallocTraceReplay.Lib.History
import MallocTraceReplay.Lib.Interleaving

/-!
# Traces

What a trace says, apart from how it is serialized: the events that each thread recorded, read off
the items of the trace alone, and the conditions on them that the statements about the serializer
speak of.
-/

namespace MallocTraceReplay

open MallocTraceEncoder History Interleaving

variable (env : Env) (mem : UInt64 → Option UInt8)

/-! ### The events of a thread -/

/-- The decoder of a thread that has recorded nothing. -/
def freshState (id : UInt64) : ThreadState := (FullThreadState.new env id).toThreadState

/-- What an item adds to what a thread recorded.  A thread with the id of one that died starts
afresh. -/
def recordItem (id : UInt64) (d : Decoding) : Item → Decoding
  | .record ev =>
    if ev.threadId = id then
      match ev.type with
      | .buf => d.andThen (decodeBuf mem ev)
      | .death => d.andThen fun _ => .pure (freshState env id)
      | _ => d
    else d
  | .batchEnd => d

/-- The events that a thread recorded in some items, and its decoder after them. -/
def recorded (items : List Item) (id : UInt64) : Decoding :=
  items.foldl (recordItem env mem id) (.pure (freshState env id))

theorem recorded_append (items : List Item) (item : Item) (id : UInt64) :
    recorded env mem (items ++ [item]) id =
      recordItem env mem id (recorded env mem items id) item := by
  simp [recorded]

theorem recorded_batchEnd (items : List Item) (id : UInt64) :
    recorded env mem (items ++ [.batchEnd]) id = recorded env mem items id := by
  rw [recorded_append]
  rfl

/-- Items do not take recorded events back. -/
theorem prefix_recordItem (id : UInt64) (d : Decoding) (item : Item) :
    d.1 <+: (recordItem env mem id d item).1 := by
  unfold recordItem
  split
  · split
    · split
      · exact Decoding.prefix_andThen _ _
      · exact Decoding.prefix_andThen _ _
      · exact List.prefix_refl _
    · exact List.prefix_refl _
  · exact List.prefix_refl _

/-- **What is recorded stays recorded.** -/
theorem prefix_recorded (items more : List Item) (id : UInt64) :
    (recorded env mem items id).1 <+: (recorded env mem (items ++ more) id).1 := by
  induction more using List.reverseRecOn with
  | nil => rw [List.append_nil]
  | append_singleton more item ih =>
    rw [← List.append_assoc, recorded_append]
    exact ih.trans (prefix_recordItem env mem id _ item)

/-- Where more decodes, less does. -/
theorem recorded_ok {items more : List Item} {id : UInt64} {ts : ThreadState}
    (h : (recorded env mem (items ++ more) id).2 = .ok ts) :
    ∃ ts, (recorded env mem items id).2 = .ok ts := by
  induction more using List.reverseRecOn generalizing ts with
  | nil =>
    rw [List.append_nil] at h
    exact ⟨ts, h⟩
  | append_singleton more item ih =>
    rw [← List.append_assoc, recorded_append] at h
    unfold recordItem at h
    split at h
    · split at h
      · split at h
        · obtain ⟨ts', h'⟩ := Decoding.andThen_ok h
          exact ih h'
        · obtain ⟨ts', h'⟩ := Decoding.andThen_ok h
          exact ih h'
        · exact ih h
      · exact ih h
    · exact ih h

/-- A thread without records recorded nothing. -/
theorem recorded_of_not_mem {items : List Item} {id : UInt64}
    (h : ∀ ev, Item.record ev ∈ items → ev.threadId ≠ id) :
    recorded env mem items id = .pure (freshState env id) := by
  induction items using List.reverseRecOn with
  | nil => rfl
  | append_singleton items item ih =>
    rw [recorded_append, ih fun ev hev => h ev (List.mem_append_left _ hev)]
    cases item with
    | batchEnd => rfl
    | record ev => rw [recordItem, if_neg (h ev (by simp))]

variable {env mem}

/-! ### Conditions on traces -/

/-- In the sequences of events by thread, no token comes up twice as the token that `f` picks. -/
def UsedOnce (f : InnerEvent → Option UInt64) (seq : UInt64 → List TraceEvent) : Prop :=
  ∀ ⦃tok id id' : UInt64⦄ ⦃k k' : ℕ⦄ ⦃e e' : TraceEvent⦄, (seq id)[k]? = some e →
    (seq id')[k']? = some e' → f e.ev = some tok → f e'.ev = some tok → id = id' ∧ k = k'

theorem getElem?_of_isPrefix {α : Type} {l l' : List α} (h : l <+: l') {k : ℕ} {a : α}
    (ha : l[k]? = some a) : l'[k]? = some a := by
  obtain ⟨hk, rfl⟩ := List.getElem?_eq_some_iff.mp ha
  exact List.prefix_iff_getElem?.mp h k hk

/-- A part of the trace satisfies what the whole satisfies. -/
theorem UsedOnce.mono {f : InnerEvent → Option UInt64} {seq seq' : UInt64 → List TraceEvent}
    (h : UsedOnce f seq) (hle : ∀ id, seq' id <+: seq id) : UsedOnce f seq' := by
  intro tok id id' k k' e e' he he' hf hf'
  exact h (getElem?_of_isPrefix (hle id) he) (getElem?_of_isPrefix (hle id') he') hf hf'

/-- Where the sequences of some threads hold all the events, it is enough to look at their tokens
in one list. -/
theorem usedOnce_of_nodup {f : InnerEvent → Option UInt64} {seq : UInt64 → List TraceEvent}
    (ids : List UInt64) (hrest : ∀ id, id ∉ ids → seq id = [])
    (h : (ids.flatMap fun id => (seq id).filterMap fun e => f e.ev).Nodup) : UsedOnce f seq := by
  obtain ⟨hown, hother⟩ := List.nodup_flatMap.mp h
  intro tok id id' k k' e e' he he' hf hf'
  have hmem : ∀ {id : UInt64} {k : ℕ} {e : TraceEvent}, (seq id)[k]? = some e → id ∈ ids := by
    intro id k e he
    by_contra hno
    simp [hrest id hno] at he
  have hid : id = id' := by
    by_contra hne
    have : Std.Symm (Function.onFun List.Disjoint fun id => (seq id).filterMap fun e => f e.ev) :=
      ⟨fun _ _ h => List.Disjoint.symm h⟩
    have hdisjoint := hother.forall (hmem he) (hmem he') hne
    exact hdisjoint (List.mem_filterMap.mpr ⟨e, List.mem_of_getElem? he, hf⟩)
      (List.mem_filterMap.mpr ⟨e', List.mem_of_getElem? he', hf'⟩)
  refine ⟨hid, ?_⟩
  subst hid
  have hpair := List.pairwise_filterMap.mp (hown id (hmem he))
  obtain ⟨hk, rfl⟩ := List.getElem?_eq_some_iff.mp he
  obtain ⟨hk', rfl⟩ := List.getElem?_eq_some_iff.mp he'
  rcases Nat.lt_trichotomy k k' with hlt | heq | hlt
  · exact absurd rfl (List.pairwise_iff_getElem.mp hpair k k' hk hk' hlt tok hf tok hf')
  · exact heq
  · exact absurd rfl (List.pairwise_iff_getElem.mp hpair k' k hk' hk hlt tok hf' tok hf)

/-- The events of the threads in what was read so far. -/
def Input.events {M : Type} [Mapper M] (env : Env) (i : Input M) (id : UInt64) :
    List TraceEvent :=
  (recorded env i.mem i.read id).1

section Conditions

variable {M : Type} [Mapper M] (env : Env) (mapper : M)

/-- Every token is allocated at most once in the trace, and consumed at most once. -/
def TokensUsedOnce : Prop :=
  ∀ i, Input.Reached env mapper i →
    UsedOnce InnerEvent.newTok? (i.events env) ∧ UsedOnce InnerEvent.waitTok? (i.events env)

/-- No allocated token is the one that stands for none. -/
def TokensNotEmpty : Prop :=
  ∀ i, Input.Reached env mapper i → ∀ id, ∀ e ∈ i.events env id, e.ev.newTok? ≠ some kEmptyTok

/-- A later record is not one of a thread that died before. -/
def Item.NotDead : Item → Item → Prop
  | .record ev, .record ev' => ev.type = .death → ev'.threadId ≠ ev.threadId
  | _, _ => True

instance : DecidableRel Item.NotDead := fun a b => by
  unfold Item.NotDead
  split <;> infer_instance

/-- No record of a thread follows its death. -/
def DeathsLast : Prop :=
  ∀ i, Input.Reached env mapper i → i.read.Pairwise Item.NotDead

/-- There is a record of a type among some items for a thread. -/
def HasRecord (type : EventType) (items : List Item) (id : UInt64) : Prop :=
  ∃ ev, Item.record ev ∈ items ∧ ev.type = type ∧ ev.threadId = id

/-- A death is that of a thread that had a buffer. -/
def Item.HadBuf (before : List Item) : Item → Prop
  | .record ev => ev.type = .death → HasRecord .buf before ev.threadId
  | .batchEnd => True

/-- The trace decodes without panic: the input has come to its end, the buffers of every thread
decode, and only threads that had buffers die. -/
structure Input.Decodes (i : Input M) : Prop where
  seenEnd : i.seenEnd = true
  threads : ∀ id, ∃ ts, (recorded env i.mem i.read id).2 = .ok ts
  deaths : ForAllCuts Item.HadBuf i.read

end Conditions

/-- The token that an event consumes is allocated by one of some others. -/
def Supplied (before : List (UInt64 × TraceEvent)) (entry : UInt64 × TraceEvent) : Prop :=
  match entry.2.ev.waitTok? with
  | none => True
  | some tok => ∃ earlier ∈ before, earlier.2.ev.newTok? = some tok

/-- An order of the events of all threads in which every consumed token is allocated before. -/
structure Feasible (seq : UInt64 → List TraceEvent) (order : List (UInt64 × TraceEvent)) :
    Prop where
  interleaves : ∀ id, project id order = seq id
  supplied : ForAllCuts Supplied order

/-! ### The conditions, computed -/

/-- The thread of a record. -/
def Item.threadId? : Item → Option UInt64
  | .record ev => some ev.threadId
  | .batchEnd => none

instance (type : EventType) (items : List Item) (id : UInt64) :
    Decidable (HasRecord type items id) :=
  decidable_of_iff (items.any fun item => match item with
      | .record ev => decide (ev.type = type ∧ ev.threadId = id)
      | .batchEnd => false) <| by
    rw [List.any_eq_true]
    constructor
    · rintro ⟨item, hitem, h⟩
      cases item with
      | record ev => exact ⟨ev, hitem, of_decide_eq_true h⟩
      | batchEnd => simp at h
    · rintro ⟨ev, hev, h⟩
      exact ⟨_, hev, decide_eq_true h⟩

instance (before : List (UInt64 × TraceEvent)) (entry : UInt64 × TraceEvent) :
    Decidable (Supplied before entry) := by
  unfold Supplied
  split <;> infer_instance

instance (before : List Item) (item : Item) : Decidable (item.HadBuf before) := by
  unfold Item.HadBuf
  split <;> infer_instance

namespace Input

variable {M : Type} [Mapper M]

/-- The tokens that `f` picks in the events of some threads. -/
def tokens (env : Env) (ids : List UInt64) (f : InnerEvent → Option UInt64) (i : Input M) :
    List UInt64 :=
  ids.flatMap fun id => (i.events env id).filterMap fun e => f e.ev

/-- The conditions on a trace, at the end of its reading; `ids` are its threads. -/
def meets (env : Env) (ids : List UInt64) (i : Input M) : Bool :=
  i.seenEnd && (i.read.filterMap Item.threadId?).all (fun id => decide (id ∈ ids)) &&
    decide (i.tokens env ids InnerEvent.newTok?).Nodup &&
    decide (i.tokens env ids InnerEvent.waitTok?).Nodup &&
    decide (kEmptyTok ∉ i.tokens env ids InnerEvent.newTok?) &&
    decide (i.read.Pairwise Item.NotDead)

/-- The same for what follows from the decoding of the trace. -/
def decodes (env : Env) (ids : List UInt64) (i : Input M) : Bool :=
  i.seenEnd && (i.read.filterMap Item.threadId?).all (fun id => decide (id ∈ ids)) &&
    ids.all (fun id => (recorded env i.mem i.read id).2.isOk) &&
    decide (ForAllCuts Item.HadBuf i.read)

/-- The same for an order of the events. -/
def orders (env : Env) (ids : List UInt64) (order : List (UInt64 × TraceEvent)) (i : Input M) :
    Bool :=
  (i.read.filterMap Item.threadId?).all (fun id => decide (id ∈ ids)) &&
    order.all (fun entry => decide (entry.1 ∈ ids)) &&
    ids.all (fun id => decide (project id order = i.events env id)) &&
    decide (ForAllCuts Supplied order)

/-- A thread without records recorded nothing. -/
theorem recorded_eq_pure {i : Input M} {id : UInt64}
    (h : id ∉ i.read.filterMap Item.threadId?) :
    recorded env i.mem i.read id = .pure (freshState env id) := by
  rw [recorded_of_not_mem]
  rintro ev hev rfl
  exact h (List.mem_filterMap.mpr ⟨_, hev, rfl⟩)

/-- A thread without records has no events. -/
theorem events_eq_nil {i : Input M} {id : UInt64} (h : id ∉ i.read.filterMap Item.threadId?) :
    i.events env id = [] := by
  rw [events, recorded_eq_pure h]
  rfl

theorem decodes_of {i : Input M} {ids : List UInt64} (h : i.decodes env ids = true) :
    i.Decodes env := by
  simp only [decodes, Bool.and_eq_true, decide_eq_true_eq, List.all_eq_true] at h
  obtain ⟨⟨⟨hend, hids⟩, hok⟩, hdeaths⟩ := h
  refine ⟨hend, fun id => ?_, hdeaths⟩
  by_cases hid : id ∈ i.read.filterMap Item.threadId?
  · have := hok id (hids id hid)
    cases hr : (recorded env i.mem i.read id).2 with
    | error e => simp [hr, Except.isOk, Except.toBool] at this
    | ok ts => exact ⟨ts, rfl⟩
  · rw [recorded_eq_pure hid]
    exact ⟨_, rfl⟩

theorem feasible_of {i : Input M} {ids : List UInt64} {order : List (UInt64 × TraceEvent)}
    (h : i.orders env ids order = true) : Feasible (i.events env) order := by
  simp only [orders, Bool.and_eq_true, decide_eq_true_eq, List.all_eq_true] at h
  obtain ⟨⟨⟨hids, horder⟩, hproject⟩, hsupplied⟩ := h
  refine ⟨fun id => ?_, hsupplied⟩
  by_cases hid : id ∈ ids
  · exact hproject id hid
  · rw [events_eq_nil fun hmem => hid (hids id hmem), List.eq_nil_iff_forall_not_mem]
    intro e he
    exact hid (horder _ (mem_project.mp he))

end Input

end MallocTraceReplay
