import MallocTraceReplay.Script.Equiv.SameState

/-!
# The events of a buffer in both decoders

From a stream at a buffer of a thread the script has the same events as the decode functions exactly
when they are `Plain`: no word is too long, and no event is a `Realloc` (`InBuffer.next_events`).
-/

namespace MallocTraceReplay

open AltVarintCodec MallocTraceEncoder StepMachine

namespace Script

/-! ### The events of a buffer -/

/-- Events that the script has right: words below `2^56`, and no `Realloc`. -/
def Plain (events : List (EncoderState × InnerRecord)) : Prop :=
  ∀ ev ∈ events, (∀ w ∈ (ev.2.words ev.1).1, w.toNat < 2 ^ 56) ∧ ev.2.type ≠ .realloc

theorem keptEvents_cons {e : Option EncoderState} {ev : EncoderState × InnerRecord}
    {events : List (EncoderState × InnerRecord)} (h : KeptEvents e (ev :: events)) :
    ev.1 = e.getD .init ∧ (e = none → ev.2.type = .tok) ∧
      KeptEvents (some (ev.2.words ev.1).2) events := by
  cases e with
  | none => exact ⟨h.1.1, fun _ => h.1.2, h.2⟩
  | some e => exact ⟨h.1, fun he => by simp at he, h.2⟩

theorem decodeEventWords_cons {threadId : UInt64} {d d' : DecoderState} {words : List UInt64}
    {ev : StreamEvent UInt64} (h : decodeEvent threadId d words = some (ev, d'))
    (rest : List (List UInt64)) :
    decodeEventWords threadId d (words :: rest) =
      (decodeEventWords threadId d' rest).map fun p => (ev :: p.1, p.2) := by
  rw [decodeEventWords, h]
  simp only [Option.bind_eq_bind, Option.bind_some]
  cases decodeEventWords threadId d' rest <;> rfl

/-- The events of both decoders, as far as the script has them right. -/
structure SameEvents (n : ℕ) (threadId : UInt64) (e : Option EncoderState) (d : DecoderState)
    (s : EventsStream) (main : List UInt8) (events : List (EncoderState × InnerRecord)) : Prop where
  wrong : ¬ Plain events → ∀ evs d',
    decodeEventWords threadId d (events.map fun ev => (ev.2.words ev.1).1) = some (evs, d') →
      ∀ rest, ¬ s.Yields (evs.map (·.map toInt) ++ rest)
  right : Plain events → ∃ evs d', ∃ s' : EventsStream, ∃ t',
    decodeEventWords threadId d (events.map fun ev => (ev.2.words ev.1).1) = some (evs, d') ∧
      s'.InBuffer t' [] main ∧
      (∀ id, id ≠ toInt threadId → s'.threadStates id = s.threadStates id) ∧
      SameState n threadId (stateAfter e events) d' t' ∧
      ∀ rest, s.Yields (evs.map (·.map toInt) ++ rest) ↔ s'.Yields rest

variable {n : ℕ} {threadId : UInt64}

/-- **The events of a buffer** in both decoders. -/
theorem EventsStream.InBuffer.next_events {main : List UInt8}
    (events : List (EncoderState × InnerRecord)) {e : Option EncoderState} {d : DecoderState}
    {t : ThreadState} {s : EventsStream}
    (hs : s.InBuffer t (writeWords (eventWords events)) main)
    (h : SameState (events.length + n) threadId e d t) (hn : events.length + n < 2 ^ 63)
    (hkept : KeptEvents e events) (hrange : ∀ ev ∈ events, ev.2.InRange) :
    SameEvents n threadId e d s main events := by
  induction events generalizing e d t s with
  | nil =>
    refine ⟨fun hplain => absurd (fun ev hev => by simp at hev) hplain, fun _ => ?_⟩
    exact ⟨[], d, s, t, rfl, hs, fun _ _ => rfl, h.mono (by simp), fun _ => Iff.rfl⟩
  | cons ev events ih =>
    obtain ⟨enc, r⟩ := ev
    obtain ⟨henc, hfirst, hrest⟩ := keptEvents_cons hkept
    have hr := hrange _ (List.mem_cons_self ..)
    have hlen : (events.length + 1) + n = (events.length + n) + 1 := by omega
    rw [List.length_cons, hlen] at h hn
    have hbytes : writeWords (eventWords ((enc, r) :: events)) =
        writeWords (r.words (e.getD .init)).1 ++ writeWords (eventWords events) := by
      rw [eventWords, List.flatMap_cons, writeWords_append, ← henc]
      rfl
    rw [hbytes] at hs
    obtain ⟨cev, d₁, hdecode, hnext⟩ := hs.next_event h (by omega) hr hfirst
    simp only at henc
    subst henc
    have hmap := decodeEventWords_cons hdecode (events.map fun ev => (ev.2.words ev.1).1)
    by_cases hlong : ∃ w ∈ (r.words (e.getD .init)).1, 2 ^ 56 ≤ w.toNat
    · -- the script raises
      obtain ⟨err, herr⟩ := hnext.long hlong
      refine ⟨fun _ evs d' _ rest => EventsStream.not_yields_of_error hs.done herr, ?_⟩
      intro hplain
      obtain ⟨w, hw, hge⟩ := hlong
      exact absurd ((hplain _ (List.mem_cons_self ..)).1 w hw) (Nat.not_lt.mpr hge)
    · have hshort : ∀ w ∈ (r.words (e.getD .init)).1, w.toNat < 2 ^ 56 := fun w hw =>
        Nat.lt_of_not_le fun hge => hlong ⟨w, hw, hge⟩
      obtain ⟨ev', s₁, t₁, hcall, hs₁, hother, hlast⟩ := hnext.short hshort
      by_cases htype : r.type = .realloc
      · -- the event has another size
        rw [if_pos htype] at hlast
        constructor
        · intro _ evs d' hevs rest
          rw [List.map_cons, hmap] at hevs
          obtain ⟨p, -, hp⟩ := Option.map_eq_some_iff.mp hevs
          obtain ⟨rfl, -⟩ := Prod.mk.inj hp
          rw [List.map_cons, List.cons_append, EventsStream.yields_cons_iff hs.done hcall]
          exact fun hyields => hlast hyields.1
        · exact fun hplain => absurd htype (hplain _ (List.mem_cons_self ..)).2
      · rw [if_neg htype] at hlast
        obtain ⟨hsame, hstate⟩ := hlast
        have hiff : Plain ((e.getD .init, r) :: events) ↔ Plain events := by
          constructor
          · exact fun hplain ev hev => hplain ev (List.mem_cons_of_mem _ hev)
          · intro hplain ev hev
            rcases List.mem_cons.mp hev with rfl | hev
            · exact ⟨hshort, htype⟩
            · exact hplain ev hev
        have hafter := ih hs₁ hstate (by omega) hrest fun ev hev =>
          hrange ev (List.mem_cons_of_mem _ hev)
        constructor
        · intro hplain evs d' hevs rest
          rw [List.map_cons, hmap] at hevs
          obtain ⟨p, hp, hpair⟩ := Option.map_eq_some_iff.mp hevs
          obtain ⟨rfl, -⟩ := Prod.mk.inj hpair
          rw [List.map_cons, List.cons_append, EventsStream.yields_cons_iff hs.done hcall]
          exact fun hyields => hafter.wrong (fun h => hplain (hiff.mpr h)) _ _ hp _ hyields.2
        · intro hplain
          obtain ⟨evs, d', s', t', hevs, hs', hother', hstate', hyields⟩ :=
            hafter.right (hiff.mp hplain)
          refine ⟨cev :: evs, d', s', t', ?_, hs', ?_, hstate', ?_⟩
          · rw [List.map_cons, hmap, hevs]
            rfl
          · intro id hne
            rw [hother' id hne, hother id (by rw [h.threadId]; exact hne)]
          · intro rest
            rw [List.map_cons, List.cons_append, EventsStream.yields_cons_iff hs.done hcall,
              hyields]
            exact and_iff_right hsame

end Script

end MallocTraceReplay
