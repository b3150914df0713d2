/-
# `Flowgen.Task.Coherence` — the four maps of a keyed buffer (`core/src/task/buffer.rs`)

`process_events_keyed` keeps a batch in four maps, and its branches change them one by one
and in different orders.  At the head of the loop they agree all the same: a key that has a
buffer has an origin and a start, no other key has either, and only such a key has
completions (`maps_coherent`).  A buffer that is in its map is not empty.

What the branches provide for otherwise does not happen: an origin is found for every buffer
that is flushed, and a start that has run out has a buffer (`Coherent.origin`,
`Coherent.keysToFlush`).
-/
import Flowgen.Lib.Machine
import Flowgen.Task.Batching

namespace Flowgen.Task.Batching

open Flowgen.Lib Flowgen.Task.Buffer

variable {V : Type}

/-- The loop of `process_events_keyed`: its states are those at the head of the loop.  An
error ends it. -/
def keyedHeads (config : Config V) (render : Event V → Except String (Option String)) :
    Machine (Keyed V) (Input V) where
  init s := s = {}
  step s input := (s.step config render input).toOption

/-- The keys of the buffers, the origins and the starts are equal, those of the completions
are among them, and every buffer has something in it. -/
structure Keyed.Coherent (s : Keyed V) : Prop where
  origins : ∀ key, key ∈ s.origins ↔ key ∈ s.buffers
  startedTimes : ∀ key, key ∈ s.startedTimes ↔ key ∈ s.buffers
  completions : ∀ key ∈ s.completions, key ∈ s.buffers
  nonempty : ∀ key buffer, s.buffers.lookup key = some buffer → buffer ≠ []

namespace Keyed.Coherent

variable {config : Config V} {render : Event V → Except String (Option String)} {s t : Keyed V}
  {now : Nat} {key : String} {event : Event V} {data : V} {buffer : List V} {walk : Walk}
  {reason : FlushReason} {input : Input V}

theorem empty : ({} : Keyed V).Coherent where
  origins _ := Iff.rfl
  startedTimes _ := Iff.rfl
  completions key h := absurd h (AList.notMem_empty key)
  nonempty key buffer h := by cases h

/-! ## An entry comes or goes -/

/-- The key goes out of all four maps. -/
theorem erase (h : s.Coherent) (hbuffers : t.buffers = s.buffers.erase key)
    (horigins : t.origins = s.origins.erase key)
    (hcompletions : t.completions = s.completions.erase key)
    (hstarted : t.startedTimes = s.startedTimes.erase key) : t.Coherent where
  origins other := by
    rw [horigins, hbuffers, AList.mem_erase, AList.mem_erase, h.origins]
  startedTimes other := by
    rw [hstarted, hbuffers, AList.mem_erase, AList.mem_erase, h.startedTimes]
  completions other hother := by
    rw [hcompletions, AList.mem_erase] at hother
    rw [hbuffers, AList.mem_erase]
    exact ⟨hother.1, h.completions other hother.2⟩
  nonempty other buffer hlookup := by
    rw [hbuffers] at hlookup
    by_cases hother : other = key
    · subst hother
      rw [AList.lookup_erase] at hlookup
      cases hlookup
    · rw [AList.lookup_erase_ne hother] at hlookup
      exact h.nonempty other buffer hlookup

/-- The key is in the first three maps, and may be in the completions. -/
theorem insert (h : s.Coherent) (hne : buffer ≠ [])
    (hbuffers : t.buffers = s.buffers.insert key buffer)
    (horigins : ∀ other, other ∈ t.origins ↔ other = key ∨ other ∈ s.origins)
    (hcompletions : ∀ other ∈ t.completions, other = key ∨ other ∈ s.completions)
    (hstarted : ∀ other, other ∈ t.startedTimes ↔ other = key ∨ other ∈ s.startedTimes) :
    t.Coherent where
  origins other := by
    rw [horigins, hbuffers, AList.mem_insert, h.origins]
  startedTimes other := by
    rw [hstarted, hbuffers, AList.mem_insert, h.startedTimes]
  completions other hother := by
    rw [hbuffers, AList.mem_insert]
    exact (hcompletions other hother).imp_right (h.completions other)
  nonempty other buffer' hlookup := by
    rw [hbuffers] at hlookup
    by_cases hother : other = key
    · subst hother
      rw [AList.lookup_insert] at hlookup
      cases hlookup
      exact hne
    · rw [AList.lookup_insert_ne hother] at hlookup
      exact h.nonempty other buffer' hlookup

theorem mem_of_lookup (hlookup : s.buffers.lookup key = some buffer) : key ∈ s.buffers :=
  AList.lookup_isSome.mp (hlookup ▸ rfl)

/-- A key without a buffer has no origin, no completions and no start. -/
theorem lookup_none (h : s.Coherent) (hlookup : s.buffers.lookup key = none) :
    s.origins.lookup key = none ∧ s.completions.lookup key = none ∧
      s.startedTimes.lookup key = none := by
  have hnot : key ∉ s.buffers := AList.lookup_eq_none.mp hlookup
  refine ⟨?_, ?_, ?_⟩
  · rwa [AList.lookup_eq_none, h.origins]
  · exact AList.lookup_eq_none.mpr fun hmem => hnot (h.completions key hmem)
  · rwa [AList.lookup_eq_none, h.startedTimes]

/-- An origin is found for every buffer. -/
theorem origin (h : s.Coherent) (hlookup : s.buffers.lookup key = some buffer) :
    ∃ origin, s.origins.lookup key = some origin := by
  rw [← Option.isSome_iff_exists, AList.lookup_isSome, h.origins]
  exact mem_of_lookup hlookup

/-! ## The branches -/

theorem flushKey (h : s.Coherent) : (s.flushKey key reason).Coherent := by
  rw [Keyed.flushKey]
  split
  · exact h.erase rfl rfl rfl rfl
  · exact h

theorem vacant (h : s.Coherent) : (s.vacant now key event data).Coherent := by
  refine h.insert (List.cons_ne_nil data []) rfl (fun other => AList.mem_insert _) ?_
    (fun other => AList.mem_insert _)
  intro other hother
  cases htx : event.completionTx with
  | none =>
      simp only [Keyed.vacant, htx] at hother
      exact .inr hother
  | some tx =>
      simp only [Keyed.vacant, htx] at hother
      exact (AList.mem_insert _).mp hother

theorem occupied (h : s.Coherent) (hlookup : s.buffers.lookup key = some buffer) :
    (s.occupied key buffer event data).Coherent := by
  obtain ⟨origin, horigin⟩ := h.origin hlookup
  have hmem := mem_of_lookup hlookup
  refine h.insert (by simp) rfl ?_ ?_ ?_
  · intro other
    simp only [Keyed.occupied, horigin]
    exact AList.mem_insert _
  · intro other hother
    cases htx : event.completionTx with
    | none =>
        simp only [Keyed.occupied, htx] at hother
        exact .inr hother
    | some tx =>
        simp only [Keyed.occupied, htx] at hother
        exact (AList.mem_insert _).mp hother
  · -- the batch began with an earlier event
    intro other
    constructor
    · exact .inr
    · rintro (rfl | hother)
      · exact (h.startedTimes other).mpr hmem
      · exact hother

theorem collect (h : s.Coherent) : (s.collect config now key event data).Coherent := by
  rw [Keyed.collect]
  split
  · dsimp only
    split
    · exact h.vacant.flushKey
    · exact h.vacant
  · rename_i buffer hlookup
    dsimp only
    split
    · exact (h.occupied hlookup).flushKey
    · split
      · exact (h.occupied hlookup).flushKey
      · exact h.occupied hlookup

/-- A start goes with its buffer, which is not empty. -/
theorem timeoutKey (h : s.Coherent) : (s.timeoutKey key).Coherent := by
  rw [Keyed.timeoutKey]
  cases hlookup : s.buffers.lookup key with
  | some buffer =>
      have hne : buffer.isEmpty = false :=
        List.isEmpty_eq_false_iff.mpr (h.nonempty key buffer hlookup)
      simp only [hne, Bool.false_eq_true, if_false]
      exact h.erase rfl rfl rfl rfl
  | none =>
      have hnot : ∀ other ∈ s.buffers, other ≠ key := by
        rintro other hother rfl
        exact AList.lookup_eq_none.mp hlookup hother
      refine ⟨h.origins, fun other => ?_, h.completions, h.nonempty⟩
      rw [AList.mem_erase, h.startedTimes]
      exact ⟨And.right, fun hother => ⟨hnot other hother, hother⟩⟩

theorem timer (h : s.Coherent) : (s.timer config now walk).Coherent := by
  have hfold : ∀ (keys : List String) (s : Keyed V), s.Coherent →
      (keys.foldl Keyed.timeoutKey s).Coherent := by
    intro keys
    induction keys with
    | nil => exact fun s h => h
    | cons key keys ih => exact fun s h => ih _ h.timeoutKey
  rw [Keyed.timer]
  split
  · exact h
  · exact hfold _ s h

theorem recv (h : s.Coherent) (hs : s.recv config render now event = .ok t) : t.Coherent := by
  rw [Keyed.recv] at hs
  split at hs
  · -- a failed event is passed on
    cases hs
    exact ⟨h.origins, h.startedTimes, h.completions, h.nonempty⟩
  · split at hs
    · cases hs
    · cases hs
    · split at hs
      · cases hs
      · cases hs
        exact h.collect

theorem step (h : s.Coherent) (hs : s.step config render input = .ok t) : t.Coherent := by
  cases input with
  | recv now event => exact h.recv hs
  | timer now walk =>
      cases hs
      exact h.timer

/-- A start that has run out has a buffer. -/
theorem keysToFlush (h : s.Coherent) :
    s.keysToFlush config now walk = (walk.order s.startedTimes.keys).filter fun key =>
      (s.startedTimes.lookup key).any fun started => config.timeoutDuration ≤ now - started := by
  rw [Keyed.keysToFlush]
  refine List.filter_congr fun key hkey => ?_
  have hmem : key ∈ s.startedTimes := (walk.perm _).mem_iff.mp hkey
  have hbuffer : (s.buffers.lookup key).isSome = true :=
    AList.lookup_isSome.mpr ((h.startedTimes key).mp hmem)
  rw [hbuffer, Bool.and_true]

end Keyed.Coherent

/-- However the events and the timers come, the four maps agree whenever the loop is at its
head. -/
theorem maps_coherent (config : Config V) (render : Event V → Except String (Option String))
    {s : Keyed V} (h : (keyedHeads config render).Reachable s) :
    (s.origins.keys.toFinset = s.buffers.keys.toFinset ∧
        s.startedTimes.keys.toFinset = s.buffers.keys.toFinset) ∧
      s.completions.keys.toFinset ⊆ s.buffers.keys.toFinset ∧
      ∀ key buffer, s.buffers.lookup key = some buffer → buffer ≠ [] := by
  have hcoherent : s.Coherent := by
    refine h.invariant ?_ ?_
    · rintro s rfl
      exact .empty
    · intro s input t hs _ hstep
      cases hresult : s.step config render input with
      | error error =>
          simp only [keyedHeads, hresult] at hstep
          cases hstep
      | ok u =>
          simp only [keyedHeads, hresult] at hstep
          cases hstep
          exact hs.step hresult
  refine ⟨⟨?_, ?_⟩, ?_, hcoherent.nonempty⟩
  · ext key
    rw [List.mem_toFinset, List.mem_toFinset]
    exact hcoherent.origins key
  · ext key
    rw [List.mem_toFinset, List.mem_toFinset]
    exact hcoherent.startedTimes key
  · intro key hkey
    rw [List.mem_toFinset] at hkey ⊢
    exact hcoherent.completions key hkey

/-- Two keys; the batch of one is full, and an event that carries a completion is first in
its next batch. -/
theorem maps_coherent_two_keys :
    let render : Event Nat → Except String (Option String) := fun e =>
      .ok (some (if e.metaMap = some 1 then "a" else "b"))
    let config : Config Nat := { size := 2, partitionKey := some render }
    ∃ s, (keyedHeads config render).Reachable s ∧ s.buffers.keys = ["a", "b"] ∧
      s.completions.keys = ["a"] ∧ s.startedTimes.keys.toFinset = s.buffers.keys.toFinset := by
  intro render config
  have hrun : ((keyedHeads config render).exec (fun _ _ => True) {}
      [.recv 0 { data := .json 10, metaMap := some 1, completionTx := some 4 },
        .recv 1 { data := .json 20 }, .recv 2 { data := .json 30, metaMap := some 1 },
        .timer 3 ⟨id, fun _ => .refl _⟩,
        .recv 4 { data := .json 40, metaMap := some 1, completionTx := some 5 }]).any
      (fun s => s.buffers.keys = ["a", "b"] ∧ s.completions.keys = ["a"]) = true := by
    rfl
  obtain ⟨s, hr, hs⟩ := Machine.exists_of_exec hrun
  obtain ⟨hbuffers, hcompletions⟩ := of_decide_eq_true hs
  have hreachable : (keyedHeads config render).Reachable s := ⟨{}, _, rfl, hr⟩
  exact ⟨s, hreachable, hbuffers, hcompletions,
    (maps_coherent config render hreachable).1.2⟩

end Flowgen.Task.Batching
