/-
# `Flowgen.Task.BatchSession` — whose session a batch carries (`core/src/task/buffer.rs`)

A flushed event acts for a user only where the whole batch does: `Origin` keeps
the session of the last event while every event came with a session of one
user, and none from the first that did not.  `session_originOf` says so of the
sessions folded in one by one, `Isolated` of the event that is sent.

Which events a batch is made of is `Task.Batching`'s business; here its groups
are taken at any point of a run (`outputsAt`), so that what was flushed before
the loop failed or was cancelled is covered too.
-/
import Flowgen.Task.Batching

namespace Flowgen.Task.BatchSession

open Flowgen.Lib Flowgen.Task.Batching

variable {V : Type}

/-- How far a loop has come. -/
inductive Stage
  | running
  | closed (walk : Walk)

/-- What has been handed on after these inputs. -/
def outputsAt (config : Config V) (inputs : List (Input V)) :
    Stage → Except Error (List (Output V))
  | .running =>
      match config.partitionKey with
      | none => do
          let s ← inputs.foldlM (Single.step config) {}
          return s.outputs
      | some render => do
          let s ← inputs.foldlM (Keyed.step config render) {}
          return s.outputs
  | .closed walk => processEvents config inputs walk

/-- The session of the event that `flush_buffer` builds: `EventBuilder::new`
starts with the one of the context, and the batch's replaces it. -/
def flushedSession (current : Option UserSession) (origin : Origin V) : Option UserSession :=
  match origin.session with
  | some session => some session
  | none => current

/-- The key under which an event is collected. -/
def collectedUnder (config : Config V) (e : Batching.Event V) : Option String :=
  config.partitionKey.bind fun render => renderedKey render e

/-- There is a session exactly if all events came with one of the same user, and
then it is the last event's. -/
structure Isolated (session : Option UserSession) (g : List (Batching.Event V)) : Prop where
  isSome_iff : session.isSome = true ↔
    ∃ user, ∀ e ∈ g, ∃ s, e.session = some s ∧ s.userId = user
  last : ∀ s, session = some s → ∃ e, g.getLast? = some e ∧ e.session = some s

variable {g pending : List (Batching.Event V)} {s : UserSession} {config : Config V}
  {inputs : List (Input V)} {outs : List (Output V)}

/-! ## Folding the sessions -/

theorem add_session {origin : Origin V} {session : Option UserSession} :
    (origin.add session).session = some s ↔
      ∃ current, origin.session = some current ∧ session = some s ∧ current.userId = s.userId := by
  cases horigin : origin.session with
  | none => simp [Origin.add, horigin]
  | some current =>
      cases session with
      | none => simp [Origin.add, horigin]
      | some next =>
          simp only [Origin.add, horigin, Option.ite_none_right_eq_some, Option.some.injEq,
            exists_eq_left']
          constructor
          · rintro ⟨hu, rfl⟩
            exact ⟨rfl, hu⟩
          · rintro ⟨rfl, hu⟩
            exact ⟨hu, rfl⟩

/-- Induction on the batch as it grows: a batch that has mixed users stays
without a session. -/
theorem session_originOf (hne : g ≠ []) :
    (originOf g).session = some s ↔
      (∃ e, g.getLast? = some e ∧ e.session = some s) ∧
        ∀ e ∈ g, ∃ t, e.session = some t ∧ t.userId = s.userId := by
  induction g using List.reverseRecOn generalizing s with
  | nil => exact absurd rfl hne
  | append_singleton pending e ih =>
      rw [List.getLast?_concat]
      by_cases hp : pending = []
      · subst hp
        simp only [List.nil_append, List.mem_singleton, Option.some.injEq, exists_eq_left',
          forall_eq]
        constructor
        · intro h
          exact ⟨h, s, h, rfl⟩
        · exact And.left
      · rw [originOf_append hp, add_session]
        constructor
        · rintro ⟨current, hcurrent, he, hu⟩
          obtain ⟨-, hall⟩ := (ih hp).mp hcurrent
          refine ⟨⟨e, rfl, he⟩, fun e' he' => ?_⟩
          rcases List.mem_append.mp he' with he' | he'
          · obtain ⟨t, ht, htu⟩ := hall e' he'
            exact ⟨t, ht, htu.trans hu⟩
          · obtain rfl := List.mem_singleton.mp he'
            exact ⟨s, he, rfl⟩
        · rintro ⟨⟨e', hlast, he⟩, hall⟩
          obtain rfl := Option.some.inj hlast
          -- the last of those before has a session of the same user
          obtain ⟨l, hl⟩ := Option.isSome_iff_exists.mp (List.getLast?_isSome.mpr hp)
          obtain ⟨t, ht, htu⟩ :=
            hall l (List.mem_append_left _ (List.mem_of_getLast? hl))
          refine ⟨t, (ih hp).mpr ⟨⟨l, hl, ht⟩, fun e' he' => ?_⟩, he, htu⟩
          obtain ⟨t', ht', htu'⟩ := hall e' (List.mem_append_left _ he')
          exact ⟨t', ht', htu'.trans htu.symm⟩

/-- The loop runs in a task of its own, outside any event's context. -/
theorem isolated_flushedSession (hne : g ≠ []) :
    Isolated (flushedSession none (originOf g)) g := by
  have hsession : flushedSession none (originOf g) = (originOf g).session := by
    rw [flushedSession]
    cases (originOf g).session <;> rfl
  rw [hsession]
  constructor
  · constructor
    · intro h
      obtain ⟨s, hs⟩ := Option.isSome_iff_exists.mp h
      exact ⟨s.userId, ((session_originOf hne).mp hs).2⟩
    · rintro ⟨user, hall⟩
      obtain ⟨l, hl⟩ := Option.isSome_iff_exists.mp (List.getLast?_isSome.mpr hne)
      obtain ⟨s, hs, rfl⟩ := hall l (List.mem_of_getLast? hl)
      rw [(session_originOf hne).mpr ⟨⟨l, hl, hs⟩, hall⟩]
      rfl
  · intro s hs
    exact ((session_originOf hne).mp hs).1

/-! ## The batches of a run -/

theorem told_single {stage : Stage} (hp : config.partitionKey = none)
    (h : outputsAt config inputs stage = .ok outs) :
    ∃ b, Told (collectedUnder config) (received inputs) outs b := by
  have hkey : collectedUnder config = fun _ => none := by
    funext e
    rw [collectedUnder, hp]
    rfl
  rw [hkey]
  cases hrun : inputs.foldlM (Single.step config) {} with
  | error err => cases stage <;> simp [outputsAt, processEvents, hp, hrun] at h
  | ok s =>
      obtain ⟨b, hh, ht⟩ := Single.held hrun
      cases stage with
      | running =>
          simp only [outputsAt, hp, hrun] at h
          obtain rfl := Except.ok.inj h
          exact ⟨b, ht⟩
      | closed walk =>
          simp only [outputsAt, processEvents, hp, hrun] at h
          obtain rfl := Except.ok.inj h
          exact ⟨_, Single.close_ok hh ht⟩

theorem told_keyed {stage : Stage} {render : Batching.Event V → Except String (Option String)}
    (hp : config.partitionKey = some render) (h : outputsAt config inputs stage = .ok outs) :
    ∃ b, Told (collectedUnder config) (received inputs) outs b := by
  have hkey : collectedUnder config = renderedKey render := by
    funext e
    rw [collectedUnder, hp]
    rfl
  rw [hkey]
  cases hrun : inputs.foldlM (Keyed.step config render) {} with
  | error err => cases stage <;> simp [outputsAt, processEvents, hp, hrun] at h
  | ok s =>
      obtain ⟨b, hh, ht⟩ := Keyed.held hrun
      cases stage with
      | running =>
          simp only [outputsAt, hp, hrun] at h
          obtain rfl := Except.ok.inj h
          exact ⟨b, ht⟩
      | closed walk =>
          simp only [outputsAt, processEvents, hp, hrun] at h
          obtain rfl := Except.ok.inj h
          obtain ⟨b', ht', -⟩ := Keyed.close_ok walk hh ht
          exact ⟨b', ht'⟩

/-- However far the loop has come, what it has handed on and what waits are the
events received. -/
theorem told_outputsAt {stage : Stage} (h : outputsAt config inputs stage = .ok outs) :
    ∃ b, Told (collectedUnder config) (received inputs) outs b := by
  cases hp : config.partitionKey with
  | none => exact told_single hp h
  | some render => exact told_keyed hp h

/-- At any point of a run, the batches flushed are groups of the events received,
each in the order of its key, and the event sent for a group carries a session
if and only if the group is one user's, the last event's then. -/
theorem batches_isolated (config : Config V) (inputs : List (Input V)) (stage : Stage)
    (outs : List (Output V)) (h : outputsAt config inputs stage = .ok outs) :
    ∃ groups : List (Option String × List (Batching.Event V)),
      List.Forall₂
        (fun batch g => Carries batch g.1 g.2 ∧ Isolated (flushedSession none batch.origin) g.2)
        (outs.filterMap Output.batch?) groups ∧
      (∀ g ∈ groups, g.2 ≠ []) ∧
      ∀ k, (groups.filter (·.1 = k)).flatMap (·.2) <+:
        (received inputs).filter fun e => e.error.isNone && collectedUnder config e = k := by
  obtain ⟨b, ht⟩ := told_outputsAt h
  refine ⟨b.released, ?_, b.nonempty, fun k => ?_⟩
  · refine (((List.forall₂_and_left _ _).mpr ⟨b.nonempty, ht.batches.flip⟩).imp ?_).flip
    rintro g batch ⟨hne, hc⟩
    exact ⟨hc, hc.origin ▸ isolated_flushedSession hne⟩
  · rw [← ht.items k]
    exact List.prefix_append _ _

/-- Under one key Alice with two tokens, under the other Alice, Bob and Bob. -/
theorem batches_isolated_two_keys :
    let key : Batching.Event Nat → String := fun e => if e.metaMap = some 1 then "a" else "b"
    let config : Config Nat := { size := 3, partitionKey := some fun e => .ok (some (key e)) }
    let alice : UserSession := ⟨"alice", some "old"⟩
    let inputs : List (Input Nat) :=
      [.recv 0 { data := .json 10, metaMap := some 1, session := some alice },
        .recv 1 { data := .json 20, session := some alice },
        .recv 2 { data := .json 30, metaMap := some 1, session := some ⟨"alice", some "new"⟩ },
        .recv 3 { data := .json 40, session := some ⟨"bob", none⟩ },
        .recv 4 { data := .json 50, session := some ⟨"bob", none⟩ }]
    ∃ (outs : List (Output Nat)) (groups : List (Option String × List (Batching.Event Nat))),
      outputsAt config inputs (.closed ⟨id, fun _ => .refl _⟩) = .ok outs ∧
      (outs.filterMap Output.batch?).map (flushedSession none ·.origin) =
        [none, some ⟨"alice", some "new"⟩] ∧
      List.Forall₂
        (fun batch g => Carries batch g.1 g.2 ∧ Isolated (flushedSession none batch.origin) g.2)
        (outs.filterMap Output.batch?) groups := by
  intro key config alice inputs
  have hout : ∃ outs, outputsAt config inputs (.closed ⟨id, fun _ => .refl _⟩) = .ok outs ∧
      (outs.filterMap Output.batch?).map (flushedSession none ·.origin) =
        [none, some ⟨"alice", some "new"⟩] := ⟨_, rfl, rfl⟩
  obtain ⟨outs, hout, hsessions⟩ := hout
  obtain ⟨groups, hbatches, -⟩ := batches_isolated config inputs _ outs hout
  exact ⟨outs, groups, hout, hsessions, hbatches⟩

end Flowgen.Task.BatchSession
