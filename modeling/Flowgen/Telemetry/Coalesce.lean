/-
# `Flowgen.Telemetry.Coalesce` — the metrics that a peer streams (`core/src/telemetry/cluster.rs`)

`coalesce` takes the updates of all flows and sends on, at every tick, the
latest snapshot of each flow that has one since the tick before.  Between two
ticks the snapshots are in a table, and a tick sends them in the order of the
table, which is any; while it sends, nothing else is taken.

The stream of updates may end at any time, and then the task returns.  `LastWord`
is what the table is for: the snapshot sent last for a flow is the last one that
came.  A snapshot that is still in the table when the updates end is not sent,
so this holds exactly if the table has nothing new at that time
(`lastWord_iff_nothing_new`).
-/
import Flowgen.Lib.Latest
import Flowgen.Lib.Machine
import Flowgen.Telemetry.Activity

namespace Flowgen.Telemetry.Coalesce

open Flowgen.Lib

/-- Where the task is.  It returns when the updates end, and when nobody reads the
stream any more. -/
inductive Phase
  | waiting
  | flushing (snapshots : List FlowMetricsSnapshot)
  | ended
  | closed
deriving DecidableEq

structure State where
  phase : Phase := .waiting
  pending : List FlowMetricsSnapshot := []
  updates : List FlowMetricsSnapshot := []
  sent : List FlowMetricsSnapshot := []
deriving DecidableEq

/-- What the task waits for: an update or their end, a tick, with the order in which the
table is drained, room in the channel, and that the reader leaves. -/
inductive Act
  | update (snapshot : FlowMetricsSnapshot)
  | endOfUpdates
  | tick (drained : List FlowMetricsSnapshot)
  | send
  | close

def step (s : State) : Act → Option State
  | .update snapshot =>
      match s.phase with
      | .waiting =>
          some
            { s with
              pending := put FlowMetricsSnapshot.flow s.pending snapshot
              updates := s.updates ++ [snapshot] }
      | _ => none
  | .endOfUpdates =>
      match s.phase with
      | .waiting => some { s with phase := .ended }
      | _ => none
  | .tick drained =>
      match s.phase with
      | .waiting =>
          if drained.Perm s.pending then some { s with pending := [], phase := .flushing drained }
          else none
      | _ => none
  | .send =>
      match s.phase with
      | .flushing [] => some { s with phase := .waiting }
      | .flushing (snapshot :: rest) =>
          some { s with phase := .flushing rest, sent := s.sent ++ [snapshot] }
      | _ => none
  | .close =>
      match s.phase with
      | .waiting | .flushing _ => some { s with phase := .closed }
      | _ => none

def coalesce : Machine State Act where
  init s := s = {}
  step := step

/-- Before the stream ends, the last snapshot of every flow has been sent, and none of
the flow after it. -/
def LastWord (s : State) : Prop :=
  s.phase = .ended →
    ∀ flow, latest FlowMetricsSnapshot.flow flow s.sent =
      latest FlowMetricsSnapshot.flow flow s.updates

/-- When the updates end, what waits for the next tick has been sent before. -/
def NothingNew (s : State) : Act → Prop
  | .endOfUpdates => ∀ snapshot ∈ s.pending,
      latest FlowMetricsSnapshot.flow snapshot.flow s.sent = some snapshot
  | _ => True

instance (s : State) : ∀ a, Decidable (NothingNew s a)
  | .endOfUpdates => inferInstanceAs (Decidable (∀ snapshot ∈ s.pending, _))
  | .update _ | .tick _ | .send | .close => .isTrue trivial

/-- What a tick is sending. -/
def Phase.draining : Phase → List FlowMetricsSnapshot
  | .flushing snapshots => snapshots
  | _ => []

@[simp] theorem draining_waiting : Phase.draining .waiting = [] := rfl

@[simp] theorem draining_flushing (snapshots : List FlowMetricsSnapshot) :
    Phase.draining (.flushing snapshots) = snapshots := rfl

/-- The last snapshot of a flow has been sent, or is on its way. -/
structure Inv (s : State) : Prop where
  keys : (s.pending.map FlowMetricsSnapshot.flow).Nodup
  last : s.phase ≠ .ended → s.phase ≠ .closed →
    ∀ flow, latest FlowMetricsSnapshot.flow flow s.updates =
      latest FlowMetricsSnapshot.flow flow (s.sent ++ (s.phase.draining ++ s.pending))

variable {s t : State} {a : Act}

theorem inv_start : Inv {} where
  keys := List.nodup_nil
  last _ _ _ := rfl

theorem Inv.step (h : Inv s) (hs : Coalesce.step s a = some t) : Inv t := by
  cases a with
  | update snapshot =>
      simp only [Coalesce.step] at hs
      split at hs <;> cases hs
      rename_i hp
      refine ⟨nodup_put h.keys, fun _ _ flow => ?_⟩
      have hlast := h.last (by simp [hp]) (by simp [hp]) flow
      rw [hp, draining_waiting, List.nil_append] at hlast
      change latest _ flow (s.updates ++ [snapshot]) =
        latest _ flow (s.sent ++ (s.phase.draining ++ put _ s.pending snapshot))
      rw [hp, draining_waiting, List.nil_append, latest_append, hlast, latest_append, latest_append,
        latest_put, latest_append, Option.or_assoc]
  | endOfUpdates =>
      simp only [Coalesce.step] at hs
      split at hs <;> cases hs
      exact ⟨h.keys, fun he => absurd rfl he⟩
  | tick drained =>
      simp only [Coalesce.step] at hs
      split at hs
      · rename_i hp
        obtain ⟨hperm, hs⟩ := Option.ite_none_right_eq_some.mp hs
        cases hs
        refine ⟨List.nodup_nil, fun _ _ flow => ?_⟩
        have hlast := h.last (by simp [hp]) (by simp [hp]) flow
        rw [hp, draining_waiting, List.nil_append] at hlast
        rw [hlast, draining_flushing, List.append_nil, latest_append, latest_append,
          latest_perm hperm.symm h.keys]
      · cases hs
  | send =>
      simp only [Coalesce.step] at hs
      split at hs
      · rename_i hp
        cases hs
        refine ⟨h.keys, fun _ _ flow => ?_⟩
        have hlast := h.last (by simp [hp]) (by simp [hp]) flow
        rwa [hp] at hlast
      · rename_i snapshot rest hp
        cases hs
        refine ⟨h.keys, fun _ _ flow => ?_⟩
        have hlast := h.last (by simp [hp]) (by simp [hp]) flow
        rw [hp, draining_flushing] at hlast
        rw [hlast, draining_flushing, List.append_assoc]
        rfl
      · cases hs
  | close =>
      simp only [Coalesce.step] at hs
      split at hs <;> cases hs
      · exact ⟨h.keys, fun _ hc => absurd rfl hc⟩
      · exact ⟨h.keys, fun _ hc => absurd rfl hc⟩

/-- The end of the updates leaves the last word to what has been sent exactly if there is
nothing new in the table. -/
theorem Inv.lastWord_iff (h : Inv s) (hs : Coalesce.step s a = some t) :
    LastWord t ↔ NothingNew s a := by
  cases a with
  | endOfUpdates =>
      simp only [Coalesce.step] at hs
      split at hs <;> cases hs
      rename_i hp
      have hlast := h.last (by simp [hp]) (by simp [hp])
      simp only [hp, draining_waiting, List.nil_append] at hlast
      constructor
      · intro hword snapshot hmem
        have hflow := hword rfl snapshot.flow
        have hpending : latest FlowMetricsSnapshot.flow snapshot.flow s.pending = some snapshot :=
          latest_eq_of_forall hmem rfl fun b hb hbk =>
            List.inj_on_of_nodup_map h.keys hb hmem hbk
        rw [hflow, hlast, latest_append, hpending]
        rfl
      · intro hnothing _ flow
        rw [hlast flow, latest_append]
        cases hpending : latest FlowMetricsSnapshot.flow flow s.pending with
        | none => rfl
        | some snapshot =>
            obtain ⟨hmem, rfl⟩ := latest_eq_some hpending
            rw [hnothing snapshot hmem]
            rfl
  | update snapshot =>
      simp only [Coalesce.step] at hs
      split at hs <;> cases hs
      rename_i hp
      exact iff_of_true (fun he => by cases hp.symm.trans he) trivial
  | tick drained =>
      simp only [Coalesce.step] at hs
      split at hs
      · obtain ⟨-, hs⟩ := Option.ite_none_right_eq_some.mp hs
        cases hs
        exact iff_of_true (fun he => by cases he) trivial
      · cases hs
  | send =>
      simp only [Coalesce.step] at hs
      split at hs <;> cases hs
      · exact iff_of_true (fun he => by cases he) trivial
      · exact iff_of_true (fun he => by cases he) trivial
  | close =>
      simp only [Coalesce.step] at hs
      split at hs <;> cases hs
      · exact iff_of_true (fun he => by cases he) trivial
      · exact iff_of_true (fun he => by cases he) trivial

/-- Whatever the updates and the ticks: the last snapshot of every flow is sent before the
stream ends if and only if the updates never end while something new waits for a tick. -/
theorem lastWord_iff_nothing_new (as : List Act) (s : State) :
    coalesce.RunThrough LastWord {} as s ↔ coalesce.RunOf NothingNew {} as s :=
  Machine.runThrough_iff inv_start
    (fun _ _ _ hi hok hs => ⟨hi.step hs, (hi.lastWord_iff hs).mpr hok⟩)
    fun _ _ _ hi hs ht => (hi.lastWord_iff hs).mp ht

/-- The updates end before the first tick. -/
theorem last_update_dropped :
    ∃ as s, coalesce.Run {} as s ∧ s.phase = .ended ∧
      s.updates = [FlowMetricsSnapshot.empty "orders"] ∧ s.sent = [] := by
  have hrun :
      (coalesce.exec (fun _ _ => True) {}
          [.update (FlowMetricsSnapshot.empty "orders"), .endOfUpdates]).any
        (fun s => decide (s.phase = .ended ∧
          s.updates = [FlowMetricsSnapshot.empty "orders"] ∧ s.sent = [])) = true := by
    decide
  obtain ⟨s, hr, hs⟩ := Machine.exists_of_exec hrun
  exact ⟨_, s, hr.run, of_decide_eq_true hs⟩

end Flowgen.Telemetry.Coalesce
