/-
# `Flowgen.Peer.Rendezvous` — the preferred pod of a flow (`core/src/peer.rs`)

Every pod scores the flow with each peer it knows and prefers the one with the
highest score.  The score is a hash that this repository takes from elsewhere;
nothing is known of it, and it may collide.  A tie goes to the greater identity,
not to a place in the list, and this is what makes the pods agree.
-/
import Flowgen.Lib.Argmax

namespace Flowgen.Peer

open Flowgen.Lib

variable (score : String → String → UInt64)

/-- What `max_by_key` compares: the score, and the peer itself. -/
def rendezvousKey (flow peer : String) : ℕ ×ₗ String := toLex ((score flow peer).toNat, peer)

/-- The last of the peers with the greatest key, as `max_by_key` returns it. -/
def preferredPeer (flow : String) (peers : List String) : Option String :=
  peers.reverse.argmax (rendezvousKey score flow)

/-- `is_preferred_owner`, asked by the pod `identity` with these live peers. -/
def isPreferredOwner (identity flow : String) (peers : List String) : Bool :=
  if peers.length ≤ 1 then true else preferredPeer score flow peers = some identity

/-- How flows are assigned to the peers, as `preferred_peer` has it. -/
structure Assignment (flow : String) (peers : List String) : Prop where
  order : ∀ listed, listed.Perm peers →
    preferredPeer score flow listed = preferredPeer score flow peers
  added : ∀ p more, more.Perm (p :: peers) →
    preferredPeer score flow more ≠ preferredPeer score flow peers →
    preferredPeer score flow more = some p
  removed : ∀ p fewer, peers.Perm (p :: fewer) →
    preferredPeer score flow fewer ≠ preferredPeer score flow peers →
    preferredPeer score flow peers = some p
  /-- The pods that are listed, in whatever order each of them has the list. -/
  agreed : peers ≠ [] → ∃ owner ∈ peers, ∀ listed, listed.Perm peers →
    preferredPeer score flow listed = some owner ∧
      ∀ pod ∈ peers, isPreferredOwner score pod flow listed = true ↔ pod = owner

variable {score} {flow p : String} {peers listed more : List String}

theorem rendezvousKey_injective : Function.Injective (rendezvousKey score flow) := by
  intro a b h
  exact congrArg (fun key => (ofLex key).2) h

theorem preferredPeer_perm (h : listed.Perm peers) :
    preferredPeer score flow listed = preferredPeer score flow peers :=
  argmax_perm rendezvousKey_injective
    ((List.reverse_perm listed).trans (h.trans (List.reverse_perm peers).symm))

/-- One more peer wins the flow, or nothing changes. -/
theorem preferredPeer_of_perm_cons (h : more.Perm (p :: peers)) :
    preferredPeer score flow more = some p ∨
      preferredPeer score flow more = preferredPeer score flow peers := by
  have hmore : more.reverse.Perm (p :: peers.reverse) :=
    (List.reverse_perm more).trans (h.trans ((List.reverse_perm peers).symm.cons p))
  exact argmax_of_perm_cons rendezvousKey_injective hmore

theorem exists_preferredPeer (h : peers ≠ []) :
    ∃ owner ∈ peers, preferredPeer score flow peers = some owner := by
  cases hp : preferredPeer score flow peers with
  | none => exact absurd (List.reverse_eq_nil_iff.mp (List.argmax_eq_none.mp hp)) h
  | some owner => exact ⟨owner, List.mem_reverse.mp (List.argmax_mem hp), rfl⟩

/-- A listed pod owns the flow exactly if it is the preferred one; alone it is. -/
theorem isPreferredOwner_iff {pod owner : String} (hpod : pod ∈ listed)
    (hp : preferredPeer score flow listed = some owner) :
    isPreferredOwner score pod flow listed = true ↔ pod = owner := by
  rw [isPreferredOwner]
  split
  · rename_i hlen
    have howner : owner ∈ listed := List.mem_reverse.mp (List.argmax_mem hp)
    obtain ⟨q, rfl⟩ := List.length_eq_one_iff.mp
      (le_antisymm hlen (List.length_pos_of_mem hpod))
    exact iff_of_true rfl ((List.mem_singleton.mp hpod).trans (List.mem_singleton.mp howner).symm)
  · rw [hp, decide_eq_true_iff, Option.some.injEq]
    exact eq_comm

/-- Whatever the hash and the flow: the preferred peer does not depend on the
order of the list, a new peer takes only flows to itself, one that leaves gives
away only its own, and the listed pods agree on one owner. -/
theorem rendezvous_assignment (score : String → String → UInt64) (flow : String)
    (peers : List String) : Assignment score flow peers where
  order listed h := preferredPeer_perm h
  added p more h hne := (preferredPeer_of_perm_cons h).resolve_right hne
  removed p fewer h hne := (preferredPeer_of_perm_cons h).resolve_right fun he => hne he.symm
  agreed h := by
    obtain ⟨owner, howner, hp⟩ : ∃ owner ∈ peers, preferredPeer score flow peers = some owner :=
      exists_preferredPeer h
    refine ⟨owner, howner, fun listed hperm => ?_⟩
    have hlisted := (preferredPeer_perm hperm).trans hp
    exact ⟨hlisted, fun pod hpod => isPreferredOwner_iff (hperm.mem_iff.mpr hpod) hlisted⟩

/-- With a hash that always collides the greatest identity is preferred. -/
example : preferredPeer (fun _ _ => 7) "orders" ["pod-b", "pod-c", "pod-a"] = some "pod-c" := by
  decide

end Flowgen.Peer
