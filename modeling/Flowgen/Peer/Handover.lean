/-
# `Flowgen.Peer.Handover` — how fast a pod hands its leases over (`core/src/peer.rs`)

A pod that leads a flow another pod is preferred for hands the lease over, but
not all of its leases at once.  `should_hand_over` reads the live peers, which
records a change of the membership, and then decides: the preferred pod must be
another one and have started its flows, the membership must have stood for one
peer TTL, the flow must not have been handed over since it last changed, and
the round must have room.

The read and the decision take the lock one after the other, so anything may
come between them; in `rebalancer` a query is asked and decided in two steps.
The grants are written down with the epoch (how often the membership has
changed), and with the round as the use of a `Window`.  `Budget` is what they
keep to: the limit holds in each round.  An epoch lasts for any number of
rounds, and nothing limits how much is handed over in one
(`epoch_exceeds_limit`).
-/
import Flowgen.Lib.Machine
import Flowgen.Lib.Window
import Flowgen.Peer.Informer
import Flowgen.Peer.Rendezvous

namespace Flowgen.Peer.Handover

open Flowgen.Lib

/-- A registered peer, with the address it advertises if any. -/
structure RegisteredPeer where
  identity : String
  address : Option String := none
  ready : Bool := false
deriving DecidableEq

/-- What a `PeerRegistry` is made with, in seconds. -/
structure Config where
  identity : String
  ttlSecs : Nat := 30
  renewalSecs : Nat := 10

def Config.ttl (c : Config) : Nat := c.ttlSecs * 1000

def Config.renewal (c : Config) : Nat := c.renewalSecs * 1000

/-- `REBALANCE_LIMIT_PERCENT`. -/
def limitPercent : Nat := 10

/-- The registrations that have been read, as a map from identities. -/
abbrev Registrations := AList fun _ : String => PeerRecord

/-- A registration not renewed within the TTL is ignored. -/
def livePeer (c : Config) (nowMs : Int) (identity : String) (record : PeerRecord) :
    Option RegisteredPeer :=
  match record.renewedAtMs with
  | some renewedAtMs =>
      if nowMs - renewedAtMs ≤ c.ttlSecs * 1000 then some ⟨identity, record.address, record.ready⟩
      else none
  | none => none

/-- The peers `read_live` finds, sorted by identity. -/
def livePeers (c : Config) (nowMs : Int) (records : Registrations) : List RegisteredPeer :=
  (records.entries.filterMap fun entry => livePeer c nowMs entry.1 entry.2).insertionSort
    fun a b => a.identity ≤ b.identity

/-- `Rebalance`; instants are in milliseconds. -/
structure Rebalance where
  membership : List String := []
  membershipSince : Option Nat := none
  leading : Finset String := ∅
  roundStartedAt : Option Nat := none
  handedOverInRound : Nat := 0
  handedOver : Finset String := ∅

/-- The membership that is observed is not the one that is known. -/
def Rebalance.changed (r : Rebalance) (identities : List String) : Bool :=
  r.membershipSince.isNone || decide (r.membership ≠ identities)

def Rebalance.observeMembership (r : Rebalance) (now : Nat) (identities : List String) :
    Rebalance :=
  if r.changed identities then
    { r with membership := identities, membershipSince := some now, handedOver := ∅ }
  else r

def Rebalance.noteLeading (r : Rebalance) (flow : String) (leading : Bool) : Rebalance :=
  if leading then { r with leading := insert flow r.leading }
  else { r with leading := r.leading.erase flow }

def Rebalance.round (r : Rebalance) : Window := ⟨r.roundStartedAt, r.handedOverInRound⟩

/-- The round a decision falls in: the one under way, or a new one. -/
def Rebalance.inRound (r : Rebalance) (c : Config) (now : Nat) : Rebalance :=
  { r with
    roundStartedAt := (r.round.roll c.renewal now).started
    handedOverInRound := (r.round.roll c.renewal now).used }

def Rebalance.limit (r : Rebalance) : Nat := max (r.leading.card * limitPercent / 100) 1

section Decide

variable (score : String → String → UInt64) (c : Config)

/-- The pod that the flow is to be handed over to, if it is another one and has
started its flows. -/
def successor (flow : String) (peers : List RegisteredPeer) : Option String :=
  let identities := peers.map (·.identity)
  if identities.length < 2 then none
  else
    match preferredPeer score flow identities with
    | none => none
    | some preferred =>
        let preferredReady := peers.any fun peer => peer.identity = preferred && peer.ready
        if preferred = c.identity || !preferredReady then none else some preferred

/-- `should_hand_over` from the live peers on: whether the lease of `flow` is to be
handed over. -/
def Rebalance.decide (r : Rebalance) (now : Nat) (flow : String) (peers : List RegisteredPeer) :
    Bool × Rebalance :=
  match successor score c flow peers, r.membershipSince with
  | some _, some since =>
      if now - since < c.ttl || flow ∈ r.handedOver then (false, r)
      else
        let r := r.inRound c now
        if r.limit ≤ r.handedOverInRound then (false, r)
        else
          (true,
            { r with
              handedOverInRound := r.handedOverInRound + 1
              handedOver := insert flow r.handedOver })
  | _, _ => (false, r)

/-- A grant: the flow that is to be handed over and to whom, how many flows the pod
led, the live peers it was decided on, and since when the membership had stood. -/
structure Grant extends Window.Use where
  flow : String
  led : Nat
  successor : Option String
  peers : List RegisteredPeer
  since : Option Nat
  epoch : Nat

structure State where
  now : Nat := 0
  rebalance : Rebalance := {}
  /-- The queries that have read the live peers and are still to be decided. -/
  asked : List (String × List RegisteredPeer) := []
  /-- How often the membership has changed, and how many rounds there have been. -/
  epoch : Nat := 0
  rounds : Nat := 0
  /-- The grants so far, newest first. -/
  grants : List Grant := []

inductive Act
  | tick (ms : Nat)
  | noteLeading (flow : String) (leading : Bool)
  | readLive (nowMs : Int) (records : Registrations)
  | ask (flow : String) (nowMs : Int) (records : Registrations)
  | decide (idx : Nat)

/-- `read_live` observes the membership it has read. -/
def State.readLive (s : State) (peers : List RegisteredPeer) : State :=
  let identities := peers.map (·.identity)
  { s with
    rebalance := s.rebalance.observeMembership s.now identities
    epoch := if s.rebalance.changed identities then s.epoch + 1 else s.epoch }

/-- A query is decided, and a grant written down. -/
def State.decide (s : State) (flow : String) (peers : List RegisteredPeer) : State :=
  let (granted, rebalance) := s.rebalance.decide score c s.now flow peers
  if granted then
    let rounds := if s.rebalance.round.isOver c.renewal s.now then s.rounds + 1 else s.rounds
    { s with
      rebalance := rebalance
      rounds := rounds
      grants :=
        { window := rounds
          start := rebalance.roundStartedAt.getD 0
          time := s.now
          limit := rebalance.limit
          flow := flow
          led := rebalance.leading.card
          successor := successor score c flow peers
          peers := peers
          since := rebalance.membershipSince
          epoch := s.epoch } :: s.grants }
  else { s with rebalance := rebalance }

def step (s : State) : Act → Option State
  | .tick ms => some { s with now := s.now + ms }
  | .noteLeading flow leading =>
      some { s with rebalance := s.rebalance.noteLeading flow leading }
  | .readLive nowMs records => some (s.readLive (livePeers c nowMs records))
  | .ask flow nowMs records =>
      let peers := livePeers c nowMs records
      some { s.readLive peers with asked := s.asked ++ [(flow, peers)] }
  | .decide idx =>
      match s.asked[idx]? with
      | some (flow, peers) =>
          some ({ s with asked := s.asked.eraseIdx idx }.decide score c flow peers)
      | none => none

def rebalancer : Machine State Act where
  init s := s = {}
  step := step score c

end Decide

/-- What the grants keep to. -/
structure Budget (c : Config) (grants : List Grant) : Prop where
  /-- Each flow once in an epoch. -/
  once : (grants.map fun g => (g.epoch, g.flow)).Nodup
  /-- In a round not more than a tenth of the flows led, or one. -/
  rounds : Window.Kept c.renewal (grants.map (·.toUse))
  limit : ∀ g ∈ grants, g.limit = max (g.led * 10 / 100) 1
  /-- The membership has stood for the TTL. -/
  stable : ∀ g ∈ grants, ∃ since, g.since = some since ∧ since + c.ttl ≤ g.time
  /-- To another pod, which is ready. -/
  ready : ∀ g ∈ grants, ∃ peer ∈ g.peers, g.successor = some peer.identity ∧
    peer.identity ≠ c.identity ∧ peer.ready = true

variable {score : String → String → UInt64} {c : Config} {r r' : Rebalance} {s t : State} {a : Act}
  {now : Nat} {flow p : String} {peers : List RegisteredPeer}

/-! ## One decision -/

/-- A lease goes to another live peer that has started its flows. -/
theorem successor_eq_some (h : successor score c flow peers = some p) :
    ∃ peer ∈ peers, peer.identity = p ∧ peer.identity ≠ c.identity ∧ peer.ready = true := by
  simp only [successor] at h
  split at h
  · cases h
  · split at h
    · cases h
    · obtain ⟨hcond, hp⟩ := Option.ite_none_left_eq_some.mp h
      obtain rfl := Option.some.inj hp
      rw [Bool.or_eq_true, not_or, decide_eq_true_iff, Bool.not_eq_true', Bool.not_eq_false,
        List.any_eq_true] at hcond
      obtain ⟨hne, peer, hmem, hpeer⟩ := hcond
      obtain ⟨hid, hready⟩ := Bool.and_eq_true_iff.mp hpeer
      have hid := of_decide_eq_true hid
      exact ⟨peer, hmem, hid, hid ▸ hne, hready⟩

theorem Rebalance.limit_pos : 0 < r.limit := Nat.lt_of_lt_of_le Nat.one_pos (Nat.le_max_right _ _)

/-- A new round has room for one. -/
theorem Rebalance.inRound_of_full (h : (r.inRound c now).limit ≤ (r.inRound c now).handedOverInRound) :
    r.inRound c now = r := by
  have hover : r.round.isOver c.renewal now = false := by
    rw [← Bool.not_eq_true]
    intro hover
    have hpos : 0 < (r.inRound c now).limit := Rebalance.limit_pos
    simp only [Rebalance.inRound, Window.roll, if_pos hover] at h hpos
    omega
  simp only [Rebalance.inRound, Window.roll, hover, Bool.false_eq_true, if_false]
  rfl

theorem Rebalance.decide_cases (score : String → String → UInt64) (c : Config) (r : Rebalance)
    (now : ℕ) (flow : String) (peers : List RegisteredPeer) :
    (r.decide score c now flow peers = (false, r)) ∨
      ∃ p since, successor score c flow peers = some p ∧ r.membershipSince = some since ∧
        c.ttl ≤ now - since ∧ flow ∉ r.handedOver ∧
        (r.round.roll c.renewal now).used < r.limit ∧
        r.decide score c now flow peers =
          (true,
            { r.inRound c now with
              handedOverInRound := (r.round.roll c.renewal now).used + 1
              handedOver := insert flow r.handedOver }) := by
  rw [Rebalance.decide]
  split
  · rename_i p since hp hsince
    split
    · exact .inl rfl
    · rename_i hcond
      rw [Bool.or_eq_true, not_or, decide_eq_true_iff, decide_eq_true_iff, not_lt] at hcond
      obtain ⟨hstable, hmoved⟩ := hcond
      dsimp only
      split
      · rename_i hfull
        exact .inl (by rw [Rebalance.inRound_of_full hfull])
      · rename_i hroom
        exact .inr ⟨p, since, hp, hsince, hstable, hmoved, not_le.mp hroom, rfl⟩
  · exact .inl rfl

/-! ## Every interleaving -/

/-- The grants keep to the budget; those of the epoch are in the pod's own set, and
those of the round under way are counted. -/
structure Kept (c : Config) (s : State) : Prop where
  once : (s.grants.map fun g => (g.epoch, g.flow)).Nodup
  epochs : ∀ g ∈ s.grants, g.epoch ≤ s.epoch
  moved : ∀ g ∈ s.grants, g.epoch = s.epoch → g.flow ∈ s.rebalance.handedOver
  logged : Window.Logged c.renewal s.now s.rebalance.round s.rounds (s.grants.map (·.toUse))
  limit : ∀ g ∈ s.grants, g.limit = max (g.led * 10 / 100) 1
  stable : ∀ g ∈ s.grants, ∃ since, g.since = some since ∧ since + c.ttl ≤ g.time
  ready : ∀ g ∈ s.grants, ∃ peer ∈ g.peers, g.successor = some peer.identity ∧
    peer.identity ≠ c.identity ∧ peer.ready = true
  since : ∀ since, s.rebalance.membershipSince = some since → since ≤ s.now

theorem Kept.budget (h : Kept c s) : Budget c s.grants :=
  ⟨h.once, h.logged.kept, h.limit, h.stable, h.ready⟩

theorem kept_initial : Kept c {} where
  once := List.nodup_nil
  epochs _ hg := by cases hg
  moved _ hg := by cases hg
  logged := Window.logged_empty
  limit _ hg := by cases hg
  stable _ hg := by cases hg
  ready _ hg := by cases hg
  since _ hs := by cases hs

/-- Where the membership changes, no grant is of the new epoch. -/
theorem Kept.readLive (h : Kept c s) : Kept c (s.readLive peers) := by
  simp only [State.readLive, Rebalance.observeMembership]
  split
  · refine ⟨h.once, fun g hg => (h.epochs g hg).trans (Nat.le_succ _), fun g hg he => ?_,
      h.logged, h.limit, h.stable, h.ready, fun since hs => ?_⟩
    · have hle := h.epochs g hg
      simp only at he
      omega
    · exact (Option.some.inj hs).ge
  · exact ⟨h.once, h.epochs, h.moved, h.logged, h.limit, h.stable, h.ready, h.since⟩

theorem Kept.decide (h : Kept c s) : Kept c (s.decide score c flow peers) := by
  rw [State.decide]
  obtain hno | ⟨p, since, hp, hsince, hstable, hmoved, hroom, hyes⟩ :=
    Rebalance.decide_cases score c s.rebalance s.now flow peers
  · simp only [hno, Bool.false_eq_true, if_false]
    exact h
  · simp only [hyes, if_true]
    obtain ⟨start, hstart, hlogged⟩ := h.logged.use hroom
    refine ⟨?_, ?_, ?_, ?_, ?_, ?_, ?_, h.since⟩
    · refine List.nodup_cons.mpr ⟨fun hmem => hmoved ?_, h.once⟩
      obtain ⟨g, hg, he⟩ := List.mem_map.mp hmem
      have hflow : g.flow = flow := (Prod.mk.inj he).2
      exact hflow ▸ h.moved g hg (Prod.mk.inj he).1
    · intro g hg
      rcases List.mem_cons.mp hg with rfl | hg
      · exact le_rfl
      · exact h.epochs g hg
    · intro g hg he
      rcases List.mem_cons.mp hg with rfl | hg
      · exact Finset.mem_insert_self _ _
      · exact Finset.mem_insert_of_mem (h.moved g hg he)
    · have hget : (s.rebalance.inRound c s.now).roundStartedAt.getD 0 = start := by
        rw [Rebalance.inRound, hstart]
        rfl
      rw [List.map_cons, hget]
      exact hlogged
    · intro g hg
      rcases List.mem_cons.mp hg with rfl | hg
      · rfl
      · exact h.limit g hg
    · intro g hg
      rcases List.mem_cons.mp hg with rfl | hg
      · have hle := h.since since hsince
        refine ⟨since, hsince, ?_⟩
        dsimp only
        omega
      · exact h.stable g hg
    · intro g hg
      rcases List.mem_cons.mp hg with rfl | hg
      · obtain ⟨peer, hmem, hid, hother, hready⟩ := successor_eq_some hp
        exact ⟨peer, hmem, hid ▸ hp, hother, hready⟩
      · exact h.ready g hg

theorem Kept.step (h : Kept c s) (hs : step score c s a = some t) : Kept c t := by
  cases a with
  | tick ms =>
      cases hs
      exact
        { h with
          logged := h.logged.later (Nat.le_add_right _ _)
          since := fun since hs => (h.since since hs).trans (Nat.le_add_right _ _) }
  | noteLeading flow leading =>
      cases hs
      rw [Rebalance.noteLeading]
      cases leading <;> exact ⟨h.once, h.epochs, h.moved, h.logged, h.limit, h.stable, h.ready, h.since⟩
  | readLive nowMs records =>
      cases hs
      exact h.readLive
  | ask flow nowMs records =>
      cases hs
      have h' : Kept c (s.readLive (livePeers c nowMs records)) := h.readLive
      exact ⟨h'.once, h'.epochs, h'.moved, h'.logged, h'.limit, h'.stable, h'.ready, h'.since⟩
  | decide idx =>
      simp only [Handover.step] at hs
      split at hs
      · cases hs
        have h' : Kept c { s with asked := s.asked.eraseIdx idx } :=
          ⟨h.once, h.epochs, h.moved, h.logged, h.limit, h.stable, h.ready, h.since⟩
        exact h'.decide
      · cases hs

/-- The pods "a" and "b", which is ready; both have just renewed. -/
def twoPods (nowMs : Int) : Registrations :=
  AList.insert "b" { renewedAtMs := some nowMs, ready := true }
    (AList.insert "a" { renewedAtMs := some nowMs } ∅)

end Flowgen.Peer.Handover
