/-
# `Flowgen.Telemetry.Follow` — the counters of the cluster (`core/src/telemetry/cluster.rs`)

`watch_all` of `ClusterMetricsStore` keeps the snapshots of every source, of this pod and of
each peer, and emits the merged snapshot of a flow whenever one of them comes in.  For this pod
it subscribes to the broadcasts and takes a snapshot.  For the peers, `follow_peers` keeps one
follower task for each peer that the registry lists; the follower connects to the peer, which
subscribes, takes a snapshot and then streams what is broadcast, coalesced by flow.  When a peer
is gone or has another address, its follower is aborted and a `Gone` is sent.

An abort takes effect when the follower waits the next time: until `drop`, an aborted follower
may go on.  The registry answers `list_peer_addresses` with a list that may lag behind, or with
nothing when it fails.  A request reaches the pod of the peer it is for, or nobody.
-/
import Flowgen.Lib.Machine
import Flowgen.Telemetry.Activity

namespace Flowgen.Telemetry

open Flowgen.Lib

/-- A pod that the registry lists with an address. -/
structure Peer where
  identity : String
  address : String
deriving DecidableEq

inductive PeerUpdate
  | item (peer : String) (item : FlowMetricsSnapshot)
  | gone (peer : String)
deriving DecidableEq

inductive Source
  | localPod
  | peer (identity : String)
deriving DecidableEq

/-! ## One stream of a pod -/

/-- A subscription to the broadcasts of a pod, from the position `cursor` on, for which
`snapshot_all` has not begun (`none`) or is loading. -/
structure Opening where
  cursor : Nat
  readings : Option (List Reading) := none
deriving DecidableEq

namespace Opening

def subscribe (st : OtlpMetricsStore) : Opening where
  cursor := st.sent.length

def begin (o : Opening) (st : OtlpMetricsStore) : Option Opening :=
  match o.readings with
  | none => some { o with readings := some (st.inner.keys.map fun flow => { flow := flow }) }
  | some _ => none

def load (o : Opening) (st : OtlpMetricsStore) (j : Nat) (atomic : Atomic) : Option Opening :=
  o.readings.bind fun readings =>
    (readings[j]?).bind fun r =>
      (st.inner.lookup r.flow).map fun metrics =>
        { o with readings := some (readings.set j (r.load metrics atomic)) }

/-- What `snapshot_all` returns, once everything is loaded. -/
def snapshots (o : Opening) : Option (List FlowMetricsSnapshot) :=
  o.readings.bind fun readings => readings.mapM Reading.snapshot

end Opening

/-- A response of `serve_metrics_stream`: what is on its way to the client, first what
`snapshot_all` returned and then what has been flushed, and what `coalesce` holds back. -/
inductive Stream
  | opening (o : Opening)
  | serving (cursor : Nat) (body : List FlowMetricsSnapshot) (pending : Flows)
deriving DecidableEq

/-- A task of `follow_peer`, and the stream it is connected to. -/
structure Follower where
  peer : Peer
  aborted : Bool := false
  stream : Option Stream := none
deriving DecidableEq

inductive FollowAct
  | connect
  | begin
  | load (j : Nat) (atomic : Atomic)
  | respond
  | fill
  | flush
  | forward
  | disconnect

/-- A step of a follower, or of the stream that its peer serves it.  With `forward` it has an
update to send. -/
def Follower.step (f : Follower) (st : OtlpMetricsStore) :
    FollowAct → Option (Follower × Option FlowMetricsSnapshot)
  | .connect =>
      match f.stream with
      | none =>
          if f.aborted then none
          else some ({ f with stream := some (.opening (.subscribe st)) }, none)
      | some _ => none
  | .begin =>
      match f.stream with
      | some (.opening o) =>
          (o.begin st).map fun o => ({ f with stream := some (.opening o) }, none)
      | _ => none
  | .load j atomic =>
      match f.stream with
      | some (.opening o) =>
          (o.load st j atomic).map fun o => ({ f with stream := some (.opening o) }, none)
      | _ => none
  | .respond =>
      match f.stream with
      | some (.opening o) =>
          o.snapshots.map fun current =>
            ({ f with stream := some (.serving o.cursor current []) }, none)
      | _ => none
  | .fill =>
      match f.stream with
      | some (.serving cursor body pending) =>
          (st.sent[cursor]?).map fun snapshot =>
            ({ f with stream := some (.serving (cursor + 1) body (pending.insert snapshot)) }, none)
      | _ => none
  | .flush =>
      match f.stream with
      | some (.serving cursor body pending) =>
          some ({ f with stream := some (.serving cursor (body ++ pending) []) }, none)
      | _ => none
  | .forward =>
      match f.stream with
      | some (.serving cursor (item :: body) pending) =>
          some ({ f with stream := some (.serving cursor body pending) }, some item)
      | _ => none
  | .disconnect => some ({ f with stream := none }, none)

/-! ## The pods and the watcher -/

/-- The loop of `follow_peers`: it waits, it has listed the peers, or it sends the `Gone` of
those that are. -/
inductive FollowPhase
  | idle
  | listed (peers : List Peer)
  | telling (gone : List String) (peers : List Peer)
deriving DecidableEq

/-- The peers whose `Gone` is still to be sent. -/
def FollowPhase.untold : FollowPhase → List String
  | .telling gone _ => gone
  | _ => []

/-- The watcher of this pod: it does not run, it has subscribed, or it runs and has taken the
broadcasts of this pod up to `cursor`. -/
inductive Watch
  | off
  | opening (o : Opening)
  | running (cursor : Nat)
deriving DecidableEq

/-- `followers` are all tasks that are not over.  Those that are not aborted are the ones in the
map of `follow_peers`. -/
structure State where
  pods : String → OtlpMetricsStore := fun _ => {}
  registry : List Peer := []
  watch : Watch := .off
  phase : FollowPhase := .idle
  followers : List Follower := []
  updates : List PeerUpdate := []
  bySource : AList fun _ : Source => Flows := ∅
  emitted : List FlowMetricsSnapshot := []

inductive Act
  | store (pod : String) (a : RecordAct)
  | restart (pod : String)
  | join (peer : Peer)
  | leave (identity : String)
  | watchAll
  | beginLocal
  | loadLocal (j : Nat) (atomic : Atomic)
  | follow
  | list (answer : List Peer)
  | retain
  | tell
  | spawn
  | follower (i : Nat) (a : FollowAct)
  | drop (i : Nat)
  | takeLocal
  | takeRemote

/-- The snapshots of a source. -/
def flowsOf (bySource : AList fun _ : Source => Flows) (source : Source) : Flows :=
  (bySource.lookup source).getD []

/-- The snapshots of a flow, of all sources. -/
def held (bySource : AList fun _ : Source => Flows) (flow : String) : List FlowMetricsSnapshot :=
  bySource.entries.filterMap fun e => e.2.get flow

/-- What `watch_all` emits for a flow. -/
def mergedFor (bySource : AList fun _ : Source => Flows) (flow : String) : FlowMetricsSnapshot :=
  ((mergeByFlow (held bySource flow)).head?).getD (.empty flow)

namespace State

def setPod (s : State) (pod : String) (st : OtlpMetricsStore) : State :=
  { s with pods := Function.update s.pods pod st }

/-- The sources have changed, and the flows are emitted anew. -/
def emit (s : State) (bySource : AList fun _ : Source => Flows) (changed : List String) : State :=
  { s with bySource := bySource, emitted := s.emitted ++ changed.map (mergedFor bySource) }

/-- A peer of the answer that has no follower gets one. -/
def follow (followers : List Follower) (peer : Peer) : List Follower :=
  if followers.any fun f => !f.aborted && f.peer.identity = peer.identity then followers
  else followers ++ [{ peer := peer }]

/-- The follower is in the map, but the answer does not list its peer. -/
def lost (answer : List Peer) (f : Follower) : Bool := !f.aborted && !answer.contains f.peer

def step (own : String) (s : State) : Act → Option State
  | .store pod a => ((s.pods pod).step a).map (s.setPod pod)
  | .restart pod =>
      if pod = own then none
      else
        some
          { s.setPod pod {} with
            followers := s.followers.map fun f =>
              if f.peer.identity = pod then { f with stream := none } else f }
  | .join peer =>
      if peer.identity = own then none
      else some { s with
        registry := s.registry.filter (·.identity ≠ peer.identity) ++ [peer] }
  | .leave identity => some { s with registry := s.registry.filter (·.identity ≠ identity) }
  | .watchAll =>
      match s.watch with
      | .off => some { s with watch := .opening (.subscribe (s.pods own)) }
      | _ => none
  | .beginLocal =>
      match s.watch with
      | .opening o => (o.begin (s.pods own)).map fun o => { s with watch := .opening o }
      | _ => none
  | .loadLocal j atomic =>
      match s.watch with
      | .opening o => (o.load (s.pods own) j atomic).map fun o => { s with watch := .opening o }
      | _ => none
  | .follow =>
      match s.watch with
      | .opening o =>
          o.snapshots.map fun current =>
            { s with
              watch := .running o.cursor
              bySource := s.bySource.insert .localPod (coalesce FlowMetricsSnapshot.flow current) }
      | _ => none
  | .list answer =>
      match s.watch, s.phase with
      | .running _, .idle => some { s with phase := .listed answer }
      | _, _ => none
  | .retain =>
      match s.phase with
      | .listed peers =>
          some
            { s with
              followers := s.followers.map fun f =>
                if lost peers f then { f with aborted := true } else f
              phase := .telling ((s.followers.filter (lost peers)).map (·.peer.identity)) peers }
      | _ => none
  | .tell =>
      match s.phase with
      | .telling (peer :: gone) peers =>
          some { s with phase := .telling gone peers, updates := s.updates ++ [.gone peer] }
      | _ => none
  | .spawn =>
      match s.phase with
      | .telling [] peers =>
          some { s with phase := .idle, followers := peers.foldl State.follow s.followers }
      | _ => none
  | .follower i a =>
      (s.followers[i]?).bind fun f =>
        (f.step (s.pods f.peer.identity) a).map fun next =>
          { s with
            followers := s.followers.set i next.1
            updates := s.updates ++ next.2.toList.map (.item f.peer.identity) }
  | .drop i =>
      (s.followers[i]?).bind fun f =>
        if f.aborted then some { s with followers := s.followers.eraseIdx i } else none
  | .takeLocal =>
      match s.watch with
      | .running cursor =>
          ((s.pods own).sent[cursor]?).map fun snapshot =>
            { s with watch := .running (cursor + 1) }.emit
              (s.bySource.insert .localPod ((flowsOf s.bySource .localPod).insert snapshot))
              [snapshot.flow]
      | _ => none
  | .takeRemote =>
      match s.updates with
      | .item peer item :: updates =>
          some ({ s with updates := updates }.emit
            (s.bySource.insert (.peer peer) ((flowsOf s.bySource (.peer peer)).insert item))
            [item.flow])
      | .gone peer :: updates =>
          some ({ s with updates := updates }.emit (s.bySource.erase (.peer peer))
            ((flowsOf s.bySource (.peer peer)).map FlowMetricsSnapshot.flow))
      | [] => none

/-- The snapshot of a flow that a query over this pod and its peers would merge. -/
def cluster (own : String) (s : State) (flow : String) : FlowMetricsSnapshot :=
  ((mergeByFlow ((own :: s.registry.map (·.identity)).flatMap fun pod =>
    (s.pods pod).snapshotAll)).get flow).getD (.empty flow)

/-- Nothing is under way: no call of `record` on this pod or its peers, no refresh, no aborted
follower; the peers of the registry are those that are followed, and all streams are drained. -/
structure Quiet (own : String) (s : State) : Prop where
  records : ∀ pod ∈ own :: s.registry.map (·.identity),
    (s.pods pod).writing = [] ∧ (s.pods pod).reading = []
  watch : s.watch = .running (s.pods own).sent.length
  phase : s.phase = .idle
  updates : s.updates = []
  registry : ∀ peer, peer ∈ s.registry ↔ ∃ f ∈ s.followers, f.peer = peer
  followers : ∀ f ∈ s.followers, f.aborted = false ∧
    f.stream = some (.serving (s.pods f.peer.identity).sent.length [] [])

/-- The last snapshot emitted for a flow is the one of the cluster, and one has been emitted for
each flow that a peer has counted. -/
structure Converged (own : String) (s : State) : Prop where
  last : ∀ flow x, latest FlowMetricsSnapshot.flow flow s.emitted = some x → x = s.cluster own flow
  counted : ∀ peer ∈ s.registry, ∀ flow ∈ (s.pods peer.identity).inner,
    (latest FlowMetricsSnapshot.flow flow s.emitted).isSome

end State

/-- The pods of a cluster, one of which watches the counters of all. -/
def watching (own : String) : Machine State Act where
  init s := s = {}
  step s a := s.step own a

/-- Whenever everything has come to rest, the watcher has been told the counters of the
cluster. -/
def Converges (own : String) (s : State) : Prop := s.Quiet own → s.Converged own

/-- On each pod the snapshots of a flow are sent in the order they were begun in, a follower
sends nothing after the `Gone` of its peer, and no pod restarts under a follower. -/
def InOrder (s : State) : Act → Prop
  | .store pod a => (s.pods pod).InOrder a
  | .restart pod => ∀ f ∈ s.followers, f.peer.identity = pod → f.aborted = true
  | .follower i .forward => ∀ f, s.followers[i]? = some f → f.aborted = true →
      f.peer.identity ∈ s.phase.untold
  | _ => True

instance (s : State) : (a : Act) → Decidable (InOrder s a)
  | .store pod a => inferInstanceAs (Decidable ((s.pods pod).InOrder a))
  | .restart pod => inferInstanceAs
      (Decidable (∀ f ∈ s.followers, f.peer.identity = pod → f.aborted = true))
  | .follower i a =>
      match a with
      | .forward => inferInstanceAs (Decidable (∀ f ∈ s.followers[i]?, f.aborted = true →
          f.peer.identity ∈ s.phase.untold))
      | .connect | .begin | .load _ _ | .respond | .fill | .flush | .disconnect => .isTrue trivial
  | .join _ | .leave _ | .watchAll | .beginLocal | .loadLocal _ _ | .follow | .list _ | .retain
  | .tell | .spawn | .drop _ | .takeLocal | .takeRemote => .isTrue trivial

end Flowgen.Telemetry
