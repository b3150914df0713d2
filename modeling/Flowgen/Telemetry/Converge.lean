/-
# `Flowgen.Telemetry.Converge` — the watched counters converge

What the watcher has of a peer, with all that has been sent to it, is the `view` of the peer.
It is kept together with what the stream of the follower still carries; of a peer without a
follower there is nothing, unless its `Gone` is still to be sent.  Once everything has come to
rest, the view is what the watcher merges.
-/
import Flowgen.Lib.Values
import Flowgen.Telemetry.Covers

namespace Flowgen.Telemetry

open Flowgen.Lib OtlpMetricsStore

/-! ## What is emitted -/

section Emitted

variable {b b' : AList fun _ : Source => Flows} {g : String} {k : Source} {flows : Flows}
  {st : OtlpMetricsStore} {pods : List String}

theorem held_eq : held b g = valuesWith (latest FlowMetricsSnapshot.flow g) b := rfl

theorem get_flowsOf : Flows.get (flowsOf b k) g =
    (b.lookup k).bind (latest FlowMetricsSnapshot.flow g) := by
  rw [flowsOf]
  cases b.lookup k with
  | none => rfl
  | some flows => rfl

theorem flow_of_mem_held {x : FlowMetricsSnapshot} (h : x ∈ held b g) : x.flow = g := by
  obtain ⟨e, -, he⟩ := List.mem_filterMap.mp h
  exact (latest_eq_some he).2

theorem mergedFor_eq : mergedFor b g = (mergeAll (held b g)).getD (.empty g) := by
  rw [mergedFor, mergeByFlow_eq fun x hx => flow_of_mem_held hx, Option.head?_toList]

theorem mergedFor_congr (h : (held b' g).Perm (held b g)) : mergedFor b' g = mergedFor b g := by
  rw [mergedFor_eq, mergedFor_eq, mergeAll_perm h fun x hx => flow_of_mem_held hx]

/-- What is emitted for a flow is a snapshot of it. -/
theorem flow_mergedFor : (mergedFor b g).flow = g := by
  rw [mergedFor_eq]
  have hget := get_mergeByFlow (held b g) g
  rw [List.filter_eq_self.mpr fun x hx => decide_eq_true (flow_of_mem_held hx)] at hget
  rw [← hget]
  cases hmerged : Flows.get (mergeByFlow (held b g)) g with
  | none => rfl
  | some x => exact (latest_eq_some hmerged).2

theorem mergedFor_insert (h : flows.get g = Flows.get (flowsOf b k) g) :
    mergedFor (b.insert k flows) g = mergedFor b g :=
  mergedFor_congr (valuesWith_insert_perm (h.trans get_flowsOf))

theorem mergedFor_erase (h : Flows.get (flowsOf b k) g = none) :
    mergedFor (b.erase k) g = mergedFor b g :=
  mergedFor_congr (valuesWith_erase_perm (get_flowsOf.symm.trans h))

theorem filter_map_snapshot : ∀ {l : List ((_ : String) × FlowMetrics)}, l.NodupKeys →
    (l.map fun e => e.2.snapshot e.1).filter (·.flow = g) =
      ((l.dlookup g).map (·.snapshot g)).toList := by
  intro l hl
  induction l with
  | nil => rfl
  | cons e l ih =>
      obtain ⟨flow, metrics⟩ := e
      obtain ⟨hnot, hl⟩ := List.nodupKeys_cons.mp hl
      rw [List.map_cons]
      by_cases h : flow = g
      · subst h
        have hnone : l.dlookup flow = none := List.dlookup_eq_none.mpr hnot
        have hself : decide ((metrics.snapshot flow).flow = flow) = true := decide_eq_true rfl
        rw [List.filter_cons, if_pos hself, ih hl, hnone, List.dlookup_cons_eq]
        rfl
      · have hother : ¬decide ((metrics.snapshot flow).flow = g) = true :=
          fun hp => h (of_decide_eq_true hp)
        rw [List.filter_cons, if_neg hother, ih hl,
          List.dlookup_cons_ne l ⟨flow, metrics⟩ (Ne.symm h)]

/-- Of each flow a pod has one snapshot. -/
theorem filter_snapshotAll :
    st.snapshotAll.filter (·.flow = g) = (st.snapshot g).toList :=
  filter_map_snapshot st.inner.nodupKeys

theorem cluster_eq {own : String} {s : State} : s.cluster own g =
    (mergeAll ((own :: s.registry.map (·.identity)).filterMap fun pod =>
      (s.pods pod).snapshot g)).getD (.empty g) := by
  rw [State.cluster, get_mergeByFlow, List.filter_flatMap, List.filterMap_eq_flatMap_toList]
  simp only [filter_snapshotAll]

end Emitted

/-! ## The invariant -/

/-- What an update makes of the snapshots of a peer. -/
def applied (p : String) (flows : Flows) : PeerUpdate → Flows
  | .item peer item => if peer = p then flows.insert item else flows
  | .gone peer => if peer = p then [] else flows

/-- What the watcher has of a peer, with all that has been sent to it. -/
def State.view (s : State) (p : String) : Flows :=
  s.updates.foldl (applied p) (flowsOf s.bySource (.peer p))

/-- Two followers in the map have different peers. -/
def Follower.Apart (f f' : Follower) : Prop :=
  f.aborted = false → f'.aborted = false → f.peer.identity ≠ f'.peer.identity

instance : Std.Symm Follower.Apart :=
  ⟨fun _ _ h hf hf' heq => h hf' hf heq.symm⟩

theorem pairwise_apart (l : List Follower) : l.Pairwise Follower.Apart ↔
    (l.map fun f => (f.aborted, f.peer.identity)).Pairwise fun a b =>
      a.1 = false → b.1 = false → a.2 ≠ b.2 := by
  rw [List.pairwise_map]
  rfl

/-- Before the watcher runs, nothing has happened to it. -/
structure State.AtStart (s : State) : Prop where
  followers : s.followers = []
  updates : s.updates = []
  emitted : s.emitted = []
  phase : s.phase = .idle

/-- What the watcher has of its own pod, and what it has yet to take, covers. -/
def Watch.Sound (own : String) (s : State) : Watch → Prop
  | .off => s.AtStart
  | .opening o => s.AtStart ∧ o.Sound (s.pods own)
  | .running cursor => cursor ≤ (s.pods own).sent.length ∧
      Covers (s.pods own) (flowsOf s.bySource .localPod ++ (s.pods own).sent.drop cursor)

structure Inv (own : String) (s : State) : Prop where
  stores : ∀ pod, (s.pods pod).Sound
  registry : (own :: s.registry.map (·.identity)).Nodup
  watch : s.watch.Sound own s
  apart : s.followers.Pairwise Follower.Apart
  untold : ∀ f ∈ s.followers, f.aborted = false → f.peer.identity ∉ s.phase.untold
  gone : ∀ p, p ∉ s.phase.untold →
    (∀ f ∈ s.followers, f.aborted = false → f.peer.identity ≠ p) → s.view p = []
  followers : ∀ f ∈ s.followers, f.aborted = false →
    f.Sound (s.pods f.peer.identity) (s.view f.peer.identity)
  told : ∀ g x, Flows.get s.emitted g = some x → x = mergedFor s.bySource g
  shown : ∀ p, ∀ x ∈ flowsOf s.bySource (.peer p), (Flows.get s.emitted x.flow).isSome

section Steps

variable {own pod : String} {s t : State} {st' : OtlpMetricsStore}
  {new : List FlowMetricsSnapshot}

theorem Inv.initial (own : String) : Inv own {} where
  stores _ :=
    { sent := fun _ _ => rfl
      reading := fun _ _ _ _ h => by cases h
      writingKnown := fun _ h => absurd h List.not_mem_nil
      readingKnown := fun _ h => absurd h List.not_mem_nil
      sentKnown := fun _ h => absurd h List.not_mem_nil }
  registry := List.nodup_singleton own
  watch := ⟨rfl, rfl, rfl, rfl⟩
  apart := .nil
  untold _ h := absurd h List.not_mem_nil
  gone _ _ _ := rfl
  followers _ h := absurd h List.not_mem_nil
  told _ _ h := by cases h
  shown _ _ h := absurd h List.not_mem_nil

/-- A call of `record` goes on. -/
theorem Inv.store (h : Inv own s) (hsound : st'.Sound) (hc : Changed (s.pods pod) new st') :
    Inv own (s.setPod pod st') where
  stores pod' := by
    change (Function.update s.pods pod st' pod').Sound
    by_cases hpod : pod' = pod
    · rw [hpod, Function.update_self]
      exact hsound
    · rw [Function.update_of_ne hpod]
      exact h.stores pod'
  registry := h.registry
  watch := by
    have hwatch := h.watch
    change s.watch.Sound own (s.setPod pod st')
    cases hw : s.watch with
    | off =>
        rw [hw] at hwatch
        exact ⟨hwatch.followers, hwatch.updates, hwatch.emitted, hwatch.phase⟩
    | opening o =>
        rw [hw] at hwatch
        refine ⟨⟨hwatch.1.followers, hwatch.1.updates, hwatch.1.emitted, hwatch.1.phase⟩, ?_⟩
        change o.Sound (Function.update s.pods pod st' own)
        by_cases hpod : own = pod
        · rw [hpod, Function.update_self]
          exact Opening.Sound.changed (hpod ▸ hwatch.2) hc
        · rw [Function.update_of_ne hpod]
          exact hwatch.2
    | running cursor =>
        rw [hw] at hwatch
        change cursor ≤ (Function.update s.pods pod st' own).sent.length ∧
          Covers (Function.update s.pods pod st' own) (flowsOf s.bySource .localPod ++
            (Function.update s.pods pod st' own).sent.drop cursor)
        by_cases hpod : own = pod
        · subst hpod
          rw [Function.update_self, hc.sent, List.length_append, ← hc.sent]
          exact ⟨Nat.le_add_right_of_le hwatch.1, hwatch.2.changed hc hwatch.1⟩
        · rw [Function.update_of_ne hpod]
          exact hwatch
  apart := h.apart
  untold := h.untold
  gone := h.gone
  followers f hf hlive := by
    change f.Sound (Function.update s.pods pod st' f.peer.identity) (s.view f.peer.identity)
    by_cases hpod : f.peer.identity = pod
    · rw [hpod, Function.update_self]
      exact (hpod ▸ h.followers f hf hlive).changed hc
    · rw [Function.update_of_ne hpod]
      exact h.followers f hf hlive
  told := h.told
  shown := h.shown

theorem Watch.Sound.congr {w : Watch} (h : w.Sound own s) (hpods : t.pods own = s.pods own)
    (hlocal : flowsOf t.bySource .localPod = flowsOf s.bySource .localPod)
    (hstart : s.AtStart → t.AtStart) : w.Sound own t := by
  cases w with
  | off => exact hstart h
  | opening o => exact ⟨hstart h.1, hpods ▸ h.2⟩
  | running cursor =>
      change cursor ≤ (t.pods own).sent.length ∧
        Covers (t.pods own) (flowsOf t.bySource .localPod ++ (t.pods own).sent.drop cursor)
      rw [hpods, hlocal]
      exact h

/-- The registry changes. -/
theorem Inv.register (h : Inv own s) {registry : List Peer}
    (hregistry : (own :: registry.map (·.identity)).Nodup) :
    Inv own { s with registry := registry } := by
  refine ⟨h.stores, hregistry, ?_, h.apart, h.untold, h.gone, h.followers, h.told, h.shown⟩
  exact h.watch.congr rfl rfl fun hs => ⟨hs.followers, hs.updates, hs.emitted, hs.phase⟩

/-- A pod without a follower restarts. -/
theorem Inv.restart (h : Inv own s) (hne : pod ≠ own)
    (hok : ∀ f ∈ s.followers, f.peer.identity = pod → f.aborted = true) :
    Inv own { s.setPod pod {} with
      followers := s.followers.map fun f =>
        if f.peer.identity = pod then { f with stream := none } else f } := by
  have hlive : ∀ f ∈ s.followers.map (fun f =>
      if f.peer.identity = pod then { f with stream := none } else f), f.aborted = false →
        f ∈ s.followers ∧ f.peer.identity ≠ pod := by
    intro f' hf' hlive
    obtain ⟨f, hf, rfl⟩ := List.mem_map.mp hf'
    split at hlive
    · rename_i hpod
      rw [hok f hf hpod] at hlive
      cases hlive
    · rename_i hpod
      rw [if_neg hpod]
      exact ⟨hf, hpod⟩
  refine ⟨?_, h.registry, ?_, ?_, ?_, ?_, ?_, h.told, h.shown⟩
  · intro pod'
    change (Function.update s.pods pod {} pod').Sound
    by_cases hpod : pod' = pod
    · rw [hpod, Function.update_self]
      exact (Inv.initial own).stores pod
    · rw [Function.update_of_ne hpod]
      exact h.stores pod'
  · refine h.watch.congr (Function.update_of_ne hne.symm _ _) rfl fun hs => ?_
    refine ⟨?_, hs.updates, hs.emitted, hs.phase⟩
    change s.followers.map _ = []
    rw [hs.followers, List.map_nil]
  · refine List.pairwise_map.mpr (h.apart.imp ?_)
    intro f f' hapart
    split
    · split
      · exact hapart
      · exact hapart
    · split
      · exact hapart
      · exact hapart
  · intro f hf hf'
    exact h.untold f (hlive f hf hf').1 hf'
  · intro p hp hfree
    refine h.gone p hp fun f hf hf' => ?_
    have hpod : f.peer.identity ≠ pod := by
      intro hpod
      rw [hok f hf hpod] at hf'
      cases hf'
    exact hfree f (List.mem_map.mpr ⟨f, hf, if_neg hpod⟩) hf'
  · intro f hf hf'
    obtain ⟨hmem, hpod⟩ := hlive f hf hf'
    change f.Sound (Function.update s.pods pod {} f.peer.identity) (s.view f.peer.identity)
    rw [Function.update_of_ne hpod]
    exact h.followers f hmem hf'

/-- The loop of `follow_peers` has listed the peers. -/
theorem Inv.list (h : Inv own s) (hphase : s.phase = .idle) {cursor : Nat}
    (hwatch : s.watch = .running cursor) (answer : List Peer) :
    Inv own { s with phase := .listed answer } := by
  have huntold : s.phase.untold = [] := by rw [hphase]; rfl
  refine ⟨h.stores, h.registry, ?_, h.apart, fun _ _ _ => List.not_mem_nil, ?_, h.followers,
    h.told, h.shown⟩
  · have hsound := h.watch
    change s.watch.Sound own _
    rw [hwatch] at hsound ⊢
    exact hsound
  · intro p _ hfree
    exact h.gone p (huntold ▸ List.not_mem_nil) hfree

theorem lost_iff {peers : List Peer} {f : Follower} :
    State.lost peers f = true ↔ f.aborted = false ∧ f.peer ∉ peers := by
  simp [State.lost]

/-- The followers of the peers that are gone are aborted. -/
theorem Inv.retain (h : Inv own s) {peers : List Peer} (hphase : s.phase = .listed peers) :
    Inv own { s with
      followers := s.followers.map fun f =>
        if State.lost peers f then { f with aborted := true } else f
      phase := .telling ((s.followers.filter (State.lost peers)).map (·.peer.identity)) peers } := by
  have huntold : s.phase.untold = [] := by rw [hphase]; rfl
  have hlive : ∀ f ∈ s.followers.map (fun f =>
      if State.lost peers f then { f with aborted := true } else f), f.aborted = false →
        f ∈ s.followers ∧ State.lost peers f = false := by
    intro f' hf' hlive
    obtain ⟨f, hf, rfl⟩ := List.mem_map.mp hf'
    split at hlive
    · cases hlive
    · rename_i hlost
      rw [if_neg hlost]
      exact ⟨hf, Bool.eq_false_iff.mpr hlost⟩
  refine ⟨h.stores, h.registry, ?_, ?_, ?_, ?_, ?_, h.told, h.shown⟩
  · refine h.watch.congr rfl rfl fun hs => ?_
    have himpossible := hs.phase
    rw [hphase] at himpossible
    cases himpossible
  · refine List.pairwise_map.mpr (h.apart.imp ?_)
    intro f f' hapart
    split
    · intro hf
      cases hf
    · split
      · intro _ hf'
        cases hf'
      · exact hapart
  · intro f hf hf' hmem
    obtain ⟨hkept, hnot⟩ := hlive f hf hf'
    obtain ⟨f'', hf'', hsame⟩ := List.mem_map.mp hmem
    obtain ⟨hmem'', hlost⟩ := List.mem_filter.mp hf''
    have hne : f ≠ f'' := by
      rintro rfl
      rw [hnot] at hlost
      cases hlost
    exact h.apart.forall hkept hmem'' hne hf' (lost_iff.mp hlost).1 hsame.symm
  · intro p hp hfree
    refine h.gone p (huntold ▸ List.not_mem_nil) fun f hf hf' hsame => ?_
    by_cases hlost : State.lost peers f = true
    · exact hp (List.mem_map.mpr ⟨f, List.mem_filter.mpr ⟨hf, hlost⟩, hsame⟩)
    · exact hfree f (List.mem_map.mpr ⟨f, hf, if_neg hlost⟩) hf' hsame
  · intro f hf hf'
    exact h.followers f (hlive f hf hf').1 hf'

theorem view_of_updates {us : List PeerUpdate} (hupdates : t.updates = s.updates ++ us)
    (hsource : t.bySource = s.bySource) (p : String) :
    t.view p = us.foldl (applied p) (s.view p) := by
  rw [State.view, hupdates, hsource, List.foldl_append]
  rfl

/-- The `Gone` of a peer is sent. -/
theorem Inv.tell (h : Inv own s) {p : String} {gone : List String} {peers : List Peer}
    (hphase : s.phase = .telling (p :: gone) peers) :
    Inv own { s with phase := .telling gone peers, updates := s.updates ++ [.gone p] } := by
  have huntold : s.phase.untold = p :: gone := by rw [hphase]; rfl
  have hview := view_of_updates (s := s) (t := { s with
    phase := .telling gone peers
    updates := s.updates ++ [.gone p] }) rfl rfl
  refine ⟨h.stores, h.registry, ?_, h.apart, ?_, ?_, ?_, h.told, h.shown⟩
  · refine h.watch.congr rfl rfl fun hs => ?_
    have himpossible := hs.phase
    rw [hphase] at himpossible
    cases himpossible
  · intro f hf hlive hmem
    exact h.untold f hf hlive (huntold ▸ List.mem_cons_of_mem _ hmem)
  · intro q hq hfree
    rw [hview]
    change (if p = q then [] else s.view q) = []
    split
    · rfl
    · rename_i hne
      refine h.gone q ?_ hfree
      rw [huntold]
      exact fun hmem => (List.mem_cons.mp hmem).elim (fun heq => hne heq.symm) hq
  · intro f hf hlive
    have hne : p ≠ f.peer.identity := by
      rintro rfl
      exact h.untold f hf hlive (huntold ▸ List.mem_cons_self)
    have hsame : State.view { s with
        phase := .telling gone peers
        updates := s.updates ++ [.gone p] } f.peer.identity = s.view f.peer.identity :=
      (hview _).trans (if_neg hne)
    rw [hsame]
    exact h.followers f hf hlive

/-- A peer without a follower gets one. -/
theorem Inv.followPeer (h : Inv own s) (hphase : s.phase = .idle) {cursor : Nat}
    (hwatch : s.watch = .running cursor) (peer : Peer) :
    Inv own { s with followers := State.follow s.followers peer } := by
  rw [State.follow]
  split
  · exact h
  · rename_i hfree
    have hnone : ∀ f ∈ s.followers, f.aborted = false → f.peer.identity ≠ peer.identity := by
      intro f hf hlive hsame
      refine hfree (List.any_eq_true.mpr ⟨f, hf, ?_⟩)
      rw [hlive, hsame]
      simp
    have huntold : s.phase.untold = [] := by rw [hphase]; rfl
    have hview : s.view peer.identity = [] :=
      h.gone _ (huntold ▸ List.not_mem_nil) hnone
    refine ⟨h.stores, h.registry, ?_, ?_, ?_, ?_, ?_, h.told, h.shown⟩
    · have hsound := h.watch
      change s.watch.Sound own _
      rw [hwatch] at hsound ⊢
      exact hsound
    · refine List.pairwise_append.mpr ⟨h.apart, List.pairwise_singleton _ _, ?_⟩
      intro f hf f' hf' hlive _
      rw [List.mem_singleton.mp hf']
      exact hnone f hf hlive
    · intro f _ _
      change f.peer.identity ∉ s.phase.untold
      rw [huntold]
      exact List.not_mem_nil
    · intro p hp hfree'
      exact h.gone p hp fun f hf => hfree' f (List.mem_append_left _ hf)
    · intro f hf hlive
      rcases List.mem_append.mp hf with hf | hf
      · exact h.followers f hf hlive
      · rw [List.mem_singleton.mp hf]
        change Follower.Sound _ (s.view peer.identity) _
        rw [hview]
        exact ⟨fun x hx => absurd hx List.not_mem_nil, fun stream hstream => by cases hstream⟩

theorem Inv.followPeers (peers : List Peer) : ∀ {s : State}, Inv own s → s.phase = .idle →
    ∀ {cursor : Nat}, s.watch = .running cursor →
      Inv own { s with followers := peers.foldl State.follow s.followers } := by
  induction peers with
  | nil => exact fun h _ _ _ => h
  | cons peer peers ih =>
      intro s h hphase cursor hwatch
      exact ih (h.followPeer hphase hwatch peer) hphase hwatch

/-- All have been told, and the peers that are new are followed. -/
theorem Inv.spawn (h : Inv own s) {peers : List Peer} (hphase : s.phase = .telling [] peers) :
    Inv own { s with
      phase := .idle
      followers := peers.foldl State.follow s.followers } := by
  have huntold : s.phase.untold = [] := by rw [hphase]; rfl
  obtain ⟨cursor, hwatch⟩ : ∃ cursor, s.watch = .running cursor := by
    have hsound := h.watch
    cases hw : s.watch with
    | off =>
        rw [hw] at hsound
        cases hphase.symm.trans hsound.phase
    | opening o =>
        rw [hw] at hsound
        cases hphase.symm.trans hsound.1.phase
    | running cursor => exact ⟨cursor, rfl⟩
  have hidle : Inv own { s with phase := .idle } := by
    refine ⟨h.stores, h.registry, ?_, h.apart, fun _ _ _ => List.not_mem_nil, ?_, h.followers,
      h.told, h.shown⟩
    · have hsound := h.watch
      change s.watch.Sound own _
      rw [hwatch] at hsound ⊢
      exact hsound
    · intro p _ hfree
      exact h.gone p (huntold ▸ List.not_mem_nil) hfree
  exact hidle.followPeers peers rfl hwatch

/-- A follower goes on, or its stream. -/
theorem Inv.follower (h : Inv own s) {i : Nat} {f f' : Follower} {a : FollowAct}
    {item : Option FlowMetricsSnapshot} (hf : s.followers[i]? = some f)
    (hok : a = .forward → f.aborted = true → f.peer.identity ∈ s.phase.untold)
    (hstep : f.step (s.pods f.peer.identity) a = some (f', item)) :
    Inv own { s with
      followers := s.followers.set i f'
      updates := s.updates ++ item.toList.map (.item f.peer.identity) } := by
  have hmoved := Follower.moved_of_step hstep
  have hmem := List.mem_of_getElem? hf
  have hview := view_of_updates (s := s) (t := { s with
    followers := s.followers.set i f'
    updates := s.updates ++ item.toList.map (.item f.peer.identity) }) rfl rfl
  have hself : State.view { s with
      followers := s.followers.set i f'
      updates := s.updates ++ item.toList.map (.item f.peer.identity) } f.peer.identity =
        item.elim (s.view f.peer.identity) (Flows.insert (s.view f.peer.identity)) := by
    rw [hview]
    cases item with
    | none => rfl
    | some x => exact if_pos rfl
  -- of the other peers nothing has come, and what an aborted follower sends is still to be undone
  have hsame : ∀ p, (p = f.peer.identity → item = none) → State.view { s with
      followers := s.followers.set i f'
      updates := s.updates ++ item.toList.map (.item f.peer.identity) } p = s.view p := by
    intro p hp
    rw [hview]
    cases item with
    | none => rfl
    | some x => exact if_neg fun heq => by cases hp heq.symm
  have hnone : f.aborted = true → f.peer.identity ∉ s.phase.untold → item = none := by
    intro haborted hnot
    exact hmoved.sends.resolve_right fun hforward => hnot (hok hforward haborted)
  have hcases : ∀ f'' ∈ s.followers.set i f', f'' = f' ∨ f'' ∈ s.followers ∧ f.Apart f'' := by
    intro f'' hf''
    have hapart := h.apart
    rw [eq_take_append_drop hf] at hapart
    obtain ⟨-, hafter, hbefore⟩ := List.pairwise_append.mp hapart
    rw [set_eq_take_append_drop hf] at hf''
    rcases List.mem_append.mp hf'' with hleft | hright
    · refine .inr ⟨List.mem_of_mem_take hleft, ?_⟩
      exact Std.Symm.symm _ _ (hbefore f'' hleft f List.mem_cons_self)
    · rcases List.mem_cons.mp hright with rfl | hright
      · exact .inl rfl
      · exact .inr ⟨List.mem_of_mem_drop hright, (List.pairwise_cons.mp hafter).1 f'' hright⟩
  refine ⟨h.stores, h.registry, ?_, ?_, ?_, ?_, ?_, h.told, h.shown⟩
  · refine h.watch.congr rfl rfl fun hs => ?_
    rw [hs.followers] at hmem
    exact absurd hmem List.not_mem_nil
  · have hkeys : (s.followers.set i f').map (fun f => (f.aborted, f.peer.identity)) =
        s.followers.map fun f => (f.aborted, f.peer.identity) :=
      map_set_of_eq hf (by rw [hmoved.aborted, hmoved.peer])
    refine (pairwise_apart _).mpr ?_
    rw [hkeys]
    exact (pairwise_apart _).mp h.apart
  · intro f'' hf'' hlive
    rcases hcases f'' hf'' with rfl | ⟨hf'', -⟩
    · rw [hmoved.peer]
      exact h.untold f hmem (hmoved.aborted.symm.trans hlive)
    · exact h.untold f'' hf'' hlive
  · intro p hp hfree
    have hold : ∀ f'' ∈ s.followers, f''.aborted = false → f''.peer.identity ≠ p := by
      intro f'' hf'' hlive
      by_cases hthis : f'' = f
      · subst hthis
        rw [← hmoved.peer]
        exact hfree f' (mem_set_self hf) (hmoved.aborted.trans hlive)
      · exact hfree f'' (mem_set_of_ne hf hf'' hthis) hlive
    rw [hsame p ?_]
    · exact h.gone p hp hold
    · rintro rfl
      refine hnone ?_ hp
      by_contra hlive
      exact hold f hmem (Bool.eq_false_iff.mpr hlive) rfl
  · intro f'' hf'' hlive
    rcases hcases f'' hf'' with rfl | ⟨hf'', hapart⟩
    · rw [hmoved.peer, hself]
      exact (h.followers f hmem (hmoved.aborted.symm.trans hlive)).step (h.stores _) hstep
    · rw [hsame _ ?_]
      · exact h.followers f'' hf'' hlive
      · intro hpeer
        refine hnone ?_ ?_
        · by_contra hf
          exact hapart (Bool.eq_false_iff.mpr hf) hlive hpeer.symm
        · rw [← hpeer]
          exact h.untold f'' hf'' hlive

/-- An aborted follower is over. -/
theorem Inv.drop (h : Inv own s) {i : Nat} {f : Follower} (hf : s.followers[i]? = some f)
    (haborted : f.aborted = true) : Inv own { s with followers := s.followers.eraseIdx i } := by
  have hmem := List.mem_of_getElem? hf
  refine ⟨h.stores, h.registry, ?_, h.apart.sublist (List.eraseIdx_sublist _ _), ?_, ?_, ?_,
    h.told, h.shown⟩
  · refine h.watch.congr rfl rfl fun hs => ?_
    rw [hs.followers] at hmem
    exact absurd hmem List.not_mem_nil
  · exact fun f' hf' => h.untold f' (List.mem_of_mem_eraseIdx hf')
  · intro p hp hfree
    refine h.gone p hp fun f' hf' hlive => hfree f' (mem_eraseIdx_of_ne hf hf' ?_) hlive
    rintro rfl
    rw [haborted] at hlive
    cases hlive
  · exact fun f' hf' => h.followers f' (List.mem_of_mem_eraseIdx hf')

/-! ## The watcher -/

/-- The watcher prepares to run. -/
theorem Inv.setOpening (h : Inv own s) (hstart : s.AtStart) {o : Opening}
    (ho : o.Sound (s.pods own)) : Inv own { s with watch := .opening o } :=
  ⟨h.stores, h.registry,
    ⟨⟨hstart.followers, hstart.updates, hstart.emitted, hstart.phase⟩, ho⟩, h.apart, h.untold,
    h.gone, h.followers, h.told, h.shown⟩

theorem flowsOf_insert_self {b : AList fun _ : Source => Flows} {k : Source} {flows : Flows} :
    flowsOf (b.insert k flows) k = flows := by
  rw [flowsOf, AList.lookup_insert]
  rfl

theorem flowsOf_insert_ne {b : AList fun _ : Source => Flows} {k k' : Source} {flows : Flows}
    (h : k' ≠ k) : flowsOf (b.insert k flows) k' = flowsOf b k' := by
  rw [flowsOf, flowsOf, AList.lookup_insert_ne h]

theorem flowsOf_erase_self {b : AList fun _ : Source => Flows} {k : Source} :
    flowsOf (b.erase k) k = [] := by
  rw [flowsOf, AList.lookup_erase]
  rfl

theorem flowsOf_erase_ne {b : AList fun _ : Source => Flows} {k k' : Source} (h : k' ≠ k) :
    flowsOf (b.erase k) k' = flowsOf b k' := by
  rw [flowsOf, flowsOf, AList.lookup_erase_ne h]

/-- The watcher begins with the snapshot of its own pod. -/
theorem Inv.follow (h : Inv own s) {o : Opening} {current : List FlowMetricsSnapshot}
    (hwatch : s.watch = .opening o) (hcurrent : o.snapshots = some current) :
    Inv own { s with
      watch := .running o.cursor
      bySource := s.bySource.insert .localPod (coalesce FlowMetricsSnapshot.flow current) } := by
  have hsound := h.watch
  rw [hwatch] at hsound
  obtain ⟨hstart, ho⟩ := hsound
  have hpeer : ∀ p, flowsOf (s.bySource.insert .localPod
      (coalesce FlowMetricsSnapshot.flow current)) (.peer p) = flowsOf s.bySource (.peer p) :=
    fun p => flowsOf_insert_ne Source.noConfusion
  have hview : ∀ p, State.view { s with
      watch := .running o.cursor
      bySource := s.bySource.insert .localPod (coalesce FlowMetricsSnapshot.flow current) } p =
        s.view p := fun p => congrArg (s.updates.foldl (applied p)) (hpeer p)
  refine ⟨h.stores, h.registry, ⟨ho.cursor, ?_⟩, h.apart, h.untold, ?_, ?_, ?_, ?_⟩
  · rw [flowsOf_insert_self]
    refine (ho.covers (h.stores own) hcurrent).congr fun g => ?_
    rw [Flows.get, Flows.get, latest_append, latest_coalesce, ← latest_append]
  · exact fun p hp hfree => (hview p).trans (h.gone p hp hfree)
  · intro f hf
    change f ∈ s.followers at hf
    rw [hstart.followers] at hf
    exact absurd hf List.not_mem_nil
  · intro g x hx
    change Flows.get s.emitted g = some x at hx
    rw [hstart.emitted] at hx
    cases hx
  · intro p x hx
    exact h.shown p x (hpeer p ▸ hx)

/-- What has been emitted last for a flow is right for the sources as they are now, when the
flows that have changed are emitted anew. -/
theorem told_emit {b : AList fun _ : Source => Flows} {changed : List String}
    (h : ∀ g x, Flows.get s.emitted g = some x → x = mergedFor s.bySource g)
    (hother : ∀ g ∉ changed, mergedFor b g = mergedFor s.bySource g) (g : String)
    (x : FlowMetricsSnapshot) (hx : Flows.get (s.emitted ++ changed.map (mergedFor b)) g = some x) :
    x = mergedFor b g := by
  rw [Flows.get, latest_append] at hx
  cases hnew : latest FlowMetricsSnapshot.flow g (changed.map (mergedFor b)) with
  | some y =>
      rw [hnew] at hx
      obtain rfl := Option.some.inj hx
      obtain ⟨hmem, hflow⟩ := latest_eq_some hnew
      obtain ⟨g', -, rfl⟩ := List.mem_map.mp hmem
      rw [flow_mergedFor] at hflow
      rw [hflow]
  | none =>
      rw [hnew] at hx
      have hnot : g ∉ changed := fun hg =>
        latest_eq_none.mp hnew _ (List.mem_map_of_mem hg) flow_mergedFor
      rw [hother g hnot]
      exact h g x hx

theorem isSome_emit {b : AList fun _ : Source => Flows} {changed : List String} {g : String}
    (h : g ∈ changed ∨ (Flows.get s.emitted g).isSome) :
    (Flows.get (s.emitted ++ changed.map (mergedFor b)) g).isSome := by
  rw [Flows.get, latest_append, Option.isSome_or]
  rcases h with h | h
  · have hsome : latest FlowMetricsSnapshot.flow g (changed.map (mergedFor b)) ≠ none := fun hnone =>
      latest_eq_none.mp hnone _ (List.mem_map_of_mem h) flow_mergedFor
    rw [Option.isSome_iff_ne_none.mpr hsome]
    rfl
  · rw [h, Bool.or_true]

/-- The watcher takes a broadcast of its own pod. -/
theorem Inv.takeLocal (h : Inv own s) {cursor : Nat} {x : FlowMetricsSnapshot}
    (hwatch : s.watch = .running cursor) (hx : (s.pods own).sent[cursor]? = some x) :
    Inv own (State.emit { s with watch := .running (cursor + 1) }
      (s.bySource.insert .localPod ((flowsOf s.bySource .localPod).insert x)) [x.flow]) := by
  have hsound := h.watch
  rw [hwatch] at hsound
  obtain ⟨hlt, rfl⟩ := List.getElem?_eq_some_iff.mp hx
  have hpeer : ∀ p, flowsOf (s.bySource.insert .localPod
      (Flows.insert (flowsOf s.bySource .localPod) (s.pods own).sent[cursor])) (.peer p) =
        flowsOf s.bySource (.peer p) := fun p => flowsOf_insert_ne Source.noConfusion
  have hview : ∀ p, State.view (State.emit { s with watch := .running (cursor + 1) }
      (s.bySource.insert .localPod
        (Flows.insert (flowsOf s.bySource .localPod) (s.pods own).sent[cursor]))
      [(s.pods own).sent[cursor].flow]) p = s.view p :=
    fun p => congrArg (s.updates.foldl (applied p)) (hpeer p)
  refine ⟨h.stores, h.registry, ⟨hlt, ?_⟩, h.apart, h.untold, ?_, ?_, ?_, ?_⟩
  · change Covers (s.pods own) (flowsOf (s.bySource.insert .localPod
      (Flows.insert (flowsOf s.bySource .localPod) (s.pods own).sent[cursor])) .localPod ++
        (s.pods own).sent.drop (cursor + 1))
    rw [flowsOf_insert_self]
    refine hsound.2.congr fun g => ?_
    rw [List.drop_eq_getElem_cons hlt]
    exact latest_put_append
  · exact fun p hp hfree => (hview p).trans (h.gone p hp hfree)
  · intro f hf hlive
    rw [hview]
    exact h.followers f hf hlive
  · refine told_emit h.told fun g hg => mergedFor_insert ?_
    exact latest_put_ne fun heq => hg (heq ▸ List.mem_singleton_self _)
  · intro p y hy
    exact isSome_emit (.inr (h.shown p y (hpeer p ▸ hy)))

/-- The watcher takes an update of a peer. -/
theorem Inv.takeRemote (h : Inv own s) {u : PeerUpdate} {us : List PeerUpdate}
    {b : AList fun _ : Source => Flows} {changed : List String} (hupdates : s.updates = u :: us)
    (hlocal : flowsOf b .localPod = flowsOf s.bySource .localPod)
    (hpeer : ∀ p, flowsOf b (.peer p) = applied p (flowsOf s.bySource (.peer p)) u)
    (hother : ∀ g ∉ changed, mergedFor b g = mergedFor s.bySource g)
    (hshown : ∀ p, ∀ x ∈ flowsOf b (.peer p),
      x.flow ∈ changed ∨ x ∈ flowsOf s.bySource (.peer p)) :
    Inv own (State.emit { s with updates := us } b changed) := by
  have hview : ∀ p, State.view (State.emit { s with updates := us } b changed) p = s.view p := by
    intro p
    change us.foldl (applied p) (flowsOf b (.peer p)) = s.view p
    rw [State.view, hupdates, List.foldl_cons, hpeer]
  refine ⟨h.stores, h.registry, ?_, h.apart, h.untold, ?_, ?_, ?_, ?_⟩
  · refine h.watch.congr rfl hlocal fun hs => ?_
    cases hupdates.symm.trans hs.updates
  · exact fun p hp hfree => (hview p).trans (h.gone p hp hfree)
  · intro f hf hlive
    rw [hview]
    exact h.followers f hf hlive
  · exact told_emit h.told hother
  · intro p x hx
    exact isSome_emit ((hshown p x hx).imp_right (h.shown p x))

theorem Inv.takeItem (h : Inv own s) {peer : String} {item : FlowMetricsSnapshot}
    {us : List PeerUpdate} (hupdates : s.updates = .item peer item :: us) :
    Inv own (State.emit { s with updates := us }
      (s.bySource.insert (.peer peer) ((flowsOf s.bySource (.peer peer)).insert item))
      [item.flow]) := by
  have hpeer : ∀ p, flowsOf (s.bySource.insert (.peer peer)
      ((flowsOf s.bySource (.peer peer)).insert item)) (.peer p) =
        applied p (flowsOf s.bySource (.peer p)) (.item peer item) := by
    intro p
    rw [applied]
    split
    · rename_i heq
      rw [← heq, flowsOf_insert_self]
    · rename_i hne
      exact flowsOf_insert_ne fun heq => hne (Source.peer.inj heq).symm
  refine h.takeRemote hupdates (flowsOf_insert_ne Source.noConfusion) hpeer ?_ ?_
  · intro g hg
    refine mergedFor_insert ?_
    exact latest_put_ne fun heq => hg (heq ▸ List.mem_singleton_self _)
  · intro p x hx
    rw [hpeer, applied] at hx
    split at hx
    · rcases mem_put hx with hx | rfl
      · exact .inr hx
      · exact .inl (List.mem_singleton_self _)
    · exact .inr hx

theorem Inv.takeGone (h : Inv own s) {peer : String} {us : List PeerUpdate}
    (hupdates : s.updates = .gone peer :: us) :
    Inv own (State.emit { s with updates := us } (s.bySource.erase (.peer peer))
      ((flowsOf s.bySource (.peer peer)).map FlowMetricsSnapshot.flow)) := by
  have hpeer : ∀ p, flowsOf (s.bySource.erase (.peer peer)) (.peer p) =
      applied p (flowsOf s.bySource (.peer p)) (.gone peer) := by
    intro p
    rw [applied]
    split
    · rename_i heq
      rw [← heq, flowsOf_erase_self]
    · rename_i hne
      exact flowsOf_erase_ne fun heq => hne (Source.peer.inj heq).symm
  refine h.takeRemote hupdates (flowsOf_erase_ne Source.noConfusion) hpeer ?_ ?_
  · intro g hg
    refine mergedFor_erase (latest_eq_none.mpr ?_)
    rintro x hx rfl
    exact hg (List.mem_map_of_mem hx)
  · intro p x hx
    rw [hpeer, applied] at hx
    split at hx
    · cases hx
    · exact .inr hx

/-- Every step keeps the views and what is emitted right. -/
theorem Inv.step (h : Inv own s) {a : Act} (hok : InOrder s a) (hstep : s.step own a = some t) :
    Inv own t := by
  cases a with
  | store pod a =>
      obtain ⟨st', hst', rfl⟩ := Option.map_eq_some_iff.mp hstep
      obtain ⟨hsound, new, hc⟩ := (h.stores pod).step hok hst'
      exact h.store hsound hc
  | restart pod =>
      obtain ⟨hne, hstep⟩ := Option.ite_none_left_eq_some.mp hstep
      cases hstep
      exact h.restart hne hok
  | join peer =>
      obtain ⟨hne, hstep⟩ := Option.ite_none_left_eq_some.mp hstep
      cases hstep
      refine h.register ?_
      obtain ⟨hown, hnodup⟩ := List.nodup_cons.mp h.registry
      have hsub : ((s.registry.filter (·.identity ≠ peer.identity)).map (·.identity)).Sublist
          (s.registry.map (·.identity)) := List.filter_sublist.map _
      rw [List.map_append, List.nodup_cons]
      refine ⟨?_, List.nodup_append.mpr ⟨hnodup.sublist hsub, List.nodup_singleton _, ?_⟩⟩
      · intro hmem
        rcases List.mem_append.mp hmem with hmem | hmem
        · exact hown (hsub.subset hmem)
        · exact hne (List.mem_singleton.mp hmem).symm
      · intro id hid id' hid' heq
        obtain ⟨other, hother, rfl⟩ := List.mem_map.mp hid
        obtain ⟨-, hother⟩ := List.mem_filter.mp hother
        exact of_decide_eq_true hother (heq.trans (List.mem_singleton.mp hid'))
  | leave identity =>
      cases hstep
      refine h.register (h.registry.sublist ?_)
      exact (List.filter_sublist.map _).cons_cons _
  | watchAll =>
      simp only [State.step] at hstep
      split at hstep
      · rename_i hwatch
        cases hstep
        have hsound := h.watch
        rw [hwatch] at hsound
        exact h.setOpening hsound Opening.sound_subscribe
      · cases hstep
  | beginLocal =>
      simp only [State.step] at hstep
      split at hstep
      · rename_i o hwatch
        obtain ⟨o', ho', rfl⟩ := Option.map_eq_some_iff.mp hstep
        have hsound := h.watch
        rw [hwatch] at hsound
        exact h.setOpening hsound.1 (hsound.2.begin ho')
      · cases hstep
  | loadLocal j atomic =>
      simp only [State.step] at hstep
      split at hstep
      · rename_i o hwatch
        obtain ⟨o', ho', rfl⟩ := Option.map_eq_some_iff.mp hstep
        have hsound := h.watch
        rw [hwatch] at hsound
        exact h.setOpening hsound.1 (hsound.2.load ho')
      · cases hstep
  | follow =>
      simp only [State.step] at hstep
      split at hstep
      · rename_i o hwatch
        obtain ⟨current, hcurrent, rfl⟩ := Option.map_eq_some_iff.mp hstep
        exact h.follow hwatch hcurrent
      · cases hstep
  | list answer =>
      simp only [State.step] at hstep
      split at hstep
      · rename_i hwatch hphase
        cases hstep
        exact h.list hphase hwatch answer
      · cases hstep
  | retain =>
      simp only [State.step] at hstep
      split at hstep
      · rename_i peers hphase
        cases hstep
        exact h.retain hphase
      · cases hstep
  | tell =>
      simp only [State.step] at hstep
      split at hstep
      · rename_i peer gone peers hphase
        cases hstep
        exact h.tell hphase
      · cases hstep
  | spawn =>
      simp only [State.step] at hstep
      split at hstep
      · rename_i peers hphase
        cases hstep
        exact h.spawn hphase
      · cases hstep
  | follower i a =>
      obtain ⟨f, hf, hstep⟩ := Option.bind_eq_some_iff.mp hstep
      obtain ⟨next, hnext, rfl⟩ := Option.map_eq_some_iff.mp hstep
      refine h.follower hf ?_ hnext
      rintro rfl haborted
      exact hok f hf haborted
  | drop i =>
      obtain ⟨f, hf, hstep⟩ := Option.bind_eq_some_iff.mp hstep
      obtain ⟨haborted, hstep⟩ := Option.ite_none_right_eq_some.mp hstep
      cases hstep
      exact h.drop hf haborted
  | takeLocal =>
      simp only [State.step] at hstep
      split at hstep
      · rename_i cursor hwatch
        obtain ⟨x, hx, rfl⟩ := Option.map_eq_some_iff.mp hstep
        exact h.takeLocal hwatch hx
      · cases hstep
  | takeRemote =>
      simp only [State.step] at hstep
      split at hstep
      · rename_i peer item us hupdates
        cases hstep
        exact h.takeItem hupdates
      · rename_i peer us hupdates
        cases hstep
        exact h.takeGone hupdates
      · cases hstep

/-! ## Everything has come to rest -/

/-- What the watcher has of its own pod is what the pod has counted. -/
theorem Inv.get_local (h : Inv own s) (hq : s.Quiet own) (g : String) :
    Flows.get (flowsOf s.bySource .localPod) g = (s.pods own).snapshot g := by
  have hsound := h.watch
  rw [hq.watch] at hsound
  have hrecords := hq.records own List.mem_cons_self
  have hcovers := hsound.2 g ⟨by simp [hrecords.1], by simp [hrecords.2]⟩
  rw [List.drop_length, List.append_nil] at hcovers
  exact hcovers

/-- What the watcher has of a peer is what the peer has counted. -/
theorem Inv.get_peer (h : Inv own s) (hq : s.Quiet own) {peer : Peer} (hpeer : peer ∈ s.registry)
    (g : String) : Flows.get (flowsOf s.bySource (.peer peer.identity)) g =
      (s.pods peer.identity).snapshot g := by
  obtain ⟨f, hf, rfl⟩ := (hq.registry peer).mp hpeer
  obtain ⟨hlive, hstream⟩ := hq.followers f hf
  obtain ⟨-, -, hcovers⟩ := (h.followers f hf hlive).stream _ hstream
  have hrecords := hq.records f.peer.identity
    (List.mem_cons_of_mem _ (List.mem_map_of_mem hpeer))
  have hcovers := hcovers g ⟨by simp [hrecords.1], by simp [hrecords.2]⟩
  rw [List.drop_length, List.append_nil, List.append_nil, List.append_nil, State.view,
    hq.updates] at hcovers
  exact hcovers

/-- Of the other pods the watcher has nothing. -/
theorem Inv.registered (h : Inv own s) (hq : s.Quiet own) {p : String}
    (hp : flowsOf s.bySource (.peer p) ≠ []) : p ∈ s.registry.map (·.identity) := by
  by_contra hnot
  refine hp ?_
  have hview := h.gone p (by rw [hq.phase]; exact List.not_mem_nil) ?_
  · rw [State.view, hq.updates] at hview
    exact hview
  · rintro f hf - rfl
    exact hnot (List.mem_map_of_mem ((hq.registry f.peer).mpr ⟨f, hf, rfl⟩))

/-- The sources are this pod and its peers, and what is merged for a flow is the snapshot of
the cluster. -/
theorem Inv.mergedFor_eq_cluster (h : Inv own s) (hq : s.Quiet own) (g : String) :
    mergedFor s.bySource g = s.cluster own g := by
  have hnodup : (Source.localPod :: (s.registry.map (·.identity)).map Source.peer).Nodup := by
    refine List.nodup_cons.mpr ⟨?_, ?_⟩
    · intro hmem
      obtain ⟨p, -, hp⟩ := List.mem_map.mp hmem
      cases hp
    · exact (List.nodup_cons.mp h.registry).2.map fun p q => Source.peer.inj
  have hperm := valuesWith_perm (φ := latest FlowMetricsSnapshot.flow g) (m := s.bySource) hnodup ?_
  · rw [mergedFor_eq, held_eq, cluster_eq, mergeAll_perm hperm fun x hx => flow_of_mem_held hx]
    congr 2
    simp only [← get_flowsOf]
    rw [List.filterMap_cons, List.filterMap_cons, h.get_local hq, List.filterMap_map]
    have hpeers : (s.registry.map (·.identity)).filterMap
        ((fun k => Flows.get (flowsOf s.bySource k) g) ∘ Source.peer) =
          (s.registry.map (·.identity)).filterMap fun pod => (s.pods pod).snapshot g := by
      refine List.filterMap_congr ?_
      intro p hp
      obtain ⟨peer, hpeer, rfl⟩ := List.mem_map.mp hp
      exact h.get_peer hq hpeer g
    rw [hpeers]
  · intro k hk
    rw [← get_flowsOf] at hk
    cases k with
    | localPod => exact List.mem_cons_self
    | peer p =>
        refine List.mem_cons_of_mem _ (List.mem_map_of_mem (h.registered hq ?_))
        rintro hnil
        rw [hnil] at hk
        cases hk

end Steps

/-- **The watched counters converge**, in every run in which the snapshots of a flow are sent
in order, no follower sends after the `Gone` of its peer, and no pod restarts under its
follower. -/
theorem converges_of_inOrder (own : String) {s : State}
    (h : (watching own).ReachableBy InOrder s) : Converges own s := by
  have hinv : Inv own s := by
    refine h.invariant ?_ fun _ _ _ hinv hok hstep => hinv.step hok hstep
    rintro s rfl
    exact .initial own
  intro hq
  constructor
  · intro g x hx
    exact (hinv.told g x hx).trans (hinv.mergedFor_eq_cluster hq g)
  · intro peer hpeer g hg
    have hsome := OtlpMetricsStore.snapshot_isSome.mpr hg
    rw [← hinv.get_peer hq hpeer g] at hsome
    obtain ⟨x, hx⟩ := Option.isSome_iff_exists.mp hsome
    obtain ⟨hmem, rfl⟩ := latest_eq_some hx
    exact hinv.shown peer.identity x hmem

/-! ## Runs -/

def atomics : List Atomic :=
  [.lastEventAtMs, .lastWarningAtMs, .lastErrorAtMs, .eventsTotal, .warningsTotal, .errorsTotal]

/-- A call of `record` on a pod where `k` other ones read and none writes, up to its snapshot. -/
def recording (pod flow : String) (tsMs : UInt64) (k : Nat) : List Act :=
  [.store pod (.record flow .info tsMs), .store pod (.write 0), .store pod (.write 0),
    .store pod (.write 0)] ++ atomics.map fun atomic => .store pod (.load k atomic)

/-- The peer is listed and followed, and it answers with its snapshot of one flow. -/
def following (peer : Peer) : List Act :=
  [.list [peer], .retain, .spawn, .follower 0 .connect, .follower 0 .begin] ++
    (atomics.map fun atomic => .follower 0 (.load 0 atomic)) ++ [.follower 0 .respond]

/-- Each of two pods counts an event of one flow. -/
theorem converges_two_pods : ∃ s : State, s.Quiet "pod-a" ∧ s.Converged "pod-a" ∧
    s.registry = [⟨"pod-b", "10.0.0.2:8082"⟩] ∧ s.emitted.map (·.eventsTotal) = [1, 2] := by
  have hrun : ((watching "pod-a").exec InOrder {} (List.flatten
      [[.watchAll, .beginLocal, .follow, .join ⟨"pod-b", "10.0.0.2:8082"⟩],
        recording "pod-b" "f" 5 0, [.store "pod-b" (.send 0)],
        following ⟨"pod-b", "10.0.0.2:8082"⟩, [.follower 0 .forward, .takeRemote],
        recording "pod-a" "f" 7 0, [.store "pod-a" (.send 0), .takeLocal]])).any
      (fun s => (["pod-a", "pod-b"].all fun pod =>
          (s.pods pod).writing.isEmpty && (s.pods pod).reading.isEmpty) &&
        ((s.watch == .running (s.pods "pod-a").sent.length && s.phase == .idle) &&
          ((s.updates.isEmpty && s.registry == [⟨"pod-b", "10.0.0.2:8082"⟩]) &&
            (s.followers == [{
              peer := ⟨"pod-b", "10.0.0.2:8082"⟩
              stream := some (.serving (s.pods "pod-b").sent.length [] []) }] &&
              s.emitted.map (·.eventsTotal) == [1, 2])))) = true := by
    rfl
  obtain ⟨s, hr, hs⟩ := Machine.exists_of_exec hrun
  simp only [Bool.and_eq_true, List.isEmpty_iff, beq_iff_eq, List.all_eq_true] at hs
  obtain ⟨hrecords, ⟨hwatch, hphase⟩, ⟨hupdates, hregistry⟩, hfollowers, hemitted⟩ := hs
  have hquiet : s.Quiet "pod-a" := by
    refine ⟨?_, hwatch, hphase, hupdates, ?_, ?_⟩
    · rw [hregistry]
      exact hrecords
    · intro peer
      rw [hregistry, hfollowers]
      simp [eq_comm]
    · intro f hf
      rw [hfollowers] at hf
      rw [List.mem_singleton.mp hf]
      exact ⟨rfl, rfl⟩
  exact ⟨s, hquiet, converges_of_inOrder "pod-a" ⟨{}, _, rfl, hr⟩ hquiet, hregistry, hemitted⟩

/-- The watcher is alone, and nothing is under way. -/
def State.restsAlone (own : String) (s : State) : Bool :=
  ((s.pods own).writing.isEmpty && (s.pods own).reading.isEmpty) &&
    ((s.watch == .running (s.pods own).sent.length && s.phase == .idle) &&
      (s.updates.isEmpty && (s.registry.isEmpty && s.followers.isEmpty)))

theorem quiet_of_restsAlone {own : String} {s : State} (h : s.restsAlone own = true) :
    s.Quiet own := by
  simp only [State.restsAlone, Bool.and_eq_true, List.isEmpty_iff, beq_iff_eq] at h
  obtain ⟨hrecords, ⟨hwatch, hphase⟩, hupdates, hregistry, hfollowers⟩ := h
  refine ⟨?_, hwatch, hphase, hupdates, ?_, ?_⟩
  · intro pod hpod
    rw [hregistry] at hpod
    rw [List.mem_singleton.mp hpod]
    exact hrecords
  · intro peer
    rw [hregistry, hfollowers]
    simp
  · intro f hf
    rw [hfollowers] at hf
    exact absurd hf List.not_mem_nil

/-- Two calls of `record` overlap on one pod, and the one that read first sends last. -/
theorem overtaken_record_stays : ¬ ∀ own s, (watching own).Reachable s → Converges own s := by
  have hrun : ((watching "pod-a").exec (fun _ _ => True) {} (List.flatten
      [[.watchAll, .beginLocal, .follow], recording "pod-a" "f" 1 0, recording "pod-a" "f" 2 1,
        [.store "pod-a" (.send 1), .store "pod-a" (.send 0), .takeLocal, .takeLocal]])).any
      (fun s => s.restsAlone "pod-a" &&
        ((latest FlowMetricsSnapshot.flow "f" s.emitted).map (·.eventsTotal) == some 1 &&
          (s.cluster "pod-a" "f").eventsTotal == 2)) = true := by
    rfl
  obtain ⟨s, hr, hs⟩ := Machine.exists_of_exec hrun
  simp only [Bool.and_eq_true, beq_iff_eq] at hs
  obtain ⟨hrests, hlast, hcluster⟩ := hs
  intro hall
  have hconverged := hall "pod-a" s ⟨{}, _, rfl, hr⟩ (quiet_of_restsAlone hrests)
  obtain ⟨x, hx, htotal⟩ := Option.map_eq_some_iff.mp hlast
  rw [hconverged.last "f" x hx, hcluster] at htotal
  exact absurd htotal (by decide)

/-- A follower that is aborted while it has an update in its hands sends it after the `Gone`:
what the departed pod had counted is shown for good. -/
theorem departed_peer_returns : ∃ s, (watching "pod-a").Reachable s ∧ s.Quiet "pod-a" ∧
    (latest FlowMetricsSnapshot.flow "f" s.emitted).map (·.eventsTotal) = some 1 ∧
      s.cluster "pod-a" "f" = .empty "f" := by
  have hrun : ((watching "pod-a").exec (fun _ _ => True) {} (List.flatten
      [[.watchAll, .beginLocal, .follow, .join ⟨"pod-b", "10.0.0.2:8082"⟩],
        recording "pod-b" "f" 5 0, [.store "pod-b" (.send 0)],
        following ⟨"pod-b", "10.0.0.2:8082"⟩,
        [.leave "pod-b", .list [], .retain, .tell, .follower 0 .forward, .drop 0, .spawn,
          .takeRemote, .takeRemote]])).any
      (fun s => s.restsAlone "pod-a" &&
        ((latest FlowMetricsSnapshot.flow "f" s.emitted).map (·.eventsTotal) == some 1 &&
          s.cluster "pod-a" "f" == .empty "f")) = true := by
    rfl
  obtain ⟨s, hr, hs⟩ := Machine.exists_of_exec hrun
  simp only [Bool.and_eq_true, beq_iff_eq] at hs
  obtain ⟨hrests, hlast, hcluster⟩ := hs
  exact ⟨s, ⟨{}, _, rfl, hr⟩, quiet_of_restsAlone hrests, hlast, hcluster⟩

end Flowgen.Telemetry
