/-
# `Flowgen.Telemetry.Covers` — snapshots on their way to the watcher

An update is a whole snapshot, so what counts is the last one of a flow, wherever it is on its
way.  A store `Covers` a way to the watcher when, for each flow at rest, the last snapshot on
the way is the current one.  A subscription that is followed by a snapshot covers
(`Opening.Sound.covers`), and all that happens to a stream afterwards keeps the last snapshot of
each flow (`Follower.Sound.step`).
-/
import Flowgen.Telemetry.Follow

namespace Flowgen.Telemetry

open Flowgen.Lib OtlpMetricsStore

/-! ## A way to the watcher -/

section Covers

variable {st st' : OtlpMetricsStore} {new way body xs : List FlowMetricsSnapshot} {cursor : Nat}
  {g : String} {o o' : Opening}

/-- The last snapshot of each flow at rest is the current one. -/
def Covers (st : OtlpMetricsStore) (way : List FlowMetricsSnapshot) : Prop :=
  ∀ g, st.Idle g → Flows.get way g = st.snapshot g

theorem drop_changed (hc : Changed st new st') (hcursor : cursor ≤ st.sent.length) :
    st'.sent.drop cursor = st.sent.drop cursor ++ new := by
  rw [hc.sent, List.drop_append_of_le_length hcursor]

/-- A way that ends with what is yet to be taken of the broadcasts stays one. -/
theorem Covers.changed (h : Covers st (way ++ st.sent.drop cursor)) (hc : Changed st new st')
    (hcursor : cursor ≤ st.sent.length) : Covers st' (way ++ st'.sent.drop cursor) := by
  intro g hg
  rw [drop_changed hc hcursor, ← List.append_assoc, Flows.get, latest_append]
  rcases hc.idle g hg with ⟨hnone, hidle, hsame, -⟩ | ⟨x, hx, hcurrent⟩
  · rw [hnone, hsame]
    exact h g hidle
  · rw [hx, hcurrent]
    rfl

theorem Covers.congr (h : Covers st way) {way' : List FlowMetricsSnapshot}
    (hsame : ∀ g, Flows.get way' g = Flows.get way g) : Covers st way' :=
  fun g hg => (hsame g).trans (h g hg)

/-- The readings of a snapshot that is being taken agree with the flows that were at rest all
the time since the subscription. -/
structure Opening.Sound (st : OtlpMetricsStore) (o : Opening) : Prop where
  cursor : o.cursor ≤ st.sent.length
  known : ∀ readings, o.readings = some readings → ∀ r ∈ readings, r.flow ∈ st.inner
  found : ∀ readings, o.readings = some readings → ∀ g, st.Idle g →
    Flows.get (st.sent.drop o.cursor) g = none → g ∈ st.inner → ∃ r ∈ readings, r.flow = g
  agrees : ∀ readings, o.readings = some readings → ∀ g, st.Idle g →
    Flows.get (st.sent.drop o.cursor) g = none → ∀ r ∈ readings, r.flow = g →
      ∀ metrics, st.inner.lookup g = some metrics → r.Agrees metrics

theorem Opening.sound_subscribe : (Opening.subscribe st).Sound st where
  cursor := Nat.le_refl _
  known _ h := by cases h
  found _ h := by cases h
  agrees _ h := by cases h

theorem Opening.Sound.changed (h : o.Sound st) (hc : Changed st new st') : o.Sound st' := by
  have hrest : ∀ {g}, st'.Idle g → Flows.get (st'.sent.drop o.cursor) g = none →
      st.Idle g ∧ Flows.get (st.sent.drop o.cursor) g = none ∧
        st'.inner.lookup g = st.inner.lookup g := by
    intro g hg hnone
    rw [drop_changed hc h.cursor, Flows.get, latest_append, Option.or_eq_none_iff] at hnone
    rcases hc.idle g hg with ⟨-, hidle, -, hlookup⟩ | ⟨x, hx, -⟩
    · exact ⟨hidle, hnone.2, hlookup⟩
    · rw [hx] at hnone
      cases hnone.1
  refine ⟨?_, fun readings hr r hmem => hc.known _ (h.known readings hr r hmem), ?_, ?_⟩
  · rw [hc.sent, List.length_append]
    exact Nat.le_add_right_of_le h.cursor
  · intro readings hr g hg hnone hmem
    obtain ⟨hidle, hnone, hlookup⟩ := hrest hg hnone
    refine h.found readings hr g hidle hnone (AList.lookup_isSome.mp ?_)
    rw [← hlookup]
    exact AList.lookup_isSome.mpr hmem
  · intro readings hr g hg hnone r hmem hflow metrics hmetrics
    obtain ⟨hidle, hnone, hlookup⟩ := hrest hg hnone
    exact h.agrees readings hr g hidle hnone r hmem hflow metrics (hlookup.symm.trans hmetrics)

theorem Opening.Sound.begin (h : o.Sound st) (hb : o.begin st = some o') : o'.Sound st := by
  rw [Opening.begin] at hb
  split at hb
  · cases hb
    refine ⟨h.cursor, ?_, ?_, ?_⟩
    · intro readings hr r hmem
      cases hr
      obtain ⟨flow, hflow, rfl⟩ := List.mem_map.mp hmem
      exact AList.mem_keys.mpr hflow
    · intro readings hr g _ _ hmem
      cases hr
      exact ⟨_, List.mem_map_of_mem (AList.mem_keys.mp hmem), rfl⟩
    · intro readings hr g _ _ r hmem _ metrics _
      cases hr
      obtain ⟨flow, -, rfl⟩ := List.mem_map.mp hmem
      exact Reading.agrees_start flow metrics
  · cases hb

theorem Opening.Sound.load (h : o.Sound st) {j : Nat} {atomic : Atomic}
    (hl : o.load st j atomic = some o') : o'.Sound st := by
  obtain ⟨readings, hreadings, hl⟩ := Option.bind_eq_some_iff.mp hl
  obtain ⟨r, hr, hl⟩ := Option.bind_eq_some_iff.mp hl
  obtain ⟨metrics, hmetrics, rfl⟩ := Option.map_eq_some_iff.mp hl
  have hmem := List.mem_of_getElem? hr
  refine ⟨h.cursor, ?_, ?_, ?_⟩
  · intro readings' hr' r' hmem'
    cases hr'
    rcases List.mem_or_eq_of_mem_set hmem' with hmem' | rfl
    · exact h.known readings hreadings r' hmem'
    · rw [r.flow_load]
      exact h.known readings hreadings r hmem
  · intro readings' hr' g hg hnone hknown
    cases hr'
    obtain ⟨r', hr', hflow⟩ := h.found readings hreadings g hg hnone hknown
    have hflows : g ∈ (readings.set j (r.load metrics atomic)).map (·.flow) := by
      rw [map_set_of_eq hr (r.flow_load metrics atomic), ← hflow]
      exact List.mem_map_of_mem hr'
    obtain ⟨r'', hr'', hflow''⟩ := List.mem_map.mp hflows
    exact ⟨r'', hr'', hflow''⟩
  · intro readings' hr' g hg hnone r' hmem' hflow metrics' hmetrics'
    cases hr'
    rcases List.mem_or_eq_of_mem_set hmem' with hmem' | rfl
    · exact h.agrees readings hreadings g hg hnone r' hmem' hflow metrics' hmetrics'
    · rw [r.flow_load] at hflow
      subst hflow
      obtain rfl := Option.some.inj (hmetrics.symm.trans hmetrics')
      exact (h.agrees readings hreadings _ hg hnone r hmem rfl metrics hmetrics).load atomic

theorem forall_mapM {α β : Type*} {f : α → Option β} : ∀ {l : List α} {l' : List β},
    l.mapM f = some l' →
      (∀ b ∈ l', ∃ a ∈ l, f a = some b) ∧ ∀ a ∈ l, ∃ b ∈ l', f a = some b := by
  intro l
  induction l with
  | nil =>
      intro l' h
      cases h
      exact ⟨fun b hb => absurd hb List.not_mem_nil, fun a ha => absurd ha List.not_mem_nil⟩
  | cons a l ih =>
      intro l' h
      rw [List.mapM_cons] at h
      obtain ⟨b, hb, h⟩ := Option.bind_eq_some_iff.mp h
      obtain ⟨bs, hbs, h⟩ := Option.bind_eq_some_iff.mp h
      cases h
      obtain ⟨hto, hfrom⟩ := ih hbs
      constructor
      · intro c hc
        rcases List.mem_cons.mp hc with rfl | hc
        · exact ⟨a, List.mem_cons_self, hb⟩
        · obtain ⟨a', ha', hf⟩ := hto c hc
          exact ⟨a', List.mem_cons_of_mem _ ha', hf⟩
      · intro a' ha'
        rcases List.mem_cons.mp ha' with rfl | ha'
        · exact ⟨b, List.mem_cons_self, hb⟩
        · obtain ⟨c, hc, hf⟩ := hfrom a' ha'
          exact ⟨c, List.mem_cons_of_mem _ hc, hf⟩

theorem Opening.Sound.known_of_snapshots (h : o.Sound st) (hx : o.snapshots = some xs) :
    ∀ x ∈ xs, x.flow ∈ st.inner := by
  intro x hmem
  obtain ⟨readings, hreadings, hx⟩ := Option.bind_eq_some_iff.mp hx
  obtain ⟨r, hr, hsnapshot⟩ := (forall_mapM hx).1 x hmem
  rw [Reading.flow_of_snapshot hsnapshot]
  exact h.known readings hreadings r hr

/-- To subscribe and then to take a snapshot covers. -/
theorem Opening.Sound.covers (h : o.Sound st) (hst : st.Sound) (hx : o.snapshots = some xs) :
    Covers st (xs ++ st.sent.drop o.cursor) := by
  intro g hg
  rw [Flows.get, latest_append]
  cases hdrop : latest FlowMetricsSnapshot.flow g (st.sent.drop o.cursor) with
  | some x =>
      -- a broadcast since the subscription is the last one of all
      have hsent := hst.sent g hg
      rw [← List.take_append_drop o.cursor st.sent, latest_append, hdrop] at hsent
      exact hsent
  | none =>
      have hknown := h.known_of_snapshots hx
      obtain ⟨readings, hreadings, hx⟩ := Option.bind_eq_some_iff.mp hx
      obtain ⟨hto, hfrom⟩ := forall_mapM hx
      change latest FlowMetricsSnapshot.flow g xs = st.snapshot g
      cases hlookup : st.inner.lookup g with
      | none =>
          rw [snapshot, hlookup]
          refine latest_eq_none.mpr ?_
          rintro x hmem rfl
          exact AList.lookup_eq_none.mp hlookup (hknown x hmem)
      | some metrics =>
          have hmem : g ∈ st.inner := AList.lookup_isSome.mp (hlookup ▸ rfl)
          have hall : ∀ x ∈ xs, x.flow = g → x = metrics.snapshot g := by
            intro x hx hflow
            obtain ⟨r, hr, hsnapshot⟩ := hto x hx
            obtain rfl : r.flow = g := (Reading.flow_of_snapshot hsnapshot).symm.trans hflow
            exact (h.agrees readings hreadings _ hg hdrop r hr rfl metrics hlookup).snapshot
              hsnapshot
          obtain ⟨r, hr, hflow⟩ := h.found readings hreadings g hg hdrop hmem
          obtain ⟨x, hxs, hsnapshot⟩ := hfrom r hr
          have hcurrent : metrics.snapshot g ∈ xs := by
            rw [← hall x hxs ((Reading.flow_of_snapshot hsnapshot).trans hflow)]
            exact hxs
          rw [snapshot, hlookup]
          exact latest_eq_of_forall hcurrent rfl hall

end Covers

/-! ## One follower -/

section Follower

variable {st st' : OtlpMetricsStore} {new view : List FlowMetricsSnapshot} {f f' : Follower}
  {a : FollowAct} {item : Option FlowMetricsSnapshot}

/-- A stream names flows of the pod, and with what has been seen of the pod before it covers. -/
def Stream.Sound (st : OtlpMetricsStore) (view : List FlowMetricsSnapshot) : Stream → Prop
  | .opening o => o.Sound st
  | .serving cursor body pending => cursor ≤ st.sent.length ∧
      (∀ x ∈ body ++ pending, x.flow ∈ st.inner) ∧
        Covers st (view ++ body ++ pending ++ st.sent.drop cursor)

/-- `view` is what the watcher has of the peer, with all that has been sent to it. -/
structure Follower.Sound (st : OtlpMetricsStore) (view : List FlowMetricsSnapshot)
    (f : Follower) : Prop where
  known : ∀ x ∈ view, x.flow ∈ st.inner
  stream : ∀ stream, f.stream = some stream → stream.Sound st view

theorem Follower.Sound.changed (h : f.Sound st view) (hc : Changed st new st') :
    f.Sound st' view where
  known x hx := hc.known _ (h.known x hx)
  stream stream hstream := by
    have hsound := h.stream stream hstream
    cases stream with
    | opening o => exact Opening.Sound.changed hsound hc
    | serving cursor body pending =>
        obtain ⟨hcursor, hknown, hcovers⟩ := hsound
        refine ⟨?_, fun x hx => hc.known _ (hknown x hx), hcovers.changed hc hcursor⟩
        rw [hc.sent, List.length_append]
        exact Nat.le_add_right_of_le hcursor

/-- What a step of a follower is about: its stream, and with `forward` something to send. -/
structure Follower.Moved (f : Follower) (a : FollowAct) (f' : Follower)
    (item : Option FlowMetricsSnapshot) : Prop where
  peer : f'.peer = f.peer
  aborted : f'.aborted = f.aborted
  sends : item = none ∨ a = .forward

theorem Follower.moved_of_step (h : f.step st a = some (f', item)) : f.Moved a f' item := by
  cases a with
  | connect =>
      simp only [Follower.step] at h
      split at h
      · split at h
        · cases h
        · cases h
          exact ⟨rfl, rfl, .inl rfl⟩
      · cases h
  | begin =>
      simp only [Follower.step] at h
      split at h
      · obtain ⟨o, -, ho⟩ := Option.map_eq_some_iff.mp h
        cases ho
        exact ⟨rfl, rfl, .inl rfl⟩
      · cases h
  | load j atomic =>
      simp only [Follower.step] at h
      split at h
      · obtain ⟨o, -, ho⟩ := Option.map_eq_some_iff.mp h
        cases ho
        exact ⟨rfl, rfl, .inl rfl⟩
      · cases h
  | respond =>
      simp only [Follower.step] at h
      split at h
      · obtain ⟨xs, -, hxs⟩ := Option.map_eq_some_iff.mp h
        cases hxs
        exact ⟨rfl, rfl, .inl rfl⟩
      · cases h
  | fill =>
      simp only [Follower.step] at h
      split at h
      · obtain ⟨x, -, hx⟩ := Option.map_eq_some_iff.mp h
        cases hx
        exact ⟨rfl, rfl, .inl rfl⟩
      · cases h
  | flush =>
      simp only [Follower.step] at h
      split at h
      · cases h
        exact ⟨rfl, rfl, .inl rfl⟩
      · cases h
  | forward =>
      simp only [Follower.step] at h
      split at h
      · cases h
        exact ⟨rfl, rfl, .inr rfl⟩
      · cases h
  | disconnect =>
      cases h
      exact ⟨rfl, rfl, .inl rfl⟩

/-- Of a follower with a new stream, only the stream is to be checked. -/
theorem Follower.Sound.reconnect (h : f.Sound st view) {stream : Stream}
    (hstream : stream.Sound st view) : ({ f with stream := some stream } : Follower).Sound st view where
  known := h.known
  stream _ heq := Option.some.inj heq ▸ hstream

/-- Every step keeps the last snapshot of each flow on its way. -/
theorem Follower.Sound.step (h : f.Sound st view) (hst : st.Sound)
    (hstep : f.step st a = some (f', item)) : f'.Sound st (item.elim view (Flows.insert view)) := by
  cases a with
  | connect =>
      simp only [Follower.step] at hstep
      split at hstep
      · split at hstep
        · cases hstep
        · cases hstep
          exact h.reconnect Opening.sound_subscribe
      · cases hstep
  | begin =>
      simp only [Follower.step] at hstep
      split at hstep
      · rename_i o hstream
        obtain ⟨o', ho', heq⟩ := Option.map_eq_some_iff.mp hstep
        cases heq
        exact h.reconnect ((h.stream _ hstream).begin ho')
      · cases hstep
  | load j atomic =>
      simp only [Follower.step] at hstep
      split at hstep
      · rename_i o hstream
        obtain ⟨o', ho', heq⟩ := Option.map_eq_some_iff.mp hstep
        cases heq
        exact h.reconnect ((h.stream _ hstream).load ho')
      · cases hstep
  | respond =>
      simp only [Follower.step] at hstep
      split at hstep
      · rename_i o hstream
        obtain ⟨xs, hxs, heq⟩ := Option.map_eq_some_iff.mp hstep
        cases heq
        have ho : o.Sound st := h.stream _ hstream
        refine h.reconnect ⟨ho.cursor, ?_, ?_⟩
        · rw [List.append_nil]
          exact ho.known_of_snapshots hxs
        · intro g hg
          rw [List.append_nil, List.append_assoc, Flows.get, latest_append]
          have hcovers := ho.covers hst hxs g hg
          rw [Flows.get] at hcovers
          rw [hcovers]
          cases hsnapshot : st.snapshot g with
          | some x => rfl
          | none =>
              -- the pod has never counted the flow
              refine latest_eq_none.mpr ?_
              rintro x hx rfl
              have hsome := snapshot_isSome.mpr (h.known x hx)
              rw [hsnapshot] at hsome
              cases hsome
      · cases hstep
  | fill =>
      simp only [Follower.step] at hstep
      split at hstep
      · rename_i cursor body pending hstream
        obtain ⟨x, hx, heq⟩ := Option.map_eq_some_iff.mp hstep
        cases heq
        obtain ⟨hcursor, hknown, hcovers⟩ := h.stream _ hstream
        obtain ⟨hlt, rfl⟩ := List.getElem?_eq_some_iff.mp hx
        refine h.reconnect ⟨hlt, ?_, hcovers.congr fun g => ?_⟩
        · intro y hy
          rcases List.mem_append.mp hy with hy | hy
          · exact hknown y (List.mem_append_left _ hy)
          · rcases mem_put hy with hy | rfl
            · exact hknown y (List.mem_append_right _ hy)
            · exact hst.sentKnown _ (List.getElem_mem hlt)
        · rw [List.drop_eq_getElem_cons hlt, Flows.get, Flows.get, List.append_assoc _ pending,
            List.append_assoc, latest_append, latest_put_append, ← latest_append]
      · cases hstep
  | flush =>
      simp only [Follower.step] at hstep
      split at hstep
      · rename_i cursor body pending hstream
        cases hstep
        obtain ⟨hcursor, hknown, hcovers⟩ := h.stream _ hstream
        refine h.reconnect ⟨hcursor, ?_, ?_⟩
        · rw [List.append_nil]
          exact hknown
        · rw [List.append_nil, ← List.append_assoc]
          exact hcovers
      · cases hstep
  | forward =>
      simp only [Follower.step] at hstep
      split at hstep
      · rename_i cursor x body pending hstream
        cases hstep
        obtain ⟨hcursor, hknown, hcovers⟩ := h.stream _ hstream
        refine ⟨?_, ?_⟩
        · intro y hy
          rcases mem_put hy with hy | rfl
          · exact h.known y hy
          · exact hknown y List.mem_cons_self
        · intro stream heq
          cases heq
          refine ⟨hcursor, fun y hy => hknown y (List.mem_cons_of_mem _ hy), hcovers.congr fun g => ?_⟩
          change Flows.get (Flows.insert view x ++ body ++ pending ++ _) g = _
          rw [Flows.get, Flows.get, List.append_assoc, List.append_assoc, latest_put_append,
            List.append_assoc, List.append_assoc, List.cons_append]
      · cases hstep
  | disconnect =>
      cases hstep
      exact ⟨h.known, fun stream heq => by cases heq⟩

end Follower

end Flowgen.Telemetry
