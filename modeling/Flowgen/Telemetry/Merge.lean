/-
# `Flowgen.Telemetry.Merge` — merged metrics (`core/src/flow/activity.rs`)

The metrics of a flow are asked for from every pod and merged: the counters are
added, the later timestamps are kept, and the status is derived anew.

Pods that record, each in the order of time, leave a report that accounts for what
they have recorded (`merged_recordAll`), and to merge reports is to account for
everything together (`Merged.flatMap`).  So however the events are spread over the
pods, and in whatever order the reports are merged, the outcome is that of one pod
that has recorded all of them (`merge_is_one_pod`).
-/
import Flowgen.Telemetry.Converge

namespace Flowgen.Telemetry

open Flowgen.Lib

/-- An event that is recorded, with its flow. -/
structure RecordedEvent where
  flow : String
  level : ActivityLevel
  tsMs : UInt64
deriving DecidableEq

/-! ## A pod that records one event after the other -/

def FlowMetrics.record (metrics : FlowMetrics) (level : ActivityLevel) (tsMs : UInt64) :
    FlowMetrics :=
  (metrics.fetchAdd level).store tsMs level

namespace OtlpMetricsStore

/-- A call of `record` that nothing comes in between. -/
def record (st : OtlpMetricsStore) (event : RecordedEvent) : OtlpMetricsStore :=
  (st.slot event.flow).update event.flow (·.record event.level event.tsMs)

def recordAll (events : List RecordedEvent) : OtlpMetricsStore := events.foldl record {}

end OtlpMetricsStore

/-! ## What a snapshot has to say -/

def FlowMetricsSnapshot.total (x : FlowMetricsSnapshot) : ActivityLevel → UInt64
  | .info => x.eventsTotal
  | .warning => x.warningsTotal
  | .error => x.errorsTotal

def FlowMetricsSnapshot.lastAt (x : FlowMetricsSnapshot) : ActivityLevel → Option UInt64
  | .info => x.lastEventAtMs
  | .warning => x.lastWarningAtMs
  | .error => x.lastErrorAtMs

/-- When the flow has had events of the level. -/
def times (events : List RecordedEvent) (flow : String) (level : ActivityLevel) : List UInt64 :=
  (events.filter fun event => event.flow = flow ∧ event.level = level).map (·.tsMs)

/-- The latest of these, if there are any. -/
def Latest (ts : List UInt64) : Option UInt64 → Prop
  | none => ts = []
  | some t => t ∈ ts ∧ ∀ t' ∈ ts, t' ≤ t

/-- The snapshot is that of the flow after these events, in whatever order. -/
structure Accounts (events : List RecordedEvent) (flow : String) (x : FlowMetricsSnapshot) :
    Prop where
  named : x.flow = flow
  total : ∀ level, x.total level = .ofNat (times events flow level).length
  lastAt : ∀ level, Latest (times events flow level) (x.lastAt level)
  status : x.status = deriveStatus (x.lastAt .info) (x.lastAt .warning) (x.lastAt .error)

/-- There is a snapshot of the flow if it has had events, and it accounts for them. -/
def Merged (events : List RecordedEvent) (flow : String) : Option FlowMetricsSnapshot → Prop
  | none => ∀ event ∈ events, event.flow ≠ flow
  | some x => (∃ event ∈ events, event.flow = flow) ∧ Accounts events flow x

section Accounts

variable {events events' : List RecordedEvent} {event : RecordedEvent} {flow g : String}
  {level level' : ActivityLevel} {x y : FlowMetricsSnapshot} {o o' : Option FlowMetricsSnapshot}
  {s t : Option UInt64} {ts ts' : List UInt64} {metrics : FlowMetrics} {st : OtlpMetricsStore}

theorem times_append : times (events ++ events') flow level =
    times events flow level ++ times events' flow level := by
  rw [times, List.filter_append, List.map_append]
  rfl

theorem times_eq_nil (h : ∀ event ∈ events, event.flow ≠ flow) : times events flow level = [] := by
  rw [times, List.map_eq_nil_iff, List.filter_eq_nil_iff]
  intro event hevent hp
  exact h event hevent (of_decide_eq_true hp).1

theorem times_perm (h : events.Perm events') :
    (times events flow level).Perm (times events' flow level) :=
  (h.filter _).map _

theorem times_singleton : times [event] event.flow level =
    if event.level = level then [event.tsMs] else [] := by
  by_cases h : event.level = level
  · simp [times, h]
  · simp [times, h]

theorem Latest.perm (h : ts.Perm ts') (hs : Latest ts s) : Latest ts' s := by
  cases s with
  | none => exact (List.nil_perm.mp (hs ▸ h)).symm ▸ rfl
  | some t => exact ⟨h.mem_iff.mp hs.1, fun t' ht' => hs.2 t' (h.mem_iff.mpr ht')⟩

theorem Latest.eq (hs : Latest ts s) (ht : Latest ts t) : s = t := by
  cases s with
  | none =>
      cases t with
      | none => rfl
      | some t =>
          obtain rfl : ts = [] := hs
          cases ht.1
  | some s =>
      cases t with
      | none =>
          obtain rfl : ts = [] := ht
          cases hs.1
      | some t =>
          refine congrArg some ?_
          exact UInt64.le_antisymm (ht.2 s hs.1) (hs.2 t ht.1)

theorem Latest.later (hs : Latest ts s) (ht : Latest ts' t) : Latest (ts ++ ts') (later s t) := by
  cases s with
  | none =>
      obtain rfl : ts = [] := hs
      exact ht
  | some s =>
      cases t with
      | none =>
          obtain rfl : ts' = [] := ht
          rw [List.append_nil]
          exact hs
      | some t =>
          rw [Telemetry.later]
          split
          · rename_i hle
            refine ⟨List.mem_append_right ts ht.1, ?_⟩
            intro t' ht'
            rcases List.mem_append.mp ht' with hmem | hmem
            · exact UInt64.le_trans (hs.2 t' hmem) hle
            · exact ht.2 t' hmem
          · rename_i hle
            have hlt : t ≤ s := UInt64.le_of_lt (UInt64.not_le.mp hle)
            refine ⟨List.mem_append_left ts' hs.1, ?_⟩
            intro t' ht'
            rcases List.mem_append.mp ht' with hmem | hmem
            · exact hs.2 t' hmem
            · exact UInt64.le_trans (ht.2 t' hmem) hlt

/-- An event that is not before any other is the latest. -/
theorem Latest.concat {a : UInt64} (h : ∀ t' ∈ ts, t' ≤ a) : Latest (ts ++ [a]) (some a) := by
  refine ⟨List.mem_concat_self, ?_⟩
  intro t' ht'
  rcases List.mem_append.mp ht' with hmem | hmem
  · exact h t' hmem
  · exact List.mem_singleton.mp hmem ▸ UInt64.le_refl a

theorem Accounts.perm (h : events.Perm events') (hx : Accounts events flow x) :
    Accounts events' flow x where
  named := hx.named
  total level := (times_perm h).length_eq ▸ hx.total level
  lastAt level := (hx.lastAt level).perm (times_perm h)
  status := hx.status

/-- Events account for one snapshot only. -/
theorem Accounts.eq (hx : Accounts events flow x) (hy : Accounts events flow y) : x = y := by
  have htotal : ∀ level, x.total level = y.total level := fun level =>
    (hx.total level).trans (hy.total level).symm
  have hlast : ∀ level, x.lastAt level = y.lastAt level := fun level =>
    (hx.lastAt level).eq (hy.lastAt level)
  ext1
  · exact hx.named.trans hy.named.symm
  · exact htotal .info
  · exact htotal .warning
  · exact htotal .error
  · exact hlast .info
  · exact hlast .warning
  · exact hlast .error
  · rw [hx.status, hy.status, hlast, hlast, hlast]

/-- To merge is to account for both. -/
theorem Accounts.merge (hx : Accounts events flow x) (hy : Accounts events' flow y) :
    Accounts (events ++ events') flow (x.merge y) where
  named := hx.named
  total level := by
    have hsum : (x.merge y).total level = x.total level + y.total level := by
      cases level with
      | info | warning | error => rfl
    rw [hsum, hx.total, hy.total, times_append, List.length_append, UInt64.ofNat_add]
  lastAt level := by
    have hlater : (x.merge y).lastAt level = Telemetry.later (x.lastAt level) (y.lastAt level) := by
      cases level with
      | info | warning | error => rfl
    rw [hlater, times_append]
    exact (hx.lastAt level).later (hy.lastAt level)
  status := rfl

/-- Events of other flows do not count. -/
theorem Accounts.append_other (hx : Accounts events flow x)
    (h : ∀ event ∈ events', event.flow ≠ flow) : Accounts (events ++ events') flow x where
  named := hx.named
  total level := by
    rw [times_append, times_eq_nil h, List.append_nil]
    exact hx.total level
  lastAt level := by
    rw [times_append, times_eq_nil h, List.append_nil]
    exact hx.lastAt level
  status := hx.status

theorem Merged.append_other (ho : Merged events flow o)
    (h : ∀ event ∈ events', event.flow ≠ flow) : Merged (events ++ events') flow o := by
  cases o with
  | none => exact List.forall_mem_append.mpr ⟨ho, h⟩
  | some x =>
      obtain ⟨⟨event, hevent, hflow⟩, hx⟩ := ho
      exact ⟨⟨event, List.mem_append_left events' hevent, hflow⟩, hx.append_other h⟩

theorem Merged.perm (h : events.Perm events') (ho : Merged events flow o) :
    Merged events' flow o := by
  cases o with
  | none => exact fun event hevent => ho event (h.mem_iff.mpr hevent)
  | some x =>
      obtain ⟨⟨event, hevent, hflow⟩, hx⟩ := ho
      exact ⟨⟨event, h.mem_iff.mp hevent, hflow⟩, hx.perm h⟩

theorem Merged.eq (ho : Merged events flow o) (ho' : Merged events flow o') : o = o' := by
  cases o with
  | none =>
      cases o' with
      | none => rfl
      | some y =>
          obtain ⟨⟨event, hevent, hflow⟩, -⟩ := ho'
          exact absurd hflow (ho event hevent)
  | some x =>
      obtain ⟨⟨event, hevent, hflow⟩, hx⟩ := ho
      cases o' with
      | none => exact absurd hflow (ho' event hevent)
      | some y => exact congrArg some (hx.eq ho'.2)

/-! ## What the pods report -/

theorem OtlpMetricsStore.lookup_slot_self :
    (st.slot flow).inner.lookup flow = some ((st.inner.lookup flow).getD {}) := by
  rw [slot]
  split
  · rename_i hmem
    obtain ⟨metrics, hmetrics⟩ := Option.isSome_iff_exists.mp (AList.lookup_isSome.mpr hmem)
    rw [hmetrics]
    rfl
  · rename_i hmem
    rw [AList.lookup_insert, AList.lookup_eq_none.mpr hmem]
    rfl

theorem OtlpMetricsStore.lookup_record_self :
    (st.record event).inner.lookup event.flow =
      some (((st.inner.lookup event.flow).getD {}).record event.level event.tsMs) := by
  rw [record, update]
  split
  · rename_i metrics hmetrics
    obtain rfl := Option.some.inj (lookup_slot_self.symm.trans hmetrics)
    exact AList.lookup_insert _
  · rename_i hnone
    rw [lookup_slot_self] at hnone
    cases hnone

theorem OtlpMetricsStore.lookup_record_ne (h : g ≠ event.flow) :
    (st.record event).inner.lookup g = st.inner.lookup g := by
  rw [record, lookup_update_ne h, lookup_slot_ne h]

theorem OtlpMetricsStore.recordAll_concat :
    recordAll (events ++ [event]) = (recordAll events).record event := by
  rw [recordAll, List.foldl_append]
  rfl

/-- One more event, not before the others. -/
theorem Accounts.record (hx : Accounts events event.flow (metrics.snapshot event.flow))
    (hlast : ∀ event' ∈ events, event'.tsMs ≤ event.tsMs) (hpos : event.tsMs ≠ 0) :
    Accounts (events ++ [event]) event.flow
      ((metrics.record event.level event.tsMs).snapshot event.flow) where
  named := rfl
  total level := by
    have hold := hx.total level
    rw [times_append, times_singleton]
    split
    · rename_i hlevel
      have hnew : ((metrics.record event.level event.tsMs).snapshot event.flow).total level =
          (metrics.snapshot event.flow).total level + 1 := by
        subst hlevel
        cases event.level with
        | info | warning | error => rfl
      rw [hnew, hold, List.length_append, UInt64.ofNat_add]
      rfl
    · rename_i hlevel
      have hsame : ((metrics.record event.level event.tsMs).snapshot event.flow).total level =
          (metrics.snapshot event.flow).total level := by
        cases hl : event.level <;> cases level <;> first | rfl | exact absurd hl hlevel
      rw [hsame, hold, List.append_nil]
  lastAt level := by
    have hold := hx.lastAt level
    rw [times_append, times_singleton]
    split
    · rename_i hlevel
      have hnew : ((metrics.record event.level event.tsMs).snapshot event.flow).lastAt level =
          some event.tsMs := by
        have hts : readTs event.tsMs = some event.tsMs := if_neg hpos
        rw [← hts]
        subst hlevel
        cases event.level with
        | info | warning | error => rfl
      rw [hnew]
      refine Latest.concat fun t' ht' => ?_
      obtain ⟨event', hevent', rfl⟩ := List.mem_map.mp ht'
      exact hlast event' (List.mem_of_mem_filter hevent')
    · rename_i hlevel
      have hsame : ((metrics.record event.level event.tsMs).snapshot event.flow).lastAt level =
          (metrics.snapshot event.flow).lastAt level := by
        cases hl : event.level <;> cases level <;> first | rfl | exact absurd hl hlevel
      rw [hsame, List.append_nil]
      exact hold
  status := rfl

theorem accounts_recordAll (hpos : ∀ event ∈ events, event.tsMs ≠ 0)
    (hmono : events.Pairwise fun a b => a.tsMs ≤ b.tsMs) :
    Accounts events flow
      ((((OtlpMetricsStore.recordAll events).inner.lookup flow).getD {}).snapshot flow) := by
  induction events using List.reverseRecOn with
  | nil =>
      exact
        { named := rfl
          total := fun level => by cases level <;> rfl
          lastAt := fun level => by cases level <;> rfl
          status := rfl }
  | append_singleton events event ih =>
      obtain ⟨hmono, -, hlast⟩ := List.pairwise_append.mp hmono
      have hlast : ∀ event' ∈ events, event'.tsMs ≤ event.tsMs := fun event' hevent' =>
        hlast event' hevent' event (List.mem_singleton_self event)
      have hpos' : ∀ event' ∈ events, event'.tsMs ≠ 0 := fun event' hevent' =>
        hpos event' (List.mem_append_left _ hevent')
      rw [OtlpMetricsStore.recordAll_concat]
      by_cases hflow : flow = event.flow
      · subst hflow
        rw [OtlpMetricsStore.lookup_record_self, Option.getD_some]
        exact (ih hpos' hmono).record hlast (hpos event List.mem_concat_self)
      · rw [OtlpMetricsStore.lookup_record_ne hflow]
        refine (ih hpos' hmono).append_other ?_
        intro event' hevent' hflow'
        obtain rfl := List.mem_singleton.mp hevent'
        exact hflow hflow'.symm

theorem lookup_recordAll_eq_none :
    (OtlpMetricsStore.recordAll events).inner.lookup flow = none ↔
      ∀ event ∈ events, event.flow ≠ flow := by
  induction events using List.reverseRecOn with
  | nil =>
      constructor
      · intro _ event hevent
        cases hevent
      · intro _
        rfl
  | append_singleton events event ih =>
      rw [OtlpMetricsStore.recordAll_concat, List.forall_mem_append, List.forall_mem_singleton, ← ih]
      by_cases hflow : flow = event.flow
      · subst hflow
        rw [OtlpMetricsStore.lookup_record_self]
        simp
      · rw [OtlpMetricsStore.lookup_record_ne hflow]
        exact ⟨fun h => ⟨h, Ne.symm hflow⟩, And.left⟩

/-- A pod that has recorded events in the order of time accounts for them. -/
theorem merged_recordAll (hpos : ∀ event ∈ events, event.tsMs ≠ 0)
    (hmono : events.Pairwise fun a b => a.tsMs ≤ b.tsMs) :
    Merged events flow ((OtlpMetricsStore.recordAll events).snapshot flow) := by
  have haccounts : Accounts events flow
      ((((OtlpMetricsStore.recordAll events).inner.lookup flow).getD {}).snapshot flow) :=
    accounts_recordAll hpos hmono
  rw [OtlpMetricsStore.snapshot]
  cases hlookup : (OtlpMetricsStore.recordAll events).inner.lookup flow with
  | none => exact lookup_recordAll_eq_none.mp hlookup
  | some metrics =>
      rw [hlookup] at haccounts
      refine ⟨?_, haccounts⟩
      by_contra hnone
      push Not at hnone
      rw [lookup_recordAll_eq_none.mpr hnone] at hlookup
      cases hlookup

/-- Reports that are merged account for all that was recorded. -/
theorem Merged.flatMap {P : Type} {pods : List P} {recorded : P → List RecordedEvent}
    {report : P → Option FlowMetricsSnapshot}
    (h : ∀ pod ∈ pods, Merged (recorded pod) flow (report pod)) :
    Merged (pods.flatMap recorded) flow (mergeAll (pods.filterMap report)) := by
  induction pods using List.reverseRecOn with
  | nil => exact fun event hevent => by cases hevent
  | append_singleton pods pod ih =>
      have hbefore := ih fun pod' hpod' => h pod' (List.mem_append_left _ hpod')
      have hpod := h pod List.mem_concat_self
      rw [List.flatMap_append, List.flatMap_singleton, List.filterMap_append]
      cases hreport : report pod with
      | none =>
          rw [hreport] at hpod
          rw [List.filterMap_cons_none hreport, List.filterMap_nil, List.append_nil]
          exact hbefore.append_other hpod
      | some y =>
          rw [hreport] at hpod
          rw [List.filterMap_cons_some hreport, List.filterMap_nil, mergeAll_concat]
          cases hmerged : mergeAll (pods.filterMap report) with
          | none =>
              rw [hmerged] at hbefore
              exact (hpod.append_other hbefore).perm List.perm_append_comm
          | some x =>
              rw [hmerged] at hbefore
              obtain ⟨⟨event, hevent, hflow⟩, hx⟩ := hbefore
              exact ⟨⟨event, List.mem_append_left _ hevent, hflow⟩, hx.merge hpod.2⟩

end Accounts

/-- The events that a pod has recorded, of a sequence of events of all pods. -/
def recordedBy {P : Type} [DecidableEq P] (events : List (P × RecordedEvent)) (pod : P) :
    List RecordedEvent :=
  (events.filter (·.1 = pod)).map Prod.snd

section Pods

variable {P : Type} [DecidableEq P] {events : List (P × RecordedEvent)} {pods : List P}

/-- The pods share the events out. -/
theorem flatMap_filter_perm (hpods : pods.Nodup) :
    (pods.flatMap fun pod => events.filter (·.1 = pod)).Perm (events.filter (·.1 ∈ pods)) := by
  induction pods with
  | nil => simp
  | cons pod pods ih =>
      obtain ⟨hnew, hpods⟩ := List.nodup_cons.mp hpods
      have hown : (events.filter (·.1 ∈ pod :: pods)).filter (·.1 = pod) =
          events.filter (·.1 = pod) := by
        rw [List.filter_filter]
        refine List.filter_congr fun e _ => ?_
        by_cases he : e.1 = pod <;> simp [he]
      have hothers : (events.filter (·.1 ∈ pod :: pods)).filter (fun e => !decide (e.1 = pod)) =
          events.filter (·.1 ∈ pods) := by
        rw [List.filter_filter]
        refine List.filter_congr fun e _ => ?_
        by_cases he : e.1 = pod
        · simp [he, hnew]
        · simp [he]
      rw [List.flatMap_cons, ← hown]
      refine ((ih hpods).append_left _).trans ?_
      rw [← hothers]
      exact List.filter_append_perm _ _

theorem flatMap_recordedBy_perm (hpods : pods.Nodup) (hall : ∀ e ∈ events, e.1 ∈ pods) :
    (pods.flatMap (recordedBy events)).Perm (events.map Prod.snd) := by
  have hperm : (pods.flatMap fun pod => events.filter (·.1 = pod)).Perm
      (events.filter (·.1 ∈ pods)) := flatMap_filter_perm hpods
  rw [List.filter_eq_self.mpr fun e he => decide_eq_true (hall e he)] at hperm
  have hmap := hperm.map Prod.snd
  rwa [List.map_flatMap] at hmap

theorem recordedBy_mono (hmono : events.Pairwise fun a b => a.1 = b.1 → a.2.tsMs ≤ b.2.tsMs)
    (pod : P) : (recordedBy events pod).Pairwise fun a b => a.tsMs ≤ b.tsMs := by
  rw [recordedBy, List.pairwise_map, List.pairwise_filter]
  refine hmono.imp ?_
  intro a b h ha hb
  exact h ((of_decide_eq_true ha).trans (of_decide_eq_true hb).symm)

/-- However the events are spread over pods, each of which records its own in the order
of time, and in whatever order the reports are merged: the merged metrics of a flow have
the sums of the counts, the latest timestamps and the status derived from these, as if
one pod had recorded all events. -/
theorem merge_is_one_pod (events : List (P × RecordedEvent))
    (hpos : ∀ e ∈ events, 0 < e.2.tsMs)
    (hmono : events.Pairwise fun a b => a.1 = b.1 → a.2.tsMs ≤ b.2.tsMs)
    (pods : List P) (hpods : pods.Nodup) (hall : ∀ e ∈ events, e.1 ∈ pods)
    (reports : List FlowMetricsSnapshot)
    (hreports : reports.Perm
      (pods.flatMap fun pod => (OtlpMetricsStore.recordAll (recordedBy events pod)).snapshotAll))
    (flow : String) :
    Merged (events.map Prod.snd) flow ((mergeByFlow reports).get flow) ∧
      ∀ all : List RecordedEvent, all.Perm (events.map Prod.snd) →
        all.Pairwise (fun a b => a.tsMs ≤ b.tsMs) →
          (mergeByFlow reports).get flow = (OtlpMetricsStore.recordAll all).snapshot flow := by
  have hpositive : ∀ event ∈ events.map Prod.snd, event.tsMs ≠ 0 := by
    intro event hevent hzero
    obtain ⟨e, he, rfl⟩ := List.mem_map.mp hevent
    exact absurd (hpos e he) (hzero ▸ UInt64.lt_irrefl 0)
  have hreport : ∀ pod ∈ pods, Merged (recordedBy events pod) flow
      ((OtlpMetricsStore.recordAll (recordedBy events pod)).snapshot flow) := by
    intro pod _
    refine merged_recordAll ?_ (recordedBy_mono hmono pod)
    intro event hevent
    obtain ⟨e, he, rfl⟩ := List.mem_map.mp hevent
    exact hpositive e.2 (List.mem_map_of_mem (List.mem_of_mem_filter he))
  have hget : (mergeByFlow reports).get flow = mergeAll (pods.filterMap fun pod =>
      (OtlpMetricsStore.recordAll (recordedBy events pod)).snapshot flow) := by
    have hof : ∀ x ∈ reports.filter (·.flow = flow), x.flow = flow := fun x hx =>
      of_decide_eq_true (List.mem_filter.mp hx).2
    rw [get_mergeByFlow, mergeAll_perm (hreports.filter _) hof, List.filter_flatMap,
      List.filterMap_eq_flatMap_toList]
    simp only [filter_snapshotAll]
  have hmerged : Merged (events.map Prod.snd) flow ((mergeByFlow reports).get flow) := by
    rw [hget]
    exact (Merged.flatMap hreport).perm (flatMap_recordedBy_perm hpods hall)
  refine ⟨hmerged, ?_⟩
  intro all hperm hsorted
  have hone : Merged all flow ((OtlpMetricsStore.recordAll all).snapshot flow) :=
    merged_recordAll (fun event hevent => hpositive event (hperm.mem_iff.mp hevent)) hsorted
  exact hmerged.eq (hone.perm hperm)

end Pods

/-- A pod that is well and one that has failed last: the flow has failed. -/
theorem two_pods_merged :
    ∃ (events : List (String × RecordedEvent)) (reports : List FlowMetricsSnapshot),
      reports = (["q", "p"].flatMap fun pod =>
        (OtlpMetricsStore.recordAll (recordedBy events pod)).snapshotAll).reverse ∧
      ((mergeByFlow reports).get "f").map (fun x => (x.eventsTotal, x.lastEventAtMs, x.status)) =
        some (2, some 8, .error) := by
  let events : List (String × RecordedEvent) :=
    [("p", ⟨"f", .info, 5⟩), ("q", ⟨"f", .info, 8⟩), ("q", ⟨"f", .error, 9⟩), ("p", ⟨"f", .warning, 6⟩)]
  have hone := (merge_is_one_pod events (by decide) (by decide) ["q", "p"] (by decide) (by decide) _
    (List.reverse_perm _) "f").2
      [⟨"f", .info, 5⟩, ⟨"f", .warning, 6⟩, ⟨"f", .info, 8⟩, ⟨"f", .error, 9⟩] (by decide)
      (by decide)
  refine ⟨events, _, rfl, ?_⟩
  rw [hone]
  decide

end Flowgen.Telemetry
