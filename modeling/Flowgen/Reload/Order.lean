/-
# `Flowgen.Reload.Order` — the order of a batch (`app/src/reconciler.rs`)

`reconcile_batch` keeps the last event of each key in a hash map and applies them
in the map's order, which no two processes share.  An event reads and writes the
registry at its own flow only, so the registry is the same in every order.  The
servers' tables are shared: to them an event is a turn of its flow, which gives up
what it has registered and registers anew.

So the order does not matter exactly if no place of the tables is contended
(`orderFree_iff_uncontended`).  It matters for the requests to a path that two new
flows serve, and for a tool that one flow hands to another: if the new flow comes
first, its registration is refused and the tool is gone in the end
(`tool_lost_in_one_order`).
-/
import Flowgen.Reload.Servers

namespace Flowgen.Reload.Servers

open Flowgen.Lib Flowgen.Cache

variable {C V : Type} [DecidableEq C]

section Batch

variable (config : Config C V)

/-- The events as the hash map of a batch may yield them: the last of each key. -/
def Iterates (batch events : List (WatchEvent C)) : Prop :=
  events.Perm (coalesce WatchEvent.key batch)

/-- The loop of `reconcile_batch`. -/
def reconcileBatch (s : State C V) (events : List (WatchEvent C)) : State C V :=
  events.foldl (reconcile config) s

/-- Registry and servers end up the same, whatever the order. -/
def OrderFree (s : State C V) (batch : List (WatchEvent C)) : Prop :=
  ∀ events events', Iterates batch events → Iterates batch events' →
    reconcileBatch config s events = reconcileBatch config s events'

/-- The event starts a flow that registers the place. -/
def Registers (registry : Registry C) (event : WatchEvent C) (place : Place) : Prop :=
  ∃ key value flow tasks, event = .put key value ∧
    prepare config registry key value = .ok (flow, tasks) ∧
      ∃ setups, startTasks tasks = .ok setups ∧ ∃ setup ∈ setups, setup.place flow = place

/-- The event stops the flow: it is replaced, or removed. -/
def Stops (registry : Registry C) (event : WatchEvent C) (flow : String) : Prop :=
  (registry flow).isSome = true ∧
    ((∃ key value tasks, event = .put key value ∧
        prepare config registry key value = .ok (flow, tasks)) ∨
      ∃ key, event = .delete key ∧ deriveFlowName config.keyPrefix key = some flow ∧
        flow ∉ config.filesystemFlowPaths)

/-- Of the events of a batch at most one registers the place, or it is a place that
refuses: then nobody does whose registration a flow gives up without renewing it. -/
def Undisputed (s : State C V) (events : List (WatchEvent C)) (place : Place) : Prop :=
  match place.policy, s.servers.table place with
  | .refuse, some entry =>
      ∀ event ∈ events, Stops config s.registry event entry.1 →
        ¬ Registers config s.registry event place →
          ∀ event' ∈ events, ¬ Registers config s.registry event' place
  | _, _ =>
      ∀ event ∈ events, ∀ event' ∈ events, Registers config s.registry event place →
        Registers config s.registry event' place → event = event'

/-! ## An event is a turn of its flow -/

/-- What the event does to the servers' tables. -/
def turn (registry : Registry C) : WatchEvent C → Option (Turn Place String V)
  | .put key value =>
      match prepare config registry key value with
      | .error _ => none
      | .ok (flow, tasks) =>
          some
            { owner := flow
              withdraws := (registry flow).isSome
              entries := ((startTasks tasks).toOption.getD []).map fun setup =>
                (setup.place flow, setup.registration) }
  | .delete key =>
      match deriveFlowName config.keyPrefix key with
      | none => none
      | some flow =>
          if flow ∈ config.filesystemFlowPaths then none
          else some { owner := flow, withdraws := (registry flow).isSome, entries := [] }

attribute [grind =] turn

end Batch

variable {config : Config C V} {s : State C V} {registry registry' : Registry C}
  {event : WatchEvent C} {events events' batch : List (WatchEvent C)} {flow : String} {place : Place}

theorem turn_owner {m : Turn Place String V} (h : turn config registry event = some m) :
    deriveFlowName config.keyPrefix event.key = some m.owner ∧
      m.withdraws = (registry m.owner).isSome := by
  cases event with
  | put key value =>
      simp only [turn] at h
      split at h
      · cases h
      · rename_i flow tasks hprepare
        cases h
        exact ⟨(prepare_eq_ok.mp hprepare).1, rfl⟩
  | delete key =>
      simp only [turn] at h
      split at h
      · cases h
      · rename_i flow hflow
        obtain ⟨-, h⟩ := Option.ite_none_left_eq_some.mp h
        cases h
        exact ⟨hflow, rfl⟩

theorem takes_turn :
    Takes (turn config registry) event place ↔ Registers config registry event place := by
  constructor
  · rintro ⟨m, hm, entry, hentry, rfl⟩
    cases event with
    | put key value =>
        simp only [turn] at hm
        split at hm
        · cases hm
        · rename_i flow tasks hprepare
          cases hm
          cases hstart : startTasks tasks with
          | error e =>
              rw [hstart] at hentry
              cases hentry
          | ok setups =>
              rw [hstart] at hentry
              obtain ⟨setup, hsetup, rfl⟩ := List.mem_map.mp hentry
              exact ⟨key, value, flow, tasks, rfl, hprepare, setups, hstart, setup, hsetup, rfl⟩
    | delete key =>
        simp only [turn] at hm
        split at hm
        · cases hm
        · obtain ⟨-, hm⟩ := Option.ite_none_left_eq_some.mp hm
          cases hm
          cases hentry
  · rintro ⟨key, value, flow, tasks, rfl, hprepare, setups, hstart, setup, hsetup, rfl⟩
    refine ⟨_, by simp only [turn, hprepare]; rfl, (setup.place flow, setup.registration), ?_, rfl⟩
    simp only [hstart]
    exact List.mem_map_of_mem hsetup

theorem leaves_turn :
    Leaves (turn config registry) event flow ↔ Stops config registry event flow := by
  constructor
  · rintro ⟨m, hm, rfl, hw⟩
    refine ⟨(turn_owner hm).2.symm.trans hw, ?_⟩
    cases event with
    | put key value =>
        simp only [turn] at hm
        split at hm
        · cases hm
        · rename_i flow tasks hprepare
          cases hm
          exact .inl ⟨key, value, tasks, rfl, hprepare⟩
    | delete key =>
        simp only [turn] at hm
        split at hm
        · cases hm
        · rename_i flow hflow
          obtain ⟨hfs, hm⟩ := Option.ite_none_left_eq_some.mp hm
          cases hm
          exact .inr ⟨key, rfl, hflow, hfs⟩
  · rintro ⟨hruns, ⟨key, value, tasks, rfl, hprepare⟩ | ⟨key, rfl, hflow, hfs⟩⟩
    · exact ⟨_, by simp only [turn, hprepare]; rfl, rfl, hruns⟩
    · exact ⟨_, by simp only [turn, hflow, if_neg hfs]; rfl, rfl, hruns⟩

theorem undisputed_iff : Undisputed config s events place ↔
    Uncontended Place.policy (turn config s.registry) s.servers.table events place := by
  simp only [Undisputed, Uncontended, takes_turn, leaves_turn]
  cases place.policy with
  | replace => rfl
  | refuse => cases s.servers.table place <;> rfl

omit [DecidableEq C] in
theorem table_register {servers : FlowServers V} {setups : List (Setup V)} :
    (setups.foldl (·.register flow ·) servers).table =
      (setups.map fun setup => (setup.place flow, setup.registration)).foldl
        (Names.enter Place.policy · flow ·) servers.table := by
  induction setups generalizing servers with
  | nil => rfl
  | cons setup setups ih => exact ih

omit [DecidableEq C] in
theorem table_stopAndDeregister : (s.stopAndDeregister flow).servers.table =
    if (s.registry flow).isSome then s.servers.table.withdraw flow else s.servers.table := by
  rw [State.stopAndDeregister]
  cases s.registry flow with
  | none => rfl
  | some handle => rfl

/-- To the tables an event is the turn of its flow. -/
theorem table_reconcile : (reconcile config s event).servers.table =
    Names.step Place.policy (turn config s.registry) s.servers.table event := by
  rw [Names.step]
  cases event with
  | put key value =>
      rw [reconcile, reconcilePut, turn]
      cases prepare config s.registry key value with
      | error e => rfl
      | ok new =>
          obtain ⟨flow, tasks⟩ := new
          simp only [Turn.apply, ← table_stopAndDeregister]
          cases hstart : startTasks tasks with
          | error e => rfl
          | ok setups => exact table_register
  | delete key =>
      rw [reconcile, reconcileDelete, turn]
      cases deriveFlowName config.keyPrefix key with
      | none => rfl
      | some flow =>
          by_cases hfs : flow ∈ config.filesystemFlowPaths
          · simp only [if_pos hfs]
          · simp only [if_neg hfs, Turn.apply, ← table_stopAndDeregister]
            rfl

/-! ## An event concerns its own flow only -/

/-- The flow of the event is the only one that changes. -/
theorem reconcile_of_ne {config : Reload.Config C}
    (h : deriveFlowName config.keyPrefix event.key ≠ some flow) :
    Reload.reconcile config registry event flow = registry flow := by
  have happ : Applied config registry event (Reload.reconcile config registry event) :=
    reconcile_applied
  generalize Reload.reconcile config registry event = registry' at happ ⊢
  cases happ with
  | kept => rfl
  | stopped hflow _ | started hflow _ _ =>
      refine Function.update_of_ne ?_ ..
      rintro rfl
      exact h hflow

/-- What becomes of the flow of the event depends on this flow only. -/
theorem reconcile_congr {config : Reload.Config C}
    (hflow : deriveFlowName config.keyPrefix event.key = some flow)
    (h : registry flow = registry' flow) :
    Reload.reconcile config registry event flow = Reload.reconcile config registry' event flow := by
  cases event with
  | put key value =>
      replace hflow : deriveFlowName config.keyPrefix key = some flow := hflow
      have hruns : runsSource registry flow value = runsSource registry' flow value := by
        rw [runsSource, runsSource, h]
      simp only [Reload.reconcile, Reload.reconcilePut, hflow, hruns]
      split_ifs <;> first | exact h | simp only [Function.update_self]
  | delete key =>
      replace hflow : deriveFlowName config.keyPrefix key = some flow := hflow
      simp only [Reload.reconcile, Reload.reconcileDelete, hflow]
      split_ifs
      · exact h
      · simp only [Function.update_self]

theorem prepare_congr {key : String} {value : C}
    (h : ∀ flow, deriveFlowName config.keyPrefix key = some flow → registry flow = registry' flow) :
    prepare config registry key value = prepare config registry' key value := by
  cases hflow : deriveFlowName config.keyPrefix key with
  | none => simp only [prepare, hflow]
  | some flow =>
      have hruns : runsSource registry flow value = runsSource registry' flow value := by
        rw [runsSource, runsSource, h flow hflow]
      simp only [prepare, hflow, hruns]

theorem turn_congr
    (h : ∀ flow, deriveFlowName config.keyPrefix event.key = some flow →
      registry flow = registry' flow) : turn config registry event = turn config registry' event := by
  cases event with
  | put key value =>
      have hprepare : prepare config registry key value = prepare config registry' key value :=
        prepare_congr h
      rw [turn, turn, hprepare]
      cases hnew : prepare config registry' key value with
      | error e => rfl
      | ok new =>
          have hsame : registry new.1 = registry' new.1 := h new.1 (prepare_eq_ok.mp hnew).1
          simp only [hsame]
  | delete key =>
      rw [turn, turn]
      cases hflow : deriveFlowName config.keyPrefix key with
      | none => rfl
      | some flow =>
          have hsame : registry flow = registry' flow := h flow hflow
          simp only [hsame]

/-! ## The events of a batch -/

theorem registry_reconcileBatch : (reconcileBatch config s events).registry =
    events.foldl (Reload.reconcile config.toReload) s.registry := by
  rw [reconcileBatch]
  induction events generalizing s with
  | nil => rfl
  | cons event events ih => rw [List.foldl_cons, ih, registry_reconcile, List.foldl_cons]

/-- Where no two events are of one key, each finds the registry as it was before the
batch at its own flow. -/
theorem table_reconcileBatch (hkeys : (events.map WatchEvent.key).Nodup) :
    (reconcileBatch config s events).servers.table =
      events.foldl (Names.step Place.policy (turn config s.registry)) s.servers.table := by
  rw [reconcileBatch]
  induction events generalizing s with
  | nil => rfl
  | cons event events ih =>
      obtain ⟨hnew, hkeys⟩ := List.nodup_cons.mp hkeys
      rw [List.foldl_cons, ih hkeys, table_reconcile, List.foldl_cons]
      refine List.foldl_ext _ _ _ ?_
      intro table event' hevent'
      have hturn : turn config (reconcile config s event).registry event' =
          turn config s.registry event' := by
        refine turn_congr fun flow hflow => ?_
        rw [registry_reconcile]
        refine reconcile_of_ne ?_
        intro hflow'
        have hkey : event.key = event'.key := key_of_flow hflow' hflow
        exact hnew (hkey ▸ List.mem_map_of_mem hevent')
      rw [Names.step, Names.step, hturn]

omit [DecidableEq C] in
theorem eq_of_key (hkeys : (events.map WatchEvent.key).Nodup) {event' : WatchEvent C}
    (h : event ∈ events) (h' : event' ∈ events) (hkey : event.key = event'.key) : event = event' :=
  List.inj_on_of_nodup_map hkeys h h' hkey

/-- Events of different keys can be swapped. -/
theorem reconcile_comm {config : Reload.Config C} {event' : WatchEvent C}
    (hne : event.key ≠ event'.key) :
    Reload.reconcile config (Reload.reconcile config registry event) event' =
      Reload.reconcile config (Reload.reconcile config registry event') event := by
  funext flow
  by_cases hflow : deriveFlowName config.keyPrefix event.key = some flow
  · have hother : deriveFlowName config.keyPrefix event'.key ≠ some flow := fun hflow' =>
      hne (key_unique hflow hflow')
    rw [reconcile_of_ne hother]
    exact reconcile_congr hflow (reconcile_of_ne hother).symm
  · have hback : Reload.reconcile config (Reload.reconcile config registry event') event flow =
        Reload.reconcile config registry event' flow := reconcile_of_ne hflow
    rw [hback]
    by_cases hflow' : deriveFlowName config.keyPrefix event'.key = some flow
    · exact reconcile_congr hflow' (reconcile_of_ne hflow)
    · rw [reconcile_of_ne hflow', reconcile_of_ne hflow', reconcile_of_ne hflow]

/-- The registry is the same in every order. -/
theorem registry_perm (hkeys : (events.map WatchEvent.key).Nodup) (hperm : events'.Perm events) :
    (reconcileBatch config s events').registry = (reconcileBatch config s events).registry := by
  rw [registry_reconcileBatch, registry_reconcileBatch]
  refine hperm.foldl_eq' ?_ s.registry
  intro event hevent event' hevent' registry
  by_cases hkey : event.key = event'.key
  · obtain rfl := eq_of_key hkeys (hperm.mem_iff.mp hevent) (hperm.mem_iff.mp hevent') hkey
    rfl
  · exact reconcile_comm hkey

theorem oneTurnEach (hkeys : (events.map WatchEvent.key).Nodup) :
    OneTurnEach (turn config registry) events where
  nodup := hkeys.of_map
  owner event hevent event' hevent' m m' hm hm' howner := by
    refine eq_of_key hkeys hevent hevent' ?_
    have hflow := (turn_owner hm').1
    rw [← howner] at hflow
    exact key_of_flow (turn_owner hm).1 hflow

/-- The order of a batch does not matter if and only if no place is disputed. -/
theorem orderFree_iff_undisputed (config : Config C V) (s : State C V)
    (batch : List (WatchEvent C)) :
    OrderFree config s batch ↔
      ∀ place, Undisputed config s (coalesce WatchEvent.key batch) place := by
  have hkeys : ((coalesce WatchEvent.key batch).map WatchEvent.key).Nodup := nodup_coalesce
  have hturns : OneTurnEach (turn config s.registry) (coalesce WatchEvent.key batch) :=
    oneTurnEach hkeys
  have htable : ∀ events : List (WatchEvent C), events.Perm (coalesce WatchEvent.key batch) →
      (reconcileBatch config s events).servers.table =
        events.foldl (Names.step Place.policy (turn config s.registry)) s.servers.table :=
    fun events hperm => table_reconcileBatch ((hperm.map _).nodup_iff.mpr hkeys)
  simp only [undisputed_iff]
  rw [← orderFree_iff hturns]
  constructor
  · intro h events hperm
    rw [← htable events hperm, ← htable _ (List.Perm.refl _), h events _ hperm (List.Perm.refl _)]
  · intro h
    have hone : ∀ events, Iterates batch events → reconcileBatch config s events =
        reconcileBatch config s (coalesce WatchEvent.key batch) := by
      intro events hperm
      refine State.ext (registry_perm hkeys hperm) (FlowServers.ext ?_)
      rw [htable events hperm, h events hperm, htable _ (List.Perm.refl _)]
    intro events events' hperm hperm'
    rw [hone events hperm, hone events' hperm']

/-- The flow `a` is deleted, and `b` is added with the tool of `a`.  If `b` comes first,
the name is taken, and then it is removed. -/
theorem tool_lost_in_one_order :
    ∃ (s : State String Unit) (batch events events' : List (WatchEvent String)),
      Iterates batch events ∧ Iterates batch events' ∧
        (reconcileBatch (tools []) s events).servers.table (.tool "greet") = some ("b", ()) ∧
          (reconcileBatch (tools []) s events').servers.table (.tool "greet") = none ∧
            ¬ OrderFree (tools []) s batch := by
  let s := reconcilePut (tools []) ⟨fun _ => none, .empty⟩ "flows.a" "greet"
  let remove : WatchEvent String := .delete "flows.a"
  let add : WatchEvent String := .put "flows.b" "greet"
  have hfirst : Iterates [remove, add] [remove, add] := by
    rw [Iterates]
    decide
  have hlast : Iterates [remove, add] [add, remove] := by
    rw [Iterates]
    decide
  have hkept : (reconcileBatch (tools []) s [remove, add]).servers.table (.tool "greet") =
      some ("b", ()) := by
    decide
  have hlost : (reconcileBatch (tools []) s [add, remove]).servers.table (.tool "greet") = none := by
    decide
  refine ⟨s, [remove, add], [remove, add], [add, remove], hfirst, hlast, hkept, hlost, ?_⟩
  intro h
  rw [h _ _ hfirst hlast, hlost] at hkept
  cases hkept

end Flowgen.Reload.Servers
