/-
# `Flowgen.Nats.Streams` — one stream set up by many tasks (`nats/src/jetstream/stream.rs`)

Translated from `create_or_update_stream`.  Every publisher and subscriber with
`create_or_update` brings its stream up to its options when it starts: it reads the
stream, puts its own subjects and settings over what it has read, and writes the whole.
Tasks of many flows do so for one stream, in any order, again after every failure.

A stream that is there already is not created again, for the server compares.  An update it
does not compare.  So an update made from an old reading takes back what others have set in
between, as the last example shows.  Where every update is made from what is there (`Fresh`),

    the stream that results depends on which tasks have set it up
    and on nothing else, if the tasks do not contradict each other

(`same_of_applied`), and no subject that a task has been granted is ever lost.

`allow_batch_publish` can be configured and is not carried over.
-/
import Flowgen.Lib.Machine

namespace Flowgen.Nats.Streams

open Flowgen.Lib

/-! ## The source -/

inductive RetentionPolicy
  | limits
  | interest
  | workQueue
deriving DecidableEq

inductive DiscardPolicy
  | old
  | new
deriving DecidableEq

/-- The fields of `Config` that options set. -/
inductive Setting
  | description
  | maxMessagesPerSubject
  | maxMessages
  | maxBytes
  | maxMessageSize
  | maxConsumers
  | discard
  | discardNewPerSubject
  | retention
  | maxAge
  | duplicateWindow
  | denyDelete
  | denyPurge
  | allowRollup
  | allowDirect
deriving DecidableEq

instance : Fintype Setting where
  elems := {.description, .maxMessagesPerSubject, .maxMessages, .maxBytes, .maxMessageSize,
    .maxConsumers, .discard, .discardNewPerSubject, .retention, .maxAge, .duplicateWindow,
    .denyDelete, .denyPurge, .allowRollup, .allowDirect}
  complete k := by cases k <;> decide

/-- What a setting is; durations are in nanoseconds. -/
abbrev Setting.Value : Setting → Type
  | .description => Option String
  | .maxMessagesPerSubject | .maxMessages | .maxBytes => Int64
  | .maxMessageSize | .maxConsumers => Int32
  | .discard => DiscardPolicy
  | .retention => RetentionPolicy
  | .maxAge | .duplicateWindow => Nat
  | .discardNewPerSubject | .denyDelete | .denyPurge | .allowRollup | .allowDirect => Bool

instance : ∀ k : Setting, DecidableEq k.Value
  | .description => inferInstanceAs (DecidableEq (Option String))
  | .maxMessagesPerSubject | .maxMessages | .maxBytes => inferInstanceAs (DecidableEq Int64)
  | .maxMessageSize | .maxConsumers => inferInstanceAs (DecidableEq Int32)
  | .discard => inferInstanceAs (DecidableEq DiscardPolicy)
  | .retention => inferInstanceAs (DecidableEq RetentionPolicy)
  | .maxAge | .duplicateWindow => inferInstanceAs (DecidableEq Nat)
  | .discardNewPerSubject | .denyDelete | .denyPurge | .allowRollup | .allowDirect =>
      inferInstanceAs (DecidableEq Bool)

/-- `StreamOptions`: an option is `some` where it is configured. -/
structure StreamOptions where
  name : String
  subjects : List String
  settings : (k : Setting) → Option k.Value

structure Config where
  name : String
  subjects : List String
  settings : (k : Setting) → k.Value
deriving DecidableEq

/-- `Config::default`. -/
def defaultSettings : (k : Setting) → k.Value
  | .description => none
  | .maxMessagesPerSubject | .maxMessages | .maxBytes => 0
  | .maxMessageSize | .maxConsumers => 0
  | .discard => .old
  | .retention => .limits
  | .maxAge | .duplicateWindow => (0 : Nat)
  | .discardNewPerSubject | .denyDelete | .denyPurge | .allowRollup | .allowDirect => false

/-- `extend`, `sort` and `dedup`, if there is anything to add. -/
def mergeSubjects (existing new : List String) : List String :=
  if new = [] then existing else ((existing ++ new).insertionSort (· ≤ ·)).destutter (· ≠ ·)

def updatedConfig (opts : StreamOptions) (existing : Config) : Config where
  name := opts.name
  subjects := mergeSubjects existing.subjects opts.subjects
  settings k := (opts.settings k).getD (existing.settings k)

def createdConfig (opts : StreamOptions) : Config where
  name := opts.name
  subjects := if opts.subjects = [] then [">"] else opts.subjects
  settings k := (opts.settings k).getD (defaultSettings k)

/-- How far a task is: it has not asked, or it knows the answer to `get_stream`. -/
inductive Phase
  | idle
  | read (existing : Option Config)

/-- The stream on the server, the tasks, whose options have been applied, and who was told so. -/
structure State (κ : Type) where
  stream : Option Config
  phase : κ → Phase
  applied : List κ
  granted : List κ

inductive Action (κ : Type)
  | get (who : κ)
  /-- Whatever error `get_stream` gives, it counts as a stream that is not there. -/
  | getFailed (who : κ)
  | write (who : κ)
  /-- A request or its answer is lost before the server has it; the task begins anew. -/
  | failed (who : κ)

section Setup

variable {κ : Type} [DecidableEq κ] (opts : κ → StreamOptions)
  (accepts : Option Config → Config → Bool)

def State.setPhase (s : State κ) (who : κ) (phase : Phase) : State κ :=
  { s with phase := Function.update s.phase who phase }

/-- The server has put a configuration in the place of the stream's. -/
def State.apply (s : State κ) (who : κ) (config : Config) : State κ :=
  { s.setPhase who .idle with
    stream := some config
    applied := s.applied ++ [who]
    granted := s.granted ++ [who] }

/-- One step of `create_or_update_stream`; what the server `accepts` is for the server. -/
def step (s : State κ) : Action κ → Option (State κ)
  | .get who =>
      match s.phase who with
      | .idle => some (s.setPhase who (.read s.stream))
      | .read _ => none
  | .getFailed who =>
      match s.phase who with
      | .idle => some (s.setPhase who (.read none))
      | .read _ => none
  | .write who =>
      match s.phase who with
      | .idle => none
      | .read (some existing) =>
          if s.stream.isSome && accepts s.stream (updatedConfig (opts who) existing) then
            some (s.apply who (updatedConfig (opts who) existing))
          else some (s.setPhase who .idle)
      | .read none =>
          match s.stream with
          | none =>
              if accepts none (createdConfig (opts who)) then
                some (s.apply who (createdConfig (opts who)))
              else some (s.setPhase who .idle)
          | some current =>
              -- a stream of the name is there, and it is the same or the name is in use
              if current = createdConfig (opts who) then
                some { s.setPhase who .idle with granted := s.granted ++ [who] }
              else some (s.setPhase who .idle)
  | .failed who =>
      match s.phase who with
      | .idle => none
      | .read _ => some (s.setPhase who .idle)

def machine (initial : Option Config) : Machine (State κ) (Action κ) where
  init s := s = ⟨initial, fun _ => .idle, [], []⟩
  step := step opts accepts

/-- An update is made from the stream as it is. -/
def Fresh (s : State κ) : Action κ → Prop
  | .write who => ∀ existing, s.phase who = .read (some existing) → s.stream = some existing
  | _ => True

end Setup

/-! ## Subjects and settings -/

variable {κ : Type} {opts : κ → StreamOptions} {accepts : Option Config → Config → Bool}
  {initial : Option Config} {existing new : List String} {config config' : Config}
  {applied applied' : List κ} {who : κ} {x : String}

theorem mem_destutter' {a : String} {l : List String} :
    x ∈ l.destutter' (· ≠ ·) a ↔ x = a ∨ x ∈ l := by
  induction l generalizing a with
  | nil => rw [List.destutter'_nil, List.mem_singleton, or_iff_left List.not_mem_nil]
  | cons b l ih =>
      by_cases h : a ≠ b
      · rw [List.destutter'_cons_pos _ h, List.mem_cons, ih, List.mem_cons]
      · rw [List.destutter'_cons_neg _ h, ih, List.mem_cons]
        have hab : a = b := not_not.mp h
        subst hab
        tauto

/-- Nothing is added and nothing is lost. -/
theorem mem_mergeSubjects : x ∈ mergeSubjects existing new ↔ x ∈ existing ∨ x ∈ new := by
  rw [mergeSubjects]
  split
  · rename_i hnil
    rw [hnil, or_iff_left List.not_mem_nil]
  · have hsort := (List.perm_insertionSort (· ≤ ·) (existing ++ new)).mem_iff (a := x)
    rw [← List.mem_append, ← hsort]
    cases (existing ++ new).insertionSort (· ≤ ·) with
    | nil => rfl
    | cons a l => rw [List.destutter_cons', mem_destutter', List.mem_cons]

/-! ## What tasks make of a stream -/

/-- The tasks do not set the same thing differently. -/
def Compatible (opts : κ → StreamOptions) : Prop :=
  ∀ k who who' v v', (opts who).settings k = some v → (opts who').settings k = some v' → v = v'

/-- The stream is as it was, but for what the tasks have brought. -/
structure Described (opts : κ → StreamOptions) (initial : Option Config) (applied : List κ)
    (config : Config) : Prop where
  begun : initial = none → applied ≠ []
  subjects : ∀ x, x ∈ config.subjects ↔
    (∃ c, initial = some c ∧ x ∈ c.subjects) ∨ ∃ who ∈ applied, x ∈ (opts who).subjects
  set : ∀ k who v, who ∈ applied → (opts who).settings k = some v → config.settings k = v
  unset : ∀ k, (∀ who ∈ applied, (opts who).settings k = none) →
    config.settings k = initial.elim (defaultSettings k) fun c => c.settings k

/-- Two streams with the same settings and the same subjects, in any order. -/
def Same (config config' : Config) : Prop :=
  config.settings = config'.settings ∧ ∀ x, x ∈ config.subjects ↔ x ∈ config'.subjects

theorem described_initial : Described opts (some config) [] config where
  begun h := by cases h
  subjects x := by simp
  set k who v h := by cases h
  unset k _ := rfl

/-- An update of what is described is described. -/
theorem Described.update (hcompat : Compatible opts) (h : Described opts initial applied config) :
    Described opts initial (applied ++ [who]) (updatedConfig (opts who) config) where
  begun _ := List.append_ne_nil_of_right_ne_nil _ (List.cons_ne_nil _ _)
  subjects x := by
    show x ∈ mergeSubjects _ _ ↔ _
    rw [mem_mergeSubjects, h.subjects]
    simp only [List.mem_append, List.mem_singleton]
    aesop
  set k who' v hmem hv := by
    show ((opts who).settings k).getD (config.settings k) = v
    cases hwho : (opts who).settings k with
    | some v' => exact hcompat k who who' v' v hwho hv
    | none =>
        rcases List.mem_append.mp hmem with hmem | hmem
        · exact h.set k who' v hmem hv
        · rw [List.mem_singleton.mp hmem, hwho] at hv
          cases hv
  unset k hnone := by
    show ((opts who).settings k).getD (config.settings k) = _
    rw [hnone who (List.mem_append_right _ List.mem_cons_self)]
    exact h.unset k fun who' hmem => hnone who' (List.mem_append_left _ hmem)

theorem described_create (hsubjects : (opts who).subjects ≠ []) :
    Described opts none [who] (createdConfig (opts who)) where
  begun _ := List.cons_ne_nil _ _
  subjects x := by
    show x ∈ (if _ then _ else _) ↔ _
    rw [if_neg hsubjects]
    simp
  set k who' v hmem hv := by
    rw [List.mem_singleton.mp hmem] at hv
    show ((opts who).settings k).getD _ = v
    rw [hv]
    rfl
  unset k hnone := by
    show ((opts who).settings k).getD _ = _
    rw [hnone who List.mem_cons_self]
    rfl

/-- What is described by the same tasks is the same. -/
theorem Described.same (h : Described opts initial applied config)
    (h' : Described opts initial applied' config') (hmem : ∀ who, who ∈ applied ↔ who ∈ applied') :
    Same config config' := by
  constructor
  · funext k
    by_cases hset : ∃ who ∈ applied, (opts who).settings k ≠ none
    · obtain ⟨who, hwho, hne⟩ := hset
      obtain ⟨v, hv⟩ := Option.ne_none_iff_exists'.mp hne
      rw [h.set k who v hwho hv, h'.set k who v ((hmem who).mp hwho) hv]
    · have hnone : ∀ who ∈ applied, (opts who).settings k = none := by
        intro who hwho
        by_contra hne
        exact hset ⟨who, hwho, hne⟩
      rw [h.unset k hnone, h'.unset k fun who hwho => hnone who ((hmem who).mpr hwho)]
  · intro x
    rw [h.subjects, h'.subjects]
    simp only [hmem]

/-! ## Runs -/

variable [DecidableEq κ] {s t s' : State κ}

/-- What a step makes of the stream, if updates are made from what is there. -/
theorem step_cases {a : Action κ} (ha : Fresh s a) (h : step opts accepts s a = some t) :
    (t.stream = s.stream ∧ t.applied = s.applied ∧
      (t.granted = s.granted ∨ ∃ who, t.granted = s.granted ++ [who] ∧
        s.stream = some (createdConfig (opts who)))) ∨
    ∃ who, t.applied = s.applied ++ [who] ∧ t.granted = s.granted ++ [who] ∧
      ((s.stream = none ∧ t.stream = some (createdConfig (opts who))) ∨
        ∃ existing, s.stream = some existing ∧
          t.stream = some (updatedConfig (opts who) existing)) := by
  cases a with
  | get who =>
      rw [step] at h
      split at h
      · cases h
        exact .inl ⟨rfl, rfl, .inl rfl⟩
      · cases h
  | getFailed who =>
      rw [step] at h
      split at h
      · cases h
        exact .inl ⟨rfl, rfl, .inl rfl⟩
      · cases h
  | failed who =>
      rw [step] at h
      split at h
      · cases h
      · cases h
        exact .inl ⟨rfl, rfl, .inl rfl⟩
  | write who =>
      rw [step] at h
      split at h
      · cases h
      · rename_i existing hphase
        have hstream := ha existing hphase
        split at h
        · cases h
          exact .inr ⟨who, rfl, rfl, .inr ⟨existing, hstream, rfl⟩⟩
        · cases h
          exact .inl ⟨rfl, rfl, .inl rfl⟩
      · split at h
        · rename_i hnone
          split at h
          · cases h
            exact .inr ⟨who, rfl, rfl, .inl ⟨hnone, rfl⟩⟩
          · cases h
            exact .inl ⟨rfl, rfl, .inl rfl⟩
        · rename_i current hcurrent
          split at h
          · rename_i heq
            cases h
            exact .inl ⟨rfl, rfl, .inr ⟨who, rfl, heq ▸ hcurrent⟩⟩
          · cases h
            exact .inl ⟨rfl, rfl, .inl rfl⟩

omit [DecidableEq κ] in
theorem subjects_createdConfig (hx : x ∈ (opts who).subjects) :
    x ∈ (createdConfig (opts who)).subjects := by
  show x ∈ (if _ then _ else _)
  rwa [if_neg (List.ne_nil_of_mem hx)]

omit [DecidableEq κ] in
theorem subjects_updatedConfig :
    x ∈ (updatedConfig (opts who) config).subjects ↔ x ∈ config.subjects ∨ x ∈ (opts who).subjects :=
  mem_mergeSubjects

/-- The stream has the subjects of all who were told that it is set up. -/
def HasGranted (opts : κ → StreamOptions) (s : State κ) : Prop :=
  ∀ who ∈ s.granted, ∀ x ∈ (opts who).subjects, ∃ c, s.stream = some c ∧ x ∈ c.subjects

/-- **No subject is lost** in a run whose updates are all made from the stream as it is: it has the
subjects of every task that was told it is set up, however often others have set it up since. -/
theorem subjects_of_granted (h : (machine opts accepts initial).ReachableBy Fresh s) :
    HasGranted opts s := by
  refine h.invariant ?_ ?_
  · rintro s rfl who hwho
    cases hwho
  · intro s a t hi ha hstep who hwho x hx
    rcases step_cases ha hstep with ⟨hstream, -, hgranted⟩ | ⟨who', -, hgranted, hset⟩
    · rw [hstream]
      rcases hgranted with hgranted | ⟨who', hgranted, hcreated⟩
      · rw [hgranted] at hwho
        exact hi who hwho x hx
      · rw [hgranted] at hwho
        rcases List.mem_append.mp hwho with hwho | hwho
        · exact hi who hwho x hx
        · rw [List.mem_singleton.mp hwho] at hx
          exact ⟨_, hcreated, subjects_createdConfig hx⟩
    · rw [hgranted] at hwho
      rcases hset with ⟨hnone, ht⟩ | ⟨existing, hexisting, ht⟩
      · refine ⟨_, ht, ?_⟩
        rcases List.mem_append.mp hwho with hwho | hwho
        · obtain ⟨c, hc, -⟩ := hi who hwho x hx
          rw [hnone] at hc
          cases hc
        · rw [List.mem_singleton.mp hwho] at hx
          exact subjects_createdConfig hx
      · refine ⟨_, ht, subjects_updatedConfig.mpr ?_⟩
        rcases List.mem_append.mp hwho with hwho | hwho
        · obtain ⟨c, hc, hmem⟩ := hi who hwho x hx
          rw [hexisting] at hc
          cases hc
          exact .inl hmem
        · rw [List.mem_singleton.mp hwho] at hx
          exact .inr hx

/-- The stream is what the tasks that have set it up have made of the one there was. -/
def StreamDescribed (opts : κ → StreamOptions) (initial : Option Config) (s : State κ) : Prop :=
  match s.stream with
  | none => initial = none ∧ s.applied = []
  | some c => Described opts initial s.applied c

theorem streamDescribed (hcompat : Compatible opts)
    (hsubjects : initial = none → ∀ who, (opts who).subjects ≠ [])
    (h : (machine opts accepts initial).ReachableBy Fresh s) : StreamDescribed opts initial s := by
  refine h.invariant ?_ ?_
  · rintro s rfl
    cases initial with
    | none => exact ⟨rfl, rfl⟩
    | some c => exact described_initial
  · intro s a t hi ha hstep
    rw [StreamDescribed] at hi
    rcases step_cases ha hstep with ⟨hstream, happlied, -⟩ | ⟨who, happlied, -, hset⟩
    · rw [StreamDescribed, hstream, happlied]
      exact hi
    · rcases hset with ⟨hnone, ht⟩ | ⟨existing, hexisting, ht⟩
      · rw [hnone] at hi
        obtain ⟨rfl, hnil⟩ := hi
        rw [StreamDescribed, ht, happlied, hnil]
        exact described_create (hsubjects rfl who)
      · rw [hexisting] at hi
        rw [StreamDescribed, ht, happlied]
        exact hi.update hcompat

/-- A publisher of orders that keeps them for an hour, and one of invoices. -/
def shop : Bool → StreamOptions
  | true => ⟨"shop", ["orders.*"], fun
      | .maxAge => some (3600 * 10 ^ 9 : Nat)
      | _ => none⟩
  | false => ⟨"shop", ["invoices.*"], fun _ => none⟩

theorem shop_compatible : Compatible shop := by
  intro k who who' v v' hv hv'
  cases who with
  | false => cases hv
  | true =>
      cases who' with
      | false => cases hv'
      | true => exact Option.some.inj (hv.symm.trans hv')

instance (s : State κ) (a : Action κ) : Decidable (Fresh s a) :=
  match a with
  | .write who =>
      match hphase : s.phase who with
      | .read (some existing) =>
          decidable_of_iff (s.stream = some existing) (by
            constructor
            · intro h existing' heq
              rw [hphase] at heq
              cases heq
              exact h
            · exact fun h => h existing hphase)
      | .idle | .read none =>
          .isTrue fun existing heq => by
            rw [hphase] at heq
            cases heq
  | .get _ | .getFailed _ | .failed _ => .isTrue trivial

def shopMachine : Machine (State Bool) (Action Bool) := machine shop (fun _ _ => true) none

/-- One after the other, and the other way round with an attempt that comes to nothing. -/
def inOrder : List (Action Bool) := [.get true, .write true, .get false, .write false]

def inReverse : List (Action Bool) :=
  [.get true, .get false, .write false, .write true, .getFailed true, .write true, .get true,
    .write true]

theorem inOrder_exec : (shopMachine.exec Fresh ⟨none, fun _ => .idle, [], []⟩ inOrder).any
    (fun s => decide (s.applied = [true, false])) = true := by
  decide

theorem inReverse_exec : (shopMachine.exec Fresh ⟨none, fun _ => .idle, [], []⟩ inReverse).any
    (fun s => decide (s.applied = [false, true])) = true := by
  decide

theorem subjects_of_granted_shop : ∃ s : State Bool, s.applied = [false, true] ∧
    HasGranted shop s := by
  obtain ⟨s, hrun, hs⟩ := Machine.exists_of_exec inReverse_exec
  exact ⟨s, of_decide_eq_true hs, subjects_of_granted ⟨_, _, rfl, hrun⟩⟩

/-- An update made from an old reading takes back the subject of the other. -/
example : ((shopMachine.exec (fun _ _ => True) ⟨none, fun _ => .idle, [], []⟩
    [.get true, .write true, .get true, .get false, .write false, .write true]).bind
      (·.stream)).map (·.subjects) = some ["orders.*"] := by
  decide

end Flowgen.Nats.Streams
