/-
# `Flowgen.Peer.Informer` — peer registrations kept in memory (`core/src/peer.rs`)

Every pod keeps its registration in the shared cache, under a key that ends in
its identity.  The informer of a pod starts a watch, reads all registrations
once, and then follows the events of the watch, which by then are those of
everything that was written since it started.

A registration carries the time of its last renewal.  An event that is older
than what the informer knows is skipped, so that the events from before the
snapshot do not take it back.  The pod also informs its own informer of its
own writes, after the cache has confirmed them.  Nothing orders that with the
watch: the write it reports may have been overwritten or deleted since, and
the events that say so may have been followed already.  The time stamp helps
only where the later write is a registration with a later stamp.
`converges_iff` says that this is all that can go wrong.

Keys are named by their identity here; a key without the prefix is skipped
wherever it turns up.
-/
import Flowgen.Lib.Machine
import Flowgen.Cache.Basic

namespace Flowgen.Peer

open Flowgen.Lib Flowgen.Cache

/-- Value stored under the key of a peer. -/
structure PeerRecord where
  address : Option String := none
  renewedAtMs : Option Int := none
  ready : Bool := false
deriving DecidableEq

/-- `<=` on stamps: no time at all is older than any time. -/
def stampLe : Option Int → Option Int → Bool
  | none, _ => true
  | some _, none => false
  | some a, some b => a ≤ b

theorem stampLe_refl : ∀ a, stampLe a a = true
  | none => rfl
  | some a => by simp [stampLe]

theorem stampLe_of_eq {a b : Option Int} (h : a = b) : stampLe a b = true := h ▸ stampLe_refl a

theorem stampLe_trans : ∀ {a b c}, stampLe a b = true → stampLe b c = true → stampLe a c = true
  | none, _, _, _, _ => rfl
  | some _, some _, some _, hab, hbc => by
      simp only [stampLe, decide_eq_true_eq] at hab hbc ⊢
      omega

abbrev Records := String → Option PeerRecord

variable {B : Type}

def eventValue : WatchEvent B → Option B
  | .put _ value => some value
  | .delete _ => none

/-- Where `follow_registrations` is; `reading` has the keys that are still to be read. -/
inductive Phase
  | idle
  | watching
  | reading (todo : List String) (records : Records)
  | synced (records : Records)

/-- The registrations in the cache, and the informer of one pod. -/
structure State (B : Type) where
  store : String → Option B
  /-- All identities that were ever registered. -/
  keys : List String
  /-- The latest stamp of the records of an identity. -/
  newest : String → Option Int
  phase : Phase
  /-- What the watch has yet to deliver. -/
  events : List (WatchEvent B)
  /-- Writes of the pod itself of which it has yet to inform the informer. -/
  informs : List (Option B)

def State.initial : State B where
  store _ := none
  keys := []
  newest _ := none
  phase := .idle
  events := []
  informs := []

inductive Act (B : Type)
  | put (identity : String) (value : B)
  | delete (identity : String)
  | renew (value : B)
  | deregister
  | inform (idx : Nat)
  | watch
  | listKeys
  | get
  | sync
  | next
  | fail

section Step

variable (parse : B → Option PeerRecord) (pod : String)

/-- `inform`, on the records of an informer that has synced. -/
def Records.inform (records : Records) (identity : String) (value : Option B) : Records :=
  match value.bind parse with
  | some record =>
      if (records identity).all fun known => stampLe known.renewedAtMs record.renewedAtMs then
        Function.update records identity (some record)
      else records
  | none => Function.update records identity none

/-- What `read_records` reads of an identity. -/
def State.read (s : State B) (identity : String) : Option PeerRecord :=
  (s.store identity).bind parse

/-- The informer follows an event of its watch. -/
def Records.follow (records : Records) (event : WatchEvent B) : Records :=
  records.inform parse event.key (eventValue event)

/-- A write to the cache, which the watch delivers if it has started. -/
def State.write (s : State B) (event : WatchEvent B) : State B :=
  { s with
    store := Function.update s.store event.key (eventValue event)
    keys := event.key :: s.keys
    newest := match (eventValue event).bind parse with
      | some record => Function.update s.newest event.key record.renewedAtMs
      | none => s.newest
    events := match s.phase with
      | .idle => s.events
      | _ => s.events ++ [event] }

attribute [grind =] State.write

/-- The record is not older than earlier ones of its identity. -/
def State.inOrder (s : State B) (identity : String) (value : B) : Bool :=
  (parse value).all fun record => stampLe (s.newest identity) record.renewedAtMs

def step (s : State B) : Act B → Option (State B)
  | .put identity value =>
      if s.inOrder parse identity value then some (s.write parse (.put identity value)) else none
  | .delete identity => some (s.write parse (.delete identity))
  | .renew value =>
      if s.inOrder parse pod value then
        some { s.write parse (.put pod value) with informs := s.informs ++ [some value] }
      else none
  | .deregister => some { s.write parse (.delete pod) with informs := s.informs ++ [none] }
  | .inform idx =>
      match s.informs[idx]? with
      | some value =>
          some { s with
            informs := s.informs.eraseIdx idx
            phase := match s.phase with
              | .synced records => .synced (records.inform parse pod value)
              | phase => phase }
      | none => none
  | .watch =>
      match s.phase with
      | .idle => some { s with phase := .watching }
      | _ => none
  | .listKeys =>
      match s.phase with
      | .watching =>
          some { s with
            phase := .reading (s.keys.filter fun k => (s.store k).isSome) fun _ => none }
      | _ => none
  | .get =>
      match s.phase with
      | .reading (identity :: todo) records =>
          some { s with
            phase := .reading todo <| match s.read parse identity with
              | some record => Function.update records identity (some record)
              | none => records }
      | _ => none
  | .sync =>
      match s.phase with
      | .reading [] records => some { s with phase := .synced records }
      | _ => none
  | .next =>
      match s.phase, s.events with
      | .synced records, event :: events =>
          some { s with phase := .synced (records.follow parse event), events := events }
      | _, _ => none
  -- the watch or a read fails, and the informer starts over
  | .fail => some { s with phase := .idle, events := [] }

def informer : Machine (State B) (Act B) where
  init s := s = .initial
  step := step parse pod

/-- Once the events that the watch has yet to deliver have been followed, the
records are what `read_records` would read. -/
def Converges (s : State B) : Prop :=
  ∀ records, s.phase = .synced records →
    ∀ k, s.events.foldl (Records.follow parse) records k = s.read parse k

/-- The watch has an event of this identity to deliver. -/
def State.Awaits (s : State B) (k : String) : Prop := ∃ e ∈ s.events, e.key = k

/-- If the informer is informed of a write of its pod after all events for it
have been followed, the cache still holds what was written, or a registration
with a later stamp. -/
def Timely (s : State B) : Act B → Prop
  | .inform idx => ∀ value records, s.informs[idx]? = some value → s.phase = .synced records →
      ¬ s.Awaits pod →
      s.read parse pod = value.bind parse ∨
        ∃ record known, value.bind parse = some record ∧ s.read parse pod = some known ∧
          stampLe known.renewedAtMs record.renewedAtMs = false
  | _ => True

end Step

/-- Whether reads are served by the informer instead of the cache. -/
def State.informerSynced (s : State B) : Bool :=
  match s.phase with
  | .synced _ => true
  | _ => false

/-! ## What the informer knows -/

/-- The records the informer has read or follows. -/
def Phase.records : Phase → Records
  | .reading _ records => records
  | .synced records => records
  | _ => fun _ => none

/-- Where no event is to come, the snapshot is right as far as it goes, and
what is followed is right. -/
def State.Tracks (parse : B → Option PeerRecord) (s : State B) : Prop :=
  match s.phase with
  | .idle => s.events = []
  | .watching => True
  | .reading todo records => ∀ k, ¬ s.Awaits k →
      (records k = none ∨ records k = s.read parse k) ∧ (k ∉ todo → records k = s.read parse k)
  | .synced records => ∀ k, ¬ s.Awaits k → records k = s.read parse k

/-- What holds in every reachable state, for an informer that tracks the cache. -/
structure Tracked (parse : B → Option PeerRecord) (pod : String) (s : State B) : Prop where
  listed : ∀ k, s.store k ≠ none → k ∈ s.keys
  /-- The cache holds the newest record of an identity, if any. -/
  read_stamp : ∀ k r, s.read parse k = some r → r.renewedAtMs = s.newest k
  event_stamp : ∀ e ∈ s.events, ∀ r, (eventValue e).bind parse = some r → stampLe r.renewedAtMs (s.newest e.key) = true
  inform_stamp : ∀ value ∈ s.informs, ∀ r, value.bind parse = some r → stampLe r.renewedAtMs (s.newest pod) = true
  record_stamp : ∀ k r, s.phase.records k = some r → stampLe r.renewedAtMs (s.newest k) = true
  /-- The last event of an identity says what the cache holds. -/
  last : ∀ pre e post, s.events = pre ++ e :: post → (∀ e' ∈ post, e'.key ≠ e.key) →
    s.store e.key = eventValue e
  tracks : s.Tracks parse

variable {parse : B → Option PeerRecord} {pod k : String} {s t : State B} {a : Act B}
  {records : Records} {value : Option B} {e : WatchEvent B}

theorem Records.inform_ne (records : Records) {k' : String} (hne : k' ≠ k) :
    records.inform parse k value k' = records k' := by
  rw [Records.inform]
  cases value.bind parse with
  | none => exact Function.update_of_ne hne _ _
  | some record =>
      dsimp only
      split
      · exact Function.update_of_ne hne _ _
      · rfl

/-- Informing of a record that is not older than what is known. -/
theorem Records.inform_self (hle : ∀ known record, records k = some known →
    value.bind parse = some record → stampLe known.renewedAtMs record.renewedAtMs = true) :
    records.inform parse k value k = value.bind parse := by
  rw [Records.inform]
  cases hr : value.bind parse with
  | none => exact Function.update_self _ _ _
  | some record =>
      have hall : (records k).all (fun known => stampLe known.renewedAtMs record.renewedAtMs) = true := by
        rw [Option.all_eq_true]
        intro known hk
        exact hle known record hk hr
      dsimp only
      rw [if_pos hall, Function.update_self]

/-- Informing of an older one. -/
theorem Records.inform_older {known record : PeerRecord} (hk : records k = some known)
    (hr : value.bind parse = some record) (hlt : stampLe known.renewedAtMs record.renewedAtMs = false) :
    records.inform parse k value k = some known := by
  rw [Records.inform]
  simp [hr, hk, hlt]

/-- One or the other, then. -/
theorem Records.inform_cases (records : Records) (value : Option B) (k : String) :
    records.inform parse k value k = value.bind parse ∨
    ∃ known record, records k = some known ∧ value.bind parse = some record ∧
      stampLe known.renewedAtMs record.renewedAtMs = false ∧ records.inform parse k value k = some known := by
  by_cases hlt : ∃ known record, records k = some known ∧ value.bind parse = some record ∧
      stampLe known.renewedAtMs record.renewedAtMs = false
  · obtain ⟨known, record, hk, hr, hlt⟩ := hlt
    exact Or.inr ⟨known, record, hk, hr, hlt, Records.inform_older hk hr hlt⟩
  · refine Or.inl (Records.inform_self fun known record hk hr => ?_)
    exact Bool.not_eq_false _ ▸ fun h => hlt ⟨known, record, hk, hr, h⟩

/-- What the informer knows afterwards is no newer than what was ever written. -/
theorem Tracked.inform_stamp_le (hrec : ∀ k r, records k = some r → stampLe r.renewedAtMs (s.newest k) = true)
    (hval : ∀ r, value.bind parse = some r → stampLe r.renewedAtMs (s.newest k) = true) :
    ∀ k' r, records.inform parse k value k' = some r → stampLe r.renewedAtMs (s.newest k') = true := by
  intro k' r hr
  by_cases hne : k' = k
  · subst hne
    rcases Records.inform_cases records value k' with he | ⟨known, _, hk, _, _, he⟩
    · exact hval r (he.symm.trans hr)
    · exact hrec k' r (hk.trans (he.symm.trans hr))
  · exact hrec k' r ((Records.inform_ne records hne).symm.trans hr)

/-! ### Following the watch -/

theorem State.not_awaits_cons {events : List (WatchEvent B)} (he : s.events = e :: events)
    (hk : ¬ ({ s with events := events } : State B).Awaits k) (hne : k ≠ e.key) : ¬ s.Awaits k := by
  rintro ⟨e', he', rfl⟩
  rw [he] at he'
  rcases List.mem_cons.mp he' with rfl | he'
  · exact hne rfl
  · exact hk ⟨e', he', rfl⟩

/-- Following the next event. -/
theorem Tracked.next (h : Tracked parse pod s) (hp : s.phase = .synced records)
    {events : List (WatchEvent B)} (he : s.events = e :: events) :
    Tracked parse pod { s with phase := .synced (records.follow parse e), events := events } := by
  have hrec := h.record_stamp
  have htracks := h.tracks
  simp only [hp, Phase.records] at hrec
  simp only [State.Tracks, hp] at htracks
  have hev : ∀ r, (eventValue e).bind parse = some r → stampLe r.renewedAtMs (s.newest e.key) = true :=
    h.event_stamp e (he ▸ List.mem_cons_self)
  refine ⟨h.listed, h.read_stamp, ?_, h.inform_stamp, ?_, ?_, ?_⟩
  · intro e' he'
    exact h.event_stamp e' (he ▸ List.mem_cons_of_mem _ he')
  · exact Tracked.inform_stamp_le hrec hev
  · intro pre e' post hpost hlast
    exact h.last (e :: pre) e' post (he.trans (congrArg (e :: ·) hpost)) hlast
  · intro k hk
    by_cases hne : k = e.key
    · subst hne
      -- the event was the last of its identity
      have hstore : s.store e.key = eventValue e :=
        h.last [] e events he fun e' he' hkey => hk ⟨e', he', hkey⟩
      have hread : s.read parse e.key = (eventValue e).bind parse := by rw [State.read, hstore]
      refine (Records.inform_self fun known record hknown hr => ?_).trans hread.symm
      rw [h.read_stamp _ _ (hread.trans hr)]
      exact hrec _ _ hknown
    · refine (Records.inform_ne records hne).trans ?_
      exact htracks k (State.not_awaits_cons he hk hne)

/-- Once all events are followed, the records are what the cache holds. -/
theorem Tracked.converges (h : Tracked parse pod s) : Converges parse s := by
  intro records hp k
  generalize he : s.events = events
  induction events generalizing s records with
  | nil =>
      have htracks := h.tracks
      simp only [State.Tracks, hp] at htracks
      exact htracks k fun ⟨e, hmem, _⟩ => by simp [he] at hmem
  | cons e events ih => exact ih (h.next hp he) _ rfl rfl

theorem foldl_follow_of_not_mem (k : String) : ∀ {events : List (WatchEvent B)} {records : Records},
    (∀ e ∈ events, e.key ≠ k) → events.foldl (Records.follow parse) records k = records k
  | [], _, _ => rfl
  | e :: events, records, h => by
      rw [List.foldl_cons, foldl_follow_of_not_mem k fun e' he' => h e' (List.mem_cons_of_mem _ he')]
      exact Records.inform_ne records (h e List.mem_cons_self).symm

/-! ### The other steps -/

/-- An event of the list, or the one that was added, is the last of its identity. -/
theorem last_of_append {events pre post : List (WatchEvent B)} {e' : WatchEvent B}
    (h : events ++ [e] = pre ++ e' :: post) :
    (e' = e ∧ post = []) ∨ ∃ post', post = post' ++ [e] ∧ events = pre ++ e' :: post' := by
  rcases List.eq_nil_or_concat post with rfl | ⟨post', x, rfl⟩
  · obtain ⟨_, he⟩ := List.append_inj' h rfl
    exact Or.inl ⟨(List.singleton_inj.mp he).symm, rfl⟩
  · have h' : events ++ [e] = (pre ++ e' :: post') ++ [x] := by simpa using h
    obtain ⟨hev, he⟩ := List.append_inj' h' rfl
    exact Or.inr ⟨post', by rw [List.singleton_inj.mp he, List.concat_eq_append], hev⟩

theorem State.events_write (s : State B) (parse : B → Option PeerRecord) (e : WatchEvent B) :
    (s.phase = .idle ∧ (s.write parse e).events = s.events) ∨
      (s.phase ≠ .idle ∧ (s.write parse e).events = s.events ++ [e]) := by
  simp only [State.write]
  split
  · exact Or.inl ⟨‹_›, rfl⟩
  · exact Or.inr ⟨‹_›, rfl⟩

/-- Where no event is to come after a write, none was before, and nothing was written. -/
theorem State.read_write (hp : s.phase ≠ .idle) (hk : ¬ (s.write parse e).Awaits k) :
    ¬ s.Awaits k ∧ (s.write parse e).read parse k = s.read parse k := by
  rcases s.events_write parse e with ⟨hidle, _⟩ | ⟨_, hev⟩
  · exact (hp hidle).elim
  · refine ⟨fun ⟨e', he', hke⟩ => hk ⟨e', hev ▸ List.mem_append_left _ he', hke⟩, ?_⟩
    have hne : k ≠ e.key := fun he => hk ⟨e, hev ▸ by simp, he.symm⟩
    simp [State.read, State.write, hne]

/-- A write in order. -/
theorem Tracked.write (h : Tracked parse pod s)
    (hord : ∀ r, (eventValue e).bind parse = some r → stampLe (s.newest e.key) r.renewedAtMs = true) :
    Tracked parse pod (s.write parse e) := by
  have hself : ∀ r, (eventValue e).bind parse = some r → (s.write parse e).newest e.key = r.renewedAtMs := by
    intro r hr
    simp [State.write, hr]
  have hother : ∀ k, k ≠ e.key → (s.write parse e).newest k = s.newest k := by
    intro k hk
    simp only [State.write]
    cases (eventValue e).bind parse with
    | none => rfl
    | some r => exact Function.update_of_ne hk _ _
  have hnew : ∀ k, stampLe (s.newest k) ((s.write parse e).newest k) = true := by
    intro k
    by_cases hk : k = e.key
    · cases hr : (eventValue e).bind parse with
      | none => simp [State.write, hr, stampLe_refl]
      | some r => exact hk ▸ (hself r hr).symm ▸ hord r hr
    · exact stampLe_of_eq (hother k hk).symm
  have hstore : ∀ k, k ≠ e.key → (s.write parse e).store k = s.store k :=
    fun k hk => Function.update_of_ne hk _ _
  refine ⟨?_, ?_, ?_, ?_,
    ?_, ?_, ?_⟩
  · intro k hk
    by_cases hke : k = e.key
    · exact hke ▸ List.mem_cons_self
    · exact List.mem_cons_of_mem _ (h.listed k (hstore k hke ▸ hk))
  · intro k r hr
    by_cases hke : k = e.key
    · subst hke
      refine (hself r ?_).symm
      simpa [State.read, State.write] using hr
    · rw [hother k hke]
      rw [State.read, hstore k hke] at hr
      exact h.read_stamp k r hr
  · intro e' he' r hr
    have hmem : e' ∈ s.events ∨ e' = e := by
      rcases s.events_write parse e with ⟨_, hev⟩ | ⟨_, hev⟩
      · exact Or.inl (hev ▸ he')
      · exact (List.mem_append.mp (hev ▸ he')).imp_right List.mem_singleton.mp
    rcases hmem with he' | rfl
    · exact stampLe_trans (h.event_stamp e' he' r hr) (hnew _)
    · exact stampLe_of_eq (hself r hr).symm
  · intro v hv r hr
    exact stampLe_trans (h.inform_stamp v hv r hr) (hnew _)
  · intro k r hr
    exact stampLe_trans (h.record_stamp k r hr) (hnew _)
  · intro pre e' post hpost hlast
    rcases s.events_write parse e with ⟨hidle, hev⟩ | ⟨_, hev⟩
    · have htracks := h.tracks
      simp only [State.Tracks, hidle] at htracks
      simp [hev, htracks] at hpost
    · rcases last_of_append (hev.symm.trans hpost) with ⟨rfl, rfl⟩ | ⟨post', rfl, hevents⟩
      · exact Function.update_self _ _ _
      · have hne : e'.key ≠ e.key := fun hkey => hlast e (by simp) hkey.symm
        rw [hstore _ hne]
        exact h.last pre e' post' hevents fun x hx => hlast x (List.mem_append_left _ hx)
  · have htracks := h.tracks
    have hphase : (s.write parse e).phase = s.phase := rfl
    rw [State.Tracks] at htracks ⊢
    rw [hphase]
    cases hp : s.phase with
    | idle =>
        rcases s.events_write parse e with ⟨_, hev⟩ | ⟨hne, _⟩
        · simpa [hp, hev] using htracks
        · exact (hne hp).elim
    | watching => trivial
    | reading todo records =>
        rw [hp] at htracks
        intro k hk
        obtain ⟨hno, hread⟩ := State.read_write (by simp [hp]) hk
        rw [hread]
        exact htracks k hno
    | synced records =>
        rw [hp] at htracks
        intro k hk
        obtain ⟨hno, hread⟩ := State.read_write (by simp [hp]) hk
        rw [hread]
        exact htracks k hno

theorem tracked_initial : Tracked parse pod (.initial : State B) := by
  refine ⟨fun k hk => (hk rfl).elim, nofun, nofun, nofun, nofun, ?_, rfl⟩
  intro pre e post h
  simp [State.initial] at h

/-- One of the writes of the pod itself, and not yet informed of. -/
theorem Tracked.withInform (h : Tracked parse pod s)
    (hv : ∀ r, value.bind parse = some r → stampLe r.renewedAtMs (s.newest pod) = true) :
    Tracked parse pod { s with informs := s.informs ++ [value] } := by
  refine ⟨h.listed, h.read_stamp, h.event_stamp, ?_, h.record_stamp, h.last, h.tracks⟩
  intro v hmem
  rcases List.mem_append.mp hmem with hmem | hmem
  · exact h.inform_stamp v hmem
  · exact List.mem_singleton.mp hmem ▸ hv

/-- The informer is informed in time. -/
theorem Tracked.inform {idx : Nat} (h : Tracked parse pod s) (hv : s.informs[idx]? = some value)
    (hok : Timely parse pod s (.inform idx)) :
    Tracked parse pod { s with
      informs := s.informs.eraseIdx idx
      phase := match s.phase with
        | .synced records => .synced (records.inform parse pod value)
        | phase => phase } := by
  have hinf : ∀ v ∈ s.informs.eraseIdx idx, ∀ r, v.bind parse = some r → stampLe r.renewedAtMs (s.newest pod) = true :=
    fun v hmem => h.inform_stamp v (List.mem_of_mem_eraseIdx hmem)
  have hrec := h.record_stamp
  have htracks := h.tracks
  rw [State.Tracks] at htracks
  cases hp : s.phase with
  | synced records =>
      rw [hp] at hrec htracks
      refine ⟨h.listed, h.read_stamp, h.event_stamp, hinf, ?_, h.last, ?_⟩
      · exact Tracked.inform_stamp_le hrec (h.inform_stamp value (List.mem_of_getElem? hv))
      · intro k hk
        by_cases hne : k = pod
        · subst hne
          have hknown : records k = s.read parse k := htracks k hk
          show records.inform parse k value k = s.read parse k
          rcases hok value records hv hp hk with hsame | ⟨record, known, hr, hread, hlt⟩
          · rcases Records.inform_cases records value k with he | ⟨_, _, hk, _, _, he⟩
            · exact he.trans hsame.symm
            · exact he.trans (hk.symm.trans hknown)
          · rw [Records.inform_older (hknown.trans hread) hr hlt, hread]
        · exact (Records.inform_ne records hne).trans (htracks k hk)
  | _ =>
      rw [hp] at hrec htracks
      exact ⟨h.listed, h.read_stamp, h.event_stamp, hinf, hrec, h.last, htracks⟩

/-- The next listed identity is read. -/
theorem Tracked.get (h : Tracked parse pod s) {todo : List String}
    (hp : s.phase = .reading (k :: todo) records) :
    Tracked parse pod { s with
      phase := .reading todo <| match s.read parse k with
        | some record => Function.update records k (some record)
        | none => records } := by
  have hrec := h.record_stamp
  have htracks := h.tracks
  rw [State.Tracks] at htracks
  rw [hp] at hrec htracks
  cases hread : s.read parse k with
  | none =>
      refine ⟨h.listed, h.read_stamp, h.event_stamp, h.inform_stamp, hrec, h.last, ?_⟩
      intro k' hk
      obtain ⟨hor, hread'⟩ := htracks k' hk
      refine ⟨hor, ?_⟩
      intro hmem
      by_cases hne : k' = k
      · subst hne
        exact hor.elim (fun hn => hn.trans hread.symm) id
      · exact hread' fun hmem' => (List.mem_cons.mp hmem').elim hne hmem
  | some record =>
      refine ⟨h.listed, h.read_stamp, h.event_stamp, h.inform_stamp, ?_, h.last,
        ?_⟩
      · intro k' r hr
        replace hr : Function.update records k (some record) k' = some r := hr
        by_cases hne : k' = k
        · subst hne
          rw [Function.update_self] at hr
          exact stampLe_of_eq (h.read_stamp k' r (hread.trans hr))
        · rw [Function.update_of_ne hne] at hr
          exact hrec k' r hr
      · intro k' hk
        show (Function.update records k (some record) k' = none ∨
          Function.update records k (some record) k' = s.read parse k') ∧
          (k' ∉ todo → Function.update records k (some record) k' = s.read parse k')
        by_cases hne : k' = k
        · subst hne
          rw [Function.update_self]
          exact ⟨Or.inr hread.symm, fun _ => hread.symm⟩
        · rw [Function.update_of_ne hne]
          refine ⟨(htracks k' hk).1, fun hmem => (htracks k' hk).2 fun hmem' => ?_⟩
          exact (List.mem_cons.mp hmem').elim hne hmem

theorem Tracked.step (h : Tracked parse pod s) (hok : Timely parse pod s a)
    (hs : Peer.step parse pod s a = some t) : Tracked parse pod t := by
  have hord : ∀ {k value}, s.inOrder parse k value = true → ∀ r, (some value).bind parse = some r →
      stampLe (s.newest k) r.renewedAtMs = true := by
    intro k value hin r hr
    simpa [State.inOrder, show parse value = some r from hr] using hin
  have htracks := h.tracks
  have hrec := h.record_stamp
  rw [State.Tracks] at htracks
  cases a with
  | put k value =>
      simp only [Peer.step] at hs
      split at hs <;> cases hs
      exact h.write (hord ‹_›)
  | delete k =>
      cases hs
      exact h.write fun r hr => by cases hr
  | renew value =>
      simp only [Peer.step] at hs
      split at hs <;> cases hs
      refine (h.write (e := .put pod value) (hord ‹_›)).withInform fun r hr => ?_
      simp [State.write, eventValue, WatchEvent.key, show parse value = some r from hr, stampLe_refl]
  | deregister =>
      cases hs
      exact (h.write (e := .delete pod) fun r hr => by cases hr).withInform fun r hr => by cases hr
  | inform idx =>
      simp only [Peer.step] at hs
      split at hs <;> cases hs
      exact h.inform ‹_› hok
  | watch =>
      simp only [Peer.step] at hs
      split at hs <;> cases hs
      exact ⟨h.listed, h.read_stamp, h.event_stamp, h.inform_stamp, (fun k r hr => by cases hr), h.last,
        trivial⟩
  | listKeys =>
      simp only [Peer.step] at hs
      split at hs <;> cases hs
      refine ⟨h.listed, h.read_stamp, h.event_stamp, h.inform_stamp, (fun k r hr => by cases hr), h.last,
        ?_⟩
      intro k _
      refine ⟨Or.inl rfl, ?_⟩
      intro hk
      -- what is not listed is not in the cache
      have hnone : s.store k = none := by
        by_contra hne
        exact hk (List.mem_filter.mpr ⟨h.listed k hne, Option.isSome_iff_ne_none.mpr hne⟩)
      simp [State.read, hnone]
  | get =>
      simp only [Peer.step] at hs
      split at hs <;> cases hs
      exact h.get ‹_›
  | sync =>
      simp only [Peer.step] at hs
      split at hs <;> cases hs
      rename_i records hp
      rw [hp] at htracks hrec
      refine ⟨h.listed, h.read_stamp, h.event_stamp, h.inform_stamp, hrec, h.last, ?_⟩
      intro k hk
      exact (htracks k hk).2 List.not_mem_nil
  | next =>
      simp only [Peer.step] at hs
      split at hs <;> cases hs
      exact h.next ‹_› ‹_›
  | fail =>
      cases hs
      refine ⟨h.listed, h.read_stamp, (fun e he => by cases he), h.inform_stamp,
        (fun k r hr => by cases hr), ?_, rfl⟩
      intro pre e post h
      simp at h

/-- An informer that is informed late shows it. -/
theorem Tracked.timely (h : Tracked parse pod s) (hs : Peer.step parse pod s a = some t)
    (ht : Converges parse t) : Timely parse pod s a := by
  cases a with
  | inform idx =>
      intro value records hv hp hk
      have htracks := h.tracks
      simp only [State.Tracks, hp] at htracks
      have hknown := htracks pod hk
      simp only [Peer.step, hv, hp, Option.some.injEq] at hs
      subst hs
      have hconv := ht _ rfl pod
      rw [foldl_follow_of_not_mem pod fun e he hkey => hk ⟨e, he, hkey⟩] at hconv
      rcases Records.inform_cases records value pod with he | ⟨known, record, hkn, hr, hlt, _⟩
      · exact Or.inl (hconv.symm.trans he)
      · exact Or.inr ⟨record, known, hr, hknown.symm.trans hkn, hlt⟩
  | _ => trivial

/-- After every step, following the events still to come would make the
records those of the cache, exactly when the pod informs its informer in time. -/
theorem converges_iff {as : List (Act B)} :
    (informer parse pod).RunThrough (Converges parse) .initial as s ↔
      (informer parse pod).RunOf (Timely parse pod) .initial as s :=
  Machine.runThrough_iff tracked_initial
    (fun _ _ _ h hok hs => ⟨h.step hok hs, (h.step hok hs).converges⟩)
    fun _ _ _ h hs ht => h.timely hs ht

/-- In particular, with no event to come the records are those of the cache. -/
theorem Converges.records_eq (h : Converges parse s) (hp : s.phase = .synced records)
    (he : s.events = []) : records = s.read parse := by
  funext k
  simpa [he] using h records hp k

theorem State.informerSynced_iff : s.informerSynced = true ↔ ∃ records, s.phase = .synced records := by
  rw [State.informerSynced]
  cases s.phase <;> simp

/-- A renewal is confirmed, the pod deregisters, and both events are followed
before the informer is informed of the renewal: a registration that is not in
the cache. -/
theorem renewal_informed_after_deletion :
    ∃ s : State PeerRecord, (informer some "pod-a").Reachable s ∧ s.informerSynced = true ∧
      s.events = [] ∧ s.read some "pod-a" = none ∧
      s.phase.records "pod-a" = some ⟨none, some 5, true⟩ ∧ ¬ Converges some s := by
  have hrun : ((informer some "pod-a").exec (fun _ _ => True) (.initial : State PeerRecord)
      [.watch, .listKeys, .sync, .renew ⟨none, some 5, true⟩, .next, .deregister, .next,
        .inform 0]).any
      (fun s => s.informerSynced && s.events == [] && s.read some "pod-a" == none &&
        s.phase.records "pod-a" == some ⟨none, some 5, true⟩) = true := by
    decide
  obtain ⟨s, hr, hs⟩ := Machine.exists_of_exec hrun
  simp only [Bool.and_eq_true, beq_iff_eq] at hs
  obtain ⟨⟨⟨hsync, he⟩, hread⟩, hrec⟩ := hs
  refine ⟨s, ⟨_, _, rfl, hr⟩, hsync, he, hread, hrec, ?_⟩
  intro hc
  obtain ⟨records, hp⟩ := State.informerSynced_iff.mp hsync
  rw [hp] at hrec
  cases hrec.symm.trans ((congrFun (hc.records_eq hp he) "pod-a").trans hread)

/-- A heartbeat and `mark_ready` in the same millisecond: the informer is
informed of the earlier one last, and takes the pod for not ready. -/
theorem renewal_informed_at_equal_stamp :
    ∃ s : State PeerRecord, (informer some "pod-a").Reachable s ∧ s.informerSynced = true ∧
      s.events = [] ∧ s.read some "pod-a" = some ⟨none, some 5, true⟩ ∧
      s.phase.records "pod-a" = some ⟨none, some 5, false⟩ := by
  have hrun : ((informer some "pod-a").exec (fun _ _ => True) (.initial : State PeerRecord)
      [.watch, .listKeys, .sync, .renew ⟨none, some 5, false⟩, .renew ⟨none, some 5, true⟩,
        .next, .next, .inform 1, .inform 0]).any
      (fun s => s.informerSynced && s.events == [] &&
        s.read some "pod-a" == some ⟨none, some 5, true⟩ &&
        s.phase.records "pod-a" == some ⟨none, some 5, false⟩) = true := by
    decide
  obtain ⟨s, hr, hs⟩ := Machine.exists_of_exec hrun
  simp only [Bool.and_eq_true, beq_iff_eq] at hs
  exact ⟨s, ⟨_, _, rfl, hr⟩, hs.1.1.1, hs.1.1.2, hs.1.2, hs.2⟩

end Flowgen.Peer
