/-
# `Flowgen.ObjectStore.Write` — events are written as objects
(`object-store/src/write.rs`)

A handler names the object after the id of its event, or, where the event has none,
after its own reading of the clock in microseconds; the object stands in the directory
that the configured path is rendered to, or in the partitions below it of the same
reading.  A put replaces what is there.  It is repeated once after a reconnect, and a
put that was answered with an error may have been done.

Any number of handlers are between their reading and their put at a time, in one process
or in several.  Nothing keeps two readings apart, nor a reading from the id of another
event.  So the objects of a set of events are kept if and only if none of their handlings
clash (`objects_kept_iff`).
-/
import Flowgen.ObjectStore.Read

namespace Flowgen.ObjectStore

/-- What is asked of `chrono::DateTime<Utc>`. -/
structure DateTime where
  timestampMicros : Int
  year : Int
  month : Nat
  day : Nat
  hour : Nat
deriving DecidableEq

inductive WriteFormat
  | auto
  | parquet
  | csv
  | avro
  | json
  | bytes
deriving DecidableEq

inductive HivePartitionKey
  | eventDate
  | eventHour

structure HivePartitionOptions where
  enabled : Bool
  partitionKeys : List HivePartitionKey

/-- `EventData`; of a batch, how many rows it has. -/
inductive EventData (D : Type)
  | arrowRecordBatch (batch : D) (numRows : Nat)
  | avro (data : D)
  | json (data : D)
  | bytes (data : D)

structure WriteEvent (D : Type) where
  id : Option String
  data : EventData D

/-- The configuration of a write, and the parts it uses. -/
structure Writer (D : Type) where
  format : WriteFormat
  hivePartitionOptions : Option HivePartitionOptions
  /-- The path that the configured one is rendered to for an event. -/
  renderPath : WriteEvent D → Option Path
  /-- `PathPart::from`. -/
  part : String → String
  /-- `parquet::arrow::ArrowWriter`. -/
  parquet : D → Option Bytes
  toWriter : EventData D → Option Bytes

namespace Write

def defaultAvroExtension : String := "avro"
def defaultCsvExtension : String := "csv"
def defaultJsonExtension : String := "json"
def defaultParquetExtension : String := "parquet"
def defaultBytesExtension : String := "bin"

/-- `{:02}`. -/
def twoDigits (n : Nat) : String :=
  if n < 10 then "0" ++ toString n else toString n

/-- `format_date_partition`, split at the slashes. -/
def formatDatePartition (date : DateTime) : List String :=
  ["year=" ++ toString date.year, "month=" ++ twoDigits date.month, "day=" ++ twoDigits date.day]

def formatHourPartition (date : DateTime) : String := "hour=" ++ twoDigits date.hour

/-- An event whose put is under way; `again` is the one after reconnecting. -/
structure Job where
  idx : Nat
  objectPath : Path
  payload : Bytes
  again : Bool

/-- The store, the puts under way, and the events of which a put was successful. -/
structure State where
  store : Store Bytes
  jobs : List Job
  written : List Nat

inductive Act
  | handle (idx : Nat) (cd : DateTime)
  | put (job : Nat) (answer : Move.Answer)
  | stop (job : Nat)

section Step

variable {D : Type} (w : Writer D)

/-- Determines the format and the extension. -/
def output (data : EventData D) : WriteFormat × String :=
  match w.format with
  | .auto =>
      match data with
      | .arrowRecordBatch _ _ => (.parquet, defaultParquetExtension)
      | .avro _ => (.avro, defaultAvroExtension)
      | .json _ => (.json, defaultJsonExtension)
      | .bytes _ => (.bytes, defaultBytesExtension)
  | .parquet => (.parquet, defaultParquetExtension)
  | .csv => (.csv, defaultCsvExtension)
  | .avro => (.avro, defaultAvroExtension)
  | .json => (.json, defaultJsonExtension)
  | .bytes => (.bytes, defaultBytesExtension)

def partitions (cd : DateTime) : List String :=
  match w.hivePartitionOptions with
  | some options =>
      if options.enabled then
        options.partitionKeys.flatMap fun key =>
          match key with
          | .eventDate => formatDatePartition cd
          | .eventHour => [formatHourPartition cd]
      else []
  | none => []

def filename (event : WriteEvent D) (cd : DateTime) : String :=
  match event.id with
  | some id => id
  | none => toString cd.timestampMicros

def objectPath (event : WriteEvent D) (cd : DateTime) : Option Path :=
  (w.renderPath event).map fun path =>
    path ++ (partitions w cd).map w.part ++
      [w.part (filename event cd ++ "." ++ (output w event.data).2)]

/-- What is written; an empty batch is not, and succeeds. -/
def content (event : WriteEvent D) : Option (Option Bytes) :=
  match event.data, (output w event.data).1 with
  | .arrowRecordBatch batch numRows, .parquet =>
      if numRows = 0 then some none else (w.parquet batch).map some
  | data, _ => (w.toWriter data).map some

variable (events : List (WriteEvent D))

/-- The put of a handler, if it gets that far. -/
def job (idx : Nat) (cd : DateTime) : Option Job := do
  let event ← events[idx]?
  let path ← objectPath w event cd
  let payload ← (content w event).join
  return ⟨idx, path, payload, false⟩

def step (s : State) : Act → Option State
  | .handle idx cd => some { s with jobs := s.jobs ++ (job w events idx cd).toList }
  | .put idx answer => do
      let job ← s.jobs[idx]?
      let after := s.store.insert job.objectPath job.payload
      match answer with
      | .ok => return ⟨after, s.jobs.eraseIdx idx, job.idx :: s.written⟩
      | .unauthenticated done =>
          let store := if done then after else s.store
          if job.again then return { s with store := store, jobs := s.jobs.eraseIdx idx }
          else return { s with store := store, jobs := s.jobs.set idx { job with again := true } }
      | .failed done =>
          let store := if done then after else s.store
          return { s with store := store, jobs := s.jobs.eraseIdx idx }
      | .alreadyExists => none
  | .stop idx => some { s with jobs := s.jobs.eraseIdx idx }

def writing : Lib.Machine State Act where
  init s := s.jobs = [] ∧ s.written = []
  step := step w events

/-! ## Objects that are kept -/

/-- Of two events that are rendered to one path and format and were both written, the
store holds two objects with what they are. -/
def Kept (s : State) : Prop :=
  ∀ i j event event' payload payload', i ∈ s.written → j ∈ s.written → i ≠ j →
    events[i]? = some event → events[j]? = some event' →
    w.renderPath event = w.renderPath event' → output w event.data = output w event'.data →
    content w event = some (some payload) → content w event' = some (some payload') →
    ∃ path path', path ≠ path' ∧ s.store.lookup path = some payload ∧
      s.store.lookup path' = some payload'

/-- No two events have one id. -/
def DistinctIds : Prop :=
  ∀ (i j : Nat) (event event' : WriteEvent D) (id : String), events[i]? = some event →
    events[j]? = some event' → event.id = some id → event'.id = some id → i = j

/-- The names of two events, by their ids and the readings of their handlers; not both
have an id. -/
def SameName (event event' : WriteEvent D) (cd cd' : DateTime) : Prop :=
  match event.id, event'.id with
  | none, none => cd.timestampMicros = cd'.timestampMicros
  | some id, none => id = toString cd'.timestampMicros
  | none, some id' => toString cd.timestampMicros = id'
  | some _, some _ => False

instance (event event' : WriteEvent D) (cd cd' : DateTime) :
    Decidable (SameName event event' cd cd') :=
  match h : event.id, h' : event'.id with
  | none, none => decidable_of_iff (cd.timestampMicros = cd'.timestampMicros) (by simp [SameName, h, h'])
  | some id, none => decidable_of_iff (id = toString cd'.timestampMicros) (by simp [SameName, h, h'])
  | none, some id' => decidable_of_iff (toString cd.timestampMicros = id') (by simp [SameName, h, h'])
  | some _, some _ => isFalse (by simp [SameName, h, h'])

/-- Two events that are written under one path and format, and in one partition, are to
have one name. -/
structure Clash (event event' : WriteEvent D) (cd cd' : DateTime) : Prop where
  path : w.renderPath event = w.renderPath event' ∧ (w.renderPath event).isSome
  output : output w event.data = output w event'.data
  written : (content w event).join.isSome ∧ (content w event').join.isSome
  partitions : partitions w cd = partitions w cd'
  name : SameName event event' cd cd'

/-- The handlings of different events do not clash. -/
def Apart (handlings : Set (Nat × DateTime)) : Prop :=
  ∀ i j cd cd' event event', (i, cd) ∈ handlings → (j, cd') ∈ handlings → i ≠ j →
    events[i]? = some event → events[j]? = some event' → ¬ Clash w event event' cd cd'

end Step

/-- The handlings are some of these. -/
def Act.among (handlings : Set (Nat × DateTime)) : Act → Prop
  | .handle idx cd => (idx, cd) ∈ handlings
  | .put _ _ | .stop _ => True

/-! ## Where an object is -/

section Place

variable {D : Type} {w : Writer D} {event event' : WriteEvent D} {cd cd' : DateTime}

/-- What follows the last occurrence of a separator. -/
theorem append_cons_inj {α : Type*} {c : α} {xs ys as bs : List α} (has : c ∉ as) (hbs : c ∉ bs)
    (h : xs ++ c :: as = ys ++ c :: bs) : xs = ys ∧ as = bs := by
  rcases List.append_eq_append_iff.mp h with ⟨l, hl, hrest⟩ | ⟨l, hl, hrest⟩
  · cases l with
    | nil => exact ⟨by simpa using hl.symm, (List.cons.inj hrest).2⟩
    | cons x l =>
        refine absurd ?_ has
        rw [(List.cons.inj hrest).2]
        exact List.mem_append_right _ List.mem_cons_self
  · cases l with
    | nil => exact ⟨by simpa using hl, (List.cons.inj hrest).2.symm⟩
    | cons x l =>
        refine absurd ?_ hbs
        rw [(List.cons.inj hrest).2]
        exact List.mem_append_right _ List.mem_cons_self

/-- No extension has a dot in it, and it tells the format. -/
theorem output_mem (data : EventData D) :
    output w data ∈ [(.parquet, defaultParquetExtension), (.avro, defaultAvroExtension),
      (.json, defaultJsonExtension), (.bytes, defaultBytesExtension),
      (.csv, defaultCsvExtension)] := by
  unfold output
  split
  · split <;> simp
  all_goals simp

theorem dot_notMem_extension (data : EventData D) : '.' ∉ (output w data).2.toList := by
  have hall : ∀ o ∈ [(WriteFormat.parquet, defaultParquetExtension),
      (.avro, defaultAvroExtension), (.json, defaultJsonExtension),
      (.bytes, defaultBytesExtension), (.csv, defaultCsvExtension)], '.' ∉ o.2.toList := by
    decide
  exact hall _ (output_mem data)

theorem output_eq_of_extension {data data' : EventData D}
    (h : (output w data).2 = (output w data').2) : output w data = output w data' := by
  have hall : ∀ o ∈ [(WriteFormat.parquet, defaultParquetExtension),
      (.avro, defaultAvroExtension), (.json, defaultJsonExtension),
      (.bytes, defaultBytesExtension), (.csv, defaultCsvExtension)],
      ∀ o' ∈ [(WriteFormat.parquet, defaultParquetExtension),
        (.avro, defaultAvroExtension), (.json, defaultJsonExtension),
        (.bytes, defaultBytesExtension), (.csv, defaultCsvExtension)], o.2 = o'.2 → o = o' := by
    decide
  exact hall _ (output_mem data) _ (output_mem data') h

theorem length_partitions : (partitions w cd).length = (partitions w cd').length := by
  unfold partitions
  split
  · split
    · rw [List.length_flatMap, List.length_flatMap]
      congr 2
      funext key
      cases key <;> rfl
    · rfl
  · rfl

/-- Of two events of which one has no id, the names of the objects are as they are to be. -/
theorem sameName_iff (hids : ∀ id, event.id = some id → event'.id ≠ some id) :
    filename event cd = filename event' cd' ↔ SameName event event' cd cd' := by
  unfold filename SameName
  cases hid : event.id with
  | none =>
      cases event'.id with
      | none => exact Int.repr_inj
      | some id' => exact Iff.rfl
  | some id =>
      cases hid' : event'.id with
      | none => exact Iff.rfl
      | some id' =>
          constructor
          · rintro rfl
            exact hids _ hid hid'
          · exact False.elim

/-- Two objects are in one place if and only if their directory, their extension and their
name are the same. -/
theorem objectPath_eq_iff (hpart : w.part.Injective)
    (hids : ∀ id, event.id = some id → event'.id ≠ some id)
    (hpath : (w.renderPath event).isSome) :
    objectPath w event cd = objectPath w event' cd' ↔
      w.renderPath event = w.renderPath event' ∧ output w event.data = output w event'.data ∧
        partitions w cd = partitions w cd' ∧ SameName event event' cd cd' := by
  rw [← sameName_iff hids]
  unfold objectPath
  obtain ⟨path, hpath⟩ := Option.isSome_iff_exists.mp hpath
  rw [hpath, Option.map_some]
  cases hpath' : w.renderPath event' with
  | none =>
      constructor
      · nofun
      · rintro ⟨h, -⟩
        cases h
  | some path' =>
      rw [Option.map_some, Option.some.injEq, Option.some.injEq]
      constructor
      · intro h
        obtain ⟨hdir, hlast⟩ := List.append_inj' h rfl
        obtain ⟨hrendered, hpartitions⟩ := List.append_inj' hdir (by
          rw [List.length_map, List.length_map, length_partitions])
        have hname := hpart (List.singleton_inj.mp hlast)
        rw [String.append_assoc, String.append_assoc, ← String.toList_inj] at hname
        simp only [String.toList_append] at hname
        obtain ⟨hfilename, hextension⟩ := append_cons_inj (dot_notMem_extension _)
          (dot_notMem_extension _) hname
        exact ⟨hrendered, output_eq_of_extension (String.toList_inj.mp hextension),
          List.map_injective_iff.mpr hpart hpartitions, String.toList_inj.mp hfilename⟩
      · rintro ⟨rfl, houtput, hpartitions, hfilename⟩
        rw [houtput, hpartitions, hfilename]

end Place

/-! ## Runs -/

section Runs

variable {D : Type} {w : Writer D} {events : List (WriteEvent D)}
  {handlings : Set (Nat × DateTime)} {s t : State} {a : Act} {i j : Nat} {path path' : Path}
  {payload payload' : Bytes}

variable (w events handlings) in
/-- An object that one of the handlings writes. -/
def Writes (idx : Nat) (path : Path) (payload : Bytes) : Prop :=
  ∃ cd event, (idx, cd) ∈ handlings ∧ events[idx]? = some event ∧
    objectPath w event cd = some path ∧ content w event = some (some payload)

variable (w events handlings) in
/-- What is put is what the handlings write, and what was written is there. -/
structure Inv (s : State) : Prop where
  jobs : ∀ job ∈ s.jobs, Writes w events handlings job.idx job.objectPath job.payload
  held : ∀ idx ∈ s.written, ∃ path payload, Writes w events handlings idx path payload ∧
    s.store.lookup path = some payload

theorem job_eq_some {cd : DateTime} {new : Job} (h : job w events i cd = some new) :
    ∃ event, events[i]? = some event ∧ objectPath w event cd = some new.objectPath ∧
      content w event = some (some new.payload) ∧ new.idx = i := by
  obtain ⟨event, hevent, h⟩ := Option.bind_eq_some_iff.mp h
  obtain ⟨path, hpath, h⟩ := Option.bind_eq_some_iff.mp h
  obtain ⟨payload, hpayload, h⟩ := Option.bind_eq_some_iff.mp h
  cases h
  exact ⟨event, hevent, hpath, Option.join_eq_some_iff.mp hpayload, rfl⟩

theorem rendered_of_objectPath {event : WriteEvent D} {cd : DateTime}
    (h : objectPath w event cd = some path) : (w.renderPath event).isSome := by
  obtain ⟨_, hrendered, -⟩ := Option.map_eq_some_iff.mp h
  exact Option.isSome_of_eq_some hrendered

/-- Different events are written to different places. -/
theorem Writes.apart (hpart : w.part.Injective) (hids : DistinctIds events)
    (hapart : Apart w events handlings) (h : Writes w events handlings i path payload)
    (h' : Writes w events handlings j path' payload') (hne : i ≠ j) : path ≠ path' := by
  obtain ⟨cd, event, hmem, hevent, hpath, hcontent⟩ := h
  obtain ⟨cd', event', hmem', hevent', hpath', hcontent'⟩ := h'
  rintro rfl
  have hnot : ∀ id, event.id = some id → event'.id ≠ some id := fun id hid hid' =>
    hne (hids i j event event' id hevent hevent' hid hid')
  have hrendered := rendered_of_objectPath hpath
  obtain ⟨hsame, houtput, hpartitions, hname⟩ :=
    (objectPath_eq_iff hpart hnot hrendered).mp (hpath.trans hpath'.symm)
  refine hapart i j cd cd' event event' hmem hmem' hne hevent hevent' ⟨⟨hsame, hrendered⟩, houtput,
    ⟨?_, ?_⟩, hpartitions, hname⟩
  · rw [hcontent]
    rfl
  · rw [hcontent']
    rfl

theorem Writes.payload_eq (h : Writes w events handlings i path payload)
    (h' : Writes w events handlings i path' payload') : payload = payload' := by
  obtain ⟨cd, event, -, hevent, -, hcontent⟩ := h
  obtain ⟨cd', event', -, hevent', -, hcontent'⟩ := h'
  cases hevent.symm.trans hevent'
  cases hcontent.symm.trans hcontent'
  rfl

/-- A put leaves what was written where it is. -/
theorem Inv.held_insert (hpart : w.part.Injective) (hids : DistinctIds events)
    (hapart : Apart w events handlings) (h : Inv w events handlings s)
    (hwrites : Writes w events handlings i path payload) :
    ∀ idx ∈ i :: s.written, ∃ path' payload', Writes w events handlings idx path' payload' ∧
      (s.store.insert path payload).lookup path' = some payload' := by
  intro idx hidx
  rcases List.mem_cons.mp hidx with rfl | hidx
  · exact ⟨path, payload, hwrites, AList.lookup_insert _⟩
  · obtain ⟨path', payload', hwrites', hlookup⟩ := h.held idx hidx
    refine ⟨path', payload', hwrites', ?_⟩
    by_cases hpath : path' = path
    · subst hpath
      have hi : i = idx := by
        by_contra hne
        exact hwrites.apart hpart hids hapart hwrites' hne rfl
      subst hi
      rw [AList.lookup_insert, hwrites.payload_eq hwrites']
    · rw [AList.lookup_insert_ne hpath]
      exact hlookup

theorem Inv.held_maybe (hpart : w.part.Injective) (hids : DistinctIds events)
    (hapart : Apart w events handlings) (h : Inv w events handlings s)
    (hwrites : Writes w events handlings i path payload) (done : Bool) :
    ∀ idx ∈ s.written, ∃ path' payload', Writes w events handlings idx path' payload' ∧
      (if done then s.store.insert path payload else s.store).lookup path' = some payload' := by
  cases done with
  | true => exact fun idx hidx =>
      h.held_insert hpart hids hapart hwrites idx (List.mem_cons_of_mem _ hidx)
  | false => exact h.held

theorem inv_step (hpart : w.part.Injective) (hids : DistinctIds events)
    (hapart : Apart w events handlings) (h : Inv w events handlings s) (ha : a.among handlings)
    (hstep : step w events s a = some t) : Inv w events handlings t := by
  cases a with
  | handle idx cd =>
      cases hstep
      refine ⟨?_, h.held⟩
      intro new hnew
      rcases List.mem_append.mp hnew with hnew | hnew
      · exact h.jobs new hnew
      · obtain ⟨event, hevent, hpath, hcontent, rfl⟩ := job_eq_some (Option.mem_toList.mp hnew)
        exact ⟨cd, event, ha, hevent, hpath, hcontent⟩
  | put idx answer =>
      obtain ⟨job, hjob, hstep⟩ := Option.bind_eq_some_iff.mp hstep
      have hwrites := h.jobs job (List.mem_of_getElem? hjob)
      have herase : ∀ job ∈ s.jobs.eraseIdx idx,
          Writes w events handlings job.idx job.objectPath job.payload := fun job hmem =>
        h.jobs job (List.mem_of_mem_eraseIdx hmem)
      cases answer with
      | ok =>
          cases hstep
          exact ⟨herase, h.held_insert hpart hids hapart hwrites⟩
      | unauthenticated done =>
          dsimp only at hstep
          split at hstep
          · cases hstep
            exact ⟨herase, h.held_maybe hpart hids hapart hwrites done⟩
          · cases hstep
            refine ⟨?_, h.held_maybe hpart hids hapart hwrites done⟩
            intro other hother
            rcases List.mem_or_eq_of_mem_set hother with hother | rfl
            · exact h.jobs other hother
            · exact hwrites
      | failed done =>
          cases hstep
          exact ⟨herase, h.held_maybe hpart hids hapart hwrites done⟩
      | alreadyExists => cases hstep
  | stop idx =>
      cases hstep
      exact ⟨fun job hmem => h.jobs job (List.mem_of_mem_eraseIdx hmem), h.held⟩

theorem Inv.kept (hpart : w.part.Injective) (hids : DistinctIds events)
    (hapart : Apart w events handlings) (h : Inv w events handlings s) : Kept w events s := by
  intro i j event event' payload payload' hi hj hne hevent hevent' _ _ hcontent hcontent'
  obtain ⟨path, found, hwrites, hlookup⟩ := h.held i hi
  obtain ⟨path', found', hwrites', hlookup'⟩ := h.held j hj
  refine ⟨path, path', hwrites.apart hpart hids hapart hwrites' hne, ?_, ?_⟩
  · obtain ⟨_, _, -, hsame, -, hfound⟩ := hwrites
    cases hevent.symm.trans hsame
    cases hcontent.symm.trans hfound
    exact hlookup
  · obtain ⟨_, _, -, hsame, -, hfound⟩ := hwrites'
    cases hevent'.symm.trans hsame
    cases hcontent'.symm.trans hfound
    exact hlookup'

theorem job_of_content {cd : DateTime} {event : WriteEvent D} (hevent : events[i]? = some event)
    (hpath : objectPath w event cd = some path) (hcontent : content w event = some (some payload)) :
    job w events i cd = some ⟨i, path, payload, false⟩ := by
  rw [job, hevent, Option.bind_eq_bind, Option.bind_some, hpath, Option.bind_eq_bind,
    Option.bind_some, hcontent]
  rfl

variable (w events handlings) in
/-- Two handlings that clash can be carried out so that one object is left. -/
theorem exists_replaced {event event' : WriteEvent D} {cd cd' : DateTime}
    (hi : (i, cd) ∈ handlings) (hj : (j, cd') ∈ handlings) (hne : i ≠ j)
    (hevent : events[i]? = some event) (hevent' : events[j]? = some event')
    (hplace : objectPath w event cd = objectPath w event' cd') (hclash : Clash w event event' cd cd') :
    ∃ s, (writing w events).ReachableBy (fun _ a => a.among handlings) s ∧
      s.written = [j, i] ∧ ¬ Kept w events s := by
  obtain ⟨⟨hsame, hrendered⟩, houtput, ⟨hwritten, hwritten'⟩, -, -⟩ := hclash
  obtain ⟨payload, hpayload⟩ := Option.isSome_iff_exists.mp hwritten
  obtain ⟨payload', hpayload'⟩ := Option.isSome_iff_exists.mp hwritten'
  have hcontent := Option.join_eq_some_iff.mp hpayload
  have hcontent' := Option.join_eq_some_iff.mp hpayload'
  obtain ⟨dir, hdir⟩ := Option.isSome_iff_exists.mp hrendered
  obtain ⟨path, hpath⟩ : ∃ path, objectPath w event cd = some path := by
    rw [objectPath, hdir]
    exact ⟨_, rfl⟩
  have hjob := job_of_content hevent hpath hcontent
  have hjob' := job_of_content hevent' (hplace ▸ hpath) hcontent'
  let written : State :=
    ⟨((∅ : Store Bytes).insert path payload).insert path payload', [], [j, i]⟩
  refine ⟨written, ?_, rfl, ?_⟩
  · have hfirst : step w events ⟨∅, [], []⟩ (.handle i cd) =
        some ⟨∅, [⟨i, path, payload, false⟩], []⟩ := by
      rw [step, hjob]
      rfl
    have hsecond : step w events ⟨∅, [⟨i, path, payload, false⟩], []⟩ (.handle j cd') =
        some ⟨∅, [⟨i, path, payload, false⟩, ⟨j, path, payload', false⟩], []⟩ := by
      rw [step, hjob']
      rfl
    have hrun : (writing w events).RunOf (fun _ a => a.among handlings) ⟨∅, [], []⟩
        ([.handle i cd] ++ [.handle j cd'] ++ [.put 0 .ok] ++ [.put 0 .ok]) written :=
      .snoc (.snoc (.snoc (.single hi hfirst) hj hsecond) trivial rfl) trivial rfl
    exact ⟨⟨∅, [], []⟩, _, ⟨rfl, rfl⟩, hrun⟩
  · intro hkept
    obtain ⟨place, place', hapart, hlookup, hlookup'⟩ := hkept i j event event' payload payload'
      (by simp [written]) (by simp [written]) hne hevent hevent' hsame houtput hcontent hcontent'
    have hone : ∀ {place : Path} {found : Bytes}, written.store.lookup place = some found →
        place = path := by
      intro place found hfound
      by_contra hother
      rw [AList.lookup_insert_ne hother, AList.lookup_insert_ne hother] at hfound
      cases hfound
    exact hapart ((hone hlookup).trans (hone hlookup').symm)

/-- The events of a set of handlings keep their objects in every run if and only if no two
of them clash. -/
theorem objects_kept_iff (hpart : w.part.Injective) (hids : DistinctIds events)
    (handlings : Set (Nat × DateTime)) :
    (∀ s, (writing w events).ReachableBy (fun _ a => a.among handlings) s → Kept w events s) ↔
      Apart w events handlings := by
  constructor
  · intro hkept i j cd cd' event event' hi hj hne hevent hevent' hclash
    have hnot : ∀ id, event.id = some id → event'.id ≠ some id := fun id hid hid' =>
      hne (hids i j event event' id hevent hevent' hid hid')
    have hplace := (objectPath_eq_iff hpart hnot hclash.path.2).mpr
      ⟨hclash.path.1, hclash.output, hclash.partitions, hclash.name⟩
    obtain ⟨s, hs, -, hlost⟩ := exists_replaced w events handlings hi hj hne hevent hevent' hplace hclash
    exact hlost (hkept s hs)
  · intro hapart s hs
    have hinv : Inv w events handlings s := by
      refine hs.invariant ?_ ?_
      · rintro s ⟨hjobs, hwritten⟩
        exact ⟨by simp [hjobs], by simp [hwritten]⟩
      · intro s a t hinv ha hstep
        exact inv_step hpart hids hapart hinv ha hstep
    exact hinv.kept hpart hids hapart

end Runs

/-! ## Readings that coincide -/

/-- Writes JSON under `out`. -/
def sample : Writer String where
  format := .auto
  hivePartitionOptions := none
  renderPath _ := some ["out"]
  part segment := segment
  parquet _ := none
  toWriter
    | .json text => some (text.toList.map fun c => c.toNat.toUInt8)
    | _ => none

/-- A reading, so many microseconds after the beginning of a year. -/
def reading (micros : Int) : DateTime :=
  ⟨1767225600000000 + micros, 2026, 1, 1, 0⟩

/-- One event has an id, and another one is handled at two times. -/
theorem objects_kept_mixed :
    let events : List (WriteEvent String) := [⟨some "a", .json "1"⟩, ⟨none, .json "2"⟩]
    let handlings : Set (Nat × DateTime) := {(0, reading 5), (1, reading 5), (1, reading 6)}
    ∀ s, (writing sample events).ReachableBy (fun _ a => a.among handlings) s →
      Kept sample events s := by
  intro events handlings
  have hids : DistinctIds events := by
    intro i j event event' id hevent hevent' hid hid'
    rcases i with _ | _ | i <;> rcases j with _ | _ | j
    all_goals cases hevent
    all_goals cases hevent'
    all_goals cases hid
    all_goals first | rfl | cases hid'
  refine (objects_kept_iff Function.injective_id hids handlings).mpr ?_
  intro i j cd cd' event event' hi hj hne hevent hevent' hclash
  have hname := hclash.name
  rcases hi with hi | hi | hi <;> rcases hj with hj | hj | hj
  all_goals cases hi
  all_goals cases hj
  all_goals cases hevent
  all_goals cases hevent'
  all_goals first | exact hne rfl | exact absurd hname (by decide)

/-- Two events without an id are handled in the same microsecond, both are written, and one
object is left. -/
theorem same_microsecond_replaced :
    let events : List (WriteEvent String) := [⟨none, .json "1"⟩, ⟨none, .json "2"⟩]
    DistinctIds events ∧
      ∃ s, (writing sample events).Reachable s ∧ s.written = [1, 0] ∧ ¬ Kept sample events s := by
  intro events
  constructor
  · intro i j event event' id hevent hevent' hid hid'
    rcases i with _ | _ | i
    all_goals cases hevent
    all_goals cases hid
  · have hclash : Clash sample (⟨none, .json "1"⟩ : WriteEvent String) ⟨none, .json "2"⟩
        (reading 5) (reading 5) :=
      ⟨⟨rfl, rfl⟩, rfl, ⟨rfl, rfl⟩, rfl, rfl⟩
    obtain ⟨s, ⟨start, as, hinit, hrun⟩, hwritten, hlost⟩ := exists_replaced sample events
      Set.univ (Set.mem_univ (0, reading 5)) (Set.mem_univ (1, reading 5)) (by decide) rfl rfl rfl
      hclash
    exact ⟨s, ⟨start, as, hinit, hrun.run⟩, hwritten, hlost⟩

end Write

end Flowgen.ObjectStore
