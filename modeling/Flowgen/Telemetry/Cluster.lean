/-
# `Flowgen.Telemetry.Cluster` — the log query of a cluster (`core/src/telemetry/cluster.rs`)

A query to one pod asks that pod and every peer for their newest `limit`
records, merges the answers and keeps the newest `limit` of them.  The filter
goes to a peer as query parameters, its levels joined with commas.  HTTP and
JSON hand on what was sent, and every peer answers.

`Merged` says that the pods answer together what one pod with all the records
would.  The two `timestamp_ms` of the source differ: a pod sorts by the
milliseconds since 1970 `as u64`, the merge by the same milliseconds as `i64`.
Records before 1970 come last in the one order and first in the other, so the
answer is merged exactly when the matching records do not mix the two
(`query_merged_iff`).
-/
import Flowgen.Telemetry.Query

namespace Flowgen.Telemetry

open Flowgen.Lib

structure FilterParams where
  limit : Option Nat
  flow : Option String
  task : Option String
  levels : Option String
  sinceMs : Option UInt64
  untilMs : Option UInt64

def FilterParams.new (filter : LogFilter) (limit : Option Nat) : FilterParams where
  limit := limit
  flow := filter.flow
  task := filter.task
  levels :=
    if filter.levels.isEmpty then none
    else some (String.ofList ([','].intercalate (filter.levels.map String.toList)))
  sinceMs := filter.sinceMs
  untilMs := filter.untilMs

def FilterParams.intoFilter (params : FilterParams) : LogFilter × Option Nat :=
  ({ flow := params.flow
     task := params.task
     levels :=
       match params.levels with
       | some levels => LogFilter.parseLevels levels
       | none => []
     sinceMs := params.sinceMs
     untilMs := params.untilMs }, params.limit)

namespace Cluster

variable (parse : Parse)

/-- `serve_logs`: a peer's answer. -/
def serveLogs (params : FilterParams) (b : Buffers) : List StoredLog :=
  let (filter, limit) := params.intoFilter
  let limit :=
    match limit with
    | some n => min n maxQueryLimit
    | none => maxQueryLimit
  Telemetry.query parse b filter limit

/-- `timestamp_ms` of the merge. -/
def timestampMs (record : StoredLog) : Int64 :=
  match record.timestamp.bind parse with
  | some t => t
  | none => Int64.minValue

/-- The order in time. -/
def sortKey (record : StoredLog) : Int := (timestampMs parse record).toInt

def newest (records : List StoredLog) (limit : Nat) : List StoredLog :=
  let records := sortByKey (sortKey parse) records
  records.drop (records.length - limit)

/-- `query` of `ClusterLogsStore`. -/
def query (own : Buffers) (peers : List Buffers) (filter : LogFilter) (limit : Nat) :
    List StoredLog :=
  let params := FilterParams.new filter (some limit)
  newest parse (Telemetry.query parse own filter limit ++ peers.flatMap (serveLogs parse params)) limit

/-- All records of a cluster that match. -/
def matching (pods : List Buffers) (filter : LogFilter) : List StoredLog :=
  (pods.flatMap Buffers.records).filter (filter.matchesRecord parse)

/-- The cluster answers as one pod would that holds all the records. -/
structure Merged (own : Buffers) (peers : List Buffers) (filter : LogFilter) (limit : Nat) : Prop where
  newest : IsNewest (sortKey parse) limit (matching parse (own :: peers) filter)
    (query parse own peers filter limit)
  order : ∀ single : Buffers, single.records.Perm ((own :: peers).flatMap Buffers.records) →
    (query parse own peers filter limit).map (timestampMs parse) =
      (Telemetry.query parse single filter limit).map (timestampMs parse)

/-- No record before 1970 among records after it. -/
def OneEra (records : List StoredLog) : Prop :=
  (∀ r ∈ records, 0 ≤ timestampMs parse r) ∨ ∀ r ∈ records, timestampMs parse r < 0

instance (records : List StoredLog) : Decidable (OneEra parse records) :=
  inferInstanceAs (Decidable (_ ∨ _))

/-- What a peer decodes accepts the same levels. -/
def LevelsSurvive (filter : LogFilter) : Prop :=
  ∀ level, (FilterParams.new filter none).intoFilter.1.levelOk level = filter.levelOk level

variable {parse} {own : Buffers} {peers : List Buffers} {filter : LogFilter} {limit : Nat}
  {records : List StoredLog} {r r' : StoredLog}

/-! ## The filter at a peer -/

theorem toAsciiLowercase_idem (s : String) :
    toAsciiLowercase (toAsciiLowercase s) = toAsciiLowercase s := by
  unfold toAsciiLowercase
  rw [String.toList_ofList, List.map_map]
  refine congrArg String.ofList (List.map_congr_left ?_)
  intro c _
  exact Char.toLower_toLower_eq_toLower c

/-- Level names without commas and surrounding whitespace arrive, in lowercase. -/
theorem parseLevels_join {levels : List String} (hne : levels ≠ [])
    (hplain : ∀ l ∈ levels, ',' ∉ l.toList ∧ Text.trim l = l ∧ l ≠ "") :
    LogFilter.parseLevels (String.ofList ([','].intercalate (levels.map String.toList))) =
      levels.map toAsciiLowercase := by
  have hsplit : ([','].intercalate (levels.map String.toList)).splitOn ',' =
      levels.map String.toList := by
    refine List.splitOn_intercalate ',' ?_ (fun h => hne (List.map_eq_nil_iff.mp h))
    intro cs hcs
    obtain ⟨l, hl, rfl⟩ := List.mem_map.mp hcs
    exact (hplain l hl).1
  have htrim : (levels.map String.toList).map (fun level => Text.trim (String.ofList level)) =
      levels := by
    rw [List.map_map]
    refine (List.map_congr_left ?_).trans (List.map_id levels)
    intro l hl
    show Text.trim (String.ofList l.toList) = l
    rw [String.ofList_toList, (hplain l hl).2.1]
  have hfilter : levels.filter (· ≠ "") = levels := by
    rw [List.filter_eq_self]
    intro l hl
    exact decide_eq_true (hplain l hl).2.2
  rw [LogFilter.parseLevels]
  rw [String.toList_ofList, hsplit, htrim, hfilter]

theorem levelsSurvive (hplain : ∀ l ∈ filter.levels, ',' ∉ l.toList ∧ Text.trim l = l ∧ l ≠ "") :
    LevelsSurvive filter := by
  intro level
  by_cases hne : filter.levels = []
  · unfold FilterParams.new FilterParams.intoFilter LogFilter.levelOk
    simp [hne]
  · have hlevels : (FilterParams.new filter none).intoFilter.1.levels =
        filter.levels.map toAsciiLowercase := by
      unfold FilterParams.new FilterParams.intoFilter
      simp only [List.isEmpty_iff, hne, if_false]
      exact parseLevels_join hne hplain
    unfold LogFilter.levelOk
    rw [hlevels, List.isEmpty_map, List.any_map]
    simp only [Function.comp_def, toAsciiLowercase_idem]

theorem matchesRecord_intoFilter (h : LevelsSurvive filter) (limit : Option Nat) :
    (FilterParams.new filter limit).intoFilter.1.matchesRecord parse = filter.matchesRecord parse := by
  funext record
  have hlevel : (FilterParams.new filter limit).intoFilter.1.levelOk record.level =
      filter.levelOk record.level := h record.level
  rw [LogFilter.matchesRecord]
  rw [hlevel]
  rfl

/-- A peer answers as the pod itself would. -/
theorem serveLogs_eq (h : LevelsSurvive filter) (hlimit : limit ≤ maxQueryLimit) (b : Buffers) :
    serveLogs parse (FilterParams.new filter (some limit)) b = Telemetry.query parse b filter limit := by
  show Telemetry.query parse b (FilterParams.new filter (some limit)).intoFilter.1
    (min limit maxQueryLimit) = _
  rw [query_eq, query_eq, matchesRecord_intoFilter h, Nat.min_eq_left hlimit]

/-! ## The two orders -/

theorem timestampMs_of_parsed {t : Int64} (h : r.timestamp.bind parse = some t) :
    timestampMs parse r = t := by
  rw [timestampMs]
  rw [h]

theorem sortKey_of_parsed {t : Int64} (h : r.timestamp.bind parse = some t) :
    Telemetry.sortKey parse r = WithBot.some t.toUInt64.toNat := by
  rw [Telemetry.sortKey, Telemetry.timestampMs]
  rw [h]
  rfl

theorem toNat_toUInt64 (t : Int64) :
    (t.toUInt64.toNat : Int) = if t < 0 then t.toInt + 2 ^ 64 else t.toInt := by
  have ht : t.toInt = _ := BitVec.toInt_eq_toNat_cond t.toBitVec
  have hnat : t.toUInt64.toNat = t.toBitVec.toNat := rfl
  have hzero : (0 : Int64).toInt = 0 := rfl
  have hlt := t.toBitVec.isLt
  simp only [Int64.lt_iff_toInt_lt, hzero]
  split at ht <;> split <;> omega

/-- On one side of 1970 the milliseconds are in the same order as `u64`. -/
theorem toNat_le_toNat_iff {s t : Int64} (h : 0 ≤ s ∧ 0 ≤ t ∨ s < 0 ∧ t < 0) :
    s.toUInt64.toNat ≤ t.toUInt64.toNat ↔ s.toInt ≤ t.toInt := by
  have hs := toNat_toUInt64 s
  have ht := toNat_toUInt64 t
  rcases h with ⟨hs₀, ht₀⟩ | ⟨hs₀, ht₀⟩
  · rw [if_neg (Int64.not_lt.mpr hs₀)] at hs
    rw [if_neg (Int64.not_lt.mpr ht₀)] at ht
    omega
  · rw [if_pos hs₀] at hs
    rw [if_pos ht₀] at ht
    omega

/-- As `u64` a time before 1970 comes after every other. -/
theorem neg_of_toNat_le {s t : Int64} (hs₀ : s < 0) (h : s.toUInt64.toNat ≤ t.toUInt64.toNat) :
    t < 0 := by
  have hs := toNat_toUInt64 s
  have ht := toNat_toUInt64 t
  have hmin : -2 ^ 63 ≤ s.toInt := s.minValue_le_toInt
  have hmax : t.toInt < 2 ^ 63 := t.toInt_lt
  rw [if_pos hs₀] at hs
  by_contra ht₀
  rw [if_neg ht₀] at ht
  omega

theorem sortKey_le_iff_toNat (hr : (r.timestamp.bind parse).isSome)
    (hr' : (r'.timestamp.bind parse).isSome) :
    Telemetry.sortKey parse r ≤ Telemetry.sortKey parse r' ↔
      (timestampMs parse r).toUInt64.toNat ≤ (timestampMs parse r').toUInt64.toNat := by
  obtain ⟨s, hs⟩ := Option.isSome_iff_exists.mp hr
  obtain ⟨t, ht⟩ := Option.isSome_iff_exists.mp hr'
  rw [sortKey_of_parsed hs, sortKey_of_parsed ht, timestampMs_of_parsed hs, timestampMs_of_parsed ht,
    WithBot.coe_le_coe]

/-! ## Merging the answers -/

theorem filter_flatMap_records (pods : List Buffers) :
    pods.flatMap (fun b => b.records.filter (filter.matchesRecord parse)) =
      matching parse pods filter := by
  rw [matching]
  rw [List.filter_flatMap]

theorem query_eq (h : LevelsSurvive filter) (hlimit : limit ≤ maxQueryLimit) :
    query parse own peers filter limit =
      Lib.newest (sortKey parse) limit
        ((own :: peers).flatMap fun b => Telemetry.query parse b filter limit) := by
  have hpeers : peers.flatMap (serveLogs parse (FilterParams.new filter (some limit))) =
      peers.flatMap fun b => Telemetry.query parse b filter limit := by
    refine congrArg (fun f => peers.flatMap f) ?_
    funext b
    exact serveLogs_eq h hlimit b
  unfold query newest
  dsimp only
  rw [hpeers, (perm_sortByKey _ _).length_eq]
  rfl

/-- What a pod returns is newest in its own order. -/
theorem query_isNewest (b : Buffers) :
    IsNewest (Telemetry.sortKey parse) limit (b.records.filter (filter.matchesRecord parse))
      (Telemetry.query parse b filter limit) := by
  rw [Telemetry.query_eq]
  exact newest_isNewest _ _ _

/-- On one side of 1970 it is also newest in time. -/
theorem isNewest_of_oneEra {all kept : List StoredLog}
    (hparse : ∀ r ∈ all, (r.timestamp.bind parse).isSome) (hera : OneEra parse all)
    (h : IsNewest (Telemetry.sortKey parse) limit all kept) :
    IsNewest (sortKey parse) limit all kept := by
  refine h.congr ?_
  intro r hr r' hr'
  rw [sortKey_le_iff_toNat (hparse r hr) (hparse r' hr')]
  refine toNat_le_toNat_iff ?_
  rcases hera with hera | hera
  · exact .inl ⟨hera r hr, hera r' hr'⟩
  · exact .inr ⟨hera r hr, hera r' hr'⟩

theorem OneEra.subset {records' : List StoredLog} (h : OneEra parse records) (hsub : records' ⊆ records) :
    OneEra parse records' := by
  rcases h with h | h
  · exact .inl fun r hr => h r (hsub hr)
  · exact .inr fun r hr => h r (hsub hr)

theorem query_isNewest_matching
    (hparse : ∀ r ∈ matching parse (own :: peers) filter, (r.timestamp.bind parse).isSome)
    (hera : OneEra parse (matching parse (own :: peers) filter))
    (h : LevelsSurvive filter) (hlimit : limit ≤ maxQueryLimit) :
    IsNewest (sortKey parse) limit (matching parse (own :: peers) filter)
      (query parse own peers filter limit) := by
  have hpods : ∀ b ∈ own :: peers,
      IsNewest (sortKey parse) limit (b.records.filter (filter.matchesRecord parse))
        (Telemetry.query parse b filter limit) := by
    intro b hb
    have hsub : b.records.filter (filter.matchesRecord parse) ⊆ matching parse (own :: peers) filter := by
      rw [← filter_flatMap_records]
      intro r hr
      exact List.mem_flatMap.mpr ⟨b, hb, hr⟩
    exact isNewest_of_oneEra (fun r hr => hparse r (hsub hr)) (hera.subset hsub) (query_isNewest b)
  have hmerge := IsNewest.of_flatMap hpods (newest_isNewest (sortKey parse) limit _)
  rw [filter_flatMap_records] at hmerge
  rw [query_eq h hlimit]
  exact hmerge

theorem map_timestampMs_eq {l l' : List StoredLog} (h : l.map (sortKey parse) = l'.map (sortKey parse)) :
    l.map (timestampMs parse) = l'.map (timestampMs parse) := by
  have htoInt : Function.Injective Int64.toInt := by
    intro s t hst
    exact Int64.toInt_inj.mp hst
  refine List.map_injective_iff.mpr htoInt ?_
  rw [List.map_map, List.map_map]
  exact h

/-- The single pod's matching records are those of the cluster. -/
theorem single_isNewest {single : Buffers}
    (h : single.records.Perm ((own :: peers).flatMap Buffers.records)) :
    IsNewest (Telemetry.sortKey parse) limit (matching parse (own :: peers) filter)
      (Telemetry.query parse single filter limit) :=
  (query_isNewest single).perm (h.filter _)

theorem merged_of_oneEra
    (hparse : ∀ r ∈ matching parse (own :: peers) filter, (r.timestamp.bind parse).isSome)
    (hera : OneEra parse (matching parse (own :: peers) filter))
    (h : LevelsSurvive filter) (hlimit : limit ≤ maxQueryLimit) :
    Merged parse own peers filter limit := by
  have hnewest := query_isNewest_matching hparse hera h hlimit
  refine ⟨hnewest, ?_⟩
  intro single hsingle
  exact map_timestampMs_eq
    (hnewest.map_key_eq (isNewest_of_oneEra hparse hera (single_isNewest hsingle)))

theorem merged_zero (h : LevelsSurvive filter) : Merged parse own peers filter 0 := by
  have hsingle : ∀ b : Buffers, Telemetry.query parse b filter 0 = [] := fun b => (query_isNewest b).eq_nil
  have hnil : query parse own peers filter 0 = [] := by
    rw [query_eq h (Nat.zero_le _)]
    exact (newest_isNewest _ _ _).eq_nil
  refine ⟨?_, ?_⟩
  · rw [hnil]
    exact isNewest_zero _ _
  · intro single _
    rw [hnil, hsingle single]

/-- A merged answer ends with the newest record in time; a single pod's ends with
one from before 1970, if there is one. -/
theorem Merged.oneEra (h : Merged parse own peers filter limit)
    (hparse : ∀ r ∈ matching parse (own :: peers) filter, (r.timestamp.bind parse).isSome)
    (hlimit : limit ≠ 0) : OneEra parse (matching parse (own :: peers) filter) := by
  by_contra hmixed
  rw [OneEra] at hmixed
  push Not at hmixed
  obtain ⟨⟨old, hold, hneg⟩, recent, hrecent, hpos⟩ := hmixed
  obtain ⟨single, hsingle⟩ := exists_buffers ((own :: peers).flatMap Buffers.records)
  have hkept : IsNewest (Telemetry.sortKey parse) limit (matching parse (own :: peers) filter)
      (Telemetry.query parse single filter limit) := single_isNewest hsingle
  obtain ⟨r, hr, hmax⟩ := h.newest.exists_last hlimit hrecent
  obtain ⟨r', hr', hmax'⟩ := hkept.exists_last hlimit hold
  have hlast := congrArg List.getLast? (h.order single hsingle)
  rw [List.getLast?_map, List.getLast?_map, hr, hr', Option.map_some, Option.map_some,
    Option.some.injEq] at hlast
  have hmem : r' ∈ matching parse (own :: peers) filter := hkept.subset (List.mem_of_getLast? hr')
  have hr'neg : timestampMs parse r' < 0 := neg_of_toNat_le
    (Int64.not_le.mp hneg) ((sortKey_le_iff_toNat (hparse old hold) (hparse r' hmem)).mp (hmax' old hold))
  have hrpos : 0 ≤ timestampMs parse r := by
    have hpos := Int64.not_lt.mp hpos
    rw [Int64.le_iff_toInt_le] at hpos ⊢
    exact le_trans hpos (hmax recent hrecent)
  rw [hlast] at hrpos
  exact Int64.not_lt.mpr hrpos hr'neg

/-- For records whose timestamps parse: the cluster answers as one pod with all
the records would exactly when nothing is asked for, or the matching records do
not mix times before 1970 and after. -/
theorem query_merged_iff (parse : Parse) (own : Buffers) (peers : List Buffers) (filter : LogFilter)
    (limit : Nat) (hparse : ∀ r ∈ (own :: peers).flatMap Buffers.records, (r.timestamp.bind parse).isSome)
    (hlimit : limit ≤ maxQueryLimit) (hlevels : LevelsSurvive filter) :
    Merged parse own peers filter limit ↔
      limit = 0 ∨ OneEra parse (matching parse (own :: peers) filter) := by
  have hmatching : ∀ r ∈ matching parse (own :: peers) filter, (r.timestamp.bind parse).isSome := by
    intro r hr
    exact hparse r (List.mem_of_mem_filter hr)
  constructor
  · intro h
    rcases Nat.eq_zero_or_pos limit with hzero | hpos
    · exact .inl hzero
    · exact .inr (h.oneEra hmatching (Nat.ne_of_gt hpos))
  · rintro (rfl | hera)
    · exact merged_zero hlevels
    · exact merged_of_oneEra hmatching hera hlevels hlimit

/-- The instants that the clusters below log at. -/
def sampleParse : Parse := fun timestamp =>
  if timestamp = "1969-12-31T23:59:59+00:00" then some (-1000)
  else if timestamp = "2024-01-01T00:00:00+00:00" then some 1704067200000
  else if timestamp = "2024-01-01T00:00:01+00:00" then some 1704067201000
  else none

def sampleRecord (level timestamp : String) : StoredLog where
  body := ""
  level := level
  timestamp := some timestamp
  target := ""
  spans := []
  fields := []

def samplePod (records : List StoredLog) : Buffers :=
  records.foldl (fun b record => b.pushBounded record 1000) Buffers.empty

theorem query_merged_two_pods :
    Merged sampleParse (samplePod [sampleRecord "warn" "2024-01-01T00:00:00+00:00"])
      [samplePod [sampleRecord "error" "2024-01-01T00:00:01+00:00",
        sampleRecord "info" "2024-01-01T00:00:01+00:00"]]
      { levels := ["warn", "error"] } 1 :=
  (query_merged_iff _ _ _ _ _ (by decide) (by decide) (levelsSurvive (by decide))).mpr
    (.inr (by decide))

/-- One pod that logged before 1970 and in 2024: asked for its newest record it
returns the old one. -/
theorem old_record_hides_new :
    ¬ ∀ (parse : Parse) (own : Buffers) (peers : List Buffers) (filter : LogFilter) (limit : Nat),
      (∀ r ∈ (own :: peers).flatMap Buffers.records, (r.timestamp.bind parse).isSome) →
      limit ≤ maxQueryLimit → Merged parse own peers filter limit := by
  intro h
  have hmerged := h sampleParse
    (samplePod [sampleRecord "warn" "1969-12-31T23:59:59+00:00",
      sampleRecord "warn" "2024-01-01T00:00:00+00:00"]) [] {} 1 (by decide) (by decide)
  have hera := hmerged.oneEra (by decide) (by decide)
  exact absurd hera (by decide)

end Cluster

end Flowgen.Telemetry
