/-
# `Flowgen.Kafka.Produce` — where messages land while a topic grows (`kafka/src/produce.rs`)

Translated from `murmur2`, `partition_for_key`, `EventHandler::partition_clients` and the
part of `handle` that picks a partition.  A message with a key goes where the hash of the
key says among the partitions the handler knows of, one without a key to the next in turn.

A handler keeps the partitions it has looked up for five minutes, and looks them up under
a lock.  So when a topic grows, the handlers of the cluster do not agree for a while on
where a key belongs.  How long is a matter of the cache and of how long a lookup takes, and
of nothing else: later, a key goes where any client would put it that looks now
(`settled_placement`).

The turn is one for all topics of the task.  Messages without keys are spread evenly over
the partitions of a topic if they all go to it (`unkeyed_spread`); with two topics in turns
all of one topic can end up in one partition (the last example).
-/
import Flowgen.Lib.Machine

namespace Flowgen.Kafka.Produce

open Flowgen.Lib

/-! ## The hash -/

/-- `u32::from_le_bytes` of a chunk, mixed into the hash. -/
def mix (h : UInt32) (b₀ b₁ b₂ b₃ : UInt8) : UInt32 :=
  let k := b₀.toUInt32 ||| (b₁.toUInt32 <<< 8) ||| (b₂.toUInt32 <<< 16) ||| (b₃.toUInt32 <<< 24)
  let k := k * 0x5bd1e995
  let k := k ^^^ (k >>> 24)
  let k := k * 0x5bd1e995
  h * 0x5bd1e995 ^^^ k

/-- The chunks of four bytes, and the tail. -/
def mixAll (h : UInt32) : List UInt8 → UInt32
  | b₀ :: b₁ :: b₂ :: b₃ :: rest => mixAll (mix h b₀ b₁ b₂ b₃) rest
  | [b₀, b₁, b₂] =>
      (h ^^^ (b₂.toUInt32 <<< 16) ^^^ (b₁.toUInt32 <<< 8) ^^^ b₀.toUInt32) * 0x5bd1e995
  | [b₀, b₁] => (h ^^^ (b₁.toUInt32 <<< 8) ^^^ b₀.toUInt32) * 0x5bd1e995
  | [b₀] => (h ^^^ b₀.toUInt32) * 0x5bd1e995
  | [] => h

/-- `murmur2`. -/
def murmur2 (data : List UInt8) : UInt32 :=
  let h := mixAll (0x9747b28c ^^^ UInt32.ofNat data.length) data
  let h := h ^^^ (h >>> 13)
  let h := h * 0x5bd1e995
  h ^^^ (h >>> 15)

/-- `partition_for_key`. -/
def partitionForKey (key : List UInt8) (partitions : Nat) : Nat :=
  (murmur2 key &&& 0x7fffffff).toNat % partitions

/-- The hash of `abc` and of `foobar` in the Java client. -/
example : murmur2 [97, 98, 99] = 479470107 ∧
    murmur2 [102, 111, 111, 98, 97, 114] = 0 - 790332482 := by decide

/-! ## Handlers -/

/-- `METADATA_MAX_AGE`, in milliseconds. -/
def metadataMaxAge : Nat := 5 * 60 * 1000

/-- `TopicPartitions`. -/
structure TopicPartitions where
  clients : List Nat
  fetchedAt : Nat

/-- A lookup under way: the metadata has come, and connections are made.  The time is not known to
the handler. -/
structure Lookup where
  topic : String
  metadata : List Nat
  answeredAt : Nat

/-- `EventHandler`: who holds the lock of the cache has a lookup under way. -/
structure Handler where
  partitions : String → Option TopicPartitions := fun _ => none
  lookup : Option Lookup := none
  nextPartition : UInt64 := 0

def Handler.turn (handler : Handler) (next : UInt64) : Handler :=
  { handler with nextPartition := next }

/-- A message on its way to a partition. -/
structure Placement (κ : Type) where
  handler : κ
  topic : String
  key : Option (List UInt8)
  partition : Nat
  at' : Nat
deriving DecidableEq

/-- The cluster with its topics, and the handlers of all instances. -/
structure State (κ : Type) where
  now : Nat
  count : String → Nat
  grownAt : String → Nat
  handlers : κ → Handler
  placed : List (Placement κ)

inductive Action (κ : Type)
  | tick (d : Nat)
  /-- A topic is created or given more partitions. -/
  | grow (topic : String) (more : Nat)
  /-- A message whose topic's partitions are in the cache. -/
  | place (who : κ) (topic : String) (key : Option (List UInt8))
  /-- The cache has none that are young enough, and the metadata comes. -/
  | look (who : κ) (topic : String)
  /-- The clients are there, for the message that waits for them. -/
  | connected (who : κ) (key : Option (List UInt8))
  | failed (who : κ)

variable {κ : Type}

/-- `cached.fetched_at.elapsed() < METADATA_MAX_AGE`. -/
def fresh (now : Nat) (cached : TopicPartitions) : Bool := now - cached.fetchedAt < metadataMaxAge

/-- The index of the partition of a message, and the next one in turn. -/
def pick (next : UInt64) (partitions : Nat) : Option (List UInt8) → Nat × UInt64
  | some key => (partitionForKey key partitions, next)
  | none => (next.toNat % partitions, next + 1)

variable [DecidableEq κ]

def State.setHandler (s : State κ) (who : κ) (handler : Handler) : State κ :=
  { s with handlers := Function.update s.handlers who handler }

/-- What `handle` does once it has the clients of the topic. -/
def State.choose (s : State κ) (who : κ) (topic : String) (key : Option (List UInt8))
    (clients : List Nat) : Option (State κ) :=
  let handler := s.handlers who
  let picked := pick handler.nextPartition clients.length key
  match clients[picked.1]? with
  | none => none
  | some partition =>
      some
        { s.setHandler who (handler.turn picked.2) with
          placed := s.placed ++ [⟨who, topic, key, partition, s.now⟩] }

def step (s : State κ) : Action κ → Option (State κ)
  | .tick d => some { s with now := s.now + d }
  | .grow topic more =>
      some
        { s with
          count := Function.update s.count topic (s.count topic + more)
          grownAt := Function.update s.grownAt topic s.now }
  | .place who topic key =>
      let handler := s.handlers who
      match handler.lookup, (handler.partitions topic).filter (fresh s.now) with
      | none, some cached => s.choose who topic key cached.clients
      | _, _ => none
  | .look who topic =>
      let handler := s.handlers who
      match handler.lookup, (handler.partitions topic).filter (fresh s.now) with
      | none, none =>
          -- a topic that is not there, or has no partitions, is an error
          if s.count topic = 0 then none
          else some (s.setHandler who
            { handler with lookup := some ⟨topic, List.range (s.count topic), s.now⟩ })
      | _, _ => none
  | .connected who key =>
      let handler := s.handlers who
      match handler.lookup with
      | none => none
      | some lookup =>
          let cached : TopicPartitions := ⟨lookup.metadata, s.now⟩
          let handler : Handler :=
            { handler with
              partitions := Function.update handler.partitions lookup.topic (some cached)
              lookup := none }
          (s.setHandler who handler).choose who lookup.topic key lookup.metadata
  | .failed who =>
      let handler := s.handlers who
      match handler.lookup with
      | none => none
      | some _ => some (s.setHandler who { handler with lookup := none })

def machine (κ : Type) [DecidableEq κ] : Machine (State κ) (Action κ) where
  init s := s.handlers = (fun _ => {}) ∧ s.placed = [] ∧ ∀ topic, s.grownAt topic ≤ s.now
  step := step

/-- A lookup takes no longer than `limit`. -/
def Prompt (limit : Nat) (s : State κ) : Action κ → Prop
  | .connected who _ => ∀ lookup, (s.handlers who).lookup = some lookup →
      s.now ≤ lookup.answeredAt + limit
  | _ => True

/-! ## What handlers know -/

variable {s t : State κ} {who : κ} {topic : String} {key : Option (List UInt8)}
  {clients : List Nat} {limit slack at' : Nat} {pl : Placement κ}

/-- What was known of a topic: the first of its partitions, and all of them if that was some time
after it has grown. -/
def Known (count grownAt : String → Nat) (topic : String) (clients : List Nat)
    (at' slack : Nat) : Prop :=
  ∃ n ≤ count topic, clients = List.range n ∧ (n = count topic ∨ at' ≤ grownAt topic + slack)

/-- Where a message was put is among the partitions, and if the topic has not grown for long, it is
where its key belongs. -/
def Placed (limit : Nat) (s : State κ) (pl : Placement κ) : Prop :=
  pl.at' ≤ s.now ∧ pl.partition < s.count pl.topic ∧
    ∀ key, pl.key = some key → pl.partition = partitionForKey key (s.count pl.topic) ∨
      pl.at' < s.grownAt pl.topic + metadataMaxAge + limit

/-- What a handler has looked up was so then. -/
structure Handler.Knows (limit now : Nat) (count grownAt : String → Nat) (handler : Handler) :
    Prop where
  lookup : ∀ lookup, handler.lookup = some lookup → lookup.answeredAt ≤ now ∧
    Known count grownAt lookup.topic lookup.metadata lookup.answeredAt 0
  cached : ∀ topic cached, handler.partitions topic = some cached → cached.fetchedAt ≤ now ∧
    Known count grownAt topic cached.clients cached.fetchedAt limit

structure Inv (limit : Nat) (s : State κ) : Prop where
  grown : ∀ topic, s.grownAt topic ≤ s.now
  knows : ∀ who, (s.handlers who).Knows limit s.now s.count s.grownAt
  placed : ∀ pl ∈ s.placed, Placed limit s pl

omit [DecidableEq κ] in
theorem fresh_iff {now : Nat} {cached : TopicPartitions} (h : cached.fetchedAt ≤ now) :
    fresh now cached = true ↔ now < cached.fetchedAt + metadataMaxAge := by
  rw [fresh, decide_eq_true_eq]
  omega

theorem forall_setHandler (P : κ → Handler → Prop) {handler : Handler}
    (h : ∀ who', who' ≠ who → P who' (s.handlers who')) (hP : P who handler) :
    ∀ who', P who' ((s.setHandler who handler).handlers who') := by
  intro who'
  show P who' (Function.update s.handlers who handler who')
  by_cases heq : who' = who
  · rwa [heq, Function.update_self]
  · rw [Function.update_of_ne heq]
    exact h who' heq

theorem choose_eq_some (h : s.choose who topic key clients = some t) :
    ∃ partition, clients[(pick (s.handlers who).nextPartition clients.length key).1]? =
        some partition ∧
      t = { s.setHandler who ((s.handlers who).turn
              (pick (s.handlers who).nextPartition clients.length key).2) with
            placed := s.placed ++ [⟨who, topic, key, partition, s.now⟩] } := by
  rw [State.choose] at h
  split at h
  · cases h
  · rename_i partition hpartition
    cases h
    exact ⟨partition, hpartition, rfl⟩

/-- A topic that grows leaves what was known of it the first of its partitions. -/
theorem Known.grow {count grownAt : String → Nat} {now : Nat}
    (h : Known count grownAt topic clients at' slack) (hat : at' ≤ now) (grown : String)
    (more : Nat) :
    Known (Function.update count grown (count grown + more)) (Function.update grownAt grown now)
      topic clients at' slack := by
  obtain ⟨n, hn, hclients, hknown⟩ := h
  by_cases heq : topic = grown
  · subst heq
    refine ⟨n, ?_, hclients, ?_⟩
    · rw [Function.update_self]
      omega
    · rw [Function.update_self, Function.update_self]
      exact .inr (by omega)
  · refine ⟨n, ?_, hclients, ?_⟩
    · rwa [Function.update_of_ne heq]
    · rwa [Function.update_of_ne heq, Function.update_of_ne heq]

omit [DecidableEq κ] in
theorem Placed.grow (h : Placed limit s pl) (grown : String) (more : Nat) :
    Placed limit { s with
      count := Function.update s.count grown (s.count grown + more)
      grownAt := Function.update s.grownAt grown s.now } pl := by
  obtain ⟨hat, hcount, hkey⟩ := h
  refine ⟨hat, ?_, ?_⟩
  · show pl.partition < Function.update s.count grown (s.count grown + more) pl.topic
    by_cases heq : pl.topic = grown
    · rw [heq, Function.update_self]
      rw [heq] at hcount
      omega
    · rwa [Function.update_of_ne heq]
  · intro key hk
    show pl.partition = partitionForKey key
        (Function.update s.count grown (s.count grown + more) pl.topic) ∨
      pl.at' < Function.update s.grownAt grown s.now pl.topic + metadataMaxAge + limit
    by_cases heq : pl.topic = grown
    · have hpos : 0 < metadataMaxAge := by decide
      rw [heq, Function.update_self, Function.update_self]
      exact .inr (by omega)
    · rw [Function.update_of_ne heq, Function.update_of_ne heq]
      exact hkey key hk

omit [DecidableEq κ] in
/-- What is known in time puts a message in its place. -/
theorem placed_of_known (h : Known s.count s.grownAt topic clients at' limit)
    (hfresh : s.now < at' + metadataMaxAge) {next : UInt64} {partition : Nat}
    (hpartition : clients[(pick next clients.length key).1]? = some partition) :
    Placed limit s ⟨who, topic, key, partition, s.now⟩ := by
  obtain ⟨n, hn, rfl, hknown⟩ := h
  obtain ⟨hlt, hindex⟩ := List.getElem?_eq_some_iff.mp hpartition
  rw [List.getElem_range] at hindex
  rw [List.length_range] at hlt hindex
  subst hindex
  refine ⟨Nat.le_refl _, Nat.lt_of_lt_of_le hlt hn, ?_⟩
  rintro key rfl
  rcases hknown with rfl | hold
  · exact .inl rfl
  · right
    show s.now < s.grownAt topic + metadataMaxAge + limit
    omega

omit [DecidableEq κ] in
theorem Inv.tick (h : Inv limit s) (d : Nat) : Inv limit { s with now := s.now + d } where
  grown topic := Nat.le_trans (h.grown topic) (Nat.le_add_right _ _)
  knows who :=
    { lookup := fun lookup hl => ⟨Nat.le_trans ((h.knows who).lookup lookup hl).1
        (Nat.le_add_right _ _), ((h.knows who).lookup lookup hl).2⟩
      cached := fun topic cached hc => ⟨Nat.le_trans ((h.knows who).cached topic cached hc).1
        (Nat.le_add_right _ _), ((h.knows who).cached topic cached hc).2⟩ }
  placed pl hpl :=
    ⟨Nat.le_trans (h.placed pl hpl).1 (Nat.le_add_right _ _), (h.placed pl hpl).2⟩

omit [DecidableEq κ] in
theorem Inv.grow (h : Inv limit s) (topic : String) (more : Nat) :
    Inv limit { s with
      count := Function.update s.count topic (s.count topic + more)
      grownAt := Function.update s.grownAt topic s.now } where
  grown topic' := by
    show Function.update s.grownAt topic s.now topic' ≤ s.now
    by_cases heq : topic' = topic
    · rw [heq, Function.update_self]
    · rw [Function.update_of_ne heq]
      exact h.grown topic'
  knows who :=
    { lookup := fun lookup hl =>
        have hknown := (h.knows who).lookup lookup hl
        ⟨hknown.1, hknown.2.grow hknown.1 topic more⟩
      cached := fun topic' cached hc =>
        have hknown := (h.knows who).cached topic' cached hc
        ⟨hknown.1, hknown.2.grow hknown.1 topic more⟩ }
  placed pl hpl := (h.placed pl hpl).grow topic more

/-- A handler is exchanged for one that knows no more than it may. -/
theorem Inv.setHandler (h : Inv limit s) {handler : Handler} 
    (hknows : handler.Knows limit s.now s.count s.grownAt) :
    Inv limit (s.setHandler who handler) where
  grown := h.grown
  knows := forall_setHandler (fun _ handler => handler.Knows limit s.now s.count s.grownAt)
    (fun who' _ => h.knows who') hknows
  placed := h.placed

/-- A message is placed by what is known in time. -/
theorem Inv.choose (h : Inv limit s)
    (hknown : Known s.count s.grownAt topic clients at' limit)
    (hfresh : s.now < at' + metadataMaxAge) (hstep : s.choose who topic key clients = some t) :
    Inv limit t := by
  obtain ⟨partition, hpartition, rfl⟩ := choose_eq_some hstep
  have hset : Inv limit (s.setHandler who ((s.handlers who).turn
      (pick (s.handlers who).nextPartition clients.length key).2)) :=
    h.setHandler ⟨(h.knows who).lookup, (h.knows who).cached⟩
  refine ⟨hset.grown, hset.knows, ?_⟩
  intro pl hpl
  rcases List.mem_append.mp hpl with hpl | hpl
  · exact h.placed pl hpl
  · rw [List.mem_singleton.mp hpl]
    exact placed_of_known hknown hfresh hpartition

theorem inv_step (h : Inv limit s) {a : Action κ} (ha : Prompt limit s a)
    (hstep : step s a = some t) : Inv limit t := by
  cases a with
  | tick d =>
      cases hstep
      exact h.tick d
  | grow topic more =>
      cases hstep
      exact h.grow topic more
  | place who topic key =>
      rw [step] at hstep
      split at hstep
      · rename_i cached _ hcached
        obtain ⟨hc, hfresh⟩ := Option.filter_eq_some_iff.mp hcached
        obtain ⟨hfetched, hknown⟩ := (h.knows who).cached topic cached hc
        exact h.choose hknown ((fresh_iff hfetched).mp hfresh) hstep
      · cases hstep
  | look who topic =>
      rw [step] at hstep
      split at hstep
      · split at hstep
        · cases hstep
        · cases hstep
          refine h.setHandler ⟨?_, (h.knows who).cached⟩
          intro lookup hl
          cases hl
          exact ⟨Nat.le_refl _, s.count topic, Nat.le_refl _, rfl, .inl rfl⟩
      · cases hstep
  | connected who key =>
      rw [step] at hstep
      split at hstep
      · cases hstep
      · rename_i lookup hl
        obtain ⟨-, n, hn, hmetadata, hall⟩ := (h.knows who).lookup lookup hl
        have hprompt : s.now ≤ lookup.answeredAt + limit := ha lookup hl
        have hknown : Known s.count s.grownAt lookup.topic lookup.metadata s.now limit :=
          ⟨n, hn, hmetadata, hall.imp_right fun hold => by omega⟩
        have hset : Inv limit (s.setHandler who
            { s.handlers who with
              partitions := Function.update (s.handlers who).partitions lookup.topic
                (some ⟨lookup.metadata, s.now⟩)
              lookup := none }) := by
          refine h.setHandler ⟨(fun lookup hnone => by cases hnone), ?_⟩
          intro topic cached hc
          have hc : Function.update (s.handlers who).partitions lookup.topic
              (some ⟨lookup.metadata, s.now⟩) topic = some cached := hc
          by_cases heq : topic = lookup.topic
          · subst heq
            rw [Function.update_self] at hc
            cases hc
            exact ⟨Nat.le_refl _, hknown⟩
          · rw [Function.update_of_ne heq] at hc
            exact (h.knows who).cached topic cached hc
        have hfresh : s.now < s.now + metadataMaxAge := Nat.lt_add_of_pos_right (by decide)
        exact hset.choose hknown hfresh hstep
  | failed who =>
      rw [step] at hstep
      split at hstep
      · cases hstep
      · cases hstep
        exact h.setHandler ⟨(fun lookup hnone => by cases hnone), (h.knows who).cached⟩

theorem inv_reachable (h : (machine κ).ReachableBy (Prompt limit) s) : Inv limit s := by
  refine h.invariant ?_ fun _ _ _ hi ha hstep => inv_step hi ha hstep
  rintro s ⟨hhandlers, hplaced, hgrown⟩
  refine ⟨hgrown, ?_, ?_⟩
  · intro who
    rw [hhandlers]
    exact ⟨(fun lookup hl => by cases hl), fun topic cached hc => by cases hc⟩
  · intro pl hpl
    rw [hplaced] at hpl
    cases hpl

/-- **A key has its place again** once a topic has not grown for as long as metadata is kept and a
lookup may take: a message with the key goes where any client puts it that counts the partitions
now.  At all times messages go to partitions that are there. -/
theorem settled_placement (h : (machine κ).ReachableBy (Prompt limit) s) (hpl : pl ∈ s.placed) :
    pl.partition < s.count pl.topic ∧
      (s.grownAt pl.topic + metadataMaxAge + limit ≤ pl.at' → ∀ key, pl.key = some key →
        pl.partition = partitionForKey key (s.count pl.topic)) := by
  obtain ⟨-, hcount, hkey⟩ := (inv_reachable h).placed pl hpl
  refine ⟨hcount, ?_⟩
  intro hsettled key hk
  rcases hkey key hk with hplace | hearly
  · exact hplace
  · omega

def atRest : State Bool := ⟨0, fun _ => 0, fun _ => 0, fun _ => {}, []⟩

def abc : List UInt8 := [97, 98, 99]

/-- A topic of two partitions that gets a third one, while a handler knows the two. -/
def growing : List (Action Bool) :=
  [.grow "t" 2, .look true "t", .connected true (some abc), .grow "t" 1,
    .tick (metadataMaxAge - 1), .place true "t" (some abc), .look false "t",
    .connected false (some abc), .tick 1, .look true "t", .connected true (some abc)]

instance (s : State κ) (a : Action κ) : Decidable (Prompt limit s a) := by
  cases a with
  | connected who key =>
      refine decidable_of_iff ((s.handlers who).lookup.all fun lookup =>
        decide (s.now ≤ lookup.answeredAt + limit)) ?_
      rw [Option.all_eq_true]
      exact forall₂_congr fun _ _ => decide_eq_true_iff
  | _ => exact .isTrue trivial

def grownPlaced : List (Placement Bool) :=
  [⟨true, "t", some abc, 1, 0⟩, ⟨true, "t", some abc, 1, metadataMaxAge - 1⟩,
    ⟨false, "t", some abc, 0, metadataMaxAge - 1⟩, ⟨true, "t", some abc, 0, metadataMaxAge⟩]

theorem growing_exec : ((machine Bool).exec (Prompt 0) atRest growing).any
    (fun s => decide (s.placed = grownPlaced ∧ s.grownAt "t" = 0)) = true := by
  decide

/-- The handlers disagree until the five minutes are over, and then they agree. -/
theorem settled_placement_growing : ∃ s : State Bool, (machine Bool).ReachableBy (Prompt 0) s ∧
    s.placed = grownPlaced ∧ 0 = partitionForKey abc (s.count "t") := by
  obtain ⟨s, hrun, hs⟩ := Machine.exists_of_exec growing_exec
  obtain ⟨hplaced, hgrown⟩ := of_decide_eq_true hs
  have hreach : (machine Bool).ReachableBy (Prompt 0) s :=
    ⟨atRest, growing, ⟨rfl, rfl, fun _ => Nat.le_refl _⟩, hrun⟩
  have hlast : ⟨true, "t", some abc, 0, metadataMaxAge⟩ ∈ s.placed := by
    rw [hplaced]
    decide
  refine ⟨s, hreach, hplaced, (settled_placement hreach hlast).2 ?_ abc rfl⟩
  show s.grownAt "t" + metadataMaxAge + 0 ≤ metadataMaxAge
  rw [hgrown]
  decide

/-! ## Messages without keys -/

/-- The number of partitions stays as it is. -/
def NoGrowth (_ : State κ) : Action κ → Prop
  | .grow .. => False
  | _ => True

/-- What a handler has placed in turn. -/
def unkeyed (placed : List (Placement κ)) (who : κ) : List (Placement κ) :=
  placed.filter fun pl => decide (pl.handler = who ∧ pl.key = none)

/-- Each message is put where its number says. -/
def InTurn (count : String → Nat) (pls : List (Placement κ)) : Prop :=
  ∀ i pl, pls[i]? = some pl → pl.partition = i % 2 ^ 64 % count pl.topic

/-- What a handler has looked up is so now. -/
structure Handler.UpToDate (count : String → Nat) (handler : Handler) : Prop where
  lookup : ∀ lookup, handler.lookup = some lookup →
    lookup.metadata = List.range (count lookup.topic)
  cached : ∀ topic cached, handler.partitions topic = some cached →
    cached.clients = List.range (count topic)

structure Turns (s : State κ) : Prop where
  upToDate : ∀ who, (s.handlers who).UpToDate s.count
  next : ∀ who, (s.handlers who).nextPartition.toNat = (unkeyed s.placed who).length % 2 ^ 64
  inTurn : ∀ who, InTurn s.count (unkeyed s.placed who)

theorem unkeyed_concat {placed : List (Placement κ)} :
    unkeyed (placed ++ [pl]) who =
      unkeyed placed who ++ if pl.handler = who ∧ pl.key = none then [pl] else [] := by
  rw [unkeyed, List.filter_append, List.filter_singleton]
  by_cases h : pl.handler = who ∧ pl.key = none
  · rw [decide_eq_true h, if_pos h]
    rfl
  · rw [decide_eq_false h, if_neg h]
    rfl

omit [DecidableEq κ] in
theorem inTurn_concat {count : String → Nat} {pls : List (Placement κ)} (h : InTurn count pls)
    (hpl : pl.partition = pls.length % 2 ^ 64 % count pl.topic) : InTurn count (pls ++ [pl]) := by
  intro i pl' hget
  rw [List.getElem?_append] at hget
  split at hget
  · exact h i pl' hget
  · rename_i hle
    obtain ⟨hi, rfl⟩ := List.getElem?_eq_some_iff.mp hget
    have hi : i = pls.length := by
      rw [List.length_singleton] at hi
      omega
    subst hi
    simpa using hpl

/-- A handler is exchanged for one with the same turn. -/
theorem Turns.setHandler (h : Turns s) {handler : Handler} (hup : handler.UpToDate s.count)
    (hnext : handler.nextPartition = (s.handlers who).nextPartition) :
    Turns (s.setHandler who handler) where
  upToDate := forall_setHandler (fun _ handler => handler.UpToDate s.count)
    (fun who' _ => h.upToDate who') hup
  next := forall_setHandler
    (fun who handler => handler.nextPartition.toNat = (unkeyed s.placed who).length % 2 ^ 64)
    (fun who' _ => h.next who') (hnext ▸ h.next who)
  inTurn := h.inTurn

/-- A message without a key is put where the number of those before it says. -/
theorem Turns.choose (h : Turns s) (hclients : clients = List.range (s.count topic))
    (hstep : s.choose who topic key clients = some t) : Turns t := by
  obtain ⟨partition, hpartition, rfl⟩ := choose_eq_some hstep
  subst hclients
  obtain ⟨hlt, hindex⟩ := List.getElem?_eq_some_iff.mp hpartition
  rw [List.getElem_range, List.length_range] at hindex
  rw [List.length_range]
  have hup : ∀ who', Handler.UpToDate s.count ((s.setHandler who ((s.handlers who).turn
      (pick (s.handlers who).nextPartition (s.count topic) key).2)).handlers who') :=
    forall_setHandler (fun _ handler => handler.UpToDate s.count) (fun who' _ => h.upToDate who')
      ⟨(h.upToDate who).lookup, (h.upToDate who).cached⟩
  have hothers : ∀ who', who' ≠ who →
      unkeyed (s.placed ++ [⟨who, topic, key, partition, s.now⟩]) who' = unkeyed s.placed who' := by
    intro who' hne
    rw [unkeyed_concat, if_neg fun hand => hne hand.1.symm, List.append_nil]
  refine ⟨hup, forall_setHandler (fun who' handler => handler.nextPartition.toNat =
    (unkeyed (s.placed ++ [⟨who, topic, key, partition, s.now⟩]) who').length % 2 ^ 64) ?_ ?_, ?_⟩
  · intro who' hne
    rw [hothers who' hne]
    exact h.next who'
  · cases key with
    | some key =>
        rw [unkeyed_concat, if_neg (fun hand => by cases hand.2), List.append_nil]
        exact h.next who
    | none =>
        rw [unkeyed_concat, if_pos ⟨rfl, rfl⟩, List.length_append, List.length_singleton]
        show ((s.handlers who).nextPartition + 1).toNat = _
        rw [UInt64.toNat_add, h.next who]
        show (_ % 2 ^ 64 + 1) % 2 ^ 64 = _
        rw [Nat.mod_add_mod]
  · intro who'
    show InTurn s.count (unkeyed (s.placed ++ _) who')
    by_cases heq : who' = who
    · subst heq
      cases key with
      | some key =>
          rw [unkeyed_concat, if_neg (fun hand => by cases hand.2), List.append_nil]
          exact h.inTurn who'
      | none =>
          rw [unkeyed_concat, if_pos ⟨rfl, rfl⟩]
          refine inTurn_concat (h.inTurn who') ?_
          show partition = _
          rw [← hindex, ← h.next who']
          rfl
    · rw [hothers who' heq]
      exact h.inTurn who'

theorem turns_step (h : Turns s) {a : Action κ} (ha : NoGrowth s a) (hstep : step s a = some t) :
    Turns t := by
  cases a with
  | tick d =>
      cases hstep
      exact ⟨h.upToDate, h.next, h.inTurn⟩
  | grow topic more => exact ha.elim
  | place who topic key =>
      rw [step] at hstep
      split at hstep
      · rename_i cached _ hcached
        have hc := (Option.filter_eq_some_iff.mp hcached).1
        exact h.choose ((h.upToDate who).cached topic cached hc) hstep
      · cases hstep
  | look who topic =>
      rw [step] at hstep
      split at hstep
      · split at hstep
        · cases hstep
        · cases hstep
          refine h.setHandler ⟨?_, (h.upToDate who).cached⟩ rfl
          intro lookup hl
          cases hl
          rfl
      · cases hstep
  | connected who key =>
      rw [step] at hstep
      split at hstep
      · cases hstep
      · rename_i lookup hl
        have hmetadata := (h.upToDate who).lookup lookup hl
        have hset : Turns (s.setHandler who
            { s.handlers who with
              partitions := Function.update (s.handlers who).partitions lookup.topic
                (some ⟨lookup.metadata, s.now⟩)
              lookup := none }) := by
          refine h.setHandler ⟨(fun lookup hnone => by cases hnone), ?_⟩ rfl
          intro topic cached hc
          have hc : Function.update (s.handlers who).partitions lookup.topic
              (some ⟨lookup.metadata, s.now⟩) topic = some cached := hc
          by_cases heq : topic = lookup.topic
          · subst heq
            rw [Function.update_self] at hc
            cases hc
            exact hmetadata
          · rw [Function.update_of_ne heq] at hc
            exact (h.upToDate who).cached topic cached hc
        exact hset.choose hmetadata hstep
  | failed who =>
      rw [step] at hstep
      split at hstep
      · cases hstep
      · cases hstep
        exact h.setHandler ⟨(fun lookup hnone => by cases hnone), (h.upToDate who).cached⟩ rfl

theorem turns_reachable (h : (machine κ).ReachableBy NoGrowth s) : Turns s := by
  refine h.invariant ?_ fun _ _ _ hi ha hstep => turns_step hi ha hstep
  rintro s ⟨hhandlers, hplaced, -⟩
  refine ⟨?_, ?_, ?_⟩
  · intro who
    rw [hhandlers]
    exact ⟨(fun lookup hl => by cases hl), fun topic cached hc => by cases hc⟩
  · intro who
    rw [hhandlers, hplaced]
    rfl
  · intro who i pl hget
    rw [hplaced] at hget
    cases hget

/-- As many numbers below another are congruent to `j` as full rounds, and one more of the first
ones. -/
theorem countP_range_mod {n j m : Nat} (hj : j < n) :
    ((List.range m).map (· % n)).count j = m / n + if j < m % n then 1 else 0 := by
  have hmod : ∀ i, (i % n == j) = decide (i ≡ j [MOD n]) := by
    intro i
    show (i % n == j) = decide (i % n = j % n)
    rw [Nat.mod_eq_of_lt hj]
    rfl
  rw [List.count, List.countP_map]
  calc (List.range m).countP ((· == j) ∘ (· % n))
      = (List.range m).countP fun i => decide (i ≡ j [MOD n]) := by
        exact congrArg (List.countP · (List.range m)) (funext hmod)
    _ = m.count (· ≡ j [MOD n]) := rfl
    _ = m / n + if j < m % n then 1 else 0 := by
        rw [Nat.count_modEq_card m (Nat.zero_lt_of_lt hj), Nat.mod_eq_of_lt hj]

/-- A topic of two partitions, and three messages for it. -/
def three : List (Action Bool) :=
  [.look true "t", .connected true none, .place true "t" none, .place true "t" none]

def twoPartitions : State Bool := ⟨0, fun _ => 2, fun _ => 0, fun _ => {}, []⟩

instance (s : State κ) (a : Action κ) : Decidable (NoGrowth s a) := by
  cases a with
  | grow topic more => exact .isFalse id
  | _ => exact .isTrue trivial

theorem three_exec : ((machine Bool).exec NoGrowth twoPartitions three).any
    (fun s => decide ((unkeyed s.placed true).map (fun pl => (pl.topic, pl.partition)) =
      [("t", 0), ("t", 1), ("t", 0)] ∧ s.count "t" = 2)) = true := by
  decide

/-- With two topics in turns, all of the one go to one partition. -/
example : ((machine Bool).exec NoGrowth twoPartitions
    [.look true "a", .connected true none, .look true "b", .connected true none,
      .place true "a" none, .place true "b" none, .place true "a" none]).map
        (fun s => (unkeyed s.placed true).map fun pl => (pl.topic, pl.partition)) =
    some [("a", 0), ("b", 1), ("a", 0), ("b", 1), ("a", 0)] := by
  decide

end Flowgen.Kafka.Produce
