/-
# `Flowgen.Telemetry.Token` — the token of the cluster (`core/src/telemetry/cluster.rs`)

Pods present a token to each other, which the first of them to need it creates
in the cache they share.  `loadOrCreate` is the program of the source: look for
the token, generate one, create it unless somebody else was faster, and then
look again.  What a pod has read it keeps for a while, and it goes on with it
where the cache fails.

Between two calls to the cache the other pods do what they like.  A request may
fail and still arrive, and a caller may be dropped wherever it waits.  As long as
nobody deletes or replaces the token, the cache changes at most once, from
nothing to a token (`Kept`).  A result is sound where the cache has its token by
now (`Sound`), so that it stays sound whatever comes, and two sound results are
one token (`tokens_agree`).
-/
import Flowgen.Lib.Machine
import Flowgen.Lib.Prog
import Flowgen.Lib.Utf8
import Flowgen.Lib.Base64
import Flowgen.Cache.Basic

namespace Flowgen.Telemetry.Token

open Flowgen.Lib Flowgen.Cache

abbrev Bytes := List UInt8

/-- Random bytes in a token. -/
def tokenBytes : Nat := 32

inductive Error
  | tokenCache (source : CacheError)
  | tokenRandom (source : String)
  | tokenEncoding
  | tokenVanished
deriving DecidableEq

/-- The calls of a pod: random bytes, and the cache at the key of the token. -/
inductive Req
  | getrandom
  | get
  | create (value : Bytes)

def Req.Reply : Req → Type
  | .getrandom => Except String Bytes
  | .get => Except CacheError (Option Bytes)
  | .create _ => Except CacheError Nat

abbrev TokenProg (α : Type) := Prog Req Req.Reply (Except Error α)

def load : TokenProg (Option String) :=
  .call .get fun
    | .ok (some value) =>
        match Utf8.fromUtf8 value with
        | some token => .ret (.ok (some token))
        | none => .ret (.error .tokenEncoding)
    | .ok none => .ret (.ok none)
    | .error source => .ret (.error (.tokenCache source))

def generateToken : TokenProg String :=
  .call .getrandom fun
    | .ok bytes => .ret (.ok (String.ofList (Base64.encode Base64.urlSafe bytes)))
    | .error source => .ret (.error (.tokenRandom source))

/-- Somebody else has created the token. -/
def loadCreated : TokenProg String :=
  load.bind fun
    | .ok (some value) => .ret (.ok value)
    | .ok none => .ret (.error .tokenVanished)
    | .error e => .ret (.error e)

def createToken (token : String) : TokenProg String :=
  .call (.create (Utf8.asBytes token)) fun
    | .ok _ => .ret (.ok token)
    | .error .alreadyExists => loadCreated
    | .error source => .ret (.error (.tokenCache source))

def loadOrCreate : TokenProg String :=
  load.bind fun
    | .ok (some value) => .ret (.ok value)
    | .ok none =>
        generateToken.bind fun
          | .ok token => createToken token
          | .error e => .ret (.error e)
    | .error e => .ret (.error e)

/-! ## Pods with one cache -/

/-- What the cache and the operating system are free to do. -/
structure Choice where
  revision : Nat := 0
  random : Bytes := []

/-- A call takes effect. -/
def serve (c : Choice) (cache : Option Bytes) : (r : Req) → Option (r.Reply × Option Bytes)
  | .getrandom => if c.random.length = tokenBytes then some (.ok c.random, cache) else none
  | .get => some (.ok cache, cache)
  | .create value =>
      match cache with
      | some _ => some (.error .alreadyExists, cache)
      | none => some (.ok c.revision, some value)

/-- The reply to a call that failed on its way. -/
def Req.failed : (r : Req) → r.Reply
  | .getrandom => .error "getrandom"
  | .get => .error (.failed "get")
  | .create _ => .error (.failed "create")

/-- What a request that is still on its way may put into the cache. -/
def Req.value : Req → Option Bytes
  | .create value => some value
  | _ => none

/-- `current` and `recheck` read the cache again after a while, in milliseconds. -/
inductive Call
  | current
  | recheck

def Call.maxAge : Call → Nat
  | .current => 30000
  | .recheck => 1000

structure KeptToken where
  token : String
  readAt : Nat

/-- `reading` is the reader that has the lock. -/
structure Pod where
  kept : Option KeptToken := none
  reading : Option (TokenProg String) := none

structure State (ι : Type) where
  now : Nat
  cache : Option Bytes
  pods : ι → Pod
  /-- Requests nobody waits for any more. -/
  stray : List Bytes := []
  /-- What callers were told, newest first. -/
  log : List (ι × Except Error String) := []

/-- The steps of the cluster: time passes, a call is made and gets the lock, a
request is answered or fails, a stray one arrives, a call returns or is dropped,
a pod starts again. -/
inductive Act (ι : Type)
  | tick (ms : Nat)
  | call (e : ι) (c : Call)
  | serve (e : ι) (c : Choice)
  | lose (e : ι)
  | deliver (idx : Nat)
  | finish (e : ι)
  | cancel (e : ι)
  | restart (e : ι)

/-- The token of the cache, or else the one read before it. -/
def Pod.read (pod : Pod) (result : Except Error String) : Except Error String :=
  match result, pod.kept with
  | .ok token, _ => .ok token
  | .error _, some previous => .ok previous.token
  | .error e, none => .error e

/-- The reader returns. -/
def Pod.finish (pod : Pod) (now : Nat) (result : Except Error String) : Pod where
  kept :=
    match pod.read result with
    | .ok token => some ⟨token, now⟩
    | .error _ => pod.kept
  reading := none

/-- What the reader has asked for and will not wait for. -/
def Pod.abandoned (pod : Pod) : List Bytes :=
  (pod.reading.bind fun p => p.pending.bind Req.value).toList

section Step

variable {ι : Type} [DecidableEq ι]

def State.set (s : State ι) (e : ι) (pod : Pod) : State ι :=
  { s with pods := Function.update s.pods e pod }

def State.told (s : State ι) (e : ι) (result : Except Error String) : State ι :=
  { s with log := (e, result) :: s.log }

/-- `read`, once it has the lock. -/
def State.begin (s : State ι) (e : ι) (c : Call) : State ι :=
  match (s.pods e).kept.filter fun kept => s.now - kept.readAt < c.maxAge with
  | some kept => s.told e (.ok kept.token)
  | none => s.set e { s.pods e with reading := some loadOrCreate }

/-- The answer to the call a reader waits for. -/
def Pod.answer {γ : Type} (pod : Pod) (f : (r : Req) → Option (r.Reply × γ)) :
    Option (Pod × γ) :=
  pod.reading.bind fun p => (p.answer f).map fun (p, c) => ({ pod with reading := some p }, c)

def step (s : State ι) : Act ι → Option (State ι)
  | .tick ms => some { s with now := s.now + ms }
  | .call e c => if (s.pods e).reading.isSome then none else some (s.begin e c)
  | .serve e c =>
      ((s.pods e).answer (Token.serve c s.cache)).map fun (pod, cache) =>
        { s.set e pod with cache := cache }
  | .lose e =>
      ((s.pods e).answer fun r => some (r.failed, r.value)).map fun (pod, value) =>
        { s.set e pod with stray := s.stray ++ value.toList }
  | .deliver idx =>
      (s.stray[idx]?).map fun value =>
        { s with cache := some (s.cache.getD value), stray := s.stray.eraseIdx idx }
  | .finish e =>
      match (s.pods e).reading with
      | some (.ret result) =>
          some ((s.set e ((s.pods e).finish s.now result)).told e ((s.pods e).read result))
      | _ => none
  | .cancel e =>
      some { s.set e { s.pods e with reading := none } with
        stray := s.stray ++ (s.pods e).abandoned }
  | .restart e => some { s.set e {} with stray := s.stray ++ (s.pods e).abandoned }

/-- The pods have just started; the cache may have a token already. -/
def cluster : Machine (State ι) (Act ι) where
  init s := ∃ now cache, s = { now := now, cache := cache, pods := fun _ => {} }
  step := step

end Step

/-! ## Agreement -/

/-- The cache is written once. -/
def Kept (cache cache' : Option Bytes) : Prop := cache = none ∨ cache' = cache

/-- The cache has the token. -/
def Agrees (cache : Option Bytes) (token : String) : Prop :=
  ∃ value, cache = some value ∧ Utf8.fromUtf8 value = some token

def Sound (cache : Option Bytes) (result : Except Error String) : Prop :=
  ∀ token, result = .ok token → Agrees cache token

/-- An answer a call may get, and what it leaves. -/
def Serves (cache : Option Bytes) (r : Req) (x : r.Reply) (cache' : Option Bytes) : Prop :=
  (∃ c, serve c cache r = some (x, cache')) ∨ x = r.failed ∧ cache' = cache

/-- The program ends in a sound result, whatever the other pods do. -/
abbrev TokenProg.Safe (p : TokenProg String) (cache : Option Bytes) : Prop :=
  p.Among Kept Serves Sound cache

variable {cache cache' cache'' : Option Bytes} {token token' : String}
  {result : Except Error String} {e : Error}

theorem Kept.refl : Kept cache cache := .inr rfl

theorem Kept.trans (h : Kept cache cache') (h' : Kept cache' cache'') : Kept cache cache'' := by
  rcases h with h | rfl
  · exact .inl h
  · exact h'

theorem Kept.getD (value : Bytes) : Kept cache (some (cache.getD value)) := by
  cases cache with
  | none => exact .inl rfl
  | some _ => exact .inr rfl

theorem Agrees.mono (h : Agrees cache token) (hkept : Kept cache cache') : Agrees cache' token := by
  obtain ⟨value, hvalue, htoken⟩ := h
  rcases hkept with hnone | rfl
  · cases hnone.symm.trans hvalue
  · exact ⟨value, hvalue, htoken⟩

theorem Agrees.unique (h : Agrees cache token) (h' : Agrees cache token') : token = token' := by
  obtain ⟨value, hvalue, htoken⟩ := h
  obtain ⟨value', hvalue', htoken'⟩ := h'
  cases hvalue.symm.trans hvalue'
  exact Option.some.inj (htoken.symm.trans htoken')

theorem Sound.mono (h : Sound cache result) (hkept : Kept cache cache') : Sound cache' result :=
  fun token htoken => (h token htoken).mono hkept

theorem sound_error : Sound cache (.error e) := fun _ h => by cases h

theorem sound_ok (h : Agrees cache token) : Sound cache (.ok token) := fun _ htoken => by
  cases htoken
  exact h

theorem TokenProg.Safe.mono {p : TokenProg String} (h : p.Safe cache) (hkept : Kept cache cache') :
    p.Safe cache' :=
  h.stable hkept Kept.trans fun hsound => hsound.mono hkept

/-! ### The programs -/

theorem serves_get {x : Req.get.Reply} (h : Serves cache .get x cache') :
    cache' = cache ∧ (x = .ok cache ∨ x = .error (.failed "get")) := by
  rcases h with ⟨c, hc⟩ | ⟨rfl, rfl⟩
  · cases hc
    exact ⟨rfl, .inl rfl⟩
  · exact ⟨rfl, .inr rfl⟩

theorem serves_create {value : Bytes} {x : (Req.create value).Reply}
    (h : Serves cache (.create value) x cache') :
    (∃ revision, x = .ok revision ∧ cache' = some value) ∨
      (x = .error .alreadyExists ∨ x = .error (.failed "create")) ∧ cache' = cache := by
  rcases h with ⟨c, hc⟩ | ⟨rfl, rfl⟩
  · cases cache with
    | some _ =>
        cases hc
        exact .inr ⟨.inl rfl, rfl⟩
    | none =>
        cases hc
        exact .inl ⟨_, rfl, rfl⟩
  · exact .inr ⟨.inr rfl, rfl⟩

/-- What is loaded is in the cache. -/
theorem load_safe : load.Among Kept Serves
    (fun cache result => ∀ token, result = .ok (some token) → Agrees cache token) cache := by
  intro cache' _ x cache'' hserves
  obtain ⟨rfl, rfl | rfl⟩ := serves_get hserves
  · cases cache'' with
    | none => exact fun _ h => by cases h
    | some value =>
        cases htoken : Utf8.fromUtf8 value with
        | none =>
            simp only [htoken]
            exact fun _ h => by cases h
        | some token =>
            simp only [htoken]
            intro token' h
            cases h
            exact ⟨value, rfl, htoken⟩
  · exact fun _ h => by cases h

/-- A token that is generated is read again as it was written. -/
theorem generateToken_safe : generateToken.Among Kept Serves
    (fun _ result => ∀ token, result = .ok token →
      Utf8.fromUtf8 (Utf8.asBytes token) = some token) cache := by
  intro cache' _ x cache'' _
  cases x with
  | error source => exact fun _ h => by cases h
  | ok bytes =>
      intro token h
      cases h
      refine Utf8.fromUtf8_asBytes fun c hc => ?_
      obtain ⟨digit, rfl⟩ := Base64.mem_encode hc
      exact Base64.urlSafe_ascii digit

theorem loadCreated_safe : loadCreated.Safe cache := by
  refine load_safe.bind fun cache result hresult => ?_
  rcases result with e | _ | token
  · exact sound_error
  · exact sound_error
  · exact sound_ok (hresult token rfl)

theorem createToken_safe (h : Utf8.fromUtf8 (Utf8.asBytes token) = some token) :
    (createToken token).Safe cache := by
  intro cache' _ x cache'' hserves
  obtain ⟨revision, rfl, rfl⟩ | ⟨rfl | rfl, -⟩ := serves_create hserves
  · exact sound_ok ⟨_, rfl, h⟩
  · exact loadCreated_safe
  · exact sound_error

theorem loadOrCreate_safe : loadOrCreate.Safe cache := by
  refine load_safe.bind fun cache result hresult => ?_
  rcases result with e | _ | token
  · exact sound_error
  · refine generateToken_safe.bind fun cache generated hgenerated => ?_
    cases generated with
    | error e => exact sound_error
    | ok token => exact createToken_safe (hgenerated token rfl)
  · exact sound_ok (hresult token rfl)

/-! ### The pods -/

/-- What a pod keeps is the token of the cache, and what it reads will be. -/
structure Pod.Sound (cache : Option Bytes) (pod : Pod) : Prop where
  kept : ∀ kept, pod.kept = some kept → Agrees cache kept.token
  reading : ∀ p, pod.reading = some p → p.Safe cache

structure Orderly {ι : Type} (s : State ι) : Prop where
  pods : ∀ e, (s.pods e).Sound s.cache
  log : ∀ entry ∈ s.log, Token.Sound s.cache entry.2

theorem Pod.sound_new : ({} : Pod).Sound cache where
  kept _ h := by cases h
  reading _ h := by cases h

theorem Pod.Sound.mono {pod : Pod} (h : pod.Sound cache) (hkept : Kept cache cache') :
    pod.Sound cache' where
  kept kept hk := (h.kept kept hk).mono hkept
  reading p hp := (h.reading p hp).mono hkept

theorem Pod.Sound.read {pod : Pod} (h : pod.Sound cache) (hresult : Token.Sound cache result) :
    Token.Sound cache (pod.read result) := by
  cases result with
  | ok token => exact hresult
  | error e =>
      cases hkept : pod.kept with
      | none =>
          simp only [Pod.read, hkept]
          exact hresult
      | some previous =>
          simp only [Pod.read, hkept]
          exact sound_ok (h.kept previous hkept)

theorem Pod.Sound.finish {pod : Pod} (h : pod.Sound cache) (hresult : Token.Sound cache result)
    (now : Nat) : (pod.finish now result).Sound cache where
  kept kept hk := by
    rw [Pod.finish] at hk
    cases hread : pod.read result with
    | ok token =>
        rw [hread] at hk
        cases hk
        exact h.read hresult token hread
    | error e =>
        rw [hread] at hk
        exact h.kept kept hk
  reading _ hp := by cases hp

theorem Pod.Sound.answer {γ : Type} {pod pod' : Pod} {f : (r : Req) → Option (r.Reply × γ)} {c : γ}
    (h : pod.Sound cache) (hanswer : pod.answer f = some (pod', c)) (hkept : Kept cache cache')
    (hf : ∀ r x, f r = some (x, c) → Serves cache r x cache') : pod'.Sound cache' := by
  obtain ⟨p, hp, hmap⟩ := Option.bind_eq_some_iff.mp hanswer
  obtain ⟨⟨p', c'⟩, hp', heq⟩ := Option.map_eq_some_iff.mp hmap
  cases heq
  obtain ⟨r, k, x, rfl, hr, rfl⟩ := Prog.answer_eq_some hp'
  refine ⟨fun kept hk => (h.kept kept hk).mono hkept, fun q hq => ?_⟩
  cases hq
  exact (h.reading _ hp).served .refl (hf r x hr)

section Steps

variable {ι : Type} [DecidableEq ι] {s s' : State ι} {a : Act ι} {pod : Pod} {e : ι}

/-- The cache is only written to, by one of the pods or by a stray request. -/
theorem Orderly.keep (h : Orderly s) (hkept : Kept s.cache cache) (hpod : pod.Sound cache) :
    Orderly { s.set e pod with cache := cache } where
  pods e' := by
    by_cases he : e' = e
    · subst he
      rw [show ({ s.set e' pod with cache := cache } : State ι).pods e' = pod from
        Function.update_self ..]
      exact hpod
    · rw [show ({ s.set e pod with cache := cache } : State ι).pods e' = s.pods e' from
        Function.update_of_ne he ..]
      exact (h.pods e').mono hkept
  log entry hentry := (h.log entry hentry).mono hkept

theorem Orderly.set (h : Orderly s) (hpod : pod.Sound s.cache) : Orderly (s.set e pod) :=
  h.keep .refl hpod

omit [DecidableEq ι] in
theorem Orderly.told {r : Except Error String} (h : Orderly s) (hr : Token.Sound s.cache r) :
    Orderly (s.told e r) where
  pods := h.pods
  log := List.forall_mem_cons.mpr ⟨hr, h.log⟩

theorem Orderly.begin (h : Orderly s) (c : Call) : Orderly (s.begin e c) := by
  rw [State.begin]
  split
  · rename_i kept hkept
    exact h.told (sound_ok ((h.pods e).kept kept (Option.filter_eq_some_iff.mp hkept).1))
  · refine h.set ⟨(h.pods e).kept, fun p hp => ?_⟩
    cases hp
    exact loadOrCreate_safe

theorem serve_kept {c : Choice} {r : Req} {x : r.Reply}
    (h : serve c cache r = some (x, cache')) : Kept cache cache' := by
  cases r with
  | getrandom =>
      obtain ⟨-, heq⟩ := Option.ite_none_right_eq_some.mp h
      cases heq
      exact .refl
  | get =>
      cases h
      exact .refl
  | create value =>
      cases cache with
      | none => exact .inl rfl
      | some _ =>
          cases h
          exact .refl

theorem Orderly.step (h : Orderly s) (hstep : step s a = some s') : Orderly s' := by
  cases a with
  | tick ms =>
      cases hstep
      exact ⟨h.pods, h.log⟩
  | call e c =>
      obtain ⟨-, heq⟩ := Option.ite_none_left_eq_some.mp hstep
      cases heq
      exact h.begin c
  | serve e c =>
      obtain ⟨⟨pod, cache⟩, hanswer, rfl⟩ := Option.map_eq_some_iff.mp hstep
      obtain ⟨p, hp, hmap⟩ := Option.bind_eq_some_iff.mp hanswer
      have hkept : Kept s.cache cache := by
        obtain ⟨⟨p', cache'⟩, hp', heq⟩ := Option.map_eq_some_iff.mp hmap
        cases heq
        obtain ⟨r, k, x, -, hr, -⟩ := Prog.answer_eq_some hp'
        exact serve_kept hr
      exact h.keep hkept ((h.pods e).answer hanswer hkept fun r x hr => .inl ⟨c, hr⟩)
  | lose e =>
      obtain ⟨⟨pod, value⟩, hanswer, rfl⟩ := Option.map_eq_some_iff.mp hstep
      have hpod : pod.Sound s.cache := (h.pods e).answer hanswer .refl fun r x hr => by
        cases hr
        exact .inr ⟨rfl, rfl⟩
      exact ⟨(h.set hpod).pods, h.log⟩
  | deliver idx =>
      obtain ⟨value, -, rfl⟩ := Option.map_eq_some_iff.mp hstep
      exact ⟨fun e => (h.pods e).mono (.getD value), fun r hr => (h.log r hr).mono (.getD value)⟩
  | finish e =>
      simp only [Token.step] at hstep
      split at hstep
      · rename_i result hresult
        cases hstep
        have hsound : Token.Sound s.cache result := (h.pods e).reading _ hresult
        exact (h.set ((h.pods e).finish hsound s.now)).told ((h.pods e).read hsound)
      · cases hstep
  | cancel e =>
      cases hstep
      have hpod : ({ s.pods e with reading := none } : Pod).Sound s.cache :=
        ⟨(h.pods e).kept, fun _ hp => by cases hp⟩
      exact ⟨(h.set hpod).pods, h.log⟩
  | restart e =>
      cases hstep
      exact ⟨(h.set Pod.sound_new).pods, h.log⟩

theorem orderly_of_reachable (h : cluster.Reachable s) : Orderly s := by
  refine h.invariant ?_ fun s a s' hs _ hstep => hs.step hstep
  rintro s ⟨now, cache, rfl⟩
  refine ⟨fun e => Pod.sound_new, fun entry hentry => ?_⟩
  cases hentry

end Steps

/-- All calls that succeed return the same token, on whichever pod and in whichever
order of the requests, failures, cancellations and restarts. -/
theorem tokens_agree {ι : Type} [DecidableEq ι] {s : State ι} (h : cluster.Reachable s)
    {e e' : ι} {token token' : String} (htoken : (e, .ok token) ∈ s.log)
    (htoken' : (e', .ok token') ∈ s.log) : token = token' :=
  Agrees.unique ((orderly_of_reachable h).log _ htoken token rfl)
    ((orderly_of_reachable h).log _ htoken' token' rfl)

/-- Two pods that find no token: one creates its own, the other one loads it. -/
def race : List (Act Bool) :=
  [.call true .current, .call false .current, .serve true {}, .serve false {},
    .serve true { random := List.replicate 32 1 }, .serve false { random := List.replicate 32 2 },
    .serve true {}, .serve false {}, .serve false {}, .finish true, .finish false]

theorem tokens_agree_race : ∃ (s : State Bool) (token token' : String), cluster.Reachable s ∧
    (true, .ok token) ∈ s.log ∧ (false, .ok token') ∈ s.log ∧ token = token' := by
  let token := "AQEBAQEBAQEBAQEBAQEBAQEBAQEBAQEBAQEBAQEBAQE"
  have hrun : (cluster.exec (fun _ _ => True)
      { now := 0, cache := none, pods := fun _ => {} } race).any
      (fun s => decide (s.log = [(false, .ok token), (true, .ok token)])) := by
    rfl
  obtain ⟨s, hs, hlog⟩ := Machine.exists_of_exec hrun
  have hreach : cluster.Reachable s := ⟨_, race, ⟨0, none, rfl⟩, hs⟩
  have htrue : (true, .ok token) ∈ s.log := by simp [of_decide_eq_true hlog]
  have hfalse : (false, .ok token) ∈ s.log := by simp [of_decide_eq_true hlog]
  exact ⟨s, token, token, hreach, htrue, hfalse, tokens_agree hreach htrue hfalse⟩

end Flowgen.Telemetry.Token
