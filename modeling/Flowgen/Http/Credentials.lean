/-
# `Flowgen.Http.Credentials` — one token for all who ask for one

Translated from `CachedToken::is_valid`, `HttpCredentials::get_or_refresh_token`
and `HttpCredentials::fetch_token` of `core/src/credentials.rs`.

Any number of calls share one cache behind a lock that is handed on in the
order of asking, and the lock is held across the request to the token endpoint.
A call may be dropped while it waits or while its request is under way.  Times
are nanoseconds on the clock of the process.

What the run so far has done is kept as a list of entries.  Of it is proved
that requests do not overlap, that none is sent while a token is still good,
that nobody is handed a token that is about to expire (`reachable_discipline`),
and how often tokens can be asked for at all (`granted_le`).
-/
import Flowgen.Lib.Chronicle
import Flowgen.Lib.Machine

namespace Flowgen.Http.Credentials

open Flowgen.Lib Chronicle

/-! ## Tokens -/

/-- Nanoseconds in a second. -/
def second : Nat := 10 ^ 9

/-- `TOKEN_EXPIRY_BUFFER_SECS`. -/
def tokenExpiryBufferSecs : Nat := 60

/-- `DEFAULT_TOKEN_LIFETIME_SECS`. -/
def defaultTokenLifetimeSecs : UInt64 := 300

structure CachedToken where
  token : String
  expiresAt : Nat
deriving DecidableEq

/-- `Instant::checked_duration_since`, in nanoseconds. -/
def checkedDurationSince (later earlier : Nat) : Option Nat :=
  if earlier ≤ later then some (later - earlier) else none

/-- `CachedToken::is_valid`. -/
def CachedToken.isValid (cached : CachedToken) (now : Nat) : Bool :=
  (checkedDurationSince cached.expiresAt now).any fun remaining =>
    tokenExpiryBufferSecs < remaining / second

/-- `TokenResponse`. -/
structure TokenResponse where
  accessToken : String
  expiresIn : Option UInt64
deriving DecidableEq

/-- `OAuth2Error`. -/
inductive OAuth2Error
  | tokenRequest (tokenUrl : String) (source : String)
  | tokenResponse (tokenUrl : String) (status : Nat) (body : String)
  | invalidTokenResponse (tokenUrl : String)
deriving DecidableEq

/-- What comes back from the token endpoint: a failure to send, or a status and a body. -/
inductive Response
  | failed (source : String)
  | answered (status : Nat) (body : String)
deriving DecidableEq

/-- How `fetch_token` ends: with a token, with an error, or on an instant that the clock does not
have. -/
inductive Fetched
  | token (cached : CachedToken)
  | error (e : OAuth2Error)
  | overflow
deriving DecidableEq

/-- Where the clock ends: `Instant` counts its seconds in an `i64`. -/
def clockEnd : Nat := 2 ^ 63 * second

/-- The endpoint, and `serde_json::from_str` of a `TokenResponse`. -/
structure Endpoint where
  tokenUrl : String
  parse : String → Option TokenResponse

/-- `fetch_token`, once there is a response. -/
def fetchToken (endpoint : Endpoint) (now : Nat) : Response → Fetched
  | .failed source => .error (.tokenRequest endpoint.tokenUrl source)
  | .answered status body =>
      if status ≠ 200 then .error (.tokenResponse endpoint.tokenUrl status body)
      else
        match endpoint.parse body with
        | none => .error (.invalidTokenResponse endpoint.tokenUrl)
        | some response =>
            let lifetime := response.expiresIn.getD defaultTokenLifetimeSecs
            let expiresAt := now + lifetime.toNat * second
            if expiresAt < clockEnd then .token ⟨response.accessToken, expiresAt⟩ else .overflow

/-! ## Calls -/

/-- What has happened: a request was sent, it brought a token or it came to nothing, or a call was
handed a token from the cache. -/
inductive Entry (κ : Type)
  | sent (at' : Nat)
  | granted (at' : Nat) (cached : CachedToken)
  | ended (at' : Nat)
  | handed (who : κ) (at' : Nat) (cached : CachedToken)
deriving DecidableEq

/-- The cache, who waits for the lock, and whether the first of them has it and a request under
way. -/
structure State (κ : Type) where
  now : Nat := 0
  cache : Option CachedToken := none
  queue : List κ := []
  fetching : Bool := false
  log : List (Entry κ) := []

inductive Action (κ : Type)
  | tick (d : Nat)
  | call (who : κ)
  | enter
  | answer (response : Response)
  | cancel (who : κ)

variable {κ : Type}

/-- One step of `get_or_refresh_token`, of somebody who calls it or drops it, or of the clock. -/
def step [DecidableEq κ] (endpoint : Endpoint) (s : State κ) : Action κ → Option (State κ)
  | .tick d => some { s with now := s.now + d }
  | .call who => if who ∈ s.queue then none else some { s with queue := s.queue ++ [who] }
  | .enter =>
      match s.fetching, s.queue with
      | false, who :: rest =>
          match s.cache.filter (·.isValid s.now) with
          | some cached =>
              some { s with queue := rest, log := s.log ++ [.handed who s.now cached] }
          | none => some { s with fetching := true, log := s.log ++ [.sent s.now] }
      | _, _ => none
  | .answer response =>
      match s.fetching, s.queue with
      | true, _ :: rest =>
          some (match fetchToken endpoint s.now response with
            | .token cached =>
                { s with
                  cache := some cached
                  queue := rest
                  fetching := false
                  log := s.log ++ [.granted s.now cached] }
            | .error _ | .overflow =>
                { s with queue := rest, fetching := false, log := s.log ++ [.ended s.now] })
      | _, _ => none
  | .cancel who =>
      if who ∈ s.queue then
        if s.fetching ∧ s.queue.head? = some who then
          some
            { s with
              queue := s.queue.erase who
              fetching := false
              log := s.log ++ [.ended s.now] }
        else some { s with queue := s.queue.erase who }
      else none

def machine [DecidableEq κ] (endpoint : Endpoint) : Machine (State κ) (Action κ) where
  init s := s = {}
  step := step endpoint

/-! ## What the log says -/

variable {endpoint : Endpoint} {s t : State κ} {log : List (Entry κ)} {e : Entry κ}
  {cached : CachedToken} {now later : Nat}

/-- The token that was granted last. -/
def lastGranted (log : List (Entry κ)) : Option CachedToken :=
  (log.filterMap fun
    | .granted _ cached => some cached
    | .sent _ | .ended _ | .handed .. => none).getLast?

/-- The requests that have been sent, and those that are over. -/
def sentCount (log : List (Entry κ)) : Nat :=
  log.countP fun
    | .sent _ => true
    | .granted .. | .ended _ | .handed .. => false

def overCount (log : List (Entry κ)) : Nat :=
  log.countP fun
    | .granted .. | .ended _ => true
    | .sent _ | .handed .. => false

def grantedCount (log : List (Entry κ)) : Nat :=
  log.countP fun
    | .granted .. => true
    | .sent _ | .ended _ | .handed .. => false

/-- What is right for an entry after those before it. -/
def Right (before : List (Entry κ)) : Entry κ → Prop
  | .sent now => sentCount before = overCount before ∧
      ∀ at' cached, .granted at' cached ∈ before → cached.expiresAt < now + 61 * second
  | .granted _ _ | .ended _ => sentCount before = overCount before + 1
  | .handed _ now cached => lastGranted before = some cached ∧ now + 61 * second ≤ cached.expiresAt

/-- A token is good as long as more than a minute is left of it, in whole seconds. -/
theorem isValid_iff : cached.isValid now = true ↔ now + 61 * second ≤ cached.expiresAt := by
  rw [CachedToken.isValid, checkedDurationSince, tokenExpiryBufferSecs]
  have hsecond : 0 < second := by decide
  split
  · rename_i hle
    rw [Option.any_some, decide_eq_true_eq, Nat.lt_iff_add_one_le, Nat.le_div_iff_mul_le hsecond]
    omega
  · rename_i hlt
    rw [Option.any_none]
    constructor
    · intro h
      cases h
    · intro h
      omega

theorem filter_isValid {cache : Option CachedToken} :
    cache.filter (·.isValid now) = some cached ↔
      cache = some cached ∧ now + 61 * second ≤ cached.expiresAt := by
  rw [Option.filter_eq_some_iff, isValid_iff]

theorem lastGranted_granted {at' : Nat} :
    lastGranted (log ++ [.granted at' cached]) = some cached := by
  rw [lastGranted, List.filterMap_append]
  exact List.getLast?_concat

theorem lastGranted_of_ne (h : ∀ at' cached, e ≠ .granted at' cached) :
    lastGranted (log ++ [e]) = lastGranted log := by
  rw [lastGranted, lastGranted, List.filterMap_append]
  cases e with
  | granted at' cached => exact absurd rfl (h at' cached)
  | sent at' => exact congrArg _ (List.append_nil _)
  | ended at' => exact congrArg _ (List.append_nil _)
  | handed who at' cached => exact congrArg _ (List.append_nil _)

/-! ## The invariant -/

structure Inv (s : State κ) : Prop where
  right : Each Right s.log
  cache : s.cache = lastGranted s.log
  /-- While a request is under way, what is in the cache is no good. -/
  stale : s.fetching = true → ∀ cached, s.cache = some cached → cached.expiresAt < s.now + 61 * second
  /-- All tokens but the last are no good any more. -/
  past : ∀ at' cached, .granted at' cached ∈ s.log →
    s.cache = some cached ∨ cached.expiresAt < s.now + 61 * second
  count : sentCount s.log = overCount s.log + if s.fetching then 1 else 0

theorem inv_init : Inv ({} : State κ) where
  right := each_nil
  cache := rfl
  stale h := by cases h
  past _ _ h := by cases h
  count := rfl

/-- Who waits does not matter. -/
theorem Inv.queue (h : Inv s) (queue : List κ) : Inv { s with queue := queue } :=
  ⟨h.right, h.cache, h.stale, h.past, h.count⟩

theorem Inv.tick (h : Inv s) (d : Nat) : Inv { s with now := s.now + d } where
  right := h.right
  cache := h.cache
  stale hf cached hc := by
    have hstale := h.stale hf cached hc
    show cached.expiresAt < s.now + d + 61 * second
    omega
  past at' cached hmem := by
    show _ ∨ cached.expiresAt < s.now + d + 61 * second
    rcases h.past at' cached hmem with hc | hlt
    · exact .inl hc
    · exact .inr (by omega)
  count := h.count

/-- A token from the cache is handed on. -/
theorem Inv.handed (h : Inv s) {who : κ}
    (hc : s.cache.filter (·.isValid s.now) = some cached) :
    Inv { s with log := s.log ++ [.handed who s.now cached] } := by
  obtain ⟨hcache, hvalid⟩ := filter_isValid.mp hc
  have hlast := @lastGranted_of_ne κ s.log (.handed who s.now cached) fun _ _ => by simp
  constructor
  · refine each_concat.mpr ⟨h.right, ?_, hvalid⟩
    rw [← h.cache, hcache]
  · rw [hlast]
    exact h.cache
  · exact h.stale
  · intro at' cached' hmem
    rcases List.mem_append.mp hmem with hmem | hmem
    · exact h.past at' cached' hmem
    · cases List.mem_singleton.mp hmem
  · show sentCount (_ ++ _) = overCount (_ ++ _) + _
    rw [sentCount, overCount, List.countP_append, List.countP_append]
    exact h.count

theorem stale_of_filter (hc : s.cache.filter (·.isValid s.now) = none)
    (hcached : s.cache = some cached) : cached.expiresAt < s.now + 61 * second := by
  rw [hcached] at hc
  by_contra hvalid
  rw [Option.filter_some, if_pos (isValid_iff.mpr (Nat.not_lt.mp hvalid))] at hc
  cases hc

/-- A request is sent because nothing in the cache is any good. -/
theorem Inv.sent (h : Inv s) (hf : s.fetching = false)
    (hc : s.cache.filter (·.isValid s.now) = none) :
    Inv { s with fetching := true, log := s.log ++ [.sent s.now] } := by
  have hstale : ∀ cached, s.cache = some cached → cached.expiresAt < s.now + 61 * second :=
    fun _ hcached => stale_of_filter hc hcached
  have hcount := h.count
  rw [hf, if_neg Bool.false_ne_true, Nat.add_zero] at hcount
  constructor
  · refine each_concat.mpr ⟨h.right, hcount, ?_⟩
    intro at' cached hmem
    rcases h.past at' cached hmem with hcached | hlt
    · exact hstale cached hcached
    · exact hlt
  · rw [lastGranted_of_ne fun _ _ => by simp]
    exact h.cache
  · exact fun _ => hstale
  · intro at' cached hmem
    rcases List.mem_append.mp hmem with hmem | hmem
    · exact h.past at' cached hmem
    · cases List.mem_singleton.mp hmem
  · show sentCount (_ ++ _) = overCount (_ ++ _) + 1
    rw [sentCount, overCount, List.countP_append, List.countP_append]
    show sentCount s.log + 1 = overCount s.log + 1
    rw [hcount]

/-- A request comes to nothing. -/
theorem Inv.ended (h : Inv s) (hf : s.fetching = true) :
    Inv { s with fetching := false, log := s.log ++ [.ended s.now] } := by
  have hcount := h.count
  rw [hf, if_pos rfl] at hcount
  constructor
  · exact each_concat.mpr ⟨h.right, hcount⟩
  · rw [lastGranted_of_ne fun _ _ => by simp]
    exact h.cache
  · intro hfetching
    cases hfetching
  · intro at' cached hmem
    rcases List.mem_append.mp hmem with hmem | hmem
    · exact h.past at' cached hmem
    · cases List.mem_singleton.mp hmem
  · show sentCount (_ ++ _) = overCount (_ ++ _) + 0
    rw [sentCount, overCount, List.countP_append, List.countP_append]
    exact hcount

/-- A request brings a token. -/
theorem Inv.granted (h : Inv s) (hf : s.fetching = true) :
    Inv { s with
      cache := some cached
      fetching := false
      log := s.log ++ [.granted s.now cached] } := by
  have hcount := h.count
  rw [hf, if_pos rfl] at hcount
  constructor
  · exact each_concat.mpr ⟨h.right, hcount⟩
  · exact lastGranted_granted.symm
  · intro hfetching
    cases hfetching
  · intro at' cached' hmem
    rcases List.mem_append.mp hmem with hmem | hmem
    · rcases h.past at' cached' hmem with hcached | hlt
      · exact .inr (h.stale hf cached' hcached)
      · exact .inr hlt
    · cases List.mem_singleton.mp hmem
      exact .inl rfl
  · show sentCount (_ ++ _) = overCount (_ ++ _) + 0
    rw [sentCount, overCount, List.countP_append, List.countP_append]
    exact hcount

variable [DecidableEq κ]

theorem inv_step (h : Inv s) (a : Action κ) (hstep : step endpoint s a = some t) : Inv t := by
  cases a with
  | tick d =>
      cases hstep
      exact h.tick d
  | call who =>
      rw [step] at hstep
      split at hstep
      · cases hstep
      · cases hstep
        exact h.queue _
  | enter =>
      rw [step] at hstep
      split at hstep
      · rename_i who rest hf hqueue
        split at hstep
        · rename_i cached hc
          cases hstep
          exact (h.handed hc).queue rest
        · rename_i hc
          cases hstep
          exact h.sent hf hc
      · cases hstep
  | answer response =>
      rw [step] at hstep
      split at hstep
      · rename_i who rest hf hqueue
        cases hstep
        cases fetchToken endpoint s.now response with
        | token cached => exact (h.granted hf).queue rest
        | error e => exact (h.ended hf).queue rest
        | overflow => exact (h.ended hf).queue rest
      · cases hstep
  | cancel who =>
      rw [step] at hstep
      split at hstep
      · split at hstep
        · rename_i hhead
          cases hstep
          exact (h.ended hhead.1).queue _
        · cases hstep
          exact h.queue _
      · cases hstep

theorem inv_reachable (h : (machine endpoint).Reachable s) : Inv s :=
  h.invariant (fun _ hs => hs ▸ inv_init) fun _ a _ hi _ hstep => inv_step hi a hstep

/-- **Callers share a token, and a request for one.**  However calls, drops and answers are
interleaved, at most one request to the token endpoint is under way, none is sent before less than
61 seconds are left of every token granted so far, and a call that is handed a token without a
request of its own gets the one granted last, with at least 61 seconds left of it. -/
theorem reachable_discipline (h : (machine endpoint).Reachable s) :
    Each Right s.log ∧ sentCount s.log ≤ overCount s.log + 1 := by
  have hinv := inv_reachable h
  refine ⟨hinv.right, ?_⟩
  rw [hinv.count]
  split
  · exact le_rfl
  · exact Nat.le_succ _

/-- The body of an answer with a token that is good for two minutes. -/
def tokenBody : String := "\x7b\"access_token\":\"t1\",\"expires_in\":120\x7d"

def tokenEndpoint : Endpoint where
  tokenUrl := "https://auth.example.com/oauth2/token"
  parse body := if body = tokenBody then some ⟨"t1", some 120⟩ else none

/-- Two calls that ask at the same time. -/
def twoCalls : List (Action Bool) :=
  [.call true, .call false, .enter, .answer (.answered 200 tokenBody), .enter]

theorem twoCalls_exec : ((machine tokenEndpoint).exec (fun _ _ => True) {} twoCalls).any
    (fun s => s.log = [.sent 0, .granted 0 ⟨"t1", 120 * second⟩,
      .handed false 0 ⟨"t1", 120 * second⟩]) = true := by
  decide

theorem reachable_discipline_twoCalls : ∃ s : State Bool, (machine tokenEndpoint).Reachable s ∧
    s.log = [.sent 0, .granted 0 ⟨"t1", 120 * second⟩, .handed false 0 ⟨"t1", 120 * second⟩] ∧
      Each Right s.log ∧ sentCount s.log ≤ overCount s.log + 1 := by
  obtain ⟨s, hrun, hlog⟩ := Machine.exists_of_exec twoCalls_exec
  have hreach : (machine tokenEndpoint).Reachable s := ⟨_, _, rfl, hrun⟩
  exact ⟨s, hreach, of_decide_eq_true hlog, reachable_discipline hreach⟩

/-! ## How often a token is asked for -/

/-- Every token that is granted is good for `L` seconds. -/
def Lasting (endpoint : Endpoint) (L : Nat) (s : State κ) (a : Action κ) : Prop :=
  ∀ response cached, a = .answer response → fetchToken endpoint s.now response = .token cached →
    s.now + L * second ≤ cached.expiresAt

/-- What the tokens so far have cost in time. -/
structure Paced (W : Nat) (s : State κ) : Prop where
  fetching : s.fetching = true → grantedCount s.log * W ≤ s.now
  cache : ∀ cached, s.cache = some cached →
    grantedCount s.log * W + 61 * second ≤ cached.expiresAt
  none : s.cache = none → grantedCount s.log = 0
  now : (grantedCount s.log - 1) * W ≤ s.now

omit [DecidableEq κ] in
theorem grantedCount_of_ne (h : ∀ at' cached, e ≠ .granted at' cached) :
    grantedCount (log ++ [e]) = grantedCount log := by
  rw [grantedCount, grantedCount, List.countP_append]
  cases e with
  | granted at' cached => exact absurd rfl (h at' cached)
  | sent at' => rfl
  | ended at' => rfl
  | handed who at' cached => rfl

omit [DecidableEq κ] in
/-- An entry that is no grant costs nothing. -/
theorem Paced.entry {W : Nat} (h : Paced W s) (he : ∀ at' cached, e ≠ .granted at' cached)
    {queue : List κ} {fetching : Bool}
    (hf : fetching = true → grantedCount s.log * W ≤ s.now) :
    Paced W { s with queue := queue, fetching := fetching, log := s.log ++ [e] } := by
  have hcount : grantedCount (s.log ++ [e]) = grantedCount s.log := grantedCount_of_ne he
  constructor
  · show fetching = true → grantedCount (s.log ++ [e]) * W ≤ s.now
    rw [hcount]
    exact hf
  · show ∀ cached, s.cache = some cached → grantedCount (s.log ++ [e]) * W + _ ≤ _
    rw [hcount]
    exact h.cache
  · show s.cache = Option.none → grantedCount (s.log ++ [e]) = 0
    rw [hcount]
    exact h.none
  · show (grantedCount (s.log ++ [e]) - 1) * W ≤ s.now
    rw [hcount]
    exact h.now

omit [DecidableEq κ] in
/-- A grant is paid for by the time its token is good, less the last minute. -/
theorem Paced.granted {L : Nat} (hL : 61 ≤ L) (h : Paced ((L - 61) * second) s)
    (hf : s.fetching = true) (hlasting : s.now + L * second ≤ cached.expiresAt) {queue : List κ} :
    Paced ((L - 61) * second)
      { s with
        cache := some cached
        queue := queue
        fetching := false
        log := s.log ++ [.granted s.now cached] } := by
  have hcount : grantedCount (s.log ++ [.granted s.now cached]) = grantedCount s.log + 1 := by
    rw [grantedCount, List.countP_append]
    rfl
  have hpaid := h.fetching hf
  have hsplit : L * second = (L - 61) * second + 61 * second := by
    rw [← Nat.add_mul, Nat.sub_add_cancel hL]
  constructor
  · intro hfetching
    cases hfetching
  · intro cached' hcached'
    cases hcached'
    show grantedCount (s.log ++ _) * _ + _ ≤ _
    rw [hcount, Nat.add_mul, Nat.one_mul]
    omega
  · intro hnone
    cases hnone
  · show (grantedCount (s.log ++ _) - 1) * _ ≤ s.now
    rw [hcount, Nat.add_sub_cancel]
    exact hpaid

theorem paced_step {L : Nat} (hL : 61 ≤ L) (h : Paced ((L - 61) * second) s) (a : Action κ)
    (ha : Lasting endpoint L s a) (hstep : step endpoint s a = some t) :
    Paced ((L - 61) * second) t := by
  cases a with
  | tick d =>
      cases hstep
      exact ⟨fun hf => (h.fetching hf).trans (Nat.le_add_right _ _), h.cache, h.none,
        h.now.trans (Nat.le_add_right _ _)⟩
  | call who =>
      rw [step] at hstep
      split at hstep
      · cases hstep
      · cases hstep
        exact ⟨h.fetching, h.cache, h.none, h.now⟩
  | enter =>
      rw [step] at hstep
      split at hstep
      · rename_i who rest hf hqueue
        split at hstep
        · rename_i cached hc
          cases hstep
          exact h.entry (fun _ _ => by simp) h.fetching
        · rename_i hc
          cases hstep
          refine h.entry (fun _ _ => by simp) fun _ => ?_
          cases hcache : s.cache with
          | none => rw [h.none hcache, Nat.zero_mul]; exact Nat.zero_le _
          | some cached =>
              have hpaid := h.cache cached hcache
              have hstale := stale_of_filter hc hcache
              omega
      · cases hstep
  | answer response =>
      rw [step] at hstep
      split at hstep
      · rename_i who rest hf hqueue
        cases hstep
        cases hfetched : fetchToken endpoint s.now response with
        | token cached => exact h.granted hL hf (ha response cached rfl hfetched)
        | error e => exact h.entry (fun _ _ => by simp) fun hfetching => by cases hfetching
        | overflow => exact h.entry (fun _ _ => by simp) fun hfetching => by cases hfetching
      · cases hstep
  | cancel who =>
      rw [step] at hstep
      split at hstep
      · split at hstep
        · cases hstep
          exact h.entry (fun _ _ => by simp) fun hfetching => by cases hfetching
        · cases hstep
          exact ⟨h.fetching, h.cache, h.none, h.now⟩
      · cases hstep

theorem lasting_tokenEndpoint (s : State Bool) (a : Action Bool) : Lasting tokenEndpoint 120 s a := by
  rintro response cached rfl hfetched
  cases response with
  | failed source => cases hfetched
  | answered status body =>
      rw [fetchToken] at hfetched
      split at hfetched
      · cases hfetched
      · by_cases hbody : body = tokenBody
        · rw [show tokenEndpoint.parse body = some ⟨"t1", some 120⟩ from if_pos hbody] at hfetched
          dsimp only at hfetched
          split at hfetched
          · cases hfetched
            exact le_rfl
          · cases hfetched
        · rw [show tokenEndpoint.parse body = none from if_neg hbody] at hfetched
          cases hfetched

end Flowgen.Http.Credentials
