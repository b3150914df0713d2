/-
# `Flowgen.Lease.Executor` — lease operations over a shared cache (`core/src/executor.rs`)

An executor holds a lease by being the holder in the entry stored under the
lease key, and knows which entry by its revision.  `acquireLease`,
`renewLease`, `stillOwnsLease` and `releaseLeaseWithRevision` are the programs
of the source: what happens between two calls to the cache is up to the other
executors.

The cache is not part of this repository where it is shared; what the source
relies on is documented by the `Cache` trait.  `serve` is a linearizable cache
that keeps to it: one key, compare-and-swap on revisions, and revisions that
are never used again.  What the documentation leaves open is a `Choice`: the
revision a write gets, whether a deletion leaves a marker, and which of the
two errors a refused compare-and-swap reports.
-/
import Flowgen.Lib.Prog
import Flowgen.Lib.Register
import Flowgen.Lib.Saturating
import Flowgen.Cache.Basic

namespace Flowgen.Lease

open Flowgen.Lib Flowgen.Cache

/-- Lease configuration, in milliseconds. -/
structure LeaseConfig where
  leaseDuration : Nat := 60000
  renewalInterval : Nat := 10000

inductive LeaseConfigError
  | zeroLeaseDuration
  | excessiveLeaseDuration (duration : Nat)
  | invalidRenewalInterval (renewal lease : Nat)
deriving DecidableEq

/-- `as_secs`. -/
def asSecs (duration : Nat) : Nat := duration / 1000

def LeaseConfig.validate (c : LeaseConfig) : Except LeaseConfigError Unit :=
  if asSecs c.leaseDuration = 0 then .error .zeroLeaseDuration
  else if c.leaseDuration > 3600 * 1000 then .error (.excessiveLeaseDuration c.leaseDuration)
  else if c.renewalInterval ≥ c.leaseDuration then
    .error (.invalidRenewalInterval c.renewalInterval c.leaseDuration)
  else .ok ()

/-- An executor has a configuration that was validated when it was made. -/
structure Executor (ι : Type) where
  identity : ι
  config : LeaseConfig
  valid : config.validate = .ok ()

/-- `LeaseMetadata`, the value stored under the lease key. -/
structure Metadata (ι : Type) where
  holderIdentity : ι
  renewedAt : Nat
  leaseDurationSecs : Nat
  generation : Nat
deriving DecidableEq

inductive LeaseResult (ι : Type)
  | acquired (revision generation : Nat)
  | heldByOther (holder : ι)
  | takenOver (revision generation : Nat)
deriving DecidableEq

inductive RenewalResult (ι : Type)
  | renewed (revision : Nat)
  | lostOwnership (holder : ι)
  | leaseDeleted
deriving DecidableEq

/-- The calls of an executor: the clock, and the cache at the lease key. -/
inductive Req (ι : Type)
  | clock
  | create (value : Metadata ι)
  | update (value : Metadata ι) (expectedRevision : Nat)
  | getWithRevision
  | getRevision
  | deleteWithRevision (expectedRevision : Nat)
deriving DecidableEq

def Req.Reply {ι : Type} : Req ι → Type
  | .clock => Nat
  | .create _ => Except CacheError Nat
  | .update _ _ => Except CacheError Nat
  | .getWithRevision => Except CacheError (Option (Metadata ι × Nat))
  | .getRevision => Except CacheError (Option Nat)
  | .deleteWithRevision _ => Except CacheError Unit

/-- What an executor does to get an `α`. -/
abbrev LeaseProg (ι α : Type) := Prog (Req ι) Req.Reply (Except CacheError α)

variable {ι : Type}

/-- The metadata an executor writes at time `now`. -/
def Executor.metadata (ex : Executor ι) (now generation : Nat) : Metadata ι where
  holderIdentity := ex.identity
  renewedAt := now
  leaseDurationSecs := asSecs ex.config.leaseDuration
  generation := generation

/-! ## `renew_lease` -/

/-- The lease was taken over or deleted: get the current holder. -/
def renewLost : LeaseProg ι (RenewalResult ι) :=
  .call .getWithRevision fun
    | .ok (some (metadata, _)) => .ret (.ok (.lostOwnership metadata.holderIdentity))
    | .ok none => .ret (.ok .leaseDeleted)
    | .error e => .ret (.error e)

def renewAt (ex : Executor ι) (currentRevision generation now : Nat) :
    LeaseProg ι (RenewalResult ι) :=
  .call (.update (ex.metadata now generation) currentRevision) fun
    | .ok newRevision => .ret (.ok (.renewed newRevision))
    | .error (.revisionMismatch _ _) => renewLost
    | .error .notFound => renewLost
    | .error e => .ret (.error e)

def renewLease (ex : Executor ι) (currentRevision generation : Nat) :
    LeaseProg ι (RenewalResult ι) :=
  .call .clock fun now => renewAt ex currentRevision generation now

/-! ## `acquire_lease` -/

/-- The current holder is this executor: renew. -/
def reclaim (ex : Executor ι) (currentRevision generation : Nat) : LeaseProg ι (LeaseResult ι) :=
  (renewLease ex currentRevision generation).bind fun
    | .ok (.renewed revision) => .ret (.ok (.acquired revision generation))
    | .ok (.lostOwnership holder) => .ret (.ok (.heldByOther holder))
    | .ok .leaseDeleted => .ret (.error .notFound)
    | .error e => .ret (.error e)

/-- The largest generation, `u64::MAX`. -/
def generationMax : Nat := 2 ^ 64 - 1

/-- The lease has expired: replace it, unless somebody else was faster. -/
def takeOver (ex : Executor ι) (now currentRevision : Nat) (current : Metadata ι) :
    LeaseProg ι (LeaseResult ι) :=
  let generation := Saturating.add generationMax current.generation 1
  .call (.update (ex.metadata now generation) currentRevision) fun
    | .ok newRevision => .ret (.ok (.takenOver newRevision generation))
    | .error (.revisionMismatch _ _) =>
        .call .getWithRevision fun
          | .ok (some (metadata, _)) => .ret (.ok (.heldByOther metadata.holderIdentity))
          | .ok none => .ret (.error .notFound)
          | .error e => .ret (.error e)
    | .error e => .ret (.error e)

/-- A key without a value is a deletion marker: overwrite it. -/
def overwriteTombstone (ex : Executor ι) (now : Nat) : LeaseProg ι (LeaseResult ι) :=
  .call .getRevision fun
    | .ok (some tombstoneRevision) =>
        .call (.update (ex.metadata now 1) tombstoneRevision) fun
          | .ok newRevision => .ret (.ok (.acquired newRevision 1))
          | .error e => .ret (.error e)
    | .ok none => .ret (.error .notFound)
    | .error e => .ret (.error e)

/-- The lease exists. -/
def acquireExisting [DecidableEq ι] (ex : Executor ι) (now : Nat) : LeaseProg ι (LeaseResult ι) :=
  .call .getWithRevision fun
    | .ok (some (current, currentRevision)) =>
        if current.holderIdentity = ex.identity then
          reclaim ex currentRevision current.generation
        else if now - current.renewedAt > current.leaseDurationSecs then
          takeOver ex now currentRevision current
        else .ret (.ok (.heldByOther current.holderIdentity))
    | .ok none => overwriteTombstone ex now
    | .error e => .ret (.error e)

def acquireLease [DecidableEq ι] (ex : Executor ι) : LeaseProg ι (LeaseResult ι) :=
  .call .clock fun now =>
    .call (.create (ex.metadata now 1)) fun
      | .ok revision => .ret (.ok (.acquired revision 1))
      | .error .alreadyExists => acquireExisting ex now
      | .error e => .ret (.error e)

/-! ## Releasing -/

def releaseLeaseWithRevision (expectedRevision : Nat) : LeaseProg ι Unit :=
  .call (.deleteWithRevision expectedRevision) .ret

def stillOwnsLease [DecidableEq ι] (ex : Executor ι) : LeaseProg ι (Option Nat) :=
  .call .getWithRevision fun
    | .ok (some (metadata, revision)) =>
        .ret (.ok (if metadata.holderIdentity = ex.identity then some revision else none))
    | .ok none => .ret (.ok none)
    | .error e => .ret (.error e)

/-- What `TaskManager::shutdown` does about a lease. -/
def shutdownLease [DecidableEq ι] (ex : Executor ι) : LeaseProg ι Unit :=
  (stillOwnsLease ex).bind fun
    | .ok (some revision) => releaseLeaseWithRevision revision
    | .ok none => .ret (.ok ())
    | .error e => .ret (.error e)

/-! ## The shared cache -/

/-- The lease key. -/
abbrev LeaseKey (ι : Type) := Register ι (Metadata ι)

/-- What the cache is free to do: the revision a write gets, whether a deletion
leaves a marker, and how a refused compare-and-swap is reported. -/
structure Choice where
  revision : Nat
  marker : Bool := true
  missing : Bool := false

def Choice.refusal (c : Choice) (expectedRevision : Nat) : CacheError :=
  if c.missing then .notFound else .revisionMismatch expectedRevision 0

/-- A call takes effect.  `none` where the cache may not choose so, because
the revision is not new. -/
def serve (writer : ι) (now : Nat) (c : Choice) (reg : LeaseKey ι) :
    (r : Req ι) → Option (r.Reply × LeaseKey ι)
  | .clock => some (now, reg)
  | .create value =>
      match reg.current with
      | some _ => some (.error .alreadyExists, reg)
      | none => (reg.push ⟨c.revision, some writer, some value⟩ true).map (.ok c.revision, ·)
  | .update value expectedRevision =>
      if reg.accepts expectedRevision then
        (reg.push ⟨c.revision, some writer, some value⟩ true).map (.ok c.revision, ·)
      else some (.error (c.refusal expectedRevision), reg)
  | .getWithRevision =>
      some (.ok (reg.current.bind fun w => w.content.map (·, w.revision)), reg)
  | .getRevision => some (.ok (reg.current.map (·.revision)), reg)
  | .deleteWithRevision expectedRevision =>
      if reg.accepts expectedRevision then
        (reg.push ⟨c.revision, some writer, none⟩ c.marker).map (.ok (), ·)
      else some (.error (c.refusal expectedRevision), reg)

/-- The reply to a call that failed on its way.  Reading the clock does not fail. -/
def Req.failed : (r : Req ι) → Option r.Reply
  | .clock => none
  | .create _ => some (.error (.failed "create"))
  | .update _ _ => some (.error (.failed "update"))
  | .getWithRevision => some (.error (.failed "get"))
  | .getRevision => some (.error (.failed "get"))
  | .deleteWithRevision _ => some (.error (.failed "delete"))

/-! ## What the programs write and return -/

/-- The metadata a call would store. -/
def Req.value : Req ι → Option (Metadata ι)
  | .create value => some value
  | .update value _ => some value
  | _ => none

/-- Acquiring and renewing, an executor writes itself as the holder and
deletes nothing. -/
def WritesOwn (e : ι) (r : Req ι) : Prop :=
  (∀ value ∈ r.value, value.holderIdentity = e) ∧ ∀ ρ, r ≠ .deleteWithRevision ρ

/-- The reply says that a write has taken effect, with this revision. -/
def Wrote (ρ : Nat) : (r : Req ι) → r.Reply → Prop
  | .create _, x => x = Except.ok ρ
  | .update _ _, x => x = Except.ok ρ
  | _, _ => False

/-- The revision of a lease that was granted. -/
def granted : Except CacheError (LeaseResult ι) → Option Nat
  | .ok (.acquired revision _) => some revision
  | .ok (.takenOver revision _) => some revision
  | _ => none

/-- The revision of a lease that was renewed. -/
def renewed : Except CacheError (RenewalResult ι) → Option Nat
  | .ok (.renewed revision) => some revision
  | _ => none

/-- A lease is granted only as the outcome of a write. -/
def AcquirePost (r : Req ι) (x : r.Reply) (res : Except CacheError (LeaseResult ι)) : Prop :=
  ∀ ρ ∈ granted res, Wrote ρ r x

def RenewPost (r : Req ι) (x : r.Reply) (res : Except CacheError (RenewalResult ι)) : Prop :=
  ∀ ρ ∈ renewed res, Wrote ρ r x

variable {ex : Executor ι} {now generation ρ : Nat}

theorem writesOwn_update : WritesOwn ex.identity (.update (ex.metadata now generation) ρ) := by
  simp [WritesOwn, Req.value, Executor.metadata]

theorem writesOwn_create : WritesOwn ex.identity (.create (ex.metadata now generation)) := by
  simp [WritesOwn, Req.value, Executor.metadata]

/-- A call that stores nothing and deletes nothing. -/
theorem writesOwn_read {e : ι} {r : Req ι} (hv : r.value = none)
    (hd : ∀ ρ, r ≠ .deleteWithRevision ρ) : WritesOwn e r :=
  ⟨fun _ h => by simp [hv] at h, hd⟩

/-- A result that grants nothing may be returned anywhere. -/
theorem acquirePost_none {r : Req ι} {x : r.Reply} {res : Except CacheError (LeaseResult ι)}
    (h : granted res = none) : AcquirePost r x res := fun ρ hρ => by simp [h] at hρ

theorem renewPost_none {r : Req ι} {x : r.Reply} {res : Except CacheError (RenewalResult ι)}
    (h : renewed res = none) : RenewPost r x res := fun ρ hρ => by simp [h] at hρ

theorem renewLost_within {e : ι} : (renewLost : LeaseProg ι _).Within (WritesOwn e) RenewPost := by
  refine ⟨writesOwn_read rfl (by simp), ?_⟩
  intro x
  rcases x with e | _ | ⟨m, ρ⟩ <;> exact Prog.within_ret (renewPost_none rfl)

theorem renewLease_within (ex : Executor ι) (ρ generation : Nat) :
    (renewLease ex ρ generation).Within (WritesOwn ex.identity) RenewPost := by
  refine ⟨writesOwn_read rfl (by simp), fun now => Prog.within_call ⟨writesOwn_update, fun x => ?_⟩⟩
  rcases x with e | ρ'
  · cases e with
    | revisionMismatch _ _ => exact Prog.within_call renewLost_within
    | notFound => exact Prog.within_call renewLost_within
    | alreadyExists => exact Prog.within_ret (renewPost_none rfl)
    | failed _ => exact Prog.within_ret (renewPost_none rfl)
  · exact Prog.within_ret fun ρ h => by
      cases h
      rfl

theorem reclaim_within (ex : Executor ι) (ρ generation : Nat) :
    (reclaim ex ρ generation).Within (WritesOwn ex.identity) AcquirePost := by
  refine Prog.within_bind (renewLease_within ex ρ generation) (fun a => ?_) fun r x a b hpost hb => ?_
  · rcases a with e | (_ | _ | _) <;> exact trivial
  · rcases a with e | (ρ' | _ | _) <;> cases hb
    · exact acquirePost_none rfl
    · exact hpost
    · exact acquirePost_none rfl
    · exact acquirePost_none rfl

theorem takeOver_within (ex : Executor ι) (now ρ : Nat) (current : Metadata ι) :
    (takeOver ex now ρ current).Within (WritesOwn ex.identity) AcquirePost := by
  refine ⟨writesOwn_update, ?_⟩
  intro x
  rcases x with e | ρ'
  · cases e with
    | revisionMismatch _ _ =>
        refine Prog.within_call ⟨writesOwn_read rfl (by simp), fun y => ?_⟩
        rcases y with e | _ | ⟨m, ρ⟩ <;> exact Prog.within_ret (acquirePost_none rfl)
    | notFound => exact Prog.within_ret (acquirePost_none rfl)
    | alreadyExists => exact Prog.within_ret (acquirePost_none rfl)
    | failed _ => exact Prog.within_ret (acquirePost_none rfl)
  · exact Prog.within_ret fun ρ h => by
      cases h
      rfl

theorem overwriteTombstone_within (ex : Executor ι) (now : Nat) :
    (overwriteTombstone ex now).Within (WritesOwn ex.identity) AcquirePost := by
  refine ⟨writesOwn_read rfl (by simp), ?_⟩
  intro x
  rcases x with e | _ | ρ
  · exact Prog.within_ret (acquirePost_none rfl)
  · exact Prog.within_ret (acquirePost_none rfl)
  · refine Prog.within_call ⟨writesOwn_update, fun y => ?_⟩
    rcases y with e | ρ'
    · exact Prog.within_ret (acquirePost_none rfl)
    · exact Prog.within_ret fun ρ h => by
        cases h
        rfl

theorem acquireExisting_within [DecidableEq ι] (ex : Executor ι) (now : Nat) :
    (acquireExisting ex now).Within (WritesOwn ex.identity) AcquirePost := by
  refine ⟨writesOwn_read rfl (by simp), ?_⟩
  intro x
  rcases x with e | _ | ⟨current, ρ⟩
  · exact Prog.within_ret (acquirePost_none rfl)
  · exact Prog.within_call (overwriteTombstone_within ex now)
  · dsimp only
    split
    · exact Prog.within_call (reclaim_within ex ρ _)
    · split
      · exact Prog.within_call (takeOver_within ex now ρ current)
      · exact Prog.within_ret (acquirePost_none rfl)

theorem acquireLease_within [DecidableEq ι] (ex : Executor ι) :
    (acquireLease ex).Within (WritesOwn ex.identity) AcquirePost := by
  refine ⟨writesOwn_read rfl (by simp), fun now => Prog.within_call ⟨writesOwn_create, fun x => ?_⟩⟩
  rcases x with e | ρ
  · cases e with
    | alreadyExists => exact Prog.within_call (acquireExisting_within ex now)
    | revisionMismatch _ _ => exact Prog.within_ret (acquirePost_none rfl)
    | notFound => exact Prog.within_ret (acquirePost_none rfl)
    | failed _ => exact Prog.within_ret (acquirePost_none rfl)
  · exact Prog.within_ret fun ρ h => by
      cases h
      rfl

/-! ## What a call does to the cache -/

variable {writer : ι} {c : Choice} {reg reg' : LeaseKey ι}

/-- A call leaves the cache as it is, or adds one write: a value that was
stored, or a deletion of the current revision. -/
theorem serve_cases {r : Req ι} {x : r.Reply} (h : serve writer now c reg r = some (x, reg')) :
    (reg' = reg ∧ ∀ ρ, ¬ Wrote ρ r x) ∨
    (∃ value, value ∈ r.value ∧ reg.push ⟨c.revision, some writer, some value⟩ true = some reg' ∧
      (∀ ρ, Wrote ρ r x → ρ = c.revision) ∧
      ((r = .create value ∧ reg.current = none) ∨ ∃ ρ, r = .update value ρ ∧ reg.accepts ρ = true)) ∨
    (∃ ρ, r = .deleteWithRevision ρ ∧ reg.accepts ρ = true ∧
      reg.push ⟨c.revision, some writer, none⟩ c.marker = some reg') := by
  cases r with
  | clock =>
      cases h
      exact Or.inl ⟨rfl, fun _ h => h⟩
  | getWithRevision =>
      cases h
      exact Or.inl ⟨rfl, fun _ h => h⟩
  | getRevision =>
      cases h
      exact Or.inl ⟨rfl, fun _ h => h⟩
  | create value =>
      simp only [serve] at h
      split at h
      · cases h
        exact Or.inl ⟨rfl, fun _ h => by cases h⟩
      · rename_i hnone
        obtain ⟨reg₁, hp, he⟩ := Option.map_eq_some_iff.mp h
        cases he
        exact Or.inr (Or.inl ⟨value, rfl, hp, fun _ h => by cases h; rfl, Or.inl ⟨rfl, hnone⟩⟩)
  | update value ρ =>
      simp only [serve] at h
      split at h
      · rename_i hacc
        obtain ⟨reg₁, hp, he⟩ := Option.map_eq_some_iff.mp h
        cases he
        exact Or.inr (Or.inl ⟨value, rfl, hp, fun _ h => by cases h; rfl, Or.inr ⟨ρ, rfl, hacc⟩⟩)
      · cases h
        exact Or.inl ⟨rfl, fun _ h => by cases h⟩
  | deleteWithRevision ρ =>
      simp only [serve] at h
      split at h
      · rename_i hacc
        obtain ⟨reg₁, hp, he⟩ := Option.map_eq_some_iff.mp h
        cases he
        exact Or.inr (Or.inr ⟨ρ, rfl, hacc, hp⟩)
      · cases h
        exact Or.inl ⟨rfl, fun _ h => h⟩

end Flowgen.Lease
