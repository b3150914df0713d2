/-
# `Flowgen.Sync.Tick` — the sync tasks (`git/src/sync.rs`, `oci/src/sync.rs`)

A tick of a `git_sync` task clones the branch into the task's directory, lists
the files there, reads and sends them one by one, and keeps the commit in the
cache; a tick of an `oci_sync` task asks for the digest of the tag, pulls the
artifact and sends its files, and keeps the digest.  A tick that finds its
revision in the cache sends nothing.

The key is made of the flow and the source.  It names neither the task nor its
branch and path, and the characters that do not fit into a key fall together.
The revision is kept when the files have been sent, not when the flow is through
with them, and what was sent is what the directory, which other ticks wipe and
fill, held at each moment.  So a tick may be skipped for files that no one has
seen (`skipped_undelivered`); it is not if the revision it finds was kept by an
undisturbed tick of its own task all of whose events were completed
(`skips_delivered`).

What a commit or an artifact holds is a parameter.  What the remote answers,
entries the walk cannot read, and whether the cache and the channel take what
they are given, are part of the step.
-/
import Flowgen.Lib.Machine
import Flowgen.Lib.Slots

namespace Flowgen.Sync

open Flowgen.Lib

/-- A commit or a digest. -/
abbrev Rev := String

structure File where
  path : String
  content : String
deriving DecidableEq

inductive Config
  | git (repositoryUrl branch : String) (path : Option String) (clonePath : String)
      (forcePull : Bool)
  | oci (artifact : String) (forcePull : Bool)

structure Flow where
  /-- The key-safe id. -/
  id : String
  tasks : List Config

/-- What the repositories and registries hold. -/
structure Sources where
  /-- The files of a commit under a path, without `.git`. -/
  tree : Option String → Rev → List File
  tree_paths : ∀ path rev, ((tree path rev).map File.path).Nodup
  /-- The files of an artifact, as its layers compose them. -/
  layers : Rev → List File
  /-- The digest a pull reports, which is another one than the tag's for an index. -/
  manifest : Rev → Rev

def sanitizeRepoUrl (url : String) : String :=
  String.ofList (url.toList.map fun c => if ['/', ':', '@', '?', '='].contains c then '-' else c)

def sanitizeArtifactRef (artifact : String) : String :=
  String.ofList (artifact.toList.map fun c => if ['/', ':', '@'].contains c then '-' else c)

def Flow.cacheKey (flow : Flow) : Config → String
  | .git repositoryUrl _ _ _ _ =>
      "flow." ++ flow.id ++ ".git_head." ++ sanitizeRepoUrl repositoryUrl
  | .oci artifact _ => "flow." ++ flow.id ++ ".oci_digest." ++ sanitizeArtifactRef artifact

/-- The files of a revision under a task's configuration. -/
def Sources.files (W : Sources) : Config → Rev → List File
  | .git _ _ path _ _ => W.tree path
  | .oci _ _ => W.layers

/-- What became of an event in the flow. -/
inductive Outcome
  | pending
  | completed
  | failed
deriving DecidableEq

/-- A file event, with the task and the tick that sent it. -/
structure Sent where
  task : Nat
  tick : Nat
  rev : Rev
  file : File
  outcome : Outcome
deriving DecidableEq

/-- A kept revision, and the tick that kept it. -/
abbrev Kept := Rev × Nat

/-- How far a tick is. -/
inductive Phase
  | started
  /-- The clone directory was removed. -/
  | wiped
  | cloned
  | located (commit : Rev)
  | looked (commit : Rev) (cached : Option Kept)
  /-- With the paths that are left to read and send. -/
  | walking (commit : Rev) (rest : List String)
  /-- Has looked into the cache; the registry is asked for the digest. -/
  | asking (cached : Option Kept)
  | pulling (head : Option Rev)
  | emitting (digest : Rev) (rest : List File)
  /-- Found its revision in the cache, when the events sent were these. -/
  | skipped (rev : Rev) (sent : List Sent)
  | done
  | failed
deriving DecidableEq

structure Tick where
  task : Nat
  config : Config
  /-- What the clone directory held each time the tick looked; the digest pulled. -/
  seen : List (Option Rev)
  /-- The walk left an entry out. -/
  missed : Bool
  phase : Phase

structure State where
  /-- The commit in each clone directory. -/
  clones : String → Option Rev
  cache : String → Option Kept
  ticks : List Tick
  sent : List Sent

def State.initial : State where
  clones _ := none
  cache _ := none
  ticks := []
  sent := []

/-- What is answered from outside while a tick takes a step. -/
structure Answer where
  rev : Option Rev
  cache : Bool
  send : Bool
  unreadable : List String

/-- What happens: a task is ticked, a tick takes its next step, the flow is
through with an event, or the process is restarted. -/
inductive Act
  | tick (task : Nat)
  | next (i : Nat) (ans : Answer)
  | settle (j : Nat) (ok : Bool)
  | restart

section Step

variable (W : Sources) (flow : Flow)

def State.move (s : State) (i : Nat) (t : Tick) (phase : Phase) : State :=
  { s with ticks := s.ticks.set i { t with phase := phase } }

/-- `cache.get`; a failure reads as nothing. -/
def State.read (s : State) (t : Tick) (ans : Answer) : Option Kept :=
  if ans.cache then s.cache (flow.cacheKey t.config) else none

/-- `cache.put`; a failure is only logged. -/
def State.keep (s : State) (i : Nat) (t : Tick) (rev : Rev) (ans : Answer) : State :=
  if ans.cache then
    { s.move i t .done with
      cache := Function.update s.cache (flow.cacheKey t.config) (some (rev, i)) }
  else s.move i t .done

/-- Sends a file and goes on. -/
def State.emit (s : State) (i : Nat) (t : Tick) (rev : Rev) (file : File) (phase : Phase)
    (ans : Answer) : State :=
  if ans.send then
    { s.move i t phase with sent := s.sent ++ [⟨t.task, i, rev, file, .pending⟩] }
  else s.move i t .failed

/-- The walk; entries with an error are left out. -/
def State.list (s : State) (i : Nat) (t : Tick) (path : Option String) (clonePath : String)
    (commit : Rev) (ans : Answer) : State :=
  let found := s.clones clonePath
  let paths := (found.elim [] (W.tree path)).map File.path
  { s with
    ticks := s.ticks.set i
      { t with
        seen := [found]
        missed := paths.any fun p => ans.unreadable.contains p
        phase := .walking commit (paths.filter fun p => !ans.unreadable.contains p) } }

/-- Reads a file and sends it; what cannot be read ends the tick. -/
def State.walk (s : State) (i : Nat) (t : Tick) (path : Option String) (clonePath : String)
    (commit : Rev) (p : String) (rest : List String) (ans : Answer) : State :=
  let found := s.clones clonePath
  match (found.elim [] (W.tree path)).find? fun f => f.path = p && !ans.unreadable.contains p with
  | none => s.move i t .failed
  | some file => s.emit i { t with seen := t.seen ++ [found] } commit file (.walking commit rest) ans

/-- The next step of a `git_sync` tick. -/
def State.advanceGit (s : State) (i : Nat) (t : Tick) (path : Option String) (clonePath : String)
    (forcePull : Bool) (ans : Answer) : Option State :=
  match t.phase with
  | .started =>
      some { s.move i t .wiped with clones := Function.update s.clones clonePath none }
  | .wiped =>
      match ans.rev with
      | none => some (s.move i t .failed)
      | some rev =>
          some { s.move i t .cloned with clones := Function.update s.clones clonePath (some rev) }
  | .cloned =>
      match s.clones clonePath with
      | none => some (s.move i t .failed)
      | some commit => some (s.move i t (.located commit))
  | .located commit => some (s.move i t (.looked commit (s.read flow t ans)))
  | .looked commit cached =>
      if forcePull = false ∧ cached.map Prod.fst = some commit then
        some (s.move i t (.skipped commit s.sent))
      else some (s.list W i t path clonePath commit ans)
  | .walking commit (p :: rest) => some (s.walk W i t path clonePath commit p rest ans)
  | .walking commit [] => some (s.keep flow i t commit ans)
  | _ => none

/-- The next step of an `oci_sync` tick. -/
def State.advanceOci (s : State) (i : Nat) (t : Tick) (forcePull : Bool) (ans : Answer) :
    Option State :=
  match t.phase with
  | .started => some (s.move i t (.asking (s.read flow t ans)))
  | .asking cached =>
      if forcePull then some (s.move i t (.pulling none))
      else
        match ans.rev with
        | none => some (s.move i t .failed)
        | some digest =>
            if cached.map Prod.fst = some digest then some (s.move i t (.skipped digest s.sent))
            else some (s.move i t (.pulling (some digest)))
  | .pulling head =>
      match ans.rev with
      | none => some (s.move i t .failed)
      | some digest =>
          some (s.move i { t with seen := [some digest] }
            (.emitting (head.getD (W.manifest digest)) (W.layers digest)))
  | .emitting digest (file :: rest) => some (s.emit i t digest file (.emitting digest rest) ans)
  | .emitting digest [] => some (s.keep flow i t digest ans)
  | _ => none

def State.advance (s : State) (i : Nat) (ans : Answer) (t : Tick) : Option State :=
  match t.config with
  | .git _ _ path clonePath forcePull => s.advanceGit W flow i t path clonePath forcePull ans
  | .oci _ forcePull => s.advanceOci W flow i t forcePull ans

def Phase.ended : Phase → Bool
  | .skipped _ _ | .done | .failed => true
  | _ => false

/-- A restart drops the ticks that are under way. -/
def Tick.restart (t : Tick) : Tick := if t.phase.ended then t else { t with phase := .failed }

/-- A restart loses the events that are under way. -/
def Sent.restart (ev : Sent) : Sent :=
  if ev.outcome = .pending then { ev with outcome := .failed } else ev

def step (s : State) : Act → Option State
  | .tick task =>
      flow.tasks[task]?.map fun config =>
        { s with ticks := s.ticks ++ [⟨task, config, [], false, .started⟩] }
  | .next i ans => s.ticks[i]?.bind (s.advance W flow i ans)
  | .settle j ok =>
      s.sent[j]?.bind fun ev =>
        if ev.outcome = .pending then
          some { s with
            sent := s.sent.set j { ev with outcome := if ok then .completed else .failed } }
        else none
  | .restart =>
      some { s with ticks := s.ticks.map Tick.restart, sent := s.sent.map Sent.restart }

def machine : Machine State Act where
  init s := s = .initial
  step := step W flow

end Step

/-! ## What a skip stands for -/

/-- Every file of the revision under the configuration was sent by the task and
completed by the flow. -/
def Delivered (W : Sources) (config : Config) (task : Nat) (rev : Rev) (sent : List Sent) : Prop :=
  ∀ file ∈ W.files config rev, ∃ ev ∈ sent, ev.task = task ∧ ev.rev = rev ∧ ev.file = file ∧
    ev.outcome = .completed

/-- The tick is not skipped, or rightly. -/
def Tick.Truthful (W : Sources) (t : Tick) : Prop :=
  ∀ rev sent, t.phase = .skipped rev sent → Delivered W t.config t.task rev sent

/-- What a tick finds in the cache that makes it skip. -/
def Tick.hit (t : Tick) (ans : Answer) : Option Kept :=
  match t.config, t.phase with
  | .git _ _ _ _ false, .looked commit cached => cached.filter fun kept => kept.1 == commit
  | .oci _ false, .asking cached => cached.filter fun kept => some kept.1 == ans.rev
  | _, _ => none

/-- The revision was kept by a tick of the same task that was not disturbed: its
directory held the revision whenever it looked (the tag still had it when it
was pulled), it left no entry out, and the flow completed all that it sent. -/
def Undisturbed (s : State) (task : Nat) (kept : Kept) : Prop :=
  ∃ t, s.ticks[kept.2]? = some t ∧ t.task = task ∧ t.missed = false ∧
    (∀ rev ∈ t.seen, rev = some kept.1) ∧
    ∀ ev ∈ s.sent, ev.tick = kept.2 → ev.outcome = .completed

/-- A tick skips only on what an undisturbed one has kept. -/
def Careful (s : State) : Act → Prop
  | .next i ans => ∀ t kept, s.ticks[i]? = some t → t.hit ans = some kept →
      Undisturbed s t.task kept
  | _ => True

/-! ## What is known of a tick -/

section Invariant

/-- The tick sent the file, with that revision. -/
def Emitted (sent : List Sent) (i task : Nat) (rev : Rev) (file : File) : Prop :=
  ∃ ev ∈ sent, ev.tick = i ∧ ev.task = task ∧ ev.rev = rev ∧ ev.file = file

/-- As long as it was not disturbed, a tick has sent the files of its revision,
except those that are left. -/
def Covers (W : Sources) (sent : List Sent) (i : Nat) (t : Tick) (rev : Rev)
    (left : File → Prop) : Prop :=
  t.missed = false → (∀ r ∈ t.seen, r = some rev) →
    ∀ file ∈ W.files t.config rev, left file ∨ Emitted sent i t.task rev file

/-- A revision in the cache was kept by a tick that is done. -/
def Stored (W : Sources) (flow : Flow) (s : State) (kept : Kept) : Prop :=
  ∃ t, s.ticks[kept.2]? = some t ∧ t.phase = .done ∧ flow.tasks[t.task]? = some t.config ∧
    Covers W s.sent kept.2 t kept.1 fun _ => False

/-- What a tick has established. -/
def PhaseOk (W : Sources) (flow : Flow) (s : State) (i : Nat) (t : Tick) : Prop :=
  match t.phase with
  | .looked _ cached | .asking cached => ∀ kept, cached = some kept → Stored W flow s kept
  | .walking commit rest => Covers W s.sent i t commit fun file => file.path ∈ rest
  | .emitting digest rest => Covers W s.sent i t digest fun file => file ∈ rest
  | .skipped rev sent => Delivered W t.config t.task rev sent
  | _ => True

structure Inv (W : Sources) (flow : Flow) (s : State) : Prop where
  tasks : ∀ (i : Nat) t, s.ticks[i]? = some t → flow.tasks[t.task]? = some t.config
  phases : ∀ (i : Nat) t, s.ticks[i]? = some t → PhaseOk W flow s i t
  cache : ∀ key kept, s.cache key = some kept → Stored W flow s kept

/-- Nothing that was sent is forgotten. -/
def Keeps (sent sent' : List Sent) : Prop :=
  ∀ ev ∈ sent, ∃ ev' ∈ sent', ev'.tick = ev.tick ∧ ev'.task = ev.task ∧ ev'.rev = ev.rev ∧
    ev'.file = ev.file

variable {W : Sources} {flow : Flow} {s s' : State} {i task : Nat} {t t' : Tick} {rev : Rev}
  {file : File} {sent sent' : List Sent} {left left' : File → Prop} {kept : Kept} {ans : Answer}
  {path : Option String} {clonePath : String} {phase : Phase} {forcePull : Bool} {a : Act}

theorem Keeps.refl (sent : List Sent) : Keeps sent sent := by
  intro ev hev
  exact ⟨ev, hev, rfl, rfl, rfl, rfl⟩

theorem Keeps.append (sent more : List Sent) : Keeps sent (sent ++ more) := by
  intro ev hev
  exact ⟨ev, List.mem_append_left _ hev, rfl, rfl, rfl, rfl⟩

theorem Emitted.mono (h : Emitted sent i task rev file) (hk : Keeps sent sent') :
    Emitted sent' i task rev file := by
  obtain ⟨ev, hev, htick, htask, hrev, hfile⟩ := h
  obtain ⟨ev', hev', htick', htask', hrev', hfile'⟩ := hk ev hev
  exact ⟨ev', hev', htick'.trans htick, htask'.trans htask, hrev'.trans hrev,
    hfile'.trans hfile⟩

theorem Covers.mono (h : Covers W sent i t rev left) (hk : Keeps sent sent') :
    Covers W sent' i t rev left := by
  intro hmissed hseen f hf
  rcases h hmissed hseen f hf with hleft | hsent
  · exact Or.inl hleft
  · exact Or.inr (hsent.mono hk)

theorem Covers.imp (h : Covers W sent i t rev left) (hleft : ∀ f, left f → left' f) :
    Covers W sent i t rev left' := by
  intro hmissed hseen f hf
  exact (h hmissed hseen f hf).imp (hleft f) id

/-- A state in which the ticks that were done still are, and nothing that was
sent is forgotten. -/
structure Follows (s s' : State) : Prop where
  done : ∀ (i : Nat) t, s.ticks[i]? = some t → t.phase = .done → s'.ticks[i]? = some t
  sent : Keeps s.sent s'.sent

theorem Stored.mono (h : Stored W flow s kept) (hf : Follows s s') : Stored W flow s' kept := by
  obtain ⟨t, ht, hdone, htask, hcovers⟩ := h
  exact ⟨t, hf.done _ t ht hdone, hdone, htask, hcovers.mono hf.sent⟩

theorem PhaseOk.mono (h : PhaseOk W flow s i t) (hf : Follows s s') : PhaseOk W flow s' i t := by
  unfold PhaseOk at h ⊢
  split at h
  · intro kept hkept
    exact (h kept hkept).mono hf
  · intro kept hkept
    exact (h kept hkept).mono hf
  · exact h.mono hf.sent
  · exact h.mono hf.sent
  · exact h
  · trivial

/-- The state after tick `i` has become `t'`. -/
theorem follows_set (hi : s.ticks[i]? = some t) (hdone : t.phase ≠ .done)
    (hticks : s'.ticks = s.ticks.set i t') (hsent : Keeps s.sent s'.sent) : Follows s s' := by
  refine ⟨?_, hsent⟩
  intro j u hj hu
  rw [hticks]
  rcases eq_or_ne j i with rfl | hji
  · rw [hi] at hj
    cases hj
    exact absurd hu hdone
  · rw [List.getElem?_set_ne (Ne.symm hji)]
    exact hj

/-- A tick takes a step. -/
theorem Inv.move (h : Inv W flow s) (hi : s.ticks[i]? = some t) (hdone : t.phase ≠ .done)
    (hticks : s'.ticks = s.ticks.set i t') (hsent : Keeps s.sent s'.sent)
    (htask : t'.task = t.task) (hconfig : t'.config = t.config)
    (hphase : Follows s s' → PhaseOk W flow s' i t')
    (hcache : ∀ key kept, s'.cache key = some kept →
      s.cache key = some kept ∨ Stored W flow s' kept) : Inv W flow s' := by
  have hfollows : Follows s s' := follows_set hi hdone hticks hsent
  refine ⟨?_, ?_, ?_⟩
  · intro j u hj
    rw [hticks] at hj
    rcases get_set hj with ⟨rfl, rfl⟩ | ⟨-, hj'⟩
    · rw [htask, hconfig]
      exact h.tasks j t hi
    · exact h.tasks j u hj'
  · intro j u hj
    rw [hticks] at hj
    rcases get_set hj with ⟨rfl, rfl⟩ | ⟨-, hj'⟩
    · exact hphase hfollows
    · exact (h.phases j u hj').mono hfollows
  · intro key kept hkept
    rcases hcache key kept hkept with hold | hnew
    · exact (h.cache key kept hold).mono hfollows
    · exact hnew

/-- A tick takes a step that sends and keeps nothing. -/
theorem Inv.quiet (h : Inv W flow s) (hi : s.ticks[i]? = some t) (hdone : t.phase ≠ .done)
    (hticks : s'.ticks = s.ticks.set i t') (hsent : s'.sent = s.sent) (hcache : s'.cache = s.cache)
    (htask : t'.task = t.task) (hconfig : t'.config = t.config)
    (hphase : Follows s s' → PhaseOk W flow s' i t') : Inv W flow s' := by
  refine h.move hi hdone hticks (hsent ▸ Keeps.refl _) htask hconfig hphase ?_
  intro key kept hkept
  exact Or.inl (hcache ▸ hkept)

theorem Inv.fail (h : Inv W flow s) (hi : s.ticks[i]? = some t) (hdone : t.phase ≠ .done)
    (htask : t'.task = t.task) (hconfig : t'.config = t.config) :
    Inv W flow (s.move i t' .failed) :=
  h.quiet hi hdone rfl rfl rfl htask hconfig fun _ => trivial

/-- The files that a tick has sent are those it has covered, and one more. -/
theorem Inv.emit (h : Inv W flow s) (hi : s.ticks[i]? = some t) (hdone : t.phase ≠ .done)
    (htask : t'.task = t.task) (hconfig : t'.config = t.config)
    (hphase : PhaseOk W flow { s.move i t' phase with
      sent := s.sent ++ [⟨t'.task, i, rev, file, .pending⟩] } i { t' with phase := phase }) :
    Inv W flow (s.emit i t' rev file phase ans) := by
  unfold State.emit
  split
  · refine h.move hi hdone rfl (Keeps.append s.sent _) htask hconfig (fun _ => hphase) ?_
    intro key kept hkept
    exact Or.inl hkept
  · exact h.fail hi hdone htask hconfig

theorem Inv.keep (h : Inv W flow s) (hi : s.ticks[i]? = some t) (hdone : t.phase ≠ .done)
    (hcovers : Covers W s.sent i t rev fun _ => False) : Inv W flow (s.keep flow i t rev ans) := by
  have hlt : i < s.ticks.length := (List.getElem?_eq_some_iff.mp hi).1
  unfold State.keep
  split
  · refine h.move hi hdone rfl (Keeps.refl _) rfl rfl (fun _ => trivial) ?_
    intro key kept hkept
    rcases eq_or_ne key (flow.cacheKey t.config) with rfl | hkey
    · right
      change Function.update s.cache _ _ _ = some kept at hkept
      rw [Function.update_self] at hkept
      cases hkept
      exact ⟨{ t with phase := .done }, List.getElem?_set_self hlt, rfl, h.tasks i t hi, hcovers⟩
    · left
      change Function.update s.cache _ _ key = some kept at hkept
      rw [Function.update_of_ne hkey] at hkept
      exact hkept
  · exact h.quiet hi hdone rfl rfl rfl rfl rfl fun _ => trivial

theorem Inv.read (h : Inv W flow s) (hkept : s.read flow t ans = some kept) :
    Stored W flow s kept := by
  unfold State.read at hkept
  split at hkept
  · exact h.cache _ kept hkept
  · cases hkept

/-- What an undisturbed tick of the task has kept was delivered. -/
theorem Stored.delivered (h : Stored W flow s kept) (hu : Undisturbed s t.task kept)
    (htask : flow.tasks[t.task]? = some t.config) :
    Delivered W t.config t.task kept.1 s.sent := by
  obtain ⟨u, hu', hutask, hmissed, hseen, hcompleted⟩ := hu
  obtain ⟨u', hu'', -, hconfig, hcovers⟩ := h
  rw [hu'] at hu''
  cases hu''
  rw [hutask, htask] at hconfig
  obtain hconfig := Option.some.inj hconfig
  intro file hfile
  rw [hconfig] at hfile
  rcases hcovers hmissed hseen file hfile with hfalse | ⟨ev, hev, htick, hevtask, hrev, hevfile⟩
  · exact hfalse.elim
  · exact ⟨ev, hev, hevtask.trans hutask, hrev, hevfile, hcompleted ev hev htick⟩

/-! ### The steps of a tick -/

/-- A tick that is done takes no step. -/
theorem not_done_of_git (hs : s.advanceGit W flow i t path clonePath forcePull ans = some s') :
    t.phase ≠ .done := by
  intro hp
  rw [State.advanceGit, hp] at hs
  cases hs

theorem not_done_of_oci (hs : s.advanceOci W flow i t forcePull ans = some s') :
    t.phase ≠ .done := by
  intro hp
  rw [State.advanceOci, hp] at hs
  cases hs

/-- A tick has looked into the cache, and goes on with what it found there. -/
theorem Inv.look (h : Inv W flow s) (hi : s.ticks[i]? = some t) (hdone : t.phase ≠ .done)
    (hphase : ∀ s', (∀ kept, s.read flow t ans = some kept → Stored W flow s' kept) →
      PhaseOk W flow s' i { t with phase := phase }) :
    Inv W flow (s.move i t phase) := by
  refine h.quiet hi hdone rfl rfl rfl rfl rfl ?_
  intro hfollows
  exact hphase _ fun kept hkept => (h.read hkept).mono hfollows

/-- A tick is skipped, on what the cache had. -/
theorem Inv.skip (h : Inv W flow s) (hi : s.ticks[i]? = some t) (hdone : t.phase ≠ .done)
    (hcareful : Careful s (.next i ans)) (hhit : t.hit ans = some kept)
    (hstored : Stored W flow s kept) :
    Inv W flow (s.move i t (.skipped kept.1 s.sent)) := by
  refine h.quiet hi hdone rfl rfl rfl rfl rfl ?_
  intro _
  exact hstored.delivered (hcareful t kept hi hhit) (h.tasks i t hi)

/-- The listing covers the files of the commit, if the directory held it and
nothing was left out. -/
theorem covers_list {commit : Rev} {sent : List Sent} (hconfig : W.files t.config = W.tree path)
    (hseen : t.seen = [s.clones clonePath])
    (hmissed : t.missed = (((s.clones clonePath).elim [] (W.tree path)).map File.path).any
      fun p => ans.unreadable.contains p) :
    Covers W sent i t commit fun file => file.path ∈
      (((s.clones clonePath).elim [] (W.tree path)).map File.path).filter
        fun p => !ans.unreadable.contains p := by
  intro hclean hcommit f hf
  left
  have hclone : s.clones clonePath = some commit :=
    hcommit _ (hseen ▸ List.mem_singleton_self _)
  rw [hclean, hclone] at hmissed
  rw [hclone]
  rw [hconfig] at hf
  have hpath : f.path ∈ ((some commit).elim [] (W.tree path)).map File.path :=
    List.mem_map_of_mem hf
  refine List.mem_filter.mpr ⟨hpath, ?_⟩
  have hno := List.any_eq_false.mp hmissed.symm f.path hpath
  simpa using hno

/-- A file that was read in the commit and sent is covered. -/
theorem covers_walk {commit : Rev} {p : String} {rest : List String} {found : Option Rev}
    (hconfig : W.files t.config = W.tree path)
    (h : Covers W s.sent i t commit fun f => f.path ∈ p :: rest)
    (hfile : file ∈ found.elim [] (W.tree path)) (hp : file.path = p) :
    Covers W (s.sent ++ [⟨t.task, i, commit, file, .pending⟩]) i
      { t with seen := t.seen ++ [found], phase := phase } commit fun f => f.path ∈ rest := by
  intro hclean hcommit f hf
  have hfound : found = some commit :=
    hcommit found (List.mem_append_right _ (List.mem_singleton_self _))
  rw [hfound] at hfile
  have hold : ∀ r ∈ t.seen, r = some commit := by
    intro r hr
    exact hcommit r (List.mem_append_left _ hr)
  rcases h hclean hold f hf with hleft | hsent
  · rcases List.mem_cons.mp hleft with hfp | hrest
    · right
      change f ∈ W.files t.config commit at hf
      rw [hconfig] at hf
      obtain rfl : file = f :=
        List.inj_on_of_nodup_map (W.tree_paths path commit) hfile hf (hp.trans hfp.symm)
      exact ⟨_, List.mem_append_right _ (List.mem_singleton_self _), rfl, rfl, rfl, rfl⟩
    · exact Or.inl hrest
  · exact Or.inr (hsent.mono (Keeps.append s.sent _))

/-- A file of the artifact that was sent is covered. -/
theorem covers_emit {digest : Rev} {rest : List File}
    (h : Covers W s.sent i t digest fun f => f ∈ file :: rest) :
    Covers W (s.sent ++ [⟨t.task, i, digest, file, .pending⟩]) i t digest fun f => f ∈ rest := by
  intro hclean hseen f hf
  rcases h hclean hseen f hf with hleft | hsent
  · rcases List.mem_cons.mp hleft with rfl | hrest
    · right
      exact ⟨_, List.mem_append_right _ (List.mem_singleton_self _), rfl, rfl, rfl, rfl⟩
    · exact Or.inl hrest
  · exact Or.inr (hsent.mono (Keeps.append s.sent _))

theorem Inv.advanceGit {repositoryUrl branch : String} (h : Inv W flow s)
    (hi : s.ticks[i]? = some t)
    (hconfig : t.config = .git repositoryUrl branch path clonePath forcePull)
    (hcareful : Careful s (.next i ans))
    (hs : s.advanceGit W flow i t path clonePath forcePull ans = some s') : Inv W flow s' := by
  have hfiles : W.files t.config = W.tree path := by rw [hconfig]; rfl
  have hphase := h.phases i t hi
  have hdone := not_done_of_git hs
  unfold State.advanceGit at hs
  cases hp : t.phase with
  | started =>
      simp only [hp] at hs
      cases hs
      exact h.quiet hi hdone rfl rfl rfl rfl rfl fun _ => trivial
  | wiped =>
      simp only [hp] at hs
      split at hs
      · cases hs
        exact h.fail hi hdone rfl rfl
      · cases hs
        exact h.quiet hi hdone rfl rfl rfl rfl rfl fun _ => trivial
  | cloned =>
      simp only [hp] at hs
      split at hs
      · cases hs
        exact h.fail hi hdone rfl rfl
      · cases hs
        exact h.quiet hi hdone rfl rfl rfl rfl rfl fun _ => trivial
  | located commit =>
      simp only [hp] at hs
      cases hs
      exact h.look hi hdone fun s' hread => hread
  | looked commit cached =>
      simp only [hp] at hs
      unfold PhaseOk at hphase
      rw [hp] at hphase
      split at hs
      · -- the tick is skipped, on what the cache had
        rename_i hhit
        cases hs
        obtain ⟨rfl, hcommit⟩ := hhit
        obtain ⟨kept, rfl, rfl⟩ := Option.map_eq_some_iff.mp hcommit
        have hhit : t.hit ans = some kept := by simp [Tick.hit, hconfig, hp]
        exact h.skip hi hdone hcareful hhit (hphase kept rfl)
      · cases hs
        refine h.quiet hi hdone rfl rfl rfl rfl rfl ?_
        intro _
        exact covers_list (s := s) (t := { t with
          seen := [s.clones clonePath]
          missed := (((s.clones clonePath).elim [] (W.tree path)).map File.path).any
            fun p => ans.unreadable.contains p
          phase := _ }) hfiles rfl rfl
  | walking commit rest =>
      unfold PhaseOk at hphase
      rw [hp] at hphase
      cases rest with
      | nil =>
          simp only [hp] at hs
          cases hs
          exact h.keep hi hdone (hphase.imp fun f hf => List.not_mem_nil hf)
      | cons p rest =>
          simp only [hp] at hs
          cases hs
          unfold State.walk
          dsimp only
          split
          · exact h.fail hi hdone rfl rfl
          · rename_i file hfile
            have hpath := List.find?_some hfile
            simp only [Bool.and_eq_true, decide_eq_true_eq] at hpath
            refine h.emit hi hdone rfl rfl ?_
            exact covers_walk hfiles hphase (List.mem_of_find?_eq_some hfile) hpath.1
  | asking cached => simp only [hp] at hs; cases hs
  | pulling head => simp only [hp] at hs; cases hs
  | emitting digest rest => simp only [hp] at hs; cases hs
  | skipped rev sent => simp only [hp] at hs; cases hs
  | done => simp only [hp] at hs; cases hs
  | failed => simp only [hp] at hs; cases hs

theorem Inv.advanceOci {artifact : String} (h : Inv W flow s) (hi : s.ticks[i]? = some t)
    (hconfig : t.config = .oci artifact forcePull) (hcareful : Careful s (.next i ans))
    (hs : s.advanceOci W flow i t forcePull ans = some s') : Inv W flow s' := by
  have hfiles : W.files t.config = W.layers := by rw [hconfig]; rfl
  have hphase := h.phases i t hi
  have hdone := not_done_of_oci hs
  unfold State.advanceOci at hs
  cases hp : t.phase with
  | started =>
      simp only [hp] at hs
      cases hs
      exact h.look hi hdone fun s' hread => hread
  | asking cached =>
      simp only [hp] at hs
      unfold PhaseOk at hphase
      rw [hp] at hphase
      split at hs
      · cases hs
        exact h.quiet hi hdone rfl rfl rfl rfl rfl fun _ => trivial
      · rename_i hforce
        have hforce := Bool.eq_false_iff.mpr hforce
        subst hforce
        split at hs
        · cases hs
          exact h.fail hi hdone rfl rfl
        · rename_i digest hrev
          split at hs
          · -- the tick is skipped, on what the cache had before the registry was asked
            rename_i hhit
            cases hs
            obtain ⟨kept, rfl, rfl⟩ := Option.map_eq_some_iff.mp hhit
            have hhit : t.hit ans = some kept := by simp [Tick.hit, hconfig, hp, hrev]
            exact h.skip hi hdone hcareful hhit (hphase kept rfl)
          · cases hs
            exact h.quiet hi hdone rfl rfl rfl rfl rfl fun _ => trivial
  | pulling head =>
      simp only [hp] at hs
      split at hs
      · cases hs
        exact h.fail hi hdone rfl rfl
      · rename_i digest _
        cases hs
        refine h.quiet hi hdone rfl rfl rfl rfl rfl ?_
        intro _ _ hseen f hf
        left
        have hrev := hseen (some digest) (List.mem_singleton_self _)
        change f ∈ W.files t.config _ at hf
        rw [hfiles, ← Option.some.inj hrev] at hf
        exact hf
  | emitting digest rest =>
      unfold PhaseOk at hphase
      rw [hp] at hphase
      cases rest with
      | nil =>
          simp only [hp] at hs
          cases hs
          exact h.keep hi hdone (hphase.imp fun f hf => List.not_mem_nil hf)
      | cons file rest =>
          simp only [hp] at hs
          cases hs
          exact h.emit hi hdone rfl rfl (covers_emit hphase)
  | wiped => simp only [hp] at hs; cases hs
  | cloned => simp only [hp] at hs; cases hs
  | located commit => simp only [hp] at hs; cases hs
  | looked commit cached => simp only [hp] at hs; cases hs
  | walking commit rest => simp only [hp] at hs; cases hs
  | skipped rev sent => simp only [hp] at hs; cases hs
  | done => simp only [hp] at hs; cases hs
  | failed => simp only [hp] at hs; cases hs

/-! ### The other steps -/

theorem Inv.tick {config : Config} (h : Inv W flow s) (hc : flow.tasks[task]? = some config) :
    Inv W flow { s with ticks := s.ticks ++ [⟨task, config, [], false, .started⟩] } := by
  have hfollows : Follows s
      { s with ticks := s.ticks ++ [⟨task, config, [], false, .started⟩] } := by
    refine ⟨?_, Keeps.refl _⟩
    intro i t hi _
    rw [List.getElem?_append_left (List.getElem?_eq_some_iff.mp hi).1]
    exact hi
  refine ⟨?_, ?_, ?_⟩
  · intro i t hi
    rcases get_concat hi with hi | ⟨-, rfl⟩
    · exact h.tasks i t hi
    · exact hc
  · intro i t hi
    rcases get_concat hi with hi | ⟨-, rfl⟩
    · exact (h.phases i t hi).mono hfollows
    · trivial
  · intro key kept hkept
    exact (h.cache key kept hkept).mono hfollows

/-- Events change their outcome, and nothing else. -/
theorem Inv.settle (h : Inv W flow s) (hk : Keeps s.sent sent') :
    Inv W flow { s with sent := sent' } := by
  have hfollows : Follows s { s with sent := sent' } := ⟨fun _ _ hi _ => hi, hk⟩
  refine ⟨h.tasks, ?_, ?_⟩
  · intro i t hi
    exact (h.phases i t hi).mono hfollows
  · intro key kept hkept
    exact (h.cache key kept hkept).mono hfollows

theorem keeps_set {j : Nat} {ev ev' : Sent} (hj : sent[j]? = some ev)
    (hev : ev'.tick = ev.tick ∧ ev'.task = ev.task ∧ ev'.rev = ev.rev ∧ ev'.file = ev.file) :
    Keeps sent (sent.set j ev') := by
  obtain ⟨hlt, hget⟩ := List.getElem?_eq_some_iff.mp hj
  intro old hold
  obtain ⟨k, hk, rfl⟩ := List.mem_iff_getElem.mp hold
  rcases eq_or_ne k j with rfl | hkj
  · rw [hget]
    exact ⟨ev', List.mem_of_getElem? (List.getElem?_set_self hlt), hev⟩
  · refine ⟨sent[k], ?_, rfl, rfl, rfl, rfl⟩
    refine List.mem_of_getElem? (i := k) ?_
    rw [List.getElem?_set_ne (Ne.symm hkj)]
    exact List.getElem?_eq_getElem hk

theorem keeps_restart (sent : List Sent) : Keeps sent (sent.map Sent.restart) := by
  intro ev hev
  refine ⟨ev.restart, List.mem_map_of_mem hev, ?_⟩
  unfold Sent.restart
  split <;> exact ⟨rfl, rfl, rfl, rfl⟩

theorem Inv.restart (h : Inv W flow s) : Inv W flow
    { s with ticks := s.ticks.map Tick.restart, sent := s.sent.map Sent.restart } := by
  have hfollows : Follows s
      { s with ticks := s.ticks.map Tick.restart, sent := s.sent.map Sent.restart } := by
    refine ⟨?_, keeps_restart _⟩
    intro i t hi hdone
    show (s.ticks.map Tick.restart)[i]? = some t
    rw [List.getElem?_map, hi, Option.map_some, Tick.restart, hdone]
    rfl
  refine ⟨?_, ?_, ?_⟩
  · intro i t hi
    obtain ⟨u, hu, rfl⟩ := Option.map_eq_some_iff.mp (List.getElem?_map .. ▸ hi)
    have htask := h.tasks i u hu
    unfold Tick.restart
    split <;> exact htask
  · intro i t hi
    obtain ⟨u, hu, rfl⟩ := Option.map_eq_some_iff.mp (List.getElem?_map .. ▸ hi)
    unfold Tick.restart
    split
    · exact (h.phases i u hu).mono hfollows
    · trivial
  · intro key kept hkept
    exact (h.cache key kept hkept).mono hfollows

theorem Inv.step (h : Inv W flow s) (hcareful : Careful s a) (hs : step W flow s a = some s') :
    Inv W flow s' := by
  cases a with
  | tick task =>
      obtain ⟨config, hconfig, rfl⟩ := Option.map_eq_some_iff.mp hs
      exact h.tick hconfig
  | next i ans =>
      obtain ⟨t, hi, hs⟩ := Option.bind_eq_some_iff.mp hs
      unfold State.advance at hs
      split at hs
      · rename_i hconfig
        exact h.advanceGit hi hconfig hcareful hs
      · rename_i hconfig
        exact h.advanceOci hi hconfig hcareful hs
  | settle j ok =>
      obtain ⟨ev, hj, hs⟩ := Option.bind_eq_some_iff.mp hs
      split at hs
      · cases hs
        exact h.settle (keeps_set hj ⟨rfl, rfl, rfl, rfl⟩)
      · cases hs
  | restart =>
      cases hs
      exact h.restart

theorem inv_initial : Inv W flow .initial := by
  refine ⟨?_, ?_, ?_⟩
  · intro i t hi
    cases hi
  · intro i t hi
    cases hi
  · intro key kept hkept
    cases hkept

/-- **What a skip stands for.**  In a run in which ticks skip only on revisions
that an undisturbed tick of their own task has kept, every file of a skipped
revision under the task's configuration was sent by that task before and
completed by the flow. -/
theorem skips_delivered (hrun : (machine W flow).ReachableBy Careful s) :
    ∀ t ∈ s.ticks, t.Truthful W := by
  have hinv : Inv W flow s := by
    refine hrun.invariant ?_ ?_
    · rintro s rfl
      exact inv_initial
    · intro s a s' h hcareful hs
      exact h.step hcareful hs
  intro t ht rev sent hphase
  obtain ⟨i, hi⟩ := List.mem_iff_getElem?.mp ht
  have hok := hinv.phases i t hi
  unfold PhaseOk at hok
  rw [hphase] at hok
  exact hok

end Invariant

/-! ### Runs -/

/-- A file of the skipped revision was not delivered. -/
def Tick.owes (W : Sources) (t : Tick) : Bool :=
  match t.phase with
  | .skipped rev sent => !(W.files t.config rev).all fun file =>
      sent.any fun ev => ev.task = t.task ∧ ev.rev = rev ∧ ev.file = file ∧
        ev.outcome = .completed
  | _ => false

theorem not_truthful_of_owes {W : Sources} {t : Tick} (h : t.owes W = true) :
    ¬ t.Truthful W := by
  intro htrue
  unfold Tick.owes at h
  split at h
  · rename_i rev sent hphase
    have hall : ((W.files t.config rev).all fun file => sent.any fun ev =>
        ev.task = t.task ∧ ev.rev = rev ∧ ev.file = file ∧ ev.outcome = .completed) = true := by
      refine List.all_eq_true.mpr ?_
      intro file hfile
      obtain ⟨ev, hev, hfacts⟩ := htrue rev sent hphase file hfile
      exact List.any_eq_true.mpr ⟨ev, hev, decide_eq_true hfacts⟩
    rw [hall] at h
    cases h
  · cases h

/-- Each path of a repository holds one file, whose content is the revision. -/
def sampleSources : Sources where
  tree path rev := [⟨path.getD "README", rev⟩]
  tree_paths _ _ := List.nodup_singleton _
  layers rev := [⟨"layer", rev⟩]
  manifest rev := rev

def sampleFlow : Flow where
  id := "b3Jk"
  tasks :=
    [.git "https://git.test/team/configs" "main" (some "flows") "/tmp/ord/flows" false,
      .git "https://git.test/team/configs" "main" (some "resources") "/tmp/ord/resources" false,
      .oci "registry.test/app:prod" false]

def answer (rev : Rev) : Answer := ⟨some rev, true, true, []⟩

/-- `n` steps of a tick, with one answer. -/
def nexts (i n : Nat) (rev : Rev) : List Act := List.replicate n (.next i (answer rev))

instance (s : State) (task : Nat) (kept : Kept) : Decidable (Undisturbed s task kept) :=
  decidable_of_iff (∃ t ∈ s.ticks[kept.2]?, t.task = task ∧ t.missed = false ∧
    (∀ rev ∈ t.seen, rev = some kept.1) ∧
    ∀ ev ∈ s.sent, ev.tick = kept.2 → ev.outcome = .completed) Iff.rfl

instance (s : State) : ∀ a, Decidable (Careful s a)
  | .next i ans =>
      decidable_of_iff (∀ t ∈ s.ticks[i]?, ∀ kept ∈ t.hit ans, Undisturbed s t.task kept)
        ⟨fun h t kept hi hk => h t hi kept hk, fun h t hi kept hk => h t kept hi hk⟩
  | .tick _ => isTrue trivial
  | .settle _ _ => isTrue trivial
  | .restart => isTrue trivial

/-- The second tick of a task is skipped for what the first one has delivered. -/
theorem skips_delivered_again :
    ∃ s, (machine sampleSources sampleFlow).ReachableBy Careful s ∧
      (s.ticks.map Tick.phase)[1]? = some (.skipped "1"
        [⟨0, 0, "1", ⟨"flows", "1"⟩, .completed⟩]) ∧ ∀ t ∈ s.ticks, t.Truthful sampleSources := by
  have hrun : ((machine sampleSources sampleFlow).exec Careful .initial
      (.tick 0 :: nexts 0 7 "1" ++ [.settle 0 true] ++ .tick 0 :: nexts 1 5 "1")).any
      (fun s => (s.ticks.map Tick.phase)[1]? = some (.skipped "1"
        [⟨0, 0, "1", ⟨"flows", "1"⟩, .completed⟩])) = true := by
    decide
  obtain ⟨s, hr, hs⟩ := Machine.exists_of_exec hrun
  have hreach : (machine sampleSources sampleFlow).ReachableBy Careful s := ⟨_, _, rfl, hr⟩
  exact ⟨s, hreach, of_decide_eq_true hs, skips_delivered hreach⟩

/-- A run to a tick that is skipped for files no one has seen. -/
theorem exists_owes {as : List Act}
    (h : ((machine sampleSources sampleFlow).exec (fun _ _ => True) .initial as).any
      (fun s => s.ticks.any (Tick.owes sampleSources)) = true) :
    ∃ s, (machine sampleSources sampleFlow).Run .initial as s ∧
      ∃ t ∈ s.ticks, ¬ t.Truthful sampleSources := by
  obtain ⟨s, hr, hs⟩ := Machine.exists_of_exec h
  obtain ⟨t, ht, howes⟩ := List.any_eq_true.mp hs
  exact ⟨s, hr, t, ht, not_truthful_of_owes howes⟩

/-- A task is skipped for a revision that only another one has sent; a task is
skipped though its event failed; one is skipped because another tick had wiped
the directory when it was listed; and one because the tag was moved and moved
back between its digest and its pull. -/
theorem skipped_undelivered :
    (∃ s, (machine sampleSources sampleFlow).Run .initial
      (.tick 0 :: nexts 0 7 "1" ++ [.settle 0 true] ++ .tick 1 :: nexts 1 5 "1") s ∧
        ∃ t ∈ s.ticks, ¬ t.Truthful sampleSources) ∧
    (∃ s, (machine sampleSources sampleFlow).Run .initial
      (.tick 0 :: nexts 0 7 "1" ++ [.settle 0 false] ++ .tick 0 :: nexts 1 5 "1") s ∧
        ∃ t ∈ s.ticks, ¬ t.Truthful sampleSources) ∧
    (∃ s, (machine sampleSources sampleFlow).Run .initial
      (.tick 0 :: nexts 0 4 "1" ++ .tick 0 :: nexts 1 1 "1" ++ nexts 0 2 "1" ++
        .tick 0 :: nexts 2 5 "1") s ∧
        ∃ t ∈ s.ticks, ¬ t.Truthful sampleSources) ∧
    ∃ s, (machine sampleSources sampleFlow).Run .initial
      (.tick 2 :: nexts 0 2 "1" ++ nexts 0 3 "2" ++ [.settle 0 true] ++ .tick 2 :: nexts 1 2 "1") s ∧
        ∃ t ∈ s.ticks, ¬ t.Truthful sampleSources := by
  refine ⟨?_, ?_, ?_, ?_⟩
  · exact exists_owes (by decide)
  · exact exists_owes (by decide)
  · exact exists_owes (by decide)
  · exact exists_owes (by decide)

end Flowgen.Sync
