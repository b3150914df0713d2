/-
# `Flowgen.Oci.Release` — a registry, and who pushes to it and pulls from it

Translated from `Push::push` in `oci/src/push/client.rs`, which sends the blobs
and then the manifest under each tag, one request after the other up to the
first that fails, and from `handle` in `oci/src/sync.rs`, which pulls a
manifest, its config and its layers.  A push or a sync that has failed may be
tried again.

Any number of pushes and syncs are under way on one registry, in any order of
their requests.  A request may fail before the registry has done it, and also
after.  The registry keeps what it has been sent.  Then a manifest is only ever
to be had together with its blobs, and a sync that comes to its end has pulled

    the files of one push that named its reference, all of them and no others

as long as every push has its references in one repository.
-/
import Flowgen.Lib.Machine
import Flowgen.Oci.Client

namespace Flowgen.Oci.Release

open Flowgen.Lib Client

/-- A push with what it was given, and what came of it before anything was sent. -/
structure Job (crates : Crates) where
  push : Push
  inputs : List InputFile
  tags : List String
  plan : Plan
  planned : push.plan crates (inputs.map InputFile.artifact) tags = .ok plan

/-- Where a push is: what it has still to send, or that a request has failed. -/
inductive Sender
  | sending (rest : List Request)
  | failed
deriving DecidableEq

/-- Where a sync is: at its manifest, at its blobs, or where it cannot go on. -/
inductive Puller
  | idle
  | pulling (body : Bytes) (todo : List Descriptor) (got : List (Descriptor × Bytes))
  | noManifest
  | noBlob (digest : String)
deriving DecidableEq

structure World (ι κ : Type) where
  /-- What a repository has under a digest. -/
  blobs : String → String → Option Bytes
  tags : Reference → Option Bytes
  senders : ι → Sender
  pullers : κ → Puller

/-- How a request ends: it is done, it is refused, or it is done and the answer is lost. -/
inductive Outcome
  | done
  | refused
  | lost
deriving DecidableEq

inductive Action (ι κ : Type)
  | send (i : ι) (outcome : Outcome)
  | retry (i : ι)
  | fetch (k : κ)
  | pull (k : κ)
  | restart (k : κ)

/-- What a request does to the registry. -/
def World.apply {ι κ : Type} (w : World ι κ) : Request → World ι κ
  | .blob repository content digest =>
      { w with
        blobs := Function.update w.blobs repository
          (Function.update (w.blobs repository) digest (some content)) }
  | .manifest reference body => { w with tags := Function.update w.tags reference (some body) }

variable {ι κ : Type} {crates : Crates}

/-- One request of a push, or one step of a sync. -/
def step [DecidableEq ι] [DecidableEq κ] (jobs : ι → Job crates) (syncs : κ → Reference)
    (w : World ι κ) : Action ι κ → Option (World ι κ)
  | .send i outcome =>
      match w.senders i with
      | .sending (request :: rest) =>
          some (match outcome with
            | .done =>
                let w := w.apply request
                { w with senders := Function.update w.senders i (.sending rest) }
            | .refused => { w with senders := Function.update w.senders i .failed }
            | .lost =>
                let w := w.apply request
                { w with senders := Function.update w.senders i .failed })
      | .sending [] => none
      | .failed => none
  | .retry i =>
      match w.senders i with
      | .failed =>
          some { w with senders := Function.update w.senders i (.sending (jobs i).plan.requests) }
      | .sending _ => none
  | .fetch k =>
      match w.pullers k with
      | .idle =>
          some
            { w with
              pullers := Function.update w.pullers k
                (match w.tags (syncs k) with
                | none => .noManifest
                | some body =>
                    match crates.fromSlice body with
                    | none => .noManifest
                    -- pull_manifest_and_config, then the layers in their order
                    | some manifest => .pulling body (manifest.config :: manifest.layers) []) }
      | _ => none
  | .pull k =>
      match w.pullers k with
      | .pulling body (descriptor :: todo) got =>
          some
            { w with
              pullers := Function.update w.pullers k
                (match w.blobs (syncs k).repository descriptor.digest with
                | none => .noBlob descriptor.digest
                | some content => .pulling body todo (got ++ [(descriptor, content)])) }
      | _ => none
  | .restart k => some { w with pullers := Function.update w.pullers k .idle }

/-- An empty registry, before anything is sent or pulled. -/
def start (jobs : ι → Job crates) : World ι κ where
  blobs _ _ := none
  tags _ := none
  senders i := .sending (jobs i).plan.requests
  pullers _ := .idle

def machine [DecidableEq ι] [DecidableEq κ] (jobs : ι → Job crates) (syncs : κ → Reference) :
    Machine (World ι κ) (Action ι κ) where
  init w := w = start jobs
  step := step jobs syncs

/-- A layer as it has been pulled. -/
def layerOf (pulled : Descriptor × Bytes) : Layer where
  mediaType := pulled.1.mediaType
  digest := pulled.1.digest
  title := none
  buf := pulled.2

/-! ## What the pushes have in common -/

/-- The blobs of a push. -/
def Job.blobs (job : Job crates) : List Bytes := [job.plan.layer, emptyContent]

/-- All references of a push lie in one repository: the blobs go to that of the first one only. -/
def Job.OneRepository (job : Job crates) : Prop :=
  ∀ r ∈ job.plan.pushed.references, ∀ r' ∈ job.plan.pushed.references,
    r.repository = r'.repository

/-- The pushes, and what their digests tell apart. -/
structure Sound (jobs : ι → Job crates) : Prop where
  faithful : crates.Faithful
  oneRepository : ∀ i, (jobs i).OneRepository
  /-- No two blobs of the pushes have one digest. -/
  digest : ∀ i j, ∀ b ∈ (jobs i).blobs, ∀ b' ∈ (jobs j).blobs,
    crates.digest b = crates.digest b' → b = b'

/-- The descriptors in the manifest of a push. -/
def Job.descriptors (job : Job crates) : List Descriptor :=
  [descriptor crates emptyMediaType emptyContent, descriptor crates layerMediaType job.plan.layer]

variable {jobs : ι → Job crates} {syncs : κ → Reference} {w w' : World ι κ} {i j : ι} {k : κ}

theorem Job.fromSlice (hf : crates.Faithful) (job : Job crates) :
    ∃ manifest, crates.fromSlice job.plan.body = some manifest ∧
      manifest.config :: manifest.layers = job.descriptors := by
  obtain ⟨prepared, first, rest, -, -, -, -, hbody, -, -⟩ := Push.plan_eq_ok job.planned
  exact ⟨_, hf.manifest _ _ hbody, rfl⟩

/-- What a push sends: its two blobs to the repository of its first reference, then its manifest
under every reference. -/
theorem Job.requests_eq (job : Job crates) : ∃ first rest,
    job.plan.pushed.references = first :: rest ∧
      job.plan.requests =
        .blob first.repository job.plan.layer (crates.digest job.plan.layer) ::
          .blob first.repository emptyContent (crates.digest emptyContent) ::
          (first :: rest).map (.manifest · job.plan.body) := by
  obtain ⟨prepared, first, rest, -, -, -, -, -, hrequests, hpushed⟩ := Push.plan_eq_ok job.planned
  exact ⟨first, rest, by rw [hpushed], hrequests⟩

/-- A blob is sent under its digest. -/
theorem Job.blob_mem (job : Job crates) {repository digest : String} {content : Bytes}
    (h : .blob repository content digest ∈ job.plan.requests) :
    digest = crates.digest content ∧ content ∈ job.blobs := by
  obtain ⟨first, rest, -, hrequests⟩ := job.requests_eq
  rw [hrequests] at h
  rcases List.mem_cons.mp h with heq | h
  · cases heq
    exact ⟨rfl, List.mem_cons_self⟩
  · rcases List.mem_cons.mp h with heq | h
    · cases heq
      exact ⟨rfl, List.mem_cons_of_mem _ List.mem_cons_self⟩
    · obtain ⟨reference, -, heq⟩ := List.mem_map.mp h
      cases heq

/-- Before a manifest is sent under a reference, the blobs have been sent to its repository. -/
theorem Job.blobs_before (job : Job crates) (hone : job.OneRepository) {reference : Reference}
    {body : Bytes} {sent rest : List Request}
    (h : job.plan.requests = sent ++ .manifest reference body :: rest) :
    body = job.plan.body ∧ reference ∈ job.plan.pushed.references ∧
      ∀ b ∈ job.blobs, .blob reference.repository b (crates.digest b) ∈ sent := by
  obtain ⟨first, others, hreferences, hrequests⟩ := job.requests_eq
  have hmem : Request.manifest reference body ∈ job.plan.requests := by
    rw [h]
    exact List.mem_append_right _ List.mem_cons_self
  have hmanifest : reference ∈ first :: others ∧ body = job.plan.body := by
    rw [hrequests] at hmem
    rcases List.mem_cons.mp hmem with heq | hmem
    · cases heq
    · rcases List.mem_cons.mp hmem with heq | hmem
      · cases heq
      · obtain ⟨reference', hreference', heq⟩ := List.mem_map.mp hmem
        cases heq
        exact ⟨hreference', rfl⟩
  have hrepository : first.repository = reference.repository := by
    refine hone _ ?_ _ ?_
    · rw [hreferences]
      exact List.mem_cons_self
    · rw [hreferences]
      exact hmanifest.1
  rw [hrequests] at h
  refine ⟨hmanifest.2, by rw [hreferences]; exact hmanifest.1, ?_⟩
  cases sent with
  | nil => cases (List.cons.inj h).1
  | cons request sent =>
      obtain ⟨hlayer, h⟩ := List.cons.inj h
      cases sent with
      | nil => cases (List.cons.inj h).1
      | cons request' sent =>
          obtain ⟨hconfig, -⟩ := List.cons.inj h
          rw [hrepository] at hlayer hconfig
          intro b hb
          rcases List.mem_cons.mp hb with rfl | hb
          · exact hlayer ▸ List.mem_cons_self
          · rw [List.mem_singleton] at hb
            subst hb
            exact hconfig ▸ List.mem_cons_of_mem _ List.mem_cons_self

/-! ## The invariant -/

/-- What a request has left in the registry. -/
def Kept (w : World ι κ) : Request → Prop
  | .blob repository _ digest => (w.blobs repository digest).isSome
  | .manifest _ _ => True

/-- The manifest of a push is to be had under a reference, and its blobs are there. -/
structure Offered (jobs : ι → Job crates) (blobs : String → String → Option Bytes)
    (reference : Reference) (body : Bytes) (i : ι) : Prop where
  body : body = (jobs i).plan.body
  mem : reference ∈ (jobs i).plan.pushed.references
  blobs : ∀ b ∈ (jobs i).blobs, (blobs reference.repository (crates.digest b)).isSome

/-- What a sync has pulled so far is from the artifact of a push. -/
structure Pulled (jobs : ι → Job crates) (i : ι) (todo : List Descriptor)
    (got : List (Descriptor × Bytes)) : Prop where
  descriptors : (jobs i).descriptors = got.map Prod.fst ++ todo
  digest : ∀ p ∈ got, p.1.digest = crates.digest p.2
  blob : ∀ p ∈ got, ∃ j, p.2 ∈ (jobs j).blobs

/-- What is known of a sync of a reference. -/
def Puller.Known (jobs : ι → Job crates) (blobs : String → String → Option Bytes)
    (reference : Reference) : Puller → Prop
  | .pulling body todo got => ∃ i, Offered jobs blobs reference body i ∧ Pulled jobs i todo got
  | .noBlob _ => False
  | _ => True

structure Inv (jobs : ι → Job crates) (syncs : κ → Reference) (w : World ι κ) : Prop where
  /-- A blob lies under its digest, and some push has sent it. -/
  stored : ∀ repository digest b, w.blobs repository digest = some b →
    digest = crates.digest b ∧ ∃ i, b ∈ (jobs i).blobs
  sender : ∀ i rest, w.senders i = .sending rest →
    ∃ sent, (jobs i).plan.requests = sent ++ rest ∧ ∀ request ∈ sent, Kept w request
  tags : ∀ reference body, w.tags reference = some body → ∃ i, Offered jobs w.blobs reference body i
  puller : ∀ k, (w.pullers k).Known jobs w.blobs (syncs k)

theorem inv_start : Inv jobs syncs (start jobs : World ι κ) where
  stored _ _ _ h := by cases h
  sender i rest h := by
    cases h
    exact ⟨[], rfl, fun _ hmem => absurd hmem List.not_mem_nil⟩
  tags _ _ h := by cases h
  puller _ := trivial

/-- The registry keeps what it has. -/
theorem isSome_apply {repository digest : String} (request : Request)
    (h : (w.blobs repository digest).isSome) :
    ((w.apply request).blobs repository digest).isSome := by
  cases request with
  | manifest reference body => exact h
  | blob repository' content digest' =>
      show (Function.update w.blobs repository' _ repository digest).isSome
      rw [Function.update_apply]
      split
      · rename_i hrepository
        rw [Function.update_apply]
        split
        · rfl
        · rw [← hrepository]
          exact h
      · exact h

theorem Kept.apply {request : Request} (h : Kept w request) (request' : Request) :
    Kept (w.apply request') request := by
  cases request with
  | manifest reference body => trivial
  | blob repository content digest => exact isSome_apply request' h

theorem Offered.apply {reference : Reference} {body : Bytes}
    (h : Offered jobs w.blobs reference body i) (request : Request) :
    Offered jobs (w.apply request).blobs reference body i :=
  { h with blobs := fun b hb => isSome_apply request (h.blobs b hb) }

theorem Puller.Known.apply {reference : Reference} {puller : Puller}
    (h : puller.Known jobs w.blobs reference) (request : Request) :
    puller.Known jobs (w.apply request).blobs reference := by
  cases puller with
  | pulling body todo got =>
      obtain ⟨i, hi, hpulled⟩ := h
      exact ⟨i, hi.apply request, hpulled⟩
  | _ => exact h

theorem kept_apply (request : Request) : Kept (w.apply request) request := by
  cases request with
  | manifest reference body => trivial
  | blob repository content digest =>
      show (Function.update w.blobs repository _ repository digest).isSome
      rw [Function.update_self, Function.update_self]
      rfl

/-- A request of a push that has come so far leaves the registry sound. -/
theorem Inv.apply (hs : Sound jobs) (h : Inv jobs syncs w) {request : Request}
    {rest : List Request} (hi : w.senders i = .sending (request :: rest)) :
    Inv jobs syncs (w.apply request) := by
  obtain ⟨sent, hrequests, hsent⟩ := h.sender i _ hi
  have hsenders : (w.apply request).senders = w.senders := by
    cases request with
    | blob repository content digest => rfl
    | manifest reference body => rfl
  have hpullers : (w.apply request).pullers = w.pullers := by
    cases request with
    | blob repository content digest => rfl
    | manifest reference body => rfl
  have hmem : request ∈ (jobs i).plan.requests := by
    rw [hrequests]
    exact List.mem_append_right _ List.mem_cons_self
  constructor
  · intro repository digest b hb
    cases request with
    | manifest reference body => exact h.stored repository digest b hb
    | blob repository' content digest' =>
        change Function.update w.blobs repository' _ repository digest = some b at hb
        rw [Function.update_apply] at hb
        split at hb
        · rename_i hrepository
          rw [Function.update_apply] at hb
          split at hb
          · rename_i hdigest
            cases hb
            obtain ⟨hdigest', hblob⟩ := (jobs i).blob_mem hmem
            exact ⟨hdigest.trans hdigest', i, hblob⟩
          · exact h.stored repository' digest b hb
        · exact h.stored repository digest b hb
  · intro j rest' hj
    rw [hsenders] at hj
    obtain ⟨sent', hrequests', hsent'⟩ := h.sender j rest' hj
    exact ⟨sent', hrequests', fun request' hrequest' => (hsent' request' hrequest').apply request⟩
  · intro reference body htag
    cases request with
    | blob repository content digest =>
        obtain ⟨j, hj⟩ := h.tags reference body htag
        exact ⟨j, hj.apply _⟩
    | manifest reference' body' =>
        change Function.update w.tags reference' (some body') reference = some body at htag
        rw [Function.update_apply] at htag
        split at htag
        · rename_i hreference
          cases htag
          subst hreference
          obtain ⟨hbody, href, hblobs⟩ := (jobs i).blobs_before (hs.oneRepository i) hrequests
          refine ⟨i, hbody, href, ?_⟩
          intro b hb
          exact hsent _ (hblobs b hb)
        · obtain ⟨j, hj⟩ := h.tags reference body htag
          exact ⟨j, hj.apply _⟩
  · intro k
    rw [hpullers]
    exact (h.puller k).apply request

/-- Where a push is does not matter to the registry. -/
theorem Inv.sender_update [DecidableEq ι] (h : Inv jobs syncs w) {sender : Sender}
    (hsender : ∀ rest, sender = .sending rest →
      ∃ sent, (jobs i).plan.requests = sent ++ rest ∧ ∀ request ∈ sent, Kept w request) :
    Inv jobs syncs { w with senders := Function.update w.senders i sender } where
  stored := h.stored
  sender j rest hj := by
    change Function.update w.senders i sender j = _ at hj
    rw [Function.update_apply] at hj
    split at hj
    · rename_i hji
      subst hji
      exact hsender rest hj
    · exact h.sender j rest hj
  tags := h.tags
  puller := h.puller

/-- A sync does not change the registry. -/
theorem Inv.puller_update [DecidableEq κ] (h : Inv jobs syncs w) {puller : Puller}
    (hpuller : puller.Known jobs w.blobs (syncs k)) :
    Inv jobs syncs { w with pullers := Function.update w.pullers k puller } where
  stored := h.stored
  sender := h.sender
  tags := h.tags
  puller k' := by
    show (Function.update w.pullers k puller k').Known jobs w.blobs (syncs k')
    rw [Function.update_apply]
    split
    · rename_i hkk
      subst hkk
      exact hpuller
    · exact h.puller k'

/-- A manifest that is offered is pulled with all of its artifact still to come. -/
theorem Inv.fetch (hs : Sound jobs) (h : Inv jobs syncs w) {body : Bytes} {manifest : Manifest}
    (htag : w.tags (syncs k) = some body) (hmanifest : crates.fromSlice body = some manifest) :
    ∃ i, Offered jobs w.blobs (syncs k) body i ∧
      Pulled jobs i (manifest.config :: manifest.layers) [] := by
  obtain ⟨i, hi⟩ := h.tags _ _ htag
  obtain ⟨manifest', hmanifest', hdescriptors⟩ := (jobs i).fromSlice hs.faithful
  rw [← hi.body, hmanifest] at hmanifest'
  cases hmanifest'
  exact ⟨i, hi, ⟨hdescriptors.symm, fun _ hp => absurd hp List.not_mem_nil,
    fun _ hp => absurd hp List.not_mem_nil⟩⟩

/-- Every descriptor in the manifest of a push has the digest of one of its blobs. -/
theorem Job.digest_of_mem {job : Job crates} {d : Descriptor} (h : d ∈ job.descriptors) :
    ∃ b ∈ job.blobs, d.digest = crates.digest b := by
  rcases List.mem_cons.mp h with rfl | h
  · exact ⟨emptyContent, List.mem_cons_of_mem _ List.mem_cons_self, rfl⟩
  · rw [List.mem_singleton] at h
    subst h
    exact ⟨job.plan.layer, List.mem_cons_self, rfl⟩

/-- The next blob of a sync is there, and is one of those of the pushes. -/
theorem Inv.pull (h : Inv jobs syncs w) {body : Bytes} {d : Descriptor} {todo : List Descriptor}
    {got : List (Descriptor × Bytes)} (hoffered : Offered jobs w.blobs (syncs k) body i)
    (hpulled : Pulled jobs i (d :: todo) got) :
    ∃ content, w.blobs (syncs k).repository d.digest = some content ∧
      Pulled jobs i todo (got ++ [(d, content)]) := by
  have hmem : d ∈ (jobs i).descriptors := by
    rw [hpulled.descriptors]
    exact List.mem_append_right _ List.mem_cons_self
  obtain ⟨b, hb, hdigest⟩ := Job.digest_of_mem hmem
  have hsome := hoffered.blobs b hb
  rw [← hdigest] at hsome
  obtain ⟨content, hcontent⟩ := Option.isSome_iff_exists.mp hsome
  obtain ⟨hcontentDigest, hblob⟩ := h.stored _ _ _ hcontent
  refine ⟨content, hcontent, ?_, ?_, ?_⟩
  · rw [hpulled.descriptors, List.map_append, List.append_assoc]
    rfl
  · intro p hp
    rcases List.mem_append.mp hp with hp | hp
    · exact hpulled.digest p hp
    · rw [List.mem_singleton] at hp
      subst hp
      exact hcontentDigest
  · intro p hp
    rcases List.mem_append.mp hp with hp | hp
    · exact hpulled.blob p hp
    · rw [List.mem_singleton] at hp
      subst hp
      exact hblob

/-- A sync that has pulled everything has the one layer of the push. -/
theorem Pulled.layers (hs : Sound jobs) {got : List (Descriptor × Bytes)}
    (h : Pulled jobs i [] got) : (got.drop 1).map layerOf = [pulled crates (jobs i).plan.layer] := by
  have hdescriptors : got.map Prod.fst = (jobs i).descriptors := by
    rw [h.descriptors, List.append_nil]
  obtain ⟨config, rest, rfl, hconfig, hrest⟩ := List.map_eq_cons_iff.mp hdescriptors
  obtain ⟨layer, rest', rfl, hlayer, hrest'⟩ := List.map_eq_cons_iff.mp hrest
  obtain rfl := List.map_eq_nil_iff.mp hrest'
  have hmem : layer ∈ [config, layer] := List.mem_cons_of_mem _ List.mem_cons_self
  obtain ⟨j, hj⟩ := h.blob layer hmem
  have hsame : crates.digest layer.2 = crates.digest (jobs i).plan.layer := by
    rw [← h.digest layer hmem, hlayer]
    rfl
  have hblob : layer.2 = (jobs i).plan.layer := hs.digest j i _ hj _ List.mem_cons_self hsame
  show [layerOf layer] = _
  rw [layerOf, hlayer, hblob]
  rfl

variable [DecidableEq ι] [DecidableEq κ]

theorem inv_step (hs : Sound jobs) (h : Inv jobs syncs w) (a : Action ι κ)
    (hstep : step jobs syncs w a = some w') : Inv jobs syncs w' := by
  cases a with
  | send i outcome =>
      rw [step] at hstep
      cases hi : w.senders i with
      | failed =>
          rw [hi] at hstep
          cases hstep
      | sending rest =>
          rw [hi] at hstep
          cases rest with
          | nil => cases hstep
          | cons request rest =>
              obtain ⟨sent, hrequests, hsent⟩ := h.sender i _ hi
              have happly := h.apply hs hi
              cases outcome with
              | done =>
                  cases hstep
                  refine happly.sender_update ?_
                  intro rest' hrest
                  cases hrest
                  refine ⟨sent ++ [request], by rw [hrequests, List.append_assoc]; rfl, ?_⟩
                  intro request' hrequest'
                  rcases List.mem_append.mp hrequest' with hmem | hmem
                  · exact (hsent request' hmem).apply request
                  · rw [List.mem_singleton.mp hmem]
                    exact kept_apply request
              | refused =>
                  cases hstep
                  refine h.sender_update ?_
                  intro rest' hrest
                  cases hrest
              | lost =>
                  cases hstep
                  refine happly.sender_update ?_
                  intro rest' hrest
                  cases hrest
  | retry i =>
      rw [step] at hstep
      cases hi : w.senders i with
      | sending rest =>
          rw [hi] at hstep
          cases hstep
      | failed =>
          rw [hi] at hstep
          cases hstep
          refine h.sender_update ?_
          intro rest hrest
          cases hrest
          exact ⟨[], rfl, fun _ hmem => absurd hmem List.not_mem_nil⟩
  | fetch k =>
      rw [step] at hstep
      split at hstep
      · cases hstep
        refine h.puller_update ?_
        cases htag : w.tags (syncs k) with
        | none => trivial
        | some body =>
            dsimp only
            cases hmanifest : crates.fromSlice body with
            | none => trivial
            | some manifest => exact h.fetch hs htag hmanifest
      · cases hstep
  | pull k =>
      rw [step] at hstep
      split at hstep
      · rename_i body d todo got hk
        cases hstep
        have hknown := h.puller k
        rw [hk] at hknown
        obtain ⟨i, hoffered, hpulled⟩ := hknown
        obtain ⟨content, hcontent, hnext⟩ := h.pull hoffered hpulled
        rw [hcontent]
        exact h.puller_update ⟨i, hoffered, hnext⟩
      · cases hstep
  | restart k =>
      cases hstep
      exact h.puller_update trivial

theorem inv_reachable (hs : Sound jobs) (h : (machine jobs syncs).Reachable w) :
    Inv jobs syncs w :=
  h.invariant (fun _ hw => hw ▸ inv_start) fun _ a _ hi _ hstep => inv_step hs hi a hstep

def tinyJob : Job tinyCrates := ⟨tinyPush, tinyInputs, ["1.2.0"], tinyPlan, tinyPlan_eq⟩

def tinyReference : Reference := ⟨"registry.example.com/team/configs", "1.2.0"⟩

theorem tinyJob_sound : Sound fun _ : Unit => tinyJob where
  faithful := tinyCrates_faithful
  oneRepository _ := by unfold Job.OneRepository; decide
  digest _ _ := by decide

/-- A push that is retried after its second request is lost, and a sync in between. -/
def tinyActions : List (Action Unit Unit) :=
  [.send () .done, .send () .lost, .retry (), .send () .done, .send () .done, .send () .done,
    .fetch (), .pull (), .pull ()]

end Flowgen.Oci.Release
