/-
# `Flowgen.Lease.Lineage` — generations along the history of a lease (`core/src/executor.rs`)

A stored lease carries a generation, "incremented on each acquisition, preserved
on renewal".  `Succession` is that law for one write and the writes before it, and
`Lineage` for the whole log: a lease that changes the holder has a greater
generation than the lease stored before it, and a holder that writes over its
own lease keeps the generation.

Whoever writes the lease has learned the generation it goes by earlier, from a
lease that it read or wrote together with its revision.  `Justified` says so of
every request on its way, however late it arrives, and the compare-and-swap on
the revision makes it the generation of the lease that is replaced.  Two writes
have learned nothing, `create` and the overwriting of a deletion marker, and
begin at 1.  Hence a step keeps the lineage exactly if it is `Unbroken`
(`lineage_step_iff`).
-/
import Flowgen.Lease.Election

namespace Flowgen.Lease

open Flowgen.Lib Flowgen.Cache

variable {ι : Type}

/-- A new holder has a greater generation than the lease stored last, and a
holder that replaces its own lease the same one. -/
structure Succession (older : List (Write ι (Metadata ι))) (w : Write ι (Metadata ι)) : Prop where
  acquired : ∀ new, w.content = some new → ∀ old, (older.filterMap (·.content)).head? = some old →
    old.holderIdentity ≠ new.holderIdentity → old.generation < new.generation
  renewed : ∀ new, w.content = some new → ∀ w', older.head? = some w' → ∀ old,
    w'.content = some old → old.holderIdentity = new.holderIdentity →
    new.generation = old.generation

def Lineage (reg : LeaseKey ι) : Prop := reg.EachWrite Succession

/-- The lease a request stores, if it takes effect now. -/
def stored (reg : LeaseKey ι) : Req ι → Option (Metadata ι)
  | .create value => if reg.current.isNone then some value else none
  | .update value expectedRevision => if reg.accepts expectedRevision then some value else none
  | _ => none

/-- A request of `e` does not begin at generation 1 where the lease stored last is
another holder's, nor take one over that is at the largest generation. -/
def Continues (e : ι) (reg : LeaseKey ι) (r : Req ι) : Prop :=
  ∀ new ∈ stored reg r, ∀ old ∈ reg.versions.head?, old.holderIdentity ≠ e →
    new.generation ≠ 1 ∧ old.generation < generationMax

def Unbroken (s : State ι) : Act ι → Prop
  | .serve e _ => ∀ r ∈ (s.node e).phase.pending, Continues e s.lease r
  | .deliver idx _ => ∀ q ∈ s.stray[idx]?, Continues q.1 s.lease q.2
  | _ => True

instance [DecidableEq ι] (e : ι) (reg : LeaseKey ι) (r : Req ι) : Decidable (Continues e reg r) :=
  inferInstanceAs (Decidable (∀ new ∈ stored reg r, ∀ old ∈ reg.versions.head?,
    old.holderIdentity ≠ e → new.generation ≠ 1 ∧ old.generation < generationMax))

instance [DecidableEq ι] (s : State ι) : ∀ a : Act ι, Decidable (Unbroken s a)
  | .serve e _ =>
      inferInstanceAs (Decidable (∀ r ∈ (s.node e).phase.pending, Continues e s.lease r))
  | .deliver idx _ =>
      inferInstanceAs (Decidable (∀ q ∈ s.stray[idx]?, Continues q.1 s.lease q.2))
  | .tick _ | .expire _ _ | .start _ | .lose _ | .react _ _ | .close _ | .shutdown _ |
    .register _ => .isTrue trivial

/-! ## What a request goes by -/

/-- `e` has written a lease of this revision and generation. -/
def Remembers (e : ι) (reg : LeaseKey ι) (ρ generation : Nat) : Prop :=
  ∃ w ∈ reg.log, w.revision = ρ ∧
    ∃ m, w.content = some m ∧ m.holderIdentity = e ∧ m.generation = generation

/-- The generation of the lease `new` of `e` comes from what it replaces. -/
inductive Replaces (e : ι) (new : Metadata ι) : Option (Metadata ι) → Prop
  | fresh {content : Option (Metadata ι)} (hnew : new.generation = 1)
      (hown : ∀ m, content = some m → m.holderIdentity = e → m.generation = 1) :
      Replaces e new content
  | takenOver {old : Metadata ι} (hne : old.holderIdentity ≠ e)
      (hnew : new.generation = Saturating.add generationMax old.generation 1) :
      Replaces e new (some old)
  | renewed {old : Metadata ι} (he : old.holderIdentity = e)
      (hnew : new.generation = old.generation) : Replaces e new (some old)

/-- A request of `e` stores `e` as the holder, at the generation that the lease
of the revision it expects gives. -/
def Justified (e : ι) (reg : LeaseKey ι) : Req ι → Prop
  | .create value => value.holderIdentity = e ∧ value.generation = 1
  | .update value expectedRevision =>
      value.holderIdentity = e ∧
        ∃ w ∈ reg.log, w.revision = expectedRevision ∧ Replaces e value w.content
  | _ => True

/-- What a reply tells `e` is in the log.  A lease of its own, found where it has
just seen none, is one that it began itself. -/
def Told (e : ι) (reg : LeaseKey ι) : (r : Req ι) → r.Reply → Prop
  | .create value, x => ∀ ρ, x = Except.ok ρ → ∃ w ∈ reg.log, w.revision = ρ ∧ w.content = some value
  | .update value _, x =>
      ∀ ρ, x = Except.ok ρ → ∃ w ∈ reg.log, w.revision = ρ ∧ w.content = some value
  | .getWithRevision, x =>
      ∀ m ρ, x = Except.ok (some (m, ρ)) → ∃ w ∈ reg.log, w.revision = ρ ∧ w.content = some m
  | .getRevision, x =>
      ∀ ρ, x = Except.ok (some ρ) → ∃ w ∈ reg.log, w.revision = ρ ∧
        ∀ m, w.content = some m → m.holderIdentity = e → m.generation = 1
  | _, _ => True

/-- The reply that the lease is not there. -/
def FoundNone : (r : Req ι) → r.Reply → Prop
  | .getWithRevision, x => x = Except.ok none
  | _, _ => False

/-- Whatever a program of `e` sends is justified by the replies so far, the
revision of a marker is asked for only after no lease was found, and what it
returns satisfies `post`. -/
def Traced {α : Type} (e : ι) (post : LeaseKey ι → Except CacheError α → Prop) :
    LeaseProg ι α → LeaseKey ι → Prop
  | .ret res, reg => post reg res
  | .call r k, reg =>
      Justified e reg r ∧ ∀ x, ((k x).pending = some .getRevision → FoundNone r x) ∧
        ∀ reg', reg.log ⊆ reg'.log → Told e reg' r x → Traced e post (k x) reg'

/-- The revision and the generation of a lease that was granted. -/
def grantedAt : Except CacheError (LeaseResult ι) → Option (Nat × Nat)
  | .ok (.acquired revision generation) => some (revision, generation)
  | .ok (.takenOver revision generation) => some (revision, generation)
  | _ => none

def Granted (e : ι) (reg : LeaseKey ι) (res : Except CacheError (LeaseResult ι)) : Prop :=
  ∀ g ∈ grantedAt res, Remembers e reg g.1 g.2

def Renewed (e : ι) (generation : Nat) (reg : LeaseKey ι)
    (res : Except CacheError (RenewalResult ι)) : Prop :=
  ∀ ρ ∈ renewed res, Remembers e reg ρ generation

variable {α : Type} {e : ι} {reg reg' : LeaseKey ι} {ρ now generation : Nat} {r : Req ι}
  {post : LeaseKey ι → Except CacheError α → Prop} {p : LeaseProg ι α} {c : Choice}

theorem Remembers.mono (h : Remembers e reg ρ generation) (hl : reg.log ⊆ reg'.log) :
    Remembers e reg' ρ generation := by
  obtain ⟨w, hw, hr⟩ := h
  exact ⟨w, hl hw, hr⟩

theorem Justified.mono (h : Justified e reg r) (hl : reg.log ⊆ reg'.log) : Justified e reg' r := by
  cases r with
  | create value => exact h
  | update value ρ =>
      obtain ⟨hv, w, hw, hr⟩ := h
      exact ⟨hv, w, hl hw, hr⟩
  | _ => trivial

theorem Traced.mono (h : Traced e post p reg) (hl : reg.log ⊆ reg'.log)
    (hpost : ∀ res, post reg res → post reg' res) : Traced e post p reg' := by
  cases p with
  | ret res => exact hpost res h
  | call r k =>
      refine ⟨h.1.mono hl, fun x => ⟨(h.2 x).1, fun reg'' hl' ht => ?_⟩⟩
      exact (h.2 x).2 reg'' (fun w hw => hl' (hl hw)) ht

/-- Two programs one after the other, the second without a call of its own. -/
theorem Traced.bind {β : Type} {post' : LeaseKey ι → Except CacheError β → Prop}
    {f : Except CacheError α → LeaseProg ι β} (h : Traced e post p reg)
    (hf : ∀ res, (f res).pending = none)
    (hpost : ∀ reg res, post reg res → Traced e post' (f res) reg) :
    Traced e post' (p.bind f) reg := by
  induction p generalizing reg with
  | ret res => exact hpost reg res h
  | call r k ih =>
      refine ⟨h.1, fun x => ⟨fun hpend => (h.2 x).1 ?_, fun reg' hl ht => ih x ((h.2 x).2 reg' hl ht)⟩⟩
      cases hk : k x with
      | ret res =>
          simp only [hk, Prog.bind] at hpend
          rw [hf res] at hpend
          cases hpend
      | call r' k' =>
          simp only [hk, Prog.bind] at hpend
          exact hpend

/-! ## The programs -/

variable {ex : Executor ι}

theorem renewLost_traced : Traced e (Renewed e generation) renewLost reg := by
  refine ⟨trivial, fun x => ⟨?_, fun reg' hl ht => ?_⟩⟩
  · intro hpend
    rcases x with err | _ | ⟨m, ρ⟩ <;> cases hpend
  · rcases x with err | _ | ⟨m, ρ⟩ <;> intro ρ hρ <;> cases hρ

theorem renewLease_traced (he : ex.identity = e) (h : Remembers e reg ρ generation) :
    Traced e (Renewed e generation) (renewLease ex ρ generation) reg := by
  subst he
  refine ⟨trivial, fun now => ⟨fun hpend => (by cases hpend), fun reg' hl ht => ?_⟩⟩
  obtain ⟨w, hw, hr, m, hc, hm, hg⟩ := h.mono hl
  have hreplaces : Replaces ex.identity (ex.metadata now generation) w.content := by
    rw [hc]
    exact .renewed hm hg.symm
  refine ⟨⟨rfl, w, hw, hr, hreplaces⟩, fun x => ⟨?_, fun reg'' hl' ht' => ?_⟩⟩
  · intro hpend
    rcases x with err | ρ'
    · cases err <;> cases hpend
    · cases hpend
  · rcases x with err | ρ'
    · cases err with
      | revisionMismatch _ _ => exact renewLost_traced
      | notFound => exact renewLost_traced
      | alreadyExists =>
          intro ρ' hρ
          cases hρ
      | failed _ =>
          intro ρ' hρ
          cases hρ
    · intro ρ₁ hρ
      obtain rfl : ρ' = ρ₁ := Option.some.inj hρ
      obtain ⟨w', hw', hr', hc'⟩ := ht' ρ' rfl
      exact ⟨w', hw', hr', _, hc', rfl, rfl⟩

/-- A result that grants nothing. -/
theorem granted_none {res : Except CacheError (LeaseResult ι)} (h : grantedAt res = none) :
    Granted e reg res := by
  intro g hg
  rw [h] at hg
  cases hg

theorem reclaim_traced (he : ex.identity = e) (h : Remembers e reg ρ generation) :
    Traced e (Granted e) (reclaim ex ρ generation) reg := by
  refine (renewLease_traced he h).bind ?_ ?_
  · intro res
    rcases res with err | (ρ' | _ | _) <;> rfl
  · intro reg' res hres
    rcases res with err | (ρ' | _ | _)
    · exact granted_none rfl
    · intro g hg
      obtain rfl := Option.some.inj hg
      exact hres ρ' rfl
    · exact granted_none rfl
    · exact granted_none rfl

/-- The reply to the write that is to grant the lease. -/
theorem granted_of_told {value : Metadata ι} {w : Write ι (Metadata ι)} (hw : w ∈ reg.log)
    (hr : w.revision = ρ) (hc : w.content = some value) :
    Remembers value.holderIdentity reg ρ value.generation :=
  ⟨w, hw, hr, value, hc, rfl, rfl⟩

theorem takeOver_traced {current : Metadata ι} (he : ex.identity = e)
    (hne : current.holderIdentity ≠ e)
    (h : ∃ w ∈ reg.log, w.revision = ρ ∧ w.content = some current) :
    Traced e (Granted e) (takeOver ex now ρ current) reg := by
  subst he
  obtain ⟨w, hw, hr, hc⟩ := h
  refine ⟨⟨rfl, w, hw, hr, hc ▸ .takenOver hne rfl⟩, fun x => ⟨?_, fun reg' hl ht => ?_⟩⟩
  · intro hpend
    rcases x with err | ρ'
    · cases err <;> cases hpend
    · cases hpend
  · rcases x with err | ρ'
    · cases err with
      | revisionMismatch _ _ =>
          refine ⟨trivial, fun y => ⟨?_, fun reg'' hl' ht' => ?_⟩⟩
          · intro hpend
            rcases y with err | _ | ⟨m, ρ⟩ <;> cases hpend
          · rcases y with err | _ | ⟨m, ρ⟩ <;> exact granted_none rfl
      | notFound => exact granted_none rfl
      | alreadyExists => exact granted_none rfl
      | failed _ => exact granted_none rfl
    · intro g hg
      obtain rfl := Option.some.inj hg
      obtain ⟨w', hw', hr', hc'⟩ := ht ρ' rfl
      exact granted_of_told hw' hr' hc'

theorem overwriteTombstone_traced (he : ex.identity = e) :
    Traced e (Granted e) (overwriteTombstone ex now) reg := by
  subst he
  refine ⟨trivial, fun x => ⟨?_, fun reg' hl ht => ?_⟩⟩
  · intro hpend
    rcases x with err | _ | ρ <;> cases hpend
  · rcases x with err | _ | ρ
    · exact granted_none rfl
    · exact granted_none rfl
    · obtain ⟨w, hw, hr, hown⟩ := ht ρ rfl
      refine ⟨⟨rfl, w, hw, hr, .fresh rfl hown⟩, fun y => ⟨?_, fun reg'' hl' ht' => ?_⟩⟩
      · intro hpend
        rcases y with err | ρ' <;> cases hpend
      · rcases y with err | ρ'
        · exact granted_none rfl
        · intro g hg
          obtain rfl := Option.some.inj hg
          obtain ⟨w', hw', hr', hc'⟩ := ht' ρ' rfl
          exact granted_of_told hw' hr' hc'

theorem acquireExisting_traced [DecidableEq ι] (he : ex.identity = e) :
    Traced e (Granted e) (acquireExisting ex now) reg := by
  refine ⟨trivial, fun x => ⟨?_, fun reg' hl ht => ?_⟩⟩
  · intro hpend
    rcases x with err | _ | ⟨current, ρ⟩
    · cases hpend
    · rfl
    · -- of the two ways to go on with a lease neither begins with `get_revision`
      dsimp only at hpend
      split at hpend
      · cases hpend
      · split at hpend <;> cases hpend
  · rcases x with err | _ | ⟨current, ρ⟩
    · exact granted_none rfl
    · exact overwriteTombstone_traced he
    · obtain ⟨w, hw, hr, hc⟩ := ht current ρ rfl
      dsimp only
      split
      · rename_i hself
        exact reclaim_traced he ⟨w, hw, hr, current, hc, hself.trans he, rfl⟩
      · rename_i hother
        split
        · exact takeOver_traced he (he ▸ hother) ⟨w, hw, hr, hc⟩
        · exact granted_none rfl

theorem acquireLease_traced [DecidableEq ι] (he : ex.identity = e) :
    Traced e (Granted e) (acquireLease ex) reg := by
  refine ⟨trivial, fun now => ⟨fun hpend => (by cases hpend), fun reg' hl ht => ?_⟩⟩
  refine ⟨⟨he, rfl⟩, fun x => ⟨?_, fun reg'' hl' ht' => ?_⟩⟩
  · intro hpend
    rcases x with err | ρ
    · cases err <;> cases hpend
    · cases hpend
  · rcases x with err | ρ
    · cases err with
      | alreadyExists => exact acquireExisting_traced he
      | revisionMismatch _ _ => exact granted_none rfl
      | notFound => exact granted_none rfl
      | failed _ => exact granted_none rfl
    · intro g hg
      obtain rfl := Option.some.inj hg
      obtain ⟨w, hw, hr, hc⟩ := ht' ρ rfl
      exact he ▸ granted_of_told hw hr hc

/-- A deletion stores nothing. -/
theorem releaseLease_traced :
    Traced e (fun _ _ => True) (releaseLeaseWithRevision ρ : LeaseProg ι Unit) reg :=
  ⟨trivial, fun _ => ⟨fun hpend => (by cases hpend), fun _ _ _ => trivial⟩⟩

theorem shutdownLease_traced [DecidableEq ι] :
    Traced e (fun _ _ => True) (shutdownLease ex) reg := by
  refine ⟨trivial, fun x => ⟨?_, fun reg' hl ht => ?_⟩⟩
  · intro hpend
    rcases x with err | _ | ⟨m, ρ⟩
    · cases hpend
    · cases hpend
    · by_cases hm : m.holderIdentity = ex.identity <;> simp [Prog.bind, hm] at hpend <;> cases hpend
  · rcases x with err | _ | ⟨m, ρ⟩
    · exact trivial
    · exact trivial
    · by_cases hm : m.holderIdentity = ex.identity
      · simp only [Prog.bind, hm, if_true]
        exact releaseLease_traced
      · simp only [Prog.bind, hm, if_false]
        exact trivial

/-! ## The write that a request makes -/

variable {new : Metadata ι} {s t : State ι} {a : Act ι}

/-- A lease in the log has a positive generation, and one that nothing has replaced
is there. -/
structure Standing (reg : LeaseKey ι) : Prop where
  positive : ∀ w ∈ reg.log, ∀ m, w.content = some m → 1 ≤ m.generation
  visible : ∀ w, reg.log.head? = some w → w.content.isSome = true → reg.visible = true

theorem Standing.last (h : Standing reg) {old : Metadata ι} (hold : old ∈ reg.versions.head?) :
    1 ≤ old.generation := by
  obtain ⟨w, hw, hc⟩ := Register.mem_versions.mp (List.mem_of_mem_head? hold)
  exact h.positive w hw old hc

theorem serve_stored {writer : ι} {x : r.Reply} (h : serve writer now c reg r = some (x, reg')) :
    (stored reg r = none ∧ (reg' = reg ∨ ∃ w v, w.content = none ∧ reg.push w v = some reg')) ∨
      ∃ new, stored reg r = some new ∧
        reg.push ⟨c.revision, some writer, some new⟩ true = some reg' := by
  cases r with
  | clock =>
      cases h
      exact .inl ⟨rfl, .inl rfl⟩
  | getWithRevision =>
      cases h
      exact .inl ⟨rfl, .inl rfl⟩
  | getRevision =>
      cases h
      exact .inl ⟨rfl, .inl rfl⟩
  | create value =>
      simp only [serve] at h
      split at h
      · rename_i w hw
        cases h
        exact .inl ⟨by rw [stored, hw]; rfl, .inl rfl⟩
      · rename_i hnone
        obtain ⟨reg₁, hp, he⟩ := Option.map_eq_some_iff.mp h
        cases he
        exact .inr ⟨value, by rw [stored, hnone]; rfl, hp⟩
  | update value ρ =>
      simp only [serve] at h
      split at h
      · rename_i hacc
        obtain ⟨reg₁, hp, he⟩ := Option.map_eq_some_iff.mp h
        cases he
        exact .inr ⟨value, by rw [stored, if_pos hacc], hp⟩
      · rename_i hacc
        cases h
        exact .inl ⟨by rw [stored, if_neg hacc], .inl rfl⟩
  | deleteWithRevision ρ =>
      simp only [serve] at h
      split at h
      · obtain ⟨reg₁, hp, he⟩ := Option.map_eq_some_iff.mp h
        cases he
        exact .inl ⟨rfl, .inr ⟨_, _, rfl, hp⟩⟩
      · cases h
        exact .inl ⟨rfl, .inl rfl⟩

/-- What a justified request stores names its sender, and comes either after a
deletion or by replacing the lease that is there. -/
theorem Justified.stored (hj : Justified e reg r) (hst : Standing reg)
    (hs : stored reg r = some new) :
    new.holderIdentity = e ∧
      ((new.generation = 1 ∧ ∀ w ∈ reg.log.head?, ∀ m, w.content = some m →
          m.holderIdentity = e → m.generation = 1) ∨
        ∃ w old l, reg.log = w :: l ∧ w.content = some old ∧ reg.versions.head? = some old ∧
          (old.holderIdentity ≠ e ∧
              new.generation = Saturating.add generationMax old.generation 1 ∨
            old.holderIdentity = e ∧ new.generation = old.generation)) := by
  cases r with
  | create value =>
      obtain ⟨hnone, hvalue⟩ := Option.ite_none_right_eq_some.mp hs
      obtain rfl := Option.some.inj hvalue
      refine ⟨hj.1, .inl ⟨hj.2, fun w hw m hc _ => ?_⟩⟩
      -- nothing is there, so the last write was a deletion
      have hv := hst.visible w hw (by rw [hc]; rfl)
      rw [Register.current, if_pos hv, hw] at hnone
      cases hnone
  | update value ρ =>
      obtain ⟨hacc, hvalue⟩ := Option.ite_none_right_eq_some.mp hs
      obtain rfl := Option.some.inj hvalue
      obtain ⟨hv, w, hw, hr, hreplaces⟩ := hj
      obtain ⟨-, l, hlog⟩ := Register.current_of_accepts hacc hw hr
      refine ⟨hv, ?_⟩
      generalize hcontent : w.content = content at hreplaces
      have hversions : ∀ old, content = some old → reg.versions.head? = some old := by
        rintro old rfl
        rw [Register.versions, hlog, List.filterMap_cons_some hcontent]
        rfl
      cases hreplaces with
      | fresh hnew hown =>
          refine .inl ⟨hnew, fun w' hw' m hc => hown m ?_⟩
          rw [hlog] at hw'
          obtain rfl := Option.some.inj hw'
          exact hcontent.symm.trans hc
      | takenOver hne hnew =>
          exact .inr ⟨w, _, l, hlog, hcontent, hversions _ rfl, .inl ⟨hne, hnew⟩⟩
      | renewed he hnew =>
          exact .inr ⟨w, _, l, hlog, hcontent, hversions _ rfl, .inr ⟨he, hnew⟩⟩
  | _ => cases hs

theorem Justified.positive (hj : Justified e reg r) (hst : Standing reg)
    (hs : Lease.stored reg r = some new) : 1 ≤ new.generation := by
  obtain ⟨-, ⟨hnew, -⟩ | ⟨w, old, l, hlog, hc, -, hgen⟩⟩ := hj.stored hst hs
  · exact hnew.ge
  · have hold := hst.positive w (hlog ▸ List.mem_cons_self) old hc
    rcases hgen with ⟨-, hnew⟩ | ⟨-, hnew⟩
    · rw [hnew, Saturating.add, generationMax]
      omega
    · rwa [hnew]

/-- A write keeps the law exactly if it continues the lineage. -/
theorem succession_iff {revision : Nat} (hj : Justified e reg r) (hst : Standing reg)
    (hs : stored reg r = some new) :
    Succession reg.log ⟨revision, some e, some new⟩ ↔ Continues e reg r := by
  obtain ⟨hholder, hgen⟩ := hj.stored hst hs
  constructor
  · intro h new' hnew' old hold hne
    obtain rfl : new = new' := Option.some.inj (hs.symm.trans hnew')
    have hlt := h.acquired new rfl old hold (hholder ▸ hne)
    have hpos := hst.last hold
    rcases hgen with ⟨hnew, -⟩ | ⟨w, old', l, -, -, hhead, ⟨-, hnew⟩ | ⟨he, -⟩⟩
    · omega
    · obtain rfl : old' = old := Option.some.inj (hhead.symm.trans hold)
      rw [hnew, Saturating.add] at hlt ⊢
      rw [generationMax] at hlt ⊢
      omega
    · obtain rfl : old' = old := Option.some.inj (hhead.symm.trans hold)
      exact absurd he hne
  · intro h
    constructor
    · intro new' hnew' old hold hne
      obtain rfl : new = new' := Option.some.inj hnew'
      rw [hholder] at hne
      obtain ⟨hne1, hmax⟩ := h new hs old hold hne
      rcases hgen with ⟨hnew, -⟩ | ⟨w, old', l, -, -, hhead, ⟨-, hnew⟩ | ⟨he, -⟩⟩
      · exact absurd hnew hne1
      · obtain rfl : old' = old := Option.some.inj (hhead.symm.trans hold)
        rw [hnew, Saturating.add]
        omega
      · obtain rfl : old' = old := Option.some.inj (hhead.symm.trans hold)
        exact absurd he hne
    · intro new' hnew' w' hw' old hold he
      obtain rfl : new = new' := Option.some.inj hnew'
      rw [hholder] at he
      rcases hgen with ⟨hnew, hown⟩ | ⟨w, old', l, hlog, hc, -, hgen⟩
      · rw [hnew, hown w' hw' old hold he]
      · rw [hlog] at hw'
        obtain rfl : w = w' := Option.some.inj hw'
        obtain rfl : old' = old := Option.some.inj (hc.symm.trans hold)
        rcases hgen with ⟨hne, -⟩ | ⟨-, hnew⟩
        · exact absurd he hne
        · exact hnew

/-- A deletion stores nothing that could break the law. -/
theorem succession_none {older : List (Write ι (Metadata ι))} {w : Write ι (Metadata ι)}
    (h : w.content = none) : Succession older w where
  acquired new hnew := by
    rw [h] at hnew
    cases hnew
  renewed new hnew := by
    rw [h] at hnew
    cases hnew

/-- A request that takes effect keeps the lineage exactly if it continues it. -/
theorem serve_lineage {x : r.Reply} (hj : Justified e reg r) (hst : Standing reg)
    (h : serve e now c reg r = some (x, reg')) :
    Lineage reg' ↔ Lineage reg ∧ Continues e reg r := by
  have hquiet : stored reg r = none → Continues e reg r := by
    intro hnone new hnew
    rw [hnone] at hnew
    cases hnew
  obtain ⟨hnone, rfl | ⟨w, v, hw, hp⟩⟩ | ⟨new, hs, hp⟩ := serve_stored h
  · exact (and_iff_left (hquiet hnone)).symm
  · rw [Lineage, Register.eachWrite_push hp, and_iff_left (succession_none hw)]
    exact (and_iff_left (hquiet hnone)).symm
  · rw [Lineage, Register.eachWrite_push hp, succession_iff hj hst hs]
    rfl

theorem Standing.push {w : Write ι (Metadata ι)} {v : Bool} (h : Standing reg)
    (hp : reg.push w v = some reg')
    (hw : ∀ m, w.content = some m → 1 ≤ m.generation ∧ v = true) : Standing reg' := by
  obtain ⟨-, hlog, hv⟩ := Register.push_eq_some hp
  constructor
  · intro w' hw' m hm
    rw [hlog] at hw'
    rcases List.mem_cons.mp hw' with rfl | hw'
    · exact (hw m hm).1
    · exact h.positive w' hw' m hm
  · intro w' hw' hsome
    rw [hlog] at hw'
    obtain rfl := Option.some.inj hw'
    obtain ⟨m, hm⟩ := Option.isSome_iff_exists.mp hsome
    exact hv.trans (hw m hm).2

theorem serve_standing {x : r.Reply} (hj : Justified e reg r) (hst : Standing reg)
    (h : serve e now c reg r = some (x, reg')) : Standing reg' := by
  obtain ⟨-, rfl | ⟨w, v, hw, hp⟩⟩ | ⟨new, hs, hp⟩ := serve_stored h
  · exact hst
  · refine hst.push hp fun m hm => ?_
    rw [hw] at hm
    cases hm
  · refine hst.push hp fun m hm => ?_
    obtain rfl := Option.some.inj hm
    exact ⟨hj.positive hst hs, rfl⟩

/-! ## The tasks -/

/-- `e` has found no lease and no lease of its own has appeared since, other than
one it began; nor will one of the requests it has given up write another. -/
structure Cleared (e : ι) (reg : LeaseKey ι) (stray : List (ι × Req ι)) : Prop where
  own : ∀ w, reg.current = some w → ∀ m, w.content = some m → m.holderIdentity = e →
    m.generation = 1
  stray : ∀ value ρ, (e, Req.update value ρ) ∈ stray → reg.accepts ρ = true →
    value.generation = 1

def Phase.Traced (e : ι) (reg : LeaseKey ι) : Phase ι → Prop
  | .acquiring (some p) => Lease.Traced e (Granted e) p reg
  | .renewing generation (some p) => Lease.Traced e (Renewed e generation) p reg
  | .handingOver p => Lease.Traced e (fun _ _ => True) p reg
  | .stopping p => Lease.Traced e (fun _ _ => True) p reg
  | _ => True

/-- What a lease task sends is justified, and while it renews it goes by a lease
that it wrote. -/
structure Node.Traced (e : ι) (reg : LeaseKey ι) (n : Node ι) : Prop where
  phase : n.phase.Traced e reg
  remembers : ∀ generation p, n.phase = .renewing generation p →
    Remembers e reg n.currentRevision generation

structure State.Traced (s : State ι) : Prop where
  standing : Standing s.lease
  node : ∀ e, (s.node e).Traced e s.lease
  stray : ∀ q ∈ s.stray, Justified q.1 s.lease q.2
  cleared : ∀ e, (s.node e).phase.pending = some .getRevision → Cleared e s.lease s.stray

variable {ph ph' : Phase ι} {n n' : Node ι} {x : r.Reply} {stray : List (ι × Req ι)}

theorem Phase.Traced.mono (h : ph.Traced e reg) (hl : reg.log ⊆ reg'.log) : ph.Traced e reg' := by
  rcases ph with (_ | p) | ⟨g, _ | p⟩ | p | p | _
  · trivial
  · exact Lease.Traced.mono h hl fun res hres g hg => (hres g hg).mono hl
  · trivial
  · exact Lease.Traced.mono h hl fun res hres ρ hρ => (hres ρ hρ).mono hl
  · exact Lease.Traced.mono h hl fun _ _ => trivial
  · exact Lease.Traced.mono h hl fun _ _ => trivial
  · trivial

theorem Phase.Traced.justified (h : ph.Traced e reg) (hp : ph.pending = some r) :
    Justified e reg r := by
  rcases ph with (_ | p | ⟨r', k⟩) | ⟨g, _ | p | ⟨r', k⟩⟩ | (p | ⟨r', k⟩) | (p | ⟨r', k⟩) | _ <;> cases hp
  all_goals exact h.1

theorem Phase.Resumes.traced (h : ph.Resumes r x ph') (hs : ph.Traced e reg)
    (hl : reg.log ⊆ reg'.log) (ht : Told e reg' r x) : ph'.Traced e reg' := by
  cases h with
  | acquiring k => exact (hs.2 x).2 reg' hl ht
  | renewing g k => exact (hs.2 x).2 reg' hl ht
  | handingOver k => exact (hs.2 x).2 reg' hl ht
  | stopping k => exact (hs.2 x).2 reg' hl ht

/-- The revision of a marker is asked for where no lease was found. -/
theorem Phase.Resumes.foundNone (h : ph.Resumes r x ph') (hs : ph.Traced e reg)
    (hp : ph'.pending = some .getRevision) : FoundNone r x := by
  cases h with
  | acquiring k => exact (hs.2 x).1 hp
  | renewing g k => exact (hs.2 x).1 hp
  | handingOver k => exact (hs.2 x).1 hp
  | stopping k => exact (hs.2 x).1 hp

theorem Node.Traced.mono (h : n.Traced e reg) (hl : reg.log ⊆ reg'.log) : n.Traced e reg' :=
  ⟨h.phase.mono hl, fun g p hp => (h.remembers g p hp).mono hl⟩

/-- A task that does not renew knows only its phase. -/
theorem Node.traced_of_phase (h : n.phase.Traced e reg) (hr : ∀ g p, n.phase ≠ .renewing g p) :
    n.Traced e reg :=
  ⟨h, fun g p hp => absurd hp (hr g p)⟩

theorem Node.Traced.resume (h : n.Traced e reg) (hl : reg.log ⊆ reg'.log)
    (hr : n.phase.Resumes r x ph') (ht : Told e reg' r x) :
    ({ n with phase := ph' } : Node ι).Traced e reg' where
  phase := hr.traced h.phase hl ht
  remembers g p hp := by
    obtain rfl : ph' = .renewing g p := hp
    generalize hq : n.phase = ph at hr
    cases hr with
    | renewing g k => exact (h.remembers g _ hq).mono hl

/-- What a task takes over from a result is what the result is known to say. -/
theorem Node.Traced.react {handOver : Bool} (h : n.Traced e reg)
    (hr : n.react handOver = some n') :
    n'.Traced e reg ∧ n'.phase.pending ≠ some .getRevision := by
  have hph := h.phase
  have hacquired : ∀ ρ generation, Remembers e reg ρ generation →
      (if n.closed then some { n with currentRevision := ρ, phase := .gone }
        else some
          { n with
            currentRevision := ρ
            phase := .renewing generation none
            leading := true }) = some n' →
      n'.Traced e reg ∧ n'.phase.pending ≠ some .getRevision := by
    intro ρ generation hmem hr
    split at hr <;> cases hr
    · exact ⟨Node.traced_of_phase trivial (by simp), by simp [Phase.pending]⟩
    · refine ⟨⟨trivial, fun g p hp => ?_⟩, by simp [Phase.pending]⟩
      cases hp
      exact hmem
  have hlost : (if n.closed then some { n with phase := .gone }
      else some { n with leading := false, phase := .acquiring none }) = some n' →
      n'.Traced e reg ∧ n'.phase.pending ≠ some .getRevision := by
    intro hr
    split at hr <;> cases hr
    · exact ⟨Node.traced_of_phase trivial (by simp), by simp [Phase.pending]⟩
    · exact ⟨Node.traced_of_phase trivial (by simp), by simp [Phase.pending]⟩
  rw [Node.react] at hr
  split at hr
  -- an acquisition attempt has ended
  · rename_i hp
    rw [hp] at hph
    exact hacquired _ _ (hph _ rfl) hr
  · rename_i hp
    rw [hp] at hph
    exact hacquired _ _ (hph _ rfl) hr
  · cases hr
    exact ⟨Node.traced_of_phase trivial (by simp), by simp [Phase.pending]⟩
  · cases hr
    exact ⟨Node.traced_of_phase trivial (by simp), by simp [Phase.pending]⟩
  -- a renewal has ended
  · rename_i hp
    rw [hp] at hph
    split at hr <;> cases hr
    · exact ⟨Node.traced_of_phase releaseLease_traced (by simp),
        by simp [Phase.pending, releaseLeaseWithRevision, Prog.pending]⟩
    · refine ⟨⟨trivial, fun g p hp' => ?_⟩, by simp [Phase.pending]⟩
      cases hp'
      exact hph _ rfl
  · exact hlost hr
  · exact hlost hr
  · rename_i hp
    cases hr
    refine ⟨⟨trivial, fun g p hp' => ?_⟩, by simp [Phase.pending]⟩
    cases hp'
    exact h.remembers _ _ hp
  -- a release has ended
  · cases hr
    exact ⟨Node.traced_of_phase trivial (by simp), by simp [Phase.pending]⟩
  · cases hr
    exact ⟨Node.traced_of_phase trivial (by simp), by simp [Phase.pending]⟩
  · cases hr

/-! ### What a reply tells -/

theorem serve_told (hcleared : r = .getRevision → Cleared e reg stray)
    (h : serve e now c reg r = some (x, reg')) : Told e reg' r x := by
  cases r with
  | clock => trivial
  | deleteWithRevision ρ => trivial
  | create value =>
      intro ρ hx
      simp only [serve] at h
      split at h
      · cases h
        cases hx
      · obtain ⟨reg₁, hp, he⟩ := Option.map_eq_some_iff.mp h
        cases he
        cases hx
        obtain ⟨-, hlog, -⟩ := Register.push_eq_some hp
        exact ⟨_, hlog ▸ List.mem_cons_self, rfl, rfl⟩
  | update value ρ =>
      intro ρ' hx
      simp only [serve] at h
      split at h
      · obtain ⟨reg₁, hp, he⟩ := Option.map_eq_some_iff.mp h
        cases he
        cases hx
        obtain ⟨-, hlog, -⟩ := Register.push_eq_some hp
        exact ⟨_, hlog ▸ List.mem_cons_self, rfl, rfl⟩
      · cases h
        cases hx
  | getWithRevision =>
      cases h
      intro m ρ hx
      obtain ⟨w, hw, hc⟩ := Option.bind_eq_some_iff.mp (Except.ok.inj hx)
      obtain ⟨m', hm', he⟩ := Option.map_eq_some_iff.mp hc
      cases he
      exact ⟨w, Register.current_mem hw, rfl, hm'⟩
  | getRevision =>
      cases h
      intro ρ hx
      obtain ⟨w, hw, hr⟩ := Option.map_eq_some_iff.mp (Except.ok.inj hx)
      exact ⟨w, Register.current_mem hw, hr, (hcleared rfl).own w hw⟩

theorem failed_told (h : r.failed = some x) : Told e reg r x := by
  cases r <;> cases h <;> simp [Told]

/-- No lease was found, so nothing that `e` has given up can replace one. -/
theorem cleared_of_foundNone (hj : ∀ q ∈ stray, Justified q.1 reg q.2) (hf : FoundNone r x)
    (h : serve e now c reg r = some (x, reg')) : reg' = reg ∧ Cleared e reg stray := by
  cases r with
  | getWithRevision =>
      cases h
      have hnone : ∀ w, reg.current = some w → w.content = none := by
        intro w hw
        have hbind := Except.ok.inj hf
        rw [hw] at hbind
        cases hc : w.content with
        | none => rfl
        | some m =>
            simp [hc] at hbind
      refine ⟨rfl, ⟨fun w hw m hm => ?_, fun value ρ hq hacc => ?_⟩⟩
      · rw [hnone w hw] at hm
        cases hm
      · obtain ⟨-, w, hw, hr, hreplaces⟩ := hj _ hq
        obtain ⟨hcur, -⟩ := Register.current_of_accepts hacc hw hr
        rw [hnone w hcur] at hreplaces
        cases hreplaces with
        | fresh hnew _ => exact hnew
  | _ => exact hf.elim

/-- After a write of somebody else, or one that begins at 1, no request given up
before can take effect. -/
theorem cleared_push {w : Write ι (Metadata ι)} {v : Bool} {stray' : List (ι × Req ι)}
    (hj : ∀ q ∈ stray, Justified q.1 reg q.2) (hsub : stray' ⊆ stray)
    (hp : reg.push w v = some reg')
    (hw : ∀ m, w.content = some m → m.holderIdentity = e → m.generation = 1) :
    Cleared e reg' stray' := by
  obtain ⟨hnew, hlog, -⟩ := Register.push_eq_some hp
  have hhead : ∀ w', reg'.current = some w' → w' = w := by
    intro w' hw'
    rw [Register.current] at hw'
    split at hw'
    · rw [hlog] at hw'
      exact (Option.some.inj hw').symm
    · cases hw'
  constructor
  · intro w' hw' m hm he
    obtain rfl := hhead w' hw'
    exact hw m hm he
  · intro value ρ hq hacc
    -- what a request expects has been in the log before
    obtain ⟨-, w₀, hw₀, hr₀, -⟩ := hj _ (hsub hq)
    obtain ⟨w', hw', hr'⟩ := Register.accepts_iff.mp hacc
    obtain rfl := hhead w' hw'
    exact absurd (List.mem_map.mpr ⟨w₀, hw₀, hr₀.trans hr'.symm⟩) hnew

/-! ### The steps -/

/-- A write for which nobody waits. -/
theorem State.Traced.of_late (h : s.Traced) {w : Write ι (Metadata ι)} {v : Bool}
    (hp : s.lease.push w v = some reg) (hst : Standing reg) (hsub : stray ⊆ s.stray)
    (hw : ∀ m, w.content = some m →
      (s.node m.holderIdentity).phase.pending = some .getRevision → m.generation = 1) :
    ({ s with lease := reg, stray := stray } : State ι).Traced where
  standing := hst
  node e := (h.node e).mono (Register.log_subset hp)
  stray q hq := (h.stray q (hsub hq)).mono (Register.log_subset hp)
  cleared _ hp' := cleared_push h.stray hsub hp fun m hm he => hw m hm (he ▸ hp')

section Step

variable [DecidableEq ι] {config : LeaseConfig} {valid : config.validate = .ok ()}

theorem Node.Traced.start (h : n.Traced e reg) (hs : n.start config valid e = some n') :
    n'.Traced e reg ∧ n'.phase.pending ≠ some .getRevision := by
  rw [Node.start] at hs
  split at hs
  · cases hs
    refine ⟨Node.traced_of_phase (acquireLease_traced rfl) (by simp), ?_⟩
    simp [Phase.pending, acquireLease, Prog.pending]
  · rename_i g hp
    cases hs
    refine ⟨⟨renewLease_traced rfl (h.remembers g none hp), fun g' p hp' => ?_⟩, ?_⟩
    · cases hp'
      exact h.remembers g none hp
    · simp [Phase.pending, renewLease, Prog.pending]
  · cases hs

/-- The task of `e` changes, and requests of `e` are given up; nothing is written. -/
theorem State.Traced.of_set (h : s.Traced) (hn : n.Traced e s.lease)
    (hpend : n.phase.pending ≠ some .getRevision)
    (hs : ∀ q ∈ stray, q ∈ s.stray ∨ q.1 = e ∧ (s.node e).phase.pending = some q.2) :
    ({ s.set e n with stray := stray } : State ι).Traced where
  standing := h.standing
  node e' := by
    by_cases he : e' = e
    · subst he
      simpa [State.set] using hn
    · simpa [State.set, he] using h.node e'
  stray q hq := by
    rcases hs q hq with hq | ⟨rfl, hp⟩
    · exact h.stray q hq
    · exact (h.node _).phase.justified hp
  cleared e' hp := by
    by_cases he : e' = e
    · subst he
      exact absurd (by simpa [State.set] using hp) hpend
    · have hold := h.cleared e' (by simpa [State.set, he] using hp)
      refine ⟨hold.own, fun value ρ hq hacc => ?_⟩
      rcases hs _ hq with hq | ⟨heq, -⟩
      · exact hold.stray value ρ hq hacc
      · exact absurd heq he

/-- A write by `e`, with which its task goes on. -/
theorem State.Traced.of_write (h : s.Traced) {w : Write ι (Metadata ι)} {v : Bool}
    (hp : s.lease.push w v = some reg) (hst : Standing reg) (hn : n.Traced e reg)
    (hpend : n.phase.pending ≠ some .getRevision)
    (hw : ∀ m, w.content = some m → m.holderIdentity = e) :
    ({ s.set e n with lease := reg } : State ι).Traced where
  standing := hst
  node e' := by
    by_cases he : e' = e
    · subst he
      simpa [State.set] using hn
    · simpa [State.set, he] using (h.node e').mono (Register.log_subset hp)
  stray q hq := (h.stray q hq).mono (Register.log_subset hp)
  cleared e' hp' := by
    by_cases he : e' = e
    · subst he
      exact absurd (by simpa [State.set] using hp') hpend
    · refine cleared_push h.stray (List.Subset.refl _) hp fun m hm hself => ?_
      exact absurd (hself.symm.trans (hw m hm)) he

/-- The request that `e` waits for is served, and its task goes on. -/
theorem State.Traced.serve {c : Choice} (h : s.Traced) (hpend : (s.node e).phase.pending = some r)
    (hx : Lease.serve e s.now c s.lease r = some (x, reg))
    (hres : (s.node e).phase.Resumes r x ph) :
    ({ s.set e { s.node e with phase := ph } with lease := reg } : State ι).Traced := by
  have hj := (h.node e).phase.justified hpend
  have hst := serve_standing hj h.standing hx
  have hn := (h.node e).resume (serve_log hx) hres
    (serve_told (fun hr => h.cleared e (hr ▸ hpend)) hx)
  have hfound (hask : ph.pending = some .getRevision) :=
    cleared_of_foundNone h.stray (hres.foundNone (h.node e).phase hask) hx
  have hwritten {w : Write ι (Metadata ι)} {v : Bool} (hpush : s.lease.push w v = some reg) :
      ph.pending ≠ some .getRevision := by
    intro hask
    obtain ⟨-, hlog, -⟩ := Register.push_eq_some hpush
    rw [(hfound hask).1] at hlog
    exact List.cons_ne_self _ _ hlog.symm
  obtain ⟨-, rfl | ⟨w, v, hw, hpush⟩⟩ | ⟨new, hstored, hpush⟩ := serve_stored hx
  · -- nothing is written; if no lease was found, `e` is cleared
    by_cases hask : ph.pending = some .getRevision
    · refine ⟨h.standing, fun e' => ?_, h.stray, fun e' hp' => ?_⟩
      · by_cases he : e' = e
        · subst he
          simpa [State.set] using hn
        · simpa [State.set, he] using h.node e'
      · by_cases he : e' = e
        · exact he ▸ (hfound hask).2
        · exact h.cleared e' (by simpa [State.set, he] using hp')
    · exact h.of_set hn hask fun q hq => .inl hq
  · refine h.of_write hpush hst hn (hwritten hpush) fun m hm => ?_
    rw [hw] at hm
    cases hm
  · refine h.of_write hpush hst hn (hwritten hpush) fun m hm => ?_
    obtain rfl := Option.some.inj hm
    exact (hj.stored h.standing hstored).1

omit [DecidableEq ι] in
/-- A request that was given up is served after all. -/
theorem State.Traced.deliver {c : Choice} {idx : Nat} (h : s.Traced)
    (hq : s.stray[idx]? = some (e, r))
    (hx : Lease.serve e s.now c s.lease r = some (x, reg)) :
    ({ s with lease := reg, stray := s.stray.eraseIdx idx } : State ι).Traced := by
  have hmem := List.mem_of_getElem? hq
  have hj := h.stray _ hmem
  have hst := serve_standing hj h.standing hx
  have hsub : s.stray.eraseIdx idx ⊆ s.stray := List.eraseIdx_subset
  obtain ⟨-, rfl | ⟨w, v, hw, hpush⟩⟩ | ⟨new, hstored, hpush⟩ := serve_stored hx
  · refine ⟨h.standing, h.node, fun q hq => h.stray q (hsub hq), fun e' hp' => ?_⟩
    have hold := h.cleared e' hp'
    exact ⟨hold.own, fun value ρ hq hacc => hold.stray value ρ (hsub hq) hacc⟩
  · refine h.of_late hpush hst hsub fun m hm => ?_
    rw [hw] at hm
    cases hm
  · refine h.of_late hpush hst hsub fun m hm hask => ?_
    obtain rfl := Option.some.inj hm
    rw [(hj.stored h.standing hstored).1] at hask
    -- `e` waits for the revision of a marker, so it has given up only what begins at 1
    cases r with
    | create value =>
        obtain ⟨-, hvalue⟩ := Option.ite_none_right_eq_some.mp hstored
        exact Option.some.inj hvalue ▸ hj.2
    | update value ρ =>
        obtain ⟨hacc, hvalue⟩ := Option.ite_none_right_eq_some.mp hstored
        exact Option.some.inj hvalue ▸ (h.cleared e hask).stray value ρ hmem hacc
    | _ => cases hstored

/-- The connection is gone before the reply; the request may still arrive. -/
theorem State.Traced.lose (h : s.Traced) (hpend : (s.node e).phase.pending = some r)
    (hfailed : r.failed = some x) (hres : (s.node e).phase.Resumes r x ph) :
    ({ s.set e { s.node e with phase := ph } with stray := s.stray ++ [(e, r)] } :
      State ι).Traced := by
  have hn := (h.node e).resume (List.Subset.refl _) hres (failed_told hfailed)
  refine h.of_set hn (fun hask => ?_) fun q hq => ?_
  · -- a call that failed has not found out anything
    have hnone := hres.foundNone (h.node e).phase hask
    cases r <;> cases hfailed <;> cases hnone
  · rcases List.mem_append.mp hq with hq | hq
    · exact .inl hq
    · rw [List.mem_singleton.mp hq]
      exact .inr ⟨rfl, hpend⟩

/-- Every step keeps what the tasks go by true. -/
theorem State.Traced.step (h : s.Traced) (hs : step config valid s a = some t) : t.Traced := by
  have hquiet : ∀ {e n}, n.Traced e s.lease → n.phase.pending ≠ some .getRevision →
      (s.set e n).Traced := fun hn hpend => h.of_set hn hpend fun q hq => .inl hq
  cases a with
  | tick secs =>
      cases hs
      exact ⟨h.standing, h.node, h.stray, h.cleared⟩
  | expire revision marker =>
      simp only [Lease.step] at hs
      split at hs
      · obtain ⟨reg, hp, rfl⟩ := Option.map_eq_some_iff.mp hs
        refine h.of_late hp (h.standing.push hp ?_) (List.Subset.refl _) ?_
        · intro m hm
          cases hm
        · intro m hm
          cases hm
      · cases hs
  | start e =>
      obtain ⟨n, hn, rfl⟩ := Option.map_eq_some_iff.mp hs
      obtain ⟨hn', hpend⟩ := (h.node e).start hn
      exact hquiet hn' hpend
  | serve e c =>
      obtain ⟨⟨ph, reg⟩, hp, rfl⟩ := Option.map_eq_some_iff.mp hs
      obtain ⟨r, x, hx, hpend, hres⟩ := Phase.answer_eq_some hp
      exact h.serve hpend hx hres
  | lose e =>
      obtain ⟨⟨ph, r⟩, hp, rfl⟩ := Option.map_eq_some_iff.mp hs
      obtain ⟨r', x, hx, hpend, hres⟩ := Phase.answer_eq_some hp
      obtain ⟨y, hy, he⟩ := Option.map_eq_some_iff.mp hx
      cases he
      exact h.lose hpend hy hres
  | deliver idx c =>
      simp only [Lease.step] at hs
      split at hs
      · rename_i e r hq
        obtain ⟨⟨x, reg⟩, hx, rfl⟩ := Option.map_eq_some_iff.mp hs
        exact h.deliver hq hx
      · cases hs
  | react e handOver =>
      obtain ⟨n, hn, rfl⟩ := Option.map_eq_some_iff.mp hs
      obtain ⟨hn', hpend⟩ := (h.node e).react hn
      exact hquiet hn' hpend
  | close e =>
      cases hs
      refine ⟨h.standing, fun e' => ?_, h.stray, fun e' hp' => h.cleared e' ?_⟩
      · by_cases he : e' = e
        · subst he
          simpa [State.set] using ⟨(h.node e').phase, (h.node e').remembers⟩
        · simpa [State.set, he] using h.node e'
      · by_cases he : e' = e
        · subst he
          simpa [State.set] using hp'
        · simpa [State.set, he] using hp'
  | shutdown e =>
      cases hs
      refine h.of_set (Node.traced_of_phase shutdownLease_traced (by simp)) ?_
        fun q hq => State.mem_abandon hq
      simp [Phase.pending, shutdownLease, stillOwnsLease, Prog.bind, Prog.pending]
  | register e =>
      cases hs
      exact h.of_set (Node.traced_of_phase trivial (by simp)) (by simp [Phase.pending])
        fun q hq => State.mem_abandon hq

/-- A step keeps the lineage exactly if it is unbroken. -/
theorem lineage_step_iff (h : s.Traced) (hs : Lease.step config valid s a = some t) :
    Lineage t.lease ↔ Lineage s.lease ∧ Unbroken s a := by
  cases a with
  | expire revision marker =>
      simp only [Lease.step] at hs
      split at hs
      · obtain ⟨reg, hp, rfl⟩ := Option.map_eq_some_iff.mp hs
        rw [Lineage, Register.eachWrite_push hp, and_iff_left (succession_none rfl)]
        exact (and_iff_left trivial).symm
      · cases hs
  | serve e c =>
      obtain ⟨⟨ph, reg⟩, hp, rfl⟩ := Option.map_eq_some_iff.mp hs
      obtain ⟨r, x, hx, hpend, -⟩ := Phase.answer_eq_some hp
      rw [serve_lineage ((h.node e).phase.justified hpend) h.standing hx, Unbroken, hpend]
      simp
  | deliver idx c =>
      simp only [Lease.step] at hs
      split at hs
      · rename_i e r hq
        obtain ⟨⟨x, reg⟩, hx, rfl⟩ := Option.map_eq_some_iff.mp hs
        rw [serve_lineage (h.stray _ (List.mem_of_getElem? hq)) h.standing hx, Unbroken, hq]
        simp
      · cases hs
  | tick secs =>
      cases hs
      exact (and_iff_left trivial).symm
  | start e =>
      obtain ⟨n, -, rfl⟩ := Option.map_eq_some_iff.mp hs
      exact (and_iff_left trivial).symm
  | lose e =>
      obtain ⟨⟨ph, r⟩, -, rfl⟩ := Option.map_eq_some_iff.mp hs
      exact (and_iff_left trivial).symm
  | react e handOver =>
      obtain ⟨n, -, rfl⟩ := Option.map_eq_some_iff.mp hs
      exact (and_iff_left trivial).symm
  | close e =>
      cases hs
      exact (and_iff_left trivial).symm
  | shutdown e =>
      cases hs
      exact (and_iff_left trivial).symm
  | register e =>
      cases hs
      exact (and_iff_left trivial).symm

omit [DecidableEq ι] in
theorem traced_initial (now : Nat) : (State.initial now : State ι).Traced where
  standing :=
    { positive := fun _ hw => by cases hw
      visible := fun _ hw => by cases hw }
  node _ := Node.traced_of_phase trivial (by simp [State.initial])
  stray _ hq := by cases hq
  cleared _ hp := by cases hp

/-! ## The history of a lease -/

/-- Every change of the holder raises the generation and every renewal keeps it, in
a run from the first lease on, if and only if all its steps are unbroken. -/
theorem lineage_iff_unbroken (config : LeaseConfig) (valid : config.validate = .ok ()) (now : Nat)
    (as : List (Act ι)) (s : State ι) (h : (election config valid).Run (.initial now) as s) :
    Lineage s.lease ↔ (election config valid).RunOf Unbroken (.initial now) as s :=
  h.iff_steps (traced_initial now) Register.eachWrite_empty (fun _ _ _ h hs => h.step hs)
    fun _ _ _ h hs => lineage_step_iff h hs

end Step

/-- The first executor renews, its lease expires and the second one takes it over. -/
theorem lineage_after_takeover :
    ∃ as s, (election (ι := Bool) {} rfl).Run (.initial 0) as s ∧
      s.lease.versions.map (fun m => (m.holderIdentity, m.generation)) =
        [(true, 2), (false, 1), (false, 1)] ∧ Lineage s.lease := by
  have hrun : ((election (ι := Bool) {} rfl).exec Unbroken (.initial 0)
      ([Act.start false] ++ serves false [0, 1] ++ [Act.react false false] ++
        [Act.start false] ++ serves false [0, 2] ++ [Act.react false false, Act.tick 61] ++
        [Act.start true] ++ serves true [0, 0, 0, 3])).any
      (fun s => s.lease.versions.map (fun m => (m.holderIdentity, m.generation)) ==
        [(true, 2), (false, 1), (false, 1)]) = true := by
    decide
  obtain ⟨s, hr, hs⟩ := Machine.exists_of_exec hrun
  exact ⟨_, s, hr.run, eq_of_beq hs, (lineage_iff_unbroken {} rfl 0 _ s hr.run).mpr hr⟩

/-- The first executor hands the lease over, and the second one overwrites the
deletion marker: two holders at generation 1, one after the other. -/
theorem generation_begins_again :
    ∃ s, (election (ι := Bool) {} rfl).Reachable s ∧ ¬ Lineage s.lease := by
  have hrun : ((election (ι := Bool) {} rfl).exec (fun _ _ => True) (.initial 0)
      ([Act.start false] ++ serves false [0, 1] ++ [Act.react false false] ++
        [Act.start false] ++ serves false [0, 2] ++ [Act.react false true] ++
        serves false [3] ++ [Act.react false false] ++
        [Act.start true] ++ serves true [0, 0, 0, 0, 4])).any
      (fun s => s.lease.log ==
        [⟨4, some true, some ⟨true, 0, 60, 1⟩⟩, ⟨3, some false, none⟩,
          ⟨2, some false, some ⟨false, 0, 60, 1⟩⟩, ⟨1, some false, some ⟨false, 0, 60, 1⟩⟩]) = true := by
    decide
  obtain ⟨s, hr, hs⟩ := Machine.exists_of_exec hrun
  refine ⟨s, ⟨_, _, ⟨0, rfl⟩, hr⟩, fun h => ?_⟩
  have hnext := h [] _ _ (eq_of_beq hs)
  exact absurd (hnext.acquired _ rfl _ rfl (by decide)) (lt_irrefl 1)

end Flowgen.Lease
