/-
# `Flowgen.Lib.Register` — a register whose revisions are never used twice

A `Register` is one key of a store with compare-and-swap on revisions.  All
its writes are kept in a log, newest first, with pairwise different revisions:
that no revision is used twice is a field of the structure.  A deletion is a
write without content.  It may leave a marker with a revision of its own, or
nothing; then the register is not `visible`.

The one fact everything rests on is that being superseded is for ever.  Once
some write stands after the write of revision `r` in the log, `r` is never
again the current revision (`Superseded.not_current`), whatever is written
later (`Superseded.mono`).  So a compare-and-swap on `r` cannot succeed any
more.
-/
import Mathlib

namespace Flowgen.Lib

/-- A write by `writer` (or by the store itself); a deletion has no content. -/
structure Write (W X : Type) where
  revision : Nat
  writer : Option W
  content : Option X
deriving DecidableEq

structure Register (W X : Type) where
  log : List (Write W X)
  visible : Bool
  nodup : (log.map (·.revision)).Nodup

namespace Register

variable {W X : Type}

/-- Nothing has been written yet. -/
def empty : Register W X := ⟨[], false, List.nodup_nil⟩

/-- What a reader finds: an entry, a marker, or nothing. -/
def current (reg : Register W X) : Option (Write W X) :=
  if reg.visible then reg.log.head? else none

/-- A new write; `none` if its revision has been used before. -/
def push (reg : Register W X) (w : Write W X) (visible : Bool) : Option (Register W X) :=
  if h : w.revision ∈ reg.log.map (·.revision) then none
  else some ⟨w :: reg.log, visible, List.nodup_cons.mpr ⟨h, reg.nodup⟩⟩

/-- Whether a compare-and-swap on `r` succeeds. -/
def accepts (reg : Register W X) (r : Nat) : Bool := reg.current.any (·.revision == r)

variable {reg reg' : Register W X} {w w' : Write W X} {r : Nat} {v : Bool}

theorem push_eq_some (h : reg.push w v = some reg') :
    w.revision ∉ reg.log.map (·.revision) ∧ reg'.log = w :: reg.log ∧ reg'.visible = v := by
  rw [push] at h
  split at h
  · cases h
  · rename_i hn
    cases h
    exact ⟨hn, rfl, rfl⟩

theorem log_suffix (h : reg.push w v = some reg') : reg.log <:+ reg'.log := by
  obtain ⟨_, hlog, _⟩ := push_eq_some h
  exact hlog ▸ List.suffix_cons w reg.log

theorem log_subset (h : reg.push w v = some reg') : reg.log ⊆ reg'.log := (log_suffix h).subset

theorem current_push (h : reg.push w true = some reg') : reg'.current = some w := by
  obtain ⟨_, hlog, hv⟩ := push_eq_some h
  simp [current, hlog, hv]

theorem current_mem (h : reg.current = some w) : w ∈ reg.log := by
  rw [current] at h
  split at h
  · exact List.mem_of_mem_head? h
  · cases h

theorem accepts_iff : reg.accepts r = true ↔ ∃ w, reg.current = some w ∧ w.revision = r := by
  rw [accepts]
  cases reg.current <;> simp

/-- A revision stands for one write. -/
theorem eq_of_revision (h : w ∈ reg.log) (h' : w' ∈ reg.log) (hr : w.revision = w'.revision) :
    w = w' :=
  List.inj_on_of_nodup_map reg.nodup h h' hr

/-- Some write stands after that of revision `r`. -/
def Superseded (reg : Register W X) (r : Nat) : Prop :=
  ∃ w l, reg.log = w :: l ∧ r ∈ l.map (·.revision)

theorem Superseded.not_current (h : reg.Superseded r) : reg.accepts r = false := by
  obtain ⟨w, l, hlog, hr⟩ := h
  have hn := reg.nodup
  rw [hlog, List.map_cons, List.nodup_cons] at hn
  rw [← Bool.not_eq_true, accepts_iff]
  rintro ⟨w', hw', rfl⟩
  rw [current] at hw'
  split at hw'
  · rw [hlog] at hw'
    cases hw'
    exact hn.1 hr
  · cases hw'

theorem Superseded.mono (h : reg.Superseded r) (hl : reg.log <:+ reg'.log) : reg'.Superseded r := by
  obtain ⟨w, l, hlog, hr⟩ := h
  obtain ⟨l₀, hl⟩ := hl
  rw [hlog] at hl
  cases l₀ with
  | nil => exact ⟨w, l, hl.symm, hr⟩
  | cons w₀ l₀ =>
      refine ⟨w₀, l₀ ++ w :: l, hl.symm, ?_⟩
      rw [List.map_append, List.map_cons]
      exact List.mem_append_right _ (List.mem_cons_of_mem _ hr)

/-- A write supersedes every revision that was used before it. -/
theorem superseded_push (hr : r ∈ reg.log.map (·.revision)) (hp : reg.push w v = some reg') :
    reg'.Superseded r := by
  obtain ⟨_, hlog, _⟩ := push_eq_some hp
  exact ⟨w, reg.log, hlog, hr⟩

/-- If a compare-and-swap on `r` succeeds, the write of `r` is the last one. -/
theorem head_of_accepts (h : reg.accepts r = true) :
    ∃ w l, reg.log = w :: l ∧ w.revision = r ∧ reg.current = some w := by
  obtain ⟨w, hw, hr⟩ := accepts_iff.mp h
  have hc := hw
  rw [current] at hw
  split at hw
  · cases hl : reg.log with
    | nil =>
        rw [hl] at hw
        cases hw
    | cons w' l =>
        rw [hl] at hw
        obtain rfl := Option.some.inj hw
        exact ⟨w', l, rfl, hr, hc⟩
  · cases hw

/-! ## Every write as it found the log -/

/-- `P` holds of every write and the log it was added to. -/
def EachWrite (P : List (Write W X) → Write W X → Prop) (reg : Register W X) : Prop :=
  ∀ newer w older, reg.log = newer ++ w :: older → P older w

variable {P : List (Write W X) → Write W X → Prop}

theorem eachWrite_empty : (empty : Register W X).EachWrite P := by
  intro newer w older h
  cases newer <;> cases h

theorem eachWrite_push (hp : reg.push w v = some reg') :
    reg'.EachWrite P ↔ reg.EachWrite P ∧ P reg.log w := by
  obtain ⟨_, hlog, _⟩ := push_eq_some hp
  unfold EachWrite
  rw [hlog]
  constructor
  · intro h
    refine ⟨fun newer w' older hold => h (w :: newer) w' older ?_, h [] w reg.log rfl⟩
    rw [hold, List.cons_append]
  · rintro ⟨hold, hnew⟩ newer w' older h
    cases newer with
    | nil =>
        obtain ⟨rfl, rfl⟩ := List.cons.inj h
        exact hnew
    | cons w₀ newer => exact hold newer w' older (List.cons.inj h).2

/-! ## Versions

The contents written one after the other.  A writer that reads, makes a new
content of what it has read and writes it by compare-and-swap makes it of the
version that it replaces, however long it took. -/

variable {x y : X} {R : X → X → Prop}

/-- Everything written, newest first. -/
def versions (reg : Register W X) : List X := reg.log.filterMap (·.content)

theorem mem_versions : x ∈ reg.versions ↔ ∃ w ∈ reg.log, w.content = some x :=
  List.mem_filterMap

theorem versions_push (hc : w.content = some x) (h : reg.push w v = some reg') :
    reg'.versions = x :: reg.versions := by
  obtain ⟨_, hlog, _⟩ := push_eq_some h
  rw [versions, hlog]
  exact List.filterMap_cons_some hc

/-- What was read with the revision on which a compare-and-swap succeeds is
what is there. -/
theorem current_of_accepts (h : reg.accepts r = true) (hw : w ∈ reg.log) (hr : w.revision = r) :
    reg.current = some w ∧ ∃ l, reg.log = w :: l := by
  obtain ⟨w', l, hlog, hr', hc⟩ := head_of_accepts h
  have hmem : w' ∈ reg.log := hlog ▸ List.mem_cons_self
  obtain rfl := reg.eq_of_revision hmem hw (hr'.trans hr.symm)
  exact ⟨hc, l, hlog⟩

/-- Each version has been made of the one before it. -/
def Lineage (R : X → X → Prop) (reg : Register W X) : Prop :=
  reg.versions.IsChain fun new old => R old new

theorem versions_of_current (hw : reg.current = some w) (hx : w.content = some x) :
    ∃ l, reg.versions = x :: l := by
  obtain ⟨w', l, hlog, _, hc⟩ := head_of_accepts (accepts_iff.mpr ⟨w, hw, rfl⟩)
  obtain rfl := Option.some.inj (hc.symm.trans hw)
  refine ⟨l.filterMap (·.content), ?_⟩
  rw [versions, hlog]
  exact List.filterMap_cons_some hx

theorem Lineage.push (h : reg.Lineage R) (hw : reg.current = some w) (hx : w.content = some x)
    (hxy : R x y) (hy : w'.content = some y) (hp : reg.push w' v = some reg') :
    reg'.Lineage R := by
  obtain ⟨l, hl⟩ := versions_of_current hw hx
  rw [Lineage] at h ⊢
  rw [versions_push hy hp, hl]
  rw [hl] at h
  exact List.isChain_cons_cons.mpr ⟨hxy, h⟩

/-- Two versions with the same mark have the same content, when a version that
does not keep the content of the one before it has a later mark. -/
theorem Lineage.eq_of_mark {M C : Type} [Preorder M] (mark : X → M) (content : X → C)
    (h : reg.Lineage R)
    (hR : ∀ x y, R x y → mark y = mark x ∧ content y = content x ∨ mark x < mark y) :
    ∀ x ∈ reg.versions, ∀ y ∈ reg.versions, mark x = mark y → content x = content y := by
  let S : X → X → Prop := fun new old =>
    mark new = mark old ∧ content new = content old ∨ mark old < mark new
  have htrans : IsTrans X S := ⟨by
    rintro z y x (⟨hm, hc⟩ | hlt) (⟨hm', hc'⟩ | hlt')
    · exact Or.inl ⟨hm.trans hm', hc.trans hc'⟩
    · exact Or.inr (hm ▸ hlt')
    · exact Or.inr (hm' ▸ hlt)
    · exact Or.inr (hlt'.trans hlt)⟩
  have hsymm : Std.Symm fun x y => mark x = mark y → content x = content y :=
    ⟨fun _ _ hc he => (hc he.symm).symm⟩
  have hchain : reg.versions.IsChain S := h.imp fun new old hxy => hR old new hxy
  have hpair : reg.versions.Pairwise fun x y => mark x = mark y → content x = content y := by
    refine (List.isChain_iff_pairwise.mp hchain).imp fun hs he => ?_
    rcases hs with ⟨_, hc⟩ | hlt
    · exact hc
    · exact absurd (he ▸ hlt) (lt_irrefl _)
  intro x hx y hy
  exact hpair.forall_of_forall (fun _ _ _ => rfl) hx hy

end Register

end Flowgen.Lib
