/-
# `Flowgen.Lib.Names` — names that several owners register

A table holds under each name what one owner has registered.  A name that is
taken is replaced, or the registration is refused, as the policy of the name has
it.  At its turn an owner gives up its names, or keeps them, and registers new
ones; in a batch every owner has at most one turn.

Turns that come in different orders leave the same table exactly if no name is
contended (`orderFree_iff`): no two of them register a name that is free or can
be replaced, and nobody registers a name that refuses and that another owner
gives up.
-/
import Mathlib

namespace Flowgen.Lib

/-- What becomes of a registration under a name that is taken. -/
inductive Policy
  | replace
  | refuse
deriving DecidableEq

namespace Policy

variable {α : Type*}

/-- What stands under the name after it was `old` and `new` is registered. -/
def settle : Policy → (old new : Option α) → Option α
  | .replace, old, new => new.or old
  | .refuse, old, new => old.or new

/-- Of several registrations by one owner the one that stays. -/
def pick : Policy → List α → Option α
  | .replace, l => l.getLast?
  | .refuse, l => l.head?

variable {policy : Policy} {x : Option α} {a : α} {l : List α}

@[simp] theorem settle_none : policy.settle x none = x := by
  cases policy with
  | replace => exact Option.none_or
  | refuse => exact Option.or_none

/-- One registration and then the rest of them. -/
theorem settle_settle_pick :
    policy.settle (policy.settle x (some a)) (policy.pick l) = policy.settle x (policy.pick (a :: l)) := by
  cases policy with
  | replace =>
      rw [settle, settle, settle, pick, pick, ← Option.or_assoc]
      congr 1
      cases l with
      | nil => rfl
      | cons b l => rw [List.getLast?_cons_cons, List.getLast?_eq_some_getLast (List.cons_ne_nil b l), Option.some_or]
  | refuse =>
      rw [settle, settle, settle, pick, pick, Option.or_assoc]
      rfl

theorem pick_map {β : Type*} {f : α → β} : policy.pick (l.map f) = (policy.pick l).map f := by
  cases policy with
  | replace => exact List.getLast?_map
  | refuse => exact List.head?_map

theorem pick_eq_none : policy.pick l = none ↔ l = [] := by
  cases policy with
  | replace => exact List.getLast?_eq_none_iff
  | refuse => exact List.head?_eq_none_iff

end Policy

/-- Under each name its owner and what the owner has registered. -/
abbrev Names (κ ο ν : Type*) := κ → Option (ο × ν)

/-- An owner gives up its names, or keeps them, and registers these, in this order. -/
structure Turn (κ ο ν : Type*) where
  owner : ο
  withdraws : Bool
  entries : List (κ × ν)

section Tables

variable {κ ο ν : Type*} [DecidableEq κ] (policy : κ → Policy)

def Names.enter (t : Names κ ο ν) (o : ο) (e : κ × ν) : Names κ ο ν :=
  Function.update t e.1 ((policy e.1).settle (t e.1) (some (o, e.2)))

def Names.withdraw [DecidableEq ο] (t : Names κ ο ν) (o : ο) : Names κ ο ν := fun k =>
  (t k).filter fun e => e.1 != o

/-- What stands under a name was there before, or is what the owner has registered. -/
theorem Names.enter_eq_some {policy : κ → Policy} {t : Names κ ο ν} {o : ο} {e : κ × ν} {k : κ}
    {x : ο × ν} (h : t.enter policy o e k = some x) : t k = some x ∨ k = e.1 ∧ x = (o, e.2) := by
  rw [Names.enter] at h
  by_cases hk : k = e.1
  · subst hk
    rw [Function.update_self] at h
    cases hp : policy e.1 with
    | replace =>
        rw [hp, Policy.settle, Option.some_or] at h
        exact .inr ⟨rfl, (Option.some.inj h).symm⟩
    | refuse =>
        rw [hp, Policy.settle] at h
        rcases Option.or_eq_some_iff.mp h with hold | ⟨-, hnew⟩
        · exact .inl hold
        · exact .inr ⟨rfl, (Option.some.inj hnew).symm⟩
  · rw [Function.update_of_ne hk] at h
    exact .inl h

namespace Turn

def apply [DecidableEq ο] (m : Turn κ ο ν) (t : Names κ ο ν) : Names κ ο ν :=
  m.entries.foldl (Names.enter policy · m.owner ·) (if m.withdraws then t.withdraw m.owner else t)

/-- What the turn registers under a name. -/
def offer (m : Turn κ ο ν) (k : κ) : Option ν :=
  (policy k).pick ((m.entries.filter (·.1 = k)).map Prod.snd)

/-- What the turn makes of what stands under a name. -/
def cell [DecidableEq ο] (m : Turn κ ο ν) (k : κ) (x : Option (ο × ν)) : Option (ο × ν) :=
  (policy k).settle (if m.withdraws then x.filter fun e => e.1 != m.owner else x)
    ((m.offer policy k).map (Prod.mk m.owner))

variable {policy} {m : Turn κ ο ν} {t : Names κ ο ν} {k : κ} {o : ο} {es : List (κ × ν)}

theorem foldl_enter :
    es.foldl (Names.enter policy · o ·) t k =
      (policy k).settle (t k)
        (((policy k).pick ((es.filter (·.1 = k)).map Prod.snd)).map (Prod.mk o)) := by
  induction es generalizing t with
  | nil =>
      have hnone : (policy k).pick ([] : List ν) = none := Policy.pick_eq_none.mpr rfl
      rw [List.filter_nil, List.map_nil, hnone, Option.map_none, Policy.settle_none]
      rfl
  | cons e es ih =>
      rw [List.foldl_cons, ih, Names.enter]
      by_cases hk : e.1 = k
      · subst hk
        rw [Function.update_self, List.filter_cons_of_pos (by simp), ← Policy.pick_map,
          ← Policy.pick_map, Policy.settle_settle_pick]
        rfl
      · rw [Function.update_of_ne (Ne.symm hk), List.filter_cons_of_neg (by simp [hk])]

theorem apply_cell [DecidableEq ο] : m.apply policy t k = m.cell policy k (t k) := by
  rw [apply, foldl_enter, cell, offer]
  split <;> rfl

theorem offer_eq_none : m.offer policy k = none ↔ ∀ e ∈ m.entries, e.1 ≠ k := by
  rw [offer, Policy.pick_eq_none, List.map_eq_nil_iff, List.filter_eq_nil_iff]
  simp

end Turn

end Tables

/-! ## Turns in some order -/

section Orders

variable {α κ ο ν : Type*} [DecidableEq κ] [DecidableEq ο] (policy : κ → Policy)
  (turn : α → Option (Turn κ ο ν))

/-- What one of the batch does to the table, if it moves. -/
def Names.step (t : Names κ ο ν) (a : α) : Names κ ο ν :=
  match turn a with
  | none => t
  | some m => m.apply policy t

/-- `a` registers the name `k`. -/
def Takes (a : α) (k : κ) : Prop := ∃ m, turn a = some m ∧ ∃ e ∈ m.entries, e.1 = k

/-- `a` gives up the names of the owner. -/
def Leaves (a : α) (o : ο) : Prop := ∃ m, turn a = some m ∧ m.owner = o ∧ m.withdraws = true

/-- Every owner has at most one turn. -/
structure OneTurnEach (as : List α) : Prop where
  nodup : as.Nodup
  owner : ∀ a ∈ as, ∀ b ∈ as, ∀ m m', turn a = some m → turn b = some m' → m.owner = m'.owner →
    a = b

/-- The name goes to the same owner in every order: it is free, or replaced, and at
most one registers it, or it refuses and nobody registers it that its owner gives up. -/
def Uncontended (t : Names κ ο ν) (as : List α) (k : κ) : Prop :=
  match policy k, t k with
  | .refuse, some e =>
      ∀ a ∈ as, Leaves turn a e.1 → ¬ Takes turn a k → ∀ b ∈ as, ¬ Takes turn b k
  | _, _ => ∀ a ∈ as, ∀ b ∈ as, Takes turn a k → Takes turn b k → a = b

/-- What stands under a name after one of the batch. -/
def cellAfter (k : κ) (x : Option (ο × ν)) (a : α) : Option (ο × ν) :=
  match turn a with
  | none => x
  | some m => m.cell policy k x

variable {policy turn} {t : Names κ ο ν} {as bs : List α} {a b : α} {k : κ} {o : ο}
  {x y : Option (ο × ν)} {e : ο × ν}

theorem foldl_step : as.foldl (Names.step policy turn) t k =
    as.foldl (cellAfter policy turn k) (t k) := by
  induction as generalizing t with
  | nil => rfl
  | cons a as ih =>
      rw [List.foldl_cons, ih, List.foldl_cons]
      congr 1
      rw [Names.step, cellAfter]
      cases turn a with
      | none => rfl
      | some m => exact Turn.apply_cell

/-- Nothing happens to a name that its owner keeps and that is not registered, or
refuses to be. -/
theorem cellAfter_stays (htake : Takes turn a k → policy k = .refuse ∧ x ≠ none)
    (hleave : ∀ e, x = some e → ¬ Leaves turn a e.1) : cellAfter policy turn k x a = x := by
  rw [cellAfter]
  split
  · rfl
  · rename_i m hm
    have hkept : (if m.withdraws then x.filter fun e => e.1 != m.owner else x) = x := by
      split
      · rename_i hw
        cases x with
        | none => rfl
        | some e =>
            have hne : m.owner ≠ e.1 := fun heq => hleave e rfl ⟨m, hm, heq, hw⟩
            exact Option.filter_some_pos (by simpa using Ne.symm hne)
      · rfl
    rw [Turn.cell, hkept]
    cases hoffer : m.offer policy k with
    | none => exact Policy.settle_none
    | some v =>
        have htakes : Takes turn a k := by
          have hsome : ¬ m.offer policy k = none := by
            rw [hoffer]
            exact Option.some_ne_none v
          rw [Turn.offer_eq_none] at hsome
          push Not at hsome
          exact ⟨m, hm, hsome⟩
        obtain ⟨hp, hx⟩ := htake htakes
        obtain ⟨e, rfl⟩ := Option.ne_none_iff_exists'.mp hx
        rw [hp, Policy.settle, Option.some_or]

variable (policy) in
/-- A name that is registered, and that refuses only if its owner does not give it up. -/
theorem cellAfter_takes (htake : Takes turn a k) :
    ∃ e m, turn a = some m ∧ e.1 = m.owner ∧
      ∀ x, (policy k = .refuse → ∀ e, x = some e → Leaves turn a e.1) →
        cellAfter policy turn k x a = some e := by
  obtain ⟨m, hm, hentries⟩ := htake
  have hsome : m.offer policy k ≠ none := by
    rw [Ne, Turn.offer_eq_none]
    push Not
    exact hentries
  obtain ⟨v, hv⟩ := Option.ne_none_iff_exists'.mp hsome
  refine ⟨(m.owner, v), m, hm, rfl, ?_⟩
  intro x hx
  simp only [cellAfter, hm]
  rw [Turn.cell, hv, Option.map_some]
  cases hp : policy k with
  | replace => rw [Policy.settle, Option.some_or]
  | refuse =>
      have hnone : (if m.withdraws then x.filter fun e => e.1 != m.owner else x) = none := by
        cases x with
        | none => split <;> rfl
        | some e =>
            obtain ⟨m', hm', howner, hw⟩ := hx hp e rfl
            cases hm.symm.trans hm'
            rw [if_pos hw, howner]
            simp
      rw [hnone, Policy.settle, Option.none_or]

theorem cellAfter_leaves (htake : ¬ Takes turn a k) (hleave : Leaves turn a e.1) :
    cellAfter policy turn k (some e) a = none := by
  obtain ⟨m, hm, howner, hw⟩ := hleave
  have hnone : m.offer policy k = none := by
    rw [Turn.offer_eq_none]
    intro e he hk
    exact htake ⟨m, hm, e, he, hk⟩
  simp only [cellAfter, hm]
  rw [Turn.cell, hnone, Option.map_none, Policy.settle_none, if_pos hw, howner]
  simp

/-! ## The order of a batch -/

theorem foldl_fixed {β : Type*} {f : β → α → β} {x : β} (h : ∀ a ∈ as, f x a = x) :
    as.foldl f x = x := by
  induction as with
  | nil => rfl
  | cons a as ih =>
      rw [List.foldl_cons, h a (List.mem_cons_self ..)]
      exact ih fun b hb => h b (List.mem_cons_of_mem a hb)

theorem foldl_kept {β : Type*} {f : β → α → β} {I : β → Prop} {x : β} (hx : I x)
    (h : ∀ a ∈ as, ∀ x, I x → I (f x a)) : I (as.foldl f x) := by
  induction as generalizing x with
  | nil => exact hx
  | cons a as ih =>
      exact ih (h a (List.mem_cons_self ..) x hx) fun b hb => h b (List.mem_cons_of_mem a hb)

/-- One of the batch makes `y` of what the others keep, and the others leave `y`. -/
theorem foldl_through {β : Type*} {f : β → α → β} {I : β → Prop} {x y : β} (hnodup : as.Nodup)
    (hmem : a ∈ as) (hx : I x) (hkeep : ∀ b ∈ as, b ≠ a → ∀ x, I x → I (f x b))
    (hmake : ∀ x, I x → f x a = y) (hfix : ∀ b ∈ as, b ≠ a → f y b = y)
    (hperm : bs.Perm as) : bs.foldl f x = y := by
  obtain ⟨l, l', rfl⟩ := List.append_of_mem (hperm.mem_iff.mpr hmem)
  have hbefore : ∀ b ∈ l ++ l', b ∈ as ∧ b ≠ a := by
    intro b hb
    have hnodup' : (a :: (l ++ l')).Nodup :=
      List.perm_middle.nodup_iff.mp (hperm.nodup_iff.mpr hnodup)
    refine ⟨hperm.mem_iff.mp ((List.perm_middle.mem_iff).mpr (List.mem_cons_of_mem a hb)), ?_⟩
    rintro rfl
    exact (List.nodup_cons.mp hnodup').1 hb
  rw [List.foldl_append, List.foldl_cons]
  have hI : I (l.foldl f x) := foldl_kept hx fun b hb x hIx =>
    have hother := hbefore b (List.mem_append_left l' hb)
    hkeep b hother.1 hother.2 x hIx
  rw [hmake _ hI]
  refine foldl_fixed fun b hb => ?_
  have hother := hbefore b (List.mem_append_right l hb)
  exact hfix b hother.1 hother.2

omit [DecidableEq κ] [DecidableEq ο] in
/-- Another one of the batch does not give up the names of this owner. -/
theorem OneTurnEach.not_leaves {m : Turn κ ο ν} (h : OneTurnEach turn as) (ha : a ∈ as) (hb : b ∈ as)
    (hne : b ≠ a) (hm : turn a = some m) : ¬ Leaves turn b m.owner := by
  rintro ⟨m', hm', howner, -⟩
  exact hne (h.owner b hb a ha m' m hm' hm howner)

/-- A name that only one of the batch registers, of those that can. -/
theorem cell_of_single (h : OneTurnEach turn as) (ha : a ∈ as) (htake : Takes turn a k)
    (hsingle : ∀ b ∈ as, b ≠ a → ¬ Takes turn b k) (hfree : policy k = .refuse → t k = none) :
    ∃ y, ∀ bs : List α, bs.Perm as → bs.foldl (cellAfter policy turn k) (t k) = y := by
  obtain ⟨e, m, hm, howner, hmake⟩ := cellAfter_takes policy htake
  refine ⟨some e, ?_⟩
  intro bs hperm
  refine foldl_through (I := fun x => policy k = .refuse → x = none) h.nodup ha hfree ?_ ?_ ?_ hperm
  · intro b hb hne x hx hp
    rw [hx hp]
    exact cellAfter_stays (fun ht => absurd ht (hsingle b hb hne)) fun e he => by cases he
  · intro x hx
    refine hmake x ?_
    intro hp e' he'
    rw [hx hp] at he'
    cases he'
  · intro b hb hne
    refine cellAfter_stays (fun ht => absurd ht (hsingle b hb hne)) ?_
    intro e' he'
    cases he'
    rw [howner]
    exact h.not_leaves ha hb hne hm

/-- A name whose owner has its turn, where the others do not touch it before or after. -/
theorem cell_of_owner (h : OneTurnEach turn as) (ha : a ∈ as) (hleave : Leaves turn a e.1)
    (hothers : ∀ b ∈ as, b ≠ a → Takes turn b k → policy k = .refuse ∧ Takes turn a k) :
    ∃ y, ∀ bs : List α, bs.Perm as → bs.foldl (cellAfter policy turn k) (some e) = y := by
  obtain ⟨m, hm, hme, hw⟩ := hleave
  have hkept : ∀ b ∈ as, b ≠ a → cellAfter policy turn k (some e) b = some e := by
    intro b hb hne
    refine cellAfter_stays (fun ht => ⟨(hothers b hb hne ht).1, Option.some_ne_none e⟩) ?_
    intro e' he'
    cases he'
    rw [← hme]
    exact h.not_leaves ha hb hne hm
  have hkeep : ∀ b ∈ as, b ≠ a → ∀ x, x = some e → cellAfter policy turn k x b = some e := by
    rintro b hb hne x rfl
    exact hkept b hb hne
  by_cases htake : Takes turn a k
  · obtain ⟨e', m', hm', howner, hmake⟩ := cellAfter_takes policy htake
    refine ⟨some e', ?_⟩
    intro bs hperm
    refine foldl_through (I := fun x => x = some e) h.nodup ha rfl hkeep ?_ ?_ hperm
    · rintro x rfl
      refine hmake _ ?_
      intro _ e'' he''
      cases he''
      exact ⟨m, hm, hme, hw⟩
    · intro b hb hne
      refine cellAfter_stays (fun ht => ⟨(hothers b hb hne ht).1, Option.some_ne_none e'⟩) ?_
      intro e'' he''
      cases he''
      rw [howner]
      exact h.not_leaves ha hb hne hm'
  · refine ⟨none, ?_⟩
    intro bs hperm
    refine foldl_through (I := fun x => x = some e) h.nodup ha rfl hkeep ?_ ?_ hperm
    · rintro x rfl
      exact cellAfter_leaves htake ⟨m, hm, hme, hw⟩
    · intro b hb hne
      exact cellAfter_stays (fun ht => absurd (hothers b hb hne ht).2 htake) fun e he => by cases he

/-- A name that at most one of the batch registers, of those that can. -/
theorem cell_of_unique (h : OneTurnEach turn as) (hfree : policy k = .refuse → t k = none)
    (hunique : ∀ a ∈ as, ∀ b ∈ as, Takes turn a k → Takes turn b k → a = b) :
    ∃ y, ∀ bs : List α, bs.Perm as → bs.foldl (cellAfter policy turn k) (t k) = y := by
  by_cases htake : ∃ a ∈ as, Takes turn a k
  · obtain ⟨a, ha, htake⟩ := htake
    exact cell_of_single h ha htake (fun b hb hne ht => hne (hunique b hb a ha ht htake)) hfree
  · push Not at htake
    have hfixed : (∀ a ∈ as, ∀ e, t k = some e → ¬ Leaves turn a e.1) →
        ∃ y, ∀ bs : List α, bs.Perm as → bs.foldl (cellAfter policy turn k) (t k) = y := by
      intro hleave
      refine ⟨t k, fun bs hperm => foldl_fixed fun b hb => ?_⟩
      have hb := hperm.mem_iff.mp hb
      exact cellAfter_stays (fun ht => absurd ht (htake b hb)) (hleave b hb)
    cases hx : t k with
    | none =>
        rw [hx] at hfixed
        exact hfixed fun a ha e he => by cases he
    | some e =>
        by_cases hleave : ∃ a ∈ as, Leaves turn a e.1
        · obtain ⟨a, ha, hleave⟩ := hleave
          exact cell_of_owner h ha hleave fun b hb _ ht => absurd ht (htake b hb)
        · push Not at hleave
          rw [hx] at hfixed
          refine hfixed fun a ha e' he' => ?_
          cases he'
          exact hleave a ha

/-- An uncontended name ends up the same in every order. -/
theorem Uncontended.cell (h : OneTurnEach turn as) (hk : Uncontended policy turn t as k) :
    ∃ y, ∀ bs : List α, bs.Perm as → bs.foldl (cellAfter policy turn k) (t k) = y := by
  rw [Uncontended] at hk
  split at hk
  · rename_i e hp hx
    rw [hx]
    by_cases hleave : ∃ a ∈ as, Leaves turn a e.1
    · obtain ⟨a, ha, hleave⟩ := hleave
      refine cell_of_owner h ha hleave fun b hb _ ht => ⟨hp, ?_⟩
      by_contra htake
      exact hk a ha hleave htake b hb ht
    · push Not at hleave
      refine ⟨some e, fun bs hperm => foldl_fixed fun b hb => ?_⟩
      refine cellAfter_stays (fun _ => ⟨hp, Option.some_ne_none e⟩) ?_
      intro e' he'
      cases he'
      exact hleave b (hperm.mem_iff.mp hb)
  · rename_i hother
    refine cell_of_unique h ?_ hk
    intro hp
    cases hx : t k with
    | none => rfl
    | some e => exact absurd hx (hother e hp)

omit [DecidableEq κ] [DecidableEq ο] in
/-- One of the batch comes first. -/
theorem OneTurnEach.first (h : OneTurnEach turn as) (ha : a ∈ as) :
    ∃ l, (a :: l).Perm as ∧ OneTurnEach turn l ∧ ∀ b ∈ l, b ∈ as ∧ b ≠ a := by
  obtain ⟨l, l', rfl⟩ := List.append_of_mem ha
  have hperm : (a :: (l ++ l')).Perm (l ++ a :: l') := List.perm_middle.symm
  have hnodup := List.nodup_cons.mp (hperm.nodup_iff.mpr h.nodup)
  have hmem : ∀ b ∈ l ++ l', b ∈ l ++ a :: l' := fun b hb =>
    hperm.mem_iff.mp (List.mem_cons_of_mem a hb)
  refine ⟨l ++ l', hperm, ⟨hnodup.2, ?_⟩, ?_⟩
  · intro b hb c hc
    exact h.owner b (hmem b hb) c (hmem c hc)
  · intro b hb
    refine ⟨hmem b hb, ?_⟩
    rintro rfl
    exact hnodup.1 hb

/-- Whoever registers a name that is free or replaced has it in some order. -/
theorem Takes.wins (h : OneTurnEach turn as) (ha : a ∈ as) (htake : Takes turn a k)
    (hfree : policy k = .refuse → t k = none) :
    ∃ bs : List α, bs.Perm as ∧ ∃ e m, turn a = some m ∧ e.1 = m.owner ∧
      bs.foldl (cellAfter policy turn k) (t k) = some e := by
  obtain ⟨e, m, hm, howner, hmake⟩ := cellAfter_takes policy htake
  obtain ⟨l, hperm, -, hl⟩ := h.first ha
  cases hp : policy k with
  | replace =>
      have hlast : (l ++ [a]).Perm as := (List.perm_append_singleton a l).trans hperm
      refine ⟨l ++ [a], hlast, e, m, hm, howner, ?_⟩
      rw [List.foldl_append, List.foldl_cons, List.foldl_nil]
      refine hmake _ fun hrefuse => ?_
      rw [hp] at hrefuse
      cases hrefuse
  | refuse =>
      refine ⟨a :: l, hperm, e, m, hm, howner, ?_⟩
      rw [List.foldl_cons, hfree hp, hmake none fun _ e he => by cases he]
      refine foldl_fixed fun b hb => ?_
      refine cellAfter_stays (fun _ => ⟨hp, Option.some_ne_none e⟩) ?_
      intro e' he'
      cases he'
      rw [howner]
      exact h.not_leaves ha (hl b hb).1 (hl b hb).2 hm

/-- A contended name ends up differently in some orders. -/
theorem uncontended_of_cell (h : OneTurnEach turn as)
    (hcell : ∀ bs : List α, bs.Perm as → bs.foldl (cellAfter policy turn k) (t k) =
      as.foldl (cellAfter policy turn k) (t k)) : Uncontended policy turn t as k := by
  rw [Uncontended]
  split
  · rename_i e hp hx
    intro a ha hleave htake b hb htakeb
    rw [hx] at hcell
    obtain ⟨m, hm, hme, hw⟩ := hleave
    obtain ⟨l, hperm, hl, hla⟩ := h.first ha
    have hne : b ≠ a := by
      rintro rfl
      exact htake htakeb
    have hbl : b ∈ l := (List.mem_cons.mp (hperm.mem_iff.mpr hb)).resolve_left hne
    have hnone : cellAfter policy turn k (some e) a = none :=
      cellAfter_leaves htake ⟨m, hm, hme, hw⟩
    -- last: the others are refused, and then the name is given up
    have hrefused : l.foldl (cellAfter policy turn k) (some e) = some e := by
      refine foldl_fixed fun c hc => ?_
      refine cellAfter_stays (fun _ => ⟨hp, Option.some_ne_none e⟩) ?_
      intro e' he'
      cases he'
      rw [← hme]
      exact h.not_leaves ha (hla c hc).1 (hla c hc).2 hm
    have hlast : (l ++ [a]).foldl (cellAfter policy turn k) (some e) = none := by
      rw [List.foldl_append, hrefused, List.foldl_cons, List.foldl_nil, hnone]
    -- first: whoever of the others comes next has the name
    obtain ⟨bs, hbs, e', -, -, -, hfirst⟩ :=
      htakeb.wins (t := fun _ => none) hl hbl fun (_ : policy k = .refuse) => rfl
    have hfirst : (a :: bs).foldl (cellAfter policy turn k) (some e) = some e' := by
      rw [List.foldl_cons, hnone, hfirst]
    have hboth := (hcell (l ++ [a]) ((List.perm_append_singleton a l).trans hperm)).trans
      (hcell (a :: bs) ((hbs.cons a).trans hperm)).symm
    rw [hlast, hfirst] at hboth
    cases hboth
  · rename_i hother
    intro a ha b hb htake htakeb
    have hfree : policy k = .refuse → t k = none := by
      intro hp
      cases hx : t k with
      | none => rfl
      | some e => exact absurd hx (hother e hp)
    obtain ⟨bs, hbs, e, m, hm, howner, he⟩ := htake.wins h ha hfree
    obtain ⟨bs', hbs', e', m', hm', howner', he'⟩ := htakeb.wins h hb hfree
    have hsame : some e = some e' := by
      rw [← he, ← he', hcell bs hbs, hcell bs' hbs']
    refine h.owner a ha b hb m m' hm hm' ?_
    rw [← howner, ← howner', Option.some.inj hsame]

/-- The turns of a batch leave the same table in every order if and only if no name
is contended. -/
theorem orderFree_iff (h : OneTurnEach turn as) :
    (∀ bs : List α, bs.Perm as →
        bs.foldl (Names.step policy turn) t = as.foldl (Names.step policy turn) t) ↔
      ∀ k, Uncontended policy turn t as k := by
  constructor
  · intro hfree k
    refine uncontended_of_cell h fun bs hperm => ?_
    rw [← foldl_step, ← foldl_step, hfree bs hperm]
  · intro hall bs hperm
    funext k
    obtain ⟨y, hy⟩ := (hall k).cell h
    rw [foldl_step, foldl_step, hy bs hperm, hy as (List.Perm.refl as)]

end Orders

end Flowgen.Lib
