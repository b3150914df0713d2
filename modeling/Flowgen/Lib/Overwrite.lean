/-
# `Flowgen.Lib.Overwrite` — writing in place, and writing in layers

What a sequence of operations does to one place: each leaves it, clears it or
writes it.  The operations come in layers.  Carried out one after the other,
the last one that does not leave the place decides.  Read as layers laid on
top of each other, a layer that writes the place shows what it wrote last,
whatever it clears; one that only clears it shows nothing.

The two agree exactly if the top layer that does not leave the place writes it
after clearing it, if it writes it at all (`run_eq_overlay_iff`).
-/
import Mathlib

namespace Flowgen.Lib.Overwrite

/-- What an operation does to a place. -/
inductive Touch (β : Type*)
  | keep
  | clear
  | write (value : β)

variable {β : Type*} {ts ts' : List (Touch β)} {layers : List (List (Touch β))}
  {below below' : Option β} {t : Touch β}

def Touch.apply : Touch β → Option β → Option β
  | .keep, now => now
  | .clear, _ => none
  | .write value, _ => some value

def Touch.written : Touch β → Option β
  | .keep => none
  | .clear => none
  | .write value => some value

/-- One operation after the other. -/
def run (ts : List (Touch β)) (start : Option β) : Option β :=
  ts.foldl (fun now t => t.apply now) start

/-- What a layer writes last. -/
def lastWritten (ts : List (Touch β)) : Option β := (ts.filterMap Touch.written).getLast?

def Touch.isClear : Touch β → Bool
  | .keep => false
  | .clear => true
  | .write _ => false

/-- A layer on top of what lies below it. -/
def layer (ts : List (Touch β)) (below : Option β) : Option β :=
  (lastWritten ts).or (if ts.any Touch.isClear then none else below)

/-- Layer on layer. -/
def overlay (layers : List (List (Touch β))) (start : Option β) : Option β :=
  layers.foldl (fun below ts => layer ts below) start

/-- A layer that writes a place does so after it has cleared it. -/
def Orderly (ts : List (Touch β)) : Prop :=
  ∀ pre post, ts = pre ++ .clear :: post → (∃ value, .write value ∈ ts) →
    ∃ value, .write value ∈ post

/-- No operation of the layer touches the place. -/
def Untouched (ts : List (Touch β)) : Prop := ∀ t ∈ ts, t = .keep

/-- The top layer that touches the place is orderly. -/
def TopOrderly (layers : List (List (Touch β))) : Prop :=
  ∀ lower ts upper, layers = lower ++ ts :: upper → (∀ us ∈ upper, Untouched us) → Orderly ts

/-! ## One layer -/

theorem run_append : run (ts ++ ts') below = run ts' (run ts below) := List.foldl_append

theorem run_concat : run (ts ++ [t]) below = t.apply (run ts below) := run_append

theorem lastWritten_concat : lastWritten (ts ++ [t]) = t.written.or (lastWritten ts) := by
  rw [lastWritten, lastWritten, List.filterMap_append]
  cases t with
  | keep => exact congrArg _ (List.append_nil _)
  | clear => exact congrArg _ (List.append_nil _)
  | write value => exact List.getLast?_concat

theorem lastWritten_eq_none : lastWritten ts = none ↔ ∀ value, .write value ∉ ts := by
  rw [lastWritten, List.getLast?_eq_none_iff, List.filterMap_eq_nil_iff]
  constructor
  · intro h value hmem
    cases h _ hmem
  · intro h t ht
    cases t with
    | keep => rfl
    | clear => rfl
    | write value => exact absurd ht (h value)

theorem untouched_concat_keep : Untouched (ts ++ [.keep]) ↔ Untouched ts := by
  rw [Untouched, List.forall_mem_append]
  exact and_iff_left fun t ht => List.mem_singleton.mp ht

theorem run_untouched (h : Untouched ts) : run ts below = below := by
  induction ts with
  | nil => rfl
  | cons t ts ih =>
      obtain ⟨rfl, hrest⟩ := List.forall_mem_cons.mp h
      exact ih hrest

theorem layer_untouched (h : Untouched ts) : layer ts below = below := by
  have hwritten : lastWritten ts = none := by
    refine lastWritten_eq_none.mpr fun value hmem => ?_
    cases h _ hmem
  have hclear : ts.any Touch.isClear = false := by
    refine List.any_eq_false.mpr fun t ht => ?_
    rw [h t ht, Touch.isClear]
    exact Bool.false_ne_true
  rw [layer, hwritten, hclear, if_neg Bool.false_ne_true, Option.none_or]

theorem orderly_untouched (h : Untouched ts) : Orderly ts := by
  rintro pre post - ⟨value, hmem⟩
  cases h _ hmem

theorem orderly_concat_keep : Orderly (ts ++ [.keep]) ↔ Orderly ts := by
  constructor
  · rintro h pre post rfl ⟨value, hwrite⟩
    obtain ⟨last, hlast⟩ := h pre (post ++ [.keep]) (by simp)
      ⟨value, List.mem_append_left _ hwrite⟩
    rcases List.mem_append.mp hlast with hmem | hmem
    · exact ⟨last, hmem⟩
    · cases List.mem_singleton.mp hmem
  · rintro h pre post heq ⟨value, hwrite⟩
    rcases List.eq_nil_or_concat' post with rfl | ⟨post, t, rfl⟩
    · cases (List.append_inj' heq rfl).2
    · rw [← List.cons_append, ← List.append_assoc] at heq
      obtain ⟨rfl, -⟩ := List.append_inj' heq rfl
      rcases List.mem_append.mp hwrite with hmem | hmem
      · obtain ⟨last, hlast⟩ := h pre post rfl ⟨value, hmem⟩
        exact ⟨last, List.mem_append_left _ hlast⟩
      · cases List.mem_singleton.mp hmem

theorem orderly_concat_clear : Orderly (ts ++ [.clear]) ↔ lastWritten ts = none := by
  rw [lastWritten_eq_none]
  constructor
  · intro h value hwrite
    obtain ⟨last, hlast⟩ := h ts [] rfl ⟨value, List.mem_append_left _ hwrite⟩
    cases hlast
  · rintro h pre post - ⟨value, hwrite⟩
    rcases List.mem_append.mp hwrite with hmem | hmem
    · exact absurd hmem (h value)
    · cases List.mem_singleton.mp hmem

theorem orderly_concat_write (value : β) : Orderly (ts ++ [.write value]) := by
  rintro pre post heq -
  rcases List.eq_nil_or_concat' post with rfl | ⟨post, t, rfl⟩
  · cases (List.append_inj' heq rfl).2
  · rw [← List.cons_append, ← List.append_assoc] at heq
    obtain ⟨-, hlast⟩ := List.append_inj' heq rfl
    cases hlast
    exact ⟨value, by simp⟩

theorem orderly_append (hts : ∀ value, .write value ∉ ts) (hts' : .clear ∉ ts') :
    Orderly (ts ++ ts') := by
  rintro pre post heq ⟨value, hwrite⟩
  have hfirst : Touch.write value ∈ ts' :=
    (List.mem_append.mp hwrite).resolve_left (hts value)
  rcases List.append_eq_append_iff.mp heq with ⟨mid, -, hpost⟩ | ⟨mid, -, hpost⟩
  · exact absurd (hpost ▸ by simp) hts'
  · cases mid with
    | nil => exact absurd (by rw [← List.nil_append ts', ← hpost]; exact List.mem_cons_self) hts'
    | cons t mid =>
        rw [List.cons_append, List.cons.injEq] at hpost
        exact ⟨value, hpost.2 ▸ List.mem_append_right _ hfirst⟩

/-- A layer that touches the place hides what lies below, and shows what the operations
leave exactly if it is orderly. -/
theorem run_eq_layer_iff (h : ¬ Untouched ts) : run ts below = layer ts below' ↔ Orderly ts := by
  induction ts using List.reverseRecOn with
  | nil =>
      refine absurd ?_ h
      intro t ht
      cases ht
  | append_singleton ts t ih =>
      rw [run_concat, layer, lastWritten_concat, List.any_append]
      cases t with
      | keep =>
          rw [untouched_concat_keep] at h
          have hih := ih h
          rw [orderly_concat_keep, ← hih, layer, Touch.written, Option.none_or]
          simp only [List.any_cons, List.any_nil, Touch.isClear, Bool.or_false]
          rfl
      | clear =>
          rw [orderly_concat_clear, Touch.written, Option.none_or]
          simp only [List.any_cons, Touch.isClear, Bool.true_or, Bool.or_true, if_true,
            Option.or_none]
          exact eq_comm
      | write value =>
          exact iff_of_true rfl (orderly_concat_write value)

theorem write_mem_of_lastWritten {value : β} (h : lastWritten ts = some value) :
    .write value ∈ ts := by
  obtain ⟨t, ht, hwritten⟩ := List.mem_filterMap.mp (List.mem_of_getLast? h)
  cases t with
  | keep => cases hwritten
  | clear => cases hwritten
  | write value' =>
      cases hwritten
      exact ht

/-! ## All layers -/

/-- What the layers show was there at the start or is written by one of them. -/
theorem write_mem_of_overlay {value : β} (h : overlay layers below = some value) :
    below = some value ∨ ∃ ts ∈ layers, .write value ∈ ts := by
  induction layers generalizing below with
  | nil => exact .inl h
  | cons ts layers ih =>
      rcases ih h with hlayer | ⟨us, hus, hwrite⟩
      · rcases Option.or_eq_some_iff.mp hlayer with hwritten | ⟨-, hbelow⟩
        · exact .inr ⟨ts, List.mem_cons_self, write_mem_of_lastWritten hwritten⟩
        · exact .inl (Option.ite_none_left_eq_some.mp hbelow).2
      · exact .inr ⟨us, List.mem_cons_of_mem _ hus, hwrite⟩

theorem topOrderly_concat_untouched (h : Untouched ts) :
    TopOrderly (layers ++ [ts]) ↔ TopOrderly layers := by
  constructor
  · rintro htop lower us upper rfl hupper
    refine htop lower us (upper ++ [ts]) (by simp) ?_
    intro vs hvs
    rcases List.mem_append.mp hvs with hmem | hmem
    · exact hupper vs hmem
    · rw [List.mem_singleton.mp hmem]
      exact h
  · intro htop lower us upper heq hupper
    rcases List.eq_nil_or_concat' upper with rfl | ⟨upper, vs, rfl⟩
    · obtain ⟨-, hus⟩ := List.append_inj' heq rfl
      cases hus
      exact orderly_untouched h
    · rw [← List.cons_append, ← List.append_assoc] at heq
      obtain ⟨hlayers, -⟩ := List.append_inj' heq rfl
      exact htop lower us upper hlayers fun ws hws => hupper ws (List.mem_append_left _ hws)

theorem topOrderly_concat_touched (h : ¬ Untouched ts) :
    TopOrderly (layers ++ [ts]) ↔ Orderly ts := by
  constructor
  · intro htop
    exact htop layers ts [] rfl fun us hus => by cases hus
  · intro horderly lower us upper heq hupper
    rcases List.eq_nil_or_concat' upper with rfl | ⟨upper, vs, rfl⟩
    · obtain ⟨-, hus⟩ := List.append_inj' heq rfl
      cases hus
      exact horderly
    · rw [← List.cons_append, ← List.append_assoc] at heq
      obtain ⟨-, hlast⟩ := List.append_inj' heq rfl
      cases hlast
      exact absurd (hupper ts List.mem_concat_self) h

/-- Carried out one after the other, the operations leave what the layers show exactly if
the top layer that touches the place is orderly. -/
theorem run_eq_overlay_iff (start : Option β) :
    run layers.flatten start = overlay layers start ↔ TopOrderly layers := by
  induction layers using List.reverseRecOn with
  | nil =>
      refine iff_of_true rfl ?_
      rintro lower ts upper heq
      simp at heq
  | append_singleton layers ts ih =>
      have hrun : run (layers ++ [ts]).flatten start = run ts (run layers.flatten start) := by
        rw [List.flatten_append, List.flatten_singleton, run_append]
      have hover : overlay (layers ++ [ts]) start = layer ts (overlay layers start) :=
        List.foldl_concat _ _ _ _
      rw [hrun, hover]
      by_cases h : Untouched ts
      · rw [run_untouched h, layer_untouched h, topOrderly_concat_untouched h]
        exact ih
      · rw [run_eq_layer_iff h, topOrderly_concat_touched h]

end Flowgen.Lib.Overwrite
