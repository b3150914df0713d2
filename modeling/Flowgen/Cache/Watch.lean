/-
# `Flowgen.Cache.Watch` — what a watcher of the memory cache sees (`core/src/cache/memory.rs`)

A watcher with history is sent the retained values of the keys below its
prefix when it subscribes, and later whatever is broadcast.  Its subscribers
fold these events over an empty map and take the result for the content of the
cache.

Only `put` and `delete` broadcast.  `create`, `update` and
`delete_with_revision` change the map and tell nobody, so the fold is what the
watcher was last told (`told`) and the cache holds what the last operation left
(`get_run`).  They agree exactly if no operation the watcher did not see has
left something else (`watch_faithful_iff`).
-/
import Flowgen.Cache.Memory

namespace Flowgen.Cache

open MemoryCache

variable {B : Type}

/-- The contents of a cache, as a watcher knows it. -/
abbrev Contents (B : Type) := String → Option B

/-- What an event makes of it. -/
def Contents.follow (m : Contents B) : WatchEvent B → Contents B
  | .put key value => Function.update m key (some value)
  | .delete key => Function.update m key none

/-- The fold of a watcher's events over an empty map. -/
def folded (events : List (WatchEvent B)) : Contents B :=
  events.foldl Contents.follow fun _ => none

/-- The current content under a prefix. -/
def MemoryCache.content (c : MemoryCache B) (keyPrefix : String) : Contents B := fun key =>
  if key.startsWith keyPrefix then c.get key else none

/-- The watcher that subscribed last knows the content under its prefix. -/
def Faithful (c : MemoryCache B) (keyPrefix : String) : Prop :=
  ∃ w, c.watchers.getLast? = some w ∧ folded w.sent = c.content keyPrefix

def Op.key : Op B → String
  | .put key _ | .create key _ | .update key _ _ | .delete key | .deleteWithRevision key _ => key

/-- What an operation leaves in its key when it takes effect. -/
def Op.leaves : Op B → Option B
  | .put _ value | .create _ value | .update _ value _ => some value
  | .delete _ | .deleteWithRevision _ _ => none

/-- The event an operation broadcasts. -/
def Op.event? : Op B → Option (WatchEvent B)
  | .put key value => some (.put key value)
  | .delete key => some (.delete key)
  | .create _ _ | .update _ _ _ | .deleteWithRevision _ _ => none

/-- The value of a key that a watcher was last told: that at its subscription,
or that of the last broadcast. -/
def told (key : String) (value : Option B) (ops : List (Op B)) : Option B :=
  ops.foldl (fun value op => if op.key = key ∧ op.event?.isSome then op.leaves else value) value

/-- The last operation on a key that took effect, if it was not broadcast. -/
def unseen (key : String) : MemoryCache B → Option (Op B) → List (Op B) → Option (Op B)
  | _, last, [] => last
  | c, last, op :: ops =>
      unseen key (op.apply c)
        (if op.key = key ∧ op.event?.isSome then none
        else if effect key c op = .none then last else some op)
        ops

/-! ## What the cache holds -/

variable {c : MemoryCache B} {key k keyPrefix : String} {op : Op B}

theorem get_insert (e : CacheEntry B) :
    ({ c with data := c.data.insert k e } : MemoryCache B).get key =
      if k = key then some e.value else c.get key := by
  unfold MemoryCache.get
  split
  · rename_i h
    subst h
    simp
  · rename_i h
    simp [AList.lookup_insert_ne (Ne.symm h)]

theorem get_erase :
    ({ c with data := c.data.erase k } : MemoryCache B).get key =
      if k = key then none else c.get key := by
  unfold MemoryCache.get
  split
  · rename_i h
    subst h
    simp
  · rename_i h
    simp [AList.lookup_erase_ne (Ne.symm h)]

@[simp] theorem get_broadcast (e : WatchEvent B) : (c.broadcast e).get key = c.get key := rfl

theorem get_create (v : B) :
    (c.create k v).2.get key = if k = key ∧ (c.create k v).1.isOk then some v else c.get key := by
  rw [create]
  cases c.data.lookup k with
  | none =>
      simp only [get_insert]
      by_cases h : k = key <;> simp [h, Except.isOk, Except.toBool]
  | some e => simp [Except.isOk, Except.toBool]

theorem get_update (v : B) (r : Nat) :
    (c.update k v r).2.get key =
      if k = key ∧ (c.update k v r).1.isOk then some v else c.get key := by
  rw [update]
  cases c.data.lookup k with
  | none => simp [Except.isOk, Except.toBool]
  | some e =>
      by_cases hr : e.revision = r
      · by_cases h : k = key <;> simp [hr, h, get_insert, Except.isOk, Except.toBool]
      · simp [hr, Except.isOk, Except.toBool]

theorem get_deleteWithRevision (r : Nat) :
    (c.deleteWithRevision k r).2.get key =
      if k = key ∧ (c.deleteWithRevision k r).1.isOk then none else c.get key := by
  rw [deleteWithRevision]
  cases c.data.lookup k with
  | none => simp [Except.isOk, Except.toBool]
  | some e =>
      by_cases hr : e.revision = r
      · by_cases h : k = key <;> simp [hr, h, get_erase, Except.isOk, Except.toBool]
      · simp [hr, Except.isOk, Except.toBool]

/-- An operation that takes effect leaves its value, another one nothing. -/
theorem get_apply :
    (op.apply c).get key = if effect key c op = .none then c.get key else op.leaves := by
  cases op with
  | put k v =>
      show (c.put k v).get key = _
      rw [put, effect]
      rw [get_broadcast, get_insert]
      by_cases h : k = key
      · cases c.data.lookup k <;> simp [h, Op.leaves]
      · simp [h]
  | create k v =>
      show (c.create k v).2.get key = _
      rw [get_create, effect]
      split <;> simp_all [Op.leaves]
  | update k v r =>
      show (c.update k v r).2.get key = _
      rw [get_update, effect]
      split <;> simp_all [Op.leaves]
  | delete k =>
      show (c.delete k).get key = _
      rw [delete, effect]
      rw [get_broadcast, get_erase]
      by_cases h : k = key
      · subst h
        cases hg : c.get k <;> simp [Op.leaves]
      · simp [h]
  | deleteWithRevision k r =>
      show (c.deleteWithRevision k r).2.get key = _
      rw [get_deleteWithRevision, effect]
      split <;> simp_all [Op.leaves]

/-- A broadcast tells what the key holds. -/
theorem get_apply_of_event (hk : op.key = key) (he : op.event?.isSome = true) :
    (op.apply c).get key = op.leaves := by
  subst hk
  cases op with
  | put k v =>
      rw [get_apply]
      simp [effect, Op.key]
  | delete k =>
      rw [get_apply]
      cases hg : c.get k <;> simp [effect, Op.key, Op.leaves, hg]
  | create _ _ | update _ _ _ | deleteWithRevision _ _ => cases he

/-- After a history a key holds what the watcher was last told, or what an
operation it did not see has left since. -/
theorem get_run (ops : List (Op B)) (c : MemoryCache B) (last : Option (Op B)) (value : Option B)
    (h : c.get key = (last.map Op.leaves).getD value) :
    (c.run ops).get key = ((unseen key c last ops).map Op.leaves).getD (told key value ops) := by
  induction ops generalizing c last value with
  | nil => exact h
  | cons op ops ih =>
      refine ih (op.apply c) _ _ ?_
      dsimp only
      by_cases he : op.key = key ∧ op.event?.isSome
      · rw [if_pos he, if_pos he]
        exact get_apply_of_event he.1 he.2
      · rw [if_neg he, if_neg he, get_apply]
        split
        · exact h
        · rfl

/-! ## What the watcher is sent -/

variable {ws : List (Watcher B)} {w : Watcher B} {ops : List (Op B)}

/-- The events of some operations that a watcher of a prefix is sent. -/
def live (keyPrefix : String) (ops : List (Op B)) : List (WatchEvent B) :=
  (ops.filterMap Op.event?).filter (·.key.startsWith keyPrefix)

variable (ops) in
theorem live_cons : live keyPrefix (op :: ops) = live keyPrefix [op] ++ live keyPrefix ops := by
  show (([op] ++ ops).filterMap Op.event?).filter _ = _
  rw [List.filterMap_append, List.filter_append]
  rfl

theorem live_of_event {e : WatchEvent B} (he : op.event? = some e) :
    live keyPrefix [op] = [e].filter (·.key.startsWith keyPrefix) := by
  rw [live, List.filterMap_cons_some he]
  rfl

theorem live_of_none (he : op.event? = none) : live keyPrefix [op] = [] := by
  rw [live, List.filterMap_cons_none he]
  rfl

/-- A watcher whose receiver is there gets the events below its prefix, and
stays the last one. -/
theorem broadcast_last {e : WatchEvent B} (hc : c.watchers = ws ++ [w]) (hw : w.closed = false) :
    ∃ ws', (c.broadcast e).watchers =
      ws' ++ [{ w with sent := w.sent ++ [e].filter (·.key.startsWith w.keyPrefix) }] := by
  simp only [broadcast, hc, List.filter_append, List.map_append]
  refine ⟨_, congrArg₂ (· ++ ·) rfl ?_⟩
  cases he : e.key.startsWith w.keyPrefix with
  | true =>
      simp only [List.filter_cons, List.filter_nil, List.map_cons, List.map_nil, hw, he,
        Bool.not_false, if_true]
  | false =>
      simp only [List.filter_cons, List.filter_nil, List.map_cons, List.map_nil, hw, he,
        Bool.not_false, Bool.false_eq_true, if_true, if_false, List.append_nil]
      rw [← hw]

theorem watchers_create (v : B) : (c.create k v).2.watchers = c.watchers := by
  rw [create]
  split <;> rfl

theorem watchers_update (v : B) (r : Nat) : (c.update k v r).2.watchers = c.watchers := by
  rw [update]
  split
  · split <;> rfl
  · rfl

theorem watchers_deleteWithRevision (r : Nat) :
    (c.deleteWithRevision k r).2.watchers = c.watchers := by
  rw [deleteWithRevision]
  split
  · split <;> rfl
  · rfl

variable (op) in
theorem apply_last (hc : c.watchers = ws ++ [w]) (hw : w.closed = false) :
    ∃ ws', (op.apply c).watchers = ws' ++ [{ w with sent := w.sent ++ live w.keyPrefix [op] }] := by
  cases op with
  | put k v =>
      rw [live_of_event rfl]
      exact broadcast_last (c := { c with data := _ }) hc hw
  | delete k =>
      rw [live_of_event rfl]
      exact broadcast_last (c := { c with data := _ }) hc hw
  | create k v =>
      rw [live_of_none rfl, List.append_nil]
      exact ⟨ws, (watchers_create v).trans hc⟩
  | update k v r =>
      rw [live_of_none rfl, List.append_nil]
      exact ⟨ws, (watchers_update v r).trans hc⟩
  | deleteWithRevision k r =>
      rw [live_of_none rfl, List.append_nil]
      exact ⟨ws, (watchers_deleteWithRevision r).trans hc⟩

theorem run_last (ops : List (Op B)) {c : MemoryCache B} {ws : List (Watcher B)} {w : Watcher B}
    (hc : c.watchers = ws ++ [w]) (hw : w.closed = false) :
    ∃ ws', (c.run ops).watchers = ws' ++ [{ w with sent := w.sent ++ live w.keyPrefix ops }] := by
  induction ops generalizing c ws w with
  | nil => exact ⟨ws, by simpa [MemoryCache.run, live] using hc⟩
  | cons op ops ih =>
      obtain ⟨ws₁, h₁⟩ := apply_last op hc hw
      obtain ⟨ws', h'⟩ := ih h₁ hw
      refine ⟨ws', h'.trans ?_⟩
      rw [live_cons ops, List.append_assoc]

/-! ## What the watcher makes of it -/

variable {m : Contents B}

/-- Only the events of a key matter to it. -/
theorem follow_ne {e : WatchEvent B} (h : e.key ≠ key) : m.follow e key = m key := by
  cases e <;> exact Function.update_of_ne (Ne.symm h) ..

theorem foldl_follow_ne {es : List (WatchEvent B)} (h : ∀ e ∈ es, e.key ≠ key) :
    es.foldl Contents.follow m key = m key := by
  induction es generalizing m with
  | nil => rfl
  | cons e es ih =>
      rw [List.foldl_cons, ih fun e he => h e (List.mem_cons_of_mem _ he)]
      exact follow_ne (h e List.mem_cons_self)

/-- The retained values of a key, oldest first, then its value. -/
theorem foldl_follow_puts (history : List B) (value : B) :
    ((history ++ [value]).map (.put key)).foldl Contents.follow m =
      Function.update m key (some value) := by
  induction history generalizing m with
  | nil => rfl
  | cons v history ih =>
      rw [List.cons_append, List.map_cons, List.foldl_cons, ih]
      exact Function.update_idem ..

/-- What a watcher is sent when it subscribes. -/
def replay (entries : List (Σ _ : String, CacheEntry B)) : List (WatchEvent B) :=
  entries.flatMap fun e => (e.2.history ++ [e.2.value]).map (.put e.1)

theorem folded_replay (entries : List (Σ _ : String, CacheEntry B)) (hnd : entries.NodupKeys) :
    (replay entries).foldl Contents.follow m key =
      ((entries.dlookup key).map fun e => some e.value).getD (m key) := by
  induction entries generalizing m with
  | nil => rfl
  | cons e entries ih =>
      obtain ⟨k, e⟩ := e
      have hnd' := List.nodupKeys_cons.mp hnd
      have hcons : replay (⟨k, e⟩ :: entries) =
        (e.history ++ [e.value]).map (.put k) ++ replay entries := rfl
      rw [hcons, List.foldl_append, foldl_follow_puts, ih hnd'.2]
      by_cases h : k = key
      · subst h
        rw [List.dlookup_eq_none.mpr hnd'.1]
        simp
      · rw [List.dlookup_cons_ne _ _ (Ne.symm h), Function.update_of_ne (Ne.symm h)]

/-- The live events of a key below the prefix tell what was broadcast of it. -/
theorem foldl_live (ops : List (Op B)) (m : Contents B) (hp : key.startsWith keyPrefix = true) :
    (live keyPrefix ops).foldl Contents.follow m key = told key (m key) ops := by
  induction ops generalizing m with
  | nil => rfl
  | cons op ops ih =>
      rw [live_cons, List.foldl_append, ih]
      refine congrArg (fun v => told key v ops) ?_
      cases he : op.event? with
      | none => simp [live_of_none he, he]
      | some e =>
          have hev : e.key = op.key ∧ m.follow e op.key = op.leaves := by
            cases op <;> cases he <;> exact ⟨rfl, Function.update_self ..⟩
          rw [live_of_event he]
          by_cases hk : op.key = key
          · subst hk
            simp [hev.1, hp, hev.2, he]
          · rw [foldl_follow_ne]
            · simp [hk]
            · intro e' he'
              obtain rfl := List.mem_singleton.mp (List.mem_of_mem_filter he')
              exact hev.1 ▸ hk

/-! ## The fold and the content -/

theorem dlookup_filter : (c.data.entries.filter (·.1.startsWith keyPrefix)).dlookup key =
    if key.startsWith keyPrefix then c.data.lookup key else none := by
  have hnd : (c.data.entries.filter (·.1.startsWith keyPrefix)).NodupKeys :=
    c.data.nodupKeys.sublist List.filter_sublist
  refine Option.ext fun e => ?_
  rw [← Option.mem_def, List.mem_dlookup_iff hnd, List.mem_filter]
  split
  · rename_i hp
    rw [← Option.mem_def, AList.mem_lookup_iff]
    simp [hp]
  · rename_i hp
    simp [hp]

/-- A watcher with history starts with the content under its prefix. -/
theorem folded_watch (c : MemoryCache B) (keyPrefix : String) :
    folded (replay (c.data.entries.filter (·.1.startsWith keyPrefix))) = c.content keyPrefix := by
  funext key
  rw [folded, folded_replay _ (c.data.nodupKeys.sublist List.filter_sublist), content,
    dlookup_filter]
  split
  · rw [MemoryCache.get]
    cases c.data.lookup key <;> rfl
  · rfl

/-- What a watcher with history knows after some operations. -/
theorem faithful_watch_iff (c : MemoryCache B) (keyPrefix : String) (ops : List (Op B)) :
    Faithful ((c.watch keyPrefix true).run ops) keyPrefix ↔
      ∀ key, key.startsWith keyPrefix = true →
        told key (c.get key) ops = ((c.watch keyPrefix true).run ops).get key := by
  obtain ⟨ws, hws⟩ := run_last ops (c := c.watch keyPrefix true) rfl rfl
  have hlast : ((c.watch keyPrefix true).run ops).watchers.getLast? = some
      { keyPrefix := keyPrefix
        closed := false
        sent := replay (c.data.entries.filter (·.1.startsWith keyPrefix)) ++ live keyPrefix ops } := by
    rw [hws, List.getLast?_concat]
    rfl
  have hfold : ∀ key, folded (replay (c.data.entries.filter (·.1.startsWith keyPrefix)) ++
      live keyPrefix ops) key =
        if key.startsWith keyPrefix then told key (c.get key) ops else none := by
    intro key
    rw [folded, List.foldl_append, ← folded, folded_watch]
    split
    · rename_i hp
      rw [foldl_live ops _ hp, content, if_pos hp]
    · rename_i hp
      rw [foldl_follow_ne, content, if_neg hp]
      intro e he hk
      exact hp (hk ▸ (List.mem_filter.mp he).2)
  constructor
  · rintro ⟨w, hw, hfaith⟩ key hp
    obtain rfl := Option.some.inj (hlast.symm.trans hw)
    have hkey := congrFun hfaith key
    rw [hfold, if_pos hp, content, if_pos hp] at hkey
    exact hkey
  · intro h
    refine ⟨_, hlast, funext fun key => ?_⟩
    rw [hfold, content]
    split
    · exact h key ‹_›
    · rfl

/-- After every history before and after the subscription, the watcher knows
the content under its prefix exactly if, for every key there, the last
operation it was not told of (if any has taken effect since it was last told
of the key) left what it was told. -/
theorem watch_faithful_iff (history : Nat) (pre post : List (Op B)) (keyPrefix : String) :
    let c := (withHistory history).run pre
    Faithful ((c.watch keyPrefix true).run post) keyPrefix ↔
      ∀ key, key.startsWith keyPrefix = true →
        ∀ op ∈ unseen key (c.watch keyPrefix true) none post, op.leaves = told key (c.get key) post := by
  intro c
  rw [faithful_watch_iff]
  refine forall_congr' fun key => imp_congr_right fun _ => ?_
  rw [get_run post (c.watch keyPrefix true) none (c.get key) rfl]
  cases unseen key (c.watch keyPrefix true) none post with
  | none => simp
  | some op => simp [eq_comm]

/-- A lease is renewed: nobody who watches is told. -/
theorem watch_misses_update :
    let c : MemoryCache Nat := (withHistory 10000).run [.put "lease" 1]
    let c' := (c.watch "lease" true).run [.update "lease" 2 1]
    c'.get "lease" = some 2 ∧ (∃ w, c'.watchers.getLast? = some w ∧ folded w.sent "lease" = some 1) ∧
      ¬ Faithful c' "lease" := by
  intro c c'
  have hp : "lease".startsWith "lease" = true := by simp
  have hget : c'.get "lease" = some 2 := by decide
  have htold : told "lease" (c.get "lease") [.update "lease" 2 1] = some 1 := by decide
  have hnot : ¬ Faithful c' "lease" := by
    intro h
    have := (faithful_watch_iff c "lease" _).mp h "lease" hp
    rw [htold] at this
    cases this.trans hget
  refine ⟨hget, ?_, hnot⟩
  refine ⟨_, rfl, ?_⟩
  decide +kernel

end Flowgen.Cache
