/-
# `Flowgen.Salesforce.Pages` — result pages
(`salesforce/src/restapi/query.rs`, `salesforce/src/bulkapi/query_job.rs`)

A query, and the results of a bulk job, are read page by page.  A page that cannot be
fetched is fetched again after each delay of the retry strategy, in place, and when it has
failed for good the error is wrapped, so that the runner does not repeat the event.  What
comes before the first output, the job and the describe of its object, is repeated with the
event.  So the pages of both are sent once (`pages_sent_once`).
-/
import Flowgen.Salesforce.Processor

namespace Flowgen.Salesforce

open Flowgen.Task

/-- The pages of a query or a job: the outputs that each is read into, `none` where one
cannot be. -/
structure Results (D : Type) where
  retry : Runner.RetryConfig
  pages : List (List (Option D))

/-- How an operation reads its pages: whether the first one is described, the error of an
output that cannot be read, and what is emitted where there is no output. -/
structure Reading (D : Type) where
  describes : Bool
  unreadable : Error
  empty : Option D

namespace Results

/-- The variables of the loop. -/
structure Loop where
  page : Nat
  schema : Bool
  batchIndex : Nat
deriving DecidableEq

inductive Call (D : Type)
  | starting
  | top (loop : Loop)
  | fetching (loop : Loop) (delays : Option Nat)
  | pausing (loop : Loop) (delays : Option Nat) (error : Error)
  | describing (loop : Loop)
  | reading (loop : Loop) (left : List (Option D))
  | ending
deriving DecidableEq

inductive Answer
  | ok
  | failed (error : Error)
deriving DecidableEq

section Step

variable {D : Type} (r : Results D) (reading : Reading D)

/-- `fetch`, after an error. -/
def fetchFailed (loop : Loop) (delays : Option Nat) (error : Error) : Turn (Call D) D :=
  let delay :=
    match failure error with
    | .permanent => none
    | .transient | .auth => Runner.nextDelay delays
  match delay with
  | some delays => .next (.pausing loop delays error)
  | none => .fail (.retryExhausted error)

def step : Call D → Bool → Answer → Option (Turn (Call D) D)
  | .starting, _, .ok => some (.next (.top ⟨0, false, 0⟩))
  | .starting, _, .failed error => some (.fail error)
  | .top loop, cancelled, _ =>
      if cancelled then some .done else some (.next (.fetching loop r.retry.strategy))
  | .fetching loop _, _, .ok =>
      r.pages[loop.page]?.map fun page =>
        if reading.describes && !loop.schema then .next (.describing loop)
        else .next (.reading loop page)
  | .fetching loop delays, _, .failed error => some (fetchFailed loop delays error)
  | .pausing loop delays error, cancelled, _ =>
      if cancelled then some (.fail (.retryExhausted error))
      else some (.next (.fetching loop delays))
  | .describing loop, _, .ok =>
      r.pages[loop.page]?.map fun page => .next (.reading { loop with schema := true } page)
  | .describing _, _, .failed error => some (.fail error)
  | .reading loop (some output :: left), _, _ =>
      some (.emit output (.reading { loop with batchIndex := loop.batchIndex + 1 } left))
  | .reading _ (none :: _), _, _ => some (.fail reading.unreadable)
  | .reading loop [], _, _ =>
      if loop.page + 1 < r.pages.length then some (.next (.top { loop with page := loop.page + 1 }))
      else
        match reading.empty, loop.batchIndex with
        | some output, 0 => some (.emit output .ending)
        | _, _ => some .done
  | .ending, _, _ => some .done

def operation : Operation (Call D) Answer D where
  retriesSafely := true
  start := .starting
  step := r.step reading

/-- What the pages are read into; where that is nothing, what is emitted instead. -/
def outputs : List D :=
  match r.pages.flatMap List.reduceOption, reading.empty with
  | [], some output => [output]
  | all, _ => all

end Step

end Results

/-- `Query::call`: a page is one output. -/
def queryCall {D : Type} (retry : Runner.RetryConfig) (pages : List (Option D)) :
    Operation (Results.Call D) Results.Answer D :=
  Results.operation ⟨retry, pages.map fun page => [page]⟩ ⟨false, .response, none⟩

/-- `QueryJob::get_results`: a page is some batches, typed by the describe of the object;
without any there is an empty one. -/
def getResults {D : Type} (retry : Runner.RetryConfig) (pages : List (List (Option D)))
    (newEmpty : D) : Operation (Results.Call D) Results.Answer D :=
  Results.operation ⟨retry, pages⟩ ⟨true, .arrow, some newEmpty⟩

namespace Results

section Runs

variable {D : Type} {r : Results D} {reading : Reading D} {emitted : List D} {loop : Loop}

variable (r) in
/-- The outputs of the pages before one. -/
def before (page : Nat) : List D := (r.pages.take page).flatMap List.reduceOption

variable (reading) in
/-- Until a page has been described, none has been read. -/
def Loop.Typed (loop : Loop) : Prop :=
  reading.describes = true → loop.schema = false → loop.page = 0

variable (r reading) in
/-- What has been emitted at a point of the call. -/
def Has (call : Call D) (emitted : List D) : Prop :=
  match call with
  | .starting => emitted = []
  | .top loop | .fetching loop _ | .pausing loop _ _ =>
      emitted = r.before loop.page ∧ emitted.length = loop.batchIndex ∧ loop.Typed reading
  | .describing loop => emitted = [] ∧ loop.page = 0 ∧ loop.batchIndex = 0
  | .reading loop left =>
      emitted ++ left.reduceOption = r.before (loop.page + 1) ∧
        emitted.length = loop.batchIndex ∧ (reading.describes = true → loop.schema = true)
  | .ending => emitted = r.outputs reading

theorem before_succ {page : List (Option D)} {n : Nat} (h : r.pages[n]? = some page) :
    r.before (n + 1) = r.before n ++ page.reduceOption := by
  rw [before, before, List.take_add_one, h, List.flatMap_append]
  congr 1
  exact List.append_nil _

theorem before_prefix (n : Nat) : r.before n <+: r.outputs reading := by
  have hall : r.before n <+: r.pages.flatMap List.reduceOption :=
    (List.take_prefix n r.pages).flatMap _
  unfold outputs
  split
  · rename_i hnil _
    rw [hnil] at hall
    rw [List.prefix_nil.mp hall]
    exact List.nil_prefix
  · exact hall

/-- After the last page everything has been read. -/
theorem before_of_le {n : Nat} (h : r.pages.length ≤ n) :
    r.before n = r.pages.flatMap List.reduceOption := by
  rw [before, List.take_of_length_le h]

theorem has_order {call : Call D} (h : Has r reading call emitted) :
    emitted <+: r.outputs reading := by
  unfold Has at h
  split at h
  · rw [h]
    exact List.nil_prefix
  · exact h.1 ▸ before_prefix _
  · exact h.1 ▸ before_prefix _
  · exact h.1 ▸ before_prefix _
  · rw [h.1]
    exact List.nil_prefix
  · exact (List.prefix_append _ _).trans (h.1 ▸ before_prefix _)
  · exact h ▸ List.prefix_rfl

variable (loop) in
/-- A page that could not be fetched is fetched again, or the call fails for good. -/
theorem fetchFailed_cases (delays : Option Nat) (error : Error) :
    (∃ delays', fetchFailed (D := D) loop delays error = .next (.pausing loop delays' error)) ∨
      fetchFailed (D := D) loop delays error = .fail (.retryExhausted error) := by
  unfold fetchFailed
  dsimp only
  split
  · exact Or.inl ⟨_, rfl⟩
  · exact Or.inr rfl

variable (r reading) in
/-- What a step of the call keeps to. -/
def Keeps (cancelled : Bool) (emitted : List D) : Turn (Call D) D → Prop
  | .next call => Has r reading call emitted
  | .emit output call => Has r reading call (emitted ++ [output])
  | .done => cancelled = false → emitted = r.outputs reading
  | .fail error => emitted = [] ∨ failure error = .permanent

theorem has_step (hunreadable : failure reading.unreadable = .permanent) {call : Call D}
    {cancelled : Bool} {answer : Answer} {turn : Turn (Call D) D} (h : Has r reading call emitted)
    (hstep : r.step reading call cancelled answer = some turn) :
    Keeps r reading cancelled emitted turn := by
  cases call with
  | starting =>
      cases answer with
      | ok =>
          cases hstep
          exact ⟨h, by rw [h]; rfl, fun _ _ => rfl⟩
      | failed error =>
          cases hstep
          exact Or.inl h
  | top loop =>
      rw [step] at hstep
      split at hstep
      · rename_i hcancelled
        cases hstep
        intro hnot
        cases hcancelled.symm.trans hnot
      · cases hstep
        exact h
  | fetching loop delays =>
      cases answer with
      | ok =>
          obtain ⟨page, hpage, hturn⟩ := Option.map_eq_some_iff.mp hstep
          obtain ⟨hemitted, hlength, htyped⟩ := h
          split at hturn
          · rename_i hfirst
            subst hturn
            obtain ⟨hdescribes, hschema⟩ := Bool.and_eq_true_iff.mp hfirst
            have hzero := htyped hdescribes ((Bool.not_eq_true' _).mp hschema)
            have hnil : emitted = [] := by
              rw [hemitted, hzero]
              rfl
            exact ⟨hnil, hzero, by rw [← hlength, hnil]; rfl⟩
          · rename_i hfirst
            subst hturn
            refine ⟨by rw [before_succ hpage, hemitted], hlength, fun hdescribes => ?_⟩
            by_contra hschema
            refine hfirst (Bool.and_eq_true_iff.mpr ⟨hdescribes, ?_⟩)
            rw [(Bool.not_eq_true _).mp hschema]
            rfl
      | failed error =>
          cases hstep
          rcases fetchFailed_cases (D := D) loop delays error with ⟨_, hturn⟩ | hturn
          · rw [hturn]
            exact h
          · rw [hturn]
            exact Or.inr rfl
  | pausing loop delays error =>
      rw [step] at hstep
      split at hstep
      · cases hstep
        exact Or.inr rfl
      · cases hstep
        exact h
  | describing loop =>
      obtain ⟨hemitted, hzero, hindex⟩ := h
      cases answer with
      | ok =>
          obtain ⟨page, hpage, hturn⟩ := Option.map_eq_some_iff.mp hstep
          subst hturn
          refine ⟨?_, by rw [hemitted, hindex]; rfl, fun _ => rfl⟩
          rw [before_succ hpage, hemitted, hzero]
          rfl
      | failed error =>
          cases hstep
          exact Or.inl hemitted
  | reading loop left =>
      obtain ⟨hemitted, hlength, htyped⟩ := h
      rcases left with _ | ⟨_ | output, left⟩
      · rw [List.reduceOption_nil, List.append_nil] at hemitted
        rw [step] at hstep
        split at hstep
        · cases hstep
          refine ⟨hemitted, hlength, fun hdescribes hschema => ?_⟩
          cases hschema.symm.trans (htyped hdescribes)
        · rename_i hlast
          rw [before_of_le (Nat.le_of_not_lt hlast)] at hemitted
          split at hstep
          · rename_i output hempty hindex
            cases hstep
            have hnil : emitted = [] := List.length_eq_zero_iff.mp (hlength.trans hindex)
            change emitted ++ [output] = r.outputs reading
            rw [outputs, ← hemitted, hempty, hnil]
            rfl
          · rename_i hnot
            cases hstep
            intro _
            rw [outputs, ← hemitted]
            split
            · rename_i output hempty
              exact absurd hlength.symm (hnot output hempty)
            · rfl
      · cases hstep
        exact Or.inr hunreadable
      · cases hstep
        refine ⟨?_, ?_, htyped⟩
        · rw [← hemitted, List.reduceOption_cons_of_some, List.append_assoc]
          rfl
        · rw [List.length_append, hlength]
          rfl
  | ending =>
      cases hstep
      exact fun _ => h

theorem operation_careful (hunreadable : failure reading.unreadable = .permanent) :
    Processor.Careful (r.operation reading) (r.outputs reading) (Has r reading) where
  start := rfl
  order _ _ := has_order
  next _ _ _ _ _ h hstep := has_step hunreadable h hstep
  emit _ _ _ _ _ _ h hstep := has_step hunreadable h hstep
  done _ _ _ h hstep := has_step hunreadable h hstep rfl
  fail _ _ _ _ _ h hstep := has_step hunreadable h hstep

end Runs

end Results

theorem single_outputs {D : Type} (pages : List (Option D)) :
    (pages.map fun page => [page]).flatMap List.reduceOption = pages.reduceOption := by
  induction pages with
  | nil => rfl
  | cons page pages ih =>
      rw [List.map_cons, List.flatMap_cons, ih]
      cases page with
      | none => rfl
      | some output => rfl

/-- Whatever the pages, the answers and the retries are, and whenever the task is cancelled:
over all attempts at an event the pages of a query, and those of a job's results, are sent at
most once and in order, and completely, with the completion on the last event alone, where an
attempt returns without an error or a cancellation; if the event fails, the completion is
with the one failure that is forwarded. -/
theorem pages_sent_once {D : Type} (retry : Runner.RetryConfig) (tx handlesFailed : Bool)
    (failureMessage : Error → String) :
    (∀ (pages : List (Option D)) s,
      (Processor.handling ⟨queryCall retry pages, retry, tx, handlesFailed, failureMessage⟩).Reachable
          s →
        Processor.Once ⟨queryCall retry pages, retry, tx, handlesFailed, failureMessage⟩
          pages.reduceOption s) ∧
      ∀ (pages : List (List (Option D))) (newEmpty : D) s,
        (Processor.handling
            ⟨getResults retry pages newEmpty, retry, tx, handlesFailed, failureMessage⟩).Reachable s →
          Processor.Once
            ⟨getResults retry pages newEmpty, retry, tx, handlesFailed, failureMessage⟩
            (if (pages.flatMap List.reduceOption).isEmpty then [newEmpty]
              else pages.flatMap List.reduceOption) s := by
  constructor
  · intro pages s h
    have houtputs : Results.outputs ⟨retry, pages.map fun page => [page]⟩ ⟨false, .response, none⟩ =
        pages.reduceOption := by
      rw [Results.outputs]
      split
      · rename_i hempty
        cases hempty
      · exact single_outputs pages
    exact houtputs ▸ Processor.sent_once (Results.operation_careful rfl) h
  · intro pages newEmpty s h
    have houtputs : Results.outputs ⟨retry, pages⟩ ⟨true, .arrow, some newEmpty⟩ =
        if (pages.flatMap List.reduceOption).isEmpty then [newEmpty]
        else pages.flatMap List.reduceOption := by
      rw [Results.outputs]
      split
      · rename_i hnil hempty
        cases hempty
        rw [hnil]
        rfl
      · rename_i hnot
        rw [if_neg]
        intro hempty
        exact hnot newEmpty (List.isEmpty_iff.mp hempty) rfl
    exact houtputs ▸ Processor.sent_once (Results.operation_careful rfl) h

/-- The second page is fetched at the second attempt, and a describe fails first. -/
theorem pages_sent_once_retried :
    let retry : Runner.RetryConfig := ⟨some 3⟩
    let p : Processor (Results.Call Nat) Results.Answer Nat :=
      ⟨getResults retry [[some 1], [some 2]] 0, retry, true, false, fun _ => "failed"⟩
    ∃ s, p.handling.Reachable s ∧ s.sent = [(1, false), (2, true)] ∧ Processor.Once p [1, 2] s := by
  intro retry p
  have hrun : (p.handling.exec (fun _ _ => True) (Processor.State.initial p ⟨(), none⟩)
      [.runner .start, .enter, .render true, .call .ok, .call .ok, .call .ok,
        .call (.failed .stream), .reconnect true, .leave, .runner .wake, .enter, .render true,
        .call .ok, .call .ok, .call .ok, .call .ok, .call .ok, .call .ok, .call .ok,
        .call (.failed (.request .bulkQuery ⟨true, false⟩)), .call .ok, .call .ok, .call .ok,
        .call .ok, .finish, .leave]).any
      (fun s => s.sent == [(1, false), (2, true)]) = true := by
    rfl
  obtain ⟨s, hr, hs⟩ := Lib.Machine.exists_of_exec hrun
  have hreach : p.handling.Reachable s := ⟨_, _, ⟨_, rfl⟩, hr⟩
  exact ⟨s, hreach, beq_iff_eq.mp hs,
    (pages_sent_once retry true false fun _ => "failed").2 [[some 1], [some 2]] 0 s hreach⟩

end Flowgen.Salesforce
