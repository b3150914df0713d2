/-
# `Flowgen.ObjectStore.Ranged` — a CSV is read in ranges
(`object-store/src/read.rs`)

The object is downloaded in consecutive ranges, and a range arrives in chunks.  The
decoder is offered one chunk after the other, keeps what it has not decoded for later,
and is flushed when its batch is full or it has decoded nothing; being offered nothing
is the end of the file.

However the bytes are cut, `readCsv` returns, and the batches are the rows of the whole
object, all of them full but the last (`ranged_reads_whole`).  What a chunk is does not
matter: the proof goes by what the decoder has been fed and what it has given out, and
each turn of the loop either takes a chunk, decodes a byte or emits a row.
-/
import Flowgen.ObjectStore.Read

namespace Flowgen.ObjectStore.Read

/-- The ranges that an object is fetched in, from a position on. -/
def ranges {rangeBytes : Nat} (pos : 0 < rangeBytes) (size start : Nat) : List (Nat × Nat) :=
  if size ≤ start then []
  else
    let stop := min (start + rangeBytes) size
    (start, stop) :: ranges pos size stop
termination_by size - start

/-- What is fetched for a range. -/
def fetched (content : Bytes) (range : Nat × Nat) : Bytes :=
  (content.take range.2).drop range.1

/-- The positions in a range. -/
def positions (range : Nat × Nat) : List Nat := List.range' range.1 (range.2 - range.1)

inductive CsvError
  | stream
  | arrow
deriving DecidableEq

/-- A read that returned: its result, what it holds, and what it has emitted. -/
structure Outcome (R V : Type) where
  result : Except CsvError Unit
  pending : Pending R
  outs : List (Task.Out (Data R) V)

section Reading

variable {σ R V : Type} (d : Decoder σ R)

/-- An item of the stream is `none` where it cannot be downloaded. -/
def readCsv : Nat → List (Option Bytes) → σ → Bytes → Bool → Pending R → Option (Outcome R V)
  | 0, _, _, _, _, _ => none
  | fuel + 1, stream, decoder, chunk, finished, pending =>
      if chunk.isEmpty && !finished then
        match stream with
        | some next :: stream => readCsv fuel stream decoder next finished pending
        | none :: _ => some ⟨.error .stream, pending, []⟩
        | [] => readCsv fuel [] decoder chunk true pending
      else
        match d.decode decoder chunk with
        | none => some ⟨.error .arrow, pending, []⟩
        | some (decoder, decoded) =>
            let chunk := chunk.drop decoded
            if decoded = 0 || d.capacity decoder = 0 then
              match d.flush decoder with
              | none => some ⟨.error .arrow, pending, []⟩
              | some (decoder, some batch) =>
                  let (pending, outs) := Task.emit pending (.batch batch)
                  (readCsv fuel stream decoder chunk finished pending).map fun outcome =>
                    { outcome with outs := outs ++ outcome.outs }
              | some (_, none) => some ⟨.ok (), pending, []⟩
            else readCsv fuel stream decoder chunk finished pending

end Reading

/-! ## What is documented of the decoder -/

/-- Of the contents that a decoder `accepts` it has the first rows at hand at any time,
and it fails on no others; what it has at hand after it was offered nothing counts for
the content that ends there.  A row takes a byte at least, and a batch has rows. -/
structure Decoder.Exact {σ R : Type} (d : Decoder σ R) (batchSize : Nat) (rows : Bytes → List R)
    (accepts : Bytes → Prop) (view : σ → View R) : Prop
    extends Decoder.Documented d batchSize rows view where
  held : ∀ c buf c' n, d.decode c buf = some (c', n) →
    (view c).buffered.length ≤ batchSize → (view c').buffered.length ≤ batchSize
  counted : ∀ c buf c' n, d.decode c buf = some (c', n) →
    (view c').given.length + (view c').buffered.length ≤ (view c').fed.length
  first : ∀ c buf c' n rest, d.decode c buf = some (c', n) → (buf = [] → rest = []) →
    accepts ((view c').fed ++ rest) →
    (view c').given ++ (view c').buffered <+: rows ((view c').fed ++ rest)
  accepted : ∀ c c' n, d.decode c [] = some (c', n) → d.capacity c' ≠ 0 → accepts (view c').fed
  rejected : ∀ c buf rest, d.decode c buf = none → (buf = [] → rest = []) →
    ¬ accepts ((view c).fed ++ (buf ++ rest))
  flush_rejected : ∀ c buf c' n rest, d.decode c buf = some (c', n) → d.flush c' = none →
    (buf = [] → rest = []) → ¬ accepts ((view c').fed ++ rest)
  flush_rows : ∀ c c' batch, d.flush c = some (c', some batch) → batch ≠ []

/-! ## The ranges -/

section Ranges

variable {rangeBytes : Nat} (pos : 0 < rangeBytes)

/-- The ranges cover each position exactly once, in order. -/
theorem positions_ranges (size start : Nat) :
    (ranges pos size start).flatMap positions = List.range' start (size - start) := by
  fun_induction ranges pos size start with
  | case1 start h =>
      rw [Nat.sub_eq_zero_of_le h]
      rfl
  | case2 start h stop ih =>
      have hstart : start ≤ stop := by omega
      have hstop : stop ≤ size := by omega
      rw [List.flatMap_cons, ih, positions]
      have happend := List.range'_append_1 (s := start) (m := stop - start) (n := size - stop)
      rw [Nat.add_sub_cancel' hstart, Nat.add_comm, Nat.sub_add_sub_cancel hstop hstart] at happend
      exact happend

/-- What is fetched for all of them is the rest of the object. -/
theorem fetched_ranges (content : Bytes) (start : Nat) :
    (ranges pos content.length start).flatMap (fetched content) = content.drop start := by
  fun_induction ranges pos content.length start with
  | case1 start h => exact (List.drop_eq_nil_of_le h).symm
  | case2 start h stop ih =>
      have hstart : start ≤ stop := by omega
      rw [List.flatMap_cons, ih, fetched]
      calc (content.take stop).drop start ++ content.drop stop
          = (content.take stop ++ content.drop stop).drop start := by
            rw [List.drop_append_of_le_length]
            rw [List.length_take]
            omega
        _ = content.drop start := by rw [List.take_append_drop]

end Ranges

/-! ## A read of chunks -/

section Chunks

variable {σ R V : Type} {d : Decoder σ R} {batchSize : Nat} {rows : Bytes → List R}
  {accepts : Bytes → Prop} {view : σ → View R} {content chunk : Bytes} {stream : List Bytes}
  {decoder decoder' : σ} {finished : Bool} {n : Nat} {batch : List R}

variable (batchSize view content) in
/-- What the decoder was fed, the chunk at hand and the stream are the object. -/
structure Reads (stream : List Bytes) (decoder : σ) (chunk : Bytes) (finished : Bool) : Prop where
  fed : (view decoder).fed ++ (chunk ++ stream.flatten) = content
  finished : finished = true → chunk = [] ∧ stream = []
  counted : (view decoder).given.length + (view decoder).buffered.length ≤
    (view decoder).fed.length
  held : (view decoder).buffered.length ≤ batchSize

variable (view content) in
/-- How many turns of the loop are left at most. -/
def turns (stream : List Bytes) (decoder : σ) (finished : Bool) : Nat :=
  stream.length + (if finished then 0 else 1) + (content.length - (view decoder).fed.length) +
    (content.length - (view decoder).given.length)

/-- The batches that have been emitted. -/
def batches (events : List (Task.Event (Data R))) : List (List R) :=
  events.map fun event => event.built.data.records

variable (batchSize rows accepts content) in
/-- A read goes on from some rows: it succeeds if and only if the object is accepted, and
then the batches it adds are the other rows; all of them are full but the last. -/
structure Adds (given : List R) (pending : Pending R) (outcome : Outcome R V)
    (new : List (List R)) : Prop where
  emitted : batches (sends outcome.outs ++ held outcome.pending) = batches (held pending) ++ new
  nonempty : ∀ batch ∈ new, batch ≠ []
  full : ∀ batch ∈ new.dropLast, batch.length = batchSize
  ok_iff : outcome.result = .ok () ↔ accepts content
  whole : outcome.result = .ok () → given ++ new.flatten = rows content

theorem Reads.fed_le (h : Reads batchSize view content stream decoder chunk finished) :
    (view decoder).fed.length + chunk.length ≤ content.length := by
  have hlength := congrArg List.length h.fed
  rw [List.length_append, List.length_append] at hlength
  omega

/-- A chunk that is taken. -/
theorem Reads.next {next : Bytes}
    (h : Reads batchSize view content (next :: stream) decoder [] false) :
    Reads batchSize view content stream decoder next false where
  fed := h.fed
  finished := nofun
  counted := h.counted
  held := h.held

theorem Reads.finish (h : Reads batchSize view content [] decoder [] false) :
    Reads batchSize view content [] decoder [] true where
  fed := h.fed
  finished _ := ⟨rfl, rfl⟩
  counted := h.counted
  held := h.held

/-- What was decoded goes over to the decoder. -/
theorem Reads.decode (hdoc : Decoder.Exact d batchSize rows accepts view)
    (h : Reads batchSize view content stream decoder chunk finished)
    (hdecode : d.decode decoder chunk = some (decoder', n)) :
    Reads batchSize view content stream decoder' (chunk.drop n) finished := by
  obtain ⟨-, hfed, -, -⟩ := hdoc.decode _ _ _ _ hdecode
  refine ⟨?_, ?_, hdoc.counted _ _ _ _ hdecode, hdoc.held _ _ _ _ hdecode h.held⟩
  · rw [hfed, List.append_assoc, ← List.append_assoc (chunk.take n), List.take_append_drop]
    exact h.fed
  · intro hfinished
    obtain ⟨rfl, hstream⟩ := h.finished hfinished
    exact ⟨List.drop_nil, hstream⟩

theorem Reads.flush (hdoc : Decoder.Exact d batchSize rows accepts view)
    (h : Reads batchSize view content stream decoder chunk finished)
    (hflush : d.flush decoder = some (decoder', some batch)) :
    Reads batchSize view content stream decoder' chunk finished := by
  obtain ⟨rfl, hview⟩ := hdoc.flush_some _ _ _ hflush
  have hcounted := h.counted
  refine ⟨hview ▸ h.fed, h.finished, ?_, ?_⟩
  · rw [hview, List.length_append]
    exact hcounted
  · rw [hview]
    exact Nat.zero_le _

/-- A decoder that is offered nothing is at the end of the object. -/
theorem Reads.ended (h : Reads batchSize view content stream decoder [] finished)
    (hcond : ¬ (([] : Bytes).isEmpty && !finished) = true) :
    finished = true ∧ stream = [] ∧ (view decoder).fed = content := by
  have hfinished : finished = true := by
    cases finished with
    | true => rfl
    | false => exact absurd rfl hcond
  obtain ⟨-, rfl⟩ := h.finished hfinished
  exact ⟨hfinished, rfl, by simpa using h.fed⟩

/-- A read that fails has met what is not accepted. -/
theorem Adds.failed {given : List R} {pending : Pending R} {error : CsvError}
    (h : ¬ accepts content) :
    Adds (V := V) batchSize rows accepts content given pending ⟨.error error, pending, []⟩ [] where
  emitted := (List.append_nil _).symm
  nonempty := nofun
  full := nofun
  ok_iff := ⟨nofun, fun haccepts => absurd haccepts h⟩
  whole := nofun

theorem Adds.done {given : List R} {pending : Pending R} (h : accepts content)
    (hgiven : given = rows content) :
    Adds (V := V) batchSize rows accepts content given pending ⟨.ok (), pending, []⟩ [] where
  emitted := (List.append_nil _).symm
  nonempty := nofun
  full := nofun
  ok_iff := ⟨fun _ => h, fun _ => rfl⟩
  whole _ := (List.append_nil _).trans hgiven

/-- A batch is emitted before what a read adds; it is full, or nothing is added. -/
theorem Adds.emit {given : List R} {pending : Pending R} {outcome : Outcome R V}
    {new : List (List R)} (hbatch : batch ≠ []) (hfull : new ≠ [] → batch.length = batchSize)
    (h : Adds batchSize rows accepts content (given ++ batch)
      (Task.emit (V := V) pending (.batch batch)).1 outcome new) :
    Adds batchSize rows accepts content given pending
      { outcome with outs := (Task.emit pending (.batch batch)).2 ++ outcome.outs }
      (batch :: new) where
  emitted := by
    obtain ⟨hsends, hpending⟩ := sends_emit (V := V) pending (.batch batch)
    have hadd := h.emitted
    rw [hpending] at hadd
    rw [sends, List.filterMap_append, ← sends, ← sends, hsends, List.append_assoc, batches,
      List.map_append, ← batches, ← batches, hadd]
    rfl
  nonempty := by
    intro b hb
    rcases List.mem_cons.mp hb with rfl | hb
    · exact hbatch
    · exact h.nonempty b hb
  full := by
    intro b hb
    cases new with
    | nil => cases hb
    | cons next new =>
        rw [List.dropLast_cons_cons] at hb
        rcases List.mem_cons.mp hb with rfl | hb
        · exact hfull (List.cons_ne_nil _ _)
        · exact h.full b hb
  ok_iff := h.ok_iff
  whole hok := by
    rw [List.flatten_cons, ← List.append_assoc]
    exact h.whole hok

/-- When all rows have been given out, a read returns and emits nothing. -/
theorem readCsv_ended (hdoc : Decoder.Exact d batchSize rows accepts view)
    (haccepts : accepts content) (hfed : (view decoder).fed = content)
    (hgiven : (view decoder).given = rows content) (fuel : Nat) (pending : Pending R) :
    readCsv (V := V) d (fuel + 1) [] decoder [] true pending = some ⟨.ok (), pending, []⟩ := by
  rw [readCsv, if_neg (by simp)]
  cases hdecode : d.decode decoder [] with
  | none =>
      refine absurd ?_ (hdoc.rejected decoder [] [] hdecode fun _ => rfl)
      simpa [hfed] using haccepts
  | some decoded =>
      obtain ⟨decoder', n⟩ := decoded
      obtain ⟨-, hfed', hgiven', hzero⟩ := hdoc.decode _ _ _ _ hdecode
      rw [List.take_nil, List.append_nil, hfed] at hfed'
      have hprefix := hdoc.first _ _ _ _ [] hdecode (fun _ => rfl) (by simpa [hfed'] using haccepts)
      rw [hgiven', hgiven, List.append_nil, hfed'] at hprefix
      have hbuffered : (view decoder').buffered = [] := by
        have hlength := hprefix.length_le
        rw [List.length_append] at hlength
        exact List.length_eq_zero_iff.mp (by omega)
      have hn : n = 0 := by
        have hle := (hdoc.decode _ _ _ _ hdecode).1
        exact Nat.le_zero.mp hle
      dsimp only
      rw [if_pos (by simp [hn])]
      cases hflush : d.flush decoder' with
      | none =>
          refine absurd ?_ (hdoc.flush_rejected _ _ _ _ [] hdecode hflush fun _ => rfl)
          simpa [hfed'] using haccepts
      | some flushed =>
          obtain ⟨decoder'', _ | batch⟩ := flushed
          · rfl
          · refine absurd ?_ (hdoc.flush_rows _ _ _ hflush)
            rw [(hdoc.flush_some _ _ _ hflush).1, hbuffered]

/-- Where the loop breaks off before the batch is full, the object has ended. -/
theorem Reads.at_end (hdoc : Decoder.Exact d batchSize rows accepts view)
    (h : Reads batchSize view content stream decoder chunk finished)
    (hcond : ¬ (chunk.isEmpty && !finished) = true)
    (hdecode : d.decode decoder chunk = some (decoder', n))
    (hbreak : (decide (n = 0) || decide (d.capacity decoder' = 0)) = true)
    (hcapacity : d.capacity decoder' ≠ 0) :
    (chunk = [] ∧ finished = true ∧ stream = []) ∧ (view decoder').fed = content ∧
      accepts content ∧ (view decoder').given ++ (view decoder').buffered = rows content := by
  obtain ⟨-, hfed, -, hzero⟩ := hdoc.decode _ _ _ _ hdecode
  have hn : n = 0 := by simpa [hcapacity] using hbreak
  obtain rfl : chunk = [] := (hzero hn).resolve_right hcapacity
  obtain ⟨hfinished, hstream, hcontent⟩ := h.ended hcond
  rw [List.take_nil, List.append_nil, hcontent] at hfed
  refine ⟨⟨rfl, hfinished, hstream⟩, hfed, ?_, ?_⟩
  · exact hfed ▸ hdoc.accepted _ _ _ hdecode hcapacity
  · exact hfed ▸ hdoc.ends _ _ _ hdecode hcapacity

/-- From any point on a read returns, and adds the rows that are left. -/
theorem readCsv_adds (hdoc : Decoder.Exact d batchSize rows accepts view) (hbatch : 0 < batchSize)
    (fuel : Nat) (stream : List Bytes) (decoder : σ) (chunk : Bytes) (finished : Bool)
    (pending : Pending R) (h : Reads batchSize view content stream decoder chunk finished)
    (hfuel : turns view content stream decoder finished < fuel) :
    ∃ outcome new, readCsv (V := V) d fuel (stream.map some) decoder chunk finished pending =
        some outcome ∧
      Adds batchSize rows accepts content (view decoder).given pending outcome new := by
  induction fuel generalizing stream decoder chunk finished pending with
  | zero => exact absurd hfuel (Nat.not_lt_zero _)
  | succ fuel ih =>
      rw [turns] at hfuel
      unfold readCsv
      split
      · rename_i hcond
        -- The chunk is used up, and the stream has not ended yet.
        obtain ⟨hchunk, hfinished⟩ := Bool.and_eq_true_iff.mp hcond
        obtain rfl := List.isEmpty_iff.mp hchunk
        obtain rfl := (Bool.not_eq_true' finished).mp hfinished
        cases stream with
        | cons next stream =>
            refine ih stream decoder next false pending h.next ?_
            rw [turns]
            rw [List.length_cons] at hfuel
            omega
        | nil =>
            refine ih [] decoder [] true pending h.finish ?_
            rw [turns]
            simp only [Bool.false_eq_true, if_true, if_false] at hfuel ⊢
            omega
      · rename_i hcond
        cases hdecode : d.decode decoder chunk with
        | none =>
            refine ⟨_, [], rfl, Adds.failed ?_⟩
            have hrejected := hdoc.rejected decoder chunk stream.flatten hdecode
            rw [h.fed] at hrejected
            refine hrejected ?_
            rintro rfl
            obtain ⟨-, rfl, -⟩ := h.ended hcond
            rfl
        | some decoded =>
            obtain ⟨decoder', n⟩ := decoded
            have hreads := h.decode hdoc hdecode
            obtain ⟨hle, hfed, hgiven, -⟩ := hdoc.decode _ _ _ _ hdecode
            have hbytes := hreads.fed_le
            have hrows := hreads.counted
            have hfedlength : (view decoder').fed.length = (view decoder).fed.length + n := by
              rw [hfed, List.length_append, List.length_take, Nat.min_eq_left hle]
            dsimp only
            split
            · rename_i hbreak
              cases hflush : d.flush decoder' with
              | none =>
                  have hrejected := hdoc.flush_rejected _ _ _ _ (chunk.drop n ++ stream.flatten)
                    hdecode hflush
                  rw [hreads.fed] at hrejected
                  refine ⟨_, [], rfl, Adds.failed (hrejected ?_)⟩
                  rintro rfl
                  obtain ⟨-, rfl, -⟩ := h.ended hcond
                  exact List.append_nil _ ▸ List.drop_nil
              | some flushed =>
                  obtain ⟨decoder'', _ | batch⟩ := flushed
                  · have hbuffered := hdoc.flush_none _ _ hflush
                    have hcapacity : d.capacity decoder' ≠ 0 := by
                      rw [hdoc.capacity, hbuffered, List.length_nil]
                      omega
                    obtain ⟨-, -, haccepts, hall⟩ := h.at_end hdoc hcond hdecode hbreak hcapacity
                    rw [hbuffered, List.append_nil, hgiven] at hall
                    exact ⟨_, [], rfl, Adds.done haccepts hall⟩
                  · have hbatch := hdoc.flush_rows _ _ _ hflush
                    obtain ⟨hbuffered, hview⟩ := hdoc.flush_some _ _ _ hflush
                    have hpos := List.length_pos_iff.mpr hbatch
                    rw [← hbuffered, hgiven] at hrows
                    by_cases hcapacity : d.capacity decoder' = 0
                    · obtain ⟨outcome, new, hread, hadds⟩ :=
                        ih stream decoder'' (chunk.drop n) finished
                          (Task.emit (V := V) pending (.batch batch)).1 (hreads.flush hdoc hflush) (by
                            rw [turns, hview, List.length_append, hgiven]
                            dsimp only
                            omega)
                      rw [hview, hgiven] at hadds
                      refine ⟨_, batch :: new, congrArg (Option.map _) hread, hadds.emit hbatch ?_⟩
                      intro _
                      have hheld := hreads.held
                      rw [hdoc.capacity] at hcapacity
                      rw [hbuffered]
                      omega
                    · obtain ⟨⟨rfl, rfl, rfl⟩, hcontent, haccepts, hall⟩ :=
                        h.at_end hdoc hcond hdecode hbreak hcapacity
                      rw [← hbuffered, hgiven] at hall
                      have hgiven'' : (view decoder'').given = rows content := by
                        rw [hview, hgiven]
                        exact hall
                      obtain ⟨fuel, rfl⟩ : ∃ k, fuel = k + 1 :=
                        Nat.exists_eq_add_of_le' (by omega)
                      have hread := readCsv_ended (V := V) hdoc haccepts
                        (hview ▸ hcontent : (view decoder'').fed = content) hgiven'' fuel
                        (Task.emit (V := V) pending (.batch batch)).1
                      rw [List.drop_nil, List.map_nil]
                      refine ⟨_, [batch], congrArg (Option.map _) hread, Adds.emit hbatch nofun ?_⟩
                      exact Adds.done haccepts hall
            · rename_i hnext
              have hn : n ≠ 0 := fun hn => hnext (by simp [hn])
              obtain ⟨outcome, new, hread, hadds⟩ :=
                ih stream decoder' (chunk.drop n) finished pending hreads (by
                  rw [turns, hfedlength, hgiven]
                  omega)
              exact ⟨outcome, new, hread, hgiven ▸ hadds⟩

variable (content decoder) in
/-- An object that is downloaded in ranges is covered once and in order by them, and
however what is fetched is cut into chunks, a read of them returns.  It succeeds if and
only if the decoder accepts the object, and then its batches are the rows of the whole
object; all of them are full but the last. -/
theorem ranged_reads_whole {rangeBytes : Nat} (pos : 0 < rangeBytes) (hbatch : 0 < batchSize)
    (hdoc : Decoder.Exact d batchSize rows accepts view) (hnew : view decoder = ⟨[], [], []⟩)
    (chunks : List Bytes)
    (hcut : chunks.flatten = (ranges pos content.length 0).flatMap (fetched content)) :
    (ranges pos content.length 0).flatMap positions = List.range content.length ∧
      ∃ fuel, ∀ more, ∃ outcome : Outcome R V,
        readCsv d (fuel + more) (chunks.map some) decoder [] false none = some outcome ∧
          (outcome.result = .ok () ↔ accepts content) ∧
          (outcome.result = .ok () →
            (batches (sends outcome.outs ++ held outcome.pending)).flatten = rows content) ∧
          (∀ batch ∈ batches (sends outcome.outs ++ held outcome.pending), batch ≠ []) ∧
          ∀ batch ∈ (batches (sends outcome.outs ++ held outcome.pending)).dropLast,
            batch.length = batchSize := by
  rw [fetched_ranges, List.drop_zero] at hcut
  constructor
  · rw [positions_ranges, Nat.sub_zero, List.range_eq_range']
  · refine ⟨turns view content chunks decoder false + 1, fun more => ?_⟩
    have hreads : Reads batchSize view content chunks decoder [] false :=
      ⟨by rw [hnew]; exact hcut, nofun, by rw [hnew]; exact le_rfl, by rw [hnew]; exact Nat.zero_le _⟩
    obtain ⟨outcome, new, hread, hadds⟩ := readCsv_adds (V := V) hdoc hbatch
      (turns view content chunks decoder false + 1 + more) chunks decoder [] false none hreads
      (by omega)
    have hemitted : batches (sends outcome.outs ++ held outcome.pending) = new := hadds.emitted
    refine ⟨outcome, hread, hadds.ok_iff, ?_, hemitted ▸ hadds.nonempty, hemitted ▸ hadds.full⟩
    intro hok
    have hwhole := hadds.whole hok
    rw [hnew] at hwhole
    exact hemitted ▸ hwhole

end Chunks

/-! ## Lines -/

theorem length_rowsFrom_le (row bs : Bytes) : (rowsFrom row bs).length ≤ bs.length := by
  induction bs generalizing row with
  | nil => exact le_rfl
  | cons b bs ih =>
      rw [rowsFrom]
      split
      · exact Nat.succ_le_succ (ih [])
      · exact (ih _).trans (Nat.le_succ _)

/-- A byte ends at most one line. -/
theorem length_rowsFrom_concat (row bs : Bytes) (b : UInt8) :
    (rowsFrom row (bs ++ [b])).length ≤ (rowsFrom row bs).length + 1 := by
  induction bs generalizing row with
  | nil => exact length_rowsFrom_le row [b]
  | cons c bs ih =>
      rw [List.cons_append, rowsFrom, rowsFrom]
      split
      · exact Nat.succ_le_succ (ih [])
      · exact ih _

/-- A decoder that reads until it is full has no more rows than that. -/
theorem length_lines_fill_le {size given : Nat} (fed buf : Bytes)
    (h : (lines fed).length - given ≤ size) :
    (lines (fill (fun fed => decide (size ≤ (lines fed).length - given)) fed buf).1).length - given ≤
      size := by
  induction buf generalizing fed with
  | nil => exact h
  | cons b bs ih =>
      rw [fill]
      split
      · exact h
      · rename_i hfull
        refine ih _ ?_
        have hone := length_rowsFrom_concat [] fed b
        have hroom : (lines fed).length - given < size := by simpa using hfull
        change (lines (fed ++ [b])).length ≤ (lines fed).length + 1 at hone
        omega

theorem linesDecoder_exact (size : Nat) :
    Decoder.Exact (linesDecoder size) size lines (fun _ => True) Lines.view where
  toDocumented := linesDecoder_documented size
  held c buf c' n h hle := by
    cases h
    rw [Lines.view, List.length_drop] at hle ⊢
    exact length_lines_fill_le c.fed buf hle
  counted c buf c' n _ := by
    have happend := congrArg List.length (List.take_append_drop c'.given (lines c'.fed))
    rw [List.length_append] at happend
    exact happend.trans_le (length_rowsFrom_le [] c'.fed)
  first c buf c' n rest _ _ _ := by
    rw [Lines.view, List.take_append_drop]
    exact rowsFrom_prefix [] c'.fed rest
  accepted _ _ _ _ _ := trivial
  rejected _ _ _ h _ := nomatch h
  flush_rejected c buf c' n rest _ h _ := by
    rw [linesDecoder] at h
    dsimp only at h
    split at h <;> cases h
  flush_rows c c' batch h := by
    rw [linesDecoder] at h
    dsimp only at h
    split at h
    · cases h
    · rename_i hlt
      cases h
      refine List.length_pos_iff.mp ?_
      rw [List.length_drop]
      omega

/-- Three lines, in ranges of four bytes that are cut further, and in batches of two. -/
theorem ranged_reads_whole_lines :
    ∃ fuel, ∀ more, ∃ outcome : Outcome Bytes Unit,
      readCsv (linesDecoder 2) (fuel + more) [some [97], some [], some [10, 98], some [98, 10, 99, 10]]
          ⟨[], 0, Nat.zero_le _⟩ [] false none = some outcome ∧
        outcome.result = .ok () ∧
        (batches (sends outcome.outs ++ held outcome.pending)).flatten = [[97], [98, 98], [99]] := by
  obtain ⟨-, fuel, hfuel⟩ := ranged_reads_whole (V := Unit) [97, 10, 98, 98, 10, 99, 10]
    ⟨[], 0, Nat.zero_le _⟩ (by decide : 0 < 4) (by decide : 0 < 2) (linesDecoder_exact 2) rfl
    [[97], [], [10, 98], [98, 10, 99, 10]] (by rw [fetched_ranges]; rfl)
  refine ⟨fuel, fun more => ?_⟩
  obtain ⟨outcome, hread, hok, hrows, -⟩ := hfuel more
  exact ⟨outcome, hread, hok.mpr trivial, hrows (hok.mpr trivial)⟩

end Flowgen.ObjectStore.Read
