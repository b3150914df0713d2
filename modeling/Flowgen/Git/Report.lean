/-
# `Flowgen.Git.Report` — reading the answer to a push (`git/src/push/client.rs`)

The server answers a push with a report in packets.  If it offers the side-band, the
report is cut into the packets of another stream, at any place, and its packets carry
messages besides.  `demultiplex` puts the report together again and `checkReport` reads
its lines: the push is a success only if the branch is reported as updated and nothing
as refused.

The decoder of gix is a parameter that reads what is written in the format
(`PktLine.Reads`).  The loop of `pktLines` is given one round for each byte;
that it then ends is a theorem (`ReadsReports.ends`).
-/
import Flowgen.Lib.PktLine
import Flowgen.Lib.Utf8
import Flowgen.Text
import Flowgen.Git.Push

namespace Flowgen.Git.Report

open Flowgen.Lib Flowgen.Lib.PktLine Flowgen.Text

inductive Error
  | truncatedPktLine
  | invalidPktLine
  | serverError (message : String)
  | unpackFailed (status : String)
  | refRejected (branch message : String)
  | missingUpdateReport (branch : String)
deriving DecidableEq

/-- A computation that may fail, or is still running. -/
abbrev Reading := ExceptT Error Option

section Model

variable (decode : Bytes → Stream)

/-- The loop of `pkt_lines` for some rounds. -/
def pktLoop : Nat → Bytes → List Bytes → Reading (List Bytes)
  | _, [], lines => pure lines
  | 0, _ :: _, _ => ExceptT.mk none
  | rounds + 1, body, lines =>
      match decode body with
      | .complete (.data data) bytesConsumed =>
          pktLoop rounds (body.drop bytesConsumed) (lines ++ [data])
      | .complete _ bytesConsumed => pktLoop rounds (body.drop bytesConsumed) lines
      | .incomplete => throw .truncatedPktLine
      | .invalid => throw .invalidPktLine

/-- The data lines of a pkt-line stream, skipping flush and delimiter packets. -/
def pktLines (body : Bytes) : Reading (List Bytes) := pktLoop decode body.length body []

/-- The non-empty lines of a side-band message. -/
def messageLines (data : Bytes) : List String :=
  (((Utf8.fromUtf8Lossy data).toList.splitOnP fun c => c = '\n' || c = '\r').map fun line =>
    trim (String.ofList line)).filter fun line => !line.isEmpty

/-- The loop of `demultiplex`. -/
def readBands : List Bytes → Bytes → List String → Except Error (Bytes × List String)
  | [], report, messages => .ok (report, messages)
  | (1 :: data) :: lines, report, messages => readBands lines (report ++ data) messages
  | (2 :: data) :: lines, report, messages =>
      readBands lines report (messages ++ messageLines data)
  | (3 :: data) :: _, _, _ => .error (.serverError (" ".intercalate (messageLines data)))
  | _ :: lines, report, messages => readBands lines report messages

/-- Splits a side-band response into the `report-status` stream (band 1) and the
server's messages (band 2); a message on band 3 is a fatal error. -/
def demultiplex (body : Bytes) : Reading (Bytes × String) := do
  let lines ← pktLines decode body
  let (report, messages) ← readBands lines [] []
  return (report, " ".intercalate messages)

/-- A rejection with the server's own explanation in front of its short reason. -/
def explain (error : Error) (messages : String) : Error :=
  match error with
  | .refRejected branch message =>
      if !messages.isEmpty then .refRejected branch (messages ++ " (" ++ message ++ ")")
      else error
  | .unpackFailed status =>
      if !messages.isEmpty then .unpackFailed (messages ++ " (" ++ status ++ ")") else error
  | error => error

/-- A line as it is read: decoded with replacement and trimmed at the end. -/
def lineText (line : Bytes) : List Char :=
  (Utf8.fromUtf8Lossy line).toList.rdropWhile isWhitespace

/-- The loop of `check_report`. -/
def checkLines (branch : String) : List Bytes → Bool → Except Error Unit
  | [], updated => if updated then .ok () else .error (.missingUpdateReport branch)
  | line :: lines, updated =>
      match splitOnce ' ' (lineText line) with
      | some (word, rest) =>
          if word = "unpack".toList ∧ rest = "ok".toList then checkLines branch lines updated
          else if word = "ok".toList then
            checkLines branch lines (updated || rest == "refs/heads/".toList ++ branch.toList)
          else if word = "unpack".toList then .error (.unpackFailed (String.ofList rest))
          else if word = "ng".toList then
            let message := match splitOnce ' ' rest with
              | some (_, message) => message
              | none => rest
            .error (.refRejected branch (String.ofList message))
          else if word = "ERR".toList then .error (.serverError (String.ofList rest))
          else checkLines branch lines updated
      | none => checkLines branch lines updated

/-- Checks a `report-status` response for the pushed branch. -/
def checkReport (body : Bytes) (branch : String) : Reading Unit := do
  let lines ← pktLines decode body
  checkLines branch lines false

/-- The end of `Push::send`, with the response of the server. -/
def receive (sideBand : Bool) (response : Bytes) (branch : String) : Reading Unit :=
  if sideBand then do
    let (report, messages) ← demultiplex decode response
    (checkReport decode report branch).adapt fun error => explain error messages
  else checkReport decode response branch

end Model

/-! ## What a report says -/

/-- The data of the packets that have any. -/
def dataLines : List Packet → List Bytes
  | [] => []
  | .data data :: packets => data :: dataLines packets
  | _ :: packets => dataLines packets

def SaysUpdated (branch : String) (line : Bytes) : Prop :=
  lineText line = "ok refs/heads/".toList ++ branch.toList

/-- An unpack failure, a rejected ref or an error of the server. -/
def SaysRefused (line : Bytes) : Prop :=
  (∃ status, status ≠ "ok".toList ∧ lineText line = "unpack ".toList ++ status) ∨
    (∃ rejection, lineText line = "ng ".toList ++ rejection) ∨
    ∃ message, lineText line = "ERR ".toList ++ message

/-- The report is well framed, refuses nothing, and has the branch as updated. -/
def Accepts (decode : Bytes → Stream) (report : Bytes) (branch : String) : Prop :=
  ∃ packets, Framed decode report packets ∧
    (∀ line ∈ dataLines packets, ¬ SaysRefused line) ∧
    ∃ line ∈ dataLines packets, SaysUpdated branch line

/-- What a side-band packet carries. -/
inductive Piece
  | report (data : Bytes)
  | message (data : Bytes)
  | flush
  | delimiter

def Piece.packet : Piece → Packet
  | .report data => .data (1 :: data)
  | .message data => .data (2 :: data)
  | .flush => .flush
  | .delimiter => .delimiter

def Piece.reportData : Piece → Bytes
  | .report data => data
  | _ => []

def Piece.messages : Piece → List String
  | .message data => messageLines data
  | _ => []

/-- The pieces can be written, and what they carry of the report is that report. -/
def Cuts (pieces : List Piece) (report : Bytes) : Prop :=
  (∀ piece ∈ pieces, piece.packet.Valid) ∧ pieces.flatMap Piece.reportData = report

def sideBand (pieces : List Piece) : Bytes := pieces.flatMap fun piece => piece.packet.encode

/-- Reading ends, and says what the report says, however it is cut. -/
structure ReadsReports (decode : Bytes → Stream) : Prop where
  ends : ∀ body, ∃ result, ∀ rounds, body.length ≤ rounds →
    pktLoop decode rounds body [] = some result
  demultiplexed : ∀ pieces report, Cuts pieces report →
    demultiplex decode (sideBand pieces) =
      some (.ok (report, " ".intercalate (pieces.flatMap Piece.messages)))
  checked : ∀ report branch, ∃ result, checkReport decode report branch = some result ∧
    (result = .ok () ↔ Accepts decode report branch)
  received : ∀ pieces report branch, Cuts pieces report →
    ∃ result, receive decode true (sideBand pieces) branch = some result ∧
      (result = .ok () ↔ Accepts decode report branch)
  badlyFramed : ∀ body, (∀ packets, ¬ Framed decode body packets) → ∀ offered branch,
    ∃ error, receive decode offered body branch = some (.error error)

/-! ## Reading packets -/

section Packets

variable {decode : Bytes → Stream} {body report : Bytes} {lines : List Bytes} {branch : String}

/-- A round takes one packet. -/
theorem pktLoop_round {p : Packet} {n rounds : Nat} (h : decode body = .complete p n)
    (hne : body ≠ []) :
    pktLoop decode (rounds + 1) body lines =
      pktLoop decode rounds (body.drop n) (lines ++ dataLines [p]) := by
  cases body with
  | nil => exact absurd rfl hne
  | cons b bs =>
      cases p with
      | data data => simp only [pktLoop, h, dataLines]
      | flush | delimiter | responseEnd =>
          simp only [pktLoop, h, dataLines, List.append_nil]

/-- What reading a body gives, with as many rounds as bytes or more. -/
def Gives (decode : Bytes → Stream) (body : Bytes) (lines : List Bytes)
    (result : Except Error (List Bytes)) : Prop :=
  (∀ rounds, body.length ≤ rounds → pktLoop decode rounds body lines = some result) ∧
    match result with
    | .ok read => ∃ packets, Framed decode body packets ∧ read = lines ++ dataLines packets
    | .error _ => ∀ packets, ¬ Framed decode body packets

theorem not_framed (hne : body ≠ []) (h : ∀ p n, decode body ≠ .complete p n)
    (packets : List Packet) : ¬ Framed decode body packets := by
  intro hframed
  cases hframed with
  | nil => exact hne rfl
  | cons hp => exact h _ _ hp

/-- Reading ends: each round takes at least four bytes. -/
theorem exists_gives (hd : Reads decode) (body : Bytes) (lines : List Bytes) :
    ∃ result, Gives decode body lines result := by
  induction hlen : body.length using Nat.strongRecOn generalizing body lines with
  | ind k ih =>
      by_cases hne : body = []
      · subst hne
        refine ⟨.ok lines, ?_, [], .nil, (List.append_nil lines).symm⟩
        intro rounds _
        cases rounds <;> rfl
      · have hpos : 0 < body.length := List.length_pos_iff.mpr hne
        have hround : ∀ {rounds : Nat}, body.length ≤ rounds → ∃ r, rounds = r + 1 := fun h =>
          Nat.exists_eq_add_one.mpr (hpos.trans_le h)
        have hfail : ∀ {e : Error}, (∀ p n, decode body ≠ .complete p n) →
            (∀ r, pktLoop decode (r + 1) body lines = some (.error e)) →
            ∃ result, Gives decode body lines result := by
          intro e hdecode hrun
          refine ⟨.error e, ?_, not_framed hne hdecode⟩
          intro rounds hrounds
          obtain ⟨r, rfl⟩ := hround hrounds
          exact hrun r
        obtain ⟨b, bs, rfl⟩ := List.exists_cons_of_ne_nil hne
        cases hdecode : decode (b :: bs) with
        | incomplete =>
            refine hfail (e := .truncatedPktLine) (fun p n h => ?_) fun r => ?_
            · cases hdecode.symm.trans h
            · simp only [pktLoop, hdecode]
              rfl
        | invalid =>
            refine hfail (e := .invalidPktLine) (fun p n h => ?_) fun r => ?_
            · cases hdecode.symm.trans h
            · simp only [pktLoop, hdecode]
              rfl
        | complete p n =>
            have hfour := hd.four_le hdecode
            have hle := hd.le_length hdecode
            have hdrop : ((b :: bs).drop n).length + n = (b :: bs).length := by
              rw [List.length_drop]
              omega
            obtain ⟨result, hrun, hgives⟩ :=
              ih _ (by omega) ((b :: bs).drop n) (lines ++ dataLines [p]) rfl
            refine ⟨result, ?_, ?_⟩
            · intro rounds hrounds
              obtain ⟨r, rfl⟩ := hround hrounds
              rw [pktLoop_round hdecode hne]
              exact hrun r (by omega)
            · cases result with
              | ok read =>
                  obtain ⟨packets, hframed, hread⟩ := hgives
                  refine ⟨p :: packets, .cons hdecode hfour hle hframed, ?_⟩
                  rw [hread, List.append_assoc]
                  cases p <;> rfl
              | error e =>
                  intro packets hframed
                  cases hframed with
                  | cons hp _ _ hrest =>
                      cases hp.symm.trans hdecode
                      exact hgives _ hrest

/-- A body that is framed is read as its data lines. -/
theorem pktLines_framed (hd : Reads decode) {packets : List Packet}
    (h : Framed decode body packets) : pktLines decode body = some (.ok (dataLines packets)) := by
  obtain ⟨result, hrun, hgives⟩ := exists_gives hd body []
  cases result with
  | ok read =>
      obtain ⟨packets', hframed, rfl⟩ := hgives
      rw [hframed.unique h] at hrun
      exact hrun _ le_rfl
  | error e => exact absurd h (hgives packets)

/-- A body that is not framed gives an error. -/
theorem pktLines_not_framed (hd : Reads decode) (h : ∀ packets, ¬ Framed decode body packets) :
    ∃ error, pktLines decode body = some (.error error) := by
  obtain ⟨result, hrun, hgives⟩ := exists_gives hd body []
  cases result with
  | ok read =>
      obtain ⟨packets, hframed, -⟩ := hgives
      exact absurd hframed (h packets)
  | error e => exact ⟨e, hrun _ le_rfl⟩

end Packets

/-! ## Reading the report -/

section Lines

variable {branch : String} {line : Bytes} {lines : List Bytes} {updated : Bool}

theorem saysUpdated_iff : SaysUpdated branch line ↔
    splitOnce ' ' (lineText line) = some ("ok".toList, "refs/heads/".toList ++ branch.toList) := by
  rw [splitOnce_eq_some]
  exact ⟨fun h => ⟨h, by decide⟩, fun h => h.1⟩

theorem saysRefused_iff : SaysRefused line ↔ ∃ word rest,
    splitOnce ' ' (lineText line) = some (word, rest) ∧
      (word = "unpack".toList ∧ rest ≠ "ok".toList ∨ word = "ng".toList ∨ word = "ERR".toList) := by
  constructor
  · rintro (⟨status, hstatus, h⟩ | ⟨rejection, h⟩ | ⟨message, h⟩)
    · exact ⟨_, status, splitOnce_eq_some.mpr ⟨h, by decide⟩, Or.inl ⟨rfl, hstatus⟩⟩
    · exact ⟨_, rejection, splitOnce_eq_some.mpr ⟨h, by decide⟩, Or.inr (Or.inl rfl)⟩
    · exact ⟨_, message, splitOnce_eq_some.mpr ⟨h, by decide⟩, Or.inr (Or.inr rfl)⟩
  · rintro ⟨word, rest, h, ⟨rfl, hrest⟩ | rfl | rfl⟩
    · exact Or.inl ⟨rest, hrest, (splitOnce_eq_some.mp h).1⟩
    · exact Or.inr (Or.inl ⟨rest, (splitOnce_eq_some.mp h).1⟩)
    · exact Or.inr (Or.inr ⟨rest, (splitOnce_eq_some.mp h).1⟩)

/-- A report succeeds if no line refuses and one has the branch as updated. -/
theorem checkLines_eq_ok : checkLines branch lines updated = .ok () ↔
    (∀ line ∈ lines, ¬ SaysRefused line) ∧
      (updated = true ∨ ∃ line ∈ lines, SaysUpdated branch line) := by
  induction lines generalizing updated with
  | nil => cases updated <;> simp [checkLines]
  | cons line lines ih =>
      simp only [List.forall_mem_cons, List.exists_mem_cons_iff]
      rw [saysUpdated_iff, saysRefused_iff, checkLines]
      cases hsplit : splitOnce ' ' (lineText line) with
      | none => simp [ih]
      | some pair =>
          obtain ⟨word, rest⟩ := pair
          have hword : ∀ P : List Char → List Char → Prop,
              (∃ w r, some (word, rest) = some (w, r) ∧ P w r) ↔ P word rest := by
            intro P
            constructor
            · rintro ⟨w, r, h, hP⟩
              cases h
              exact hP
            · intro hP
              exact ⟨word, rest, rfl, hP⟩
          rw [hword]
          dsimp only
          split
          · rename_i h
            obtain ⟨rfl, rfl⟩ := h
            simp [ih]
          · rename_i hunpack
            split
            · rename_i h
              subst h
              simp [ih, or_assoc]
            · rename_i hok
              by_cases hunpacked : word = "unpack".toList
              · rw [if_pos hunpacked]
                have hrest : rest ≠ "ok".toList := fun h => hunpack ⟨hunpacked, h⟩
                exact iff_of_false nofun fun h => h.1.1 (Or.inl ⟨hunpacked, hrest⟩)
              · rw [if_neg hunpacked]
                by_cases hng : word = "ng".toList
                · rw [if_pos hng]
                  exact iff_of_false nofun fun h => h.1.1 (Or.inr (Or.inl hng))
                · rw [if_neg hng]
                  by_cases herr : word = "ERR".toList
                  · rw [if_pos herr]
                    exact iff_of_false nofun fun h => h.1.1 (Or.inr (Or.inr herr))
                  · rw [if_neg herr, ih]
                    have hnot : ∀ target, some (word, rest) ≠ some ("ok".toList, target) := by
                      intro target h
                      cases h
                      exact hok rfl
                    simp only [hunpacked, hng, herr, hnot, false_and, false_or, not_false_iff,
                      true_and]

end Lines

/-! ## The whole answer -/

section Answer

variable {decode : Bytes → Stream} {body report : Bytes} {branch : String} {pieces : List Piece}

/-- The report is read as what its lines say. -/
theorem checkReport_spec (hd : Reads decode) (report : Bytes) (branch : String) :
    ∃ result, checkReport decode report branch = some result ∧
      (result = .ok () ↔ Accepts decode report branch) := by
  by_cases hframed : ∃ packets, Framed decode report packets
  · obtain ⟨packets, hframed⟩ := hframed
    refine ⟨checkLines branch (dataLines packets) false, ?_, ?_⟩
    · rw [checkReport, pktLines_framed hd hframed]
      rfl
    · rw [checkLines_eq_ok]
      constructor
      · rintro ⟨hrefused, hupdated⟩
        exact ⟨packets, hframed, hrefused, hupdated.resolve_left nofun⟩
      · rintro ⟨packets', hframed', hrefused, hupdated⟩
        cases hframed.unique hframed'
        exact ⟨hrefused, Or.inr hupdated⟩
  · obtain ⟨error, herror⟩ := pktLines_not_framed hd fun packets h => hframed ⟨packets, h⟩
    refine ⟨.error error, ?_, ?_⟩
    · rw [checkReport, herror]
      rfl
    · refine iff_of_false nofun ?_
      rintro ⟨packets, h, -⟩
      exact hframed ⟨packets, h⟩

theorem readBands_pieces (pieces : List Piece) (report : Bytes) (messages : List String) :
    readBands (dataLines (pieces.map Piece.packet)) report messages =
      .ok (report ++ pieces.flatMap Piece.reportData,
        messages ++ pieces.flatMap Piece.messages) := by
  induction pieces generalizing report messages with
  | nil => simp [dataLines, readBands]
  | cons piece pieces ih =>
      cases piece with
      | report data | message data | flush | delimiter =>
          simp [Piece.packet, dataLines, readBands, ih, Piece.reportData, Piece.messages]

theorem sideBand_eq (pieces : List Piece) :
    sideBand pieces = (pieces.map Piece.packet).flatMap Packet.encode := by
  rw [List.flatMap_map, sideBand]

/-- The report is put together again. -/
theorem demultiplex_sideBand (hd : Reads decode) (h : Cuts pieces report) :
    demultiplex decode (sideBand pieces) =
      some (.ok (report, " ".intercalate (pieces.flatMap Piece.messages))) := by
  obtain ⟨hvalid, rfl⟩ := h
  have hpackets : ∀ p ∈ pieces.map Piece.packet, p.Valid := List.forall_mem_map.mpr hvalid
  rw [demultiplex, sideBand_eq, pktLines_framed hd (framed_encode hd hpackets)]
  have hbands := readBands_pieces pieces [] []
  rw [List.nil_append, List.nil_append] at hbands
  change (do
    let (report, messages) ← (readBands (dataLines (pieces.map Piece.packet)) [] [] :
      Reading (Bytes × List String))
    return (report, " ".intercalate messages)) = _
  rw [hbands]
  rfl

theorem adapt_eq_ok (result : Except Error Unit) (f : Error → Error) :
    ∃ result', ExceptT.adapt f (some result : Reading Unit) = some result' ∧
      (result' = .ok () ↔ result = .ok ()) := by
  cases result with
  | ok _ => exact ⟨.ok (), rfl, Iff.rfl⟩
  | error e => exact ⟨.error (f e), rfl, iff_of_false nofun nofun⟩

end Answer

end Flowgen.Git.Report
