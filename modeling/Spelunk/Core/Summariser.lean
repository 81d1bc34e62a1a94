import Mathlib.Data.Int.Notation
import Mathlib.Data.Nat.Notation
import Spelunk.Core.Csv

/-!
# Chunk Summaries

The pass that has a model summarise the chunks: a batch of chunks without a summary is put
to it, what it answers is stored, and a chunk for which it has no answer is marked with an
empty summary, so that it is not asked for again.

What the model answers is arbitrary, and so are the writes that fail. How a text is read as a
list of JSON values and which summaries hold a secret are arguments.

## Main definitions

* `stripAnsi`: A text without terminal sequences.
* `jsonSlice`: The part of the answer that is read as JSON.
* `summariseBatch`: What is read of the answer to a batch.
* `summaryRound`, `generateSummaries`: The loop over the batches.
-/

namespace Spelunk

/-- Where the scan for terminal sequences is. -/
inductive AnsiMode where
  | text
  | escape
  | csi
  | osc
  | oscEscape
deriving DecidableEq, Repr

/-- `strip_ansi`. -/
def stripAnsi : AnsiMode → List Char → List Char
  | _, [] => []
  | .text, c :: rest =>
    if c = '\x1b' then stripAnsi .escape rest
    else if c = '\n' ∨ c = '\r' ∨ c = '\t' then c :: stripAnsi .text rest
    else if c.toNat < 0x20 ∨ c = '\x7f' then stripAnsi .text rest
    else c :: stripAnsi .text rest
  | .escape, c :: rest =>
    if c = '[' then stripAnsi .csi rest
    else if c = ']' then stripAnsi .osc rest
    else stripAnsi .text rest
  | .csi, c :: rest =>
    if 0x40 ≤ c.toNat ∧ c.toNat ≤ 0x7e then stripAnsi .text rest else stripAnsi .csi rest
  | .osc, c :: rest =>
    if c = '\x07' then stripAnsi .text rest
    else if c = '\x1b' then stripAnsi .oscEscape rest
    else stripAnsi .osc rest
  | .oscEscape, _ :: rest => stripAnsi .text rest

/-- `rfind` of a character. -/
def rfindChar (c : Char) (s : List Char) : Option ℕ :=
  (s.reverse.idxOf? c).map fun i => s.length - 1 - i

/-- The text from the first opening bracket up to the last closing one; `none` where the slice ends
    before it begins, at which the program dies. -/
def jsonSlice (trimmed : List Char) : Option (List Char) :=
  match trimmed.idxOf? '[', rfindChar ']' trimmed with
  | some first, some last =>
    if first ≤ last + 1 then some ((trimmed.take (last + 1)).drop first) else none
  | _, _ => some trimmed

/-- What is read of a value of the answer: its id as an integer and its summary as a text, where it
    has them. -/
structure SummaryEntry where
  id : Option ℤ
  summary : Option String
deriving DecidableEq, Repr

/-- An entry with an id and a summary that is not blank. -/
def SummaryEntry.answer (e : SummaryEntry) : Option (ℤ × String) :=
  match e.id, e.summary with
  | some id, some summary => if trim summary.toList = [] then none else some (id, summary)
  | _, _ => none

structure SummaryRow where
  id : ℤ
  name : Option String
  nodeType : String
  content : String
  summary : Option String
deriving DecidableEq, Repr

/-- The chunks by their ids. -/
structure SummaryTable where
  rows : List SummaryRow
  sorted : (rows.map SummaryRow.id).Pairwise (· < ·)

/-- `chunks_without_summaries`: the id, the name, the kind and the content of each. -/
def SummaryTable.chunksWithoutSummaries (limit : ℕ) (t : SummaryTable) :
    List (ℤ × String × String × String) :=
  ((t.rows.filter fun r => r.summary = none).take limit).map fun r =>
    (r.id, r.name.getD "", r.nodeType, r.content)

/-- `update_chunk_summary`. -/
def SummaryTable.updateChunkSummary (id : ℤ) (summary : String) (t : SummaryTable) :
    SummaryTable where
  rows := t.rows.map fun r => if r.id = id then { r with summary := some summary } else r
  sorted := by
    rw [List.map_map]
    have hid : (SummaryRow.id ∘ fun r : SummaryRow =>
        if r.id = id then { r with summary := some summary } else r) = SummaryRow.id := by
      funext r
      dsimp only [Function.comp]
      split <;> rfl
    rw [hid]
    exact t.sorted

section Pass

variable (fromStr : List Char → Option (List SummaryEntry)) (containsSecret : String → Bool)

/-- `summarise_batch`, with no answer where the transport fails; `none` where it dies. -/
def summariseBatch (chunks : List (ℤ × String × String × String)) (reply : Option String) :
    Option (List (ℤ × String)) :=
  if chunks = [] then some []
  else match reply with
    | none => some []
    | some raw =>
      (jsonSlice (trim (stripAnsi .text raw.toList))).map fun s =>
        match fromStr s with
        | none => []
        | some entries => entries.filterMap SummaryEntry.answer

/-- A round of the loop, as the world has it: the answer, and which writes fail, of the texts by
    their place in the answer and of the markers by their chunk. -/
structure SummaryRound where
  reply : Option String
  textFails : ℕ → Bool
  markerFails : ℤ → Bool

/-- The pass: the chunks, the batches the model was asked for, the chunks that were written, once
    for each time, how many batches had no answer, and whether the program is dead. -/
structure SummaryRun where
  table : SummaryTable
  asked : List (List ℤ)
  written : List ℤ
  failedBatches : ℕ
  dead : Bool

/-- A write that does not fail. -/
def SummaryRun.write (run : SummaryRun) (id : ℤ) (summary : String) : SummaryRun :=
  { run with
    table := run.table.updateChunkSummary id summary
    written := if id ∈ run.table.rows.map SummaryRow.id then run.written ++ [id] else run.written }

/-- The loop over the answers, with the ids that are stored. -/
def storeAnswers (round : SummaryRound) :
    SummaryRun → List ℤ → List ((ℤ × String) × ℕ) → SummaryRun × List ℤ
  | run, summarised, [] => (run, summarised)
  | run, summarised, ((id, summary), i) :: rest =>
    if round.textFails i then storeAnswers round run summarised rest
    else storeAnswers round (run.write id (if containsSecret summary then "" else summary))
      (summarised ++ [id]) rest

/-- The loop over the batch that marks what is not stored. -/
def markRest (round : SummaryRound) (summarised : List ℤ) : SummaryRun → List ℤ → SummaryRun
  | run, [] => run
  | run, id :: rest =>
    if id ∈ summarised ∨ round.markerFails id then markRest round summarised run rest
    else markRest round summarised (run.write id "") rest

/-- One batch. -/
def summaryRound (batchSize : ℕ) (run : SummaryRun) (round : SummaryRound) : SummaryRun :=
  let batch := run.table.chunksWithoutSummaries batchSize
  if run.dead ∨ batch = [] then run
  else
    let ids := batch.map Prod.fst
    let run := { run with asked := run.asked ++ [ids] }
    match summariseBatch fromStr batch round.reply with
    | none => { run with dead := true }
    | some summaries =>
      let run := if summaries = [] then { run with failedBatches := run.failedBatches + 1 } else run
      let stored := storeAnswers containsSecret round run [] summaries.zipIdx
      markRest round stored.2 stored.1 ids

/-- The loop of `generate_summaries` over the chunks of a table, round after round. -/
def generateSummaries (summaryBatchSize : ℕ) (table : SummaryTable) (rounds : List SummaryRound) :
    SummaryRun :=
  rounds.foldl (summaryRound fromStr containsSecret (max summaryBatchSize 1))
    ⟨table, [], [], 0, false⟩

end Pass

end Spelunk
