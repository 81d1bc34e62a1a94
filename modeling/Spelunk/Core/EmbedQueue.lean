import Spelunk.Core.Chunker
import Spelunk.Core.ExportDump
import Spelunk.Core.ParsePhase

/-!
# The Embed Queue

What the parse phase hands to the embed phase: the id of every chunk without an embedding,
the text to embed and its weight. A chunk that was just stored comes with the text of the
parsed chunk. For the others the text is built again from the columns of the row, where
the docstring is a member of the metadata and the summary is a column of its own: `NULL`
as long as no summary was tried, and the empty text where one was tried and there is none.

The codec of the metadata is an argument, and the order in which
`chunks_missing_embeddings` gives the rows is left out.

## Main definitions

* `chunkMetadata`, `reconstructEmbeddingText`: The metadata, and the text of a row.
* `SummarisedDb`: The database with the column of the summaries.
* `missingEmbeddingTexts`: The queue of the rows.
* `parsePhaseQueue`: The queue of a run.
* `SummaryHistory`: The states of the database.
-/

namespace Spelunk

/-- What writes and reads the metadata of a chunk. -/
structure MetadataCodec where
  toText : JsonValue → String
  ofText : String → Option JsonValue

/-- A text, or `null`. -/
def optionalJson : Option String → JsonValue
  | some s => .str s
  | none => .null

/-- The metadata that `store_chunks` stores. -/
def chunkMetadata (docstring parentScope : Option String) : JsonValue :=
  .obj [("docstring", optionalJson docstring), ("parent_scope", optionalJson parentScope)]

/-- `reconstruct_embedding_text`. -/
def reconstructEmbeddingText (codec : MetadataCodec) (name metadata summary : Option String)
    (content : String) : String :=
  let title := name.getD "none"
  let docstring := (metadata.bind codec.ofText).bind (JsonValue.getStr "docstring")
  let body := match docstring with
    | some doc => doc ++ "\n" ++ content
    | none => content
  match summary with
  | some summary => "title: " ++ title ++ " | summary: " ++ summary ++ " | text: " ++ body
  | none => "title: " ++ title ++ " | text: " ++ body

/-- What is queued for a chunk. -/
structure QueueEntry where
  id : ℕ
  text : String
  tokens : ℕ
deriving DecidableEq, Repr

/-- The database and the `summary` column of its chunks, by their ids. -/
structure SummarisedDb (R : Type) where
  db : CodeDb R
  summary : ℕ → Option String

section Queue

variable {R : Type} (env : Extractors) (codec : MetadataCodec)

/-- `effective_token_count`. -/
def effectiveTokenCount (stored : ℕ) (content : String) : ℕ :=
  max (if stored = 0 then env.estimateTokens content else stored) 1

/-- The chunks without an embedding, with a row for their file. -/
def CodeDb.missingRows (db : CodeDb R) : List (ChunkRow R) :=
  db.chunks.filter fun c => c.path ∈ db.paths ∧ c.id ∉ db.embeddings

/-- `missing_embedding_texts`. -/
def missingEmbeddingTexts (ix : SummarisedDb R) : List QueueEntry :=
  ix.db.missingRows.map fun c => {
    id := c.id
    text := reconstructEmbeddingText codec c.name
      (some (codec.toText (chunkMetadata c.docstring c.parentScope))) (ix.summary c.id) c.content
    tokens := effectiveTokenCount env c.tokenCount c.content }

variable [Zero R]

/-- What `store_chunks` pushes for a file of the walk. -/
def freshEntries (force : Bool) (db : CodeDb R) (f : WalkedFile) : List QueueEntry :=
  match env.fileWork force db f with
  | none => []
  | some w => ((env.storable w.chunks).zipIdx db.nextChunk).map fun p => {
      id := p.2
      text := p.1.embeddingText
      tokens := max (env.estimateTokens p.1.content) 1 }

/-- What is pushed on the walk, with the state of the run. -/
def walkEntries (force : Bool) : RunState R × List QueueEntry → List WalkedFile →
    RunState R × List QueueEntry
  | acc, [] => acc
  | acc, f :: files =>
    walkEntries force (env.processFile force acc.1 f, acc.2 ++ freshEntries env force acc.1.db f)
      files

/-- `run_parse_phase`: the database after it, and the queue. -/
def parsePhaseQueue (force : Bool) (files : List WalkedFile) (ix : SummarisedDb R) :
    SummarisedDb R × List QueueEntry :=
  if files = [] then (ix, [])
  else
    let walked := walkEntries env force (.start ix.db, []) files
    let after : SummarisedDb R := { ix with db := (removeStale files walked.1).db }
    let already := walked.2.map QueueEntry.id
    (after, walked.2 ++
      (missingEmbeddingTexts env codec after).filter fun e => e.id ∉ already)

variable [One R] [Add R] [Sub R] [Mul R] [Div R] [NatCast R]

/-- The states of an index with summaries: runs that may be killed, and `update_chunk_summary`
    for a chunk. -/
inductive SummaryHistory : SummarisedDb R → Prop where
  | empty : SummaryHistory ⟨.empty, fun _ => none⟩
  | run {ix : SummarisedDb R} {db : CodeDb R} (h : SummaryHistory ix)
      (hrun : PartialRun env ix.db db) : SummaryHistory { ix with db }
  | summarise {ix : SummarisedDb R} (h : SummaryHistory ix) (c : ChunkRow R)
      (hc : c ∈ ix.db.chunks) (text : String) : SummaryHistory
        { ix with summary := fun id => if id = c.id then some text else ix.summary id }

end Queue

end Spelunk
