import Spelunk.Core.CodeDatabase

/-!
# The Statements of an Index Run

`spelunk index` statement by statement: the parse phase over the files of a walk, the
removal of the files that are gone, the batches of the embed phase and the ranking.
Every statement is committed on its own, so a run keeps the states it goes through, and
a run that is killed ends in one of them.

What reads a text is a parameter: the hash, the parsers, the extraction of edges and of
mentions, the secret scan and the token estimate.

## Main definitions

* `Extractors`: What reads a text.
* `WalkedFile`: A file of the walk.
* `fileWork`: What a run does with a file, if it does not pass it over.
* `runParsePhase`: The parse phase.
* `indexRun`, `embedPhasesRun`, `backgroundPhasesRun`: The runs of the command.
-/

namespace Spelunk

/-- A chunk as a parser gives it. -/
structure ParsedChunk where
  nodeType : String
  name : Option String
  startLine : ℕ
  endLine : ℕ
  content : String
  docstring : Option String
  parentScope : Option String
deriving DecidableEq, Repr

/-- `Chunk::embedding_text`, of a chunk without a summary. -/
def ParsedChunk.embeddingText (c : ParsedChunk) : String :=
  let title := c.name.getD "none"
  let body := match c.docstring with
    | some doc => doc ++ "\n" ++ c.content
    | none => c.content
  "title: " ++ title ++ " | text: " ++ body

/-- An edge as the extractor gives it, in the file it looks at. -/
structure ParsedEdge where
  sourceName : Option String
  targetName : String
  kind : String
  line : ℕ
deriving DecidableEq, Repr

/-- What reads a text; `none` where it fails. The arguments are the language, the path and the
    text. -/
structure Extractors where
  hash : String → String
  parse : String → String → String → Option (List ParsedChunk)
  extract : String → String → String → Option (List ParsedEdge)
  mentions : String → String → List String
  parseDoc : String → String → String → List ParsedChunk
  pdfPages : String → Option (List (ℕ × String))
  containsSecret : String → Bool
  estimateTokens : String → ℕ

inductive FileKind where
  | doc (language : String)
  | pdf
  | text (language : String)
deriving DecidableEq, Repr

/-- A file of the walk: `contents` is what reading it gives, if it can be read. -/
structure WalkedFile where
  path : String
  kind : FileKind
  binary : Bool
  tooLarge : Bool
  contents : Option String
  mtime : ℤ
deriving DecidableEq, Repr

/-- What a run does with a file: its row, its edges, `none` where the stored ones stay, its mention
    edges and its chunks. -/
structure FileWork where
  row : FileRow
  edges : Option (List EdgeRow)
  mentions : List EdgeRow
  chunks : List ParsedChunk

/-- `pages_to_chunks`. -/
def pagesToChunks (pages : List (ℕ × String)) : List ParsedChunk :=
  pages.map fun p => {
    nodeType := "section"
    name := some ("page " ++ toString p.1)
    startLine := p.1
    endLine := p.1
    content := p.2
    docstring := none
    parentScope := none }

namespace Extractors

variable {R : Type} (env : Extractors)

/-- The mention edges of the named chunks. -/
def mentionEdges (path language : String) (chunks : List ParsedChunk) : List EdgeRow :=
  chunks.flatMap fun c =>
    match c.name with
    | none => []
    | some name => (env.mentions c.content language).map fun sym =>
        ⟨path, some name, sym, CodeDb.mentionKind, 0⟩

/-- `process_doc_file`, up to its first write. -/
def docWork (force : Bool) (db : CodeDb R) (f : WalkedFile) (language : String) :
    Option FileWork :=
  if f.tooLarge then none
  else f.contents.bind fun bytes =>
    if !force && db.fileHash f.path = some (env.hash bytes) then none
    else some {
      row := ⟨f.path, language, env.hash bytes, f.mtime⟩
      edges := none
      mentions := []
      chunks := env.parseDoc language f.path bytes }

/-- `process_pdf_file`, up to its first write. -/
def pdfWork (force : Bool) (db : CodeDb R) (f : WalkedFile) : Option FileWork :=
  if f.tooLarge then none
  else f.contents.bind fun bytes =>
    if !force && db.fileHash f.path = some (env.hash bytes) then none
    else (env.pdfPages bytes).map fun pages => {
      row := ⟨f.path, "pdf", env.hash bytes, f.mtime⟩
      edges := none
      mentions := []
      chunks := pagesToChunks pages }

/-- `process_text_file`, up to its first write. -/
def textWork (force : Bool) (db : CodeDb R) (f : WalkedFile) (language : String) :
    Option FileWork :=
  if (language = "text" ∨ language = "markdown") ∧ f.binary then none
  else if f.tooLarge then none
  else f.contents.bind fun source =>
    if !force && db.fileHash f.path = some (env.hash source) && db.fileHasChunks f.path then none
    else (env.parse language f.path source).map fun chunks => {
      row := ⟨f.path, language, env.hash source, f.mtime⟩
      edges := (env.extract language f.path source).map fun edges =>
        edges.map fun e => ⟨f.path, e.sourceName, e.targetName, e.kind, e.line⟩
      mentions := env.mentionEdges f.path language chunks
      chunks := chunks }

/-- What a run does with a file, if it does not pass it over. -/
def fileWork (force : Bool) (db : CodeDb R) (f : WalkedFile) : Option FileWork :=
  match f.kind with
  | .doc language => env.docWork force db f language
  | .pdf => env.pdfWork force db f
  | .text language => env.textWork force db f language

/-- The chunks that are stored: those without a secret. -/
def storable (chunks : List ParsedChunk) : List ParsedChunk :=
  chunks.filter fun c => !env.containsSecret c.embeddingText

/-- The row of a chunk, by its id. -/
def chunkRow [Zero R] (path : String) (c : ParsedChunk) (id : ℕ) : ChunkRow R where
  id := id
  path := path
  nodeType := c.nodeType
  name := c.name
  startLine := c.startLine
  endLine := c.endLine
  content := c.content
  docstring := c.docstring
  parentScope := c.parentScope
  tokenCount := env.estimateTokens c.content
  graphRank := 0

/-- The statements before the chunks: the row of the file, its old chunks, its edges. -/
def fileStatements (w : FileWork) : List (CodeDb R → CodeDb R) :=
  [CodeDb.upsertFile w.row, CodeDb.deleteEmbeddingsForFile w.row.path,
    CodeDb.deleteChunksForFile w.row.path] ++
  (match w.edges with
    | some edges => CodeDb.deleteEdgesForFile w.row.path :: edges.map CodeDb.insertEdge
    | none => []) ++
  w.mentions.map CodeDb.insertEdge

/-- `store_chunks`: one statement for each chunk. -/
def chunkStatements [Zero R] (w : FileWork) : List (CodeDb R → CodeDb R) :=
  (env.storable w.chunks).map fun c => CodeDb.insertChunk (env.chunkRow w.row.path c)

end Extractors

/-! ### Runs -/

/-- A run so far: the database, the states it has gone through, the chunks it has stored, and how
    many files. -/
structure RunState (R : Type) where
  db : CodeDb R
  trace : List (CodeDb R)
  out : List ℕ
  indexed : ℕ

namespace RunState

variable {R : Type}

def start (db : CodeDb R) : RunState R := ⟨db, [db], [], 0⟩

/-- One statement, committed. -/
def exec (s : RunState R) (statement : CodeDb R → CodeDb R) : RunState R :=
  { s with db := statement s.db, trace := s.trace ++ [statement s.db] }

def execAll (s : RunState R) (statements : List (CodeDb R → CodeDb R)) : RunState R :=
  statements.foldl exec s

end RunState

section Run

variable {R : Type} [Zero R] (env : Extractors)

/-- One file of the walk. -/
def Extractors.processFile (force : Bool) (s : RunState R) (f : WalkedFile) : RunState R :=
  match env.fileWork force s.db f with
  | none => s
  | some w =>
      let stored := (s.execAll (Extractors.fileStatements w)).execAll (env.chunkStatements w)
      { stored with
        out := s.out ++ List.range' s.db.nextChunk (env.storable w.chunks).length
        indexed := s.indexed + 1 }

/-- `cleanup_stale`. -/
def removeStale (files : List WalkedFile) (s : RunState R) : RunState R :=
  let stale := s.db.paths.filter (· ∉ files.map WalkedFile.path)
  s.execAll (stale.flatMap CodeDb.deleteFile)

/-- The embed queue: what was stored, and what waits besides. -/
def RunState.queue (s : RunState R) : List ℕ :=
  s.out ++ s.db.chunksMissingEmbeddings.filter (· ∉ s.out)

/-- `run_parse_phase`: the state after it, and the embed queue. A walk without files ends it at
    once. -/
def Extractors.runParsePhase (force : Bool) (files : List WalkedFile) (db : CodeDb R) :
    RunState R × List ℕ :=
  if files = [] then (.start db, [])
  else
    let s := removeStale files (files.foldl (env.processFile force) (.start db))
    (s, s.queue)

section Rank

variable [One R] [Add R] [Sub R] [Mul R] [Div R] [NatCast R]

/-- Phase 3 of `run_phases_3_to_5`. -/
def rankPhase (db : CodeDb R) : CodeDb R :=
  let edges := db.graphEdgesAll
  if edges = [] then db
  else
    let scores := computePagerank edges pagerankIterations pagerankDamping
    let updates := db.chunksWithNames.filterMap fun c =>
      c.2.bind fun name => (scoreOf scores name).map fun score => (c.1, score)
    db.updateGraphRanks updates

/-- The batches of an embed phase, as far as it comes: the ids of each that are in the queue. -/
def embedBatches (queue : List ℕ) (batches : List (List ℕ)) : List (CodeDb R → CodeDb R) :=
  batches.map fun ids => CodeDb.insertEmbeddings (ids.filter (· ∈ queue))

/-- A run that parses: with nothing to embed it ends there, else it embeds what it can and ranks, by
    itself or through its child. -/
def Extractors.indexRun (force : Bool) (files : List WalkedFile) (batches : List (List ℕ))
    (db : CodeDb R) : RunState R :=
  let parsed := env.runParsePhase force files db
  if parsed.2 = [] then parsed.1
  else (parsed.1.execAll (embedBatches parsed.2 batches)).exec rankPhase

/-- `--_embed-phases`. -/
def embedPhasesRun (batches : List (List ℕ)) (db : CodeDb R) : RunState R :=
  ((RunState.start db).execAll (embedBatches db.chunksMissingEmbeddings batches)).exec rankPhase

/-- `--_background-phases`. -/
def backgroundPhasesRun (db : CodeDb R) : RunState R := (RunState.start db).exec rankPhase

/-- A run of the command that may be killed, or lose its handoff: it leaves a state it has gone
    through. -/
inductive PartialRun (db db' : CodeDb R) : Prop where
  | index (force : Bool) (files : List WalkedFile) (batches : List (List ℕ))
      (h : db' ∈ (env.indexRun force files batches db).trace) : PartialRun db db'
  | embedPhases (batches : List (List ℕ)) (h : db' ∈ (embedPhasesRun batches db).trace) :
      PartialRun db db'
  | backgroundPhases (h : db' ∈ (backgroundPhasesRun db).trace) : PartialRun db db'

/-- What a sequence of partial runs makes of an empty index. -/
inductive IndexHistory : CodeDb R → Prop where
  | empty : IndexHistory .empty
  | run {db db' : CodeDb R} (h : IndexHistory db) (hrun : PartialRun env db db') : IndexHistory db'

end Rank

end Run

end Spelunk
