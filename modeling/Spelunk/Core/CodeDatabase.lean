import Mathlib.Algebra.GroupWithZero.Nat
import Spelunk.Core.PageRank

/-!
# The Code Database

The tables of `index.db` that the parse phase and the ranking write: files, chunks
with their ranks, the ids of the embedded chunks, and graph edges. A chunk names its
file by the path, which is unique like the id of the file and, as that id, is not given
to another file while chunks of it are left: the foreign key of the chunks is enforced.
The ids of chunks count up and are not used again.

Every definition below is one SQL statement, or one query.

## Main definitions

* `CodeDb`: The database.
* `upsertFile`, `insertChunk`, `insertEdge`: The statements that add rows.
* `deleteFile`: The statements that remove a file.
* `graphEdgesAll`, `updateGraphRanks`: What the ranking reads and writes.
-/

namespace Spelunk

structure FileRow where
  path : String
  language : String
  hash : String
  mtime : ℤ
deriving DecidableEq, Repr

structure ChunkRow (R : Type) where
  id : ℕ
  path : String
  nodeType : String
  name : Option String
  startLine : ℕ
  endLine : ℕ
  content : String
  docstring : Option String
  parentScope : Option String
  tokenCount : ℕ
  graphRank : R
deriving DecidableEq

structure EdgeRow where
  sourceFile : String
  sourceName : Option String
  targetName : String
  kind : String
  line : ℕ
deriving DecidableEq, Repr

structure CodeDb (R : Type) where
  files : List FileRow
  chunks : List (ChunkRow R)
  embeddings : List ℕ
  edges : List EdgeRow
  nextChunk : ℕ
deriving DecidableEq

namespace CodeDb

variable {R : Type}

def empty : CodeDb R := ⟨[], [], [], [], 0⟩

/-- The paths of the files. -/
def paths (db : CodeDb R) : List String := db.files.map FileRow.path

def fileHash (path : String) (db : CodeDb R) : Option String :=
  (db.files.find? (·.path = path)).map FileRow.hash

def fileHasChunks (path : String) (db : CodeDb R) : Bool := db.chunks.any (·.path = path)

/-- `upsert_file`. -/
def upsertFile (f : FileRow) (db : CodeDb R) : CodeDb R :=
  if f.path ∈ db.paths then
    { db with files := db.files.map fun g => if g.path = f.path then f else g }
  else { db with files := db.files ++ [f] }

def deleteEmbeddingsForFile (path : String) (db : CodeDb R) : CodeDb R :=
  { db with
    embeddings := db.embeddings.filter fun id => ¬ ∃ c ∈ db.chunks, c.path = path ∧ c.id = id }

def deleteChunksForFile (path : String) (db : CodeDb R) : CodeDb R :=
  { db with chunks := db.chunks.filter (·.path ≠ path) }

/-- The first statement of `replace_edges`. -/
def deleteEdgesForFile (path : String) (db : CodeDb R) : CodeDb R :=
  { db with edges := db.edges.filter (·.sourceFile ≠ path) }

def insertEdge (e : EdgeRow) (db : CodeDb R) : CodeDb R := { db with edges := db.edges ++ [e] }

/-- `insert_chunk`: the row under the next id; refused where there is no such file. -/
def insertChunk (c : ℕ → ChunkRow R) (db : CodeDb R) : CodeDb R :=
  if (c db.nextChunk).path ∈ db.paths then
    { db with chunks := db.chunks ++ [c db.nextChunk], nextChunk := db.nextChunk + 1 }
  else db

/-- The last statement of `delete_file`; chunks that are left go with the file. -/
def deleteFileRow (path : String) (db : CodeDb R) : CodeDb R :=
  { db with
    files := db.files.filter (·.path ≠ path)
    chunks := db.chunks.filter (·.path ≠ path) }

/-- The statements of `delete_file`. -/
def deleteFile (path : String) : List (CodeDb R → CodeDb R) :=
  [deleteEmbeddingsForFile path, deleteChunksForFile path, deleteEdgesForFile path,
    deleteFileRow path]

/-- The ids that `chunks_missing_embeddings` selects; their order is left out. -/
def chunksMissingEmbeddings (db : CodeDb R) : List ℕ :=
  (db.chunks.filter fun c => c.path ∈ db.paths ∧ c.id ∉ db.embeddings).map ChunkRow.id

/-- One batch of the embed phase, of chunks that wait for it. -/
def insertEmbeddings (ids : List ℕ) (db : CodeDb R) : CodeDb R :=
  { db with embeddings := db.embeddings ++ ids.filter (· ∉ db.embeddings) }

def mentionKind : String := "mentions"

/-- `graph_edges_all`: the edges with a source, the mentions left out. -/
def graphEdgesAll (db : CodeDb R) : List (String × String) :=
  db.edges.filterMap fun e =>
    if e.kind ≠ mentionKind then e.sourceName.map fun s => (s, e.targetName) else none

def chunksWithNames (db : CodeDb R) : List (ℕ × Option String) :=
  (db.chunks.filter (·.name.isSome)).map fun c => (c.id, c.name)

def updateGraphRank (u : ℕ × R) (db : CodeDb R) : CodeDb R :=
  { db with chunks := db.chunks.map fun c => if c.id = u.1 then { c with graphRank := u.2 } else c }

/-- `update_graph_ranks`: one transaction. -/
def updateGraphRanks (scores : List (ℕ × R)) (db : CodeDb R) : CodeDb R :=
  scores.foldl (fun db u => db.updateGraphRank u) db

end CodeDb

end Spelunk
