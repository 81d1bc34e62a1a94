import Mathlib.Algebra.Order.Field.Rat
import Mathlib.Data.List.Perm.Basic
import Mathlib.Order.Defs.LinearOrder
import Spelunk.Core.CodeDatabase
import Spelunk.Core.Notes
import Spelunk.Core.Server

/-!
# Hybrid Search

The fusion of a vector search and of a text search by reciprocal ranks, as
`Database::search_hybrid` and `MemoryStore::search_hybrid` do it: the scores are kept in
a hash map by id, its entries are sorted by a stable sort, and the first are taken. The
scores are rationals. The order in which a hash map is gone through is an argument; the
two searches that are fused are functions of the store, and are arguments too.

## Main definitions

* `Knn`: A query to a vector table.
* `knnJoin`: What both searches make of it.
* `search`: The local store's search.
* `Server.searchNotes`: The server's, within a project.
* `IterationOrder`: An order in which a hash map is gone through.
* `fusedScores`: The scores by id.
* `rankScores`: The sort by descending score.
* `fuse`, `CodeDb.searchHybrid`, `MemoryDb.searchHybrid`: The results.
-/

namespace Spelunk

/-! ### Searching by Vector

Both stores keep their vectors in a table of its own, keyed by `note_id`. A search asks that
table for the rows nearest to the query, as many as the caller wants notes, and joins what it
answers with the notes that pass the filter of the search.

Distances are elements of a linear order; the query has the dimension of the table.
-/

variable {V D R N : Type}

/-- `embedding MATCH query AND k = k` on a table of ids and vectors: ids and distances. -/
abbrev Knn (V D : Type) := V → ℕ → List (ℕ × V) → List (ℕ × D)

/-- `WITH knn AS (…) SELECT … FROM knn k JOIN notes n ON n.id = k.note_id WHERE keep ORDER BY
    k.distance`; `id` is the primary key of `notes`, and `read` reads a row. -/
def knnJoin [LinearOrder D] (knn : Knn V D) (query : V) (k : ℕ) (embeddings : List (ℕ × V))
    (notes : List R) (id : R → ℕ) (keep : R → Bool) (read : R → N) : List (N × D) :=
  let joined := (knn query k embeddings).filterMap fun row =>
    (notes.find? (fun n => id n = row.1 ∧ keep n)).map (fun n => (read n, row.2))
  joined.mergeSort (fun a b => a.2 ≤ b.2)

/-- The rows a search is about: the active ones, or those valid at a point in time. -/
def NoteRow.searched (asOf : Option Int) (r : NoteRow) : Bool :=
  match asOf with
  | some ts => decide (r.validAt.getD r.createdAt ≤ ts ∧ ∀ invalidAt ∈ r.invalidAt, ts < invalidAt)
  | none => decide (r.status = "active")

/-- The rows a search of a project is about: its active ones. -/
def ServerRow.searched (projectId : ℕ) (r : ServerRow) : Bool :=
  decide (r.projectId = projectId ∧ r.live)

/-- Semantic search of the local store; a note comes with its distance. -/
def search [LinearOrder D] (knn : Knn (List UInt8) D) (queryBlob : List UInt8) (limit : ℕ)
    (asOf : Option Int) (db : MemoryDb) : List (Note × D) :=
  let limit := min limit 100
  knnJoin knn queryBlob limit db.embeddings db.notes (·.id) (·.searched asOf) rowToNote

namespace Server

/-- Semantic search of a project. -/
def searchNotes [LinearOrder D] (knn : Knn (List UInt32) D) (projectId : ℕ)
    (queryVec : List UInt32) (limit : ℕ) (db : ServerDb) : List (ServerRow × D) :=
  let limit := min limit 100
  knnJoin knn queryVec limit db.embeddings db.notes (·.id)
    (·.searched projectId) (fun n => n)

end Server

end Spelunk

namespace Spelunk

/-- An order in which a hash map or a hash set is gone through. -/
structure IterationOrder (α : Type*) where
  of : List α → List α
  perm : ∀ l, (of l).Perm l

/-- The constant of the fusion. -/
def rrfK : ℚ := 60

/-- The part of a result in a list, by its rank from zero on. -/
def rrf (rank : ℕ) : ℚ := 1 / (rrfK + ((rank + 1 : ℕ) : ℚ))

/-- How many results each of the two searches is asked for. -/
def rrfCandidates (limit : ℕ) : ℕ := max (limit * 3) 20

section Fusion

variable {ι : Type*} [DecidableEq ι]

/-- `*scores.entry(id).or_insert(0.0) += rrf`. -/
def addScore (scores : List (ι × ℚ)) (id : ι) (x : ℚ) : List (ι × ℚ) :=
  if id ∈ scores.map Prod.fst then
    scores.map fun p => if p.1 = id then (p.1, p.2 + x) else p
  else scores ++ [(id, x)]

/-- One of the two lists is added. -/
def addRanked (scores : List (ι × ℚ)) (ids : List ι) : List (ι × ℚ) :=
  ids.zipIdx.foldl (fun scores p => addScore scores p.1 (rrf p.2)) scores

/-- `scores`: by id, what a result has in the two lists. -/
def fusedScores (vec text : List ι) : List (ι × ℚ) := addRanked (addRanked [] vec) text

/-- `ranked.sort_by`: by descending score, and what is equal in the order it had. -/
def rankScores (scores : List (ι × ℚ)) : List (ι × ℚ) :=
  scores.mergeSort fun a b => decide (b.2 ≤ a.2)

variable {α : Type*} (key : α → ι)

/-- A result with its score and its distance. -/
structure Fused (α : Type*) where
  row : α
  score : ℚ
  distance : ℚ
deriving DecidableEq, Repr

/-- The fusion: `by_id` has for each id the row that was seen first. -/
def fuse (order : IterationOrder (ι × ℚ)) (limit : ℕ) (vec text : List α) : List (Fused α) :=
  let scores := fusedScores (vec.map key) (text.map key)
  ((rankScores (order.of scores)).take limit).filterMap fun p =>
    ((vec ++ text).find? fun row => key row = p.1).map fun row =>
      { row := row, score := p.2, distance := 1 / p.2 }

/-- `search_hybrid`: the vector search may fail; a text search that fails gives nothing. -/
def searchHybrid (order : IterationOrder (ι × ℚ)) (similar text : ℕ → Option (List α))
    (limit : ℕ) : Option (List (Fused α)) :=
  (similar (rrfCandidates limit)).map fun vec =>
    fuse key order limit vec ((text (rrfCandidates limit)).getD [])

end Fusion

/-- `Database::search_hybrid`: of the vector search and the text search of the index. -/
def CodeDb.searchHybrid {R : Type} (order : IterationOrder (ℕ × ℚ))
    (similar text : ℕ → Option (List (ChunkRow R))) (limit : ℕ) :
    Option (List (Fused (ChunkRow R))) :=
  Spelunk.searchHybrid ChunkRow.id order similar text limit

/-- `MemoryStore::search_hybrid`: of the semantic search of the store and its text search. -/
def MemoryDb.searchHybrid {D : Type} [LinearOrder D] (knn : Knn (List UInt8) D)
    (text : ℕ → Option (List Note)) (order : IterationOrder (ℕ × ℚ)) (queryBlob : List UInt8)
    (limit : ℕ) (asOf : Option Int) (db : MemoryDb) : Option (List (Fused Note)) :=
  Spelunk.searchHybrid Note.id order
    (fun candidates => some ((search knn queryBlob candidates asOf db).map Prod.fst)) text limit

end Spelunk
