import Spelunk.Core.Rag
import Spelunk.Lib.FirstOfKey

/-!
# Searching Linked Projects

A search over the index of a project and those of the projects it is linked to: every index
is searched for itself, the results are merged by distance, and what governs them and, if
that is asked for, their neighbours in the graph are looked up in the primary index.

What `linearrag_search` finds in an index is an argument here. A distance is a rational, and
a path in a registry comes with its display name.

## Main definitions

* `ProjectIndex`, `LinkedProject`: The indexes.
* `SearchArgs`: What is asked for.
* `specsForFiles`: The specs that govern files.
* `searchAllDbsLinearrag`: The merged results.
* `graphEnrich`: The results with their neighbours.
-/

namespace Spelunk

/-- A chunk that an index found, with its distance. -/
structure Hit (R : Type) where
  row : ChunkRow R
  distance : ℚ

/-- A row of `spec_links` with its spec. -/
structure SpecLink where
  path : String
  title : String
  linkedPath : String
deriving DecidableEq, Repr

/-- An index: whether it opens, and what is found in it for so many results, unless the search fails;
    that is chunks of it. -/
structure ProjectIndex (R : Type) where
  db : CodeDb R
  specLinks : List SpecLink
  opens : Bool
  linearrag : ℕ → Option (List (Hit R))
  nodup_ids : (db.chunks.map ChunkRow.id).Nodup
  filed : ∀ c ∈ db.chunks, c.path ∈ db.paths
  found : ∀ n hits, linearrag n = some hits → ∀ hit ∈ hits, hit.row ∈ db.chunks

/-- A project of the registry. -/
structure LinkedProject (R : Type) where
  displayName : String
  rootPath : String
  index : ProjectIndex R

/-- The flags of a search. -/
structure SearchArgs where
  mode : String
  limit : ℕ
  budget : Option ℕ
  graphLimit : ℕ
  noStaleCheck : Bool
  localOnly : Bool

namespace SearchArgs

/-- How many results the merge is asked for. -/
def fetchLimit (args : SearchArgs) : ℕ :=
  match args.budget with
  | some budget => max 20 (min (budget / 50) 100)
  | none => min args.limit 100

/-- The linked projects that are searched. -/
def deps {R : Type} (args : SearchArgs) (linked : List (LinkedProject R)) :
    List (LinkedProject R) :=
  if args.localOnly then [] else linked

end SearchArgs

/-- A result. -/
structure SearchResult (R : Type) where
  hit : Hit R
  fromGraph : Bool
  governingSpecs : List String
  projectName : Option String
  projectPath : Option String

namespace SearchResult

variable {R : Type}

/-- A result as an index gives it. -/
def ofHit (hit : Hit R) : SearchResult R := ⟨hit, false, [], none, none⟩

/-- The path and the lines, by which results are told apart. -/
def place (r : SearchResult R) : String × ℕ × ℕ :=
  (r.hit.row.path, r.hit.row.startLine, r.hit.row.endLine)

end SearchResult

/-- `specs_for_files`: the specs with their titles, each once. -/
def specsForFiles (links : List SpecLink) (filePaths : List String) : List (String × String) :=
  Lib.keepFirst Prod.fst [] ((links.filter fun l => filePaths.any fun fp =>
    l.linkedPath.toList.isPrefixOf fp.toList || decide (fp = l.linkedPath)).map
      fun l => (l.path, l.title))

section Search

variable {R : Type}

/-- How many results each index is asked for. -/
def fetchEach (limit : ℕ) : ℕ := max (limit * 2) (limit + 10)

/-- What an index gives; where it cannot be opened or searched, nothing. -/
def ProjectIndex.hits (index : ProjectIndex R) (limit : ℕ) : List (Hit R) :=
  if index.opens then (index.linearrag (fetchEach limit)).getD [] else []

def annotateDepResults (results : List (SearchResult R)) (projectName projectPath : String) :
    List (SearchResult R) :=
  results.map fun r => { r with projectName := some projectName, projectPath := some projectPath }

/-- `annotate_specs`: with the specs of the primary index. -/
def annotateSpecs (primary : ProjectIndex R) (all : List (SearchResult R)) :
    List (SearchResult R) :=
  if specsForFiles primary.specLinks (all.map fun r => r.hit.row.path) ≠ [] then
    all.map fun r =>
      { r with governingSpecs := (specsForFiles primary.specLinks [r.hit.row.path]).map Prod.fst }
  else all

/-- `search_all_dbs_linearrag`; `none` where the primary index does not open. -/
def searchAllDbsLinearrag (primary : ProjectIndex R) (deps : List (LinkedProject R))
    (limit : ℕ) : Option (List (SearchResult R)) :=
  if primary.opens then
    let all := (primary.hits limit).map SearchResult.ofHit ++ deps.flatMap fun dep =>
      annotateDepResults ((dep.index.hits limit).map SearchResult.ofHit) dep.displayName
        dep.rootPath
    let sorted := all.mergeSort fun a b => decide (a.hit.distance ≤ b.hit.distance)
    some (annotateSpecs primary ((Lib.keepFirst SearchResult.place [] sorted).take limit))
  else none

/-- The results that the graph of the primary index adds. -/
def graphExtra (primary : ProjectIndex R) (graphLimit : ℕ) (results : List (SearchResult R)) :
    List (SearchResult R) :=
  let seenIds := results.map fun r => r.hit.row.id
  let names := results.filterMap fun r => r.hit.row.name
  let newIds := ((Bound.graphNeighborChunks primary.db names).answer.filter (· ∉ seenIds)).take
    graphLimit
  (Bound.chunksByIds primary.db (newIds.map Int.ofNat)).answer.map fun row =>
    { SearchResult.ofHit ⟨row, 0⟩ with fromGraph := true }

/-- The results with their neighbours. -/
def graphEnrich (primary : ProjectIndex R) (graphLimit : ℕ) (results : List (SearchResult R)) :
    List (SearchResult R) :=
  results ++ graphExtra primary graphLimit results

end Search

end Spelunk
