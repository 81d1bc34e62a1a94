import Spelunk.Core.Notes
import Spelunk.Lib.Grouping

/-!
# Reconciling with a Server Store

`memory reconcile` imports the notes of a project's `server.db` that the local
store lacks. Candidates of one identity fold into one entry first; an entry the
local store has gives it its tags and files; the others are inserted in one
transaction, and only then are their supersede links set, which lead from
content to content because the two stores number their rows independently.

Vectors are computed by an embedding server before the transaction; what it
answers for a text, if anything, is a parameter.

## Main definitions

* `ServerNote`: A candidate.
* `MergedNote`, `absorb`, `collapseCandidates`: Candidates of one identity folded.
* `buildSupersedeEdges`: Which identity supersedes which.
* `mergePresent`, `importBatch`, `linkImported`: The three writing phases.
* `reconcileProject`: The command for one project.
-/

namespace Spelunk

open Lib (Sql SqlError)

/-- A row read from `server.db`. `id` and `supersededBy` are the server's
    rowids; `tags` and `linkedFiles` are its raw columns. -/
structure ServerNote where
  id : Nat
  kind : String
  title : String
  body : String
  tags : String
  linkedFiles : String
  createdAt : Int
  status : String
  supersededBy : Option Nat
deriving DecidableEq, Repr

/-- Candidates of one identity, folded. -/
structure MergedNote where
  entityId : String
  kind : String
  title : String
  body : String
  tags : List String
  linkedFiles : List String
  createdAt : Int
  status : String
  rows : Nat
deriving DecidableEq, Repr

/-- Members not there yet, appended in order. -/
def appendMissing (present incoming : List String) : List String :=
  incoming.foldl (fun present t => if t ∈ present then present else present ++ [t]) present

variable [Sha256]

def ServerNote.entityId (c : ServerNote) : String :=
  Spelunk.entityId c.kind c.title c.body

def MergedNote.fromServer (c : ServerNote) : MergedNote where
  entityId := c.entityId
  kind := c.kind
  title := c.title
  body := c.body
  tags := splitCsv (some c.tags)
  linkedFiles := splitCsv (some c.linkedFiles)
  createdAt := c.createdAt
  status := c.status
  rows := 1

omit [Sha256] in
/-- Fold one more candidate in: tags and files are united, an archive on any row
    sticks, the earliest time wins. -/
def MergedNote.absorb (m : MergedNote) (c : ServerNote) : MergedNote :=
  { m with
    tags := appendMissing m.tags (splitCsv (some c.tags))
    linkedFiles := appendMissing m.linkedFiles (splitCsv (some c.linkedFiles))
    status := if c.status = "archived" then "archived" else m.status
    createdAt := min m.createdAt c.createdAt
    rows := m.rows + 1 }

/-- One entry for each identity, in order of first encounter. -/
def collapseCandidates (candidates : List ServerNote) : List MergedNote :=
  (Lib.groupBy ServerNote.entityId candidates).filterMap fun group =>
    match group.2 with
    | first :: rest => some (rest.foldl MergedNote.absorb (MergedNote.fromServer first))
    | [] => none

/-- The candidate a server rowid names; of two with one rowid the later. -/
def candidateByServerId (candidates : List ServerNote) (id : Nat) : Option ServerNote :=
  candidates.reverse.find? (fun c => c.id = id)

/-- Identity to its successor's identity. The first candidate whose successor is
    a candidate decides for its identity. -/
def buildSupersedeEdges (candidates : List ServerNote) : List (String × String) :=
  candidates.filterMap fun c =>
    (c.supersededBy.bind (candidateByServerId candidates)).map
      (fun succ => (c.entityId, succ.entityId))

/-- The order `sort_by_key(created_at)` puts entries in: stable, by time. -/
def byCreatedAt (l : List MergedNote) : List MergedNote :=
  l.insertionSort (fun a b => a.createdAt ≤ b.createdAt)

/-- The counts one project reports. -/
structure ReconcileSummary where
  candidates : Nat
  alreadyPresent : Nat
  collapsedDuplicates : Nat
  imported : Nat
  wouldImport : Nat
  importedWithoutEmbedding : Nat
  skippedArchivedSupersedeUnresolved : Nat
deriving DecidableEq, Repr

/-- Insert the entries, each with its vector if there is one, and answer their
    rowids. Archived entries stay archived; every other status is active. -/
def importBatch (notes : List (MergedNote × Option (List UInt8))) : Sql MemoryDb (List Nat) :=
  Sql.transaction (Sql.foldEach notes [] fun ids note => do
    let status := if note.1.status = "archived" then "archived" else "active"
    let (id, _) ← addNoteWithCreatedAt note.1.kind note.1.title note.1.body note.1.tags
      note.1.linkedFiles (some "reconcile:server.db") status note.1.createdAt
    match note.2 with
    | some blob => do
        insertEmbedding id blob
        pure (ids ++ [id])
    | none => pure (ids ++ [id]))

omit [Sha256] in
/-- The successor's row of an imported entry, if a link is to be set: `none` for
    no link, `some none` for a successor that is not in the store. -/
def successorLink (edges : List (String × String)) (entityToLocal : String → Option Nat)
    (note : MergedNote) (localId : Nat) : Option (Option Nat) :=
  if note.status ≠ "archived" then none
  else
    match edges.lookup note.entityId with
    | none => none
    | some succEntityId =>
        match entityToLocal succEntityId with
        | none => some none
        | some succLocalId => if succLocalId = localId then none else some (some succLocalId)

/-- The local row of each identity: the oldest. -/
def entityToLocal (existing : List Note) (e : String) : Option Nat :=
  (existing.find? (fun n => noteEntityId n = e)).map (·.id)

omit [Sha256] in
/-- Entries with their vectors; `none` where the embedding server gave none. -/
def embedEntries (embed : String → Option (List UInt8)) (entries : List MergedNote) :
    List (MergedNote × Option (List UInt8)) :=
  entries.map (fun m => (m, embed s!"title: {m.title} | text: {m.body}"))

omit [Sha256] in
def countWithoutEmbedding (entries : List (MergedNote × Option (List UInt8))) : Nat :=
  entries.countP (fun e => e.2.isNone)

omit [Sha256] in
/-- The row an identity was imported as. -/
def importedRow (imported : List (MergedNote × Nat)) (e : String) : Option Nat :=
  (imported.reverse.find? (fun p => p.1.entityId = e)).map (·.2)

omit [Sha256] in
/-- The entries the store has, in order of first encounter. -/
def presentEntries (localOf : String → Option Nat) (merged : List MergedNote) : List MergedNote :=
  merged.filter (fun m => (localOf m.entityId).isSome)

omit [Sha256] in
/-- The entries it lacks, oldest first. -/
def entriesToImport (localOf : String → Option Nat) (merged : List MergedNote) : List MergedNote :=
  byCreatedAt (merged.filter (fun m => (localOf m.entityId).isNone))

omit [Sha256] in
/-- Every present row gains the tags and files of its entry. A failure is only
    warned about. -/
def mergePresent (localOf : String → Option Nat) (present : List MergedNote) : Sql MemoryDb Unit :=
  Sql.forEach present fun m =>
    match localOf m.entityId with
    | none => pure ()
    | some localId => do
        let _ ← Sql.attempt (unionTagsAndFiles localId m.tags m.linkedFiles)
        pure ()

omit [Sha256] in
/-- Link every imported row to its successor and count the links that could not
    be set. A failure is only warned about. -/
def linkImported (edges : List (String × String)) (localOf : String → Option Nat)
    (imported : List (MergedNote × Nat)) : Sql MemoryDb Nat :=
  Sql.foldEach imported 0 fun unresolved p =>
    match successorLink edges localOf p.1 p.2 with
    | none => pure unresolved
    | some none => pure (unresolved + 1)
    | some (some succLocalId) => do
        match ← Sql.attempt (setSupersededBy p.2 succLocalId) with
        | .ok _ => pure unresolved
        | .error _ => pure (unresolved + 1)

/-- Reconcile one project into an opened store. `embed` is what the embedding
    server answers for a text. -/
def reconcileProject (candidates : List ServerNote) (embed : String → Option (List UInt8))
    (dryRun : Bool) : Sql MemoryDb ReconcileSummary := do
  let summary : ReconcileSummary := ⟨candidates.length, 0, 0, 0, 0, 0, 0⟩
  if candidates = [] then
    pure summary
  else do
    let existing ← allNotesForDedup
    let localOf := entityToLocal existing
    let merged := collapseCandidates candidates
    let present := presentEntries localOf merged
    let toImport := entriesToImport localOf merged
    let summary := { summary with
      alreadyPresent := (present.map (·.rows)).sum
      collapsedDuplicates := (toImport.map (fun m => m.rows - 1)).sum }
    if dryRun then
      pure { summary with wouldImport := toImport.length }
    else do
      mergePresent localOf present
      if toImport = [] then
        pure summary
      else do
        let embedded := embedEntries embed toImport
        let summary := { summary with
          importedWithoutEmbedding := countWithoutEmbedding embedded }
        let importedIds ← importBatch embedded
        let imported := toImport.zip importedIds
        let unresolved ← linkImported (buildSupersedeEdges candidates)
          (fun e => (importedRow imported e).or (localOf e)) imported
        pure { summary with
          imported := importedIds.length
          skippedArchivedSupersedeUnresolved := unresolved }

end Spelunk
