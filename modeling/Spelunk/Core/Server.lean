import Mathlib.Data.String.Basic
import Spelunk.Core.Csv
import Spelunk.Lib.Sql

/-!
# The Team Server's Store

The tables of the server's database that the memory routes read and write, and
the operations on them. One server hosts several projects. A row has two names
across the wire: `remote_id`, the pushing client's own external id, unique within
a project whether the row is live or archived; and `sync_id`, minted by the
server for every insert, by which clients page through what arrived.

As in the local store, a statement takes effect only if the store then satisfies
every constraint of the schema. The relationship edges the single-note route adds
are left out: they cascade with their notes and nothing here reads them.

## Main definitions

* `SyncClock`: The generator of `sync_id`s.
* `ServerRow`, `Project`, `ServerDb`: The tables.
* `Server.upsertProject`, `Server.addNote`, `Server.findByRemoteIds`: What a push uses.
* `Server.archiveNote`, `Server.supersedeNote`, `Server.deleteNote`: The other writes.
* `Server.notesSinceId`: One page of what arrived after a cursor.
-/

namespace Spelunk

open Lib (Sql SqlError)

/-- The generator of time-ordered ids: the next id is above the last one minted. -/
class SyncClock where
  nowV7 : String → String
  lt_nowV7 : ∀ last, last < nowV7 last

/-- The id below every minted one, where a first pull starts. -/
def nilCursor : String := "00000000-0000-0000-0000-000000000000"

/-- A row of the server's `notes`. The column `sync_id` admits NULL, but every
    insert writes one and every open of the database fills in those before it. -/
@[ext] structure ServerRow where
  id : Nat
  projectId : Nat
  kind : String
  title : String
  body : String
  tags : Option String
  linkedFiles : Option String
  createdAt : Int
  status : String
  supersededBy : Option Nat
  remoteId : Option String
  syncId : String
deriving DecidableEq, Repr

/-- A row of `projects`; a dimension of 0 is one not recorded yet. -/
structure Project where
  id : Nat
  slug : String
  embeddingDim : Nat
  embeddingModel : Option String
deriving DecidableEq, Repr

/-- The server's database. Vectors are lists of the bits of their coordinates, all
    of the one dimension the vector table is declared with; `lastSyncId` is the
    last `sync_id` minted. -/
structure ServerDb where
  projects : List Project
  notes : List ServerRow
  embeddings : List (Nat × List UInt32)
  vectorDim : Nat
  nextProjectId : Nat
  nextId : Nat
  lastSyncId : String
deriving DecidableEq, Repr

namespace ServerRow

/-- The column pair of the unique index on external ids. -/
def externalKey (r : ServerRow) : Option (Nat × String) := r.remoteId.map (r.projectId, ·)

/-- A row a pull or a push finds. -/
def live (r : ServerRow) : Bool := r.status = "active"

end ServerRow

namespace ServerDb

/-- The primary keys and the unique indexes. -/
def UniqueOk (db : ServerDb) : Prop :=
  (db.notes.map (·.id)).Nodup ∧ (db.notes.filterMap (·.externalKey)).Nodup ∧
    (db.notes.map (·.syncId)).Nodup ∧ (db.projects.map (·.id)).Nodup ∧
    (db.projects.map (·.slug)).Nodup

instance (db : ServerDb) : Decidable db.UniqueOk := by
  unfold UniqueOk
  infer_instance

/-- The foreign keys: the project of a note, and its successor. -/
def ForeignKeysOk (db : ServerDb) : Prop :=
  ∀ n ∈ db.notes, n.projectId ∈ db.projects.map (·.id) ∧
    ∀ v ∈ n.supersededBy, v ∈ db.notes.map (·.id)

instance (db : ServerDb) : Decidable db.ForeignKeysOk := by
  unfold ForeignKeysOk
  infer_instance

/-- The outcome of a statement that would leave `db` behind. -/
def checked {α : Type} (a : α) (db : ServerDb) : Except SqlError (α × ServerDb) :=
  if ¬ db.UniqueOk then .error .unique
  else if ¬ db.ForeignKeysOk then .error .foreignKey
  else .ok (a, db)

/-- The row of a project by its slug. -/
def getProject (db : ServerDb) (slug : String) : Option Project :=
  db.projects.find? (fun p => p.slug = slug)

end ServerDb

/-- The database a server creates that embeds with `embeddingDim` coordinates. -/
def emptyServer (embeddingDim : Nat) : ServerDb where
  projects := []
  notes := []
  embeddings := []
  vectorDim := embeddingDim
  nextProjectId := 1
  nextId := 1
  lastSyncId := nilCursor

namespace Server

/-- `UPDATE projects SET … WHERE id = ?`. -/
def updateProject (id : Nat) (f : Project → Project) : Sql ServerDb Unit :=
  Sql.statement fun db => ServerDb.checked ()
    { db with projects := db.projects.map (fun p => if p.id = id then f p else p) }

/-- `INSERT INTO projects`. -/
def insertProject (slug : String) (dim : Nat) (model : String) : Sql ServerDb Project :=
  Sql.statement fun db =>
    let p : Project :=
      { id := db.nextProjectId, slug := slug, embeddingDim := dim, embeddingModel := some model }
    ServerDb.checked p
      { db with projects := db.projects ++ [p], nextProjectId := db.nextProjectId + 1 }

/-- The refusal of a write whose vectors have another dimension than the project's. -/
def dimensionMismatch (slug : String) (expected got : Nat) : SqlError :=
  .refused s!"embedding dimension mismatch for project '{slug}': server expects {expected}, got {got}. All clients on the same project must use the same embedding model."

/-- The refusal of a write by another model than the project's. -/
def modelMismatch (slug expected got : String) : SqlError :=
  .refused s!"embedding model mismatch for project '{slug}': server expects '{expected}', got '{got}'. All clients on the same project must use the same embedding model; a model change requires a deliberate re-index."

/-- Get the project or create it; dimension and model are checked against those
    recorded and recorded on the first write. -/
def upsertProject (slug : String) (incomingDim : Nat) (incomingModel : String) :
    Sql ServerDb Project := do
  match ← Sql.query (·.getProject slug) with
  | none => insertProject slug incomingDim incomingModel
  | some p => do
      if p.embeddingDim ≠ 0 ∧ p.embeddingDim ≠ incomingDim then
        Sql.fail (dimensionMismatch slug p.embeddingDim incomingDim)
      else if ∃ recorded ∈ p.embeddingModel, recorded ≠ incomingModel then
        Sql.fail (modelMismatch slug (p.embeddingModel.getD "") incomingModel)
      else do
        Sql.whenever (p.embeddingDim = 0)
          (updateProject p.id (fun q => { q with embeddingDim := incomingDim }))
        Sql.whenever (p.embeddingModel = none)
          (updateProject p.id (fun q => { q with embeddingModel := some incomingModel }))
        pure { p with
          embeddingDim := if p.embeddingDim = 0 then incomingDim else p.embeddingDim
          embeddingModel := some (p.embeddingModel.getD incomingModel) }

/-- `INSERT INTO note_embeddings`: the table has one dimension. -/
def insertEmbedding (noteId : Nat) (vec : List UInt32) : Sql ServerDb Unit :=
  Sql.execute fun db =>
    if vec.length ≠ db.vectorDim then .error (.refused "Dimension mismatch")
    else if db.embeddings.any (fun e => e.1 = noteId) then .error .unique
    else .ok { db with embeddings := db.embeddings ++ [(noteId, vec)] }

variable [SyncClock]

/-- `INSERT INTO notes`; answers the rowid and the minted `sync_id`. -/
def insertRow (r : ServerRow) : Sql ServerDb (Nat × String) :=
  Sql.statement fun db =>
    let syncId := SyncClock.nowV7 db.lastSyncId
    ServerDb.checked (db.nextId, syncId)
      { db with
        notes := db.notes ++ [{ r with id := db.nextId, syncId := syncId }]
        nextId := db.nextId + 1
        lastSyncId := syncId }

/-- The one insert path of all routes. -/
def addNote (now : Int) (projectId : Nat) (kind title body : String) (tags linkedFiles : List String)
    (embedding : Option (List UInt32)) (remoteId : Option String) : Sql ServerDb (Nat × String) := do
  let (noteId, syncId) ← insertRow
    { id := 0
      projectId := projectId
      kind := kind
      title := title
      body := body
      tags := if tags = [] then none else some (joinCsv tags)
      linkedFiles := if linkedFiles = [] then none else some (joinCsv linkedFiles)
      createdAt := now
      status := "active"
      supersededBy := none
      remoteId := remoteId
      syncId := "" }
  match embedding with
  | some vec => insertEmbedding noteId vec
  | none => pure ()
  pure (noteId, syncId)

/-- The `sync_id`s of the live rows of a project by their external ids; of two
    rows with one external id the later would count. -/
def findByRemoteIds (projectId : Nat) (remoteIds : List String) :
    Sql ServerDb (List (String × String)) :=
  if remoteIds = [] then pure []
  else
    Sql.query fun db =>
      (db.notes.filter (fun r => r.projectId = projectId ∧ r.live)).reverse.filterMap (fun r =>
        (r.remoteId.filter (· ∈ remoteIds)).map (·, r.syncId))

/-- Archive a live row of the project. -/
def archiveNote (projectId noteId : Nat) : Sql ServerDb Bool :=
  Sql.statement fun db =>
    let hit := fun r : ServerRow => decide (r.id = noteId ∧ r.projectId = projectId ∧ r.live = true)
    ServerDb.checked (db.notes.any hit)
      { db with notes := db.notes.map (fun r => if hit r then { r with status := "archived" } else r) }

/-- Archive a live row of the project under a successor. -/
def supersedeNote (projectId oldId newId : Nat) : Sql ServerDb Bool :=
  Sql.statement fun db =>
    let hit := fun r : ServerRow => decide (r.id = oldId ∧ r.projectId = projectId ∧ r.live = true)
    ServerDb.checked (db.notes.any hit)
      { db with notes := db.notes.map (fun r =>
          if hit r then { r with status := "archived", supersededBy := some newId } else r) }

/-- Delete a row of the project with its vector. -/
def deleteNote (projectId noteId : Nat) : Sql ServerDb Bool := do
  Sql.execute fun db => .ok { db with embeddings := db.embeddings.filter (fun e => e.1 ≠ noteId) }
  Sql.statement fun db =>
    let hit := fun r : ServerRow => decide (r.id = noteId ∧ r.projectId = projectId)
    ServerDb.checked (db.notes.any hit) { db with notes := db.notes.filter (fun r => ¬ hit r) }

end Server

end Spelunk
