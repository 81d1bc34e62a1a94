import Mathlib.Data.String.Basic
import Spelunk.Core.Notes

/-!
# Sync Support of the Local Store

Two identifiers bridge the local store and a server. `uuid` is this store's own
name for a row, sent as the entry's external id; `remote_id` is the server's
name for it, recorded when the server answers a push and when an entry is
pulled. The pull cursor is the greatest `remote_id` stored.

Fresh uuids come from a generator outside the store, so they are arguments.

## Main definitions

* `SyncRow`, `rowsForSync`: The rows a push looks at.
* `setRemoteId`: Records the server's name for a row.
* `applyRemoteNote`: Applies a pulled entry.
* `MemoryDb.maxRemoteId`: The pull cursor.
-/

namespace Spelunk

open Lib (Sql SqlError)

/-- A local row as a push sends it. -/
structure SyncRow where
  localId : Nat
  uuid : String
  remoteId : Option String
  kind : String
  title : String
  body : String
  sourceRef : Option String
  archived : Bool
deriving DecidableEq, Repr

/-- Give a row a uuid if it has none. -/
def ensureUuid (noteId : Nat) (fresh : String) : Sql MemoryDb Unit := do
  let _ ← updateNotes (fun r => r.id = noteId ∧ r.uuid = none)
    (fun r => { r with uuid := some fresh })
  pure ()

/-- A row with its uuid, as a push sends it. -/
def syncRow (r : NoteRow) : Option SyncRow :=
  r.uuid.map fun uuid =>
    { localId := r.id
      uuid := uuid
      remoteId := r.remoteId
      kind := r.kind
      title := r.title
      body := r.body
      sourceRef := r.sourceRef
      archived := r.status = "archived" }

/-- The rows a push looks at, oldest first, every one given a uuid; `fresh`
    supplies the new ones by rowid. -/
def rowsForSync (includeArchived : Bool) (fresh : Nat → String) : Sql MemoryDb (List SyncRow) := do
  let ids ← Sql.query fun db =>
    (db.rowsByAge.filter (fun r => includeArchived ∨ r.status = "active")).map (·.id)
  Sql.foldEach ids [] fun out id => do
    ensureUuid id (fresh id)
    let row ← Sql.query (fun db => db.notes.find? (fun r => r.id = id))
    pure (out ++ (row.bind syncRow).toList)

/-- Record the server's id for a row that has none. -/
def setRemoteId (noteId : Nat) (remoteId : String) : Sql MemoryDb Unit := do
  let _ ← updateNotes (fun r => r.id = noteId ∧ r.remoteId = none)
    (fun r => { r with remoteId := some remoteId })
  pure ()

/-- The row that carries a server id. -/
def noteIdForRemoteId (remoteId : String) : Sql MemoryDb (Option Nat) :=
  Sql.query fun db => (db.notes.find? (fun r => r.remoteId = some remoteId)).map (·.id)

/-- The row that carries a uuid. -/
def noteIdForUuid (uuid : String) : Sql MemoryDb (Option Nat) :=
  Sql.query fun db => (db.notes.find? (fun r => r.uuid = some uuid)).map (·.id)

/-- The pull cursor: `SELECT MAX(remote_id)`. -/
def MemoryDb.maxRemoteId (db : MemoryDb) : Option String :=
  (db.notes.filterMap (·.remoteId)).max?

variable [Sha256]

/-- Apply an entry pulled from the server; answers whether a row was created.
    An entry known by its server id is only archived, never changed otherwise;
    one whose content is stored adopts that row. -/
def applyRemoteNote (uuid remoteId kind title body : String) (sourceRef : Option String)
    (createdAt : Int) (archived : Bool) : Sql MemoryDb Bool := do
  match ← noteIdForRemoteId remoteId with
  | some existingId => do
      Sql.whenever archived (archive existingId)
      pure false
  | none =>
      Sql.transaction do
        let result ← Sql.attempt (insertNote
          { newRow kind title body createdAt with
            uuid := some uuid
            remoteId := some remoteId
            sourceRef := sourceRef
            status := if archived then "archived" else "active" })
        let (rowId, created) ← recoverFromEntityIdCollision result (entityId kind title body) [] []
        Sql.whenever (created = false) (do
          setRemoteId rowId remoteId
          Sql.whenever archived (archive rowId))
        pure created

end Spelunk
