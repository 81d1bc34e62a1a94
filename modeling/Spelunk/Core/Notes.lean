import Mathlib.Data.List.Sort
import Spelunk.Core.MemoryStore

/-!
# Notes

Reading and writing single notes of the local store. Every insert stores the
content identity, and once the index on it is unique an insert of content that
is already there is refused by the index; `recoverFromEntityIdCollision` turns
that refusal into a merge with the row already there.

## Main definitions

* `Note`, `rowToNote`: A row as the commands see it.
* `allNotesForDedup`: Every note, oldest first.
* `unionTagsAndFiles`, `setSupersededBy`, `clearSupersededBy`, `archive`: Updates of one row.
* `addNote`, `addNoteWithCreatedAt`: Inserts that recover from a collision.
* `supersede`: Links two stored notes.
* `memorySupersede`: The command over it.
* `addNoteSuperseding`: Inserts a note and makes it the successor of another.
* `memoryAddSuperseding`: The command over it.
* `addEdge`: Records an edge of another kind.
-/

namespace Spelunk

open Lib (Sql SqlError)

/-- A row as the commands see it, its columns split into members. -/
structure Note where
  id : Nat
  kind : String
  title : String
  body : String
  tags : List String
  linkedFiles : List String
  createdAt : Int
  status : String
  supersededBy : Option Nat
  sourceRef : Option String
  validAt : Option Int
  invalidAt : Option Int
deriving DecidableEq, Repr

/-- The content identity of a note. -/
def noteEntityId [Sha256] (n : Note) : String :=
  entityId n.kind n.title n.body

def rowToNote (r : NoteRow) : Note where
  id := r.id
  kind := r.kind
  title := r.title
  body := r.body
  tags := splitCsv r.tags
  linkedFiles := splitCsv r.linkedFiles
  createdAt := r.createdAt
  status := r.status
  supersededBy := r.supersededBy
  sourceRef := r.sourceRef
  validAt := r.validAt
  invalidAt := r.invalidAt

/-- The order of `ORDER BY created_at ASC, id ASC`. -/
def olderRow (a b : NoteRow) : Prop :=
  a.createdAt < b.createdAt ∨ (a.createdAt = b.createdAt ∧ a.id ≤ b.id)

instance : DecidableRel olderRow := fun a b => by
  unfold olderRow
  infer_instance

/-- The rows of a store, oldest first. -/
def MemoryDb.rowsByAge (db : MemoryDb) : List NoteRow :=
  db.notes.insertionSort olderRow

/-- Every note of the store, oldest first. -/
def allNotesForDedup : Sql MemoryDb (List Note) :=
  Sql.query fun db => db.rowsByAge.map rowToNote

/-- The single row a `WHERE id = ?` query asks for. -/
def noteById (id : Nat) : Sql MemoryDb NoteRow := do
  match ← Sql.query (fun db => db.notes.find? (fun r => r.id = id)) with
  | some r => pure r
  | none => Sql.fail (.refused "Query returned no rows")

/-- Union members into a row's tags and files; answers whether the row changed. -/
def unionTagsAndFiles (noteId : Nat) (tags linkedFiles : List String) : Sql MemoryDb Bool := do
  let cur ← noteById noteId
  let mergedTags := unionCsv cur.tags tags
  let mergedFiles := unionCsv cur.linkedFiles linkedFiles
  if mergedTags = cur.tags ∧ mergedFiles = cur.linkedFiles then
    pure false
  else do
    let _ ← updateNotes (fun r => r.id = noteId)
      (fun r => { r with tags := mergedTags, linkedFiles := mergedFiles })
    pure true

def setSupersededBy (noteId successorId : Nat) : Sql MemoryDb Unit := do
  let _ ← updateNotes (fun r => r.id = noteId) (fun r => { r with supersededBy := some successorId })
  pure ()

def clearSupersededBy (noteId : Nat) : Sql MemoryDb Unit := do
  let _ ← updateNotes (fun r => r.id = noteId) (fun r => { r with supersededBy := none })
  pure ()

/-- Mark an active note archived; answers whether it was active. -/
def archive (id : Nat) : Sql MemoryDb Bool := do
  let changed ← updateNotes (fun r => r.id = id ∧ r.status = "active")
    (fun r => { r with status := "archived" })
  pure (0 < changed)

def deleteNote (noteId : Nat) : Sql MemoryDb Unit :=
  deleteNotes noteId

def deleteNoteEmbedding (noteId : Nat) : Sql MemoryDb Unit :=
  Sql.execute fun db => .ok { db with embeddings := db.embeddings.filter (fun e => e.1 ≠ noteId) }

/-- Delete every edge at a note, either end. -/
def deleteEdgesForNote (noteId : Nat) : Sql MemoryDb Unit :=
  Sql.execute fun db =>
    .ok { db with edges := db.edges.filter (fun e => ¬ (e.fromId = noteId ∨ e.toId = noteId)) }

/-- Bytes of one vector: 896 floats of four bytes. The virtual table refuses a
    blob of any other size. -/
def embeddingBytes : Nat := 896 * 4

/-- Replace a note's vector by delete and insert, in the caller's transaction. -/
def insertEmbedding (noteId : Nat) (blob : List UInt8) : Sql MemoryDb Unit := do
  deleteNoteEmbedding noteId
  Sql.execute fun db =>
    if blob.length ≠ embeddingBytes then .error (.refused "Dimension mismatch for inserted vector")
    else .ok { db with embeddings := db.embeddings ++ [(noteId, blob)] }

/-- The answer to an insert. A UNIQUE refusal means that content is stored
    already: that row gains the tags and files instead, and is what is
    returned, with `false` for "not created". -/
def recoverFromEntityIdCollision (insertResult : Except SqlError Nat) (entityId : String)
    (tags linkedFiles : List String) : Sql MemoryDb (Nat × Bool) := do
  match insertResult with
  | .ok id => pure (id, true)
  | .error .unique => do
      match ← Sql.query (fun db => db.notes.find? (fun r => r.entityId = some entityId)) with
      | some existing => do
          let _ ← unionTagsAndFiles existing.id tags linkedFiles
          pure (existing.id, false)
      | none => Sql.fail (.refused "Query returned no rows")
  | .error e => Sql.fail e

section Inserts

variable [Sha256]

/-- A row with the columns an insert leaves to their defaults. -/
def newRow (kind title body : String) (now : Int) : NoteRow where
  id := 0
  kind := kind
  title := title
  body := body
  tags := none
  linkedFiles := none
  createdAt := now
  status := "active"
  supersededBy := none
  sourceRef := none
  validAt := none
  invalidAt := none
  uuid := none
  remoteId := none
  entityId := some (entityId kind title body)

/-- Insert a note; `now` is the clock the schema's default reads. -/
def addNote (now : Int) (kind title body : String) (tags linkedFiles : List String)
    (sourceRef : Option String) (validAt : Option Int) : Sql MemoryDb (Nat × Bool) := do
  let result ← Sql.attempt (insertNote
    { newRow kind title body now with
      tags := some (joinCsv tags)
      linkedFiles := some (joinCsv linkedFiles)
      sourceRef := sourceRef
      validAt := validAt })
  recoverFromEntityIdCollision result (entityId kind title body) tags linkedFiles

/-- Insert a note recorded elsewhere, with its own time and status. -/
def addNoteWithCreatedAt (kind title body : String) (tags linkedFiles : List String)
    (sourceRef : Option String) (status : String) (createdAt : Int) :
    Sql MemoryDb (Nat × Bool) := do
  let result ← Sql.attempt (insertNote
    { newRow kind title body createdAt with
      tags := some (joinCsv tags)
      linkedFiles := some (joinCsv linkedFiles)
      sourceRef := sourceRef
      status := status })
  recoverFromEntityIdCollision result (entityId kind title body) tags linkedFiles

end Inserts

end Spelunk

namespace Spelunk

open Lib (Sql SqlError)

/-! ### Superseding

The operations that make one note the successor of another. Both archive the
old note and record the link and an edge in one transaction; neither asks
where the new note itself leads.
-/

/-- What superseding does to the old note's row. -/
def supersededRow (now : Int) (newId : Nat) (r : NoteRow) : NoteRow :=
  { r with
    status := "archived"
    supersededBy := some newId
    invalidAt := some (r.invalidAt.getD now) }

/-- Archive `oldId` and link it to `newId`; answers whether it was active. -/
def supersede (now : Int) (oldId newId : Nat) : Sql MemoryDb Bool :=
  Sql.transaction do
    let changed ← updateNotes (fun r => r.id = oldId ∧ r.status = "active")
      (supersededRow now newId)
    Sql.whenever (0 < changed) (insertEdge ⟨newId, oldId, .supersedes, now⟩)
    pure (0 < changed)

/-- `memory supersede`: the new note must exist, the old one be active. -/
def memorySupersede (now : Int) (oldId newId : Nat) : Sql MemoryDb Unit := do
  match ← Sql.query (fun db => db.notes.find? (fun r => r.id = newId)) with
  | none => Sql.fail (.refused s!"No memory entry with id {newId} (new).")
  | some _ => do
      let superseded ← supersede now oldId newId
      if superseded then pure ()
      else Sql.fail (.refused s!"No active memory entry with id {oldId} (old).")

/-- Insert an edge; an edge that is there already is left alone. -/
def addEdge (now : Int) (fromId toId : Nat) (kind : EdgeKind) : Sql MemoryDb Unit :=
  insertEdge ⟨fromId, toId, kind, now⟩

variable [Sha256]

/-- Insert a note, archive `supersedesId` and link it to the note. When the
    content is `supersedesId`'s own there is nothing to archive; when the old
    note is not active the whole transaction is undone. -/
def addNoteSuperseding (now : Int) (kind title body : String) (tags linkedFiles : List String)
    (validAt : Option Int) (supersedesId : Nat) : Sql MemoryDb (Nat × Bool) :=
  Sql.transaction do
    let result ← Sql.attempt (insertNote
      { newRow kind title body now with
        tags := some (joinCsv tags)
        linkedFiles := some (joinCsv linkedFiles)
        validAt := validAt })
    let (id, created) ← recoverFromEntityIdCollision result (entityId kind title body) tags
      linkedFiles
    if id = supersedesId then
      pure (id, created)
    else do
      let changed ← updateNotes (fun r => r.id = supersedesId ∧ r.status = "active")
        (supersededRow now id)
      if changed = 0 then
        Sql.fail (.refused s!"No active memory entry with id {supersedesId} (old).")
      else do
        insertEdge ⟨id, supersedesId, .supersedes, now⟩
        pure (id, created)

/-- `memory add --supersedes`: the old note must be active before anything is
    written. -/
def memoryAddSuperseding (now : Int) (kind title body : String) (tags linkedFiles : List String)
    (validAt : Option Int) (supersedesId : Nat) : Sql MemoryDb (Nat × Bool) := do
  match ← Sql.query (fun db => db.notes.find? (fun r => r.id = supersedesId)) with
  | some old =>
      if old.status = "active" then
        addNoteSuperseding now kind title body tags linkedFiles validAt supersedesId
      else Sql.fail (.refused s!"No active memory entry with id {supersedesId} (old).")
  | none => Sql.fail (.refused s!"No active memory entry with id {supersedesId} (old).")

end Spelunk
