import Spelunk.Lib.Sql

/-!
# Migrations of the Local Store

The ladder of ten migrations every open of a `memory.db` runs, on what the
migrations look at: which tables, columns, triggers and indexes there are, the
dimension `note_embeddings` is declared with, and `user_version`. Outside an
explicit transaction every statement commits on its own, and none of the ladder
is in one; `user_version` is stamped at the very end, so an interrupted run is
resumed from the version inferred from the shape it left.

Rows play one part: the index on the identities becomes unique only when no two
rows share one, once the backfill between the ladder and the promotion has
given every row its identity. An identity is computed from what a row says, so
no open changes whether two rows share one, and it is a flag here.

## Main definitions

* `SchemaObject`, `MemorySchema`: The shape of a store.
* `applyBaseMigration` to `applyNotesImportStateMigration`: The ten steps.
* `inferLegacyVersion`: The version a shape stands for.
* `runMigrations`: The ladder.
* `openSchema`: The ladder and the promotion of the identity index.
-/

namespace Spelunk

open Lib (Sql SqlError)

/-- An object a migration creates. Columns are those of `notes`. -/
inductive SchemaObject where
  | table (name : String)
  | column (name : String)
  | trigger (name : String)
  | index (name : String) (unique : Bool)
deriving DecidableEq, Repr

/-- The shape of a store. `embeddingDim` is the dimension of `note_embeddings`,
    `none` while there is no such table; `duplicates` says whether two rows share
    an identity. -/
structure MemorySchema where
  userVersion : Nat
  objects : List SchemaObject
  embeddingDim : Option Nat
  duplicates : Bool
deriving DecidableEq, Repr

/-- The version the ladder leads to. -/
def memorySchemaVersion : Nat := 10

namespace MemorySchema

def hasTable (s : MemorySchema) (name : String) : Bool := .table name ∈ s.objects

def notesHasColumn (s : MemorySchema) (name : String) : Bool := .column name ∈ s.objects

/-- An object of that name is there: the name of an index is taken by either
    kind of index. -/
def taken (s : MemorySchema) : SchemaObject → Bool
  | .index name _ => .index name true ∈ s.objects ∨ .index name false ∈ s.objects
  | o => o ∈ s.objects

/-- A shape with one more object. -/
def add (s : MemorySchema) (o : SchemaObject) : MemorySchema :=
  { s with objects := s.objects ++ [o] }

/-- No user tables. -/
def isFresh (s : MemorySchema) : Bool :=
  s.embeddingDim.isNone && s.objects.all (fun o => match o with
    | .table _ => false
    | _ => true)

end MemorySchema

/-- `CREATE`, with or without `IF NOT EXISTS`; `needs` is what the statement
    refers to. -/
def createObject (ifNotExists : Bool) (o : SchemaObject) (needs : List SchemaObject) :
    Sql MemorySchema Unit :=
  Sql.execute fun s =>
    if s.taken o then if ifNotExists then .ok s else .error (.refused "already exists")
    else if ∀ n ∈ needs, n ∈ s.objects then .ok (s.add o)
    else .error (.refused "no such table or column")

/-- `CREATE … IF NOT EXISTS`. -/
def createIfNotExists (o : SchemaObject) (needs : List SchemaObject) : Sql MemorySchema Unit :=
  createObject true o needs

/-- The refusal of an `ALTER TABLE ADD COLUMN` of a column that is there. -/
def duplicateColumn (name : String) : SqlError := .refused s!"duplicate column name: {name}"

/-- `ALTER TABLE notes ADD COLUMN`. -/
def alterAddColumn (name : String) : Sql MemorySchema Unit :=
  Sql.execute fun s =>
    if ¬ s.hasTable "notes" then .error (.refused "no such table: notes")
    else if s.notesHasColumn name then .error (duplicateColumn name)
    else .ok (s.add (.column name))

/-- `CREATE VIRTUAL TABLE note_embeddings`; `ifNotExists` as in the statement. -/
def createNoteEmbeddings (ifNotExists : Bool) : Sql MemorySchema Unit :=
  Sql.execute fun s =>
    if s.embeddingDim.isSome then
      if ifNotExists then .ok s else .error (.refused "table note_embeddings already exists")
    else .ok { s with embeddingDim := some 896 }

/-- `DROP TABLE IF EXISTS note_embeddings`. -/
def dropNoteEmbeddings : Sql MemorySchema Unit :=
  Sql.execute fun s => .ok { s with embeddingDim := none }

/-- `DROP INDEX IF EXISTS`. -/
def dropIndex (name : String) : Sql MemorySchema Unit :=
  Sql.execute fun s => .ok { s with
    objects := s.objects.filter (fun o => o ≠ .index name true ∧ o ≠ .index name false) }

/-- Filling the full-text index from the rows. -/
def populateFts : Sql MemorySchema Unit :=
  Sql.execute fun s =>
    if s.hasTable "memory_fts" ∧ s.hasTable "notes" then .ok s
    else .error (.refused "no such table")

/-- Add a column; only its being there already is tolerated. -/
def addColumnTolerant (name : String) : Sql MemorySchema Unit := do
  match ← Sql.attempt (alterAddColumn name) with
  | .ok _ => pure ()
  | .error e => if e = duplicateColumn name then pure () else Sql.fail e

def applyBaseMigration : Sql MemorySchema Unit := do
  createIfNotExists (.table "notes") []
  createNoteEmbeddings true

def applyLifecycleMigration : Sql MemorySchema Unit := do
  addColumnTolerant "status"
  addColumnTolerant "superseded_by"

def applySourceRefMigration : Sql MemorySchema Unit :=
  addColumnTolerant "source_ref"

def applyFtsMigration : Sql MemorySchema Unit := do
  createIfNotExists (.table "memory_fts") []
  populateFts
  createIfNotExists (.trigger "memory_fts_insert") [.table "notes"]
  createIfNotExists (.trigger "memory_fts_delete") [.table "notes"]
  createIfNotExists (.trigger "memory_fts_update") [.table "notes"]

def applyTemporalMigration : Sql MemorySchema Unit := do
  addColumnTolerant "valid_at"
  addColumnTolerant "invalid_at"
  createIfNotExists (.index "idx_memory_invalid_at" false) [.column "invalid_at"]

def applyEdgesMigration : Sql MemorySchema Unit := do
  createIfNotExists (.table "memory_edges") []
  createIfNotExists (.index "idx_memory_edges_from" false) [.table "memory_edges"]
  createIfNotExists (.index "idx_memory_edges_to" false) [.table "memory_edges"]

def applyUuidMigration : Sql MemorySchema Unit := do
  addColumnTolerant "uuid"
  addColumnTolerant "remote_id"
  createIfNotExists (.index "idx_notes_uuid" true) [.column "uuid"]
  createIfNotExists (.index "idx_notes_remote_id" true) [.column "remote_id"]

def applyEntityIdColumnMigration : Sql MemorySchema Unit := do
  addColumnTolerant "entity_id"
  createIfNotExists (.index "idx_notes_entity_id" false) [.column "entity_id"]

/-- Rebuild `note_embeddings` when it has the old dimension, and leave a marker
    table behind. -/
def applyDimUpgradeMigration : Sql MemorySchema Unit := do
  let alreadyV896 ← Sql.query (fun s => s.hasTable "schema_v896_note_embeddings")
  if alreadyV896 then
    pure ()
  else do
    let needsUpgrade ← Sql.query (fun s => decide (s.embeddingDim = some 768))
    Sql.whenever needsUpgrade (do
      dropNoteEmbeddings
      createNoteEmbeddings false)
    createIfNotExists (.table "schema_v896_note_embeddings") []

def applyNotesImportStateMigration : Sql MemorySchema Unit :=
  createIfNotExists (.table "notes_import_state") []

/-- The steps with the version each leads to. -/
def migrationSteps : List (Nat × Sql MemorySchema Unit) :=
  [(1, applyBaseMigration), (2, applyLifecycleMigration), (3, applySourceRefMigration),
    (4, applyFtsMigration), (5, applyTemporalMigration), (6, applyEdgesMigration),
    (7, applyUuidMigration), (8, applyEntityIdColumnMigration), (9, applyDimUpgradeMigration),
    (10, applyNotesImportStateMigration)]

/-- What each version is recognized by. -/
def MemorySchema.ladder (s : MemorySchema) : List (Nat × Bool) :=
  [(1, s.hasTable "notes"),
    (2, s.notesHasColumn "status" ∧ s.notesHasColumn "superseded_by"),
    (3, s.notesHasColumn "source_ref"),
    (4, s.hasTable "memory_fts"),
    (5, s.notesHasColumn "valid_at" ∧ s.notesHasColumn "invalid_at"),
    (6, s.hasTable "memory_edges"),
    (7, s.notesHasColumn "uuid" ∧ s.notesHasColumn "remote_id"),
    (8, s.notesHasColumn "entity_id"),
    (9, s.hasTable "schema_v896_note_embeddings"),
    (10, s.hasTable "notes_import_state")]

/-- The highest version whose predicate and all lower ones hold. -/
def MemorySchema.inferLegacyVersion (s : MemorySchema) : Nat :=
  (((s.ladder.takeWhile (·.2)).getLast?).map (·.1)).getD 0

/-- Run every step above the version of the store, then stamp the version. -/
def runMigrations : Sql MemorySchema Unit := do
  let userVersion ← Sql.query (·.userVersion)
  if memorySchemaVersion < userVersion then
    Sql.fail (.refused s!"memory.db schema version {userVersion} is newer than this build of spelunk supports (max {memorySchemaVersion}); upgrade spelunk to open this store.")
  else do
    let version ← Sql.query (fun s =>
      if userVersion = 0 ∧ ¬ s.isFresh then s.inferLegacyVersion else userVersion)
    Sql.forEach migrationSteps fun step => Sql.whenever (version < step.1) step.2
    Sql.execute fun s => .ok { s with userVersion := memorySchemaVersion }

/-- Make the index on the identities unique, unless it is or rows share one. -/
def promoteIndex : Sql MemorySchema Unit := do
  let already ← Sql.query (fun s => s.hasTable "schema_entity_id_unique")
  if already then
    pure ()
  else do
    let duplicates ← Sql.query (·.duplicates)
    if duplicates then
      pure ()
    else do
      dropIndex "idx_notes_entity_id"
      createObject false (.index "idx_notes_entity_id" true) [.column "entity_id"]
      createIfNotExists (.table "schema_entity_id_unique") []

/-- What an open does to the shape of a store; the backfill of the identities,
    between the two, only writes rows. -/
def openSchema : Sql MemorySchema Unit := do
  runMigrations
  promoteIndex

end Spelunk
