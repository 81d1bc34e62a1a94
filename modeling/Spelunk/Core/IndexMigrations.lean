import Spelunk.Lib.Sql

/-!
# Migrations of the Code Index

The ladder of fifteen migrations every open of an `index.db` runs, on what the
migrations look at: the tables, columns, triggers and indexes there are, the column
type of the vector table, which chunks are stored and which are in the full-text
index, and `user_version`. Every statement commits on its own, and `user_version` is
stamped at the very end; where it is still 0 the version is inferred from the shape,
by one object for each step.

The full-text table keeps no copy of what it indexes: a plain SELECT of its rowids
lists the chunks.

## Main definitions

* `IndexObject`, `IndexDb`: The shape of an index.
* `IndexDb.inferLegacyVersion`: The version a shape stands for.
* `indexMigrations`: The fifteen steps.
* `openIndex`: The ladder.
-/

namespace Spelunk

open Lib (Sql SqlError)

/-- An object a migration creates; the vector table aside. -/
inductive IndexObject where
  | table (name : String)
  | column (table name : String)
  | trigger (name : String)
  | index (name : String)
deriving DecidableEq, Repr

/-- The column type of the vector table. -/
inductive VectorColumn where
  | float
  | int8
deriving DecidableEq, Repr

/-- An `index.db`. `embeddings` is the vector table, where there is one; `ftsRows` are
    the rowids the full-text index has entries for. -/
structure IndexDb where
  userVersion : Int
  objects : List IndexObject
  embeddings : Option VectorColumn
  chunks : List Nat
  ftsRows : List Nat
deriving DecidableEq, Repr

/-- The version the ladder leads to. -/
def currentSchemaVersion : Int := 15

namespace IndexDb

def hasTable (db : IndexDb) (name : String) : Bool := .table name ∈ db.objects

def hasIndex (db : IndexDb) (name : String) : Bool := .index name ∈ db.objects

def chunksHasColumn (db : IndexDb) (name : String) : Bool := .column "chunks" name ∈ db.objects

def filesHasColumn (db : IndexDb) (name : String) : Bool := .column "files" name ∈ db.objects

/-- An index with one more object. -/
def add (db : IndexDb) (o : IndexObject) : IndexDb := { db with objects := db.objects ++ [o] }

/-- No user tables. -/
def isFreshDb (db : IndexDb) : Bool :=
  db.embeddings.isNone && db.objects.all (fun o => match o with
    | .table _ => false
    | _ => true)

/-- What each version is recognized by. -/
def ladder (db : IndexDb) : List (Int × Bool) :=
  [(1, db.hasTable "chunks"),
    (2, db.embeddings.isSome),
    (3, db.hasTable "graph_edges"),
    (4, db.hasTable "specs"),
    (5, db.hasTable "chunks_fts"),
    (6, db.chunksHasColumn "token_count"),
    (7, db.chunksHasColumn "graph_rank"),
    (8, db.chunksHasColumn "summary"),
    (9, db.hasTable "usage"),
    (10, db.hasIndex "graph_edges_source_name_kind"),
    (11, db.hasTable "conventions"),
    (12, db.hasTable "schema_int8_embeddings"),
    (13, !db.hasTable "snapshots"),
    (14, db.hasTable "index_meta"),
    (15, db.filesHasColumn "mtime")]

/-- The highest version whose predicate and all lower ones hold. -/
def inferLegacyVersion (db : IndexDb) : Int :=
  (((db.ladder.takeWhile (·.2)).getLast?).map (·.1)).getD 0

end IndexDb

/-- `CREATE … IF NOT EXISTS`; `needs` is what the statement refers to. -/
def createIndexObject (o : IndexObject) (needs : List IndexObject) : Sql IndexDb Unit :=
  Sql.execute fun db =>
    if o ∈ db.objects then .ok db
    else if ∀ n ∈ needs, n ∈ db.objects then .ok (db.add o)
    else .error (.refused "no such table")

/-- A file of such statements. -/
def createAll (l : List (IndexObject × List IndexObject)) : Sql IndexDb Unit :=
  Sql.forEach l (fun p => createIndexObject p.1 p.2)

/-- The refusal of an `ALTER TABLE ADD COLUMN` of a column that is there. -/
def duplicateColumnName (name : String) : SqlError := .refused s!"duplicate column name: {name}"

/-- `ALTER TABLE ADD COLUMN`. -/
def addColumn (table name : String) : Sql IndexDb Unit :=
  Sql.execute fun db =>
    if ¬ db.hasTable table then .error (.refused s!"no such table: {table}")
    else if .column table name ∈ db.objects then .error (duplicateColumnName name)
    else .ok (db.add (.column table name))

/-- Add a column; only its being there already is tolerated. -/
def addColumnIfMissing (table name : String) : Sql IndexDb Unit := do
  match ← Sql.attempt (addColumn table name) with
  | .ok _ => pure ()
  | .error e => if e = duplicateColumnName name then pure () else Sql.fail e

/-- `CREATE VIRTUAL TABLE IF NOT EXISTS chunks_fts`: a new one indexes nothing. -/
def createFts : Sql IndexDb Unit :=
  Sql.execute fun db =>
    if db.hasTable "chunks_fts" then .ok db
    else .ok { db.add (.table "chunks_fts") with ftsRows := [] }

/-- Index the chunks that the full-text table does not list. It lists the rows of its
    content table, which are the chunks. -/
def backfillFts : Sql IndexDb Unit :=
  Sql.execute fun db =>
    if ¬ db.hasTable "chunks" then .error (.refused "no such table: chunks")
    else
      let listed := db.chunks
      .ok { db with ftsRows := db.ftsRows ++ db.chunks.filter (fun c => c ∉ listed) }

/-- `CREATE VIRTUAL TABLE IF NOT EXISTS embeddings`. -/
def createEmbeddings : Sql IndexDb Unit :=
  Sql.execute fun db => .ok { db with embeddings := some (db.embeddings.getD .int8) }

/-- `DROP TABLE IF EXISTS embeddings`. -/
def dropEmbeddings : Sql IndexDb Unit :=
  Sql.execute fun db => .ok { db with embeddings := none }

/-- `DROP TABLE IF EXISTS`. -/
def dropTable (name : String) : Sql IndexDb Unit :=
  Sql.execute fun db => .ok { db with objects := db.objects.filter (fun o => o ≠ .table name) }

namespace IndexMigrations

def migrate : Sql IndexDb Unit :=
  createAll
    [(.table "files", []), (.table "chunks", []),
      (.index "idx_chunks_file_id", [.table "chunks"]),
      (.index "idx_files_path", [.table "files"])]

def applyVectorMigration : Sql IndexDb Unit := createEmbeddings

def applyGraphMigration : Sql IndexDb Unit :=
  createAll
    [(.table "graph_edges", []),
      (.index "graph_edges_source_file", [.table "graph_edges"]),
      (.index "graph_edges_source_name", [.table "graph_edges"]),
      (.index "graph_edges_target_name", [.table "graph_edges"]),
      (.index "graph_edges_kind", [.table "graph_edges"])]

def applySpecMigration : Sql IndexDb Unit :=
  createAll [(.table "specs", []), (.table "spec_links", [])]

def applyFtsMigration : Sql IndexDb Unit := do
  createFts
  createAll
    [(.trigger "chunks_fts_insert", [.table "chunks"]),
      (.trigger "chunks_fts_delete", [.table "chunks"]),
      (.trigger "chunks_fts_update", [.table "chunks"])]
  backfillFts

def applyTokenCountMigration : Sql IndexDb Unit := addColumnIfMissing "chunks" "token_count"

def applyGraphRankMigration : Sql IndexDb Unit := addColumnIfMissing "chunks" "graph_rank"

def applySummaryMigration : Sql IndexDb Unit := addColumnIfMissing "chunks" "summary"

def applyUsageMigration : Sql IndexDb Unit :=
  createAll [(.table "usage", []), (.index "idx_usage_called_at", [.table "usage"])]

def applyCompoundGraphIdxMigration : Sql IndexDb Unit :=
  createAll
    [(.index "graph_edges_source_name_kind", [.table "graph_edges"]),
      (.index "graph_edges_target_name_kind", [.table "graph_edges"])]

def applyConventionsMigration : Sql IndexDb Unit :=
  createAll
    [(.table "conventions", []), (.index "idx_conventions_language", [.table "conventions"])]

/-- Rebuild a vector table of floats, unless the marker is there, and leave it. -/
def applyDimUpgradeMigration : Sql IndexDb Unit := do
  let already ← Sql.query (fun db => db.hasTable "schema_int8_embeddings")
  if already then
    pure ()
  else do
    let upgradeNeeded ← Sql.query (fun db => decide (db.embeddings = some .float))
    Sql.whenever upgradeNeeded (do
      dropEmbeddings
      createEmbeddings)
    createAll [(.table "schema_int8_embeddings", [])]

def snapshotTables : List String :=
  ["snapshot_embeddings", "snapshot_chunks", "snapshot_files", "snapshots"]

def applyDropSnapshotsMigration : Sql IndexDb Unit := Sql.forEach snapshotTables dropTable

def applyIndexMetaMigration : Sql IndexDb Unit := createAll [(.table "index_meta", [])]

def applyFileMtimeMigration : Sql IndexDb Unit := addColumnIfMissing "files" "mtime"

end IndexMigrations

open IndexMigrations in
/-- The steps with the version each leads to. -/
def indexMigrations : List (Int × Sql IndexDb Unit) :=
  [(1, migrate), (2, applyVectorMigration), (3, applyGraphMigration), (4, applySpecMigration),
    (5, applyFtsMigration), (6, applyTokenCountMigration), (7, applyGraphRankMigration),
    (8, applySummaryMigration), (9, applyUsageMigration), (10, applyCompoundGraphIdxMigration),
    (11, applyConventionsMigration), (12, applyDimUpgradeMigration),
    (13, applyDropSnapshotsMigration), (14, applyIndexMetaMigration),
    (15, applyFileMtimeMigration)]

/-- The version the ladder starts from. -/
def IndexDb.startVersion (db : IndexDb) : Int :=
  if db.userVersion = 0 ∧ ¬ db.isFreshDb then db.inferLegacyVersion else db.userVersion

/-- Run every step above the version of the index, then stamp the version. -/
def openIndex : Sql IndexDb Unit := do
  let rawVersion ← Sql.query (·.userVersion)
  if rawVersion = currentSchemaVersion then
    pure ()
  else do
    let version ← Sql.query (·.startVersion)
    Sql.forEach indexMigrations fun step => Sql.whenever (version < step.1) step.2
    Sql.execute fun db => .ok { db with userVersion := currentSchemaVersion }

end Spelunk
