import Spelunk.Core.ExportDump

/-!
# Reading a Store for Export

`source.rs` of `spelunk-export`: what a store of any shape contains. The tables and the
columns are found by probing; a select list names NULL for a column that is not there,
and a row is read by position. The entries, their lifecycle column and the edge table
give the entities and the links of the dump; a link with an end that is not in the
store is left out with a warning.

What SQLite enforces on these tables, their primary keys, is part of a store.

## Main definitions

* `SqlTable`, `ExportStore`: What is read.
* `SqlTable.select`: A select list over the columns that are there.
* `readEntries`, `readNamespacedEntries`, `readEdges`, `readProjects`, `readUsage`: The
  tables.
* `extract`: The dump and the warnings.
-/

namespace Spelunk

inductive SqlValue where
  | null
  | int (n : ℤ)
  | text (s : String)
deriving DecidableEq, Repr

/-- A table: its columns, and for each row a value under each of them, in the order of the row
    ids. -/
structure SqlTable where
  columns : List String
  rows : List (String → SqlValue)

/-- A store: its tables, and what their primary keys say of them. -/
structure ExportStore where
  table : String → Option SqlTable
  noteIds : ∀ t, table "notes" = some t → (t.rows.map (· "id")).Nodup
  projectIds : ∀ t, table "projects" = some t → (t.rows.map (· "id")).Nodup
  dependencies : ∀ t, table "project_deps" = some t →
    (t.rows.map fun r => (r "project_id", r "dep_id")).Nodup

inductive ExportError where
  | missingColumns (columns : List String)
  | noSuchColumn (column : String)
  | invalidColumnType (position : ℕ)
deriving DecidableEq, Repr

/-! ### Statements -/

/-- A column of a select list: where it is optional, NULL stands for it in a table without it. -/
structure SelectColumn where
  name : String
  optional : Bool
deriving DecidableEq, Repr

def need (name : String) : SelectColumn := ⟨name, false⟩

def maybe (name : String) : SelectColumn := ⟨name, true⟩

/-- The order of SQLite: NULL, integers, texts. -/
def SqlValue.le : SqlValue → SqlValue → Bool
  | .null, _ => true
  | _, .null => false
  | .int a, .int b => decide (a ≤ b)
  | .int _, .text _ => true
  | .text _, .int _ => false
  | .text a, .text b => decide (a ≤ b)

/-- `ORDER BY`, of values one after the other. -/
def orderLe : List SqlValue → List SqlValue → Bool
  | a :: as, b :: bs => if a = b then orderLe as bs else a.le b
  | _, _ => true

namespace SqlTable

/-- The value of a row under a column, NULL where there is none. -/
def value (t : SqlTable) (r : String → SqlValue) (column : String) : SqlValue :=
  if column ∈ t.columns then r column else .null

/-- The rows of a statement, by the positions of its select list. -/
def select (t : SqlTable) (list : List SelectColumn) (order : List String) :
    Except ExportError (List (List SqlValue)) :=
  match list.find? fun c => !c.optional && c.name ∉ t.columns with
  | some c => .error (.noSuchColumn c.name)
  | none =>
      let rows := t.rows.mergeSort fun r r' => orderLe (order.map r) (order.map r')
      .ok (rows.map fun r => list.map fun c => t.value r c.name)

end SqlTable

/-- `r.get::<_, i64>(i)`. -/
def getInt (row : List SqlValue) (i : ℕ) : Except ExportError ℤ :=
  match row[i]? with
  | some (.int n) => .ok n
  | _ => .error (.invalidColumnType i)

/-- `r.get::<_, String>(i)`. -/
def getText (row : List SqlValue) (i : ℕ) : Except ExportError String :=
  match row[i]? with
  | some (.text s) => .ok s
  | _ => .error (.invalidColumnType i)

/-- `r.get::<_, Option<i64>>(i)`. -/
def getOptInt (row : List SqlValue) (i : ℕ) : Except ExportError (Option ℤ) :=
  match row[i]? with
  | some .null => .ok none
  | some (.int n) => .ok (some n)
  | _ => .error (.invalidColumnType i)

/-- `r.get::<_, Option<String>>(i)`. -/
def getOptText (row : List SqlValue) (i : ℕ) : Except ExportError (Option String) :=
  match row[i]? with
  | some .null => .ok none
  | some (.text s) => .ok (some s)
  | _ => .error (.invalidColumnType i)

/-! ### Links -/

/-- A link as the store has it. -/
structure StoredLink where
  kind : String
  source : ℤ
  target : ℤ
  createdAt : Option ℤ
deriving DecidableEq, Repr

/-- The relationship of a link. -/
def StoredLink.relationship (ref : ℤ → String) (l : StoredLink) : Relationship :=
  .new l.kind (ref l.source) (ref l.target) l.createdAt

/-- The relationships gathered so far, and the warnings. -/
structure Links where
  rels : List Relationship
  warnings : List String

/-- A relationship into the set of them. -/
def insertRel (r : Relationship) (rels : List Relationship) : List Relationship :=
  if r ∈ rels then rels else rels ++ [r]

def successorWarning (successor predecessor : ℤ) : String :=
  s!"entry {predecessor} names a successor ({successor}) that is not in the " ++
    "store; the supersede link is not carried"

def edgeWarning (l : StoredLink) : String :=
  s!"a '{l.kind}' link between {l.source} and {l.target} names an entry that is not in the " ++
    "store; it is not carried"

def dependencyWarning (source target : ℤ) : String :=
  s!"a dependency between projects {source} and {target} names a project that is not " ++
    "registered; it is not carried"

/-- One link of the lifecycle column, from the successor. -/
def addSuperseded (present : List ℤ) (ref : ℤ → String) (s : Links) (link : ℤ × ℤ) : Links :=
  if link.1 ∉ present then
    { s with warnings := s.warnings ++ [successorWarning link.1 link.2] }
  else
    { s with
      rels := insertRel
        (StoredLink.relationship ref ⟨"supersedes", link.1, link.2, none⟩) s.rels }

/-- The links of two relationships are one. -/
def sameLink (r r' : Relationship) : Bool :=
  r.kindTag = r'.kindTag && r.fromRef = r'.fromRef && r.toRef = r'.toRef

/-- One row of the edge table: a time takes the place of no time. -/
def addStoredEdge (present : List ℤ) (ref : ℤ → String) (s : Links) (l : StoredLink) : Links :=
  if l.source ∉ present ∨ l.target ∉ present then
    { s with warnings := s.warnings ++ [edgeWarning l] }
  else
    let candidate := l.relationship ref
    match s.rels.find? fun r => sameLink r candidate with
    | some prev =>
        if prev.createdAt.isNone && candidate.createdAt.isSome then
          { s with rels := insertRel candidate (s.rels.filter (· ≠ prev)) }
        else s
    | none => { s with rels := insertRel candidate s.rels }

/-- The order of the set: by the fields of the record. -/
def Relationship.le (r r' : Relationship) : Bool :=
  if r.kindTag ≠ r'.kindTag then decide (r.kindTag < r'.kindTag)
  else if r.fromRef ≠ r'.fromRef then decide (r.fromRef < r'.fromRef)
  else if r.toRef ≠ r'.toRef then decide (r.toRef < r'.toRef)
  else match r.createdAt, r'.createdAt with
    | none, _ => true
    | some _, none => false
    | some a, some b => decide (a ≤ b)

/-! ### Tables -/

/-- What one row of `notes` is read as. -/
structure EntryRow where
  id : ℤ
  supersededBy : Option ℤ
  entry : MemoryEntry

/-- What the tables give. -/
structure Extract where
  dump : Dump
  warnings : List String

def entryRef (id : ℤ) : String := "e" ++ toString id

def namespacedRef (id : ℤ) : String := "n" ++ toString id

def projectRef (id : ℤ) : String := "p" ++ toString id

def usageRef (n : ℕ) : String := "u" ++ toString n

/-- `require`. -/
def requireColumns (t : SqlTable) (needed : List String) : Except ExportError Unit :=
  let missing := needed.filter (· ∉ t.columns)
  if missing ≠ [] then .error (.missingColumns missing) else .ok ()

def entryRequired : List String := ["id", "kind", "title", "body", "created_at"]

def entryColumns : List SelectColumn :=
  [need "id", need "kind", need "title", need "body", maybe "tags", maybe "linked_files",
    need "created_at", maybe "status", maybe "superseded_by", maybe "source_ref",
    maybe "valid_at", maybe "invalid_at", maybe "uuid", maybe "remote_id", maybe "entity_id"]

/-- A row of a project's own store. -/
def decodeEntry (row : List SqlValue) : Except ExportError EntryRow := do
  let id ← getInt row 0
  let kind ← getText row 1
  let title ← getText row 2
  let body ← getText row 3
  let tags ← getOptText row 4
  let linkedFiles ← getOptText row 5
  let createdAt ← getInt row 6
  let status ← getOptText row 7
  let supersededBy ← getOptInt row 8
  let sourceRef ← getOptText row 9
  let validAt ← getOptInt row 10
  let invalidAt ← getOptInt row 11
  let uuid ← getOptText row 12
  let remoteId ← getOptText row 13
  let entityId ← getOptText row 14
  return {
    id := id
    supersededBy := supersededBy
    entry := {
      record := "entity"
      kindTag := "memory_entry"
      reference := entryRef id
      uuid := uuid
      kind := kind
      title := title
      body := body
      tags := splitCsv tags
      linkedFiles := splitCsv linkedFiles
      createdAt := createdAt
      status := status
      sourceRef := sourceRef
      validAt := validAt
      invalidAt := invalidAt
      entityId := entityId
      remoteId := remoteId
      ns := none
      isEntity := rfl } }

def namespacedColumns : List SelectColumn :=
  [need "id", need "project_id", need "kind", need "title", need "body", maybe "tags",
    maybe "linked_files", need "created_at", maybe "status", maybe "superseded_by",
    maybe "source_ref", maybe "valid_at", maybe "invalid_at", maybe "remote_id",
    maybe "entity_id"]

/-- A row of a store of many projects, without its uuid; the namespace is the slug of its
    project. -/
def decodeNamespaced (slug : ℤ → Option String) (row : List SqlValue) :
    Except ExportError EntryRow := do
  let id ← getInt row 0
  let projectId ← getOptInt row 1
  let kind ← getText row 2
  let title ← getText row 3
  let body ← getText row 4
  let tags ← getOptText row 5
  let linkedFiles ← getOptText row 6
  let createdAt ← getInt row 7
  let status ← getOptText row 8
  let supersededBy ← getOptInt row 9
  let sourceRef ← getOptText row 10
  let validAt ← getOptInt row 11
  let invalidAt ← getOptInt row 12
  let remoteId ← getOptText row 13
  let entityId ← getOptText row 14
  return {
    id := id
    supersededBy := supersededBy
    entry := {
      record := "entity"
      kindTag := "memory_entry"
      reference := namespacedRef id
      uuid := none
      kind := kind
      title := title
      body := body
      tags := splitCsv tags
      linkedFiles := splitCsv linkedFiles
      createdAt := createdAt
      status := status
      sourceRef := sourceRef
      validAt := validAt
      invalidAt := invalidAt
      entityId := entityId
      remoteId := remoteId
      ns := projectId.bind slug
      isEntity := rfl } }

def edgeColumns : List SelectColumn :=
  [need "from_id", need "to_id", need "kind", maybe "created_at"]

def decodeEdge (row : List SqlValue) : Except ExportError StoredLink := do
  let source ← getInt row 0
  let target ← getInt row 1
  let kind ← getText row 2
  let createdAt ← getOptInt row 3
  return ⟨kind, source, target, createdAt⟩

/-- The rows of the edge table, if there is one. -/
def readEdges (store : ExportStore) (table : String) : Except ExportError (List StoredLink) :=
  match store.table table with
  | none => .ok []
  | some t => do (← t.select edgeColumns ["from_id", "to_id", "kind"]).mapM decodeEdge

/-- The links of the entries: the lifecycle column first, then the edge table. -/
def entryLinks (ref : ℤ → String) (entries : List EntryRow) (edges : List StoredLink) : Links :=
  let present := entries.map EntryRow.id
  let superseded := entries.filterMap fun e => e.supersededBy.map fun s => (s, e.id)
  edges.foldl (addStoredEdge present ref) (superseded.foldl (addSuperseded present ref) ⟨[], []⟩)

/-- `read_entries` and what it has in common with `read_namespaced_entries`. -/
def readNotes (store : ExportStore) (t : SqlTable) (columns : List SelectColumn)
    (decode : List SqlValue → Except ExportError EntryRow) (edgeTable : String)
    (ref : ℤ → String) : Except ExportError (List EntryRow × Links) := do
  let entries ← (← t.select columns ["id"]).mapM decode
  let edges ← readEdges store edgeTable
  return (entries, entryLinks ref entries edges)

def readEntries (store : ExportStore) (t : SqlTable) :
    Except ExportError (List EntryRow × Links) := do
  requireColumns t entryRequired
  readNotes store t entryColumns decodeEntry "memory_edges" entryRef

/-- The slugs of the projects, by their ids. -/
def readSlugs (store : ExportStore) : Except ExportError (List (ℤ × String)) :=
  match store.table "projects" with
  | none => .ok []
  | some t =>
      if "slug" ∉ t.columns then .ok []
      else do
        (← t.select [need "id", need "slug"] []).mapM fun row => do
          let id ← getInt row 0
          let slug ← getText row 1
          return (id, slug)

/-- The slug of a project. -/
def slugOf (slugs : List (ℤ × String)) (id : ℤ) : Option String :=
  (slugs.find? (·.1 = id)).map Prod.snd

def readNamespacedEntries (store : ExportStore) (t : SqlTable) :
    Except ExportError (List EntryRow × Links) := do
  requireColumns t entryRequired
  let slugs ← readSlugs store
  readNotes store t namespacedColumns (decodeNamespaced (slugOf slugs)) "note_edges"
    namespacedRef

/-- The entries of a store and their links. -/
def readAllEntries (store : ExportStore) : Except ExportError (List EntryRow × Links) :=
  match store.table "notes" with
  | none => .ok ([], ⟨[], []⟩)
  | some t =>
      if "project_id" ∈ t.columns then readNamespacedEntries store t else readEntries store t

def decodeProject (row : List SqlValue) : Except ExportError (ℤ × DumpProject) := do
  let id ← getInt row 0
  let rootPath ← getText row 1
  let registeredAt ← getOptInt row 2
  return (id, {
    record := "entity"
    kindTag := "project"
    reference := projectRef id
    rootPath := rootPath
    registeredAt := registeredAt
    isEntity := rfl })

def decodeDependency (row : List SqlValue) : Except ExportError (ℤ × ℤ) := do
  let source ← getInt row 0
  let target ← getInt row 1
  return (source, target)

/-- One dependency. -/
def addDependency (present : List ℤ) (s : Links) (dep : ℤ × ℤ) : Links :=
  if dep.1 ∉ present ∨ dep.2 ∉ present then
    { s with warnings := s.warnings ++ [dependencyWarning dep.1 dep.2] }
  else
    { s with
      rels := s.rels ++
        [StoredLink.relationship projectRef ⟨"depends_on", dep.1, dep.2, none⟩] }

/-- `read_projects`, of a registry. -/
def readProjects (store : ExportStore) :
    Except ExportError (List (ℤ × DumpProject) × List (ℤ × ℤ)) :=
  match store.table "projects" with
  | none => .ok ([], [])
  | some t =>
      if "root_path" ∉ t.columns then .ok ([], [])
      else do
        let projects ← (← t.select [need "id", need "root_path", maybe "registered_at"]
          ["id"]).mapM decodeProject
        match store.table "project_deps" with
        | none => return (projects, [])
        | some deps =>
            let dependencies ← (← deps.select [need "project_id", need "dep_id"]
              ["project_id", "dep_id"]).mapM decodeDependency
            return (projects, dependencies)

/-- The links of the projects. -/
def projectLinks (projects : List (ℤ × DumpProject)) (dependencies : List (ℤ × ℤ)) : Links :=
  dependencies.foldl (addDependency (projects.map Prod.fst)) ⟨[], []⟩

def decodeUsage (row : List SqlValue) : Except ExportError (String × ℤ) := do
  let command ← getText row 0
  let usedAt ← getInt row 1
  return (command, usedAt)

/-- One recorded invocation, by its place. -/
def commandUsage (p : (String × ℤ) × ℕ) : CommandUsage where
  record := "entity"
  kindTag := "command_usage"
  reference := usageRef p.2
  command := p.1.1
  usedAt := p.1.2
  isEntity := rfl

/-- `read_usage`. -/
def readUsage (store : ExportStore) : Except ExportError (List CommandUsage) :=
  match store.table "usage" with
  | none => .ok []
  | some t => do
      let rows ← (← t.select [need "command", need "called_at"] ["called_at"]).mapM decodeUsage
      return rows.zipIdx.map commandUsage

/-- `extract`, of one snapshot of the store. -/
def extract (store : ExportStore) : Except ExportError Extract := do
  let (entries, links) ← readAllEntries store
  let (projects, dependencies) ← readProjects store
  let usage ← readUsage store
  let deps := projectLinks projects dependencies
  return {
    dump := {
      entries := entries.map EntryRow.entry
      projects := projects.map Prod.snd
      usage := usage
      relationships := links.rels.mergeSort Relationship.le ++ deps.rels }
    warnings := links.warnings ++ deps.warnings }

end Spelunk
