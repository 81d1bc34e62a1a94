import Mathlib.Data.List.Nodup
import Spelunk.Core.Csv
import Spelunk.Core.Identity
import Spelunk.Lib.Sql

/-!
# The Local Memory Store

The tables of `memory.db` that the memory commands read and write, and the SQL
statements they are written with. A statement computes the rows it would leave
behind and takes effect only if the store then satisfies every constraint of
the schema; UNIQUE is checked before FOREIGN KEY, and both at the end of the
statement.

The full-text index is left out: triggers keep it equal to the text of the
notes, and nothing here reads it.

## Main definitions

* `NoteRow`, `MemoryEdge`, `MemoryDb`: The tables.
* `MemoryDb.UniqueOk`, `MemoryDb.ForeignKeysOk`: The constraints.
* `MemoryDb.SchemaOk`, `MemoryDb.Valid`: What the schema and its writers guarantee.
* `insertNote`, `updateNotes`, `deleteNotes`: The statements on `notes`.

## Theorems

* `checked_eq_ok`: A statement that keeps the constraints takes effect.
* `ids_updateRows`: An update that keeps row ids keeps the ids of the store.
-/

namespace Spelunk

/-- A row of `notes`. `id` is the local rowid; `tags` and `linkedFiles` are
    comma-separated and may be NULL. -/
@[ext] structure NoteRow where
  id : Nat
  kind : String
  title : String
  body : String
  tags : Option String
  linkedFiles : Option String
  createdAt : Int
  status : String
  supersededBy : Option Nat
  sourceRef : Option String
  validAt : Option Int
  invalidAt : Option Int
  uuid : Option String
  remoteId : Option String
  entityId : Option String
deriving DecidableEq, Repr

/-- The identity of a row's content, whatever its `entity_id` column holds. -/
def NoteRow.contentId [Sha256] (r : NoteRow) : String :=
  Spelunk.entityId r.kind r.title r.body

/-- The kinds the schema admits for an edge. -/
inductive EdgeKind where
  | supersedes
  | relatesTo
  | contradicts
deriving DecidableEq, Repr

/-- A row of `memory_edges`. -/
structure MemoryEdge where
  fromId : Nat
  toId : Nat
  kind : EdgeKind
  createdAt : Int
deriving DecidableEq, Repr

/-- The contents of a `memory.db`. `nextId` is the AUTOINCREMENT sequence;
    `entityIdUnique` says whether the index on `entity_id` is the unique one. -/
structure MemoryDb where
  notes : List NoteRow
  edges : List MemoryEdge
  embeddings : List (Nat × List UInt8)
  nextId : Nat
  entityIdUnique : Bool
deriving DecidableEq, Repr

namespace MemoryDb

/-- The rowids of a store. -/
def ids (db : MemoryDb) : List Nat := db.notes.map (·.id)

/-- The primary key and the unique indexes. -/
def UniqueOk (db : MemoryDb) : Prop :=
  db.ids.Nodup ∧ (db.notes.filterMap (·.uuid)).Nodup ∧ (db.notes.filterMap (·.remoteId)).Nodup ∧
    (db.entityIdUnique = true → (db.notes.filterMap (·.entityId)).Nodup)

instance (db : MemoryDb) : Decidable db.UniqueOk := by
  unfold UniqueOk
  infer_instance

/-- The foreign keys: `superseded_by`, and both ends of an edge. -/
def ForeignKeysOk (db : MemoryDb) : Prop :=
  (∀ n ∈ db.notes, ∀ v ∈ n.supersededBy, v ∈ db.ids) ∧
    ∀ e ∈ db.edges, e.fromId ∈ db.ids ∧ e.toId ∈ db.ids

instance (db : MemoryDb) : Decidable db.ForeignKeysOk := by
  unfold ForeignKeysOk
  infer_instance

/-- The outcome of a statement that would leave `db` behind. -/
def checked {α : Type} (a : α) (db : MemoryDb) : Except Lib.SqlError (α × MemoryDb) :=
  if ¬ db.UniqueOk then .error .unique
  else if ¬ db.ForeignKeysOk then .error .foreignKey
  else .ok (a, db)

/-- What the schema guarantees of a store. -/
structure SchemaOk (db : MemoryDb) : Prop where
  unique : db.UniqueOk
  foreignKeys : db.ForeignKeysOk
  /-- The sequence is ahead of every rowid. -/
  id_lt : ∀ n ∈ db.notes, n.id < db.nextId

/-- The two statuses. No writer stores another. -/
def StatusOk (db : MemoryDb) : Prop :=
  ∀ n ∈ db.notes, n.status = "active" ∨ n.status = "archived"

/-- What the schema and every writer of it guarantee of a store. -/
structure Valid [Sha256] (db : MemoryDb) : Prop extends SchemaOk db where
  status : db.StatusOk
  /-- A stored identity is the identity of the content. -/
  entity : ∀ n ∈ db.notes, ∀ e ∈ n.entityId, e = n.contentId

/-- The rows of a store with `f` applied to those that satisfy `p`. -/
def updateRows (db : MemoryDb) (p : NoteRow → Bool) (f : NoteRow → NoteRow) : MemoryDb :=
  { db with notes := db.notes.map (fun r => if p r then f r else r) }

end MemoryDb

open Lib (Sql SqlError)

/-- `INSERT INTO notes`: the row gets the next rowid, which is returned. -/
def insertNote (r : NoteRow) : Sql MemoryDb Nat :=
  Sql.statement fun db =>
    MemoryDb.checked db.nextId
      { db with notes := db.notes ++ [{ r with id := db.nextId }], nextId := db.nextId + 1 }

/-- `UPDATE notes SET f WHERE p`: returns the number of rows matched. -/
def updateNotes (p : NoteRow → Bool) (f : NoteRow → NoteRow) : Sql MemoryDb Nat :=
  Sql.statement fun db => MemoryDb.checked (db.notes.countP p) (db.updateRows p f)

/-- `DELETE FROM notes WHERE id = ?`, with the edges of the row cascading. -/
def deleteNotes (id : Nat) : Sql MemoryDb Unit :=
  Sql.statement fun db =>
    MemoryDb.checked ()
      { db with
        notes := db.notes.filter (fun r => r.id ≠ id)
        edges := db.edges.filter (fun e => e.fromId ≠ id ∧ e.toId ≠ id) }

/-- `SELECT … FROM notes WHERE p`. -/
def selectNotes (p : NoteRow → Bool) : Sql MemoryDb (List NoteRow) :=
  Sql.query fun db => db.notes.filter p

/-- `INSERT OR IGNORE INTO memory_edges`. -/
def insertEdge (e : MemoryEdge) : Sql MemoryDb Unit :=
  Sql.statement fun db =>
    if db.edges.any (fun x => x.fromId = e.fromId ∧ x.toId = e.toId ∧ x.kind = e.kind) then
      .ok ((), db)
    else MemoryDb.checked () { db with edges := db.edges ++ [e] }

namespace MemoryDb

section Checked

variable {α : Type}

theorem checked_eq_ok {a : α} {db : MemoryDb} (hu : db.UniqueOk) (hf : db.ForeignKeysOk) :
    checked a db = .ok (a, db) := by
  rw [checked, if_neg (not_not.mpr hu), if_neg (not_not.mpr hf)]

/-- What an accepted statement leaves behind satisfies the constraints. -/
theorem of_checked_eq_ok {a b : α} {db db' : MemoryDb} (h : checked a db = .ok (b, db')) :
    b = a ∧ db' = db ∧ db.UniqueOk ∧ db.ForeignKeysOk := by
  rw [checked] at h
  by_cases hu : db.UniqueOk
  · rw [if_neg (not_not.mpr hu)] at h
    by_cases hf : db.ForeignKeysOk
    · rw [if_neg (not_not.mpr hf), Except.ok.injEq, Prod.mk.injEq] at h
      exact ⟨h.1.symm, h.2.symm, hu, hf⟩
    · rw [if_pos hf] at h
      exact absurd h (by simp)
  · rw [if_pos hu] at h
    exact absurd h (by simp)

end Checked

section UpdateRows

/-- An update that writes none of the indexed columns. -/
structure KeepsIndexed (f : NoteRow → NoteRow) : Prop where
  id : ∀ r, (f r).id = r.id
  uuid : ∀ r, (f r).uuid = r.uuid
  remoteId : ∀ r, (f r).remoteId = r.remoteId
  entityId : ∀ r, (f r).entityId = r.entityId

/-- An update that keeps row ids keeps the ids of the store. -/
theorem ids_updateRows (db : MemoryDb) (p : NoteRow → Bool) {f : NoteRow → NoteRow}
    (hf : ∀ r, (f r).id = r.id) : (db.updateRows p f).ids = db.ids := by
  simp only [ids, updateRows, List.map_map]
  refine List.map_congr_left (fun r _ => ?_)
  simp only [Function.comp_apply]
  split
  · exact hf r
  · rfl

/-- A column the update does not write is the same column afterwards. -/
theorem filterMap_updateRows {β : Type} (db : MemoryDb) (p : NoteRow → Bool)
    {f : NoteRow → NoteRow} (g : NoteRow → Option β) (hf : ∀ r, g (f r) = g r) :
    (db.updateRows p f).notes.filterMap g = db.notes.filterMap g := by
  simp only [updateRows, List.filterMap_map]
  refine List.filterMap_congr (fun r _ => ?_)
  simp only [Function.comp_apply]
  split
  · exact hf r
  · rfl

/-- An update of columns without an index keeps the unique indexes. -/
theorem UniqueOk.updateRows {db : MemoryDb} (h : db.UniqueOk) (p : NoteRow → Bool)
    {f : NoteRow → NoteRow} (hf : KeepsIndexed f) : (db.updateRows p f).UniqueOk := by
  rw [UniqueOk, ids_updateRows db p hf.id, filterMap_updateRows db p _ hf.uuid,
    filterMap_updateRows db p _ hf.remoteId, filterMap_updateRows db p _ hf.entityId]
  exact h

/-- An update keeps the foreign keys when the successors it writes are rows. -/
theorem ForeignKeysOk.updateRows {db : MemoryDb} (h : db.ForeignKeysOk) (p : NoteRow → Bool)
    {f : NoteRow → NoteRow} (hid : ∀ r, (f r).id = r.id)
    (hsucc : ∀ r ∈ db.notes, p r → ∀ v ∈ (f r).supersededBy, v ∈ db.ids) :
    (db.updateRows p f).ForeignKeysOk := by
  refine ⟨fun n hn v hv => ?_, fun e he => ?_⟩
  · rw [ids_updateRows db p hid]
    rcases List.mem_map.mp hn with ⟨r, hr, rfl⟩
    by_cases hp : p r
    · rw [if_pos hp] at hv
      exact hsucc r hr hp v hv
    · rw [if_neg hp] at hv
      exact h.1 r hr v hv
  · rw [ids_updateRows db p hid]
    exact h.2 e he

/-- Two updates of one row are one update of it. -/
theorem updateRows_updateRows (db : MemoryDb) (id : Nat) {f g : NoteRow → NoteRow}
    (hf : ∀ r, (f r).id = r.id) :
    (db.updateRows (fun r => r.id = id) f).updateRows (fun r => r.id = id) g
      = db.updateRows (fun r => r.id = id) (fun r => g (f r)) := by
  simp only [updateRows, List.map_map]
  congr 1
  refine List.map_congr_left (fun r _ => ?_)
  by_cases hr : r.id = id
  · simp only [Function.comp_apply, hr, decide_true, if_true, hf]
  · simp only [Function.comp_apply, hr, decide_false, Bool.false_eq_true, if_false]

/-- An update whose function fixes the rows it matches changes nothing. -/
theorem updateRows_eq_self {db : MemoryDb} {p : NoteRow → Bool} {f : NoteRow → NoteRow}
    (h : ∀ r ∈ db.notes, p r → f r = r) : db.updateRows p f = db := by
  have hnotes : db.notes.map (fun r => if p r then f r else r) = db.notes := by
    conv_rhs => rw [← List.map_id db.notes]
    refine List.map_congr_left (fun r hr => ?_)
    by_cases hp : p r
    · rw [if_pos hp]
      exact h r hr hp
    · rw [if_neg hp]
      rfl
  rw [updateRows, hnotes]

/-- Updates that agree on the rows they match are the same update. -/
theorem updateRows_congr {db : MemoryDb} {p : NoteRow → Bool} {f g : NoteRow → NoteRow}
    (h : ∀ r ∈ db.notes, p r → f r = g r) : db.updateRows p f = db.updateRows p g := by
  simp only [updateRows]
  congr 1
  refine List.map_congr_left (fun r hr => ?_)
  by_cases hp : p r
  · rw [if_pos hp, if_pos hp, h r hr hp]
  · rw [if_neg hp, if_neg hp]

/-- Rows of one rowid are one row. -/
theorem eq_of_id_eq {db : MemoryDb} (h : db.UniqueOk) {a b : NoteRow} (ha : a ∈ db.notes)
    (hb : b ∈ db.notes) (hid : a.id = b.id) : a = b :=
  List.inj_on_of_nodup_map h.1 ha hb hid

end UpdateRows

end MemoryDb

end Spelunk
