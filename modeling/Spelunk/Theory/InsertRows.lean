import Spelunk.Theory.NoteSpecs

/-!
# Inserting Many Rows

Rows of different contents, none of which the store has: no unique index refuses
any of them, so they go in one after the other, each under the next rowid, and
no content gets a second row. Both imports of the program insert such rows.

## Main definitions

* `NewRow`: The rows a writer may add.
* `MemoryDb.insertRows`: The store with more rows.
* `MemoryDb.Takes`: Rows the store can take.
* `MemoryDb.rowsOf`: The number of rows of an identity.

## Theorems

* `mem_insertRows_notes`: The rows afterwards.
* `admits_insertRows`: Every row is admitted after the ones before.
* `Valid.insertRows`: The store stays valid.
* `rowsOf_insertRows`: At most one new row for an identity, and only where there was none.
-/

namespace Spelunk

open Lib (Sql SqlError)

open MemoryDb

variable [Sha256]

/-- A row a writer may add. -/
structure NewRow (r : NoteRow) : Prop where
  supersededBy : r.supersededBy = none
  status : r.status = "active" ∨ r.status = "archived"
  entityId : r.entityId = some r.contentId

omit [Sha256] in
/-- The store with more rows, in order. -/
def MemoryDb.insertRows (db : MemoryDb) (rows : List NoteRow) : MemoryDb :=
  rows.foldl MemoryDb.insertRow db

/-- New rows of different contents, none of which the store has, and without the
    identifiers a sync gives. -/
structure MemoryDb.Takes (db : MemoryDb) (rows : List NoteRow) : Prop where
  new : ∀ r ∈ rows, NewRow r
  local_only : ∀ r ∈ rows, r.uuid = none ∧ r.remoteId = none
  nodup : (rows.map (·.contentId)).Nodup
  absent : ∀ r ∈ rows, ∀ x ∈ db.notes, x.contentId ≠ r.contentId

/-- The number of rows of an identity. -/
def MemoryDb.rowsOf (db : MemoryDb) (e : String) : Nat :=
  db.notes.countP (fun r => r.contentId = e)

variable {db : MemoryDb}

theorem rowsOf_eq_zero_iff {e : String} :
    db.rowsOf e = 0 ↔ ∀ x ∈ db.notes, x.contentId ≠ e := by
  rw [rowsOf, List.countP_eq_zero]
  simp only [decide_eq_true_eq, ne_eq]

section Rows

omit [Sha256]

@[simp] theorem insertRows_nil (db : MemoryDb) : db.insertRows [] = db := rfl

theorem insertRows_concat (db : MemoryDb) (rows : List NoteRow) (r : NoteRow) :
    db.insertRows (rows ++ [r]) = (db.insertRows rows).insertRow r := by
  rw [insertRows, List.foldl_append]
  rfl

theorem nextId_insertRows (db : MemoryDb) (rows : List NoteRow) :
    (db.insertRows rows).nextId = db.nextId + rows.length := by
  induction rows using List.reverseRecOn with
  | nil => rfl
  | append_singleton rows r ih =>
      rw [insertRows_concat, List.length_append, List.length_singleton, ← Nat.add_assoc, ← ih]
      rfl

theorem entityIdUnique_insertRows (db : MemoryDb) (rows : List NoteRow) :
    (db.insertRows rows).entityIdUnique = db.entityIdUnique := by
  induction rows using List.reverseRecOn with
  | nil => rfl
  | append_singleton rows r ih =>
      rw [insertRows_concat, ← ih]
      rfl

/-- The old rows, then the new ones under the next rowids. -/
theorem notes_insertRows (db : MemoryDb) (rows : List NoteRow) :
    (db.insertRows rows).notes
      = db.notes ++ (rows.zipIdx db.nextId).map (fun p => { p.1 with id := p.2 }) := by
  induction rows using List.reverseRecOn with
  | nil => simp
  | append_singleton rows r ih =>
      rw [insertRows_concat, insertRow, ih, nextId_insertRows, List.zipIdx_append, List.map_append,
        List.append_assoc]
      rfl

theorem mem_insertRows_notes {rows : List NoteRow} {r : NoteRow} :
    r ∈ (db.insertRows rows).notes ↔
      r ∈ db.notes ∨ ∃ p ∈ rows.zipIdx db.nextId, r = { p.1 with id := p.2 } := by
  rw [notes_insertRows, List.mem_append, List.mem_map]
  simp only [eq_comm]

/-- The rowid is no part of what a row says. -/
@[simp] theorem contentId_withId [Sha256] (r : NoteRow) (id : Nat) :
    ({ r with id := id } : NoteRow).contentId = r.contentId := rfl

/-- A row that goes in is found there under some rowid. -/
theorem exists_insertRows {rows : List NoteRow} {r : NoteRow} (hr : r ∈ rows) :
    ∃ id, { r with id := id } ∈ (db.insertRows rows).notes := by
  rcases List.mem_iff_getElem.mp hr with ⟨i, hi, hri⟩
  refine ⟨db.nextId + i, mem_insertRows_notes.mpr (Or.inr ⟨(r, db.nextId + i), ?_, rfl⟩)⟩
  exact List.mk_add_mem_zipIdx_iff_getElem?.mpr (hri ▸ List.getElem?_eq_getElem hi)

end Rows

theorem MemoryDb.Takes.of_append {done rest : List NoteRow} (h : db.Takes (done ++ rest)) :
    db.Takes done where
  new := fun r hr => h.new r (List.mem_append_left _ hr)
  local_only := fun r hr => h.local_only r (List.mem_append_left _ hr)
  nodup := by
    have hn := h.nodup
    rw [List.map_append] at hn
    exact (List.nodup_append.mp hn).1
  absent := fun r hr => h.absent r (List.mem_append_left _ hr)

/-- Every row is admitted after the ones before. -/
theorem admits_insertRows (hv : db.Valid) {done : List NoteRow} {r : NoteRow}
    (h : db.Takes (done ++ [r])) : (db.insertRows done).Admits r := by
  have hr : r ∈ done ++ [r] := List.mem_append_right _ (List.mem_singleton_self r)
  constructor
  case uuid =>
    intro u hu
    rw [(h.local_only r hr).1] at hu
    exact absurd hu (by simp)
  case remoteId =>
    intro u hu
    rw [(h.local_only r hr).2] at hu
    exact absurd hu (by simp)
  case entityId =>
    intro _ e he x hx hxe
    rw [(h.new r hr).entityId, Option.mem_some_iff] at he
    subst he
    rcases mem_insertRows_notes.mp hx with hx | ⟨p, hp, rfl⟩
    · exact h.absent r hr x hx (hv.entity x hx _ hxe).symm
    · -- The rows before have other contents.
      have hpd : p.1 ∈ done := List.fst_mem_of_mem_zipIdx hp
      have hpe : p.1.contentId = r.contentId := by
        have hstored := (h.new p.1 (List.mem_append_left _ hpd)).entityId
        rw [show p.1.entityId = some r.contentId from hxe, Option.some.injEq] at hstored
        exact hstored.symm
      have hn := h.nodup
      rw [List.map_append] at hn
      exact (List.nodup_append.mp hn).2.2 _ (List.mem_map_of_mem hpd) _
        (List.mem_singleton_self _) hpe

/-- A valid store takes an admitted row that is valid by itself. -/
theorem MemoryDb.Valid.insertRow (hv : db.Valid) {r : NoteRow} (hr : db.Admits r)
    (hsucc : r.supersededBy = none) (hstatus : r.status = "active" ∨ r.status = "archived")
    (hentity : ∀ e ∈ r.entityId, e = r.contentId) : (db.insertRow r).Valid where
  toSchemaOk := hv.toSchemaOk.insertRow hr hsucc
  status := by
    intro n hn
    rcases List.mem_append.mp hn with hn | hn
    · exact hv.status n hn
    · rw [List.mem_singleton.mp hn]
      exact hstatus
  entity := by
    intro n hn
    rcases List.mem_append.mp hn with hn | hn
    · exact hv.entity n hn
    · rw [List.mem_singleton.mp hn]
      exact hentity

/-- The store stays valid. -/
theorem MemoryDb.Valid.insertRows (hv : db.Valid) {rows : List NoteRow} (h : db.Takes rows) :
    (db.insertRows rows).Valid := by
  induction rows using List.reverseRecOn with
  | nil => exact hv
  | append_singleton rows r ih =>
      have hnew := h.new r (List.mem_append_right _ (List.mem_singleton_self r))
      rw [insertRows_concat]
      refine (ih h.of_append).insertRow (admits_insertRows hv h) hnew.supersededBy hnew.status
        (fun e he => ?_)
      rw [hnew.entityId, Option.mem_some_iff] at he
      exact he.symm

/-- An identity gets a new row only where it had none, and then one. -/
theorem rowsOf_insertRows {rows : List NoteRow} (h : db.Takes rows) (e : String) :
    (db.insertRows rows).rowsOf e ≤ max 1 (db.rowsOf e) ∧
      db.rowsOf e ≤ (db.insertRows rows).rowsOf e := by
  have hnew : ((rows.zipIdx db.nextId).map (fun p => ({ p.1 with id := p.2 } : NoteRow))).countP
      (fun r => r.contentId = e) = (rows.map (·.contentId)).count e := by
    conv_rhs => rw [← List.zipIdx_map_fst db.nextId rows]
    rw [List.countP_map, List.count, List.map_map, List.countP_map]
    refine List.countP_congr (fun p _ => ?_)
    simp only [Function.comp_apply, decide_eq_true_eq, beq_iff_eq]
    rfl
  rw [rowsOf, notes_insertRows, List.countP_append, hnew, List.Nodup.count h.nodup]
  change db.rowsOf e + _ ≤ max 1 (db.rowsOf e) ∧ db.rowsOf e ≤ db.rowsOf e + _
  split
  · next hmem =>
    rcases List.mem_map.mp hmem with ⟨r, hr, rfl⟩
    rw [rowsOf_eq_zero_iff.mpr (h.absent r hr)]
    omega
  · omega

end Spelunk
