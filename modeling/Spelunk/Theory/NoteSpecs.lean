import Spelunk.Core.Notes
import Spelunk.Lib.UniqueIndex

/-!
# What the Note Operations Do

One specification for each operation on notes, from a store that satisfies its
constraints: unless a fault stops it, the operation answers, and the store is
the old one with an explicit change to its rows. Every later argument about a
command goes through these and never looks at a statement again.

## Main definitions

* `unionRow`, `archiveRow`: What an update does to the row it matches.
* `MemoryDb.mapIds`: A store with a function applied to some of its rows.
* `MemoryDb.insertRow`: A store with one more row.
* `MemoryDb.snapshot`: What the maintenance commands read.
* `InsertOutcome`: What an insert that may collide leaves behind.

## Theorems

* `updateRows_mapIds`: One more row done.
* `updateRows_archiveRow`: Archiving the active row of an id is archiving the row.
* `SchemaOk.insertRow`: An admitted row keeps the schema.
* `uniqueOk_insertRow_iff`: No other row does.
* `serves_insertNote`, `serves_updateNotes`: Statements that keep the constraints.
* `serves_unionTagsAndFiles`, `serves_setSupersededBy`, `serves_clearSupersededBy`,
  `serves_archive`: The single-row updates.
* `serves_allNotesForDedup`: The snapshot the maintenance commands work from.
* `post_updateNotes`, `post_insertNote`, `post_unionTagsAndFiles`, `post_insertOutcome`: What is left
  of a store whether or not the operation answers.
-/

namespace Spelunk

open Lib (Sql SqlError)

open MemoryDb

/-- A row with members added to its tags and files. -/
def unionRow (tags linkedFiles : List String) (r : NoteRow) : NoteRow :=
  { r with tags := unionCsv r.tags tags, linkedFiles := unionCsv r.linkedFiles linkedFiles }

/-- A row archived if it was active. -/
def archiveRow (r : NoteRow) : NoteRow :=
  { r with status := if r.status = "active" then "archived" else r.status }

theorem keepsIndexed_unionRow (tags linkedFiles : List String) :
    KeepsIndexed (unionRow tags linkedFiles) :=
  ⟨fun _ => rfl, fun _ => rfl, fun _ => rfl, fun _ => rfl⟩

theorem keepsIndexed_supersededBy (v : Option Nat) :
    KeepsIndexed (fun r => { r with supersededBy := v }) :=
  ⟨fun _ => rfl, fun _ => rfl, fun _ => rfl, fun _ => rfl⟩

/-- The store with `f` applied to the rows of the given ids. -/
def MemoryDb.mapIds (db : MemoryDb) (done : List Nat) (f : NoteRow → NoteRow) : MemoryDb :=
  db.updateRows (fun r => r.id ∈ done) f

section MapIds

variable {db : MemoryDb} {f : NoteRow → NoteRow}

@[simp] theorem mapIds_nil (db : MemoryDb) (f : NoteRow → NoteRow) : db.mapIds [] f = db :=
  updateRows_eq_self (fun _ _ h => absurd (of_decide_eq_true h) List.not_mem_nil)

/-- One more row done. -/
theorem updateRows_mapIds {done : List Nat} {x : Nat} {g : NoteRow → NoteRow}
    (hf : ∀ r, (f r).id = r.id) (hx : x ∉ done) (hg : ∀ r ∈ db.notes, r.id = x → g r = f r) :
    (db.mapIds done f).updateRows (fun r => r.id = x) g = db.mapIds (done ++ [x]) f := by
  simp only [mapIds, updateRows, List.map_map]
  congr 1
  refine List.map_congr_left (fun r hr => ?_)
  simp only [Function.comp_apply, List.mem_append, List.mem_singleton, decide_eq_true_eq]
  by_cases hdone : r.id ∈ done
  · have hne : r.id ≠ x := fun h => hx (h ▸ hdone)
    rw [if_pos hdone, if_pos (Or.inl hdone), hf, if_neg hne]
  · by_cases hrx : r.id = x
    · rw [if_neg hdone, if_pos hrx, if_pos (Or.inr hrx), hg r hr hrx]
    · rw [if_neg hdone, if_neg hrx, if_neg (fun h => h.elim hdone hrx)]

/-- A row on which `f` does nothing may be counted as done. -/
theorem mapIds_append_of_fixed {done : List Nat} {x : Nat}
    (h : ∀ r ∈ db.notes, r.id = x → f r = r) : db.mapIds (done ++ [x]) f = db.mapIds done f := by
  simp only [mapIds, updateRows]
  congr 1
  refine List.map_congr_left (fun r hr => ?_)
  simp only [List.mem_append, List.mem_singleton, decide_eq_true_eq]
  by_cases hdone : r.id ∈ done
  · rw [if_pos hdone, if_pos (Or.inl hdone)]
  · by_cases hrx : r.id = x
    · rw [if_neg hdone, if_pos (Or.inr hrx), h r hr hrx]
    · rw [if_neg hdone, if_neg (fun h => h.elim hdone hrx)]

/-- Once every row `f` changes is done, `f` has been applied throughout. -/
theorem mapIds_eq_map {done : List Nat} (h : ∀ r ∈ db.notes, r.id ∉ done → f r = r) :
    db.mapIds done f = { db with notes := db.notes.map f } := by
  simp only [mapIds, updateRows]
  congr 1
  refine List.map_congr_left (fun r hr => ?_)
  by_cases hdone : r.id ∈ done
  · rw [if_pos (decide_eq_true hdone)]
  · rw [if_neg (by simpa using hdone), h r hr hdone]

/-- A row that is not done is still there. -/
theorem mem_mapIds_of_notMem {done : List Nat} {r : NoteRow} (hr : r ∈ db.notes)
    (h : r.id ∉ done) : r ∈ (db.mapIds done f).notes :=
  List.mem_map.mpr ⟨r, hr, by rw [if_neg (by simpa using h)]⟩

end MapIds

/-- Archiving the active row of an id is archiving the row. -/
theorem updateRows_archiveRow (db : MemoryDb) (id : Nat) :
    db.updateRows (fun r => r.id = id ∧ r.status = "active") (fun r => { r with status := "archived" })
      = db.updateRows (fun r => r.id = id) archiveRow := by
  simp only [updateRows]
  congr 1
  refine List.map_congr_left (fun r _ => ?_)
  by_cases hid : r.id = id
  · subst hid
    by_cases hact : r.status = "active"
    · simp [hact, archiveRow]
    · simp [hact, archiveRow]
  · simp [hid]

/-- An update of unindexed columns that keeps content and status lawful keeps a
    store valid. -/
theorem MemoryDb.Valid.updateRows [Sha256] {db : MemoryDb} (hv : db.Valid) (p : NoteRow → Bool)
    {f : NoteRow → NoteRow} (hf : KeepsIndexed f) (hcontent : ∀ r, (f r).contentId = r.contentId)
    (hstatus : ∀ r, (f r).status = r.status ∨ (f r).status = "archived")
    (hsucc : ∀ r ∈ db.notes, p r → ∀ v ∈ (f r).supersededBy, v ∈ db.ids) :
    (db.updateRows p f).Valid := by
  have hrow : ∀ n ∈ (db.updateRows p f).notes, ∃ r ∈ db.notes, n.id = r.id ∧
      n.entityId = r.entityId ∧ n.contentId = r.contentId ∧
      (n.status = r.status ∨ n.status = "archived") := by
    intro n hn
    rcases List.mem_map.mp hn with ⟨r, hr, rfl⟩
    refine ⟨r, hr, ?_⟩
    split
    · exact ⟨hf.id r, hf.entityId r, hcontent r, hstatus r⟩
    · exact ⟨rfl, rfl, rfl, Or.inl rfl⟩
  constructor
  case toSchemaOk =>
    refine ⟨hv.unique.updateRows p hf, hv.foreignKeys.updateRows p hf.id hsucc, fun n hn => ?_⟩
    rcases hrow n hn with ⟨r, hr, hid, _⟩
    exact hid ▸ hv.id_lt r hr
  case status =>
    intro n hn
    rcases hrow n hn with ⟨r, hr, _, _, _, h | h⟩
    · exact h ▸ hv.status r hr
    · exact Or.inr h
  case entity =>
    intro n hn
    rcases hrow n hn with ⟨r, hr, _, he, hc, _⟩
    rw [he, hc]
    exact hv.entity r hr

section Inserts

variable {db : MemoryDb}

/-- The store with one more row, under the next rowid. -/
def MemoryDb.insertRow (db : MemoryDb) (r : NoteRow) : MemoryDb :=
  { db with notes := db.notes ++ [{ r with id := db.nextId }], nextId := db.nextId + 1 }

/-- A row that no unique index refuses. -/
structure MemoryDb.Admits (db : MemoryDb) (r : NoteRow) : Prop where
  uuid : ∀ u ∈ r.uuid, ∀ x ∈ db.notes, x.uuid ≠ some u
  remoteId : ∀ u ∈ r.remoteId, ∀ x ∈ db.notes, x.remoteId ≠ some u
  entityId : db.entityIdUnique = true → ∀ e ∈ r.entityId, ∀ x ∈ db.notes, x.entityId ≠ some e

theorem ids_insertRow (db : MemoryDb) (r : NoteRow) :
    (db.insertRow r).ids = db.ids ++ [db.nextId] := by
  simp only [insertRow, ids, List.map_append, List.map_cons, List.map_nil]

/-- An admitted row without a successor keeps the schema. -/
theorem MemoryDb.SchemaOk.insertRow (hs : db.SchemaOk) {r : NoteRow} (hr : db.Admits r)
    (hsucc : r.supersededBy = none) : (db.insertRow r).SchemaOk := by
  have hids := ids_insertRow db r
  constructor
  case unique =>
    refine ⟨?_, ?_, ?_, fun hunique => ?_⟩
    · rw [hids, List.nodup_append]
      refine ⟨hs.unique.1, List.nodup_singleton _, fun a ha b hb => ?_⟩
      rcases List.mem_map.mp ha with ⟨x, hx, rfl⟩
      rw [List.mem_singleton.mp hb]
      exact (hs.id_lt x hx).ne
    · exact Lib.nodup_filterMap_concat hs.unique.2.1 hr.uuid
    · exact Lib.nodup_filterMap_concat hs.unique.2.2.1 hr.remoteId
    · exact Lib.nodup_filterMap_concat (hs.unique.2.2.2 hunique) (hr.entityId hunique)
  case foreignKeys =>
    refine ⟨fun n hn v hv => ?_, fun e he => ?_⟩
    · rw [hids]
      rcases List.mem_append.mp hn with hn | hn
      · exact List.mem_append_left _ (hs.foreignKeys.1 n hn v hv)
      · rw [List.mem_singleton.mp hn] at hv
        simp only [hsucc] at hv
        exact absurd hv (by simp)
    · rw [hids]
      have h := hs.foreignKeys.2 e he
      exact ⟨List.mem_append_left _ h.1, List.mem_append_left _ h.2⟩
  case id_lt =>
    intro n hn
    rcases List.mem_append.mp hn with hn | hn
    · exact (hs.id_lt n hn).trans (Nat.lt_succ_self _)
    · rw [List.mem_singleton.mp hn]
      exact Nat.lt_succ_self _

/-- A unique index refuses exactly the rows that are not admitted. -/
theorem uniqueOk_insertRow_iff (hs : db.SchemaOk) {r : NoteRow} (hsucc : r.supersededBy = none) :
    (db.insertRow r).UniqueOk ↔ db.Admits r := by
  refine ⟨fun h => ⟨?_, ?_, fun hunique => ?_⟩, fun h => (hs.insertRow h hsucc).unique⟩
  · exact Lib.ne_of_nodup_filterMap_concat (r := { r with id := db.nextId }) h.2.1
  · exact Lib.ne_of_nodup_filterMap_concat (r := { r with id := db.nextId }) h.2.2.1
  · exact Lib.ne_of_nodup_filterMap_concat (r := { r with id := db.nextId }) (h.2.2.2 hunique)

end Inserts

/-- The snapshot a run works from: every note, oldest first. -/
def MemoryDb.snapshot (db : MemoryDb) : List Note := db.rowsByAge.map rowToNote

section Snapshot

variable {db : MemoryDb}

theorem rowsByAge_perm (db : MemoryDb) : db.rowsByAge.Perm db.notes :=
  List.perm_insertionSort _ _

/-- The snapshot is in order of age. -/
theorem pairwise_snapshot (db : MemoryDb) : db.snapshot.Pairwise
    (fun a b => a.createdAt < b.createdAt ∨ (a.createdAt = b.createdAt ∧ a.id ≤ b.id)) := by
  have htotal : Std.Total olderRow := ⟨fun a b => by unfold olderRow; omega⟩
  have htrans : IsTrans NoteRow olderRow := ⟨fun a b c => by unfold olderRow; omega⟩
  rw [snapshot, List.pairwise_map]
  exact List.pairwise_insertionSort olderRow db.notes

theorem mem_snapshot {n : Note} : n ∈ db.snapshot ↔ ∃ r ∈ db.notes, rowToNote r = n := by
  simp only [snapshot, List.mem_map, (rowsByAge_perm db).mem_iff]

theorem map_id_snapshot_perm (db : MemoryDb) : (db.snapshot.map (·.id)).Perm db.ids := by
  rw [snapshot, List.map_map]
  exact (rowsByAge_perm db).map _

theorem nodup_snapshot_ids (hu : db.UniqueOk) : (db.snapshot.map (·.id)).Nodup :=
  (map_id_snapshot_perm db).nodup_iff.mpr hu.1

end Snapshot

/-- What an insert that may collide answers, and what it leaves of a store. -/
inductive InsertOutcome (db : MemoryDb) (r : NoteRow) (e : String) (tags linkedFiles : List String) :
    Nat × Bool → MemoryDb → Prop where
  | created : (db.insertRow r).UniqueOk →
      InsertOutcome db r e tags linkedFiles (db.nextId, true) (db.insertRow r)
  /-- A row stores the identity, and gains the members. -/
  | collided (x : NoteRow) : x ∈ db.notes → x.entityId = some e →
      InsertOutcome db r e tags linkedFiles (x.id, false)
        (db.updateRows (fun y => y.id = x.id) (unionRow tags linkedFiles))

section Specs

variable {db : MemoryDb}

/-- An admitted row is inserted. -/
theorem serves_insertNote (hs : db.SchemaOk) {r : NoteRow} (hr : db.Admits r)
    (hsucc : r.supersededBy = none) :
    Sql.Serves (fun s => s = db) (insertNote r)
      (fun id s => id = db.nextId ∧ s = db.insertRow r) := by
  have hok := hs.insertRow hr hsucc
  apply Sql.Serves.statement
  rintro s rfl
  exact ⟨_, _, checked_eq_ok hok.unique hok.foreignKeys, rfl, rfl⟩

/-- An update of unindexed columns whose successors are rows. -/
theorem serves_updateNotes (hu : db.UniqueOk) (hfk : db.ForeignKeysOk) (p : NoteRow → Bool)
    {f : NoteRow → NoteRow} (hf : KeepsIndexed f)
    (hsucc : ∀ r ∈ db.notes, p r → ∀ v ∈ (f r).supersededBy, v ∈ db.ids) :
    Sql.Serves (fun s => s = db) (updateNotes p f)
      (fun n s => n = db.notes.countP p ∧ s = db.updateRows p f) := by
  apply Sql.Serves.statement
  rintro s rfl
  exact ⟨_, _, checked_eq_ok (hu.updateRows p hf) (hfk.updateRows p hf.id hsucc), rfl, rfl⟩

/-- A row is what its id finds. -/
theorem find?_id (hu : db.UniqueOk) {r : NoteRow} (hr : r ∈ db.notes) :
    db.notes.find? (fun x => x.id = r.id) = some r := by
  rcases hf : db.notes.find? (fun x => x.id = r.id) with _ | x
  · rw [List.find?_eq_none] at hf
    exact absurd (decide_eq_true rfl) (hf r hr)
  · have hx := List.find?_some hf
    have hxr : x = r := eq_of_id_eq hu (List.mem_of_find?_eq_some hf) hr (of_decide_eq_true hx)
    exact hf.trans (congrArg some hxr)

theorem serves_noteById (hu : db.UniqueOk) {r : NoteRow} (hr : r ∈ db.notes) :
    Sql.Serves (fun s => s = db) (noteById r.id) (fun a s => a = r ∧ s = db) := by
  refine Sql.Serves.bind (Q := fun a s => a = some r ∧ s = db)
    (Sql.Serves.query (fun s hs => ⟨hs ▸ find?_id hu hr, hs⟩)) (fun a => ?_)
  intro c hc
  rcases hc with ⟨rfl, hdb⟩
  exact Or.inl ⟨r, rfl, ⟨rfl, hdb⟩, fun h => h⟩

theorem serves_unionTagsAndFiles (hu : db.UniqueOk) (hfk : db.ForeignKeysOk) {r : NoteRow}
    (hr : r ∈ db.notes) (tags linkedFiles : List String) :
    Sql.Serves (fun s => s = db) (unionTagsAndFiles r.id tags linkedFiles)
      (fun _ s => s = db.updateRows (fun x => x.id = r.id) (unionRow tags linkedFiles)) := by
  refine Sql.Serves.bind (serves_noteById hu hr) (fun a => ?_)
  by_cases ha : a = r
  swap
  · exact fun c hc => absurd hc.1 ha
  subst ha
  have honly : ∀ x ∈ db.notes, (decide (x.id = a.id) = true) → x = a := fun x hx hid =>
    eq_of_id_eq hu hx hr (of_decide_eq_true hid)
  simp only [Sql.bind_eq, Sql.pure_eq]
  split
  · next hsame =>
    -- Nothing is gained, so nothing is written.
    refine Sql.Serves.ok _ (fun s hs => ?_)
    rw [hs.2, updateRows_eq_self (fun x hx hid => ?_)]
    rw [honly x hx hid, unionRow, hsame.1, hsame.2]
  · refine Sql.Serves.bind (Q := fun _ s => s = db.updateRows (fun x => x.id = a.id)
      (unionRow tags linkedFiles)) ?_ (fun n => Sql.Serves.ok _ (fun s hs => hs))
    refine Sql.Serves.mono (serves_updateNotes hu hfk _ ?_ ?_) (fun s hs => hs.2) ?_
    · exact ⟨fun _ => rfl, fun _ => rfl, fun _ => rfl, fun _ => rfl⟩
    · exact fun x hx _ v hv => hfk.1 x hx v hv
    · rintro n s ⟨_, rfl⟩
      exact updateRows_congr (fun x hx hid => by rw [honly x hx hid]; rfl)

theorem serves_setSupersededBy (hu : db.UniqueOk) (hfk : db.ForeignKeysOk) (noteId : Nat)
    {successorId : Nat} (hsucc : successorId ∈ db.ids) :
    Sql.Serves (fun s => s = db) (setSupersededBy noteId successorId)
      (fun _ s => s = db.updateRows (fun r => r.id = noteId)
        (fun r => { r with supersededBy := some successorId })) := by
  refine Sql.Serves.bind (serves_updateNotes hu hfk _ (keepsIndexed_supersededBy _) ?_)
    (fun n => Sql.Serves.ok _ (fun s hs => hs.2))
  intro r _ _ v hv
  rw [Option.mem_some_iff] at hv
  exact hv ▸ hsucc

theorem serves_clearSupersededBy (hu : db.UniqueOk) (hfk : db.ForeignKeysOk) (noteId : Nat) :
    Sql.Serves (fun s => s = db) (clearSupersededBy noteId)
      (fun _ s => s = db.updateRows (fun r => r.id = noteId)
        (fun r => { r with supersededBy := none })) := by
  refine Sql.Serves.bind (serves_updateNotes hu hfk _ (keepsIndexed_supersededBy _) ?_)
    (fun n => Sql.Serves.ok _ (fun s hs => hs.2))
  intro r _ _ v hv
  exact absurd hv (by simp)

theorem serves_archive (hu : db.UniqueOk) (hfk : db.ForeignKeysOk) (id : Nat) :
    Sql.Serves (fun s => s = db) (archive id)
      (fun _ s => s = db.updateRows (fun r => r.id = id) archiveRow) := by
  refine Sql.Serves.bind (serves_updateNotes hu hfk _ ?_ ?_) (fun n =>
    Sql.Serves.ok _ (fun s hs => ?_))
  · exact ⟨fun _ => rfl, fun _ => rfl, fun _ => rfl, fun _ => rfl⟩
  · exact fun r hr _ v hv => hfk.1 r hr v hv
  · rw [hs.2, updateRows_archiveRow]

theorem serves_allNotesForDedup :
    Sql.Serves (fun s => s = db) allNotesForDedup
      (fun all s => all = db.rowsByAge.map rowToNote ∧ s = db) :=
  Sql.Serves.query (fun _ hs => ⟨hs ▸ rfl, hs⟩)

/-! ### All outcomes -/

theorem post_updateNotes (p : NoteRow → Bool) (f : NoteRow → NoteRow) :
    Sql.Post (fun s => s = db) (updateNotes p f)
      (fun n s => n = db.notes.countP p ∧ s = db.updateRows p f) (fun s => s = db) := by
  refine Sql.Post.statement (fun s n s' hs hrun => ?_) (fun _ hs => hs)
  subst hs
  obtain ⟨rfl, rfl, -⟩ := of_checked_eq_ok hrun
  exact ⟨rfl, rfl⟩

theorem post_insertNote (r : NoteRow) :
    Sql.Post (fun s => s = db) (insertNote r)
      (fun id s => id = db.nextId ∧ s = db.insertRow r ∧ (db.insertRow r).UniqueOk)
      (fun s => s = db) := by
  refine Sql.Post.statement (fun s id s' hs hrun => ?_) (fun _ hs => hs)
  subst hs
  obtain ⟨rfl, rfl, hu, -⟩ := of_checked_eq_ok hrun
  exact ⟨rfl, rfl, hu⟩

/-- The union of members touches one row, if there is one. -/
theorem post_unionTagsAndFiles (hu : db.UniqueOk) (id : Nat) (tags linkedFiles : List String) :
    Sql.Post (fun s => s = db) (unionTagsAndFiles id tags linkedFiles)
      (fun _ s => (∃ x ∈ db.notes, x.id = id) ∧
        s = db.updateRows (fun y => y.id = id) (unionRow tags linkedFiles)) (fun s => s = db) := by
  refine Sql.Post.bind (Q := fun x s => (x ∈ db.notes ∧ x.id = id) ∧ s = db) ?_
    (fun x => Sql.Post.of_pre fun hx => ?_)
  · refine Sql.Post.bind (Q := fun found s => found = db.notes.find? (fun r => r.id = id) ∧ s = db)
      (Sql.Post.query _ (fun s hs => ⟨by rw [hs], hs⟩) (fun _ hs => hs))
      (fun found => Sql.Post.of_pre fun hfound => ?_)
    cases found with
    | none => exact Sql.Post.fail _ fun _ hs => hs
    | some x =>
      have hid := List.find?_some hfound.symm
      exact Sql.Post.ok _ fun _ hs =>
        ⟨⟨List.mem_of_find?_eq_some hfound.symm, of_decide_eq_true hid⟩, hs⟩
  obtain ⟨hmem, rfl⟩ := hx
  have honly : ∀ y ∈ db.notes, decide (y.id = x.id) = true → y = x := fun y hy hid =>
    eq_of_id_eq hu hy hmem (of_decide_eq_true hid)
  simp only [Sql.bind_eq, Sql.pure_eq]
  split
  · next hsame =>
    refine Sql.Post.ok _ (fun s hs => ⟨⟨x, hmem, rfl⟩, ?_⟩)
    rw [hs, updateRows_eq_self fun y hy hid => ?_]
    rw [honly y hy hid, unionRow, hsame.1, hsame.2]
  · refine Sql.Post.bind (post_updateNotes _ _) (fun _ => Sql.Post.ok _ fun s hs => ?_)
    refine ⟨⟨x, hmem, rfl⟩, hs.2.trans ?_⟩
    exact updateRows_congr fun y hy hid => by rw [honly y hy hid]; rfl

/-- An insert creates its row, or ends at a row of its identity, or leaves no trace. -/
theorem post_insertOutcome (hu : db.UniqueOk) (r : NoteRow) (e : String)
    (tags linkedFiles : List String) :
    Sql.Post (fun s => s = db)
      ((Sql.attempt (insertNote r)).andThen
        (fun result => recoverFromEntityIdCollision result e tags linkedFiles))
      (InsertOutcome db r e tags linkedFiles) (fun s => s = db) := by
  refine Sql.Post.bind (Q := fun result s => match result with
      | .ok id => InsertOutcome db r e tags linkedFiles (id, true) s
      | .error _ => s = db)
    (Sql.Post.attempt (post_insertNote r) ?_ ?_) (fun result => ?_)
  · rintro id s ⟨rfl, rfl, hu⟩
    exact .created hu
  · exact fun _ _ hs => hs
  rcases result with (_ | _ | _ | _) | id
  case ok => exact Sql.Post.ok _ fun _ hs => hs
  case error.unique =>
    refine Sql.Post.bind (Q := fun found s =>
      found = db.notes.find? (fun r => r.entityId = some e) ∧ s = db)
      (Sql.Post.query _ (fun s hs => ⟨by rw [hs], hs⟩) (fun _ hs => hs))
      (fun found => Sql.Post.of_pre fun hfound => ?_)
    cases found with
    | none => exact Sql.Post.fail _ fun _ hs => hs
    | some x =>
      have hxe := List.find?_some hfound.symm
      refine Sql.Post.bind (post_unionTagsAndFiles hu x.id tags linkedFiles)
        (fun _ => Sql.Post.ok _ fun s hs => ?_)
      rw [hs.2]
      exact .collided x (List.mem_of_find?_eq_some hfound.symm) (of_decide_eq_true hxe)
  all_goals exact Sql.Post.fail _ fun _ hs => hs

end Specs

end Spelunk
