import Spelunk.Theory.CandidateFold
import Spelunk.Theory.InsertRows

/-!
# The Import Transaction

Inserting the entries of a reconcile run. The entries have different
identities, none of which the store has, so no insert is refused and each gets
the next rowid; the transaction can only fail at a fault or at a vector of the
wrong size, and then it leaves nothing behind.

## Main definitions

* `entryRow`: The row an entry is inserted as.
* `MemoryDb.importRows`: The store with a row for each entry.
* `MemoryDb.Importable`: Entries the store can take.

## Theorems

* `Valid.importRows`: The store stays valid.
* `mem_importRows_notes`: The rows after the transaction.
* `serves_importBatch`: The transaction, with vectors of the right size.
* `post_importBatch`: The transaction, whatever happens.
-/

namespace Spelunk

open Lib (Sql SqlError)

open MemoryDb

variable [Sha256]

/-- The row an entry is inserted as. -/
def entryRow (m : MergedNote) : NoteRow :=
  { newRow m.kind m.title m.body m.createdAt with
    tags := some (joinCsv m.tags)
    linkedFiles := some (joinCsv m.linkedFiles)
    sourceRef := some "reconcile:server.db"
    status := if m.status = "archived" then "archived" else "active" }

/-- The store with a row for each entry, in order. -/
def MemoryDb.importRows (db : MemoryDb) (entries : List MergedNote) : MemoryDb :=
  entries.foldl (fun db m => db.insertRow (entryRow m)) db

/-- Entries of different identities, none of which the store has. -/
structure MemoryDb.Importable (db : MemoryDb) (entries : List MergedNote) : Prop where
  nodup : (entries.map (·.entityId)).Nodup
  entity : ∀ m ∈ entries, m.entityId = Spelunk.entityId m.kind m.title m.body
  absent : ∀ m ∈ entries, ∀ x ∈ db.notes, x.contentId ≠ m.entityId

section Rows

variable {db : MemoryDb}

theorem importRows_eq (db : MemoryDb) (entries : List MergedNote) :
    db.importRows entries = db.insertRows (entries.map entryRow) := by
  rw [importRows, insertRows, List.foldl_map]

@[simp] theorem importRows_nil (db : MemoryDb) : db.importRows [] = db := rfl

theorem importRows_concat (db : MemoryDb) (entries : List MergedNote) (m : MergedNote) :
    db.importRows (entries ++ [m]) = (db.importRows entries).insertRow (entryRow m) := by
  rw [importRows, List.foldl_append]
  rfl

theorem nextId_importRows (db : MemoryDb) (entries : List MergedNote) :
    (db.importRows entries).nextId = db.nextId + entries.length := by
  rw [importRows_eq, nextId_insertRows, List.length_map]

theorem entityIdUnique_importRows (db : MemoryDb) (entries : List MergedNote) :
    (db.importRows entries).entityIdUnique = db.entityIdUnique := by
  rw [importRows_eq, entityIdUnique_insertRows]

/-- The rows after the transaction: the old ones, then one for each entry. -/
theorem notes_importRows (db : MemoryDb) (entries : List MergedNote) :
    (db.importRows entries).notes
      = db.notes ++ (entries.zipIdx db.nextId).map (fun p => { entryRow p.1 with id := p.2 }) := by
  rw [importRows_eq, notes_insertRows, List.zipIdx_map, List.map_map]
  rfl

theorem mem_importRows_notes {entries : List MergedNote} {r : NoteRow} :
    r ∈ (db.importRows entries).notes ↔
      r ∈ db.notes ∨ ∃ p ∈ entries.zipIdx db.nextId, r = { entryRow p.1 with id := p.2 } := by
  rw [notes_importRows, List.mem_append, List.mem_map]
  simp only [eq_comm]

theorem newRow_entryRow (m : MergedNote) : NewRow (entryRow m) := by
  refine ⟨rfl, ?_, rfl⟩
  simp only [entryRow]
  split
  · exact Or.inr rfl
  · exact Or.inl rfl

theorem MemoryDb.Importable.of_append {done rest : List MergedNote} (h : db.Importable (done ++ rest)) :
    db.Importable done := by
  constructor
  case nodup =>
    have hn := h.nodup
    rw [List.map_append] at hn
    exact (List.nodup_append.mp hn).1
  case entity => exact fun m hm => h.entity m (List.mem_append_left _ hm)
  case absent => exact fun m hm => h.absent m (List.mem_append_left _ hm)

/-- The rows of such entries are rows the store takes. -/
theorem MemoryDb.Importable.takes {entries : List MergedNote} (h : db.Importable entries) :
    db.Takes (entries.map entryRow) := by
  constructor
  case new =>
    intro r hr
    rcases List.mem_map.mp hr with ⟨m, _, rfl⟩
    exact newRow_entryRow m
  case local_only =>
    intro r hr
    rcases List.mem_map.mp hr with ⟨m, _, rfl⟩
    exact ⟨rfl, rfl⟩
  case nodup =>
    have hmap : entries.map ((·.contentId) ∘ entryRow) = entries.map (·.entityId) :=
      List.map_congr_left (fun m hm => (h.entity m hm).symm)
    rw [List.map_map, hmap]
    exact h.nodup
  case absent =>
    intro r hr x hx hxe
    rcases List.mem_map.mp hr with ⟨m, hm, rfl⟩
    exact h.absent m hm x hx (hxe.trans (h.entity m hm).symm)

/-- An entry is admitted after the entries before it. -/
theorem admits_importRows (hv : db.Valid) {done : List MergedNote} {m : MergedNote}
    (h : db.Importable (done ++ [m])) : (db.importRows done).Admits (entryRow m) := by
  have htakes := h.takes
  rw [List.map_append, List.map_singleton] at htakes
  exact importRows_eq db done ▸ admits_insertRows hv htakes

/-- The store stays valid. -/
theorem MemoryDb.Valid.importRows (hv : db.Valid) {entries : List MergedNote}
    (h : db.Importable entries) : (db.importRows entries).Valid :=
  importRows_eq db entries ▸ hv.insertRows h.takes

end Rows

section Batch

variable {db : MemoryDb}

/-- An insert that is admitted answers the next rowid. -/
theorem serves_addNoteWithCreatedAt (hs : db.SchemaOk) (kind title body : String)
    (tags linkedFiles : List String) (sourceRef : Option String) (status : String)
    (createdAt : Int) {r : NoteRow}
    (hrow : r = { newRow kind title body createdAt with
      tags := some (joinCsv tags)
      linkedFiles := some (joinCsv linkedFiles)
      sourceRef := sourceRef
      status := status }) (hr : db.Admits r) :
    Sql.Serves (fun s => s = db)
      (addNoteWithCreatedAt kind title body tags linkedFiles sourceRef status createdAt)
      (fun p s => p = (db.nextId, true) ∧ s = db.insertRow r) := by
  have hok := hs.insertRow hr (by rw [hrow]; rfl)
  unfold addNoteWithCreatedAt insertNote
  simp only [Sql.bind_eq]
  refine Sql.Serves.attempt (Q := fun id s => id = db.nextId ∧ s = db.insertRow r) ?_ ?_ ?_
  · rintro s rfl
    subst hrow
    exact ⟨_, _, checked_eq_ok hok.unique hok.foreignKeys, rfl, rfl⟩
  · intro id
    exact Sql.Serves.ok _ (fun s h => ⟨by rw [h.1], h.2⟩)
  · exact fun c => ⟨.io, rfl⟩

omit [Sha256] in
/-- A vector of the right size is stored. -/
theorem serves_insertEmbedding (noteId : Nat) {blob : List UInt8}
    (hblob : blob.length = embeddingBytes) :
    Sql.Serves (fun s => ∃ emb, s = { db with embeddings := emb }) (insertEmbedding noteId blob)
      (fun _ s => ∃ emb, s = { db with embeddings := emb }) := by
  refine Sql.Serves.bind (Q := fun _ s => ∃ emb, s = { db with embeddings := emb })
    (Sql.Serves.execute ?_) (fun _ => Sql.Serves.execute ?_)
  · rintro s ⟨emb, rfl⟩
    exact ⟨_, rfl, _, rfl⟩
  · rintro s ⟨emb, rfl⟩
    exact ⟨_, if_neg (not_not.mpr hblob), _, rfl⟩

/-- The transaction, with vectors of the right size: the entries' rows are
    appended, and only the vectors change otherwise. -/
theorem serves_importBatch (hv : db.Valid) {notes : List (MergedNote × Option (List UInt8))}
    (h : db.Importable (notes.map (·.1)))
    (hblobs : ∀ n ∈ notes, ∀ blob ∈ n.2, blob.length = embeddingBytes) :
    Sql.Serves (fun s => s = db) (importBatch notes)
      (fun ids s => ids = List.range' db.nextId notes.length ∧
        ∃ emb, s = { db.importRows (notes.map (·.1)) with embeddings := emb }) := by
  refine Sql.Serves.transaction (Sql.Serves.mono (Sql.Serves.foldEach
    (I := fun done ids s => ids = List.range' db.nextId done.length ∧
      ∃ emb, s = { db.importRows (done.map (·.1)) with embeddings := emb }) notes [] ?_) ?_
    (fun _ _ hs => hs))
  · intro done n rest ids hsplit
    have hpart : db.Importable (done.map (·.1) ++ [n.1]) := by
      rw [hsplit, List.map_append, List.map_cons] at h
      refine Importable.of_append (?_ : db.Importable (_ ++ rest.map (·.1)))
      rwa [List.append_assoc, List.singleton_append]
    have hadmits := admits_importRows hv hpart
    have hvalid := hv.importRows hpart.of_append
    refine Sql.Serves.of_pre (fun hids => ?_)
    have hstep : ids ++ [(db.importRows (done.map (·.1))).nextId]
        = List.range' db.nextId (done ++ [n]).length := by
      rw [hids, nextId_importRows, List.length_map, List.length_append, List.length_singleton,
        List.range'_concat, Nat.one_mul]
    rw [List.map_append, List.map_singleton, importRows_concat]
    refine Sql.Serves.bind (Q := fun p s => p.1 = (db.importRows (done.map (·.1))).nextId ∧
      ∃ emb, s = { (db.importRows (done.map (·.1))).insertRow (entryRow n.1) with
        embeddings := emb }) ?_ ?_
    · refine Sql.Serves.of_exists (fun emb => ?_)
      have hs : ({ db.importRows (done.map (·.1)) with embeddings := emb } : MemoryDb).SchemaOk :=
        ⟨hvalid.unique, hvalid.foreignKeys, hvalid.id_lt⟩
      refine Sql.Serves.mono (serves_addNoteWithCreatedAt hs _ _ _ _ _ _ _ _ (r := entryRow n.1) rfl
        ⟨hadmits.uuid, hadmits.remoteId, hadmits.entityId⟩) (fun s hs => hs) ?_
      rintro p s ⟨rfl, rfl⟩
      exact ⟨rfl, emb, rfl⟩
    · intro p
      refine Sql.Serves.of_pre (fun hp => ?_)
      rcases hn : n.2 with _ | blob
      · refine Sql.Serves.ok _ (fun s hs => ⟨?_, hs⟩)
        rw [hp, hstep]
      · refine Sql.Serves.bind (serves_insertEmbedding p.1 (hblobs n ?_ blob hn))
          (fun _ => Sql.Serves.ok _ (fun s hs => ⟨?_, hs⟩))
        · exact hsplit ▸ List.mem_append_right _ List.mem_cons_self
        · rw [hp, hstep]
  · rintro s rfl
    exact ⟨rfl, _, rfl⟩

omit [Sha256] in
/-- A vector of another size stops its insert. -/
theorem post_insertEmbedding (noteId : Nat) (blob : List UInt8) :
    Sql.Post (fun _ => True) (insertEmbedding noteId blob)
      (fun _ _ => blob.length = embeddingBytes) (fun _ => True) := by
  refine Sql.Post.bind (Sql.Post.of_keeps (I := fun _ => True) (fun _ _ => trivial)) (fun _ => ?_)
  refine Sql.Post.statement (fun s a s' _ hf => ?_) (fun _ _ => trivial)
  by_contra hne
  exact absurd hf (by simp [hne, Except.map])

/-- The transaction succeeds only with vectors of the right size. -/
theorem post_importBatch_blobs (notes : List (MergedNote × Option (List UInt8))) :
    Sql.Post (fun _ => True) (importBatch notes)
      (fun _ _ => ∀ n ∈ notes, ∀ blob ∈ n.2, blob.length = embeddingBytes) (fun _ => True) := by
  refine Sql.Post.transaction (F := fun _ => True) (Sql.Post.mono (Sql.Post.foldEach
    (I := fun done _ _ => ∀ n ∈ done, ∀ blob ∈ n.2, blob.length = embeddingBytes) notes [] ?_)
    (fun _ _ n hn => absurd hn List.not_mem_nil) (fun _ _ hs => hs) (fun _ hs => hs))
    (fun _ _ => trivial)
  intro done n rest ids _
  have hdone : (∀ blob ∈ n.2, blob.length = embeddingBytes) →
      (∀ x ∈ done, ∀ blob ∈ x.2, blob.length = embeddingBytes) →
      ∀ x ∈ done ++ [n], ∀ blob ∈ x.2, blob.length = embeddingBytes := by
    intro hn hall x hx
    rcases List.mem_append.mp hx with hx | hx
    · exact hall x hx
    · rw [List.mem_singleton.mp hx]
      exact hn
  refine Sql.Post.of_fact (fun hc => Sql.Post.bind (Q := fun _ _ => True)
    (Sql.Post.of_keeps (I := fun _ => True) (fun _ _ => trivial)) (fun p => ?_))
  rcases hn : n.2 with _ | blob
  · exact Sql.Post.ok _ (fun _ _ => hdone (fun blob hb => by simp [hn] at hb) hc)
  · refine Sql.Post.bind (post_insertEmbedding p.1 blob) (fun _ => Sql.Post.ok _ (fun _ hb => ?_))
    refine hdone (fun b hbn => ?_) hc
    rw [hn, Option.mem_some_iff] at hbn
    exact hbn ▸ hb

/-- The transaction, whatever happens: every row or none. -/
theorem post_importBatch (hv : db.Valid) {notes : List (MergedNote × Option (List UInt8))}
    (h : db.Importable (notes.map (·.1))) :
    Sql.Post (fun s => s = db) (importBatch notes)
      (fun ids s => ids = List.range' db.nextId notes.length ∧
        ∃ emb, s = { db.importRows (notes.map (·.1)) with embeddings := emb })
      (fun s => s = db) := by
  intro c hc
  constructor
  · intro ids hids
    exact (serves_importBatch hv h ((post_importBatch_blobs notes c trivial).1 ids hids)).post hc hids
  · intro e he
    rw [← hc]
    exact Sql.transaction_undone _ _ _ he

end Batch

end Spelunk
