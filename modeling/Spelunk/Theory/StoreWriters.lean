import Spelunk.Core.Dedupe
import Spelunk.Core.SyncStore
import Spelunk.Theory.ImportRun

/-!
# What the Writers of a Store Have in Common

No writer of a local store changes what a row says. A row keeps its id and its
text, an archived row stays archived, an identity that is stored stays stored,
and a new row comes with the identity of its own text. An invariant that such
writes keep is therefore kept by every command that deletes nothing, wherever a
fault stops it, and it is proved once for each command here.

## Main definitions

* `RowWrite`: What a writer may do to a row.
* `WriteClosed`, `LinkClosed`: Invariants that such writes keep.
* `Extends`: A store with everything another one said.

## Theorems

* `WriteClosed.keeps_addNote`, `WriteClosed.keeps_applyRemoteNote`,
  `WriteClosed.keeps_openStore`: The commands that set no link.
* `LinkClosed.keeps_memorySupersede`, `LinkClosed.keeps_memoryAddSuperseding`,
  `LinkClosed.keeps_reconcileProject`: The commands that set one.
* `linkClosed_valid`, `linkClosed_extends`: Two such invariants.
-/

namespace Spelunk

open Lib (Sql SqlError)

open MemoryDb

variable [Sha256]

/-- What a writer may do to a row. -/
structure RowWrite (r r' : NoteRow) : Prop where
  id : r'.id = r.id
  content : r'.contentId = r.contentId
  entityId : r'.entityId = r.entityId ∨ r'.entityId = some r'.contentId
  status : r'.status = r.status ∨ r'.status = "archived"

/-- An invariant that every writer keeps which sets no link. -/
structure WriteClosed (I : MemoryDb → Prop) : Prop where
  update : ∀ {db p f}, I db →
    (∀ r ∈ db.notes, p r → RowWrite r (f r) ∧ (f r).supersededBy = r.supersededBy) →
    (db.updateRows p f).UniqueOk → (db.updateRows p f).ForeignKeysOk → I (db.updateRows p f)
  insert : ∀ {db r}, I db → NewRow r → (db.insertRow r).UniqueOk →
    (db.insertRow r).ForeignKeysOk → I (db.insertRow r)
  /-- Edges and vectors are beside the point. -/
  beside : ∀ {db : MemoryDb} edges embeddings, I db →
    ({ db with edges := edges, embeddings := embeddings } : MemoryDb).ForeignKeysOk →
    I { db with edges := edges, embeddings := embeddings }
  promote : ∀ {db : MemoryDb}, I db → (db.notes.filterMap (·.entityId)).Nodup →
    I { db with entityIdUnique := true }

/-- An invariant that every writer keeps. -/
structure LinkClosed (I : MemoryDb → Prop) : Prop extends WriteClosed I where
  link : ∀ {db p f}, I db → (∀ r ∈ db.notes, p r → RowWrite r (f r)) →
    (db.updateRows p f).UniqueOk → (db.updateRows p f).ForeignKeysOk → I (db.updateRows p f)

namespace RowWrite

theorem refl (r : NoteRow) : RowWrite r r :=
  ⟨rfl, rfl, Or.inl rfl, Or.inl rfl⟩

theorem trans {r r' r'' : NoteRow} (h : RowWrite r r') (h' : RowWrite r' r'') : RowWrite r r'' where
  id := h'.id.trans h.id
  content := h'.content.trans h.content
  entityId := by
    rcases h'.entityId with he | he
    · rcases h.entityId with he' | he'
      · exact Or.inl (he.trans he')
      · exact Or.inr (by rw [he, he', h'.content])
    · exact Or.inr he
  status := by
    rcases h'.status with hs | hs
    · rcases h.status with hs' | hs'
      · exact Or.inl (hs.trans hs')
      · exact Or.inr (hs.trans hs')
    · exact Or.inr hs

end RowWrite

namespace WriteClosed

variable {I : MemoryDb → Prop}

theorem keeps_updateNotes (hI : WriteClosed I) {p : NoteRow → Bool} {f : NoteRow → NoteRow}
    (hf : ∀ r, p r → RowWrite r (f r) ∧ (f r).supersededBy = r.supersededBy) :
    Sql.Keeps I (updateNotes p f) :=
  Sql.Keeps.statement (fun s n s' hs hrun => by
    rcases of_checked_eq_ok hrun with ⟨_, rfl, hu, hfk⟩
    exact hI.update hs (fun r _ hp => hf r hp) hu hfk)

theorem keeps_insertNote (hI : WriteClosed I) {r : NoteRow} (hr : NewRow r) :
    Sql.Keeps I (insertNote r) :=
  Sql.Keeps.statement (fun s n s' hs hrun => by
    rcases of_checked_eq_ok hrun with ⟨_, rfl, hu, hfk⟩
    exact hI.insert hs hr hu hfk)

theorem keeps_insertEdge (hI : WriteClosed I) (e : MemoryEdge) : Sql.Keeps I (insertEdge e) :=
  Sql.Keeps.statement (fun s n s' hs hrun => by
    split at hrun
    · rw [Except.ok.injEq, Prod.mk.injEq] at hrun
      exact hrun.2 ▸ hs
    · rcases of_checked_eq_ok hrun with ⟨_, rfl, _, hfk⟩
      exact hI.beside _ s.embeddings hs hfk)

theorem keeps_insertEmbedding (hI : WriteClosed I) (hfk : ∀ db, I db → db.ForeignKeysOk)
    (noteId : Nat) (blob : List UInt8) : Sql.Keeps I (insertEmbedding noteId blob) := by
  refine Sql.Keeps.bind (Sql.Keeps.execute (fun s s' hs hrun => ?_))
    (fun _ => Sql.Keeps.execute (fun s s' hs hrun => ?_))
  · rw [Except.ok.injEq] at hrun
    exact hrun ▸ hI.beside s.edges _ hs (hfk s hs)
  · split at hrun
    · exact absurd hrun (by simp)
    · rw [Except.ok.injEq] at hrun
      exact hrun ▸ hI.beside s.edges _ hs (hfk s hs)

theorem keeps_unionTagsAndFiles (hI : WriteClosed I) (id : Nat) (tags linkedFiles : List String) :
    Sql.Keeps I (unionTagsAndFiles id tags linkedFiles) := by
  refine Sql.Keeps.bind (Sql.Keeps.bind (Sql.Keeps.query _) (fun r => ?_)) (fun cur => ?_)
  · rcases r with _ | r
    · exact Sql.Keeps.fail _
    · exact Sql.Keeps.ok r
  · simp only [Sql.bind_eq, Sql.pure_eq]
    split
    · exact Sql.Keeps.ok _
    · exact Sql.Keeps.bind (hI.keeps_updateNotes (fun r _ =>
        ⟨⟨rfl, rfl, Or.inl rfl, Or.inl rfl⟩, rfl⟩)) (fun _ => Sql.Keeps.ok _)

theorem keeps_archive (hI : WriteClosed I) (id : Nat) : Sql.Keeps I (archive id) :=
  Sql.Keeps.bind (hI.keeps_updateNotes (fun _ _ => ⟨⟨rfl, rfl, Or.inl rfl, Or.inr rfl⟩, rfl⟩))
    (fun _ => Sql.Keeps.ok _)

theorem keeps_setRemoteId (hI : WriteClosed I) (id : Nat) (remoteId : String) :
    Sql.Keeps I (setRemoteId id remoteId) :=
  Sql.Keeps.bind (hI.keeps_updateNotes (fun _ _ => ⟨⟨rfl, rfl, Or.inl rfl, Or.inl rfl⟩, rfl⟩))
    (fun _ => Sql.Keeps.ok _)

theorem keeps_ensureUuid (hI : WriteClosed I) (id : Nat) (fresh : String) :
    Sql.Keeps I (ensureUuid id fresh) :=
  Sql.Keeps.bind (hI.keeps_updateNotes (fun _ _ => ⟨⟨rfl, rfl, Or.inl rfl, Or.inl rfl⟩, rfl⟩))
    (fun _ => Sql.Keeps.ok _)

theorem keeps_recoverFromEntityIdCollision (hI : WriteClosed I) (result : Except SqlError Nat)
    (e : String) (tags linkedFiles : List String) :
    Sql.Keeps I (recoverFromEntityIdCollision result e tags linkedFiles) := by
  rcases result with (_ | _ | _ | _) | id
  case ok => exact Sql.Keeps.ok _
  case error.unique =>
    refine Sql.Keeps.bind (Sql.Keeps.query _) (fun r => ?_)
    rcases r with _ | r
    · exact Sql.Keeps.fail _
    · exact Sql.Keeps.bind (hI.keeps_unionTagsAndFiles _ _ _) (fun _ => Sql.Keeps.ok _)
  all_goals exact Sql.Keeps.fail _

/-- An insert with the recovery from a collision. -/
theorem keeps_insertOrRecover (hI : WriteClosed I) {r : NoteRow} (hr : NewRow r) (e : String)
    (tags linkedFiles : List String) :
    Sql.Keeps I ((Sql.attempt (insertNote r)).andThen
      (fun result => recoverFromEntityIdCollision result e tags linkedFiles)) :=
  Sql.Keeps.bind (Sql.Keeps.attempt (hI.keeps_insertNote hr))
    (fun result => hI.keeps_recoverFromEntityIdCollision result _ _ _)

theorem keeps_addNote (hI : WriteClosed I) (now : Int) (kind title body : String)
    (tags linkedFiles : List String) (sourceRef : Option String) (validAt : Option Int) :
    Sql.Keeps I (addNote now kind title body tags linkedFiles sourceRef validAt) :=
  hI.keeps_insertOrRecover ⟨rfl, Or.inl rfl, rfl⟩ _ _ _

theorem keeps_addNoteWithCreatedAt (hI : WriteClosed I) (kind title body : String)
    (tags linkedFiles : List String) (sourceRef : Option String) {status : String}
    (hstatus : status = "active" ∨ status = "archived") (createdAt : Int) :
    Sql.Keeps I (addNoteWithCreatedAt kind title body tags linkedFiles sourceRef status createdAt) :=
  hI.keeps_insertOrRecover ⟨rfl, hstatus, rfl⟩ _ _ _

theorem keeps_applyRemoteNote (hI : WriteClosed I) (uuid remoteId kind title body : String)
    (sourceRef : Option String) (createdAt : Int) (archived : Bool) :
    Sql.Keeps I (applyRemoteNote uuid remoteId kind title body sourceRef createdAt archived) := by
  refine Sql.Keeps.bind (Sql.Keeps.query _) (fun existing => ?_)
  rcases existing with _ | id
  · refine Sql.Keeps.transaction (Sql.Keeps.bind (Sql.Keeps.attempt
      (hI.keeps_insertNote ⟨rfl, ?_, rfl⟩)) (fun r => Sql.Keeps.bind
        (hI.keeps_recoverFromEntityIdCollision r _ _ _) (fun p => ?_)))
    · cases archived
      · exact Or.inl rfl
      · exact Or.inr rfl
    · exact Sql.Keeps.bind (Sql.Keeps.whenever (Sql.Keeps.bind (hI.keeps_setRemoteId _ _)
        (fun _ => Sql.Keeps.whenever (hI.keeps_archive _)))) (fun _ => Sql.Keeps.ok _)
  · exact Sql.Keeps.bind (Sql.Keeps.whenever (hI.keeps_archive _)) (fun _ => Sql.Keeps.ok _)

/-- The backfill writes identities only, each into the row it was computed from. -/
theorem keeps_backfillEntityIds (hI : WriteClosed I) (hu : ∀ db, I db → db.UniqueOk) :
    Sql.Keeps I backfillEntityIds := by
  -- The rows read ahead still say what they said.
  let J := fun (rows : List NoteRow) (s : MemoryDb) =>
    I s ∧ ∀ row ∈ rows, ∀ r ∈ s.notes, r.id = row.id → r.contentId = row.contentId
  refine Sql.Post.keeps (Sql.Post.bind (Q := fun rows s => J rows s) (Sql.Post.query _ ?_
    (fun _ hs => hs)) (fun rows => ?_))
  · intro s hs
    refine ⟨hs, fun row hrow r hr hid => ?_⟩
    rw [eq_of_id_eq (hu s hs) hr (List.mem_of_mem_filter hrow) hid]
  · refine Sql.Post.mono (Sql.Post.of_keeps (Sql.Keeps.forEach (I := J rows) rows
      (fun row hrow => ?_))) (fun _ hs => hs) (fun _ _ hs => hs.1) (fun _ hs => hs.1)
    refine Sql.Keeps.bind (Sql.Keeps.attempt (Sql.Keeps.statement (fun s n s' hs hrun => ?_)))
      (fun result => ?_)
    · rcases of_checked_eq_ok hrun with ⟨_, rfl, hu', hfk⟩
      refine ⟨hI.update hs.1 (fun r hr hp => ⟨⟨rfl, rfl, Or.inr ?_, Or.inl rfl⟩, rfl⟩) hu' hfk, ?_⟩
      · have hcontent := hs.2 row hrow r hr (of_decide_eq_true hp)
        exact congrArg some hcontent.symm
      · intro row' hrow' n hn hid
        rcases List.mem_map.mp hn with ⟨r, hr, rfl⟩
        split at hid
        case isTrue hp =>
          rw [if_pos hp]
          exact hs.2 row' hrow' r hr hid
        case isFalse hp =>
          rw [if_neg hp]
          exact hs.2 row' hrow' r hr hid
    · rcases result with (_ | _ | _ | _) | n
      case ok => exact Sql.Keeps.ok ()
      case error.unique => exact Sql.Keeps.ok ()
      all_goals exact Sql.Keeps.fail _

theorem keeps_openStore (hI : WriteClosed I) (hu : ∀ db, I db → db.UniqueOk) :
    Sql.Keeps I openStore := by
  refine Sql.Keeps.bind (hI.keeps_backfillEntityIds hu) (fun _ => Sql.Keeps.execute
    (fun s s' hs hrun => ?_))
  split at hrun
  · exact Except.ok.inj hrun ▸ hs
  · split at hrun
    · exact Except.ok.inj hrun ▸ hs
    case isFalse hclean =>
      rw [entityIdDuplicates, decide_eq_true_eq, not_not] at hclean
      exact Except.ok.inj hrun ▸ hI.promote hs hclean

end WriteClosed

namespace LinkClosed

variable {I : MemoryDb → Prop}

theorem keeps_setSupersededBy (hI : LinkClosed I) (noteId successorId : Nat) :
    Sql.Keeps I (setSupersededBy noteId successorId) := by
  refine Sql.Keeps.bind (Sql.Keeps.statement (fun s n s' hs hrun => ?_)) (fun _ => Sql.Keeps.ok _)
  rcases of_checked_eq_ok hrun with ⟨_, rfl, hu, hfk⟩
  exact hI.link hs (fun _ _ _ => ⟨rfl, rfl, Or.inl rfl, Or.inl rfl⟩) hu hfk

/-- The update that archives a row under a successor. -/
theorem keeps_supersedeRow (hI : LinkClosed I) (now : Int) (p : NoteRow → Bool) (newId : Nat) :
    Sql.Keeps I (updateNotes p (supersededRow now newId)) := by
  refine Sql.Keeps.statement (fun s n s' hs hrun => ?_)
  rcases of_checked_eq_ok hrun with ⟨_, rfl, hu, hfk⟩
  exact hI.link hs (fun _ _ _ => ⟨rfl, rfl, Or.inl rfl, Or.inr rfl⟩) hu hfk

theorem keeps_memorySupersede (hI : LinkClosed I) (now : Int) (oldId newId : Nat) :
    Sql.Keeps I (memorySupersede now oldId newId) := by
  refine Sql.Keeps.bind (Sql.Keeps.query _) (fun found => ?_)
  rcases found with _ | r
  · exact Sql.Keeps.fail _
  refine Sql.Keeps.bind (Sql.Keeps.transaction (Sql.Keeps.bind (hI.keeps_supersedeRow now _ newId)
    (fun changed => ?_))) (fun superseded => ?_)
  · exact Sql.Keeps.bind (Sql.Keeps.whenever (hI.keeps_insertEdge _)) (fun _ => Sql.Keeps.ok _)
  · cases superseded
    · exact Sql.Keeps.fail _
    · exact Sql.Keeps.ok _

theorem keeps_addNoteSuperseding (hI : LinkClosed I) (now : Int) (kind title body : String)
    (tags linkedFiles : List String) (validAt : Option Int) (supersedesId : Nat) :
    Sql.Keeps I (addNoteSuperseding now kind title body tags linkedFiles validAt supersedesId) := by
  refine Sql.Keeps.transaction (Sql.Keeps.bind (Sql.Keeps.attempt
    (hI.keeps_insertNote ⟨rfl, Or.inl rfl, rfl⟩)) (fun result => Sql.Keeps.bind
      (hI.keeps_recoverFromEntityIdCollision result _ _ _) (fun p => ?_)))
  simp only [Sql.bind_eq, Sql.pure_eq]
  split
  · exact Sql.Keeps.ok _
  · refine Sql.Keeps.bind (hI.keeps_supersedeRow now _ _) (fun changed => ?_)
    split
    · exact Sql.Keeps.fail _
    · exact Sql.Keeps.bind (hI.keeps_insertEdge _) (fun _ => Sql.Keeps.ok _)

theorem keeps_memoryAddSuperseding (hI : LinkClosed I) (now : Int) (kind title body : String)
    (tags linkedFiles : List String) (validAt : Option Int) (supersedesId : Nat) :
    Sql.Keeps I
      (memoryAddSuperseding now kind title body tags linkedFiles validAt supersedesId) := by
  refine Sql.Keeps.bind (Sql.Keeps.query _) (fun found => ?_)
  rcases found with _ | old
  · exact Sql.Keeps.fail _
  simp only
  split
  · exact hI.keeps_addNoteSuperseding _ _ _ _ _ _ _ _
  · exact Sql.Keeps.fail _

theorem keeps_importBatch (hI : LinkClosed I) (hfk : ∀ db, I db → db.ForeignKeysOk)
    (notes : List (MergedNote × Option (List UInt8))) : Sql.Keeps I (importBatch notes) := by
  refine Sql.Keeps.transaction (Sql.Keeps.foldEach notes [] (fun ids note _ => ?_))
  refine Sql.Keeps.bind (hI.keeps_addNoteWithCreatedAt _ _ _ _ _ _ ?_ _) (fun p => ?_)
  · split
    · exact Or.inr rfl
    · exact Or.inl rfl
  · rcases note.2 with _ | blob
    · exact Sql.Keeps.ok _
    · exact Sql.Keeps.bind (hI.keeps_insertEmbedding hfk _ _) (fun _ => Sql.Keeps.ok _)

theorem keeps_reconcileProject (hI : LinkClosed I) (hfk : ∀ db, I db → db.ForeignKeysOk)
    (candidates : List ServerNote) (embed : String → Option (List UInt8)) (dryRun : Bool) :
    Sql.Keeps I (reconcileProject candidates embed dryRun) := by
  unfold reconcileProject
  simp only [Sql.bind_eq, Sql.pure_eq]
  split
  · exact Sql.Keeps.ok _
  refine Sql.Keeps.bind (Sql.Keeps.query _) (fun existing => ?_)
  split
  · exact Sql.Keeps.ok _
  refine Sql.Keeps.bind (Sql.Keeps.forEach _ (fun m _ => ?_)) (fun _ => ?_)
  · rcases entityToLocal existing m.entityId with _ | id
    · exact Sql.Keeps.ok ()
    · exact Sql.Keeps.bind (Sql.Keeps.attempt (hI.keeps_unionTagsAndFiles _ _ _))
        (fun _ => Sql.Keeps.ok _)
  · split
    · exact Sql.Keeps.ok _
    refine Sql.Keeps.bind (hI.keeps_importBatch hfk _) (fun ids => Sql.Keeps.bind
      (Sql.Keeps.foldEach _ _ (fun unresolved p _ => ?_)) (fun _ => Sql.Keeps.ok _))
    split
    · exact Sql.Keeps.ok _
    · exact Sql.Keeps.ok _
    · refine Sql.Keeps.bind (Sql.Keeps.attempt (hI.keeps_setSupersededBy _ _)) (fun result => ?_)
      cases result
      · exact Sql.Keeps.ok _
      · exact Sql.Keeps.ok _

end LinkClosed

/-- The store `s` has every row of `db`, changed only as writers do. -/
def Extends (db s : MemoryDb) : Prop :=
  ∀ n ∈ db.notes, ∃ m ∈ s.notes, RowWrite n m

theorem Extends.refl (db : MemoryDb) : Extends db db :=
  fun n hn => ⟨n, hn, RowWrite.refl n⟩

/-- Every store the schema and its writers produce. -/
theorem linkClosed_valid : LinkClosed MemoryDb.Valid := by
  have hlink : ∀ {db : MemoryDb} {p f}, db.Valid → (∀ r ∈ db.notes, p r → RowWrite r (f r)) →
      (db.updateRows p f).UniqueOk → (db.updateRows p f).ForeignKeysOk →
      (db.updateRows p f).Valid := by
    intro db p f hdb hf hu hfk
    have hrow : ∀ n ∈ (db.updateRows p f).notes, ∃ r ∈ db.notes, RowWrite r n := by
      intro n hn
      rcases List.mem_map.mp hn with ⟨r, hr, rfl⟩
      refine ⟨r, hr, ?_⟩
      split
      case isTrue hp => exact hf r hr hp
      case isFalse => exact RowWrite.refl r
    refine ⟨⟨hu, hfk, fun n hn => ?_⟩, fun n hn => ?_, fun n hn e he => ?_⟩
    · rcases hrow n hn with ⟨r, hr, hw⟩
      exact hw.id ▸ hdb.id_lt r hr
    · rcases hrow n hn with ⟨r, hr, hw⟩
      rcases hw.status with hs | hs
      · exact hs ▸ hdb.status r hr
      · exact Or.inr hs
    · rcases hrow n hn with ⟨r, hr, hw⟩
      rcases hw.entityId with h | h
      · rw [h] at he
        exact (hdb.entity r hr e he).trans hw.content.symm
      · rw [h, Option.mem_some_iff] at he
        exact he.symm
  refine ⟨⟨fun hdb hf => hlink hdb (fun r hr hp => (hf r hr hp).1), ?_, ?_, ?_⟩, hlink⟩
  · intro db r hdb hr hu hfk
    have hrow : ∀ n ∈ (db.insertRow r).notes, n ∈ db.notes ∨ n = { r with id := db.nextId } :=
      fun n hn => by
        rcases List.mem_append.mp hn with hn | hn
        · exact Or.inl hn
        · exact Or.inr (List.mem_singleton.mp hn)
    refine ⟨⟨hu, hfk, fun n hn => ?_⟩, fun n hn => ?_, fun n hn e he => ?_⟩
    · rcases hrow n hn with hn | rfl
      · exact (hdb.id_lt n hn).trans (Nat.lt_succ_self _)
      · exact Nat.lt_succ_self _
    · rcases hrow n hn with hn | rfl
      · exact hdb.status n hn
      · exact hr.status
    · rcases hrow n hn with hn | rfl
      · exact hdb.entity n hn e he
      · rw [show ({ r with id := db.nextId } : NoteRow).entityId = some r.contentId from hr.entityId,
          Option.mem_some_iff] at he
        exact he.symm
  · intro db edges embeddings hdb hfk
    exact ⟨⟨hdb.unique, hfk, hdb.id_lt⟩, hdb.status, hdb.entity⟩
  · intro db hdb hnodup
    exact ⟨⟨⟨hdb.unique.1, hdb.unique.2.1, hdb.unique.2.2.1, fun _ => hnodup⟩, hdb.foreignKeys,
      hdb.id_lt⟩, hdb.status, hdb.entity⟩

/-- Every store that has the rows of `db`. -/
theorem linkClosed_extends (db : MemoryDb) : LinkClosed (Extends db) := by
  have hlink : ∀ {s : MemoryDb} {p f}, Extends db s → (∀ r ∈ s.notes, p r → RowWrite r (f r)) →
      Extends db (s.updateRows p f) := by
    intro s p f hs hf n hn
    rcases hs n hn with ⟨m, hm, hw⟩
    refine ⟨_, List.mem_map_of_mem hm, ?_⟩
    split
    case isTrue hp => exact hw.trans (hf m hm hp)
    case isFalse => exact hw
  refine ⟨⟨fun hs hf _ _ => hlink hs (fun r hr hp => (hf r hr hp).1), ?_, ?_, ?_⟩,
    fun hs hf _ _ => hlink hs hf⟩
  · intro s r hs _ _ _ n hn
    rcases hs n hn with ⟨m, hm, hw⟩
    exact ⟨m, List.mem_append_left _ hm, hw⟩
  · exact fun _ _ hs _ => hs
  · exact fun hs _ => hs

end Spelunk
