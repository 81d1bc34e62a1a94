import Spelunk.Core.Notes
import Spelunk.Lib.Grouping

/-!
# Collapsing Duplicate Entities

`memory dedupe` collapses every group of rows with one content identity onto
the oldest of them, in one transaction: first every survivor takes over what
its group knows, then every other row that points at a doomed one is pointed at
the survivor instead, then the doomed rows are deleted.

## Main definitions

* `backfillEntityIds`: Stores the identity of every row that lacks one.
* `promoteEntityIdUniqueIndex`: Makes the index unique when it can be.
* `openStore`: Both, as an open runs them.
* `DuplicateGroup`: A survivor and the rows that collapse onto it.
* `duplicateGroups`: The groups of a store.
* `loserToSurvivor`: Every doomed rowid, with its survivor's.
* `collapseGroupSurvivor`, `rewriteCrossReferences`, `deleteLoser`: The three phases.
* `applyDedupe`: The body of the transaction.
* `dedupeEntityIds`: The command.
-/

namespace Spelunk

open Lib (Sql SqlError)

/-! ### Identities on Open

Two steps run at every open of the store, after the schema migrations: rows
without a stored identity get one, and once no two rows share an identity the
index on it becomes unique. Neither stops the store from opening.
-/

variable [Sha256]

/-- Store the identity of every row that lacks one. A row that collides under
    the unique index is skipped; any other failure stops the open. -/
def backfillEntityIds : Sql MemoryDb Unit := do
  let rows ← selectNotes (fun r => r.entityId.isNone)
  Sql.forEach rows fun row => do
    match ← Sql.attempt (updateNotes (fun r => r.id = row.id)
        (fun r => { r with entityId := some row.contentId })) with
    | .ok _ => pure ()
    | .error .unique => pure ()
    | .error e => Sql.fail e

/-- Identities that more than one row stores. -/
def MemoryDb.entityIdDuplicates (db : MemoryDb) : Bool :=
  ¬ (db.notes.filterMap (·.entityId)).Nodup

/-- Make the index on `entity_id` unique, unless it is or some rows collide. -/
def promoteEntityIdUniqueIndex : Sql MemoryDb Unit :=
  Sql.execute fun db =>
    if db.entityIdUnique then .ok db
    else if db.entityIdDuplicates then .ok db
    else .ok { db with entityIdUnique := true }

/-- What an open does to a store whose schema is up to date. -/
def openStore : Sql MemoryDb Unit := do
  backfillEntityIds
  promoteEntityIdUniqueIndex

/-- A store without rows, as the first open leaves it. -/
def emptyStore : MemoryDb where
  notes := []
  edges := []
  embeddings := []
  nextId := 1
  entityIdUnique := true

omit [Sha256] in
/-- The tables the migrations create, before that open. -/
def createdStore : MemoryDb :=
  { emptyStore with entityIdUnique := false }

theorem valid_emptyStore : emptyStore.Valid where
  unique := by decide
  foreignKeys := by decide
  id_lt := fun _ hn => absurd hn List.not_mem_nil
  status := fun _ hn => absurd hn List.not_mem_nil
  entity := fun _ hn => absurd hn List.not_mem_nil

example : (@openStore workedSha256 ⟨createdStore, none⟩).2.db = emptyStore := by decide

end Spelunk

namespace Spelunk

open Lib (Sql SqlError)

/-- The counts one run reports. -/
structure DedupeSummary where
  totalNotes : Nat
  duplicateGroups : Nat
  rowsCollapsed : Nat
  tagsMerged : Nat
  linkedFilesMerged : Nat
  supersedeEdgesRepointed : Nat
  supersedeSelfEdgesDropped : Nat
deriving DecidableEq, Repr

/-- Rows of one identity, oldest first: at least two of them. -/
structure DuplicateGroup where
  survivor : Note
  losers : List Note
deriving DecidableEq, Repr

def DuplicateGroup.members (g : DuplicateGroup) : List Note := g.survivor :: g.losers

/-- The groups of more than one note, in order of first encounter. -/
def duplicateGroups [Sha256] (all : List Note) : List DuplicateGroup :=
  (Lib.groupBy noteEntityId all).filterMap fun group =>
    match group.2 with
    | survivor :: loser :: losers => some ⟨survivor, loser :: losers⟩
    | _ => none

/-- Every rowid that is deleted in this run, with its group's survivor. -/
def loserToSurvivor (groups : List DuplicateGroup) : List (Nat × Nat) :=
  groups.flatMap (fun g => g.losers.map (fun loser => (loser.id, g.survivor.id)))

/-- Index of the group a rowid belongs to. -/
def noteGroupOf (groups : List DuplicateGroup) (id : Nat) : Option Nat :=
  groups.findIdx? (fun g => g.members.any (fun n => n.id = id))

/-- Members the survivor lacks, in the order the losers bring them. -/
def newMembers (present : List String) (losers : List (List String)) : List String :=
  losers.foldl (fun new members => members.foldl (fun new t =>
    if t ∉ present ∧ t ∉ new then new ++ [t] else new) new) []

/-- Where a `superseded_by` value leads once the losers are gone; `none` when it
    would lead back to the survivor itself. -/
def resolveSuccessor (losers : List (Nat × Nat)) (survivorId v : Nat) : Option Nat :=
  let target := (losers.lookup v).getD v
  if target = survivorId then none else some target

/-- Phase 1, one group: the survivor takes over tags, files, archival and the
    first successor outside the group. -/
def collapseGroupSurvivor (group : DuplicateGroup) (losers : List (Nat × Nat))
    (summary : DedupeSummary) (apply : Bool) : Sql MemoryDb DedupeSummary := do
  let survivor := group.survivor
  let newTags := newMembers survivor.tags (group.losers.map (·.tags))
  let newFiles := newMembers survivor.linkedFiles (group.losers.map (·.linkedFiles))
  let anyArchived := group.members.any (fun n => n.status = "archived")
  let externalValues := group.members.filterMap
    (fun n => n.supersededBy.bind (resolveSuccessor losers survivor.id))
  let resolvedSurvivorTarget := externalValues.head?
  let selfEdgeDropped := survivor.supersededBy.map (resolveSuccessor losers survivor.id)
    = some none
  let summary := { summary with
    tagsMerged := summary.tagsMerged + newTags.length
    linkedFilesMerged := summary.linkedFilesMerged + newFiles.length
    supersedeSelfEdgesDropped := summary.supersedeSelfEdgesDropped + if selfEdgeDropped then 1 else 0
    rowsCollapsed := summary.rowsCollapsed + group.losers.length }
  if ¬ apply then
    pure summary
  else do
    Sql.whenever (newTags ≠ [] ∨ newFiles ≠ []) (unionTagsAndFiles survivor.id newTags newFiles)
    Sql.whenever anyArchived (archive survivor.id)
    match resolvedSurvivorTarget with
    | some val =>
        Sql.whenever (survivor.supersededBy ≠ some val) (setSupersededBy survivor.id val)
    | none => Sql.whenever survivor.supersededBy.isSome (clearSupersededBy survivor.id)
    pure summary

/-- Phase 2, one note: a note that is not a survivor and points at a doomed row
    is pointed at the survivor. -/
def rewriteCrossReference (groups : List DuplicateGroup) (losers : List (Nat × Nat))
    (apply : Bool) (summary : DedupeSummary) (note : Note) : Sql MemoryDb DedupeSummary := do
  if groups.any (fun g => g.survivor.id = note.id) then
    pure summary
  else
    match note.supersededBy with
    | none => pure summary
    | some v =>
        match losers.lookup v with
        | none => pure summary
        | some target => do
            let sameGroup := (noteGroupOf groups note.id).isSome
              ∧ noteGroupOf groups note.id = noteGroupOf groups v
            let summary := if sameGroup then summary else
              { summary with supersedeEdgesRepointed := summary.supersedeEdgesRepointed + 1 }
            Sql.whenever apply (setSupersededBy note.id target)
            pure summary

/-- Phase 3, one loser: its vector, its edges, then the row. -/
def deleteLoser (loserId : Nat) : Sql MemoryDb Unit := do
  deleteNoteEmbedding loserId
  deleteEdgesForNote loserId
  deleteNote loserId

/-- The three phases, with the groups collapsed in the order `order` and the
    losers deleted in the order `doomed`. -/
def applyDedupe (all : List Note) (groups order : List DuplicateGroup) (doomed : List Nat)
    (summary : DedupeSummary) : Sql MemoryDb DedupeSummary := do
  let losers := loserToSurvivor groups
  let summary ← Sql.foldEach order summary
    (fun summary group => collapseGroupSurvivor group losers summary true)
  let summary ← Sql.foldEach all summary (rewriteCrossReference groups losers true)
  Sql.forEach doomed deleteLoser
  pure summary

/-- Collapse every duplicate group in one all-or-nothing transaction. A dry run
    computes the same summary and writes nothing. -/
def dedupeEntityIds [Sha256] (dryRun : Bool) : Sql MemoryDb DedupeSummary := do
  let all ← allNotesForDedup
  let groups := duplicateGroups all
  let summary : DedupeSummary := ⟨all.length, groups.length, 0, 0, 0, 0, 0⟩
  if groups = [] then
    pure summary
  else if dryRun then do
    let losers := loserToSurvivor groups
    let summary ← Sql.foldEach groups summary
      (fun summary group => collapseGroupSurvivor group losers summary false)
    Sql.foldEach all summary (rewriteCrossReference groups losers false)
  else
    Sql.transaction (applyDedupe all groups groups
      (groups.flatMap (fun g => g.losers.map (·.id))) summary)

end Spelunk
