import Mathlib.Data.List.Sort
import Spelunk.Core.GitNotes
import Spelunk.Core.MemoryStore
import Spelunk.Lib.FirstOfKey

/-!
# Listing the Notes of a Commit

A listing by the prefix of a commit: the rows that record such a commit as their source, and
the rows of the entities that the notes ref has anchored to one. The anchors are read from
git for every listing; where that fails, or the store does not open a second time, only the
rows of the first kind are listed.

The ids of a hash map are here in the order in which the ref has them.

## Main definitions

* `like`: The operator.
* `statusGate`, `timeGate`: The gate.
* `listFiltered`, `listByEntityIds`: The queries.
* `recordsWithCommit`: The records of the ref with their commits.
* `entityIdsAnchoredTo`: The entities anchored to a commit.
* `augmentWithNoteAnchored`: Their rows among the others.
* `listBySourceRef`: The listing.
-/

namespace Spelunk

/-! ### Listing Notes

The two queries by which notes are listed, newest first: by kind and by a prefix of their
source, and by their identities. Both have the same gate on what is archived or is not valid
at a time. The prefix is a pattern of `LIKE`, as it is given.

In which order a query reads the rows is the database's; rows of one second stay in it.
-/

/-- A letter of either case as `LIKE` compares them: only ASCII letters have two cases. -/
def foldAscii (c : Char) : Char :=
  if 'A' ≤ c ∧ c ≤ 'Z' then Char.ofNat (c.toNat + 32) else c

/-- `text LIKE pattern`, of characters. -/
def like : List Char → List Char → Bool
  | [], text => text.isEmpty
  | p :: pattern, text =>
    if p = '%' then text.tails.any (like pattern)
    else match text with
      | [] => false
      | c :: rest => (p = '_' || foldAscii p = foldAscii c) && like pattern rest

/-- The longest pattern in bytes. -/
def maxLikePattern : ℕ := 50000

/-- The most values a statement may bind. -/
def maxBindings : ℕ := 32766

/-- Only what is active, unless archived entries or a time are asked for. -/
def statusGate (includeArchived : Bool) (asOf : Option Int) (r : NoteRow) : Bool :=
  includeArchived || asOf.isSome || r.status = "active"

/-- What is valid at a time. -/
def timeGate (asOf : Option Int) (r : NoteRow) : Bool :=
  match asOf with
  | none => true
  | some ts => decide (r.validAt.getD r.createdAt ≤ ts) && r.invalidAt.all (fun t => decide (ts < t))

/-- In which order the database reads the rows of a query. -/
structure ScanOrder where
  scan : List NoteRow → List NoteRow
  perm : ∀ rows, (scan rows).Perm rows

/-- `ORDER BY created_at DESC`. -/
def newestFirst (rows : List NoteRow) : List NoteRow :=
  rows.mergeSort fun a b => decide (b.createdAt ≤ a.createdAt)

/-- `list_filtered`; `none` where the pattern is too long to be compared with a row. -/
def listFiltered (order : ScanOrder) (db : MemoryDb) (kindFilter : Option String)
    (sourceRefPrefix : Option String) (limit : ℕ) (includeArchived : Bool) (asOf : Option Int) :
    Option (List NoteRow) :=
  let gated := db.notes.filter fun r =>
    statusGate includeArchived asOf r && kindFilter.all (fun kind => r.kind = kind)
  let tooLong := sourceRefPrefix.any fun p => decide (maxLikePattern < p.utf8ByteSize + 1)
  if tooLong && !gated.isEmpty then none
  else
    let rows := gated.filter fun r =>
      sourceRefPrefix.all (fun p => r.sourceRef.any fun s => like (p.toList ++ ['%']) s.toList) &&
        timeGate asOf r
    some ((newestFirst (order.scan rows)).take (min limit 500))

/-- `list_by_entity_ids`; `none` where there are too many identities. -/
def listByEntityIds (order : ScanOrder) (db : MemoryDb) (entityIds : List String) (limit : ℕ)
    (includeArchived : Bool) (asOf : Option Int) : Option (List NoteRow) :=
  if maxBindings < entityIds.length + asOf.toList.length then none
  else
    let rows := db.notes.filter fun r =>
      (r.entityId.any fun e => decide (e ∈ entityIds)) && statusGate includeArchived asOf r &&
        timeGate asOf r
    some ((newestFirst (order.scan rows)).take (min limit 500))

end Spelunk

namespace Spelunk

section Ref

variable [NoteJson]

/-- The records of each note with its commit. -/
def parseWithCommit : List (String × String) → Except CarrierError (List (String × NoteRecord))
  | [] => .ok []
  | (commit, blob) :: rest =>
      match parseRecords blob with
      | .error e => .error e
      | .ok records => (parseWithCommit rest).map (records.map (commit, ·) ++ ·)

/-- `records_with_commit`. -/
def recordsWithCommit (repo : NotesRepo) : Except CarrierError (List (String × NoteRecord)) :=
  if notedCommits repo ≠ [] ∧ repo.batchFails then .error .git
  else parseWithCommit (notedCommits repo)

variable [Sha256]

/-- `entity_ids_anchored_to`. -/
def entityIdsAnchoredTo (repo : NotesRepo) (shaPrefix : String) :
    Except CarrierError (List String) :=
  (recordsWithCommit repo).map fun records =>
    ((records.map fun p => p.2.resolveEntityId).eraseDups).filter fun entity =>
      (anchorCommits records entity).any fun commit =>
        decide (shaPrefix.toList <+: commit.toList)

end Ref

/-- What a listing reads: the store, the notes ref, in which orders the two queries read the rows,
    and whether the store opens for the second. -/
structure ListingWorld where
  db : MemoryDb
  repo : NotesRepo
  columnOrder : ScanOrder
  anchorOrder : ScanOrder
  reopens : Bool

/-- What is listed. -/
structure ListingArgs where
  sourceRef : String
  limit : ℕ
  archived : Bool
  asOf : Option Int
deriving DecidableEq

section Listing

variable [NoteJson] [Sha256]

/-- The rows that the anchors lead to; `none` where something fails or there is none. -/
def noteAnchored (world : ListingWorld) (args : ListingArgs) : Option (List NoteRow) :=
  match entityIdsAnchoredTo world.repo args.sourceRef with
  | .error _ => none
  | .ok ids =>
    if ids = [] ∨ world.reopens = false then none
    else
      match listByEntityIds world.anchorOrder world.db ids args.limit args.archived args.asOf with
      | none => none
      | some rows => if rows = [] then none else some rows

/-- `augment_with_note_anchored`. -/
def augmentWithNoteAnchored (world : ListingWorld) (args : ListingArgs) (found : List NoteRow) :
    List NoteRow :=
  match noteAnchored world args with
  | none => found
  | some anchored =>
    let unseen := Lib.keepFirst NoteRow.contentId (found.map NoteRow.contentId) anchored
    (newestFirst (found ++ unseen)).take (min args.limit 500)

/-- `memory list --source-ref`; `none` if the query fails. -/
def listBySourceRef (world : ListingWorld) (args : ListingArgs) : Option (List NoteRow) :=
  (listFiltered world.columnOrder world.db none (some args.sourceRef) args.limit args.archived
    args.asOf).map (augmentWithNoteAnchored world args)

end Listing

end Spelunk
