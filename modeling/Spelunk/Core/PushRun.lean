import Spelunk.Core.ServerRoutes
import Spelunk.Core.SyncStore

/-!
# A Push of the Local Store

A push sends the rows without a server id in chunks, records the id of every row the
server affirms, deletes the archived rows the server knows, and then sends the
relates_to edges that touch a row of this push. What the server answers is a parameter:
each request is answered or fails. A failed chunk ends the loop and skips the rest; a
failure of the edges is a warning.

Vectors are left out: whether a row has one changes nothing of this.

## Main definitions

* `MemoryDb.relatesToEdgesForSync`: The edges whose two ends are synced.
* `SyncRow.batchItem`: The entry of a batch that a row is sent as.
* `pushLocal`: The push.
* `pushRelatesToEdges`: Its last part.
* `applyPushAck`: A row that the relay pushed.
-/

namespace Spelunk

open Lib (Sql SqlError)

/-- What the server says about one entry of a batch. -/
structure CloudSync.BatchItemResult where
  externalId : Option String
  id : Option String
  status : String
deriving DecidableEq, Repr

/-- The answer to a batch. -/
structure CloudSync.BatchPushResult where
  created : Nat
  skipped : Nat
  failed : Nat
  results : List CloudSync.BatchItemResult
deriving DecidableEq, Repr

/-- What the server answers in one push: to each batch by its number, to each deletion,
    and to the edges. -/
structure PushServer where
  pushBatch : Nat → Option CloudSync.BatchPushResult
  deleteRemote : String → Bool
  pushEdges : Bool

/-- An edge with the rows and the uuids of its ends. -/
structure SyncEdge where
  fromLocalId : Nat
  toLocalId : Nat
  fromExternalId : String
  toExternalId : String
deriving DecidableEq, Repr

/-- The order of `ORDER BY created_at, from_id, to_id`. -/
def edgeOrder (a b : MemoryEdge) : Prop :=
  a.createdAt < b.createdAt ∨ (a.createdAt = b.createdAt ∧
    (a.fromId < b.fromId ∨ (a.fromId = b.fromId ∧ a.toId ≤ b.toId)))

instance : DecidableRel edgeOrder := fun a b => by
  unfold edgeOrder
  infer_instance

/-- The uuid of a row that has a server id. -/
def MemoryDb.syncedUuid (db : MemoryDb) (id : Nat) : Option String :=
  (db.notes.find? (fun r => r.id = id)).bind fun r => r.remoteId.bind fun _ => r.uuid

/-- The relates_to edges whose two ends have a server id and a uuid. -/
def MemoryDb.relatesToEdgesForSync (db : MemoryDb) : List SyncEdge :=
  ((db.edges.filter (fun e => e.kind = .relatesTo)).insertionSort edgeOrder).filterMap fun e =>
    (db.syncedUuid e.fromId).bind fun u =>
      (db.syncedUuid e.toId).map fun v => ⟨e.fromId, e.toId, u, v⟩

/-- The tallies of a push. `interrupted` says that a chunk failed; `posted` are the edges
    of a request that was answered, and `warned` says that there was none for a failure. -/
structure PushSummary where
  attempted : Nat
  created : Nat
  skipped : Nat
  failed : Nat
  alreadySynced : Nat
  interrupted : Bool
  posted : List SyncEdge
  warned : Bool
deriving DecidableEq, Repr

def PushSummary.empty : PushSummary :=
  { attempted := 0, created := 0, skipped := 0, failed := 0, alreadySynced := 0,
    interrupted := false, posted := [], warned := false }

/-- No failure is reported. -/
def PushSummary.clean (summary : PushSummary) : Bool :=
  !summary.interrupted && summary.failed = 0 && !summary.warned

def pushBatchChunkSize : Nat := 50

/-- The entry a row is sent as. A team server knows no field for the vector the client
    may attach, so none reaches it. -/
def SyncRow.batchItem (r : SyncRow) : BatchNoteItem where
  kind := r.kind
  title := r.title
  body := if r.body = "" then none else some r.body
  externalId := r.uuid
  sourceCommit := r.sourceRef
  embedding := none

/-- The tallies, and the rows this push recorded an id for. -/
structure PushLoop where
  summary : PushSummary
  justSynced : List Nat
deriving DecidableEq, Repr

namespace CloudSync.BatchItemResult

def durablyPersisted (item : CloudSync.BatchItemResult) : Bool :=
  item.status = "created" || item.status = "skipped"

/-- The row of the chunk that the result affirms, and its server id. -/
def affirmed (item : CloudSync.BatchItemResult) (chunk : List SyncRow) : Option (Nat × String) :=
  if item.durablyPersisted then
    item.externalId.bind fun ext => item.id.bind fun cloudId =>
      (chunk.find? (fun r => r.uuid = ext)).map fun r => (r.localId, cloudId)
  else none

end CloudSync.BatchItemResult

def PushSummary.tally (summary : PushSummary) (status : String) : PushSummary :=
  if status = "created" then { summary with created := summary.created + 1 }
  else if status = "skipped" then { summary with skipped := summary.skipped + 1 }
  else { summary with failed := summary.failed + 1 }

/-- One result of a batch. -/
def recordResult (chunk : List SyncRow) (s : PushLoop) (item : CloudSync.BatchItemResult) :
    Sql MemoryDb PushLoop := do
  let s := { s with summary := s.summary.tally item.status }
  match item.affirmed chunk with
  | none => pure s
  | some (localId, cloudId) => do
      setRemoteId localId cloudId
      pure { s with justSynced := localId :: s.justSynced }

/-- Where a batch has no results its own tallies count. -/
def PushLoop.aggregate (s : PushLoop) (res : CloudSync.BatchPushResult) : PushLoop :=
  if res.results = [] then
    { s with
      summary := { s.summary with
        created := s.summary.created + res.created
        skipped := s.summary.skipped + res.skipped
        failed := s.summary.failed + res.failed } }
  else s

/-- The chunks in turn, until one fails. -/
def pushChunks (server : PushServer) : Nat → List (List SyncRow) → PushLoop → Sql MemoryDb PushLoop
  | _, [], s => pure s
  | n, chunk :: rest, s =>
      match server.pushBatch n with
      | none => pure { s with summary := { s.summary with interrupted := true } }
      | some res => do
          let s ← Sql.foldEach res.results (s.aggregate res) (recordResult chunk)
          pushChunks server (n + 1) rest s

/-- Delete the archived rows that the server knows. -/
def deleteArchived (server : PushServer) (rows : List SyncRow) : Sql MemoryDb Unit :=
  Sql.forEach (rows.filter (·.archived)) fun r =>
    match r.remoteId with
    | none => pure ()
    | some remoteId =>
        if server.deleteRemote remoteId then pure () else Sql.fail (.refused "DELETE /memory")

/-- Send the edges that touch a row of this push. -/
def pushRelatesToEdges (server : PushServer) (justSynced : List Nat) :
    Sql MemoryDb (List SyncEdge) :=
  if justSynced = [] then pure []
  else do
    let all ← Sql.query (·.relatesToEdgesForSync)
    let edges := all.filter (fun e => e.fromLocalId ∈ justSynced ∨ e.toLocalId ∈ justSynced)
    if edges = [] then pure []
    else if server.pushEdges then pure edges
    else Sql.fail (.refused "POST /memory/batch (edges)")

/-- A push. -/
def pushLocal (includeArchived : Bool) (fresh : Nat → String) (server : PushServer) :
    Sql MemoryDb PushSummary := do
  let rows ← rowsForSync includeArchived fresh
  if rows = [] then pure PushSummary.empty
  else do
    let live := rows.filter (fun r => ¬ r.archived ∧ r.remoteId = none)
    let alreadySynced := (rows.filter (fun r => ¬ r.archived ∧ r.remoteId ≠ none)).length
    let s ← pushChunks server 0 (live.toChunks pushBatchChunkSize)
      { summary :=
          { PushSummary.empty with attempted := live.length, alreadySynced := alreadySynced },
        justSynced := [] }
    if s.summary.interrupted then pure s.summary
    else do
      Sql.whenever includeArchived (deleteArchived server rows)
      match ← Sql.attempt (pushRelatesToEdges server s.justSynced) with
      | .ok posted => pure { s.summary with posted := posted }
      | .error _ => pure { s.summary with warned := true }

/-- Record the server id of a row that the relay pushed; failures are passed over. -/
def applyPushAck (externalId remoteId : String) : Sql MemoryDb Unit := do
  match ← Sql.attempt (noteIdForUuid externalId) with
  | .ok (some localId) => do
      let _ ← Sql.attempt (setRemoteId localId remoteId)
      pure ()
  | _ => pure ()

end Spelunk
