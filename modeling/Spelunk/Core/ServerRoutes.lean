import Spelunk.Core.Server
import Spelunk.Lib.Paging

/-!
# The Team Server's Memory Routes

The handlers that write memory entries. A batch push is validated as a whole
before anything is stored; its entries are then stored one statement after the
other, in no transaction. One lock is held from the first statement of a request
to its last, so requests do not interleave.

The injection patterns are regular expressions of a library, and the embedder is
a model, so both are fields of the state a handler runs with.

## Main definitions

* `AppState`: What a handler reads besides the database.
* `BatchNoteItem`, `BatchItemResult`, `BatchReply`: A batch and its answer.
* `validateBatch`: The checks before anything is stored.
* `pushMemoryBatch`: `POST /memory/batch`.
* `Request`, `serve`: The writing routes together.
* `Reply`, `respond`: The same with their answers.
* `Server.notesSince`: One page of the entries after a time.
* `Server.Operation`: The writing operations of the database.
* `Stream`: The stream, as far as it has come.
* `streamRound`: One round of the loop.
* `streamStep`: The stream next to the writes.
-/

namespace Spelunk

open Lib (Sql SqlError)

/-- What a handler runs with: the configuration of the server, its clock, the
    injection patterns (the field and category of a match), and the embedder,
    `none` where it is not ready or fails. -/
structure AppState where
  embeddingDim : Nat
  embeddingModel : String
  now : Int
  scanForInjection : String → String → Option (String × String)
  embed : String → Option (List UInt32)

/-- One entry of a batch. -/
structure BatchNoteItem where
  kind : String
  title : String
  body : Option String
  externalId : String
  sourceCommit : Option String
  embedding : Option (List UInt32)
deriving DecidableEq, Repr

/-- What became of an entry. -/
inductive ItemStatus where
  | created
  | skipped
  | failed
deriving DecidableEq, Repr

/-- The answer to one entry; `id` is the `sync_id` of its row. -/
structure BatchItemResult where
  status : ItemStatus
  externalId : String
  id : Option String
deriving DecidableEq, Repr

/-- The answer to a batch. -/
inductive BatchReply where
  | multiStatus (created skipped failed : Nat) (results : List BatchItemResult)
  | injectionDetected (entry : Nat) (field category : String)
deriving DecidableEq, Repr

def maxTitleLen : Nat := 500
def maxBodyLen : Nat := 50000
def maxSlugLen : Nat := 200
def maxBatchEntries : Nat := 200

section Validation

def validateProjectSlug (slug : String) : Except SqlError Unit :=
  let length := slug.utf8ByteSize
  if slug = "" then .error (.refused "project_id must not be empty")
  else if maxSlugLen < length then
    .error (.refused s!"project_id exceeds maximum length of {maxSlugLen} bytes (got {length})")
  else .ok ()

def validateTitleBody (title body : String) : Except String Unit :=
  let titleLength := title.length
  let bodyLength := body.length
  if maxTitleLen < titleLength then
    .error s!"title exceeds maximum length of {maxTitleLen} characters (got {titleLength})"
  else if maxBodyLen < bodyLength then
    .error s!"body exceeds maximum length of {maxBodyLen} characters (got {bodyLength})"
  else .ok ()

def validateEmbeddingDim (embedding : Option (List UInt32)) (configuredDim : Nat) :
    Except String Unit :=
  match embedding with
  | some v =>
      let length := v.length
      if configuredDim ≠ 0 ∧ length ≠ configuredDim then
        .error s!"embedding vector length {length} does not match server's configured dimension {configuredDim}"
      else .ok ()
  | none => .ok ()

/-- The checks of entry `i`: its caps, its external id, its text. -/
def validateEntry (state : AppState) (i : Nat) (entry : BatchNoteItem) :
    Except SqlError (Option BatchReply) :=
  match validateTitleBody entry.title (entry.body.getD "") with
  | .error msg => .error (.refused s!"entry {i}: {msg}")
  | .ok () =>
      match validateEmbeddingDim entry.embedding state.embeddingDim with
      | .error msg => .error (.refused s!"entry {i}: {msg}")
      | .ok () =>
          if entry.externalId = "" then
            .error (.refused s!"entry {i}: external_id must not be empty")
          else
            .ok ((state.scanForInjection entry.title (entry.body.getD "")).map
              (fun m => .injectionDetected i m.1 m.2))

/-- The entries are checked in order up to the first that is rejected. -/
def validateEntries (state : AppState) : Nat → List BatchNoteItem → Except SqlError (Option BatchReply)
  | _, [] => .ok none
  | i, entry :: rest =>
      match validateEntry state i entry with
      | .ok none => validateEntries state (i + 1) rest
      | rejected => rejected

/-- The checks of a batch before anything is stored. -/
def validateBatch (state : AppState) (slug : String) (entries : List BatchNoteItem) :
    Except SqlError (Option BatchReply) :=
  let length := entries.length
  match validateProjectSlug slug with
  | .error e => .error e
  | .ok () =>
      if maxBatchEntries < length then
        .error (.refused s!"batch_too_large: maximum {maxBatchEntries} entries per request (got {length})")
      else validateEntries state 0 entries

end Validation

namespace Server

/-- The text an entry is embedded as. -/
def embeddingText (title body : String) : String := s!"title: {title} | text: {body}"

/-- The vector of an entry: the client's, else the server's own. -/
def entryEmbedding (state : AppState) (title body : String) (embedding : Option (List UInt32)) :
    Option (List UInt32) :=
  embedding.or (state.embed (embeddingText title body))

variable [SyncClock]

/-- What the loop over a batch carries: the known external ids with their
    `sync_id`s, and the answers so far. -/
structure BatchLoop where
  existing : List (String × String)
  results : List BatchItemResult
  created : Nat
  skipped : Nat

/-- Store one entry of a batch, or skip it when its external id is known. -/
def pushEntry (state : AppState) (projectId : Nat) (s : BatchLoop) (entry : BatchNoteItem) :
    Sql ServerDb BatchLoop :=
  match s.existing.lookup entry.externalId with
  | some existingSyncId =>
      pure { s with
        results := s.results ++ [⟨.skipped, entry.externalId, some existingSyncId⟩]
        skipped := s.skipped + 1 }
  | none => do
      let body := entry.body.getD ""
      let tags := match entry.sourceCommit with
        | some sha => [s!"git:{sha}"]
        | none => []
      let (_, syncId) ← addNote state.now projectId entry.kind entry.title body tags []
        (entryEmbedding state entry.title body entry.embedding) (some entry.externalId)
      pure { s with
        existing := (entry.externalId, syncId) :: s.existing
        results := s.results ++ [⟨.created, entry.externalId, some syncId⟩]
        created := s.created + 1 }

/-- The part of a batch push behind the validation. -/
def storeBatch (state : AppState) (slug : String) (entries : List BatchNoteItem) :
    Sql ServerDb BatchReply := do
  let project ← upsertProject slug state.embeddingDim state.embeddingModel
  let existing ← findByRemoteIds project.id (entries.map (·.externalId))
  let s ← Sql.foldEach entries ⟨existing, [], 0, 0⟩ (pushEntry state project.id)
  pure (.multiStatus s.created s.skipped 0 s.results)

/-- `POST /memory/batch`. -/
def pushMemoryBatch (state : AppState) (slug : String) (entries : List BatchNoteItem) :
    Sql ServerDb BatchReply :=
  match validateBatch state slug entries with
  | .error e => Sql.fail e
  | .ok (some rejected) => pure rejected
  | .ok none => storeBatch state slug entries

/-- The project a route is about; there must be one. -/
def requireProject (slug : String) : Sql ServerDb Project := do
  match validateProjectSlug slug with
  | .error e => Sql.fail e
  | .ok () =>
      match ← Sql.query (·.getProject slug) with
      | some p => pure p
      | none => Sql.fail (.refused "not found")

/-- The body of a `POST /memory`. -/
structure AddNoteRequest where
  kind : String
  title : String
  body : String
  tags : List String
  linkedFiles : List String
  embedding : Option (List UInt32)
deriving DecidableEq, Repr

/-- `POST /memory`: one entry without an external id. The search for conflicting
    entries behind the insert only adds relationship edges. -/
def addNoteRoute (state : AppState) (slug : String) (req : AddNoteRequest) : Sql ServerDb Unit :=
  match validateProjectSlug slug with
  | .error e => Sql.fail e
  | .ok () =>
      match validateTitleBody req.title req.body with
      | .error msg => Sql.fail (.refused msg)
      | .ok () =>
          match validateEmbeddingDim req.embedding state.embeddingDim with
          | .error msg => Sql.fail (.refused msg)
          | .ok () =>
              if (state.scanForInjection req.title req.body).isSome then pure ()
              else do
                let embedding := entryEmbedding state req.title req.body req.embedding
                let dim := (embedding.map List.length).getD 0
                let project ← upsertProject slug dim state.embeddingModel
                let _ ← addNote state.now project.id req.kind req.title req.body req.tags
                  req.linkedFiles embedding none
                pure ()

/-- The writing routes with their arguments. -/
inductive Request where
  | addNote (slug : String) (req : AddNoteRequest)
  | pushBatch (slug : String) (entries : List BatchNoteItem)
  | archive (slug : String) (noteId : Nat)
  | supersede (slug : String) (noteId newId : Nat)
  | delete (slug : String) (noteId : Nat)

/-- Serve one request. -/
def serve (state : AppState) : Request → Sql ServerDb Unit
  | .addNote slug req => addNoteRoute state slug req
  | .pushBatch slug entries => do
      let _ ← pushMemoryBatch state slug entries
      pure ()
  | .archive slug noteId => do
      let project ← requireProject slug
      let _ ← archiveNote project.id noteId
      pure ()
  | .supersede slug noteId newId => do
      let project ← requireProject slug
      let _ ← supersedeNote project.id noteId newId
      pure ()
  | .delete slug noteId => do
      let project ← requireProject slug
      let _ ← deleteNote project.id noteId
      pure ()

/-- The answers of the writing routes; `changed` is whether a record was modified. -/
inductive Reply where
  | stored
  | batch (reply : BatchReply)
  | changed (modified : Bool)
deriving DecidableEq, Repr

/-- Answer one request. -/
def respond (state : AppState) : Request → Sql ServerDb Reply
  | .addNote slug req => do
      addNoteRoute state slug req
      pure .stored
  | .pushBatch slug entries => do
      let reply ← pushMemoryBatch state slug entries
      pure (.batch reply)
  | .archive slug noteId => do
      let project ← requireProject slug
      let changed ← archiveNote project.id noteId
      pure (.changed changed)
  | .supersede slug noteId newId => do
      let project ← requireProject slug
      let changed ← supersedeNote project.id noteId newId
      pure (.changed changed)
  | .delete slug noteId => do
      let project ← requireProject slug
      let changed ← deleteNote project.id noteId
      pure (.changed changed)

/-- Serving a request is answering it. -/
theorem serve_eq_respond (state : AppState) (req : Request) :
    serve state req = (respond state req).andThen (fun _ => Sql.ok ()) := by
  have hunit : ∀ m : Sql ServerDb Unit, m = m.andThen (fun _ => Sql.ok ()) := by
    intro m
    funext c
    simp only [Sql.andThen]
    rcases m c with ⟨_ | ⟨⟩, c'⟩ <;> rfl
  cases req with
  | addNote slug req =>
      simp only [serve, respond, Sql.bind_eq, Sql.andThen_assoc]
      exact hunit (addNoteRoute state slug req)
  | pushBatch slug entries => simp only [serve, respond, Sql.bind_eq, Sql.andThen_assoc]; rfl
  | archive slug noteId => simp only [serve, respond, Sql.bind_eq, Sql.andThen_assoc]; rfl
  | supersede slug noteId newId => simp only [serve, respond, Sql.bind_eq, Sql.andThen_assoc]; rfl
  | delete slug noteId => simp only [serve, respond, Sql.bind_eq, Sql.andThen_assoc]; rfl

end Server

end Spelunk

namespace Spelunk

open Lib (Sql SqlError)

namespace Server

/-! ### The Team Server's Stream of New Entries

`GET /memory/stream`: a loop that polls the database once per second for entries
written after the newest it has sent, by their whole-second creation time, and
sends them. It never ends by itself; a database error or a missing project makes
it skip a round. Between two rounds anything may be written.
-/

/-- The entries of a project that are not archived. -/
def shownOf (projectId : Nat) (db : ServerDb) : List ServerRow :=
  db.notes.filter (fun r => r.projectId = projectId ∧ r.status ≠ "archived")

/-- The entries created after `sinceSecs`, oldest first; the limit is capped. -/
def notesSince (projectId : Nat) (sinceSecs : Int) (limit : Nat) : Sql ServerDb (List ServerRow) :=
  Sql.query fun db =>
    Lib.Paging.page (·.createdAt) sinceSecs (max 1 (min limit 500)) (shownOf projectId db)

/-- The operations the routes write with. `now` is the clock of the database when it
    executes the insert. -/
inductive Operation where
  | upsertProject (slug : String) (dim : Nat) (model : String)
  | addNote (now : Int) (projectId : Nat) (kind title body : String) (tags linkedFiles : List String)
      (embedding : Option (List UInt32)) (remoteId : Option String)
  | archiveNote (projectId noteId : Nat)
  | supersedeNote (projectId oldId newId : Nat)
  | deleteNote (projectId noteId : Nat)

/-- Execute an operation for its effect. -/
def Operation.run [SyncClock] : Operation → Sql ServerDb Unit
  | .upsertProject slug dim model => do
      let _ ← Server.upsertProject slug dim model
      pure ()
  | .addNote now projectId kind title body tags linkedFiles embedding remoteId => do
      let _ ← Server.addNote now projectId kind title body tags linkedFiles embedding remoteId
      pure ()
  | .archiveNote projectId noteId => do
      let _ ← Server.archiveNote projectId noteId
      pure ()
  | .supersedeNote projectId oldId newId => do
      let _ ← Server.supersedeNote projectId oldId newId
      pure ()
  | .deleteNote projectId noteId => do
      let _ ← Server.deleteNote projectId noteId
      pure ()

end Server

/-- The stream: the newest creation time it has sent, where it started, and what it
    has sent. -/
structure Stream where
  lastSeen : Int
  emitted : List ServerRow

/-- Send one entry. -/
def Stream.emit (s : Stream) (note : ServerRow) : Stream where
  lastSeen := if s.lastSeen < note.createdAt then note.createdAt else s.lastSeen
  emitted := s.emitted ++ [note]

/-- One round of the loop of `memory_stream`. -/
def streamRound (slug : String) (s : Stream) : Sql ServerDb Stream := do
  match ← Sql.attempt (Sql.query (fun db : ServerDb => db.getProject slug)) with
  | .ok (some p) => do
      match ← Sql.attempt (Server.notesSince p.id s.lastSeen 50) with
      | .ok notes => pure (notes.foldl Stream.emit s)
      | .error _ => pure s
  | _ => pure s

/-- What happens while a stream is open: a write, or a round of the stream; each
    with a fault at a statement or none. -/
inductive StreamEvent where
  | write (op : Server.Operation) (failAfter : Option Nat)
  | poll (failAfter : Option Nat)

/-- The database and the stream after an event. -/
def streamStep [SyncClock] (slug : String) (σ : ServerDb × Stream) : StreamEvent → ServerDb × Stream
  | .write op failAfter => ((op.run ⟨σ.1, failAfter⟩).2.db, σ.2)
  | .poll failAfter =>
      match streamRound slug σ.2 ⟨σ.1, failAfter⟩ with
      | (.ok s, c) => (c.db, s)
      | (.error _, c) => (c.db, σ.2)

end Spelunk
