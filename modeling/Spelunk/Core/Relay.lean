import Mathlib.Data.List.AList
import Mathlib.Data.String.Basic
import Mathlib.Order.WithBot
import Spelunk.Core.ServerRoutes

/-!
# The Local Relay

The server process in its role as a client: for each team project it keeps a
session that pushes what the command line offers and pulls what the team wrote,
and holds both until the command line has applied them. A poll hands out copies;
only an acknowledgement takes an entry out of the buffers.

The session's state sits behind a lock that is held over no request, so a push
and a catch-up are tasks in three parts: they begin (a catch-up notes the cursor),
build a client with the bearer of that moment, and are answered. Between two parts
of one task anything may happen to the session.

## Main definitions

* `RelayInner`: The state behind the lock.
* `RelayInner.pushAnswered`, `RelayInner.catchUpAnswered`: The answers of the server.
* `RelayInner.poll`, `RelayInner.ack`: The routes of the command line.
* `RelaySession`, `relayStep`: The session with its tasks, one event at a time.
* `PageOf`: What a server answers to a catch-up.
* `Server.notesSinceId`: How the team server of this repository answers one.
-/

namespace Spelunk

open Lib (Sql)

/-- One entry the command line offers. -/
structure RelayPushEntry where
  kind : String
  title : String
  body : Option String
  externalId : String
  sourceCommit : Option String
deriving DecidableEq, Repr

/-- The server's outcome for one entry of a batch, as the client reads it. -/
structure PushOutcome where
  status : String
  externalId : Option String
  id : Option String
deriving DecidableEq, Repr

/-- One entry of a page of `/memory/since`. -/
structure RemoteEntry where
  id : String
  kind : String
  title : String
  body : Option String
  sourceCommit : Option String
  archivedAt : Option String
  createdAt : String
deriving DecidableEq, Repr

def RemoteEntry.isArchived (e : RemoteEntry) : Bool := e.archivedAt.isSome

/-- The outcome of a push that waits for the command line. -/
structure RelayPushResult where
  externalId : String
  remoteId : Option String
  status : String
deriving DecidableEq, Repr

/-- A pulled entry that waits for the command line. -/
structure RelayPulledEntry where
  remoteId : String
  kind : String
  title : String
  body : Option String
  sourceCommit : Option String
  createdAt : String
  archived : Bool
deriving DecidableEq, Repr

def RemoteEntry.pulledEntry (e : RemoteEntry) : RelayPulledEntry where
  remoteId := e.id
  kind := e.kind
  title := e.title
  body := e.body
  sourceCommit := e.sourceCommit
  createdAt := e.createdAt
  archived := e.isArchived

def maxBufferedItemsPerSession : Nat := 10000

/-- The state behind the session's lock. The cursor is an id, or `⊥` where the
    session has none yet; the buffers are keyed by external and by remote id. -/
structure RelayInner where
  bearer : Option String
  cursor : WithBot String
  lastEventId : Option String
  pushResults : AList (fun _ : String => RelayPushResult)
  pulled : AList (fun _ : String => RelayPulledEntry)
  lastSyncedAt : Option Int
  lastError : Option String
  pullTaskStarted : Bool

/-- What a poll hands out. -/
structure RelayPollResponse where
  pushResults : List RelayPushResult
  pulled : List RelayPulledEntry
  lastSyncedAt : Option Int
  lastError : Option String

namespace RelayInner

/-- A session that was just created. -/
def fresh : RelayInner where
  bearer := none
  cursor := ⊥
  lastEventId := none
  pushResults := ∅
  pulled := ∅
  lastSyncedAt := none
  lastError := none
  pullTaskStarted := false

def setBearer (bearer : Option String) (s : RelayInner) : RelayInner :=
  if bearer.isSome then { s with bearer := bearer } else s

/-- Take over the cursor of a registration where it is ahead. -/
def seedCursor (sinceCursor : Option String) (s : RelayInner) : RelayInner :=
  match sinceCursor with
  | none => s
  | some since => if s.cursor.unbotD "" < since then { s with cursor := (since : String) } else s

def recordError (msg : String) (s : RelayInner) : RelayInner := { s with lastError := some msg }

def pushBufferFull : String :=
  s!"local relay push-result buffer is full ({maxBufferedItemsPerSession} " ++
    "unconfirmed rows); waiting for the CLI to poll and confirm before " ++
    "buffering more"

def pulledBufferFull : String :=
  s!"local relay pulled-entry buffer is full ({maxBufferedItemsPerSession} " ++
    "unconfirmed rows); waiting for the CLI to poll and confirm before " ++
    "fetching further"

/-- Put a result under its external id. -/
def insertResult (externalId : String) (r : PushOutcome) (s : RelayInner) : RelayInner :=
  { s with pushResults := s.pushResults.insert externalId ⟨externalId, r.id, r.status⟩ }

/-- Buffer one outcome of a push; the flag says that the buffer had no room. -/
def bufferResult (acc : RelayInner × Bool) (r : PushOutcome) : RelayInner × Bool :=
  let (s, bufferFull) := acc
  match r.externalId with
  | none => (s, bufferFull)
  | some externalId =>
      if r.status = "created" ∨ r.status = "skipped" then
        match s.pushResults.lookup externalId with
        | some buffered =>
            if r.id.isSome ∨ buffered.remoteId = none then (s.insertResult externalId r, bufferFull)
            else (s, bufferFull)
        | none =>
            if maxBufferedItemsPerSession ≤ s.pushResults.entries.length then (s, true)
            else (s.insertResult externalId r, bufferFull)
      else (s, bufferFull)

/-- The server answered a push. -/
def pushAnswered (now : Int) (results : List PushOutcome) (s : RelayInner) : RelayInner :=
  let (s, bufferFull) := results.foldl bufferResult (s, false)
  { s with
    lastSyncedAt := some now
    lastError := if bufferFull then some pushBufferFull else none }

/-- Move the cursor up to an id. -/
def raiseCursor (id : String) (s : RelayInner) : RelayInner :=
  if s.cursor < id then { s with cursor := id } else s

/-- Buffer the entries of a page until there is no room. -/
def bufferPulled (s : RelayInner) : List RemoteEntry → RelayInner × Bool
  | [] => (s, false)
  | e :: entries =>
      if e.id ∈ s.pulled then bufferPulled (s.raiseCursor e.id) entries
      else if maxBufferedItemsPerSession ≤ s.pulled.entries.length then (s, true)
      else
        bufferPulled (raiseCursor e.id { s with pulled := s.pulled.insert e.id e.pulledEntry }) entries

/-- The server answered a catch-up. -/
def catchUpAnswered (now : Int) (entries : List RemoteEntry) (s : RelayInner) : RelayInner :=
  if entries = [] then s
  else
    let (s, bufferFull) := s.bufferPulled entries
    { s with
      lastSyncedAt := some now
      lastError := if bufferFull then some pulledBufferFull else none }

def poll (s : RelayInner) : RelayPollResponse where
  pushResults := s.pushResults.entries.map (·.2)
  pulled := s.pulled.entries.map (·.2)
  lastSyncedAt := s.lastSyncedAt
  lastError := s.lastError

/-- Retire what the command line has applied. -/
def ack (appliedPushExternalIds appliedPullRemoteIds : List String) (s : RelayInner) : RelayInner :=
  { s with
    pushResults := appliedPushExternalIds.foldl (fun m id => m.erase id) s.pushResults
    pulled := appliedPullRemoteIds.foldl (fun m id => m.erase id) s.pulled }

end RelayInner

/-- What a task is for: a push of entries, or a catch-up from a cursor. -/
inductive RelayJob where
  | push (entries : List RelayPushEntry)
  | catchUp (cursor : WithBot String)

/-- A task: its client, once built, carries a bearer or none. -/
structure RelayTask where
  job : RelayJob
  client : Option (Option String)

/-- A session: the state behind the lock, and the tasks that have not ended. -/
structure RelaySession where
  inner : RelayInner
  tasks : List RelayTask

def RelaySession.fresh : RelaySession := ⟨RelayInner.fresh, []⟩

/-- What happens to a session. A registration is `setBearer`, `seedCursor`,
    `ensurePullTask` and `push`; the pull loop does `catchUp` at its start, at every
    connection and at every frame, and notes the ids of frames and its own errors.
    Building a client may fail; a request may be answered or fail. -/
inductive RelayEvent where
  | setBearer (bearer : Option String)
  | seedCursor (sinceCursor : Option String)
  | ensurePullTask
  | push (entries : List RelayPushEntry)
  | catchUp
  | buildClient (i : Nat) (failure : Option String)
  | pushAnswer (i : Nat) (answer : Except String (List PushOutcome)) (now : Int)
  | catchUpAnswer (i : Nat) (answer : Except String (List RemoteEntry)) (now : Int)
  | frameId (id : String)
  | streamError (msg : String)
  | poll
  | ack (appliedPushExternalIds appliedPullRemoteIds : List String)

namespace RelaySession

/-- Begin a task. -/
def begin (job : RelayJob) (s : RelaySession) : RelaySession :=
  { s with tasks := s.tasks ++ [⟨job, none⟩] }

/-- End a task with what it does to the state. -/
def finish (i : Nat) (f : RelayInner → RelayInner) (s : RelaySession) : RelaySession :=
  ⟨f s.inner, s.tasks.eraseIdx i⟩

/-- What a request's answer does: an error is noted. -/
def settle {α : Type} (i : Nat) (answer : Except String α) (f : α → RelayInner → RelayInner)
    (s : RelaySession) : RelaySession :=
  match answer with
  | .ok a => s.finish i (f a)
  | .error msg => s.finish i (RelayInner.recordError msg)

end RelaySession

/-- The session after an event, where the event can happen. -/
def relayStep (s : RelaySession) : RelayEvent → Option RelaySession
  | .setBearer bearer => some { s with inner := s.inner.setBearer bearer }
  | .seedCursor sinceCursor => some { s with inner := s.inner.seedCursor sinceCursor }
  | .ensurePullTask => some { s with inner := { s.inner with pullTaskStarted := true } }
  | .push entries => if entries = [] then none else some (s.begin (.push entries))
  | .catchUp => some (s.begin (.catchUp s.inner.cursor))
  | .buildClient i failure =>
      match s.tasks[i]?, failure with
      | some ⟨job, none⟩, none =>
          some { s with tasks := s.tasks.set i ⟨job, some s.inner.bearer⟩ }
      | some ⟨_, none⟩, some msg => some (s.finish i (RelayInner.recordError msg))
      | _, _ => none
  | .pushAnswer i answer now =>
      match s.tasks[i]? with
      | some ⟨.push _, some _⟩ => some (s.settle i answer (RelayInner.pushAnswered now))
      | _ => none
  | .catchUpAnswer i answer now =>
      match s.tasks[i]? with
      | some ⟨.catchUp _, some _⟩ => some (s.settle i answer (RelayInner.catchUpAnswered now))
      | _ => none
  | .frameId id => some { s with inner := { s.inner with lastEventId := some id } }
  | .streamError msg => some { s with inner := s.inner.recordError msg }
  | .poll => some s
  | .ack appliedPushExternalIds appliedPullRemoteIds =>
      some { s with inner := s.inner.ack appliedPushExternalIds appliedPullRemoteIds }

/-- The id a catch-up from a cursor asks above. -/
def askedAbove (cursor : WithBot String) : String := cursor.unbotD nilCursor

/-- A page of what a server holds above an id: in the order of the ids, each id once,
    with nothing left out below its end. -/
structure PageOf (held : List RemoteEntry) (above : String) (page : List RemoteEntry) : Prop where
  sound : ∀ e ∈ page, e ∈ held ∧ above < e.id
  ascending : page.Pairwise (fun e e' => e.id < e'.id)
  complete : ∀ e ∈ held, above < e.id → ∀ e' ∈ page, e.id ≤ e'.id → e ∈ page

namespace Server

/-- The commit of the first tag that names one. -/
def sourceCommitFromTags (tags : List String) : Option String :=
  tags.findSome? (fun t => (t.dropPrefix? "git:").map (·.toString))

/-- A row as `/memory/since` shows it. -/
def sinceIdEntry (rfc3339 : Int → String) (r : ServerRow) : RemoteEntry where
  id := r.syncId
  kind := r.kind
  title := r.title
  body := if r.body = "" then none else some r.body
  sourceCommit := sourceCommitFromTags (splitCsv r.tags)
  archivedAt := none
  createdAt := rfc3339 r.createdAt

/-- The entries above a minted id, in the order of these ids; the limit is capped. -/
def notesSinceId (projectId : Nat) (cursor : String) (limit : Nat) : Sql ServerDb (List ServerRow) :=
  Sql.query fun db =>
    Lib.Paging.page (·.syncId) cursor (max 1 (min limit 500)) (shownOf projectId db)

end Server

end Spelunk
