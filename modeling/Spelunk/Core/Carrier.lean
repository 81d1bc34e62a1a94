import Spelunk.Core.NotesImport
import Spelunk.Core.NotesRefs
import Spelunk.Lib.Process

/-!
# Processes on the Carrier

Any number of machines share remotes, and on each machine any number of processes
share the two notes refs, one lock and one `memory.db`. A process is a program of
the calls it makes: to git, to the lock, to the store. Each call may fail, and
between two calls of one process the others may do anything.

What git decides by itself is a parameter (`Git`): the tree it makes of two
commits, the cleanup of a note's text, and the ids of commits.

## Main definitions

* `Machine`, `World`: The state that is shared.
* `CarrierOp`, `CarrierOp.exec`: The calls, and what they do.
* `appendToGitNotes`, `appendRecord`, `archiveEntry`: The writers.
* `mergeTrackingNotes`: The merge of what was fetched.
* `publishNotes`: Fetch, merge, push.
-/

namespace Spelunk

open Lib (Prog Sql SqlError)

/-- What git decides by itself. -/
class Git where
  /-- The tree of `git notes merge -s cat_sort_uniq`, for commits that diverged. -/
  mergeTrees : NotesCommit → NotesCommit → NotesTree
  /-- What `git notes add -F -` stores of a text. -/
  stripspace : String → String
  oid : NotesCommit → String

/-- A process of a machine. -/
structure ProcessId (M : Type) where
  machine : M
  index : Nat
deriving DecidableEq

/-- One clone: the refs in its common git dir, the lock file beside them, HEAD
    with the commits reachable from it, the sites its remotes name, the store. -/
structure Machine (M R : Type) where
  working : Option NotesCommit
  tracking : Option NotesCommit
  lock : Option (ProcessId M)
  head : Option String
  log : List String
  url : String → Option R
  store : LocalStore

/-- All clones, and the notes ref of each site. -/
structure World (M R : Type) where
  machines : M → Machine M R
  sites : R → Option NotesCommit

/-- The notes of a ref; one that does not exist has none. -/
def notesOf (ref : Option NotesCommit) : NotesTree :=
  (ref.map NotesCommit.tree).getD []

/-- One attempt to take the lock. -/
inductive LockAttempt where
  | acquired
  | contended
  | unusable
  /-- git could not name the lock file. -/
  | unresolved
deriving DecidableEq, Repr

/-- The calls to the store, each one statement or one transaction. -/
inductive StoreCall where
  | openStore
  | importState
  | contents
  | importNotes (notes : List CarrierNote) (workingOid : Option String)
  | setImported (workingOid : Option String)
  | setMerged (trackingOid : Option String)

def StoreCall.Res : StoreCall → Type
  | .importState => NotesImportMarker
  | .contents => List String
  | _ => Unit

open LocalStore in
def StoreCall.run [Sha256] : (c : StoreCall) → Sql LocalStore c.Res
  | .openStore => openLocalStore
  | .importState => notesImportState
  | .contents => onMemory (do
      let all ← allNotesForDedup
      pure (all.map noteEntityId))
  | .importNotes notes workingOid => Sql.transaction do
      onMemory (Sql.forEach notes importNote)
      setNotesImportedWorkingOid workingOid
  | .setImported workingOid => setNotesImportedWorkingOid workingOid
  | .setMerged trackingOid => setNotesMergedTrackingOid trackingOid

/-- The calls a process makes. -/
inductive CarrierOp where
  | lockNotes
  | dropLock
  | revParseHead
  | showNote (object : String)
  | addNote (object body : String)
  | mergeNotes
  | listNotes
  | logHead
  | catFile
  | nowMillis
  | nowSecs
  /-- Whether the process runs inside the nested push of the notes. -/
  | inNotesPush
  | verifyWorking
  | getUrl (remote : String)
  | fetch (remote : String)
  | push (remote : String)
  | workingOid
  | trackingOid
  | storeExists
  | store (call : StoreCall)
  /-- The user commits, or checks out another commit. -/
  | moveHead (head : Option String) (log : List String)

/-- What each call answers; `none` and `false` are failures. -/
def CarrierOp.Res : CarrierOp → Type
  | .lockNotes => LockAttempt
  | .revParseHead => Option String
  | .showNote _ => Option (Option String)
  | .listNotes => Option NotesTree
  | .logHead => Option (List String)
  | .nowMillis => Int
  | .nowSecs => Int
  | .push _ => Except String Unit
  | .workingOid => Option String
  | .trackingOid => Option String
  | .store call => Option call.Res
  | .dropLock => Unit
  | .moveHead _ _ => Unit
  | _ => Bool

namespace World

variable {M R : Type} [DecidableEq M] [DecidableEq R]

def setMachine (w : World M R) (m : M) (x : Machine M R) : World M R :=
  { w with machines := Function.update w.machines m x }

def setSite (w : World M R) (site : R) (ref : Option NotesCommit) : World M R :=
  { w with sites := Function.update w.sites site ref }

/-- A push is accepted if the site's ref is an ancestor of what is pushed. -/
def FastForward (ref : Option NotesCommit) (tip : NotesCommit) : Prop :=
  ∀ c ∈ ref, NotesCommit.Reaches c tip

/-- The site takes what `m` pushes. -/
def Pushed (w : World M R) (m : M) (remote : String) (w' : World M R) : Prop :=
  ∃ site ∈ (w.machines m).url remote, ∃ tip ∈ (w.machines m).working,
    FastForward (w.sites site) tip ∧ w' = w.setSite site (some tip)

/-- The working ref after `git notes merge` of the tracking ref. -/
def mergedRef [Git] (stamp : String) :
    Option NotesCommit → Option NotesCommit → Option NotesCommit
  | none, tracking => tracking
  | some ours, none => some ours
  | some ours, some theirs =>
      if NotesCommit.Reaches theirs ours then some ours
      else if NotesCommit.Reaches ours theirs then some theirs
      else some (.merge stamp (Git.mergeTrees ours theirs) ours theirs)

/-- The working ref after `git notes add`. -/
def notedRef [Git] (stamp object body : String) : Option NotesCommit → NotesCommit
  | none => .root stamp (NotesTree.set [] object (Git.stripspace body))
  | some parent => .child stamp (parent.tree.set object (Git.stripspace body)) parent

/-- What the death of a process does: the system releases the lock it held. -/
def die (i : ProcessId M) (w : World M R) : World M R :=
  if (w.machines i.machine).lock = some i then
    w.setMachine i.machine { w.machines i.machine with lock := none }
  else w

end World

open World in
/-- What a call of the process `i` may do and answer. -/
def CarrierOp.exec [Git] [Sha256] {M R : Type} [DecidableEq M] [DecidableEq R] (i : ProcessId M)
    (o : CarrierOp) (w : World M R) (r : o.Res) (w' : World M R) : Prop :=
  let m := w.machines i.machine
  match o, r with
  | .lockNotes, .acquired =>
      m.lock = none ∧ w' = w.setMachine i.machine { m with lock := some i }
  | .lockNotes, .contended => m.lock ≠ none ∧ w' = w
  | .lockNotes, .unusable => w' = w
  | .lockNotes, .unresolved => w' = w
  | .dropLock, _ => w' = w.die i
  | .revParseHead, none => w' = w
  | .revParseHead, some head => m.head = some head ∧ w' = w
  | .showNote _, none => w' = w
  | .showNote object, some body => body = (notesOf m.working).note object ∧ w' = w
  | .addNote _ _, false => w' = w
  | .addNote object body, true => ∃ stamp, w' = w.setMachine i.machine
      { m with working := some (notedRef stamp object body m.working) }
  | .mergeNotes, false => w' = w
  | .mergeNotes, true => (m.working ≠ none ∨ m.tracking ≠ none) ∧ ∃ stamp,
      w' = w.setMachine i.machine { m with working := mergedRef stamp m.working m.tracking }
  | .listNotes, none => w' = w
  | .listNotes, some tree => tree = notesOf m.working ∧ w' = w
  | .logHead, none => w' = w
  | .logHead, some log => log = m.log ∧ w' = w
  | .verifyWorking, false => w' = w
  | .verifyWorking, true => m.working ≠ none ∧ w' = w
  | .getUrl _, false => w' = w
  | .getUrl remote, true => m.url remote ≠ none ∧ w' = w
  | .fetch _, false => w' = w
  | .fetch remote, true => ∃ site ∈ m.url remote, ∃ tip ∈ w.sites site,
      w' = w.setMachine i.machine { m with tracking := some tip }
  | .push remote, .ok _ => w.Pushed i.machine remote w'
  -- The connection may break after the site has taken the push.
  | .push remote, .error _ => w' = w ∨ w.Pushed i.machine remote w'
  | .workingOid, none => w' = w
  | .workingOid, some oid => m.working.map Git.oid = some oid ∧ w' = w
  | .trackingOid, none => w' = w
  | .trackingOid, some oid => m.tracking.map Git.oid = some oid ∧ w' = w
  | .storeExists, found => found = m.store.created ∧ w' = w
  | .store call, answer => ∃ fault, answer = (call.run ⟨m.store, fault⟩).1.toOption ∧
      w' = w.setMachine i.machine { m with store := (call.run ⟨m.store, fault⟩).2.db }
  | .moveHead head log, _ => w' = w.setMachine i.machine { m with head := head, log := log }
  | .catFile, _ => w' = w
  | .nowMillis, _ => w' = w
  | .nowSecs, _ => w' = w
  | .inNotesPush, _ => w' = w

/-- A program of a process. -/
abbrev CarrierProg (α : Type) : Type :=
  Prog CarrierOp CarrierOp.Res α

namespace Call

/-! One call each. -/

def lockNotes : CarrierProg LockAttempt := .call .lockNotes .ret
def dropLock : CarrierProg Unit := .call .dropLock .ret
def revParseHead : CarrierProg (Option String) := .call .revParseHead .ret
def showNote (object : String) : CarrierProg (Option (Option String)) :=
  .call (.showNote object) .ret
def addNote (object body : String) : CarrierProg Bool := .call (.addNote object body) .ret
def mergeNotes : CarrierProg Bool := .call .mergeNotes .ret
def listNotes : CarrierProg (Option NotesTree) := .call .listNotes .ret
def logHead : CarrierProg (Option (List String)) := .call .logHead .ret
def catFile : CarrierProg Bool := .call .catFile .ret
def nowMillis : CarrierProg Int := .call .nowMillis .ret
def nowSecs : CarrierProg Int := .call .nowSecs .ret
def inNotesPush : CarrierProg Bool := .call .inNotesPush .ret
def verifyWorking : CarrierProg Bool := .call .verifyWorking .ret
def getUrl (remote : String) : CarrierProg Bool := .call (.getUrl remote) .ret
def fetch (remote : String) : CarrierProg Bool := .call (.fetch remote) .ret
def push (remote : String) : CarrierProg (Except String Unit) := .call (.push remote) .ret
def workingOid : CarrierProg (Option String) := .call .workingOid .ret
def trackingOid : CarrierProg (Option String) := .call .trackingOid .ret
def storeExists : CarrierProg Bool := .call .storeExists .ret
def store (call : StoreCall) : CarrierProg (Option call.Res) := .call (.store call) .ret
def moveHead (head : Option String) (log : List String) : CarrierProg Unit :=
  .call (.moveHead head log) .ret

end Call

/-- Why a writer gave up. -/
inductive AppendError where
  /-- Another process kept the lock. -/
  | contended
  | lockUnresolved
  | noHead
  /-- The note that is there could not be read, so it is not overwritten. -/
  | unreadable
  | writeFailed
deriving DecidableEq, Repr

/-- How a writer holds, or does not hold, the lock. -/
inductive WriterLock where
  | held
  | unlocked
deriving DecidableEq, Repr

section Writers

def writerLock : CarrierProg (Except AppendError WriterLock) := do
  match ← Call.lockNotes with
  | .acquired => pure (.ok .held)
  | .contended => pure (.error .contended)
  | .unusable => pure (.ok .unlocked)
  | .unresolved => pure (.error .lockUnresolved)

/-- The guard goes out of scope. -/
def WriterLock.drop : WriterLock → CarrierProg Unit
  | .held => Call.dropLock
  | .unlocked => pure ()

/-- Attempts at reading a note. -/
def noteReadAttempts : Nat := 4

/-- Read a note, `attempts` times at most. -/
def readNoteBody (object : String) : Nat → CarrierProg (Except AppendError (Option String))
  | 0 => pure (.error .unreadable)
  | attempts + 1 => do
      match ← Call.showNote object with
      | some body => pure (.ok body)
      | none => readNoteBody object attempts

def readNoteBodyWithRetry (object : String) : CarrierProg (Except AppendError (Option String)) :=
  readNoteBody object noteReadAttempts

/-- Read the note of a commit and write it back with one more line. -/
def writeLine (object line : String) : CarrierProg (Except AppendError Unit) := do
  match ← readNoteBodyWithRetry object with
  | .error e => pure (.error e)
  | .ok existing => do
      let done ← Call.addNote object (appendLine existing line)
      pure (if done then .ok () else .error .writeFailed)

/-- What `appendToGitNotes` did beside writing the entry: whether it wrote
    without the lock. -/
structure AppendOutcome where
  lockDegradation : Bool
deriving DecidableEq, Repr

/-- Run `body` under the lock, or without one where there can be none. -/
def withWriterLock (body : CarrierProg (Except AppendError Unit)) :
    CarrierProg (Except AppendError AppendOutcome) := do
  match ← writerLock with
  | .error e => pure (.error e)
  | .ok lock => do
      let result ← body
      lock.drop
      pure (result.map (fun _ => ⟨lock = .unlocked⟩))

variable [NoteJson]

/-- Append a record to the note of HEAD. -/
def appendToGitNotes (record : NoteRecord) : CarrierProg (Except AppendError AppendOutcome) :=
  withWriterLock do
    match ← Call.revParseHead with
    | none => pure (.error .noHead)
    | some head => writeLine head (NoteJson.toLine record)

/-- Append a record to the note of `object`. -/
def appendRecord (object : String) (record : NoteRecord) :
    CarrierProg (Except AppendError AppendOutcome) :=
  withWriterLock (writeLine object (NoteJson.toLine record))

/-- An entry to add. -/
structure NoteInput where
  kind : String
  title : String
  body : String
  tags : List String
  linkedFiles : List String
  sourceRef : Option String
  validAt : Option Int
  supersedes : Option Int
deriving DecidableEq, Repr

variable [Sha256]

/-- The record of a new entry, with the two clocks as they were read. -/
def NoteInput.record (input : NoteInput) (id createdAt : Int) : NoteRecord where
  schemaVersion := 1
  id := id
  kind := input.kind
  title := input.title
  body := input.body
  tags := input.tags
  linkedFiles := input.linkedFiles
  createdAt := createdAt
  status := "active"
  sourceRef := input.sourceRef
  validAt := input.validAt
  invalidAt := none
  supersededBy := none
  remoteId := none
  entityId := some (entityId input.kind input.title input.body)
  supersededByEntityId := none

/-- `GitNotesBackend::add`: every add is a new entry. -/
def gitNotesAdd (input : NoteInput) : CarrierProg (Except AppendError (Int × Bool)) := do
  let id ← Call.nowMillis
  let createdAt ← Call.nowSecs
  match ← Call.revParseHead with
  | none => pure (.error .noHead)
  | some head => do
      let result ← appendRecord head (input.record id createdAt)
      pure (result.map (fun _ => (id, true)))

/-- A record of new state for an entry that is on the carrier. -/
def CarrierNote.stateUpdate (base : CarrierNote) (id createdAt : Int) (status : String)
    (invalidAt : Option Int) (supersededByEntityId : Option String) : NoteRecord where
  schemaVersion := 1
  id := id
  kind := base.kind
  title := base.title
  body := base.body
  tags := base.tags
  linkedFiles := base.linkedFiles
  createdAt := createdAt
  status := status
  sourceRef := base.sourceRef
  validAt := base.validAt
  invalidAt := invalidAt
  supersededBy := none
  remoteId := none
  entityId := some base.entityId
  supersededByEntityId := supersededByEntityId

def appendStateUpdate (base : CarrierNote) (status : String) (invalidAt : Option Int)
    (supersededByEntityId : Option String) : CarrierProg (Except AppendError AppendOutcome) := do
  let id ← Call.nowMillis
  let createdAt ← Call.nowSecs
  appendToGitNotes (base.stateUpdate id createdAt status invalidAt supersededByEntityId)

/-- The commits with a note that are reachable from HEAD, newest first. -/
def notedCommitsProg : CarrierProg (List String) := do
  match ← Call.listNotes with
  | none => pure []
  | some tree =>
      if tree = [] then pure []
      else do
        match ← Call.logHead with
        | none => pure []
        | some log => pure (log.filter (fun commit => (tree.note commit).isSome))

/-- The first record with this id, in the order of the commits. -/
def findRecord (id : Int) : List String → CarrierProg (Except AppendError (Option NoteRecord))
  | [] => pure (.ok none)
  | commit :: rest => do
      match ← readNoteBodyWithRetry commit with
      | .error e => pure (.error e)
      | .ok body =>
          match (lines (body.getD "")).findSome? (fun line =>
              (parseSpelunkLine line).filter (fun r => r.id = id)) with
          | some record => pure (.ok (some record))
          | none => findRecord id rest

/-- `GitNotesBackend::archive`; answers whether there was such an entry. -/
def archiveEntry (id : Int) : CarrierProg (Except AppendError Bool) := do
  let commits ← notedCommitsProg
  match ← findRecord id commits with
  | .error e => pure (.error e)
  | .ok none => pure (.ok false)
  | .ok (some record) => do
      let base := recordToNote record
      let invalidAt ← match base.invalidAt with
        | some ts => pure ts
        | none => Call.nowSecs
      let result ← appendStateUpdate base "archived" (some invalidAt) none
      pure (result.map (fun _ => true))

end Writers

/-- What `mergeTrackingNotes` did. -/
inductive NotesMergeOutcome where
  | merged
  | skipped
  | lockUnavailable
deriving DecidableEq, Repr

/-- Merge what was fetched into the working ref. It never fails its caller. -/
def mergeTrackingNotes : CarrierProg NotesMergeOutcome := do
  match ← Call.lockNotes with
  | .acquired => do
      let done ← Call.mergeNotes
      Call.dropLock
      pure (if done then .merged else .skipped)
  | _ => pure .lockUnavailable

/-- Why there was nothing to publish. -/
inductive SkipReason where
  | recursion
  | noLocalNotes
  | noSuchRemote
  | lockUnavailable
deriving DecidableEq, Repr

inductive PublishOutcome where
  | published (attempts : Nat)
  | skipped (reason : SkipReason)
deriving DecidableEq, Repr

section Publish

/-- Pushes of one publish. -/
def maxPushAttempts : Nat := 3

/-- Whether a failed push is worth another attempt. -/
def isLostRace (stderr : String) : Bool :=
  "non-fast-forward".toList <:+: stderr.toList ∨ "fetch first".toList <:+: stderr.toList

def publishError (remote stderr : String) : String :=
  s!"could not publish memory notes to '{remote}': {String.ofList (trim stderr.toList)}"

/-- The attempts that are left. -/
def publishAttempts (remote : String) (attempt : Nat) (lastErr : String) :
    Nat → CarrierProg (Except String PublishOutcome)
  | 0 => pure (.error (publishError remote lastErr))
  | left + 1 => do
      -- A fetch that fails is no reason to stop: the push is never forced.
      let _ ← Call.fetch remote
      match ← mergeTrackingNotes with
      | .lockUnavailable => pure (.ok (.skipped .lockUnavailable))
      | _ => do
          match ← Call.push remote with
          | .ok _ => pure (.ok (.published attempt))
          | .error stderr =>
              if isLostRace stderr then publishAttempts remote (attempt + 1) stderr left
              else pure (.error (publishError remote stderr))

/-- Publish the working ref to a remote: fetch, merge, push. -/
def publishNotes (remote : String) : CarrierProg (Except String PublishOutcome) := do
  if (← Call.inNotesPush) = true then pure (.ok (.skipped .recursion))
  else if (← Call.verifyWorking) = false then pure (.ok (.skipped .noLocalNotes))
  else if (← Call.getUrl remote) = false then pure (.ok (.skipped .noSuchRemote))
  else publishAttempts remote 1 "" maxPushAttempts

end Publish

end Spelunk
