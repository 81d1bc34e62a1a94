import Spelunk.Core.Relay
import Spelunk.Core.SyncStore

/-!
# Pulling from a Server

The client's loop behind `memory pull` and `sync`: it asks for the entries above a cursor, a
page at a time, applies each page as it arrives, and goes on behind the last entry of a page
until one comes back short. The server's backlog does not change meanwhile; any of the requests
may fail, which ends the pull with what was applied.

## Main definitions

* `pullSince`: The answer to one request.
* `PullEnv`, `applyEntry`, `applyPage`: The entries of a page.
* `pullPages`, `pullAndApplySince`: The loop.
* `pullAndApply`: The loop from the store's own cursor.
-/

namespace Spelunk

open Lib (Sql SqlError)

def memorySincePullLimit : ℕ := 100

/-- `CloudSyncClient::pull_since`, from a server that holds `backlog`. -/
def pullSince (backlog : List RemoteEntry) (sinceId : Option String) : List RemoteEntry :=
  Lib.Paging.page RemoteEntry.id (sinceId.getD nilCursor) memorySincePullLimit backlog

/-- What the program does not determine: the uuid that is minted for an entry, and the second
    that a text of a time stands for. -/
structure PullEnv where
  uuid : String → String
  parseIsoToSecs : String → Int

section Loop

variable [Sha256]

/-- Apply an entry; a row that is new is counted. -/
def applyEntry (env : PullEnv) (applied : ℕ) (e : RemoteEntry) : Sql MemoryDb ℕ := do
  let inserted ← applyRemoteNote (env.uuid e.id) e.id e.kind e.title (e.body.getD "")
    e.sourceCommit (env.parseIsoToSecs e.createdAt) e.isArchived
  pure (if inserted then applied + 1 else applied)

def applyPage (env : PullEnv) (entries : List RemoteEntry) (applied : ℕ) : Sql MemoryDb ℕ :=
  Sql.foldEach entries applied (applyEntry env)

def requestFailed : SqlError := .refused "GET /memory/since"

/-- The loop: the request from `cursor` is the next one. `answered` is how many requests are
    answered before one fails, and `none` when none does. -/
def pullPages (env : PullEnv) (backlog : List RemoteEntry) (answered : Option ℕ)
    (cursor : Option String) (applied : ℕ) : Sql MemoryDb ℕ :=
  if answered = some 0 then Sql.fail requestFailed
  else
    let entries := pullSince backlog cursor
    (applyPage env entries applied).andThen fun applied =>
      if _h : entries.length < memorySincePullLimit then Sql.ok applied
      else
        -- The server never returns more than the limit, so there may be more.
        pullPages env backlog (answered.map (· - 1)) (entries.getLast?.map RemoteEntry.id) applied
termination_by (Lib.Paging.pending RemoteEntry.id (cursor.getD nilCursor) backlog).length
decreasing_by
  have hne : pullSince backlog cursor ≠ [] := by
    intro hnil
    exact _h (show (pullSince backlog cursor).length < memorySincePullLimit by rw [hnil]; decide)
  rw [List.getLast?_eq_some_getLast hne, Option.map_some, Option.getD_some]
  exact Lib.Paging.length_pending_lt (List.getLast_mem hne)

def pullAndApplySince (env : PullEnv) (backlog : List RemoteEntry) (answered : Option ℕ)
    (cursor : Option String) : Sql MemoryDb ℕ :=
  pullPages env backlog answered cursor 0

/-- A pull from the cursor that the store gives. -/
def pullAndApply (env : PullEnv) (backlog : List RemoteEntry) (answered : Option ℕ) :
    Sql MemoryDb ℕ := do
  let cursor ← Sql.query MemoryDb.maxRemoteId
  pullAndApplySince env backlog answered cursor

end Loop

end Spelunk
