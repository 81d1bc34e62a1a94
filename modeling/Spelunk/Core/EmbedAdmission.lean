import Mathlib.Data.Nat.Notation

/-!
# Admission to the Embedder

The requests that reach the embedder of a server. A handler takes a permit of the
admission gate, if its kind passes the gate at all, starts its embed call and waits
for it. The call is a task of its own: it waits for the lock of the embedder, runs
its sub-batches one forward pass each, and goes on when the handler is dropped, by a
client that is gone or by the timeout of the router. The permit is a value of the
handler and goes back when the handler ends, one way or the other.

A step is one event of one request; between two events of a request any number of
events of others may happen.

## Main definitions

* `EmbedRequest`: A request with its permit, its handler and its call.
* `EmbedServer`: The gate, the lock and the requests so far.
* `EmbedServer.step`: One event.
-/

namespace Spelunk

/-- `EMBED_QUEUE_CAPACITY`. -/
def embedQueueCapacity : ℕ := 4

/-- `EMBED_BUSY_RETRY_AFTER_SECS`. -/
def embedBusyRetryAfterSecs : ℕ := 5

inductive EmbedKind where
  | indexEmbed
  | projectSearch
  | searchNotes
  | addNote
deriving DecidableEq, Repr

namespace EmbedKind

/-- The handler takes a permit before it embeds. -/
def gated : EmbedKind → Bool
  | addNote => false
  | _ => true

/-- The handler holds an `EmbedAbandonGuard` while it waits for its call; the others pass a flag
    that is never set. -/
def guarded : EmbedKind → Bool
  | indexEmbed => true
  | _ => false

end EmbedKind

inductive EmbedPermit where
  | none
  | held
  | returned
deriving DecidableEq, Repr

/-- How an embed call ends. -/
inductive EmbedResult where
  | vectors
  | cancelled
  | failed
  | panicked
  | lockPoisoned
deriving DecidableEq, Repr

inductive EmbedPhase where
  | notStarted
  | waiting
  /-- With the sub-batches that are left. -/
  | running (left : ℕ)
  | ended (result : EmbedResult)
deriving DecidableEq, Repr

inductive HandlerState where
  | awaiting
  | answered (result : EmbedResult)
  /-- Answered with `429`, and after how many seconds to come back. -/
  | shed (retryAfter : ℕ)
  | dropped
deriving DecidableEq, Repr

/-- A request: what it asks, the handler with its permit, and the call with its flag, the forward
    passes it has run, and whether it was left while it waited. -/
structure EmbedRequest where
  kind : EmbedKind
  batches : ℕ
  permit : EmbedPermit
  handler : HandlerState
  phase : EmbedPhase
  cancel : Bool
  passes : ℕ
  leftWaiting : Bool
deriving DecidableEq, Repr

namespace EmbedRequest

/-- A handler that has started its call. -/
def started (kind : EmbedKind) (batches : ℕ) (permit : EmbedPermit) : EmbedRequest where
  kind := kind
  batches := batches
  permit := permit
  handler := .awaiting
  phase := .waiting
  cancel := false
  passes := 0
  leftWaiting := false

/-- A handler that finds no permit. -/
def busy (kind : EmbedKind) (batches : ℕ) : EmbedRequest where
  kind := kind
  batches := batches
  permit := .none
  handler := .shed embedBusyRetryAfterSecs
  phase := .notStarted
  cancel := false
  passes := 0
  leftWaiting := false

/-- The call is running or waiting for the lock. -/
def outstanding (r : EmbedRequest) : Bool :=
  match r.phase with
  | .waiting => true
  | .running _ => true
  | _ => false

/-- The permit when the handler ends. -/
def released (r : EmbedRequest) : EmbedPermit := if r.permit = .held then .returned else r.permit

end EmbedRequest

/-- The gate, the lock and the requests in the order they came. -/
structure EmbedServer where
  available : ℕ
  poisoned : Bool
  holder : Option ℕ
  requests : List EmbedRequest
deriving DecidableEq, Repr

inductive EmbedEvent where
  | arrive (kind : EmbedKind) (batches : ℕ)
  /-- The call gets the lock, or finds it poisoned. -/
  | lock (i : ℕ)
  /-- The call looks at its flag and runs a sub-batch, or ends. -/
  | advance (i : ℕ)
  | fail (i : ℕ)
  | crash (i : ℕ)
  /-- The handler goes on with the result of its call, to its end. -/
  | answer (i : ℕ)
  /-- The handler is dropped. -/
  | abandon (i : ℕ)
deriving DecidableEq, Repr

namespace EmbedServer

def start : EmbedServer := ⟨embedQueueCapacity, false, none, []⟩

/-- One request replaced. -/
def put (s : EmbedServer) (i : ℕ) (r : EmbedRequest) : EmbedServer :=
  { s with requests := s.requests.set i r }

/-- One request ends its call and gives the lock back. -/
def endCall (s : EmbedServer) (i : ℕ) (r : EmbedRequest) (result : EmbedResult) : EmbedServer :=
  { s.put i { r with phase := .ended result } with holder := none }

/-- The handler ends: its permit, if it has one, goes back. -/
def endHandler (s : EmbedServer) (i : ℕ) (r : EmbedRequest) (handler : HandlerState) :
    EmbedServer :=
  { s.put i { r with handler := handler, permit := r.released } with
    available := if r.permit = .held then s.available + 1 else s.available }

/-- A request comes: `try_acquire`, where its kind passes the gate, and the call. -/
def arrive (s : EmbedServer) (kind : EmbedKind) (batches : ℕ) : EmbedServer :=
  if kind.gated then
    if s.available = 0 then { s with requests := s.requests ++ [.busy kind batches] }
    else { s with
      available := s.available - 1
      requests := s.requests ++ [.started kind batches .held] }
  else { s with requests := s.requests ++ [.started kind batches .none] }

/-- `inner.lock()` and the first look at the flag. -/
def lock (s : EmbedServer) (i : ℕ) (r : EmbedRequest) : Option EmbedServer :=
  if r.phase ≠ .waiting then none
  else if s.poisoned then some (s.put i { r with phase := .ended .lockPoisoned })
  else if s.holder.isSome then none
  else if r.cancel then some (s.put i { r with phase := .ended .cancelled })
  else some { s.put i { r with phase := .running r.batches } with holder := some i }

/-- The loop over the sub-batches. -/
def advance (s : EmbedServer) (i : ℕ) (r : EmbedRequest) : Option EmbedServer :=
  match r.phase with
  | .running 0 => some (s.endCall i r .vectors)
  | .running (left + 1) =>
      if r.cancel then some (s.endCall i r .cancelled)
      else some (s.put i { r with phase := .running left, passes := r.passes + 1 })
  | _ => none

/-- The handler goes on with what its call gave. -/
def answer (s : EmbedServer) (i : ℕ) (r : EmbedRequest) : Option EmbedServer :=
  match r.handler, r.phase with
  | .awaiting, .ended result => some (s.endHandler i r (.answered result))
  | _, _ => none

/-- The handler is dropped with its permit and its guard, if it has one. -/
def abandon (s : EmbedServer) (i : ℕ) (r : EmbedRequest) : Option EmbedServer :=
  if r.handler ≠ .awaiting then none
  else
    let left := { r with
      cancel := r.cancel || r.kind.guarded
      leftWaiting := decide (r.phase = .waiting) }
    some (s.endHandler i left .dropped)

/-- An error of a sub-batch, which a set flag turns into a cancellation, or a panic, which poisons
    the lock. -/
def stop (s : EmbedServer) (i : ℕ) (r : EmbedRequest) (panicked : Bool) : Option EmbedServer :=
  match r.phase with
  | .running _ =>
      let result := if panicked then .panicked else if r.cancel then .cancelled else .failed
      some { s.endCall i r result with poisoned := s.poisoned || panicked }
  | _ => none

/-- One event; `none` where it cannot happen. -/
def step (s : EmbedServer) : EmbedEvent → Option EmbedServer
  | .arrive kind batches => some (s.arrive kind batches)
  | .lock i => s.requests[i]?.bind (s.lock i)
  | .advance i => s.requests[i]?.bind (s.advance i)
  | .fail i => s.requests[i]?.bind fun r => s.stop i r false
  | .crash i => s.requests[i]?.bind fun r => s.stop i r true
  | .answer i => s.requests[i]?.bind (s.answer i)
  | .abandon i => s.requests[i]?.bind (s.abandon i)

/-- The events of a list, one after the other. -/
def run (s : EmbedServer) : List EmbedEvent → Option EmbedServer
  | [] => some s
  | e :: es => (s.step e).bind fun t => t.run es

/-- The embed calls that are running or waiting for the lock. -/
def outstanding (s : EmbedServer) : ℕ := s.requests.countP EmbedRequest.outstanding

end EmbedServer

end Spelunk
