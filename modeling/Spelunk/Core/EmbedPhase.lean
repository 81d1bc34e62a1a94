import Mathlib.Data.List.Basic
import Spelunk.Core.Embedder

/-!
# The Embed Phase

The loop of `spelunk index` that sends pending chunks to the server in batches and stores the
vectors it gets back. The first two batches have fixed sizes; from the third on a batch is
sized by the rate measured so far. A request that fails is repeated: smaller after a timeout,
the same after a failed connection or a busy server, each within a bound of its own.

A measured rate is what sizing reads of it. The deadline of a request and the waits before a
repetition decide what a request comes to, not what the loop does with it, and are left out,
as are the display and the store's own encoding of a vector.

## Main definitions

* `resolveBatchCeiling`, `nextBatchLen`: The size of a batch.
* `Sent`, `embedOneBatch`: What one request comes to.
* `State`, `Phase`: The loop, with a request in flight or done.
* `startBatch`, `step`: The head of the loop, and what follows an answer.
* `exec`: The loop on a sequence of answers.
-/

namespace Spelunk

namespace EmbedPhase

def maxBatch : ℕ := 256

def defaultBatchCeiling : ℕ := maxBatch

def calibrationBatch1 : ℕ := 1

def calibrationBatch2 : ℕ := 4

def growthFactor : ℕ := 8

/-- In seconds; as many as there are retries. -/
def connectFailureBackoffs : List ℕ := [5, 15, 45, 90, 180]

def maxSaturationRetries : ℕ := 30

/-- The size a batch may grow to: `--batch-size`, where 0 is none, and what the server says. -/
def resolveBatchCeiling (requested : ℕ) (serverMaxBatchChunks : Option ℕ) : ℕ :=
  let ceiling := if requested = 0 then defaultBatchCeiling else min requested maxBatch
  match serverMaxBatchChunks with
  | some serverMax => min ceiling serverMax
  | none => ceiling

/-- A duration per token: whether it is zero, and which token sums take longer than a batch
    ought to. -/
structure Rate where
  isZero : Bool
  exceeds : ℕ → Bool

/-- Take chunks while their token sum stays within the target; at least one. -/
def fillBatch (rate : Rate) : List ℕ → ℕ → ℕ → ℕ
  | [], len, _ => len
  | tc :: rest, len, tokens =>
      if 0 < len ∧ rate.exceeds (tokens + max tc 1) = true then len
      else fillBatch rate rest (len + 1) (tokens + max tc 1)

def nextBatchLen (perToken : Rate) (tokenTail : List ℕ) (ceiling previousBatchSize : ℕ) : ℕ :=
  let growthCap := min (max previousBatchSize 1 * growthFactor) (max ceiling 1)
  if perToken.isZero then min growthCap (max tokenTail.length 1)
  else max (fillBatch perToken (tokenTail.take growthCap) 0 0) 1

/-- An item of the queue. -/
structure PendingChunk extends ChunkToEmbed where
  tokenCount : ℕ
deriving DecidableEq, Repr

/-! ### One request -/

inductive EmbedBatchError where
  | budgetExceeded
  | connectFailure
  | saturated
  | other
deriving DecidableEq, Repr

/-- What becomes of a request. The body is `none` when reading it fails. -/
inductive Sent where
  | notConnected
  | timedOut
  | failed
  | answered (status : ℕ) (body : Option (List UInt8))
deriving DecidableEq, Repr

def embedOneBatch (sent : Sent) (batchLen : ℕ) : Except EmbedBatchError (List UInt8) :=
  match sent with
  | .notConnected => .error .connectFailure
  | .timedOut => .error .budgetExceeded
  | .failed => .error .other
  | .answered status body =>
      if status = 408 then .error .budgetExceeded
      else if status = 429 then .error .saturated
      else if 400 ≤ status then .error .other
      else match body with
        | none => .error .other
        | some bytes =>
            if bytes.length ≠ batchLen * (embeddingDim * 4) then .error .other else .ok bytes

/-- One transaction: every row replaces what is stored under its id. -/
def insertEmbeddings (rows store : List (ℕ × FloatVec)) : List (ℕ × FloatVec) :=
  rows.foldl (fun store row => store.filter (fun e => e.1 ≠ row.1) ++ [row]) store

/-! ### The loop -/

/-- The queue, the `--batch-size` flag and the number of chunks the server says it takes. -/
structure Config where
  queue : List PendingChunk
  batchSize : ℕ
  serverMaxBatchChunks : Option ℕ

namespace Config

def ceiling (cfg : Config) : ℕ := resolveBatchCeiling cfg.batchSize cfg.serverMaxBatchChunks

end Config

/-- The loop with a request in flight. The last four fields are those of the retry loop. -/
structure State where
  embedded : ℕ
  cursor : ℕ
  batchNum : ℕ
  previousBatchSize : ℕ
  rate : Option Rate
  store : List (ℕ × FloatVec)
  thisBatchSize : ℕ
  escalatedCalibrationOnce : Bool
  connectFailures : ℕ
  saturationRetries : ℕ

inductive Phase where
  | sending (s : State)
  | finished (embedded : ℕ) (store : List (ℕ × FloatVec))
  | panicked

/-- The chunks of the request in flight. -/
def State.batch (cfg : Config) (s : State) : List PendingChunk :=
  (cfg.queue.drop s.cursor).take s.thisBatchSize

/-- The head of the loop: the next batch, or the end. -/
def startBatch (cfg : Config) (s : State) : Phase :=
  if s.cursor < cfg.queue.length then
    let batchNum := s.batchNum + 1
    let left := cfg.queue.length - s.cursor
    let size := match batchNum with
      | 1 => some calibrationBatch1
      | 2 => some calibrationBatch2
      | _ => s.rate.map fun perToken => nextBatchLen perToken
          ((cfg.queue.drop s.cursor).map PendingChunk.tokenCount) cfg.ceiling s.previousBatchSize
    match size with
    | none => .panicked
    | some size => .sending { s with
        batchNum := batchNum
        thisBatchSize := max 1 (min size left)
        escalatedCalibrationOnce := false
        connectFailures := 0
        saturationRetries := 0 }
  else .finished s.embedded s.store

/-- Before the first batch. -/
def initialState (store : List (ℕ × FloatVec)) : State where
  embedded := 0
  cursor := 0
  batchNum := 0
  previousBatchSize := 1
  rate := none
  store := store
  thisBatchSize := 0
  escalatedCalibrationOnce := false
  connectFailures := 0
  saturationRetries := 0

def start (cfg : Config) (store : List (ℕ × FloatVec)) : Phase :=
  startBatch cfg (initialState store)

/-- What follows an answer. `measured` is the rate that `RateEstimate::update` makes of it. -/
def step (cfg : Config) (s : State) (sent : Sent) (measured : Rate) : Phase :=
  match embedOneBatch sent s.thisBatchSize with
  | .ok bytes =>
      let batch := s.batch cfg
      startBatch cfg { s with
        rate := some measured
        store := insertEmbeddings (sliceReply bytes (batch.map PendingChunk.toChunkToEmbed)) s.store
        embedded := s.embedded + batch.length
        previousBatchSize := s.thisBatchSize
        cursor := s.cursor + s.thisBatchSize }
  | .error .budgetExceeded =>
      if s.thisBatchSize = 1 then
        -- On the first request of all, more patience once.
        if s.escalatedCalibrationOnce = false ∧ s.rate.isNone then
          .sending { s with escalatedCalibrationOnce := true }
        else .finished s.embedded s.store
      else
        let shrunk := max (s.thisBatchSize / 2) 1
        if shrunk = s.thisBatchSize then .finished s.embedded s.store
        else .sending { s with rate := some measured, thisBatchSize := shrunk }
  | .error .connectFailure =>
      if connectFailureBackoffs.length ≤ s.connectFailures then .finished s.embedded s.store
      else .sending { s with connectFailures := s.connectFailures + 1 }
  | .error .saturated =>
      if maxSaturationRetries ≤ s.saturationRetries then .finished s.embedded s.store
      else .sending { s with saturationRetries := s.saturationRetries + 1 }
  | .error .other => .finished s.embedded s.store

/-- The loop on what its requests come to, one after the other. -/
def exec (cfg : Config) : Phase → List (Sent × Rate) → Phase
  | .sending s, (sent, measured) :: rest => exec cfg (step cfg s sent measured) rest
  | phase, _ => phase

end EmbedPhase

end Spelunk
