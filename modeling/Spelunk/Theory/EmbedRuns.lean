import Spelunk.Core.EmbedPhase
import Spelunk.Theory.EmbedOrder

/-!
# Runs of the Embed Phase

Every request of the loop uses up something: chunks of the queue when it succeeds, the size of
the batch or one of the retries when it does not. What is stored at any time are the vectors of
a prefix of the queue, cut out of the replies.

## Main definitions

* `requestLimit`: What a request may carry.
* `reply`, `replies`: The replies that are used, with their batches.
* `Progress`: What is stored after some replies.
* `InFlight`, `PhaseOk`: The invariant.
* `weight`: What a request uses up.
* `GivesUp`, `Patient`: The answers that end the loop early, and runs without.
* `EmbedExact`: What is claimed of the loop.

## Theorems

* `phaseOk_startBatch`, `phaseOk_step`, `phaseOk_exec`: The invariant is kept.
* `weight_step`: A request uses something up.
* `embedPhaseLaw`: When the loop is exact.
-/

namespace Spelunk

namespace EmbedPhase

/-- The least of 256, the flag when it is not 0, and what the server says. -/
def requestLimit (cfg : Config) : ℕ :=
  min 256 (min (if cfg.batchSize = 0 then 256 else cfg.batchSize)
    (cfg.serverMaxBatchChunks.getD 256))

theorem ceiling_eq (cfg : Config) : cfg.ceiling = requestLimit cfg := by
  unfold Config.ceiling resolveBatchCeiling requestLimit
  cases cfg.serverMaxBatchChunks with
  | none =>
    simp only [defaultBatchCeiling, maxBatch, Option.getD_none]
    split_ifs <;> omega
  | some c =>
    simp only [defaultBatchCeiling, maxBatch, Option.getD_some]
    split_ifs <;> omega

theorem one_le_requestLimit {cfg : Config} (hcap : ∀ c ∈ cfg.serverMaxBatchChunks, 1 ≤ c) :
    1 ≤ requestLimit cfg := by
  unfold requestLimit
  cases hc : cfg.serverMaxBatchChunks with
  | none =>
    rw [Option.getD_none]
    split_ifs <;> omega
  | some c =>
    have := hcap c hc
    rw [Option.getD_some]
    split_ifs <;> omega

/-! ### The size of a batch -/

theorem fillBatch_le (rate : Rate) (l : List ℕ) (len tokens : ℕ) :
    fillBatch rate l len tokens ≤ len + l.length := by
  induction l generalizing len tokens with
  | nil => exact le_rfl
  | cons tc rest ih =>
    rw [fillBatch, List.length_cons]
    split_ifs
    · omega
    · have := ih (len + 1) (tokens + max tc 1)
      omega

theorem nextBatchLen_le (rate : Rate) (tail : List ℕ) (ceiling previous : ℕ) :
    nextBatchLen rate tail ceiling previous ≤ max ceiling 1 := by
  unfold nextBatchLen
  dsimp only
  split_ifs
  · omega
  · have hfill := fillBatch_le rate
      (tail.take (min (max previous 1 * growthFactor) (max ceiling 1))) 0 0
    rw [List.length_take] at hfill
    omega

/-- The size no batch is above: that of the second batch, or the ceiling. -/
def sizeBound (cfg : Config) : ℕ := max (min 4 (cfg.queue.length - 1)) (requestLimit cfg)

theorem sizeBound_le (cfg : Config) : sizeBound cfg ≤ 256 := by
  unfold sizeBound requestLimit
  omega

/-! ### The store -/

theorem insertEmbeddings_eq {rows : List (ℕ × FloatVec)} (h : (rows.map Prod.fst).Nodup)
    (store : List (ℕ × FloatVec)) :
    insertEmbeddings rows store =
      store.filter (fun e => e.1 ∉ rows.map Prod.fst) ++ rows := by
  unfold insertEmbeddings
  induction rows generalizing store with
  | nil => simp
  | cons row rows ih =>
    rw [List.map_cons, List.nodup_cons] at h
    have hrow : [row].filter (fun e => e.1 ∉ rows.map Prod.fst) = [row] :=
      List.filter_cons_of_pos (decide_eq_true h.1)
    rw [List.foldl_cons, ih h.2, List.filter_append, List.filter_filter, hrow,
      List.append_assoc]
    congr 1
    refine List.filter_congr fun e _ => ?_
    simp only [List.map_cons, List.mem_cons, not_or, Bool.decide_and, Bool.and_comm]

theorem map_fst_sliceReply (bytes : List UInt8) (batch : List ChunkToEmbed) :
    (sliceReply bytes batch).map Prod.fst = batch.map ChunkToEmbed.rowId := by
  unfold sliceReply
  rw [List.map_map]
  have h : (Prod.fst ∘ fun x : ChunkToEmbed × ℕ => (x.1.rowId,
      blobToVec ((bytes.drop (x.2 * (embeddingDim * 4))).take (embeddingDim * 4)))) =
      ChunkToEmbed.rowId ∘ Prod.fst := rfl
  rw [h, ← List.map_map, List.zipIdx_map_fst]

/-! ### The invariant -/

/-- The reply that an answer gives, with its batch. -/
def reply (cfg : Config) (s : State) (sent : Sent) : List (List PendingChunk × List UInt8) :=
  match embedOneBatch sent s.thisBatchSize with
  | .ok bytes => [(s.batch cfg, bytes)]
  | .error _ => []

/-- The replies a run has used. -/
def replies (cfg : Config) : Phase → List (Sent × Rate) → List (List PendingChunk × List UInt8)
  | .sending s, (sent, measured) :: rest =>
      reply cfg s sent ++ replies cfg (step cfg s sent measured) rest
  | _, _ => []

/-- The rows that are stored for a reply. -/
def rowsOf (r : List PendingChunk × List UInt8) : List (ℕ × FloatVec) :=
  sliceReply r.2 (r.1.map PendingChunk.toChunkToEmbed)

/-- The ids of chunks. -/
def rowIds (l : List PendingChunk) : List ℕ := l.map (·.rowId)

theorem map_fst_rowsOf (r : List PendingChunk × List UInt8) :
    (rowsOf r).map Prod.fst = rowIds r.1 := by
  rw [rowsOf, map_fst_sliceReply, rowIds, List.map_map]
  rfl

/-- After some replies: the first `n` chunks of the queue are stored, with the vectors cut out
    of the replies, and nothing else is touched. -/
structure Progress (cfg : Config) (before : List (ℕ × FloatVec))
    (log : List (List PendingChunk × List UInt8)) (n : ℕ) (store : List (ℕ × FloatVec)) :
    Prop where
  le : n ≤ cfg.queue.length
  taken : log.flatMap Prod.fst = cfg.queue.take n
  store : store = before.filter (fun e => e.1 ∉ rowIds (cfg.queue.take n)) ++ log.flatMap rowsOf

theorem map_fst_flatMap_rowsOf (log : List (List PendingChunk × List UInt8)) :
    (log.flatMap rowsOf).map Prod.fst = rowIds (log.flatMap Prod.fst) := by
  rw [List.map_flatMap, rowIds, List.map_flatMap]
  exact List.flatMap_congr fun r _ => map_fst_rowsOf r

/-- The head of the loop. -/
structure AtHead (cfg : Config) (before : List (ℕ × FloatVec))
    (log : List (List PendingChunk × List UInt8)) (s : State) : Prop where
  progress : Progress cfg before log s.cursor s.store
  embedded : s.embedded = s.cursor
  batchNum : s.batchNum ≤ s.cursor
  rate : 1 ≤ s.batchNum → s.rate.isSome = true

/-- A request is in flight. -/
structure InFlight (cfg : Config) (before : List (ℕ × FloatVec))
    (log : List (List PendingChunk × List UInt8)) (s : State) : Prop where
  progress : Progress cfg before log s.cursor s.store
  embedded : s.embedded = s.cursor
  batchNum : s.batchNum ≤ s.cursor + 1
  rate : 2 ≤ s.batchNum → s.rate.isSome = true
  pos : 1 ≤ s.thisBatchSize
  fits : s.cursor + s.thisBatchSize ≤ cfg.queue.length
  size : s.thisBatchSize ≤ sizeBound cfg

def PhaseOk (cfg : Config) (before : List (ℕ × FloatVec))
    (log : List (List PendingChunk × List UInt8)) : Phase → Prop
  | .sending s => InFlight cfg before log s
  | .finished n store => Progress cfg before log n store
  | .panicked => False

section Steps

variable {cfg : Config} {before : List (ℕ × FloatVec)}
  {log : List (List PendingChunk × List UInt8)} {s : State}

theorem InFlight.length_batch (h : InFlight cfg before log s) :
    (s.batch cfg).length = s.thisBatchSize := by
  have := h.fits
  rw [State.batch, List.length_take, List.length_drop]
  omega

/-- What the head of the loop does. -/
theorem startBatch_cases (cfg : Config) (s : State) (hrate : 1 ≤ s.batchNum → s.rate.isSome) :
    (s.cursor < cfg.queue.length ∧ ∃ size,
      startBatch cfg s = .sending { s with
        batchNum := s.batchNum + 1
        thisBatchSize := max 1 (min size (cfg.queue.length - s.cursor))
        escalatedCalibrationOnce := false
        connectFailures := 0
        saturationRetries := 0 } ∧
      (s.batchNum = 0 ∧ size = 1 ∨ s.batchNum = 1 ∧ size = 4 ∨ size ≤ max cfg.ceiling 1)) ∨
    (cfg.queue.length ≤ s.cursor ∧ startBatch cfg s = .finished s.embedded s.store) := by
  unfold startBatch
  by_cases hcursor : s.cursor < cfg.queue.length
  · refine Or.inl ⟨hcursor, ?_⟩
    rw [if_pos hcursor]
    rcases hnum : s.batchNum with _ | _ | n
    · exact ⟨1, rfl, Or.inl ⟨rfl, rfl⟩⟩
    · exact ⟨4, rfl, Or.inr (Or.inl ⟨rfl, rfl⟩)⟩
    · obtain ⟨rate, hsome⟩ := Option.isSome_iff_exists.1 (hrate (by omega))
      refine ⟨_, ?_, Or.inr (Or.inr (nextBatchLen_le rate
        ((cfg.queue.drop s.cursor).map PendingChunk.tokenCount) cfg.ceiling s.previousBatchSize))⟩
      simp only [hsome, Option.map_some]
  · exact Or.inr ⟨not_lt.1 hcursor, if_neg hcursor⟩

theorem phaseOk_startBatch (hlimit : 1 ≤ requestLimit cfg) (h : AtHead cfg before log s) :
    PhaseOk cfg before log (startBatch cfg s) := by
  rcases startBatch_cases cfg s h.rate with ⟨hcursor, size, heq, hsize⟩ | ⟨hcursor, heq⟩
  · rw [heq]
    refine ⟨h.progress, h.embedded, Nat.add_le_add_right h.batchNum 1, fun hnum =>
      h.rate (by simpa using hnum), le_max_left _ _, ?_, ?_⟩
    · dsimp only
      omega
    · have hnum := h.batchNum
      rw [ceiling_eq] at hsize
      dsimp only
      unfold sizeBound
      omega
  · rw [heq]
    have hn : s.embedded = s.cursor := h.embedded
    rw [PhaseOk, hn]
    exact h.progress

/-- The rows of a reply are stored behind those that are there. -/
theorem Progress.concat (hids : (rowIds cfg.queue).Nodup) (h : InFlight cfg before log s)
    (bytes : List UInt8) :
    Progress cfg before (log ++ [(s.batch cfg, bytes)]) (s.cursor + s.thisBatchSize)
      (insertEmbeddings (rowsOf (s.batch cfg, bytes)) s.store) := by
  have htake : cfg.queue.take (s.cursor + s.thisBatchSize) =
      cfg.queue.take s.cursor ++ s.batch cfg := List.take_add
  have hnodup : (rowIds (cfg.queue.take s.cursor ++ s.batch cfg)).Nodup := by
    rw [← htake]
    exact hids.sublist ((List.take_sublist _ _).map _)
  rw [rowIds, List.map_append, List.nodup_append] at hnodup
  refine ⟨h.fits, ?_, ?_⟩
  · rw [List.flatMap_append, h.progress.taken, htake, List.flatMap_singleton]
  · rw [insertEmbeddings_eq (by rw [map_fst_rowsOf]; exact hnodup.2.1), map_fst_rowsOf,
      h.progress.store, List.filter_append, List.filter_filter, List.flatMap_append,
      List.flatMap_singleton, List.append_assoc, htake]
    congr 1
    · refine List.filter_congr fun e _ => ?_
      have hmem : e.1 ∉ rowIds (s.batch cfg) ∧ e.1 ∉ rowIds (cfg.queue.take s.cursor) ↔
          e.1 ∉ rowIds (cfg.queue.take s.cursor ++ s.batch cfg) := by
        rw [rowIds, rowIds, rowIds, List.map_append, List.mem_append, not_or, and_comm]
      rw [← decide_eq_decide.2 hmem, Bool.decide_and]
    · congr 1
      refine List.filter_eq_self.2 fun e he => decide_eq_true fun hmem => ?_
      have hold : e.1 ∈ rowIds (cfg.queue.take s.cursor) := by
        rw [← h.progress.taken, ← map_fst_flatMap_rowsOf]
        exact List.mem_map_of_mem he
      exact hnodup.2.2 e.1 hold e.1 hmem rfl

/-- The head of the loop after a request that succeeds. -/
theorem InFlight.next (hids : (rowIds cfg.queue).Nodup) (h : InFlight cfg before log s)
    (bytes : List UInt8) (measured : Rate) :
    AtHead cfg before (log ++ [(s.batch cfg, bytes)]) { s with
      rate := some measured
      store := insertEmbeddings (rowsOf (s.batch cfg, bytes)) s.store
      embedded := s.embedded + (s.batch cfg).length
      previousBatchSize := s.thisBatchSize
      cursor := s.cursor + s.thisBatchSize } := by
  refine ⟨Progress.concat hids h bytes, ?_, ?_, fun _ => rfl⟩
  · dsimp only
    rw [h.embedded, h.length_batch]
  · have := h.batchNum
    have := h.pos
    dsimp only
    omega

theorem phaseOk_step (hids : (rowIds cfg.queue).Nodup) (hlimit : 1 ≤ requestLimit cfg)
    (h : InFlight cfg before log s) (sent : Sent) (measured : Rate) :
    PhaseOk cfg before (log ++ reply cfg s sent) (step cfg s sent measured) := by
  have hfinished : Progress cfg before log s.embedded s.store := h.embedded ▸ h.progress
  unfold reply step
  cases hsent : embedOneBatch sent s.thisBatchSize with
  | ok bytes => exact phaseOk_startBatch hlimit (h.next hids bytes measured)
  | error e =>
    dsimp only
    rw [List.append_nil]
    cases e with
    | budgetExceeded =>
      dsimp only
      split_ifs with hone hmore hfloor
      · exact { h with }
      · exact hfinished
      · exact hfinished
      · refine { h with rate := fun _ => rfl, pos := le_max_right _ _, fits := ?_, size := ?_ }
        · have := h.fits
          have := h.pos
          dsimp only
          omega
        · have := h.size
          have := h.pos
          dsimp only
          omega
    | connectFailure =>
      dsimp only
      split_ifs
      · exact hfinished
      · exact { h with }
    | saturated =>
      dsimp only
      split_ifs
      · exact hfinished
      · exact { h with }
    | other => exact hfinished

theorem phaseOk_exec (hids : (rowIds cfg.queue).Nodup) (hlimit : 1 ≤ requestLimit cfg)
    (l : List (Sent × Rate)) {phase : Phase} (h : PhaseOk cfg before log phase) :
    PhaseOk cfg before (log ++ replies cfg phase l) (exec cfg phase l) := by
  induction l generalizing phase log with
  | nil => cases phase <;> (unfold replies exec; rwa [List.append_nil])
  | cons answer rest ih =>
    cases phase with
    | sending s =>
      rw [replies, exec, ← List.append_assoc]
      exact ih (phaseOk_step hids hlimit h answer.1 answer.2)
    | finished n store =>
      unfold replies exec
      rwa [List.append_nil]
    | panicked => exact h.elim

/-! ### The end of a run -/

/-- A request uses up chunks of the queue, the size of its batch, or a retry. -/
def weight (cfg : Config) : Phase → ℕ
  | .sending s => (cfg.queue.length - s.cursor) * 300 + s.thisBatchSize +
      (connectFailureBackoffs.length - s.connectFailures) +
      (maxSaturationRetries - s.saturationRetries) + (if s.escalatedCalibrationOnce then 0 else 1)
  | _ => 0

theorem weight_startBatch_le (hlimit : 1 ≤ requestLimit cfg) (h : AtHead cfg before log s) :
    weight cfg (startBatch cfg s) ≤ (cfg.queue.length - s.cursor) * 300 + 292 := by
  have hok := phaseOk_startBatch hlimit h
  rcases startBatch_cases cfg s h.rate with ⟨hcursor, size, heq, -⟩ | ⟨hcursor, heq⟩
  · rw [heq] at hok ⊢
    have hsize := hok.size.trans (sizeBound_le cfg)
    simp only [weight, connectFailureBackoffs, maxSaturationRetries] at hsize ⊢
    simp only [List.length_cons, List.length_nil, Bool.false_eq_true, if_false]
    omega
  · rw [heq]
    exact Nat.zero_le _

theorem weight_step (hids : (rowIds cfg.queue).Nodup) (hlimit : 1 ≤ requestLimit cfg)
    (h : InFlight cfg before log s) (sent : Sent) (measured : Rate) :
    weight cfg (step cfg s sent measured) < weight cfg (.sending s) := by
  have hpos := h.pos
  have hfits := h.fits
  have hzero : 0 < weight cfg (.sending s) := by
    simp only [weight]
    omega
  unfold step
  cases embedOneBatch sent s.thisBatchSize with
  | ok bytes =>
    refine (weight_startBatch_le hlimit (h.next hids bytes measured)).trans_lt ?_
    simp only [weight]
    omega
  | error e =>
    cases e with
    | budgetExceeded =>
      dsimp only
      split_ifs with hone hmore hfloor
      · simp only [weight, hmore.1, if_true, Bool.false_eq_true, if_false]
        omega
      · exact hzero
      · exact hzero
      · simp only [weight]
        omega
    | connectFailure =>
      dsimp only
      split_ifs with hbound
      · exact hzero
      · simp only [weight]
        omega
    | saturated =>
      dsimp only
      split_ifs with hbound
      · exact hzero
      · simp only [weight]
        omega
    | other => exact hzero

/-- A run is over after as many requests as the first phase has weight. -/
theorem finished_of_weight_le (hids : (rowIds cfg.queue).Nodup) (hlimit : 1 ≤ requestLimit cfg)
    {l : List (Sent × Rate)} {phase : Phase} (h : PhaseOk cfg before log phase)
    (hl : weight cfg phase ≤ l.length) : ∃ n store, exec cfg phase l = .finished n store := by
  induction l generalizing phase log with
  | nil =>
    cases phase with
    | sending s =>
      have hfits := h.fits
      have hpos := h.pos
      simp only [weight, List.length_nil] at hl
      omega
    | finished n store => exact ⟨n, store, rfl⟩
    | panicked => exact h.elim
  | cons answer rest ih =>
    cases phase with
    | sending s =>
      have hless := weight_step hids hlimit h answer.1 answer.2
      rw [exec]
      refine ih (phaseOk_step hids hlimit h answer.1 answer.2) ?_
      rw [List.length_cons] at hl
      omega
    | finished n store => exact ⟨n, store, rfl⟩
    | panicked => exact h.elim

/-! ### Runs that do not end early -/

/-- An answer that ends the loop: one above the bounds of its kind, a timeout of a single chunk
    (the second, where it is the first request of all), or a failure of another kind. -/
def GivesUp (s : State) (sent : Sent) : Prop :=
  match embedOneBatch sent s.thisBatchSize with
  | .ok _ => False
  | .error .budgetExceeded =>
      s.thisBatchSize = 1 ∧ (s.escalatedCalibrationOnce = true ∨ s.rate.isSome = true)
  | .error .connectFailure => connectFailureBackoffs.length ≤ s.connectFailures
  | .error .saturated => maxSaturationRetries ≤ s.saturationRetries
  | .error .other => True

/-- No request of a run fails for good. -/
def Patient (cfg : Config) : Phase → List (Sent × Rate) → Prop
  | .sending s, (sent, measured) :: rest =>
      ¬ GivesUp s sent ∧ Patient cfg (step cfg s sent measured) rest
  | _, _ => True

/-- The end of the loop is the end of the queue. -/
def EndsWhole (cfg : Config) : Phase → Prop
  | .finished n _ => n = cfg.queue.length
  | _ => True

theorem endsWhole_startBatch (h : AtHead cfg before log s) : EndsWhole cfg (startBatch cfg s) := by
  rcases startBatch_cases cfg s h.rate with ⟨-, size, heq, -⟩ | ⟨hcursor, heq⟩
  · rw [heq]
    trivial
  · rw [heq]
    exact h.embedded.trans (le_antisymm h.progress.le hcursor)

theorem endsWhole_step (hids : (rowIds cfg.queue).Nodup) (h : InFlight cfg before log s)
    {sent : Sent} (hsent : ¬ GivesUp s sent) (measured : Rate) :
    EndsWhole cfg (step cfg s sent measured) := by
  have hpos := h.pos
  unfold GivesUp at hsent
  unfold step
  cases hanswer : embedOneBatch sent s.thisBatchSize with
  | ok bytes => exact endsWhole_startBatch (h.next hids bytes measured)
  | error e =>
    rw [hanswer] at hsent
    cases e with
    | budgetExceeded =>
      dsimp only at hsent ⊢
      split_ifs with hone hmore hfloor
      · trivial
      · refine absurd ⟨hone, ?_⟩ hsent
        by_contra hcon
        obtain ⟨hesc, hrate⟩ := not_or.1 hcon
        exact hmore ⟨Bool.eq_false_iff.2 hesc, by simpa using hrate⟩
      · omega
      · trivial
    | connectFailure =>
      dsimp only at hsent ⊢
      rw [if_neg hsent]
      trivial
    | saturated =>
      dsimp only at hsent ⊢
      rw [if_neg hsent]
      trivial
    | other => exact absurd trivial hsent

theorem endsWhole_exec (hids : (rowIds cfg.queue).Nodup) (hlimit : 1 ≤ requestLimit cfg)
    {l : List (Sent × Rate)} {phase : Phase} (h : PhaseOk cfg before log phase)
    (hwhole : EndsWhole cfg phase) (hl : Patient cfg phase l) :
    EndsWhole cfg (exec cfg phase l) := by
  induction l generalizing phase log with
  | nil => cases phase <;> exact hwhole
  | cons answer rest ih =>
    cases phase with
    | sending s =>
      exact ih (phaseOk_step hids hlimit h answer.1 answer.2) (endsWhole_step hids h hl.1 answer.2)
        hl.2
    | finished n store => exact hwhole
    | panicked => exact h.elim

end Steps

/-! ### The loop -/

def Phase.embedded : Phase → ℕ
  | .sending s => s.embedded
  | .finished n _ => n
  | .panicked => 0

def Phase.store : Phase → List (ℕ × FloatVec)
  | .sending s => s.store
  | .finished _ store => store
  | .panicked => []

/-- The loop is exact: whatever its requests come to, it ends; no request carries more than it
    may; at any time a prefix of the queue is stored, each chunk once and as counted, with the
    vector of the reply to its own request; and the whole queue is, when no request fails for
    good. -/
structure EmbedExact (cfg : Config) (before : List (ℕ × FloatVec)) : Prop where
  terminates : ∃ bound, ∀ l, bound ≤ l.length →
    ∃ n store, exec cfg (start cfg before) l = .finished n store
  bounded : ∀ l s, exec cfg (start cfg before) l = .sending s →
    (s.batch cfg).length ≤ requestLimit cfg
  progress : ∀ l, Progress cfg before (replies cfg (start cfg before) l)
    (exec cfg (start cfg before) l).embedded (exec cfg (start cfg before) l).store
  counted : ∀ l, ((replies cfg (start cfg before) l).flatMap rowsOf).map Prod.fst =
    rowIds (cfg.queue.take (exec cfg (start cfg before) l).embedded)
  /-- When a reply has vectors in the order of its request, each chunk gets its own. -/
  own : ∀ l, ∀ r ∈ replies cfg (start cfg before) l,
    ∀ (IsVectorOf : ChunkToEmbed → FloatVec → Prop) (vectors : List FloatVec),
      List.Forall₂ IsVectorOf (r.1.map PendingChunk.toChunkToEmbed) vectors →
      (∀ v ∈ vectors, v.length = embeddingDim) →
      r.2 = vectors.flatMap (fun v => v.flatMap toLeBytes) →
      List.Forall₂ (fun c e => e.1 = c.rowId ∧ IsVectorOf c e.2)
        (r.1.map PendingChunk.toChunkToEmbed) (rowsOf r)
  failed : ∀ l s sent measured e, exec cfg (start cfg before) l = .sending s →
    embedOneBatch sent s.thisBatchSize = .error e → (step cfg s sent measured).store = s.store
  whole : ∀ l n store, Patient cfg (start cfg before) l →
    exec cfg (start cfg before) l = .finished n store → n = cfg.queue.length

theorem store_step_of_error (cfg : Config) (s : State) {sent : Sent} (measured : Rate)
    {e : EmbedBatchError} (h : embedOneBatch sent s.thisBatchSize = .error e) :
    (step cfg s sent measured).store = s.store := by
  unfold step
  rw [h]
  cases e <;> dsimp only <;> try split_ifs
  all_goals rfl

theorem atHead_start (cfg : Config) (before : List (ℕ × FloatVec)) :
    AtHead cfg before [] (initialState before) := by
  refine ⟨⟨Nat.zero_le _, rfl, ?_⟩, rfl, le_rfl, fun h => by cases h⟩
  simp only [initialState, List.take_zero, List.flatMap_nil, List.append_nil]
  exact (List.filter_eq_self.2 fun _ _ => rfl).symm

theorem progress_of_phaseOk {cfg : Config} {before : List (ℕ × FloatVec)}
    {log : List (List PendingChunk × List UInt8)} {phase : Phase}
    (h : PhaseOk cfg before log phase) : Progress cfg before log phase.embedded phase.store := by
  cases phase with
  | sending s =>
    have hn : s.embedded = s.cursor := h.embedded
    rw [Phase.embedded, hn]
    exact h.progress
  | finished n store => exact h
  | panicked => exact h.elim

/-- The second request of a run whose first succeeds. -/
theorem exists_second_request {cfg : Config} (before : List (ℕ × FloatVec))
    (h : 2 ≤ cfg.queue.length) :
    ∃ l s, exec cfg (start cfg before) l = .sending s ∧
      (s.batch cfg).length = min 4 (cfg.queue.length - 1) := by
  have hreply : embedOneBatch (.answered 200 (some (List.replicate (embeddingDim * 4) 0))) 1 =
      .ok (List.replicate (embeddingDim * 4) 0) := by
    rw [embedOneBatch, if_neg (by decide), if_neg (by decide), if_neg (by decide)]
    simp only [List.length_replicate, Nat.one_mul, ne_eq, not_true_eq_false, if_false]
  have hfirst : (initialState before).cursor < cfg.queue.length :=
    Nat.lt_of_lt_of_le Nat.zero_lt_two h
  have hone : max 1 (min calibrationBatch1 (cfg.queue.length - 0)) = 1 := by
    rw [calibrationBatch1]
    omega
  refine ⟨[(.answered 200 (some (List.replicate (embeddingDim * 4) 0)), ⟨false, fun _ => true⟩)],
    ?_⟩
  rw [start, startBatch, if_pos hfirst]
  simp only [initialState, exec, step, hone, hreply]
  rw [startBatch, if_pos (show 0 + 1 < cfg.queue.length by omega)]
  refine ⟨_, rfl, ?_⟩
  rw [State.batch, List.length_take, List.length_drop]
  simp only [calibrationBatch2]
  omega

/-- The loop is exact when the second batch, which has a size of its own, is not above what a
    request may carry. -/
theorem embedPhaseLaw (cfg : Config) (before : List (ℕ × FloatVec))
    (hids : (rowIds cfg.queue).Nodup)
    (hcap : ∀ c ∈ cfg.serverMaxBatchChunks, 1 ≤ c) :
    EmbedExact cfg before ↔ min 4 (cfg.queue.length - 1) ≤ requestLimit cfg := by
  have hlimit := one_le_requestLimit hcap
  have hstart : PhaseOk cfg before [] (start cfg before) :=
    phaseOk_startBatch hlimit (atHead_start cfg before)
  have hreached : ∀ l, PhaseOk cfg before (replies cfg (start cfg before) l)
      (exec cfg (start cfg before) l) := fun l => phaseOk_exec hids hlimit l hstart
  constructor
  · intro h
    by_cases hlength : 2 ≤ cfg.queue.length
    · obtain ⟨l, s, hexec, hbatch⟩ := exists_second_request before hlength
      rw [← hbatch]
      exact h.bounded l s hexec
    · omega
  · intro h
    refine ⟨⟨_, fun l => finished_of_weight_le hids hlimit hstart⟩, fun l s hexec => ?_,
      fun l => progress_of_phaseOk (hreached l), fun l => ?_, fun l r _ R vectors hR hdim hr => ?_,
      fun l s sent measured e _ he => store_step_of_error cfg s measured he,
      fun l n store hpatient hexec => ?_⟩
    · have hok := hreached l
      rw [hexec] at hok
      rw [hok.length_batch]
      exact hok.size.trans (max_le h le_rfl)
    · rw [map_fst_flatMap_rowsOf, (progress_of_phaseOk (hreached l)).taken]
    · rw [rowsOf, hr]
      exact sliceReply_flatMap hR hdim
    · have hwhole := endsWhole_exec hids hlimit hstart
        (endsWhole_startBatch (atHead_start cfg before)) hpatient
      rw [hexec] at hwhole
      exact hwhole

section Runs

/-- Five chunks, and `--batch-size` as given. -/
def fiveChunks (batchSize : ℕ) : Config where
  queue := [⟨⟨1, "a"⟩, 3⟩, ⟨⟨2, "b"⟩, 3⟩, ⟨⟨3, "c"⟩, 3⟩, ⟨⟨4, "d"⟩, 3⟩, ⟨⟨5, "e"⟩, 3⟩]
  batchSize := batchSize
  serverMaxBatchChunks := none

theorem embedPhaseLaw_fiveChunks : EmbedExact (fiveChunks 0) [] :=
  (embedPhaseLaw (fiveChunks 0) [] (by decide) (fun _ h => absurd h (Option.not_mem_none _))).2
    (by decide)

/-- With a flag of 2 the second request carries four chunks. -/
theorem secondBatch_aboveFlag : requestLimit (fiveChunks 2) = 2 ∧
    (∃ l s, exec (fiveChunks 2) (start (fiveChunks 2) []) l = .sending s ∧
      (s.batch (fiveChunks 2)).length = 4) ∧ ¬ EmbedExact (fiveChunks 2) [] := by
  obtain ⟨l, s, hexec, hbatch⟩ := exists_second_request []
    (show 2 ≤ (fiveChunks 2).queue.length by decide)
  have hfour : (s.batch (fiveChunks 2)).length = 4 := hbatch
  refine ⟨by decide, ⟨l, s, hexec, hfour⟩, fun h => ?_⟩
  have hbound := h.bounded l s hexec
  rw [hfour] at hbound
  exact absurd hbound (by decide)

end Runs

end EmbedPhase

end Spelunk
