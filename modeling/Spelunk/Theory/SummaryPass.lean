import Mathlib.Data.List.Nodup
import Mathlib.Data.List.TakeDrop
import Spelunk.Core.Summariser
import Spelunk.Lib.Slices

/-!
# The Summary Pass

What the pass does with an arbitrary answer. The ids of the answer are taken as they are: an
id of another chunk overwrites that chunk's summary, an id that comes twice is written twice.
A chunk whose marker is not written is asked for again.

All writes of a round are one list, so that a round is known by the ids in it (`writeAll`), and
the run by what is still pending (`pendingIds`).

## Main definitions

* `SummaryTable.pendingIds`: The chunks that wait for a summary.
* `namedIds`, `BracketsCrossed`: What the answer names, and where it kills the program.
* `storedIds`, `RoundObeys`: The answers that are written, and when a round keeps to its batch.
* `RoundFits`: Every chunk of the batch is written once and no other one.
* `RunObeys`: Every round of a run keeps to its batch.

## Theorems

* `pendingIds_writeAll`, `written_writeAll`: What the writes of a round do.
* `summariseBatch_iff`: When a batch is answered in its order.
* `roundFits_iff`: When a round does what it is meant to.
* `summaryLaw`: And a run.
* `summary_foreign`: Answers that do not keep to the batch.
-/

namespace Spelunk

/-- The ids of the chunks. -/
def SummaryTable.ids (t : SummaryTable) : List ℤ := t.rows.map SummaryRow.id

/-- The chunks that wait for a summary. -/
def SummaryTable.pendingIds (t : SummaryTable) : List ℤ :=
  (t.rows.filter fun r => r.summary = none).map SummaryRow.id

theorem SummaryTable.nodup_ids (t : SummaryTable) : t.ids.Nodup :=
  t.sorted.imp fun h => Int.ne_of_lt h

theorem SummaryTable.pendingIds_sublist (t : SummaryTable) : t.pendingIds.Sublist t.ids :=
  List.filter_sublist.map _

theorem SummaryTable.nodup_pendingIds (t : SummaryTable) : t.pendingIds.Nodup :=
  t.nodup_ids.sublist t.pendingIds_sublist

theorem map_fst_chunksWithoutSummaries (limit : ℕ) (t : SummaryTable) :
    (t.chunksWithoutSummaries limit).map Prod.fst = t.pendingIds.take limit := by
  rw [SummaryTable.chunksWithoutSummaries, List.map_map, SummaryTable.pendingIds, ← List.map_take]
  rfl

section Update

variable (id : ℤ) (text : String) (t : SummaryTable)

theorem ids_updateChunkSummary : (t.updateChunkSummary id text).ids = t.ids := by
  rw [SummaryTable.ids, SummaryTable.updateChunkSummary, List.map_map]
  refine List.map_congr_left fun r _ => ?_
  dsimp only [Function.comp]
  split <;> rfl

theorem pendingIds_updateChunkSummary :
    (t.updateChunkSummary id text).pendingIds = t.pendingIds.filter (· ≠ id) := by
  have hrows : ∀ rows : List SummaryRow,
      ((rows.map fun r => if r.id = id then { r with summary := some text } else r).filter
          fun r => r.summary = none).map SummaryRow.id =
        ((rows.filter fun r => r.summary = none).map SummaryRow.id).filter (· ≠ id) := by
    intro rows
    induction rows with
    | nil => rfl
    | cons r rows ih =>
      rw [List.map_cons, List.filter_cons, List.filter_cons]
      by_cases hid : r.id = id
      · rw [if_pos hid, if_neg (by simp), ih]
        by_cases hsummary : r.summary = none
        · rw [if_pos (by simpa using hsummary), List.map_cons, List.filter_cons,
            if_neg (by simp [hid])]
        · rw [if_neg (by simpa using hsummary)]
      · rw [if_neg hid]
        by_cases hsummary : r.summary = none
        · rw [if_pos (by simpa using hsummary), if_pos (by simpa using hsummary), List.map_cons,
            List.map_cons, List.filter_cons, if_pos (by simp [hid]), ih]
        · rw [if_neg (by simpa using hsummary), if_neg (by simpa using hsummary), ih]
  exact hrows t.rows

theorem mem_updateChunkSummary {r : SummaryRow} (hr : r ∈ t.rows) (hid : r.id ≠ id) :
    r ∈ (t.updateChunkSummary id text).rows :=
  List.mem_map.2 ⟨r, hr, if_neg hid⟩

end Update

/-- Writes one after the other. -/
def writeAll (run : SummaryRun) (writes : List (ℤ × String)) : SummaryRun :=
  writes.foldl (fun run w => run.write w.1 w.2) run

section WriteAll

variable (run : SummaryRun) (writes : List (ℤ × String))

theorem writeAll_append (more : List (ℤ × String)) :
    writeAll run (writes ++ more) = writeAll (writeAll run writes) more :=
  List.foldl_append

theorem ids_writeAll : (writeAll run writes).table.ids = run.table.ids := by
  induction writes generalizing run with
  | nil => rfl
  | cons w writes ih => exact (ih (run.write w.1 w.2)).trans (ids_updateChunkSummary _ _ _)

/-- What is written waits no more. -/
theorem pendingIds_writeAll :
    (writeAll run writes).table.pendingIds =
      run.table.pendingIds.filter (· ∉ writes.map Prod.fst) := by
  induction writes generalizing run with
  | nil => exact (List.filter_eq_self.2 (by simp)).symm
  | cons w writes ih =>
    have hstep := ih (run.write w.1 w.2)
    rw [show (run.write w.1 w.2).table.pendingIds = run.table.pendingIds.filter (· ≠ w.1) from
      pendingIds_updateChunkSummary _ _ _, List.filter_filter] at hstep
    refine hstep.trans (List.filter_congr fun id _ => ?_)
    rw [← Bool.decide_and, List.map_cons]
    exact decide_eq_decide.2 (by rw [List.mem_cons, not_or, and_comm])

theorem mem_writeAll {r : SummaryRow} (hr : r ∈ run.table.rows)
    (hid : r.id ∉ writes.map Prod.fst) : r ∈ (writeAll run writes).table.rows := by
  induction writes generalizing run with
  | nil => exact hr
  | cons w writes ih =>
    rw [List.map_cons, List.mem_cons, not_or] at hid
    exact ih (run.write w.1 w.2) (mem_updateChunkSummary _ _ _ hr hid.1) hid.2

/-- A chunk is written as often as the writes name it. -/
theorem count_writeAll {id : ℤ} (hid : id ∈ run.table.ids) :
    (writeAll run writes).written.count id =
      run.written.count id + (writes.map Prod.fst).count id := by
  induction writes generalizing run with
  | nil => rfl
  | cons w writes ih =>
    have hstep := ih (run.write w.1 w.2)
      (by rwa [show (run.write w.1 w.2).table.ids = run.table.ids from
        ids_updateChunkSummary _ _ _])
    refine hstep.trans ?_
    rw [List.map_cons, List.count_cons]
    by_cases hw : w.1 = id
    · subst hw
      rw [SummaryRun.write, if_pos (show w.1 ∈ run.table.rows.map SummaryRow.id from hid),
        List.count_append]
      simp
      omega
    · rw [if_neg (by simpa using hw), Nat.add_zero]
      congr 1
      unfold SummaryRun.write
      dsimp only
      split
      · rw [List.count_append]
        simp [hw]
      · rfl

theorem asked_writeAll : (writeAll run writes).asked = run.asked ∧
    (writeAll run writes).dead = run.dead := by
  induction writes generalizing run with
  | nil => exact ⟨rfl, rfl⟩
  | cons w writes ih => exact ih (run.write w.1 w.2)

end WriteAll

/-! ### What the answer names -/

/-- The last closing bracket stands in front of the first opening one, with something between. -/
def BracketsCrossed (reply : Option String) : Prop :=
  ∃ raw ∈ reply, ∃ first last,
    (trim (stripAnsi .text raw.toList)).idxOf? '[' = some first ∧
      rfindChar ']' (trim (stripAnsi .text raw.toList)) = some last ∧ last + 1 < first

theorem jsonSlice_eq_none_iff {s : List Char} :
    jsonSlice s = none ↔
      ∃ first last, s.idxOf? '[' = some first ∧ rfindChar ']' s = some last ∧ last + 1 < first := by
  unfold jsonSlice
  cases s.idxOf? '[' with
  | none => simp
  | some first =>
    cases rfindChar ']' s with
    | none => simp
    | some last => simp

section Pass

variable (fromStr : List Char → Option (List SummaryEntry)) (containsSecret : String → Bool)

/-- The answers that are in a reply: none where it is no list, or there is no reply. -/
def answersIn (reply : Option String) : List (ℤ × String) :=
  match reply.bind fun raw => jsonSlice (trim (stripAnsi .text raw.toList)) with
  | none => []
  | some s => ((fromStr s).getD []).filterMap SummaryEntry.answer

variable {fromStr}

theorem summariseBatch_eq_none_iff {chunks : List (ℤ × String × String × String)}
    (hne : chunks ≠ []) {reply : Option String} :
    summariseBatch fromStr chunks reply = none ↔ BracketsCrossed reply := by
  unfold summariseBatch BracketsCrossed
  rw [if_neg hne]
  cases reply with
  | none => simp
  | some raw => simp [jsonSlice_eq_none_iff]

theorem summariseBatch_eq {chunks : List (ℤ × String × String × String)} (hne : chunks ≠ [])
    {reply : Option String} (h : ¬ BracketsCrossed reply) :
    summariseBatch fromStr chunks reply = some (answersIn fromStr reply) := by
  have hsome : ¬ summariseBatch fromStr chunks reply = none :=
    mt (summariseBatch_eq_none_iff hne).1 h
  unfold summariseBatch at hsome ⊢
  unfold answersIn
  rw [if_neg hne] at hsome ⊢
  cases reply with
  | none => rfl
  | some raw =>
    dsimp only at hsome ⊢
    rw [Option.bind_some]
    cases hslice : jsonSlice (trim (stripAnsi .text raw.toList)) with
    | none => exact absurd (by rw [hslice]; rfl) hsome
    | some s =>
      rw [Option.map_some]
      dsimp only
      cases fromStr s <;> rfl

/-- A batch is answered by its own ids, in its order, exactly where the reply has them so. -/
theorem summariseBatch_iff (chunks : List (ℤ × String × String × String))
    (reply : Option String) :
    (∃ answers, summariseBatch fromStr chunks reply = some answers ∧
        (answers.map Prod.fst).Sublist (chunks.map Prod.fst)) ↔
      chunks = [] ∨ ¬ BracketsCrossed reply ∧
        ((answersIn fromStr reply).map Prod.fst).Sublist (chunks.map Prod.fst) := by
  by_cases hne : chunks = []
  · refine iff_of_true ⟨[], ?_, List.nil_sublist _⟩ (.inl hne)
    exact if_pos hne
  · rw [or_iff_right hne]
    by_cases hcrossed : BracketsCrossed reply
    · refine iff_of_false ?_ fun h => h.1 hcrossed
      rw [(summariseBatch_eq_none_iff hne).2 hcrossed]
      rintro ⟨_, h, -⟩
      exact nomatch h
    · rw [summariseBatch_eq hne hcrossed]
      simp [hcrossed]

/-! ### A round -/

/-- The answers that are written, in their order. -/
def storedWrites (round : SummaryRound) (answers : List ((ℤ × String) × ℕ)) :
    List (ℤ × String) :=
  (answers.filter fun p => ! round.textFails p.2).map fun p =>
    (p.1.1, if containsSecret p.1.2 then "" else p.1.2)

/-- The chunks that are marked. -/
def markerWrites (round : SummaryRound) (summarised ids : List ℤ) : List (ℤ × String) :=
  (ids.filter fun id => id ∉ summarised ∧ round.markerFails id = false).map (·, "")

variable {containsSecret}

theorem storeAnswers_eq (round : SummaryRound) (run : SummaryRun) (summarised : List ℤ)
    (answers : List ((ℤ × String) × ℕ)) :
    storeAnswers containsSecret round run summarised answers =
      (writeAll run (storedWrites containsSecret round answers),
        summarised ++ (storedWrites containsSecret round answers).map Prod.fst) := by
  induction answers generalizing run summarised with
  | nil =>
    rw [storeAnswers, storedWrites, List.filter_nil, List.map_nil, List.map_nil, List.append_nil]
    rfl
  | cons p answers ih =>
    obtain ⟨⟨id, summary⟩, i⟩ := p
    rw [storeAnswers, storedWrites]
    by_cases hfails : round.textFails i = true
    · rw [if_pos hfails, List.filter_cons_of_neg (by simpa using hfails), ih]
      rfl
    · rw [if_neg hfails, List.filter_cons_of_pos (by simpa using hfails), ih, List.map_cons,
        List.map_cons, List.append_assoc]
      rfl

theorem markRest_eq (round : SummaryRound) (summarised : List ℤ) (run : SummaryRun)
    (ids : List ℤ) :
    markRest round summarised run ids = writeAll run (markerWrites round summarised ids) := by
  induction ids generalizing run with
  | nil => rfl
  | cons id ids ih =>
    rw [markRest, markerWrites]
    by_cases hmark : id ∈ summarised ∨ round.markerFails id = true
    · rw [if_pos hmark, List.filter_cons_of_neg (by rcases hmark with h | h <;> simp [h]), ih]
      rfl
    · rw [if_neg hmark]
      rw [not_or] at hmark
      rw [List.filter_cons_of_pos (by simp [hmark]), ih]
      rfl

variable (fromStr)

/-- The ids of the answers that are written, once for each. -/
def storedIds (round : SummaryRound) : List ℤ :=
  (((answersIn fromStr round.reply).zipIdx.filter fun p => ! round.textFails p.2).map
    fun p => p.1.1)

/-- A round keeps to its batch: the program lives, no stored answer is for another chunk of the
    table, and every chunk of the batch has one stored answer, or none and its marker. -/
def RoundObeys (batchSize : ℕ) (t : SummaryTable) (round : SummaryRound) : Prop :=
  ¬ BracketsCrossed round.reply ∧
    (∀ id ∈ storedIds fromStr round, id ∈ t.ids → id ∈ t.pendingIds.take batchSize) ∧
    ∀ id ∈ t.pendingIds.take batchSize,
      (storedIds fromStr round).count id = 1 ∨
        (storedIds fromStr round).count id = 0 ∧ round.markerFails id = false

variable (containsSecret)

/-- What a round is meant to do: it does not die, writes each chunk of the batch once, and leaves
    all others as they are. -/
def RoundFits (batchSize : ℕ) (run : SummaryRun) (round : SummaryRound) : Prop :=
  let after := summaryRound fromStr containsSecret batchSize run round
  after.dead = false ∧
    (∀ id ∈ run.table.ids, after.written.count id = run.written.count id +
      if id ∈ run.table.pendingIds.take batchSize then 1 else 0) ∧
    ∀ r ∈ run.table.rows, r.id ∉ run.table.pendingIds.take batchSize → r ∈ after.table.rows

variable {fromStr containsSecret}

/-- The writes of a round. -/
def roundWrites (fromStr : List Char → Option (List SummaryEntry)) (containsSecret : String → Bool)
    (batchSize : ℕ) (t : SummaryTable) (round : SummaryRound) : List (ℤ × String) :=
  storedWrites containsSecret round (answersIn fromStr round.reply).zipIdx ++
    markerWrites round (storedIds fromStr round) (t.pendingIds.take batchSize)

theorem map_fst_storedWrites (round : SummaryRound) :
    (storedWrites containsSecret round (answersIn fromStr round.reply).zipIdx).map Prod.fst =
      storedIds fromStr round := by
  rw [storedWrites, List.map_map]
  rfl

variable (fromStr containsSecret) in
theorem summaryRound_eq {batchSize : ℕ} {run : SummaryRun} {round : SummaryRound}
    (hdead : run.dead = false) (hbatch : run.table.pendingIds.take batchSize ≠ [])
    (hcrossed : ¬ BracketsCrossed round.reply) :
    ∃ failed, summaryRound fromStr containsSecret batchSize run round =
      writeAll { run with
        asked := run.asked ++ [run.table.pendingIds.take batchSize]
        failedBatches := failed } (roundWrites fromStr containsSecret batchSize run.table round) := by
  rw [← map_fst_chunksWithoutSummaries] at hbatch ⊢
  have hne : run.table.chunksWithoutSummaries batchSize ≠ [] := fun h => hbatch (by rw [h]; rfl)
  unfold summaryRound
  dsimp only
  rw [if_neg (by simp [hdead, hne]), summariseBatch_eq hne hcrossed]
  dsimp only
  rw [markRest_eq, storeAnswers_eq, List.nil_append, map_fst_storedWrites]
  refine ⟨if answersIn fromStr round.reply = [] then run.failedBatches + 1
    else run.failedBatches, ?_⟩
  rw [roundWrites, writeAll_append, map_fst_chunksWithoutSummaries]
  by_cases hnil : answersIn fromStr round.reply = []
  · rw [if_pos hnil, if_pos hnil]
  · rw [if_neg hnil, if_neg hnil]

/-- How often a round writes a chunk. -/
theorem count_roundWrites (batchSize : ℕ) (t : SummaryTable) (round : SummaryRound) (id : ℤ) :
    ((roundWrites fromStr containsSecret batchSize t round).map Prod.fst).count id =
      (storedIds fromStr round).count id +
        if id ∈ t.pendingIds.take batchSize ∧ id ∉ storedIds fromStr round ∧
          round.markerFails id = false then 1 else 0 := by
  have hnodup := t.nodup_pendingIds.sublist (List.take_sublist batchSize _)
  rw [roundWrites, List.map_append, List.count_append, map_fst_storedWrites, markerWrites,
    List.map_map]
  congr 1
  have hid : (Prod.fst ∘ fun id : ℤ => (id, "")) = (fun id => id) := rfl
  rw [hid, List.map_id', List.Nodup.count (hnodup.filter _)]
  simp only [List.mem_filter, decide_eq_true_eq]

/-- When a round does what it is meant to. -/
theorem roundFits_iff {batchSize : ℕ} {run : SummaryRun} (hdead : run.dead = false)
    (hbatch : run.table.pendingIds.take batchSize ≠ []) (round : SummaryRound) :
    RoundFits fromStr containsSecret batchSize run round ↔
      RoundObeys fromStr batchSize run.table round := by
  by_cases hcrossed : BracketsCrossed round.reply
  · refine iff_of_false (fun h => ?_) fun h => h.1 hcrossed
    have hne : run.table.chunksWithoutSummaries batchSize ≠ [] := fun h => hbatch (by
      rw [← map_fst_chunksWithoutSummaries, h]
      rfl)
    have hafter := h.1
    unfold summaryRound at hafter
    dsimp only at hafter
    rw [if_neg (by simp [hdead, hne]), (summariseBatch_eq_none_iff hne).2 hcrossed] at hafter
    exact nomatch hafter
  obtain ⟨failed, hafter⟩ := summaryRound_eq fromStr containsSecret hdead hbatch hcrossed
  have hcount : ∀ id ∈ run.table.ids,
      (summaryRound fromStr containsSecret batchSize run round).written.count id =
        run.written.count id + ((storedIds fromStr round).count id +
          if id ∈ run.table.pendingIds.take batchSize ∧ id ∉ storedIds fromStr round ∧
            round.markerFails id = false then 1 else 0) := by
    intro id hid
    rw [hafter]
    refine (count_writeAll _ _ ?_).trans ?_
    · exact hid
    · exact congrArg (_ + ·) (count_roundWrites _ _ _ _)
  have hsub : ∀ id ∈ run.table.pendingIds.take batchSize, id ∈ run.table.ids := fun id h =>
    run.table.pendingIds_sublist.subset (List.mem_of_mem_take h)
  unfold RoundFits RoundObeys
  dsimp only
  constructor
  · rintro ⟨-, hwritten, -⟩
    refine ⟨hcrossed, fun id hstored hid => ?_, fun id hid => ?_⟩
    · by_contra hnot
      have heq := hwritten id hid
      rw [hcount id hid, if_neg fun h => hnot h.1, if_neg hnot] at heq
      have hpos := List.count_pos_iff.2 hstored
      omega
    · have heq := hwritten id (hsub id hid)
      rw [hcount id (hsub id hid), if_pos hid] at heq
      by_cases hstored : id ∈ storedIds fromStr round
      · rw [if_neg fun h => h.2.1 hstored] at heq
        exact .inl (by omega)
      · have hzero := List.count_eq_zero_of_not_mem hstored
        by_cases hfails : round.markerFails id = false
        · exact .inr ⟨hzero, hfails⟩
        · rw [if_neg fun h => hfails h.2.2, hzero] at heq
          omega
  · rintro ⟨-, hforeign, hbatchIds⟩
    refine ⟨?_, fun id hid => ?_, fun r hr hnot => ?_⟩
    · rw [hafter]
      exact (asked_writeAll _ _).2.trans hdead
    · rw [hcount id hid]
      by_cases hin : id ∈ run.table.pendingIds.take batchSize
      · rw [if_pos hin]
        rcases hbatchIds id hin with hone | ⟨hzero, hfails⟩
        · have hstored := List.count_pos_iff.1 (by omega : 0 < (storedIds fromStr round).count id)
          rw [if_neg fun h => h.2.1 hstored, hone]
        · rw [if_pos ⟨hin, List.count_eq_zero.1 hzero, hfails⟩, hzero]
      · have hzero := List.count_eq_zero_of_not_mem fun h => hin (hforeign id h hid)
        rw [if_neg fun h => hin h.1, if_neg hin, hzero]
    · rw [hafter]
      refine mem_writeAll _ _ hr fun hmem => ?_
      have hpos := List.count_pos_iff.2 hmem
      have hid : r.id ∈ run.table.ids := List.mem_map_of_mem hr
      rw [count_roundWrites, if_neg fun h => hnot h.1] at hpos
      exact hnot (hforeign _ (List.count_pos_iff.1 (by omega)) hid)

/-! ### A run -/

variable (fromStr containsSecret)

/-- Every round of a run that has a batch keeps to it. -/
def RunObeys (batchSize : ℕ) : SummaryRun → List SummaryRound → Prop
  | _, [] => True
  | run, round :: rounds =>
    (run.table.pendingIds ≠ [] → RoundObeys fromStr batchSize run.table round) ∧
      RunObeys batchSize (summaryRound fromStr containsSecret batchSize run round) rounds

variable {fromStr containsSecret}

/-- What holds in a run that keeps to its batches: the batches that were asked for and what is
    pending are the chunks that waited at first, all batches but the last one were full, and the
    chunks asked for were written once each and no others. -/
structure PassInv (batchSize : ℕ) (start : SummaryTable) (run : SummaryRun) : Prop where
  alive : run.dead = false
  ids : run.table.ids = start.ids
  pending : run.asked.flatten ++ run.table.pendingIds = start.pendingIds
  full : run.table.pendingIds ≠ [] → run.asked.flatten.length = run.asked.length * batchSize
  requests : run.asked.length ≤ (run.asked.flatten.length + batchSize - 1) / batchSize
  written : ∀ id ∈ start.ids, run.written.count id = if id ∈ run.asked.flatten then 1 else 0
  rest : ∀ r ∈ start.rows, r.id ∉ run.asked.flatten → r ∈ run.table.rows

variable (containsSecret) in
/-- The chunks of a round that keeps to its batch wait no more. -/
theorem pendingIds_summaryRound {batchSize : ℕ} {run : SummaryRun} {round : SummaryRound}
    (hdead : run.dead = false) (hbatch : run.table.pendingIds.take batchSize ≠ [])
    (hobeys : RoundObeys fromStr batchSize run.table round) :
    (summaryRound fromStr containsSecret batchSize run round).table.pendingIds =
        run.table.pendingIds.drop batchSize ∧
      (summaryRound fromStr containsSecret batchSize run round).table.ids = run.table.ids ∧
      (summaryRound fromStr containsSecret batchSize run round).asked =
        run.asked ++ [run.table.pendingIds.take batchSize] := by
  obtain ⟨failed, hafter⟩ := summaryRound_eq fromStr containsSecret hdead hbatch hobeys.1
  rw [hafter]
  refine ⟨?_, ids_writeAll _ _, (asked_writeAll _ _).1⟩
  rw [pendingIds_writeAll, ← Lib.filter_notMem_take run.table.nodup_pendingIds]
  refine List.filter_congr fun id hid => decide_eq_decide.2 (not_congr ?_)
  have hids := run.table.pendingIds_sublist.subset hid
  rw [← List.count_pos_iff, count_roundWrites]
  constructor
  · intro hpos
    by_contra hnot
    rw [if_neg fun h => hnot h.1] at hpos
    exact hnot (hobeys.2.1 id (List.count_pos_iff.1 (by omega)) hids)
  · intro hin
    rcases hobeys.2.2 id hin with hone | ⟨hzero, hfails⟩
    · omega
    · rw [if_pos ⟨hin, List.count_eq_zero.1 hzero, hfails⟩]
      omega

theorem passInv_round {batchSize : ℕ} (hsize : 0 < batchSize) {start : SummaryTable}
    {run : SummaryRun} {round : SummaryRound} (h : PassInv batchSize start run)
    (hobeys : run.table.pendingIds ≠ [] → RoundObeys fromStr batchSize run.table round) :
    PassInv batchSize start (summaryRound fromStr containsSecret batchSize run round) := by
  by_cases hnil : run.table.pendingIds = []
  · have hempty : run.table.chunksWithoutSummaries batchSize = [] := by
      rw [← List.map_eq_nil_iff, map_fst_chunksWithoutSummaries, hnil, List.take_nil]
    have hsame : summaryRound fromStr containsSecret batchSize run round = run := by
      unfold summaryRound
      exact if_pos (.inr hempty)
    rwa [hsame]
  have hobeys := hobeys hnil
  have hlength := List.length_pos_iff.2 hnil
  have hbatch : run.table.pendingIds.take batchSize ≠ [] := by
    rw [ne_eq, List.take_eq_nil_iff]
    exact not_or.2 ⟨by omega, hnil⟩
  obtain ⟨hpending, hids, hasked⟩ :=
    pendingIds_summaryRound containsSecret h.alive hbatch hobeys
  obtain ⟨halive, hwritten, hrest⟩ : RoundFits fromStr containsSecret batchSize run round :=
    (roundFits_iff h.alive hbatch round).2 hobeys
  have hflatten : (run.asked ++ [run.table.pendingIds.take batchSize]).flatten =
      run.asked.flatten ++ run.table.pendingIds.take batchSize := by simp
  have hfull := h.full hnil
  have htake := List.length_take (i := batchSize) (l := run.table.pendingIds)
  refine ⟨halive, hids.trans h.ids, ?_, ?_, ?_, ?_, ?_⟩
  · rw [hasked, hpending, hflatten, List.append_assoc, List.take_append_drop, h.pending]
  · intro hmore
    rw [hpending, ne_eq, List.drop_eq_nil_iff, Nat.not_le] at hmore
    rw [hasked, hflatten, List.length_append, List.length_append, List.length_singleton, htake,
      hfull, Nat.add_mul, Nat.one_mul]
    omega
  · rw [hasked, hflatten, List.length_append, List.length_append, List.length_singleton, htake,
      hfull, Nat.le_div_iff_mul_le hsize, Nat.add_mul, Nat.one_mul]
    omega
  · intro id hid
    rw [hasked, hflatten, hwritten id (h.ids ▸ hid), h.written id hid]
    have hdisjoint : id ∈ run.asked.flatten → id ∉ run.table.pendingIds := by
      have hnodup := start.nodup_pendingIds
      rw [← h.pending] at hnodup
      exact fun h₁ h₂ => (List.nodup_append.1 hnodup).2.2 id h₁ id h₂ rfl
    by_cases hbefore : id ∈ run.asked.flatten
    · have hnot : id ∉ run.table.pendingIds.take batchSize := fun h =>
        hdisjoint hbefore (List.mem_of_mem_take h)
      rw [if_pos hbefore, if_neg hnot, if_pos (List.mem_append_left _ hbefore)]
    · by_cases hnow : id ∈ run.table.pendingIds.take batchSize
      · rw [if_neg hbefore, if_pos hnow, if_pos (List.mem_append_right _ hnow)]
      · rw [if_neg hbefore, if_neg hnow,
          if_neg fun h => (List.mem_append.1 h).elim hbefore hnow]
  · intro r hr hnot
    rw [hasked, hflatten, List.mem_append, not_or] at hnot
    exact hrest r (h.rest r hr hnot.1) hnot.2

theorem passInv_rounds {batchSize : ℕ} (hsize : 0 < batchSize) {start : SummaryTable}
    (rounds : List SummaryRound) {run : SummaryRun} (h : PassInv batchSize start run)
    (hobeys : RunObeys fromStr containsSecret batchSize run rounds) :
    PassInv batchSize start
      (rounds.foldl (summaryRound fromStr containsSecret batchSize) run) := by
  induction rounds generalizing run with
  | nil => exact h
  | cons round rounds ih => exact ih (passInv_round hsize h hobeys.1) hobeys.2

theorem passInv_start (batchSize : ℕ) (start : SummaryTable) :
    PassInv batchSize start ⟨start, [], [], 0, false⟩ where
  alive := rfl
  ids := rfl
  pending := rfl
  full _ := (Nat.zero_mul _).symm
  requests := Nat.zero_le _
  written _ _ := rfl
  rest _ hr _ := hr

end Pass

/-- When a batch is answered by its own ids in its order, when a round writes each chunk of its
    batch once and no other one, and what holds in every run whose rounds do: the program lives, no
    more requests are made than there are batches, each chunk that was asked for is written once,
    and all others are as they were. -/
theorem summaryLaw (fromStr : List Char → Option (List SummaryEntry))
    (containsSecret : String → Bool) :
    (∀ (chunks : List (ℤ × String × String × String)) (reply : Option String),
      (∃ answers, summariseBatch fromStr chunks reply = some answers ∧
          (answers.map Prod.fst).Sublist (chunks.map Prod.fst)) ↔
        chunks = [] ∨ ¬ BracketsCrossed reply ∧
          ((answersIn fromStr reply).map Prod.fst).Sublist (chunks.map Prod.fst)) ∧
    (∀ (batchSize : ℕ) (run : SummaryRun) (round : SummaryRound), run.dead = false →
      run.table.pendingIds.take batchSize ≠ [] →
      (RoundFits fromStr containsSecret batchSize run round ↔
        RoundObeys fromStr batchSize run.table round)) ∧
    ∀ (summaryBatchSize : ℕ) (start : SummaryTable) (rounds : List SummaryRound),
      RunObeys fromStr containsSecret (max summaryBatchSize 1) ⟨start, [], [], 0, false⟩ rounds →
      let run := generateSummaries fromStr containsSecret summaryBatchSize start rounds
      run.dead = false ∧
        run.asked.length ≤
          (start.pendingIds.length + max summaryBatchSize 1 - 1) / max summaryBatchSize 1 ∧
        run.asked.flatten ++ run.table.pendingIds = start.pendingIds ∧
        (∀ id ∈ start.ids, run.written.count id = if id ∈ run.asked.flatten then 1 else 0) ∧
        ∀ r ∈ start.rows, r.id ∉ run.asked.flatten → r ∈ run.table.rows := by
  refine ⟨summariseBatch_iff, fun batchSize run round hdead hbatch =>
    roundFits_iff hdead hbatch round, fun summaryBatchSize start rounds hobeys => ?_⟩
  have hinv := passInv_rounds (by omega) rounds (passInv_start _ start) hobeys
  refine ⟨hinv.alive, hinv.requests.trans (Nat.div_le_div_right ?_), hinv.pending, hinv.written,
    hinv.rest⟩
  have hlength := congrArg List.length hinv.pending
  rw [List.length_append] at hlength
  omega

/-- Two chunks, of which the second one has a summary. -/
def smallTable : SummaryTable where
  rows := [⟨1, some "a", "function", "fn a", none⟩, ⟨2, some "b", "function", "fn b", some "B."⟩]
  sorted := by decide

/-- The reply names the other chunk, which loses its summary; it has its brackets the wrong way
    round; and the marker of the chunk is not written, so that it is asked for again. -/
theorem summary_foreign :
    ((generateSummaries (fun _ => some [⟨some 2, some "A."⟩]) (fun _ => false) 1 smallTable
        [⟨some "[]", fun _ => false, fun _ => false⟩]).table.rows.map SummaryRow.summary =
      [some "", some "A."]) ∧
    summariseBatch (fun _ => none) [(1, "a", "function", "fn a")] (some "] none [") = none ∧
    (generateSummaries (fun _ => none) (fun _ => false) 1 smallTable
        [⟨none, fun _ => false, fun _ => true⟩, ⟨none, fun _ => false, fun _ => true⟩]).asked =
      [[1], [1]] := by
  refine ⟨by decide, by decide, by decide⟩

end Spelunk
