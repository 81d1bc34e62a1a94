import Spelunk.Core.HarvestRun
import Spelunk.Lib.Transition

/-!
# The Harvest Loop

What holds of every run of the loop that the three sources share, whatever the model replies,
and exactly when a run survives and attributes every entry to its batch: the context has
room for the least output, the message of each batch that is asked for can be sized, a
reply that is no JSON can be cut for the warning, and each entry that is let through to the
store names an element of its batch by a text whose start can be shown.

The loop is the fold over the batches that are asked for (`harvestBatches_eq`), and so the
condition is one on each batch and each entry in the state they come to.

## Main definitions

* `HarvestTask.splits`: The batches that are halved.
* `HarvestRun.Good`: A run that lives and attributes its entries.
* `EntryObeys`, `BatchObeys`, `HarvestObeys`: The condition.

## Theorems

* `flatten_askedBatches`: Halving loses, repeats and reorders nothing.
* `nodup_refs_harvestBatches`: No reference is stored twice.
* `asked_of_work`: What is asked for is of the work.
* `harvestBatches_eq`: The loop as a fold.
* `good_harvestBatches_iff`: When a run is good.
* `harvestCommitsLaw`: The two sources of commits.
* `harvest_failing`: Runs that are not good.
-/

namespace Spelunk

section Loop

variable [SecretScan] {α : Type} {fromStr : List Char → Option (List ReplyEntry)}
  {task : HarvestTask α} {world : HarvestWorld}

omit [SecretScan] in
/-- Halving loses, repeats and reorders nothing. -/
theorem flatten_askedBatches (tooLarge : List α → Bool) (work : List (List α)) :
    (askedBatches tooLarge work).flatten = work.flatten := by
  induction work using askedBatches.induct tooLarge with
  | case1 =>
    rw [askedBatches]
  | case2 batch work h ih =>
    rw [askedBatches, dif_pos h, ih, List.flatten_cons, List.flatten_cons, List.flatten_cons,
      ← List.append_assoc, List.take_append_drop]
  | case3 batch work h ih =>
    rw [askedBatches, dif_neg h, List.flatten_cons, List.flatten_cons, ih]

/-- The batches that are halved. -/
def HarvestTask.splits (task : HarvestTask α) (world : HarvestWorld) (batch : List α) : Bool :=
  match task.userMessage world.contextLength batch with
  | none => false
  | some message => task.tooLarge world message batch

variable (fromStr task world) in
/-- What is done with a batch that is not halved. -/
def stepBatch (run : HarvestRun α) (batch : List α) : HarvestRun α :=
  if run.dead then run
  else match task.userMessage world.contextLength batch with
    | none => { run with dead := true }
    | some message =>
      askBatch fromStr task world batch message
        (max 128 (min (world.contextLength - (Harvest.estimateTokens task.system +
          Harvest.estimateTokens message)) (task.outBudget world batch.length))) run

theorem foldl_stepBatch_dead {run : HarvestRun α} (h : run.dead = true) (l : List (List α)) :
    l.foldl (stepBatch fromStr task world) run = run := by
  induction l with
  | nil => rfl
  | cons batch l ih =>
    rw [List.foldl_cons, stepBatch, if_pos h, ih]

/-- The loop as a fold over the batches that are asked for. -/
theorem harvestBatches_eq (hroom : task.outputLeast ≤ world.contextLength / 2)
    (work : List (List α)) (run : HarvestRun α) :
    harvestBatches fromStr task world work run =
      (askedBatches (task.splits world) work).foldl (stepBatch fromStr task world) run := by
  induction work, run using harvestBatches.induct fromStr task world with
  | case1 run =>
    rw [harvestBatches, askedBatches]
    rfl
  | case2 batch work run hdead =>
    rw [harvestBatches, if_pos hdead, foldl_stepBatch_dead hdead]
  | case3 batch work run hdead hmessage =>
    have hsplits : ¬ (task.splits world batch = true ∧ 1 < batch.length) := by
      rw [HarvestTask.splits, hmessage]
      exact fun h => Bool.false_ne_true h.1
    rw [harvestBatches, if_neg hdead, askedBatches, dif_neg hsplits, List.foldl_cons, stepBatch,
      if_neg hdead, hmessage, foldl_stepBatch_dead rfl]
  | case4 batch work run hdead message hmessage hshort => omega
  | case5 batch work run hdead message hmessage hshort hsplit ih =>
    have hsplits : task.splits world batch = true ∧ 1 < batch.length := by
      rw [HarvestTask.splits, hmessage]
      exact hsplit
    rw [harvestBatches, if_neg hdead, hmessage, askedBatches, dif_pos hsplits]
    dsimp only
    rw [if_neg hshort, dif_pos hsplit, ih]
  | case6 batch work run hdead message hmessage hshort hsplit input ih =>
    have hsplits : ¬ (task.splits world batch = true ∧ 1 < batch.length) := by
      rw [HarvestTask.splits, hmessage]
      exact hsplit
    rw [harvestBatches, if_neg hdead, hmessage, askedBatches, dif_neg hsplits, List.foldl_cons,
      stepBatch, if_neg hdead, hmessage]
    dsimp only
    rw [if_neg hshort, dif_neg hsplit]
    exact ih

/-- Without room for the least output a run with work dies. -/
theorem harvestBatches_dead (hroom : world.contextLength / 2 < task.outputLeast)
    {work : List (List α)} (hwork : work ≠ []) (run : HarvestRun α) :
    (harvestBatches fromStr task world work run).dead = true := by
  obtain ⟨batch, work, rfl⟩ := List.exists_cons_of_ne_nil hwork
  rw [harvestBatches]
  by_cases hdead : run.dead = true
  · rw [if_pos hdead, hdead]
  · rw [if_neg hdead]
    cases task.userMessage world.contextLength batch with
    | none => rfl
    | some message =>
      dsimp only
      rw [if_pos hroom]

/-! ### What holds of every run -/

/-- What every step keeps, a run keeps; its batches are of what the work is made of. -/
theorem harvestBatches_invariant {P : HarvestRun α → Prop} {S : α → Prop}
    (hdead : ∀ run, P run → P { run with dead := true })
    (hask : ∀ batch message maxTokens run, (∀ x ∈ batch, S x) →
      task.userMessage world.contextLength batch = some message → P run →
      P (askBatch fromStr task world batch message maxTokens run))
    (work : List (List α)) (hwork : ∀ batch ∈ work, ∀ x ∈ batch, S x) {run : HarvestRun α}
    (h : P run) : P (harvestBatches fromStr task world work run) := by
  induction work, run using harvestBatches.induct fromStr task world with
  | case1 run =>
    rw [harvestBatches]
    exact h
  | case2 batch work run hrun =>
    rw [harvestBatches, if_pos hrun]
    exact h
  | case3 batch work run hrun hmessage =>
    rw [harvestBatches, if_neg hrun, hmessage]
    exact hdead run h
  | case4 batch work run hrun message hmessage hshort =>
    rw [harvestBatches, if_neg hrun, hmessage]
    dsimp only
    rw [if_pos hshort]
    exact hdead run h
  | case5 batch work run hrun message hmessage hshort hsplit ih =>
    rw [harvestBatches, if_neg hrun, hmessage]
    dsimp only
    rw [if_neg hshort, dif_pos hsplit]
    have hbatch := hwork batch List.mem_cons_self
    refine ih (fun part hpart => ?_) h
    rcases List.mem_cons.1 hpart with rfl | hpart
    · exact fun x hx => hbatch x (List.mem_of_mem_take hx)
    rcases List.mem_cons.1 hpart with rfl | hpart
    · exact fun x hx => hbatch x (List.mem_of_mem_drop hx)
    · exact hwork part (List.mem_cons_of_mem _ hpart)
  | case6 batch work run hrun message hmessage hshort hsplit input ih =>
    rw [harvestBatches, if_neg hrun, hmessage]
    dsimp only
    rw [if_neg hshort, dif_neg hsplit]
    exact ih (fun part hpart => hwork part (List.mem_cons_of_mem _ hpart))
      (hask _ _ _ _ (hwork batch List.mem_cons_self) hmessage h)

/-- What an entry does to a run: nothing, or it is stored, with a reference that is not stored
    yet. -/
theorem storeEntry_cases (call : ℕ) (batch : List α) (run : HarvestRun α) (p : ReplyEntry × ℕ) :
    storeEntry task world call batch run p = run ∨
      some (task.source.sourceRef batch p.1) ∉ run.refs ∧
        ∃ dead, storeEntry task world call batch run p =
          { run with
            stored := run.stored ++ [(batch, task.source.entry world.target batch p.1)]
            dead := dead } := by
  unfold storeEntry
  split
  · exact .inl rfl
  · dsimp only
    split
    · next hlets =>
      have hfree : some (task.source.sourceRef batch p.1) ∉ run.refs := by
        unfold letsThrough at hlets
        simp only [Bool.and_eq_true, decide_eq_true_eq] at hlets
        exact hlets.1.1.2.2
      cases (world.answers call p.2).add with
      | failed => exact .inl rfl
      | unanswered => exact .inr ⟨hfree, _, rfl⟩
      | done => exact .inr ⟨hfree, _, rfl⟩
    · exact .inl rfl

omit [SecretScan] in
theorem refs_append (run : HarvestRun α) (batch : List α) (write : MemoryWrite) (dead : Bool) :
    HarvestRun.refs { run with stored := run.stored ++ [(batch, write)], dead := dead } =
      run.refs ++ [write.sourceRef] := by
  rw [HarvestRun.refs, List.map_append]
  rfl

theorem nodup_refs_storeEntry {call : ℕ} {batch : List α} {run : HarvestRun α}
    (h : run.refs.Nodup) (p : ReplyEntry × ℕ) :
    (storeEntry task world call batch run p).refs.Nodup := by
  rcases storeEntry_cases call batch run p with hsame | ⟨hfree, dead, hstored⟩
  · rwa [hsame]
  · rw [hstored, refs_append]
    exact h.append (List.nodup_singleton _) (List.disjoint_singleton.2 hfree)

theorem askBatch_invariant {P : HarvestRun α → Prop} {batch : List α} {message : String}
    {maxTokens : ℕ} {run : HarvestRun α}
    (hstart : P { run with asked := run.asked ++ [⟨batch, message, maxTokens⟩] })
    (hdead : ∀ run dead, P run → P { run with dead := dead })
    (hstore : ∀ call run p, P run → P (storeEntry task world call batch run p)) :
    P (askBatch fromStr task world batch message maxTokens run) := by
  have hfold : ∀ (call : ℕ) (l : List (ReplyEntry × ℕ)) (s : HarvestRun α), P s →
      P (l.foldl (storeEntry task world call batch) s) := by
    intro call l
    induction l with
    | nil => exact fun _ hs => hs
    | cons p l ih => exact fun s hs => ih _ (hstore call s p hs)
  unfold askBatch
  dsimp only
  split
  · exact hstart
  · split
    · exact hdead _ _ hstart
    · exact hfold _ _ _ hstart

/-- No reference is stored twice. -/
theorem nodup_refs_harvestBatches (work : List (List α)) :
    (harvestBatches fromStr task world work .start).refs.Nodup :=
  harvestBatches_invariant (P := fun run => run.refs.Nodup) (S := fun _ => True)
    (fun _ h => h)
    (fun _ _ _ _ _ _ h => askBatch_invariant (P := fun run => run.refs.Nodup) h (fun _ _ h => h)
      fun _ _ p h => nodup_refs_storeEntry h p)
    work (fun _ _ _ _ => trivial) List.nodup_nil

/-- A message is that of its batch, and the batch is of what the work is made of. -/
theorem asked_of_work (work : List (List α)) :
    ∀ a ∈ (harvestBatches fromStr task world work .start).asked,
      task.userMessage world.contextLength a.batch = some a.message ∧
        ∀ x ∈ a.batch, x ∈ work.flatten := by
  let P (run : HarvestRun α) : Prop := ∀ a ∈ run.asked,
    task.userMessage world.contextLength a.batch = some a.message ∧
      ∀ x ∈ a.batch, x ∈ work.flatten
  have hstore : ∀ call batch run p, P run → P (storeEntry task world call batch run p) := by
    intro call batch run p h
    rcases storeEntry_cases call batch run p with hsame | ⟨-, dead, hstored⟩
    · rwa [hsame]
    · rw [hstored]
      exact h
  refine harvestBatches_invariant (P := P) (S := fun x => x ∈ work.flatten) (fun _ h => h) ?_ work
    (fun batch hbatch x hx => List.mem_flatten.2 ⟨batch, hbatch, hx⟩) nofun
  intro batch message maxTokens run hbatch hmessage h
  refine askBatch_invariant (P := P) (fun a ha => ?_) (fun _ _ h => h)
    fun call run p h => hstore call batch run p h
  rcases List.mem_append.1 ha with ha | ha
  · exact h a ha
  · rw [List.mem_singleton.1 ha]
    exact ⟨hmessage, hbatch⟩

/-! ### Good runs -/

variable (refOf : α → String)

/-- The run lives, and each entry that it stored has the reference of an element of its batch. -/
def HarvestRun.Good (run : HarvestRun α) : Prop :=
  run.dead = false ∧ ∀ p ∈ run.stored, ∃ x ∈ p.1, p.2.sourceRef = some (refOf x)

variable (task world) in
/-- An entry that is let through and stored names an element of its batch, and if the store says so
    what is shown of it can be cut. -/
def EntryObeys (call : ℕ) (batch : List α) (run : HarvestRun α) (p : ReplyEntry × ℕ) : Prop :=
  letsThrough task batch run p.1 (world.answers call p.2) = true →
    (world.answers call p.2).add ≠ .failed →
    (∃ x ∈ batch, task.source.sourceRef batch p.1 = refOf x) ∧
      ((world.answers call p.2).add = .done → cutAt 8 (task.shown batch p.1).toList ≠ none)

theorem good_storeEntry_iff {call : ℕ} {batch : List α} {run : HarvestRun α}
    {p : ReplyEntry × ℕ} :
    (storeEntry task world call batch run p).Good refOf ↔
      run.Good refOf ∧ EntryObeys task world refOf call batch run p := by
  by_cases hdead : run.dead = true
  · rw [storeEntry, if_pos hdead]
    refine iff_of_false (fun h => ?_) fun h => ?_
    · exact Bool.false_ne_true (h.1.symm.trans hdead)
    · exact Bool.false_ne_true (h.1.1.symm.trans hdead)
  have hstored : ∀ dead : Bool,
      HarvestRun.Good refOf { run with
        stored := run.stored ++ [(batch, task.source.entry world.target batch p.1)]
        dead := dead } ↔
      run.Good refOf ∧ (∃ x ∈ batch, task.source.sourceRef batch p.1 = refOf x) ∧
        dead = false := by
    intro dead
    have hentry : (task.source.entry world.target batch p.1).sourceRef =
        some (task.source.sourceRef batch p.1) := rfl
    simp only [HarvestRun.Good, List.mem_append, List.mem_singleton, or_imp, forall_and,
      forall_eq, hentry, Option.some.injEq]
    rw [Bool.not_eq_true] at hdead
    simp only [hdead, true_and]
    tauto
  rw [storeEntry, if_neg hdead]
  unfold EntryObeys
  dsimp only
  by_cases hlets : letsThrough task batch run p.1 (world.answers call p.2) = true
  · rw [if_pos hlets]
    cases hadd : (world.answers call p.2).add with
    | failed => simp
    | unanswered =>
      have hrun : { run with
          stored := run.stored ++ [(batch, task.source.entry world.target batch p.1)] } =
          { run with
            stored := run.stored ++ [(batch, task.source.entry world.target batch p.1)]
            dead := false } := by
        rw [← Bool.eq_false_iff.2 hdead]
      dsimp only
      rw [hrun, hstored]
      simp [hlets]
    | done =>
      dsimp only
      rw [hstored]
      simp [hlets, Option.ne_none_iff_isSome]
  · rw [if_neg hlets]
    simp [hlets]

variable (fromStr task world) in
/-- A batch whose message can be sized, and whose reply is no JSON and can be cut for the warning, or
    has entries that obey. -/
def BatchObeys (run : HarvestRun α) (batch : List α) : Prop :=
  ∃ message, task.userMessage world.contextLength batch = some message ∧
    ∀ reply ∈ world.replies run.asked.length,
      match fromStr (stripAnsi .text reply.toList) with
      | none => cutAt 200 (stripAnsi .text reply.toList) ≠ none
      | some entries => ∀ before p after, entries.zipIdx = before ++ p :: after →
          EntryObeys task world refOf run.asked.length batch
            (before.foldl (storeEntry task world run.asked.length batch) run) p

/-- An entry obeys in a run or not, whatever else was asked for. -/
theorem entryObeys_asked {call : ℕ} {batch : List α} {run : HarvestRun α}
    {asked : List (AskedBatch α)} {p : ReplyEntry × ℕ} :
    EntryObeys task world refOf call batch { run with asked := asked } p ↔
      EntryObeys task world refOf call batch run p := Iff.rfl

theorem foldl_storeEntry_asked {call : ℕ} {batch : List α} (l : List (ReplyEntry × ℕ))
    (run : HarvestRun α) (asked : List (AskedBatch α)) :
    l.foldl (storeEntry task world call batch) { run with asked := asked } =
      { l.foldl (storeEntry task world call batch) run with asked := asked } := by
  induction l generalizing run with
  | nil => rfl
  | cons p l ih =>
    rw [List.foldl_cons, List.foldl_cons, ← ih]
    congr 1
    unfold storeEntry
    by_cases hdead : run.dead = true
    · rw [if_pos hdead, if_pos hdead]
    · rw [if_neg hdead, if_neg hdead]
      dsimp only
      have hlets : letsThrough task batch { run with asked := asked } p.1
          (world.answers call p.2) =
          letsThrough task batch run p.1 (world.answers call p.2) := rfl
      rw [hlets]
      split
      · cases (world.answers call p.2).add <;> rfl
      · rfl

theorem good_stepBatch_iff {run : HarvestRun α} {batch : List α} :
    (stepBatch fromStr task world run batch).Good refOf ↔
      run.Good refOf ∧ BatchObeys fromStr task world refOf run batch := by
  by_cases hdead : run.dead = true
  · rw [stepBatch, if_pos hdead]
    exact iff_of_false (fun h => Bool.false_ne_true (h.1.symm.trans hdead))
      fun h => Bool.false_ne_true (h.1.1.symm.trans hdead)
  rw [stepBatch, if_neg hdead]
  unfold BatchObeys
  cases hmessage : task.userMessage world.contextLength batch with
  | none =>
    refine iff_of_false (fun h => Bool.false_ne_true h.1.symm) ?_
    rintro ⟨-, message, h, -⟩
    exact nomatch h
  | some message =>
    simp only [Option.some.injEq, exists_eq_left']
    unfold askBatch
    dsimp only
    cases hreply : world.replies run.asked.length with
    | none => simp [HarvestRun.Good]
    | some reply =>
      simp only [Option.mem_def, Option.some.injEq, forall_eq']
      cases fromStr (stripAnsi .text reply.toList) with
      | none =>
        simp only [HarvestRun.Good, Option.isNone_eq_false_iff, Option.ne_none_iff_isSome,
          Bool.eq_false_iff.2 hdead]
        tauto
      | some entries =>
        dsimp only
        rw [Lib.foldl_iff (P := HarvestRun.Good refOf)
          (Q := EntryObeys task world refOf run.asked.length batch)
          fun run p => good_storeEntry_iff refOf]
        simp only [foldl_storeEntry_asked, entryObeys_asked]
        rfl

variable (fromStr task world) in
/-- There is room for the least output, and every batch that is asked for obeys in the state it comes
    to. -/
def HarvestObeys (work : List (List α)) : Prop :=
  work = [] ∨ task.outputLeast ≤ world.contextLength / 2 ∧
    ∀ before batch after, askedBatches (task.splits world) work = before ++ batch :: after →
      BatchObeys fromStr task world refOf
        (before.foldl (stepBatch fromStr task world) .start) batch

/-- When a run is good. -/
theorem good_harvestBatches_iff (work : List (List α)) :
    (harvestBatches fromStr task world work .start).Good refOf ↔
      HarvestObeys fromStr task world refOf work := by
  have hstart : HarvestRun.Good refOf (.start : HarvestRun α) := ⟨rfl, nofun⟩
  unfold HarvestObeys
  by_cases hwork : work = []
  · rw [hwork, harvestBatches]
    exact iff_of_true hstart (.inl rfl)
  rw [or_iff_right hwork]
  by_cases hroom : task.outputLeast ≤ world.contextLength / 2
  · rw [harvestBatches_eq hroom, Lib.foldl_iff (P := HarvestRun.Good refOf)
      (Q := BatchObeys fromStr task world refOf) fun run batch => good_stepBatch_iff refOf]
    exact ⟨fun h => ⟨hroom, h.2⟩, fun h => ⟨hstart, h.2⟩⟩
  · refine iff_of_false (fun h => ?_) fun h => hroom h.1
    exact Bool.false_ne_true
      (h.1.symm.trans (harvestBatches_dead (Nat.lt_of_not_le hroom) hwork .start))

theorem asked_foldl_storeEntry {call : ℕ} {batch : List α}
    (l : List (ReplyEntry × ℕ)) (run : HarvestRun α) :
    (l.foldl (storeEntry task world call batch) run).asked = run.asked := by
  induction l generalizing run with
  | nil => rfl
  | cons p l ih =>
    rw [List.foldl_cons, ih]
    rcases storeEntry_cases call batch run p with hsame | ⟨-, dead, hstored⟩
    · rw [hsame]
    · rw [hstored]

/-- A run that lives has asked for every batch. -/
theorem asked_of_alive (batches : List (List α)) (run : HarvestRun α)
    (h : (batches.foldl (stepBatch fromStr task world) run).dead = false) :
    (batches.foldl (stepBatch fromStr task world) run).asked.map AskedBatch.batch =
      run.asked.map AskedBatch.batch ++ batches := by
  induction batches generalizing run with
  | nil => exact (List.append_nil _).symm
  | cons batch batches ih =>
    rw [List.foldl_cons] at h ⊢
    rw [ih _ h]
    have hone : (stepBatch fromStr task world run batch).dead = false := by
      by_contra hdead
      rw [foldl_stepBatch_dead (Bool.eq_true_of_not_eq_false hdead)] at h
      exact hdead h
    have hrun : ¬ run.dead = true := fun hdead => by
      rw [stepBatch, if_pos hdead, hdead] at hone
      exact nomatch hone
    rw [stepBatch, if_neg hrun] at hone ⊢
    cases hmessage : task.userMessage world.contextLength batch with
    | none =>
      rw [hmessage] at hone
      exact nomatch hone
    | some message =>
      have hasked : ∀ maxTokens, (askBatch fromStr task world batch message maxTokens run).asked =
          run.asked ++ [⟨batch, message, maxTokens⟩] := by
        intro maxTokens
        unfold askBatch
        dsimp only
        split
        · rfl
        · split
          · rfl
          · rw [asked_foldl_storeEntry]
      dsimp only
      rw [hasked, List.map_append, List.append_assoc]
      rfl

/-- A good run has asked for every element once and in order. -/
theorem asked_harvestBatches {work : List (List α)}
    (h : (harvestBatches fromStr task world work .start).Good refOf) :
    ((harvestBatches fromStr task world work .start).asked.map AskedBatch.batch).flatten =
      work.flatten := by
  rcases (good_harvestBatches_iff refOf work).1 h with rfl | ⟨hroom, -⟩
  · rw [harvestBatches]
    rfl
  · have halive := h.1
    rw [harvestBatches_eq hroom] at halive ⊢
    rw [asked_of_alive _ _ halive, HarvestRun.start, List.map_nil, List.nil_append,
      flatten_askedBatches]

end Loop

/-- The reference of an entry is the hash of a commit of the batch exactly where the text that the
    model gives begins one. -/
theorem fullSha_mem_iff (batch : List LogCommit) (e : ReplyEntry) :
    (∃ c ∈ batch, fullSha batch e = c.sha) ↔
      ∃ c ∈ batch, (e.key.getD "").toList <+: c.sha.toList := by
  unfold fullSha
  dsimp only
  cases hfind : batch.find? fun c => (e.key.getD "").toList.isPrefixOf c.sha.toList with
  | none =>
    have hnone := List.find?_eq_none.1 hfind
    refine iff_of_false ?_ ?_
    · rintro ⟨c, hc, heq⟩
      rw [Option.map_none, Option.getD_none] at heq
      exact hnone c hc (List.isPrefixOf_iff_prefix.2 (heq ▸ List.prefix_rfl))
    · rintro ⟨c, hc, hpre⟩
      exact hnone c hc (List.isPrefixOf_iff_prefix.2 hpre)
  | some c =>
    have hmem := List.mem_of_find?_eq_some hfind
    have hpre : (e.key.getD "").toList.isPrefixOf c.sha.toList = true := by
      simpa using List.find?_some hfind
    exact iff_of_true ⟨c, hmem, rfl⟩ ⟨c, hmem, List.isPrefixOf_iff_prefix.1 hpre⟩

/-- The message of a batch of commits can be sized unless it is for a single commit and the context
    is so long that three times what is left of it does not fit. -/
theorem gitMessage_eq_none_iff (contextLength : ℕ) (batch : List LogCommit) :
    gitTask.userMessage contextLength batch = none ↔ batch.length = 1 ∧
      2 ^ 64 ≤ (contextLength - (Harvest.estimateTokens gitSystem + 600)) * 3 := by
  unfold gitTask singleBody
  rw [Option.map_eq_none_iff]
  by_cases hone : batch.length = 1
  · rw [if_pos hone]
    by_cases hfits : (contextLength - (Harvest.estimateTokens gitSystem + 600)) * 3 < 2 ^ 64
    · rw [if_pos hfits]
      exact iff_of_false nofun fun h => absurd hfits (Nat.not_lt.2 h.2)
    · rw [if_neg hfits]
      exact iff_of_true rfl ⟨hone, Nat.not_lt.1 hfits⟩
  · rw [if_neg hone]
    exact iff_of_false nofun fun h => hone h.1

/-- The harvest of commits, of either source: no reference is stored twice; and it lives, sends every
    commit in exactly one request and in order, and gives every entry the hash of a commit of its
    batch, exactly where all steps obey. An entry names a commit by the start of its hash. -/
theorem harvestCommitsLaw [SecretScan] (fromStr : List Char → Option (List ReplyEntry))
    (world : HarvestWorld) (newCommits : List LogCommit) (batchSize : ℕ) (failures : Bool) :
    let task := if failures then failuresTask else gitTask
    let work := newCommits.toChunks (max batchSize 1)
    let run := harvestBatches fromStr task world work .start
    run.refs.Nodup ∧
      ((run.dead = false ∧ (run.asked.map AskedBatch.batch).flatten = newCommits ∧
          ∀ p ∈ run.stored, ∃ c ∈ p.1, p.2.sourceRef = some c.sha) ↔
        HarvestObeys fromStr task world LogCommit.sha work) ∧
      ∀ batch e, (∃ c ∈ batch, task.source.sourceRef batch e = c.sha) ↔
        ∃ c ∈ batch, (e.key.getD "").toList <+: c.sha.toList := by
  intro task work run
  refine ⟨nodup_refs_harvestBatches work, ?_, ?_⟩
  · rw [← good_harvestBatches_iff]
    refine ⟨fun h => ⟨h.1, h.2.2⟩, fun h => ⟨h.1, ?_, h.2⟩⟩
    exact (asked_harvestBatches LogCommit.sha h).trans (Lib.flatten_toChunks _ _)
  · cases failures with
    | false => exact fullSha_mem_iff
    | true => exact fullSha_mem_iff

/-- A commit. -/
def oneCommit : LogCommit := ⟨"abcdef0123456789abcdef0123456789abcdef01", "fix: a", ""⟩

/-- A store that takes everything, and a model that is never asked. -/
def takingWorld (contextLength : ℕ) : HarvestWorld where
  target := .sqlite
  contextLength := contextLength
  replies _ := none
  answers _ _ := ⟨some false, true, some false, .done⟩

/-- A context too short for the least output; one so long that the room for a body does not fit; and
    entries with the hash of another commit, and with one that is cut inside a character. -/
theorem harvest_failing :
    let _ : SecretScan := ⟨fun _ => false⟩
    (∀ fromStr, ∀ task ∈ [gitTask, failuresTask],
      (harvestBatches fromStr task (takingWorld 511) [[oneCommit]] .start).dead = true) ∧
    (∀ fromStr, (harvestBatches fromStr gitTask (takingWorld (2 ^ 63 - 1)) [[oneCommit]]
      .start).dead = true) ∧
    (storeEntry failuresTask (takingWorld 8192) 0 [oneCommit] .start
      (⟨some "00000000", none, none, none, none⟩, 0)).refs = [some "00000000"] ∧
    (storeEntry failuresTask (takingWorld 8192) 0 [oneCommit] .start
      (⟨some "aéééé", none, none, none, none⟩, 0)).dead = true := by
  intro _
  refine ⟨?_, ?_, by decide, by decide⟩
  · intro fromStr task htask
    refine harvestBatches_dead ?_ (List.cons_ne_nil _ _) _
    rcases List.mem_pair.1 htask with rfl | rfl <;> decide
  · intro fromStr
    have hsystem : Harvest.estimateTokens gitSystem ≤ 1000 := by decide +kernel
    have halive : ¬ (HarvestRun.start : HarvestRun LogCommit).dead = true := Bool.false_ne_true
    have hmessage : gitTask.userMessage (takingWorld (2 ^ 63 - 1)).contextLength [oneCommit] =
        none := (gitMessage_eq_none_iff _ _).2 ⟨rfl, by
          rw [show (takingWorld (2 ^ 63 - 1)).contextLength = 2 ^ 63 - 1 from rfl]
          omega⟩
    rw [harvestBatches, if_neg halive, hmessage]

end Spelunk
