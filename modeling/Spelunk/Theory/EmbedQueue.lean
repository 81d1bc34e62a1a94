import Spelunk.Core.EmbedQueue
import Spelunk.Theory.ParseConverges
import Spelunk.Theory.RecordText

/-!
# What Is Queued

The embed queue of a run and of the detached embed phase. A run queues every chunk it
leaves without an embedding once, as long as its walk finds a file: those it stores with
the text they were parsed with, the others with the text built from their rows. That text
is the one of the chunk, but for one value of the summary: the empty text, which stands
for a summary that was tried in vain, is embedded as if it were one.

## Main definitions

* `QueueFaithful`: What a queue should be.
* `IndexInv`, `WalkInv`: The invariants of the index and of the walk.

## Theorems

* `text_eq_iff`: The text of a row is that of its chunk unless its summary is empty.
* `indexInv_of_history`: Every state of the index keeps the invariant.
* `walkInv_walkEntries`: The walk.
* `parsePhaseQueue_refines`: The queue has the ids of the run without texts.
* `embedQueueLaw`: When the queues are faithful.
* `queue_emptySummary`: A chunk whose summary was tried in vain.
-/

namespace Spelunk

open CodeDb RunState

/-! ### Texts -/

/-- The codec reads the metadata it has written. -/
def MetadataCodec.ReadsBack (codec : MetadataCodec) : Prop :=
  ∀ docstring parentScope, codec.ofText (codec.toText (chunkMetadata docstring parentScope)) =
    some (chunkMetadata docstring parentScope)

theorem getStr_chunkMetadata (docstring parentScope : Option String) :
    JsonValue.getStr "docstring" (chunkMetadata docstring parentScope) = docstring := by
  have hget : JsonValue.get "docstring" (chunkMetadata docstring parentScope) =
      some (optionalJson docstring) := by
    simp [JsonValue.get, chunkMetadata]
  rw [JsonValue.getStr, hget]
  cases docstring <;> rfl

section Texts

variable {R : Type} {codec : MetadataCodec}

/-- A parsed chunk, as far as it is stored, with a summary. -/
structure Describes (c : Chunk) (r : ChunkRow R) (summary : Option String) : Prop where
  name : c.name = r.name
  docstring : c.docstring = r.docstring
  content : c.content = r.content
  summary : c.summary = summary

/-- The summary of a chunk, if it has one. -/
def SummarisedDb.realSummary (ix : SummarisedDb R) (id : ℕ) : Option String :=
  (ix.summary id).filter (· ≠ "")

theorem reconstructEmbeddingText_eq (hcodec : codec.ReadsBack) {c : Chunk} {r : ChunkRow R}
    {summary : Option String} (h : Describes c r summary) :
    reconstructEmbeddingText codec r.name
      (some (codec.toText (chunkMetadata r.docstring r.parentScope))) summary r.content =
        c.embeddingText := by
  have hread := hcodec r.docstring r.parentScope
  unfold reconstructEmbeddingText Chunk.embeddingText
  rcases hdoc : r.docstring with _ | doc <;> rw [hdoc] at hread <;> rcases summary with _ | text <;>
    simp [hread, getStr_chunkMetadata, h.name, h.docstring, hdoc, h.content, h.summary]

/-- An empty summary is not left out. -/
theorem embeddingText_ne {c d : Chunk} (hname : c.name = d.name)
    (hdocstring : c.docstring = d.docstring) (hcontent : c.content = d.content)
    (hc : c.summary = some "") (hd : d.summary = none) : c.embeddingText ≠ d.embeddingText := by
  intro h
  have hlength := congrArg String.length h
  unfold Chunk.embeddingText at hlength
  rw [hname, hdocstring, hcontent, hc, hd] at hlength
  simp only [String.length_append] at hlength
  have hsummary : " | summary: ".length = 12 := rfl
  omega

/-- The text of a row is that of its chunk unless its summary is empty. -/
theorem text_eq_iff (hcodec : codec.ReadsBack) (ix : SummarisedDb R) {c : Chunk} {r : ChunkRow R}
    (h : Describes c r (ix.realSummary r.id)) :
    reconstructEmbeddingText codec r.name
        (some (codec.toText (chunkMetadata r.docstring r.parentScope))) (ix.summary r.id)
          r.content = c.embeddingText ↔ ix.summary r.id ≠ some "" := by
  have hstored : Describes { c with summary := ix.summary r.id } r (ix.summary r.id) :=
    ⟨h.name, h.docstring, h.content, rfl⟩
  rw [reconstructEmbeddingText_eq hcodec hstored]
  by_cases hempty : ix.summary r.id = some ""
  · refine iff_of_false (embeddingText_ne rfl rfl rfl hempty ?_) (not_not.2 hempty)
    rw [h.summary, SummarisedDb.realSummary, hempty]
    rfl
  · refine iff_of_true ?_ hempty
    have hsame : ix.summary r.id = c.summary := by
      rw [h.summary, SummarisedDb.realSummary]
      rcases hs : ix.summary r.id with _ | s
      · rfl
      · have hne : s ≠ "" := fun he => hempty (hs.trans (congrArg some he))
        exact (if_pos (decide_eq_true hne)).symm
    rw [hsame]

end Texts

/-! ### The index -/

section Index

variable {R : Type} [Zero R] (env : Extractors)

/-- Chunks have their own ids, what is embedded was stored, and what is not stored yet has no
    summary. -/
structure IndexInv (ix : SummarisedDb R) : Prop where
  sound : Sound ix.db
  embedded : ∀ id ∈ ix.db.embeddings, id < ix.db.nextChunk
  summarised : ∀ id, ix.db.nextChunk ≤ id → ix.summary id = none

/-- What is embedded was stored, and the next id is not below a bound. -/
structure Bounded (n : ℕ) (db : CodeDb R) : Prop where
  embedded : ∀ id ∈ db.embeddings, id < db.nextChunk
  next : n ≤ db.nextChunk

variable {n : ℕ} {db : CodeDb R}

omit [Zero R] in
/-- A statement that adds no embedding and takes no id back. -/
theorem Bounded.of_le (h : Bounded n db) {db' : CodeDb R}
    (hembeddings : ∀ id ∈ db'.embeddings, id ∈ db.embeddings)
    (hnext : db.nextChunk ≤ db'.nextChunk) : Bounded n db' :=
  ⟨fun id hid => (h.embedded id (hembeddings id hid)).trans_le hnext, h.next.trans hnext⟩

/-- What a statement of the parse phase does to the embeddings and to the next id. -/
def Grows (st : CodeDb R → CodeDb R) : Prop :=
  ∀ db : CodeDb R, (∀ id ∈ (st db).embeddings, id ∈ db.embeddings) ∧
    db.nextChunk ≤ (st db).nextChunk

omit [Zero R] in
theorem grows_of_mem_deleteFile {p : String} {st : CodeDb R → CodeDb R} (h : st ∈ deleteFile p) :
    Grows st := by
  intro db
  simp only [deleteFile, List.mem_cons, List.not_mem_nil, or_false] at h
  rcases h with rfl | rfl | rfl | rfl
  · exact ⟨fun id hid => List.mem_of_mem_filter hid, le_rfl⟩
  · exact ⟨fun id hid => hid, le_rfl⟩
  · exact ⟨fun id hid => hid, le_rfl⟩
  · exact ⟨fun id hid => hid, le_rfl⟩

omit [Zero R] in
theorem grows_insertEdge (e : EdgeRow) : Grows (R := R) (CodeDb.insertEdge e) :=
  fun _ => ⟨fun _ hid => hid, le_rfl⟩

omit [Zero R] in
theorem grows_fileStatements {w : FileWork} {st : CodeDb R → CodeDb R}
    (h : st ∈ Extractors.fileStatements w) : Grows st := by
  simp only [Extractors.fileStatements, List.mem_append, List.mem_cons, List.not_mem_nil,
    or_false] at h
  rcases h with ((rfl | rfl | rfl) | h) | h
  · intro db
    unfold CodeDb.upsertFile
    split <;> exact ⟨fun id hid => hid, le_rfl⟩
  · exact fun db => ⟨fun id hid => List.mem_of_mem_filter hid, le_rfl⟩
  · exact fun db => ⟨fun id hid => hid, le_rfl⟩
  · cases hedges : w.edges with
    | none =>
      rw [hedges] at h
      exact absurd h List.not_mem_nil
    | some edges =>
      rw [hedges] at h
      rcases List.mem_cons.1 h with rfl | h
      · exact fun db => ⟨fun id hid => hid, le_rfl⟩
      · obtain ⟨e, -, rfl⟩ := List.mem_map.1 h
        exact grows_insertEdge e
  · obtain ⟨e, -, rfl⟩ := List.mem_map.1 h
    exact grows_insertEdge e

theorem grows_chunkStatements {w : FileWork} {st : CodeDb R → CodeDb R}
    (h : st ∈ env.chunkStatements w) : Grows st := by
  obtain ⟨c, -, rfl⟩ := List.mem_map.1 h
  intro db
  unfold CodeDb.insertChunk
  split
  · exact ⟨fun id hid => hid, Nat.le_succ _⟩
  · exact ⟨fun id hid => hid, le_rfl⟩

end Index

/-! ### One file of the walk -/

section File

variable {R : Type} [Zero R] (env : Extractors)

/-- The rows a file stores, from the next id on. -/
def Extractors.storedRows (path : String) (chunks : List ParsedChunk) (n : ℕ) :
    List (ChunkRow R) :=
  (chunks.zipIdx n).map fun p => env.chunkRow path p.1 p.2

theorem foldl_insertChunk (path : String) (chunks : List ParsedChunk) {db : CodeDb R}
    (h : path ∈ db.paths) :
    (chunks.map fun c => CodeDb.insertChunk (env.chunkRow path c)).foldl (fun db st => st db) db =
      { db with
        chunks := db.chunks ++ env.storedRows path chunks db.nextChunk
        nextChunk := db.nextChunk + chunks.length } := by
  induction chunks generalizing db with
  | nil => simp [Extractors.storedRows]
  | cons c chunks ih =>
    have hone : CodeDb.insertChunk (env.chunkRow path c) db =
        { db with
          chunks := db.chunks ++ [env.chunkRow path c db.nextChunk]
          nextChunk := db.nextChunk + 1 } := if_pos h
    have hpath : path ∈ CodeDb.paths { db with
        chunks := db.chunks ++ [env.chunkRow path c db.nextChunk]
        nextChunk := db.nextChunk + 1 } := h
    rw [List.map_cons, List.foldl_cons, hone, ih hpath]
    simp only [Extractors.storedRows, List.zipIdx_cons, List.map_cons, List.append_assoc,
      List.singleton_append, List.length_cons, Nat.add_assoc, Nat.add_comm 1]

/-- A file that is cut anew. -/
structure Recut (w : FileWork) (s s' : RunState R) : Prop where
  files : s'.db.files = (s.db.upsertFile w.row).files
  chunks : s'.db.chunks = s.db.chunks.filter (·.path ≠ w.row.path) ++
    env.storedRows w.row.path (env.storable w.chunks) s.db.nextChunk
  next : s'.db.nextChunk = s.db.nextChunk + (env.storable w.chunks).length
  embeddings : s'.db.embeddings = (s.db.deleteEmbeddingsForFile w.row.path).embeddings
  out : s'.out = s.out ++ List.range' s.db.nextChunk (env.storable w.chunks).length

theorem recut_processFile {force : Bool} {s : RunState R} {f : WalkedFile} {w : FileWork}
    (h : env.fileWork force s.db f = some w) : Recut env w s (env.processFile force s f) := by
  obtain ⟨mid, hmid, hfiles, hchunks, hnext, hembeddings, -⟩ := foldl_fileStatements w s.db
  have hpath : w.row.path ∈ mid.paths := by
    unfold CodeDb.paths
    rw [hfiles]
    exact mem_paths_upsertFile.2 (.inr rfl)
  have hdb : (env.processFile force s f).db =
      { mid with
        chunks := mid.chunks ++ env.storedRows w.row.path (env.storable w.chunks) mid.nextChunk
        nextChunk := mid.nextChunk + (env.storable w.chunks).length } := by
    rw [← foldl_insertChunk env w.row.path (env.storable w.chunks) hpath, ← hmid]
    unfold Extractors.processFile
    rw [h]
    simp [Extractors.chunkStatements]
  have hout : (env.processFile force s f).out =
      s.out ++ List.range' s.db.nextChunk (env.storable w.chunks).length := by
    unfold Extractors.processFile
    rw [h]
  exact ⟨by rw [hdb, hfiles], by rw [hdb, hchunks, hnext], by rw [hdb, hnext],
    by rw [hdb, hembeddings], hout⟩

end File

/-! ### Histories -/

section Histories

variable {R : Type} [Zero R] (env : Extractors) {n m : ℕ}

theorem bounded_processFile {force : Bool} {s : RunState R} (h : Along (Bounded n) s)
    (f : WalkedFile) : Along (Bounded n) (env.processFile force s f) := by
  unfold Extractors.processFile
  split
  · exact h
  · exact (h.execAll fun st hst db hdb => hdb.of_le (grows_fileStatements hst db).1
      (grows_fileStatements hst db).2).execAll fun st hst db hdb =>
        hdb.of_le (grows_chunkStatements env hst db).1 (grows_chunkStatements env hst db).2

/-- What a walk has stored is below the next id. -/
theorem out_lt_processFile {force : Bool} {s : RunState R} (h : ∀ id ∈ s.out, id < s.db.nextChunk)
    (f : WalkedFile) :
    ∀ id ∈ (env.processFile force s f).out, id < (env.processFile force s f).db.nextChunk := by
  cases hw : env.fileWork force s.db f with
  | none =>
    unfold Extractors.processFile
    rw [hw]
    exact h
  | some w =>
    have hcut := recut_processFile env hw
    intro id hid
    rw [hcut.out, List.mem_append] at hid
    rw [hcut.next]
    rcases hid with hid | hid
    · exact (h id hid).trans_le (Nat.le_add_right _ _)
    · exact (List.mem_range'_1.1 hid).2

omit [Zero R] in
/-- The removal of files takes no id back and embeds nothing. -/
theorem foldl_deleteFiles (db : CodeDb R) (stale : List String) :
    ((stale.flatMap deleteFile).foldl (fun db (st : CodeDb R → CodeDb R) => st db) db).nextChunk =
        db.nextChunk ∧
      ∀ id ∈ ((stale.flatMap deleteFile).foldl (fun db (st : CodeDb R → CodeDb R) => st db)
        db).embeddings, id ∈ db.embeddings := by
  induction stale generalizing db with
  | nil => exact ⟨rfl, fun _ hid => hid⟩
  | cons p stale ih =>
    rw [List.flatMap_cons, List.foldl_append, foldl_deleteFile]
    obtain ⟨hnext, hembeddings⟩ := ih { db with
      files := db.files.filter (·.path ≠ p)
      chunks := db.chunks.filter (·.path ≠ p)
      embeddings := (db.deleteEmbeddingsForFile p).embeddings
      edges := db.edges.filter (·.sourceFile ≠ p) }
    exact ⟨hnext, fun id hid => List.mem_of_mem_filter (hembeddings id hid)⟩

theorem bounded_runParsePhase {db : CodeDb R} (hsound : Sound db) (h : Bounded n db) (force : Bool)
    (files : List WalkedFile) :
    Along (Bounded n) (env.runParsePhase force files db).1 ∧
      ∀ id ∈ (env.runParsePhase force files db).2,
        id < (env.runParsePhase force files db).1.db.nextChunk := by
  have halong := along_runParsePhase env hsound force files
  unfold Extractors.runParsePhase at halong ⊢
  by_cases hfiles : files = []
  · rw [if_pos hfiles]
    exact ⟨Along.start h, fun id hid => absurd hid List.not_mem_nil⟩
  rw [if_neg hfiles] at halong ⊢
  have hwalk : ∀ (fs : List WalkedFile) (s : RunState R), Along (Bounded n) s →
      (∀ id ∈ s.out, id < s.db.nextChunk) →
      Along (Bounded n) (fs.foldl (env.processFile force) s) ∧
        ∀ id ∈ (fs.foldl (env.processFile force) s).out,
          id < (fs.foldl (env.processFile force) s).db.nextChunk := by
    intro fs
    induction fs with
    | nil => exact fun s hs hout => ⟨hs, hout⟩
    | cons f fs ih =>
      exact fun s hs hout => ih _ (bounded_processFile env hs f) (out_lt_processFile env hout f)
  obtain ⟨hbounded, hout⟩ := hwalk files (.start db) (Along.start h)
    fun id hid => absurd hid List.not_mem_nil
  refine ⟨hbounded.execAll fun st hst db hdb => ?_, fun id hid => ?_⟩
  · obtain ⟨p, -, hst⟩ := List.mem_flatMap.1 hst
    exact hdb.of_le (grows_of_mem_deleteFile hst db).1 (grows_of_mem_deleteFile hst db).2
  · rcases List.mem_append.1 hid with hid | hid
    · simp only [removeStale, execAll_out] at hid
      simp only [removeStale, execAll_db, foldl_deleteFiles]
      exact hout id hid
    · obtain ⟨c, hc, rfl⟩ := List.mem_map.1 (List.mem_of_mem_filter hid)
      exact halong.1.below c (List.mem_of_mem_filter hc)

omit [Zero R] in
/-- The batches of a queue that is below the next id. -/
theorem bounded_embedBatches {queue : List ℕ} (hqueue : ∀ id ∈ queue, id < m)
    (batches : List (List ℕ)) {s : RunState R} (h : Along (Bounded n) s)
    (hnext : m ≤ s.db.nextChunk) :
    Along (Bounded n) (s.execAll (embedBatches queue batches)) := by
  induction batches generalizing s with
  | nil => exact h
  | cons ids batches ih =>
    have hinsert : Bounded n (s.db.insertEmbeddings (ids.filter (· ∈ queue))) := by
      refine ⟨fun id hid => ?_, h.1.next⟩
      rcases List.mem_append.1 hid with hid | hid
      · exact h.1.embedded id hid
      · have hmem := (List.mem_filter.1 (List.mem_of_mem_filter hid)).2
        exact (hqueue id (of_decide_eq_true hmem)).trans_le hnext
    refine ih ⟨hinsert, fun db hdb => ?_⟩ hnext
    rcases List.mem_append.1 hdb with hdb | hdb
    · exact h.2 db hdb
    · rw [List.mem_singleton.1 hdb]
      exact hinsert

variable [One R] [Add R] [Sub R] [Mul R] [Div R] [NatCast R]

theorem bounded_rankPhase {db : CodeDb R} (h : Bounded n db) : Bounded n (rankPhase db) := by
  have hranks : ∀ (scores : List (ℕ × R)) (db : CodeDb R), Bounded n db →
      Bounded n (db.updateGraphRanks scores) := by
    intro scores
    induction scores with
    | nil => exact fun _ h => h
    | cons u scores ih => exact fun db h => ih (db.updateGraphRank u) ⟨h.embedded, h.next⟩
  simp only [rankPhase]
  split
  · exact h
  · exact hranks _ _ h

/-- A run keeps what is embedded among what was stored, and takes no id back. -/
theorem bounded_partialRun {db db' : CodeDb R} (hsound : Sound db) (h : Bounded n db)
    (hrun : PartialRun env db db') : Bounded n db' := by
  cases hrun with
  | index force files batches hmem =>
    obtain ⟨hparsed, hqueue⟩ := bounded_runParsePhase env hsound h force files
    unfold Extractors.indexRun at hmem
    simp only at hmem
    split at hmem
    · exact hparsed.2 _ hmem
    · exact ((bounded_embedBatches hqueue batches hparsed le_rfl).exec
        fun _ hdb => bounded_rankPhase hdb).2 _ hmem
  | embedPhases batches hmem =>
    have hqueue : ∀ id ∈ db.chunksMissingEmbeddings, id < db.nextChunk := by
      intro id hid
      obtain ⟨c, hc, rfl⟩ := List.mem_map.1 hid
      exact hsound.below c (List.mem_of_mem_filter hc)
    exact ((bounded_embedBatches hqueue batches (Along.start h) le_rfl).exec
      fun _ hdb => bounded_rankPhase hdb).2 _ hmem
  | backgroundPhases hmem =>
    exact ((Along.start h).exec fun _ hdb => bounded_rankPhase hdb).2 _ hmem

theorem SummaryHistory.indexHistory {ix : SummarisedDb R} (h : SummaryHistory env ix) :
    IndexHistory env ix.db := by
  induction h with
  | empty => exact .empty
  | run _ hrun ih => exact .run ih hrun
  | summarise _ _ _ _ ih => exact ih

/-- Every state of the index keeps the invariant. -/
theorem indexInv_of_history {ix : SummarisedDb R} (h : SummaryHistory env ix) : IndexInv ix := by
  induction h with
  | empty => exact ⟨sound_empty, fun id hid => absurd hid List.not_mem_nil, fun _ _ => rfl⟩
  | run h hrun ih =>
    have hsound := sound_of_history env (h.run hrun).indexHistory
    have hbounded := bounded_partialRun env ih.sound ⟨ih.embedded, le_rfl⟩ hrun
    exact ⟨hsound, hbounded.embedded, fun id hid => ih.summarised id (hbounded.next.trans hid)⟩
  | summarise h c hc text ih =>
    refine ⟨ih.sound, ih.embedded, fun id hid => ?_⟩
    have hne : id ≠ c.id := ((ih.sound.below c hc).trans_le hid).ne'
    exact (if_neg hne).trans (ih.summarised id hid)

end Histories

/-! ### The walk -/

section Walk

variable {R : Type} [Zero R] (env : Extractors) (force : Bool) (db₀ : CodeDb R)

/-- What a part of the walk has left of the database, and what it has queued. -/
structure WalkInv (done : List WalkedFile) (s : RunState R) (queue : List QueueEntry) : Prop where
  sound : Along Sound s
  next : db₀.nextChunk ≤ s.db.nextChunk
  hash : ∀ q, env.cuts force db₀ done q = false → s.db.fileHash q = db₀.fileHash q
  hasChunks : ∀ q, env.cuts force db₀ done q = false →
    s.db.fileHasChunks q = db₀.fileHasChunks q
  old : ∀ r : ChunkRow R, r.id < db₀.nextChunk →
    (r ∈ s.db.chunks ↔ r ∈ db₀.chunks ∧ env.cuts force db₀ done r.path = false)
  sub : ∀ id ∈ s.db.embeddings, id ∈ db₀.embeddings
  embedded : ∀ r ∈ s.db.chunks, r.id ∈ db₀.embeddings → r.id ∈ s.db.embeddings
  once : (queue.map QueueEntry.id).Nodup
  ids : ∀ e ∈ queue, db₀.nextChunk ≤ e.id ∧ e.id < s.db.nextChunk
  texts : ∀ e ∈ queue, ∀ r ∈ s.db.chunks, r.id = e.id →
    ∀ c : Chunk, Describes c r none → e.text = c.embeddingText

theorem mem_storedRows {path : String} {chunks : List ParsedChunk} {n : ℕ} {r : ChunkRow R} :
    r ∈ env.storedRows path chunks n ↔
      ∃ p ∈ chunks.zipIdx n, env.chunkRow path p.1 p.2 = r := List.mem_map

theorem le_id_of_mem_storedRows {path : String} {chunks : List ParsedChunk} {n : ℕ}
    {r : ChunkRow R} (h : r ∈ env.storedRows path chunks n) : n ≤ r.id := by
  obtain ⟨p, hp, rfl⟩ := (mem_storedRows env).1 h
  exact List.le_snd_of_mem_zipIdx hp

/-- The text of a parsed chunk is that of the chunk its row describes. -/
theorem embeddingText_chunkRow {path : String} {p : ParsedChunk} {id : ℕ} {c : Chunk}
    (h : Describes c (env.chunkRow (R := R) path p id) none) :
    p.embeddingText = c.embeddingText := by
  unfold ParsedChunk.embeddingText Chunk.embeddingText
  rw [h.name, h.docstring, h.content, h.summary]
  rfl

variable {env force db₀} {done : List WalkedFile} {s : RunState R} {queue : List QueueEntry}

omit [Zero R] in
/-- Whether a file is cut anew is decided by the rows it had before the run, unless it was cut
    already. -/
theorem WalkInv.cuts_concat (h : WalkInv env force db₀ done s queue) (f : WalkedFile)
    (q : String) : env.cuts force db₀ (done ++ [f]) q =
      (env.cuts force db₀ done q ||
        (decide (f.path = q) && (env.fileWork force s.db f).isSome)) := by
  rw [Spelunk.cuts_concat]
  cases hdone : env.cuts force db₀ done q with
  | true => rfl
  | false =>
    by_cases hpath : f.path = q
    · subst hpath
      rw [fileWork_congr env force (h.hash _ hdone) (h.hasChunks _ hdone)]
    · simp [hpath]

omit [Zero R] in
theorem walkInv_start (hsound : Sound db₀) : WalkInv env force db₀ [] (.start db₀) [] where
  sound := Along.start hsound
  next := le_rfl
  hash _ _ := rfl
  hasChunks _ _ := rfl
  old _ _ := ⟨fun h => ⟨h, rfl⟩, And.left⟩
  sub _ h := h
  embedded _ _ h := h
  once := List.nodup_nil
  ids _ h := absurd h List.not_mem_nil
  texts _ h := absurd h List.not_mem_nil

omit [Zero R] in
/-- A file that is passed over. -/
theorem WalkInv.skip (h : WalkInv env force db₀ done s queue) {f : WalkedFile}
    (hw : env.fileWork force s.db f = none) :
    WalkInv env force db₀ (done ++ [f]) s queue := by
  have hcuts : ∀ q, env.cuts force db₀ (done ++ [f]) q = env.cuts force db₀ done q := by
    intro q
    simp [h.cuts_concat, hw]
  refine ⟨h.sound, h.next, ?_, ?_, ?_, h.sub, h.embedded, h.once, h.ids, h.texts⟩
  all_goals simp only [hcuts]
  · exact h.hash
  · exact h.hasChunks
  · exact h.old

/-- The rows of a file that is cut anew, among those of the others. -/
theorem Recut.mem_chunks {w : FileWork} {s' : RunState R} (h : Recut env w s s') {r : ChunkRow R} :
    r ∈ s'.db.chunks ↔ (r ∈ s.db.chunks ∧ r.path ≠ w.row.path) ∨
      r ∈ env.storedRows w.row.path (env.storable w.chunks) s.db.nextChunk := by
  rw [h.chunks, List.mem_append, List.mem_filter, decide_eq_true_eq]

theorem Recut.fileHasChunks {w : FileWork} {s' : RunState R} (h : Recut env w s s') {q : String}
    (hq : q ≠ w.row.path) : s'.db.fileHasChunks q = s.db.fileHasChunks q := by
  unfold CodeDb.fileHasChunks
  rw [Bool.eq_iff_iff, List.any_eq_true, List.any_eq_true]
  simp only [decide_eq_true_eq, h.mem_chunks]
  constructor
  · rintro ⟨r, ⟨hr, -⟩ | hr, rfl⟩
    · exact ⟨r, hr, rfl⟩
    · obtain ⟨p, -, rfl⟩ := (mem_storedRows env).1 hr
      exact absurd rfl hq
  · rintro ⟨r, hr, rfl⟩
    exact ⟨r, .inl ⟨hr, hq⟩, rfl⟩

theorem Recut.fileHash {w : FileWork} {s' : RunState R} (h : Recut env w s s') {q : String}
    (hq : q ≠ w.row.path) : s'.db.fileHash q = s.db.fileHash q := by
  have hupsert : (s.db.upsertFile w.row).fileHash q = s.db.fileHash q := fileHash_upsertFile hq
  rw [← hupsert]
  unfold CodeDb.fileHash
  rw [h.files]

omit [Zero R] in
theorem map_id_freshEntries {db : CodeDb R} {f : WalkedFile} {w : FileWork}
    (hw : env.fileWork force db f = some w) : (freshEntries env force db f).map QueueEntry.id =
      List.range' db.nextChunk (env.storable w.chunks).length := by
  unfold freshEntries
  rw [hw]
  simp only [List.map_map, Function.comp_def]
  exact List.zipIdx_map_snd ..

/-- A file that is cut anew. -/
theorem WalkInv.recut (hbound : ∀ id ∈ db₀.embeddings, id < db₀.nextChunk)
    (h : WalkInv env force db₀ done s queue) {f : WalkedFile} {w : FileWork} {s' : RunState R}
    (hw : env.fileWork force s.db f = some w) (hcut : Recut env w s s') (hsound : Along Sound s') :
    WalkInv env force db₀ (done ++ [f]) s' (queue ++ freshEntries env force s.db f) := by
  have hpath : w.row.path = f.path := (fileWork_path env force hw).1
  have hcuts : ∀ q, env.cuts force db₀ (done ++ [f]) q =
      (env.cuts force db₀ done q || decide (f.path = q)) := by
    intro q
    simp [h.cuts_concat, hw]
  have hother : ∀ q, env.cuts force db₀ (done ++ [f]) q = false →
      env.cuts force db₀ done q = false ∧ q ≠ w.row.path := by
    intro q hq
    rw [hcuts, Bool.or_eq_false_iff, decide_eq_false_iff_not] at hq
    exact ⟨hq.1, hpath ▸ Ne.symm hq.2⟩
  have hnext : s.db.nextChunk ≤ s'.db.nextChunk := hcut.next ▸ Nat.le_add_right _ _
  have hids := map_id_freshEntries hw
  have hfresh : ∀ e ∈ freshEntries env force s.db f,
      ∃ p ∈ (env.storable w.chunks).zipIdx s.db.nextChunk, e.id = p.2 ∧
        e.text = p.1.embeddingText := by
    intro e he
    unfold freshEntries at he
    rw [hw] at he
    obtain ⟨p, hp, rfl⟩ := List.mem_map.1 he
    exact ⟨p, hp, rfl, rfl⟩
  refine ⟨hsound, h.next.trans hnext, fun q hq => ?_, fun q hq => ?_, fun r hr => ?_,
    fun id hid => ?_, fun r hr hin => ?_, ?_, fun e he => ?_, fun e he r hr hid c hc => ?_⟩
  · obtain ⟨hold, hne⟩ := hother q hq
    rw [hcut.fileHash hne, h.hash q hold]
  · obtain ⟨hold, hne⟩ := hother q hq
    rw [hcut.fileHasChunks hne, h.hasChunks q hold]
  · have hstored : r ∉ env.storedRows w.row.path (env.storable w.chunks) s.db.nextChunk :=
      fun hmem => absurd (h.next.trans (le_id_of_mem_storedRows env hmem)) (not_le.2 hr)
    rw [hcut.mem_chunks, or_iff_left hstored, h.old r hr, hcuts, Bool.or_eq_false_iff,
      decide_eq_false_iff_not, and_assoc, hpath, eq_comm (a := f.path)]
  · rw [hcut.embeddings] at hid
    exact h.sub id (List.mem_of_mem_filter hid)
  · rcases hcut.mem_chunks.1 hr with ⟨hold, hne⟩ | hstored
    · rw [hcut.embeddings]
      refine List.mem_filter.2 ⟨h.embedded r hold hin, decide_eq_true ?_⟩
      -- The id is not one of a chunk that is deleted.
      rintro ⟨d, hd, hdpath, hdid⟩
      exact hne (h.sound.1.eq_of_id hold hd hdid.symm ▸ hdpath)
    · have hle := h.next.trans (le_id_of_mem_storedRows env hstored)
      exact absurd (hbound _ hin) (not_lt.2 hle)
  · rw [List.map_append, hids]
    refine h.once.append List.nodup_range' ?_
    intro id hold hnew
    obtain ⟨e, he, rfl⟩ := List.mem_map.1 hold
    exact absurd (h.ids e he).2 (not_lt.2 (List.mem_range'_1.1 hnew).1)
  · rcases List.mem_append.1 he with he | he
    · exact ⟨(h.ids e he).1, (h.ids e he).2.trans_le hnext⟩
    · have hid := List.mem_map_of_mem (f := QueueEntry.id) he
      rw [hids, List.mem_range'_1] at hid
      exact ⟨h.next.trans hid.1, hcut.next ▸ hid.2⟩
  · rcases List.mem_append.1 he with he | he <;> rcases hcut.mem_chunks.1 hr with ⟨hold, -⟩ | hnew
    · exact h.texts e he r hold hid c hc
    · exact absurd ((h.ids e he).2.trans_le (le_id_of_mem_storedRows env hnew)) (hid ▸ lt_irrefl _)
    · obtain ⟨p, hp, hpid, -⟩ := hfresh e he
      have hle : s.db.nextChunk ≤ r.id := hid ▸ hpid ▸ List.le_snd_of_mem_zipIdx hp
      exact absurd (h.sound.1.below r hold) (not_lt.2 hle)
    · obtain ⟨p, hp, hpid, htext⟩ := hfresh e he
      obtain ⟨p', hp', rfl⟩ := (mem_storedRows env).1 hnew
      have hsame : p' = p := by
        have hsnd : p'.2 = p.2 := hid.trans hpid
        have hget := List.mk_mem_zipIdx_iff_le_and_getElem?_sub.1 hp
        have hget' := List.mk_mem_zipIdx_iff_le_and_getElem?_sub.1 hp'
        rw [hsnd, hget.2, Option.some.injEq] at hget'
        exact Prod.ext hget'.2.symm hsnd
      rw [htext, ← hsame]
      exact embeddingText_chunkRow env hc

/-- One file of the walk. -/
theorem walkInv_processFile (hbound : ∀ id ∈ db₀.embeddings, id < db₀.nextChunk)
    (h : WalkInv env force db₀ done s queue) (f : WalkedFile) :
    WalkInv env force db₀ (done ++ [f]) (env.processFile force s f)
      (queue ++ freshEntries env force s.db f) := by
  cases hw : env.fileWork force s.db f with
  | none =>
    have hstate : env.processFile force s f = s := by
      unfold Extractors.processFile
      rw [hw]
    have hfresh : freshEntries env force s.db f = [] := by
      unfold freshEntries
      rw [hw]
    rw [hstate, hfresh, List.append_nil]
    exact h.skip hw
  | some w =>
    exact h.recut hbound hw (recut_processFile env hw) (along_processFile env h.sound f)

/-- The walk. -/
theorem walkInv_walkEntries (hbound : ∀ id ∈ db₀.embeddings, id < db₀.nextChunk)
    (files : List WalkedFile) (h : WalkInv env force db₀ done s queue) :
    WalkInv env force db₀ (done ++ files) (walkEntries env force (s, queue) files).1
      (walkEntries env force (s, queue) files).2 := by
  induction files generalizing done s queue with
  | nil => rwa [List.append_nil]
  | cons f files ih =>
    rw [List.append_cons]
    exact ih (walkInv_processFile hbound h f)

end Walk

/-! ### Queues -/

/-- What a queue should be: every chunk without an embedding once, each with the text of the
    chunk that was parsed, under its summary if it has one. -/
structure QueueFaithful {R : Type} (ix : SummarisedDb R) (queue : List QueueEntry) : Prop where
  once : (queue.map QueueEntry.id).Nodup
  complete : ∀ r ∈ ix.db.chunks, r.id ∈ queue.map QueueEntry.id ↔ r.id ∉ ix.db.embeddings
  texts : ∀ e ∈ queue, ∀ r ∈ ix.db.chunks, r.id = e.id →
    ∀ c : Chunk, Describes c r (ix.realSummary r.id) → e.text = c.embeddingText

section Queues

variable {R : Type} (env : Extractors) {codec : MetadataCodec}

theorem mem_missingRows {db : CodeDb R} (h : Sound db) {r : ChunkRow R} :
    r ∈ db.missingRows ↔ r ∈ db.chunks ∧ r.id ∉ db.embeddings := by
  unfold CodeDb.missingRows
  rw [List.mem_filter, decide_eq_true_eq]
  exact ⟨fun hr => ⟨hr.1, hr.2.2⟩, fun hr => ⟨hr.1, h.filed r hr.1, hr.2⟩⟩

/-- A chunk of a row, under a summary. -/
def ChunkRow.described (r : ChunkRow R) (summary : Option String) : Chunk where
  filePath := r.path
  language := ""
  kind := .verbatim
  name := r.name
  startLine := r.startLine
  endLine := r.endLine
  content := r.content
  docstring := r.docstring
  parentScope := r.parentScope
  summary := summary

/-- What was queued for some chunks, and after it the chunks that wait besides. -/
theorem queueFaithful_backfill {ix : SummarisedDb R} (hsound : Sound ix.db)
    (hcodec : codec.ReadsBack) {fresh : List QueueEntry}
    (honce : (fresh.map QueueEntry.id).Nodup)
    (hwaiting : ∀ e ∈ fresh, e.id ∉ ix.db.embeddings)
    (htexts : ∀ e ∈ fresh, ∀ r ∈ ix.db.chunks, r.id = e.id →
      ∀ c : Chunk, Describes c r (ix.realSummary r.id) → e.text = c.embeddingText) :
    QueueFaithful ix (fresh ++
        (missingEmbeddingTexts env codec ix).filter fun e => e.id ∉ fresh.map QueueEntry.id) ↔
      ∀ r ∈ ix.db.missingRows, r.id ∉ fresh.map QueueEntry.id → ix.summary r.id ≠ some "" := by
  have hentry : ∀ e, e ∈ (missingEmbeddingTexts env codec ix).filter
      (fun e => e.id ∉ fresh.map QueueEntry.id) → ∃ r ∈ ix.db.missingRows,
        r.id ∉ fresh.map QueueEntry.id ∧ e.id = r.id ∧
        e.text = reconstructEmbeddingText codec r.name
          (some (codec.toText (chunkMetadata r.docstring r.parentScope))) (ix.summary r.id)
            r.content := by
    intro e he
    obtain ⟨he, hnew⟩ := List.mem_filter.1 he
    obtain ⟨r, hr, rfl⟩ := List.mem_map.1 he
    exact ⟨r, hr, of_decide_eq_true hnew, rfl, rfl⟩
  have hqueued : ∀ r ∈ ix.db.missingRows, r.id ∉ fresh.map QueueEntry.id →
      ∃ e ∈ (missingEmbeddingTexts env codec ix).filter
        (fun e => e.id ∉ fresh.map QueueEntry.id), e.id = r.id ∧
        e.text = reconstructEmbeddingText codec r.name
          (some (codec.toText (chunkMetadata r.docstring r.parentScope))) (ix.summary r.id)
            r.content := by
    intro r hr hnew
    exact ⟨_, List.mem_filter.2 ⟨List.mem_map_of_mem hr, decide_eq_true hnew⟩, rfl, rfl⟩
  constructor
  · intro h r hr hnew
    obtain ⟨e, he, hid, htext⟩ := hqueued r hr hnew
    have hdescribed : Describes (r.described (ix.realSummary r.id)) r
        (ix.realSummary r.id) := ⟨rfl, rfl, rfl, rfl⟩
    have hsame := h.texts e (List.mem_append_right _ he) r ((mem_missingRows hsound).1 hr).1
      hid.symm _ hdescribed
    exact (text_eq_iff hcodec ix hdescribed).1 (htext.symm.trans hsame)
  · intro h
    refine ⟨?_, fun r hr => ?_, fun e he r hr hid c hc => ?_⟩
    · rw [List.map_append]
      refine honce.append ?_ ?_
      · have hsub : ((missingEmbeddingTexts env codec ix).filter
            (fun e => e.id ∉ fresh.map QueueEntry.id)).Sublist
              (missingEmbeddingTexts env codec ix) := List.filter_sublist
        have hrows : (missingEmbeddingTexts env codec ix).map QueueEntry.id =
            ix.db.missingRows.map ChunkRow.id := by
          simp only [missingEmbeddingTexts, List.map_map, Function.comp_def]
        have hnodup : (ix.db.missingRows.map ChunkRow.id).Nodup :=
          hsound.nodup.sublist (List.filter_sublist.map _)
        exact (hrows ▸ hnodup).sublist (hsub.map _)
      · intro id hfresh hrest
        obtain ⟨e, he, rfl⟩ := List.mem_map.1 hrest
        exact of_decide_eq_true (List.mem_filter.1 he).2 hfresh
    · rw [List.map_append, List.mem_append]
      constructor
      · rintro (hmem | hmem)
        · obtain ⟨e, he, hid⟩ := List.mem_map.1 hmem
          exact hid ▸ hwaiting e he
        · obtain ⟨e, he, hid⟩ := List.mem_map.1 hmem
          obtain ⟨r', hr', -, hid', -⟩ := hentry e he
          exact hid ▸ hid' ▸ ((mem_missingRows hsound).1 hr').2
      · intro hmissing
        by_cases hmem : r.id ∈ fresh.map QueueEntry.id
        · exact .inl hmem
        · obtain ⟨e, he, hid, -⟩ := hqueued r ((mem_missingRows hsound).2 ⟨hr, hmissing⟩) hmem
          exact .inr (hid ▸ List.mem_map_of_mem he)
    · rcases List.mem_append.1 he with he | he
      · exact htexts e he r hr hid c hc
      · obtain ⟨r', hr', hnew, hid', htext⟩ := hentry e he
        have hsame : r = r' := hsound.eq_of_id hr ((mem_missingRows hsound).1 hr').1
          (hid.trans hid')
        subst hsame
        rw [htext]
        exact (text_eq_iff hcodec ix hc).2 (h r hr' hnew)

/-- The queue of the detached embed phase. -/
theorem queueFaithful_missingEmbeddingTexts {ix : SummarisedDb R} (hsound : Sound ix.db)
    (hcodec : codec.ReadsBack) : QueueFaithful ix (missingEmbeddingTexts env codec ix) ↔
      ∀ r ∈ ix.db.missingRows, ix.summary r.id ≠ some "" := by
  have honce : (([] : List QueueEntry).map QueueEntry.id).Nodup := List.nodup_nil
  have hbackfill := queueFaithful_backfill env hsound hcodec honce
    (fun e he => absurd he List.not_mem_nil) (fun e he => absurd he List.not_mem_nil)
  simpa using hbackfill

variable [Zero R]

/-- The queue of a run whose walk finds a file. -/
theorem queueFaithful_parsePhaseQueue {ix : SummarisedDb R} (h : IndexInv ix)
    (hcodec : codec.ReadsBack) (force : Bool) {files : List WalkedFile} (hfiles : files ≠ []) :
    QueueFaithful (parsePhaseQueue env codec force files ix).1
        (parsePhaseQueue env codec force files ix).2 ↔
      ∀ r ∈ ix.db.missingRows, r.path ∈ files.map WalkedFile.path →
        env.cuts force ix.db files r.path = false → ix.summary r.id ≠ some "" := by
  have hstart : WalkInv env force ix.db [] (.start ix.db) [] := walkInv_start h.sound
  have hwalk := walkInv_walkEntries h.embedded files hstart
  rw [List.nil_append] at hwalk
  unfold parsePhaseQueue
  rw [if_neg hfiles]
  generalize walkEntries env force (RunState.start ix.db, []) files = walked at hwalk ⊢
  obtain ⟨s, fresh⟩ := walked
  simp only at hwalk ⊢
  obtain ⟨hremoved, hmem⟩ := removeStale_rows hwalk.sound.1 files
  have hsound : Sound (removeStale files s).db := (along_removeStale hwalk.sound files).1
  have hsub : ∀ id ∈ (removeStale files s).db.embeddings, id ∈ ix.db.embeddings := by
    intro id hid
    simp only [removeStale, execAll_db] at hid
    exact hwalk.sub id ((foldl_deleteFiles _ _).2 id hid)
  have hnew : ∀ e ∈ fresh, e.id ∉ (removeStale files s).db.embeddings := fun e he hin =>
    absurd (h.embedded _ (hsub _ hin)) (not_lt.2 (hwalk.ids e he).1)
  refine Iff.trans (queueFaithful_backfill env hsound hcodec hwalk.once hnew ?_) ?_
  · intro e he r hr hid c hc
    have hsummary : ix.summary r.id = none :=
      h.summarised r.id (hid ▸ (hwalk.ids e he).1)
    refine hwalk.texts e he r ((hmem r).1 hr).1 hid c ?_
    simpa [SummarisedDb.realSummary, hsummary] using hc
  · constructor
    · intro hall r hr hpath hcut
      obtain ⟨hin, hmissing⟩ := (mem_missingRows h.sound).1 hr
      have hbelow := h.sound.below r hin
      have hkept : r ∈ (removeStale files s).db.chunks :=
        (hmem r).2 ⟨(hwalk.old r hbelow).2 ⟨hin, hcut⟩, hpath⟩
      have hwaits := (mem_missingRows hsound).2 ⟨hkept, fun he => hmissing (hsub _ he)⟩
      refine hall r hwaits fun hid => ?_
      obtain ⟨e, he, hid⟩ := List.mem_map.1 hid
      exact absurd hbelow (not_lt.2 (hid ▸ (hwalk.ids e he).1))
    · intro hall r hr _ hempty
      obtain ⟨hin, hmissing⟩ := (mem_missingRows hsound).1 hr
      -- A chunk with a summary was stored before the run.
      have hbelow : r.id < ix.db.nextChunk := by
        by_contra hle
        rw [h.summarised r.id (not_lt.1 hle)] at hempty
        cases hempty
      obtain ⟨hwalked, hpath⟩ := (hmem r).1 hin
      obtain ⟨hold, hcut⟩ := (hwalk.old r hbelow).1 hwalked
      have hstale : r.path ∉ s.db.paths.filter (· ∉ files.map WalkedFile.path) :=
        fun hstale => of_decide_eq_true (List.mem_filter.1 hstale).2 hpath
      refine hall r ((mem_missingRows h.sound).2 ⟨hold, fun he => hmissing ?_⟩) hpath hcut hempty
      exact (hremoved.embedded r hwalked hstale).2 (hwalk.embedded r hwalked he)

/-- The queue of a run is that of the run without texts. -/
theorem parsePhaseQueue_refines (codec : MetadataCodec) (force : Bool) (files : List WalkedFile)
    (ix : SummarisedDb R) :
    (parsePhaseQueue env codec force files ix).1.db = (env.runParsePhase force files ix.db).1.db ∧
      (parsePhaseQueue env codec force files ix).2.map QueueEntry.id =
        (env.runParsePhase force files ix.db).2 := by
  have hwalk : ∀ (fs : List WalkedFile) (s : RunState R) (queue : List QueueEntry),
      queue.map QueueEntry.id = s.out →
      (walkEntries env force (s, queue) fs).1 = fs.foldl (env.processFile force) s ∧
        (walkEntries env force (s, queue) fs).2.map QueueEntry.id =
          (walkEntries env force (s, queue) fs).1.out := by
    intro fs
    induction fs with
    | nil => exact fun s queue h => ⟨rfl, h⟩
    | cons f fs ih =>
      intro s queue h
      refine ih (env.processFile force s f) (queue ++ freshEntries env force s.db f) ?_
      rw [List.map_append, h]
      cases hw : env.fileWork force s.db f with
      | none =>
        unfold Extractors.processFile freshEntries
        rw [hw]
        exact List.append_nil _
      | some w => rw [(recut_processFile env hw).out, map_id_freshEntries hw]
  unfold parsePhaseQueue Extractors.runParsePhase
  by_cases hfiles : files = []
  · rw [if_pos hfiles, if_pos hfiles]
    exact ⟨rfl, rfl⟩
  · rw [if_neg hfiles, if_neg hfiles]
    obtain ⟨hstate, hids⟩ := hwalk files (.start ix.db) [] rfl
    rw [← hstate]
    refine ⟨rfl, ?_⟩
    have hout : ∀ s : RunState R, (removeStale files s).out = s.out := fun s => execAll_out _ _
    simp only [RunState.queue, List.map_append, hids, hout]
    congr 1
    unfold missingEmbeddingTexts CodeDb.chunksMissingEmbeddings
    rw [List.filter_map, List.filter_map, List.map_map]
    exact List.map_congr_left fun _ _ => rfl

end Queues

/-! ### The law -/

section Law

variable {R : Type} [Zero R] [One R] [Add R] [Sub R] [Mul R] [Div R] [NatCast R]

/-- The embed queues. The detached embed phase queues what it should if and only if no chunk that
    waits has an empty summary. A run does if and only if no chunk waits where its walk finds no
    file, and none it keeps has an empty summary. -/
theorem embedQueueLaw (env : Extractors) (codec : MetadataCodec) {ix : SummarisedDb R}
    (h : SummaryHistory env ix) (hcodec : codec.ReadsBack) (force : Bool)
    (files : List WalkedFile) :
    (QueueFaithful ix (missingEmbeddingTexts env codec ix) ↔
      ∀ r ∈ ix.db.missingRows, ix.summary r.id ≠ some "") ∧
    (QueueFaithful (parsePhaseQueue env codec force files ix).1
        (parsePhaseQueue env codec force files ix).2 ↔
      (files = [] → ix.db.missingRows = []) ∧
        ∀ r ∈ ix.db.missingRows, r.path ∈ files.map WalkedFile.path →
          env.cuts force ix.db files r.path = false → ix.summary r.id ≠ some "") := by
  have hinv := indexInv_of_history env h
  refine ⟨queueFaithful_missingEmbeddingTexts env hinv.sound hcodec, ?_⟩
  by_cases hfiles : files = []
  · have hempty : parsePhaseQueue env codec force files ix = (ix, []) := if_pos hfiles
    rw [hempty, hfiles]
    constructor
    · refine fun hfaithful => ⟨fun _ => List.eq_nil_iff_forall_not_mem.2 fun r hr => ?_,
        fun r _ hpath => absurd hpath List.not_mem_nil⟩
      obtain ⟨hin, hmissing⟩ := (mem_missingRows hinv.sound).1 hr
      exact absurd ((hfaithful.complete r hin).2 hmissing) List.not_mem_nil
    · intro hnone
      refine ⟨List.nodup_nil, fun r hr => iff_of_false List.not_mem_nil fun hmissing => ?_,
        fun e he => absurd he List.not_mem_nil⟩
      have hwaits := (mem_missingRows hinv.sound).2 ⟨hr, hmissing⟩
      exact absurd (hnone.1 rfl ▸ hwaits) List.not_mem_nil
  · rw [queueFaithful_parsePhaseQueue env hinv hcodec force hfiles]
    exact (and_iff_right fun h => absurd h hfiles).symm

end Law

/-! ### A summary that was tried in vain -/

/-- A text or `null`, as it is written. -/
def scalarText : JsonValue → List Char
  | .str s => jsonString s
  | _ => "null".toList

/-- A value as it is written without spaces. -/
def compactText : JsonValue → String
  | .obj members => String.ofList ('\x7b' ::
      [','].intercalate (members.map fun m => jsonField m.1 (scalarText m.2)) ++ ['\x7d'])
  | v => String.ofList (scalarText v)

theorem delimited_optionalJson : Delimited fun o => scalarText (optionalJson o) := by
  intro a b r r' _ _ h
  cases a <;> cases b
  · exact ⟨rfl, List.append_cancel_left h⟩
  · exact absurd (List.cons.inj h).1 (by decide)
  · exact absurd (List.cons.inj h).1 (by decide)
  · obtain ⟨rfl, hrest⟩ := jsonString_append_inj h
    exact ⟨rfl, hrest⟩

theorem compactText_chunkMetadata_inj {a b a' b' : Option String}
    (h : compactText (chunkMetadata a b) = compactText (chunkMetadata a' b')) :
    chunkMetadata a b = chunkMetadata a' b' := by
  have htext : ∀ d p : Option String, compactText (chunkMetadata d p) = String.ofList ('\x7b' ::
      (jsonField "docstring" (scalarText (optionalJson d)) ++
        (',' :: (jsonField "parent_scope" (scalarText (optionalJson p)) ++ ['\x7d'])))) := by
    intro d p
    simp [compactText, chunkMetadata]
  rw [htext, htext] at h
  obtain ⟨rfl, hrest⟩ := jsonField_append_inj delimited_optionalJson (separated_comma _)
    (separated_comma _) (List.cons.inj (String.ofList_injective h)).2
  obtain ⟨rfl, -⟩ := jsonField_append_inj delimited_optionalJson (separated_brace [])
    (separated_brace []) (List.cons.inj hrest).2
  rfl

open Classical in
/-- A codec that writes values without spaces, and reads what it has written. -/
noncomputable def compactCodec : MetadataCodec where
  toText := compactText
  ofText text :=
    if h : ∃ m : Option String × Option String, compactText (chunkMetadata m.1 m.2) = text
    then some (chunkMetadata h.choose.1 h.choose.2) else none

theorem compactCodec_readsBack : compactCodec.ReadsBack := by
  intro docstring parentScope
  have hwritten : ∃ m : Option String × Option String, compactText (chunkMetadata m.1 m.2) =
      compactText (chunkMetadata docstring parentScope) := ⟨(docstring, parentScope), rfl⟩
  exact (dif_pos hwritten).trans
    (congrArg some (compactText_chunkMetadata_inj hwritten.choose_spec))

/-- The index of a run that was killed after its first chunk. -/
theorem firstChunk_history : SummaryHistory twoChunks ⟨firstChunkOnly, fun _ => none⟩ :=
  .run .empty (.index false [twoChunksFile] [] (by decide +kernel))

/-- The chunk waits for its embedding, and its summary was tried in vain. -/
def firstChunkTried : SummarisedDb ℕ where
  db := firstChunkOnly
  summary id := if id = 0 then some "" else none

theorem firstChunkTried_history : SummaryHistory twoChunks firstChunkTried :=
  firstChunk_history.summarise
    ⟨0, "lib.rs", "function", none, 1, 1, "fn a() {}", none, none, 3, 0⟩
    (List.mem_singleton_self _) ""

theorem embedQueueLaw_firstChunk :
    QueueFaithful (⟨firstChunkOnly, fun _ => none⟩ : SummarisedDb ℕ)
      (missingEmbeddingTexts twoChunks compactCodec ⟨firstChunkOnly, fun _ => none⟩) :=
  (embedQueueLaw twoChunks compactCodec firstChunk_history compactCodec_readsBack false []).1.2
    fun _ _ => nofun

/-- A chunk whose summary was tried in vain is queued with an empty summary in its text. -/
theorem queue_emptySummary :
    ¬ ∀ (env : Extractors) (codec : MetadataCodec) (ix : SummarisedDb ℕ), SummaryHistory env ix →
      codec.ReadsBack → QueueFaithful ix (missingEmbeddingTexts env codec ix) := by
  intro hall
  have hfaithful := hall twoChunks compactCodec firstChunkTried firstChunkTried_history
    compactCodec_readsBack
  have hsound := (indexInv_of_history twoChunks firstChunkTried_history).sound
  have hsummaries := (queueFaithful_missingEmbeddingTexts twoChunks hsound
    compactCodec_readsBack).1 hfaithful
  exact hsummaries _ (List.mem_singleton_self _) rfl

end Spelunk
