import Mathlib.Data.List.Induction
import Mathlib.Data.List.Nodup
import Spelunk.Core.ParsePhase

/-!
# The Rows a Parse Phase Leaves

What the parse phase makes of a database, in terms of the database before it and the
files of the walk. A file it cuts anew gets new chunks without a rank; a file it passes
over keeps its rows; a file that is not in the walk loses them. Its edges are those of
the files that keep theirs, and after them the new ones in the order of the walk.

## Main definitions

* `Sound`: Ids are not shared, and chunks have a file; every statement keeps it.
* `Parsed`: What a part of the walk has made of the database.

## Theorems

* `sound_of_history`: Every history of partial runs leaves a sound database.
* `parsed_files`: The walk.
* `removeStale_rows`: The removal of the files that are gone.
-/

namespace Spelunk

variable {R : Type}

/-! ### Runs of statements -/

namespace RunState

theorem execAll_cons (s : RunState R) (st : CodeDb R → CodeDb R) (l : List (CodeDb R → CodeDb R)) :
    s.execAll (st :: l) = (s.exec st).execAll l := rfl

@[simp] theorem execAll_db (s : RunState R) (l : List (CodeDb R → CodeDb R)) :
    (s.execAll l).db = l.foldl (fun db st => st db) s.db := by
  induction l generalizing s with
  | nil => rfl
  | cons st l ih => rw [execAll_cons, ih, List.foldl_cons]; rfl

@[simp] theorem execAll_out (s : RunState R) (l : List (CodeDb R → CodeDb R)) :
    (s.execAll l).out = s.out := by
  induction l generalizing s with
  | nil => rfl
  | cons st l ih => rw [execAll_cons, ih]; rfl

/-- A property of the database of a run and of every state it has gone through. -/
def Along (I : CodeDb R → Prop) (s : RunState R) : Prop := I s.db ∧ ∀ db ∈ s.trace, I db

variable {I : CodeDb R → Prop} {s : RunState R}

theorem Along.start {db : CodeDb R} (h : I db) : Along I (RunState.start db) :=
  ⟨h, fun _ hd => List.mem_singleton.1 hd ▸ h⟩

theorem Along.exec (h : Along I s) {st : CodeDb R → CodeDb R} (hst : ∀ db, I db → I (st db)) :
    Along I (s.exec st) := by
  refine ⟨hst _ h.1, fun db hdb => ?_⟩
  rcases List.mem_append.1 hdb with hdb | hdb
  · exact h.2 db hdb
  · rw [List.mem_singleton.1 hdb]
    exact hst _ h.1

theorem Along.execAll (h : Along I s) {l : List (CodeDb R → CodeDb R)}
    (hl : ∀ st ∈ l, ∀ db, I db → I (st db)) : Along I (s.execAll l) := by
  induction l generalizing s with
  | nil => exact h
  | cons st l ih =>
    exact ih (h.exec (hl st List.mem_cons_self)) fun st' hst' =>
      hl st' (List.mem_cons_of_mem st hst')

/-- The state a run has come to is one it has gone through. -/
theorem db_mem_trace (h : s.db ∈ s.trace) (l : List (CodeDb R → CodeDb R)) :
    (s.execAll l).db ∈ (s.execAll l).trace := by
  induction l generalizing s with
  | nil => exact h
  | cons st l ih => exact ih (List.mem_append_right _ (List.mem_singleton_self _))

end RunState

namespace CodeDb

/-- Ids are not shared, the next one is free, and every chunk has its file. -/
structure Sound (db : CodeDb R) : Prop where
  nodup : (db.chunks.map ChunkRow.id).Nodup
  below : ∀ c ∈ db.chunks, c.id < db.nextChunk
  filed : ∀ c ∈ db.chunks, c.path ∈ db.paths

variable {db : CodeDb R}

theorem sound_empty : Sound (empty : CodeDb R) where
  nodup := List.nodup_nil
  below _ h := absurd h List.not_mem_nil
  filed _ h := absurd h List.not_mem_nil

/-- Two chunks of one id are one. -/
theorem Sound.eq_of_id (h : Sound db) {c d : ChunkRow R} (hc : c ∈ db.chunks) (hd : d ∈ db.chunks)
    (he : c.id = d.id) : c = d :=
  List.inj_on_of_nodup_map h.nodup hc hd he

/-- A statement that only removes chunks. -/
theorem Sound.sublist (h : Sound db) {db' : CodeDb R} (hsub : db'.chunks.Sublist db.chunks)
    (hnext : db'.nextChunk = db.nextChunk) (hfiled : ∀ c ∈ db'.chunks, c.path ∈ db'.paths) :
    Sound db' where
  nodup := h.nodup.sublist (hsub.map ChunkRow.id)
  below c hc := hnext ▸ h.below c (hsub.subset hc)
  filed := hfiled

theorem mem_paths_upsertFile {f : FileRow} {q : String} :
    q ∈ (db.upsertFile f).paths ↔ q ∈ db.paths ∨ q = f.path := by
  unfold upsertFile
  split
  · next hmem =>
    have hmap : (db.files.map fun g => if g.path = f.path then f else g).map FileRow.path =
        db.files.map FileRow.path := by
      rw [List.map_map]
      refine List.map_congr_left fun g _ => ?_
      by_cases hg : g.path = f.path
      · simp [hg]
      · simp [hg]
    show q ∈ (db.files.map fun g => if g.path = f.path then f else g).map FileRow.path ↔ _
    rw [hmap]
    refine ⟨.inl, ?_⟩
    rintro (h | rfl)
    · exact h
    · exact hmem
  · simp [paths]

theorem Sound.upsertFile (h : Sound db) (f : FileRow) : Sound (db.upsertFile f) := by
  have hchunks : (db.upsertFile f).chunks = db.chunks ∧
      (db.upsertFile f).nextChunk = db.nextChunk := by
    unfold CodeDb.upsertFile
    split <;> exact ⟨rfl, rfl⟩
  refine h.sublist (by rw [hchunks.1]) hchunks.2 fun c hc => mem_paths_upsertFile.2 (.inl ?_)
  exact h.filed c (hchunks.1 ▸ hc)

theorem Sound.deleteEmbeddingsForFile (h : Sound db) (p : String) :
    Sound (db.deleteEmbeddingsForFile p) := ⟨h.nodup, h.below, h.filed⟩

theorem Sound.deleteChunksForFile (h : Sound db) (p : String) : Sound (db.deleteChunksForFile p) :=
  h.sublist List.filter_sublist rfl fun c hc => h.filed c (List.mem_of_mem_filter hc)

theorem Sound.deleteEdgesForFile (h : Sound db) (p : String) : Sound (db.deleteEdgesForFile p) :=
  ⟨h.nodup, h.below, h.filed⟩

theorem Sound.insertEdge (h : Sound db) (e : EdgeRow) : Sound (db.insertEdge e) :=
  ⟨h.nodup, h.below, h.filed⟩

theorem Sound.insertEmbeddings (h : Sound db) (ids : List ℕ) : Sound (db.insertEmbeddings ids) :=
  ⟨h.nodup, h.below, h.filed⟩

theorem Sound.insertChunk (h : Sound db) {c : ℕ → ChunkRow R} (hid : ∀ id, (c id).id = id) :
    Sound (db.insertChunk c) := by
  unfold CodeDb.insertChunk
  split
  · next hpath =>
    refine ⟨?_, fun d hd => ?_, fun d hd => ?_⟩
    · rw [List.map_append, List.map_singleton, hid]
      refine h.nodup.append (List.nodup_singleton _) ?_
      rintro id hmem hnext
      obtain ⟨d, hd, rfl⟩ := List.mem_map.1 hmem
      exact absurd (List.mem_singleton.1 hnext) (Nat.ne_of_lt (h.below d hd))
    · rcases List.mem_append.1 hd with hd | hd
      · exact Nat.lt_succ_of_lt (h.below d hd)
      · rw [List.mem_singleton.1 hd, hid]
        exact Nat.lt_succ_self _
    · rcases List.mem_append.1 hd with hd | hd
      · exact h.filed d hd
      · rw [List.mem_singleton.1 hd]
        exact hpath
  · exact h

theorem Sound.deleteFileRow (h : Sound db) (p : String) : Sound (db.deleteFileRow p) := by
  refine h.sublist List.filter_sublist rfl fun c hc => ?_
  obtain ⟨hmem, hne⟩ := List.mem_filter.1 hc
  obtain ⟨f, hf, hpath⟩ := List.mem_map.1 (h.filed c hmem)
  exact List.mem_map.2 ⟨f, List.mem_filter.2 ⟨hf, by simpa [hpath] using hne⟩, hpath⟩

theorem Sound.updateGraphRank (h : Sound db) (u : ℕ × R) : Sound (db.updateGraphRank u) := by
  have hmap : ∀ (f : ChunkRow R → ℕ), (∀ c : ChunkRow R, f { c with graphRank := u.2 } = f c) →
      (db.updateGraphRank u).chunks.map f = db.chunks.map f := by
    intro f hf
    show List.map f (db.chunks.map _) = _
    rw [List.map_map]
    refine List.map_congr_left fun c _ => ?_
    simp only [Function.comp_apply]
    split
    · exact hf c
    · rfl
  have hpre : ∀ c ∈ (db.updateGraphRank u).chunks, ∃ d ∈ db.chunks, d.id = c.id ∧
      d.path = c.path := by
    intro c hc
    obtain ⟨d, hd, rfl⟩ := List.mem_map.1 hc
    refine ⟨d, hd, ?_⟩
    split <;> exact ⟨rfl, rfl⟩
  refine ⟨by rw [hmap ChunkRow.id fun _ => rfl]; exact h.nodup, fun c hc => ?_, fun c hc => ?_⟩
  · obtain ⟨d, hd, hid, -⟩ := hpre c hc
    exact hid ▸ h.below d hd
  · obtain ⟨d, hd, -, hpath⟩ := hpre c hc
    exact hpath ▸ h.filed d hd

theorem Sound.updateGraphRanks (h : Sound db) (scores : List (ℕ × R)) :
    Sound (db.updateGraphRanks scores) := by
  unfold CodeDb.updateGraphRanks
  induction scores generalizing db with
  | nil => exact h
  | cons u scores ih => exact ih (h.updateGraphRank u)

/-- The statements that remove a file. -/
theorem Sound.of_mem_deleteFile {p : String} {st : CodeDb R → CodeDb R} (hst : st ∈ deleteFile p)
    (h : Sound db) : Sound (st db) := by
  simp only [deleteFile, List.mem_cons, List.not_mem_nil, or_false] at hst
  rcases hst with rfl | rfl | rfl | rfl
  · exact h.deleteEmbeddingsForFile p
  · exact h.deleteChunksForFile p
  · exact h.deleteEdgesForFile p
  · exact h.deleteFileRow p

end CodeDb

open CodeDb RunState

section Histories

variable [Zero R] (env : Extractors)

omit [Zero R] in
theorem sound_fileStatements {w : FileWork} {st : CodeDb R → CodeDb R}
    (hst : st ∈ Extractors.fileStatements w) {db : CodeDb R} (h : Sound db) : Sound (st db) := by
  have hinsert : ∀ {edges : List EdgeRow}, st ∈ edges.map CodeDb.insertEdge → Sound (st db) := by
    intro edges hmem
    obtain ⟨e, -, rfl⟩ := List.mem_map.1 hmem
    exact h.insertEdge e
  simp only [Extractors.fileStatements, List.mem_append, List.mem_cons, List.not_mem_nil,
    or_false] at hst
  rcases hst with ((rfl | rfl | rfl) | hedges) | hmentions
  · exact h.upsertFile _
  · exact h.deleteEmbeddingsForFile _
  · exact h.deleteChunksForFile _
  · split at hedges
    · rcases List.mem_cons.1 hedges with rfl | hedges
      · exact h.deleteEdgesForFile _
      · exact hinsert hedges
    · exact absurd hedges List.not_mem_nil
  · exact hinsert hmentions

theorem sound_chunkStatements {w : FileWork} {st : CodeDb R → CodeDb R}
    (hst : st ∈ env.chunkStatements w) {db : CodeDb R} (h : Sound db) : Sound (st db) := by
  obtain ⟨c, -, rfl⟩ := List.mem_map.1 hst
  exact h.insertChunk fun _ => rfl

theorem along_processFile {force : Bool} {s : RunState R} (h : Along Sound s) (f : WalkedFile) :
    Along Sound (env.processFile force s f) := by
  unfold Extractors.processFile
  split
  · exact h
  · next w _ =>
    exact (h.execAll fun st hst _ hdb => sound_fileStatements hst hdb).execAll
      fun st hst _ hdb => sound_chunkStatements env hst hdb

omit [Zero R] in
theorem along_removeStale {s : RunState R} (h : Along Sound s) (files : List WalkedFile) :
    Along Sound (removeStale files s) := by
  refine h.execAll fun st hst _ hdb => ?_
  obtain ⟨p, -, hmem⟩ := List.mem_flatMap.1 hst
  exact hdb.of_mem_deleteFile hmem

theorem along_runParsePhase {db : CodeDb R} (h : Sound db) (force : Bool)
    (files : List WalkedFile) : Along Sound (env.runParsePhase force files db).1 := by
  unfold Extractors.runParsePhase
  split
  · exact Along.start h
  · have hfold : ∀ (fs : List WalkedFile) (s : RunState R), Along Sound s →
        Along Sound (fs.foldl (env.processFile force) s) := by
      intro fs
      induction fs with
      | nil => exact fun s hs => hs
      | cons f fs ih => exact fun s hs => ih _ (along_processFile env hs f)
    exact along_removeStale (hfold files _ (Along.start h)) files

variable [One R] [Add R] [Sub R] [Mul R] [Div R] [NatCast R]

theorem sound_rankPhase {db : CodeDb R} (h : Sound db) : Sound (rankPhase db) := by
  simp only [rankPhase]
  split
  · exact h
  · exact h.updateGraphRanks _

omit [Zero R] [One R] [Add R] [Sub R] [Mul R] [Div R] [NatCast R] in
theorem sound_embedBatches {queue : List ℕ} {batches : List (List ℕ)} {st : CodeDb R → CodeDb R}
    (hst : st ∈ embedBatches queue batches) {db : CodeDb R} (h : Sound db) : Sound (st db) := by
  obtain ⟨ids, -, rfl⟩ := List.mem_map.1 hst
  exact h.insertEmbeddings _

/-- Every history of partial runs leaves a sound database. -/
theorem sound_of_history {db : CodeDb R} (h : IndexHistory env db) : Sound db := by
  induction h with
  | empty => exact sound_empty
  | run _ hrun ih =>
    cases hrun with
    | index force files batches h =>
      have hparsed := along_runParsePhase env ih force files
      unfold Extractors.indexRun at h
      simp only at h
      split at h
      · exact hparsed.2 _ h
      · exact ((hparsed.execAll fun st hst _ hdb => sound_embedBatches hst hdb).exec
          fun _ hdb => sound_rankPhase hdb).2 _ h
    | embedPhases batches h =>
      exact (((Along.start ih).execAll fun st hst _ hdb => sound_embedBatches hst hdb).exec
        fun _ hdb => sound_rankPhase hdb).2 _ h
    | backgroundPhases h => exact ((Along.start ih).exec fun _ hdb => sound_rankPhase hdb).2 _ h

end Histories

/-! ### One file of the walk -/

section Walk

variable (env : Extractors) (force : Bool)

/-- What is done with a file depends on the rows under its path. -/
theorem fileWork_congr {db db' : CodeDb R} {f : WalkedFile}
    (hhash : db.fileHash f.path = db'.fileHash f.path)
    (hchunks : db.fileHasChunks f.path = db'.fileHasChunks f.path) :
    env.fileWork force db f = env.fileWork force db' f := by
  unfold Extractors.fileWork Extractors.docWork Extractors.pdfWork Extractors.textWork
  rw [hhash, hchunks]

/-- The row and the edges of a file are its own. -/
theorem fileWork_path {db : CodeDb R} {f : WalkedFile} {w : FileWork}
    (h : env.fileWork force db f = some w) :
    w.row.path = f.path ∧ ∀ e ∈ w.edges.getD [] ++ w.mentions, e.sourceFile = f.path := by
  have hmentions : ∀ language chunks, ∀ e ∈ env.mentionEdges f.path language chunks,
      e.sourceFile = f.path := by
    intro language chunks e he
    obtain ⟨c, -, he⟩ := List.mem_flatMap.1 he
    split at he
    · exact absurd he List.not_mem_nil
    · obtain ⟨sym, -, rfl⟩ := List.mem_map.1 he
      rfl
  cases hkind : f.kind with
  | doc language =>
    simp only [Extractors.fileWork, hkind, Extractors.docWork] at h
    split at h
    · cases h
    · obtain ⟨bytes, -, h⟩ := Option.bind_eq_some_iff.1 h
      split at h
      · cases h
      · cases h
        exact ⟨rfl, fun e he => absurd he (by simp)⟩
  | pdf =>
    simp only [Extractors.fileWork, hkind, Extractors.pdfWork] at h
    split at h
    · cases h
    · obtain ⟨bytes, -, h⟩ := Option.bind_eq_some_iff.1 h
      split at h
      · cases h
      · obtain ⟨pages, -, rfl⟩ := Option.map_eq_some_iff.1 h
        exact ⟨rfl, fun e he => absurd he (by simp)⟩
  | text language =>
    simp only [Extractors.fileWork, hkind, Extractors.textWork] at h
    split at h
    · cases h
    · split at h
      · cases h
      · obtain ⟨source, -, h⟩ := Option.bind_eq_some_iff.1 h
        split at h
        · cases h
        · obtain ⟨chunks, -, rfl⟩ := Option.map_eq_some_iff.1 h
          refine ⟨rfl, fun e he => ?_⟩
          rcases List.mem_append.1 he with he | he
          · cases hx : env.extract language f.path source with
            | none => simp [hx] at he
            | some edges =>
              rw [hx, Option.map_some, Option.getD_some] at he
              obtain ⟨e, -, rfl⟩ := List.mem_map.1 he
              rfl
          · exact hmentions _ _ e he

/-- What the statements of a file make of the database. -/
structure FileApplied (w : FileWork) (db db' : CodeDb R) [Zero R] : Prop where
  files : db'.files = (db.upsertFile w.row).files
  chunks : ∃ rows, db'.chunks = db.chunks.filter (·.path ≠ w.row.path) ++ rows ∧
    (∀ r ∈ rows, r.path = w.row.path ∧ r.graphRank = 0) ∧ (env.storable w.chunks = [] → rows = [])
  embeddings : db'.embeddings = (db.deleteEmbeddingsForFile w.row.path).embeddings
  edges : db'.edges = (if w.edges.isSome then db.edges.filter (·.sourceFile ≠ w.row.path)
    else db.edges) ++ (w.edges.getD [] ++ w.mentions)

theorem foldl_insertEdge (db : CodeDb R) (edges : List EdgeRow) :
    (edges.map CodeDb.insertEdge).foldl (fun db st => st db) db =
      { db with edges := db.edges ++ edges } := by
  induction edges generalizing db with
  | nil => simp
  | cons e edges ih =>
    rw [List.map_cons, List.foldl_cons, ih]
    simp [CodeDb.insertEdge]

theorem foldl_chunkStatements [Zero R] (w : FileWork) {db : CodeDb R} (h : w.row.path ∈ db.paths) :
    ∃ rows next, (env.chunkStatements w).foldl (fun db st => st db) db =
      { db with chunks := db.chunks ++ rows, nextChunk := next } ∧
      (∀ r ∈ rows, r.path = w.row.path ∧ r.graphRank = 0) ∧
      (env.storable w.chunks = [] → rows = []) := by
  unfold Extractors.chunkStatements
  generalize env.storable w.chunks = chunks
  induction chunks generalizing db with
  | nil => exact ⟨[], db.nextChunk, by simp, fun r hr => absurd hr List.not_mem_nil, fun _ => rfl⟩
  | cons c chunks ih =>
    have hone : CodeDb.insertChunk (env.chunkRow w.row.path c) db =
        { db with
          chunks := db.chunks ++ [env.chunkRow w.row.path c db.nextChunk]
          nextChunk := db.nextChunk + 1 } := if_pos h
    rw [List.map_cons, List.foldl_cons, hone]
    have hpath : w.row.path ∈ CodeDb.paths { db with
        chunks := db.chunks ++ [env.chunkRow w.row.path c db.nextChunk]
        nextChunk := db.nextChunk + 1 } := h
    obtain ⟨rows, next, hrest, hrows, -⟩ := ih hpath
    refine ⟨env.chunkRow w.row.path c db.nextChunk :: rows, next, ?_, ?_, fun h => by simp at h⟩
    · rw [hrest]
      simp
    · intro r hr
      rcases List.mem_cons.1 hr with rfl | hr
      · exact ⟨rfl, rfl⟩
      · exact hrows r hr

/-- The database before the chunks of a file. -/
theorem foldl_fileStatements (w : FileWork) (db : CodeDb R) :
    ∃ mid : CodeDb R, (Extractors.fileStatements w).foldl (fun db st => st db) db = mid ∧
      mid.files = (db.upsertFile w.row).files ∧
      mid.chunks = db.chunks.filter (·.path ≠ w.row.path) ∧
      mid.nextChunk = db.nextChunk ∧
      mid.embeddings = (db.deleteEmbeddingsForFile w.row.path).embeddings ∧
      mid.edges = (if w.edges.isSome then db.edges.filter (·.sourceFile ≠ w.row.path)
        else db.edges) ++ (w.edges.getD [] ++ w.mentions) := by
  obtain ⟨hchunks, hnext, hembeddings, hedges⟩ : (db.upsertFile w.row).chunks = db.chunks ∧
      (db.upsertFile w.row).nextChunk = db.nextChunk ∧
      (db.upsertFile w.row).embeddings = db.embeddings ∧
      (db.upsertFile w.row).edges = db.edges := by
    unfold CodeDb.upsertFile
    split <;> exact ⟨rfl, rfl, rfl, rfl⟩
  refine ⟨_, rfl, ?_⟩
  unfold Extractors.fileStatements
  rw [List.foldl_append, List.foldl_append, foldl_insertEdge]
  cases hw : w.edges with
  | none =>
    simp [CodeDb.deleteChunksForFile, CodeDb.deleteEmbeddingsForFile, hchunks, hnext, hembeddings,
      hedges]
  | some edges =>
    rw [List.foldl_cons, foldl_insertEdge]
    simp [CodeDb.deleteChunksForFile, CodeDb.deleteEmbeddingsForFile, CodeDb.deleteEdgesForFile,
      hchunks, hnext, hembeddings, hedges]

/-- The statements of a file. -/
theorem fileApplied_statements [Zero R] (w : FileWork) (db : CodeDb R) :
    FileApplied env w db ((Extractors.fileStatements w ++ env.chunkStatements w).foldl
      (fun db (st : CodeDb R → CodeDb R) => st db) db) := by
  obtain ⟨mid, hmid, hfiles, hmidChunks, -, hmidEmbeddings, hmidEdges⟩ := foldl_fileStatements w db
  have hpath : w.row.path ∈ mid.paths := by
    unfold CodeDb.paths
    rw [hfiles]
    exact mem_paths_upsertFile.2 (.inr rfl)
  obtain ⟨rows, next, hrows, hrow⟩ := foldl_chunkStatements env w hpath
  rw [List.foldl_append, hmid, hrows]
  exact ⟨hfiles, ⟨rows, by rw [hmidChunks], hrow.1, hrow.2⟩, hmidEmbeddings, hmidEdges⟩

theorem fileApplied_processFile [Zero R] {s : RunState R} {f : WalkedFile} {w : FileWork}
    (h : env.fileWork force s.db f = some w) :
    FileApplied env w s.db (env.processFile force s f).db := by
  have hdb : (env.processFile force s f).db =
      (Extractors.fileStatements w ++ env.chunkStatements w).foldl
        (fun db (st : CodeDb R → CodeDb R) => st db) s.db := by
    unfold Extractors.processFile
    rw [h]
    simp
  rw [hdb]
  exact fileApplied_statements env w s.db

theorem fileHash_upsertFile {db : CodeDb R} {f : FileRow} {q : String} (h : q ≠ f.path) :
    (db.upsertFile f).fileHash q = db.fileHash q := by
  unfold CodeDb.fileHash CodeDb.upsertFile
  split
  · have hfind : ∀ files : List FileRow,
        (files.map fun g => if g.path = f.path then f else g).find? (·.path = q) =
          files.find? (·.path = q) := by
      intro files
      induction files with
      | nil => rfl
      | cons g files ih =>
        rw [List.map_cons, List.find?_cons, List.find?_cons, ih]
        by_cases hg : g.path = f.path
        · simp [hg, h.symm]
        · simp [hg]
    simp only [hfind]
  · simp [List.find?_append, h.symm]

/-! ### The walk -/

section Files

variable [Zero R] (db₀ : CodeDb R)

/-- The run cuts a file under this path anew. -/
def Extractors.cuts (files : List WalkedFile) (q : String) : Bool :=
  files.any fun f => f.path = q && (env.fileWork force db₀ f).isSome

/-- The run replaces the edges of the file under this path. -/
def Extractors.replacesEdges (files : List WalkedFile) (q : String) : Bool :=
  files.any fun f => f.path = q && ((env.fileWork force db₀ f).bind FileWork.edges).isSome

/-- The edges a file gets. -/
def Extractors.newEdges (f : WalkedFile) : List EdgeRow :=
  match env.fileWork force db₀ f with
  | some w => w.edges.getD [] ++ w.mentions
  | none => []

/-- A file without chunks to store. -/
def Extractors.storesNothing (f : WalkedFile) : Prop :=
  ∀ w, env.fileWork force db₀ f = some w → env.storable w.chunks = []

/-- What a part of the walk has made of the database. -/
structure Parsed (done : List WalkedFile) (s : RunState R) : Prop where
  paths : ∀ q, q ∈ s.db.paths ↔ q ∈ db₀.paths ∨ env.cuts force db₀ done q = true
  hash : ∀ q, (∀ f ∈ done, f.path ≠ q) → s.db.fileHash q = db₀.fileHash q
  hasChunks : ∀ q, (∀ f ∈ done, f.path ≠ q) → s.db.fileHasChunks q = db₀.fileHasChunks q
  kept : ∀ c, env.cuts force db₀ done c.path = false → (c ∈ s.db.chunks ↔ c ∈ db₀.chunks)
  fresh : ∀ c ∈ s.db.chunks, env.cuts force db₀ done c.path = true → c.graphRank = 0
  embedded : ∀ c ∈ db₀.chunks, env.cuts force db₀ done c.path = false →
    (c.id ∈ s.db.embeddings ↔ c.id ∈ db₀.embeddings)
  edges : s.db.edges =
    db₀.edges.filter (fun e => !env.replacesEdges force db₀ done e.sourceFile) ++
      done.flatMap (env.newEdges force db₀)
  unstored : (∀ f ∈ done, env.storesNothing force db₀ f) →
    ∀ c ∈ s.db.chunks, env.cuts force db₀ done c.path = false
  out : s.out = [] ↔ ∀ f ∈ done, env.storesNothing force db₀ f

omit [Zero R] in
theorem cuts_concat (done : List WalkedFile) (f : WalkedFile) (q : String) :
    env.cuts force db₀ (done ++ [f]) q =
      (env.cuts force db₀ done q ||
        (decide (f.path = q) && (env.fileWork force db₀ f).isSome)) := by
  simp [Extractors.cuts]

omit [Zero R] in
theorem replacesEdges_concat (done : List WalkedFile) (f : WalkedFile) (q : String) :
    env.replacesEdges force db₀ (done ++ [f]) q =
      (env.replacesEdges force db₀ done q ||
        (decide (f.path = q) && ((env.fileWork force db₀ f).bind FileWork.edges).isSome)) := by
  simp [Extractors.replacesEdges]

omit [Zero R] in
/-- The edges of a part of the walk are in its files. -/
theorem sourceFile_newEdges {done : List WalkedFile} {e : EdgeRow}
    (he : e ∈ done.flatMap (env.newEdges force db₀)) : ∃ f ∈ done, f.path = e.sourceFile := by
  obtain ⟨f, hf, he⟩ := List.mem_flatMap.1 he
  unfold Extractors.newEdges at he
  split at he
  · next w hw => exact ⟨f, hf, ((fileWork_path env force hw).2 e he).symm⟩
  · exact absurd he List.not_mem_nil

variable {env force db₀}

theorem parsed_nil : Parsed env force db₀ [] (.start db₀) where
  paths q := by simp [Extractors.cuts, RunState.start]
  hash _ _ := rfl
  hasChunks _ _ := rfl
  kept _ _ := Iff.rfl
  fresh _ _ h := by simp [Extractors.cuts] at h
  embedded _ _ _ := Iff.rfl
  edges := by simp [Extractors.replacesEdges, RunState.start]
  unstored _ _ _ := by simp [Extractors.cuts]
  out := by simp [RunState.start]

/-- One file more. -/
theorem Parsed.concat {done : List WalkedFile} {s : RunState R} (h : Parsed env force db₀ done s)
    (hsound : Sound s.db) {f : WalkedFile} (hnew : ∀ g ∈ done, g.path ≠ f.path) :
    Parsed env force db₀ (done ++ [f]) (env.processFile force s f) := by
  have hsame : env.fileWork force s.db f = env.fileWork force db₀ f :=
    fileWork_congr env force (h.hash f.path hnew) (h.hasChunks f.path hnew)
  cases hw : env.fileWork force db₀ f with
  | none =>
    have hstate : env.processFile force s f = s := by
      unfold Extractors.processFile
      rw [hsame, hw]
    have hcuts : ∀ q, env.cuts force db₀ (done ++ [f]) q = env.cuts force db₀ done q := by
      intro q
      simp [cuts_concat, hw]
    have hreplaces : ∀ q, env.replacesEdges force db₀ (done ++ [f]) q =
        env.replacesEdges force db₀ done q := by
      intro q
      simp [replacesEdges_concat, hw]
    rw [hstate]
    refine ⟨fun q => by rw [hcuts]; exact h.paths q, fun q hq => h.hash q fun g hg =>
      hq g (List.mem_append_left _ hg), fun q hq => h.hasChunks q fun g hg =>
      hq g (List.mem_append_left _ hg), fun c hc => h.kept c (by rwa [hcuts] at hc),
      fun c hc hcut => h.fresh c hc (by rwa [hcuts] at hcut),
      fun c hc hcut => h.embedded c hc (by rwa [hcuts] at hcut), ?_, fun hnone c hc => ?_, ?_⟩
    · simp only [hreplaces]
      rw [h.edges]
      simp [Extractors.newEdges, hw]
    · rw [hcuts]
      exact h.unstored (fun g hg => hnone g (List.mem_append_left _ hg)) c hc
    · rw [h.out]
      simp [Extractors.storesNothing, hw, or_imp, forall_and]
  | some w =>
    obtain ⟨hpath, hedgePath⟩ := fileWork_path env force hw
    have hout : (env.processFile force s f).out =
        s.out ++ List.range' s.db.nextChunk (env.storable w.chunks).length := by
      unfold Extractors.processFile
      rw [hsame, hw]
    obtain ⟨hfiles, ⟨rows, hchunks, hrows, hnoRows⟩, hembeddings, hedges⟩ :=
      fileApplied_processFile env force (hsame.trans hw)
    rw [hpath] at hchunks hrows hembeddings hedges
    have hcuts : ∀ q, env.cuts force db₀ (done ++ [f]) q =
        (env.cuts force db₀ done q || decide (f.path = q)) := by
      intro q
      simp [cuts_concat, hw]
    have hself : env.cuts force db₀ done f.path = false := by
      unfold Extractors.cuts
      rw [List.any_eq_false]
      intro g hg
      simp [hnew g hg]
    have hmem : ∀ c : ChunkRow R, c ∈ (env.processFile force s f).db.chunks ↔
        (c ∈ s.db.chunks ∧ c.path ≠ f.path) ∨ c ∈ rows := by
      intro c
      rw [hchunks, List.mem_append, List.mem_filter]
      simp
    refine ⟨fun q => ?_, fun q hq => ?_, fun q hq => ?_, fun c hc => ?_, fun c hc hcut => ?_,
      fun c hc hcut => ?_, ?_, fun hnone c hc => ?_, ?_⟩
    · unfold CodeDb.paths
      rw [hfiles, hcuts, Bool.or_eq_true, decide_eq_true_eq]
      show q ∈ (s.db.upsertFile w.row).paths ↔ _
      rw [mem_paths_upsertFile, h.paths q, hpath, or_assoc]
      exact or_congr_right (or_congr_right eq_comm)
    · have hne : q ≠ w.row.path := hpath ▸ (hq f (by simp)).symm
      have hold := h.hash q fun g hg => hq g (List.mem_append_left _ hg)
      have hrow : (env.processFile force s f).db.fileHash q =
          (s.db.upsertFile w.row).fileHash q := by
        unfold CodeDb.fileHash
        rw [hfiles]
      rw [hrow, fileHash_upsertFile hne, hold]
    · have hne : f.path ≠ q := hq f (by simp)
      rw [← h.hasChunks q fun g hg => hq g (List.mem_append_left _ hg), Bool.eq_iff_iff]
      unfold CodeDb.fileHasChunks
      simp only [List.any_eq_true, decide_eq_true_eq]
      constructor
      · rintro ⟨c, hc, rfl⟩
        rcases (hmem c).1 hc with ⟨hc, -⟩ | hc
        · exact ⟨c, hc, rfl⟩
        · exact absurd (hrows c hc).1.symm hne
      · rintro ⟨c, hc, rfl⟩
        exact ⟨c, (hmem c).2 (.inl ⟨hc, hne.symm⟩), rfl⟩
    · rw [hcuts, Bool.or_eq_false_iff, decide_eq_false_iff_not] at hc
      rw [hmem, ← h.kept c hc.1]
      constructor
      · rintro (⟨hin, -⟩ | hin)
        · exact hin
        · exact absurd (hrows c hin).1.symm hc.2
      · exact fun hin => .inl ⟨hin, Ne.symm hc.2⟩
    · rcases (hmem c).1 hc with ⟨hin, hne⟩ | hin
      · rw [hcuts, Bool.or_eq_true, decide_eq_true_eq] at hcut
        exact h.fresh c hin (hcut.resolve_right hne.symm)
      · exact (hrows c hin).2
    · rw [hcuts, Bool.or_eq_false_iff, decide_eq_false_iff_not] at hcut
      rw [hembeddings, ← h.embedded c hc hcut.1]
      unfold CodeDb.deleteEmbeddingsForFile
      rw [List.mem_filter, decide_eq_true_eq]
      refine ⟨And.left, fun hin => ⟨hin, ?_⟩⟩
      -- The id is not one of a chunk that is deleted.
      rintro ⟨d, hd, hdpath, hid⟩
      have hsame := hsound.eq_of_id ((h.kept c hcut.1).2 hc) hd hid.symm
      exact hcut.2 (hsame ▸ hdpath.symm)
    · rw [hedges, h.edges]
      have hnewEdges : (done.flatMap (env.newEdges force db₀)).filter
          (fun e => decide (e.sourceFile ≠ f.path)) = done.flatMap (env.newEdges force db₀) := by
        refine List.filter_eq_self.2 fun e he => decide_eq_true ?_
        obtain ⟨g, hg, hgpath⟩ := sourceFile_newEdges env force db₀ he
        exact hgpath ▸ hnew g hg
      have hlast : (done ++ [f]).flatMap (env.newEdges force db₀) =
          done.flatMap (env.newEdges force db₀) ++ (w.edges.getD [] ++ w.mentions) := by
        simp [Extractors.newEdges, hw]
      rw [hlast]
      cases hwe : w.edges with
      | none =>
        simp [replacesEdges_concat, hw, hwe]
      | some edges =>
        rw [Option.isSome_some, if_pos rfl, List.filter_append, hnewEdges, List.filter_filter,
          List.append_assoc]
        congr 1
        refine List.filter_congr fun e _ => ?_
        simp [replacesEdges_concat, hw, hwe, Bool.and_comm, eq_comm]
    · rw [hcuts, Bool.or_eq_false_iff, decide_eq_false_iff_not]
      have hrowsNil := hnoRows (hnone f (by simp) w hw)
      rcases (hmem c).1 hc with ⟨hin, hne⟩ | hin
      · exact ⟨h.unstored (fun g hg => hnone g (List.mem_append_left _ hg)) c hin, hne.symm⟩
      · rw [hrowsNil] at hin
        exact absurd hin List.not_mem_nil
    · rw [hout, List.append_eq_nil_iff, h.out, List.range'_eq_nil_iff, List.length_eq_zero_iff]
      simp [Extractors.storesNothing, hw, or_imp, forall_and]

/-- The walk. -/
theorem parsed_files (hsound : Sound db₀) {files : List WalkedFile}
    (hnodup : (files.map WalkedFile.path).Nodup) :
    Parsed env force db₀ files (files.foldl (env.processFile force) (.start db₀)) ∧
      Sound (files.foldl (env.processFile force) (.start db₀)).db := by
  have hwalk : Parsed env force db₀ files (files.foldl (env.processFile force) (.start db₀)) ∧
      Along Sound (files.foldl (env.processFile force) (.start db₀)) := by
    induction files using List.reverseRecOn with
    | nil => exact ⟨parsed_nil, Along.start hsound⟩
    | append_singleton done f ih =>
      rw [List.map_append, List.nodup_append] at hnodup
      obtain ⟨hparsed, halong⟩ := ih hnodup.1
      rw [List.foldl_append, List.foldl_cons, List.foldl_nil]
      refine ⟨hparsed.concat halong.1 fun g hg => ?_, along_processFile env halong f⟩
      exact hnodup.2.2 _ (List.mem_map_of_mem hg) _ (List.mem_singleton_self _)
  exact ⟨hwalk.1, hwalk.2.1⟩

end Files

end Walk

/-! ### Files that are gone -/

/-- The removal of one file. -/
theorem foldl_deleteFile (db : CodeDb R) (p : String) :
    (deleteFile p).foldl (fun db (st : CodeDb R → CodeDb R) => st db) db =
      { db with
        files := db.files.filter (·.path ≠ p)
        chunks := db.chunks.filter (·.path ≠ p)
        embeddings := (db.deleteEmbeddingsForFile p).embeddings
        edges := db.edges.filter (·.sourceFile ≠ p) } := by
  simp [deleteFile, CodeDb.deleteEmbeddingsForFile, CodeDb.deleteChunksForFile,
    CodeDb.deleteEdgesForFile, CodeDb.deleteFileRow, List.filter_filter]

/-- What the removal of some files makes of the database. -/
structure Removed (stale : List String) (db db' : CodeDb R) : Prop where
  chunks : db'.chunks = db.chunks.filter (·.path ∉ stale)
  edges : db'.edges = db.edges.filter (·.sourceFile ∉ stale)
  paths : ∀ q, q ∈ db'.paths ↔ q ∈ db.paths ∧ q ∉ stale
  embedded : ∀ c ∈ db.chunks, c.path ∉ stale → (c.id ∈ db'.embeddings ↔ c.id ∈ db.embeddings)

theorem removed_files {db : CodeDb R} (h : Sound db) (stale : List String) :
    Removed stale db ((stale.flatMap deleteFile).foldl
      (fun db (st : CodeDb R → CodeDb R) => st db) db) := by
  induction stale generalizing db with
  | nil => exact ⟨by simp, by simp, by simp, fun _ _ _ => Iff.rfl⟩
  | cons p stale ih =>
    rw [List.flatMap_cons, List.foldl_append]
    have hsound : Sound ((deleteFile p).foldl (fun db (st : CodeDb R → CodeDb R) => st db) db) := by
      have halong := (Along.start h).execAll (l := deleteFile p)
        fun st hst _ hdb => hdb.of_mem_deleteFile hst
      have := halong.1
      rwa [execAll_db] at this
    obtain ⟨hchunks, hedges, hpaths, hembedded⟩ := ih hsound
    rw [foldl_deleteFile] at hchunks hedges hpaths hembedded ⊢
    refine ⟨?_, ?_, fun q => ?_, fun c hc hpath => ?_⟩
    · rw [hchunks, List.filter_filter]
      refine List.filter_congr fun c _ => ?_
      simp [Bool.and_comm]
    · rw [hedges, List.filter_filter]
      refine List.filter_congr fun e _ => ?_
      simp [Bool.and_comm]
    · rw [hpaths]
      have hfilter : q ∈ (db.files.filter (·.path ≠ p)).map FileRow.path ↔
          q ∈ db.paths ∧ q ≠ p := by
        simp only [List.mem_map, List.mem_filter, CodeDb.paths, decide_eq_true_eq]
        constructor
        · rintro ⟨f, ⟨hf, hne⟩, rfl⟩
          exact ⟨⟨f, hf, rfl⟩, hne⟩
        · rintro ⟨⟨f, hf, rfl⟩, hne⟩
          exact ⟨f, ⟨hf, hne⟩, rfl⟩
      show q ∈ (db.files.filter (·.path ≠ p)).map FileRow.path ∧ q ∉ stale ↔ _
      rw [hfilter, List.mem_cons, not_or, and_assoc]
    · rw [List.mem_cons, not_or] at hpath
      rw [hembedded c (List.mem_filter.2 ⟨hc, decide_eq_true hpath.1⟩) hpath.2]
      show c.id ∈ (db.deleteEmbeddingsForFile p).embeddings ↔ _
      unfold CodeDb.deleteEmbeddingsForFile
      rw [List.mem_filter, decide_eq_true_eq]
      refine ⟨And.left, fun hin => ⟨hin, ?_⟩⟩
      rintro ⟨d, hd, hdpath, hid⟩
      exact hpath.1 ((h.eq_of_id hd hc hid) ▸ hdpath)

/-- The removal of the files that are not in the walk. -/
theorem removeStale_rows {s : RunState R} (h : Sound s.db) (files : List WalkedFile) :
    Removed (s.db.paths.filter (· ∉ files.map WalkedFile.path)) s.db (removeStale files s).db ∧
      ∀ c, c ∈ (removeStale files s).db.chunks ↔
        c ∈ s.db.chunks ∧ c.path ∈ files.map WalkedFile.path := by
  have hdb : (removeStale files s).db =
      ((s.db.paths.filter (· ∉ files.map WalkedFile.path)).flatMap deleteFile).foldl
        (fun db (st : CodeDb R → CodeDb R) => st db) s.db := execAll_db _ _
  have hremoved := removed_files h (s.db.paths.filter (· ∉ files.map WalkedFile.path))
  rw [← hdb] at hremoved
  refine ⟨hremoved, fun c => ?_⟩
  rw [hremoved.chunks, List.mem_filter, decide_eq_true_eq, List.mem_filter, decide_eq_true_eq,
    not_and_or, not_not, or_comm]
  exact and_congr_right fun hc => or_iff_left (not_not.2 (h.filed c hc))

end Spelunk
