import Spelunk.Theory.ParseRows

/-!
# What a Complete Run Leaves

A complete plain run over a walk brings the index to what a fresh index of that walk has,
in exactly the cases named here. A file that is passed over keeps what is stored under its
path, whatever that is: the row of a file is written before its chunks, so its hash says
nothing about them. A file without edges of its own keeps the edges that are stored. And a
walk without files removes nothing.

## Main definitions

* `Shelf`, `CodeDb.shelf`: What is stored under a path.
* `TreeHistory`: Plain runs, each left after any statement, and embeddings between them.
* `Tidy`: What every history keeps.
* `Converged`: The index is that of a fresh run.
* `Settled`: The condition on the index before the run.

## Theorems

* `tidy_of_history`: Every history keeps it.
* `convergenceLaw`: The law of the complete run.
* `notConverged_killed`: A run that is killed between two chunks.
-/

namespace Spelunk

open CodeDb RunState

variable {R : Type}

/-- A chunk without its id and its rank. -/
def ChunkRow.stored (c : ChunkRow R) : ParsedChunk × ℕ :=
  (⟨c.nodeType, c.name, c.startLine, c.endLine, c.content, c.docstring, c.parentScope⟩,
    c.tokenCount)

/-- What is stored under a path. -/
structure Shelf where
  rows : List FileRow
  chunks : List (ParsedChunk × ℕ)
  edges : List EdgeRow
deriving DecidableEq

def Shelf.empty : Shelf := ⟨[], [], []⟩

def CodeDb.shelf (db : CodeDb R) (p : String) : Shelf where
  rows := db.files.filter (·.path = p)
  chunks := (db.chunks.filter (·.path = p)).map ChunkRow.stored
  edges := db.edges.filter (·.sourceFile = p)

/-- What a file leaves under its path, over the edges that were there. -/
def Extractors.shelve (env : Extractors) (w : FileWork) (old : List EdgeRow) : Shelf where
  rows := [w.row]
  chunks := (env.storable w.chunks).map fun c => (c, env.estimateTokens c.content)
  edges := (if w.edges.isSome then [] else old) ++ (w.edges.getD [] ++ w.mentions)

/-- Plain runs of the parse phase, each of which may be killed after any statement, and embeddings
    of chunks that wait for one. -/
inductive TreeHistory [Zero R] (env : Extractors) : CodeDb R → Prop where
  | empty : TreeHistory env .empty
  | parse {db db' : CodeDb R} (files : List WalkedFile) (h : TreeHistory env db)
      (hnodup : (files.map WalkedFile.path).Nodup)
      (hmem : db' ∈ (env.runParsePhase false files db).1.trace) : TreeHistory env db'
  | embed {db : CodeDb R} (ids : List ℕ) (h : TreeHistory env db)
      (hids : ∀ id ∈ ids, id ∈ db.chunksMissingEmbeddings) :
      TreeHistory env (db.insertEmbeddings ids)

/-! ### What every history keeps -/

/-- Every path has one row, every edge a file, and every embedding a chunk. -/
structure Tidy (db : CodeDb R) : Prop where
  sound : Sound db
  once : db.paths.Nodup
  filed : ∀ e ∈ db.edges, e.sourceFile ∈ db.paths
  owned : ∀ id ∈ db.embeddings, ∃ c ∈ db.chunks, c.id = id

theorem tidy_empty : Tidy (empty : CodeDb R) where
  sound := sound_empty
  once := List.nodup_nil
  filed _ h := absurd h List.not_mem_nil
  owned _ h := absurd h List.not_mem_nil

/-- No embedding is one of a chunk of the file. -/
def Bare (p : String) (db : CodeDb R) : Prop :=
  ∀ c ∈ db.chunks, c.path = p → c.id ∉ db.embeddings

/-- The file has no chunk. -/
def Chunkless (p : String) (db : CodeDb R) : Prop := ∀ c ∈ db.chunks, c.path ≠ p

/-- The file has no edge. -/
def Unlinked (p : String) (db : CodeDb R) : Prop := ∀ e ∈ db.edges, e.sourceFile ≠ p

section Statements

variable {db : CodeDb R}

theorem paths_upsertFile (f : FileRow) :
    (db.upsertFile f).paths = if f.path ∈ db.paths then db.paths else db.paths ++ [f.path] := by
  unfold CodeDb.upsertFile
  split
  · unfold CodeDb.paths
    rw [List.map_map]
    refine List.map_congr_left fun g _ => ?_
    by_cases hg : g.path = f.path <;> simp [hg]
  · simp [CodeDb.paths]

theorem rest_upsertFile (db : CodeDb R) (f : FileRow) : (db.upsertFile f).chunks = db.chunks ∧
    (db.upsertFile f).embeddings = db.embeddings ∧ (db.upsertFile f).edges = db.edges := by
  unfold CodeDb.upsertFile
  split <;> exact ⟨rfl, rfl, rfl⟩

theorem Tidy.upsertFile (h : Tidy db) (f : FileRow) :
    Tidy (db.upsertFile f) ∧ f.path ∈ (db.upsertFile f).paths := by
  obtain ⟨hchunks, hembeddings, hedges⟩ := rest_upsertFile db f
  refine ⟨⟨h.sound.upsertFile f, ?_, fun e he => ?_, ?_⟩, mem_paths_upsertFile.2 (.inr rfl)⟩
  · rw [paths_upsertFile]
    split
    · exact h.once
    · next hnew =>
      refine List.nodup_append.2 ⟨h.once, List.nodup_singleton _, ?_⟩
      rintro p hp q hq rfl
      rw [List.mem_singleton.1 hq] at hp
      exact hnew hp
  · rw [hedges] at he
    exact mem_paths_upsertFile.2 (.inl (h.filed e he))
  · rw [hchunks, hembeddings]
    exact h.owned

theorem Tidy.deleteEmbeddingsForFile (h : Tidy db) (p : String) :
    Tidy (db.deleteEmbeddingsForFile p) ∧ Bare p (db.deleteEmbeddingsForFile p) := by
  refine ⟨⟨h.sound.deleteEmbeddingsForFile p, h.once, h.filed, fun id hid => ?_⟩, ?_⟩
  · exact h.owned id (List.mem_of_mem_filter hid)
  · intro c hc hpath hid
    have hnot := (List.mem_filter.1 hid).2
    rw [decide_eq_true_eq] at hnot
    exact hnot ⟨c, hc, hpath, rfl⟩

theorem Tidy.deleteChunksForFile (h : Tidy db) {p : String} (hbare : Bare p db) :
    Tidy (db.deleteChunksForFile p) ∧ Chunkless p (db.deleteChunksForFile p) := by
  refine ⟨⟨h.sound.deleteChunksForFile p, h.once, h.filed, fun id hid => ?_⟩, fun c hc => ?_⟩
  · obtain ⟨c, hc, rfl⟩ := h.owned id hid
    refine ⟨c, List.mem_filter.2 ⟨hc, decide_eq_true fun hpath => ?_⟩, rfl⟩
    exact hbare c hc hpath hid
  · exact of_decide_eq_true (List.mem_filter.1 hc).2

theorem Tidy.deleteEdgesForFile (h : Tidy db) (p : String) :
    Tidy (db.deleteEdgesForFile p) ∧ Unlinked p (db.deleteEdgesForFile p) :=
  ⟨⟨h.sound.deleteEdgesForFile p, h.once, fun e he => h.filed e (List.mem_of_mem_filter he),
    h.owned⟩, fun _ he => of_decide_eq_true (List.mem_filter.1 he).2⟩

theorem Tidy.deleteFileRow (h : Tidy db) {p : String} (hchunkless : Chunkless p db)
    (hunlinked : Unlinked p db) : Tidy (db.deleteFileRow p) := by
  have hpaths : ∀ q, q ≠ p → q ∈ db.paths → q ∈ (db.deleteFileRow p).paths := by
    intro q hq hmem
    obtain ⟨f, hf, rfl⟩ := List.mem_map.1 hmem
    exact List.mem_map.2 ⟨f, List.mem_filter.2 ⟨hf, decide_eq_true hq⟩, rfl⟩
  refine ⟨h.sound.deleteFileRow p, ?_, fun e he => ?_, fun id hid => ?_⟩
  · exact (List.filter_sublist.map FileRow.path).nodup h.once
  · exact hpaths _ (hunlinked e he) (h.filed e he)
  · obtain ⟨c, hc, rfl⟩ := h.owned id hid
    exact ⟨c, List.mem_filter.2 ⟨hc, decide_eq_true (hchunkless c hc)⟩, rfl⟩

theorem Tidy.insertEdge (h : Tidy db) {e : EdgeRow} (he : e.sourceFile ∈ db.paths) :
    Tidy (db.insertEdge e) := by
  refine ⟨h.sound.insertEdge e, h.once, fun e' he' => ?_, h.owned⟩
  rcases List.mem_append.1 he' with he' | he'
  · exact h.filed e' he'
  · rw [List.mem_singleton.1 he']
    exact he

theorem Tidy.insertChunk (h : Tidy db) {c : ℕ → ChunkRow R} (hid : ∀ id, (c id).id = id) :
    Tidy (db.insertChunk c) := by
  refine ⟨h.sound.insertChunk hid, ?_, ?_, ?_⟩
  all_goals
    unfold CodeDb.insertChunk
    split
  · exact h.once
  · exact h.once
  · exact h.filed
  · exact h.filed
  · intro id hmem
    obtain ⟨d, hd, rfl⟩ := h.owned id hmem
    exact ⟨d, List.mem_append_left _ hd, rfl⟩
  · exact h.owned

theorem Tidy.insertEmbeddings (h : Tidy db) {ids : List ℕ}
    (hids : ∀ id ∈ ids, id ∈ db.chunksMissingEmbeddings) : Tidy (db.insertEmbeddings ids) := by
  refine ⟨h.sound.insertEmbeddings ids, h.once, h.filed, fun id hid => ?_⟩
  rcases List.mem_append.1 hid with hid | hid
  · exact h.owned id hid
  · obtain ⟨c, hc, rfl⟩ := List.mem_map.1 (hids id (List.mem_of_mem_filter hid))
    exact ⟨c, List.mem_of_mem_filter hc, rfl⟩

end Statements

/-! ### Tidy runs -/

section Runs

variable {I J : CodeDb R → Prop} {s : RunState R}

/-- One statement that keeps the invariant here. -/
theorem RunState.Along.exec_of (h : Along I s) {st : CodeDb R → CodeDb R} (hst : I (st s.db)) :
    Along I (s.exec st) := by
  refine ⟨hst, fun db hdb => ?_⟩
  rcases List.mem_append.1 hdb with hdb | hdb
  · exact h.2 db hdb
  · rw [List.mem_singleton.1 hdb]
    exact hst

/-- Statements that keep a stronger property of the present state. -/
theorem RunState.Along.execAll_of (h : Along I s) {l : List (CodeDb R → CodeDb R)} (hJ : J s.db)
    (hst : ∀ st ∈ l, ∀ db, J db → J (st db)) (hJI : ∀ db, J db → I db) :
    Along I (s.execAll l) ∧ J (s.execAll l).db := by
  induction l generalizing s with
  | nil => exact ⟨h, hJ⟩
  | cons st l ih =>
    rw [execAll_cons]
    have hnext := hst st List.mem_cons_self _ hJ
    exact ih (h.exec_of (hJI _ hnext)) hnext fun st' hst' => hst st' (List.mem_cons_of_mem _ hst')

/-- Tidy, and with the row of a file. -/
def TidyWith (p : String) (db : CodeDb R) : Prop := Tidy db ∧ p ∈ db.paths

variable (env : Extractors)

theorem tidy_processFile [Zero R] {force : Bool} (h : Along Tidy s) (f : WalkedFile) :
    Along Tidy (env.processFile force s f) := by
  unfold Extractors.processFile
  cases hw : env.fileWork force s.db f with
  | none => exact h
  | some w =>
    obtain ⟨hpath, hedges⟩ := fileWork_path env force hw
    -- The row, the embeddings and the chunks of the file.
    have hrow := h.1.upsertFile w.row
    have h1 := h.exec_of hrow.1
    have hbare := hrow.1.deleteEmbeddingsForFile w.row.path
    have h2 := h1.exec_of hbare.1
    have hcut := (hbare.1.deleteChunksForFile hbare.2).1
    have h3 := h2.exec_of hcut
    have hedge : ∀ e ∈ w.edges.getD [] ++ w.mentions, ∀ db : CodeDb R, TidyWith w.row.path db →
        TidyWith w.row.path (db.insertEdge e) := by
      intro e he db hdb
      refine ⟨hdb.1.insertEdge ?_, hdb.2⟩
      rw [hedges e he, ← hpath]
      exact hdb.2
    have hrest : ∀ st ∈ (w.edges.elim [] fun edges =>
        CodeDb.deleteEdgesForFile w.row.path :: edges.map CodeDb.insertEdge) ++
          w.mentions.map CodeDb.insertEdge ++ env.chunkStatements w,
        ∀ db : CodeDb R, TidyWith w.row.path db → TidyWith w.row.path (st db) := by
      intro st hst db hdb
      rcases List.mem_append.1 hst with hst | hst
      · rcases List.mem_append.1 hst with hst | hst
        · cases hwe : w.edges with
          | none =>
            rw [hwe] at hst
            exact absurd hst List.not_mem_nil
          | some edges =>
            rw [hwe] at hst
            rcases List.mem_cons.1 hst with rfl | hst
            · exact ⟨(hdb.1.deleteEdgesForFile _).1, hdb.2⟩
            · obtain ⟨e, he, rfl⟩ := List.mem_map.1 hst
              exact hedge e (by simp [hwe, he]) db hdb
        · obtain ⟨e, he, rfl⟩ := List.mem_map.1 hst
          exact hedge e (by simp [he]) db hdb
      · obtain ⟨c, -, rfl⟩ := List.mem_map.1 hst
        refine ⟨hdb.1.insertChunk fun _ => rfl, ?_⟩
        unfold CodeDb.insertChunk
        split <;> exact hdb.2
    have hall := (h3.execAll_of (J := TidyWith w.row.path) ⟨hcut, hrow.2⟩ hrest
      fun _ hdb => hdb.1).1
    have hsplit : (s.execAll (Extractors.fileStatements w)).execAll (env.chunkStatements w) =
        (((s.exec (CodeDb.upsertFile w.row)).exec
          (CodeDb.deleteEmbeddingsForFile w.row.path)).exec
          (CodeDb.deleteChunksForFile w.row.path)).execAll
            ((w.edges.elim [] fun edges =>
              CodeDb.deleteEdgesForFile w.row.path :: edges.map CodeDb.insertEdge) ++
                w.mentions.map CodeDb.insertEdge ++ env.chunkStatements w) := by
      unfold Extractors.fileStatements RunState.execAll
      cases w.edges <;>
        simp only [Option.elim, List.foldl_append, List.foldl_cons, List.foldl_nil]
    simp only [hsplit]
    exact hall

/-- The removal of one file. -/
theorem tidy_deleteFile (h : Along Tidy s) (p : String) :
    Along Tidy (s.execAll (deleteFile p)) := by
  have hbare := h.1.deleteEmbeddingsForFile p
  have h1 := h.exec_of hbare.1
  have hcut := hbare.1.deleteChunksForFile hbare.2
  have h2 := h1.exec_of hcut.1
  have hlink := hcut.1.deleteEdgesForFile p
  have h3 := h2.exec_of hlink.1
  exact h3.exec_of (hlink.1.deleteFileRow hcut.2 hlink.2)

theorem tidy_deleteFiles (stale : List String) (h : Along Tidy s) :
    Along Tidy (s.execAll (stale.flatMap deleteFile)) := by
  induction stale generalizing s with
  | nil => exact h
  | cons p stale ih =>
    have hsplit : s.execAll ((p :: stale).flatMap deleteFile) =
        (s.execAll (deleteFile p)).execAll (stale.flatMap deleteFile) := by
      unfold RunState.execAll
      rw [List.flatMap_cons, List.foldl_append]
    rw [hsplit]
    exact ih (tidy_deleteFile h p)

/-- The walk. -/
theorem tidy_files [Zero R] {db : CodeDb R} (h : Tidy db) (force : Bool)
    (files : List WalkedFile) :
    Along Tidy (files.foldl (env.processFile force) (.start db)) := by
  induction files using List.reverseRecOn with
  | nil => exact Along.start h
  | append_singleton done f ih =>
    rw [List.foldl_append]
    exact tidy_processFile env ih f

theorem tidy_runParsePhase [Zero R] {db : CodeDb R} (h : Tidy db) (force : Bool)
    (files : List WalkedFile) : Along Tidy (env.runParsePhase force files db).1 := by
  unfold Extractors.runParsePhase
  split
  · exact Along.start h
  · exact tidy_deleteFiles _ (tidy_files env h force files)

/-- Every history keeps it. -/
theorem tidy_of_history [Zero R] {db : CodeDb R} (h : TreeHistory env db) : Tidy db := by
  induction h with
  | empty => exact tidy_empty
  | parse files _ _ hmem ih => exact (tidy_runParsePhase env ih false files).2 _ hmem
  | embed ids _ hids ih => exact ih.insertEmbeddings hids

end Runs

/-! ### What is stored under a path -/

section Shelves

variable (env : Extractors) {db : CodeDb R}

theorem rows_upsertFile (honce : db.paths.Nodup) (f : FileRow) (q : String) :
    (db.upsertFile f).files.filter (·.path = q) =
      if q = f.path then [f] else db.files.filter (·.path = q) := by
  have hmap : ∀ files : List FileRow, q ≠ f.path →
      (files.map fun g => if g.path = f.path then f else g).filter (·.path = q) =
        files.filter (·.path = q) := by
    intro files hq
    induction files with
    | nil => rfl
    | cons g files ih =>
      rw [List.map_cons, List.filter_cons, List.filter_cons, ih]
      by_cases hg : g.path = f.path
      · simp [hg, hq.symm]
      · simp [hg]
  have hnone : ∀ files : List FileRow, f.path ∉ files.map FileRow.path →
      files.filter (·.path = f.path) = [] := by
    intro files hmem
    refine List.filter_eq_nil_iff.2 fun g hg => ?_
    rw [decide_eq_true_eq]
    exact fun he => hmem (List.mem_map.2 ⟨g, hg, he⟩)
  have hone : ∀ files : List FileRow, (files.map FileRow.path).Nodup →
      f.path ∈ files.map FileRow.path →
      (files.map fun g => if g.path = f.path then f else g).filter (·.path = f.path) = [f] := by
    intro files hnodup hmem
    induction files with
    | nil => exact absurd hmem List.not_mem_nil
    | cons g files ih =>
      rw [List.map_cons, List.nodup_cons] at hnodup
      rw [List.map_cons, List.filter_cons]
      by_cases hg : g.path = f.path
      · have hrest : files.map (fun g => if g.path = f.path then f else g) = files := by
          refine (List.map_congr_left fun h hh => ?_).trans (List.map_id files)
          refine if_neg fun he => hnodup.1 ?_
          exact List.mem_map.2 ⟨h, hh, he.trans hg.symm⟩
        rw [hrest, hnone files (hg ▸ hnodup.1)]
        simp [hg]
      · have hin : f.path ∈ files.map FileRow.path := by
          rcases List.mem_cons.1 hmem with he | he
          · exact absurd he.symm hg
          · exact he
        rw [ih hnodup.2 hin]
        simp [hg]
  unfold CodeDb.upsertFile
  by_cases hq : q = f.path
  · subst hq
    rw [if_pos rfl]
    split
    · next hmem => exact hone db.files honce hmem
    · next hnew =>
      rw [List.filter_append, hnone db.files hnew]
      simp
  · rw [if_neg hq]
    split
    · exact hmap db.files hq
    · rw [List.filter_append]
      simp [Ne.symm hq]

theorem stored_chunkStatements [Zero R] (w : FileWork) (h : w.row.path ∈ db.paths) :
    ∃ rows next, (env.chunkStatements w).foldl (fun db (st : CodeDb R → CodeDb R) => st db) db =
      { db with chunks := db.chunks ++ rows, nextChunk := next } ∧
      (∀ r ∈ rows, r.path = w.row.path) ∧
      rows.map ChunkRow.stored =
        (env.storable w.chunks).map fun c => (c, env.estimateTokens c.content) := by
  unfold Extractors.chunkStatements
  generalize env.storable w.chunks = chunks
  induction chunks generalizing db with
  | nil => exact ⟨[], db.nextChunk, by simp, fun r hr => absurd hr List.not_mem_nil, rfl⟩
  | cons c chunks ih =>
    have hone : CodeDb.insertChunk (env.chunkRow w.row.path c) db =
        { db with
          chunks := db.chunks ++ [env.chunkRow w.row.path c db.nextChunk]
          nextChunk := db.nextChunk + 1 } := if_pos h
    rw [List.map_cons, List.foldl_cons, hone]
    have hpath : w.row.path ∈ CodeDb.paths { db with
        chunks := db.chunks ++ [env.chunkRow w.row.path c db.nextChunk]
        nextChunk := db.nextChunk + 1 } := h
    obtain ⟨rows, next, hrest, hrows, hstored⟩ := ih hpath
    refine ⟨env.chunkRow w.row.path c db.nextChunk :: rows, next, ?_, ?_, ?_⟩
    · rw [hrest]
      simp
    · intro r hr
      rcases List.mem_cons.1 hr with rfl | hr
      · rfl
      · exact hrows r hr
    · rw [List.map_cons, List.map_cons, hstored]
      rfl

/-- The chunks after the statements of a file. -/
theorem chunks_statements [Zero R] (w : FileWork) (db : CodeDb R) :
    ∃ rows, ((Extractors.fileStatements w ++ env.chunkStatements w).foldl
        (fun db (st : CodeDb R → CodeDb R) => st db) db).chunks =
        db.chunks.filter (·.path ≠ w.row.path) ++ rows ∧
      (∀ r ∈ rows, r.path = w.row.path) ∧
      rows.map ChunkRow.stored =
        (env.storable w.chunks).map fun c => (c, env.estimateTokens c.content) := by
  obtain ⟨hchunks, -, -⟩ := rest_upsertFile db w.row
  obtain ⟨mid, hmid, hfiles, hmidChunks⟩ : ∃ mid : CodeDb R,
      (Extractors.fileStatements w).foldl (fun db st => st db) db = mid ∧
      mid.files = (db.upsertFile w.row).files ∧
      mid.chunks = db.chunks.filter (·.path ≠ w.row.path) := by
    refine ⟨_, rfl, ?_⟩
    unfold Extractors.fileStatements
    rw [List.foldl_append, List.foldl_append, foldl_insertEdge]
    cases hw : w.edges with
    | none => simp [CodeDb.deleteChunksForFile, CodeDb.deleteEmbeddingsForFile, hchunks]
    | some edges =>
      rw [List.foldl_cons, foldl_insertEdge]
      simp [CodeDb.deleteChunksForFile, CodeDb.deleteEmbeddingsForFile, CodeDb.deleteEdgesForFile,
        hchunks]
  have hpath : w.row.path ∈ mid.paths := by
    unfold CodeDb.paths
    rw [hfiles]
    exact mem_paths_upsertFile.2 (.inr rfl)
  obtain ⟨rows, next, hrows, hrow, hstored⟩ := stored_chunkStatements env w hpath
  rw [List.foldl_append, hmid, hrows]
  exact ⟨rows, by rw [hmidChunks], hrow, hstored⟩

/-- The statements of a file change what is stored under its path, and nothing else. -/
theorem shelf_statements [Zero R] (w : FileWork) (honce : db.paths.Nodup)
    (hedgePath : ∀ e ∈ w.edges.getD [] ++ w.mentions, e.sourceFile = w.row.path) (q : String) :
    ((Extractors.fileStatements w ++ env.chunkStatements w).foldl
        (fun db (st : CodeDb R → CodeDb R) => st db) db).shelf q =
      if q = w.row.path then env.shelve w (db.shelf q).edges else db.shelf q := by
  have happlied := fileApplied_statements env w db
  obtain ⟨rows, hchunks, hrows, hstored⟩ := chunks_statements env w db
  generalize (Extractors.fileStatements w ++ env.chunkStatements w).foldl
    (fun db (st : CodeDb R → CodeDb R) => st db) db = db' at *
  have hfiles := rows_upsertFile honce w.row q
  rw [← happlied.files] at hfiles
  unfold CodeDb.shelf Extractors.shelve
  rw [hfiles, hchunks, happlied.edges]
  by_cases hq : q = w.row.path
  · subst hq
    have hold : (db.chunks.filter fun c => decide (c.path ≠ w.row.path)).filter
        (fun c => decide (c.path = w.row.path)) = [] := by
      simp [List.filter_filter]
    have hnew : rows.filter (fun c => decide (c.path = w.row.path)) = rows :=
      List.filter_eq_self.2 fun r hr => decide_eq_true (hrows r hr)
    have hnewEdges : (w.edges.getD [] ++ w.mentions).filter
        (fun e => decide (e.sourceFile = w.row.path)) = w.edges.getD [] ++ w.mentions :=
      List.filter_eq_self.2 fun e he => decide_eq_true (hedgePath e he)
    rw [if_pos rfl, if_pos rfl, List.filter_append, hold, hnew, List.nil_append, hstored,
      List.filter_append, hnewEdges]
    congr 2
    split
    · simp [List.filter_filter]
    · rfl
  · have hnew : rows.filter (fun c => decide (c.path = q)) = [] :=
      List.filter_eq_nil_iff.2 fun r hr => by simp [hrows r hr, Ne.symm hq]
    have hnewEdges : (w.edges.getD [] ++ w.mentions).filter
        (fun e => decide (e.sourceFile = q)) = [] :=
      List.filter_eq_nil_iff.2 fun e he => by simp [hedgePath e he, Ne.symm hq]
    have hold : (db.chunks.filter fun c => decide (c.path ≠ w.row.path)).filter
        (fun c => decide (c.path = q)) = db.chunks.filter (fun c => decide (c.path = q)) := by
      rw [List.filter_filter]
      refine List.filter_congr fun c _ => ?_
      by_cases hc : c.path = q <;> simp [hc, hq]
    have holdEdges : (db.edges.filter fun e => decide (e.sourceFile ≠ w.row.path)).filter
        (fun e => decide (e.sourceFile = q)) =
          db.edges.filter (fun e => decide (e.sourceFile = q)) := by
      rw [List.filter_filter]
      refine List.filter_congr fun e _ => ?_
      by_cases he : e.sourceFile = q <;> simp [he, hq]
    rw [if_neg hq, if_neg hq, List.filter_append, hold, hnew, List.append_nil, List.filter_append,
      hnewEdges, List.append_nil]
    split
    · rw [holdEdges]
    · rfl

/-- What a run leaves under the path of a file of the walk. -/
def Extractors.outcome (force : Bool) (db : CodeDb R) (f : WalkedFile) : Shelf :=
  match env.fileWork force db f with
  | none => db.shelf f.path
  | some w => env.shelve w (db.shelf f.path).edges

/-- The walk. -/
theorem shelf_files [Zero R] (htidy : Tidy db) (force : Bool) {files : List WalkedFile}
    (hnodup : (files.map WalkedFile.path).Nodup) :
    (∀ q, (∀ f ∈ files, f.path ≠ q) →
      (files.foldl (env.processFile force) (.start db)).db.shelf q = db.shelf q) ∧
    ∀ f ∈ files, (files.foldl (env.processFile force) (.start db)).db.shelf f.path =
      env.outcome force db f := by
  induction files using List.reverseRecOn with
  | nil => exact ⟨fun _ _ => rfl, fun f hf => absurd hf List.not_mem_nil⟩
  | append_singleton done f ih =>
    rw [List.map_append, List.nodup_append] at hnodup
    obtain ⟨hother, hdone⟩ := ih hnodup.1
    have hnew : ∀ g ∈ done, g.path ≠ f.path := fun g hg =>
      hnodup.2.2 _ (List.mem_map_of_mem hg) _ (List.mem_singleton_self _)
    have hparsed : Parsed env force db done (done.foldl (env.processFile force) (.start db)) :=
      (parsed_files htidy.sound hnodup.1).1
    have hwalk : Along Tidy (done.foldl (env.processFile force) (.start db)) :=
      tidy_files env htidy force done
    rw [List.foldl_append, List.foldl_cons, List.foldl_nil]
    generalize done.foldl (env.processFile force) (.start db) = s at *
    have hsame : env.fileWork force s.db f = env.fileWork force db f :=
      fileWork_congr env force (hparsed.hash f.path hnew) (hparsed.hasChunks f.path hnew)
    cases hw : env.fileWork force db f with
    | none =>
      have hstate : env.processFile force s f = s := by
        unfold Extractors.processFile
        rw [hsame, hw]
      rw [hstate]
      refine ⟨fun q hq => hother q fun g hg => hq g (List.mem_append_left _ hg), fun g hg => ?_⟩
      rcases List.mem_append.1 hg with hg | hg
      · exact hdone g hg
      · rw [List.mem_singleton.1 hg, hother f.path hnew, Extractors.outcome, hw]
    | some w =>
      obtain ⟨hpath, hedgePath⟩ := fileWork_path env force hw
      have hstate : (env.processFile force s f).db =
          (Extractors.fileStatements w ++ env.chunkStatements w).foldl
            (fun db (st : CodeDb R → CodeDb R) => st db) s.db := by
        unfold Extractors.processFile
        rw [hsame, hw]
        simp
      have hshelf := shelf_statements env w hwalk.1.once (by rwa [hpath])
      rw [← hstate] at hshelf
      refine ⟨fun q hq => ?_, fun g hg => ?_⟩
      · rw [hshelf, if_neg (hpath ▸ (hq f (by simp)).symm)]
        exact hother q fun g hg => hq g (List.mem_append_left _ hg)
      · rcases List.mem_append.1 hg with hg | hg
        · rw [hshelf, if_neg (hpath ▸ hnew g hg)]
          exact hdone g hg
        · rw [List.mem_singleton.1 hg, hshelf, if_pos hpath.symm, hother f.path hnew,
            Extractors.outcome, hw]

end Shelves

/-! ### The law -/

section Law

variable (env : Extractors)

/-- The index of a fresh run over the walk. -/
def freshIndex (R : Type) [Zero R] (files : List WalkedFile) : CodeDb R :=
  (env.runParsePhase false files .empty).1.db

/-- A fresh run takes the file. -/
def FreshTakes (f : WalkedFile) : Prop := ∃ w, env.fileWork false (.empty : CodeDb Unit) f = some w

/-- The index is that of a fresh run: under the path of every file that a fresh run takes stands
    what the fresh run stores, nothing stands under another path that is not in the walk, and every
    embedding is one of a chunk. -/
structure Converged [Zero R] (files : List WalkedFile) (db : CodeDb R) : Prop where
  taken : ∀ f ∈ files, FreshTakes env f →
    db.shelf f.path = (freshIndex env R files).shelf f.path
  others : ∀ q, q ∉ files.map WalkedFile.path → db.shelf q = .empty
  embeddings : ∀ id ∈ db.embeddings, ∃ c ∈ db.chunks, c.id = id

/-- The condition on the index before the run: a walk without files meets an empty index, a file
    that is passed over has its row, its chunks and its edges, and a file that is cut and brings no
    edges of its own has none. -/
def Settled (files : List WalkedFile) (db : CodeDb R) : Prop :=
  (files = [] → db.files = []) ∧
  ∀ f ∈ files, ∀ w, env.fileWork false (.empty : CodeDb Unit) f = some w →
    if (env.fileWork false db f).isNone then db.shelf f.path = env.shelve w []
    else w.edges.isNone → (db.shelf f.path).edges = []

/-- What a fresh run does with a file does not depend on the type of the ranks. -/
theorem fileWork_empty (f : WalkedFile) :
    env.fileWork false (.empty : CodeDb R) f = env.fileWork false (.empty : CodeDb Unit) f :=
  rfl

/-- A file that is cut is cut as a fresh run cuts it. -/
theorem fileWork_fresh {db : CodeDb R} {f : WalkedFile} {w : FileWork}
    (h : env.fileWork false db f = some w) :
    env.fileWork false (.empty : CodeDb Unit) f = some w := by
  have hempty : ∀ p, (CodeDb.empty : CodeDb Unit).fileHash p = none := fun _ => rfl
  unfold Extractors.fileWork at h ⊢
  cases hkind : f.kind with
  | doc language =>
    simp only [hkind, Extractors.docWork, hempty] at h ⊢
    split at h
    · cases h
    · next hsize =>
      rw [if_neg hsize]
      obtain ⟨bytes, hbytes, h⟩ := Option.bind_eq_some_iff.1 h
      rw [hbytes, Option.bind_some]
      split at h
      · cases h
      · simpa using h
  | pdf =>
    simp only [hkind, Extractors.pdfWork, hempty] at h ⊢
    split at h
    · cases h
    · next hsize =>
      rw [if_neg hsize]
      obtain ⟨bytes, hbytes, h⟩ := Option.bind_eq_some_iff.1 h
      rw [hbytes, Option.bind_some]
      split at h
      · cases h
      · simpa using h
  | text language =>
    simp only [hkind, Extractors.textWork, hempty] at h ⊢
    split at h
    · cases h
    · next hbinary =>
      rw [if_neg hbinary]
      split at h
      · cases h
      · next hsize =>
        rw [if_neg hsize]
        obtain ⟨source, hsource, h⟩ := Option.bind_eq_some_iff.1 h
        rw [hsource, Option.bind_some]
        split at h
        · cases h
        · simpa using h

theorem shelf_deleteFiles (db : CodeDb R) (stale : List String) (q : String) :
    ((stale.flatMap deleteFile).foldl (fun db (st : CodeDb R → CodeDb R) => st db) db).shelf q =
      if q ∈ stale then .empty else db.shelf q := by
  induction stale generalizing db with
  | nil => simp
  | cons p stale ih =>
    rw [List.flatMap_cons, List.foldl_append, ih, foldl_deleteFile]
    by_cases hq : q ∈ stale
    · simp [hq]
    · rw [if_neg hq]
      by_cases hqp : q = p
      · subst hqp
        simp [CodeDb.shelf, Shelf.empty, List.filter_filter]
      · have hne : ∀ a : String, (decide (a = q) && decide (a ≠ p)) = decide (a = q) := by
          intro a
          by_cases ha : a = q <;> simp [ha, hqp]
        simp only [List.mem_cons, hqp, hq, or_self, if_false, CodeDb.shelf, List.filter_filter, hne]

/-- Nothing stands under a path without a file. -/
theorem Tidy.shelf_eq_empty {db : CodeDb R} (h : Tidy db) {q : String} (hq : q ∉ db.paths) :
    db.shelf q = .empty := by
  unfold CodeDb.shelf Shelf.empty
  rw [Shelf.mk.injEq]
  refine ⟨?_, ?_, ?_⟩
  · refine List.filter_eq_nil_iff.2 fun f hf he => hq ?_
    exact of_decide_eq_true he ▸ List.mem_map_of_mem hf
  · rw [List.map_eq_nil_iff]
    refine List.filter_eq_nil_iff.2 fun c hc he => hq ?_
    exact of_decide_eq_true he ▸ h.sound.filed c hc
  · refine List.filter_eq_nil_iff.2 fun e he hsame => hq ?_
    exact of_decide_eq_true hsame ▸ h.filed e he

/-- A complete run with files: each has its outcome, and nothing else is left. -/
theorem shelf_runParsePhase [Zero R] {db : CodeDb R} (h : Tidy db) {files : List WalkedFile}
    (hnodup : (files.map WalkedFile.path).Nodup) (hne : files ≠ []) :
    (∀ f ∈ files, (env.runParsePhase false files db).1.db.shelf f.path =
      env.outcome false db f) ∧
    ∀ q, q ∉ files.map WalkedFile.path →
      (env.runParsePhase false files db).1.db.shelf q = .empty := by
  have hwalk := (tidy_files env h false files).1
  obtain ⟨-, hfiles⟩ := shelf_files env h false hnodup
  unfold Extractors.runParsePhase
  rw [if_neg hne]
  generalize files.foldl (env.processFile false) (.start db) = s at *
  simp only [removeStale, execAll_db, shelf_deleteFiles, List.mem_filter, decide_eq_true_eq]
  refine ⟨fun f hf => ?_, fun q hq => ?_⟩
  · rw [if_neg fun hstale => hstale.2 (List.mem_map_of_mem hf)]
    exact hfiles f hf
  · by_cases hmem : q ∈ s.db.paths
    · rw [if_pos ⟨hmem, hq⟩]
    · rw [if_neg fun hstale => hmem hstale.1]
      exact hwalk.shelf_eq_empty hmem

theorem shelve_eq_iff (w : FileWork) (old : List EdgeRow) :
    env.shelve w old = env.shelve w [] ↔ (w.edges.isNone → old = []) := by
  unfold Extractors.shelve
  cases w.edges <;> simp

/-- The law of the complete run: after every history it leaves the index of a fresh run exactly if
    the index before it was settled. -/
theorem convergenceLaw [Zero R] (db : CodeDb R) (h : TreeHistory env db)
    (files : List WalkedFile) (hnodup : (files.map WalkedFile.path).Nodup) :
    Converged env files (env.runParsePhase false files db).1.db ↔ Settled env files db := by
  have htidy := tidy_of_history env h
  have hrun := tidy_runParsePhase env htidy false files
  by_cases hne : files = []
  · subst hne
    have hstay : (env.runParsePhase false [] db).1.db = db := rfl
    rw [hstay]
    refine ⟨fun hc => ⟨fun _ => ?_, fun f hf => absurd hf List.not_mem_nil⟩, fun hs => ?_⟩
    · by_contra hfiles
      obtain ⟨f, rest, hcons⟩ := List.exists_cons_of_ne_nil hfiles
      have hempty := congrArg Shelf.rows (hc.others f.path List.not_mem_nil)
      have hmem : f ∈ (db.shelf f.path).rows :=
        List.mem_filter.2 ⟨hcons ▸ List.mem_cons_self, decide_eq_true rfl⟩
      rw [hempty] at hmem
      exact absurd hmem List.not_mem_nil
    · refine ⟨fun f hf => absurd hf List.not_mem_nil, fun q _ => htidy.shelf_eq_empty ?_,
        htidy.owned⟩
      unfold CodeDb.paths
      rw [hs.1 rfl]
      exact List.not_mem_nil
  · obtain ⟨hfiles, hothers⟩ := shelf_runParsePhase env htidy hnodup hne
    obtain ⟨hfresh, -⟩ := shelf_runParsePhase (R := R) env tidy_empty hnodup hne
    have hone : ∀ f ∈ files, ∀ w, env.fileWork false (.empty : CodeDb Unit) f = some w →
        ((env.runParsePhase false files db).1.db.shelf f.path =
          (freshIndex env R files).shelf f.path ↔
        if (env.fileWork false db f).isNone then db.shelf f.path = env.shelve w []
        else w.edges.isNone → (db.shelf f.path).edges = []) := by
      intro f hf w hw
      have hnew : (freshIndex env R files).shelf f.path = env.shelve w [] := by
        unfold freshIndex
        rw [hfresh f hf, Extractors.outcome, fileWork_empty, hw]
        rfl
      rw [hnew, hfiles f hf]
      unfold Extractors.outcome
      cases hdb : env.fileWork false db f with
      | none => simp
      | some w' =>
        obtain rfl : w' = w := Option.some.inj ((fileWork_fresh env hdb).symm.trans hw)
        rw [Option.isNone_some, if_neg (by simp)]
        exact shelve_eq_iff env w' _
    constructor
    · intro hc
      exact ⟨fun hnil => absurd hnil hne, fun f hf w hw =>
        (hone f hf w hw).1 (hc.taken f hf ⟨w, hw⟩)⟩
    · intro hs
      refine ⟨fun f hf htakes => ?_, hothers, hrun.1.owned⟩
      obtain ⟨w, hw⟩ := htakes
      exact (hone f hf w hw).2 (hs.2 f hf w hw)

end Law

/-! ### A run that is killed -/

/-- A file is two chunks, without edges. -/
def twoChunks : Extractors where
  hash source := source
  parse _ _ _ := some [⟨"function", none, 1, 1, "fn a() {}", none, none⟩,
    ⟨"function", none, 2, 2, "fn b() {}", none, none⟩]
  extract _ _ _ := some []
  mentions _ _ := []
  parseDoc _ _ _ := []
  pdfPages _ := none
  containsSecret _ := false
  estimateTokens _ := 3

def twoChunksFile : WalkedFile where
  path := "lib.rs"
  kind := .text "rust"
  binary := false
  tooLarge := false
  contents := some "fn a() {}\nfn b() {}"
  mtime := 1

/-- The index that a run leaves which is killed after the first chunk. -/
def firstChunkOnly : CodeDb ℕ where
  files := [⟨"lib.rs", "rust", "fn a() {}\nfn b() {}", 1⟩]
  chunks := [⟨0, "lib.rs", "function", none, 1, 1, "fn a() {}", none, none, 3, 0⟩]
  embeddings := []
  edges := []
  nextChunk := 1

theorem convergenceLaw_fresh :
    Converged twoChunks [twoChunksFile]
      (twoChunks.runParsePhase false [twoChunksFile] (.empty : CodeDb ℕ)).1.db := by
  refine (convergenceLaw twoChunks .empty .empty [twoChunksFile]
    (List.nodup_singleton _)).2 ⟨fun h => absurd h (List.cons_ne_nil _ _), fun f hf w hw => ?_⟩
  rw [List.mem_singleton.1 hf] at hw ⊢
  cases hw
  decide

/-- A run that is killed between two chunks of a file, and a complete run after it. -/
theorem notConverged_killed :
    ¬ ∀ (env : Extractors) (db : CodeDb ℕ), TreeHistory env db → ∀ files : List WalkedFile,
      (files.map WalkedFile.path).Nodup →
        Converged env files (env.runParsePhase false files db).1.db := by
  intro hall
  have hhistory : TreeHistory twoChunks firstChunkOnly :=
    .parse [twoChunksFile] .empty (List.nodup_singleton _) (by decide +kernel)
  have hconverged := hall twoChunks firstChunkOnly hhistory [twoChunksFile]
    (List.nodup_singleton _)
  have htaken := hconverged.taken twoChunksFile (List.mem_singleton_self _) ⟨_, rfl⟩
  exact absurd htaken (by decide +kernel)

end Spelunk
