import Spelunk.Core.IndexMigrations

/-!
# Opening a Code Index After a Crash

An open skips the steps up to the version it starts from. So it ends with the whole
schema exactly where everything the skipped steps make is there already, whatever
run left the database: `Recoverable` says so, of any database. The step of an object
decides both directions. Steps above its version do not make it, so what is missing
stays missing; and a step that runs makes all its objects, as the tables it refers
to are there.

Some databases are never right again: a run stopped between the two objects of a
step that one of them is recognized by; a run stopped between the removal of a
vector table and its new creation; chunks older than the full-text index, which the
backfill does not see; and a version above the last one, which is stamped over.

## Main definitions

* `requiredObjects`: The objects of the whole schema, each with its step.
* `IndexDb.Whole`: The whole schema.
* `IndexDb.Recoverable`: What the skipped steps make is there.
* `OpensWhole`: What an open does.

## Theorems

* `answers_openIndex`: A recoverable index is opened whole.
* `absent_of_open`: What is missing below the start version stays missing.
* `opensWhole_iff`: The law.
-/

namespace Spelunk

open Lib (Sql SqlError Conn)

open Lib.Sql (Answers Keeps Post Serves)

/-- The tables, columns, triggers and forced indexes of the whole schema, each with
    the version of its step; the vector table aside. -/
def requiredObjects : List (Int × IndexObject) :=
  [(1, .table "files"), (1, .table "chunks"), (3, .table "graph_edges"), (4, .table "specs"),
    (4, .table "spec_links"), (5, .table "chunks_fts"), (5, .trigger "chunks_fts_insert"),
    (5, .trigger "chunks_fts_delete"), (5, .trigger "chunks_fts_update"),
    (6, .column "chunks" "token_count"), (7, .column "chunks" "graph_rank"),
    (8, .column "chunks" "summary"), (9, .table "usage"),
    (10, .index "graph_edges_source_name_kind"), (10, .index "graph_edges_target_name_kind"),
    (11, .table "conventions"), (12, .table "schema_int8_embeddings"), (14, .table "index_meta"),
    (15, .column "files" "mtime")]

namespace IndexDb

/-- The whole schema, with every chunk in the full-text index. -/
structure Whole (db : IndexDb) : Prop where
  version : db.userVersion = currentSchemaVersion
  objects : ∀ p ∈ requiredObjects, p.2 ∈ db.objects
  vectors : db.embeddings = some .int8
  snapshots : ∀ name ∈ IndexMigrations.snapshotTables, .table name ∉ db.objects
  fts : ∀ c ∈ db.chunks, c ∈ db.ftsRows

/-- What the steps up to the start version make is there, and the start version is one
    of the ladder. -/
structure Recoverable (db : IndexDb) : Prop where
  known : db.userVersion ≤ currentSchemaVersion
  objects : ∀ p ∈ requiredObjects, p.1 ≤ db.startVersion → p.2 ∈ db.objects
  vectors : 2 ≤ db.startVersion → db.embeddings ≠ none
  /-- A vector table of floats is still to be rebuilt. -/
  float : db.embeddings = some .float →
    db.startVersion < 12 ∧ .table "schema_int8_embeddings" ∉ db.objects
  snapshots : 13 ≤ db.startVersion →
    ∀ name ∈ IndexMigrations.snapshotTables, .table name ∉ db.objects
  fts : ∀ c ∈ db.chunks, .table "chunks_fts" ∈ db.objects ∧ c ∈ db.ftsRows

end IndexDb

/-- What an open that is not stopped does: it ends with the whole schema, changes
    nothing where that was there, and never lowers the version. -/
structure OpensWhole (db : IndexDb) : Prop where
  answers : (openIndex ⟨db, none⟩).1 = .ok ()
  whole : (openIndex ⟨db, none⟩).2.db.Whole
  unchanged : db.Whole → (openIndex ⟨db, none⟩).2.db = db
  notLower : db.userVersion ≤ (openIndex ⟨db, none⟩).2.db.userVersion

section Statements

variable {P : IndexDb → Prop}

/-- A CREATE whose references are there. -/
theorem answers_create {o : IndexObject} {needs : List IndexObject}
    (hneeds : ∀ s, P s → ∀ n ∈ needs, n ∈ s.objects) (hadd : ∀ s, P s → P (s.add o)) :
    Answers P (createIndexObject o needs) (fun _ s => P s ∧ o ∈ s.objects) := by
  refine Answers.of_serves (Serves.execute (fun s hs => ?_))
  by_cases ho : o ∈ s.objects
  · exact ⟨s, by rw [if_pos ho], hs, ho⟩
  · exact ⟨s.add o, by rw [if_neg ho, if_pos (hneeds s hs)], hadd s hs,
      List.mem_append_right _ List.mem_cons_self⟩

/-- What each statement refers to is known, or made by one before it. -/
def Provided (known : List IndexObject) : List (IndexObject × List IndexObject) → Prop
  | [] => True
  | p :: l => (∀ n ∈ p.2, n ∈ known) ∧ Provided (p.1 :: known) l

instance decidableProvided : ∀ known l, Decidable (Provided known l)
  | _, [] => isTrue trivial
  | known, p :: l => @instDecidableAnd _ _ inferInstance (decidableProvided (p.1 :: known) l)

theorem answers_createAll {l : List (IndexObject × List IndexObject)} {r : List IndexObject}
    (hl : Provided r l) (hknown : ∀ s, P s → ∀ n ∈ r, n ∈ s.objects)
    (hadd : ∀ o ∈ l.map (·.1), ∀ s, P s → P (s.add o)) :
    Answers P (createAll l) (fun _ s => P s ∧ ∀ o ∈ l.map (·.1), o ∈ s.objects) := by
  induction l generalizing P r with
  | nil => exact Answers.ok () (fun s hs => ⟨hs, fun o ho => absurd ho List.not_mem_nil⟩)
  | cons p l ih =>
      have hfirst : Answers P (createIndexObject p.1 p.2) (fun _ s => P s ∧ p.1 ∈ s.objects) :=
        answers_create (fun s hs n hn => hknown s hs n (hl.1 n hn)) (hadd p.1 List.mem_cons_self)
      refine Answers.bind hfirst (fun _ => ?_)
      refine Answers.mono (ih (P := fun s => P s ∧ p.1 ∈ s.objects) hl.2 ?_ ?_) (fun _ hs => hs) ?_
      · intro s hs n hn
        rcases List.mem_cons.mp hn with rfl | hn
        · exact hs.2
        · exact hknown s hs.1 n hn
      · intro o ho s hs
        exact ⟨hadd o (List.mem_cons_of_mem _ ho) s hs.1, List.mem_append_left _ hs.2⟩
      · intro _ s hs
        refine ⟨hs.1.1, fun o ho => ?_⟩
        rcases List.mem_cons.mp ho with rfl | ho
        · exact hs.1.2
        · exact hs.2 o ho

/-- An ALTER of a table that is there. -/
theorem answers_addColumn {table name : String} (htable : ∀ s, P s → .table table ∈ s.objects)
    (hadd : ∀ s, P s → P (s.add (.column table name))) :
    Answers P (addColumnIfMissing table name) (fun _ s => P s ∧ .column table name ∈ s.objects) := by
  refine Answers.of_each (fun s hs => ?_)
  have htab : s.hasTable table = true := by
    rw [IndexDb.hasTable, decide_eq_true_eq]
    exact htable s hs
  by_cases ho : IndexObject.column table name ∈ s.objects
  · have hrefused : Answers (fun t => t = s) (Sql.attempt (addColumn table name))
        (fun r t => r = .error (duplicateColumnName name) ∧ t = s) := by
      refine Answers.attempt_refused (fun t ht => ?_)
      simp only [ht, htab, not_true_eq_false, if_false, if_pos ho, Except.map]
    unfold addColumnIfMissing
    refine Answers.bind hrefused (fun r => Answers.of_pre (fun hr => ?_))
    rw [hr]
    simp only [if_true]
    exact Answers.ok () (fun t ht => by rw [ht]; exact ⟨hs, ho⟩)
  · have hadded : Answers (fun t => t = s) (addColumn table name)
        (fun _ t => t = s.add (.column table name)) := by
      refine Answers.of_serves (Serves.execute (fun t ht => ⟨s.add (.column table name), ?_, rfl⟩))
      rw [ht, htab, if_neg (not_not.mpr rfl), if_neg ho]
    have hcaught : Answers (fun t => t = s) (Sql.attempt (addColumn table name))
        (fun r t => r = .ok () ∧ t = s.add (.column table name)) :=
      Answers.attempt hadded (fun _ t ht => ⟨rfl, ht⟩)
    unfold addColumnIfMissing
    refine Answers.bind hcaught (fun r => Answers.of_pre (fun hr => ?_))
    rw [hr]
    refine Answers.ok () (fun t ht => ?_)
    rw [ht]
    exact ⟨hadd s hs, List.mem_append_right _ List.mem_cons_self⟩

end Statements

section Climb

/-- Behind the steps up to `k`, from a start version `v`. -/
structure Climbing (v k : Int) (s : IndexDb) : Prop where
  objects : ∀ p ∈ requiredObjects, p.1 ≤ k ∨ p.1 ≤ v → p.2 ∈ s.objects
  vectors : 2 ≤ k ∨ 2 ≤ v → s.embeddings ≠ none
  int8 : 12 ≤ k ∨ 12 ≤ v → s.embeddings ≠ some .float
  float : s.embeddings = some .float → .table "schema_int8_embeddings" ∉ s.objects
  snapshots : 13 ≤ k ∨ 13 ≤ v → ∀ name ∈ IndexMigrations.snapshotTables, .table name ∉ s.objects
  fts : ∀ c ∈ s.chunks, .table "chunks_fts" ∈ s.objects ∧ c ∈ s.ftsRows

variable {v k : Int} {s : IndexDb}

/-- Neither the marker nor an old table. -/
def Plain (o : IndexObject) : Prop :=
  o ≠ .table "schema_int8_embeddings" ∧
    ∀ name ∈ IndexMigrations.snapshotTables, o ≠ .table name

instance (o : IndexObject) : Decidable (Plain o) := by
  unfold Plain
  infer_instance

theorem Climbing.add (h : Climbing v k s) {o : IndexObject}
    (hmark : o = .table "schema_int8_embeddings" → s.embeddings ≠ some .float)
    (hold : ∀ name ∈ IndexMigrations.snapshotTables, o ≠ .table name) :
    Climbing v k (s.add o) where
  objects p hp hk := List.mem_append_left _ (h.objects p hp hk)
  vectors := h.vectors
  int8 := h.int8
  float hf hmem := by
    rcases List.mem_append.mp hmem with hmem | hmem
    · exact h.float hf hmem
    · exact hmark (List.mem_singleton.mp hmem).symm hf
  snapshots hk name hname hmem := by
    rcases List.mem_append.mp hmem with hmem | hmem
    · exact h.snapshots hk name hname hmem
    · exact hold name hname (List.mem_singleton.mp hmem).symm
  fts c hc := ⟨List.mem_append_left _ (h.fts c hc).1, (h.fts c hc).2⟩

theorem Climbing.add_plain (h : Climbing v k s) {o : IndexObject} (ho : Plain o) :
    Climbing v k (s.add o) :=
  h.add (fun hmark => absurd hmark ho.1) ho.2

/-- The next step made its objects. -/
theorem Climbing.next (h : Climbing v (k - 1) s) (hk : k ≠ 2 ∧ k ≠ 12 ∧ k ≠ 13)
    (hnew : ∀ p ∈ requiredObjects, p.1 = k → p.2 ∈ s.objects) : Climbing v k s where
  objects p hp hle := by
    by_cases heq : p.1 = k
    · exact hnew p hp heq
    · exact h.objects p hp (by omega)
  vectors hle := h.vectors (by omega)
  int8 hle := h.int8 (by omega)
  float := h.float
  snapshots hle := h.snapshots (by omega)
  fts := h.fts

/-- The next step is one of those that are skipped. -/
theorem Climbing.skip (h : Climbing v (k - 1) s) (hk : k ≤ v) : Climbing v k s where
  objects p hp hle := h.objects p hp (by omega)
  vectors hle := h.vectors (by omega)
  int8 hle := h.int8 (by omega)
  float := h.float
  snapshots hle := h.snapshots (by omega)
  fts := h.fts

/-- A step that is skipped, or climbs. -/
theorem answers_step {body : Sql IndexDb Unit}
    (hbody : v < k → Answers (Climbing v (k - 1)) body (fun _ => Climbing v k)) :
    Answers (Climbing v (k - 1)) (Sql.whenever (v < k) body) (fun _ => Climbing v k) :=
  Answers.whenever hbody (fun hk _ hs => hs.skip (by omega))

/-- A step that is a file of CREATE statements. -/
theorem climbs_createAll {l : List (IndexObject × List IndexObject)} {r : List IndexObject}
    (hk : k ≠ 2 ∧ k ≠ 12 ∧ k ≠ 13) (hl : Provided r l) (hplain : ∀ o ∈ l.map (·.1), Plain o)
    (hknown : ∀ o ∈ r, ∃ p ∈ requiredObjects, p.2 = o ∧ p.1 ≤ k - 1)
    (hnew : ∀ p ∈ requiredObjects, p.1 = k → p.2 ∈ l.map (·.1)) :
    Answers (Climbing v (k - 1)) (createAll l) (fun _ => Climbing v k) := by
  refine Answers.mono (answers_createAll (P := Climbing v (k - 1)) hl ?_ ?_) (fun _ hs => hs) ?_
  · intro s hs o ho
    rcases hknown o ho with ⟨p, hp, rfl, hle⟩
    exact hs.objects p hp (Or.inl hle)
  · exact fun o ho s hs => hs.add_plain (hplain o ho)
  · exact fun _ s hs => hs.1.next hk (fun p hp heq => hs.2 _ (hnew p hp heq))

/-- A step that adds a column. -/
theorem climbs_addColumn {table name : String} (hk : k ≠ 2 ∧ k ≠ 12 ∧ k ≠ 13)
    (htable : ∃ p ∈ requiredObjects, p.2 = .table table ∧ p.1 ≤ k - 1)
    (hnew : ∀ p ∈ requiredObjects, p.1 = k → p.2 = .column table name) :
    Answers (Climbing v (k - 1)) (addColumnIfMissing table name) (fun _ => Climbing v k) := by
  refine Answers.mono (answers_addColumn (P := Climbing v (k - 1)) ?_ ?_) (fun _ hs => hs) ?_
  · intro s hs
    rcases htable with ⟨p, hp, heq, hle⟩
    rw [← heq]
    exact hs.objects p hp (Or.inl hle)
  · exact fun s hs => hs.add_plain ⟨by simp, fun name _ => by simp⟩
  · intro _ s hs
    refine hs.1.next hk (fun p hp heq => ?_)
    rw [hnew p hp heq]
    exact hs.2

/-- A new vector table is not one of floats. -/
theorem float_of_created {e : Option VectorColumn} (h : some (e.getD .int8) = some .float) :
    e = some .float := by
  rcases e with _ | c
  · exact absurd h (by decide)
  · exact h

/-- The vector table is made where there is none. -/
theorem climbs_vectors :
    Answers (Climbing v 1) IndexMigrations.applyVectorMigration (fun _ => Climbing v 2) := by
  refine Answers.of_serves (Serves.execute (fun s hs => ⟨_, rfl, ?_⟩))
  refine ⟨fun p hp hle => hs.objects p hp ?_, fun _ => by simp, fun hle hf => ?_, fun hf => ?_,
    fun hle => hs.snapshots (by omega), hs.fts⟩
  · -- No object of the list belongs to this step.
    have hne : p.1 ≠ 2 := (by decide : ∀ p ∈ requiredObjects, p.1 ≠ 2) p hp
    omega
  · exact hs.int8 (by omega) (float_of_created hf)
  · exact hs.float (float_of_created hf)

/-- A new full-text table loses no chunk: where it is new there are none. -/
theorem climbs_createFts {s : IndexDb} (hs : Climbing v 4 s)
    (hnew : .table "chunks_fts" ∉ s.objects) :
    Climbing v 4 { s.add (.table "chunks_fts") with ftsRows := [] } where
  objects p hp hle := List.mem_append_left _ (hs.objects p hp hle)
  vectors := hs.vectors
  int8 := hs.int8
  float := (hs.add_plain (by decide : Plain (.table "chunks_fts"))).float
  snapshots := (hs.add_plain (by decide : Plain (.table "chunks_fts"))).snapshots
  fts c hc := absurd (hs.fts c hc).1 hnew

/-- The backfill asks the content table for its own rows, and so finds none missing. -/
theorem backfill_nothing (db : IndexDb) :
    { db with ftsRows := db.ftsRows ++ db.chunks.filter (fun c => c ∉ db.chunks) } = db := by
  have hnone : db.chunks.filter (fun c => c ∉ db.chunks) = [] := by
    rw [List.filter_eq_nil_iff]
    intro c hc
    simpa using hc
  rw [hnone, List.append_nil]

theorem climbs_fts :
    Answers (Climbing v 4) IndexMigrations.applyFtsMigration (fun _ => Climbing v 5) := by
  have hfirst : Answers (Climbing v 4) createFts
      (fun _ s => Climbing v 4 s ∧ .table "chunks_fts" ∈ s.objects) := by
    refine Answers.of_serves (Serves.execute (fun s hs => ?_))
    by_cases hthere : s.hasTable "chunks_fts" = true
    · exact ⟨s, by rw [if_pos hthere], hs, decide_eq_true_eq.mp hthere⟩
    · exact ⟨_, by rw [if_neg hthere],
        climbs_createFts hs (fun hmem => hthere (decide_eq_true_eq.mpr hmem)),
        List.mem_append_right _ List.mem_cons_self⟩
  have htriggers := answers_createAll (P := fun s => Climbing v 4 s ∧ .table "chunks_fts" ∈ s.objects)
    (l := [(.trigger "chunks_fts_insert", [.table "chunks"]),
      (.trigger "chunks_fts_delete", [.table "chunks"]),
      (.trigger "chunks_fts_update", [.table "chunks"])]) (r := [.table "chunks"])
    (by decide)
    (fun s hs n hn => by
      rw [List.mem_singleton.mp hn]
      exact hs.1.objects (1, .table "chunks") (by decide) (by omega))
    (fun o ho s hs => ⟨hs.1.add_plain ((by decide : ∀ o ∈ [IndexObject.trigger
      "chunks_fts_insert", .trigger "chunks_fts_delete", .trigger "chunks_fts_update"], Plain o) o ho),
      List.mem_append_left _ hs.2⟩)
  refine Answers.bind hfirst (fun _ => Answers.bind htriggers (fun _ =>
    Answers.of_serves (Serves.execute (fun s hs => ?_))))
  have hchunks : s.hasTable "chunks" = true :=
    decide_eq_true_eq.mpr (hs.1.1.objects (1, .table "chunks") (by decide) (by omega))
  refine ⟨s, ?_, ?_⟩
  · rw [if_neg (not_not.mpr hchunks)]
    exact congrArg Except.ok (backfill_nothing s)
  · refine hs.1.1.next (by omega) (fun p hp heq => ?_)
    have hobj : p.2 ∈ [IndexObject.table "chunks_fts", .trigger "chunks_fts_insert",
        .trigger "chunks_fts_delete", .trigger "chunks_fts_update"] :=
      (by decide : ∀ p ∈ requiredObjects, p.1 = 5 → p.2 ∈ [IndexObject.table "chunks_fts",
        .trigger "chunks_fts_insert", .trigger "chunks_fts_delete",
        .trigger "chunks_fts_update"]) p hp heq
    rcases List.mem_cons.mp hobj with hfts | htrigger
    · exact hfts ▸ hs.1.2
    · exact hs.2 p.2 htrigger

/-- The marker ends the step that leaves no floats. -/
theorem Climbing.mark {s : IndexDb} (h : Climbing v 11 s) (hfloat : s.embeddings ≠ some .float)
    (hmark : .table "schema_int8_embeddings" ∈ s.objects) : Climbing v 12 s where
  objects p hp hle := by
    by_cases heq : p.1 = 12
    · rw [(by decide : ∀ p ∈ requiredObjects, p.1 = 12 →
        p.2 = .table "schema_int8_embeddings") p hp heq]
      exact hmark
    · exact h.objects p hp (by omega)
  vectors _ := h.vectors (by omega)
  int8 _ := hfloat
  float hf := absurd hf hfloat
  snapshots hle := h.snapshots (by omega)
  fts := h.fts

/-- A vector table is made anew, and not of floats. -/
theorem Climbing.rebuild {s : IndexDb} (h : Climbing v 11 s) :
    Climbing v 11 { s with embeddings := some .int8 } where
  objects := h.objects
  vectors _ := by simp
  int8 _ := by simp
  float hf := absurd hf (by simp)
  snapshots := h.snapshots
  fts := h.fts

theorem climbs_dimUpgrade :
    Answers (Climbing v 11) IndexMigrations.applyDimUpgradeMigration
      (fun _ => Climbing v 12) := by
  -- The two queries read the store the step starts from.
  refine Answers.of_each (fun s hs => ?_)
  refine Answers.bind (Answers.of_serves (Serves.query (Q := fun already t =>
    already = s.hasTable "schema_int8_embeddings" ∧ t = s) (fun t ht => ⟨by rw [ht], ht⟩)))
    (fun already => Answers.of_pre (fun halready => ?_))
  by_cases hthere : IndexObject.table "schema_int8_embeddings" ∈ s.objects
  · rw [halready, IndexDb.hasTable, decide_eq_true hthere, if_pos rfl]
    refine Answers.ok () (fun t ht => ?_)
    rw [ht]
    exact hs.mark (fun hf => hs.float hf hthere) hthere
  · rw [halready, IndexDb.hasTable, decide_eq_false hthere, if_neg (by decide)]
    refine Answers.bind (Answers.of_serves (Serves.query (Q := fun needed t =>
      needed = decide (s.embeddings = some .float) ∧ t = s) (fun t ht => ⟨by rw [ht], ht⟩)))
      (fun needed => Answers.of_pre (fun hneeded => ?_))
    have hrebuilt : Answers (fun t => t = s)
        (Sql.whenever needed (dropEmbeddings.andThen (fun _ => createEmbeddings)))
        (fun _ t => Climbing v 11 t ∧ t.embeddings ≠ some .float) := by
      refine Answers.whenever (fun _ => ?_) (fun hn t ht => ?_)
      · refine Answers.bind (Answers.of_serves (Serves.execute (R := fun _ t =>
          t = { s with embeddings := none }) (fun t ht => ⟨_, rfl, by rw [ht]⟩))) (fun _ => ?_)
        refine Answers.of_serves (Serves.execute (fun t ht => ⟨_, rfl, ?_⟩))
        rw [ht]
        exact ⟨hs.rebuild, by simp⟩
      · rw [ht]
        exact ⟨hs, fun hf => hn (by rw [hneeded, hf]; rfl)⟩
    refine Answers.bind hrebuilt (fun _ => ?_)
    refine Answers.mono (answers_createAll (r := []) ⟨fun _ h => h, trivial⟩
      (fun _ _ n hn => absurd hn List.not_mem_nil) (fun o ho t ht => ⟨ht.1.add (fun _ => ht.2) ?_, ht.2⟩))
      (fun _ ht => ht) (fun _ t ht => ht.1.1.mark ht.1.2 (ht.2 _ List.mem_cons_self))
    rw [List.mem_singleton.mp ho]
    decide

/-- None of the whole schema is an old table. -/
theorem required_of_kept {name : String} (hname : name ∈ IndexMigrations.snapshotTables)
    {p : Int × IndexObject} (hp : p ∈ requiredObjects) : p.2 ≠ .table name :=
  (by decide : ∀ name ∈ IndexMigrations.snapshotTables,
    ∀ p ∈ requiredObjects, p.2 ≠ .table name) name hname p hp

theorem Climbing.drop {s : IndexDb} (h : Climbing v k s) {name : String}
    (hname : name ∈ IndexMigrations.snapshotTables) :
    Climbing v k { s with objects := s.objects.filter (fun o => o ≠ .table name) } where
  objects p hp hle := List.mem_filter.mpr ⟨h.objects p hp hle,
    decide_eq_true (required_of_kept hname hp)⟩
  vectors := h.vectors
  int8 := h.int8
  float hf hmem := h.float hf (List.mem_filter.mp hmem).1
  snapshots hle old hold hmem := h.snapshots hle old hold (List.mem_filter.mp hmem).1
  fts c hc := ⟨List.mem_filter.mpr ⟨(h.fts c hc).1, decide_eq_true
    (required_of_kept hname (p := (5, .table "chunks_fts")) (by decide))⟩, (h.fts c hc).2⟩

theorem climbs_dropSnapshots :
    Answers (Climbing v 12) IndexMigrations.applyDropSnapshotsMigration
      (fun _ => Climbing v 13) := by
  have hloop := Answers.forEach (f := dropTable)
    (I := fun done s => Climbing v 12 s ∧ ∀ name ∈ done, .table name ∉ s.objects)
    IndexMigrations.snapshotTables (fun done name rest hl => by
      refine Answers.of_serves (Serves.execute (fun s hs => ⟨_, rfl, ?_⟩))
      have hname : name ∈ IndexMigrations.snapshotTables :=
        hl ▸ List.mem_append_right _ List.mem_cons_self
      refine ⟨hs.1.drop hname, fun old hold hmem => ?_⟩
      rcases List.mem_append.mp hold with hold | hold
      · exact hs.2 old hold (List.mem_filter.mp hmem).1
      · exact of_decide_eq_true (List.mem_filter.mp hmem).2 (by rw [List.mem_singleton.mp hold]))
  refine Answers.mono hloop (fun _ hs => ⟨hs, fun _ h => absurd h List.not_mem_nil⟩)
    (fun _ s hs => ?_)
  refine ⟨fun p hp hle => hs.1.objects p hp ?_, fun _ => hs.1.vectors (by omega),
    fun _ => hs.1.int8 (by omega), hs.1.float, fun _ => hs.2, hs.1.fts⟩
  have hne : p.1 ≠ 13 := (by decide : ∀ p ∈ requiredObjects, p.1 ≠ 13) p hp
  omega

/-- Every step climbs. -/
theorem climbs_migration {p : Int × Sql IndexDb Unit} (hp : p ∈ indexMigrations) :
    Answers (Climbing v (p.1 - 1)) p.2 (fun _ => Climbing v p.1) := by
  rcases hp with _ | ⟨_, hp⟩
  · exact climbs_createAll (r := []) (by omega) (by decide) (by decide)
      (by decide) (by decide)
  rcases hp with _ | ⟨_, hp⟩
  · exact climbs_vectors
  rcases hp with _ | ⟨_, hp⟩
  · exact climbs_createAll (r := []) (by omega) (by decide) (by decide)
      (by decide) (by decide)
  rcases hp with _ | ⟨_, hp⟩
  · exact climbs_createAll (r := []) (by omega) (by decide) (by decide)
      (by decide) (by decide)
  rcases hp with _ | ⟨_, hp⟩
  · exact climbs_fts
  rcases hp with _ | ⟨_, hp⟩
  · exact climbs_addColumn (by omega) (by decide) (by decide)
  rcases hp with _ | ⟨_, hp⟩
  · exact climbs_addColumn (by omega) (by decide) (by decide)
  rcases hp with _ | ⟨_, hp⟩
  · exact climbs_addColumn (by omega) (by decide) (by decide)
  rcases hp with _ | ⟨_, hp⟩
  · exact climbs_createAll (r := []) (by omega) (by decide) (by decide)
      (by decide) (by decide)
  rcases hp with _ | ⟨_, hp⟩
  · exact climbs_createAll (r := [.table "graph_edges"]) (by omega) (by decide)
      (by decide) (by decide) (by decide)
  rcases hp with _ | ⟨_, hp⟩
  · exact climbs_createAll (r := []) (by omega) (by decide) (by decide)
      (by decide) (by decide)
  rcases hp with _ | ⟨_, hp⟩
  · exact climbs_dimUpgrade
  rcases hp with _ | ⟨_, hp⟩
  · exact climbs_dropSnapshots
  rcases hp with _ | ⟨_, hp⟩
  · exact climbs_createAll (r := []) (by omega) (by decide) (by decide)
      (by decide) (by decide)
  rcases hp with _ | ⟨_, hp⟩
  · exact climbs_addColumn (by omega) (by decide) (by decide)
  · exact absurd hp List.not_mem_nil

/-- The steps are numbered from 1. -/
theorem migration_number {done rest : List (Int × Sql IndexDb Unit)}
    {p : Int × Sql IndexDb Unit} (h : indexMigrations = done ++ p :: rest) :
    p.1 - 1 = done.length := by
  have hnumbers : indexMigrations.map (·.1) = (List.range 15).map (fun (n : Nat) => (n : Int) + 1) :=
    rfl
  have hat : ((List.range 15).map (fun (n : Nat) => (n : Int) + 1))[done.length]? = some p.1 := by
    rw [← hnumbers, h, List.map_append, List.getElem?_append_right (by simp)]
    simp
  rw [List.getElem?_map, Option.map_eq_some_iff] at hat
  rcases hat with ⟨n, hn, heq⟩
  have := (List.getElem?_eq_some_iff.mp hn).2
  rw [List.getElem_range] at this
  omega

/-- The whole ladder. -/
theorem climbs_migrations :
    Answers (Climbing v 0)
      (Sql.forEach indexMigrations fun step => Sql.whenever (v < step.1) step.2)
      (fun _ => Climbing v 15) := by
  refine Answers.forEach (I := fun done => Climbing v done.length) indexMigrations
    (fun done p rest hl => ?_)
  have hp : p ∈ indexMigrations := hl ▸ List.mem_append_right _ List.mem_cons_self
  have hnum := migration_number hl
  have hlen : ((done ++ [p]).length : Int) = p.1 := by
    rw [List.length_append, List.length_singleton]
    omega
  rw [hlen, ← hnum]
  exact answers_step (fun _ => climbs_migration hp)

/-- Behind every step there is the whole schema, but for the stamp. -/
theorem Climbing.whole {s : IndexDb} (h : Climbing v 15 s)
    (hversion : s.userVersion = currentSchemaVersion) : s.Whole where
  version := hversion
  objects p hp := h.objects p hp (Or.inl
    ((by decide : ∀ p ∈ requiredObjects, p.1 ≤ 15) p hp))
  vectors := by
    rcases hemb : s.embeddings with _ | _ | _
    · exact absurd hemb (h.vectors (by omega))
    · exact absurd hemb (h.int8 (by omega))
    · rfl
  snapshots := h.snapshots (by omega)
  fts c hc := (h.fts c hc).2

theorem IndexDb.Recoverable.climbing {db : IndexDb} (h : db.Recoverable) :
    Climbing db.startVersion 0 db where
  objects p hp hle := by
    have hpos := (by decide : ∀ p ∈ requiredObjects, 0 < p.1) p hp
    exact h.objects p hp (by omega)
  vectors hle := h.vectors (by omega)
  int8 hle hf := absurd (h.float hf).1 (by omega)
  float hf := (h.float hf).2
  snapshots hle := h.snapshots (by omega)
  fts := h.fts

end Climb

namespace IndexDb

variable {db : IndexDb}

theorem startVersion_current (h : db.userVersion = currentSchemaVersion) :
    db.startVersion = currentSchemaVersion := by
  rw [startVersion, if_neg (fun hzero => absurd (h.symm.trans hzero.1) (by decide)), h]

/-- A stamped index that is recoverable is whole. -/
theorem Recoverable.whole_of_stamped (h : db.Recoverable)
    (hversion : db.userVersion = currentSchemaVersion) : db.Whole := by
  have hstart := startVersion_current hversion
  have hclimb := h.climbing
  rw [hstart] at hclimb
  refine Climbing.whole (v := currentSchemaVersion) ⟨fun p hp _ => ?_, fun _ => ?_, fun _ => ?_,
    hclimb.float, fun _ => ?_, hclimb.fts⟩ hversion
  · exact hclimb.objects p hp (Or.inr
      ((by decide : ∀ p ∈ requiredObjects, p.1 ≤ currentSchemaVersion) p hp))
  · exact hclimb.vectors (by decide)
  · exact hclimb.int8 (by decide)
  · exact hclimb.snapshots (by decide)

end IndexDb

/-- An index at the last version is left as it is. -/
theorem openIndex_stamped {db : IndexDb} (h : db.userVersion = currentSchemaVersion) :
    openIndex ⟨db, none⟩ = (.ok (), ⟨db, none⟩) := by
  simp only [openIndex, Sql.bind_eq, Sql.andThen, Sql.query, Sql.statement, h, if_true,
    Option.map_none, Sql.pure_eq, Sql.ok]

/-- Any other is run through the steps and stamped. -/
theorem openIndex_unstamped {db : IndexDb} (h : db.userVersion ≠ currentSchemaVersion) :
    openIndex ⟨db, none⟩ =
      (Sql.forEach indexMigrations fun step => Sql.whenever (db.startVersion < step.1) step.2).andThen
        (fun _ => Sql.execute fun s => .ok { s with userVersion := currentSchemaVersion })
        ⟨db, none⟩ := by
  simp only [openIndex, Sql.bind_eq, Sql.andThen, Sql.query, Sql.statement, h, if_false,
    Option.map_none]

/-- A recoverable index is opened whole. -/
theorem answers_openIndex {db : IndexDb} (h : db.Recoverable) :
    ∃ s, openIndex ⟨db, none⟩ = (.ok (), ⟨s, none⟩) ∧ s.Whole := by
  by_cases hversion : db.userVersion = currentSchemaVersion
  · exact ⟨db, openIndex_stamped hversion, h.whole_of_stamped hversion⟩
  · rw [openIndex_unstamped hversion]
    have hstamp : Answers (Climbing db.startVersion 15) (Sql.execute fun s =>
        .ok { s with userVersion := currentSchemaVersion }) (fun _ => IndexDb.Whole) :=
      Answers.of_serves (Serves.execute (fun s hs => ⟨_, rfl, Climbing.whole
        (v := db.startVersion) ⟨hs.objects, hs.vectors, hs.int8, hs.float, hs.snapshots, hs.fts⟩
        rfl⟩))
    rcases Answers.bind climbs_migrations (fun _ => hstamp) db h.climbing with ⟨_, s, hrun, hwhole⟩
    exact ⟨s, hrun, hwhole⟩

section Untouched

variable {v : Int} {I : IndexDb → Prop}

/-- What the CREATE and ALTER statements make, each with its step; the two virtual
    tables aside. -/
def madeObjects : List (Int × IndexObject) :=
  requiredObjects.filter (fun p => p.2 ≠ .table "chunks_fts") ++
    [(1, .index "idx_chunks_file_id"), (1, .index "idx_files_path"),
      (3, .index "graph_edges_source_file"), (3, .index "graph_edges_source_name"),
      (3, .index "graph_edges_target_name"), (3, .index "graph_edges_kind"),
      (9, .index "idx_usage_called_at"), (11, .index "idx_conventions_language")]

/-- No statement of the steps above `v` ends `I`. -/
structure Untouched (v : Int) (I : IndexDb → Prop) : Prop where
  add : ∀ p ∈ madeObjects, v < p.1 → ∀ s, I s → I (s.add p.2)
  fts : v < 5 → ∀ s, I s → .table "chunks_fts" ∉ s.objects →
    I { s.add (.table "chunks_fts") with ftsRows := [] }
  vectors : v < 2 → ∀ s, I s → I { s with embeddings := some (s.embeddings.getD .int8) }
  rebuild : v < 12 → ∀ s e, I s → s.embeddings = some .float →
    .table "schema_int8_embeddings" ∉ s.objects → I { s with embeddings := e }
  drop : v < 13 → ∀ name ∈ IndexMigrations.snapshotTables, ∀ s, I s →
    I { s with objects := s.objects.filter (fun o => o ≠ .table name) }
  stamp : ∀ s, I s → I { s with userVersion := currentSchemaVersion }

theorem keeps_createAll {l : List (IndexObject × List IndexObject)}
    (h : ∀ p ∈ l, ∀ s, I s → I (s.add p.1)) : Keeps I (createAll l) := by
  refine Keeps.forEach l (fun p hp => Keeps.execute (fun s s' hs hf => ?_))
  split at hf
  · exact Except.ok.inj hf ▸ hs
  · split at hf
    · exact Except.ok.inj hf ▸ h p hp s hs
    · exact absurd hf (by simp)

theorem keeps_addColumn {table name : String} (h : ∀ s, I s → I (s.add (.column table name))) :
    Keeps I (addColumnIfMissing table name) := by
  refine Keeps.bind (Keeps.attempt (Keeps.execute (fun s s' hs hf => ?_))) (fun r => ?_)
  · split at hf
    · exact absurd hf (by simp)
    · split at hf
      · exact absurd hf (by simp)
      · exact Except.ok.inj hf ▸ h s hs
  · rcases r with e | _
    · by_cases he : e = duplicateColumnName name
      · simp only [if_pos he]
        exact Keeps.ok ()
      · simp only [if_neg he]
        exact Keeps.fail e
    · exact Keeps.ok ()

theorem keeps_fts (h : Untouched v I) (hv : v < 5) :
    Keeps I IndexMigrations.applyFtsMigration := by
  refine Keeps.bind (Keeps.execute (fun s s' hs hf => ?_)) (fun _ =>
    Keeps.bind (keeps_createAll (fun p hp => ?_)) (fun _ =>
      Keeps.execute (fun s s' hs hf => ?_)))
  · split at hf
    · exact Except.ok.inj hf ▸ hs
    · next hnew =>
      exact Except.ok.inj hf ▸ h.fts hv s hs (fun hmem => hnew (decide_eq_true_eq.mpr hmem))
  · exact h.add (5, p.1) ((by decide : ∀ p ∈ [(IndexObject.trigger "chunks_fts_insert",
      [IndexObject.table "chunks"]), (.trigger "chunks_fts_delete", [.table "chunks"]),
      (.trigger "chunks_fts_update", [.table "chunks"])], (5, p.1) ∈ madeObjects) p hp) hv
  · split at hf
    · exact absurd hf (by simp)
    · have hsame : s = s' := (backfill_nothing s).symm.trans (Except.ok.inj hf)
      exact hsame ▸ hs

theorem keeps_dimUpgrade (h : Untouched v I) (hv : v < 12) :
    Keeps I IndexMigrations.applyDimUpgradeMigration := by
  refine Post.keeps (Post.bind (Q := fun already s =>
    already = s.hasTable "schema_int8_embeddings" ∧ I s)
    (Post.query _ (fun _ hs => ⟨rfl, hs⟩) (fun _ hs => hs)) (fun already => ?_))
  cases already with
  | true => exact Post.ok () (fun _ hs => hs.2)
  | false =>
      refine Post.bind (Q := fun needed s => (needed = true → ∀ e, I { s with embeddings := e }) ∧ I s)
        (Post.query _ (fun s hs => ⟨fun hneeded e => h.rebuild hv s e hs.2
          (of_decide_eq_true hneeded) (of_decide_eq_false hs.1.symm), hs.2⟩) (fun _ hs => hs.2))
        (fun needed => ?_)
      refine Post.bind (Q := fun _ s => I s) (Post.whenever (fun hneeded => ?_)
        (fun _ _ hs => hs.2)) (fun _ => Post.of_keeps (keeps_createAll (fun p hp => ?_)))
      · have hany : Keeps (fun s => ∀ e, I { s with embeddings := e })
            (dropEmbeddings.andThen (fun _ => createEmbeddings)) :=
          Keeps.bind (Keeps.execute (fun s s' hs hf e => Except.ok.inj hf ▸ hs e))
            (fun _ => Keeps.execute (fun s s' hs hf e => Except.ok.inj hf ▸ hs e))
        exact Post.mono (Post.of_keeps hany) (fun _ hs => hs.1 hneeded)
          (fun _ s hs => hs s.embeddings) (fun s hs => hs s.embeddings)
      · rw [List.mem_singleton.mp hp]
        exact h.add (12, .table "schema_int8_embeddings") (by decide) hv

/-- A step that only creates. -/
theorem keeps_made {k : Int} {l : List (IndexObject × List IndexObject)} (h : Untouched v I)
    (hv : v < k) (hl : ∀ p ∈ l, (k, p.1) ∈ madeObjects) : Keeps I (createAll l) :=
  keeps_createAll (fun p hp => h.add (k, p.1) (hl p hp) hv)

theorem keeps_migration (h : Untouched v I) {p : Int × Sql IndexDb Unit}
    (hp : p ∈ indexMigrations) (hv : v < p.1) : Keeps I p.2 := by
  rcases hp with _ | ⟨_, hp⟩
  · exact keeps_made h hv (by decide)
  rcases hp with _ | ⟨_, hp⟩
  · exact Keeps.execute (fun s s' hs hf => Except.ok.inj hf ▸ h.vectors hv s hs)
  rcases hp with _ | ⟨_, hp⟩
  · exact keeps_made h hv (by decide)
  rcases hp with _ | ⟨_, hp⟩
  · exact keeps_made h hv (by decide)
  rcases hp with _ | ⟨_, hp⟩
  · exact keeps_fts h hv
  rcases hp with _ | ⟨_, hp⟩
  · exact keeps_addColumn (h.add (6, .column "chunks" "token_count") (by decide) hv)
  rcases hp with _ | ⟨_, hp⟩
  · exact keeps_addColumn (h.add (7, .column "chunks" "graph_rank") (by decide) hv)
  rcases hp with _ | ⟨_, hp⟩
  · exact keeps_addColumn (h.add (8, .column "chunks" "summary") (by decide) hv)
  rcases hp with _ | ⟨_, hp⟩
  · exact keeps_made h hv (by decide)
  rcases hp with _ | ⟨_, hp⟩
  · exact keeps_made h hv (by decide)
  rcases hp with _ | ⟨_, hp⟩
  · exact keeps_made h hv (by decide)
  rcases hp with _ | ⟨_, hp⟩
  · exact keeps_dimUpgrade h hv
  rcases hp with _ | ⟨_, hp⟩
  · exact Keeps.forEach _ (fun name hname => Keeps.execute (fun s s' hs hf =>
      Except.ok.inj hf ▸ h.drop hv name hname s hs))
  rcases hp with _ | ⟨_, hp⟩
  · exact keeps_made h hv (by decide)
  rcases hp with _ | ⟨_, hp⟩
  · exact keeps_addColumn (h.add (15, .column "files" "mtime") (by decide) hv)
  · exact absurd hp List.not_mem_nil

/-- What no step above the start version ends, an open does not. -/
theorem kept_by_open {db : IndexDb} (h : Untouched db.startVersion I) (hdb : I db) :
    I (openIndex ⟨db, none⟩).2.db := by
  by_cases hversion : db.userVersion = currentSchemaVersion
  · rw [openIndex_stamped hversion]
    exact hdb
  · rw [openIndex_unstamped hversion]
    refine Keeps.bind (Keeps.forEach _ (fun p hp => ?_)) (fun _ => Keeps.execute
      (fun s s' hs hf => Except.ok.inj hf ▸ h.stamp s hs)) ⟨db, none⟩ hdb
    by_cases hv : db.startVersion < p.1
    · exact Keeps.whenever (keeps_migration h hp hv)
    · rw [Sql.whenever, if_neg hv]
      exact Keeps.ok ()

end Untouched

section Missing

variable {db : IndexDb} {v : Int}

/-- An object is made by one step only. -/
theorem untouched_absent {p : Int × IndexObject} (hp : p ∈ requiredObjects) (hv : p.1 ≤ v) :
    Untouched v (fun s => p.2 ∉ s.objects) where
  add q hq hlt s hs hmem := by
    rcases List.mem_append.mp hmem with hmem | hmem
    · exact hs hmem
    · have hsame := (by decide : ∀ p ∈ requiredObjects, ∀ q ∈ madeObjects,
        p.2 = q.2 → p.1 = q.1) p hp q hq (List.mem_singleton.mp hmem)
      omega
  fts hlt s hs _ hmem := by
    rcases List.mem_append.mp hmem with hmem | hmem
    · exact hs hmem
    · have hsame := (by decide : ∀ p ∈ requiredObjects,
        p.2 = .table "chunks_fts" → p.1 = 5) p hp (List.mem_singleton.mp hmem)
      omega
  vectors _ _ hs := hs
  rebuild _ _ _ hs _ _ := hs
  drop _ _ _ _ hs hmem := hs (List.mem_filter.mp hmem).1
  stamp _ hs := hs

theorem untouched_noVectors (hv : 2 ≤ v) : Untouched v (fun s => s.embeddings = none) where
  add _ _ _ _ hs := hs
  fts _ _ hs _ := hs
  vectors hlt := absurd hlt (by omega)
  rebuild _ s e hs hf := absurd (hs.symm.trans hf) (by simp)
  drop _ _ _ _ hs := hs
  stamp _ hs := hs

/-- The marker hides a vector table of floats from its step. -/
theorem untouched_float : Untouched v (fun s => s.embeddings = some .float ∧
    (12 ≤ v ∨ .table "schema_int8_embeddings" ∈ s.objects)) where
  add _ _ _ _ hs := ⟨hs.1, hs.2.imp_right (List.mem_append_left _)⟩
  fts _ _ hs _ := ⟨hs.1, hs.2.imp_right (List.mem_append_left _)⟩
  vectors _ s hs := ⟨by simp only [hs.1, Option.getD_some], hs.2⟩
  rebuild hlt _ _ hs _ hmark := absurd hs.2 (not_or.mpr ⟨by omega, hmark⟩)
  drop _ name hname _ hs := ⟨hs.1, hs.2.imp_right (fun hmem => List.mem_filter.mpr ⟨hmem,
    decide_eq_true (required_of_kept hname
      (p := (12, .table "schema_int8_embeddings")) (by decide))⟩)⟩
  stamp _ hs := hs

theorem untouched_snapshot {name : String} (hv : 13 ≤ v) :
    Untouched v (fun s => .table name ∈ s.objects) where
  add _ _ _ _ hs := List.mem_append_left _ hs
  fts _ _ hs _ := List.mem_append_left _ hs
  vectors _ _ hs := hs
  rebuild _ _ _ hs _ _ := hs
  drop hlt := absurd hlt (by omega)
  stamp _ hs := hs

/-- A chunk that the full-text index lacks; a new full-text table lacks every one. -/
theorem untouched_unlisted {c : Nat} : Untouched v (fun s => c ∈ s.chunks ∧
    (.table "chunks_fts" ∉ s.objects ∨ c ∉ s.ftsRows)) where
  add q hq _ s hs := by
    refine ⟨hs.1, hs.2.imp_left (fun hnot hmem => ?_)⟩
    rcases List.mem_append.mp hmem with hmem | hmem
    · exact hnot hmem
    · exact (by decide : ∀ q ∈ madeObjects, IndexObject.table "chunks_fts" ≠ q.2) q hq
        (List.mem_singleton.mp hmem)
  fts _ _ hs _ := ⟨hs.1, Or.inr List.not_mem_nil⟩
  vectors _ _ hs := hs
  rebuild _ _ _ hs _ _ := hs
  drop _ _ _ _ hs := ⟨hs.1, hs.2.imp_left (fun hnot hmem => hnot (List.mem_filter.mp hmem).1)⟩
  stamp _ hs := hs

/-- What is missing below the start version stays missing. -/
theorem recoverable_of_opensWhole (h : OpensWhole db) : db.Recoverable where
  known := by
    rw [← h.whole.version]
    exact h.notLower
  objects p hp hle := by
    by_contra habsent
    exact kept_by_open (untouched_absent hp hle) habsent (h.whole.objects p hp)
  vectors hle habsent :=
    absurd (h.whole.vectors.symm.trans (kept_by_open (untouched_noVectors hle) habsent)) (by simp)
  float hf := by
    by_contra hnot
    have hstays := kept_by_open (untouched_float (v := db.startVersion)) ⟨hf, by
      by_cases hle : 12 ≤ db.startVersion
      · exact Or.inl hle
      · exact Or.inr (not_not.mp (fun hmark => hnot ⟨by omega, hmark⟩))⟩
    exact absurd (h.whole.vectors.symm.trans hstays.1) (by decide)
  snapshots hle name hname hmem :=
    h.whole.snapshots name hname (kept_by_open (untouched_snapshot hle) hmem)
  fts c hc := by
    by_contra hnot
    have hstays := kept_by_open (untouched_unlisted (v := db.startVersion) (c := c))
      ⟨hc, Decidable.not_and_iff_not_or_not.mp hnot⟩
    rcases hstays.2 with hfts | hrow
    · exact hfts (h.whole.objects (5, .table "chunks_fts") (by decide))
    · exact hrow (h.whole.fts c hstays.1)

theorem opensWhole_of_recoverable (h : db.Recoverable) : OpensWhole db := by
  rcases answers_openIndex h with ⟨s, hrun, hwhole⟩
  refine ⟨by rw [hrun], by rw [hrun]; exact hwhole, fun hdb => ?_, ?_⟩
  · rw [openIndex_stamped hdb.version]
  · rw [hrun]
    rw [hwhole.version]
    exact h.known

/-- An open ends with the whole schema exactly where its database is recoverable. -/
theorem opensWhole_iff : OpensWhole db ↔ db.Recoverable :=
  ⟨recoverable_of_opensWhole, opensWhole_of_recoverable⟩

end Missing

/-- What a run of the ladder leaves that was killed after so many statements. -/
def killedOpen (db : IndexDb) (statements : Nat) : IndexDb :=
  (openIndex ⟨db, some statements⟩).2.db

/-- After any number of killed runs, from any database. -/
def afterCrashes (db : IndexDb) (kills : List Nat) : IndexDb := kills.foldl killedOpen db

/-- The next open after crashes at any points. -/
theorem crashLaw (db : IndexDb) (kills : List Nat) :
    OpensWhole (afterCrashes db kills) ↔ (afterCrashes db kills).Recoverable :=
  opensWhole_iff

/-- An empty file. -/
def emptyIndex : IndexDb :=
  { userVersion := 0, objects := [], embeddings := none, chunks := [], ftsRows := [] }

/-- Killed between the two tables of the specs: the first one stands for both. -/
theorem specLinks_lost : ¬ OpensWhole (afterCrashes emptyIndex [13]) := by
  intro h
  have hthere := h.whole.objects (4, .table "spec_links") (by decide)
  exact absurd hthere (by decide +kernel)

end Spelunk
