import Spelunk.Theory.ServerScope

/-!
# Where a Project's Vectors Come From

The first write of a project records the dimension and the model of its vectors,
and later writes are checked against them. Requests of any kind may follow each
other in any order, with an embedder that comes and goes and with any model, as
long as the server runs with the dimension its vector table was made with.

## Main definitions

* `AppState.Sized`: Handlers of a server run with the dimension of its table.
* `ServerRan`: Runs of requests.
* `ServerDb.Provenance`: What every reached database guarantees of its vectors.
* `ServerDb.Pinned`: What is recorded stays.

## Theorems

* `keeps_serve_provenance`: One request.
* `provenance_of_run`: Every run.
-/

namespace Spelunk

open Lib (Sql SqlError Conn GuardedRun)

/-- A handler of a server that runs with the dimension of its vector table. -/
structure AppState.Sized (dim : Nat) (state : AppState) : Prop where
  dim_pos : 0 < dim
  embeddingDim : state.embeddingDim = dim

/-- The databases reached from `db` by requests to any project, each stopped by a
    fault or not, each with an embedder and a model of its own. -/
def ServerRan [SyncClock] (dim : Nat) : ServerDb → ServerDb → Prop :=
  GuardedRun (fun db (r : AppState × Server.Request × Option Nat) db' =>
    db' = (Server.serve r.1 r.2.1 ⟨db, r.2.2⟩).2.db) (fun _ r => r.1.Sized dim)

namespace ServerDb

/-- A project that was written to has a model. -/
def Stamped (p : Project) : Prop := p.embeddingModel ≠ none

/-- A vector has the dimension of the table, and so has the project of its row. -/
def VectorsMatch (dim : Nat) (db : ServerDb) : Prop :=
  ∀ e ∈ db.embeddings, e.2.length = dim ∧ ∀ n ∈ db.notes, n.id = e.1 →
    ∀ p ∈ db.projects, p.id = n.projectId → p.embeddingDim = dim

/-- What every reached database guarantees of its vectors. -/
structure Provenance (dim : Nat) (db : ServerDb) : Prop extends Kept dim Stamped db where
  vectors : db.VectorsMatch dim

/-- A recorded dimension stays, with its model. -/
def Pinned (db s : ServerDb) : Prop :=
  ∀ p ∈ db.projects, p.embeddingDim ≠ 0 → ∃ q ∈ s.projects, q.id = p.id ∧ q.slug = p.slug ∧
    q.embeddingDim = p.embeddingDim ∧ q.embeddingModel = p.embeddingModel

/-- The project with that id has that dimension recorded. -/
def Records (pid d : Nat) (s : ServerDb) : Prop :=
  ∀ q ∈ s.projects, q.id = pid → q.embeddingDim = d

end ServerDb

namespace Server

theorem records_stamped (d : Nat) (model : String) : Records ServerDb.Stamped d model where
  embeddingDim := fun _ hp => hp
  embeddingModel := fun _ _ => Option.some_ne_none _
  new := fun _ _ => Option.some_ne_none _

variable {dim d pid : Nat} {db : ServerDb}

/-- What a program does to the vectors, next to what every program keeps. -/
theorem post_provenance {α : Type} {m : Sql ServerDb α} {P E : ServerDb → Prop}
    {Q : α → ServerDb → Prop} (hkeeps : Sql.Keeps (ServerDb.Kept dim ServerDb.Stamped) m)
    (hpost : Sql.Post (fun s => s.Provenance dim ∧ P s) m
      (fun a s => s.VectorsMatch dim ∧ Q a s) (fun s => s.VectorsMatch dim ∧ E s)) :
    Sql.Post (fun s => s.Provenance dim ∧ P s) m (fun a s => s.Provenance dim ∧ Q a s)
      (fun s => s.Provenance dim ∧ E s) :=
  Sql.Post.mono (Sql.Post.and_keeps hpost hkeeps) (fun _ hs => ⟨hs, hs.1.toKept⟩)
    (fun _ _ hs => ⟨⟨hs.2, hs.1.1⟩, hs.1.2⟩) (fun _ hs => ⟨⟨hs.2, hs.1.1⟩, hs.1.2⟩)

section Projects

/-- The dimension of a project is recorded only while it has none, and then it has
    no vectors. -/
theorem post_recordDim {p : Project} (hdim : p.embeddingDim = 0) (hpos : 0 < dim) :
    Sql.Post (fun s => s.Provenance dim ∧ p ∈ s.projects ∧ db.Pinned s)
      (updateProject p.id (fun q => { q with embeddingDim := d }))
      (fun _ s => s.Provenance dim ∧ s.Records p.id d ∧ db.Pinned s)
      (fun s => s.Provenance dim ∧ db.Pinned s) := by
  refine post_provenance (keeps_updateProject p.id (fun _ => rfl)
    (records_stamped d "").embeddingDim) (Sql.Post.statement (fun s a s' hs hstep => ?_)
      (fun s hs => ⟨hs.1.vectors, hs.2.2⟩))
  rcases ServerDb.of_checked_eq_ok hstep with ⟨_, rfl, _, _⟩
  rcases hs with ⟨hprov, hp, hpinned⟩
  have honly : ∀ q ∈ s.projects, q.id = p.id → q = p := fun q hq hid =>
    List.inj_on_of_nodup_map hprov.unique.2.2.2.1 hq hp hid
  refine ⟨fun e he => ⟨(hprov.vectors e he).1, fun n hn hid q hq hqid => ?_⟩, fun q hq hqid => ?_,
    fun r hr hrdim => ?_⟩
  · rcases List.mem_map.mp hq with ⟨q₀, hq₀, rfl⟩
    by_cases heq : q₀.id = p.id
    · rw [if_pos heq] at hqid
      have hvector := (hprov.vectors e he).2 n hn hid q₀ hq₀ hqid
      rw [honly q₀ hq₀ heq] at hvector
      omega
    · rw [if_neg heq] at hqid ⊢
      exact (hprov.vectors e he).2 n hn hid q₀ hq₀ hqid
  · rcases List.mem_map.mp hq with ⟨q₀, hq₀, rfl⟩
    by_cases heq : q₀.id = p.id
    · rw [if_pos heq]
    · rw [if_neg heq] at hqid
      exact absurd hqid heq
  · rcases hpinned r hr hrdim with ⟨q, hq, hqid, hqslug, hqdim, hqmodel⟩
    have hne : q.id ≠ p.id := by
      intro heq
      rw [honly q hq heq] at hqdim
      omega
    exact ⟨q, List.mem_map.mpr ⟨q, hq, if_neg hne⟩, hqid, hqslug, hqdim, hqmodel⟩

/-- A new project has no rows yet. -/
theorem post_insertProject (slug : String) (model : String) :
    Sql.Post (fun s => s.Provenance dim ∧ db.Pinned s) (insertProject slug d model)
      (fun p s => s.Provenance dim ∧ s.Records p.id d ∧ db.Pinned s)
      (fun s => s.Provenance dim ∧ db.Pinned s) := by
  refine post_provenance (keeps_insertProject slug (records_stamped d model))
    (Sql.Post.statement (fun s a s' hs hstep => ?_) (fun s hs => ⟨hs.1.vectors, hs.2⟩))
  rcases ServerDb.of_checked_eq_ok hstep with ⟨rfl, rfl, _, _⟩
  rcases hs with ⟨hprov, hpinned⟩
  refine ⟨fun e he => ⟨(hprov.vectors e he).1, fun n hn hid q hq hqid => ?_⟩, fun q hq hqid => ?_,
    fun r hr hrdim => ?_⟩
  · rcases List.mem_append.mp hq with hq | hq
    · exact (hprov.vectors e he).2 n hn hid q hq hqid
    · rcases List.mem_map.mp (hprov.foreignKeys n hn).1 with ⟨q₀, hq₀, hq₀id⟩
      have hlt := hprov.project_lt q₀ hq₀
      rw [List.mem_singleton.mp hq] at hqid
      simp only at hqid
      omega
  · rcases List.mem_append.mp hq with hq | hq
    · have hlt := hprov.project_lt q hq
      simp only at hqid
      omega
    · rw [List.mem_singleton.mp hq]
  · rcases hpinned r hr hrdim with ⟨q, hq, hrest⟩
    exact ⟨q, List.mem_append_left _ hq, hrest⟩

/-- The project of an accepted write has the dimension of the write recorded. -/
theorem post_upsertProject (hpos : 0 < dim) (slug : String) (model : String) :
    Sql.Post (fun s => s.Provenance dim ∧ db.Pinned s) (upsertProject slug d model)
      (fun p s => s.Provenance dim ∧ s.Records p.id d ∧ db.Pinned s)
      (fun s => s.Provenance dim ∧ db.Pinned s) := by
  refine Sql.Post.bind (Q := fun found s => s.Provenance dim ∧
    (∀ p ∈ found, p ∈ s.projects) ∧ db.Pinned s)
    (Sql.Post.query _ (fun s hs => ⟨hs.1, fun p hp => (getProject_mem hp).1, hs.2⟩)
      (fun _ hs => hs)) (fun found => ?_)
  rcases found with _ | p
  · exact Sql.Post.mono (post_insertProject slug model) (fun s hs => ⟨hs.1, hs.2.2⟩)
      (fun _ _ hs => hs) (fun _ hs => hs)
  · have hstop : ∀ s : ServerDb, s.Provenance dim ∧ (∀ q ∈ some p, q ∈ s.projects) ∧ db.Pinned s →
        s.Provenance dim ∧ db.Pinned s := fun s hs => ⟨hs.1, hs.2.2⟩
    simp only []
    split
    · exact Sql.Post.fail _ hstop
    case isFalse hdim =>
      split
      · exact Sql.Post.fail _ hstop
      · refine Sql.Post.bind (Q := fun _ s => p.embeddingModel ≠ none ∧ s.Provenance dim ∧
          s.Records p.id d ∧ db.Pinned s) ?_ (fun _ => Sql.Post.of_pre (fun hmodel => ?_))
        · -- The dimension is the recorded one, or is recorded now.
          intro c hc
          have hmodel : p.embeddingModel ≠ none := hc.1.recorded p (hc.2.1 p rfl)
          have hrecord : Sql.Post (fun s => s.Provenance dim ∧ p ∈ s.projects ∧ db.Pinned s)
              (Sql.whenever (p.embeddingDim = 0)
                (updateProject p.id (fun q => { q with embeddingDim := d })))
              (fun _ s => s.Provenance dim ∧ s.Records p.id d ∧ db.Pinned s)
              (fun s => s.Provenance dim ∧ db.Pinned s) := by
            refine Sql.Post.whenever (fun hzero => post_recordDim hzero hpos) (fun hzero s hs => ?_)
            refine ⟨hs.1, fun q hq hqid => ?_, hs.2.2⟩
            rw [List.inj_on_of_nodup_map hs.1.unique.2.2.2.1 hq hs.2.1 hqid]
            by_contra hne
            exact hdim ⟨hzero, hne⟩
          have hout := hrecord c ⟨hc.1, hc.2.1 p rfl, hc.2.2⟩
          exact ⟨fun a ha => ⟨hmodel, hout.1 a ha⟩, hout.2⟩
        · refine Sql.Post.bind (Q := fun _ s => s.Provenance dim ∧ s.Records p.id d ∧ db.Pinned s)
            (Sql.Post.whenever (fun hnone => absurd hnone hmodel) (fun _ _ hs => hs)) (fun _ => ?_)
          exact Sql.Post.ok _ (fun _ hs => hs)

end Projects

section Rows

/-- The frame of a write to the rows: the projects are not touched. -/
def Marked (db : ServerDb) (pid d : Nat) (s : ServerDb) : Prop :=
  s.Records pid d ∧ db.Pinned s

/-- A statement that only changes rows or takes vectors away keeps the vectors right. -/
theorem vectorsMatch_of_rows {s s' : ServerDb} (hs : s.VectorsMatch dim)
    (hembeddings : ∀ e ∈ s'.embeddings, e ∈ s.embeddings) (hprojects : s'.projects = s.projects)
    (hnotes : ∀ n ∈ s'.notes, ∀ e ∈ s.embeddings, n.id = e.1 →
      ∃ n₀ ∈ s.notes, n₀.id = n.id ∧ n₀.projectId = n.projectId) : s'.VectorsMatch dim := by
  intro e he
  have he := hembeddings e he
  refine ⟨(hs e he).1, fun n hn hid p hp hpid => ?_⟩
  rcases hnotes n hn e he hid with ⟨n₀, hn₀, hid₀, hproject⟩
  rw [hprojects] at hp
  exact (hs e he).2 n₀ hn₀ (hid₀.trans hid) p hp (hpid.trans hproject.symm)

/-- An update of rows that keeps rowids and projects. -/
theorem keeps_mapNotes_provenance {α : Type} {m : Sql ServerDb α} {P : ServerDb → Prop}
    (hP : ∀ s notes, P s → P { s with notes := notes })
    (hkeeps : Sql.Keeps (ServerDb.Kept dim ServerDb.Stamped) m)
    (hm : ∃ (f : ServerDb → ServerRow → ServerRow) (a : ServerDb → α),
      (∀ s r, (f s r).id = r.id ∧ (f s r).projectId = r.projectId) ∧
      m = Sql.statement (fun s => ServerDb.checked (a s) { s with notes := s.notes.map (f s) })) :
    Sql.Keeps (fun s => s.Provenance dim ∧ P s) m := by
  rcases hm with ⟨f, a, hf, rfl⟩
  refine Sql.Post.keeps (post_provenance hkeeps
    (Sql.Post.statement (fun s b s' hs hstep => ?_) (fun s hs => ⟨hs.1.vectors, hs.2⟩)))
  rcases ServerDb.of_checked_eq_ok hstep with ⟨_, rfl, _, _⟩
  refine ⟨vectorsMatch_of_rows hs.1.vectors (fun _ he => he) rfl (fun n hn _ _ _ => ?_),
    hP s _ hs.2⟩
  rcases List.mem_map.mp hn with ⟨r, hr, rfl⟩
  exact ⟨r, hr, (hf s r).1.symm, (hf s r).2.symm⟩

theorem keeps_archiveNote_provenance (projectId noteId : Nat) :
    Sql.Keeps (fun s => s.Provenance dim ∧ db.Pinned s) (archiveNote projectId noteId) := by
  refine keeps_mapNotes_provenance (fun _ _ hs => hs) (keeps_archiveNote projectId noteId)
    ⟨_, _, fun s r => ?_, rfl⟩
  split <;> exact ⟨rfl, rfl⟩

theorem keeps_supersedeNote_provenance (projectId oldId newId : Nat) :
    Sql.Keeps (fun s => s.Provenance dim ∧ db.Pinned s) (supersedeNote projectId oldId newId) := by
  refine keeps_mapNotes_provenance (fun _ _ hs => hs) (keeps_supersedeNote projectId oldId newId)
    ⟨_, _, fun s r => ?_, rfl⟩
  split <;> exact ⟨rfl, rfl⟩

theorem keeps_deleteNote_provenance (projectId noteId : Nat) :
    Sql.Keeps (fun s => s.Provenance dim ∧ db.Pinned s) (deleteNote projectId noteId) := by
  refine Sql.Post.keeps (post_provenance (keeps_deleteNote projectId noteId) ?_)
  refine Sql.Post.mono (Sql.Post.of_keeps (I := fun s => s.VectorsMatch dim ∧ db.Pinned s)
    (Sql.Keeps.bind (Sql.Keeps.execute (fun s s' hs hstep => ?_)) (fun _ =>
      Sql.Keeps.statement (fun s a s' hs hstep => ?_)))) (fun s hs => ⟨hs.1.vectors, hs.2⟩)
    (fun _ _ hs => hs) (fun _ hs => hs)
  · rw [← Except.ok.inj hstep]
    exact ⟨vectorsMatch_of_rows hs.1 (fun e he => (List.mem_filter.mp he).1) rfl
      (fun n hn _ _ _ => ⟨n, hn, rfl, rfl⟩), hs.2⟩
  · rcases ServerDb.of_checked_eq_ok hstep with ⟨_, rfl, _, _⟩
    exact ⟨vectorsMatch_of_rows hs.1 (fun _ he => he) rfl
      (fun n hn _ _ _ => ⟨n, (List.mem_filter.mp hn).1, rfl, rfl⟩), hs.2⟩

/-- A vector is of the dimension its project has recorded, or the table refuses it. -/
theorem post_insertEmbedding_provenance {noteId : Nat} {vec : List UInt32}
    (hvec : vec.length = dim → d = dim) :
    Sql.Post (fun s => s.Provenance dim ∧ (noteId < s.nextId ∧
        ∀ n ∈ s.notes, n.id = noteId → n.projectId = pid) ∧ Marked db pid d s)
      (insertEmbedding noteId vec) (fun _ s => s.Provenance dim ∧ Marked db pid d s)
      (fun s => s.Provenance dim ∧ Marked db pid d s) := by
  intro c hc
  have hkept : Sql.Post (fun s => noteId < s.nextId ∧ s.Kept dim ServerDb.Stamped)
      (insertEmbedding noteId vec) (fun _ s => s.Kept dim ServerDb.Stamped)
      (ServerDb.Kept dim ServerDb.Stamped) := post_insertEmbedding noteId vec
  have hkept := hkept c ⟨hc.2.1.1, hc.1.toKept⟩
  have hvectors : Sql.Post (fun s => s.Provenance dim ∧ (noteId < s.nextId ∧
        ∀ n ∈ s.notes, n.id = noteId → n.projectId = pid) ∧ Marked db pid d s)
      (insertEmbedding noteId vec) (fun _ s => s.VectorsMatch dim ∧ Marked db pid d s)
      (fun s => s.VectorsMatch dim ∧ Marked db pid d s) := by
    refine Sql.Post.execute (fun s s' hs hstep => ?_) (fun s hs => ⟨hs.1.vectors, hs.2.2⟩)
    split at hstep
    · exact absurd hstep (by simp)
    case isFalse hlen =>
      split at hstep
      · exact absurd hstep (by simp)
      · rw [← Except.ok.inj hstep]
        have hlen : vec.length = dim := (not_not.mp hlen).trans hs.1.vectorDim
        refine ⟨fun e he => ?_, hs.2.2⟩
        rcases List.mem_append.mp he with he | he
        · exact hs.1.vectors e he
        · rw [List.mem_singleton.mp he]
          refine ⟨hlen, fun n hn hid p hp hpid => ?_⟩
          exact (hs.2.2.1 p hp (hpid.trans (hs.2.1.2 n hn hid))).trans (hvec hlen)
  have hout := hvectors c hc
  exact ⟨fun a ha => ⟨⟨hkept.1 a ha, (hout.1 a ha).1⟩, (hout.1 a ha).2⟩,
    fun e he => ⟨⟨hkept.2 e he, (hout.2 e he).1⟩, (hout.2 e he).2⟩⟩

variable [SyncClock]

/-- A new row has no vector yet. -/
theorem post_insertRow_provenance {r : ServerRow} (hstatus : r.status = "active")
    (hproject : r.projectId = pid) :
    Sql.Post (fun s => s.Provenance dim ∧ Marked db pid d s) (insertRow r)
      (fun p s => s.Provenance dim ∧ (p.1 < s.nextId ∧
        ∀ n ∈ s.notes, n.id = p.1 → n.projectId = pid) ∧ Marked db pid d s)
      (fun s => s.Provenance dim ∧ Marked db pid d s) := by
  refine post_provenance (keeps_insertRow (Or.inl hstatus))
    (Sql.Post.statement (fun s a s' hs hstep => ?_) (fun s hs => ⟨hs.1.vectors, hs.2⟩))
  rcases ServerDb.of_checked_eq_ok hstep with ⟨rfl, rfl, _, _⟩
  refine ⟨vectorsMatch_of_rows hs.1.vectors (fun _ he => he) rfl (fun n hn e he hid => ?_),
    ⟨Nat.lt_succ_self _, fun n hn hid => ?_⟩, hs.2⟩
  · rcases List.mem_append.mp hn with hn | hn
    · exact ⟨n, hn, rfl, rfl⟩
    · have hlt := hs.1.embedding_lt e he
      rw [List.mem_singleton.mp hn] at hid
      simp only at hid
      omega
  · rcases List.mem_append.mp hn with hn | hn
    · have hlt := hs.1.id_lt n hn
      simp only at hid
      omega
    · rw [List.mem_singleton.mp hn]
      exact hproject

theorem keeps_addNote_provenance (now : Int) (kind title body : String)
    (tags linkedFiles : List String) {embedding : Option (List UInt32)}
    (hvec : ∀ vec ∈ embedding, vec.length = dim → d = dim) (remoteId : Option String) :
    Sql.Keeps (fun s => s.Provenance dim ∧ Marked db pid d s)
      (addNote now pid kind title body tags linkedFiles embedding remoteId) := by
  refine Sql.Post.keeps (Sql.Post.bind (post_insertRow_provenance rfl rfl) (fun p => ?_))
  rcases embedding with _ | vec
  · exact Sql.Post.ok _ (fun s hs => ⟨hs.1, hs.2.2⟩)
  · exact Sql.Post.bind (post_insertEmbedding_provenance (hvec vec rfl))
      (fun _ => Sql.Post.ok _ (fun _ hs => hs))

end Rows

section Routes

variable {state : AppState}

variable [SyncClock]

/-- One entry records the dimension of its own vector, 0 where it has none. -/
theorem keeps_addNoteRoute_provenance (hpos : 0 < dim) (slug : String) (req : AddNoteRequest) :
    Sql.Keeps (fun s => s.Provenance dim ∧ db.Pinned s) (addNoteRoute state slug req) := by
  unfold addNoteRoute
  split
  · exact Sql.Keeps.fail _
  · split
    · exact Sql.Keeps.fail _
    · split
      · exact Sql.Keeps.fail _
      · split
        · exact Sql.Keeps.ok _
        · refine Sql.Post.keeps (Sql.Post.bind (post_upsertProject hpos slug _) (fun p => ?_))
          refine Sql.Post.bind (Q := fun _ s => s.Provenance dim ∧ db.Pinned s)
            (Sql.Post.mono (Sql.Post.of_keeps (keeps_addNote_provenance _ _ _ _ _ _
              (fun vec hv hlen => ?_) _)) (fun _ hs => hs) (fun _ s hs => ⟨hs.1, hs.2.2⟩)
              (fun s hs => ⟨hs.1, hs.2.2⟩)) (fun _ => Sql.Post.ok _ (fun _ hs => hs))
          rw [Option.mem_def.mp hv]
          exact hlen

/-- A batch records the configured dimension before its vectors are known. -/
theorem keeps_pushMemoryBatch_provenance (hstate : state.Sized dim) (slug : String)
    (entries : List BatchNoteItem) :
    Sql.Keeps (fun s => s.Provenance dim ∧ db.Pinned s) (pushMemoryBatch state slug entries) := by
  unfold pushMemoryBatch
  split
  · exact Sql.Keeps.fail _
  · exact Sql.Keeps.ok _
  · unfold storeBatch
    refine Sql.Post.keeps (Sql.Post.bind (post_upsertProject hstate.dim_pos slug _) (fun p => ?_))
    rw [hstate.embeddingDim]
    have hloop : Sql.Keeps (fun s => s.Provenance dim ∧ Marked db p.id dim s)
        (do
          let existing ← findByRemoteIds p.id (entries.map (·.externalId))
          let s ← Sql.foldEach entries ⟨existing, [], 0, 0⟩ (pushEntry state p.id)
          pure (.multiStatus s.created s.skipped 0 s.results) : Sql ServerDb BatchReply) := by
      refine Sql.Keeps.bind (keeps_findByRemoteIds _ _) (fun existing => Sql.Keeps.bind
        (Sql.Keeps.foldEach _ _ (fun b entry _ => ?_)) (fun _ => Sql.Keeps.ok _))
      unfold pushEntry
      split
      · exact Sql.Keeps.ok _
      · exact Sql.Keeps.bind (keeps_addNote_provenance _ _ _ _ _ _ (fun _ _ _ => rfl) _)
          (fun _ => Sql.Keeps.ok _)
    exact Sql.Post.mono (Sql.Post.of_keeps hloop) (fun _ hs => hs) (fun _ s hs => ⟨hs.1, hs.2.2⟩)
      (fun s hs => ⟨hs.1, hs.2.2⟩)

/-- Every request keeps the vectors right and what is recorded, with any fault. -/
theorem keeps_serve_provenance (hstate : state.Sized dim) (req : Request) :
    Sql.Keeps (fun s => s.Provenance dim ∧ db.Pinned s) (serve state req) := by
  cases req with
  | addNote slug req => exact keeps_addNoteRoute_provenance hstate.dim_pos slug req
  | pushBatch slug entries =>
      exact Sql.Keeps.bind (keeps_pushMemoryBatch_provenance hstate slug entries)
        (fun _ => Sql.Keeps.ok _)
  | archive slug noteId =>
      exact Sql.Keeps.bind (keeps_requireProject slug) (fun p =>
        Sql.Keeps.bind (keeps_archiveNote_provenance _ _) (fun _ => Sql.Keeps.ok _))
  | supersede slug noteId newId =>
      exact Sql.Keeps.bind (keeps_requireProject slug) (fun p =>
        Sql.Keeps.bind (keeps_supersedeNote_provenance _ _ _) (fun _ => Sql.Keeps.ok _))
  | delete slug noteId =>
      exact Sql.Keeps.bind (keeps_requireProject slug) (fun p =>
        Sql.Keeps.bind (keeps_deleteNote_provenance _ _) (fun _ => Sql.Keeps.ok _))

end Routes

end Server

section Runs

theorem pinned_refl (db : ServerDb) : db.Pinned db :=
  fun p hp _ => ⟨p, hp, rfl, rfl, rfl, rfl⟩

variable [SyncClock] {dim : Nat} {db db' : ServerDb}

/-- A run keeps the vectors right and what is recorded. -/
theorem provenance_of_run (h : ServerRan dim db db') (hdb : db.Provenance dim) :
    db'.Provenance dim ∧ db.Pinned db' := by
  refine GuardedRun.invariant (I := fun s => s.Provenance dim ∧ db.Pinned s) h ⟨hdb, pinned_refl db⟩
    (fun s r s' hs hguard hstep => ?_)
  rw [hstep]
  exact Server.keeps_serve_provenance hguard r.2.1 ⟨s, r.2.2⟩ hs

omit [SyncClock] in
theorem provenance_emptyServer (dim : Nat) : (emptyServer dim).Provenance dim where
  toKept := ⟨(served_emptyServer dim "").toSchemaOk, rfl, fun _ hn => absurd hn List.not_mem_nil,
    fun _ hp => absurd hp List.not_mem_nil⟩
  vectors := fun _ he => absurd he List.not_mem_nil

end Runs

end Spelunk
