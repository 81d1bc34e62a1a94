import Spelunk.Core.ServerRoutes
import Spelunk.Lib.Transition

/-!
# Every State of the Team Server

What every request keeps of the server's database, stopped anywhere or not. The
unique indexes and the foreign keys are checked by every statement; the rest
follows from the counters only growing: a new row comes last and is above all
others in rowid and in `sync_id`.

## Main definitions

* `ServerDb.SchemaOk`: What the schema guarantees.
* `ServerDb.Kept`: What the routes guarantee, whatever they record of a project.
* `ServerDb.Served`: What those of a server with a fixed configuration guarantee.
* `AppState.For`: Handlers of that server.
* `ServerReached`: Databases reached by requests.

## Theorems

* `keeps_serve_kept`, `keeps_serve`: Every request keeps `Kept` and `Served`, with any fault.
* `ServerReached.served`: Every reached database has it.
-/

namespace Spelunk

open Lib (Sql SqlError Conn GuardedRun)

namespace ServerDb

/-- What the schema and the counters guarantee. -/
structure SchemaOk (db : ServerDb) : Prop where
  unique : db.UniqueOk
  foreignKeys : db.ForeignKeysOk
  id_lt : ∀ n ∈ db.notes, n.id < db.nextId
  embedding_lt : ∀ e ∈ db.embeddings, e.1 < db.nextId
  project_lt : ∀ p ∈ db.projects, p.id < db.nextProjectId
  /-- Rows lie in the order they arrived in. -/
  sorted : (db.notes.map (·.syncId)).Pairwise (· < ·)
  sync_le : ∀ n ∈ db.notes, n.syncId ≤ db.lastSyncId
  nil_lt : ∀ n ∈ db.notes, nilCursor < n.syncId
  nil_le : nilCursor ≤ db.lastSyncId

/-- What the routes of a server that embeds with `dim` coordinates by `model`
    guarantee. -/
structure Served (dim : Nat) (model : String) (db : ServerDb) : Prop extends SchemaOk db where
  vectorDim : db.vectorDim = dim
  status : ∀ n ∈ db.notes, n.status = "active" ∨ n.status = "archived"
  recorded : ∀ p ∈ db.projects, (p.embeddingDim = 0 ∨ p.embeddingDim = dim) ∧
    ∀ m ∈ p.embeddingModel, m = model

/-- What the routes guarantee of a database whose vector table has `dim` coordinates,
    where what they record of a project is an `R`. -/
structure Kept (dim : Nat) (R : Project → Prop) (db : ServerDb) : Prop extends SchemaOk db where
  vectorDim : db.vectorDim = dim
  status : ∀ n ∈ db.notes, n.status = "active" ∨ n.status = "archived"
  recorded : ∀ p ∈ db.projects, R p

/-- What a server of one configuration records. -/
def Recorded (dim : Nat) (model : String) (p : Project) : Prop :=
  (p.embeddingDim = 0 ∨ p.embeddingDim = dim) ∧ ∀ m ∈ p.embeddingModel, m = model

theorem served_eq_kept (dim : Nat) (model : String) :
    Served dim model = Kept dim (Recorded dim model) := by
  funext db
  exact propext ⟨fun h => ⟨h.toSchemaOk, h.vectorDim, h.status, h.recorded⟩,
    fun h => ⟨h.toSchemaOk, h.vectorDim, h.status, h.recorded⟩⟩

section Checked

variable {α : Type}

theorem checked_eq_ok {a : α} {db : ServerDb} (hu : db.UniqueOk) (hf : db.ForeignKeysOk) :
    checked a db = .ok (a, db) := by
  rw [checked, if_neg (not_not.mpr hu), if_neg (not_not.mpr hf)]

/-- What an accepted statement leaves behind satisfies the constraints. -/
theorem of_checked_eq_ok {a b : α} {db db' : ServerDb} (h : checked a db = .ok (b, db')) :
    b = a ∧ db' = db ∧ db.UniqueOk ∧ db.ForeignKeysOk := by
  rw [checked] at h
  by_cases hu : db.UniqueOk
  · rw [if_neg (not_not.mpr hu)] at h
    by_cases hf : db.ForeignKeysOk
    · rw [if_neg (not_not.mpr hf), Except.ok.injEq, Prod.mk.injEq] at h
      exact ⟨h.1.symm, h.2.symm, hu, hf⟩
    · rw [if_pos hf] at h
      exact absurd h (by simp)
  · rw [if_pos hu] at h
    exact absurd h (by simp)

end Checked

end ServerDb

/-- The handlers of a server with that configuration, whose embedder has its
    dimension. -/
structure AppState.For (dim : Nat) (model : String) (state : AppState) : Prop where
  dim_pos : 0 < dim
  embeddingDim : state.embeddingDim = dim
  embeddingModel : state.embeddingModel = model
  embed : ∀ text, ∀ v ∈ state.embed text, v.length = dim

namespace Server

/-- What a write by the model `model` with `d` coordinates records is an `R`. -/
structure Records (R : Project → Prop) (d : Nat) (model : String) : Prop where
  embeddingDim : ∀ p, R p → R { p with embeddingDim := d }
  embeddingModel : ∀ p, R p → R { p with embeddingModel := some model }
  new : ∀ id slug, R ⟨id, slug, d, some model⟩

theorem records_recorded {dim d : Nat} {model : String} (hd : d = 0 ∨ d = dim) :
    Records (ServerDb.Recorded dim model) d model where
  embeddingDim := fun _ hp => ⟨hd, hp.2⟩
  embeddingModel := fun _ hp => ⟨hp.1, fun _ hm => (Option.mem_some_iff.mp hm).symm⟩
  new := fun _ _ => ⟨hd, fun _ hm => (Option.mem_some_iff.mp hm).symm⟩

/-- What every configuration keeps, one configuration keeps. -/
theorem keeps_served {α : Type} {dim : Nat} {model : String} {m : Sql ServerDb α}
    (h : Sql.Keeps (ServerDb.Kept dim (ServerDb.Recorded dim model)) m) :
    Sql.Keeps (ServerDb.Served dim model) m := by
  rw [ServerDb.served_eq_kept]
  exact h

variable {dim : Nat} {R : Project → Prop}

section Projects

/-- A statement on `projects` that keeps its ids and what may be recorded. -/
theorem kept_setProjects {db : ServerDb} (h : db.Kept dim R) {projects : List Project}
    {next : Nat} (hu : ({ db with projects := projects, nextProjectId := next } : ServerDb).UniqueOk)
    (hf : ({ db with projects := projects, nextProjectId := next } : ServerDb).ForeignKeysOk)
    (hlt : ∀ p ∈ projects, p.id < next)
    (hrecorded : ∀ p ∈ projects, R p) :
    ({ db with projects := projects, nextProjectId := next } : ServerDb).Kept dim R where
  unique := hu
  foreignKeys := hf
  id_lt := h.id_lt
  embedding_lt := h.embedding_lt
  project_lt := hlt
  sorted := h.sorted
  sync_le := h.sync_le
  nil_lt := h.nil_lt
  nil_le := h.nil_le
  vectorDim := h.vectorDim
  status := h.status
  recorded := hrecorded

theorem keeps_updateProject (id : Nat) {f : Project → Project} (hid : ∀ p, (f p).id = p.id)
    (hf : ∀ p, R p → R (f p)) :
    Sql.Keeps (ServerDb.Kept dim R) (updateProject id f) := by
  refine Sql.Keeps.statement (fun db a db' h hstep => ?_)
  rcases ServerDb.of_checked_eq_ok hstep with ⟨_, rfl, hu, hfk⟩
  refine kept_setProjects h hu hfk (fun p hp => ?_) (fun p hp => ?_)
  · rcases List.mem_map.mp hp with ⟨q, hq, rfl⟩
    split
    · rw [hid]
      exact h.project_lt q hq
    · exact h.project_lt q hq
  · rcases List.mem_map.mp hp with ⟨q, hq, rfl⟩
    split
    · exact hf q (h.recorded q hq)
    · exact h.recorded q hq

theorem keeps_insertProject (slug : String) {d : Nat} {model : String} (hd : Records R d model) :
    Sql.Keeps (ServerDb.Kept dim R) (insertProject slug d model) := by
  refine Sql.Keeps.statement (fun db a db' h hstep => ?_)
  rcases ServerDb.of_checked_eq_ok hstep with ⟨_, rfl, hu, hfk⟩
  refine kept_setProjects h hu hfk (fun p hp => ?_) (fun p hp => ?_)
  · rcases List.mem_append.mp hp with hp | hp
    · have := h.project_lt p hp
      omega
    · rw [List.mem_singleton.mp hp]
      exact Nat.lt_succ_self _
  · rcases List.mem_append.mp hp with hp | hp
    · exact h.recorded p hp
    · rw [List.mem_singleton.mp hp]
      exact hd.new _ _

theorem keeps_upsertProject (slug : String) {d : Nat} {model : String} (hd : Records R d model) :
    Sql.Keeps (ServerDb.Kept dim R) (upsertProject slug d model) := by
  refine Sql.Keeps.bind (Sql.Keeps.query _) (fun found => ?_)
  cases found with
  | none => exact keeps_insertProject slug hd
  | some p =>
      simp only []
      split
      · exact Sql.Keeps.fail _
      · split
        · exact Sql.Keeps.fail _
        · refine Sql.Keeps.bind (Sql.Keeps.whenever (keeps_updateProject p.id (fun _ => rfl)
            hd.embeddingDim)) (fun _ => ?_)
          refine Sql.Keeps.bind (Sql.Keeps.whenever (keeps_updateProject p.id (fun _ => rfl)
            hd.embeddingModel)) (fun _ => ?_)
          exact Sql.Keeps.ok _

end Projects

/-- The vectors of a database may be any of rows it has given out. -/
theorem kept_setEmbeddings {db : ServerDb} (h : db.Kept dim R)
    {embeddings : List (Nat × List UInt32)} (hlt : ∀ e ∈ embeddings, e.1 < db.nextId) :
    ({ db with embeddings := embeddings } : ServerDb).Kept dim R :=
  ⟨⟨h.unique, h.foreignKeys, h.id_lt, hlt, h.project_lt, h.sorted, h.sync_le, h.nil_lt, h.nil_le⟩,
    h.vectorDim, h.status, h.recorded⟩

section Rows

theorem post_insertEmbedding (noteId : Nat) (vec : List UInt32) :
    Sql.Post (fun db => noteId < db.nextId ∧ db.Kept dim R) (insertEmbedding noteId vec)
      (fun _ db => db.Kept dim R) (ServerDb.Kept dim R) := by
  refine Sql.Post.execute (fun db db' h hstep => ?_) (fun db h => h.2)
  split at hstep
  · exact absurd hstep (by simp)
  · split at hstep
    · exact absurd hstep (by simp)
    · rw [← Except.ok.inj hstep]
      refine kept_setEmbeddings h.2 (fun e he => ?_)
      rcases List.mem_append.mp he with he | he
      · exact h.2.embedding_lt e he
      · rw [List.mem_singleton.mp he]
        exact h.1

variable [SyncClock]

theorem keeps_insertRow {r : ServerRow} (hr : r.status = "active" ∨ r.status = "archived") :
    Sql.Keeps (ServerDb.Kept dim R) (insertRow r) := by
  refine Sql.Keeps.statement (fun db a db' h hstep => ?_)
  rcases ServerDb.of_checked_eq_ok hstep with ⟨_, rfl, hu, hfk⟩
  have hlt := SyncClock.lt_nowV7 db.lastSyncId
  have hcases : ∀ n ∈ db.notes ++ [{ r with
      id := db.nextId, syncId := SyncClock.nowV7 db.lastSyncId }],
      n ∈ db.notes ∨ n = { r with id := db.nextId, syncId := SyncClock.nowV7 db.lastSyncId } := by
    intro n hn
    rcases List.mem_append.mp hn with hn | hn
    · exact Or.inl hn
    · exact Or.inr (List.mem_singleton.mp hn)
  refine ⟨⟨hu, hfk, ?_, ?_, h.project_lt, ?_, ?_, ?_, (h.nil_le.trans_lt hlt).le⟩, h.vectorDim, ?_,
    h.recorded⟩
  · intro n hn
    rcases hcases n hn with hn | rfl
    · exact (h.id_lt n hn).trans (Nat.lt_succ_self _)
    · exact Nat.lt_succ_self _
  · exact fun e he => (h.embedding_lt e he).trans (Nat.lt_succ_self _)
  · rw [List.map_append, List.pairwise_append]
    refine ⟨h.sorted, List.pairwise_singleton _ _, fun a ha b hb => ?_⟩
    rcases List.mem_map.mp ha with ⟨n, hn, rfl⟩
    rw [List.map_singleton, List.mem_singleton] at hb
    rw [hb]
    exact (h.sync_le n hn).trans_lt hlt
  · intro n hn
    rcases hcases n hn with hn | rfl
    · exact ((h.sync_le n hn).trans_lt hlt).le
    · exact le_refl _
  · intro n hn
    rcases hcases n hn with hn | rfl
    · exact h.nil_lt n hn
    · exact h.nil_le.trans_lt hlt
  · intro n hn
    rcases hcases n hn with hn | rfl
    · exact h.status n hn
    · exact hr

/-- An inserted row has a rowid given out. -/
theorem post_insertRow {r : ServerRow} (hr : r.status = "active" ∨ r.status = "archived") :
    Sql.Post (ServerDb.Kept dim R) (insertRow r)
      (fun p db => p.1 < db.nextId ∧ db.Kept dim R) (ServerDb.Kept dim R) := by
  intro c hc
  have hkeeps := keeps_insertRow hr c hc
  refine ⟨fun p hp => ⟨?_, hkeeps⟩, fun _ _ => hkeeps⟩
  have hlt : Sql.Post (fun _ => True) (insertRow r) (fun p db => p.1 < db.nextId)
      (fun _ => True) := by
    refine Sql.Post.statement (fun db p db' _ hstep => ?_) (fun _ _ => trivial)
    rcases ServerDb.of_checked_eq_ok hstep with ⟨rfl, rfl, _, _⟩
    exact Nat.lt_succ_self _
  exact (hlt c trivial).1 p hp

theorem keeps_addNote (now : Int) (projectId : Nat) (kind title body : String)
    (tags linkedFiles : List String) (embedding : Option (List UInt32))
    (remoteId : Option String) : Sql.Keeps (ServerDb.Kept dim R)
      (addNote now projectId kind title body tags linkedFiles embedding remoteId) := by
  refine Sql.Post.keeps ?_
  refine Sql.Post.bind (post_insertRow (Or.inl rfl)) (fun p => ?_)
  rcases embedding with _ | vec
  · exact Sql.Post.ok _ (fun db h => h.2)
  · exact Sql.Post.bind (post_insertEmbedding p.1 vec) (fun _ => Sql.Post.ok _ (fun db h => h))

end Rows

/-- An update of the rows that keeps what identifies them. -/
theorem kept_mapNotes {db : ServerDb} (h : db.Kept dim R) {f : ServerRow → ServerRow}
    (hid : ∀ r, (f r).id = r.id) (hsync : ∀ r, (f r).syncId = r.syncId)
    (hstatus : ∀ r, (f r).status = r.status ∨ (f r).status = "archived")
    (hu : ({ db with notes := db.notes.map f } : ServerDb).UniqueOk)
    (hfk : ({ db with notes := db.notes.map f } : ServerDb).ForeignKeysOk) :
    ({ db with notes := db.notes.map f } : ServerDb).Kept dim R := by
  have hmap : (db.notes.map f).map (·.syncId) = db.notes.map (·.syncId) := by
    rw [List.map_map]
    exact List.map_congr_left (fun r _ => hsync r)
  have hall : ∀ {P : ServerRow → Prop}, (∀ r ∈ db.notes, P (f r)) → ∀ n ∈ db.notes.map f, P n := by
    intro P hP n hn
    rcases List.mem_map.mp hn with ⟨r, hr, rfl⟩
    exact hP r hr
  refine ⟨⟨hu, hfk, ?_, h.embedding_lt, h.project_lt, ?_, ?_, ?_, h.nil_le⟩, h.vectorDim, ?_,
    h.recorded⟩
  · exact hall (fun r hr => (hid r).symm ▸ h.id_lt r hr)
  · rw [hmap]
    exact h.sorted
  · exact hall (fun r hr => (hsync r).symm ▸ h.sync_le r hr)
  · exact hall (fun r hr => (hsync r).symm ▸ h.nil_lt r hr)
  · refine hall (fun r hr => ?_)
    rcases hstatus r with heq | heq
    · exact heq.symm ▸ h.status r hr
    · exact Or.inr heq

theorem keeps_archiveNote (projectId noteId : Nat) :
    Sql.Keeps (ServerDb.Kept dim R) (archiveNote projectId noteId) := by
  refine Sql.Keeps.statement (fun db a db' h hstep => ?_)
  rcases ServerDb.of_checked_eq_ok hstep with ⟨_, rfl, hu, hfk⟩
  refine kept_mapNotes h (fun r => ?_) (fun r => ?_) (fun r => ?_) hu hfk
  all_goals split
  · rfl
  · rfl
  · rfl
  · rfl
  · exact Or.inr rfl
  · exact Or.inl rfl

theorem keeps_supersedeNote (projectId oldId newId : Nat) :
    Sql.Keeps (ServerDb.Kept dim R) (supersedeNote projectId oldId newId) := by
  refine Sql.Keeps.statement (fun db a db' h hstep => ?_)
  rcases ServerDb.of_checked_eq_ok hstep with ⟨_, rfl, hu, hfk⟩
  refine kept_mapNotes h (fun r => ?_) (fun r => ?_) (fun r => ?_) hu hfk
  all_goals split
  · rfl
  · rfl
  · rfl
  · rfl
  · exact Or.inr rfl
  · exact Or.inl rfl

theorem keeps_deleteNote (projectId noteId : Nat) :
    Sql.Keeps (ServerDb.Kept dim R) (deleteNote projectId noteId) := by
  refine Sql.Keeps.bind (Sql.Keeps.execute (fun db db' h hstep => ?_)) (fun _ =>
    Sql.Keeps.statement (fun db a db' h hstep => ?_))
  · rw [← Except.ok.inj hstep]
    exact kept_setEmbeddings h (fun e he => h.embedding_lt e (List.mem_filter.mp he).1)
  · rcases ServerDb.of_checked_eq_ok hstep with ⟨_, rfl, hu, hfk⟩
    refine ⟨⟨hu, hfk, ?_, h.embedding_lt, h.project_lt, ?_, ?_, ?_, h.nil_le⟩, h.vectorDim, ?_,
      h.recorded⟩
    · exact fun n hn => h.id_lt n (List.mem_filter.mp hn).1
    · exact h.sorted.sublist ((List.filter_sublist).map _)
    · exact fun n hn => h.sync_le n (List.mem_filter.mp hn).1
    · exact fun n hn => h.nil_lt n (List.mem_filter.mp hn).1
    · exact fun n hn => h.status n (List.mem_filter.mp hn).1

section Routes

variable {state : AppState}

theorem keeps_requireProject {I : ServerDb → Prop} (slug : String) :
    Sql.Keeps I (requireProject slug) := by
  unfold requireProject
  split
  · exact Sql.Keeps.fail _
  · refine Sql.Keeps.bind (Sql.Keeps.query _) (fun found => ?_)
    cases found with
    | none => exact Sql.Keeps.fail _
    | some p => exact Sql.Keeps.ok _

theorem keeps_findByRemoteIds {I : ServerDb → Prop} (projectId : Nat) (remoteIds : List String) :
    Sql.Keeps I (findByRemoteIds projectId remoteIds) := by
  unfold findByRemoteIds
  split
  · exact Sql.Keeps.ok _
  · exact Sql.Keeps.query _

/-- A vector is the client's, checked, or the server's own. -/
theorem length_entryEmbedding {model : String} (hstate : state.For dim model) {title body : String}
    {embedding : Option (List UInt32)}
    (hvalid : validateEmbeddingDim embedding state.embeddingDim = .ok ()) :
    ∀ v ∈ entryEmbedding state title body embedding, v.length = dim := by
  intro v hv
  rcases embedding with _ | w
  · rw [entryEmbedding, Option.none_or] at hv
    exact hstate.embed _ v hv
  · rw [entryEmbedding, Option.some_or, Option.mem_some_iff] at hv
    subst hv
    by_contra hne
    have hpos := hstate.dim_pos
    rw [validateEmbeddingDim, hstate.embeddingDim, if_pos ⟨by omega, hne⟩] at hvalid
    exact absurd hvalid (by simp)

variable [SyncClock]

theorem keeps_pushEntry (projectId : Nat) (s : BatchLoop) (entry : BatchNoteItem) :
    Sql.Keeps (ServerDb.Kept dim R) (pushEntry state projectId s entry) := by
  unfold pushEntry
  split
  · exact Sql.Keeps.ok _
  · exact Sql.Keeps.bind (keeps_addNote _ _ _ _ _ _ _ _ _) (fun _ => Sql.Keeps.ok _)

theorem keeps_pushMemoryBatch (slug : String) (entries : List BatchNoteItem)
    (hstate : Records R state.embeddingDim state.embeddingModel) :
    Sql.Keeps (ServerDb.Kept dim R) (pushMemoryBatch state slug entries) := by
  unfold pushMemoryBatch
  split
  · exact Sql.Keeps.fail _
  · exact Sql.Keeps.ok _
  · unfold storeBatch
    refine Sql.Keeps.bind (keeps_upsertProject slug hstate) (fun p => ?_)
    refine Sql.Keeps.bind (keeps_findByRemoteIds _ _) (fun existing => ?_)
    refine Sql.Keeps.bind (Sql.Keeps.foldEach _ _ (fun s entry _ => keeps_pushEntry _ s entry))
      (fun s => Sql.Keeps.ok _)

/-- The dimension a single entry records is that of its vector, 0 where it has none. -/
theorem keeps_addNoteRoute (slug : String) (req : AddNoteRequest)
    (hstate : validateEmbeddingDim req.embedding state.embeddingDim = .ok () →
      Records R (((entryEmbedding state req.title req.body req.embedding).map
        List.length).getD 0) state.embeddingModel) :
    Sql.Keeps (ServerDb.Kept dim R) (addNoteRoute state slug req) := by
  unfold addNoteRoute
  split
  · exact Sql.Keeps.fail _
  · split
    · exact Sql.Keeps.fail _
    · split
      · exact Sql.Keeps.fail _
      case h_2 hvalid =>
        split
        · exact Sql.Keeps.ok _
        · refine Sql.Keeps.bind (keeps_upsertProject slug (hstate hvalid)) (fun p => ?_)
          exact Sql.Keeps.bind (keeps_addNote _ _ _ _ _ _ _ _ _) (fun _ => Sql.Keeps.ok _)

/-- What a request may record of its project is an `R`. -/
def RecordsOf (R : Project → Prop) (state : AppState) : Request → Prop
  | .addNote _ req => validateEmbeddingDim req.embedding state.embeddingDim = .ok () →
      Records R (((entryEmbedding state req.title req.body req.embedding).map
        List.length).getD 0) state.embeddingModel
  | .pushBatch .. => Records R state.embeddingDim state.embeddingModel
  | _ => True

/-- Every request keeps what the routes guarantee, with any fault. -/
theorem keeps_serve_kept (req : Request) (hreq : RecordsOf R state req) :
    Sql.Keeps (ServerDb.Kept dim R) (serve state req) := by
  cases req with
  | addNote slug req => exact keeps_addNoteRoute slug req hreq
  | pushBatch slug entries =>
      exact Sql.Keeps.bind (keeps_pushMemoryBatch slug entries hreq) (fun _ => Sql.Keeps.ok _)
  | archive slug noteId =>
      exact Sql.Keeps.bind (keeps_requireProject slug) (fun p =>
        Sql.Keeps.bind (keeps_archiveNote _ _) (fun _ => Sql.Keeps.ok _))
  | supersede slug noteId newId =>
      exact Sql.Keeps.bind (keeps_requireProject slug) (fun p =>
        Sql.Keeps.bind (keeps_supersedeNote _ _ _) (fun _ => Sql.Keeps.ok _))
  | delete slug noteId =>
      exact Sql.Keeps.bind (keeps_requireProject slug) (fun p =>
        Sql.Keeps.bind (keeps_deleteNote _ _) (fun _ => Sql.Keeps.ok _))

/-- A server of one configuration records its own dimension and model. -/
theorem keeps_serve {model : String} (hstate : state.For dim model) (req : Request) :
    Sql.Keeps (ServerDb.Served dim model) (serve state req) := by
  refine keeps_served (keeps_serve_kept req ?_)
  cases req with
  | addNote slug req =>
      intro hvalid
      rw [hstate.embeddingModel]
      refine records_recorded ?_
      rcases hv : entryEmbedding state req.title req.body req.embedding with _ | v
      · exact Or.inl rfl
      · exact Or.inr (length_entryEmbedding hstate hvalid v hv)
  | pushBatch slug entries =>
      have hrecords : Records (ServerDb.Recorded dim model) state.embeddingDim
          state.embeddingModel := by
        rw [hstate.embeddingDim, hstate.embeddingModel]
        exact records_recorded (Or.inr rfl)
      exact hrecords
  | archive | supersede | delete => trivial

end Routes

end Server

/-- The databases a server reaches from an empty one by requests to any project,
    each stopped by a fault or not. -/
def ServerReached [SyncClock] (dim : Nat) (model : String) : ServerDb → Prop :=
  GuardedRun (fun db (r : AppState × Server.Request × Option Nat) db' =>
    db' = (Server.serve r.1 r.2.1 ⟨db, r.2.2⟩).2.db) (fun _ r => r.1.For dim model)
    (emptyServer dim)

theorem served_emptyServer (dim : Nat) (model : String) : (emptyServer dim).Served dim model where
  unique := ⟨List.nodup_nil, List.nodup_nil, List.nodup_nil, List.nodup_nil, List.nodup_nil⟩
  foreignKeys := fun _ hn => absurd hn List.not_mem_nil
  id_lt := fun _ hn => absurd hn List.not_mem_nil
  embedding_lt := fun _ he => absurd he List.not_mem_nil
  project_lt := fun _ hp => absurd hp List.not_mem_nil
  sorted := List.Pairwise.nil
  sync_le := fun _ hn => absurd hn List.not_mem_nil
  nil_lt := fun _ hn => absurd hn List.not_mem_nil
  nil_le := le_refl _
  vectorDim := rfl
  status := fun _ hn => absurd hn List.not_mem_nil
  recorded := fun _ hp => absurd hp List.not_mem_nil

/-- Every database a server reaches has what its routes guarantee. -/
theorem ServerReached.served [SyncClock] {dim : Nat} {model : String} {db : ServerDb}
    (h : ServerReached dim model db) : db.Served dim model := by
  refine GuardedRun.invariant h (served_emptyServer dim model) (fun db r db' hdb hguard hstep => ?_)
  rw [hstep]
  exact Server.keeps_serve hguard r.2.1 ⟨db, r.2.2⟩ hdb

end Spelunk
