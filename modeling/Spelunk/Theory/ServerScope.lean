import Spelunk.Theory.ServerBatchLaw

/-!
# The Scope of a Write

A write is addressed to one project. This module says what it may touch: the rows
of that project, with their vectors and the links out of them, and nothing of any
other. All routes keep to it on every database the schema admits, stopped by a
fault or not, with two exceptions. The deletion of a row deletes the vector under
the rowid before it looks whose row it is, and the route that supersedes a row does
not look whose row the successor is.

## Main definitions

* `ServerDb.target`: The id the project of a slug has, or will have.
* `ServerDb.Within`: What may come of a database by writes to one project.
* `ScopeLaw`: The law of one request.
* `Server.StaysInProject`: When it holds.

## Theorems

* `keeps_respond_within`: A request that stays in its project keeps to it.
* `scopeLaw_iff`: The law holds exactly of those requests.
-/

namespace Spelunk

open Lib (Sql SqlError Conn GuardedRun)

namespace ServerDb

/-- The id the project of a slug has, or gets when it is made. -/
def target (db : ServerDb) (slug : String) : Nat :=
  ((db.getProject slug).map (·.id)).getD db.nextProjectId

/-- The rows of a project. -/
def notesOf (db : ServerDb) (projectId : Nat) : List ServerRow :=
  db.notes.filter (·.projectId = projectId)

/-- The vectors of the rows of a project. -/
def vectorsOf (db : ServerDb) (projectId : Nat) : List (Nat × List UInt32) :=
  db.embeddings.filter (fun e => e.1 ∈ (db.notesOf projectId).map (·.id))

/-- The rowid is one of another project's rows. -/
def Foreign (db : ServerDb) (projectId noteId : Nat) : Prop :=
  ∃ n ∈ db.notes, n.id = noteId ∧ n.projectId ≠ projectId

instance (db : ServerDb) (projectId noteId : Nat) : Decidable (db.Foreign projectId noteId) := by
  unfold Foreign
  infer_instance

/-- What may come of `db` by writes to the project of `slug`. -/
structure Within (db : ServerDb) (slug : String) (s : ServerDb) : Prop where
  /-- The slug names one project. -/
  named : ∀ p ∈ s.projects, p.slug = slug → p.id = db.target slug
  /-- The other projects are still there. -/
  projects : ∀ q ∈ db.projects, q.id ≠ db.target slug → q ∈ s.projects
  notes : s.notes.filter (·.projectId ≠ db.target slug) =
    db.notes.filter (·.projectId ≠ db.target slug)
  vectors : s.embeddings.filter (fun e => db.Foreign (db.target slug) e.1) =
    db.embeddings.filter (fun e => db.Foreign (db.target slug) e.1)
  nextId_le : db.nextId ≤ s.nextId
  /-- A link out of the project was there before. -/
  links : ∀ r ∈ s.notes, r.projectId = db.target slug → ∀ v ∈ r.supersededBy,
    db.Foreign (db.target slug) v →
    ∃ r₀ ∈ db.notes, r₀.projectId = r.projectId ∧ r₀.id = r.id ∧ r₀.supersededBy = some v

end ServerDb

/-- The answer says that nothing was changed. -/
def Server.Reply.SaysUnchanged : Server.Reply → Prop
  | .stored => False
  | .batch (.multiStatus created _ _ _) => created = 0
  | .batch (.injectionDetected ..) => True
  | .changed modified => modified = false

/-- What then is the same: with a batch every entry of which was known, the notes
    and vectors, else the whole database. -/
def Server.Reply.Untouched (db db' : ServerDb) : Server.Reply → Prop
  | .batch (.multiStatus ..) => db'.notes = db.notes ∧ db'.embeddings = db.embeddings
  | _ => db' = db

/-- The slug a request is addressed to. -/
def Server.Request.slug : Server.Request → String
  | .addNote slug _ => slug
  | .pushBatch slug _ => slug
  | .archive slug _ => slug
  | .supersede slug _ _ => slug
  | .delete slug _ => slug

/-- The scope of a request on one database, with a fault at any statement or none:
    every other project keeps its rows, their links and their vectors; no row of
    this one comes to point to a row of another; and an answer that says that
    nothing was changed is right. -/
def ScopeLaw [SyncClock] (state : AppState) (req : Server.Request) (db : ServerDb) : Prop :=
  ∀ failAfter,
    let out := Server.respond state req ⟨db, failAfter⟩
    (∀ q ∈ db.projects, q.slug ≠ req.slug → q ∈ out.2.db.projects ∧
      out.2.db.notesOf q.id = db.notesOf q.id ∧ out.2.db.vectorsOf q.id = db.vectorsOf q.id) ∧
    (∀ p ∈ out.2.db.projects, p.slug = req.slug → ∀ r ∈ out.2.db.notesOf p.id,
      ∀ v ∈ r.supersededBy, out.2.db.Foreign p.id v →
      ∃ r₀ ∈ db.notesOf p.id, r₀.id = r.id ∧ r₀.supersededBy = some v) ∧
    ∀ reply, out.1 = .ok reply → reply.SaysUnchanged → reply.Untouched db out.2.db

/-- The request does not reach beyond its project: a deletion is of a row of the
    project or of a rowid without a vector, and a live row of the project gets no
    successor in another. -/
def Server.StaysInProject (db : ServerDb) : Server.Request → Prop
  | .addNote .. | .pushBatch .. | .archive .. => True
  | .supersede slug noteId newId =>
      validateProjectSlug slug = .ok () → ∀ p, db.getProject slug = some p →
        ∀ r ∈ db.notes, r.id = noteId → r.projectId = p.id → r.live = true →
          db.Foreign p.id newId → r.supersededBy = some newId
  | .delete slug noteId =>
      validateProjectSlug slug = .ok () → ∀ p, db.getProject slug = some p →
        (∃ e ∈ db.embeddings, e.1 = noteId) → ∃ r ∈ db.notes, r.id = noteId ∧ r.projectId = p.id

section Target

variable {db : ServerDb} {slug : String}

/-- A slug has at most one project. -/
theorem getProject_of_mem (h : db.UniqueOk) {p : Project} (hp : p ∈ db.projects)
    (hslug : p.slug = slug) : db.getProject slug = some p := by
  rcases hfound : db.getProject slug with _ | q
  · exact absurd (decide_eq_true hslug) (List.find?_eq_none.mp hfound p hp)
  · rcases getProject_mem hfound with ⟨hq, hqslug⟩
    rw [List.inj_on_of_nodup_map h.2.2.2.2 hq hp (hqslug.trans hslug.symm)]

theorem target_of_getProject {p : Project} (h : db.getProject slug = some p) :
    db.target slug = p.id := by
  rw [ServerDb.target, h]
  rfl

theorem target_of_none (h : db.getProject slug = none) : db.target slug = db.nextProjectId := by
  rw [ServerDb.target, h]
  rfl

/-- Another project has another id. -/
theorem target_ne (h : db.SchemaOk) {q : Project} (hq : q ∈ db.projects) (hslug : q.slug ≠ slug) :
    q.id ≠ db.target slug := by
  intro heq
  rcases hfound : db.getProject slug with _ | p
  · rw [target_of_none hfound] at heq
    have := h.project_lt q hq
    omega
  · rw [target_of_getProject hfound] at heq
    rcases getProject_mem hfound with ⟨hp, hpslug⟩
    exact hslug ((List.inj_on_of_nodup_map h.unique.2.2.2.1 hq hp heq).symm ▸ hpslug)

theorem within_refl (h : db.SchemaOk) : db.Within slug db where
  named := fun _ hp hslug => (target_of_getProject (getProject_of_mem h.unique hp hslug)).symm
  projects := fun _ hq _ => hq
  notes := rfl
  vectors := rfl
  nextId_le := le_refl _
  links := fun r hr _ _ hv _ => ⟨r, hr, rfl, rfl, hv⟩

/-- What another project has is what it had. -/
theorem others_of_within {s : ServerDb} (h : db.SchemaOk) (hs : db.Within slug s) {q : Project}
    (hq : q ∈ db.projects) (hslug : q.slug ≠ slug) :
    q ∈ s.projects ∧ s.notesOf q.id = db.notesOf q.id ∧ s.vectorsOf q.id = db.vectorsOf q.id := by
  have hne := target_ne h hq hslug
  have hsplit : ∀ d : ServerDb,
      d.notesOf q.id = (d.notes.filter (·.projectId ≠ db.target slug)).filter
        (·.projectId = q.id) := by
    intro d
    rw [List.filter_filter, ServerDb.notesOf]
    refine List.filter_congr (fun n _ => ?_)
    by_cases hn : n.projectId = q.id
    · simp only [hn, decide_true, hne, ne_eq, not_false_eq_true, Bool.and_self]
    · simp only [hn, decide_false, Bool.false_and]
  have hnotes : s.notesOf q.id = db.notesOf q.id := by
    rw [hsplit s, hsplit db, hs.notes]
  -- A vector of the other project lies under a rowid the frame keeps.
  have hvectors : ∀ l : List (Nat × List UInt32),
      l.filter (fun e => e.1 ∈ (db.notesOf q.id).map (·.id)) =
        (l.filter (fun e => db.Foreign (db.target slug) e.1)).filter
          (fun e => e.1 ∈ (db.notesOf q.id).map (·.id)) := by
    intro l
    rw [List.filter_filter]
    refine List.filter_congr (fun e _ => ?_)
    by_cases he : e.1 ∈ (db.notesOf q.id).map (·.id)
    · rcases List.mem_map.mp he with ⟨n, hn, hid⟩
      rcases List.mem_filter.mp hn with ⟨hmem, hproject⟩
      have hforeign : db.Foreign (db.target slug) e.1 :=
        ⟨n, hmem, hid, fun heq => hne ((of_decide_eq_true hproject).symm.trans heq)⟩
      simp only [he, hforeign, decide_true, Bool.and_self]
    · simp only [he, decide_false, Bool.false_and]
  refine ⟨hs.projects q hq hne, hnotes, ?_⟩
  rw [ServerDb.vectorsOf, ServerDb.vectorsOf, hnotes, hvectors s.embeddings,
    hvectors db.embeddings, hs.vectors]

/-- The rows of other projects are the same, so a rowid is one of theirs or not. -/
theorem foreign_of_within {s : ServerDb} (hs : db.Within slug s) {v : Nat} :
    s.Foreign (db.target slug) v ↔ db.Foreign (db.target slug) v := by
  have hiff : ∀ d : ServerDb, d.Foreign (db.target slug) v ↔
      ∃ n ∈ d.notes.filter (·.projectId ≠ db.target slug), n.id = v := by
    intro d
    constructor
    · rintro ⟨n, hn, hid, hne⟩
      exact ⟨n, List.mem_filter.mpr ⟨hn, decide_eq_true hne⟩, hid⟩
    · rintro ⟨n, hn, hid⟩
      rcases List.mem_filter.mp hn with ⟨hmem, hne⟩
      exact ⟨n, hmem, hid, of_decide_eq_true hne⟩
  rw [hiff s, hiff db, hs.notes]

/-- The links out of the project were there before. -/
theorem links_of_within {s : ServerDb} (hs : db.Within slug s) {p : Project}
    (hp : p ∈ s.projects) (hslug : p.slug = slug) {r : ServerRow} (hr : r ∈ s.notesOf p.id)
    {v : Nat} (hv : v ∈ r.supersededBy) (hforeign : s.Foreign p.id v) :
    ∃ r₀ ∈ db.notesOf p.id, r₀.id = r.id ∧ r₀.supersededBy = some v := by
  have hid := hs.named p hp hslug
  rcases List.mem_filter.mp hr with ⟨hmem, hproject⟩
  have hproject := of_decide_eq_true hproject
  rw [hid] at hforeign
  rcases hs.links r hmem (hproject.trans hid) v hv ((foreign_of_within hs).mp hforeign) with
    ⟨r₀, hr₀, hsame, hid₀, hlink⟩
  exact ⟨r₀, List.mem_filter.mpr ⟨hr₀, decide_eq_true (hsame.trans hproject)⟩, hid₀, hlink⟩

end Target

namespace Server

variable {db : ServerDb} {slug : String}

section Statements

theorem keeps_updateProject_within {f : Project → Project} (hid : ∀ p, (f p).id = p.id) :
    Sql.Keeps (db.Within slug) (updateProject (db.target slug) f) := by
  refine Sql.Keeps.statement (fun s a s' hs hstep => ?_)
  rcases ServerDb.of_checked_eq_ok hstep with ⟨_, rfl, _, _⟩
  refine ⟨fun p hp hpslug => ?_, fun q hq hne => ?_, hs.notes, hs.vectors, hs.nextId_le, hs.links⟩
  · rcases List.mem_map.mp hp with ⟨q, hq, rfl⟩
    split
    case isTrue heq => rw [hid, heq]
    case isFalse hne =>
      rw [if_neg hne] at hpslug
      exact hs.named q hq hpslug
  · exact List.mem_map.mpr ⟨q, hs.projects q hq hne, if_neg hne⟩

/-- The project of a write is the one of its slug. -/
theorem post_upsertProject_within (h : db.SchemaOk) (dim : Nat) (model : String) :
    Sql.Post (fun s => s = db) (upsertProject slug dim model)
      (fun p s => p.id = db.target slug ∧ db.Within slug s) (db.Within slug) := by
  have hstart : ∀ s, s = db → db.Within slug s := fun s hs => by
    rw [hs]
    exact within_refl h
  refine Sql.Post.bind (Q := fun found s => found = db.getProject slug ∧ s = db)
    (Sql.Post.query _ (fun s hs => by rw [hs]; exact ⟨rfl, rfl⟩) hstart)
    (fun found => Sql.Post.of_pre (fun hfound => ?_))
  subst hfound
  rcases hget : db.getProject slug with _ | p
  · -- A new project takes the next id.
    refine Sql.Post.statement (fun s a s' hs hstep => ?_) hstart
    rcases ServerDb.of_checked_eq_ok hstep with ⟨rfl, rfl, hu, _⟩
    rw [hs]
    have hnew := target_of_none hget
    have hrefl : db.Within slug db := within_refl h
    refine ⟨hnew.symm, fun q hq hqslug => ?_, fun q hq _ => List.mem_append_left _ hq, rfl, rfl,
      le_refl _, hrefl.links⟩
    rcases List.mem_append.mp hq with hq | hq
    · exact hrefl.named q hq hqslug
    · rw [List.mem_singleton.mp hq]
      exact hnew.symm
  · have hid := target_of_getProject hget
    simp only []
    split
    · exact Sql.Post.fail _ hstart
    · split
      · exact Sql.Post.fail _ hstart
      · -- The two columns of the project itself.
        refine Sql.Post.mono (P := db.Within slug) ?_ hstart (fun _ _ hq => hq) (fun _ hs => hs)
        rw [← hid]
        refine Sql.Post.bind (Sql.Post.of_keeps (Sql.Keeps.whenever
          (keeps_updateProject_within (fun _ => rfl)))) (fun _ => ?_)
        refine Sql.Post.bind (Sql.Post.of_keeps (Sql.Keeps.whenever
          (keeps_updateProject_within (fun _ => rfl)))) (fun _ => ?_)
        exact Sql.Post.ok _ (fun _ hs => ⟨rfl, hs⟩)

/-- Registering the project leaves notes and vectors alone. -/
theorem keeps_upsertProject_notes (db : ServerDb) (dim : Nat) (model : String) :
    Sql.Keeps (fun s => s.notes = db.notes ∧ s.embeddings = db.embeddings)
      (upsertProject slug dim model) := by
  have hupdate : ∀ id f, Sql.Keeps (fun s => s.notes = db.notes ∧ s.embeddings = db.embeddings)
      (updateProject id f) := fun id f => Sql.Keeps.statement (fun s a s' hs hstep => by
    rcases ServerDb.of_checked_eq_ok hstep with ⟨_, rfl, _, _⟩
    exact hs)
  refine Sql.Keeps.bind (Sql.Keeps.query _) (fun found => ?_)
  rcases found with _ | p
  · refine Sql.Keeps.statement (fun s a s' hs hstep => ?_)
    rcases ServerDb.of_checked_eq_ok hstep with ⟨_, rfl, _, _⟩
    exact hs
  · simp only []
    split
    · exact Sql.Keeps.fail _
    · split
      · exact Sql.Keeps.fail _
      · exact Sql.Keeps.bind (Sql.Keeps.whenever (hupdate _ _)) (fun _ =>
          Sql.Keeps.bind (Sql.Keeps.whenever (hupdate _ _)) (fun _ => Sql.Keeps.ok _))

/-- A vector under a rowid given out since is nobody else's. -/
theorem keeps_insertEmbedding_within (h : db.SchemaOk) {noteId : Nat} (hnew : db.nextId ≤ noteId)
    (vec : List UInt32) : Sql.Keeps (db.Within slug) (insertEmbedding noteId vec) := by
  refine Sql.Keeps.execute (fun s s' hs hstep => ?_)
  split at hstep
  · exact absurd hstep (by simp)
  · split at hstep
    · exact absurd hstep (by simp)
    · rw [← Except.ok.inj hstep]
      refine ⟨hs.named, hs.projects, hs.notes, ?_, hs.nextId_le, hs.links⟩
      have hown : ¬ db.Foreign (db.target slug) noteId := by
        rintro ⟨n, hn, hid, _⟩
        have := h.id_lt n hn
        omega
      rw [List.filter_append, hs.vectors, List.filter_cons_of_neg (by simpa using hown),
        List.filter_nil, List.append_nil]

variable [SyncClock]

/-- A new row of the project has no successor yet, and a rowid given out since. -/
theorem post_insertRow_within {r : ServerRow} (hproject : r.projectId = db.target slug)
    (hlink : r.supersededBy = none) :
    Sql.Post (db.Within slug) (insertRow r) (fun p s => db.nextId ≤ p.1 ∧ db.Within slug s)
      (db.Within slug) := by
  refine Sql.Post.statement (fun s a s' hs hstep => ?_) (fun _ hs => hs)
  rcases ServerDb.of_checked_eq_ok hstep with ⟨rfl, rfl, _, _⟩
  refine ⟨hs.nextId_le, hs.named, hs.projects, ?_, hs.vectors,
    hs.nextId_le.trans (Nat.le_succ _), fun n hn hown v hv hforeign => ?_⟩
  · rw [List.filter_append, hs.notes, List.filter_cons_of_neg (by simp [hproject]),
      List.filter_nil, List.append_nil]
  · rcases List.mem_append.mp hn with hn | hn
    · exact hs.links n hn hown v hv hforeign
    · rw [List.mem_singleton.mp hn] at hv
      exact absurd (hlink.symm.trans hv) (by simp)

theorem keeps_addNote_within (h : db.SchemaOk) (now : Int) (kind title body : String)
    (tags linkedFiles : List String) (embedding : Option (List UInt32))
    (remoteId : Option String) : Sql.Keeps (db.Within slug)
      (addNote now (db.target slug) kind title body tags linkedFiles embedding remoteId) := by
  refine Sql.Post.keeps ?_
  refine Sql.Post.bind (post_insertRow_within rfl rfl) (fun p => Sql.Post.of_pre (fun hnew => ?_))
  rcases embedding with _ | vec
  · exact Sql.Post.ok _ (fun _ hs => hs)
  · exact Sql.Post.bind (Sql.Post.of_keeps (keeps_insertEmbedding_within h hnew vec))
      (fun _ => Sql.Post.ok _ (fun _ hs => hs))

end Statements

/-- An update of rows of the project, which keeps what identifies them and links
    them to no row of another. -/
theorem within_mapNotes {s : ServerDb} (hs : db.Within slug s) {f : ServerRow → ServerRow}
    (hid : ∀ r, (f r).id = r.id) (hproject : ∀ r, (f r).projectId = r.projectId)
    (hown : ∀ r ∈ s.notes, r.projectId ≠ db.target slug → f r = r)
    (hlink : ∀ r ∈ s.notes, ∀ v ∈ (f r).supersededBy, db.Foreign (db.target slug) v →
      r.supersededBy = some v) :
    db.Within slug { s with notes := s.notes.map f } := by
  refine ⟨hs.named, hs.projects, ?_, hs.vectors, hs.nextId_le, fun n hn hown' v hv hforeign => ?_⟩
  · rw [← hs.notes]
    have hfix : ∀ l : List ServerRow, (∀ r ∈ l, r.projectId ≠ db.target slug → f r = r) →
        (l.map f).filter (·.projectId ≠ db.target slug) =
          l.filter (·.projectId ≠ db.target slug) := by
      intro l
      induction l with
      | nil => exact fun _ => rfl
      | cons r l ih =>
          intro hl
          have hrest := ih (fun r hr => hl r (List.mem_cons_of_mem _ hr))
          by_cases hr : r.projectId = db.target slug
          · rw [List.map_cons, List.filter_cons_of_neg (by simp [hproject, hr]),
              List.filter_cons_of_neg (by simp [hr]), hrest]
          · rw [List.map_cons, List.filter_cons_of_pos (by simp [hproject, hr]),
              List.filter_cons_of_pos (by simp [hr]), hrest, hl r List.mem_cons_self hr]
    exact hfix s.notes hown
  · rcases List.mem_map.mp hn with ⟨r, hr, rfl⟩
    rw [hproject] at hown' ⊢
    rw [hid]
    exact hs.links r hr hown' v (hlink r hr v hv hforeign) hforeign

section Changes

theorem post_archiveNote_within (h : db.SchemaOk) (noteId : Nat) :
    Sql.Post (fun s => s = db) (archiveNote (db.target slug) noteId)
      (fun changed s => db.Within slug s ∧ (changed = false → s = db)) (fun s => s = db) := by
  refine Sql.Post.statement (fun s a s' hs hstep => ?_) (fun _ hs => hs)
  rcases ServerDb.of_checked_eq_ok hstep with ⟨rfl, rfl, _, _⟩
  subst hs
  refine ⟨within_mapNotes (within_refl h) (fun r => ?_) (fun r => ?_) (fun r _ hr => ?_)
    (fun r _ v hv _ => ?_), fun hnone => ?_⟩
  · split <;> rfl
  · split <;> rfl
  · exact if_neg (by simp [hr])
  · split at hv <;> exact hv
  · have hfix : s.notes.map (fun r => if decide (r.id = noteId ∧ r.projectId = s.target slug ∧
        r.live = true) = true then { r with status := "archived" } else r) = s.notes :=
      (List.map_congr_left (g := id) (fun r hr => if_neg (List.any_eq_false.mp hnone r hr))).trans
        (List.map_id _)
    rw [hfix]

/-- The successor is no row of another project, or was the successor before. -/
theorem post_supersedeNote_within (h : db.SchemaOk) {noteId newId : Nat}
    (hlink : ∀ r ∈ db.notes, r.id = noteId → r.projectId = db.target slug → r.live = true →
      db.Foreign (db.target slug) newId → r.supersededBy = some newId) :
    Sql.Post (fun s => s = db) (supersedeNote (db.target slug) noteId newId)
      (fun changed s => db.Within slug s ∧ (changed = false → s = db)) (fun s => s = db) := by
  refine Sql.Post.statement (fun s a s' hs hstep => ?_) (fun _ hs => hs)
  rcases ServerDb.of_checked_eq_ok hstep with ⟨rfl, rfl, _, _⟩
  subst hs
  refine ⟨within_mapNotes (within_refl h) (fun r => ?_) (fun r => ?_) (fun r _ hr => ?_)
    (fun r hr v hv hforeign => ?_), fun hnone => ?_⟩
  · split <;> rfl
  · split <;> rfl
  · exact if_neg (by simp [hr])
  · split at hv
    case isTrue hit =>
      rcases of_decide_eq_true hit with ⟨hid, hproject, hlive⟩
      have hv : newId = v := Option.mem_some_iff.mp hv
      subst hv
      exact hlink r hr hid hproject hlive hforeign
    case isFalse => exact hv
  · have hfix : s.notes.map (fun r => if decide (r.id = noteId ∧ r.projectId = s.target slug ∧
        r.live = true) = true then { r with status := "archived", supersededBy := some newId }
        else r) = s.notes :=
      (List.map_congr_left (g := id) (fun r hr => if_neg (List.any_eq_false.mp hnone r hr))).trans
        (List.map_id _)
    rw [hfix]

/-- A vector under the rowid is one of a row of the project. -/
theorem post_deleteNote_within (h : db.SchemaOk) {noteId : Nat}
    (hown : (∃ e ∈ db.embeddings, e.1 = noteId) →
      ∃ r ∈ db.notes, r.id = noteId ∧ r.projectId = db.target slug) :
    Sql.Post (fun s => s = db) (deleteNote (db.target slug) noteId)
      (fun changed s => db.Within slug s ∧ (changed = false → s = db)) (db.Within slug) := by
  have hrefl : db.Within slug db := within_refl h
  -- The vector that goes is not another project's.
  have hvectors : (db.embeddings.filter (fun e => e.1 ≠ noteId)).filter
      (fun e => db.Foreign (db.target slug) e.1) =
        db.embeddings.filter (fun e => db.Foreign (db.target slug) e.1) := by
    rw [List.filter_filter]
    refine List.filter_congr (fun e he => ?_)
    by_cases hid : e.1 = noteId
    · rcases hown ⟨e, he, hid⟩ with ⟨r, hr, hrid, hproject⟩
      have hnot : ¬ db.Foreign (db.target slug) e.1 := by
        rintro ⟨n, hn, hnid, hne⟩
        have heq := List.inj_on_of_nodup_map h.unique.1 hn hr (hnid.trans (hid.trans hrid.symm))
        exact hne (heq ▸ hproject)
      simp only [hnot, decide_false, Bool.false_and]
    · simp only [hid, ne_eq, not_false_eq_true, decide_true, Bool.and_true]
  refine Sql.Post.bind (Q := fun _ s => s = { db with
    embeddings := db.embeddings.filter (fun e => e.1 ≠ noteId) })
    (Sql.Post.execute (fun s s' hs hstep => ?_) (fun s hs => hs ▸ hrefl)) (fun _ =>
      Sql.Post.statement (fun s a s' hs hstep => ?_) (fun s hs => ?_))
  · rw [hs] at hstep
    exact (Except.ok.inj hstep).symm
  · rcases ServerDb.of_checked_eq_ok hstep with ⟨rfl, rfl, _, _⟩
    subst hs
    refine ⟨⟨hrefl.named, hrefl.projects, ?_, hvectors, le_refl _, fun r hr => ?_⟩, fun hnone => ?_⟩
    · rw [List.filter_filter]
      refine List.filter_congr (fun n _ => ?_)
      by_cases hn : n.projectId = db.target slug
      · simp [hn]
      · simp [hn]
    · exact hrefl.links r (List.mem_filter.mp hr).1
    · have hmiss : ∀ r ∈ db.notes, ¬ (r.id = noteId ∧ r.projectId = db.target slug) :=
        fun r hr hit => List.any_eq_false.mp hnone r hr (decide_eq_true hit)
      have hnovector : ∀ e ∈ db.embeddings, e.1 ≠ noteId := by
        intro e he hid
        rcases hown ⟨e, he, hid⟩ with ⟨r, hr, hrid, hproject⟩
        exact hmiss r hr ⟨hrid, hproject⟩
      have hnotes : db.notes.filter (fun r => ¬ decide (r.id = noteId ∧
          r.projectId = db.target slug) = true) = db.notes :=
        List.filter_eq_self.mpr (fun r hr => decide_eq_true (by
          rw [decide_eq_true_eq]
          exact hmiss r hr))
      have hembeddings : db.embeddings.filter (fun e => e.1 ≠ noteId) = db.embeddings :=
        List.filter_eq_self.mpr (fun e he => decide_eq_true (hnovector e he))
      simp only [hnotes, hembeddings]
  · rw [hs]
    exact ⟨hrefl.named, hrefl.projects, rfl, hvectors, le_refl _, hrefl.links⟩

end Changes

section Routes

theorem post_requireProject :
    Sql.Post (fun s => s = db) (requireProject slug)
      (fun p s => (validateProjectSlug slug = .ok () ∧ db.getProject slug = some p) ∧ s = db)
      (fun s => s = db) := by
  unfold requireProject
  split
  · exact Sql.Post.fail _ (fun _ hs => hs)
  case h_2 hvalid =>
    refine Sql.Post.bind (Q := fun found s => found = db.getProject slug ∧ s = db)
      (Sql.Post.query _ (fun s hs => by rw [hs]; exact ⟨rfl, rfl⟩) (fun _ hs => hs))
      (fun found => Sql.Post.of_pre (fun hfound => ?_))
    subst hfound
    split
    case h_1 p hget => exact Sql.Post.ok _ (fun _ hs => ⟨⟨hvalid, hget⟩, hs⟩)
    case h_2 => exact Sql.Post.fail _ (fun _ hs => hs)

variable [SyncClock] {state : AppState}

theorem keeps_addNoteRoute_within (h : db.SchemaOk) (req : AddNoteRequest) :
    Sql.Post (fun s => s = db) (addNoteRoute state slug req) (fun _ s => db.Within slug s)
      (db.Within slug) := by
  have hstart : ∀ s, s = db → db.Within slug s := fun s hs => by
    rw [hs]
    exact within_refl h
  unfold addNoteRoute
  split
  · exact Sql.Post.fail _ hstart
  · split
    · exact Sql.Post.fail _ hstart
    · split
      · exact Sql.Post.fail _ hstart
      · split
        · exact Sql.Post.ok _ hstart
        · refine Sql.Post.bind (post_upsertProject_within h _ _) (fun p =>
            Sql.Post.of_pre (fun hid => ?_))
          rw [hid]
          exact Sql.Post.bind (Sql.Post.of_keeps (keeps_addNote_within h _ _ _ _ _ _ _ _))
            (fun _ => Sql.Post.ok _ (fun _ hs => hs))

/-- A batch that created nothing left notes and vectors alone. -/
theorem post_storeBatch_within (h : db.SchemaOk) (entries : List BatchNoteItem) :
    Sql.Post (fun s => s = db) (storeBatch state slug entries)
      (fun reply s => db.Within slug s ∧ ((Reply.batch reply).SaysUnchanged →
        (Reply.batch reply).Untouched db s)) (db.Within slug) := by
  unfold storeBatch
  refine Sql.Post.bind (Sql.Post.mono (Sql.Post.and_keeps (post_upsertProject_within h _ _)
    (keeps_upsertProject_notes db _ _)) (fun s hs => ⟨hs, by rw [hs]; exact ⟨rfl, rfl⟩⟩)
    (fun _ _ hs => hs) (fun _ hs => hs.1)) (fun p => ?_)
  -- The loop has created nothing, or something.
  let I := fun (b : BatchLoop) (s : ServerDb) => p.id = db.target slug ∧ db.Within slug s ∧
    (b.created = 0 → s.notes = db.notes ∧ s.embeddings = db.embeddings)
  have hfind : Sql.Post (fun s => (p.id = db.target slug ∧ db.Within slug s) ∧
      s.notes = db.notes ∧ s.embeddings = db.embeddings)
      (findByRemoteIds p.id (entries.map (·.externalId)))
      (fun existing s => I ⟨existing, [], 0, 0⟩ s) (db.Within slug) := by
    unfold findByRemoteIds
    split
    · exact Sql.Post.ok _ (fun s hs => ⟨hs.1.1, hs.1.2, fun _ => hs.2⟩)
    · exact Sql.Post.query _ (fun s hs => ⟨hs.1.1, hs.1.2, fun _ => hs.2⟩) (fun s hs => hs.1.2)
  refine Sql.Post.bind hfind (fun existing => ?_)
  refine Sql.Post.bind (Sql.Post.foldEach (I := fun _ b s => I b s) entries _
    (fun done entry rest b _ => ?_)) (fun b => Sql.Post.ok _ (fun s hs => ⟨hs.2.1, hs.2.2⟩))
  unfold pushEntry
  split
  · exact Sql.Post.ok _ (fun _ hs => hs)
  · refine Sql.Post.of_pre (fun hid => ?_)
    rw [hid]
    refine Sql.Post.bind (Q := fun _ s => db.Within slug s) (Sql.Post.mono (Sql.Post.of_keeps
      (keeps_addNote_within h _ _ _ _ _ _ _ _)) (fun _ hs => hs.1) (fun _ _ hs => hs)
      (fun _ hs => hs)) (fun _ => Sql.Post.ok _ (fun s hs => ⟨hid, hs, fun hnone => ?_⟩))
    exact absurd hnone (Nat.succ_ne_zero _)

theorem post_respond_within (state : AppState) (h : db.SchemaOk) (req : Request) (hstay : StaysInProject db req) :
    Sql.Post (fun s => s = db) (respond state req)
      (fun reply s => db.Within req.slug s ∧ (reply.SaysUnchanged → reply.Untouched db s))
      (db.Within req.slug) := by
  have hstart : ∀ s, s = db → db.Within req.slug s := fun s hs => by
    rw [hs]
    exact within_refl h
  cases req with
  | addNote slug req =>
      exact Sql.Post.bind (keeps_addNoteRoute_within h req) (fun _ =>
        Sql.Post.ok _ (fun _ hs => ⟨hs, False.elim⟩))
  | pushBatch slug entries =>
      refine Sql.Post.bind (Q := fun reply s => db.Within slug s ∧
        ((Reply.batch reply).SaysUnchanged → (Reply.batch reply).Untouched db s)) ?_
        (fun reply => Sql.Post.ok _ (fun _ hs => hs))
      unfold pushMemoryBatch
      split
      · exact Sql.Post.fail _ hstart
      case h_2 rejected _ =>
        refine Sql.Post.ok _ (fun s hs => ⟨hstart s hs, fun _ => ?_⟩)
        cases rejected with
        | multiStatus => rw [hs]; exact ⟨rfl, rfl⟩
        | injectionDetected => exact hs
      · exact post_storeBatch_within h entries
  | archive slug noteId =>
      refine Sql.Post.bind (Sql.Post.mono post_requireProject (fun _ hs => hs) (fun _ _ hs => hs)
        hstart) (fun p => Sql.Post.of_pre (fun hp => ?_))
      rw [← target_of_getProject hp.2]
      exact Sql.Post.bind (Sql.Post.mono (post_archiveNote_within h noteId) (fun _ hs => hs)
        (fun _ _ hs => hs) hstart) (fun changed => Sql.Post.ok _ (fun _ hs => hs))
  | supersede slug noteId newId =>
      refine Sql.Post.bind (Sql.Post.mono post_requireProject (fun _ hs => hs) (fun _ _ hs => hs)
        hstart) (fun p => Sql.Post.of_pre (fun hp => ?_))
      have hlink := hstay hp.1 p hp.2
      rw [← target_of_getProject hp.2] at hlink ⊢
      exact Sql.Post.bind (Sql.Post.mono (post_supersedeNote_within h hlink) (fun _ hs => hs)
        (fun _ _ hs => hs) hstart) (fun changed => Sql.Post.ok _ (fun _ hs => hs))
  | delete slug noteId =>
      refine Sql.Post.bind (Sql.Post.mono post_requireProject (fun _ hs => hs) (fun _ _ hs => hs)
        hstart) (fun p => Sql.Post.of_pre (fun hp => ?_))
      have hown := hstay hp.1 p hp.2
      rw [← target_of_getProject hp.2] at hown ⊢
      exact Sql.Post.bind (post_deleteNote_within h hown)
        (fun changed => Sql.Post.ok _ (fun _ hs => hs))

end Routes

section Beyond

/-- On a connection without faults the project of a route is found. -/
theorem requireProject_eq {p : Project} (hvalid : validateProjectSlug slug = .ok ())
    (hget : db.getProject slug = some p) :
    requireProject slug ⟨db, none⟩ = (.ok p, ⟨db, none⟩) := by
  have hquery : Sql.query (fun s : ServerDb => s.getProject slug) ⟨db, none⟩
      = (.ok (some p), ⟨db, none⟩) := by
    simp only [Sql.query, Sql.statement, hget, Option.map_none]
  simp only [requireProject, hvalid, Sql.bind_eq, Sql.andThen, hquery, Sql.pure_eq, Sql.ok]

/-- An update that keeps the columns of the indexes and links to rows there are. -/
theorem mapNotes_ok (h : db.SchemaOk) {f : ServerRow → ServerRow} (hid : ∀ r, (f r).id = r.id)
    (hsync : ∀ r, (f r).syncId = r.syncId) (hproject : ∀ r, (f r).projectId = r.projectId)
    (hremote : ∀ r, (f r).remoteId = r.remoteId)
    (hlink : ∀ r ∈ db.notes, ∀ v ∈ (f r).supersededBy,
      v ∈ r.supersededBy ∨ v ∈ db.notes.map (·.id)) :
    ({ db with notes := db.notes.map f } : ServerDb).UniqueOk ∧
      ({ db with notes := db.notes.map f } : ServerDb).ForeignKeysOk := by
  have hids : (db.notes.map f).map (·.id) = db.notes.map (·.id) := by
    rw [List.map_map]
    exact List.map_congr_left (fun r _ => hid r)
  have hsyncs : (db.notes.map f).map (·.syncId) = db.notes.map (·.syncId) := by
    rw [List.map_map]
    exact List.map_congr_left (fun r _ => hsync r)
  have hkeys : (db.notes.map f).filterMap (·.externalKey) = db.notes.filterMap (·.externalKey) := by
    rw [List.filterMap_map]
    refine List.filterMap_congr (fun r _ => ?_)
    rw [Function.comp_apply, ServerRow.externalKey, ServerRow.externalKey, hremote, hproject]
  refine ⟨⟨?_, ?_, ?_, h.unique.2.2.2⟩, fun n hn => ?_⟩
  · exact hids.symm ▸ h.unique.1
  · exact hkeys.symm ▸ h.unique.2.1
  · exact hsyncs.symm ▸ h.unique.2.2.1
  · rcases List.mem_map.mp hn with ⟨r, hr, rfl⟩
    refine ⟨(hproject r).symm ▸ (h.foreignKeys r hr).1, fun v hv => ?_⟩
    show v ∈ (db.notes.map f).map (·.id)
    rw [hids]
    rcases hlink r hr v hv with hv | hv
    · exact (h.foreignKeys r hr).2 v hv
    · exact hv

variable [SyncClock] {state : AppState}

/-- A deletion that takes a vector of no row of the project changes the database and
    says that it changed nothing. -/
theorem respond_delete_beyond (state : AppState) (h : db.SchemaOk) {p : Project} {noteId : Nat}
    (hvalid : validateProjectSlug slug = .ok ()) (hget : db.getProject slug = some p)
    (hvector : ∃ e ∈ db.embeddings, e.1 = noteId)
    (hmiss : ∀ r ∈ db.notes, r.id = noteId → r.projectId ≠ p.id) :
    ∃ s, respond state (.delete slug noteId) ⟨db, none⟩ = (.ok (.changed false), ⟨s, none⟩) ∧
      s ≠ db := by
  have hnotes : db.notes.filter (fun r => ¬ decide (r.id = noteId ∧ r.projectId = p.id) = true)
      = db.notes := by
    refine List.filter_eq_self.mpr (fun r hr => decide_eq_true (fun hit => ?_))
    rw [decide_eq_true_eq] at hit
    exact hmiss r hr hit.1 hit.2
  have hnone : db.notes.any (fun r => decide (r.id = noteId ∧ r.projectId = p.id)) = false := by
    refine List.any_eq_false.mpr (fun r hr hit => ?_)
    rw [decide_eq_true_eq] at hit
    exact hmiss r hr hit.1 hit.2
  refine ⟨{ db with embeddings := db.embeddings.filter (fun e => e.1 ≠ noteId) }, ?_, fun heq => ?_⟩
  · simp only [respond, Sql.bind_eq, Sql.andThen, requireProject_eq hvalid hget, deleteNote,
      Sql.execute, Sql.statement, Except.map, Option.map_none, Sql.pure_eq, Sql.ok, hnotes, hnone]
    have hok : ∀ a : Bool, ServerDb.checked a { db with
        embeddings := db.embeddings.filter (fun e => e.1 ≠ noteId) } = .ok (a, { db with
        embeddings := db.embeddings.filter (fun e => e.1 ≠ noteId) }) :=
      fun _ => ServerDb.checked_eq_ok h.unique h.foreignKeys
    rw [hok]
  · rcases hvector with ⟨e, he, hid⟩
    rw [← heq] at he
    exact of_decide_eq_true (List.mem_filter.mp he).2 hid

/-- A live row of the project that gets a successor in another points to it. -/
theorem respond_supersede_beyond (state : AppState) (h : db.SchemaOk) {p : Project} {noteId newId : Nat}
    (hvalid : validateProjectSlug slug = .ok ()) (hget : db.getProject slug = some p)
    {r : ServerRow} (hr : r ∈ db.notes) (hid : r.id = noteId) (hproject : r.projectId = p.id)
    (hlive : r.live = true) (hforeign : db.Foreign p.id newId) :
    ∃ s reply, respond state (.supersede slug noteId newId) ⟨db, none⟩ = (.ok reply, ⟨s, none⟩) ∧
      p ∈ s.projects ∧ s.Foreign p.id newId ∧
      { r with status := "archived", supersededBy := some newId } ∈ s.notesOf p.id := by
  let f := fun n : ServerRow => if decide (n.id = noteId ∧ n.projectId = p.id ∧ n.live = true) = true
    then { n with status := "archived", supersededBy := some newId } else n
  have hsame : ∀ n, (f n).id = n.id ∧ (f n).syncId = n.syncId ∧ (f n).projectId = n.projectId ∧
      (f n).remoteId = n.remoteId := by
    intro n
    simp only [f]
    split <;> exact ⟨rfl, rfl, rfl, rfl⟩
  have hok := mapNotes_ok h (f := f) (fun n => (hsame n).1) (fun n => (hsame n).2.1)
    (fun n => (hsame n).2.2.1) (fun n => (hsame n).2.2.2) (fun n hn v hv => by
      simp only [f] at hv
      split at hv
      · -- The new link is to the row of the other project.
        rcases hforeign with ⟨m, hm, hmid, _⟩
        rw [← Option.mem_some_iff.mp hv, ← hmid]
        exact Or.inr (List.mem_map.mpr ⟨m, hm, rfl⟩)
      · exact Or.inl hv)
  have hchecked : ∀ a : Bool, ServerDb.checked a { db with notes := db.notes.map f }
      = .ok (a, { db with notes := db.notes.map f }) := fun _ => ServerDb.checked_eq_ok hok.1 hok.2
  refine ⟨{ db with notes := db.notes.map f }, .changed (db.notes.any (fun n =>
    decide (n.id = noteId ∧ n.projectId = p.id ∧ n.live = true))), ?_, (getProject_mem hget).1,
    ?_, ?_⟩
  · simp only [respond, Sql.bind_eq, Sql.andThen, requireProject_eq hvalid hget, supersedeNote,
      Sql.statement, Option.map_none, Sql.pure_eq, Sql.ok]
    rw [hchecked]
  · rcases hforeign with ⟨m, hm, hmid, hne⟩
    exact ⟨f m, List.mem_map.mpr ⟨m, hm, rfl⟩, (hsame m).1.trans hmid,
      fun heq => hne ((hsame m).2.2.1.symm.trans heq)⟩
  · refine List.mem_filter.mpr ⟨List.mem_map.mpr ⟨r, hr, ?_⟩, decide_eq_true hproject⟩
    exact if_pos (decide_eq_true ⟨hid, hproject, hlive⟩)

end Beyond

end Server

/-- The scope law holds exactly of the requests that stay in their project. -/
theorem scopeLaw_iff [SyncClock] {db : ServerDb} (h : db.SchemaOk) (state : AppState)
    (req : Server.Request) : ScopeLaw state req db ↔ Server.StaysInProject db req := by
  constructor
  · intro hlaw
    have hrun := hlaw none
    simp only at hrun
    cases req with
    | addNote | pushBatch | archive => trivial
    | supersede slug noteId newId =>
        intro hvalid p hget r hr hid hproject hlive hforeign
        rcases Server.respond_supersede_beyond state h hvalid hget hr hid hproject hlive
          hforeign with ⟨s, reply, hout, hp, hforeign', hlinked⟩
        rw [hout] at hrun
        -- The row that points there now is the one that pointed there before.
        rcases hrun.2.1 p hp (getProject_mem hget).2 _ hlinked newId rfl hforeign' with
          ⟨r₀, hr₀, hid₀, hlink⟩
        have heq : r₀ = r :=
          List.inj_on_of_nodup_map h.unique.1 (List.mem_filter.mp hr₀).1 hr hid₀
        rw [← heq]
        exact hlink
    | delete slug noteId =>
        intro hvalid p hget hvector
        by_contra hmiss
        rcases Server.respond_delete_beyond state h hvalid hget hvector
          (fun r hr hid hproject => hmiss ⟨r, hr, hid, hproject⟩) with ⟨s, hout, hne⟩
        rw [hout] at hrun
        exact hne (hrun.2.2 (.changed false) rfl rfl)
  · intro hstay failAfter
    have hpost := Server.post_respond_within state h req hstay ⟨db, failAfter⟩ rfl
    have hwithin : db.Within req.slug (Server.respond state req ⟨db, failAfter⟩).2.db := by
      rcases hrun : (Server.respond state req ⟨db, failAfter⟩).1 with e | reply
      · exact hpost.2 e hrun
      · exact (hpost.1 reply hrun).1
    exact ⟨fun q hq hslug => others_of_within h hwithin hq hslug,
      fun p hp hslug r hr v hv hforeign => links_of_within hwithin hp hslug hr hv hforeign,
      fun reply hrun hsays => (hpost.1 reply hrun).2 hsays⟩

section Example

/-- Two projects of one note each, the second with a vector. -/
def twoProjects : ServerDb :=
  (@Server.serve tickingClock quietServer
    (.pushBatch "q" [{ titledEntry "b" "Use tokio" with embedding := some [0] }])
    ⟨(@Server.serve tickingClock quietServer (.pushBatch "p" [titledEntry "a" "Use axum"])
      ⟨emptyServer 1, none⟩).2.db, none⟩).2.db

theorem reached_twoProjects :
    @ServerReached tickingClock 1 "embeddinggemma-300m" twoProjects := by
  refine GuardedRun.tail (quietServer, .pushBatch "q"
    [{ titledEntry "b" "Use tokio" with embedding := some [0] }], none) ?_ for_quietServer rfl
  exact GuardedRun.tail (quietServer, .pushBatch "p" [titledEntry "a" "Use axum"], none)
    GuardedRun.refl for_quietServer rfl

/-- The law for the deletion of the project's own note. -/
theorem scopeLaw_iff_twoProjects :
    @ScopeLaw tickingClock quietServer (.delete "p" 1) twoProjects ↔
      Server.StaysInProject twoProjects (.delete "p" 1) :=
  @scopeLaw_iff tickingClock twoProjects
    (@ServerReached.served tickingClock _ _ _ reached_twoProjects).toSchemaOk quietServer
    (.delete "p" 1)

/-- Asked to delete a note it does not have, the first project loses the second its
    vector, and says that nothing was changed; and its own note can be superseded by
    the note of the second. -/
theorem delete_takes_vector :
    @ServerReached tickingClock 1 "embeddinggemma-300m" twoProjects ∧
      twoProjects.vectorsOf 2 = [(2, [0])] ∧
      (@Server.respond tickingClock quietServer (.delete "p" 2) ⟨twoProjects, none⟩).1
        = .ok (.changed false) ∧
      (@Server.respond tickingClock quietServer (.delete "p" 2) ⟨twoProjects, none⟩).2.db.vectorsOf 2
        = [] ∧
      ¬ @ScopeLaw tickingClock quietServer (.delete "p" 2) twoProjects ∧
      ((@Server.respond tickingClock quietServer (.supersede "p" 1 2)
        ⟨twoProjects, none⟩).2.db.notesOf 1).map (·.supersededBy) = [some 2] ∧
      ¬ @ScopeLaw tickingClock quietServer (.supersede "p" 1 2) twoProjects := by
  refine ⟨reached_twoProjects, by decide, by decide, by decide, fun hlaw => ?_, by decide,
    fun hlaw => ?_⟩
  · -- The answer is not right.
    have huntouched : (@Server.respond tickingClock quietServer (.delete "p" 2)
        ⟨twoProjects, none⟩).2.db = twoProjects := (hlaw none).2.2 (.changed false) (by decide) rfl
    revert huntouched
    decide
  · have hlinks := (hlaw none).2.1 ⟨1, "p", 1, some "embeddinggemma-300m"⟩ (by decide) rfl
    revert hlinks
    decide

end Example

end Spelunk
