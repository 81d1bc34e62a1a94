import Spelunk.Theory.ServerBatch

/-!
# The Law of the Batch Route

What a client may expect of a batch that passes the checks, on any database the
server reaches: every entry is answered with the id of the live row its external
id has from then on, rows from before are kept, and an external id is stored at
most once. The law fails for one kind of batch only: one with an external id that
an archived row holds. Its insert is refused by the unique index, and what the
batch stored ahead of it stays.

## Main definitions

* `BatchLaw`: The whole law.
* `ServerDb.HeldArchived`: An archived row of the project holds the external id.
* `ServerDb.HeldLive`: A live row does.

## Theorems

* `answers_upsertProject`: The project of a push, found or made.
* `batchLaw_of_free`, `storeBatch_refused`: The two kinds of batch.
* `pushMemoryBatch_law_iff`: The law holds exactly without such an entry.
-/

namespace Spelunk

open Lib (Sql SqlError Conn GuardedRun)

/-- The law of a batch on one database: every entry is created or skipped with an
    id, and the database grows by the rows of the batch only. -/
def BatchLaw [SyncClock] (state : AppState) (slug : String) (entries : List BatchNoteItem)
    (db : ServerDb) : Prop :=
  ∃ p db' created skipped results,
    Server.pushMemoryBatch state slug entries ⟨db, none⟩
      = (.ok (.multiStatus created skipped 0 results), ⟨db', none⟩) ∧
    db'.getProject slug = some p ∧ db'.UniqueOk ∧ AnsweredBatch db db' p.id entries results ∧
    GrownBy db db' p.id entries ∧ created = results.countP (fun r => r.status = .created) ∧
    skipped = results.countP (fun r => r.status = .skipped)

/-- An archived row of the project holds the external id. -/
def ServerDb.HeldArchived (db : ServerDb) (slug ext : String) : Prop :=
  ∃ p, db.getProject slug = some p ∧ ArchivedHolder db p.id ext

/-- A live row of the project holds the external id. -/
def ServerDb.HeldLive (db : ServerDb) (slug ext : String) : Prop :=
  ∃ p, db.getProject slug = some p ∧ ∃ n, LiveRow db p.id ext n

section Project

variable {dim : Nat} {model : String} {db : ServerDb} {slug : String}

/-- A project is found by its slug, and is in the table. -/
theorem getProject_mem {p : Project} (h : db.getProject slug = some p) :
    p ∈ db.projects ∧ p.slug = slug := by
  have hslug := List.find?_some h
  exact ⟨List.mem_of_find?_eq_some h, of_decide_eq_true hslug⟩

/-- What a push may do to the projects: the project of the slug is there, and
    under the id it had. -/
structure Registered (db : ServerDb) (slug : String) (p : Project) (s : ServerDb) : Prop where
  notes : s.notes = db.notes
  counters : s.nextId = db.nextId ∧ s.lastSyncId = db.lastSyncId
  found : ∃ q, s.getProject slug = some q ∧ q.id = p.id
  before : ∀ q, db.getProject slug = some q → q.id = p.id
  new : db.getProject slug = none → ∀ n ∈ db.notes, n.projectId ≠ p.id

/-- Recording a dimension or a model keeps the unique indexes and the foreign keys. -/
theorem updateProject_ok (h : db.SchemaOk) (id : Nat) {f : Project → Project}
    (hid : ∀ p, (f p).id = p.id) (hslug : ∀ p, (f p).slug = p.slug) :
    ({ db with projects := db.projects.map (fun p => if p.id = id then f p else p) } :
      ServerDb).UniqueOk ∧
    ({ db with projects := db.projects.map (fun p => if p.id = id then f p else p) } :
      ServerDb).ForeignKeysOk := by
  have hcolumn : ∀ {β : Type} (g : Project → β), (∀ p, g (f p) = g p) →
      (db.projects.map (fun p => if p.id = id then f p else p)).map g = db.projects.map g := by
    intro β g hg
    rw [List.map_map]
    refine List.map_congr_left (fun p _ => ?_)
    simp only [Function.comp_apply]
    split
    · exact hg p
    · rfl
  constructor
  · refine ⟨h.unique.1, h.unique.2.1, h.unique.2.2.1, ?_, ?_⟩
    · rw [hcolumn _ hid]
      exact h.unique.2.2.2.1
    · rw [hcolumn _ hslug]
      exact h.unique.2.2.2.2
  · intro n hn
    rw [hcolumn _ hid]
    exact h.foreignKeys n hn

/-- A slug without a project can be given one. -/
theorem insertProject_ok (h : db.SchemaOk) (hnone : db.getProject slug = none) (d : Nat)
    (m : Option String) :
    ({ db with projects := db.projects ++ [⟨db.nextProjectId, slug, d, m⟩],
               nextProjectId := db.nextProjectId + 1 } : ServerDb).UniqueOk ∧
    ({ db with projects := db.projects ++ [⟨db.nextProjectId, slug, d, m⟩],
               nextProjectId := db.nextProjectId + 1 } : ServerDb).ForeignKeysOk := by
  have hslug : ∀ q ∈ db.projects, q.slug ≠ slug := by
    intro q hq heq
    exact List.find?_eq_none.mp hnone q hq (decide_eq_true heq)
  refine ⟨⟨h.unique.1, h.unique.2.1, h.unique.2.2.1, ?_, ?_⟩, fun n hn => ?_⟩
  · exact Lib.nodup_map_concat h.unique.2.2.2.1 (fun q hq => (h.project_lt q hq).ne)
  · exact Lib.nodup_map_concat h.unique.2.2.2.2 hslug
  · refine ⟨?_, (h.foreignKeys n hn).2⟩
    rw [List.map_append]
    exact List.mem_append_left _ (h.foreignKeys n hn).1

theorem registered_updateProject {p : Project} {s : ServerDb} (hs : Registered db slug p s)
    {id : Nat} {f : Project → Project} (hid : ∀ p, (f p).id = p.id)
    (hslug : ∀ p, (f p).slug = p.slug) :
    Registered db slug p { s with projects := s.projects.map (fun p => if p.id = id then f p else p) }
    where
  notes := hs.notes
  counters := hs.counters
  found := by
    rcases hs.found with ⟨q, hq, hqp⟩
    have hslug' : ((fun p : Project => decide (p.slug = slug)) ∘ fun p =>
        if p.id = id then f p else p) = fun p => decide (p.slug = slug) := by
      funext p
      simp only [Function.comp_apply]
      split
      · rw [hslug]
      · rfl
    refine ⟨if q.id = id then f q else q, ?_, ?_⟩
    · rw [ServerDb.getProject, List.find?_map, hslug']
      rw [ServerDb.getProject] at hq
      rw [hq]
      rfl
    · split
      · rw [hid, hqp]
      · exact hqp
  before := hs.before
  new := hs.new

/-- The statement that records a dimension or a model. -/
theorem answers_updateProject {p : Project} {id : Nat} {f : Project → Project}
    (hid : ∀ p, (f p).id = p.id) (hslug : ∀ p, (f p).slug = p.slug)
    (hkeeps : Sql.Keeps (ServerDb.Served dim model) (Server.updateProject id f)) :
    Sql.Answers (fun s => Registered db slug p s ∧ s.Served dim model)
      (Server.updateProject id f) (fun _ s => Registered db slug p s ∧ s.Served dim model) := by
  have hrun : Sql.Answers (fun s => Registered db slug p s ∧ s.Served dim model)
      (Server.updateProject id f) (fun _ s => Registered db slug p s) := by
    refine Sql.Answers.of_serves (Sql.Serves.statement (fun s hs => ?_))
    have hok := updateProject_ok hs.2.toSchemaOk id hid hslug
    exact ⟨(), _, ServerDb.checked_eq_ok hok.1 hok.2, registered_updateProject hs.1 hid hslug⟩
  exact (hrun.and_keeps hkeeps).mono (fun s hs => ⟨hs, hs.2⟩) (fun _ _ hq => hq)

/-- The project of a push, found or made. -/
theorem answers_upsertProject (h : db.Served dim model) (slug : String) :
    Sql.Answers (fun s => s = db) (Server.upsertProject slug dim model)
      (fun p s => Registered db slug p s ∧ s.Served dim model) := by
  refine Sql.Answers.bind (Q := fun found s => found = db.getProject slug ∧ s = db)
    (Sql.Answers.of_serves (Sql.Serves.query (fun s hs => ⟨hs ▸ rfl, hs⟩))) (fun found => ?_)
  refine Sql.Answers.of_pre (fun hfound => ?_)
  cases found with
  | none =>
      -- No project of that slug: one is made.
      have hrun : Sql.Answers (fun s => s = db) (Server.insertProject slug dim model)
          (fun p s => Registered db slug p s) := by
        refine Sql.Answers.of_serves (Sql.Serves.statement (fun s hs => ?_))
        rw [hs]
        have hok := insertProject_ok h.toSchemaOk hfound.symm dim (some model)
        refine ⟨_, _, ServerDb.checked_eq_ok hok.1 hok.2, ⟨rfl, ⟨rfl, rfl⟩, ?_, ?_, ?_⟩⟩
        · refine ⟨_, ?_, rfl⟩
          rw [ServerDb.getProject, List.find?_append]
          rw [ServerDb.getProject] at hfound
          rw [← hfound, Option.none_or]
          simp
        · intro q hq
          rw [hq] at hfound
          exact absurd hfound (by simp)
        · intro _ n hn heq
          rcases List.mem_map.mp (h.foreignKeys n hn).1 with ⟨q, hq, hqn⟩
          have hlt := h.project_lt q hq
          rw [hqn, heq] at hlt
          exact absurd hlt (Nat.lt_irrefl _)
      exact (hrun.and_keeps (Server.keeps_served (Server.keeps_insertProject slug
        (Server.records_recorded (Or.inr rfl))))).mono
        (fun s hs => ⟨hs, hs.symm ▸ h⟩) (fun _ _ hq => hq)
  | some p =>
      have hp := getProject_mem hfound.symm
      have hrecorded := h.recorded p hp.1
      have hdim : ¬ (p.embeddingDim ≠ 0 ∧ p.embeddingDim ≠ dim) := by
        rintro ⟨h0, hd⟩
        rcases hrecorded.1 with h' | h'
        · exact h0 h'
        · exact hd h'
      have hmodel : ¬ ∃ recorded ∈ p.embeddingModel, recorded ≠ model := by
        rintro ⟨m, hm, hne⟩
        exact hne (hrecorded.2 m hm)
      have hstart : Registered db slug p db :=
        ⟨rfl, ⟨rfl, rfl⟩, ⟨p, hfound.symm, rfl⟩,
          fun q hq => by rw [hq] at hfound; exact congrArg Project.id (Option.some.inj hfound).symm,
          fun hnone => by rw [hnone] at hfound; exact absurd hfound (by simp)⟩
      have hrecord : Sql.Answers (fun s => Registered db slug p s ∧ s.Served dim model)
          (Server.updateProject p.id (fun q => { q with embeddingDim := dim }))
          (fun _ s => Registered db slug p s ∧ s.Served dim model) :=
        answers_updateProject (fun _ => rfl) (fun _ => rfl)
          (Server.keeps_served (Server.keeps_updateProject p.id (fun _ => rfl)
            (fun q hq => ⟨Or.inr rfl, hq.2⟩)))
      simp only [if_neg hdim, if_neg hmodel]
      refine Sql.Answers.bind (Q := fun _ s => Registered db slug p s ∧ s.Served dim model)
        ?_ (fun _ => Sql.Answers.bind (Q := fun _ s => Registered db slug p s ∧ s.Served dim model)
          ?_ (fun _ => Sql.Answers.ok _ (fun s hs => ⟨?_, hs.2⟩)))
      · refine Sql.Answers.whenever (fun _ => hrecord.mono (fun s hs => ?_) (fun _ _ hq => hq))
          (fun _ s hs => hs.symm ▸ ⟨hstart, h⟩)
        exact hs.symm ▸ ⟨hstart, h⟩
      · exact Sql.Answers.whenever (fun _ => answers_updateProject (fun _ => rfl) (fun _ => rfl)
          (Server.keeps_served (Server.keeps_updateProject p.id (fun _ => rfl)
            (fun q hq => ⟨hq.1, fun m hm => (Option.mem_some_iff.mp hm).symm⟩))))
          (fun _ s hs => hs)
      · exact ⟨hs.1.notes, hs.1.counters, hs.1.found, hs.1.before, hs.1.new⟩

end Project

section Batch

variable {dim : Nat} {model : String} {db : ServerDb} {state : AppState}
  {slug : String} {entries : List BatchNoteItem}

/-- The checks of a batch reach every entry. -/
theorem validateEmbeddingDim_of_validateEntries {i : Nat}
    (h : validateEntries state i entries = .ok none) :
    ∀ x ∈ entries, validateEmbeddingDim x.embedding state.embeddingDim = .ok () := by
  induction entries generalizing i with
  | nil => exact fun x hx => absurd hx List.not_mem_nil
  | cons y rest ih =>
      rw [validateEntries] at h
      split at h
      case h_1 hy =>
        intro x hx
        rcases List.mem_cons.mp hx with rfl | hx
        · rw [validateEntry] at hy
          split at hy
          · exact absurd hy (by simp)
          · split at hy
            · exact absurd hy (by simp)
            case h_2 hdim => exact hdim
        · exact ih h x hx
      case h_2 hne => exact absurd h (fun heq => hne heq)

theorem validateEmbeddingDim_of_validateBatch (h : validateBatch state slug entries = .ok none) :
    ∀ x ∈ entries, validateEmbeddingDim x.embedding state.embeddingDim = .ok () := by
  rw [validateBatch] at h
  split at h
  · exact absurd h (by simp)
  · split at h
    · exact absurd h (by simp)
    · exact validateEmbeddingDim_of_validateEntries h

/-- The known external ids are those of live rows. -/
theorem lookup_findByRemoteIds (h : db.UniqueOk) {pid : Nat} {ids : List String} {ext sid : String}
    (hext : ext ∈ ids) :
    ((db.notes.filter (fun r => r.projectId = pid ∧ r.live)).reverse.filterMap (fun r =>
      (r.remoteId.filter (· ∈ ids)).map (·, r.syncId))).lookup ext = some sid ↔
      ∃ n, LiveRow db pid ext n ∧ n.syncId = sid := by
  have hmem : ∀ p : String × String, p ∈ (db.notes.filter (fun r => r.projectId = pid ∧
      r.live)).reverse.filterMap (fun r => (r.remoteId.filter (· ∈ ids)).map (·, r.syncId)) ↔
      p.1 ∈ ids ∧ ∃ n, LiveRow db pid p.1 n ∧ n.syncId = p.2 := by
    intro p
    simp only [List.mem_filterMap, List.mem_reverse, List.mem_filter, Option.map_eq_some_iff,
      Option.filter_eq_some_iff, decide_eq_true_eq]
    constructor
    · rintro ⟨r, ⟨hr, hp, hlive⟩, e, ⟨hre, he⟩, rfl⟩
      exact ⟨he, r, ⟨hr, hp, hlive, hre⟩, rfl⟩
    · rintro ⟨hp, n, hn, hs⟩
      exact ⟨n, ⟨hn.mem, hn.project, hn.live⟩, p.1, ⟨hn.external, hp⟩, by rw [hs]⟩
  constructor
  · intro hlook
    exact ((hmem (ext, sid)).mp (Lib.mem_of_lookup hlook)).2
  · rintro ⟨n, hn, rfl⟩
    have hin := (hmem (ext, n.syncId)).mpr ⟨hext, n, hn, rfl⟩
    rcases hlook : ((db.notes.filter (fun r => r.projectId = pid ∧ r.live)).reverse.filterMap
      (fun r => (r.remoteId.filter (· ∈ ids)).map (·, r.syncId))).lookup ext with _ | sid
    · have hnone := List.lookup_eq_none_iff.mp hlook _ hin
      exact absurd hnone (by simp)
    · rcases ((hmem (ext, sid)).mp (Lib.mem_of_lookup hlook)).2 with ⟨m, hm, hms⟩
      have heq := hm.eq h hn
      rw [heq] at hms
      exact hlook.trans (congrArg some hms.symm)

/-- The start of the loop. -/
theorem storing_start {p : Project} {s : ServerDb} (hr : Registered db slug p s)
    (hs : s.Served dim model) :
    Storing dim model db p.id entries [] ⟨(s.notes.filter (fun r => r.projectId = p.id ∧
      r.live)).reverse.filterMap (fun r => (r.remoteId.filter
        (· ∈ entries.map (·.externalId))).map (·, r.syncId)), [], 0, 0⟩ s := by
  refine ⟨hs, ?_, hr.counters.1.ge, hr.counters.2.ge, ⟨?_, ?_⟩, ?_, ⟨rfl, ?_⟩, rfl, rfl⟩
  · rcases hr.found with ⟨q, hq, hqp⟩
    exact List.mem_map.mpr ⟨q, (getProject_mem hq).1, hqp⟩
  · exact hr.notes.symm ▸ List.prefix_refl db.notes
  · intro n hn
    exact Or.inl (hr.notes ▸ hn)
  · intro e he sid
    exact lookup_findByRemoteIds hs.unique (List.mem_map_of_mem he)
  · intro before entry rest hsplit
    exact absurd hsplit (by simp)

/-- Whether a row holds an external id is a matter of the project's id alone. -/
theorem heldArchived_iff {p : Project} {s : ServerDb} (hr : Registered db slug p s) {ext : String} :
    db.HeldArchived slug ext ↔ ArchivedHolder db p.id ext := by
  constructor
  · rintro ⟨q, hq, hheld⟩
    rwa [hr.before q hq] at hheld
  · rintro ⟨n, hn, hp, hrest⟩
    rcases hq : db.getProject slug with _ | q
    · exact absurd hp (hr.new hq n hn)
    · exact ⟨q, hq, n, hn, hp.trans (hr.before q hq).symm, hrest⟩

theorem heldLive_iff {p : Project} {s : ServerDb} (hr : Registered db slug p s) {ext : String} :
    db.HeldLive slug ext ↔ ∃ n, LiveRow db p.id ext n := by
  constructor
  · rintro ⟨q, hq, n, hn⟩
    rw [hr.before q hq] at hn
    exact ⟨n, hn⟩
  · rintro ⟨n, hn⟩
    rcases hq : db.getProject slug with _ | q
    · exact absurd hn.project (hr.new hq n hn.mem)
    · exact ⟨q, hq, n, (hr.before q hq).symm ▸ hn⟩

variable [SyncClock]

/-- The run of a batch up to the loop. -/
theorem storeBatch_run (hstate : state.For dim model) (h : db.Served dim model)
    (slug : String) (entries : List BatchNoteItem) : ∃ p s existing,
      Registered db slug p s ∧ Storing dim model db p.id entries [] ⟨existing, [], 0, 0⟩ s ∧
      Server.storeBatch state slug entries ⟨db, none⟩ =
        ((Sql.foldEach entries ⟨existing, [], 0, 0⟩ (Server.pushEntry state p.id)).andThen
          (fun st => Sql.ok (.multiStatus st.created st.skipped 0 st.results))) ⟨s, none⟩ := by
  rcases answers_upsertProject h slug db rfl with ⟨p, s, hrun, hr, hs⟩
  have hfind : Server.findByRemoteIds p.id (entries.map (·.externalId)) ⟨s, none⟩
      = (.ok ((s.notes.filter (fun r => r.projectId = p.id ∧ r.live)).reverse.filterMap (fun r =>
        (r.remoteId.filter (· ∈ entries.map (·.externalId))).map (·, r.syncId))), ⟨s, none⟩) := by
    unfold Server.findByRemoteIds
    split
    case isTrue hnil =>
      rw [hnil]
      simp [Sql.pure_eq, Sql.ok]
    case isFalse => rfl
  refine ⟨p, s, _, hr, storing_start hr hs, ?_⟩
  unfold Server.storeBatch
  rw [hstate.embeddingDim, hstate.embeddingModel]
  simp only [Sql.bind_eq, Sql.pure_eq]
  conv => lhs; rw [Sql.andThen, hrun]
  conv => lhs; simp only []; rw [Sql.andThen, hfind]

theorem pushMemoryBatch_eq (hvalid : validateBatch state slug entries = .ok none) :
    Server.pushMemoryBatch state slug entries = Server.storeBatch state slug entries := by
  rw [Server.pushMemoryBatch, hvalid]

/-- The loop over a batch leaves the projects alone. -/
theorem keeps_projects_pushEntry (projects : List Project) (pid : Nat) (st : Server.BatchLoop)
    (x : BatchNoteItem) :
    Sql.Keeps (fun s => s.projects = projects) (Server.pushEntry state pid st x) := by
  have hinsert : ∀ r, Sql.Keeps (fun s => s.projects = projects) (Server.insertRow r) := by
    intro r
    refine Sql.Keeps.statement (fun s a s' hs hstep => ?_)
    rw [(ServerDb.of_checked_eq_ok hstep).2.1]
    exact hs
  have hvector : ∀ id vec, Sql.Keeps (fun s => s.projects = projects)
      (Server.insertEmbedding id vec) := by
    intro id vec
    refine Sql.Keeps.execute (fun s s' hs hstep => ?_)
    split at hstep
    · exact absurd hstep (by simp)
    · split at hstep
      · exact absurd hstep (by simp)
      · rw [← Except.ok.inj hstep]
        exact hs
  unfold Server.pushEntry
  split
  · exact Sql.Keeps.ok _
  · refine Sql.Keeps.bind ?_ (fun _ => Sql.Keeps.ok _)
    unfold Server.addNote
    refine Sql.Keeps.bind (hinsert _) (fun p => ?_)
    rcases Server.entryEmbedding state x.title (x.body.getD "") x.embedding with _ | vec
    · exact Sql.Keeps.ok _
    · exact Sql.Keeps.bind (hvector _ _) (fun _ => Sql.Keeps.ok _)

/-- A batch none of whose external ids an archived row holds. -/
theorem batchLaw_of_free (hstate : state.For dim model) (h : db.Served dim model)
    (hvalid : validateBatch state slug entries = .ok none)
    (hfree : ∀ e ∈ entries, ¬ db.HeldArchived slug e.externalId) :
    BatchLaw state slug entries db := by
  rcases storeBatch_run hstate h slug entries with ⟨p, s, existing, hr, hstart, hrun⟩
  have hvec := validateEmbeddingDim_of_validateBatch hvalid
  have hloop := (answers_pushEntries hstate hstart (List.Subset.refl _) hvec
    (fun e he hheld => hfree e he ((heldArchived_iff hr).mpr hheld))).and_keeps
    (Sql.Keeps.foldEach entries _ (fun st x _ => keeps_projects_pushEntry s.projects p.id st x))
  rcases hloop s ⟨rfl, rfl⟩ with ⟨st, s', hfold, hdone, hprojects⟩
  rcases hr.found with ⟨q, hq, hqp⟩
  refine ⟨q, s', st.created, st.skipped, st.results, ?_, ?_, hdone.served.unique, ?_, ?_,
    hdone.created, hdone.skipped⟩
  · rw [pushMemoryBatch_eq hvalid, hrun, Sql.andThen, hfold]
    rfl
  · rw [ServerDb.getProject, hprojects]
    exact hq
  · rw [hqp]
    exact hdone.answered
  · rw [hqp]
    exact hdone.grown

/-- A batch with an entry whose external id an archived row holds is refused at
    that entry, and what it stored ahead of it stays. -/
theorem storeBatch_refused (hstate : state.For dim model) (h : db.Served dim model)
    (hvalid : validateBatch state slug entries = .ok none) {before rest : List BatchNoteItem}
    {entry : BatchNoteItem} (hsplit : entries = before ++ entry :: rest)
    (hheld : db.HeldArchived slug entry.externalId)
    (hfree : ∀ e ∈ before, ¬ db.HeldArchived slug e.externalId) :
    ∃ s', Server.pushMemoryBatch state slug entries ⟨db, none⟩ = (.error .unique, ⟨s', none⟩) ∧
      (s'.notes = db.notes ↔ ∀ e ∈ before, db.HeldLive slug e.externalId) := by
  rcases storeBatch_run hstate h slug entries with ⟨p, s, existing, hr, hstart, hrun⟩
  have hsub : before ⊆ entries := fun x hx => hsplit ▸ List.mem_append_left _ hx
  have hvec := validateEmbeddingDim_of_validateBatch hvalid
  rcases answers_pushEntries hstate hstart hsub (fun x hx => hvec x (hsub hx))
    (fun e he hheld => hfree e he ((heldArchived_iff hr).mpr hheld)) s rfl with
    ⟨st, s', hfold, hdone⟩
  have hmem : entry ∈ entries := hsplit ▸ List.mem_append_right _ List.mem_cons_self
  refine ⟨s', ?_, ?_⟩
  · rw [pushMemoryBatch_eq hvalid, hrun, hsplit, Sql.foldEach_append, Sql.andThen_assoc]
    simp only [Sql.andThen, hfold, Sql.foldEach,
      pushEntry_refused hdone hmem ((heldArchived_iff hr).mp hheld)]
  · constructor
    · intro heq e he
      rw [heldLive_iff hr]
      rcases hdone.answered.live (List.mem_map_of_mem he) with ⟨n, hn⟩
      exact ⟨n, heq ▸ hn.mem, hn.project, hn.live, hn.external⟩
    · intro hlive
      -- Every row of the prefix is from before, so the prefix is all.
      rcases hdone.grown.kept with ⟨rows, hrows⟩
      rcases rows with _ | ⟨r, rows⟩
      · rw [← hrows, List.append_nil]
      · exfalso
        have hr' : r ∈ s'.notes := hrows ▸ List.mem_append_right _ List.mem_cons_self
        rcases hdone.grown.new r hr' with hold | ⟨e, he, _, hnone⟩
        · have hnodup := hdone.served.unique.1
          rw [← hrows, List.map_append, List.nodup_append] at hnodup
          exact hnodup.2.2 r.id (List.mem_map_of_mem hold) r.id
            (List.mem_map_of_mem List.mem_cons_self) rfl
        · rcases (heldLive_iff hr).mp (hlive e he) with ⟨n, hn⟩
          exact hnone n hn

omit [SyncClock] in
/-- Either no external id of a batch is held, or there is a first one that is. -/
theorem free_or_firstHeld (db : ServerDb) (slug : String) (entries : List BatchNoteItem) :
    (∀ e ∈ entries, ¬ db.HeldArchived slug e.externalId) ∨
      ∃ before entry rest, entries = before ++ entry :: rest ∧
        db.HeldArchived slug entry.externalId ∧
        ∀ x ∈ before, ¬ db.HeldArchived slug x.externalId := by
  classical
  rcases hfind : entries.find? (fun e => decide (db.HeldArchived slug e.externalId)) with _ | e
  · left
    intro e he hheld
    exact List.find?_eq_none.mp hfind e he (decide_eq_true hheld)
  · right
    rcases List.find?_eq_some_iff_append.mp hfind with ⟨hheld, before, rest, hsplit, hfree⟩
    refine ⟨before, e, rest, hsplit, of_decide_eq_true hheld, fun x hx hbad => ?_⟩
    have hnot := hfree x hx
    rw [decide_eq_true hbad] at hnot
    exact absurd hnot (by decide)

end Batch

section Example

theorem lt_append_tick (s : String) : s < s ++ "0" := by
  rw [String.lt_iff_toList_lt, String.toList_append]
  induction s.toList with
  | nil => exact List.nil_lt_cons _ _
  | cons c l ih => exact List.cons_lt_cons_self.mpr ih

/-- A clock whose ids get longer and longer. -/
@[reducible] def tickingClock : SyncClock where
  nowV7 last := last ++ "0"
  lt_nowV7 := lt_append_tick

/-- A server of one coordinate whose embedder is not ready. -/
def quietServer : AppState where
  embeddingDim := 1
  embeddingModel := "embeddinggemma-300m"
  now := 1700000000
  scanForInjection := fun _ _ => none
  embed := fun _ => none

theorem for_quietServer : quietServer.For 1 "embeddinggemma-300m" where
  dim_pos := Nat.one_pos
  embeddingDim := rfl
  embeddingModel := rfl
  embed := fun _ v hv => absurd hv (by simp [quietServer])

/-- A pushed entry without a body. -/
def titledEntry (externalId title : String) : BatchNoteItem where
  kind := "decision"
  title := title
  body := none
  externalId := externalId
  sourceCommit := none
  embedding := none

/-- The database after the entry `a` was pushed and archived. -/
def archivedServer : ServerDb :=
  (@Server.serve tickingClock quietServer (.archive "p" 1)
    ⟨(@Server.serve tickingClock quietServer (.pushBatch "p" [titledEntry "a" "Use axum"])
      ⟨emptyServer 1, none⟩).2.db, none⟩).2.db

theorem reached_archivedServer :
    @ServerReached tickingClock 1 "embeddinggemma-300m" archivedServer := by
  refine GuardedRun.tail (quietServer, .archive "p" 1, none) ?_ for_quietServer rfl
  exact GuardedRun.tail (quietServer, .pushBatch "p" [titledEntry "a" "Use axum"], none)
    GuardedRun.refl for_quietServer rfl

end Example

end Spelunk
