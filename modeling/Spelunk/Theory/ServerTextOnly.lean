import Spelunk.Theory.ServerProvenance

/-!
# Writes Without a Vector

An entry without a vector, the client's or the server's own, is to be stored for
text search only. A batch passes the configured dimension to the check of its
project, which always fits what other batches recorded. A single entry passes the
length of its vector, so 0 when it has none, and a project that has its dimension
recorded refuses it.

## Main definitions

* `IsDimensionMismatch`: The refusal for the recorded dimension.
* `Server.Request.Vectorless`: A write of entries none of which gets a vector.
* `TextOnlyLaw`: What it may expect.
* `Server.DimensionFits`: When it gets that.
* `ProvenanceLaw`: The law of all writes of a server.

## Theorems

* `textOnlyLaw_iff`: When a write without a vector gets what it may expect.
* `provenanceLaw_of_run`: The law in every run.
-/

namespace Spelunk

open Lib (Sql SqlError Conn GuardedRun)

/-- The refusal of a write for the dimension its project has recorded. -/
def IsDimensionMismatch (e : SqlError) : Prop :=
  ∃ slug expected got, e = Server.dimensionMismatch slug expected got

/-- What fails in front fails. -/
theorem fst_andThen_error {α β : Type} {m : Sql ServerDb α} {f : α → Sql ServerDb β}
    {c : Conn ServerDb} {e : SqlError} (h : (m c).1 = .error e) : ((m.andThen f) c).1 = .error e := by
  rcases hrun : m c with ⟨r, c'⟩
  rw [hrun] at h
  simp only at h
  subst h
  simp only [Sql.andThen, hrun]

section Texts

/-- The first characters of a message whose beginning is fixed. -/
theorem take_toList_append {a b : String} {n : Nat} (h : n ≤ a.length) :
    (a ++ b).toList.take n = a.toList.take n := by
  rw [String.toList_append, List.take_append_of_le_length]
  rw [String.length_toList]
  exact h

/-- Another message is told from it by its first characters. -/
theorem not_isDimensionMismatch {m : String} (n : Nat) (hn : n ≤ 11)
    (h : m.toList.take n ≠ "embedding d".toList.take n) : ¬ IsDimensionMismatch (.refused m) := by
  rintro ⟨slug, expected, got, heq⟩
  rw [Server.dimensionMismatch, SqlError.refused.injEq] at heq
  apply h
  rw [heq]
  simp only [String.append_assoc]
  have hstart : (toString "embedding dimension mismatch for project '").toList.take 11
      = "embedding d".toList := by decide
  rw [take_toList_append (n := n) (hn.trans (by decide)), ← hstart, List.take_take,
    Nat.min_eq_left hn]

theorem not_isDimensionMismatch_model (slug expected got : String) :
    ¬ IsDimensionMismatch (Server.modelMismatch slug expected got) := by
  refine not_isDimensionMismatch 11 (le_refl _) ?_
  simp only [String.append_assoc]
  rw [take_toList_append (by decide)]
  decide

theorem not_isDimensionMismatch_slug {slug : String} {e : SqlError}
    (h : validateProjectSlug slug = .error e) : ¬ IsDimensionMismatch e := by
  unfold validateProjectSlug at h
  simp only [] at h
  split at h
  · rw [← Except.error.inj h]
    exact not_isDimensionMismatch 1 (by decide) (by decide)
  · split at h
    · rw [← Except.error.inj h]
      refine not_isDimensionMismatch 1 (by decide) ?_
      simp only [String.append_assoc]
      rw [take_toList_append (by decide)]
      decide
    · exact absurd h (by simp)

theorem not_isDimensionMismatch_titleBody {title body msg : String}
    (h : validateTitleBody title body = .error msg) : ¬ IsDimensionMismatch (.refused msg) := by
  unfold validateTitleBody at h
  simp only [] at h
  split at h
  · rw [← Except.error.inj h]
    refine not_isDimensionMismatch 1 (by decide) ?_
    simp only [String.append_assoc]
    rw [take_toList_append (by decide)]
    decide
  · split at h
    · rw [← Except.error.inj h]
      refine not_isDimensionMismatch 1 (by decide) ?_
      simp only [String.append_assoc]
      rw [take_toList_append (by decide)]
      decide
    · exact absurd h (by simp)

/-- The errors of an entry start with its number. -/
theorem not_isDimensionMismatch_entry {state : AppState} {i : Nat} {entry : BatchNoteItem}
    {e : SqlError} (h : validateEntry state i entry = .error e) : ¬ IsDimensionMismatch e := by
  have hentry : ∀ rest : String, ¬ IsDimensionMismatch (.refused ("entry " ++ rest)) := by
    intro rest
    refine not_isDimensionMismatch 2 (by decide) ?_
    rw [take_toList_append (by decide)]
    decide
  unfold validateEntry at h
  split at h
  · rw [← Except.error.inj h]
    simp only [String.append_assoc]
    exact hentry _
  · split at h
    · rw [← Except.error.inj h]
      simp only [String.append_assoc]
      exact hentry _
    · split at h
      · rw [← Except.error.inj h]
        simp only [String.append_assoc]
        exact hentry _
      · exact absurd h (by simp)

theorem not_isDimensionMismatch_entries {state : AppState} {entries : List BatchNoteItem} {i : Nat}
    {e : SqlError} (h : validateEntries state i entries = .error e) : ¬ IsDimensionMismatch e := by
  induction entries generalizing i with
  | nil => exact absurd h (by simp [validateEntries])
  | cons entry rest ih =>
      rw [validateEntries] at h
      rcases hentry : validateEntry state i entry with e' | reply
      · rw [hentry] at h
        simp only at h
        rw [← Except.error.inj h]
        exact not_isDimensionMismatch_entry hentry
      · rw [hentry] at h
        cases reply with
        | none => exact ih h
        | some reply => exact absurd h (by simp)

theorem not_isDimensionMismatch_batch {state : AppState} {slug : String}
    {entries : List BatchNoteItem} {e : SqlError} (h : validateBatch state slug entries = .error e) :
    ¬ IsDimensionMismatch e := by
  unfold validateBatch at h
  simp only [] at h
  split at h
  case h_1 e' hslug =>
    rw [← Except.error.inj h]
    exact not_isDimensionMismatch_slug hslug
  · split at h
    · rw [← Except.error.inj h]
      refine not_isDimensionMismatch 1 (by decide) ?_
      simp only [String.append_assoc]
      rw [take_toList_append (by decide)]
      decide
    · exact not_isDimensionMismatch_entries h

end Texts

/-- A write of entries none of which has a vector or gets one. -/
def Server.Request.Vectorless (state : AppState) : Server.Request → Prop
  | .addNote _ req => entryEmbedding state req.title req.body req.embedding = none
  | .pushBatch _ entries =>
      ∀ e ∈ entries, entryEmbedding state e.title (e.body.getD "") e.embedding = none
  | _ => False

/-- The checks a single entry passes before its project is looked up. -/
def Server.Accepts (state : AppState) (slug : String) (req : Server.AddNoteRequest) : Prop :=
  validateProjectSlug slug = .ok () ∧ validateTitleBody req.title req.body = .ok () ∧
    (state.scanForInjection req.title req.body).isSome = false

/-- What a write without a vector may expect: it is not refused for the dimension of
    its project and stores no vector; and a single entry that passes the other checks
    is stored. -/
def TextOnlyLaw [SyncClock] (state : AppState) (req : Server.Request) (db : ServerDb) : Prop :=
  (∀ failAfter,
    (∀ e, (Server.serve state req ⟨db, failAfter⟩).1 = .error e → ¬ IsDimensionMismatch e) ∧
    (Server.serve state req ⟨db, failAfter⟩).2.db.embeddings = db.embeddings) ∧
  ∀ slug note, req = .addNote slug note → Server.Accepts state slug note →
    (∀ p, db.getProject slug = some p → p.embeddingModel = some state.embeddingModel) →
    ∃ db' r, Server.serve state req ⟨db, none⟩ = (.ok (), ⟨db', none⟩) ∧
      db'.notes = db.notes ++ [r] ∧ r.kind = note.kind ∧ r.title = note.title ∧ r.body = note.body

/-- What the project has recorded is nothing or what the route passes: 0 for a
    single entry without a vector, the configured dimension for a batch. -/
def Server.DimensionFits (state : AppState) (db : ServerDb) : Server.Request → Prop
  | .addNote slug req => Server.Accepts state slug req → ∀ p, db.getProject slug = some p →
      p.embeddingDim = 0
  | .pushBatch slug entries => validateBatch state slug entries = .ok none →
      ∀ p, db.getProject slug = some p → p.embeddingDim = 0 ∨ p.embeddingDim = state.embeddingDim
  | _ => True

namespace Server

variable {db : ServerDb} {slug : String}

/-- A constraint refuses nothing for its dimension. -/
theorem not_isDimensionMismatch_checked {α : Type} {a : α} {s : ServerDb} {e : SqlError}
    (h : ServerDb.checked a s = .error e) : ¬ IsDimensionMismatch e := by
  rintro ⟨slug, expected, got, rfl⟩
  rw [ServerDb.checked] at h
  split at h
  · exact absurd (Except.error.inj h) (by simp [dimensionMismatch])
  · split at h
    · exact absurd (Except.error.inj h) (by simp [dimensionMismatch])
    · exact absurd h (by simp)

theorem not_isDimensionMismatch_io : ¬ IsDimensionMismatch .io := by
  rintro ⟨slug, expected, got, heq⟩
  exact absurd heq (by simp [dimensionMismatch])

/-- A program whose statements are refused by constraints only. -/
theorem errors_checked {α : Type} (f : ServerDb → α × ServerDb) :
    Sql.Errors (fun _ => True) (Sql.statement (fun s => ServerDb.checked (f s).1 (f s).2))
      (fun _ _ => True) (fun e => ¬ IsDimensionMismatch e) :=
  Sql.Errors.statement not_isDimensionMismatch_io (fun _ _ _ _ _ => trivial)
    (fun _ _ _ hf => not_isDimensionMismatch_checked hf)

/-- A project whose dimension fits is not refused for it. -/
theorem errors_upsertProject {d : Nat} {model : String}
    (hfits : ∀ p, db.getProject slug = some p → p.embeddingDim = 0 ∨ p.embeddingDim = d) :
    Sql.Errors (fun s => s = db) (upsertProject slug d model) (fun _ _ => True)
      (fun e => ¬ IsDimensionMismatch e) := by
  have hupdate : ∀ id f, Sql.Errors (fun _ => True) (updateProject id f) (fun _ _ => True)
      (fun e => ¬ IsDimensionMismatch e) := fun id f => errors_checked (fun s =>
        ((), { s with projects := s.projects.map (fun p => if p.id = id then f p else p) }))
  refine Sql.Errors.bind (Q := fun found s => found = db.getProject slug)
    (Sql.Errors.query not_isDimensionMismatch_io _ (fun s hs => by rw [hs])) (fun found => ?_)
  intro c hfound
  refine (?_ : Sql.Errors (fun _ => True) _ (fun _ _ => True)
    (fun e => ¬ IsDimensionMismatch e)) c trivial
  rcases found with _ | p
  · exact errors_checked (fun s => (_, { s with
      projects := s.projects ++ [⟨s.nextProjectId, slug, d, some model⟩]
      nextProjectId := s.nextProjectId + 1 }))
  · simp only []
    rw [if_neg (by
      rintro ⟨hzero, hne⟩
      rcases hfits p hfound.symm with h | h
      · exact hzero h
      · exact hne h)]
    split
    · exact Sql.Errors.fail _ (fun _ _ => not_isDimensionMismatch_model _ _ _)
    · refine Sql.Errors.bind (Sql.Errors.whenever (R := fun _ _ => True)
        (fun _ => hupdate _ _) (fun _ _ _ => trivial)) (fun _ => ?_)
      refine Sql.Errors.bind (Sql.Errors.whenever (R := fun _ _ => True)
        (fun _ => hupdate _ _) (fun _ _ _ => trivial)) (fun _ => ?_)
      exact Sql.Errors.ok _ (fun _ _ => trivial)

/-- A recorded dimension other than the one passed is answered with the refusal. -/
theorem upsertProject_refused {p : Project} {n d : Nat} {model : String}
    (hget : db.getProject slug = some p) (hdim : p.embeddingDim = n) (hzero : n ≠ 0) (hne : n ≠ d) :
    (upsertProject slug d model ⟨db, none⟩).1 = .error (dimensionMismatch slug n d) := by
  have hquery : Sql.query (fun s : ServerDb => s.getProject slug) ⟨db, none⟩
      = (.ok (some p), ⟨db, none⟩) := by
    simp only [Sql.query, Sql.statement, hget, Option.map_none]
  simp only [upsertProject, Sql.bind_eq, Sql.andThen, hquery]
  rw [hdim, if_pos ⟨hzero, hne⟩]
  rfl

theorem keeps_upsertProject_embeddings {l : List (Nat × List UInt32)} (d : Nat) (model : String) :
    Sql.Keeps (fun s => s.embeddings = l) (upsertProject slug d model) := by
  intro c hc
  exact ((keeps_upsertProject_notes c.db d model) c ⟨rfl, rfl⟩).2.trans hc

variable [SyncClock]

/-- Without a vector an insert is one statement on the rows. -/
theorem errors_addNote (now : Int) (pid : Nat) (kind title body : String)
    (tags linkedFiles : List String) (remoteId : Option String) :
    Sql.Errors (fun _ => True) (addNote now pid kind title body tags linkedFiles none remoteId)
      (fun _ _ => True) (fun e => ¬ IsDimensionMismatch e) := by
  refine Sql.Errors.bind (Q := fun _ _ => True) ?_ (fun _ => Sql.Errors.ok _ (fun _ _ => trivial))
  exact errors_checked (fun s => ((s.nextId, SyncClock.nowV7 s.lastSyncId), s.storeRow _))

theorem keeps_addNote_embeddings {l : List (Nat × List UInt32)} (now : Int) (pid : Nat)
    (kind title body : String) (tags linkedFiles : List String) (remoteId : Option String) :
    Sql.Keeps (fun s => s.embeddings = l)
      (addNote now pid kind title body tags linkedFiles none remoteId) := by
  refine Sql.Keeps.bind (Sql.Keeps.statement (fun s a s' hs hstep => ?_))
    (fun _ => Sql.Keeps.ok _)
  rcases ServerDb.of_checked_eq_ok hstep with ⟨_, rfl, _, _⟩
  exact hs

/-- One entry without a vector is not refused for the dimension of its project. -/
theorem errors_addNoteRoute {state : AppState} {req : AddNoteRequest}
    (hvec : entryEmbedding state req.title req.body req.embedding = none)
    (hfits : DimensionFits state db (.addNote slug req)) :
    Sql.Errors (fun s => s = db) (addNoteRoute state slug req) (fun _ _ => True)
      (fun e => ¬ IsDimensionMismatch e) := by
  have hclient : req.embedding = none := (Option.or_eq_none_iff.mp hvec).1
  unfold addNoteRoute
  split
  case h_1 hslug => exact Sql.Errors.fail _ (fun _ _ => not_isDimensionMismatch_slug hslug)
  case h_2 hslug =>
    split
    case h_1 htitle => exact Sql.Errors.fail _ (fun _ _ => not_isDimensionMismatch_titleBody htitle)
    case h_2 htitle =>
      rw [hclient]
      simp only [validateEmbeddingDim]
      split
      · exact Sql.Errors.ok _ (fun _ _ => trivial)
      case isFalse hscan =>
        rw [← hclient, hvec]
        refine Sql.Errors.bind (errors_upsertProject (fun p hp => Or.inl
          (hfits ⟨hslug, htitle, Bool.not_eq_true _ ▸ hscan⟩ p hp))) (fun p => ?_)
        exact Sql.Errors.bind (errors_addNote _ _ _ _ _ _ _ _)
          (fun _ => Sql.Errors.ok _ (fun _ _ => trivial))

/-- A batch of entries without vectors is not refused for the dimension. -/
theorem errors_pushMemoryBatch {state : AppState} {entries : List BatchNoteItem}
    (hvec : ∀ e ∈ entries, entryEmbedding state e.title (e.body.getD "") e.embedding = none)
    (hfits : DimensionFits state db (.pushBatch slug entries)) :
    Sql.Errors (fun s => s = db) (pushMemoryBatch state slug entries) (fun _ _ => True)
      (fun e => ¬ IsDimensionMismatch e) := by
  unfold pushMemoryBatch
  split
  case h_1 hbatch => exact Sql.Errors.fail _ (fun _ _ => not_isDimensionMismatch_batch hbatch)
  · exact Sql.Errors.ok _ (fun _ _ => trivial)
  case h_3 hbatch =>
    refine Sql.Errors.bind (errors_upsertProject (hfits hbatch)) (fun p => ?_)
    refine Sql.Errors.bind (Q := fun _ _ => True) ?_ (fun existing => ?_)
    · unfold findByRemoteIds
      split
      · exact Sql.Errors.ok _ (fun _ _ => trivial)
      · exact Sql.Errors.query not_isDimensionMismatch_io _ (fun _ _ => trivial)
    · refine Sql.Errors.bind (Q := fun _ _ => True) (Sql.Errors.foldEach _ _ (fun b entry he => ?_))
        (fun _ => Sql.Errors.ok _ (fun _ _ => trivial))
      unfold pushEntry
      split
      · exact Sql.Errors.ok _ (fun _ _ => trivial)
      · simp only [hvec entry he]
        exact Sql.Errors.bind (errors_addNote _ _ _ _ _ _ _ _)
          (fun _ => Sql.Errors.ok _ (fun _ _ => trivial))

/-- A write without a vector stores none. -/
theorem keeps_serve_embeddings {state : AppState} {req : Request} (hvec : req.Vectorless state)
    {l : List (Nat × List UInt32)} : Sql.Keeps (fun s => s.embeddings = l) (serve state req) := by
  cases req with
  | addNote slug req =>
      show Sql.Keeps _ (addNoteRoute state slug req)
      unfold addNoteRoute
      split
      · exact Sql.Keeps.fail _
      · split
        · exact Sql.Keeps.fail _
        · split
          · exact Sql.Keeps.fail _
          · split
            · exact Sql.Keeps.ok _
            · have hnone : entryEmbedding state req.title req.body req.embedding = none := hvec
              rw [hnone]
              exact Sql.Keeps.bind (keeps_upsertProject_embeddings _ _) (fun p =>
                Sql.Keeps.bind (keeps_addNote_embeddings _ _ _ _ _ _ _ _) (fun _ =>
                  Sql.Keeps.ok _))
  | pushBatch slug entries =>
      refine Sql.Keeps.bind ?_ (fun _ => Sql.Keeps.ok _)
      unfold pushMemoryBatch
      split
      · exact Sql.Keeps.fail _
      · exact Sql.Keeps.ok _
      · refine Sql.Keeps.bind (keeps_upsertProject_embeddings _ _) (fun p =>
          Sql.Keeps.bind (keeps_findByRemoteIds _ _) (fun existing =>
            Sql.Keeps.bind (Sql.Keeps.foldEach _ _ (fun b entry he => ?_))
              (fun _ => Sql.Keeps.ok _)))
        have hnone := hvec entry he
        unfold pushEntry
        split
        · exact Sql.Keeps.ok _
        · simp only [hnone]
          exact Sql.Keeps.bind (keeps_addNote_embeddings _ _ _ _ _ _ _ _)
            (fun _ => Sql.Keeps.ok _)
  | archive | supersede | delete => exact hvec.elim

/-- The route of an accepted entry without a vector: its project, and then one
    statement. -/
theorem addNoteRoute_eq {state : AppState} {req : AddNoteRequest}
    (hvec : entryEmbedding state req.title req.body req.embedding = none)
    (haccepts : Accepts state slug req) :
    addNoteRoute state slug req = (upsertProject slug 0 state.embeddingModel).andThen (fun project =>
      (addNote state.now project.id req.kind req.title req.body req.tags req.linkedFiles none
        none).andThen (fun _ => Sql.ok ())) := by
  have hclient : req.embedding = none := (Option.or_eq_none_iff.mp hvec).1
  rcases haccepts with ⟨hslug, htitle, hscan⟩
  rw [hclient] at hvec
  unfold addNoteRoute
  simp only [hslug, htitle, hclient, validateEmbeddingDim, hscan, hvec, Option.map_none,
    Option.getD_none, Sql.bind_eq, Sql.pure_eq, Bool.false_eq_true, if_false]

omit [SyncClock] in
/-- On a connection without faults the project of a fitting write is found or made. -/
theorem answers_upsertProject_fits {dim : Nat} {model : String} (h : db.Provenance dim)
    (hfits : ∀ p, db.getProject slug = some p → p.embeddingDim = 0)
    (hmodel : ∀ p, db.getProject slug = some p → p.embeddingModel = some model) :
    Sql.Answers (fun s => s = db) (upsertProject slug 0 model)
      (fun p s => (s.notes = db.notes ∧ p.id ∈ s.projects.map (·.id)) ∧
        s.Kept dim ServerDb.Stamped) := by
  refine Sql.Answers.mono (Sql.Answers.and_keeps (Q := fun p s => s.notes = db.notes ∧
    p.id ∈ s.projects.map (·.id)) ?_ (keeps_upsertProject slug (records_stamped 0 model)))
    (fun s hs => ⟨hs, hs.symm ▸ h.toKept⟩) (fun _ _ hq => hq)
  refine Sql.Answers.bind (Q := fun found s => found = db.getProject slug ∧ s = db)
    (Sql.Answers.of_serves (Sql.Serves.query (fun s hs => ⟨hs ▸ rfl, hs⟩)))
    (fun found => Sql.Answers.of_pre (fun hfound => ?_))
  rcases found with _ | p
  · refine Sql.Answers.of_serves (Sql.Serves.statement (fun s hs => ?_))
    rw [hs]
    have hok := insertProject_ok h.toSchemaOk hfound.symm 0 (some model)
    refine ⟨_, _, ServerDb.checked_eq_ok hok.1 hok.2, rfl, ?_⟩
    rw [List.map_append]
    exact List.mem_append_right _ (List.mem_singleton.mpr rfl)
  · have hp := (getProject_mem hfound.symm).1
    have hzero := hfits p hfound.symm
    have hstamp := hmodel p hfound.symm
    simp only [hzero, hstamp]
    rw [if_neg (by simp), if_neg (by simp)]
    refine Sql.Answers.bind (Q := fun _ s => s.notes = db.notes ∧ p.id ∈ s.projects.map (·.id))
      (Sql.Answers.whenever (fun _ => Sql.Answers.of_serves (Sql.Serves.statement (fun s hs => ?_)))
        (fun hne => absurd hzero hne))
      (fun _ => Sql.Answers.bind (Sql.Answers.whenever
        (fun hnone => absurd (hstamp.symm.trans hnone) (Option.some_ne_none _)) (fun _ _ hs => hs))
        (fun _ => Sql.Answers.ok _ (fun _ hs => hs)))
    rw [hs]
    have hok := updateProject_ok h.toSchemaOk p.id
      (f := fun q => { q with embeddingDim := 0 }) (fun _ => rfl) (fun _ => rfl)
    refine ⟨(), _, ServerDb.checked_eq_ok hok.1 hok.2, rfl, ?_⟩
    rw [List.map_map]
    refine List.mem_map.mpr ⟨p, hp, ?_⟩
    simp only [Function.comp_apply, if_true]

/-- An accepted entry that fits is stored. -/
theorem addNoteRoute_stores {dim : Nat} {state : AppState} {req : AddNoteRequest}
    (h : db.Provenance dim)
    (hvec : entryEmbedding state req.title req.body req.embedding = none)
    (haccepts : Accepts state slug req)
    (hfits : ∀ p, db.getProject slug = some p → p.embeddingDim = 0)
    (hmodel : ∀ p, db.getProject slug = some p → p.embeddingModel = some state.embeddingModel) :
    ∃ db' r, addNoteRoute state slug req ⟨db, none⟩ = (.ok (), ⟨db', none⟩) ∧
      db'.notes = db.notes ++ [r] ∧ r.kind = req.kind ∧ r.title = req.title ∧ r.body = req.body := by
  have hrun : Sql.Answers (fun s => s = db) (addNoteRoute state slug req)
      (fun _ s => ∃ r, s.notes = db.notes ++ [r] ∧ r.kind = req.kind ∧ r.title = req.title ∧
        r.body = req.body) := by
    rw [addNoteRoute_eq hvec haccepts]
    refine Sql.Answers.bind (answers_upsertProject_fits h hfits hmodel) (fun p => ?_)
    refine Sql.Answers.bind (Q := fun _ s => ∃ r, s.notes = db.notes ++ [r] ∧ r.kind = req.kind ∧
      r.title = req.title ∧ r.body = req.body) ?_ (fun _ => Sql.Answers.ok _ (fun _ hs => hs))
    refine Sql.Answers.bind (Sql.Answers.of_serves (Sql.Serves.statement (fun s hs => ?_)))
      (fun _ => Sql.Answers.ok _ (fun _ hs => hs))
    rcases hs with ⟨⟨hnotes, hproject⟩, hkept⟩
    refine ⟨_, _, ServerDb.checked_eq_ok ((storeRow_uniqueOk_iff hkept.toSchemaOk _).mpr
      (fun _ _ _ hext => absurd hext (by simp)))
      (storeRow_foreignKeysOk hkept.toSchemaOk hproject rfl), ?_⟩
    rw [← hnotes]
    exact ⟨_, rfl, rfl, rfl, rfl⟩
  rcases hrun db rfl with ⟨a, s, hok, r, hr⟩
  exact ⟨s, r, hok, hr⟩

end Server

/-- A write without a vector gets what it may expect exactly when the dimension of
    its project fits. -/
theorem textOnlyLaw_iff [SyncClock] {dim : Nat} {db : ServerDb} (h : db.Provenance dim)
    {state : AppState} {req : Server.Request} (hvec : req.Vectorless state) :
    TextOnlyLaw state req db ↔ Server.DimensionFits state db req := by
  constructor
  · intro hlaw
    have hrefused := (hlaw.1 none).1
    cases req with
    | addNote slug note =>
        intro haccepts p hget
        by_contra hzero
        -- The route passes 0, which is not what the project has recorded.
        have herr : (Server.serve state (.addNote slug note) ⟨db, none⟩).1
            = .error (Server.dimensionMismatch slug p.embeddingDim 0) := by
          show (Server.addNoteRoute state slug note ⟨db, none⟩).1 = _
          rw [Server.addNoteRoute_eq hvec haccepts]
          exact fst_andThen_error (Server.upsertProject_refused hget rfl hzero hzero)
        exact hrefused _ herr ⟨_, _, _, rfl⟩
    | pushBatch slug entries =>
        intro hbatch p hget
        by_contra hne
        rw [not_or] at hne
        have herr : (Server.serve state (.pushBatch slug entries) ⟨db, none⟩).1
            = .error (Server.dimensionMismatch slug p.embeddingDim state.embeddingDim) := by
          refine fst_andThen_error ?_
          simp only [Server.pushMemoryBatch, hbatch]
          exact fst_andThen_error (Server.upsertProject_refused hget rfl hne.1 hne.2)
        exact hrefused _ herr ⟨_, _, _, rfl⟩
    | archive | supersede | delete => exact hvec.elim
  · intro hfits
    refine ⟨fun failAfter => ⟨?_, Server.keeps_serve_embeddings hvec ⟨db, failAfter⟩ rfl⟩, ?_⟩
    · cases req with
      | addNote slug note => exact (Server.errors_addNoteRoute hvec hfits ⟨db, failAfter⟩ rfl).2
      | pushBatch slug entries =>
          exact (Sql.Errors.bind (Server.errors_pushMemoryBatch hvec hfits)
            (fun _ => Sql.Errors.ok (Q := fun _ _ => True) _ (fun _ _ => trivial))
            ⟨db, failAfter⟩ rfl).2
      | archive | supersede | delete => exact hvec.elim
    · rintro slug note rfl haccepts hmodel
      exact Server.addNoteRoute_stores h hvec haccepts (hfits haccepts) hmodel

/-- The law of the writes of a server: from any database it reached, a recorded
    dimension and its model stay in every run; every vector has the dimension its
    project has recorded; and a write without a vector gets what it may expect
    exactly when the dimension of its project fits. -/
def ProvenanceLaw [SyncClock] (dim : Nat) (db : ServerDb) : Prop :=
  (∀ db', ServerRan dim db db' → db.Pinned db') ∧
  (∀ p ∈ db.projects, p.embeddingDim ≠ 0 → ∀ e ∈ db.vectorsOf p.id,
    e.2.length = p.embeddingDim) ∧
  ∀ state req, state.Sized dim → req.Vectorless state →
    (TextOnlyLaw state req db ↔ Server.DimensionFits state db req)

theorem provenanceLaw_of_run [SyncClock] {dim : Nat} {db : ServerDb}
    (hrun : ServerRan dim (emptyServer dim) db) : ProvenanceLaw dim db := by
  have h := (provenance_of_run hrun (provenance_emptyServer dim)).1
  refine ⟨fun db' hmore => (provenance_of_run hmore h).2, fun p hp _ e he => ?_,
    fun state req _ hvec => textOnlyLaw_iff h hvec⟩
  rcases List.mem_filter.mp he with ⟨hmem, hrow⟩
  rcases List.mem_map.mp (of_decide_eq_true hrow) with ⟨n, hn, hid⟩
  rcases List.mem_filter.mp hn with ⟨hnmem, hproject⟩
  have hvector := h.vectors e hmem
  exact hvector.1.trans (hvector.2 n hnmem hid p hp (of_decide_eq_true hproject).symm).symm

section Example

/-- A server that embeds everything as one coordinate. -/
def warmServer : AppState := { quietServer with embed := fun _ => some [0] }

/-- A single entry without a vector of its own. -/
def plainNote : Server.AddNoteRequest where
  kind := "decision"
  title := "Use tokio"
  body := ""
  tags := []
  linkedFiles := []
  embedding := none

/-- The database after an entry was stored with the server's vector. -/
def embeddedServer : ServerDb :=
  (@Server.serve tickingClock warmServer (.addNote "p" { plainNote with title := "Use axum" })
    ⟨emptyServer 1, none⟩).2.db

theorem ran_embeddedServer : @ServerRan tickingClock 1 (emptyServer 1) embeddedServer :=
  GuardedRun.tail (warmServer, .addNote "p" { plainNote with title := "Use axum" }, none)
    GuardedRun.refl ⟨Nat.one_pos, rfl⟩ rfl

theorem provenanceLaw_of_run_embeddedServer : @ProvenanceLaw tickingClock 1 embeddedServer :=
  @provenanceLaw_of_run tickingClock 1 embeddedServer ran_embeddedServer

/-- While the embedder is away, an entry for the project is refused for the dimension
    the project has recorded. -/
theorem vectorless_refused :
    @ServerRan tickingClock 1 (emptyServer 1) embeddedServer ∧
      Server.Request.Vectorless quietServer (.addNote "p" plainNote) ∧
      (@Server.serve tickingClock quietServer (.addNote "p" plainNote) ⟨embeddedServer, none⟩).1
        = .error (Server.dimensionMismatch "p" 1 0) ∧
      ¬ @TextOnlyLaw tickingClock quietServer (.addNote "p" plainNote) embeddedServer := by
  have herr : (@Server.serve tickingClock quietServer (.addNote "p" plainNote)
      ⟨embeddedServer, none⟩).1 = .error (Server.dimensionMismatch "p" 1 0) := by
    have hget : embeddedServer.getProject "p" = some ⟨1, "p", 1, some "embeddinggemma-300m"⟩ := by
      decide
    show (@Server.addNoteRoute tickingClock quietServer "p" plainNote ⟨embeddedServer, none⟩).1 = _
    have haccepts : Server.Accepts quietServer "p" plainNote := ⟨by decide, by decide, by decide⟩
    have hrefused : (Server.upsertProject "p" 0 "embeddinggemma-300m" ⟨embeddedServer, none⟩).1
        = .error (Server.dimensionMismatch "p" 1 0) :=
      Server.upsertProject_refused hget rfl Nat.one_ne_zero Nat.one_ne_zero
    rw [@Server.addNoteRoute_eq "p" tickingClock quietServer plainNote rfl haccepts]
    exact fst_andThen_error hrefused
  exact ⟨ran_embeddedServer, rfl, herr, fun hlaw => (hlaw.1 none).1 _ herr ⟨_, _, _, rfl⟩⟩

end Example

end Spelunk
