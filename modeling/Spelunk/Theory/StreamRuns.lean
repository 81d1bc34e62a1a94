import Spelunk.Theory.ServerScope

/-!
# What a Stream Sends

The entries a stream sends are in order of their creation times and none is sent
twice, whatever is written meanwhile. That every entry is sent does not follow:
the cursor of the stream is a whole second and strict, so an entry that arrives in
a second of which the stream has sent something is never sent, and neither is one
that falls behind the end of a page that ends within its second.

## Main definitions

* `StreamRan`: Runs of writes and rounds.
* `Ordered`, `Complete`: The two parts of the law.
* `Fits`: The events that lose nothing.

## Theorems

* `ordered_of_run`: Order and uniqueness, in every run.
* `complete_step_iff`: An event loses an entry exactly when it does not fit.
* `complete_of_run`: Nothing is lost in a run of fitting events.
* `drained`: What is not lost is sent.
-/

namespace Spelunk

open Lib

/-- Runs from an open stream, every event meeting `guard`. -/
def StreamRan [SyncClock] (slug : String) (guard : ServerDb × Stream → StreamEvent → Prop) :
    ServerDb × Stream → ServerDb × Stream → Prop :=
  GuardedRun (fun σ e σ' => σ' = streamStep slug σ e) guard

/-- A stream that starts after `t`. -/
def Stream.opened (t : Int) : Stream := ⟨t, []⟩

/-- What is sent is sent once, in order of creation. -/
structure Ordered (s : Stream) : Prop where
  sorted : s.emitted.Pairwise (fun a b => a.createdAt ≤ b.createdAt)
  once : (s.emitted.map (·.id)).Nodup

/-- Every active entry of the project created after `t` is sent or still ahead. -/
def Complete (t : Int) (slug : String) (σ : ServerDb × Stream) : Prop :=
  ∀ p, σ.1.getProject slug = some p → ∀ r ∈ σ.1.notesOf p.id, r.live = true → t < r.createdAt →
    r.id ∈ σ.2.emitted.map (·.id) ∨ σ.2.lastSeen < r.createdAt

/-- The page of a round does not end within a second. -/
def PageFits (slug : String) (σ : ServerDb × Stream) : Prop :=
  ∀ p, σ.1.getProject slug = some p →
    Paging.Whole (·.createdAt) σ.2.lastSeen 50 (Server.shownOf p.id σ.1)

/-- An entry that is stored for the project is not of a second already passed, and a
    page that is read does not end within a second. -/
def Fits [SyncClock] (t : Int) (slug : String) (σ : ServerDb × Stream) : StreamEvent → Prop
  | .write (.addNote now projectId kind title body tags linkedFiles embedding remoteId) failAfter =>
      (Server.addNote now projectId kind title body tags linkedFiles embedding remoteId
        ⟨σ.1, failAfter⟩).2.db.notes ≠ σ.1.notes →
      ∀ p, σ.1.getProject slug = some p → p.id = projectId → t < now → σ.2.lastSeen < now
  | .write _ _ => True
  | .poll failAfter => failAfter = some 0 ∨ failAfter = some 1 ∨ PageFits slug σ

section Rounds

variable {slug : String} {db : ServerDb} {s : Stream}

theorem foldl_emit (s : Stream) (notes : List ServerRow) :
    notes.foldl Stream.emit s =
      ⟨Paging.advance (·.createdAt) s.lastSeen notes, s.emitted ++ notes⟩ := by
  induction notes generalizing s with
  | nil => rw [List.foldl_nil, List.append_nil]; rfl
  | cons note notes ih =>
      rw [List.foldl_cons, ih, Stream.emit, List.append_assoc]
      rfl

/-- What a stream has behind a page. -/
def Stream.read (s : Stream) (p : Project) (db : ServerDb) : Stream :=
  ⟨Paging.advance (·.createdAt) s.lastSeen
      (Paging.page (·.createdAt) s.lastSeen 50 (Server.shownOf p.id db)),
    s.emitted ++ Paging.page (·.createdAt) s.lastSeen 50 (Server.shownOf p.id db)⟩

/-- A round reads a page, unless a fault or a missing project makes it skip. -/
theorem streamStep_poll [SyncClock] (slug : String) (db : ServerDb) (s : Stream)
    (failAfter : Option Nat) :
    streamStep slug (db, s) (.poll failAfter) =
      (db, if failAfter = some 0 ∨ failAfter = some 1 then s
        else match db.getProject slug with
          | some p => s.read p db
          | none => s) := by
  have hlimit : max 1 (min 50 500) = 50 := rfl
  rcases failAfter with _ | _ | _ | k
  · rcases hget : db.getProject slug with _ | p
    · simp [streamStep, streamRound, Sql.andThen, Sql.attempt, Sql.query, Sql.statement, Sql.ok,
        hget]
    · simp [streamStep, streamRound, Sql.andThen, Sql.attempt, Sql.query, Sql.statement, Sql.ok,
        hget, Server.notesSince, foldl_emit, Stream.read]
  · simp [streamStep, streamRound, Sql.andThen, Sql.attempt, Sql.query, Sql.statement, Sql.ok]
  · rcases hget : db.getProject slug with _ | p
    · simp [streamStep, streamRound, Sql.andThen, Sql.attempt, Sql.query, Sql.statement, Sql.ok,
        hget]
    · simp [streamStep, streamRound, Sql.andThen, Sql.attempt, Sql.query, Sql.statement, Sql.ok,
        hget, Server.notesSince]
  · rcases hget : db.getProject slug with _ | p
    · simp [streamStep, streamRound, Sql.andThen, Sql.attempt, Sql.query, Sql.statement, Sql.ok,
        hget]
    · simp [streamStep, streamRound, Sql.andThen, Sql.attempt, Sql.query, Sql.statement, Sql.ok,
        hget, Server.notesSince, foldl_emit, Stream.read]

end Rounds

section Writes

/-- What comes of a database without new rows. -/
structure ServerDb.Evolved (db s : ServerDb) : Prop where
  rows : ∀ r' ∈ s.notes, ∃ r ∈ db.notes, r.id = r'.id ∧ r.projectId = r'.projectId ∧
    r.createdAt = r'.createdAt ∧ (r'.live = true → r.live = true)
  nextId_le : db.nextId ≤ s.nextId
  projects : ∀ p ∈ s.projects,
    (∃ q ∈ db.projects, q.id = p.id ∧ q.slug = p.slug) ∨ db.nextProjectId ≤ p.id
  nextProjectId_le : db.nextProjectId ≤ s.nextProjectId

variable {db : ServerDb}

theorem evolved_refl (db : ServerDb) : db.Evolved db where
  rows := fun r hr => ⟨r, hr, rfl, rfl, rfl, fun h => h⟩
  nextId_le := le_refl _
  projects := fun p hp => Or.inl ⟨p, hp, rfl, rfl⟩
  nextProjectId_le := le_refl _

/-- An update of rows that makes none live. -/
theorem evolved_mapNotes {s : ServerDb} (hs : db.Evolved s) {f : ServerRow → ServerRow}
    (hf : ∀ r, (f r).id = r.id ∧ (f r).projectId = r.projectId ∧ (f r).createdAt = r.createdAt ∧
      ((f r).live = true → r.live = true)) : db.Evolved { s with notes := s.notes.map f } := by
  refine ⟨fun r' hr' => ?_, hs.nextId_le, hs.projects, hs.nextProjectId_le⟩
  rcases List.mem_map.mp hr' with ⟨r, hr, rfl⟩
  rcases hs.rows r hr with ⟨r₀, hr₀, hid, hproject, hcreated, hlive⟩
  rcases hf r with ⟨hid', hproject', hcreated', hlive'⟩
  exact ⟨r₀, hr₀, hid.trans hid'.symm, hproject.trans hproject'.symm,
    hcreated.trans hcreated'.symm, fun h => hlive (hlive' h)⟩

theorem keeps_updateProject_evolved (id : Nat) {f : Project → Project}
    (hf : ∀ p, (f p).id = p.id ∧ (f p).slug = p.slug) :
    Sql.Keeps db.Evolved (Server.updateProject id f) := by
  refine Sql.Keeps.statement (fun s a s' hs hstep => ?_)
  rcases ServerDb.of_checked_eq_ok hstep with ⟨_, rfl, _, _⟩
  refine ⟨hs.rows, hs.nextId_le, fun p hp => ?_, hs.nextProjectId_le⟩
  rcases List.mem_map.mp hp with ⟨q, hq, rfl⟩
  split
  · rw [(hf q).1, (hf q).2]
    exact hs.projects q hq
  · exact hs.projects q hq

theorem keeps_upsertProject_evolved (slug : String) (dim : Nat) (model : String) :
    Sql.Keeps db.Evolved (Server.upsertProject slug dim model) := by
  refine Sql.Keeps.bind (Sql.Keeps.query _) (fun found => ?_)
  rcases found with _ | p
  · refine Sql.Keeps.statement (fun s a s' hs hstep => ?_)
    rcases ServerDb.of_checked_eq_ok hstep with ⟨_, rfl, _, _⟩
    refine ⟨hs.rows, hs.nextId_le, fun p hp => ?_, hs.nextProjectId_le.trans (Nat.le_succ _)⟩
    rcases List.mem_append.mp hp with hp | hp
    · exact hs.projects p hp
    · rw [List.mem_singleton.mp hp]
      exact Or.inr hs.nextProjectId_le
  · simp only []
    split
    · exact Sql.Keeps.fail _
    · split
      · exact Sql.Keeps.fail _
      · refine Sql.Keeps.bind (Sql.Keeps.whenever (keeps_updateProject_evolved _
          (fun _ => ⟨rfl, rfl⟩))) (fun _ => ?_)
        refine Sql.Keeps.bind (Sql.Keeps.whenever (keeps_updateProject_evolved _
          (fun _ => ⟨rfl, rfl⟩))) (fun _ => ?_)
        exact Sql.Keeps.ok _

theorem keeps_archiveNote_evolved (projectId noteId : Nat) :
    Sql.Keeps db.Evolved (Server.archiveNote projectId noteId) := by
  refine Sql.Keeps.statement (fun s a s' hs hstep => ?_)
  rcases ServerDb.of_checked_eq_ok hstep with ⟨_, rfl, _, _⟩
  refine evolved_mapNotes hs (fun r => ?_)
  split
  · exact ⟨rfl, rfl, rfl, fun h => absurd h (by simp [ServerRow.live])⟩
  · exact ⟨rfl, rfl, rfl, fun h => h⟩

theorem keeps_supersedeNote_evolved (projectId oldId newId : Nat) :
    Sql.Keeps db.Evolved (Server.supersedeNote projectId oldId newId) := by
  refine Sql.Keeps.statement (fun s a s' hs hstep => ?_)
  rcases ServerDb.of_checked_eq_ok hstep with ⟨_, rfl, _, _⟩
  refine evolved_mapNotes hs (fun r => ?_)
  split
  · exact ⟨rfl, rfl, rfl, fun h => absurd h (by simp [ServerRow.live])⟩
  · exact ⟨rfl, rfl, rfl, fun h => h⟩

theorem keeps_deleteNote_evolved (projectId noteId : Nat) :
    Sql.Keeps db.Evolved (Server.deleteNote projectId noteId) := by
  refine Sql.Keeps.bind (Sql.Keeps.execute (fun s s' hs hstep => ?_)) (fun _ =>
    Sql.Keeps.statement (fun s a s' hs hstep => ?_))
  · rw [← Except.ok.inj hstep]
    exact ⟨hs.rows, hs.nextId_le, hs.projects, hs.nextProjectId_le⟩
  · rcases ServerDb.of_checked_eq_ok hstep with ⟨_, rfl, _, _⟩
    exact ⟨fun r hr => hs.rows r (List.mem_filter.mp hr).1, hs.nextId_le, hs.projects,
      hs.nextProjectId_le⟩

/-- What an insert leaves behind, accepted or not: the projects, and at most one new
    row, which is live. -/
structure ServerDb.Inserted (db : ServerDb) (now : Int) (projectId : Nat) (s : ServerDb) : Prop where
  projects : s.projects = db.projects
  nextId_le : db.nextId ≤ s.nextId
  notes : s.notes = db.notes ∨ ∃ r, s.notes = db.notes ++ [r] ∧ r.id = db.nextId ∧
    r.projectId = projectId ∧ r.createdAt = now ∧ r.live = true

theorem inserted_addNote [SyncClock] (db : ServerDb) (now : Int) (projectId : Nat) (kind title body : String)
    (tags linkedFiles : List String) (embedding : Option (List UInt32)) (remoteId : Option String)
    (failAfter : Option Nat) : db.Inserted now projectId (Server.addNote now projectId kind title
      body tags linkedFiles embedding remoteId ⟨db, failAfter⟩).2.db := by
  have hpost : Sql.Post (fun s => s = db) (Server.addNote now projectId kind title body tags
      linkedFiles embedding remoteId) (fun _ s => db.Inserted now projectId s)
      (db.Inserted now projectId) := by
    have hstart : ∀ s, s = db → db.Inserted now projectId s := by
      rintro s rfl
      exact ⟨rfl, le_refl _, Or.inl rfl⟩
    refine Sql.Post.bind (Q := fun _ s => db.Inserted now projectId s)
      (Sql.Post.statement (fun s a s' hs hstep => ?_) hstart) (fun p => ?_)
    · rcases ServerDb.of_checked_eq_ok hstep with ⟨_, rfl, _, _⟩
      rw [hs]
      exact ⟨rfl, Nat.le_succ _, Or.inr ⟨_, rfl, rfl, rfl, rfl, rfl⟩⟩
    · rcases embedding with _ | vec
      · exact Sql.Post.ok _ (fun _ hs => hs)
      · refine Sql.Post.bind (Q := fun _ s => db.Inserted now projectId s)
          (Sql.Post.execute (fun s s' hs hstep => ?_) (fun _ hs => hs))
          (fun _ => Sql.Post.ok _ (fun _ hs => hs))
        split at hstep
        · exact absurd hstep (by simp)
        · split at hstep
          · exact absurd hstep (by simp)
          · rw [← Except.ok.inj hstep]
            exact ⟨hs.projects, hs.nextId_le, hs.notes⟩
  exact hpost.ends (c := ⟨db, failAfter⟩) rfl

theorem snd_andThen_ok {α : Type} (m : Sql ServerDb α) (c : Conn ServerDb) :
    (m.andThen (fun _ => Sql.ok ()) c).2 = (m c).2 := by
  simp only [Sql.andThen]
  rcases m c with ⟨_ | a, c'⟩ <;> rfl

/-- The operations but the insert add no rows. -/
theorem evolved_run [SyncClock] (db : ServerDb) {op : Server.Operation}
    (hop : ∀ now pid kind title body tags files emb rid,
      op ≠ .addNote now pid kind title body tags files emb rid) (failAfter : Option Nat) :
    db.Evolved (op.run ⟨db, failAfter⟩).2.db := by
  have hkeeps : Sql.Keeps db.Evolved op.run := by
    cases op with
    | upsertProject slug dim model =>
        exact Sql.Keeps.bind (keeps_upsertProject_evolved slug dim model) (fun _ => Sql.Keeps.ok _)
    | addNote => exact absurd rfl (hop _ _ _ _ _ _ _ _ _)
    | archiveNote projectId noteId =>
        exact Sql.Keeps.bind (keeps_archiveNote_evolved _ _) (fun _ => Sql.Keeps.ok _)
    | supersedeNote projectId oldId newId =>
        exact Sql.Keeps.bind (keeps_supersedeNote_evolved _ _ _) (fun _ => Sql.Keeps.ok _)
    | deleteNote projectId noteId =>
        exact Sql.Keeps.bind (keeps_deleteNote_evolved _ _) (fun _ => Sql.Keeps.ok _)
  exact hkeeps ⟨db, failAfter⟩ (evolved_refl db)

/-- Every operation keeps what the routes guarantee. -/
theorem kept_run [SyncClock] {dim : Nat} (h : db.Kept dim (fun _ => True)) (op : Server.Operation)
    (failAfter : Option Nat) : (op.run ⟨db, failAfter⟩).2.db.Kept dim (fun _ => True) := by
  have hrecords : ∀ d model, Server.Records (fun _ => True) d model :=
    fun _ _ => ⟨fun _ _ => trivial, fun _ _ => trivial, fun _ _ => trivial⟩
  have hkeeps : Sql.Keeps (ServerDb.Kept dim (fun _ => True)) op.run := by
    cases op with
    | upsertProject slug d model =>
        exact Sql.Keeps.bind (Server.keeps_upsertProject slug (hrecords d model))
          (fun _ => Sql.Keeps.ok _)
    | addNote =>
        exact Sql.Keeps.bind (Server.keeps_addNote _ _ _ _ _ _ _ _ _) (fun _ => Sql.Keeps.ok _)
    | archiveNote => exact Sql.Keeps.bind (Server.keeps_archiveNote _ _) (fun _ => Sql.Keeps.ok _)
    | supersedeNote =>
        exact Sql.Keeps.bind (Server.keeps_supersedeNote _ _ _) (fun _ => Sql.Keeps.ok _)
    | deleteNote => exact Sql.Keeps.bind (Server.keeps_deleteNote _ _) (fun _ => Sql.Keeps.ok _)
  exact hkeeps ⟨db, failAfter⟩ h

end Writes

/-- What holds in every state of a stream, whatever is lost. -/
structure StreamInv (dim : Nat) (t : Int) (σ : ServerDb × Stream) : Prop where
  kept : σ.1.Kept dim (fun _ => True)
  ordered : Ordered σ.2
  start_le : t ≤ σ.2.lastSeen
  le_lastSeen : ∀ e ∈ σ.2.emitted, e.createdAt ≤ σ.2.lastSeen
  id_lt : ∀ e ∈ σ.2.emitted, e.id < σ.1.nextId
  /-- A row is created once. -/
  agree : ∀ e ∈ σ.2.emitted, ∀ r ∈ σ.1.notes, r.id = e.id → r.createdAt = e.createdAt

section Invariant

variable {dim : Nat} {t : Int} {slug : String} {db : ServerDb} {s : Stream}

theorem shownOf_subset {pid : Nat} {r : ServerRow} (h : r ∈ Server.shownOf pid db) : r ∈ db.notes :=
  (List.mem_filter.mp h).1

theorem shownOf_nodup (h : db.UniqueOk) (pid : Nat) :
    ((Server.shownOf pid db).map (·.id)).Nodup :=
  h.1.sublist (List.filter_sublist.map _)

/-- Behind a page: what it holds lies above everything sent before. -/
theorem streamInv_read (h : StreamInv dim t (db, s)) (p : Project) :
    StreamInv dim t (db, s.read p db) := by
  have hcursor := Paging.le_advance (fun r : ServerRow => r.createdAt) s.lastSeen
    (Paging.page (·.createdAt) s.lastSeen 50 (Server.shownOf p.id db))
  have habove : ∀ x ∈ Paging.page (·.createdAt) s.lastSeen 50 (Server.shownOf p.id db),
      x ∈ db.notes ∧ s.lastSeen < x.createdAt := fun x hx =>
    ⟨shownOf_subset (Paging.mem_page hx).1, (Paging.mem_page hx).2⟩
  refine ⟨h.kept, ⟨?_, ?_⟩, h.start_le.trans hcursor.1, fun e he => ?_, fun e he => ?_,
    fun e he r hr hid => ?_⟩
  · refine List.pairwise_append.mpr ⟨h.ordered.sorted, Paging.page_sorted, fun a ha b hb => ?_⟩
    exact (h.le_lastSeen a ha).trans (habove b hb).2.le
  · rw [Stream.read, List.map_append, List.nodup_append]
    refine ⟨h.ordered.once, Paging.page_nodup (shownOf_nodup h.kept.unique _), ?_⟩
    rintro a ha b hb rfl
    rcases List.mem_map.mp ha with ⟨e, he, hid⟩
    rcases List.mem_map.mp hb with ⟨x, hx, hxid⟩
    -- The row was created when it was sent the first time, so not after the cursor.
    have hsame := h.agree e he x (habove x hx).1 (hxid.trans hid.symm)
    have hle := h.le_lastSeen e he
    have hlt := (habove x hx).2
    simp only at hsame hle hlt
    omega
  · rcases List.mem_append.mp he with he | he
    · exact (h.le_lastSeen e he).trans hcursor.1
    · exact hcursor.2 e he
  · rcases List.mem_append.mp he with he | he
    · exact h.id_lt e he
    · exact h.kept.id_lt e (habove e he).1
  · rcases List.mem_append.mp he with he | he
    · exact h.agree e he r hr hid
    · rw [List.inj_on_of_nodup_map h.kept.unique.1 hr (habove e he).1 hid]

variable [SyncClock]

/-- Every event keeps the invariant. -/
theorem streamInv_step (slug : String) {σ : ServerDb × Stream} (h : StreamInv dim t σ) (e : StreamEvent) :
    StreamInv dim t (streamStep slug σ e) := by
  rcases σ with ⟨db, s⟩
  cases e with
  | poll failAfter =>
      rw [streamStep_poll]
      split
      · exact h
      · split
        · exact streamInv_read h _
        · exact h
  | write op failAfter =>
      have hkept := kept_run h.kept op failAfter
      by_cases hop : ∃ now pid kind title body tags files emb rid,
          op = .addNote now pid kind title body tags files emb rid
      · rcases hop with ⟨now, pid, kind, title, body, tags, files, emb, rid, rfl⟩
        have hrun : (Server.Operation.run (.addNote now pid kind title body tags files emb rid)
            ⟨db, failAfter⟩).2.db = (Server.addNote now pid kind title body tags files emb rid
              ⟨db, failAfter⟩).2.db :=
          congrArg Conn.db (snd_andThen_ok _ _)
        have hins := inserted_addNote db now pid kind title body tags files emb rid failAfter
        rw [← hrun] at hins
        refine ⟨hkept, h.ordered, h.start_le, h.le_lastSeen,
          fun e he => (h.id_lt e he).trans_le hins.nextId_le, fun e he r hr hid => ?_⟩
        rcases hins.notes with hnotes | ⟨r', hnotes, hid', _⟩
        · exact h.agree e he r (hnotes ▸ hr) hid
        · rw [show (streamStep slug (db, s) (.write (.addNote now pid kind title body tags files emb
            rid) failAfter)).1.notes = db.notes ++ [r'] from hnotes] at hr
          rcases List.mem_append.mp hr with hr | hr
          · exact h.agree e he r hr hid
          · -- A new row has a rowid of its own.
            have hlt := h.id_lt e he
            rw [List.mem_singleton.mp hr, hid'] at hid
            simp only at hlt
            omega
      · have hev := evolved_run db (fun now pid kind title body tags files emb rid
          heq => hop ⟨now, pid, kind, title, body, tags, files, emb, rid, heq⟩) failAfter
        refine ⟨hkept, h.ordered, h.start_le, h.le_lastSeen,
          fun e he => (h.id_lt e he).trans_le hev.nextId_le, fun e he r hr hid => ?_⟩
        rcases hev.rows r hr with ⟨r₀, hr₀, hid₀, _, hcreated, _⟩
        rw [← hcreated]
        exact h.agree e he r₀ hr₀ (hid₀.trans hid)

omit [SyncClock] in
theorem streamInv_opened (h : db.Kept dim (fun _ => True)) (t : Int) :
    StreamInv dim t (db, Stream.opened t) where
  kept := h
  ordered := ⟨List.Pairwise.nil, List.nodup_nil⟩
  start_le := le_refl _
  le_lastSeen := fun _ he => absurd he List.not_mem_nil
  id_lt := fun _ he => absurd he List.not_mem_nil
  agree := fun _ he => absurd he List.not_mem_nil

end Invariant

section Completeness

variable {dim : Nat} {t : Int} {slug : String} {db : ServerDb} {s : Stream}

/-- A live row is one a page may show. -/
theorem mem_shownOf (h : db.Kept dim (fun _ => True)) {pid : Nat} {r : ServerRow} :
    r ∈ Server.shownOf pid db ↔ r ∈ db.notesOf pid ∧ r.live = true := by
  rw [Server.shownOf, ServerDb.notesOf, List.mem_filter, List.mem_filter, decide_eq_true_eq,
    decide_eq_true_eq, ServerRow.live, decide_eq_true_eq]
  constructor
  · rintro ⟨hr, hproject, hstatus⟩
    rcases h.status r hr with hlive | harchived
    · exact ⟨⟨hr, hproject⟩, hlive⟩
    · exact absurd harchived hstatus
  · rintro ⟨⟨hr, hproject⟩, hlive⟩
    exact ⟨hr, hproject, by rw [hlive]; decide⟩

/-- A page loses nothing exactly when it does not end within a second. -/
theorem complete_read_iff (h : StreamInv dim t (db, s)) (hc : Complete t slug (db, s)) {p : Project}
    (hget : db.getProject slug = some p) :
    Complete t slug (db, s.read p db) ↔ PageFits slug (db, s) := by
  have hfits : PageFits slug (db, s) ↔
      Paging.Whole (·.createdAt) s.lastSeen 50 (Server.shownOf p.id db) := by
    constructor
    · exact fun hall => hall p hget
    · intro hwhole q hq
      rw [show q = p from Option.some.inj (hq.symm.trans hget)]
      exact hwhole
  rw [hfits, Paging.whole_iff (shownOf_nodup h.kept.unique p.id)]
  constructor
  · intro hread x hx hlt
    rcases (mem_shownOf h.kept).mp hx with ⟨hrow, hlive⟩
    rcases hread p hget x hrow hlive (h.start_le.trans_lt hlt) with hsent | hahead
    · rw [Stream.read, List.map_append] at hsent
      rcases List.mem_append.mp hsent with hold | hpage
      · -- What was sent before does not lie above the cursor.
        rcases List.mem_map.mp hold with ⟨e, he, hid⟩
        have hsame := h.agree e he x (shownOf_subset hx) hid.symm
        have hle := h.le_lastSeen e he
        simp only at hle
        omega
      · exact Or.inl hpage
    · exact Or.inr hahead
  · intro hpassed q hq r hr hlive hlater
    have hq : db.getProject slug = some q := hq
    rw [show q = p from Option.some.inj (hq.symm.trans hget)] at hr
    rw [Stream.read, List.map_append]
    rcases hc p hget r hr hlive hlater with hsent | hahead
    · exact Or.inl (List.mem_append_left _ hsent)
    · rcases hpassed r ((mem_shownOf h.kept).mpr ⟨hr, hlive⟩) hahead with hpage | habove
      · exact Or.inl (List.mem_append_right _ hpage)
      · exact Or.inr habove

variable [SyncClock]

theorem complete_poll_iff (h : StreamInv dim t (db, s)) (hc : Complete t slug (db, s))
    (failAfter : Option Nat) : Complete t slug (streamStep slug (db, s) (.poll failAfter)) ↔
      Fits t slug (db, s) (.poll failAfter) := by
  rw [streamStep_poll, Fits]
  by_cases hfault : failAfter = some 0 ∨ failAfter = some 1
  · rw [if_pos hfault]
    exact ⟨fun _ => hfault.elim Or.inl (fun h1 => Or.inr (Or.inl h1)), fun _ => hc⟩
  · rw [if_neg hfault]
    have hsplit : (failAfter = some 0 ∨ failAfter = some 1 ∨ PageFits slug (db, s)) ↔
        PageFits slug (db, s) := by
      constructor
      · rintro (h0 | h1 | hfits)
        · exact absurd (Or.inl h0) hfault
        · exact absurd (Or.inr h1) hfault
        · exact hfits
      · exact fun hfits => Or.inr (Or.inr hfits)
    rw [hsplit]
    rcases hget : db.getProject slug with _ | p
    · simp only []
      exact ⟨fun _ q hq => absurd (hget.symm.trans hq) (by simp), fun _ => hc⟩
    · exact complete_read_iff h hc hget

/-- A new row of the project is lost exactly when its second is passed. -/
theorem complete_addNote_iff (h : StreamInv dim t (db, s)) (hc : Complete t slug (db, s))
    (now : Int) (pid : Nat) (kind title body : String) (tags files : List String)
    (emb : Option (List UInt32)) (rid : Option String) (failAfter : Option Nat) :
    Complete t slug (streamStep slug (db, s)
        (.write (.addNote now pid kind title body tags files emb rid) failAfter)) ↔
      Fits t slug (db, s) (.write (.addNote now pid kind title body tags files emb rid) failAfter) := by
  have hins := inserted_addNote db now pid kind title body tags files emb rid failAfter
  have hstep : streamStep slug (db, s)
      (.write (.addNote now pid kind title body tags files emb rid) failAfter) =
      ((Server.addNote now pid kind title body tags files emb rid ⟨db, failAfter⟩).2.db, s) :=
    congrArg (fun c : Conn ServerDb => (c.db, s)) (snd_andThen_ok _ _)
  rw [hstep, Fits]
  simp only
  generalize (Server.addNote now pid kind title body tags files emb rid
    ⟨db, failAfter⟩).2.db = db' at hins ⊢
  have hget : ∀ p, db'.getProject slug = some p ↔ db.getProject slug = some p := by
    intro p
    rw [ServerDb.getProject, ServerDb.getProject, hins.projects]
  rcases hins.notes with hnotes | ⟨r, hnotes, hid, hproject, hcreated, hlive⟩
  · constructor
    · exact fun _ hne => absurd hnotes hne
    · intro _ p hp x hx
      have hx : x ∈ db.notesOf p.id := by
        rw [ServerDb.notesOf, ← hnotes]
        exact hx
      exact hc p ((hget p).mp hp) x hx
  · have hmem : ∀ p : Project, ∀ x, x ∈ db'.notesOf p.id ↔
        x ∈ db.notesOf p.id ∨ (x = r ∧ pid = p.id) := by
      intro p x
      rw [ServerDb.notesOf, ServerDb.notesOf, hnotes, List.filter_append, List.mem_append]
      constructor
      · rintro (hx | hx)
        · exact Or.inl hx
        · rcases List.mem_filter.mp hx with ⟨hx, hxp⟩
          rw [List.mem_singleton] at hx
          exact Or.inr ⟨hx, hproject.symm.trans (hx ▸ of_decide_eq_true hxp)⟩
      · rintro (hx | ⟨rfl, hx⟩)
        · exact Or.inl hx
        · exact Or.inr (List.mem_filter.mpr ⟨List.mem_singleton.mpr rfl,
            decide_eq_true (hproject.trans hx)⟩)
    constructor
    · intro hafter _ p hp hpid hlater
      rcases hafter p ((hget p).mpr hp) r ((hmem p r).mpr (Or.inr ⟨rfl, hpid.symm⟩)) hlive
        (hcreated.symm ▸ hlater) with hsent | hahead
      · -- Its rowid is new, so it was not sent.
        rcases List.mem_map.mp hsent with ⟨e, he, heid⟩
        have hlt := h.id_lt e he
        simp only at hlt
        omega
      · exact hcreated ▸ hahead
    · intro hfits p hp x hx hxlive hlater
      have hp := (hget p).mp hp
      rcases (hmem p x).mp hx with hx | ⟨rfl, hpid⟩
      · exact hc p hp x hx hxlive hlater
      · right
        have hne : db'.notes ≠ db.notes := by
          rw [hnotes]
          intro heq
          have hlen := congrArg List.length heq
          rw [List.length_append, List.length_singleton] at hlen
          omega
        rw [hcreated] at hlater ⊢
        exact hfits hne p hp hpid.symm hlater

omit [SyncClock] in
/-- The other operations lose nothing. -/
theorem complete_evolved (h : StreamInv dim t (db, s)) (hc : Complete t slug (db, s)) {db' : ServerDb}
    (hev : db.Evolved db') : Complete t slug (db', s) := by
  intro p hp r' hr' hlive hlater
  rcases List.mem_filter.mp hr' with ⟨hmem, hproject⟩
  rcases hev.rows r' hmem with ⟨r, hr, hid, hsame, hcreated, hback⟩
  have hproject : r.projectId = p.id := hsame.trans (of_decide_eq_true hproject)
  rcases getProject_mem hp with ⟨hpmem, hpslug⟩
  rcases hev.projects p hpmem with ⟨q, hq, hqid, hqslug⟩ | hnew
  · have hget := getProject_of_mem h.kept.unique hq (hqslug.trans hpslug)
    rcases hc q hget r (List.mem_filter.mpr ⟨hr, decide_eq_true (hproject.trans hqid.symm)⟩)
      (hback hlive) (hcreated ▸ hlater) with hsent | hahead
    · exact Or.inl (hid ▸ hsent)
    · exact Or.inr (hcreated ▸ hahead)
  · -- A project made just now has no rows.
    rcases List.mem_map.mp (h.kept.foreignKeys r hr).1 with ⟨q, hq, hqid⟩
    have hlt := h.kept.project_lt q hq
    simp only at hlt hnew
    omega

/-- An event loses an entry exactly when it does not fit. -/
theorem complete_step_iff {σ : ServerDb × Stream} (h : StreamInv dim t σ) (hc : Complete t slug σ)
    (e : StreamEvent) : Complete t slug (streamStep slug σ e) ↔ Fits t slug σ e := by
  rcases σ with ⟨db, s⟩
  cases e with
  | poll failAfter => exact complete_poll_iff h hc failAfter
  | write op failAfter =>
      cases op with
      | addNote now pid kind title body tags files emb rid =>
          exact complete_addNote_iff h hc now pid kind title body tags files emb rid failAfter
      | upsertProject | archiveNote | supersedeNote | deleteNote =>
          refine ⟨fun _ => trivial, fun _ => complete_evolved h hc (evolved_run db ?_ failAfter)⟩
          intro now pid kind title body tags files emb rid heq
          exact absurd heq (by simp)

end Completeness

section Runs

variable [SyncClock] {dim : Nat} {t : Int} {slug : String} {db : ServerDb}

/-- How many entries lie ahead of the stream. -/
def aheadOf (slug : String) (σ : ServerDb × Stream) : Nat :=
  match σ.1.getProject slug with
  | some p => (Paging.pending (·.createdAt) σ.2.lastSeen (Server.shownOf p.id σ.1)).length
  | none => 0

/-- Rounds of the stream without writes between them and without faults. -/
def rounds (slug : String) (n : Nat) (σ : ServerDb × Stream) : ServerDb × Stream :=
  (fun σ => streamStep slug σ (.poll none))^[n] σ

/-- The invariant holds in every run. -/
theorem streamInv_of_run (h : db.Kept dim (fun _ => True))
    {guard : ServerDb × Stream → StreamEvent → Prop} {σ : ServerDb × Stream}
    (hrun : StreamRan slug guard (db, Stream.opened t) σ) : StreamInv dim t σ := by
  refine GuardedRun.invariant (I := StreamInv dim t) hrun (streamInv_opened h t)
    (fun σ e σ' hσ _ hstep => ?_)
  rw [hstep]
  exact streamInv_step slug hσ e

/-- Nothing is lost in a run of fitting events. -/
theorem complete_of_run (h : db.Kept dim (fun _ => True)) {σ : ServerDb × Stream}
    (hrun : StreamRan slug (Fits t slug) (db, Stream.opened t) σ) : Complete t slug σ := by
  have hboth : StreamInv dim t σ ∧ Complete t slug σ := by
    refine GuardedRun.invariant (I := fun σ => StreamInv dim t σ ∧ Complete t slug σ) hrun
      ⟨streamInv_opened h t, fun p _ r _ _ hlater => Or.inr hlater⟩
      (fun σ e σ' hσ hfits hstep => ?_)
    rw [hstep]
    exact ⟨streamInv_step slug hσ.1 e, (complete_step_iff hσ.1 hσ.2 e).mpr hfits⟩
  exact hboth.2

/-- A round leaves fewer entries ahead. -/
theorem aheadOf_round (slug : String) (σ : ServerDb × Stream) :
    aheadOf slug (streamStep slug σ (.poll none)) ≤ aheadOf slug σ - 1 := by
  rcases σ with ⟨db, s⟩
  rw [streamStep_poll, if_neg (by simp)]
  rcases hget : db.getProject slug with _ | p
  · simp only [aheadOf, hget, Nat.zero_le]
  · simp only [aheadOf, hget]
    have hless := Paging.length_pending_advance (fun r : ServerRow => r.createdAt) s.lastSeen 50
      (Server.shownOf p.id db)
    rw [Paging.length_page] at hless
    simp only [Stream.read]
    omega

theorem aheadOf_rounds (slug : String) (n : Nat) (σ : ServerDb × Stream) :
    aheadOf slug (rounds slug n σ) ≤ aheadOf slug σ - n := by
  induction n generalizing σ with
  | zero => exact le_refl _
  | succ n ih =>
      have hround := aheadOf_round slug σ
      have hrest := ih (streamStep slug σ (.poll none))
      rw [rounds, Function.iterate_succ_apply]
      rw [rounds] at hrest
      omega

/-- What is not lost is sent: after as many rounds as there are entries ahead, each
    whole, every active entry of the project created after `t` has been sent, once. -/
theorem drained {σ : ServerDb × Stream} (h : StreamInv dim t σ) (hc : Complete t slug σ) {n : Nat}
    (hn : aheadOf slug σ ≤ n) (hfits : ∀ k < n, PageFits slug (rounds slug k σ)) :
    ∀ p, (rounds slug n σ).1.getProject slug = some p →
      ∀ r ∈ (rounds slug n σ).1.notesOf p.id, r.live = true → t < r.createdAt →
        ((rounds slug n σ).2.emitted.map (·.id)).count r.id = 1 := by
  have hall : ∀ k ≤ n, StreamInv dim t (rounds slug k σ) ∧ Complete t slug (rounds slug k σ) := by
    intro k
    induction k with
    | zero => exact fun _ => ⟨h, hc⟩
    | succ k ih =>
        intro hk
        rcases ih (by omega) with ⟨hinv, hcomplete⟩
        have hsucc : rounds slug (k + 1) σ = streamStep slug (rounds slug k σ) (.poll none) := by
          rw [rounds, rounds, Function.iterate_succ_apply']
        rw [hsucc]
        exact ⟨streamInv_step slug hinv _, (complete_step_iff hinv hcomplete _).mpr
          (Or.inr (Or.inr (hfits k (by omega))))⟩
  rcases hall n (le_refl _) with ⟨hinv, hcomplete⟩
  have hahead : aheadOf slug (rounds slug n σ) = 0 := by
    have hle := aheadOf_rounds slug n σ
    omega
  intro p hp r hr hlive hlater
  rcases hcomplete p hp r hr hlive hlater with hsent | habove
  · exact List.count_eq_one_of_mem hinv.ordered.once hsent
  · -- Nothing is ahead any more.
    simp only [aheadOf, hp] at hahead
    have hpending := Paging.mem_pending.mpr ⟨(mem_shownOf hinv.kept).mpr ⟨hr, hlive⟩, habove⟩
    rw [List.length_eq_zero_iff.mp hahead] at hpending
    exact absurd hpending List.not_mem_nil

/-- What is passed over is never sent. -/
theorem lost_for_good {σ : ServerDb × Stream} (h : StreamInv dim t σ) {r : ServerRow}
    (hr : r ∈ σ.1.notes) (hpassed : r.createdAt ≤ σ.2.lastSeen)
    (hunsent : r.id ∉ σ.2.emitted.map (·.id)) (n : Nat) :
    r.id ∉ (rounds slug n σ).2.emitted.map (·.id) := by
  induction n generalizing σ with
  | zero => exact hunsent
  | succ n ih =>
      rcases σ with ⟨db, s⟩
      have hinv := streamInv_step slug h (.poll none)
      rw [rounds, Function.iterate_succ_apply]
      rw [streamStep_poll, if_neg (by simp)] at hinv ⊢
      rcases hget : db.getProject slug with _ | p
      · rw [hget] at hinv
        exact ih hinv hr hpassed hunsent
      · rw [hget] at hinv
        refine ih hinv hr (hpassed.trans (Paging.le_advance _ _ _).1) (fun hsent => ?_)
        have hsent : r.id ∈ (s.read p db).emitted.map (·.id) := hsent
        rw [Stream.read, List.map_append] at hsent
        rcases List.mem_append.mp hsent with hold | hpage
        · exact hunsent hold
        · -- A page lies above the cursor.
          rcases List.mem_map.mp hpage with ⟨x, hx, hid⟩
          have hsame := List.inj_on_of_nodup_map h.kept.unique.1
            (shownOf_subset (Paging.mem_page hx).1) hr hid
          have hlt := (Paging.mem_page hx).2
          rw [hsame] at hlt
          exact absurd hlt (not_lt.mpr hpassed)

/-- The law of a stream opened on any database: what it sends is sent once and in
    order, in every run; in a run of fitting events nothing is lost, all of it is sent
    by as many whole rounds as there are entries ahead, and the next event loses an
    entry exactly when it does not fit. -/
theorem streamLaw (h : db.Kept dim (fun _ => True)) (t : Int) (slug : String) :
    (∀ σ, StreamRan slug (fun _ _ => True) (db, Stream.opened t) σ → Ordered σ.2) ∧
    ∀ σ, StreamRan slug (Fits t slug) (db, Stream.opened t) σ →
      Complete t slug σ ∧
      (∀ n, aheadOf slug σ ≤ n → (∀ k < n, PageFits slug (rounds slug k σ)) →
        ∀ p, (rounds slug n σ).1.getProject slug = some p →
          ∀ r ∈ (rounds slug n σ).1.notesOf p.id, r.live = true → t < r.createdAt →
            ((rounds slug n σ).2.emitted.map (·.id)).count r.id = 1) ∧
      ∀ e, Complete t slug (streamStep slug σ e) ↔ Fits t slug σ e := by
  refine ⟨fun σ hrun => (streamInv_of_run h hrun).ordered, fun σ hrun => ?_⟩
  have hinv := streamInv_of_run h hrun
  have hcomplete := complete_of_run h hrun
  exact ⟨hcomplete, fun n hn hfits => drained hinv hcomplete hn hfits,
    fun e => complete_step_iff hinv hcomplete e⟩

end Runs

section Example

/-- The insert of a titled note. -/
def insertAt (now : Int) (title : String) : StreamEvent :=
  .write (.addNote now 1 "decision" title "" [] [] none none) none

/-- A stream that has sent a note of second 100 when a second one arrives in it. -/
def passedSecond : ServerDb × Stream :=
  [.write (.upsertProject "p" 1 "embeddinggemma-300m") none, .poll none, insertAt 100 "Use axum",
    .poll none, insertAt 100 "Use tokio"].foldl (@streamStep tickingClock "p")
    (emptyServer 1, Stream.opened 0)

theorem ran_passedSecond :
    @StreamRan tickingClock "p" (fun _ _ => True) (emptyServer 1, Stream.opened 0) passedSecond := by
  refine GuardedRun.tail (insertAt 100 "Use tokio") ?_ trivial rfl
  refine GuardedRun.tail (.poll none) ?_ trivial rfl
  refine GuardedRun.tail (insertAt 100 "Use axum") ?_ trivial rfl
  refine GuardedRun.tail (.poll none) ?_ trivial rfl
  refine GuardedRun.tail (.write (.upsertProject "p" 1 "embeddinggemma-300m") none)
    GuardedRun.refl trivial rfl

theorem kept_emptyServer : (emptyServer 1).Kept 1 (fun _ => True) where
  toSchemaOk := (served_emptyServer 1 "").toSchemaOk
  vectorDim := rfl
  status := fun _ hn => absurd hn List.not_mem_nil
  recorded := fun _ _ => trivial

/-- The stream before the round that sends the first note. -/
def firstNote : ServerDb × Stream :=
  [.write (.upsertProject "p" 1 "embeddinggemma-300m") none, insertAt 100 "Use axum"].foldl
    (@streamStep tickingClock "p") (emptyServer 1, Stream.opened 0)

theorem ran_firstNote :
    @StreamRan tickingClock "p" (@Fits tickingClock 0 "p") (emptyServer 1, Stream.opened 0)
      firstNote := by
  refine GuardedRun.tail (insertAt 100 "Use axum") ?_ (fun _ _ _ _ _ => by decide) rfl
  exact GuardedRun.tail (.write (.upsertProject "p" 1 "embeddinggemma-300m") none)
    GuardedRun.refl trivial rfl

/-- The law on the two runs: what was sent is in order, and nothing was lost before
    the second note. -/
theorem streamLaw_passedSecond : Ordered passedSecond.2 ∧ Complete 0 "p" firstNote :=
  ⟨(@streamLaw tickingClock 1 (emptyServer 1) kept_emptyServer 0 "p").1 _ ran_passedSecond,
    ((@streamLaw tickingClock 1 (emptyServer 1) kept_emptyServer 0 "p").2 _ ran_firstNote).1⟩

/-- The second note is active and later than the start, and no number of rounds
    sends it. -/
theorem stream_loses_second :
    @StreamRan tickingClock "p" (fun _ _ => True) (emptyServer 1, Stream.opened 0) passedSecond ∧
      (passedSecond.1.notesOf 1).map (fun r => (r.id, r.title, r.createdAt, r.status)) =
        [(1, "Use axum", 100, "active"), (2, "Use tokio", 100, "active")] ∧
      ∀ n, 2 ∉ (@rounds tickingClock "p" n passedSecond).2.emitted.map (·.id) := by
  refine ⟨ran_passedSecond, by decide, fun n => ?_⟩
  have hinv : StreamInv 1 0 passedSecond := @streamInv_of_run tickingClock 1 0 "p" (emptyServer 1)
    kept_emptyServer _ _ ran_passedSecond
  have hall : ∀ x ∈ passedSecond.1.notes.tail, x.id = 2 ∧
      x.createdAt ≤ passedSecond.2.lastSeen := by decide
  have hlater : ∃ b ∈ passedSecond.1.notes.tail, b.id = 2 := by decide
  rcases hlater with ⟨b, hb, hid⟩
  have hunsent : b.id ∉ passedSecond.2.emitted.map (·.id) := by
    rw [hid]
    decide
  have hlost := @lost_for_good tickingClock 1 0 "p" passedSecond hinv b (List.mem_of_mem_tail hb)
    (hall b hb).2 hunsent n
  rw [hid] at hlost
  exact hlost

end Example

end Spelunk
