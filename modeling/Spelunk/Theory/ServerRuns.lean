import Spelunk.Theory.ServerBatchLaw

/-!
# From One State of the Team Server to a Later One

What lies between two databases of a server, any requests apart, each of them stopped by a fault or
not. Every statement of the routes is one of six kinds, so whatever these keep every run keeps: no
row changes but by being archived, none goes but by a deletion that names it, and those that are new
come above all that was given out before, in rowid and in `sync_id`.

## Main definitions

* `ServerDb.Writes`: What a statement of a request does.
* `ServerRow.Later`: A row and what may have become of it.
* `ServerDb.Follows`: A database and what may have become of it.
* `ServerLater`: Databases that further requests reach.

## Theorems

* `keeps_serve_of_writes`: What every statement keeps, every request keeps.
* `follows_writes`: One more statement.
* `serverRuns`: What is between any two states.
-/

namespace Spelunk

open Lib (Sql GuardedRun)

/-- The rows that a request may delete. -/
def Server.Request.Deletes : Server.Request → Nat → Prop
  | .delete _ noteId, id => id = noteId
  | _, _ => False

/-- The rows that a request may archive, under a successor or not. -/
def Server.Request.Archives : Server.Request → Nat → Prop
  | .archive _ noteId, id => id = noteId
  | .supersede _ noteId _, id => id = noteId
  | _, _ => False

/-- A row and what may have become of it, where the rows of `ended` may be archived. -/
def ServerRow.Later (ended : Nat → Prop) (m n : ServerRow) : Prop :=
  n = m ∨ m.live = true ∧ ended m.id ∧ ∃ successor,
    n = { m with status := "archived", supersededBy := successor }

namespace ServerRow

variable {ended : Nat → Prop} {m n : ServerRow}

theorem Later.id_eq (h : m.Later ended n) : n.id = m.id := by
  rcases h with rfl | ⟨-, -, successor, rfl⟩ <;> rfl

theorem Later.syncId_eq (h : m.Later ended n) : n.syncId = m.syncId := by
  rcases h with rfl | ⟨-, -, successor, rfl⟩ <;> rfl

/-- Archiving a live row goes on from whatever became of it. -/
theorem Later.archive (h : m.Later ended n) (hlive : n.live = true) (hended : ended n.id)
    (successor : Option Nat) :
    m.Later ended { n with status := "archived", supersededBy := successor } := by
  rcases h with rfl | ⟨-, -, other, rfl⟩
  · exact .inr ⟨hlive, hended, successor, rfl⟩
  · exact absurd hlive (by simp [live])

end ServerRow

namespace ServerDb

variable {gone ended : Nat → Prop} {old db db' : ServerDb}

/-- What a statement of a request does to the database, where it may delete the rows of `gone` and
    archive those of `ended`. -/
inductive Writes [SyncClock] (gone ended : Nat → Prop) (db : ServerDb) : ServerDb → Prop where
  | record (f : Project → Project) (hid : ∀ p, (f p).id = p.id) (hslug : ∀ p, (f p).slug = p.slug) :
    Writes gone ended db { db with projects := db.projects.map f }
  | create (p : Project) : Writes gone ended db
    { db with projects := db.projects ++ [p], nextProjectId := db.nextProjectId + 1 }
  | vectors (embeddings : List (Nat × List UInt32)) :
    Writes gone ended db { db with embeddings := embeddings }
  | insert (r : ServerRow) (hid : r.id = db.nextId)
    (hsync : r.syncId = SyncClock.nowV7 db.lastSyncId) : Writes gone ended db
      { db with notes := db.notes ++ [r], nextId := db.nextId + 1, lastSyncId := r.syncId }
  | archive (hit : ServerRow → Bool) (successor : ServerRow → Option Nat)
    (hhit : ∀ r, hit r = true → r.live = true ∧ ended r.id) : Writes gone ended db
      { db with notes := db.notes.map fun r =>
          if hit r then { r with status := "archived", supersededBy := successor r } else r }
  | delete (hit : ServerRow → Bool) (hhit : ∀ r, hit r = true → gone r.id) :
    Writes gone ended db { db with notes := db.notes.filter fun r => ¬ hit r }

/-- What may have become of the database `old`. -/
structure Follows (gone ended : Nat → Prop) (old db : ServerDb) : Prop where
  nextId_le : old.nextId ≤ db.nextId
  lastSyncId_le : old.lastSyncId ≤ db.lastSyncId
  /-- Projects stay under their slugs. -/
  project : ∀ p ∈ old.projects, ∃ q ∈ db.projects, q.id = p.id ∧ q.slug = p.slug
  /-- Only deletion takes a row away. -/
  kept : ∀ m ∈ old.notes, gone m.id ∨ ∃ n ∈ db.notes, m.Later ended n
  /-- A row is an old one or above all that was given out. -/
  origin : ∀ n ∈ db.notes, (∃ m ∈ old.notes, m.Later ended n) ∨
    old.nextId ≤ n.id ∧ old.lastSyncId < n.syncId

theorem Follows.refl (db : ServerDb) : Follows gone ended db db where
  nextId_le := le_refl _
  lastSyncId_le := le_refl _
  project := fun p hp => ⟨p, hp, rfl, rfl⟩
  kept := fun m hm => .inr ⟨m, hm, .inl rfl⟩
  origin := fun n hn => .inl ⟨n, hn, .inl rfl⟩

/-- Rows of which each is changed for itself. -/
theorem Follows.map {f : ServerRow → ServerRow} (h : old.Follows gone ended db)
    (hid : ∀ r, (f r).id = r.id) (hsync : ∀ r, (f r).syncId = r.syncId)
    (hf : ∀ m n : ServerRow, m.Later ended n → m.Later ended (f n)) :
    old.Follows gone ended { db with notes := db.notes.map f } where
  nextId_le := h.nextId_le
  lastSyncId_le := h.lastSyncId_le
  project := h.project
  kept := fun m hm => (h.kept m hm).imp_right fun ⟨n, hn, hlater⟩ =>
    ⟨f n, List.mem_map_of_mem hn, hf m n hlater⟩
  origin := fun n hn => by
    obtain ⟨r, hr, rfl⟩ := List.mem_map.1 hn
    rcases h.origin r hr with ⟨m, hm, hlater⟩ | ⟨hnext, hlast⟩
    · exact .inl ⟨m, hm, hf m r hlater⟩
    · exact .inr ⟨(hid r).symm ▸ hnext, (hsync r).symm ▸ hlast⟩

/-- One more statement. -/
theorem follows_writes [SyncClock] (h : old.Follows gone ended db)
    (hwrites : db.Writes gone ended db') : old.Follows gone ended db' := by
  cases hwrites with
  | record f hid hslug =>
    refine ⟨h.nextId_le, h.lastSyncId_le, fun p hp => ?_, h.kept, h.origin⟩
    obtain ⟨q, hq, heq⟩ := h.project p hp
    exact ⟨f q, List.mem_map_of_mem hq, (hid q).trans heq.1, (hslug q).trans heq.2⟩
  | create p =>
    refine ⟨h.nextId_le, h.lastSyncId_le, fun p hp => ?_, h.kept, h.origin⟩
    obtain ⟨q, hq, heq⟩ := h.project p hp
    exact ⟨q, List.mem_append_left _ hq, heq⟩
  | vectors embeddings =>
    exact ⟨h.nextId_le, h.lastSyncId_le, h.project, h.kept, h.origin⟩
  | insert r hid hsync =>
    have hlast : old.lastSyncId < r.syncId :=
      h.lastSyncId_le.trans_lt (hsync ▸ SyncClock.lt_nowV7 _)
    refine ⟨h.nextId_le.trans (Nat.le_succ _), hlast.le, h.project, fun m hm => ?_,
      fun n hn => ?_⟩
    · exact (h.kept m hm).imp_right fun ⟨n, hn, hlater⟩ => ⟨n, List.mem_append_left _ hn, hlater⟩
    · rcases List.mem_append.1 hn with hn | hn
      · exact h.origin n hn
      · rw [List.mem_singleton.1 hn]
        exact .inr ⟨hid.symm ▸ h.nextId_le, hlast⟩
  | archive hit successor hhit =>
    refine h.map (fun r => ?_) (fun r => ?_) (fun m n hlater => ?_)
    · split <;> rfl
    · split <;> rfl
    · split
      · next hn => exact hlater.archive (hhit n hn).1 (hhit n hn).2 _
      · exact hlater
  | delete hit hhit =>
    refine ⟨h.nextId_le, h.lastSyncId_le, h.project, fun m hm => ?_, fun n hn => ?_⟩
    · rcases h.kept m hm with hgone | ⟨n, hn, hlater⟩
      · exact .inl hgone
      · rcases hhitn : hit n with _ | _
        · exact .inr ⟨n, List.mem_filter.2 ⟨hn, by simp [hhitn]⟩, hlater⟩
        · exact .inl (hlater.id_eq ▸ hhit n hhitn)
    · exact h.origin n (List.mem_filter.1 hn).1

end ServerDb

/-! ### Every request is made of such statements -/

namespace Server

section Routes

variable [SyncClock] {gone ended : Nat → Prop} {I : ServerDb → Prop} {state : AppState}
  (hI : ∀ db db', ServerDb.Writes gone ended db db' → I db → I db')
include hI

/-- A statement whose accepted outcome is one of the six. -/
theorem keeps_checked_of_writes {α : Type} {a : ServerDb → α} {f : ServerDb → ServerDb}
    (h : ∀ db : ServerDb, db.Writes gone ended (f db)) :
    Sql.Keeps I (Sql.statement fun db => ServerDb.checked (a db) (f db)) := by
  refine Sql.Keeps.statement fun db _ db' hdb hstep => ?_
  obtain ⟨-, rfl, -, -⟩ := ServerDb.of_checked_eq_ok hstep
  exact hI db _ (h db) hdb

theorem keeps_updateProject_of_writes (id : Nat) {f : Project → Project}
    (hid : ∀ p, (f p).id = p.id) (hslug : ∀ p, (f p).slug = p.slug) :
    Sql.Keeps I (updateProject id f) := by
  refine keeps_checked_of_writes hI fun db => .record _ (fun p => ?_) fun p => ?_
  · split
    · exact hid p
    · rfl
  · split
    · exact hslug p
    · rfl

theorem keeps_upsertProject_of_writes (slug : String) (dim : Nat) (model : String) :
    Sql.Keeps I (upsertProject slug dim model) := by
  refine Sql.Keeps.bind (Sql.Keeps.query _) fun found => ?_
  cases found with
  | none => exact keeps_checked_of_writes hI fun db => .create _
  | some p =>
    dsimp only
    split
    · exact Sql.Keeps.fail _
    · split
      · exact Sql.Keeps.fail _
      · refine Sql.Keeps.bind (Sql.Keeps.whenever (keeps_updateProject_of_writes hI p.id
          (fun _ => rfl) fun _ => rfl)) fun _ => ?_
        refine Sql.Keeps.bind (Sql.Keeps.whenever (keeps_updateProject_of_writes hI p.id
          (fun _ => rfl) fun _ => rfl)) fun _ => ?_
        exact Sql.Keeps.ok _

theorem keeps_insertEmbedding_of_writes (noteId : Nat) (vec : List UInt32) :
    Sql.Keeps I (insertEmbedding noteId vec) := by
  refine Sql.Keeps.execute fun db db' h hstep => ?_
  split at hstep
  · exact absurd hstep (by simp)
  · split at hstep
    · exact absurd hstep (by simp)
    · rw [← Except.ok.inj hstep]
      exact hI db _ (.vectors _) h

theorem keeps_addNote_of_writes (now : Int) (projectId : Nat) (kind title body : String)
    (tags linkedFiles : List String) (embedding : Option (List UInt32))
    (remoteId : Option String) :
    Sql.Keeps I (addNote now projectId kind title body tags linkedFiles embedding remoteId) := by
  refine Sql.Keeps.bind (keeps_checked_of_writes hI fun db => .insert _ rfl rfl) fun p => ?_
  rcases embedding with _ | vec
  · exact Sql.Keeps.ok _
  · exact Sql.Keeps.bind (keeps_insertEmbedding_of_writes hI p.1 vec) fun _ => Sql.Keeps.ok _

theorem keeps_archiveNote_of_writes (projectId noteId : Nat) (hended : ended noteId) :
    Sql.Keeps I (archiveNote projectId noteId) := by
  refine keeps_checked_of_writes hI fun db => .archive _ (fun r => r.supersededBy) fun r hr => ?_
  obtain ⟨hid, -, hlive⟩ := of_decide_eq_true hr
  exact ⟨hlive, hid.symm ▸ hended⟩

theorem keeps_supersedeNote_of_writes (projectId oldId newId : Nat) (hended : ended oldId) :
    Sql.Keeps I (supersedeNote projectId oldId newId) := by
  refine keeps_checked_of_writes hI fun db => .archive _ (fun _ => some newId) fun r hr => ?_
  obtain ⟨hid, -, hlive⟩ := of_decide_eq_true hr
  exact ⟨hlive, hid.symm ▸ hended⟩

theorem keeps_deleteNote_of_writes (projectId noteId : Nat) (hgone : gone noteId) :
    Sql.Keeps I (deleteNote projectId noteId) := by
  refine Sql.Keeps.bind (Sql.Keeps.execute fun db db' h hstep => ?_) fun _ =>
    keeps_checked_of_writes hI fun db =>
      .delete _ fun r hr => (of_decide_eq_true hr).1.symm ▸ hgone
  rw [← Except.ok.inj hstep]
  exact hI db _ (.vectors _) h

theorem keeps_pushMemoryBatch_of_writes (slug : String) (entries : List BatchNoteItem) :
    Sql.Keeps I (pushMemoryBatch state slug entries) := by
  have hentry : ∀ (projectId : Nat) (s : BatchLoop) (entry : BatchNoteItem),
      Sql.Keeps I (pushEntry state projectId s entry) := by
    intro projectId s entry
    unfold pushEntry
    split
    · exact Sql.Keeps.ok _
    · exact Sql.Keeps.bind (keeps_addNote_of_writes hI _ _ _ _ _ _ _ _ _) fun _ => Sql.Keeps.ok _
  unfold pushMemoryBatch
  split
  · exact Sql.Keeps.fail _
  · exact Sql.Keeps.ok _
  · refine Sql.Keeps.bind (keeps_upsertProject_of_writes hI _ _ _) fun project => ?_
    refine Sql.Keeps.bind (keeps_findByRemoteIds _ _) fun existing => ?_
    exact Sql.Keeps.bind (Sql.Keeps.foldEach _ _ fun s entry _ => hentry _ s entry) fun _ =>
      Sql.Keeps.ok _

theorem keeps_addNoteRoute_of_writes (slug : String) (req : AddNoteRequest) :
    Sql.Keeps I (addNoteRoute state slug req) := by
  unfold addNoteRoute
  split
  · exact Sql.Keeps.fail _
  · split
    · exact Sql.Keeps.fail _
    · split
      · exact Sql.Keeps.fail _
      · split
        · exact Sql.Keeps.ok _
        · refine Sql.Keeps.bind (keeps_upsertProject_of_writes hI _ _ _) fun project => ?_
          exact Sql.Keeps.bind (keeps_addNote_of_writes hI _ _ _ _ _ _ _ _ _) fun _ =>
            Sql.Keeps.ok _

/-- What every statement keeps, every request keeps, stopped by a fault or not. -/
theorem keeps_serve_of_writes (req : Request) (hgone : ∀ id, req.Deletes id → gone id)
    (hended : ∀ id, req.Archives id → ended id) : Sql.Keeps I (serve state req) := by
  cases req with
  | addNote slug req => exact keeps_addNoteRoute_of_writes hI slug req
  | pushBatch slug entries =>
    exact Sql.Keeps.bind (keeps_pushMemoryBatch_of_writes hI slug entries) fun _ => Sql.Keeps.ok _
  | archive slug noteId =>
    exact Sql.Keeps.bind (keeps_requireProject slug) fun p =>
      Sql.Keeps.bind (keeps_archiveNote_of_writes hI _ _ (hended noteId rfl)) fun _ =>
        Sql.Keeps.ok _
  | supersede slug noteId newId =>
    exact Sql.Keeps.bind (keeps_requireProject slug) fun p =>
      Sql.Keeps.bind (keeps_supersedeNote_of_writes hI _ _ _ (hended noteId rfl)) fun _ =>
        Sql.Keeps.ok _
  | delete slug noteId =>
    exact Sql.Keeps.bind (keeps_requireProject slug) fun p =>
      Sql.Keeps.bind (keeps_deleteNote_of_writes hI _ _ (hgone noteId rfl)) fun _ =>
        Sql.Keeps.ok _

end Routes

end Server

/-! ### Runs -/

/-- From one database to another by requests to any project, each stopped by a fault or not, that
    delete rows of `gone` only and archive rows of `ended` only. -/
def ServerLater [SyncClock] (dim : Nat) (model : String) (gone ended : Nat → Prop) :
    ServerDb → ServerDb → Prop :=
  GuardedRun (fun db (r : AppState × Server.Request × Option Nat) db' =>
    db' = (Server.serve r.1 r.2.1 ⟨db, r.2.2⟩).2.db) fun _ r =>
      r.1.For dim model ∧ (∀ id, r.2.1.Deletes id → gone id) ∧ ∀ id, r.2.1.Archives id → ended id

section Runs

variable [SyncClock] {dim : Nat} {model : String} {gone ended : Nat → Prop} {db db' : ServerDb}

theorem ServerLater.follows (h : ServerLater dim model gone ended db db') :
    db.Follows gone ended db' := by
  refine GuardedRun.invariant h (ServerDb.Follows.refl db) fun t r u ht hguard hstep => ?_
  rw [hstep]
  have hkeeps := @Server.keeps_serve_of_writes _ gone ended (db.Follows gone ended) r.1
    (fun _ _ hwrites hfollows => ServerDb.follows_writes hfollows hwrites) r.2.1 hguard.2.1
    hguard.2.2
  exact hkeeps ⟨t, r.2.2⟩ ht

theorem ServerLater.served (hdb : db.Served dim model)
    (h : ServerLater dim model gone ended db db') : db'.Served dim model := by
  refine GuardedRun.invariant h hdb fun t r u ht hguard hstep => ?_
  rw [hstep]
  exact Server.keeps_serve hguard.1 r.2.1 ⟨t, r.2.2⟩ ht

/-- What is between any two states of a server. The later one has its invariants too; no row is
    changed but by being archived, and none goes but by a deletion, each of them on request; no
    rowid and no `sync_id` is ever given out twice; and whoever has read up to a cursor finds behind
    it exactly the rows that came later. -/
theorem serverRuns (hreached : ServerReached dim model db)
    (hlater : ServerLater dim model gone ended db db') :
    db'.Served dim model ∧ db.Follows gone ended db' ∧
    (∀ n ∈ db'.notes, n.id < db.nextId ∨ n.syncId ≤ db.lastSyncId →
      ∃ m ∈ db.notes, m.Later ended n) ∧
    ∀ cursor, (∀ m ∈ db.notes, m.syncId ≤ cursor) → cursor ≤ db.lastSyncId →
      ∀ n ∈ db'.notes, (cursor < n.syncId ↔ db.nextId ≤ n.id) := by
  have hdb := hreached.served
  have hfollows := hlater.follows
  refine ⟨hlater.served hdb, hfollows, fun n hn hold => ?_, fun cursor habove hle n hn => ?_⟩
  · rcases hfollows.origin n hn with hm | ⟨hnext, hlast⟩
    · exact hm
    · rcases hold with hid | hsync
      · omega
      · exact absurd hlast (not_lt.2 hsync)
  · rcases hfollows.origin n hn with ⟨m, hm, hsame⟩ | ⟨hnext, hlast⟩
    · refine iff_of_false (not_lt.2 ?_) (not_le.2 ?_)
      · exact hsame.syncId_eq.symm ▸ habove m hm
      · exact hsame.id_eq.symm ▸ hdb.id_lt m hm
    · exact iff_of_true (hle.trans_lt hlast) hnext

end Runs

section Example

theorem later_archivedServer :
    @ServerLater tickingClock 1 "embeddinggemma-300m" (fun _ => False) (· = 1) (emptyServer 1)
      archivedServer := by
  refine GuardedRun.tail (quietServer, .archive "p" 1, none) ?_
    ⟨for_quietServer, fun _ => False.elim, fun _ => id⟩ rfl
  exact GuardedRun.tail (quietServer, .pushBatch "p" [titledEntry "a" "Use axum"], none)
    GuardedRun.refl ⟨for_quietServer, fun _ => False.elim, fun _ => False.elim⟩ rfl

/-- An entry is pushed and archived, and lies behind the first cursor. -/
theorem serverRuns_archivedServer :
    archivedServer.notes.map (·.status) = ["archived"] ∧
    ∀ n ∈ archivedServer.notes, (nilCursor < n.syncId ↔ 1 ≤ n.id) :=
  ⟨by decide, (@serverRuns tickingClock 1 "embeddinggemma-300m" (fun _ => False) (· = 1)
    (emptyServer 1) archivedServer GuardedRun.refl later_archivedServer).2.2.2 nilCursor
    (fun _ h => absurd h List.not_mem_nil) (le_refl _)⟩

end Example

end Spelunk
