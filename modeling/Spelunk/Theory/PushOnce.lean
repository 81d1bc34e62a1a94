import Spelunk.Theory.EdgeSync
import Spelunk.Theory.PushRequests

/-!
# Pushes Neither Lose nor Duplicate

Any number of pushes to one team server, each of whose requests may be lost, served
without an answer, or answered in part, and each of which may stop at any statement of the
local store. An id that a push records for a row is the id of the live row the server has
for its external id. A push offers the active rows that have no id yet, each once. And
once one ends with every chunk answered in full, each row it offered has exactly one live
row on the server, and carries the id of that row.

An archived row without an id is not offered: it was never live on the server, and
nothing there is to be taken back.

## Main definitions

* `Push`, `Push.offered`, `Push.chunks`: A push, the rows it offers, and its requests.
* `PushWorld`, `pushStep`: The two stores, and what a push does to them.
* `AnsweredFull`: The answer names an id for every row of the chunk.
* `PushLaw`: What a push promises.

## Theorems

* `post_rowsForSync`: The rows a push reads.
* `post_pushLocal_stamps`: What a push leaves in the local store.
* `pushOnceLaw`: Every push of a run keeps the law.
-/

namespace Spelunk

open Lib (Sql SqlError GuardedRun)

open MemoryDb

/-- One push: how it is called, the uuids it would mint, what it is answered, and after
    how many statements the local store fails. -/
structure Push where
  includeArchived : Bool
  fresh : Nat → String
  server : PushServer
  fault : Option Nat

/-- The rows to push: neither archived nor known to the server. -/
def pushSet (rows : List SyncRow) : List SyncRow :=
  rows.filter (fun r => ¬ r.archived ∧ r.remoteId = none)

/-- A row with its uuid, or the one minted for it, as a push sends it. -/
def syncRowOf (fresh : Nat → String) (r : NoteRow) : SyncRow where
  localId := r.id
  uuid := r.uuid.getD (fresh r.id)
  remoteId := r.remoteId
  kind := r.kind
  title := r.title
  body := r.body
  sourceRef := r.sourceRef
  archived := r.status = "archived"

namespace Push

/-- The rows it reads. -/
def rows (p : Push) (db : MemoryDb) : List SyncRow :=
  (db.rowsByAge.filter (fun r => p.includeArchived ∨ r.status = "active")).map (syncRowOf p.fresh)

/-- The rows it offers to the server. -/
def offered (p : Push) (db : MemoryDb) : List SyncRow := pushSet (p.rows db)

/-- The rows of its requests. -/
def chunks (p : Push) (db : MemoryDb) : List (List SyncRow) :=
  (p.offered db).toChunks pushBatchChunkSize

def run (p : Push) (db : MemoryDb) : Except SqlError PushSummary × Lib.Conn MemoryDb :=
  pushLocal p.includeArchived p.fresh p.server ⟨db, p.fault⟩

end Push

section Read

variable {db : MemoryDb} {fresh : Nat → String}

/-- The row with a uuid. -/
def giveUuid (fresh : Nat → String) (r : NoteRow) : NoteRow :=
  { r with uuid := some (r.uuid.getD (fresh r.id)) }

/-- The rows of some ids, as a push sends them. -/
def MemoryDb.syncRowsOf (db : MemoryDb) (fresh : Nat → String) (ids : List Nat) : List SyncRow :=
  (ids.filterMap (fun id => db.notes.find? (fun r => r.id = id))).map (syncRowOf fresh)

/-- A uuid is given to a row that has none. -/
theorem post_ensureUuid (id : Nat) (uuid : String) :
    Sql.Post (fun t => t = db) (ensureUuid id uuid)
      (fun _ t => t = db.updateRows (fun r => r.id = id) (giveUuid (fun _ => uuid)))
      (fun t => t = db) := by
  refine Sql.Post.bind (Sql.Post.mono (post_updateNotes _ _) (fun _ ht => ht) (fun _ t ht => ?_)
    (fun _ ht => ht)) (fun n => Sql.Post.ok _ (fun _ ht => ht))
  rw [ht.2]
  refine updateRows_ext (fun r _ => ?_)
  by_cases hid : r.id = id
  · rcases hr : r.uuid with _ | v
    · simp [giveUuid, hid, hr]
    · have hsame : giveUuid (fun _ => uuid) r = r := by
        apply NoteRow.ext
        case uuid => rw [giveUuid, hr, Option.getD_some]
        all_goals rfl
      rw [hsame]
      simp
  · simp [hid]

/-- A row that was given a uuid is found under its id. -/
theorem find?_mapIds {done : List Nat} {id : Nat} (hid : id ∈ done) :
    (db.mapIds done (giveUuid fresh)).notes.find? (fun r => r.id = id)
      = (db.notes.find? (fun r => r.id = id)).map (giveUuid fresh) := by
  rw [MemoryDb.mapIds, MemoryDb.updateRows, List.find?_map]
  have hkey : ((fun r : NoteRow => decide (r.id = id)) ∘
      fun r => if decide (r.id ∈ done) = true then giveUuid fresh r else r)
      = fun r => decide (r.id = id) := by
    funext r
    simp only [Function.comp_apply]
    split <;> rfl
  rw [hkey]
  refine Option.map_congr (fun r hr => ?_)
  have hrid : r.id = id := by simpa using List.find?_some (Option.mem_def.mp hr)
  rw [if_pos (decide_eq_true (hrid ▸ hid))]

variable [Sha256]

/-- The rows a push reads are those of the store, each with a uuid from then on. -/
theorem post_rowsForSync (hv : db.Valid) (p : Push) :
    Sql.Post (fun t => t = db) (rowsForSync p.includeArchived p.fresh)
      (fun rows t => rows = p.rows db ∧ t.Valid ∧ ∃ ids, t = db.mapIds ids (giveUuid p.fresh) ∧
        ∀ row ∈ rows, row.localId ∈ ids) (fun _ => True) := by
  refine Sql.Post.bind (Q := fun ids t => ids = (db.rowsByAge.filter
      (fun r => p.includeArchived ∨ r.status = "active")).map (·.id) ∧ t = db)
    (Sql.Post.query _ (fun t ht => ⟨by rw [ht], ht⟩) (fun _ _ => trivial))
    (fun ids => Sql.Post.of_pre (fun hids => ?_))
  have hnodup : ids.Nodup := by
    rw [hids]
    exact (List.filter_sublist.map _).nodup (((rowsByAge_perm db).map _).nodup_iff.mpr hv.unique.1)
  -- The invariant: the ids done have their uuids, and their rows are out.
  have hloop : Sql.Post (fun t => t = db.mapIds [] (giveUuid p.fresh) ∧ t.Valid ∧
        ([] : List SyncRow) = db.syncRowsOf p.fresh [])
      (Sql.foldEach ids [] fun out id => do
        ensureUuid id (p.fresh id)
        let row ← Sql.query (fun db => db.notes.find? (fun r => r.id = id))
        pure (out ++ (row.bind syncRow).toList))
      (fun out t => t = db.mapIds ids (giveUuid p.fresh) ∧ t.Valid ∧
        out = db.syncRowsOf p.fresh ids) (fun _ => True) := by
    refine Sql.Post.foldEach (I := fun done out t => t = db.mapIds done (giveUuid p.fresh) ∧
      t.Valid ∧ out = db.syncRowsOf p.fresh done) ids [] (fun done id rest out hsplit => ?_)
    have hnot : id ∉ done := by
      rw [hsplit, List.nodup_append] at hnodup
      exact fun hin => hnodup.2.2 id hin id List.mem_cons_self rfl
    refine Sql.Post.of_each (fun s hs => ?_)
    obtain ⟨rfl, hvalid, rfl⟩ := hs
    refine Sql.Post.bind (Q := fun _ t => t = db.mapIds (done ++ [id]) (giveUuid p.fresh) ∧ t.Valid)
      (Sql.Post.mono (Sql.Post.and_keeps (post_ensureUuid id (p.fresh id))
        (linkClosed_valid.toWriteClosed.keeps_ensureUuid id (p.fresh id)))
        (fun t ht => ⟨ht, ht ▸ hvalid⟩) (fun _ t ht => ⟨?_, ht.2⟩) (fun _ _ => trivial))
      (fun _ => ?_)
    · rw [ht.1]
      refine updateRows_mapIds (fun _ => rfl) hnot (fun r _ hr => ?_)
      rw [giveUuid, giveUuid, hr]
    · refine Sql.Post.bind (Q := fun row t => row = (db.notes.find? (fun r => r.id = id)).map
          (giveUuid p.fresh) ∧ t = db.mapIds (done ++ [id]) (giveUuid p.fresh) ∧ t.Valid)
        (Sql.Post.query _ (fun t ht => ⟨?_, ht⟩) (fun _ _ => trivial))
        (fun row => Sql.Post.ok _ (fun t ht => ⟨ht.2.1, ht.2.2, ?_⟩))
      · rw [ht.1, find?_mapIds (List.mem_append_right _ (List.mem_singleton.mpr rfl))]
      · rw [ht.1, syncRowsOf, syncRowsOf, List.filterMap_append, List.map_append]
        congr 1
        rcases hfind : db.notes.find? (fun r => r.id = id) with _ | r
        · simp only [List.filterMap_cons, List.filterMap_nil, hfind]
          rfl
        · simp only [List.filterMap_cons, List.filterMap_nil, hfind]
          rfl
  refine Sql.Post.mono hloop (fun t ht => ⟨?_, ht ▸ hv, rfl⟩) (fun out t ht => ?_)
    (fun _ _ => trivial)
  · rw [mapIds_nil]
    exact ht
  · -- Every row is found under its own id.
    have hrows : db.syncRowsOf p.fresh ids = p.rows db := by
      rw [syncRowsOf, Push.rows, hids, List.filterMap_map]
      congr 1
      refine Eq.trans (List.filterMap_congr (fun r hr => ?_)) List.filterMap_some
      have hmem := (rowsByAge_perm db).mem_iff.mp (List.mem_of_mem_filter hr)
      exact find?_id hv.unique hmem
    refine ⟨ht.2.2.trans hrows, ht.2.1, ids, ht.1, fun row hrow => ?_⟩
    rw [ht.2.2, hrows] at hrow
    rcases List.mem_map.mp hrow with ⟨r, hr, rfl⟩
    rw [hids]
    exact List.mem_map_of_mem hr

end Read

section Stamps

variable {db : MemoryDb} {offered : List SyncRow} {held : String → String → Prop}

/-- Every server id was there before, or is one the server holds for the uuid of the row. -/
def StampedBy (db : MemoryDb) (held : String → String → Prop) (t : MemoryDb) : Prop :=
  ∀ r ∈ t.notes, ∀ id, r.remoteId = some id →
    (∃ r₀ ∈ db.notes, r₀.id = r.id ∧ r₀.remoteId = some id) ∨ ∃ ext, r.uuid = some ext ∧ held ext id

/-- A uuid given to a row that has none is no concern of a server id. -/
theorem keeps_stampedBy_ensureUuid (id : Nat) (uuid : String) :
    Sql.Keeps (StampedBy db held) (ensureUuid id uuid) := by
  refine Sql.Keeps.bind (Sql.Keeps.statement (fun s n s' hs hrun => ?_)) (fun _ => Sql.Keeps.ok _)
  rw [(MemoryDb.of_checked_eq_ok hrun).2.1]
  intro r hr cloudId hcloud
  rcases List.mem_map.mp hr with ⟨x, hx, rfl⟩
  by_cases hp : decide (x.id = id ∧ x.uuid = none) = true
  · rw [if_pos hp] at hcloud ⊢
    have huuid := (of_decide_eq_true hp).2
    rcases hs x hx cloudId hcloud with hold | ⟨ext, hext, _⟩
    · exact Or.inl hold
    · rw [huuid] at hext
      exact absurd hext (by simp)
  · rw [if_neg hp] at hcloud ⊢
    exact hs x hx cloudId hcloud

/-- What the loop over the chunks knows of the local store. -/
structure Pushing [Sha256] (db : MemoryDb) (offered : List SyncRow)
    (held : String → String → Prop) (t : MemoryDb) : Prop where
  valid : t.Valid
  stamped : StampedBy db held t
  /-- The rows offered are there, each under its uuid. -/
  rows : ∀ row ∈ offered, ∃ r ∈ t.notes, r.id = row.localId ∧ r.uuid = some row.uuid

/-- The rows of the list have a server id. -/
def AllSynced (done : Nat → Prop) (t : MemoryDb) : Prop := ∀ id, done id → Synced t id

/-- The server affirmed the row with an id. -/
def Affirms (item : CloudSync.BatchItemResult) (row : SyncRow) : Prop :=
  item.durablyPersisted = true ∧ item.externalId = some row.uuid ∧ item.id ≠ none

/-- The answer names an id for every row of the chunk. -/
def AnsweredFull (reply : Option CloudSync.BatchPushResult) (chunk : List SyncRow) : Prop :=
  ∃ res, reply = some res ∧ ∀ row ∈ chunk, ∃ item ∈ res.results, Affirms item row

/-- What a result affirms is so. -/
def Truthful (held : String → String → Prop) (item : CloudSync.BatchItemResult) : Prop :=
  item.durablyPersisted = true → ∀ ext id, item.externalId = some ext → item.id = some id →
    held ext id

/-- A server id is recorded on one row. -/
theorem keeps_allSynced_setRemoteId (done : Nat → Prop) (id : Nat) (remoteId : String) :
    Sql.Keeps (AllSynced done) (setRemoteId id remoteId) := by
  refine Sql.Keeps.bind (Sql.Keeps.statement (fun s n s' hs hrun => ?_)) (fun _ => Sql.Keeps.ok _)
  rw [(MemoryDb.of_checked_eq_ok hrun).2.1]
  intro x hx
  rcases hs x hx with ⟨r, hr, hrx, hremote⟩
  refine ⟨_, List.mem_map_of_mem hr, ?_⟩
  split
  · exact ⟨hrx, Option.some_ne_none _⟩
  · exact ⟨hrx, hremote⟩

variable [Sha256]

/-- The server's id is recorded for a row that was offered. -/
theorem post_setRemoteId_pushing {row : SyncRow} (hrow : row ∈ offered) {cloudId : String}
    (hheld : held row.uuid cloudId) :
    Sql.Post (Pushing db offered held) (setRemoteId row.localId cloudId)
      (fun _ t => Pushing db offered held t ∧ Synced t row.localId) (Pushing db offered held) := by
  refine Sql.Post.of_each (fun s hs => ?_)
  refine Sql.Post.mono (Sql.Post.and_keeps (post_setRemoteId row.localId cloudId)
    (linkClosed_valid.toWriteClosed.keeps_setRemoteId row.localId cloudId))
    (fun t ht => ⟨ht, ht ▸ hs.valid⟩) (fun _ t ht => ?_) (fun t ht => ht.1 ▸ hs)
  obtain ⟨rfl, hvalid⟩ := ht
  rcases hs.rows row hrow with ⟨x, hx, hxid, hxuuid⟩
  refine ⟨⟨hvalid, ?_, ?_⟩, ?_⟩
  · intro r hr id hid
    rcases List.mem_map.mp hr with ⟨y, hy, rfl⟩
    by_cases hp : decide (y.id = row.localId) = true
    · rw [if_pos hp] at hid ⊢
      rcases hremote : y.remoteId with _ | v
      · -- The id is new, and the row is the one that was offered.
        rw [takeRemoteId, hremote, Option.none_or, Option.some.injEq] at hid
        have hyx := eq_of_id_eq hs.valid.unique hy hx ((of_decide_eq_true hp).trans hxid.symm)
        refine Or.inr ⟨row.uuid, ?_, hid ▸ hheld⟩
        rw [hyx]
        exact hxuuid
      · rw [takeRemoteId_eq_self hremote] at hid ⊢
        exact hs.stamped y hy id hid
    · rw [if_neg hp] at hid ⊢
      exact hs.stamped y hy id hid
  · intro row' hrow'
    rcases hs.rows row' hrow' with ⟨y, hy, hyid, hyuuid⟩
    refine ⟨_, List.mem_map_of_mem hy, ?_⟩
    split
    · exact ⟨hyid, hyuuid⟩
    · exact ⟨hyid, hyuuid⟩
  · refine ⟨_, List.mem_map_of_mem hx, ?_⟩
    rw [if_pos (decide_eq_true hxid)]
    refine ⟨hxid, ?_⟩
    rw [takeRemoteId]
    rcases x.remoteId with _ | v
    · exact Option.some_ne_none _
    · exact Option.some_ne_none _

/-- One result of a batch is recorded. -/
theorem post_recordResult_pushing {chunk : List SyncRow} (hchunk : chunk ⊆ offered) (s : PushLoop)
    {item : CloudSync.BatchItemResult} (htrue : Truthful held item) (done : Nat → Prop) :
    Sql.Post (fun t => Pushing db offered held t ∧ AllSynced done t) (recordResult chunk s item)
      (fun _ t => Pushing db offered held t ∧
        AllSynced (fun id => done id ∨ ∃ row ∈ chunk, row.localId = id ∧ Affirms item row) t)
      (Pushing db offered held) := by
  -- A row the item affirms is the one the chunk is searched for.
  have hfound : ∀ t, Pushing db offered held t → ∀ row ∈ chunk, Affirms item row →
      ∃ cloudId, item.affirmed chunk = some (row.localId, cloudId) := by
    rintro t ht row hrow ⟨hdurable, hext, hid⟩
    rcases Option.ne_none_iff_exists'.mp hid with ⟨cloudId, hcloud⟩
    have hsome : (chunk.find? (fun r => r.uuid = row.uuid)).isSome :=
      List.find?_isSome.mpr ⟨row, hrow, decide_eq_true rfl⟩
    rcases Option.isSome_iff_exists.mp hsome with ⟨row', hrow'⟩
    rcases ht.rows row (hchunk hrow) with ⟨r, hr, hrid, hruuid⟩
    rcases ht.rows row' (hchunk (List.mem_of_find?_eq_some hrow')) with ⟨r', hr', hrid', hruuid'⟩
    rw [show row'.uuid = row.uuid by simpa using List.find?_some hrow'] at hruuid'
    have hsame : row'.localId = row.localId := by
      rw [← hrid, ← hrid', Lib.eq_of_indexed ht.valid.unique.2.1 hr hr' hruuid hruuid']
    refine ⟨cloudId, ?_⟩
    rw [CloudSync.BatchItemResult.affirmed, if_pos hdurable, hext, Option.bind_some, hcloud,
      Option.bind_some, hrow', Option.map_some, hsame]
  unfold recordResult
  rcases haff : item.affirmed chunk with _ | ⟨localId, cloudId⟩
  · refine Sql.Post.ok _ (fun t ht => ⟨ht.1, fun id hid => ?_⟩)
    rcases hid with hid | ⟨row, hrow, _, hitem⟩
    · exact ht.2 id hid
    · rcases hfound t ht.1 row hrow hitem with ⟨_, hsome⟩
      rw [haff] at hsome
      exact absurd hsome (by simp)
  · have hrow : ∃ row ∈ offered, row.localId = localId ∧ held row.uuid cloudId := by
      rw [CloudSync.BatchItemResult.affirmed] at haff
      split at haff
      · next hdurable =>
        rcases Option.bind_eq_some_iff.mp haff with ⟨ext, hext, haff⟩
        rcases Option.bind_eq_some_iff.mp haff with ⟨id, hid, haff⟩
        rcases Option.map_eq_some_iff.mp haff with ⟨row, hfind, heq⟩
        rw [Prod.mk.injEq] at heq
        refine ⟨row, hchunk (List.mem_of_find?_eq_some hfind), heq.1, ?_⟩
        rw [show row.uuid = ext by simpa using List.find?_some hfind, ← heq.2]
        exact htrue hdurable ext id hext hid
      · exact absurd haff (by simp)
    rcases hrow with ⟨row, hrow, rfl, hheld⟩
    refine Sql.Post.bind (Q := fun _ t => (Pushing db offered held t ∧ Synced t row.localId) ∧
        AllSynced done t) (Sql.Post.mono (Sql.Post.and_keeps (post_setRemoteId_pushing hrow hheld)
        (keeps_allSynced_setRemoteId done row.localId cloudId)) (fun _ ht => ht) (fun _ _ ht => ht)
        (fun _ ht => ht.1)) (fun _ => Sql.Post.ok _ (fun t ht => ⟨ht.1.1, fun id hid => ?_⟩))
    rcases hid with hid | ⟨row', hrow', rfl, hitem⟩
    · exact ht.2 id hid
    · rcases hfound t ht.1.1 row' hrow' hitem with ⟨_, hsome⟩
      rw [haff, Option.some.injEq, Prod.mk.injEq] at hsome
      rw [← hsome.1]
      exact ht.1.2

/-- The chunks are sent in turn; those answered in full have their ids. -/
theorem post_pushChunks_pushing (server : PushServer) (chunks : List (List SyncRow)) (n : Nat)
    (s : PushLoop) (done : Nat → Prop) (hchunks : ∀ chunk ∈ chunks, chunk ⊆ offered)
    (htrue : ∀ i res, i < chunks.length → server.pushBatch (n + i) = some res →
      ∀ item ∈ res.results, Truthful held item) :
    Sql.Post (fun t => Pushing db offered held t ∧ AllSynced done t) (pushChunks server n chunks s)
      (fun _ t => Pushing db offered held t ∧ AllSynced (fun id => done id ∨
        ((∀ i chunk, chunks[i]? = some chunk → AnsweredFull (server.pushBatch (n + i)) chunk) ∧
          ∃ chunk ∈ chunks, ∃ row ∈ chunk, row.localId = id)) t) (Pushing db offered held) := by
  induction chunks generalizing n s done with
  | nil =>
      refine Sql.Post.ok _ (fun t ht => ⟨ht.1, fun id hid => ?_⟩)
      rcases hid with hid | ⟨_, chunk, hchunk, _⟩
      · exact ht.2 id hid
      · exact absurd hchunk List.not_mem_nil
  | cons chunk rest ih =>
      unfold pushChunks
      rcases hreply : server.pushBatch n with _ | res
      · refine Sql.Post.ok _ (fun t ht => ⟨ht.1, fun id hid => ?_⟩)
        rcases hid with hid | ⟨hfull, _⟩
        · exact ht.2 id hid
        · rcases hfull 0 chunk rfl with ⟨res, hres, _⟩
          rw [Nat.add_zero, hreply] at hres
          exact absurd hres (by simp)
      · -- The rows of this chunk are done when the answer is full.
        have hbatch : Sql.Post (fun t => Pushing db offered held t ∧ AllSynced done t)
            (Sql.foldEach res.results (s.aggregate res) (recordResult chunk))
            (fun _ t => Pushing db offered held t ∧ AllSynced (fun id => done id ∨
              ∃ item ∈ res.results, ∃ row ∈ chunk, row.localId = id ∧ Affirms item row) t)
            (Pushing db offered held) := by
          refine Sql.Post.mono (Sql.Post.foldEach (I := fun seen _ t => Pushing db offered held t ∧
            AllSynced (fun id => done id ∨ ∃ item ∈ seen, ∃ row ∈ chunk, row.localId = id ∧
              Affirms item row) t) res.results (s.aggregate res)
              (fun seen item later st hsplit => ?_))
            (fun t ht => ⟨ht.1, fun id hid => ?_⟩) (fun _ _ ht => ht) (fun _ ht => ht)
          · have hitem : item ∈ res.results := hsplit ▸ List.mem_append_right _ List.mem_cons_self
            refine Sql.Post.mono (post_recordResult_pushing (hchunks chunk List.mem_cons_self) st
              (htrue 0 res (Nat.succ_pos _) hreply item hitem) _) (fun _ ht => ht)
              (fun _ t ht => ⟨ht.1, fun id hid => ht.2 id ?_⟩) (fun _ ht => ht)
            rcases hid with hid | ⟨x, hx, hrow⟩
            · exact Or.inl (Or.inl hid)
            · rcases List.mem_append.mp hx with hx | hx
              · exact Or.inl (Or.inr ⟨x, hx, hrow⟩)
              · rcases List.mem_singleton.mp hx with rfl
                exact Or.inr hrow
          · rcases hid with hid | ⟨x, hx, _⟩
            · exact ht.2 id hid
            · exact absurd hx List.not_mem_nil
        refine Sql.Post.bind hbatch (fun s' => ?_)
        refine Sql.Post.mono (ih (n + 1) s' _ (fun c hc => hchunks c (List.mem_cons_of_mem _ hc))
          (fun i res' hi hres' => htrue (i + 1) res' (Nat.succ_lt_succ hi)
            (by rw [← hres', Nat.add_right_comm, Nat.add_assoc]))) (fun _ ht => ht)
          (fun _ t ht => ⟨ht.1, fun id hid => ht.2 id ?_⟩) (fun _ ht => ht)
        rcases hid with hid | ⟨hfull, c, hc, row, hrow, hid⟩
        · exact Or.inl (Or.inl hid)
        · rcases List.mem_cons.mp hc with rfl | hc
          · rcases hfull 0 c rfl with ⟨res', hres', hall⟩
            rw [Nat.add_zero, hreply, Option.some.injEq] at hres'
            rcases hall row hrow with ⟨item, hitem, haff⟩
            exact Or.inl (Or.inr ⟨item, hres' ▸ hitem, row, hrow, hid, haff⟩)
          · refine Or.inr ⟨fun i c' hi => ?_, c, hc, row, hrow, hid⟩
            have hnext := hfull (i + 1) c' (by rw [List.getElem?_cons_succ]; exact hi)
            rw [← Nat.add_assoc, Nat.add_right_comm] at hnext
            exact hnext

/-- The start of the loop: the rows were read, and nothing is recorded yet. -/
theorem pushing_read {p : Push} {t : MemoryDb} {ids : List Nat} (ht : t.Valid)
    (hread : t = db.mapIds ids (giveUuid p.fresh)) (hids : ∀ row ∈ p.rows db, row.localId ∈ ids) :
    Pushing db (p.offered db) held t where
  valid := ht
  stamped := by
    intro r hr id hid
    rw [hread] at hr
    rcases List.mem_map.mp hr with ⟨x, hx, rfl⟩
    refine Or.inl ⟨x, hx, ?_, ?_⟩
    · split <;> rfl
    · split at hid <;> exact hid
  rows := by
    intro row hrow
    have hmem := List.mem_of_mem_filter hrow
    rcases List.mem_map.mp hmem with ⟨r, hr, rfl⟩
    have hr' := (rowsByAge_perm db).mem_iff.mp (List.mem_of_mem_filter hr)
    refine ⟨giveUuid p.fresh r, ?_, rfl, rfl⟩
    rw [hread]
    exact List.mem_map.mpr ⟨r, hr', if_pos (decide_eq_true (hids _ hmem))⟩

/-- What a push leaves in the local store, whether it ends or not. -/
theorem post_pushLocal_stamps (hv : db.Valid) (p : Push)
    (htrue : ∀ i res, i < (p.chunks db).length → p.server.pushBatch i = some res →
      ∀ item ∈ res.results, Truthful held item) :
    Sql.Post (fun t => t = db) (pushLocal p.includeArchived p.fresh p.server)
      (fun _ t => Pushing db (p.offered db) held t ∧
        ((∀ i chunk, (p.chunks db)[i]? = some chunk → AnsweredFull (p.server.pushBatch i) chunk) →
          ∀ row ∈ p.offered db, Synced t row.localId))
      (StampedBy db held) := by
  have hread : Sql.Post (fun t => t = db) (rowsForSync p.includeArchived p.fresh)
      (fun rows t => rows = p.rows db ∧ Pushing db (p.offered db) held t) (StampedBy db held) := by
    have hkept : Sql.Keeps (StampedBy db held) (rowsForSync p.includeArchived p.fresh) :=
      Sql.Keeps.bind (Sql.Keeps.query _) (fun _ => Sql.Keeps.foldEach _ _ (fun _ _ _ =>
        Sql.Keeps.bind (keeps_stampedBy_ensureUuid _ _) (fun _ =>
          Sql.Keeps.bind (Sql.Keeps.query _) (fun _ => Sql.Keeps.ok _))))
    refine Sql.Post.mono (Sql.Post.and_keeps (post_rowsForSync hv p) hkept)
      (fun t ht => ⟨ht, fun r hr id hid => Or.inl ⟨r, ht ▸ hr, rfl, hid⟩⟩)
      (fun rows t ht => ?_) (fun _ ht => ht.2)
    obtain ⟨⟨rfl, hvalid, ids, hids, hall⟩, _⟩ := ht
    exact ⟨rfl, pushing_read hvalid hids hall⟩
  refine Sql.Post.bind hread (fun rows => Sql.Post.of_pre (fun hrows => ?_))
  subst hrows
  split
  · next hnone =>
    refine Sql.Post.ok _ (fun t ht => ⟨ht, fun _ row hrow => ?_⟩)
    have hmem : row ∈ p.rows db := List.mem_of_mem_filter hrow
    rw [hnone] at hmem
    exact absurd hmem List.not_mem_nil
  · -- The loop over the chunks, and then nothing that writes to the local store.
    let full := ∀ i chunk, (p.chunks db)[i]? = some chunk →
      AnsweredFull (p.server.pushBatch i) chunk
    have hsub : ∀ chunk ∈ p.chunks db, chunk ⊆ p.offered db := by
      intro chunk hchunk row hrow
      have hflat : row ∈ (p.chunks db).flatten := List.mem_flatten.mpr ⟨chunk, hchunk, hrow⟩
      rwa [Push.chunks, Lib.flatten_toChunks] at hflat
    have hloop : ∀ s, Sql.Post (Pushing db (p.offered db) held)
        (pushChunks p.server 0 (p.chunks db) s)
        (fun _ t => Pushing db (p.offered db) held t ∧
          (full → ∀ row ∈ p.offered db, Synced t row.localId)) (StampedBy db held) := by
      intro s
      refine Sql.Post.mono (post_pushChunks_pushing p.server (p.chunks db) 0 s (fun _ => False) hsub
        (fun i res hi hres => htrue i res hi (by rw [← hres, Nat.zero_add])))
        (fun t ht => ⟨ht, fun _ hid => hid.elim⟩) (fun _ t ht => ⟨ht.1, fun hfull row hrow => ?_⟩)
        (fun _ ht => ht.stamped)
      rw [← Lib.flatten_toChunks pushBatchChunkSize (p.offered db)] at hrow
      rcases List.mem_flatten.mp hrow with ⟨chunk, hchunk, hin⟩
      refine ht.2 row.localId (Or.inr ⟨fun i c hi => ?_, chunk, hchunk, row, hin, rfl⟩)
      rw [Nat.zero_add]
      exact hfull i c hi
    refine Sql.Post.bind (hloop _) (fun s => ?_)
    split
    · exact Sql.Post.ok _ (fun _ ht => ht)
    · refine Sql.Post.bind (Sql.Post.mono (Sql.Post.of_keeps (Sql.Keeps.whenever
        (keeps_deleteArchived p.server _))) (fun _ ht => ht) (fun _ _ ht => ht)
        (fun _ ht => ht.1.stamped)) (fun _ => ?_)
      refine Sql.Post.bind (Sql.Post.mono (Sql.Post.of_keeps (Sql.Keeps.attempt
        (keeps_pushRelatesToEdges p.server s.justSynced))) (fun _ ht => ht) (fun _ _ ht => ht)
        (fun _ ht => ht.1.stamped)) (fun r => ?_)
      rcases r with e | posted
      · exact Sql.Post.ok _ (fun _ ht => ht)
      · exact Sql.Post.ok _ (fun _ ht => ht)

end Stamps

/-- The local store of a client and the store of its team server. -/
structure PushWorld where
  db : MemoryDb
  server : ServerDb

/-- What a push promises, from one pair of stores to the next. -/
structure PushLaw (slug : String) (w : PushWorld) (p : Push) (w' : PushWorld) : Prop where
  /-- What it works on is what it reads, when it can. -/
  reads : ∀ rows, (rowsForSync p.includeArchived p.fresh ⟨w.db, p.fault⟩).1 = .ok rows →
    pushSet rows = p.offered w.db
  /-- It offers each active row without a server id, once. -/
  offers : ((p.offered w.db).map (·.localId)).Nodup ∧
    ∀ id, id ∈ (p.offered w.db).map (·.localId) ↔
      ∃ r ∈ w.db.notes, r.id = id ∧ r.status = "active" ∧ r.remoteId = none
  /-- An id it records is that of the live row of the external id. -/
  stamps : StampedBy w.db (w'.server.HeldAs slug) w'.db
  /-- Once it ends with every chunk answered in full, each row has one live row there. -/
  finished : ∀ summary, (p.run w.db).1 = .ok summary →
    (∀ i chunk, (p.chunks w.db)[i]? = some chunk → AnsweredFull (p.server.pushBatch i) chunk) →
    ∀ row ∈ p.offered w.db, ∃ r ∈ w'.db.notes, r.id = row.localId ∧ r.uuid = some row.uuid ∧
      ∃ n, w'.server.liveRows slug row.uuid = [n] ∧ r.remoteId = some n.syncId

section Runs

variable [Sha256] [SyncClock]

/-- What the requests of anyone do to the server. -/
def ServerRun (dim : Nat) (model : String) (s s' : ServerDb) : Prop :=
  GuardedRun (fun db (r : AppState × Server.Request × Option Nat) db' =>
    db' = (Server.serve r.1 r.2.1 ⟨db, r.2.2⟩).2.db) (fun _ r => r.1.For dim model) s s'

/-- The states of the server along the requests of a push. -/
def ServerAlong (dim : Nat) (model slug : String) (server : PushServer)
    (chunks : List (List SyncRow)) (s : Nat → ServerDb) : Prop :=
  ∀ i chunk, chunks[i]? = some chunk →
    RequestOutcome dim model slug (chunk.map (·.batchItem)) (s i) (server.pushBatch i) (s (i + 1))

/-- A push, after whatever others asked of the server. The answers of requests that are
    not sent any more are those of lost ones. -/
def pushStep (dim : Nat) (model slug : String) (w : PushWorld) (p : Push) (w' : PushWorld) : Prop :=
  w'.db = (p.run w.db).2.db ∧ ∃ s : Nat → ServerDb, ServerRun dim model w.server (s 0) ∧
    ServerAlong dim model slug p.server (p.chunks w.db) s ∧ w'.server = s (p.chunks w.db).length

variable {db : MemoryDb} {dim : Nat} {model slug : String} {server : PushServer}
  {chunks : List (List SyncRow)} {s : Nat → ServerDb}

omit [Sha256] in
theorem ServerAlong.reached (h : ServerAlong dim model slug server chunks s)
    (hstart : ServerReached dim model (s 0)) {i : Nat} (hi : i ≤ chunks.length) :
    ServerReached dim model (s i) := by
  induction i with
  | zero => exact hstart
  | succ i ih => exact (h i _ (List.getElem?_eq_getElem hi)).reached (ih (Nat.le_of_succ_le hi))

omit [Sha256] in
/-- What is held after one request is held after the last. -/
theorem ServerAlong.heldAs (h : ServerAlong dim model slug server chunks s) {i : Nat}
    {ext id : String} (hheld : (s i).HeldAs slug ext id) {j : Nat} (hij : i ≤ j)
    (hj : j ≤ chunks.length) : (s j).HeldAs slug ext id := by
  induction j, hij using Nat.le_induction with
  | base => exact hheld
  | succ j _ ih => exact (h j _ (List.getElem?_eq_getElem hj)).heldAs (ih (Nat.le_of_succ_le hj))

omit [Sha256] in
/-- What the answers affirm, the server holds when the push is over. -/
theorem ServerAlong.truthful (h : ServerAlong dim model slug server chunks s)
    (hstart : ServerReached dim model (s 0)) {i : Nat} {res : CloudSync.BatchPushResult}
    (hi : i < chunks.length) (hres : server.pushBatch i = some res) :
    ∀ item ∈ res.results, Truthful ((s chunks.length).HeldAs slug) item := by
  intro item hitem hdurable ext id hext hid
  have hone := h i _ (List.getElem?_eq_getElem hi)
  rw [hres] at hone
  exact h.heldAs (hone.affirmed (h.reached hstart hi.le) hitem hdurable hext hid)
    (Nat.succ_le_of_lt hi) (le_refl _)

omit [SyncClock] in
/-- The rows offered are the active ones without a server id. -/
theorem mem_offered (hv : db.Valid) (p : Push) (id : Nat) :
    id ∈ (p.offered db).map (·.localId) ↔
      ∃ r ∈ db.notes, r.id = id ∧ r.status = "active" ∧ r.remoteId = none := by
  constructor
  · intro hid
    rcases List.mem_map.mp hid with ⟨row, hrow, rfl⟩
    rcases List.mem_filter.mp hrow with ⟨hmem, hpush⟩
    rcases List.mem_map.mp hmem with ⟨r, hr, rfl⟩
    have hr' := (rowsByAge_perm db).mem_iff.mp (List.mem_of_mem_filter hr)
    have hpush' := of_decide_eq_true hpush
    refine ⟨r, hr', rfl, ?_, hpush'.2⟩
    rcases hv.status r hr' with hactive | harchived
    · exact hactive
    · exact absurd (decide_eq_true harchived) hpush'.1
  · rintro ⟨r, hr, rfl, hactive, hremote⟩
    refine List.mem_map.mpr ⟨syncRowOf p.fresh r, List.mem_filter.mpr ⟨List.mem_map_of_mem
      (List.mem_filter.mpr ⟨(rowsByAge_perm db).mem_iff.mpr hr, decide_eq_true (Or.inr hactive)⟩),
      decide_eq_true ⟨?_, hremote⟩⟩, rfl⟩
    rw [syncRowOf, decide_eq_true_eq, hactive]
    decide

omit [SyncClock] in
theorem nodup_offered (hv : db.Valid) (p : Push) : ((p.offered db).map (·.localId)).Nodup := by
  have hids : ((p.rows db).map (·.localId)).Nodup := by
    rw [Push.rows, List.map_map]
    exact (List.filter_sublist.map _).nodup (((rowsByAge_perm db).map _).nodup_iff.mpr hv.unique.1)
  exact (List.filter_sublist.map _).nodup hids

/-- One push keeps the law. -/
theorem pushLaw_of_step {w w' : PushWorld} {p : Push} (hv : w.db.Valid)
    (hreached : ServerReached dim model w.server) (hstep : pushStep dim model slug w p w') :
    PushLaw slug w p w' := by
  obtain ⟨hdb, s, hothers, halong, hserver⟩ := hstep
  have hstart : ServerReached dim model (s 0) := GuardedRun.trans hreached hothers
  have htrue : ∀ i res, i < (p.chunks w.db).length → p.server.pushBatch i = some res →
      ∀ item ∈ res.results, Truthful (w'.server.HeldAs slug) item := by
    intro i res hi hres
    rw [hserver]
    exact halong.truthful hstart hi hres
  have hpost := post_pushLocal_stamps hv p htrue ⟨w.db, p.fault⟩ rfl
  have hreads : ∀ rows, (rowsForSync p.includeArchived p.fresh ⟨w.db, p.fault⟩).1 = .ok rows →
      pushSet rows = p.offered w.db := by
    intro rows hrows
    rw [((post_rowsForSync hv p ⟨w.db, p.fault⟩ rfl).1 rows hrows).1]
    rfl
  refine ⟨hreads, ⟨nodup_offered hv p, mem_offered hv p⟩, ?_, ?_⟩
  · rw [hdb]
    rcases hrun : (p.run w.db).1 with e | summary
    · exact hpost.2 e hrun
    · exact (hpost.1 summary hrun).1.stamped
  · intro summary hrun hfull row hrow
    rw [hdb]
    obtain ⟨hpushing, hsynced⟩ := hpost.1 summary hrun
    rcases hpushing.rows row hrow with ⟨r, hr, hrid, hruuid⟩
    rcases hsynced hfull row hrow with ⟨x, hx, hxid, hxremote⟩
    have hxr : x = r := eq_of_id_eq hpushing.valid.unique hx hr (hxid.trans hrid.symm)
    subst hxr
    rcases Option.ne_none_iff_exists'.mp hxremote with ⟨id, hid⟩
    refine ⟨x, hx, hrid, hruuid, ?_⟩
    rcases hpushing.stamped x hx id hid with ⟨r₀, hr₀, hr₀id, hr₀remote⟩ | ⟨ext, hext, hheld⟩
    · -- The row had no id when it was offered.
      rcases (mem_offered hv p row.localId).mp (List.mem_map_of_mem hrow) with
        ⟨y, hy, hyid, _, hyremote⟩
      rw [eq_of_id_eq hv.unique hr₀ hy (hr₀id.trans (hrid.trans hyid.symm)), hyremote] at hr₀remote
      exact absurd hr₀remote (by simp)
    · rw [hruuid, Option.some.injEq] at hext
      have hunique : w'.server.UniqueOk := by
        rw [hserver]
        exact (halong.reached hstart (le_refl _)).served.unique
      rcases hheld.liveRows_eq hunique with ⟨n, hn, hnid⟩
      exact ⟨n, by rw [hext]; exact hn, by rw [hnid]; exact hid⟩

/-- A push keeps what the law needs of the two stores. -/
theorem kept_pushStep {w w' : PushWorld} {p : Push}
    (h : w.db.Valid ∧ ServerReached dim model w.server) (hstep : pushStep dim model slug w p w') :
    w'.db.Valid ∧ ServerReached dim model w'.server := by
  obtain ⟨hdb, s, hothers, halong, hserver⟩ := hstep
  constructor
  · rw [hdb]
    exact keeps_pushLocal linkClosed_valid.toWriteClosed.keeps_ensureUuid
      linkClosed_valid.toWriteClosed.keeps_setRemoteId p.includeArchived p.fresh p.server _ h.1
  · rw [hserver]
    exact halong.reached (GuardedRun.trans h.2 hothers) (le_refl _)

/-- In every run of pushes, each of them keeps the law. -/
theorem pushOnceLaw {start w w' : PushWorld} {p : Push} (hvalid : start.db.Valid)
    (hreached : ServerReached dim model start.server)
    (hrun : GuardedRun (pushStep dim model slug) (fun _ _ => True) start w)
    (hstep : pushStep dim model slug w p w') : PushLaw slug w p w' := by
  have hw := hrun.invariant ⟨hvalid, hreached⟩ (fun t q u ht _ hone => kept_pushStep ht hone)
  exact pushLaw_of_step hw.1 hw.2 hstep

end Runs

section Examples

/-- A client with one note that no server knows, and a server without notes. -/
def newNote : PushWorld where
  db :=
    { notes := [unsyncedRow 1 "Storage" "u-1"]
      edges := []
      embeddings := []
      nextId := 2
      entityIdUnique := true }
  server := emptyServer 1

/-- The entry the note is sent as. -/
def noteEntry : BatchNoteItem := { titledEntry "u-1" "Storage" with kind := "note" }

/-- The server once the note was pushed. -/
def storedNote : ServerDb :=
  (@Server.pushMemoryBatch tickingClock quietServer "p" [noteEntry] ⟨emptyServer 1, none⟩).2.db

/-- A push whose answer is lost. -/
def unansweredPush : Push where
  includeArchived := false
  fresh := fun _ => ""
  server := ⟨fun _ => none, fun _ => true, true⟩
  fault := none

/-- The push after it, which is told the id. -/
def repeatedPush : Push :=
  { unansweredPush with
    server := ⟨fun _ => some ⟨0, 1, 0, [⟨some "u-1", some (nilCursor ++ "0"), "skipped"⟩]⟩,
      fun _ => true, true⟩ }

theorem chunks_newNote : unansweredPush.chunks newNote.db =
    [[syncRowOf (fun _ => "") (unsyncedRow 1 "Storage" "u-1")]] := by decide +kernel

/-- The push whose answer was lost is repeated, and told the id of the row it stored. -/
theorem pushOnceLaw_repeated :
    PushLaw "p" ⟨newNote.db, storedNote⟩ repeatedPush
      ⟨(repeatedPush.run newNote.db).2.db, storedNote⟩ := by
  let _ : Sha256 := workedSha256
  let _ : SyncClock := tickingClock
  -- One request carries the note; it is the same in both pushes.
  have hone : ∀ {i : Nat} {chunk : List SyncRow},
      (unansweredPush.chunks newNote.db)[i]? = some chunk → i = 0 ∧ chunk.map (·.batchItem) = [noteEntry] := by
    intro i chunk hi
    rw [chunks_newNote] at hi
    rcases i with _ | i
    · exact ⟨rfl, by rw [← Option.some.inj hi]; rfl⟩
    · exact absurd hi (by simp)
  have hvalid : newNote.db.Valid := by
    refine ⟨⟨by decide, by decide, by decide⟩,
      fun n hn => Or.inl (by rw [List.mem_singleton.mp hn]; rfl), fun n hn e he => ?_⟩
    rw [List.mem_singleton.mp hn] at he
    exact absurd he (by simp [unsyncedRow])
  have hreached : ServerReached 1 "embeddinggemma-300m" newNote.server := GuardedRun.refl
  have hfirst : pushStep 1 "embeddinggemma-300m" "p" newNote unansweredPush
      ⟨newNote.db, storedNote⟩ := by
    refine ⟨by decide +kernel, fun i => if i = 0 then emptyServer 1 else storedNote,
      GuardedRun.refl, fun i chunk hi => ?_, ?_⟩
    · obtain ⟨rfl, hentries⟩ := hone hi
      rw [hentries]
      exact RequestOutcome.unanswered for_quietServer none
    · rw [chunks_newNote]
      rfl
  refine pushOnceLaw hvalid hreached (GuardedRun.tail unansweredPush GuardedRun.refl trivial hfirst)
    ⟨rfl, fun _ => storedNote, GuardedRun.refl, fun i chunk hi => ?_, rfl⟩
  obtain ⟨rfl, hentries⟩ := hone hi
  rw [hentries]
  have hrun : Server.pushMemoryBatch quietServer "p" [noteEntry] ⟨storedNote, none⟩
      = (.ok (.multiStatus 0 1 0 [⟨.skipped, "u-1", some (nilCursor ++ "0")⟩]),
        ⟨storedNote, none⟩) := rfl
  refine RequestOutcome.answered for_quietServer hrun (fun item hitem _ ext hext id hid => ?_)
  rw [List.mem_singleton.mp hitem] at hext hid
  exact ⟨_, List.mem_singleton.mpr rfl, Option.some.inj hext, hid⟩

/-- A note that was archived before any push. -/
def archivedNote : MemoryDb :=
  { newNote.db with notes := [{ unsyncedRow 1 "Storage" "u-1" with status := "archived" }] }

/-- A push does not offer every row without a server id: not the archived ones. -/
theorem push_leavesArchived :
    ¬ ∀ (db : MemoryDb) (p : Push), @MemoryDb.Valid workedSha256 db →
      ∀ id, id ∈ (p.offered db).map (·.localId) ↔
        ∃ r ∈ db.notes, r.id = id ∧ r.remoteId = none := by
  let _ : Sha256 := workedSha256
  intro h
  have hvalid : archivedNote.Valid := by
    refine ⟨⟨by decide, by decide, by decide⟩,
      fun n hn => Or.inr (by rw [List.mem_singleton.mp hn]), fun n hn e he => ?_⟩
    rw [List.mem_singleton.mp hn] at he
    exact absurd he (by simp [unsyncedRow])
  have hoffered := (h archivedNote unansweredPush hvalid 1).mpr
    ⟨_, List.mem_singleton.mpr rfl, rfl, rfl⟩
  exact absurd hoffered (by decide +kernel)

end Examples

end Spelunk
