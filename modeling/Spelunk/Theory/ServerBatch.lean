import Spelunk.Lib.UniqueIndex
import Spelunk.Theory.ServerStore

/-!
# Storing a Batch

What a batch push does on a database any history of requests reached, on a
connection the storage serves. The map of known external ids is filled from live
rows only and kept up as entries are stored, so an external id is stored at most
once. The unique index covers archived rows too: an entry whose external id an
archived row holds is not found, and its insert is refused.

## Main definitions

* `LiveRow`, `ArchivedHolder`: What holds an external id.
* `AnsweredEntry`: What the answer to one entry means.
* `Storing`: The loop over a batch, as far as it has come.

## Theorems

* `answers_addNote`: An insert no index refuses.
* `addNote_refused`: An insert the index on external ids refuses.
* `answers_pushEntry`: One entry of a batch.
* `answers_pushEntries`: Entries none of whose external ids an archived row holds.
-/

namespace Spelunk

open Lib (Sql SqlError Conn)

/-- A live row of the project with that external id. -/
structure LiveRow (db : ServerDb) (pid : Nat) (ext : String) (n : ServerRow) : Prop where
  mem : n ∈ db.notes
  project : n.projectId = pid
  live : n.live = true
  external : n.remoteId = some ext

/-- An archived row of the project holds the external id. -/
def ArchivedHolder (db : ServerDb) (pid : Nat) (ext : String) : Prop :=
  ∃ n ∈ db.notes, n.projectId = pid ∧ n.remoteId = some ext ∧ n.status = "archived"

section Rows

variable {dim : Nat} {model : String} {db : ServerDb} {pid : Nat} {ext : String}

theorem externalKey_eq_some {n : ServerRow} :
    n.externalKey = some (pid, ext) ↔ n.projectId = pid ∧ n.remoteId = some ext := by
  rw [ServerRow.externalKey, Option.map_eq_some_iff]
  constructor
  · rintro ⟨e, he, heq⟩
    rw [Prod.mk.injEq] at heq
    exact ⟨heq.1, heq.2 ▸ he⟩
  · rintro ⟨hp, he⟩
    exact ⟨ext, he, by rw [hp]⟩

/-- An external id has one row in its project. -/
theorem eq_of_external (h : db.UniqueOk) {a b : ServerRow} (ha : a ∈ db.notes) (hb : b ∈ db.notes)
    (hap : a.projectId = pid ∧ a.remoteId = some ext)
    (hbp : b.projectId = pid ∧ b.remoteId = some ext) : a = b :=
  Lib.eq_of_indexed h.2.1 ha hb (externalKey_eq_some.mpr hap) (externalKey_eq_some.mpr hbp)

theorem LiveRow.eq (h : db.UniqueOk) {a b : ServerRow} (ha : LiveRow db pid ext a)
    (hb : LiveRow db pid ext b) : a = b :=
  eq_of_external h ha.mem hb.mem ⟨ha.project, ha.external⟩ ⟨hb.project, hb.external⟩

theorem not_archivedHolder_of_liveRow (h : db.UniqueOk) {n : ServerRow}
    (hn : LiveRow db pid ext n) : ¬ ArchivedHolder db pid ext := by
  rintro ⟨a, ha, hap, har, has⟩
  have heq := eq_of_external h ha hn.mem ⟨hap, har⟩ ⟨hn.project, hn.external⟩
  have hlive := hn.live
  rw [← heq, ServerRow.live, has] at hlive
  exact absurd hlive (by decide)

end Rows

section Insert

variable [SyncClock] {dim : Nat} {model : String} {db : ServerDb}

/-- The row of an insert, with the names the server gives it. -/
def ServerDb.named (db : ServerDb) (r : ServerRow) : ServerRow :=
  { r with id := db.nextId, syncId := SyncClock.nowV7 db.lastSyncId }

/-- The database with one more row. -/
def ServerDb.storeRow (db : ServerDb) (r : ServerRow) : ServerDb :=
  { db with
    notes := db.notes ++ [db.named r]
    nextId := db.nextId + 1
    lastSyncId := SyncClock.nowV7 db.lastSyncId }

/-- The row a push stores for an entry. -/
def entryRowOf (now : Int) (pid : Nat) (entry : BatchNoteItem) : ServerRow where
  id := 0
  projectId := pid
  kind := entry.kind
  title := entry.title
  body := entry.body.getD ""
  tags := entry.sourceCommit.map (fun sha => s!"git:{sha}")
  linkedFiles := none
  createdAt := now
  status := "active"
  supersededBy := none
  remoteId := some entry.externalId
  syncId := ""

theorem storeRow_foreignKeysOk (h : db.SchemaOk) {r : ServerRow}
    (hp : r.projectId ∈ db.projects.map (·.id)) (hsucc : r.supersededBy = none) :
    (db.storeRow r).ForeignKeysOk := by
  have hids : ∀ v ∈ db.notes.map (·.id), v ∈ (db.storeRow r).notes.map (·.id) := by
    intro v hv
    rw [ServerDb.storeRow, List.map_append]
    exact List.mem_append_left _ hv
  intro n hn
  rcases List.mem_append.mp hn with hn | hn
  · exact ⟨(h.foreignKeys n hn).1, fun v hv => hids v ((h.foreignKeys n hn).2 v hv)⟩
  · rw [List.mem_singleton.mp hn]
    refine ⟨hp, fun v hv => ?_⟩
    simp only [ServerDb.named, hsucc] at hv
    exact absurd hv (by simp)

theorem storeRow_uniqueOk_iff (h : db.SchemaOk) (r : ServerRow) :
    (db.storeRow r).UniqueOk ↔
      ∀ x ∈ db.notes, ∀ ext, r.remoteId = some ext →
        ¬ (x.projectId = r.projectId ∧ x.remoteId = some ext) := by
  constructor
  · intro hu x hx ext hext hbad
    have hkey : (db.named r).externalKey = some (r.projectId, ext) :=
      externalKey_eq_some.mpr ⟨rfl, hext⟩
    have heq := Lib.eq_of_indexed hu.2.1 (List.mem_append_left _ hx)
      (List.mem_append_right _ (List.mem_singleton.mpr rfl)) (externalKey_eq_some.mpr hbad) hkey
    have hlt := h.id_lt x hx
    rw [heq] at hlt
    exact absurd hlt (Nat.lt_irrefl _)
  · intro hnew
    refine ⟨?_, ?_, ?_, h.unique.2.2.2⟩
    · exact Lib.nodup_map_concat h.unique.1 (fun x hx => (h.id_lt x hx).ne)
    · refine Lib.nodup_filterMap_concat h.unique.2.1 (fun v hv x hx hxv => ?_)
      rcases v with ⟨p, ext⟩
      have hr := externalKey_eq_some.mp hv
      exact hnew x hx ext hr.2 (hr.1.symm ▸ externalKey_eq_some.mp hxv)
    · exact Lib.nodup_map_concat h.unique.2.2.1 (fun x hx =>
        ((h.sync_le x hx).trans_lt (SyncClock.lt_nowV7 _)).ne)

/-- An insert no index refuses. -/
theorem answers_addNote (h : db.Served dim model) {now : Int} {pid : Nat} {entry : BatchNoteItem}
    (hp : pid ∈ db.projects.map (·.id)) {embedding : Option (List UInt32)}
    (hlen : ∀ v ∈ embedding, v.length = dim)
    (hnew : ∀ x ∈ db.notes, ¬ (x.projectId = pid ∧ x.remoteId = some entry.externalId)) :
    Sql.Answers (fun s => s = db) (Server.addNote now pid entry.kind entry.title
      (entry.body.getD "") (entry.sourceCommit.map (fun sha => s!"git:{sha}")).toList [] embedding
      (some entry.externalId))
      (fun p s => p.2 = SyncClock.nowV7 db.lastSyncId ∧
        ∃ emb, s = { db.storeRow (entryRowOf now pid entry) with embeddings := emb }) := by
  have hrow : ∀ r : ServerRow, r = entryRowOf now pid entry → ∃ p db', ServerDb.checked
      (db.nextId, SyncClock.nowV7 db.lastSyncId) (db.storeRow r) = .ok (p, db') ∧
      p = (db.nextId, SyncClock.nowV7 db.lastSyncId) ∧ db' = db.storeRow r := by
    rintro r rfl
    refine ⟨_, _, ServerDb.checked_eq_ok ((storeRow_uniqueOk_iff h.toSchemaOk _).mpr ?_)
      (storeRow_foreignKeysOk h.toSchemaOk hp rfl), rfl, rfl⟩
    intro x hx ext hext
    rw [show (entryRowOf now pid entry).remoteId = some entry.externalId from rfl,
      Option.some.injEq] at hext
    exact hext ▸ hnew x hx
  have htags : (if (entry.sourceCommit.map (fun sha => s!"git:{sha}")).toList = [] then none else
      some (joinCsv (entry.sourceCommit.map (fun sha => s!"git:{sha}")).toList))
      = entry.sourceCommit.map (fun sha => s!"git:{sha}") := by
    rcases entry.sourceCommit with _ | sha
    · rfl
    · simp [joinCsv]
  unfold Server.addNote
  rw [htags]
  refine Sql.Answers.bind (Q := fun p s => p = (db.nextId, SyncClock.nowV7 db.lastSyncId) ∧
    s = db.storeRow (entryRowOf now pid entry)) (Sql.Answers.of_serves (Sql.Serves.statement
      (fun s hs => ?_))) (fun p => Sql.Answers.of_pre (fun hpair => ?_))
  · rw [hs]
    exact hrow _ rfl
  · rw [hpair]
    rcases embedding with _ | vec
    · exact Sql.Answers.ok _ (fun s hs => ⟨rfl, db.embeddings, hs⟩)
    · refine Sql.Answers.bind (Q := fun _ s => ∃ emb, s = { db.storeRow (entryRowOf now pid entry)
        with embeddings := emb }) (Sql.Answers.of_serves (Sql.Serves.execute (fun s hs => ?_)))
        (fun _ => Sql.Answers.ok _ (fun s hs => ⟨rfl, hs⟩))
      have hfree : ¬ (s.embeddings.any (fun e => e.1 = db.nextId)) = true := by
        rw [hs, List.any_eq_true]
        rintro ⟨e, he, heq⟩
        have hlt := h.embedding_lt e he
        rw [of_decide_eq_true heq] at hlt
        exact absurd hlt (Nat.lt_irrefl _)
      have hdim : ¬ vec.length ≠ s.vectorDim := by
        rw [hs, not_not, hlen vec rfl]
        exact h.vectorDim.symm
      rw [if_neg hdim, if_neg hfree, hs]
      exact ⟨_, rfl, _, rfl⟩

theorem insertRow_refused {r : ServerRow} (hbad : ¬ (db.storeRow r).UniqueOk) :
    Server.insertRow r ⟨db, none⟩ = (.error .unique, ⟨db, none⟩) :=
  Sql.statement_refused (if_pos hbad)

/-- An insert the index on external ids refuses. -/
theorem addNote_refused (h : db.Served dim model) {now : Int} {pid : Nat}
    {kind title body : String} {tags linkedFiles : List String}
    {embedding : Option (List UInt32)} {ext : String} {x : ServerRow} (hx : x ∈ db.notes)
    (hxp : x.projectId = pid) (hxr : x.remoteId = some ext) :
    Server.addNote now pid kind title body tags linkedFiles embedding (some ext) ⟨db, none⟩
      = (.error .unique, ⟨db, none⟩) := by
  have hbad : ∀ r : ServerRow, r.projectId = pid → r.remoteId = some ext →
      ¬ (db.storeRow r).UniqueOk := by
    intro r hp hr hu
    exact (storeRow_uniqueOk_iff h.toSchemaOk r).mp hu x hx ext hr ⟨hp.symm ▸ hxp, hxr⟩
  unfold Server.addNote
  simp only [Sql.bind_eq, Sql.andThen]
  rw [insertRow_refused (hbad _ rfl rfl)]

end Insert

/-- What the answer to one entry means, `before` being the entries ahead of it in
    the batch. -/
structure AnsweredEntry (db db' : ServerDb) (pid : Nat) (before : List BatchNoteItem)
    (entry : BatchNoteItem) (res : BatchItemResult) : Prop where
  externalId : res.externalId = entry.externalId
  /-- The id is that of the live row with the external id. -/
  id : ∃ n, LiveRow db' pid entry.externalId n ∧ res.id = some n.syncId
  /-- A live row from before is kept and answered. -/
  present : ∀ n, LiveRow db pid entry.externalId n → res = ⟨.skipped, entry.externalId, some n.syncId⟩
  /-- A repeated external id is not stored again. -/
  repeated : entry.externalId ∈ before.map (·.externalId) → res.status = .skipped
  /-- Every other entry gets a fresh live row of its own. -/
  fresh : (∀ n, ¬ LiveRow db pid entry.externalId n) →
    entry.externalId ∉ before.map (·.externalId) → res.status = .created ∧
      ∃ n, LiveRow db' pid entry.externalId n ∧ n ∉ db.notes ∧ db.nextId ≤ n.id ∧
        db.lastSyncId < n.syncId ∧ res.id = some n.syncId ∧ n.kind = entry.kind ∧
        n.title = entry.title ∧ n.body = entry.body.getD "" ∧
        n.tags = entry.sourceCommit.map (fun sha => s!"git:{sha}")

/-- What the answers to the entries of a batch mean. -/
def AnsweredBatch (db db' : ServerDb) (pid : Nat) (entries : List BatchNoteItem)
    (results : List BatchItemResult) : Prop :=
  results.length = entries.length ∧
    ∀ before entry rest, entries = before ++ entry :: rest →
      ∃ res, results[before.length]? = some res ∧ AnsweredEntry db db' pid before entry res

/-- The database has grown by rows of the batch only. -/
structure GrownBy (db db' : ServerDb) (pid : Nat) (entries : List BatchNoteItem) : Prop where
  kept : db.notes <+: db'.notes
  new : ∀ n ∈ db'.notes, n ∈ db.notes ∨
    ∃ entry ∈ entries, LiveRow db' pid entry.externalId n ∧
      ∀ m, ¬ LiveRow db pid entry.externalId m

/-- The loop over a batch behind the entries `done`. -/
structure Storing (dim : Nat) (model : String) (db : ServerDb) (pid : Nat)
    (entries done : List BatchNoteItem) (st : Server.BatchLoop) (s : ServerDb) : Prop where
  served : s.Served dim model
  project : pid ∈ s.projects.map (·.id)
  next_le : db.nextId ≤ s.nextId
  sync_le : db.lastSyncId ≤ s.lastSyncId
  grown : GrownBy db s pid done
  existing : ∀ e ∈ entries, ∀ sid, st.existing.lookup e.externalId = some sid ↔
    ∃ n, LiveRow s pid e.externalId n ∧ n.syncId = sid
  answered : AnsweredBatch db s pid done st.results
  created : st.created = st.results.countP (fun r => r.status = .created)
  skipped : st.skipped = st.results.countP (fun r => r.status = .skipped)

section Loop

variable {dim : Nat} {model : String} {db s s' : ServerDb} {pid : Nat}

theorem LiveRow.grow {ext : String} {n : ServerRow} (h : LiveRow s pid ext n)
    (hle : s.notes <+: s'.notes) : LiveRow s' pid ext n :=
  ⟨hle.subset h.mem, h.project, h.live, h.external⟩

theorem AnsweredEntry.grow {before : List BatchNoteItem} {entry : BatchNoteItem}
    {res : BatchItemResult} (h : AnsweredEntry db s pid before entry res)
    (hle : s.notes <+: s'.notes) : AnsweredEntry db s' pid before entry res where
  externalId := h.externalId
  id := by
    rcases h.id with ⟨n, hn, hres⟩
    exact ⟨n, hn.grow hle, hres⟩
  present := h.present
  repeated := h.repeated
  fresh := by
    intro hnone hbefore
    rcases h.fresh hnone hbefore with ⟨hstatus, n, hn, hrest⟩
    exact ⟨hstatus, n, hn.grow hle, hrest⟩

/-- One more answer. -/
theorem AnsweredBatch.concat {done : List BatchNoteItem} {results : List BatchItemResult}
    {x : BatchNoteItem} {res : BatchItemResult} (h : AnsweredBatch db s pid done results)
    (hle : s.notes <+: s'.notes) (hx : AnsweredEntry db s' pid done x res) :
    AnsweredBatch db s' pid (done ++ [x]) (results ++ [res]) := by
  refine ⟨by rw [List.length_append, List.length_append, h.1]; rfl, ?_⟩
  intro before entry rest hsplit
  rcases rest.eq_nil_or_concat with rfl | ⟨rest', last, rfl⟩
  · -- The new entry itself.
    have heq := List.append_inj' hsplit rfl
    rw [← heq.1, ← (List.cons.inj heq.2).1]
    refine ⟨res, ?_, hx⟩
    rw [List.getElem?_append_right h.1.le, h.1, Nat.sub_self]
    rfl
  · have hsplit' : done ++ [x] = (before ++ entry :: rest') ++ [last] := by
      rw [hsplit, List.append_assoc, List.cons_append, List.concat_eq_append]
    have heq := (List.append_inj' hsplit' rfl).1
    rcases h.2 before entry rest' heq with ⟨res', hres', ha⟩
    refine ⟨res', ?_, ha.grow hle⟩
    rw [List.getElem?_append_left, hres']
    exact (List.getElem?_eq_some_iff.mp hres').1

/-- Every entry answered so far has a live row. -/
theorem AnsweredBatch.live {done : List BatchNoteItem} {results : List BatchItemResult}
    (h : AnsweredBatch db s pid done results) {ext : String}
    (hext : ext ∈ done.map (·.externalId)) : ∃ n, LiveRow s pid ext n := by
  rcases List.mem_map.mp hext with ⟨e, he, rfl⟩
  rcases List.append_of_mem he with ⟨before, rest, hsplit⟩
  rcases h.2 before e rest hsplit with ⟨_, _, ha⟩
  rcases ha.id with ⟨n, hn, _⟩
  exact ⟨n, hn⟩

theorem GrownBy.concat {done : List BatchNoteItem} (h : GrownBy db s pid done)
    (x : BatchNoteItem) : GrownBy db s pid (done ++ [x]) where
  kept := h.kept
  new := by
    intro n hn
    rcases h.new n hn with hn | ⟨e, he, hlive, hnone⟩
    · exact Or.inl hn
    · exact Or.inr ⟨e, List.mem_append_left _ he, hlive, hnone⟩

/-- An entry whose external id is known is skipped. -/
theorem Storing.skip {entries done : List BatchNoteItem} {st : Server.BatchLoop}
    (h : Storing dim model db pid entries done st s) {x : BatchNoteItem} {n : ServerRow}
    (hn : LiveRow s pid x.externalId n) : Storing dim model db pid entries (done ++ [x])
      { st with
        results := st.results ++ [⟨.skipped, x.externalId, some n.syncId⟩]
        skipped := st.skipped + 1 } s := by
  refine ⟨h.served, h.project, h.next_le, h.sync_le, h.grown.concat x, h.existing,
    h.answered.concat (List.prefix_refl _) ?_, ?_, ?_⟩
  · constructor
    case externalId => rfl
    case id => exact ⟨n, hn, rfl⟩
    case present =>
      intro m hm
      rw [(hm.grow h.grown.kept).eq h.served.unique hn]
    case repeated => exact fun _ => rfl
    case fresh =>
      -- The row is from before or of an entry ahead.
      intro hnone hbefore
      exfalso
      rcases h.grown.new n hn.mem with hdb | ⟨e, he, hlive, _⟩
      · exact hnone n ⟨hdb, hn.project, hn.live, hn.external⟩
      · refine hbefore (List.mem_map.mpr ⟨e, he, ?_⟩)
        exact Option.some.inj (hlive.external.symm.trans hn.external)
  · show st.created = _
    rw [h.created, List.countP_append]
    rfl
  · show st.skipped + 1 = _
    rw [h.skipped, List.countP_append]
    rfl

variable [SyncClock]

/-- An entry whose external id no row holds is stored. -/
theorem Storing.store {entries done : List BatchNoteItem} {st : Server.BatchLoop}
    (h : Storing dim model db pid entries done st s) {x : BatchNoteItem} {now : Int}
    (hnew : ∀ r ∈ s.notes, ¬ (r.projectId = pid ∧ r.remoteId = some x.externalId))
    (hs' : s'.Served dim model) {emb : List (Nat × List UInt32)}
    (heq : s' = { s.storeRow (entryRowOf now pid x) with embeddings := emb }) :
    Storing dim model db pid entries (done ++ [x])
      { st with
        existing := (x.externalId, SyncClock.nowV7 s.lastSyncId) :: st.existing
        results := st.results ++ [⟨.created, x.externalId, some (SyncClock.nowV7 s.lastSyncId)⟩]
        created := st.created + 1 } s' := by
  let r := s.named (entryRowOf now pid x)
  have hnotes : s'.notes = s.notes ++ [r] := by
    rw [heq]
    rfl
  have hle : s.notes <+: s'.notes := ⟨[r], hnotes.symm⟩
  have hr : LiveRow s' pid x.externalId r := by
    refine ⟨?_, rfl, decide_eq_true rfl, rfl⟩
    rw [hnotes]
    exact List.mem_append_right _ (List.mem_singleton.mpr rfl)
  have hnone : ∀ n, ¬ LiveRow s pid x.externalId n :=
    fun n hn => hnew n hn.mem ⟨hn.project, hn.external⟩
  have hnone' : ∀ n, ¬ LiveRow db pid x.externalId n :=
    fun n hn => hnone n (hn.grow h.grown.kept)
  have hlt := SyncClock.lt_nowV7 s.lastSyncId
  refine ⟨hs', ?_, ?_, ?_, ⟨h.grown.kept.trans hle, ?_⟩, ?_, h.answered.concat hle ?_, ?_, ?_⟩
  · rw [heq]
    exact h.project
  · rw [heq]
    exact h.next_le.trans (Nat.le_succ _)
  · rw [heq]
    exact h.sync_le.trans hlt.le
  · intro n hn
    rw [hnotes] at hn
    rcases List.mem_append.mp hn with hn | hn
    · rcases h.grown.new n hn with hn | ⟨e, he, hlive, hnone⟩
      · exact Or.inl hn
      · exact Or.inr ⟨e, List.mem_append_left _ he, hlive.grow hle, hnone⟩
    · rw [List.mem_singleton.mp hn]
      exact Or.inr ⟨x, List.mem_append_right _ (List.mem_singleton.mpr rfl), hr, hnone'⟩
  · intro e he sid
    by_cases hext : e.externalId = x.externalId
    · simp only [hext, List.lookup_cons_self, Option.some.injEq]
      constructor
      · rintro rfl
        exact ⟨r, hr, rfl⟩
      · rintro ⟨n, hn, rfl⟩
        rw [hn.eq hs'.unique hr]
        rfl
    · have hbeq : (e.externalId == x.externalId) = false := beq_eq_false_iff_ne.mpr hext
      simp only [List.lookup_cons, hbeq]
      rw [h.existing e he]
      constructor
      · rintro ⟨n, hn, hsid⟩
        exact ⟨n, hn.grow hle, hsid⟩
      · rintro ⟨n, hn, hsid⟩
        refine ⟨n, ⟨?_, hn.project, hn.live, hn.external⟩, hsid⟩
        have hmem := hn.mem
        rw [hnotes] at hmem
        rcases List.mem_append.mp hmem with hmem | hmem
        · exact hmem
        · rw [List.mem_singleton.mp hmem] at hn
          exact absurd (Option.some.inj hn.external).symm hext
  · constructor
    case externalId => rfl
    case id => exact ⟨r, hr, rfl⟩
    case present => exact fun n hn => absurd hn (hnone' n)
    case repeated =>
      intro hbefore
      rcases h.answered.live hbefore with ⟨n, hn⟩
      exact absurd hn (hnone n)
    case fresh =>
      intro _ _
      refine ⟨rfl, r, hr, fun hmem => ?_, h.next_le, h.sync_le.trans_lt hlt, rfl, rfl, rfl, rfl,
        rfl⟩
      have hbad := h.served.id_lt r (h.grown.kept.subset hmem)
      exact absurd hbad (Nat.lt_irrefl _)
  · show st.created + 1 = _
    rw [h.created, List.countP_append]
    rfl
  · show st.skipped = _
    rw [h.skipped, List.countP_append]
    rfl

/-- One entry of a batch none of whose rows is archived. -/
theorem answers_pushEntry {state : AppState} (hstate : state.For dim model)
    {entries done : List BatchNoteItem} {st : Server.BatchLoop}
    (h : Storing dim model db pid entries done st s) {x : BatchNoteItem} (hx : x ∈ entries)
    (hvalid : validateEmbeddingDim x.embedding state.embeddingDim = .ok ())
    (hfree : ¬ ArchivedHolder db pid x.externalId) :
    Sql.Answers (fun t => t = s) (Server.pushEntry state pid st x)
      (fun st' t => Storing dim model db pid entries (done ++ [x]) st' t) := by
  unfold Server.pushEntry
  rcases hlook : st.existing.lookup x.externalId with _ | sid
  · have hnone : ∀ n, ¬ LiveRow s pid x.externalId n := by
      intro n hn
      have hsome := (h.existing x hx n.syncId).mpr ⟨n, hn, rfl⟩
      rw [hlook] at hsome
      exact absurd hsome (by simp)
    have hnew : ∀ r ∈ s.notes, ¬ (r.projectId = pid ∧ r.remoteId = some x.externalId) := by
      rintro r hr ⟨hp, hext⟩
      rcases h.grown.new r hr with hdb | ⟨e, _, hlive, _⟩
      · rcases h.served.status r hr with hs | hs
        · exact hnone r ⟨hr, hp, decide_eq_true hs, hext⟩
        · exact hfree ⟨r, hdb, hp, hext, hs⟩
      · exact hnone r ⟨hr, hp, hlive.live, hext⟩
    have hlen : ∀ v ∈ Server.entryEmbedding state x.title (x.body.getD "") x.embedding,
        v.length = dim := Server.length_entryEmbedding hstate hvalid
    have hadd : Sql.Answers (fun t => t = s) (Server.addNote state.now pid x.kind x.title
        (x.body.getD "") (x.sourceCommit.map (fun sha => s!"git:{sha}")).toList []
        (Server.entryEmbedding state x.title (x.body.getD "") x.embedding) (some x.externalId))
        (fun p t => (p.2 = SyncClock.nowV7 s.lastSyncId ∧ ∃ emb,
          t = { s.storeRow (entryRowOf state.now pid x) with embeddings := emb }) ∧
          t.Served dim model) :=
      ((answers_addNote h.served h.project hlen hnew).and_keeps
        (Server.keeps_served (Server.keeps_addNote _ _ _ _ _ _ _ _ _))).mono (fun t ht => ⟨ht, ht.symm ▸ h.served⟩)
        (fun _ _ hq => hq)
    have hstored : ∀ p : Nat × String, ∀ t, ((p.2 = SyncClock.nowV7 s.lastSyncId ∧ ∃ emb,
        t = { s.storeRow (entryRowOf state.now pid x) with embeddings := emb }) ∧
        t.Served dim model) → Storing dim model db pid entries (done ++ [x])
        { st with
          existing := (x.externalId, p.2) :: st.existing
          results := st.results ++ [⟨.created, x.externalId, some p.2⟩]
          created := st.created + 1 } t := by
      rintro p t ⟨⟨hsync, emb, heq⟩, hserved⟩
      rw [hsync]
      exact h.store hnew hserved heq
    rcases hc : x.sourceCommit with _ | sha
    · rw [hc] at hadd
      exact Sql.Answers.bind hadd (fun p => Sql.Answers.ok _ (fun t ht => hstored p t ht))
    · rw [hc] at hadd
      exact Sql.Answers.bind hadd (fun p => Sql.Answers.ok _ (fun t ht => hstored p t ht))
  · rcases (h.existing x hx sid).mp hlook with ⟨n, hn, rfl⟩
    exact Sql.Answers.ok _ (fun t ht => ht.symm ▸ h.skip hn)

/-- Entries none of whose external ids an archived row holds. -/
theorem answers_pushEntries {state : AppState} (hstate : state.For dim model)
    {entries : List BatchNoteItem} {st : Server.BatchLoop}
    (h : Storing dim model db pid entries [] st s) {l : List BatchNoteItem} (hl : l ⊆ entries)
    (hvalid : ∀ x ∈ l, validateEmbeddingDim x.embedding state.embeddingDim = .ok ())
    (hfree : ∀ x ∈ l, ¬ ArchivedHolder db pid x.externalId) :
    Sql.Answers (fun t => t = s) (Sql.foldEach l st (Server.pushEntry state pid))
      (fun st' t => Storing dim model db pid entries l st' t) := by
  refine Sql.Answers.mono (Sql.Answers.foldEach
    (I := fun done st' t => Storing dim model db pid entries done st' t) l st ?_)
    (fun t ht => ht.symm ▸ h) (fun _ _ hq => hq)
  intro done x rest st' hsplit t ht
  have hx : x ∈ l := hsplit ▸ List.mem_append_right _ List.mem_cons_self
  exact answers_pushEntry hstate ht (hl hx) (hvalid x hx) (hfree x hx) t rfl

/-- An entry whose external id an archived row holds is refused. -/
theorem pushEntry_refused {state : AppState} {entries done : List BatchNoteItem}
    {st : Server.BatchLoop} (h : Storing dim model db pid entries done st s) {x : BatchNoteItem}
    (hx : x ∈ entries) (hheld : ArchivedHolder db pid x.externalId) :
    Server.pushEntry state pid st x ⟨s, none⟩ = (.error .unique, ⟨s, none⟩) := by
  rcases hheld with ⟨n, hn, hp, hext, hs⟩
  have hn' := h.grown.kept.subset hn
  have hlook : st.existing.lookup x.externalId = none := by
    rcases hlook : st.existing.lookup x.externalId with _ | sid
    · rfl
    · rcases (h.existing x hx sid).mp hlook with ⟨m, hm, _⟩
      exact absurd ⟨n, hn', hp, hext, hs⟩ (not_archivedHolder_of_liveRow h.served.unique hm)
  unfold Server.pushEntry
  simp only [hlook, Sql.bind_eq, Sql.andThen]
  rw [addNote_refused h.served hn' hp hext]

end Loop

end Spelunk
