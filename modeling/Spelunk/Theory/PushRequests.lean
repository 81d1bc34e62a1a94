import Spelunk.Core.PushRun
import Spelunk.Theory.ServerBatchLaw

/-!
# The Requests of a Push

One request of a push, from the server's side. It may be lost on its way; it may be
served, to its end or up to a fault, without its answer reaching the client; or its
answer reaches the client, perhaps with entries left out, reported as failed, or without
their ids. What an answer affirms is the server's word: the external id has a live row
with that `sync_id` from then on, and no request of any push takes it away.

A request that is answered met no fault: the route passes every failure on.

## Main definitions

* `ServerDb.liveRows`: The live rows of a project with an external id.
* `ServerDb.HeldAs`: One of them has the given `sync_id`.
* `Reported`: What a client reads affirms nothing the server did not say.
* `RequestOutcome`: What may come of a request.

## Theorems

* `length_liveRows_le`: An external id has at most one live row.
* `RequestOutcome.reached`, `RequestOutcome.heldAs`: What a request leaves in place.
* `RequestOutcome.affirmed`: What an answer affirms, the server holds.
-/

namespace Spelunk

open Lib (Sql SqlError Conn GuardedRun)

namespace ServerDb

/-- The live rows of a project with that external id. -/
def liveRows (db : ServerDb) (slug ext : String) : List ServerRow :=
  db.notes.filter fun n =>
    n.live ∧ n.remoteId = some ext ∧ ∃ p ∈ db.projects, p.slug = slug ∧ n.projectId = p.id

/-- A live row of the project has the external id and that `sync_id`. -/
def HeldAs (db : ServerDb) (slug ext id : String) : Prop :=
  ∃ n ∈ db.liveRows slug ext, n.syncId = id

end ServerDb

section Rows

variable {db s : ServerDb} {slug ext id : String}

theorem mem_liveRows {n : ServerRow} : n ∈ db.liveRows slug ext ↔
    ∃ p ∈ db.projects, p.slug = slug ∧ LiveRow db p.id ext n := by
  rw [ServerDb.liveRows, List.mem_filter, decide_eq_true_eq]
  constructor
  · rintro ⟨hn, hlive, hext, p, hp, hslug, hproject⟩
    exact ⟨p, hp, hslug, hn, hproject, hlive, hext⟩
  · rintro ⟨p, hp, hslug, hn⟩
    exact ⟨hn.mem, hn.live, hn.external, p, hp, hslug, hn.project⟩

/-- The slug names one project. -/
theorem project_eq (h : db.UniqueOk) {p q : Project} (hp : p ∈ db.projects) (hq : q ∈ db.projects)
    (hpq : p.slug = q.slug) : p = q :=
  List.inj_on_of_nodup_map h.2.2.2.2 hp hq hpq

theorem eq_of_mem_liveRows (h : db.UniqueOk) {a b : ServerRow} (ha : a ∈ db.liveRows slug ext)
    (hb : b ∈ db.liveRows slug ext) : a = b := by
  rcases mem_liveRows.mp ha with ⟨p, hp, hpslug, hpa⟩
  rcases mem_liveRows.mp hb with ⟨q, hq, hqslug, hqb⟩
  have hpq := project_eq h hp hq (hpslug.trans hqslug.symm)
  exact LiveRow.eq h hpa (hpq ▸ hqb)

/-- An external id has at most one live row in its project. -/
theorem length_liveRows_le (h : db.UniqueOk) (slug ext : String) :
    (db.liveRows slug ext).length ≤ 1 := by
  have hnodup : (db.liveRows slug ext).Nodup := (List.Nodup.of_map _ h.1).filter _
  rcases hrows : db.liveRows slug ext with _ | ⟨a, _ | ⟨b, rest⟩⟩
  · exact Nat.zero_le 1
  · exact le_refl 1
  · exfalso
    have hab : a = b := eq_of_mem_liveRows h (hrows ▸ List.mem_cons_self)
      (hrows ▸ List.mem_cons_of_mem _ List.mem_cons_self)
    rw [hrows, List.nodup_cons] at hnodup
    exact hnodup.1 (hab ▸ List.mem_cons_self)

/-- A held external id has exactly one live row. -/
theorem ServerDb.HeldAs.liveRows_eq (h : db.HeldAs slug ext id) (hu : db.UniqueOk) :
    ∃ n, db.liveRows slug ext = [n] ∧ n.syncId = id := by
  rcases h with ⟨n, hn, hid⟩
  refine ⟨n, ?_, hid⟩
  have hle := length_liveRows_le hu slug ext
  rcases hrows : db.liveRows slug ext with _ | ⟨a, _ | ⟨b, rest⟩⟩
  · rw [hrows] at hn
    exact absurd hn List.not_mem_nil
  · rw [hrows] at hn
    rw [List.mem_singleton.mp hn]
  · rw [hrows] at hle
    exact absurd hle (by simp)

/-- Rows that stay, of projects that stay, are held as before. -/
theorem ServerDb.HeldAs.mono (h : db.HeldAs slug ext id) (hnotes : db.notes ⊆ s.notes)
    (hprojects : ∀ p ∈ db.projects, ∃ q ∈ s.projects, q.id = p.id ∧ q.slug = p.slug) :
    s.HeldAs slug ext id := by
  rcases h with ⟨n, hn, hid⟩
  rcases mem_liveRows.mp hn with ⟨p, hp, hslug, hlive⟩
  rcases hprojects p hp with ⟨q, hq, hqid, hqslug⟩
  exact ⟨n, mem_liveRows.mpr ⟨q, hq, hqslug.trans hslug, hnotes hlive.mem,
    hlive.project.trans hqid.symm, hlive.live, hlive.external⟩, hid⟩

end Rows

section Kept

variable {slug ext id : String}

theorem keeps_heldAs_updateProject (projectId : Nat) {f : Project → Project}
    (hf : ∀ p, (f p).id = p.id ∧ (f p).slug = p.slug) :
    Sql.Keeps (fun s => s.HeldAs slug ext id) (Server.updateProject projectId f) := by
  refine Sql.Keeps.statement (fun s a s' hs hrun => ?_)
  rw [(ServerDb.of_checked_eq_ok hrun).2.1]
  refine hs.mono (List.Subset.refl _) (fun p hp => ⟨_, List.mem_map_of_mem hp, ?_⟩)
  split
  · exact hf p
  · exact ⟨rfl, rfl⟩

theorem keeps_heldAs_insertProject (newSlug : String) (dim : Nat) (model : String) :
    Sql.Keeps (fun s => s.HeldAs slug ext id) (Server.insertProject newSlug dim model) := by
  refine Sql.Keeps.statement (fun s a s' hs hrun => ?_)
  rw [(ServerDb.of_checked_eq_ok hrun).2.1]
  exact hs.mono (List.Subset.refl _) (fun p hp => ⟨p, List.mem_append_left _ hp, rfl, rfl⟩)

theorem keeps_heldAs_upsertProject (newSlug : String) (dim : Nat) (model : String) :
    Sql.Keeps (fun s => s.HeldAs slug ext id) (Server.upsertProject newSlug dim model) := by
  unfold Server.upsertProject
  refine Sql.Keeps.bind (Sql.Keeps.query _) (fun found => ?_)
  rcases found with _ | p
  · exact keeps_heldAs_insertProject newSlug dim model
  · simp only []
    split
    · exact Sql.Keeps.fail _
    · split
      · exact Sql.Keeps.fail _
      · exact Sql.Keeps.bind (Sql.Keeps.whenever (keeps_heldAs_updateProject _
          (fun _ => ⟨rfl, rfl⟩))) (fun _ => Sql.Keeps.bind (Sql.Keeps.whenever
            (keeps_heldAs_updateProject _ (fun _ => ⟨rfl, rfl⟩))) (fun _ => Sql.Keeps.ok _))

variable [SyncClock]

/-- An entry adds a row, if anything. -/
theorem keeps_heldAs_pushEntry (state : AppState) (projectId : Nat) (st : Server.BatchLoop)
    (entry : BatchNoteItem) :
    Sql.Keeps (fun s => s.HeldAs slug ext id) (Server.pushEntry state projectId st entry) := by
  have hinsert : ∀ r, Sql.Keeps (fun s => s.HeldAs slug ext id) (Server.insertRow r) := by
    intro r
    refine Sql.Keeps.statement (fun s a s' hs hrun => ?_)
    rw [(ServerDb.of_checked_eq_ok hrun).2.1]
    exact hs.mono (List.subset_append_left _ _) (fun p hp => ⟨p, hp, rfl, rfl⟩)
  have hvector : ∀ noteId vec, Sql.Keeps (fun s => s.HeldAs slug ext id)
      (Server.insertEmbedding noteId vec) := by
    intro noteId vec
    refine Sql.Keeps.execute (fun s s' hs hrun => ?_)
    split at hrun
    · exact absurd hrun (by simp)
    · split at hrun
      · exact absurd hrun (by simp)
      · rw [← Except.ok.inj hrun]
        exact hs
  unfold Server.pushEntry
  split
  · exact Sql.Keeps.ok _
  · refine Sql.Keeps.bind ?_ (fun _ => Sql.Keeps.ok _)
    unfold Server.addNote
    refine Sql.Keeps.bind (hinsert _) (fun p => ?_)
    rcases Server.entryEmbedding state entry.title (entry.body.getD "") entry.embedding with _ | vec
    · exact Sql.Keeps.ok _
    · exact Sql.Keeps.bind (hvector _ _) (fun _ => Sql.Keeps.ok _)

/-- No batch takes a live row away, stopped by a fault or not. -/
theorem keeps_heldAs_pushMemoryBatch (state : AppState) (batchSlug : String)
    (entries : List BatchNoteItem) :
    Sql.Keeps (fun s => s.HeldAs slug ext id) (Server.pushMemoryBatch state batchSlug entries) := by
  unfold Server.pushMemoryBatch
  split
  · exact Sql.Keeps.fail _
  · exact Sql.Keeps.ok _
  · unfold Server.storeBatch
    exact Sql.Keeps.bind (keeps_heldAs_upsertProject _ _ _) (fun p =>
      Sql.Keeps.bind (Server.keeps_findByRemoteIds _ _) (fun existing =>
        Sql.Keeps.bind (Sql.Keeps.foldEach _ _ (fun st entry _ =>
          keeps_heldAs_pushEntry state p.id st entry)) (fun _ => Sql.Keeps.ok _)))

end Kept

section Outcomes

/-- What the client reads affirms nothing that the server did not say: entries may be
    missing, failed or without an id. -/
def Reported (results : List BatchItemResult) (items : List CloudSync.BatchItemResult) : Prop :=
  ∀ item ∈ items, item.durablyPersisted = true → ∀ ext ∈ item.externalId, ∀ id ∈ item.id,
    ∃ r ∈ results, r.externalId = ext ∧ r.id = some id

variable [SyncClock]

/-- What may come of a request with those entries: what the client is answered, and the
    server's store behind it. -/
inductive RequestOutcome (dim : Nat) (model slug : String) (entries : List BatchNoteItem)
    (s : ServerDb) : Option CloudSync.BatchPushResult → ServerDb → Prop where
  | lost : RequestOutcome dim model slug entries s none s
  | unanswered {state : AppState} (hstate : state.For dim model) (fault : Option Nat) :
      RequestOutcome dim model slug entries s none
        (Server.pushMemoryBatch state slug entries ⟨s, fault⟩).2.db
  | answered {state : AppState} (hstate : state.For dim model) {created skipped failed : Nat}
      {results : List BatchItemResult} {s' : ServerDb} {res : CloudSync.BatchPushResult}
      (hrun : Server.pushMemoryBatch state slug entries ⟨s, none⟩
        = (.ok (.multiStatus created skipped failed results), ⟨s', none⟩))
      (hreported : Reported results res.results) :
      RequestOutcome dim model slug entries s (some res) s'

variable {dim : Nat} {model slug : String} {entries : List BatchNoteItem} {s s' : ServerDb}
  {reply : Option CloudSync.BatchPushResult}

/-- The store a served batch leaves is one the server reaches. -/
theorem reached_pushMemoryBatch {state : AppState} (hstate : state.For dim model)
    (h : ServerReached dim model s) (slug : String) (entries : List BatchNoteItem)
    (fault : Option Nat) :
    ServerReached dim model (Server.pushMemoryBatch state slug entries ⟨s, fault⟩).2.db := by
  refine GuardedRun.tail (state, .pushBatch slug entries, fault) h hstate ?_
  simp only [Server.serve, Sql.bind_eq, Sql.andThen, Sql.pure_eq, Sql.ok]
  rcases Server.pushMemoryBatch state slug entries ⟨s, fault⟩ with ⟨_ | _, c⟩ <;> rfl

theorem RequestOutcome.reached (ho : RequestOutcome dim model slug entries s reply s')
    (h : ServerReached dim model s) : ServerReached dim model s' := by
  cases ho with
  | lost => exact h
  | unanswered hstate fault => exact reached_pushMemoryBatch hstate h slug entries fault
  | answered hstate hrun _ =>
      have hserved := reached_pushMemoryBatch hstate h slug entries none
      rw [hrun] at hserved
      exact hserved

theorem RequestOutcome.heldAs (ho : RequestOutcome dim model slug entries s reply s')
    {ext id : String} (h : s.HeldAs slug ext id) : s'.HeldAs slug ext id := by
  cases ho with
  | lost => exact h
  | unanswered hstate fault => exact keeps_heldAs_pushMemoryBatch _ slug entries ⟨s, fault⟩ h
  | @answered state _ _ _ _ _ _ _ hrun _ =>
      have hkept := keeps_heldAs_pushMemoryBatch state slug entries ⟨s, none⟩ h
      rw [hrun] at hkept
      exact hkept

omit [SyncClock] in
/-- The checks reject a batch with the entry they met. -/
theorem rejected_of_validateEntries {state : AppState} {i : Nat} {rejected : BatchReply}
    (h : validateEntries state i entries = .ok (some rejected)) :
    ∃ entry field category, rejected = .injectionDetected entry field category := by
  induction entries generalizing i with
  | nil => exact absurd h (by simp [validateEntries])
  | cons entry rest ih =>
      rw [validateEntries] at h
      split at h
      · exact ih h
      · rw [validateEntry] at h
        split at h
        · exact absurd h (by simp)
        · split at h
          · exact absurd h (by simp)
          · split at h
            · exact absurd h (by simp)
            · rw [Except.ok.injEq, Option.map_eq_some_iff] at h
              rcases h with ⟨m, _, rfl⟩
              exact ⟨i, m.1, m.2, rfl⟩

/-- An answered batch passed the checks. -/
theorem valid_of_multiStatus {state : AppState} {created skipped failed : Nat}
    {results : List BatchItemResult} {c : Conn ServerDb}
    (hrun : Server.pushMemoryBatch state slug entries ⟨s, none⟩
      = (.ok (.multiStatus created skipped failed results), c)) :
    validateBatch state slug entries = .ok none := by
  rw [Server.pushMemoryBatch] at hrun
  rcases hvalid : validateBatch state slug entries with e | _ | rejected
  · rw [hvalid] at hrun
    exact absurd (Prod.mk.inj hrun).1 (by simp)
  · rfl
  · rw [hvalid] at hrun
    have hsame : rejected = .multiStatus created skipped failed results :=
      Except.ok.inj (Prod.mk.inj hrun).1
    rw [validateBatch] at hvalid
    split at hvalid
    · exact absurd hvalid (by simp)
    · split at hvalid
      · exact absurd hvalid (by simp)
      · rcases rejected_of_validateEntries hvalid with ⟨i, field, category, hrejected⟩
        rw [hsame] at hrejected
        exact absurd hrejected (by simp)

/-- An answered batch met the law. -/
theorem batchLaw_of_multiStatus {state : AppState} (hstate : state.For dim model)
    (h : ServerReached dim model s) {created skipped failed : Nat}
    {results : List BatchItemResult} {c : Conn ServerDb}
    (hrun : Server.pushMemoryBatch state slug entries ⟨s, none⟩
      = (.ok (.multiStatus created skipped failed results), c)) :
    BatchLaw state slug entries s := by
  have hvalid := valid_of_multiStatus hrun
  rcases free_or_firstHeld s slug entries with hfree | ⟨before, entry, rest, hsplit, hheld, hfree⟩
  · exact batchLaw_of_free hstate h.served hvalid hfree
  · rcases storeBatch_refused hstate h.served hvalid hsplit hheld hfree with ⟨_, herr, _⟩
    rw [hrun] at herr
    exact absurd (Prod.mk.inj herr).1 (by simp)

omit [SyncClock] in
/-- Every result is the answer to an entry. -/
theorem AnsweredBatch.of_mem {db : ServerDb} {pid : Nat} {results : List BatchItemResult}
    (h : AnsweredBatch db s pid entries results) {r : BatchItemResult} (hr : r ∈ results) :
    ∃ before entry, AnsweredEntry db s pid before entry r := by
  rcases List.getElem_of_mem hr with ⟨i, hi, rfl⟩
  have hlt : i < entries.length := h.1 ▸ hi
  have hsplit : entries = entries.take i ++ entries[i] :: entries.drop (i + 1) := by
    rw [← List.drop_eq_getElem_cons hlt, List.take_append_drop]
  rcases h.2 _ _ _ hsplit with ⟨res, hres, ha⟩
  rw [List.length_take, Nat.min_eq_left hlt.le, List.getElem?_eq_getElem hi] at hres
  exact ⟨_, _, Option.some.inj hres ▸ ha⟩

/-- What an answer affirms, the server holds. -/
theorem RequestOutcome.affirmed {res : CloudSync.BatchPushResult}
    (ho : RequestOutcome dim model slug entries s (some res) s') (h : ServerReached dim model s)
    {item : CloudSync.BatchItemResult} (hitem : item ∈ res.results)
    (hdurable : item.durablyPersisted = true) {ext id : String} (hext : item.externalId = some ext)
    (hid : item.id = some id) : s'.HeldAs slug ext id := by
  cases ho with
  | answered hstate hrun hreported =>
      rcases batchLaw_of_multiStatus hstate h hrun with
        ⟨p, db', _, _, results', hrun', hproject, _, hanswered, _⟩
      rw [hrun, Prod.mk.injEq, Except.ok.injEq, BatchReply.multiStatus.injEq, Conn.mk.injEq]
        at hrun'
      obtain ⟨⟨_, _, _, rfl⟩, rfl, _⟩ := hrun'
      rcases hreported item hitem hdurable ext hext id hid with ⟨r, hr, hrext, hrid⟩
      rcases hanswered.of_mem hr with ⟨before, entry, ha⟩
      rcases ha.id with ⟨n, hn, hnid⟩
      rw [← ha.externalId, hrext] at hn
      have hp := getProject_mem hproject
      refine ⟨n, mem_liveRows.mpr ⟨p, hp.1, hp.2, hn⟩, ?_⟩
      rw [hrid, Option.some.injEq] at hnid
      exact hnid.symm

end Outcomes

end Spelunk
