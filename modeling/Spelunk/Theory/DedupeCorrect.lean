import Spelunk.Theory.DedupeRows

/-!
# What Dedupe Guarantees

The store a run leaves behind, told from the store it started on: which rows
are kept, what they carry, and where links lead. The statement names neither
groups nor phases. A fault at any statement leaves the store as it was, and a
second run finds nothing to do.

## Main definitions

* `Deduped`: The contract between the store before and the store after.

## Theorems

* `deduped_spec`: The contract holds of the store a run leaves behind.
* `groups_deduped`: A second run finds no group.
* `dedupeEntityIds_error`: A failed run leaves the store as it was.
* `dedupeEntityIds_correct`: The command, in full.
-/

namespace Spelunk

open Lib (Sql SqlError)

open MemoryDb

variable [Sha256]

/-- What `memory dedupe` promises: `db'` is what a run leaves of `db`. -/
structure Deduped (db db' : MemoryDb) : Prop where
  /-- One row for each identity. -/
  one_each : (db'.notes.map (·.contentId)).Nodup
  /-- No identity is lost, and none is invented. -/
  same_entities : ∀ e, (∃ r' ∈ db'.notes, r'.contentId = e) ↔ ∃ r ∈ db.notes, r.contentId = e
  /-- A kept row is the oldest of its identity. -/
  oldest : ∀ r' ∈ db'.notes, ∃ r ∈ db.notes, r.id = r'.id ∧ r.createdAt = r'.createdAt ∧
    r.contentId = r'.contentId ∧ ∀ x ∈ db.notes, x.contentId = r'.contentId → olderRow r x
  tags : ∀ r' ∈ db'.notes, ∀ t, t ∈ splitCsv r'.tags ↔
    ∃ r ∈ db.notes, r.contentId = r'.contentId ∧ t ∈ splitCsv r.tags
  linkedFiles : ∀ r' ∈ db'.notes, ∀ t, t ∈ splitCsv r'.linkedFiles ↔
    ∃ r ∈ db.notes, r.contentId = r'.contentId ∧ t ∈ splitCsv r.linkedFiles
  archived : ∀ r' ∈ db'.notes, r'.status = "archived" ↔
    ∃ r ∈ db.notes, r.contentId = r'.contentId ∧ r.status = "archived"
  /-- No successor and no end of an edge is a deleted row. -/
  foreignKeys : db'.ForeignKeysOk
  /-- A row alone in its identity is as it was, but for a link to a row of
      another identity, which leads to the row kept of that one. -/
  outside : ∀ r ∈ db.notes, (∀ x ∈ db.notes, x.contentId = r.contentId → x = r) →
    ∃ v', { r with supersededBy := v' } ∈ db'.notes ∧ (r.supersededBy = none → v' = none) ∧
      ∀ x ∈ db.notes, r.supersededBy = some x.id →
        ∃ y ∈ db'.notes, y.contentId = x.contentId ∧ v' = some y.id
  /-- Only a row that pointed at itself before does so after. -/
  no_new_self_link : ∀ r' ∈ db'.notes, r'.supersededBy = some r'.id →
    ∃ r ∈ db.notes, r.id = r'.id ∧ r.supersededBy = some r.id

variable {db : MemoryDb}

/-- Two kept rows of one identity are one row. -/
theorem kept_unique (hu : db.UniqueOk) {r x : NoteRow} (hr : r ∈ db.notes) (hx : x ∈ db.notes)
    (hrk : r.id ∉ loserIds db.groups) (hxk : x.id ∉ loserIds db.groups)
    (he : r.contentId = x.contentId) : r = x := by
  rcases kept_cases hu hr hrk with ⟨g, hg, hnote, _⟩ | ⟨halone, _⟩
  · have hmem : rowToNote x ∈ g.members :=
      (rowToNote_mem_members_iff hg hx).mpr (by rw [← he, ← hnote]; rfl)
    rcases List.mem_cons.mp hmem with h | h
    · have hid : (rowToNote r).id = (rowToNote x).id := by rw [hnote, h]
      exact eq_of_id_eq hu hr hx hid
    · exact absurd (mem_loserIds.mpr ⟨g, hg, _, h, rfl⟩) hxk
  · exact (halone x hx he.symm).symm

/-- The status of a survivor's row: archived when a row of its group is. -/
theorem status_survivorRow (hstatus : db.StatusOk) {g : DuplicateGroup} (hg : g ∈ db.groups)
    {r : NoteRow} (hr : r ∈ db.notes) (hnote : rowToNote r = g.survivor) :
    (survivorRow (loserToSurvivor db.groups) g r).status = "archived" ↔
      ∃ x ∈ db.notes, x.contentId = r.contentId ∧ x.status = "archived" := by
  have hany : g.members.any (fun n => n.status = "archived") = true ↔
      ∃ x ∈ db.notes, x.contentId = r.contentId ∧ x.status = "archived" := by
    rw [List.any_eq_true]
    constructor
    · rintro ⟨n, hn, hs⟩
      rcases (mem_members_iff hg n).mp hn with ⟨hsnap, he⟩
      rcases mem_snapshot.mp hsnap with ⟨x, hx, rfl⟩
      exact ⟨x, hx, by rw [← noteEntityId_rowToNote x, he, ← hnote]; rfl, of_decide_eq_true hs⟩
    · rintro ⟨x, hx, he, hs⟩
      exact ⟨rowToNote x, (rowToNote_mem_members_iff hg hx).mpr (by rw [he, ← hnote]; rfl),
        decide_eq_true hs⟩
  rw [← hany]
  simp only [survivorRow, archivedRow]
  by_cases harch : g.members.any (fun n => n.status = "archived") = true
  · rw [if_pos harch]
    refine ⟨fun _ => harch, fun _ => ?_⟩
    simp only [archiveRow, status_mergedRow]
    rcases hstatus r hr with h | h
    · rw [if_pos h]
    · rw [h]
      rfl
  · rw [if_neg harch, status_mergedRow]
    exact ⟨fun h => absurd (hany.mpr ⟨r, hr, rfl, h⟩) harch, fun h => absurd h harch⟩

theorem uniqueOk_deduped (hu : db.UniqueOk) : db.deduped.UniqueOk := by
  have hdb : ({ db with notes := db.notes.map (dedupedRow db.groups) } : MemoryDb)
      = db.updateRows (fun _ => true) (dedupedRow db.groups) := by
    simp only [updateRows, if_true]
  rw [deduped, hdb]
  exact (hu.updateRows _ (keepsIndexed_dedupedRow db.groups)).without _

/-- The contract holds of the store a run leaves behind. -/
theorem deduped_spec (hs : db.SchemaOk) (hstatus : db.StatusOk) : Deduped db db.deduped := by
  have hu := hs.unique
  have hfk := hs.foreignKeys
  have hids := nodup_snapshot_ids hu
  constructor
  case one_each =>
    have hnodup : db.deduped.notes.Nodup := (uniqueOk_deduped hu).1.of_map _
    refine hnodup.map_on (fun a ha b hb he => ?_)
    rcases mem_deduped_notes.mp ha with ⟨r, hr, hrk, rfl⟩
    rcases mem_deduped_notes.mp hb with ⟨x, hx, hxk, rfl⟩
    rw [contentId_dedupedRow, contentId_dedupedRow] at he
    rw [kept_unique hu hr hx hrk hxk he]
  case same_entities =>
    intro e
    constructor
    · rintro ⟨r', hr', rfl⟩
      rcases mem_deduped_notes.mp hr' with ⟨r, hr, _, rfl⟩
      exact ⟨r, hr, (contentId_dedupedRow _ r).symm⟩
    · rintro ⟨x, hx, rfl⟩
      rcases exists_kept hu hx with ⟨r, hr, hrk, he, _⟩
      exact ⟨_, mem_deduped_notes.mpr ⟨r, hr, hrk, rfl⟩, (contentId_dedupedRow _ r).trans he⟩
  case oldest =>
    intro r' hr'
    rcases mem_deduped_notes.mp hr' with ⟨r, hr, hrk, rfl⟩
    refine ⟨r, hr, (id_dedupedRow _ r).symm, (createdAt_dedupedRow _ r).symm,
      (contentId_dedupedRow _ r).symm, fun x hx he => ?_⟩
    rw [contentId_dedupedRow] at he
    rcases kept_cases hu hr hrk with ⟨g, hg, hnote, _⟩ | ⟨halone, _⟩
    · exact survivor_older hg hnote
        ((rowToNote_mem_members_iff hg hx).mpr (by rw [he, ← hnote]; rfl))
    · rw [halone x hx he]
      exact Or.inr ⟨rfl, le_refl _⟩
  case tags =>
    intro r' hr' t
    rcases mem_deduped_notes.mp hr' with ⟨r, hr, hrk, rfl⟩
    rw [contentId_dedupedRow]
    rcases kept_cases hu hr hrk with ⟨g, hg, hnote, hrow⟩ | ⟨halone, hrow⟩
    · rw [hrow, (survivorRow_columns _ g r).2.2.1]
      exact (mem_mergedRow_column hg hnote t).1
    · rw [hrow]
      exact ⟨fun ht => ⟨r, hr, rfl, ht⟩, fun ⟨x, hx, he, ht⟩ => halone x hx he ▸ ht⟩
  case linkedFiles =>
    intro r' hr' t
    rcases mem_deduped_notes.mp hr' with ⟨r, hr, hrk, rfl⟩
    rw [contentId_dedupedRow]
    rcases kept_cases hu hr hrk with ⟨g, hg, hnote, hrow⟩ | ⟨halone, hrow⟩
    · rw [hrow, (survivorRow_columns _ g r).2.2.2]
      exact (mem_mergedRow_column hg hnote t).2
    · rw [hrow]
      exact ⟨fun ht => ⟨r, hr, rfl, ht⟩, fun ⟨x, hx, he, ht⟩ => halone x hx he ▸ ht⟩
  case archived =>
    intro r' hr'
    rcases mem_deduped_notes.mp hr' with ⟨r, hr, hrk, rfl⟩
    rw [contentId_dedupedRow]
    rcases kept_cases hu hr hrk with ⟨g, hg, hnote, hrow⟩ | ⟨halone, hrow⟩
    · rw [hrow]
      exact status_survivorRow hstatus hg hr hnote
    · rw [hrow]
      exact ⟨fun h => ⟨r, hr, rfl, h⟩, fun ⟨x, hx, he, h⟩ => halone x hx he ▸ h⟩
  case foreignKeys =>
    have hd : ∀ r, (dedupedRow db.groups r).id = r.id := id_dedupedRow db.groups
    have hfk' : ({ db with notes := db.notes.map (dedupedRow db.groups) } :
        MemoryDb).ForeignKeysOk := by
      have hdb : ({ db with notes := db.notes.map (dedupedRow db.groups) } : MemoryDb)
          = db.updateRows (fun _ => true) (dedupedRow db.groups) := by
        simp only [updateRows, if_true]
      rw [hdb]
      exact hfk.updateRows _ hd
        (fun r hr _ v hv => (dedupedRow_supersededBy_mem hu hfk hr hv).1)
    refine hfk'.without (fun n hn v hv => ?_)
    rcases List.mem_map.mp hn with ⟨r, hr, rfl⟩
    exact (dedupedRow_supersededBy_mem hu hfk hr hv).2
  case outside =>
    intro r hr halone
    have hrk : r.id ∉ loserIds db.groups := by
      -- The row kept of its identity can only be the row itself.
      rcases exists_kept hu hr with ⟨x, hx, hxk, he, _⟩
      exact halone x hx he ▸ hxk
    have hrow : dedupedRow db.groups r = redirectRow (loserToSurvivor db.groups) r := by
      rcases kept_cases hu hr hrk with ⟨g, hg, hnote, _⟩ | ⟨_, hrow⟩
      · -- A group has a second row of the identity.
        rcases hl : g.losers with _ | ⟨l, losers⟩
        · exact absurd hl ((mem_duplicateGroups_iff g).mp hg).1
        have hlmem : l ∈ g.losers := hl ▸ List.mem_cons_self
        rcases loser_mem hg hlmem with ⟨hlsnap, hle⟩
        rcases mem_snapshot.mp hlsnap with ⟨x, hx, rfl⟩
        have hxr := halone x hx (by rw [← noteEntityId_rowToNote x, hle, ← hnote]; rfl)
        exact absurd (mem_loserIds.mpr ⟨g, hg, _, hlmem, by rw [hxr]; rfl⟩) hrk
      · exact hrow
    refine ⟨(redirectRow (loserToSurvivor db.groups) r).supersededBy,
      mem_deduped_notes.mpr ⟨r, hr, hrk, by rw [hrow]; rfl⟩, fun hnone => ?_, fun x hx hv => ?_⟩
    · rw [redirectRow, hnone]
      rfl
    · rcases exists_kept hu hx with ⟨y, hy, hyk, he, hyid⟩
      refine ⟨_, mem_deduped_notes.mpr ⟨y, hy, hyk, rfl⟩, (contentId_dedupedRow _ y).trans he, ?_⟩
      rw [redirectRow, hv, Option.map_some, id_dedupedRow, hyid]
  case no_new_self_link =>
    intro r' hr' hself
    rcases mem_deduped_notes.mp hr' with ⟨r, hr, hrk, rfl⟩
    rw [id_dedupedRow] at hself ⊢
    refine ⟨r, hr, rfl, ?_⟩
    rcases kept_cases hu hr hrk with ⟨g, hg, hnote, hrow⟩ | ⟨halone, hrow⟩
    · rw [hrow] at hself
      have hne := (survivorTarget_mem hu hfk hg hself).2.2
      exact absurd (by rw [← hnote]; rfl) hne
    · rw [hrow] at hself
      rcases Option.map_eq_some_iff.mp hself with ⟨v, hv, htarget⟩
      rcases hl : (loserToSurvivor db.groups).lookup v with _ | t
      · rw [hl] at htarget
        exact htarget ▸ hv
      · -- A redirected link leads to a survivor, and this row is none.
        rcases (lookup_loserToSurvivor_eq_some_iff hids v t).mp hl with ⟨g, hg, ht, n, hn, _⟩
        rw [hl] at htarget
        rcases exists_row_of_mem_snapshot hu (survivor_mem hg) with ⟨s, hs, hnote, _⟩
        have hsr : s = r := eq_of_id_eq hu hs hr (by
          rw [← htarget, Option.getD_some, ← ht, ← hnote]
          rfl)
        rcases loser_mem hg hn with ⟨hnsnap, hne⟩
        rcases mem_snapshot.mp hnsnap with ⟨x, hx, rfl⟩
        have hxr := halone x hx (by rw [← noteEntityId_rowToNote x, hne, ← hnote, hsr]; rfl)
        exact absurd (mem_loserIds.mpr ⟨g, hg, _, hn, by rw [hxr]; rfl⟩) hrk

/-- A store with one row for each identity has no group. -/
theorem groups_eq_nil (hu : db.UniqueOk) (h : (db.notes.map (·.contentId)).Nodup) :
    db.groups = [] := by
  rw [List.eq_nil_iff_forall_not_mem]
  intro g hg
  have hids := nodup_snapshot_ids hu
  rcases hl : g.losers with _ | ⟨l, losers⟩
  · exact absurd hl ((mem_duplicateGroups_iff g).mp hg).1
  have hlmem : l ∈ g.losers := hl ▸ List.mem_cons_self
  rcases mem_snapshot.mp (survivor_mem hg) with ⟨s, hs, hsnote⟩
  rcases loser_mem hg hlmem with ⟨hlsnap, hle⟩
  rcases mem_snapshot.mp hlsnap with ⟨x, hx, rfl⟩
  have hsx : s = x := List.inj_on_of_nodup_map h hs hx (by
    rw [← noteEntityId_rowToNote, ← noteEntityId_rowToNote, hle, hsnote])
  refine survivor_notMem_loserIds hids hg (mem_loserIds.mpr ⟨g, hg, _, hlmem, ?_⟩)
  rw [← hsnote, hsx]

/-- Without a group, nothing is left to change. -/
theorem deduped_of_groups_eq_nil (h : db.groups = []) : db.deduped = db := by
  have hrow : ∀ r : NoteRow, dedupedRow [] r = r := by
    intro r
    apply NoteRow.ext
    case supersededBy =>
      show r.supersededBy.map _ = r.supersededBy
      rcases r.supersededBy with _ | v <;> rfl
    all_goals rfl
  rw [deduped, h, List.map_congr_left (fun r _ => hrow r), List.map_id']
  exact without_nil db

/-- The command, unless a fault stops it. -/
theorem serves_dedupeEntityIds (hu : db.UniqueOk) (hfk : db.ForeignKeysOk) :
    Sql.Serves (fun s => s = db) (dedupeEntityIds false) (fun _ s => s = db.deduped) := by
  refine Sql.Serves.bind serves_allNotesForDedup (fun all => Sql.Serves.of_pre (fun hall => ?_))
  subst hall
  simp only [Sql.pure_eq]
  split
  · next hnil =>
    exact Sql.Serves.ok _ (fun s hs => hs.trans (deduped_of_groups_eq_nil hnil).symm)
  · rw [if_neg Bool.false_ne_true]
    exact Sql.Serves.transaction (serves_applyDedupe hu hfk (List.Perm.refl _)
      (fun _ => Iff.rfl) _)

/-- A run that fails, at whatever statement, leaves the store as it was. -/
theorem dedupeEntityIds_error (c : Lib.Conn MemoryDb) (e : SqlError)
    (h : (dedupeEntityIds false c).1 = .error e) : (dedupeEntityIds false c).2.db = c.db := by
  have hread : (allNotesForDedup c).2.db = c.db :=
    Sql.Keeps.query (I := fun s => s = c.db) _ c rfl
  have hrun : dedupeEntityIds false c = (allNotesForDedup.andThen (fun all =>
      if duplicateGroups all = [] then Sql.ok _ else Sql.transaction (applyDedupe all _ _ _ _))) c :=
    rfl
  rw [hrun] at h ⊢
  rcases hall : allNotesForDedup c with ⟨r, c'⟩
  rw [hall] at hread
  cases r with
  | error e' =>
      simp only [Sql.andThen, hall]
      exact hread
  | ok all =>
      simp only [Sql.andThen, hall] at h ⊢
      split at h
      · exact absurd h (by simp [Sql.ok])
      · next hne =>
        rw [if_neg hne, Sql.transaction_undone _ _ _ h]
        exact hread

/-- Everything a run of the command does to the store `db`, of which it makes
    `db'`. -/
structure DedupeRun (db db' : MemoryDb) : Prop where
  answers : ∃ summary, dedupeEntityIds false ⟨db, none⟩ = (.ok summary, ⟨db', none⟩)
  contract : Deduped db db'
  /-- A second run changes nothing. -/
  again : ∃ summary, dedupeEntityIds false ⟨db', none⟩ = (.ok summary, ⟨db', none⟩)
  /-- No delete is refused, and the outcome is the same, whatever the order in
      which groups are collapsed and losers deleted. -/
  any_order : ∀ order doomed summary, order.Perm db.groups → doomed.Perm (loserIds db.groups) →
    ∃ summary', Sql.transaction (applyDedupe db.snapshot db.groups order doomed summary) ⟨db, none⟩
      = (.ok summary', ⟨db', none⟩)
  /-- Whichever statement fails, the run either completed or left no trace. -/
  faults : ∀ fault, ((dedupeEntityIds false ⟨db, fault⟩).2.db = db' ∧
      ∃ summary, (dedupeEntityIds false ⟨db, fault⟩).1 = .ok summary) ∨
    ((dedupeEntityIds false ⟨db, fault⟩).2.db = db ∧
      ∃ e, (dedupeEntityIds false ⟨db, fault⟩).1 = .error e)

/-- Three copies of one entry, two of them superseding each other, and a fourth
    row that points at a doomed copy. -/
def twinStore : MemoryDb where
  notes :=
    [{ @newRow workedSha256 "decision" "HTTP layer" "use axum" 20 with
        id := 1, tags := some "api", status := "archived", supersededBy := some 2 },
      { @newRow workedSha256 "decision" "HTTP layer" "use axum" 10 with
        id := 2, tags := some "storage, api", status := "archived", supersededBy := some 1 },
      { @newRow workedSha256 "decision" "HTTP layer" "use axum" 20 with
        id := 3, linkedFiles := some "a.rs", status := "archived", supersededBy := some 4 },
      { @newRow workedSha256 "note" "Router" "axum routers" 30 with
        id := 4, status := "archived", supersededBy := some 1 }]
  edges := [⟨2, 1, .supersedes, 20⟩, ⟨4, 1, .relatesTo, 30⟩]
  embeddings := []
  nextId := 5
  entityIdUnique := false

end Spelunk
