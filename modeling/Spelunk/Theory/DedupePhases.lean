import Spelunk.Theory.DedupeRun

/-!
# The Phases of a Dedupe Run

The three loops of `memory dedupe` on a store that satisfies its schema, for
any order of groups and any order of losers, and the store they leave behind
in one expression (`MemoryDb.deduped`): losers gone, survivors with everything
their groups knew, every other row redirected.

## Main definitions

* `collapsedRow`: A row after phase 1.
* `dedupedRow`: A row after phase 2.
* `MemoryDb.deduped`: The store after phase 3.

## Theorems

* `serves_collapseGroups`: Phase 1 in any order of the groups.
* `serves_rewriteCrossReferences`: Phase 2.
* `serves_deleteLosers`: Phase 3 in any order of the losers.
* `serves_applyDedupe`: The whole run.
-/

namespace Spelunk

open Lib (Sql SqlError)

open MemoryDb

/-- A row after phase 1: survivors are collapsed onto, the others untouched. -/
def collapsedRow (groups : List DuplicateGroup) (r : NoteRow) : NoteRow :=
  match groups.find? (fun g => g.survivor.id = r.id) with
  | some g => survivorRow (loserToSurvivor groups) g r
  | none => r

/-- A row after phase 2: the others are redirected. -/
def dedupedRow (groups : List DuplicateGroup) (r : NoteRow) : NoteRow :=
  match groups.find? (fun g => g.survivor.id = r.id) with
  | some g => survivorRow (loserToSurvivor groups) g r
  | none => redirectRow (loserToSurvivor groups) r

/-- What phase 2 adds to phase 1. -/
def redirectedRow (groups : List DuplicateGroup) (r : NoteRow) : NoteRow :=
  if groups.any (fun g => g.survivor.id = r.id) then r
  else redirectRow (loserToSurvivor groups) r

theorem of_find?_survivor {groups : List DuplicateGroup} {id : Nat} {g : DuplicateGroup}
    (h : groups.find? (fun g => g.survivor.id = id) = some g) :
    g ∈ groups ∧ g.survivor.id = id := by
  have hid := List.find?_some h
  exact ⟨List.mem_of_find?_eq_some h, of_decide_eq_true hid⟩

theorem keepsIndexed_collapsedRow (groups : List DuplicateGroup) :
    KeepsIndexed (collapsedRow groups) := by
  refine ⟨fun r => ?_, fun r => ?_, fun r => ?_, fun r => ?_⟩
  all_goals
    rw [collapsedRow]
    split
  · exact (keepsIndexed_survivorRow _ _).id r
  · rfl
  · exact (keepsIndexed_survivorRow _ _).uuid r
  · rfl
  · exact (keepsIndexed_survivorRow _ _).remoteId r
  · rfl
  · exact (keepsIndexed_survivorRow _ _).entityId r
  · rfl

theorem keepsIndexed_redirectedRow (groups : List DuplicateGroup) :
    KeepsIndexed (redirectedRow groups) := by
  refine ⟨fun r => ?_, fun r => ?_, fun r => ?_, fun r => ?_⟩
  all_goals
    rw [redirectedRow]
    split <;> rfl

/-- Phase 2 after phase 1. -/
theorem redirectedRow_collapsedRow (groups : List DuplicateGroup) (r : NoteRow) :
    redirectedRow groups (collapsedRow groups r) = dedupedRow groups r := by
  have hid := (keepsIndexed_collapsedRow groups).id r
  rw [redirectedRow, hid, dedupedRow]
  rcases hf : groups.find? (fun g => g.survivor.id = r.id) with _ | g
  · have hany : groups.any (fun g => g.survivor.id = r.id) = false := by
      rw [List.any_eq_false]
      exact List.find?_eq_none.mp hf
    simp only [hany, Bool.false_eq_true, if_false, collapsedRow, hf]
  · have hany : groups.any (fun g => g.survivor.id = r.id) = true :=
      List.any_eq_true.mpr ⟨g, (of_find?_survivor hf).1, decide_eq_true (of_find?_survivor hf).2⟩
    simp only [hany, if_true, collapsedRow, hf]

theorem keepsIndexed_dedupedRow (groups : List DuplicateGroup) :
    KeepsIndexed (dedupedRow groups) := by
  have hc := keepsIndexed_collapsedRow groups
  have hr := keepsIndexed_redirectedRow groups
  refine ⟨fun r => ?_, fun r => ?_, fun r => ?_, fun r => ?_⟩
  all_goals rw [← redirectedRow_collapsedRow]
  · rw [hr.id, hc.id]
  · rw [hr.uuid, hc.uuid]
  · rw [hr.remoteId, hc.remoteId]
  · rw [hr.entityId, hc.entityId]

variable [Sha256] {db : MemoryDb}

/-- The groups of a store. -/
def MemoryDb.groups (db : MemoryDb) : List DuplicateGroup := duplicateGroups db.snapshot

/-- The store a run leaves behind. -/
def MemoryDb.deduped (db : MemoryDb) : MemoryDb :=
  ({ db with notes := db.notes.map (dedupedRow db.groups) } : MemoryDb).without
    (loserIds db.groups)

section Snapshot

variable (hu : db.UniqueOk)
include hu

/-- A group is found by the rowid of its survivor. -/
theorem find?_survivor_eq {g : DuplicateGroup} (hg : g ∈ db.groups) {id : Nat}
    (hid : g.survivor.id = id) :
    db.groups.find? (fun g' => g'.survivor.id = id) = some g := by
  rcases hf : db.groups.find? (fun g' => g'.survivor.id = id) with _ | g'
  · rw [List.find?_eq_none] at hf
    exact absurd (decide_eq_true hid) (hf g hg)
  · rcases of_find?_survivor hf with ⟨hg', hid'⟩
    rw [hf, group_eq_of_id_eq (nodup_snapshot_ids hu) hg' hg List.mem_cons_self
      List.mem_cons_self (hid'.trans hid.symm)]

omit [Sha256] in
/-- The row of a note of the snapshot. -/
theorem exists_row_of_mem_snapshot {n : Note} (hn : n ∈ db.snapshot) :
    ∃ r ∈ db.notes, rowToNote r = n ∧ ∀ x ∈ db.notes, x.id = n.id → x = r := by
  rcases mem_snapshot.mp hn with ⟨r, hr, rfl⟩
  exact ⟨r, hr, rfl, fun x hx hid => eq_of_id_eq hu hx hr hid⟩

/-- A survivor's successor is a row, and survives. -/
theorem survivorTarget_mem (hfk : db.ForeignKeysOk) {g : DuplicateGroup} (hg : g ∈ db.groups)
    {v : Nat} (hv : v ∈ survivorTarget (loserToSurvivor db.groups) g) :
    v ∈ db.ids ∧ v ∉ loserIds db.groups ∧ v ≠ g.survivor.id := by
  have hids := nodup_snapshot_ids hu
  rw [survivorTarget, Option.mem_def] at hv
  have hmem := List.mem_of_head? hv
  rw [List.mem_filterMap] at hmem
  rcases hmem with ⟨n, hn, hres⟩
  rcases Option.bind_eq_some_iff.mp hres with ⟨w, hw, htarget⟩
  rcases mem_snapshot.mp ((mem_members_iff hg n).mp hn).1 with ⟨r, hr, rfl⟩
  have hw' : w ∈ db.snapshot.map (·.id) :=
    (map_id_snapshot_perm db).mem_iff.mpr (hfk.1 r hr w hw)
  simp only [resolveSuccessor] at htarget
  split at htarget
  · exact absurd htarget (by simp)
  · next hne =>
    rw [Option.some.injEq] at htarget
    refine ⟨?_, ?_, htarget ▸ hne⟩
    · exact htarget ▸ (map_id_snapshot_perm db).mem_iff.mp (redirect_mem_ids hids hw')
    · exact htarget ▸ redirect_notMem_loserIds hids w

end Snapshot

section Phases

variable (hu : db.UniqueOk) (hfk : db.ForeignKeysOk)
include hu hfk

/-- A successor a collapsed row has is a row. -/
theorem collapsedRow_supersededBy_mem {r : NoteRow} (hr : r ∈ db.notes) {v : Nat}
    (hv : v ∈ (collapsedRow db.groups r).supersededBy) : v ∈ db.ids := by
  rw [collapsedRow] at hv
  split at hv
  · next g hfind => exact (survivorTarget_mem hu hfk (List.mem_of_find?_eq_some hfind) hv).1
  · exact hfk.1 r hr v hv

/-- Phase 1, in any order of the groups. -/
theorem serves_collapseGroups {order : List DuplicateGroup} (horder : order.Perm db.groups)
    (summary : DedupeSummary) :
    Sql.Serves (fun s => s = db)
      (Sql.foldEach order summary (fun summary group =>
        collapseGroupSurvivor group (loserToSurvivor db.groups) summary true))
      (fun _ s => s = { db with notes := db.notes.map (collapsedRow db.groups) }) := by
  have hc := keepsIndexed_collapsedRow db.groups
  have hnodup : (order.map (·.survivor.id)).Nodup :=
    (horder.map _).nodup_iff.mpr (nodup_survivorIds (nodup_snapshot_ids hu))
  refine Sql.Serves.mono (Sql.Serves.foldEach (I := fun done _ s =>
    s = db.mapIds (done.map (·.survivor.id)) (collapsedRow db.groups)) order summary ?_) ?_ ?_
  · intro done g rest summary hsplit
    have hg : g ∈ db.groups := horder.mem_iff.mp
      (hsplit ▸ List.mem_append_right _ List.mem_cons_self)
    rcases exists_row_of_mem_snapshot hu (survivor_mem hg) with ⟨r, hr, hnote, honly⟩
    have hid : r.id = g.survivor.id := by rw [← hnote]; rfl
    have hfresh : g.survivor.id ∉ done.map (·.survivor.id) := by
      rw [hsplit, List.map_append, List.map_cons] at hnodup
      exact fun h => (List.nodup_append.mp hnodup).2.2 _ h _ List.mem_cons_self rfl
    have hfk' : (db.mapIds (done.map (·.survivor.id)) (collapsedRow db.groups)).ForeignKeysOk :=
      hfk.updateRows _ hc.id (fun x hx _ v hv => collapsedRow_supersededBy_mem hu hfk hx hv)
    have htarget : ∀ v ∈ survivorTarget (loserToSurvivor db.groups) g,
        v ∈ (db.mapIds (done.map (·.survivor.id)) (collapsedRow db.groups)).ids := by
      intro v hv
      rw [mapIds, ids_updateRows db _ hc.id]
      exact (survivorTarget_mem hu hfk hg hv).1
    refine Sql.Serves.mono (serves_collapseGroupSurvivor (hu.updateRows _ hc) hfk'
      (mem_mapIds_of_notMem hr (hid ▸ hfresh)) hnote (loserToSurvivor db.groups) htarget summary)
      (fun s hs => hs) ?_
    rintro _ s rfl
    rw [List.map_append, List.map_singleton]
    refine updateRows_mapIds hc.id hfresh (fun x hx hxid => ?_)
    rw [collapsedRow, find?_survivor_eq hu hg hxid.symm]
  · rintro s rfl
    rw [List.map_nil, mapIds_nil]
  · rintro _ s rfl
    refine mapIds_eq_map (fun r _ hdone => ?_)
    rw [collapsedRow]
    split
    · next g hfind =>
      rcases of_find?_survivor hfind with ⟨hg, hid⟩
      exact absurd (List.mem_map.mpr ⟨g, horder.mem_iff.mpr hg, hid⟩) hdone
    · rfl

/-- Phase 2: every row that is not a survivor is redirected. -/
theorem serves_rewriteCrossReferences (summary : DedupeSummary) :
    Sql.Serves (fun s => s = { db with notes := db.notes.map (collapsedRow db.groups) })
      (Sql.foldEach db.snapshot summary
        (rewriteCrossReference db.groups (loserToSurvivor db.groups) true))
      (fun _ s => s = { db with notes := db.notes.map (dedupedRow db.groups) }) := by
  have hids := nodup_snapshot_ids hu
  have hc := keepsIndexed_collapsedRow db.groups
  have hr := keepsIndexed_redirectedRow db.groups
  -- The store phase 1 leaves, and what it satisfies.
  have hdb₁ : ({ db with notes := db.notes.map (collapsedRow db.groups) } : MemoryDb)
      = db.updateRows (fun _ => true) (collapsedRow db.groups) := by
    simp only [updateRows, if_true]
  generalize hgen : ({ db with notes := db.notes.map (collapsedRow db.groups) } : MemoryDb) = db₁
    at hdb₁ ⊢
  have hu₁ : db₁.UniqueOk := hdb₁ ▸ hu.updateRows _ hc
  have hfk₁ : db₁.ForeignKeysOk := hdb₁ ▸ hfk.updateRows _ hc.id
    (fun x hx _ v hv => collapsedRow_supersededBy_mem hu hfk hx hv)
  have hids₁ : db₁.ids = db.ids := hdb₁ ▸ ids_updateRows db _ hc.id
  -- A row of phase 1 whose id is no survivor's is the row of the snapshot.
  have hrow : ∀ n ∈ db.snapshot, (db.groups.any (fun g => g.survivor.id = n.id)) = false →
      ∀ x ∈ db₁.notes, x.id = n.id → rowToNote x = n := by
    intro n hn hany x hx hxid
    rw [← hgen] at hx
    rcases List.mem_map.mp hx with ⟨r, hr, rfl⟩
    rw [hc.id] at hxid
    rcases exists_row_of_mem_snapshot hu hn with ⟨r', _, hnote, honly⟩
    have hfind : db.groups.find? (fun g => g.survivor.id = r.id) = none := by
      rw [List.find?_eq_none, hxid]
      exact List.any_eq_false.mp hany
    rw [collapsedRow, hfind, honly r hr hxid]
    exact hnote
  have hredirect : ∀ v ∈ db.ids, ((loserToSurvivor db.groups).lookup v).getD v ∈ db.ids :=
    fun v hv => (map_id_snapshot_perm db).mem_iff.mp
      (redirect_mem_ids hids ((map_id_snapshot_perm db).mem_iff.mpr hv))
  have hfkr : ∀ done, (db₁.mapIds done (redirectedRow db.groups)).ForeignKeysOk := by
    intro done
    refine hfk₁.updateRows _ hr.id (fun x hx _ v hv => ?_)
    rw [redirectedRow] at hv
    split at hv
    · exact hfk₁.1 x hx v hv
    · rcases Option.map_eq_some_iff.mp hv with ⟨w, hw, rfl⟩
      rw [hids₁]
      exact hredirect w (hids₁ ▸ hfk₁.1 x hx w hw)
  refine Sql.Serves.mono (Sql.Serves.foldEach (I := fun done _ s =>
    s = db₁.mapIds (done.map (·.id)) (redirectedRow db.groups)) db.snapshot summary ?_) ?_ ?_
  · intro done n rest summary hsplit
    have hn : n ∈ db.snapshot := hsplit ▸ List.mem_append_right _ List.mem_cons_self
    have hfresh : n.id ∉ done.map (·.id) := by
      rw [hsplit, List.map_append, List.map_cons] at hids
      exact fun h => (List.nodup_append.mp hids).2.2 _ h _ List.mem_cons_self rfl
    rw [List.map_append, List.map_singleton]
    rw [rewriteCrossReference]
    split
    · next hsurvivor =>
      refine Sql.Serves.ok _ (fun s hs => hs.trans (mapIds_append_of_fixed (fun x _ hxid => ?_)).symm)
      rw [redirectedRow, hxid, if_pos hsurvivor]
    next hsurvivor =>
    rw [Bool.not_eq_true] at hsurvivor
    have hkeep : (∀ v ∈ n.supersededBy, ((loserToSurvivor db.groups).lookup v).getD v = v) →
        ∀ x ∈ db₁.notes, x.id = n.id → redirectedRow db.groups x = x := by
      intro hsame x hx hxid
      have hsb : x.supersededBy = n.supersededBy := by rw [← hrow n hn hsurvivor x hx hxid]; rfl
      rw [redirectedRow, hxid, hsurvivor, if_neg Bool.false_ne_true]
      apply NoteRow.ext
      case supersededBy =>
        rw [redirectRow, hsb]
        rcases hv : n.supersededBy with _ | v
        · rfl
        · rw [Option.map_some, hsame v hv]
      all_goals rfl
    split
    · next hnone =>
      refine Sql.Serves.ok _ (fun s hs => hs.trans (mapIds_append_of_fixed (hkeep ?_)).symm)
      intro v hv
      rw [hnone] at hv
      exact absurd hv (by simp)
    next v hv =>
    split
    · next hlookup =>
      refine Sql.Serves.ok _ (fun s hs => hs.trans (mapIds_append_of_fixed (hkeep ?_)).symm)
      intro w hw
      rw [hv, Option.mem_some_iff] at hw
      rw [← hw, hlookup]
      rfl
    · next target hlookup =>
      have htarget : target ∈ (db₁.mapIds (done.map (·.id)) (redirectedRow db.groups)).ids := by
        rw [mapIds, ids_updateRows db₁ _ hr.id, hids₁]
        rcases mem_snapshot.mp hn with ⟨r, hr, rfl⟩
        have := hredirect v (hfk.1 r hr v hv)
        rwa [hlookup] at this
      refine Sql.Serves.bind (Q := fun _ s => s = db₁.mapIds (done.map (·.id) ++ [n.id])
        (redirectedRow db.groups)) (Sql.Serves.whenever (fun _ => ?_) (fun h => absurd rfl h))
        (fun _ => Sql.Serves.ok _ (fun s hs => hs))
      refine Sql.Serves.mono (serves_setSupersededBy (hu₁.updateRows _ hr) (hfkr _) n.id htarget)
        (fun s hs => hs) ?_
      rintro _ s rfl
      refine updateRows_mapIds hr.id hfresh (fun x hx hxid => ?_)
      have hsb : x.supersededBy = some v := by rw [← hv, ← hrow n hn hsurvivor x hx hxid]; rfl
      have hnot : ¬ (db.groups.any (fun g => g.survivor.id = x.id)) = true := by
        rw [hxid, hsurvivor]
        exact Bool.false_ne_true
      rw [redirectedRow, if_neg hnot, redirectRow, hsb, Option.map_some, hlookup]
      rfl
  · rintro s rfl
    rw [List.map_nil, mapIds_nil]
  · rintro _ s rfl
    rw [mapIds_eq_map (fun r hr hdone => ?_), ← hgen]
    · simp only [List.map_map]
      congr 1
      exact List.map_congr_left (fun r _ => redirectedRow_collapsedRow db.groups r)
    · -- Every row has a note in the snapshot.
      refine absurd ?_ hdone
      rw [(map_id_snapshot_perm db).mem_iff, ← hids₁]
      exact List.mem_map_of_mem hr

/-- A row a run keeps or deletes points at a row that is kept. -/
theorem dedupedRow_supersededBy_mem {r : NoteRow} (hr : r ∈ db.notes) {v : Nat}
    (hv : v ∈ (dedupedRow db.groups r).supersededBy) : v ∈ db.ids ∧ v ∉ loserIds db.groups := by
  have hids := nodup_snapshot_ids hu
  rw [dedupedRow] at hv
  split at hv
  · next g hfind =>
    have h := survivorTarget_mem hu hfk (List.mem_of_find?_eq_some hfind) hv
    exact ⟨h.1, h.2.1⟩
  · rcases Option.map_eq_some_iff.mp hv with ⟨w, hw, rfl⟩
    refine ⟨?_, redirect_notMem_loserIds hids w⟩
    exact (map_id_snapshot_perm db).mem_iff.mp (redirect_mem_ids hids
      ((map_id_snapshot_perm db).mem_iff.mpr (hfk.1 r hr w hw)))

/-- Phase 3, in any order of the losers: no delete is refused. -/
theorem serves_deleteLosers {doomed : List Nat} (hdoomed : ∀ v, v ∈ doomed ↔ v ∈ loserIds db.groups) :
    Sql.Serves (fun s => s = { db with notes := db.notes.map (dedupedRow db.groups) })
      (Sql.forEach doomed deleteLoser) (fun _ s => s = db.deduped) := by
  have hd := keepsIndexed_dedupedRow db.groups
  have hdb₂ : ({ db with notes := db.notes.map (dedupedRow db.groups) } : MemoryDb)
      = db.updateRows (fun _ => true) (dedupedRow db.groups) := by
    simp only [updateRows, if_true]
  have hu₂ : ({ db with notes := db.notes.map (dedupedRow db.groups) } : MemoryDb).UniqueOk :=
    hdb₂ ▸ hu.updateRows _ hd
  have hfk₂ : ({ db with notes := db.notes.map (dedupedRow db.groups) } :
      MemoryDb).ForeignKeysOk :=
    hdb₂ ▸ hfk.updateRows _ hd.id (fun x hx _ v hv =>
      (dedupedRow_supersededBy_mem hu hfk hx hv).1)
  refine Sql.Serves.mono (Sql.Serves.forEach (I := fun done s =>
    s = ({ db with notes := db.notes.map (dedupedRow db.groups) } : MemoryDb).without done)
    doomed ?_) ?_ ?_
  · intro done x rest hsplit
    refine serves_deleteLoser hu₂ hfk₂ (fun n hn v hv hgone => ?_)
    rcases List.mem_map.mp hn with ⟨r, hr, rfl⟩
    refine (dedupedRow_supersededBy_mem hu hfk hr hv).2 ((hdoomed v).mp ?_)
    rw [hsplit, List.append_cons]
    exact List.mem_append_left _ hgone
  · rintro s rfl
    rw [without_nil]
  · rintro _ s rfl
    exact without_congr _ hdoomed

/-- The whole transaction, whatever the order of groups and losers. -/
theorem serves_applyDedupe {order : List DuplicateGroup} (horder : order.Perm db.groups)
    {doomed : List Nat} (hdoomed : ∀ v, v ∈ doomed ↔ v ∈ loserIds db.groups)
    (summary : DedupeSummary) :
    Sql.Serves (fun s => s = db) (applyDedupe db.snapshot db.groups order doomed summary)
      (fun _ s => s = db.deduped) :=
  Sql.Serves.bind (serves_collapseGroups hu hfk horder summary) (fun _ =>
    Sql.Serves.bind (serves_rewriteCrossReferences hu hfk _) (fun _ =>
      Sql.Serves.bind (serves_deleteLosers hu hfk hdoomed) (fun _ =>
        Sql.Serves.ok _ (fun _ hs => hs))))

end Phases

end Spelunk
