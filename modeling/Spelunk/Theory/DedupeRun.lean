import Spelunk.Theory.DedupeGroups
import Spelunk.Theory.NoteSpecs

/-!
# A Dedupe Run

The transaction of `memory dedupe`, phase by phase. Phases 1 and 2 rewrite rows
in place, each row at most once, so the store after any part of them is the old
one with a fixed function applied to the rows done so far (`MemoryDb.mapIds`);
phase 3 filters. That is what makes the order of groups and of losers immaterial, and
what lets every delete pass the foreign key: when the first loser goes, no row
points at any loser.

## Main definitions

* `survivorRow`: A survivor's row after phase 1.
* `redirectRow`: Any other row after phase 2.
* `MemoryDb.without`: A store without some of its rows.

## Theorems

* `serves_collapseGroupSurvivor`: One group of phase 1.
* `serves_deleteLoser`: One loser of phase 3.
-/

namespace Spelunk

open Lib (Sql SqlError)

open MemoryDb

/-- The successor of a survivor: the first of its group that leads out of it. -/
def survivorTarget (losers : List (Nat × Nat)) (g : DuplicateGroup) : Option Nat :=
  (g.members.filterMap
    (fun n => n.supersededBy.bind (resolveSuccessor losers g.survivor.id))).head?

/-- A survivor's row with the tags and files of its group. -/
def mergedRow (g : DuplicateGroup) (r : NoteRow) : NoteRow :=
  let newTags := newMembers g.survivor.tags (g.losers.map (·.tags))
  let newFiles := newMembers g.survivor.linkedFiles (g.losers.map (·.linkedFiles))
  if newTags ≠ [] ∨ newFiles ≠ [] then unionRow newTags newFiles r else r

/-- That row, archived when a row of the group is. -/
def archivedRow (g : DuplicateGroup) (r : NoteRow) : NoteRow :=
  if g.members.any (fun n => n.status = "archived") then archiveRow (mergedRow g r)
  else mergedRow g r

/-- A survivor's row with everything its group knows. -/
def survivorRow (losers : List (Nat × Nat)) (g : DuplicateGroup) (r : NoteRow) : NoteRow :=
  { archivedRow g r with supersededBy := survivorTarget losers g }

/-- A row with its successor redirected from a loser to the loser's survivor. -/
def redirectRow (losers : List (Nat × Nat)) (r : NoteRow) : NoteRow :=
  { r with supersededBy := r.supersededBy.map (fun v => (losers.lookup v).getD v) }

section Rows

theorem keepsIndexed_ite (b : Prop) [Decidable b] {f : NoteRow → NoteRow} (hf : KeepsIndexed f) :
    KeepsIndexed (fun r => if b then f r else r) := by
  by_cases hb : b
  · simpa only [if_pos hb] using hf
  · simp only [if_neg hb]
    exact ⟨fun _ => rfl, fun _ => rfl, fun _ => rfl, fun _ => rfl⟩

theorem keepsIndexed_mergedRow (g : DuplicateGroup) : KeepsIndexed (mergedRow g) :=
  keepsIndexed_ite _ (keepsIndexed_unionRow _ _)

theorem supersededBy_mergedRow (g : DuplicateGroup) (r : NoteRow) :
    (mergedRow g r).supersededBy = r.supersededBy := by
  simp only [mergedRow]
  split <;> rfl

theorem status_mergedRow (g : DuplicateGroup) (r : NoteRow) :
    (mergedRow g r).status = r.status := by
  simp only [mergedRow]
  split <;> rfl

theorem keepsIndexed_archivedRow (g : DuplicateGroup) : KeepsIndexed (archivedRow g) := by
  have hm := keepsIndexed_mergedRow g
  unfold archivedRow
  split
  · exact ⟨hm.id, hm.uuid, hm.remoteId, hm.entityId⟩
  · exact hm

theorem supersededBy_archivedRow (g : DuplicateGroup) (r : NoteRow) :
    (archivedRow g r).supersededBy = r.supersededBy := by
  rw [archivedRow]
  split <;> exact supersededBy_mergedRow g r

theorem keepsIndexed_survivorRow (losers : List (Nat × Nat)) (g : DuplicateGroup) :
    KeepsIndexed (survivorRow losers g) :=
  have ha := keepsIndexed_archivedRow g
  ⟨ha.id, ha.uuid, ha.remoteId, ha.entityId⟩

end Rows

section Collapse

variable {live : MemoryDb}

/-- Phase 1, one group, on a store whose survivor row is as in the snapshot. -/
theorem serves_collapseGroupSurvivor (hu : live.UniqueOk) (hfk : live.ForeignKeysOk)
    {g : DuplicateGroup} {r : NoteRow} (hr : r ∈ live.notes) (hnote : rowToNote r = g.survivor)
    (losers : List (Nat × Nat)) (htarget : ∀ v ∈ survivorTarget losers g, v ∈ live.ids)
    (summary : DedupeSummary) :
    Sql.Serves (fun s => s = live) (collapseGroupSurvivor g losers summary true)
      (fun _ s => s = live.updateRows (fun x => x.id = g.survivor.id) (survivorRow losers g)) := by
  have hid : g.survivor.id = r.id := by rw [← hnote]; rfl
  have honly : ∀ x ∈ live.notes, decide (x.id = g.survivor.id) = true → x = r := fun x hx h =>
    eq_of_id_eq hu hx hr ((of_decide_eq_true h).trans hid)
  have hm := keepsIndexed_mergedRow g
  simp only [collapseGroupSurvivor, not_true_eq_false, if_false, Sql.bind_eq, Sql.pure_eq]
  -- Tags and files.
  refine Sql.Serves.bind (Q := fun _ s => s = live.updateRows (fun x => x.id = g.survivor.id)
    (mergedRow g)) (Sql.Serves.whenever (fun hnew => ?_) (fun hnew s hs => ?_)) (fun _ => ?_)
  · rw [hid]
    refine Sql.Serves.mono (serves_unionTagsAndFiles hu hfk hr _ _) (fun s hs => hs) ?_
    rintro _ s rfl
    exact updateRows_congr (fun x _ _ => by simp only [mergedRow, if_pos hnew])
  · rw [hs, updateRows_eq_self (fun x _ _ => by simp only [mergedRow, if_neg hnew])]
  -- Archival.
  have hu₁ := hu.updateRows (fun x => x.id = g.survivor.id) hm
  have hfk₁ := hfk.updateRows (fun x => x.id = g.survivor.id) hm.id (fun x hx _ v hv =>
    hfk.1 x hx v (supersededBy_mergedRow g x ▸ hv))
  have ha := keepsIndexed_archivedRow g
  refine Sql.Serves.bind (Q := fun _ s => s = live.updateRows (fun x => x.id = g.survivor.id)
    (archivedRow g)) (Sql.Serves.whenever (fun harch => ?_) (fun harch s hs => ?_)) (fun _ => ?_)
  · refine Sql.Serves.mono (serves_archive hu₁ hfk₁ _) (fun s hs => hs) ?_
    rintro _ s rfl
    rw [updateRows_updateRows live g.survivor.id hm.id]
    exact updateRows_congr (fun x _ _ => by rw [archivedRow, if_pos harch])
  · rw [hs]
    exact updateRows_congr (fun x _ _ => by rw [archivedRow, if_neg harch])
  -- The successor.
  have hu₂ := hu.updateRows (fun x => x.id = g.survivor.id) ha
  have hfk₂ := hfk.updateRows (fun x => x.id = g.survivor.id) ha.id (fun x hx _ v hv =>
    hfk.1 x hx v (supersededBy_archivedRow g x ▸ hv))
  have hsurvivor : g.survivor.supersededBy = r.supersededBy := by rw [← hnote]; rfl
  have hfinal : ∀ s, s = live.updateRows (fun x => x.id = g.survivor.id) (archivedRow g) →
      g.survivor.supersededBy = survivorTarget losers g →
      s = live.updateRows (fun x => x.id = g.survivor.id) (survivorRow losers g) := by
    rintro s rfl hsame
    refine updateRows_congr (fun x hx hxid => ?_)
    rw [honly x hx hxid, survivorRow, ← hsame, hsurvivor, ← supersededBy_archivedRow g r]
  have hdone : ∀ (m : Sql MemoryDb Unit) (summary : DedupeSummary),
      Sql.Serves (fun s => s = live.updateRows (fun x => x.id = g.survivor.id) (archivedRow g)) m
        (fun _ s => s = live.updateRows (fun x => x.id = g.survivor.id) (survivorRow losers g)) →
      Sql.Serves (fun s => s = live.updateRows (fun x => x.id = g.survivor.id) (archivedRow g))
        (m.andThen (fun _ => Sql.ok summary))
        (fun _ s => s = live.updateRows (fun x => x.id = g.survivor.id) (survivorRow losers g)) :=
    fun m summary h => Sql.Serves.bind h (fun _ => Sql.Serves.ok _ (fun _ hs => hs))
  rw [show (g.members.filterMap fun n => n.supersededBy.bind
    (resolveSuccessor losers g.survivor.id)).head? = survivorTarget losers g from rfl]
  rcases ht : survivorTarget losers g with _ | val
  · refine hdone _ _ (Sql.Serves.whenever (fun _ => ?_) (fun hnone s hs => ?_))
    · refine Sql.Serves.mono (serves_clearSupersededBy hu₂ hfk₂ _) (fun s hs => hs) ?_
      rintro _ s rfl
      rw [updateRows_updateRows live g.survivor.id ha.id]
      exact updateRows_congr (fun x _ _ => by rw [survivorRow, ht])
    · refine hfinal s hs ?_
      rw [ht]
      exact Option.not_isSome_iff_eq_none.mp hnone
  · have hval : val ∈ (live.updateRows (fun x => x.id = g.survivor.id) (archivedRow g)).ids := by
      rw [ids_updateRows live _ ha.id]
      exact htarget val ht
    refine hdone _ _ (Sql.Serves.whenever (fun _ => ?_) (fun hsame s hs => ?_))
    · refine Sql.Serves.mono (serves_setSupersededBy hu₂ hfk₂ _ hval) (fun s hs => hs) ?_
      rintro _ s rfl
      rw [updateRows_updateRows live g.survivor.id ha.id]
      exact updateRows_congr (fun x _ _ => by rw [survivorRow, ht])
    · exact hfinal s hs ((not_not.mp hsame).trans ht.symm)

end Collapse

/-- A store without the given rows, their edges and their vectors. -/
def MemoryDb.without (db : MemoryDb) (gone : List Nat) : MemoryDb :=
  { db with
    notes := db.notes.filter (fun r => r.id ∉ gone)
    edges := db.edges.filter (fun e => e.fromId ∉ gone ∧ e.toId ∉ gone)
    embeddings := db.embeddings.filter (fun e => e.1 ∉ gone) }

section Without

variable {db : MemoryDb}

theorem without_nil (db : MemoryDb) : db.without [] = db := by
  simp [without]

theorem without_congr (db : MemoryDb) {gone gone' : List Nat} (h : ∀ v, v ∈ gone ↔ v ∈ gone') :
    db.without gone = db.without gone' := by
  simp only [without, h]

theorem mem_ids_without {gone : List Nat} {v : Nat} :
    v ∈ (db.without gone).ids ↔ v ∈ db.ids ∧ v ∉ gone := by
  simp only [ids, without, List.mem_map, List.mem_filter, decide_eq_true_eq]
  constructor
  · rintro ⟨r, ⟨hr, hgone⟩, rfl⟩
    exact ⟨⟨r, hr, rfl⟩, hgone⟩
  · rintro ⟨⟨r, hr, rfl⟩, hgone⟩
    exact ⟨r, ⟨hr, hgone⟩, rfl⟩

theorem MemoryDb.UniqueOk.without (hu : db.UniqueOk) (gone : List Nat) : (db.without gone).UniqueOk := by
  have hsub : (db.without gone).notes.Sublist db.notes := List.filter_sublist
  exact ⟨hu.1.sublist (hsub.map _), hu.2.1.sublist (hsub.filterMap _),
    hu.2.2.1.sublist (hsub.filterMap _), fun h => (hu.2.2.2 h).sublist (hsub.filterMap _)⟩

/-- Rows may go when no row points at them. -/
theorem MemoryDb.ForeignKeysOk.without (hfk : db.ForeignKeysOk) {gone : List Nat}
    (hfree : ∀ n ∈ db.notes, ∀ v ∈ n.supersededBy, v ∉ gone) :
    (db.without gone).ForeignKeysOk := by
  constructor
  · intro n hn v hv
    have hmem := List.mem_of_mem_filter hn
    exact mem_ids_without.mpr ⟨hfk.1 n hmem v hv, hfree n hmem v hv⟩
  · intro e he
    rcases List.mem_filter.mp he with ⟨hmem, hgone⟩
    rw [decide_eq_true_eq] at hgone
    exact ⟨mem_ids_without.mpr ⟨(hfk.2 e hmem).1, hgone.1⟩,
      mem_ids_without.mpr ⟨(hfk.2 e hmem).2, hgone.2⟩⟩

/-- Phase 3, one loser, when no row points at it or at those gone before. -/
theorem serves_deleteLoser (hu : db.UniqueOk) (hfk : db.ForeignKeysOk) {gone : List Nat} {x : Nat}
    (hfree : ∀ n ∈ db.notes, ∀ v ∈ n.supersededBy, v ∉ gone ++ [x]) :
    Sql.Serves (fun s => s = db.without gone) (deleteLoser x)
      (fun _ s => s = db.without (gone ++ [x])) := by
  have hsplit : ∀ v, v ∉ gone ++ [x] ↔ v ∉ gone ∧ v ≠ x := fun v => by
    rw [List.mem_append, List.mem_singleton, not_or]
  refine Sql.Serves.bind (Q := fun _ s => s = { db.without gone with
    embeddings := (db.without (gone ++ [x])).embeddings }) (Sql.Serves.execute ?_) (fun _ => ?_)
  · rintro s rfl
    refine ⟨_, rfl, ?_⟩
    simp only [without, List.filter_filter, hsplit]
    congr 2
    funext e
    simp [and_comm]
  refine Sql.Serves.bind (Q := fun _ s => s = { db.without (gone ++ [x]) with
    notes := (db.without gone).notes }) (Sql.Serves.execute ?_) (fun _ => ?_)
  · rintro s rfl
    refine ⟨_, rfl, ?_⟩
    simp only [without, List.filter_filter, hsplit]
    congr 2
    funext e
    by_cases h₁ : e.fromId = x <;> by_cases h₂ : e.toId = x <;> simp [h₁, h₂]
  · unfold deleteNote deleteNotes
    refine Sql.Serves.statement ?_
    rintro s rfl
    have hnext : ({ db.without (gone ++ [x]) with
        notes := (db.without gone).notes.filter (fun r => r.id ≠ x)
        edges := (db.without (gone ++ [x])).edges.filter
          (fun e => e.fromId ≠ x ∧ e.toId ≠ x) } : MemoryDb) = db.without (gone ++ [x]) := by
      simp only [without, List.filter_filter, hsplit]
      congr 2
      · funext r
        simp [and_comm]
      · funext e
        by_cases h₁ : e.fromId = x <;> by_cases h₂ : e.toId = x <;> simp [h₁, h₂]
    exact ⟨(), _, (congrArg (checked ()) hnext).trans
      (checked_eq_ok (hu.without _) (hfk.without hfree)), rfl⟩

end Without

end Spelunk
