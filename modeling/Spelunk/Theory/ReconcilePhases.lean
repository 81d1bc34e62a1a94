import Spelunk.Theory.ImportRun

/-!
# The Phases of a Reconcile Run

The two phases of `memory reconcile` that rewrite rows, when the storage serves
them: merging the entries the store has into their rows, and setting the links
of the imported ones. As in a dedupe run, each touches a row at most once, so
it applies one fixed function.

## Main definitions

* `gainRow`: A row after the present entries are merged in.
* `linkRow`: A row after the links are set.
* `MemoryDb.localOf`: The rowid an identity is found under.

## Theorems

* `localOf_eq_some`, `localOf_eq_none_iff`: The oldest row of an identity.
* `answers_mergePresent`, `answers_linkImported`: The rewriting phases.
-/

namespace Spelunk

open Lib (Sql SqlError)

open MemoryDb

/-- A row after the entries `present` are merged in: it gains what the entry
    found under its rowid brings. -/
def gainRow (localOf : String → Option Nat) (present : List MergedNote) (r : NoteRow) : NoteRow :=
  match present.find? (fun m => localOf m.entityId = some r.id) with
  | some m => unionRow m.tags m.linkedFiles r
  | none => r

/-- A row after the links are set. -/
def linkRow (edges : List (String × String)) (localOf : String → Option Nat)
    (imported : List (MergedNote × Nat)) (r : NoteRow) : NoteRow :=
  match imported.find? (fun p => p.2 = r.id) with
  | some p => { r with supersededBy := ((successorLink edges localOf p.1 p.2).join).or r.supersededBy }
  | none => r

/-- When a link is set. -/
theorem join_successorLink_eq_some {edges : List (String × String)} {localOf : String → Option Nat}
    {m : MergedNote} {id v : Nat} :
    (successorLink edges localOf m id).join = some v ↔
      m.status = "archived" ∧ ∃ e, edges.lookup m.entityId = some e ∧ localOf e = some v ∧ v ≠ id := by
  rw [successorLink]
  by_cases hs : m.status = "archived"
  · rw [if_neg (not_not.mpr hs)]
    simp only [hs, true_and]
    rcases edges.lookup m.entityId with _ | e
    · simp
    · simp only [Option.some.injEq, exists_eq_left']
      rcases localOf e with _ | u
      · simp
      · by_cases hu : u = id
        · simp only [hu, if_true, Option.join_none, Option.some.injEq]
          constructor
          · intro h
            exact absurd h (by simp)
          · rintro ⟨rfl, h⟩
            exact absurd rfl h
        · simp only [if_neg hu, Option.join_some, Option.some.injEq]
          constructor
          · rintro rfl
            exact ⟨rfl, hu⟩
          · exact fun h => h.1
  · rw [if_pos hs]
    simp [hs]

theorem keepsIndexed_gainRow (localOf : String → Option Nat) (present : List MergedNote) :
    KeepsIndexed (gainRow localOf present) := by
  constructor
  all_goals
    intro r
    rw [gainRow]
    split <;> rfl

theorem keepsIndexed_linkRow (edges : List (String × String)) (localOf : String → Option Nat)
    (imported : List (MergedNote × Nat)) : KeepsIndexed (linkRow edges localOf imported) := by
  constructor
  all_goals
    intro r
    rw [linkRow]
    split <;> rfl

section Phases

variable {db : MemoryDb}

/-- Merging the present entries in. -/
theorem answers_mergePresent (hu : db.UniqueOk) (hfk : db.ForeignKeysOk)
    {localOf : String → Option Nat} {present : List MergedNote}
    (hrow : ∀ m ∈ present, ∀ id ∈ localOf m.entityId, id ∈ db.ids)
    (hnodup : (present.filterMap (fun m => localOf m.entityId)).Nodup) :
    Sql.Answers (fun s => s = db) (mergePresent localOf present)
      (fun _ s => s = { db with notes := db.notes.map (gainRow localOf present) }) := by
  have hg := keepsIndexed_gainRow localOf present
  refine Sql.Answers.mono (Sql.Answers.forEach (I := fun done s =>
    s = db.mapIds (done.filterMap (fun m => localOf m.entityId)) (gainRow localOf present))
    present ?_) ?_ ?_
  · intro done m rest hsplit
    have hm : m ∈ present := hsplit ▸ List.mem_append_right _ List.mem_cons_self
    have hone : [m].filterMap (fun m => localOf m.entityId) = (localOf m.entityId).toList := by
      rcases hl : localOf m.entityId with _ | id <;> simp [hl]
    rw [List.filterMap_append, hone]
    rcases hlocal : localOf m.entityId with _ | id
    · rw [Option.toList_none, List.append_nil]
      exact Sql.Answers.ok () (fun s hs => hs)
    rw [Option.toList_some]
    rcases List.mem_map.mp (hrow m hm id hlocal) with ⟨r, hr, rfl⟩
    have hfresh : r.id ∉ done.filterMap (fun m => localOf m.entityId) := by
      rw [hsplit, List.append_cons, List.filterMap_append, List.filterMap_append, hone, hlocal,
        Option.toList_some] at hnodup
      have hpart := (List.nodup_append.mp hnodup).1
      exact fun h => (List.nodup_append.mp hpart).2.2 _ h _ List.mem_cons_self rfl
    -- No other entry is found under this rowid.
    have hfind : ∀ x : NoteRow, x.id = r.id →
        present.find? (fun m => localOf m.entityId = some x.id) = some m := by
      intro x hx
      have hnone : done.find? (fun m => localOf m.entityId = some x.id) = none := by
        rw [List.find?_eq_none]
        intro m' hm' hlocal'
        exact hfresh (List.mem_filterMap.mpr ⟨m', hm', (of_decide_eq_true hlocal').trans
          (by rw [hx])⟩)
      rw [hsplit, List.find?_append, hnone, Option.none_or, List.find?_cons_of_pos]
      rw [hlocal, hx]
      exact decide_eq_true rfl
    have hfk' : (db.mapIds (done.filterMap (fun m => localOf m.entityId))
        (gainRow localOf present)).ForeignKeysOk := by
      refine hfk.updateRows _ hg.id (fun x hx _ v hv => hfk.1 x hx v ?_)
      rw [gainRow] at hv
      split at hv <;> exact hv
    refine Sql.Answers.bind (Q := fun _ s => s = db.mapIds
      (done.filterMap (fun m => localOf m.entityId) ++ [r.id]) (gainRow localOf present))
      (Sql.Answers.attempt (Sql.Answers.of_serves (serves_unionTagsAndFiles
        (hu.updateRows _ hg) hfk' (mem_mapIds_of_notMem hr hfresh) m.tags m.linkedFiles)) ?_)
      (fun _ => Sql.Answers.ok () (fun s hs => hs))
    rintro _ s rfl
    refine updateRows_mapIds hg.id hfresh (fun x _ hxid => ?_)
    rw [gainRow, hfind x hxid]
  · rintro s rfl
    rw [List.filterMap_nil, mapIds_nil]
  · rintro _ s rfl
    refine mapIds_eq_map (fun r _ hdone => ?_)
    rw [gainRow]
    split
    · next m hfind =>
      have hlocal := List.find?_some hfind
      exact absurd (List.mem_filterMap.mpr
        ⟨m, List.mem_of_find?_eq_some hfind, of_decide_eq_true hlocal⟩) hdone
    · rfl

/-- Setting the links. -/
theorem answers_linkImported (hu : db.UniqueOk) (hfk : db.ForeignKeysOk)
    {edges : List (String × String)} {localOf : String → Option Nat}
    {imported : List (MergedNote × Nat)} (hnodup : (imported.map (·.2)).Nodup)
    (hrow : ∀ e, ∀ id ∈ localOf e, id ∈ db.ids) :
    Sql.Answers (fun s => s = db) (linkImported edges localOf imported)
      (fun _ s => s = { db with notes := db.notes.map (linkRow edges localOf imported) }) := by
  have hg := keepsIndexed_linkRow edges localOf imported
  have hsucc : ∀ p : MergedNote × Nat, ∀ v, (successorLink edges localOf p.1 p.2).join = some v →
      v ∈ db.ids := by
    intro p v hv
    rcases (join_successorLink_eq_some.mp hv).2 with ⟨e, _, hlocal, _⟩
    exact hrow e v hlocal
  refine Sql.Answers.mono (Sql.Answers.foldEach (I := fun done _ s =>
    s = db.mapIds (done.map (·.2)) (linkRow edges localOf imported)) imported 0 ?_) ?_ ?_
  · intro done p rest unresolved hsplit
    have hfresh : p.2 ∉ done.map (·.2) := by
      rw [hsplit, List.map_append, List.map_cons] at hnodup
      exact fun h => (List.nodup_append.mp hnodup).2.2 _ h _ List.mem_cons_self rfl
    have hfind : ∀ r : NoteRow, r.id = p.2 → imported.find? (fun q => q.2 = r.id) = some p := by
      intro r hr
      have hnone : done.find? (fun q => q.2 = r.id) = none := by
        rw [List.find?_eq_none]
        intro q hq hid
        exact hfresh (hr ▸ of_decide_eq_true hid ▸ List.mem_map_of_mem hq)
      rw [hsplit, List.find?_append, hnone, Option.none_or, List.find?_cons_of_pos]
      exact decide_eq_true hr.symm
    have hsame : (successorLink edges localOf p.1 p.2).join = none →
        db.mapIds ((done ++ [p]).map (·.2)) (linkRow edges localOf imported)
          = db.mapIds (done.map (·.2)) (linkRow edges localOf imported) := by
      intro hnone
      rw [List.map_append, List.map_singleton]
      refine mapIds_append_of_fixed (fun r _ hr => ?_)
      simp only [linkRow, hfind r hr, hnone, Option.none_or]
    rcases hlink : successorLink edges localOf p.1 p.2 with _ | _ | v
    · rw [hsame (by rw [hlink]; rfl)]
      exact Sql.Answers.ok _ (fun s hs => hs)
    · rw [hsame (by rw [hlink]; rfl)]
      exact Sql.Answers.ok _ (fun s hs => hs)
    · have hfk' : (db.mapIds (done.map (·.2)) (linkRow edges localOf imported)).ForeignKeysOk := by
        refine hfk.updateRows _ hg.id (fun r hr _ w hw => ?_)
        rw [linkRow] at hw
        split at hw
        · next q _ =>
          rcases Option.or_eq_some_iff.mp hw with hq | ⟨_, hw⟩
          · exact hsucc q w hq
          · exact hfk.1 r hr w hw
        · exact hfk.1 r hr w hw
      have hv : v ∈ (db.mapIds (done.map (·.2)) (linkRow edges localOf imported)).ids := by
        rw [mapIds, ids_updateRows db _ hg.id]
        exact hsucc p v (by rw [hlink]; rfl)
      rw [List.map_append, List.map_singleton]
      refine Sql.Answers.bind (Q := fun r s => r = .ok () ∧ s = db.mapIds
        (done.map (·.2) ++ [p.2]) (linkRow edges localOf imported))
        (Sql.Answers.attempt (Sql.Answers.of_serves (serves_setSupersededBy
          (hu.updateRows _ hg) hfk' p.2 hv)) ?_) ?_
      · rintro _ s rfl
        refine ⟨rfl, updateRows_mapIds hg.id hfresh (fun r _ hr => ?_)⟩
        simp only [linkRow, hfind r hr, hlink]
        rfl
      · intro r
        refine Sql.Answers.of_pre (fun hr => ?_)
        subst hr
        exact Sql.Answers.ok _ (fun s hs => hs)
  · rintro s rfl
    rw [List.map_nil, mapIds_nil]
  · rintro _ s rfl
    refine mapIds_eq_map (fun r _ hdone => ?_)
    rw [linkRow]
    split
    · next p hfind =>
      have hid := List.find?_some hfind
      exact absurd (of_decide_eq_true hid ▸ List.mem_map_of_mem (List.mem_of_find?_eq_some hfind))
        hdone
    · rfl

end Phases

variable [Sha256] {db : MemoryDb}

/-- The rowid an identity is found under: that of its oldest row. -/
def MemoryDb.localOf (db : MemoryDb) : String → Option Nat :=
  entityToLocal db.snapshot

section LocalOf

/-- The row an identity is found under is the oldest of it. -/
theorem localOf_eq_some {e : String} {id : Nat} (h : db.localOf e = some id) :
    ∃ r ∈ db.notes, r.id = id ∧ r.contentId = e ∧
      ∀ x ∈ db.notes, x.contentId = e → olderRow r x := by
  rw [localOf, entityToLocal, Option.map_eq_some_iff] at h
  rcases h with ⟨n, hfind, rfl⟩
  rcases List.find?_eq_some_iff_append.mp hfind with ⟨he, before, after, hsplit, hbefore⟩
  have hsorted := pairwise_snapshot db
  have hn : n ∈ db.snapshot := List.mem_of_find?_eq_some hfind
  rcases mem_snapshot.mp hn with ⟨r, hr, rfl⟩
  refine ⟨r, hr, rfl, of_decide_eq_true he, fun x hx hxe => ?_⟩
  have hxs : rowToNote x ∈ before ++ rowToNote r :: after :=
    hsplit ▸ mem_snapshot.mpr ⟨x, hx, rfl⟩
  rcases List.mem_append.mp hxs with hxs | hxs
  · -- Nothing before the row found has the identity.
    have hne : ¬ noteEntityId (rowToNote x) = e := by simpa using hbefore _ hxs
    exact absurd hxe hne
  · rcases List.mem_cons.mp hxs with hxs | hxs
    · rw [olderRow, ← show (rowToNote x).createdAt = x.createdAt from rfl,
        ← show (rowToNote x).id = x.id from rfl, hxs]
      exact Or.inr ⟨rfl, le_refl _⟩
    · rw [hsplit] at hsorted
      exact List.rel_of_pairwise_cons (List.pairwise_append.mp hsorted).2.1 hxs

theorem localOf_eq_none_iff {e : String} :
    db.localOf e = none ↔ ∀ x ∈ db.notes, x.contentId ≠ e := by
  rw [localOf, entityToLocal, Option.map_eq_none_iff, List.find?_eq_none]
  constructor
  · intro h x hx he
    exact h _ (mem_snapshot.mpr ⟨x, hx, rfl⟩) (decide_eq_true he)
  · intro h n hn he
    rcases mem_snapshot.mp hn with ⟨x, hx, rfl⟩
    exact h x hx (of_decide_eq_true he)

/-- Rows that are the oldest of one identity are one row. -/
theorem localOf_eq_of_oldest {r : NoteRow} (hr : r ∈ db.notes)
    (hold : ∀ x ∈ db.notes, x.contentId = r.contentId → olderRow r x) :
    db.localOf r.contentId = some r.id := by
  rcases hl : db.localOf r.contentId with _ | id
  · exact absurd rfl (localOf_eq_none_iff.mp hl r hr)
  · rcases localOf_eq_some hl with ⟨x, hx, rfl, he, hxold⟩
    have hrx := hold x hx he
    have hxr := hxold r hr rfl
    rw [olderRow] at hrx hxr
    have hid : x.id = r.id := by omega
    rw [hid]

end LocalOf

end Spelunk
