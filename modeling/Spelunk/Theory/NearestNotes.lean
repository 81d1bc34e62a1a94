import Spelunk.Core.HybridSearch
import Spelunk.Lib.Nearest
import Spelunk.Lib.UniqueIndex

/-!
# The Nearest Notes

What a search by vector ought to answer are the nearest of the notes that have a vector and
pass the filter. The vector table is asked for as many rows as notes are wanted, and the filter
comes after: rows of archived notes, or of other projects, use up places.

## Main definitions

* `AnswersNearest`: What is documented of the vector table.
* `eligible`: The notes a search is about.
* `joinRow`: What the join makes of a row of the vector table.

## Theorems

* `knnJoin_eq`: A search filters what the vector table answers.
* `filterMap_joinRow_perm`: The rows the filter keeps are the eligible notes.
* `nearest_knnJoin_iff`: When a search answers with the nearest notes.
* `searchLaw`: When both stores' searches do.
-/

namespace Spelunk

open Lib (Nearest Undisplaced find?_eq_some_iff_of_nodup)

variable {V D R N : Type} [LinearOrder D]

/-- What is documented of the vector table. -/
def AnswersNearest (dist : V → V → D) (knn : Knn V D) : Prop :=
  ∀ query k rows, ∃ found, Nearest (fun e : ℕ × V => dist query e.2) k rows found ∧
    knn query k rows = found.map (fun e => (e.1, dist query e.2))

/-- The notes with a vector that pass the filter, with their distances. -/
def eligible (dist : V → V → D) (query : V) (embeddings : List (ℕ × V)) (notes : List R)
    (id : R → ℕ) (keep : R → Bool) (read : R → N) : List (N × D) :=
  (notes.filter keep).filterMap fun n =>
    (embeddings.find? (fun e => e.1 = id n)).map (fun e => (read n, dist query e.2))

section Join

variable {dist : V → V → D} {query : V} {k : ℕ} {embeddings : List (ℕ × V)} {notes : List R}
  {id : R → ℕ} {keep : R → Bool} {read : R → N}

/-- What the join makes of a row of the vector table. -/
def joinRow (dist : V → V → D) (query : V) (notes : List R) (id : R → ℕ) (keep : R → Bool)
    (read : R → N) (e : ℕ × V) : Option (N × D) :=
  (notes.find? (fun n => id n = e.1 ∧ keep n)).map (fun n => (read n, dist query e.2))

omit [LinearOrder D] in
theorem snd_of_mem_joinRow {e : ℕ × V} {b : N × D}
    (h : b ∈ joinRow dist query notes id keep read e) : b.2 = dist query e.2 := by
  obtain ⟨n, -, rfl⟩ := Option.map_eq_some_iff.1 h
  rfl

/-- An answer of the vector table, joined. -/
theorem knnJoin_eq {knn : Knn V D} {found : List (ℕ × V)}
    (hfound : Nearest (fun e => dist query e.2) k embeddings found)
    (hknn : knn query k embeddings = found.map (fun e => (e.1, dist query e.2))) :
    knnJoin knn query k embeddings notes id keep read =
      found.filterMap (joinRow dist query notes id keep read) := by
  have hjoin : (found.map (fun e => (e.1, dist query e.2))).filterMap (fun row =>
      (notes.find? (fun n => id n = row.1 ∧ keep n)).map (fun n => (read n, row.2))) =
      found.filterMap (joinRow dist query notes id keep read) := by
    rw [List.filterMap_map]
    rfl
  simp only [knnJoin, hknn, hjoin]
  refine List.mergeSort_of_pairwise (List.pairwise_filterMap.2 ?_)
  refine hfound.sorted.imp fun {e e'} hee' b hb b' hb' => decide_eq_true ?_
  rw [snd_of_mem_joinRow hb, snd_of_mem_joinRow hb']
  exact hee'

omit [LinearOrder D] in
/-- Joining every vector with its note gives the notes with their vectors. -/
theorem filterMap_joinRow_perm (hids : (notes.map id).Nodup)
    (hkeys : (embeddings.map Prod.fst).Nodup) :
    (embeddings.filterMap (joinRow dist query notes id keep read)).Perm
      (eligible dist query embeddings notes id keep read) := by
  have hread : ∀ e, joinRow dist query notes id keep read e =
      (joinRow dist query notes id keep (fun n => n) e).map (fun b => (read b.1, b.2)) := by
    intro e
    rw [joinRow, joinRow, Option.map_map]
    rfl
  have heligible : eligible dist query embeddings notes id keep read =
      (eligible dist query embeddings notes id keep (fun n => n)).map
        (fun b => (read b.1, b.2)) := by
    rw [eligible, eligible, List.map_filterMap]
    refine List.filterMap_congr fun n _ => ?_
    rw [Option.map_map]
    rfl
  have hkeep : ∀ n, embeddings.find? (fun e => e.1 = id n) =
      embeddings.find? (fun e => e.1 = id n ∧ (fun _ => true) e) := by
    intro n
    simp
  rw [funext hread, ← List.map_filterMap, heligible]
  refine List.Perm.map _ ((List.perm_ext_iff_of_nodup ?_ ?_).2 fun b => ?_)
  · refine List.pairwise_filterMap.2
      ((List.pairwise_map.1 hkeys).imp fun {e e'} hne b hb b' hb' => ?_)
    obtain ⟨n, hn, rfl⟩ := Option.map_eq_some_iff.1 hb
    obtain ⟨n', hn', rfl⟩ := Option.map_eq_some_iff.1 hb'
    intro heq
    have hid := ((find?_eq_some_iff_of_nodup hids).1 hn).2.1
    have hid' := ((find?_eq_some_iff_of_nodup hids).1 hn').2.1
    have hnn : n = n' := (Prod.mk.inj heq).1
    exact hne (hid.symm.trans ((congrArg id hnn).trans hid'))
  · refine List.pairwise_filterMap.2
      (((List.pairwise_map.1 hids).sublist List.filter_sublist).imp
        fun {n n'} hne b hb b' hb' => ?_)
    obtain ⟨e, -, rfl⟩ := Option.map_eq_some_iff.1 hb
    obtain ⟨e', -, rfl⟩ := Option.map_eq_some_iff.1 hb'
    intro heq
    exact hne (congrArg id (Prod.mk.inj heq).1)
  · rw [eligible, List.mem_filterMap, List.mem_filterMap]
    constructor
    · rintro ⟨e, he, hb⟩
      obtain ⟨n, hn, rfl⟩ := Option.map_eq_some_iff.1 hb
      obtain ⟨hmem, hid, hkept⟩ := (find?_eq_some_iff_of_nodup hids).1 hn
      refine ⟨n, List.mem_filter.2 ⟨hmem, hkept⟩, ?_⟩
      rw [hkeep, (find?_eq_some_iff_of_nodup hkeys).2 ⟨he, hid.symm, rfl⟩]
      rfl
    · rintro ⟨n, hn, hb⟩
      rw [hkeep] at hb
      obtain ⟨hmem, hkept⟩ := List.mem_filter.1 hn
      obtain ⟨e, he, rfl⟩ := Option.map_eq_some_iff.1 hb
      obtain ⟨hmem', hid, -⟩ := (find?_eq_some_iff_of_nodup hkeys).1 he
      refine ⟨e, hmem', ?_⟩
      rw [joinRow, (find?_eq_some_iff_of_nodup hids).2 ⟨hmem, hid.symm, hkept⟩]
      rfl

omit [LinearOrder D] in
theorem isSome_joinRow (dist : V → V → D) (query : V) (read : R → N) (e : ℕ × V) :
    (joinRow dist query notes id keep read e).isSome =
    notes.any (fun n => id n = e.1 ∧ keep n) := by
  rw [joinRow, Option.isSome_map, List.isSome_find?]

/-- A vector table may give any answer to one query. -/
theorem exists_answersNearest (dist : V → V → D) {found : List (ℕ × V)}
    (hfound : Nearest (fun e => dist query e.2) k embeddings found) :
    ∃ knn, AnswersNearest dist knn ∧
      knn query k embeddings = found.map (fun e => (e.1, dist query e.2)) := by
  classical
  refine ⟨fun q k' rows => if q = query ∧ k' = k ∧ rows = embeddings then
    found.map (fun e => (e.1, dist query e.2))
    else ((rows.mergeSort (fun a b => dist q a.2 ≤ dist q b.2)).take k').map
      (fun e => (e.1, dist q e.2)), fun q k' rows => ?_, if_pos ⟨rfl, rfl, rfl⟩⟩
  by_cases h : q = query ∧ k' = k ∧ rows = embeddings
  · obtain ⟨rfl, rfl, rfl⟩ := h
    exact ⟨found, hfound, if_pos ⟨rfl, rfl, rfl⟩⟩
  · exact ⟨_, Lib.nearest_take_mergeSort (fun e : ℕ × V => dist q e.2)
      (fun _ _ h => h) k' rows, if_neg h⟩

/-- A search answers with the nearest notes exactly when no row of the vector table that its
    filter removes takes the place of one. -/
theorem nearest_knnJoin_iff (hids : (notes.map id).Nodup)
    (hkeys : (embeddings.map Prod.fst).Nodup) :
    (∀ knn, AnswersNearest dist knn → Nearest Prod.snd k
      (eligible dist query embeddings notes id keep read)
      (knnJoin knn query k embeddings notes id keep read)) ↔
      Undisplaced (fun e => dist query e.2) k embeddings
        (fun e => notes.any (fun n => id n = e.1 ∧ keep n)) := by
  rw [← funext (isSome_joinRow dist query read),
    ← Lib.nearest_filterMap_iff Prod.snd fun e b hb => snd_of_mem_joinRow hb]
  have hperm : (embeddings.filterMap (joinRow dist query notes id keep read)).Perm
      (eligible dist query embeddings notes id keep read) := filterMap_joinRow_perm hids hkeys
  constructor
  · intro h found hfound
    obtain ⟨knn, hknn, hanswer⟩ := exists_answersNearest dist hfound
    rw [← knnJoin_eq hfound hanswer]
    exact (h knn hknn).perm_rows hperm.symm
  · intro h knn hknn
    obtain ⟨found, hfound, hanswer⟩ := hknn query k embeddings
    rw [knnJoin_eq hfound hanswer]
    exact (h found hfound).perm_rows hperm

end Join

/-- Both searches answer with the nearest notes of the store that pass the filter, exactly when
    no other row of the vector table takes the place of one. -/
theorem searchLaw (localDist : List UInt8 → List UInt8 → D)
    (serverDist : List UInt32 → List UInt32 → D) (db : MemoryDb) (hdb : db.SchemaOk)
    (hkeys : (db.embeddings.map Prod.fst).Nodup) (sdb : ServerDb) (hsdb : sdb.UniqueOk)
    (hskeys : (sdb.embeddings.map Prod.fst).Nodup) :
    (∀ queryBlob limit asOf,
      (∀ knn, AnswersNearest localDist knn → Nearest Prod.snd (min limit 100)
        (eligible localDist queryBlob db.embeddings db.notes (·.id) (·.searched asOf) rowToNote)
        (search knn queryBlob limit asOf db)) ↔
      Undisplaced (fun e => localDist queryBlob e.2) (min limit 100) db.embeddings
        (fun e => db.notes.any (fun n => n.id = e.1 ∧ n.searched asOf))) ∧
    (∀ projectId queryVec limit,
      (∀ knn, AnswersNearest serverDist knn → Nearest Prod.snd (min limit 100)
        (eligible serverDist queryVec sdb.embeddings sdb.notes (·.id) (·.searched projectId)
          (fun n => n))
        (Server.searchNotes knn projectId queryVec limit sdb)) ↔
      Undisplaced (fun e => serverDist queryVec e.2) (min limit 100) sdb.embeddings
        (fun e => sdb.notes.any (fun n => n.id = e.1 ∧ n.searched projectId))) :=
  ⟨fun _ _ _ => nearest_knnJoin_iff hdb.unique.1 hkeys,
    fun _ _ _ => nearest_knnJoin_iff hsdb.1 hskeys⟩

section Runs

/-- A vector whose coordinates are all alike. -/
def flatBlob (b : UInt8) : List UInt8 := List.replicate embeddingBytes b

/-- A distance that tells vectors by their first byte. -/
def headDist {α : Type} [DecidableEq α] (v w : List α) : ℕ := if v.head? = w.head? then 0 else 1

def plainRow (id : ℕ) (title status : String) : NoteRow where
  id := id
  kind := "note"
  title := title
  body := ""
  tags := none
  linkedFiles := none
  createdAt := 10
  status := status
  supersededBy := none
  sourceRef := none
  validAt := none
  invalidAt := none
  uuid := none
  remoteId := none
  entityId := none

/-- An archived note and an active one, each with its vector. -/
def crowdedDb : MemoryDb where
  notes := [plainRow 1 "old" "archived", plainRow 2 "new" "active"]
  edges := []
  embeddings := [(1, flatBlob 0), (2, flatBlob 1)]
  nextId := 3
  entityIdUnique := true

/-- The one active note is not found, because the archived one is nearer. -/
theorem search_archivedDisplaces : ¬ ∃ knn : Knn (List UInt8) ℕ, AnswersNearest headDist knn ∧
    Nearest Prod.snd 1
      (eligible headDist (flatBlob 0) crowdedDb.embeddings crowdedDb.notes (·.id)
        (·.searched none) rowToNote)
      (search knn (flatBlob 0) 1 none crowdedDb) := by
  rintro ⟨knn, hknn, h⟩
  obtain ⟨found, hfound, hanswer⟩ := hknn (flatBlob 0) 1 crowdedDb.embeddings
  have hnear : (1, flatBlob 0) ∈ found :=
    hfound.mem_of_countP_le List.mem_cons_self (by decide +kernel)
  obtain ⟨rest, hrest, -⟩ := hfound.split
  have hone : found = [(1, flatBlob 0)] := by
    obtain ⟨e, he⟩ := List.length_eq_one_iff.1 hfound.length
    rw [he, List.mem_singleton] at hnear
    rw [he, ← hnear]
  have hleft : (2, flatBlob 1) ∈ rest := by
    rw [hone] at hrest
    exact (hrest.cons_inv).symm.subset List.mem_cons_self
  have hperm : (crowdedDb.embeddings.filterMap (joinRow headDist (flatBlob 0) crowdedDb.notes
      (·.id) (·.searched none) rowToNote)).Perm (eligible headDist (flatBlob 0)
        crowdedDb.embeddings crowdedDb.notes (·.id) (·.searched none) rowToNote) :=
    filterMap_joinRow_perm (by decide) (by decide)
  have hsearch : search knn (flatBlob 0) 1 none crowdedDb = found.filterMap (joinRow headDist
      (flatBlob 0) crowdedDb.notes (·.id) (·.searched none) rowToNote) := knnJoin_eq hfound hanswer
  rw [hsearch] at h
  exact Lib.not_nearest_filterMap hfound hrest hnear (by decide) hleft (by decide)
    (h.perm_rows hperm.symm)

/-- Two places are enough for both. -/
theorem searchLaw_crowdedDb : Undisplaced (fun e => headDist (flatBlob 0) e.2) (min 2 100)
      crowdedDb.embeddings (fun e => crowdedDb.notes.any (fun n => n.id = e.1 ∧ n.searched none)) ∧
    ∀ knn, AnswersNearest headDist knn → Nearest Prod.snd (min 2 100)
      (eligible headDist (flatBlob 0) crowdedDb.embeddings crowdedDb.notes (·.id)
        (·.searched none) rowToNote) (search knn (flatBlob 0) 2 none crowdedDb) := by
  have hkept : Undisplaced (fun e => headDist (flatBlob 0) e.2) (min 2 100)
      crowdedDb.embeddings
      (fun e => crowdedDb.notes.any (fun n => n.id = e.1 ∧ n.searched none)) := by
    intro x _ _ y _ _
    exact Or.inl List.countP_le_length
  refine ⟨hkept, ?_⟩
  exact ((searchLaw headDist headDist crowdedDb ⟨by decide, by decide, by decide⟩ (by decide)
    (emptyServer 4) (by decide) (by decide)).1 (flatBlob 0) 2 none).2 hkept

end Runs

end Spelunk
