import Spelunk.Theory.ReconcilePhases

/-!
# A Reconcile Run

What a run of `memory reconcile` leaves behind when the storage serves it: the
present rows with everything their entries bring, a row for every other entry,
and the links between them.

## Main definitions

* `MemoryDb.present`, `MemoryDb.toImport`: The two parts of a run's entries.
* `MemoryDb.importedPairs`: The imported entries with their rowids.
* `MemoryDb.linkTarget`: Where a link to an identity leads.
* `MemoryDb.reconciled`: The store after all phases.

## Theorems

* `importable_toImport`: The store can take the entries a run imports.
* `linkTarget_mem`: A link target is a row.
* `answers_reconcileProject`: The command.
-/

namespace Spelunk

open Lib (Sql SqlError)

open MemoryDb

variable [Sha256] {db : MemoryDb}

/-- The entries of a run that the store has. -/
def MemoryDb.present (db : MemoryDb) (candidates : List ServerNote) : List MergedNote :=
  presentEntries db.localOf (collapseCandidates candidates)

/-- The entries of a run that are imported. -/
def MemoryDb.toImport (db : MemoryDb) (candidates : List ServerNote) : List MergedNote :=
  entriesToImport db.localOf (collapseCandidates candidates)

/-- The store after the present entries are merged in. -/
def MemoryDb.gained (db : MemoryDb) (candidates : List ServerNote) : MemoryDb :=
  { db with notes := db.notes.map (gainRow db.localOf (db.present candidates)) }

/-- The entries imported, with the rowids they get. -/
def MemoryDb.importedPairs (db : MemoryDb) (candidates : List ServerNote) :
    List (MergedNote × Nat) :=
  (db.toImport candidates).zipIdx db.nextId

/-- The rowid an identity is found under once the entries are imported. -/
def MemoryDb.linkTarget (db : MemoryDb) (candidates : List ServerNote) (e : String) : Option Nat :=
  (importedRow (db.importedPairs candidates) e).or (db.localOf e)

/-- The store after all phases, the vectors apart. -/
def MemoryDb.reconciled (db : MemoryDb) (candidates : List ServerNote) : MemoryDb :=
  let imported := (db.gained candidates).importRows (db.toImport candidates)
  { imported with
    notes := imported.notes.map (linkRow (buildSupersedeEdges candidates)
      (db.linkTarget candidates) (db.importedPairs candidates)) }

variable {candidates : List ServerNote}

theorem mem_present {m : MergedNote} :
    m ∈ db.present candidates ↔
      m ∈ collapseCandidates candidates ∧ ∃ x ∈ db.notes, x.contentId = m.entityId := by
  rw [present, presentEntries, List.mem_filter, Option.isSome_iff_ne_none, ne_eq,
    localOf_eq_none_iff]
  simp only [not_forall, not_not, exists_prop]

theorem mem_toImport {m : MergedNote} :
    m ∈ db.toImport candidates ↔
      m ∈ collapseCandidates candidates ∧ ∀ x ∈ db.notes, x.contentId ≠ m.entityId := by
  rw [toImport, entriesToImport, byCreatedAt, (List.perm_insertionSort _ _).mem_iff,
    List.mem_filter, Option.isNone_iff_eq_none, localOf_eq_none_iff]

/-- Different present entries are found under different rowids. -/
theorem nodup_present_rows (hu : db.UniqueOk) (candidates : List ServerNote) :
    ((db.present candidates).filterMap (fun m => db.localOf m.entityId)).Nodup := by
  have hnodup : ((db.present candidates).map (·.entityId)).Nodup :=
    (nodup_entityId_collapseCandidates candidates).sublist (List.filter_sublist.map _)
  have hmap : (db.present candidates).filterMap (fun m => db.localOf m.entityId)
      = ((db.present candidates).map (·.entityId)).filterMap db.localOf := by
    rw [List.filterMap_map]
    rfl
  rw [hmap]
  refine hnodup.filterMap (fun a b id ha hb => ?_)
  rcases localOf_eq_some ha with ⟨x, hx, hxid, hxe, _⟩
  rcases localOf_eq_some hb with ⟨y, hy, hyid, hye, _⟩
  rw [← hxe, ← hye, eq_of_id_eq hu hx hy (hxid.trans hyid.symm)]

theorem contentId_gainRow (localOf : String → Option Nat) (present : List MergedNote)
    (r : NoteRow) : (gainRow localOf present r).contentId = r.contentId := by
  rw [gainRow]
  split <;> rfl

theorem contentId_linkRow (edges : List (String × String)) (localOf : String → Option Nat)
    (imported : List (MergedNote × Nat)) (r : NoteRow) :
    (linkRow edges localOf imported r).contentId = r.contentId := by
  rw [linkRow]
  split <;> rfl

theorem gained_eq_updateRows (db : MemoryDb) (candidates : List ServerNote) :
    db.gained candidates
      = db.updateRows (fun _ => true) (gainRow db.localOf (db.present candidates)) := by
  simp only [gained, updateRows, if_true]

theorem ids_gained (db : MemoryDb) (candidates : List ServerNote) :
    (db.gained candidates).ids = db.ids := by
  rw [gained_eq_updateRows]
  exact ids_updateRows db _ (keepsIndexed_gainRow _ _).id

theorem valid_gained (hv : db.Valid) (candidates : List ServerNote) :
    (db.gained candidates).Valid := by
  rw [gained_eq_updateRows]
  refine hv.updateRows _ (keepsIndexed_gainRow _ _) (contentId_gainRow _ _) (fun r => ?_)
    (fun r hr _ v hsucc => hv.foreignKeys.1 r hr v ?_)
  · rw [gainRow]
    split <;> exact Or.inl rfl
  · rw [gainRow] at hsucc
    split at hsucc <;> exact hsucc

/-- The entries imported have different identities, and the store has none of
    them. -/
theorem importable_toImport (db : MemoryDb) (candidates : List ServerNote) :
    (db.gained candidates).Importable (db.toImport candidates) := by
  constructor
  case nodup =>
    have hperm : (db.toImport candidates).Perm
        ((collapseCandidates candidates).filter (fun m => (db.localOf m.entityId).isNone)) :=
      List.perm_insertionSort _ _
    exact (hperm.map _).nodup_iff.mpr
      ((nodup_entityId_collapseCandidates candidates).sublist (List.filter_sublist.map _))
  case entity => exact fun m hm => (mem_collapseCandidates (mem_toImport.mp hm).1).1.entityId
  case absent =>
    intro m hm x hx
    rcases List.mem_map.mp hx with ⟨r, hr, rfl⟩
    rw [contentId_gainRow]
    exact (mem_toImport.mp hm).2 r hr

theorem mem_importedPairs {p : MergedNote × Nat} (hp : p ∈ db.importedPairs candidates) :
    p.1 ∈ db.toImport candidates ∧ db.nextId ≤ p.2 :=
  ⟨List.fst_mem_of_mem_zipIdx hp, List.le_snd_of_mem_zipIdx hp⟩

/-- The rows after the import: those of before and one for each entry. -/
theorem mem_imported_notes {r : NoteRow} :
    r ∈ ((db.gained candidates).importRows (db.toImport candidates)).notes ↔
      r ∈ (db.gained candidates).notes ∨
        ∃ p ∈ db.importedPairs candidates, r = { entryRow p.1 with id := p.2 } :=
  mem_importRows_notes

theorem nodup_importedPairs (db : MemoryDb) (candidates : List ServerNote) :
    ((db.importedPairs candidates).map (·.2)).Nodup := by
  rw [importedPairs, List.zipIdx_map_snd]
  exact List.nodup_range' ..

theorem map_fst_importedPairs (db : MemoryDb) (candidates : List ServerNote) :
    (db.importedPairs candidates).map (·.1) = db.toImport candidates :=
  List.zipIdx_map_fst ..

theorem find?_importedPairs {p : MergedNote × Nat} (hp : p ∈ db.importedPairs candidates) :
    (db.importedPairs candidates).find? (fun q => q.2 = p.2) = some p := by
  rcases hf : (db.importedPairs candidates).find? (fun q => q.2 = p.2) with _ | q
  · rw [List.find?_eq_none] at hf
    exact absurd (decide_eq_true rfl) (hf p hp)
  · have hid := List.find?_some hf
    have hq := List.mem_of_find?_eq_some hf
    rw [hf, List.inj_on_of_nodup_map (nodup_importedPairs db candidates) hq hp (of_decide_eq_true hid)]

/-- The row of an entry is the only one of its identity. -/
theorem id_of_contentId_eq_entry {p : MergedNote × Nat} (hp : p ∈ db.importedPairs candidates)
    {r : NoteRow} (hr : r ∈ ((db.gained candidates).importRows (db.toImport candidates)).notes)
    (he : r.contentId = p.1.entityId) : r.id = p.2 := by
  have himport := importable_toImport db candidates
  rcases mem_imported_notes.mp hr with hr | ⟨q, hq, rfl⟩
  · exact absurd he (himport.absent p.1 (mem_importedPairs hp).1 r hr)
  · have hnodup : ((db.importedPairs candidates).map (fun p => p.1.entityId)).Nodup := by
      have hentries := himport.nodup
      rwa [← map_fst_importedPairs, List.map_map] at hentries
    have hqe : q.1.entityId = p.1.entityId := by
      rw [himport.entity q.1 (mem_importedPairs hq).1]
      exact he
    rw [List.inj_on_of_nodup_map hnodup hq hp hqe]

/-- A link target is a row. -/
theorem linkTarget_mem {e : String} {id : Nat} (h : db.linkTarget candidates e = some id) :
    ∃ r ∈ ((db.gained candidates).importRows (db.toImport candidates)).notes,
      r.id = id ∧ r.contentId = e := by
  rw [linkTarget, Option.or_eq_some_iff] at h
  rcases h with h | ⟨_, h⟩
  · rw [importedRow, Option.map_eq_some_iff] at h
    rcases h with ⟨p, hfind, rfl⟩
    have hp : p ∈ db.importedPairs candidates :=
      List.mem_reverse.mp (List.mem_of_find?_eq_some hfind)
    have he := List.find?_some hfind
    refine ⟨_, mem_imported_notes.mpr (Or.inr ⟨p, hp, rfl⟩), rfl, ?_⟩
    rw [← of_decide_eq_true he,
      (importable_toImport db candidates).entity p.1 (mem_importedPairs hp).1]
    rfl
  · rcases localOf_eq_some h with ⟨r, hr, hid, he, _⟩
    refine ⟨gainRow db.localOf (db.present candidates) r,
      mem_imported_notes.mpr (Or.inl (List.mem_map_of_mem hr)), ?_, ?_⟩
    · rw [(keepsIndexed_gainRow _ _).id, hid]
    · rw [contentId_gainRow, he]

theorem reconciled_of_toImport_nil (h : db.toImport candidates = []) :
    db.reconciled candidates = db.gained candidates := by
  have hlink : ∀ r, linkRow (buildSupersedeEdges candidates) (db.linkTarget candidates)
      (db.importedPairs candidates) r = r := by
    intro r
    rw [linkRow, importedPairs, h]
    rfl
  simp only [reconciled, h, importRows_nil]
  rw [List.map_congr_left (fun r _ => hlink r), List.map_id']

/-- The counts of a run. -/
structure Counted (db : MemoryDb) (candidates : List ServerNote) (summary : ReconcileSummary) :
    Prop where
  total : summary.candidates = candidates.length
  alreadyPresent : summary.alreadyPresent = ((db.present candidates).map (·.rows)).sum
  collapsedDuplicates : summary.collapsedDuplicates
    = ((db.toImport candidates).map (fun m => m.rows - 1)).sum
  imported : summary.imported = (db.toImport candidates).length

/-- The command, with vectors of the right size. -/
theorem answers_reconcileProject (hv : db.Valid) {embed : String → Option (List UInt8)}
    (hembed : ∀ n ∈ embedEntries embed (db.toImport candidates), ∀ blob ∈ n.2,
      blob.length = embeddingBytes) :
    Sql.Answers (fun s => s = db) (reconcileProject candidates embed false)
      (fun summary s => Counted db candidates summary ∧
        (db.toImport candidates = [] → s = db.gained candidates) ∧
        ∃ emb, s = { db.reconciled candidates with embeddings := emb }) := by
  have hgained := valid_gained hv candidates
  have himport := importable_toImport db candidates
  have hfst : (embedEntries embed (db.toImport candidates)).map (·.1) = db.toImport candidates := by
    rw [embedEntries, List.map_map]
    exact List.map_id' _
  unfold reconcileProject
  simp only [Sql.bind_eq, Sql.pure_eq, Bool.false_eq_true, if_false]
  by_cases hnil : candidates = []
  · -- No candidate: nothing is even read.
    subst hnil
    rw [if_pos rfl]
    have hto : db.toImport [] = [] := rfl
    have hgain : db.gained [] = db := by
      have hrow : ∀ r, gainRow db.localOf (db.present []) r = r := fun _ => rfl
      rw [gained, List.map_congr_left (fun r _ => hrow r), List.map_id']
    refine Sql.Answers.ok _ ?_
    rintro s rfl
    refine ⟨⟨rfl, rfl, rfl, rfl⟩, fun _ => hgain.symm, s.embeddings, ?_⟩
    rw [reconciled_of_toImport_nil hto, hgain]
  rw [if_neg hnil]
  refine Sql.Answers.bind (Sql.Answers.of_serves serves_allNotesForDedup) (fun all =>
    Sql.Answers.of_pre (fun hall => ?_))
  subst hall
  have hpresent : presentEntries (entityToLocal (db.rowsByAge.map rowToNote))
      (collapseCandidates candidates) = db.present candidates := rfl
  have htoImport : entriesToImport (entityToLocal (db.rowsByAge.map rowToNote))
      (collapseCandidates candidates) = db.toImport candidates := rfl
  have hlocal : entityToLocal (db.rowsByAge.map rowToNote) = db.localOf := rfl
  rw [hpresent, htoImport, hlocal]
  refine Sql.Answers.bind (answers_mergePresent hv.unique hv.foreignKeys (fun m _ id hid => ?_)
    (nodup_present_rows hv.unique candidates)) (fun _ => ?_)
  · rcases localOf_eq_some hid with ⟨r, hr, rfl, _⟩
    exact List.mem_map_of_mem hr
  by_cases hto : db.toImport candidates = []
  · rw [if_pos hto]
    refine Sql.Answers.ok _ (fun s hs => ⟨⟨rfl, rfl, rfl, ?_⟩, fun _ => hs, s.embeddings, ?_⟩)
    · rw [hto]
      rfl
    · rw [reconciled_of_toImport_nil hto, hs]
      rfl
  rw [if_neg hto]
  have hbatch := @serves_importBatch _ _ hgained (embedEntries embed (db.toImport candidates))
    (by rwa [hfst]) hembed
  rw [hfst] at hbatch
  refine Sql.Answers.bind (Sql.Answers.of_serves hbatch) (fun ids =>
    Sql.Answers.of_pre (fun hids => ?_))
  -- The answered rowids are those the entries were stored under.
  have hlen : (embedEntries embed (db.toImport candidates)).length
      = (db.toImport candidates).length := List.length_map _
  have hzip : (db.toImport candidates).zip ids = db.importedPairs candidates := by
    rw [hids, hlen, importedPairs, List.zipIdx_eq_zip_range']
    rfl
  have htarget : (fun e => (importedRow ((db.toImport candidates).zip ids) e).or (db.localOf e))
      = db.linkTarget candidates := by
    funext e
    rw [hzip, linkTarget]
  rw [htarget, hzip]
  have himported := hgained.importRows himport
  have hnodup := nodup_importedPairs db candidates
  have hrow : ∀ e, ∀ id ∈ db.linkTarget candidates e,
      id ∈ ((db.gained candidates).importRows (db.toImport candidates)).ids := by
    intro e id hid
    rcases linkTarget_mem hid with ⟨r, hr, rfl, _⟩
    exact List.mem_map_of_mem hr
  refine Sql.Answers.bind (Q := fun _ s => ∃ emb, s = { db.reconciled candidates with
    embeddings := emb }) ?_ (fun unresolved => Sql.Answers.ok _ (fun s hs =>
      ⟨⟨rfl, rfl, rfl, ?_⟩, fun h => absurd h hto, hs⟩))
  · rintro s ⟨emb, hs⟩
    have hu : ({ (db.gained candidates).importRows (db.toImport candidates) with
      embeddings := emb } : MemoryDb).UniqueOk := himported.unique
    rcases @answers_linkImported _ hu himported.foreignKeys (buildSupersedeEdges candidates) _ _
      hnodup hrow s hs with ⟨a, s', hrun, hs'⟩
    exact ⟨a, s', hrun, emb, hs'⟩
  · show ids.length = _
    rw [hids, List.length_range', hlen]

end Spelunk
