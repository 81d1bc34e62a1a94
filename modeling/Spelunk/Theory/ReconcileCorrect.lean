import Spelunk.Core.Dedupe
import Spelunk.Theory.ReconcileRun

/-!
# What Reconcile Guarantees

The store a successful run leaves behind, told from the store and the
candidates it started on. Everything promised holds of every run but for one
case of the links: the successor recorded for an identity is that of its first
copy that has one, and when that copy is superseded by another copy of the same
identity, a later copy's successor of another identity is never looked at.

## Main definitions

* `Reconciled`: The contract between the store before and the store after.
* `SuccessorsElsewhere`: No first successor is a copy of the same identity.

## Theorems

* `notes_reconciled`: The rows a run leaves behind.
* `reconciled_spec`: The contract without the links.
* `linked_iff`: When the links are as promised.
* `reconcileProject_error_ids`: A failed run inserts nothing.
* `reconcileProject_correct_iff`: The command, in full.
-/

namespace Spelunk

open Lib (Sql SqlError)

open MemoryDb

variable [Sha256]

/-- What an imported row carries of the candidates of its identity. -/
structure ImportedFrom (candidates : List ServerNote) (r : NoteRow) : Prop where
  tags : ∀ t, t ∈ splitCsv r.tags ↔
    ∃ c ∈ candidates, c.entityId = r.contentId ∧ t ∈ splitCsv (some c.tags)
  linkedFiles : ∀ t, t ∈ splitCsv r.linkedFiles ↔
    ∃ c ∈ candidates, c.entityId = r.contentId ∧ t ∈ splitCsv (some c.linkedFiles)
  createdAt_le : ∀ c ∈ candidates, c.entityId = r.contentId → r.createdAt ≤ c.createdAt
  createdAt_mem : ∃ c ∈ candidates, c.entityId = r.contentId ∧ c.createdAt = r.createdAt
  archived : r.status = "archived" ↔
    ∃ c ∈ candidates, c.entityId = r.contentId ∧ c.status = "archived"

/-- What a present row gains: `r` is the row before, `r'` the row after. -/
structure GainedFrom (candidates : List ServerNote) (r r' : NoteRow) : Prop where
  only : ∃ tags linkedFiles, r' = { r with tags := tags, linkedFiles := linkedFiles }
  tags : ∀ t, t ∈ splitCsv r'.tags ↔ t ∈ splitCsv r.tags ∨
    ∃ c ∈ candidates, c.entityId = r.contentId ∧ t ∈ splitCsv (some c.tags)
  linkedFiles : ∀ t, t ∈ splitCsv r'.linkedFiles ↔ t ∈ splitCsv r.linkedFiles ∨
    ∃ c ∈ candidates, c.entityId = r.contentId ∧ t ∈ splitCsv (some c.linkedFiles)

/-- Some archived copy of an identity is superseded by a candidate of another. -/
def SupersededElsewhere (candidates : List ServerNote) (e : String) : Prop :=
  ∃ c ∈ candidates, ∃ d ∈ candidates, c.entityId = e ∧ c.status = "archived" ∧
    c.supersededBy = some d.id ∧ d.entityId ≠ e

/-- Links as promised: a row of another identity that supersedes a copy. -/
def LinkedToSuccessor (candidates : List ServerNote) (db' : MemoryDb) (r : NoteRow) : Prop :=
  ∃ c ∈ candidates, ∃ d ∈ candidates, c.entityId = r.contentId ∧ c.supersededBy = some d.id ∧
    d.entityId ≠ r.contentId ∧ ∃ s ∈ db'.notes, s.contentId = d.entityId ∧
      r.supersededBy = some s.id

/-- What `memory reconcile` promises of a run that made `db'` of `db`. -/
structure Reconciled (candidates : List ServerNote) (embed : String → Option (List UInt8))
    (db db' : MemoryDb) (summary : ReconcileSummary) : Prop where
  /-- One row for a candidate's identity that had none; no row otherwise. -/
  rows : ∀ e, db'.rowsOf e
    = if db.rowsOf e = 0 ∧ ∃ c ∈ candidates, c.entityId = e then 1 else db.rowsOf e
  imported : ∀ r' ∈ db'.notes, r'.id ∉ db.ids → ImportedFrom candidates r'
  /-- The oldest row of a candidate's identity gains its tags and files. -/
  gained : ∀ c ∈ candidates, db.rowsOf c.entityId ≠ 0 →
    ∃ r ∈ db.notes, r.contentId = c.entityId ∧
      (∀ x ∈ db.notes, x.contentId = c.entityId → olderRow r x) ∧
      ∃ r' ∈ db'.notes, GainedFrom candidates r r'
  total : summary.candidates = candidates.length
  counts : candidates.length
    = summary.alreadyPresent + summary.collapsedDuplicates + summary.imported
  linked : ∀ r' ∈ db'.notes, r'.id ∉ db.ids → SupersededElsewhere candidates r'.contentId →
    LinkedToSuccessor candidates db' r'
  no_self_link : ∀ r' ∈ db'.notes, r'.id ∉ db.ids → r'.supersededBy ≠ some r'.id
  /-- A second run imports nothing and changes nothing. -/
  again : ∃ summary', reconcileProject candidates embed false ⟨db', none⟩
    = (.ok summary', ⟨db', none⟩) ∧ summary'.imported = 0

/-- The first copy of an imported identity that has a successor among the
    candidates does not have one of the same identity, where an archived copy
    has one of another. -/
def SuccessorsElsewhere (candidates : List ServerNote) (db : MemoryDb) : Prop :=
  ∀ e, db.rowsOf e = 0 → SupersededElsewhere candidates e →
    (buildSupersedeEdges candidates).lookup e ≠ some e

variable {db : MemoryDb} {candidates : List ServerNote}

section Rows

/-- The row of an imported entry once the links are set. -/
def MemoryDb.linkedEntry (db : MemoryDb) (candidates : List ServerNote) (p : MergedNote × Nat) :
    NoteRow :=
  { entryRow p.1 with
    id := p.2
    supersededBy := (successorLink (buildSupersedeEdges candidates) (db.linkTarget candidates)
      p.1 p.2).join }

/-- The rows a run leaves behind: the old ones, and one for each entry. -/
theorem notes_reconciled (hs : db.SchemaOk) :
    (db.reconciled candidates).notes
      = db.notes.map (gainRow db.localOf (db.present candidates))
        ++ (db.importedPairs candidates).map (db.linkedEntry candidates) := by
  have hlinks : (db.reconciled candidates).notes
      = ((db.gained candidates).importRows (db.toImport candidates)).notes.map
        (linkRow (buildSupersedeEdges candidates) (db.linkTarget candidates)
          (db.importedPairs candidates)) := rfl
  rw [hlinks, notes_importRows, List.map_append, List.map_map]
  congr 1
  · -- The links are set on new rows only.
    rw [gained, List.map_map]
    refine List.map_congr_left (fun r hr => ?_)
    rw [Function.comp_apply, linkRow]
    split
    · next p hfind =>
      have hid := List.find?_some hfind
      have hp := mem_importedPairs (List.mem_of_find?_eq_some hfind)
      have hlt := hs.id_lt r hr
      rw [(keepsIndexed_gainRow _ _).id, decide_eq_true_eq] at hid
      omega
    · rfl
  · refine List.map_congr_left (fun p hp => ?_)
    have hfind := @find?_importedPairs _ db candidates _ hp
    simp only [Function.comp_apply, linkRow, hfind, linkedEntry]
    rw [show (entryRow p.1).supersededBy = none from rfl, Option.or_none]

theorem contentId_linkedEntry {p : MergedNote × Nat} (hp : p ∈ db.importedPairs candidates) :
    (db.linkedEntry candidates p).contentId = p.1.entityId :=
  ((importable_toImport db candidates).entity p.1 (mem_importedPairs hp).1).symm

theorem mem_reconciled_notes (hs : db.SchemaOk) {r' : NoteRow} :
    r' ∈ (db.reconciled candidates).notes ↔
      (∃ r ∈ db.notes, r' = gainRow db.localOf (db.present candidates) r) ∨
        ∃ p ∈ db.importedPairs candidates, r' = db.linkedEntry candidates p := by
  rw [notes_reconciled hs, List.mem_append, List.mem_map, List.mem_map]
  simp only [eq_comm]

/-- A row of a new rowid is an entry's. -/
theorem exists_entry_of_notMem_ids (hs : db.SchemaOk) {r' : NoteRow}
    (hr' : r' ∈ (db.reconciled candidates).notes) (hnew : r'.id ∉ db.ids) :
    ∃ p ∈ db.importedPairs candidates, r' = db.linkedEntry candidates p := by
  rcases (mem_reconciled_notes hs).mp hr' with ⟨r, hr, rfl⟩ | h
  · rw [(keepsIndexed_gainRow _ _).id] at hnew
    exact absurd (List.mem_map_of_mem hr) hnew
  · exact h

theorem linkedEntry_notMem_ids (hs : db.SchemaOk) {p : MergedNote × Nat}
    (hp : p ∈ db.importedPairs candidates) : (db.linkedEntry candidates p).id ∉ db.ids := by
  intro h
  rcases List.mem_map.mp h with ⟨r, hr, hid⟩
  have hlt := hs.id_lt r hr
  have hle := (mem_importedPairs hp).2
  have hpid : (db.linkedEntry candidates p).id = p.2 := rfl
  omega

end Rows

section Contract

/-- An entry's members are clean. -/
theorem cleanMember_of_mem_entry {m : MergedNote} (hm : m ∈ collapseCandidates candidates) :
    (∀ t ∈ m.tags, CleanMember t) ∧ ∀ t ∈ m.linkedFiles, CleanMember t := by
  have hfolds := (mem_collapseCandidates hm).1
  constructor
  · intro t ht
    rcases (hfolds.tags t).mp ht with ⟨c, _, hc⟩
    exact cleanMember_of_mem_splitCsv hc
  · intro t ht
    rcases (hfolds.linkedFiles t).mp ht with ⟨c, _, hc⟩
    exact cleanMember_of_mem_splitCsv hc

/-- An entry's row carries what its candidates do. -/
theorem importedFrom_linkedEntry {p : MergedNote × Nat} (hp : p ∈ db.importedPairs candidates) :
    ImportedFrom candidates (db.linkedEntry candidates p) := by
  have hm := (mem_toImport.mp (mem_importedPairs hp).1).1
  have hfolds := (mem_collapseCandidates hm).1
  have hclean := cleanMember_of_mem_entry hm
  have he := contentId_linkedEntry hp
  have hcopies : ∀ c, c ∈ copiesIn candidates p.1.entityId ↔
      c ∈ candidates ∧ c.entityId = (db.linkedEntry candidates p).contentId := fun c => by
    rw [he, mem_copiesIn]
  constructor
  case tags =>
    intro t
    rw [show (db.linkedEntry candidates p).tags = some (joinCsv p.1.tags) from rfl,
      splitCsv_joinCsv hclean.1, hfolds.tags]
    simp only [hcopies, and_assoc]
  case linkedFiles =>
    intro t
    rw [show (db.linkedEntry candidates p).linkedFiles = some (joinCsv p.1.linkedFiles) from rfl,
      splitCsv_joinCsv hclean.2, hfolds.linkedFiles]
    simp only [hcopies, and_assoc]
  case createdAt_le => exact fun c hc hce => hfolds.createdAt_le c ((hcopies c).mpr ⟨hc, hce⟩)
  case createdAt_mem =>
    rcases hfolds.createdAt_mem with ⟨c, hc, heq⟩
    exact ⟨c, ((hcopies c).mp hc).1, ((hcopies c).mp hc).2, heq⟩
  case archived =>
    have hstatus : (db.linkedEntry candidates p).status = "archived" ↔ p.1.status = "archived" := by
      show (if p.1.status = "archived" then "archived" else "active") = "archived" ↔ _
      split
      · next h => exact ⟨fun _ => h, fun _ => rfl⟩
      · next h => exact ⟨fun h' => absurd h' (by decide), fun h' => absurd h' h⟩
    rw [hstatus, hfolds.archived]
    simp only [hcopies, and_assoc]

/-- The row a present entry is found under gains what the entry brings. -/
theorem gainedFrom_gainRow (hu : db.UniqueOk) {m : MergedNote}
    (hm : m ∈ collapseCandidates candidates) {r : NoteRow} (hr : r ∈ db.notes)
    (hlocal : db.localOf m.entityId = some r.id) :
    gainRow db.localOf (db.present candidates) r = unionRow m.tags m.linkedFiles r ∧
      r.contentId = m.entityId ∧
      GainedFrom candidates r (gainRow db.localOf (db.present candidates) r) := by
  rcases localOf_eq_some hlocal with ⟨x, hx, hxid, hxe, _⟩
  have hxr := eq_of_id_eq hu hx hr hxid
  subst hxr
  have hfind : (db.present candidates).find? (fun m => db.localOf m.entityId = some x.id)
      = some m := by
    rcases hf : (db.present candidates).find? (fun m => db.localOf m.entityId = some x.id)
      with _ | m'
    · rw [List.find?_eq_none] at hf
      exact absurd (decide_eq_true hlocal) (hf m (mem_present.mpr ⟨hm, x, hx, hxe⟩))
    · have hlocal' := List.find?_some hf
      rcases localOf_eq_some (of_decide_eq_true hlocal') with ⟨y, hy, hyid, hye, _⟩
      have hm' := (mem_present.mp (List.mem_of_find?_eq_some hf)).1
      rw [hf, entry_eq_of_entityId_eq hm' hm (by rw [← hye, ← hxe, eq_of_id_eq hu hy hx hyid])]
  have hrow : gainRow db.localOf (db.present candidates) x = unionRow m.tags m.linkedFiles x := by
    rw [gainRow, hfind]
  have hfolds := (mem_collapseCandidates hm).1
  have hclean := cleanMember_of_mem_entry hm
  refine ⟨hrow, hxe, ?_⟩
  rw [hrow]
  constructor
  case only => exact ⟨_, _, rfl⟩
  case tags =>
    intro t
    rw [unionRow, mem_splitCsv_unionCsv _ hclean.1, hfolds.tags]
    simp only [mem_copiesIn, hxe, and_assoc]
  case linkedFiles =>
    intro t
    rw [unionRow, mem_splitCsv_unionCsv _ hclean.2, hfolds.linkedFiles]
    simp only [mem_copiesIn, hxe, and_assoc]

/-- An identity has an entry to import when it is a candidate's and has no row. -/
theorem mem_map_entityId_toImport {e : String} :
    e ∈ (db.toImport candidates).map (·.entityId) ↔
      db.rowsOf e = 0 ∧ ∃ c ∈ candidates, c.entityId = e := by
  rw [rowsOf_eq_zero_iff, List.mem_map]
  constructor
  · rintro ⟨m, hm, rfl⟩
    rcases mem_toImport.mp hm with ⟨hm, habsent⟩
    refine ⟨habsent, ?_⟩
    rcases (mem_collapseCandidates hm).1.createdAt_mem with ⟨c, hc, _⟩
    exact ⟨c, (mem_copiesIn.mp hc).1, (mem_copiesIn.mp hc).2⟩
  · rintro ⟨habsent, c, hc, rfl⟩
    rcases exists_entry hc with ⟨m, hm, he⟩
    exact ⟨m, mem_toImport.mpr ⟨hm, he ▸ habsent⟩, he⟩

theorem rowsOf_reconciled (hs : db.SchemaOk) (e : String) :
    (db.reconciled candidates).rowsOf e
      = if db.rowsOf e = 0 ∧ ∃ c ∈ candidates, c.entityId = e then 1 else db.rowsOf e := by
  have hold : (db.notes.map (gainRow db.localOf (db.present candidates))).countP
      (fun r => r.contentId = e) = db.rowsOf e := by
    rw [List.countP_map, rowsOf]
    simp only [Function.comp_def, contentId_gainRow]
  have hnew : ((db.importedPairs candidates).map (db.linkedEntry candidates)).countP
      (fun r => r.contentId = e) = ((db.toImport candidates).map (·.entityId)).count e := by
    rw [List.countP_map, List.count, ← map_fst_importedPairs, List.map_map, List.countP_map]
    refine List.countP_congr (fun p hp => ?_)
    simp only [Function.comp_apply, contentId_linkedEntry hp, decide_eq_true_eq, beq_iff_eq]
  rw [rowsOf, notes_reconciled hs, List.countP_append, hold, hnew,
    List.Nodup.count (importable_toImport db candidates).nodup]
  by_cases h : db.rowsOf e = 0 ∧ ∃ c ∈ candidates, c.entityId = e
  · rw [if_pos h, if_pos (mem_map_entityId_toImport.mpr h), h.1]
  · rw [if_neg h, if_neg (fun hm => h (mem_map_entityId_toImport.mp hm)), Nat.add_zero]

/-- The counts partition the candidates. -/
theorem counts_reconciled {summary : ReconcileSummary} (h : Counted db candidates summary) :
    candidates.length
      = summary.alreadyPresent + summary.collapsedDuplicates + summary.imported := by
  rw [h.alreadyPresent, h.collapsedDuplicates, h.imported, Nat.add_assoc]
  have hpos : ∀ m ∈ db.toImport candidates, m.rows - 1 + 1 = m.rows := by
    intro m hm
    have hfolds := (mem_collapseCandidates (mem_toImport.mp hm).1).1
    rcases hfolds.createdAt_mem with ⟨c, hc, _⟩
    have := List.length_pos_of_mem hc
    rw [hfolds.rows]
    omega
  have hsum : ((db.toImport candidates).map (fun m => m.rows - 1)).sum
      + (db.toImport candidates).length = ((db.toImport candidates).map (·.rows)).sum := by
    rw [← List.map_congr_left hpos, List.sum_map_add, List.map_const', List.sum_replicate_nat,
      Nat.mul_one]
  have hperm : (db.toImport candidates).Perm
      ((collapseCandidates candidates).filter (fun m => (db.localOf m.entityId).isNone)) :=
    List.perm_insertionSort _ _
  have hsplit := (List.filter_append_perm (fun m : MergedNote => (db.localOf m.entityId).isSome)
    (collapseCandidates candidates)).map (·.rows)
  rw [hsum, (hperm.map _).sum_eq, ← sum_rows_collapseCandidates candidates, ← hsplit.sum_eq,
    List.map_append, List.sum_append]
  simp only [present, presentEntries, Option.not_isSome]

end Contract

section Links

omit [Sha256] in
theorem candidateByServerId_eq_some {id : Nat} {d : ServerNote}
    (h : candidateByServerId candidates id = some d) : d ∈ candidates ∧ d.id = id := by
  have hid := List.find?_some h
  exact ⟨List.mem_reverse.mp (List.mem_of_find?_eq_some h), of_decide_eq_true hid⟩

omit [Sha256] in
theorem candidateByServerId_id (hids : (candidates.map (·.id)).Nodup) {d : ServerNote}
    (hd : d ∈ candidates) : candidateByServerId candidates d.id = some d := by
  rcases hf : candidateByServerId candidates d.id with _ | d'
  · rw [candidateByServerId, List.find?_eq_none] at hf
    exact absurd (decide_eq_true rfl) (hf d (List.mem_reverse.mpr hd))
  · rcases candidateByServerId_eq_some hf with ⟨hd', hid⟩
    rw [List.inj_on_of_nodup_map hids hd' hd hid]

/-- A recorded successor is one of a copy's. -/
theorem lookup_supersedeEdges_eq_some {e e' : String}
    (h : (buildSupersedeEdges candidates).lookup e = some e') :
    ∃ c ∈ candidates, ∃ d ∈ candidates, c.entityId = e ∧ c.supersededBy = some d.id ∧
      d.entityId = e' := by
  rcases List.lookup_eq_some_iff.mp h with ⟨before, after, hsplit, _⟩
  have hmem : (e, e') ∈ buildSupersedeEdges candidates := by
    rw [hsplit]
    exact List.mem_append_right _ List.mem_cons_self
  rcases List.mem_filterMap.mp hmem with ⟨c, hc, hedge⟩
  rcases Option.map_eq_some_iff.mp hedge with ⟨d, hd, heq⟩
  rcases Option.bind_eq_some_iff.mp hd with ⟨v, hv, hcand⟩
  rcases candidateByServerId_eq_some hcand with ⟨hdmem, hdid⟩
  rw [Prod.mk.injEq] at heq
  exact ⟨c, hc, d, hdmem, heq.1, by rw [hdid]; exact hv, heq.2⟩

/-- A copy with a successor among the candidates leaves its identity with one. -/
theorem exists_lookup_supersedeEdges (hids : (candidates.map (·.id)).Nodup) {c d : ServerNote}
    (hc : c ∈ candidates) (hd : d ∈ candidates) (h : c.supersededBy = some d.id) :
    ∃ e', (buildSupersedeEdges candidates).lookup c.entityId = some e' := by
  rcases hl : (buildSupersedeEdges candidates).lookup c.entityId with _ | e'
  · have hmem : (c.entityId, d.entityId) ∈ buildSupersedeEdges candidates := by
      refine List.mem_filterMap.mpr ⟨c, hc, ?_⟩
      rw [h, Option.bind_some, candidateByServerId_id hids hd]
      rfl
    have hne := List.lookup_eq_none_iff.mp hl _ hmem
    exact absurd hne (by simp)
  · exact ⟨e', rfl⟩

/-- Every candidate's identity has a row to link to. -/
theorem exists_linkTarget {c : ServerNote} (hc : c ∈ candidates) :
    ∃ v, db.linkTarget candidates c.entityId = some v := by
  rcases hi : importedRow (db.importedPairs candidates) c.entityId with _ | v
  · rcases hl : db.localOf c.entityId with _ | v
    · -- Without a row the identity has an entry.
      have habsent := rowsOf_eq_zero_iff.mpr (localOf_eq_none_iff.mp hl)
      rcases List.mem_map.mp (mem_map_entityId_toImport.mpr ⟨habsent, c, hc, rfl⟩) with ⟨m, hm, he⟩
      rw [← map_fst_importedPairs] at hm
      rcases List.mem_map.mp hm with ⟨p, hp, rfl⟩
      rw [importedRow, Option.map_eq_none_iff, List.find?_eq_none] at hi
      exact absurd (decide_eq_true he) (hi p (List.mem_reverse.mpr hp))
    · exact ⟨v, by rw [linkTarget, hi, hl]; rfl⟩
  · exact ⟨v, by rw [linkTarget, hi]; rfl⟩

/-- The successor an entry's row is linked to: the recorded one, unless that is
    its own identity. -/
theorem supersededBy_linkedEntry (hv : db.Valid) {p : MergedNote × Nat}
    (hp : p ∈ db.importedPairs candidates) (harch : p.1.status = "archived") {e' : String}
    (hl : (buildSupersedeEdges candidates).lookup p.1.entityId = some e') :
    (e' = p.1.entityId → (db.linkedEntry candidates p).supersededBy = none) ∧
      (e' ≠ p.1.entityId → ∃ s ∈ (db.reconciled candidates).notes, s.contentId = e' ∧
        (db.linkedEntry candidates p).supersededBy = some s.id) := by
  constructor
  · rintro rfl
    rcases hsucc : (db.linkedEntry candidates p).supersededBy with _ | v
    · rfl
    · rcases (join_successorLink_eq_some.mp hsucc).2 with ⟨e, he, htarget, hne⟩
      rw [hl, Option.some.injEq] at he
      subst he
      rcases linkTarget_mem htarget with ⟨r, hr, rfl, hre⟩
      exact absurd (id_of_contentId_eq_entry hp hr hre) hne
  · intro hne
    rcases lookup_supersedeEdges_eq_some hl with ⟨_, _, d, hd, _, _, rfl⟩
    rcases @exists_linkTarget _ db candidates _ hd with ⟨v, htarget⟩
    rcases linkTarget_mem htarget with ⟨r, hr, rfl, hre⟩
    have hown : r.id ≠ p.2 := by
      intro hid
      -- Two rows of one rowid would have one identity.
      have hu := ((valid_gained hv candidates).importRows
        (importable_toImport db candidates)).unique
      have hrow := mem_imported_notes.mpr (Or.inr ⟨p, hp, rfl⟩)
      rw [eq_of_id_eq hu hr hrow hid] at hre
      exact hne (hre.symm.trans (contentId_linkedEntry hp))
    refine ⟨_, List.mem_map_of_mem hr, (contentId_linkRow _ _ _ r).trans hre, ?_⟩
    rw [(keepsIndexed_linkRow _ _ _).id]
    exact join_successorLink_eq_some.mpr ⟨harch, _, hl, htarget, hown⟩

/-- The links are as promised exactly when no first successor is a copy of the
    same identity. -/
theorem linked_iff (hv : db.Valid) (hids : (candidates.map (·.id)).Nodup) :
    (∀ r' ∈ (db.reconciled candidates).notes, r'.id ∉ db.ids →
        SupersededElsewhere candidates r'.contentId →
        LinkedToSuccessor candidates (db.reconciled candidates) r') ↔
      SuccessorsElsewhere candidates db := by
  have hstatus : ∀ p ∈ db.importedPairs candidates,
      SupersededElsewhere candidates p.1.entityId → p.1.status = "archived" ∧
        ∃ e', (buildSupersedeEdges candidates).lookup p.1.entityId = some e' := by
    rintro p hp ⟨c, hc, d, hd, hce, harch, hsucc, _⟩
    have hm := (mem_toImport.mp (mem_importedPairs hp).1).1
    refine ⟨(mem_collapseCandidates hm).1.archived.mpr ⟨c, mem_copiesIn.mpr ⟨hc, hce⟩, harch⟩, ?_⟩
    exact hce ▸ exists_lookup_supersedeEdges hids hc hd hsucc
  constructor
  · intro hlinked e hzero helse hself
    rcases id helse with ⟨c, hc, _, _, hce, _⟩
    rcases List.mem_map.mp (mem_map_entityId_toImport.mpr ⟨hzero, c, hc, hce⟩) with ⟨m, hm, rfl⟩
    rw [← map_fst_importedPairs] at hm
    rcases List.mem_map.mp hm with ⟨p, hp, rfl⟩
    have hrow := (mem_reconciled_notes hv.toSchemaOk).mpr (Or.inr ⟨p, hp, rfl⟩)
    rcases hlinked _ hrow (linkedEntry_notMem_ids hv.toSchemaOk hp)
      (by rwa [contentId_linkedEntry hp]) with ⟨_, _, _, _, _, _, _, s, _, _, hsome⟩
    rw [(supersededBy_linkedEntry hv hp (hstatus p hp helse).1 hself).1 rfl] at hsome
    exact absurd hsome (by simp)
  · intro helsewhere r' hr' hnew helse
    rcases exists_entry_of_notMem_ids hv.toSchemaOk hr' hnew with ⟨p, hp, rfl⟩
    rw [contentId_linkedEntry hp] at helse
    rcases hstatus p hp helse with ⟨harch, e', hl⟩
    have hzero : db.rowsOf p.1.entityId = 0 :=
      rowsOf_eq_zero_iff.mpr (mem_toImport.mp (mem_importedPairs hp).1).2
    have hne : e' ≠ p.1.entityId := by
      rintro rfl
      exact helsewhere _ hzero helse hl
    rcases (supersededBy_linkedEntry hv hp harch hl).2 hne with ⟨s, hs, hse, hsome⟩
    rcases lookup_supersedeEdges_eq_some hl with ⟨c, hc, d, hd, hce, hsucc, rfl⟩
    exact ⟨c, hc, d, hd, by rw [contentId_linkedEntry hp, hce], hsucc,
      by rwa [contentId_linkedEntry hp], s, hs, hse, hsome⟩

end Links

section Again

theorem reconciled_eq_updateRows (db : MemoryDb) (candidates : List ServerNote) :
    db.reconciled candidates
      = ((db.gained candidates).importRows (db.toImport candidates)).updateRows (fun _ => true)
        (linkRow (buildSupersedeEdges candidates) (db.linkTarget candidates)
          (db.importedPairs candidates)) := by
  simp only [reconciled, updateRows, if_true]

theorem valid_reconciled (hv : db.Valid) (candidates : List ServerNote) :
    (db.reconciled candidates).Valid := by
  have himported := (valid_gained hv candidates).importRows (importable_toImport db candidates)
  rw [reconciled_eq_updateRows]
  refine himported.updateRows _ (keepsIndexed_linkRow _ _ _) (contentId_linkRow _ _ _)
    (fun r => ?_) (fun r hr _ v hsucc => ?_)
  · rw [linkRow]
    split <;> exact Or.inl rfl
  · rw [linkRow] at hsucc
    split at hsucc
    · next p _ =>
      rcases Option.or_eq_some_iff.mp hsucc with hlink | ⟨_, hold⟩
      · rcases (join_successorLink_eq_some.mp hlink).2 with ⟨e, _, htarget, _⟩
        rcases linkTarget_mem htarget with ⟨s, hs, rfl, _⟩
        exact List.mem_map_of_mem hs
      · exact himported.foreignKeys.1 r hr v hold
    · exact himported.foreignKeys.1 r hr v hsucc

/-- After a run every candidate's identity has a row. -/
theorem toImport_reconciled (hs : db.SchemaOk) (emb : List (Nat × List UInt8)) :
    ({ db.reconciled candidates with embeddings := emb } : MemoryDb).toImport candidates = [] := by
  rw [List.eq_nil_iff_forall_not_mem]
  intro m hm
  rcases mem_toImport.mp hm with ⟨hm, habsent⟩
  have hzero : (db.reconciled candidates).rowsOf m.entityId = 0 := rowsOf_eq_zero_iff.mpr habsent
  rcases (mem_collapseCandidates hm).1.createdAt_mem with ⟨c, hc, _⟩
  rw [rowsOf_reconciled hs] at hzero
  split at hzero
  · exact absurd hzero (by decide)
  · next hnot => exact hnot ⟨hzero, c, (mem_copiesIn.mp hc).1, (mem_copiesIn.mp hc).2⟩

/-- After a run no present row has anything to gain. -/
theorem gained_reconciled (hv : db.Valid) (emb : List (Nat × List UInt8)) :
    ({ db.reconciled candidates with embeddings := emb } : MemoryDb).gained candidates
      = { db.reconciled candidates with embeddings := emb } := by
  generalize hdb' : ({ db.reconciled candidates with embeddings := emb } : MemoryDb) = db'
  have hnotes : db'.notes = (db.reconciled candidates).notes := by rw [← hdb']
  have hu' : db'.UniqueOk := by
    rw [← hdb']
    exact (valid_reconciled hv candidates).unique
  have hrow : ∀ r' ∈ db'.notes, gainRow db'.localOf (db'.present candidates) r' = r' := by
    intro r' hr'
    rw [gainRow]
    split
    swap
    · rfl
    next m hfind =>
    have hlocal := List.find?_some hfind
    have hm := (mem_present.mp (List.mem_of_find?_eq_some hfind)).1
    have hclean := cleanMember_of_mem_entry hm
    rcases localOf_eq_some (of_decide_eq_true hlocal) with ⟨y, hy, hyid, hye, hold⟩
    rw [eq_of_id_eq hu' hy hr' hyid] at hye hold
    rw [hnotes] at hr'
    rcases (mem_reconciled_notes hv.toSchemaOk).mp hr' with ⟨r, hr, rfl⟩ | ⟨p, hp, rfl⟩
    · -- The row was the oldest of its identity before, and has gained the entry.
      have hcreated : ∀ x, (gainRow db.localOf (db.present candidates) x).createdAt
          = x.createdAt := by
        intro x
        rw [gainRow]
        split <;> rfl
      have hid := (keepsIndexed_gainRow db.localOf (db.present candidates)).id
      rw [contentId_gainRow] at hye
      have hlocal₀ : db.localOf m.entityId = some r.id := by
        rw [← hye]
        refine localOf_eq_of_oldest hr (fun x hx hxe => ?_)
        have hx' := hold (gainRow db.localOf (db.present candidates) x) (hnotes ▸
          (mem_reconciled_notes hv.toSchemaOk).mpr (Or.inl ⟨x, hx, rfl⟩))
          ((contentId_gainRow _ _ x).trans (hxe.trans hye))
        rwa [olderRow, hcreated, hcreated, hid, hid] at hx'
      rw [(gainedFrom_gainRow hv.unique hm hr hlocal₀).1]
      simp only [unionRow, unionCsv_unionCsv _ hclean.1, unionCsv_unionCsv _ hclean.2]
    · rw [contentId_linkedEntry hp] at hye
      have hpm := entry_eq_of_entityId_eq (mem_toImport.mp (mem_importedPairs hp).1).1 hm hye
      subst hpm
      have htags : (db.linkedEntry candidates p).tags = some (joinCsv p.1.tags) := rfl
      have hfiles : (db.linkedEntry candidates p).linkedFiles = some (joinCsv p.1.linkedFiles) :=
        rfl
      rw [unionRow, htags, hfiles, unionCsv_of_subset hclean.1 hclean.1 (fun _ h => h),
        unionCsv_of_subset hclean.2 hclean.2 (fun _ h => h)]
      rfl
  rw [gained, List.map_congr_left hrow, List.map_id']

end Again

section Failure

omit [Sha256] in
/-- No outcome of merging tags and files changes which rows there are. -/
theorem keeps_ids_mergePresent (l : List Nat) (localOf : String → Option Nat)
    (present : List MergedNote) :
    Sql.Keeps (fun s : MemoryDb => s.ids = l) (mergePresent localOf present) := by
  refine Sql.Keeps.forEach present (fun m _ => ?_)
  rcases localOf m.entityId with _ | id
  · exact Sql.Keeps.ok ()
  refine Sql.Keeps.bind (Sql.Keeps.attempt (Sql.Keeps.bind ?_ (fun cur => ?_)))
    (fun _ => Sql.Keeps.ok ())
  · refine Sql.Keeps.bind (Sql.Keeps.query _) (fun r => ?_)
    rcases r with _ | r
    · exact Sql.Keeps.fail _
    · exact Sql.Keeps.ok r
  · simp only [Sql.bind_eq, Sql.pure_eq]
    split
    · exact Sql.Keeps.ok _
    · refine Sql.Keeps.bind (Sql.Keeps.statement (fun s n s' hs hf => ?_)) (fun _ => Sql.Keeps.ok _)
      rw [(of_checked_eq_ok hf).2.1, ids_updateRows]
      · exact hs
      · exact fun _ => rfl

omit [Sha256] in
/-- Setting the links never fails the run. -/
theorem linkImported_not_error (edges : List (String × String)) (localOf : String → Option Nat)
    (imported : List (MergedNote × Nat)) :
    Sql.Post (fun _ => True) (linkImported edges localOf imported) (fun _ _ => True)
      (fun _ => False) := by
  refine Sql.Post.foldEach (I := fun _ _ _ => True) imported 0 (fun done p rest unresolved _ => ?_)
  rcases successorLink edges localOf p.1 p.2 with _ | _ | v
  · exact Sql.Post.ok _ (fun _ _ => trivial)
  · exact Sql.Post.ok _ (fun _ _ => trivial)
  · refine Sql.Post.bind (Q := fun _ _ => True) (Sql.Post.attempt (Q := fun _ _ => True)
      (E := fun _ => True) (fun _ _ => ⟨fun _ _ => trivial, fun _ _ => trivial⟩)
      (fun _ _ _ => trivial) (fun _ _ _ => trivial)) (fun r => ?_)
    rcases r with e | u
    · exact Sql.Post.ok _ (fun _ _ => trivial)
    · exact Sql.Post.ok _ (fun _ _ => trivial)

/-- A run that fails, at whatever statement, has inserted nothing. -/
theorem reconcileProject_error_ids (embed : String → Option (List UInt8)) (l : List Nat) :
    Sql.Post (fun s => s.ids = l) (reconcileProject candidates embed false) (fun _ _ => True)
      (fun s => s.ids = l) := by
  unfold reconcileProject
  simp only [Sql.bind_eq, Sql.pure_eq, Bool.false_eq_true, if_false]
  split
  · exact Sql.Post.ok _ (fun _ _ => trivial)
  refine Sql.Post.bind (Sql.Post.of_keeps (Sql.Keeps.query _)) (fun all => ?_)
  refine Sql.Post.bind (Sql.Post.of_keeps (keeps_ids_mergePresent _ _ _)) (fun _ => ?_)
  split
  · exact Sql.Post.ok _ (fun _ _ => trivial)
  refine Sql.Post.bind (Q := fun _ _ => True) (Sql.Post.transaction (F := fun _ => True)
    (fun _ _ => ⟨fun _ _ => trivial, fun _ _ => trivial⟩) (fun _ hs => hs)) (fun ids => ?_)
  exact Sql.Post.bind (Sql.Post.mono (linkImported_not_error _ _ _) (fun _ _ => trivial)
    (fun _ _ hs => hs) (fun _ h => h.elim)) (fun _ => Sql.Post.ok _ (fun _ _ => trivial))

/-- A run succeeds only when every vector it stores has the right size. -/
theorem post_reconcileProject_blobs (embed : String → Option (List UInt8)) :
    Sql.Post (fun s => s = db) (reconcileProject candidates embed false)
      (fun _ _ => ∀ n ∈ embedEntries embed (db.toImport candidates), ∀ blob ∈ n.2,
        blob.length = embeddingBytes) (fun _ => True) := by
  unfold reconcileProject
  simp only [Sql.bind_eq, Sql.pure_eq, Bool.false_eq_true, if_false]
  split
  · next hnil =>
    subst hnil
    exact Sql.Post.ok _ (fun _ _ n hn => absurd hn List.not_mem_nil)
  refine Sql.Post.bind (Q := fun all _ => all = db.snapshot) (Sql.Post.query _
    (fun s hs => by rw [hs]; rfl) (fun _ _ => trivial)) (fun all => Sql.Post.of_fact (fun hall => ?_))
  subst hall
  refine Sql.Post.bind (Sql.Post.of_keeps (I := fun _ => True) (fun _ _ => trivial)) (fun _ => ?_)
  split
  · next hto =>
    refine Sql.Post.ok _ (fun _ _ n hn => ?_)
    rw [show db.toImport candidates = [] from hto] at hn
    exact absurd hn List.not_mem_nil
  refine Sql.Post.bind (post_importBatch_blobs _) (fun ids => Sql.Post.of_fact (fun hblobs => ?_))
  exact Sql.Post.bind (Sql.Post.of_keeps (I := fun _ => True) (fun _ _ => trivial))
    (fun _ => Sql.Post.ok _ (fun _ _ => hblobs))

end Failure

/-- The contract, the links apart, and when the links are as promised. -/
theorem reconciled_iff (hv : db.Valid) (hids : (candidates.map (·.id)).Nodup)
    (embed : String → Option (List UInt8)) {summary : ReconcileSummary}
    (hcounted : Counted db candidates summary) (emb : List (Nat × List UInt8)) :
    Reconciled candidates embed db { db.reconciled candidates with embeddings := emb } summary ↔
      SuccessorsElsewhere candidates db := by
  have hs := hv.toSchemaOk
  rw [← linked_iff hv hids]
  constructor
  · exact fun h => h.linked
  intro hlinked
  constructor
  case rows => exact rowsOf_reconciled hs
  case imported =>
    intro r' hr' hnew
    rcases exists_entry_of_notMem_ids hs hr' hnew with ⟨p, hp, rfl⟩
    exact importedFrom_linkedEntry hp
  case gained =>
    intro c hc hrows
    rcases exists_entry hc with ⟨m, hm, he⟩
    rcases hl : db.localOf m.entityId with _ | id
    · exact absurd (rowsOf_eq_zero_iff.mpr (he ▸ localOf_eq_none_iff.mp hl)) hrows
    rcases localOf_eq_some hl with ⟨r, hr, rfl, hre, hold⟩
    rw [he] at hre hold
    exact ⟨r, hr, hre, hold, _, (mem_reconciled_notes hs).mpr (Or.inl ⟨r, hr, rfl⟩),
      (gainedFrom_gainRow hv.unique hm hr hl).2.2⟩
  case total => exact hcounted.total
  case counts => exact counts_reconciled hcounted
  case linked => exact hlinked
  case no_self_link =>
    intro r' hr' hnew hself
    rcases exists_entry_of_notMem_ids hs hr' hnew with ⟨p, hp, rfl⟩
    rcases (join_successorLink_eq_some.mp hself).2 with ⟨_, _, _, hne⟩
    exact hne rfl
  case again =>
    have hvalid := valid_reconciled hv candidates
    have hto := @toImport_reconciled _ db candidates hs emb
    have hv' : ({ db.reconciled candidates with embeddings := emb } : MemoryDb).Valid :=
      ⟨⟨hvalid.unique, hvalid.foreignKeys, hvalid.id_lt⟩, hvalid.status, hvalid.entity⟩
    rcases @answers_reconcileProject _ _ candidates hv' embed
      (by rw [hto]; exact fun n hn => absurd hn List.not_mem_nil) _ rfl
      with ⟨summary', db'', hrun, hcounted', hsame, _⟩
    rw [hsame hto, gained_reconciled hv] at hrun
    exact ⟨summary', hrun, by rw [hcounted'.imported, hto]; rfl⟩

/-- Reconciling is as promised when the storage serves it exactly when no first
    successor is a copy of the same identity. It succeeds when every vector has
    the right size, and a run that fails has inserted nothing. -/
theorem reconcileProject_correct_iff (db : MemoryDb) (candidates : List ServerNote)
    (embed : String → Option (List UInt8)) (hv : db.Valid)
    (hids : (candidates.map (·.id)).Nodup) :
    (∀ summary db', reconcileProject candidates embed false ⟨db, none⟩
        = (.ok summary, ⟨db', none⟩) →
      (Reconciled candidates embed db db' summary ↔ SuccessorsElsewhere candidates db)) ∧
    ((∀ text, ∀ blob ∈ embed text, blob.length = embeddingBytes) →
      ∃ summary db', reconcileProject candidates embed false ⟨db, none⟩
        = (.ok summary, ⟨db', none⟩)) ∧
    ∀ fault e, (reconcileProject candidates embed false ⟨db, fault⟩).1 = .error e →
      (reconcileProject candidates embed false ⟨db, fault⟩).2.db.ids = db.ids := by
  refine ⟨fun summary db' hrun => ?_, fun hembed => ?_, fun fault e he => ?_⟩
  · have hblobs := (@post_reconcileProject_blobs _ db candidates embed
      ⟨db, none⟩ rfl).1 summary (by rw [hrun])
    rcases answers_reconcileProject hv hblobs db rfl with ⟨_, _, hrun', hcounted, _, emb, rfl⟩
    rw [hrun, Prod.mk.injEq, Except.ok.injEq, Lib.Conn.mk.injEq] at hrun'
    rw [hrun'.1, hrun'.2.1]
    exact reconciled_iff hv hids embed hcounted emb
  · have hblobs : ∀ n ∈ embedEntries embed (db.toImport candidates), ∀ blob ∈ n.2,
        blob.length = embeddingBytes := by
      intro n hn
      rcases List.mem_map.mp hn with ⟨m, _, rfl⟩
      exact hembed _
    rcases answers_reconcileProject hv hblobs db rfl with ⟨summary, db', hrun, _⟩
    exact ⟨summary, db', hrun⟩
  · exact (reconcileProject_error_ids embed db.ids ⟨db, fault⟩ rfl).2 e he

section CollapsedPair

omit [Sha256]

/-- Two copies of one entry, the first superseded by the second and the second
    by an entry of another text. -/
def rewordedCandidates : List ServerNote :=
  [⟨1, "decision", "HTTP layer", "use axum", "api", "", 10, "archived", some 2⟩,
    ⟨2, "decision", "HTTP layer", "use axum", "", "", 20, "archived", some 3⟩,
    ⟨3, "decision", "HTTP layer", "use hyper", "", "", 30, "active", none⟩]

theorem reconcileProject_correct_iff_rewordedCandidates :
    (∀ summary db', @reconcileProject workedSha256 rewordedCandidates (fun _ => none) false
        ⟨emptyStore, none⟩ = (.ok summary, ⟨db', none⟩) →
      (@Reconciled workedSha256 rewordedCandidates (fun _ => none) emptyStore db' summary ↔
        @SuccessorsElsewhere workedSha256 rewordedCandidates emptyStore)) ∧
    ((∀ _text : String, ∀ blob ∈ (none : Option (List UInt8)), blob.length = embeddingBytes) →
      ∃ summary db', @reconcileProject workedSha256 rewordedCandidates (fun _ => none) false
        ⟨emptyStore, none⟩ = (.ok summary, ⟨db', none⟩)) ∧
    ∀ fault e, (@reconcileProject workedSha256 rewordedCandidates (fun _ => none) false
        ⟨emptyStore, fault⟩).1 = .error e →
      (@reconcileProject workedSha256 rewordedCandidates (fun _ => none) false
        ⟨emptyStore, fault⟩).2.db.ids = emptyStore.ids :=
  @reconcileProject_correct_iff workedSha256 emptyStore rewordedCandidates (fun _ => none)
    (@valid_emptyStore workedSha256) (by decide)

/-- The row imported for the two copies is archived and has no successor. -/
theorem reconcileProject_unlinked :
    ∃ summary db', @reconcileProject workedSha256 rewordedCandidates (fun _ => none) false
        ⟨emptyStore, none⟩ = (.ok summary, ⟨db', none⟩) ∧
      ¬ @Reconciled workedSha256 rewordedCandidates (fun _ => none) emptyStore db' summary := by
  have hrun : ∃ summary db', @reconcileProject workedSha256 rewordedCandidates (fun _ => none) false
        ⟨emptyStore, none⟩ = (.ok summary, ⟨db', none⟩) ∧
      ∃ r' ∈ db'.notes, r'.id = 1 ∧ r'.supersededBy = none ∧
        @NoteRow.contentId workedSha256 r'
          = @entityId workedSha256 "decision" "HTTP layer" "use axum" := by
    refine ⟨_, _, rfl, ?_⟩
    decide
  rcases hrun with ⟨summary, db', hrun, r', hr', _, hnone, he⟩
  refine ⟨summary, db', hrun, fun h => ?_⟩
  have helse : @SupersededElsewhere workedSha256 rewordedCandidates
      (@entityId workedSha256 "decision" "HTTP layer" "use axum") := by
    unfold SupersededElsewhere
    decide
  rcases @Reconciled.linked workedSha256 _ _ _ _ _ h r' hr' List.not_mem_nil (he ▸ helse)
    with ⟨_, _, _, _, _, _, _, s, _, _, hsome⟩
  rw [hnone] at hsome
  exact absurd hsome (by simp)

end CollapsedPair

end Spelunk
