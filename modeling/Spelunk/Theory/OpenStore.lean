import Spelunk.Theory.StoreWriters

/-!
# Opening a Store

What an open does to the identities of a store. Every row that lacks one gets
the identity of its content, unless another row holds it under the unique index;
then the index becomes unique if no identity is stored twice. Nothing else of a
row changes, a collision is never a failure, and what is missing afterwards is
held by another row.

## Main definitions

* `SameRows`: Two stores that differ in identities only.
* `MemoryDb.Backfilled`: Every identity is stored by some row.
* `Opened`: What an open leaves of a store.

## Theorems

* `survives_backfillEntityIds`: The backfill, unless a fault stops it.
* `survives_openStore`: The whole open.
* `Opened.twin`: A row without an identity has a twin.
* `Opened.of_distinct`: Without twins, every row gets its identity.
-/

namespace Spelunk

open Lib (Sql SqlError)

open MemoryDb

variable [Sha256]

/-- A row, its stored identity aside. -/
def withoutIdentity (r : NoteRow) : NoteRow :=
  { r with entityId := none }

/-- Two stores that differ in stored identities only. -/
structure SameRows (db s : MemoryDb) : Prop where
  rows : s.notes.map withoutIdentity = db.notes.map withoutIdentity
  edges : s.edges = db.edges
  embeddings : s.embeddings = db.embeddings
  nextId : s.nextId = db.nextId

namespace SameRows

variable {db s t : MemoryDb}

omit [Sha256]

theorem refl (db : MemoryDb) : SameRows db db := ⟨rfl, rfl, rfl, rfl⟩

theorem symm (h : SameRows db s) : SameRows s db :=
  ⟨h.rows.symm, h.edges.symm, h.embeddings.symm, h.nextId.symm⟩

theorem trans (h : SameRows db s) (h' : SameRows s t) : SameRows db t :=
  ⟨h'.rows.trans h.rows, h'.edges.trans h.edges, h'.embeddings.trans h.embeddings,
    h'.nextId.trans h.nextId⟩

/-- What does not depend on the stored identity is the same list. -/
theorem map_eq {β : Type} (h : SameRows db s) (g : NoteRow → β)
    (hg : ∀ r, g (withoutIdentity r) = g r) : s.notes.map g = db.notes.map g := by
  have hmap := congrArg (List.map g) h.rows
  rwa [List.map_map, List.map_map, show g ∘ withoutIdentity = g from funext hg] at hmap

/-- Every row of one store is a row of the other, its identity aside. -/
theorem exists_row (h : SameRows db s) {r : NoteRow} (hr : r ∈ s.notes) :
    ∃ r₀ ∈ db.notes, withoutIdentity r₀ = withoutIdentity r := by
  have hmem := List.mem_map_of_mem (f := withoutIdentity) hr
  rw [h.rows] at hmem
  exact List.mem_map.mp hmem

/-- Storing identities changes nothing else. -/
theorem updateRows (s : MemoryDb) (p : NoteRow → Bool) (e : String) :
    SameRows s (s.updateRows p (fun r => { r with entityId := some e })) := by
  refine ⟨?_, rfl, rfl, rfl⟩
  rw [MemoryDb.updateRows, List.map_map]
  refine List.map_congr_left (fun r _ => ?_)
  simp only [Function.comp_apply]
  split
  · rfl
  · rfl

end SameRows

@[simp] theorem contentId_withoutIdentity (r : NoteRow) :
    (withoutIdentity r).contentId = r.contentId := rfl

theorem of_withoutIdentity_eq {r r₀ : NoteRow} (h : withoutIdentity r₀ = withoutIdentity r) :
    r₀.id = r.id ∧ r₀.contentId = r.contentId ∧ r₀.status = r.status := by
  have hid := congrArg NoteRow.id h
  have hcontent := congrArg NoteRow.contentId h
  have hstatus := congrArg NoteRow.status h
  rw [contentId_withoutIdentity, contentId_withoutIdentity] at hcontent
  exact ⟨hid, hcontent, hstatus⟩

omit [Sha256] in
/-- A row that gets an identity no row has is admitted. -/
theorem uniqueOk_setEntityId {s : MemoryDb} (hu : s.UniqueOk) (id : Nat) {e : String}
    (hnew : ∀ x ∈ s.notes, x.entityId ≠ some e) :
    (s.updateRows (fun r => r.id = id) (fun r => { r with entityId := some e })).UniqueOk := by
  refine ⟨?_, ?_, ?_, fun hindex => ?_⟩
  · rw [ids_updateRows s _ (f := fun r => { r with entityId := some e }) (fun _ => rfl)]
    exact hu.1
  · rw [filterMap_updateRows s _ (f := fun r => { r with entityId := some e }) _ (fun _ => rfl)]
    exact hu.2.1
  · rw [filterMap_updateRows s _ (f := fun r => { r with entityId := some e }) _ (fun _ => rfl)]
    exact hu.2.2.1
  · simp only [MemoryDb.updateRows, decide_eq_true_eq]
    refine Lib.nodup_filterMap_set (k := NoteRow.id) hu.1 (hu.2.2.2 hindex)
      (fun x _ _ v hv y hy _ => ?_)
    rw [Option.mem_some_iff] at hv
    exact hv ▸ hnew y hy

/-- The store `s` after the backfill of the rows `done` of `db`. -/
structure Backfilling (db : MemoryDb) (done : List NoteRow) (s : MemoryDb) : Prop where
  valid : s.Valid
  same : SameRows db s
  index : s.entityIdUnique = db.entityIdUnique
  /-- A row that lacks its identity lacked it before. -/
  lacking : ∀ r ∈ s.notes, r.entityId = none → r ∈ db.notes
  stored : ∀ row ∈ done, ∃ x ∈ s.notes, x.entityId = some row.contentId

namespace Backfilling

variable {db s : MemoryDb} {done : List NoteRow} {row : NoteRow}

theorem start (hv : db.Valid) : Backfilling db [] db :=
  ⟨hv, SameRows.refl db, rfl, fun _ hr _ => hr, fun _ h => absurd h List.not_mem_nil⟩

/-- A row whose identity is held already counts as done. -/
theorem skip (h : Backfilling db done s) {x : NoteRow} (hx : x ∈ s.notes)
    (hxe : x.entityId = some row.contentId) : Backfilling db (done ++ [row]) s := by
  refine ⟨h.valid, h.same, h.index, h.lacking, fun r hr => ?_⟩
  rcases List.mem_append.mp hr with hr | hr
  · exact h.stored r hr
  · rw [List.mem_singleton.mp hr]
    exact ⟨x, hx, hxe⟩

/-- A row gets the identity of its content. -/
theorem set (h : Backfilling db done s) (hrow : row ∈ db.notes)
    (hu : (s.updateRows (fun r => r.id = row.id)
      (fun r => { r with entityId := some row.contentId })).UniqueOk)
    (hfk : (s.updateRows (fun r => r.id = row.id)
      (fun r => { r with entityId := some row.contentId })).ForeignKeysOk) :
    Backfilling db (done ++ [row])
      (s.updateRows (fun r => r.id = row.id) (fun r => { r with entityId := some row.contentId })) := by
  -- The row of this id says what the row read ahead said.
  have hcontent : ∀ r ∈ s.notes, r.id = row.id → r.contentId = row.contentId := by
    intro r hr hid
    rcases h.same.exists_row hr with ⟨r₀, hr₀, heq⟩
    rcases h.same.symm.exists_row hrow with ⟨x, hx, hxrow⟩
    have hxr : x = r := eq_of_id_eq h.valid.unique hx hr
      ((of_withoutIdentity_eq hxrow).1.trans hid.symm)
    exact hxr ▸ (of_withoutIdentity_eq hxrow).2.1
  constructor
  case valid =>
    refine linkClosed_valid.update h.valid (fun r hr hp => ⟨⟨rfl, rfl, Or.inr ?_, Or.inl rfl⟩, rfl⟩)
      hu hfk
    exact congrArg some (hcontent r hr (of_decide_eq_true hp)).symm
  case same => exact h.same.trans (SameRows.updateRows s _ _)
  case index => exact h.index
  case lacking =>
    intro r hr hnone
    rcases List.mem_map.mp hr with ⟨r', hr', rfl⟩
    split at hnone
    · exact absurd hnone (by simp)
    case isFalse hp =>
      rw [if_neg hp]
      exact h.lacking r' hr' hnone
  case stored =>
    intro r hr
    rcases List.mem_append.mp hr with hr | hr
    · -- A holder that is written again is written the identity it has.
      rcases h.stored r hr with ⟨x, hx, hxe⟩
      refine ⟨_, List.mem_map_of_mem hx, ?_⟩
      split
      case isTrue hp =>
        have hxc := h.valid.entity x hx _ hxe
        rw [hxc, hcontent x hx (of_decide_eq_true hp)]
      case isFalse => exact hxe
    · rw [List.mem_singleton.mp hr]
      rcases h.same.symm.exists_row hrow with ⟨x, hx, hxrow⟩
      have hid : x.id = row.id := (of_withoutIdentity_eq hxrow).1
      exact ⟨_, List.mem_map_of_mem hx, by rw [if_pos (decide_eq_true hid)]⟩

end Backfilling

/-- Every identity is stored by some row. -/
def MemoryDb.Backfilled (db : MemoryDb) : Prop :=
  ∀ r ∈ db.notes, ∃ x ∈ db.notes, x.entityId = some r.contentId

/-- The backfill, unless a fault stops it. -/
theorem survives_backfillEntityIds {db : MemoryDb} (hv : db.Valid) :
    Sql.Survives (fun s => s = db) backfillEntityIds
      (fun _ s => Backfilling db [] s ∧ s.Backfilled) (fun s => Backfilling db [] s) := by
  have hdrop : ∀ {done s}, Backfilling db done s → Backfilling db [] s := fun h =>
    ⟨h.valid, h.same, h.index, h.lacking, fun _ hr => absurd hr List.not_mem_nil⟩
  refine Sql.Survives.bind (Q := fun rows s => rows = db.notes.filter (fun r => r.entityId.isNone) ∧
    s = db) (Sql.Survives.query (fun s hs => ⟨hs ▸ rfl, hs⟩)
      (fun s hs => by rw [hs]; exact Backfilling.start hv)) (fun rows => Sql.Survives.of_pre (fun hrows => ?_))
  refine Sql.Survives.mono (Sql.Survives.forEach (I := fun done s => Backfilling db done s)
    (E := fun s => Backfilling db [] s) rows ?_) (fun s hs => by rw [hs]; exact Backfilling.start hv)
    (fun _ s hs => ⟨hdrop hs, fun r hr => ?_⟩) (fun _ hs => hs)
  · intro done row rest hsplit
    have hrow : row ∈ db.notes := by
      refine List.mem_of_mem_filter (p := fun r : NoteRow => r.entityId.isNone) ?_
      rw [← hrows, hsplit]
      exact List.mem_append_right _ List.mem_cons_self
    refine Sql.Survives.attempt (T := fun result s => (result ≠ .error .unique →
      ∃ n, result = .ok n) ∧ Backfilling db (done ++ [row]) s) (fun s n s' hs hrun => ?_)
      (fun s e hs hrun => ?_) (fun result => Sql.Survives.of_pre (fun hresult => ?_))
      (fun c hc => ⟨⟨_, rfl⟩, hdrop hc⟩)
    · rcases of_checked_eq_ok hrun with ⟨_, rfl, hu, hfk⟩
      exact ⟨fun _ => ⟨n, rfl⟩, hs.set hrow hu hfk⟩
    · -- Only a holder of the identity makes the index refuse.
      have hfk := hs.valid.foreignKeys.updateRows (fun r => r.id = row.id)
        (f := fun r => { r with entityId := some row.contentId }) (fun _ => rfl)
        (fun r hr _ v hv => hs.valid.foreignKeys.1 r hr v hv)
      by_cases hu : (s.updateRows (fun r => r.id = row.id)
          (fun r => { r with entityId := some row.contentId })).UniqueOk
      · rw [checked_eq_ok hu hfk] at hrun
        exact absurd hrun (by simp)
      · rw [checked, if_pos hu] at hrun
        rw [← Except.error.inj hrun]
        refine ⟨fun h => absurd rfl h, ?_⟩
        by_contra hno
        refine hu (uniqueOk_setEntityId hs.valid.unique row.id (fun x hx hxe => ?_))
        exact hno (hs.skip hx hxe)
    · rcases result with e | n
      · by_cases he : e = .unique
        · subst he
          exact Sql.Survives.ok _ (fun _ hs => hs)
        · rcases hresult (fun h => he (Except.error.inj h)) with ⟨n, hn⟩
          exact absurd hn (by simp)
      · exact Sql.Survives.ok _ (fun _ hs => hs)
  · rcases hre : r.entityId with _ | e
    · refine hs.stored r ?_
      rw [hrows]
      exact List.mem_filter.mpr ⟨hs.lacking r hr hre, by rw [hre]; rfl⟩
    · exact ⟨r, hr, by rw [hre, hs.valid.entity r hr e hre]⟩

/-- What an open leaves of a store. -/
structure Opened (db s : MemoryDb) : Prop where
  valid : s.Valid
  same : SameRows db s
  backfilled : s.Backfilled
  /-- The index is unique, unless two rows store one identity. -/
  promoted : (s.notes.filterMap (·.entityId)).Nodup → s.entityIdUnique = true

/-- The whole open. A collision of identities is not a failure. -/
theorem survives_openStore {db : MemoryDb} (hv : db.Valid) :
    Sql.Survives (fun s => s = db) openStore (fun _ s => Opened db s)
      (fun s => s.Valid ∧ SameRows db s) := by
  refine Sql.Survives.bind (Sql.Survives.mono (survives_backfillEntityIds hv) (fun _ hs => hs)
    (fun _ _ hs => hs) (fun _ hs => ⟨hs.valid, hs.same⟩))
    (fun _ => Sql.Survives.execute (fun s hs => ?_) (fun _ hs => ⟨hs.1.valid, hs.1.same⟩))
  rcases hs with ⟨hs, hback⟩
  by_cases hindex : s.entityIdUnique = true
  · exact ⟨s, if_pos hindex, hs.valid, hs.same, hback, fun _ => hindex⟩
  · by_cases hdup : s.entityIdDuplicates = true
    · refine ⟨s, by rw [if_neg hindex, if_pos hdup], hs.valid, hs.same, hback, fun h => ?_⟩
      rw [entityIdDuplicates, decide_eq_true_eq] at hdup
      exact absurd h hdup
    · refine ⟨{ s with entityIdUnique := true }, by rw [if_neg hindex, if_neg hdup], ?_,
        ⟨hs.same.rows, hs.same.edges, hs.same.embeddings, hs.same.nextId⟩, hback, fun _ => rfl⟩
      rw [entityIdDuplicates, decide_eq_true_eq, not_not] at hdup
      exact linkClosed_valid.promote hs.valid hdup

namespace Opened

variable {db s : MemoryDb}

/-- A row without an identity has a twin that holds it. -/
theorem twin (h : Opened db s) {r : NoteRow} (hr : r ∈ s.notes) (hnone : r.entityId = none) :
    ∃ x ∈ s.notes, x.id ≠ r.id ∧ x.contentId = r.contentId ∧ x.entityId = some r.contentId := by
  rcases h.backfilled r hr with ⟨x, hx, hxe⟩
  refine ⟨x, hx, fun hid => ?_, (h.valid.entity x hx _ hxe).symm, hxe⟩
  rw [eq_of_id_eq h.valid.unique hx hr hid, hnone] at hxe
  exact absurd hxe (by simp)

/-- Where contents are distinct, every row stores its identity and the index is unique. -/
theorem of_distinct (h : Opened db s) (hdistinct : (db.notes.map (·.contentId)).Nodup) :
    (∀ r ∈ s.notes, r.entityId = some r.contentId) ∧ s.entityIdUnique = true := by
  have hcontents : (s.notes.map (·.contentId)).Nodup := by
    rw [h.same.map_eq NoteRow.contentId (fun _ => rfl)]
    exact hdistinct
  have hstored : ∀ r ∈ s.notes, r.entityId = some r.contentId := by
    intro r hr
    rcases h.backfilled r hr with ⟨x, hx, hxe⟩
    have hxr : x = r := List.inj_on_of_nodup_map hcontents hx hr (h.valid.entity x hx _ hxe).symm
    subst hxr
    exact hxe
  refine ⟨hstored, h.promoted ?_⟩
  have hmap : s.notes.filterMap (·.entityId) = s.notes.map (·.contentId) := by
    rw [← List.filterMap_eq_map]
    exact List.filterMap_congr (fun r hr => hstored r hr)
  rw [hmap]
  exact hcontents

end Opened

end Spelunk
