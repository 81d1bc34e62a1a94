import Spelunk.Theory.StoreWriters

/-!
# Applying a Pulled Entry

What `applyRemoteNote` leaves behind, in each of its cases: the server id is
known, a row stores the content, or the entry is new. The cases are told apart by
the two unique indexes, and none of them leaves the store open to another case
the second time.

## Main definitions

* `PulledNote`: An entry as a pull answers it.
* `adoptedRow`: The row of the content after it took over the entry.
* `Applied`: The three outcomes.
* `ApplyLaw`: What an apply promises.

## Theorems

* `post_apply`: An apply has one of the outcomes, or it leaves no trace.
* `applied_again`: The second apply of an entry changes nothing.
* `answers_apply`: An apply answers.
* `applyLaw_of_valid`: An apply keeps its promises on every store.
-/

namespace Spelunk

open Lib (Sql SqlError)

open MemoryDb

variable [Sha256]

omit [Sha256] in
/-- An entry as a pull answers it. -/
structure PulledNote where
  remoteId : String
  kind : String
  title : String
  body : String
  sourceRef : Option String
  createdAt : Int
  archived : Bool
deriving DecidableEq, Repr

namespace PulledNote

def entityId (n : PulledNote) : String := Spelunk.entityId n.kind n.title n.body

/-- Apply the entry, `uuid` being the one it gets if it is new. -/
def apply (n : PulledNote) (uuid : String) : Sql MemoryDb Bool :=
  applyRemoteNote uuid n.remoteId n.kind n.title n.body n.sourceRef n.createdAt n.archived

/-- The row of a new entry. -/
def row (n : PulledNote) (uuid : String) : NoteRow :=
  { newRow n.kind n.title n.body n.createdAt with
    uuid := some uuid
    remoteId := some n.remoteId
    sourceRef := n.sourceRef
    status := if n.archived then "archived" else "active" }

end PulledNote

omit [Sha256] in
/-- A row that keeps the server id it has, or takes this one. -/
def takeRemoteId (remoteId : String) (r : NoteRow) : NoteRow :=
  { r with remoteId := r.remoteId.or (some remoteId) }

omit [Sha256] in
/-- The row of the content after it took over the entry. -/
def adoptedRow (n : PulledNote) (r : NoteRow) : NoteRow :=
  if n.archived then archiveRow (takeRemoteId n.remoteId (unionRow [] [] r))
  else takeRemoteId n.remoteId (unionRow [] [] r)

/-- What an apply that answers leaves of the store. -/
inductive Applied (db : MemoryDb) (uuid : String) (n : PulledNote) : Bool → MemoryDb → Prop where
  /-- A row carries the server id. -/
  | known (x : NoteRow) : x ∈ db.notes → x.remoteId = some n.remoteId →
      Applied db uuid n false
        (if n.archived then db.updateRows (fun r => r.id = x.id) archiveRow else db)
  /-- The insert is refused, and a row stores the content. -/
  | adopted (x : NoteRow) : (∀ r ∈ db.notes, r.remoteId ≠ some n.remoteId) → x ∈ db.notes →
      x.entityId = some n.entityId → ¬ (db.insertRow (n.row uuid)).UniqueOk →
      Applied db uuid n false (db.updateRows (fun r => r.id = x.id) (adoptedRow n))
  | inserted : (∀ r ∈ db.notes, r.remoteId ≠ some n.remoteId) →
      (db.insertRow (n.row uuid)).UniqueOk → Applied db uuid n true (db.insertRow (n.row uuid))

section Updates

variable {db : MemoryDb}

omit [Sha256] in
theorem takeRemoteId_eq_self {r : NoteRow} {v : String} (h : r.remoteId = some v)
    (remoteId : String) : takeRemoteId remoteId r = r := by
  apply NoteRow.ext
  case remoteId => rw [takeRemoteId, h, Option.some_or]
  all_goals rfl

omit [Sha256] in
/-- Updates that do the same to every row are the same update. -/
theorem updateRows_ext {p q : NoteRow → Bool} {f g : NoteRow → NoteRow}
    (h : ∀ r ∈ db.notes, (if p r then f r else r) = if q r then g r else r) :
    db.updateRows p f = db.updateRows q g := by
  simp only [updateRows]
  congr 1
  exact List.map_congr_left h

omit [Sha256] in
theorem post_archive (id : Nat) :
    Sql.Post (fun s => s = db) (archive id)
      (fun _ s => s = db.updateRows (fun r => r.id = id) archiveRow) (fun s => s = db) := by
  refine Sql.Post.bind (Sql.Post.mono (post_updateNotes _ _) (fun _ hs => hs) (fun _ s hs => ?_)
    (fun _ hs => hs)) (fun n => Sql.Post.ok _ (fun _ hs => hs))
  rw [hs.2, updateRows_archiveRow]

omit [Sha256] in
theorem updateRows_takeRemoteId (db : MemoryDb) (id : Nat) (remoteId : String) :
    db.updateRows (fun r => r.id = id ∧ r.remoteId = none)
        (fun r => { r with remoteId := some remoteId })
      = db.updateRows (fun r => r.id = id) (takeRemoteId remoteId) := by
  refine updateRows_ext (fun r _ => ?_)
  by_cases hid : r.id = id
  · subst hid
    rcases hr : r.remoteId with _ | v
    · simp [takeRemoteId, hr]
    · rw [takeRemoteId_eq_self hr]
      simp
  · simp [hid]

omit [Sha256] in
/-- A server id is recorded on a row that has none. -/
theorem post_setRemoteId (id : Nat) (remoteId : String) :
    Sql.Post (fun s => s = db) (setRemoteId id remoteId)
      (fun _ s => s = db.updateRows (fun r => r.id = id) (takeRemoteId remoteId))
      (fun s => s = db) := by
  refine Sql.Post.bind (Sql.Post.mono (post_updateNotes _ _) (fun _ hs => hs) (fun _ s hs => ?_)
    (fun _ hs => hs)) (fun n => Sql.Post.ok _ (fun _ hs => hs))
  rw [hs.2, updateRows_takeRemoteId]

end Updates

section Outcomes

variable {db : MemoryDb} {n : PulledNote} {uuid : String}

/-- A refused insert ends at the row of the content. -/
theorem post_recover (hv : db.Valid) (e : String) :
    Sql.Post (fun s => s = db) (recoverFromEntityIdCollision (.error .unique) e [] [])
      (fun p s => ∃ x, (x ∈ db.notes ∧ x.entityId = some e ∧ p = (x.id, false)) ∧
        s = db.updateRows (fun r => r.id = x.id) (unionRow [] [])) (fun _ => True) := by
  refine Sql.Post.bind (Q := fun found s =>
    found = db.notes.find? (fun r => r.entityId = some e) ∧ s = db)
    (Sql.Post.query _ (fun s hs => ⟨by rw [hs], hs⟩) (fun _ _ => trivial))
    (fun found => Sql.Post.of_pre (fun hfound => ?_))
  rcases found with _ | x
  · exact Sql.Post.fail _ (fun _ _ => trivial)
  · have hx := List.mem_of_find?_eq_some hfound.symm
    have hxe := List.find?_some hfound.symm
    refine Sql.Post.bind (Sql.Post.mono (Sql.Post.of_survives
      (serves_unionTagsAndFiles hv.unique hv.foreignKeys hx [] [])) (fun _ hs => hs)
      (fun _ _ hs => hs) (fun _ _ => trivial)) (fun _ => Sql.Post.ok _ (fun s hs => ?_))
    exact ⟨x, ⟨hx, of_decide_eq_true hxe, rfl⟩, hs⟩

omit [Sha256] in
/-- What the row of the content takes over. -/
theorem post_takeOver (x : NoteRow) :
    Sql.Post (fun s => s = db.updateRows (fun r => r.id = x.id) (unionRow [] []))
      ((setRemoteId x.id n.remoteId).andThen
        (fun _ => Sql.whenever (n.archived = true) (archive x.id)))
      (fun _ s => s = db.updateRows (fun r => r.id = x.id) (adoptedRow n)) (fun _ => True) := by
  refine Sql.Post.bind (Q := fun _ s => s = db.updateRows (fun r => r.id = x.id)
    (fun r => takeRemoteId n.remoteId (unionRow [] [] r)))
    (Sql.Post.mono (post_setRemoteId _ _) (fun _ hs => hs) (fun _ s hs => ?_)
      (fun _ _ => trivial)) (fun _ => ?_)
  · rw [hs, updateRows_updateRows db x.id (f := unionRow [] []) (fun _ => rfl)]
  · refine Sql.Post.whenever (fun harch => Sql.Post.mono (post_archive x.id) (fun _ hs => hs)
      (fun _ s hs => ?_) (fun _ _ => trivial)) (fun harch s hs => ?_)
    · rw [hs, updateRows_updateRows db x.id
        (f := fun r => takeRemoteId n.remoteId (unionRow [] [] r)) (fun _ => rfl)]
      refine updateRows_congr (fun r _ _ => ?_)
      simp only [adoptedRow, harch, if_true]
    · rw [hs]
      refine updateRows_congr (fun r _ _ => ?_)
      simp only [adoptedRow, harch, if_false, Bool.false_eq_true]

/-- An apply has one of the outcomes, or it leaves no trace. -/
theorem post_apply (hv : db.Valid) (n : PulledNote) (uuid : String) :
    Sql.Post (fun s => s = db) (n.apply uuid) (fun created s => Applied db uuid n created s)
      (fun s => s = db) := by
  refine Sql.Post.bind (Q := fun found s =>
    found = (db.notes.find? (fun r => r.remoteId = some n.remoteId)).map (·.id) ∧ s = db)
    (Sql.Post.query _ (fun s hs => ⟨by rw [hs], hs⟩) (fun _ hs => hs))
    (fun found => Sql.Post.of_pre (fun hfound => ?_))
  rcases hfind : db.notes.find? (fun r => r.remoteId = some n.remoteId) with _ | x
  · rw [hfind, Option.map_none] at hfound
    subst hfound
    have hnone : ∀ r ∈ db.notes, r.remoteId ≠ some n.remoteId := by
      intro r hr heq
      exact List.find?_eq_none.mp hfind r hr (decide_eq_true heq)
    refine Sql.Post.transaction (F := fun _ => True) ?_ (fun _ hs => hs)
    refine Sql.Post.bind (Q := fun result s =>
      (∃ id, result = .ok id ∧ (db.insertRow (n.row uuid)).UniqueOk ∧ s = db.insertRow (n.row uuid)) ∨
        ((result = .error .unique → ¬ (db.insertRow (n.row uuid)).UniqueOk) ∧
          (∃ e, result = .error e) ∧ s = db)) ?_ (fun result => ?_)
    · -- The index refuses the insert, or the row is in.
      intro c hc
      refine ⟨fun result hresult => ?_, fun e he => absurd he (by simp [Sql.attempt])⟩
      rw [show result = (insertNote (n.row uuid) c).1 from (Except.ok.inj hresult).symm]
      have hrun : (∃ id, (insertNote (n.row uuid) c).1 = .ok id ∧
          (db.insertRow (n.row uuid)).UniqueOk ∧
          (insertNote (n.row uuid) c).2.db = db.insertRow (n.row uuid)) ∨
          (((insertNote (n.row uuid) c).1 = .error .unique →
            ¬ (db.insertRow (n.row uuid)).UniqueOk) ∧
            (∃ e, (insertNote (n.row uuid) c).1 = .error e) ∧
            (insertNote (n.row uuid) c).2.db = db) := by
        simp only [insertNote, Sql.statement]
        split
        · exact Or.inr ⟨fun h => absurd h (by simp), ⟨_, rfl⟩, hc⟩
        · split
          next hok =>
            rcases of_checked_eq_ok hok with ⟨_, rfl, hu, _⟩
            exact Or.inl ⟨_, rfl, by rw [← hc]; exact hu, by rw [← hc]; rfl⟩
          next e he =>
            refine Or.inr ⟨fun h hu => ?_, ⟨_, rfl⟩, hc⟩
            rw [Except.error.inj h, checked, if_neg (not_not.mpr (by rw [hc]; exact hu))] at he
            split at he
            · exact absurd he (by simp)
            · exact absurd he (by simp)
      exact hrun
    · rcases result with (_ | _ | _ | _) | id
      case ok =>
        refine Sql.Post.bind (Q := fun p s => p.2 = true ∧
          (db.insertRow (n.row uuid)).UniqueOk ∧ s = db.insertRow (n.row uuid))
          (Sql.Post.ok _ (fun s hs => ?_)) (fun p => Sql.Post.of_pre (fun hp => ?_))
        · rcases hs with ⟨_, _, hs⟩ | ⟨_, ⟨_, h⟩, _⟩
          · exact ⟨rfl, hs⟩
          · exact absurd h (by simp)
        · rcases p with ⟨_, created⟩
          subst hp
          refine Sql.Post.bind (Q := fun _ s => (db.insertRow (n.row uuid)).UniqueOk ∧
            s = db.insertRow (n.row uuid)) (Sql.Post.whenever (fun h => absurd h (by decide))
              (fun _ s hs => hs)) (fun _ => Sql.Post.ok _ (fun s hs => ?_))
          rw [hs.2]
          exact Applied.inserted hnone hs.1
      case error.unique =>
        refine Sql.Post.mono (P := fun s => ¬ (db.insertRow (n.row uuid)).UniqueOk ∧ s = db)
          (Sql.Post.of_pre (fun hrefused => Sql.Post.bind (post_recover hv _) (fun p =>
            Sql.Post.of_exists (fun x => Sql.Post.of_pre (fun hx => ?_))))) (fun s hs => ?_)
          (fun _ _ hs => hs) (fun _ hs => hs)
        · rcases p with ⟨rowId, created⟩
          rw [Prod.mk.injEq] at hx
          rcases hx with ⟨hx, hxe, rfl, rfl⟩
          refine Sql.Post.bind (Q := fun _ s => s = db.updateRows (fun r => r.id = x.id)
            (adoptedRow n)) (Sql.Post.whenever (fun _ => post_takeOver x)
              (fun h => absurd rfl h)) (fun _ => Sql.Post.ok false (fun s hs => ?_))
          rw [hs]
          exact Applied.adopted x hnone hx hxe hrefused
        · rcases hs with ⟨_, h, _⟩ | ⟨h, _, rfl⟩
          · exact absurd h (by simp)
          · exact ⟨h rfl, rfl⟩
      all_goals exact Sql.Post.fail _ (fun _ _ => trivial)
  · rw [hfind, Option.map_some] at hfound
    subst hfound
    have hx := List.mem_of_find?_eq_some hfind
    have hxr := List.find?_some hfind
    refine Sql.Post.bind (Q := fun _ s =>
      s = if n.archived then db.updateRows (fun r => r.id = x.id) archiveRow else db)
      (Sql.Post.whenever (fun harch => Sql.Post.mono (post_archive x.id) (fun _ hs => hs)
        (fun _ s hs => ?_) (fun _ hs => hs)) (fun harch s hs => ?_))
      (fun _ => Sql.Post.ok _ (fun s hs => ?_))
    · rw [hs, if_pos harch]
    · rw [hs, if_neg harch]
    · rw [hs]
      exact Applied.known x hx (of_decide_eq_true hxr)

end Outcomes

section Again

variable {db s s' : MemoryDb} {n : PulledNote} {uuid uuid' : String} {created created' : Bool}

omit [Sha256] in
theorem status_archiveRow (r : NoteRow) : (archiveRow r).status ≠ "active" := by
  by_cases h : r.status = "active"
  · simp [archiveRow, h]
  · simp [archiveRow, h]

omit [Sha256] in
/-- A row that was already known to the server takes nothing more over. -/
theorem adoptedRow_adoptedRow {r : NoteRow} {v : String} (h : r.remoteId = some v) :
    adoptedRow n (adoptedRow n r) = adoptedRow n r := by
  have hunion : ∀ col : Option String, unionCsv (unionCsv col []) [] = unionCsv col [] :=
    fun col => unionCsv_unionCsv col (fun _ hv => absurd hv List.not_mem_nil)
  have hrow : ∀ x : NoteRow, x.remoteId = some v →
      takeRemoteId n.remoteId (unionRow [] [] x) = unionRow [] [] x :=
    fun x hx => takeRemoteId_eq_self (r := unionRow [] [] x) hx n.remoteId
  by_cases harch : n.archived = true
  · simp only [adoptedRow, harch, if_true]
    rw [hrow r h, hrow (archiveRow (unionRow [] [] r)) h]
    apply NoteRow.ext
    case tags => exact hunion r.tags
    case linkedFiles => exact hunion r.linkedFiles
    case status => exact if_neg (status_archiveRow (unionRow [] [] r))
    all_goals rfl
  · simp only [adoptedRow, harch, if_false, Bool.false_eq_true]
    rw [hrow r h, hrow (unionRow [] [] r) h]
    apply NoteRow.ext
    case tags => exact hunion r.tags
    case linkedFiles => exact hunion r.linkedFiles
    all_goals rfl

omit [Sha256] in
theorem adoptedRow_columns (n : PulledNote) (r : NoteRow) :
    (adoptedRow n r).id = r.id ∧ (adoptedRow n r).remoteId = r.remoteId.or (some n.remoteId) ∧
      (adoptedRow n r).entityId = r.entityId ∧
      (n.archived = true → (adoptedRow n r).status ≠ "active") := by
  by_cases harch : n.archived = true
  · simp only [adoptedRow, harch, if_true]
    exact ⟨rfl, rfl, rfl, fun _ => status_archiveRow _⟩
  · simp only [adoptedRow, harch, if_false, Bool.false_eq_true]
    exact ⟨rfl, rfl, rfl, fun h => absurd h (by decide)⟩

/-- Where a row carries the server id, and is archived if the entry is, there is
    nothing to apply. -/
theorem applied_of_known (hs : s.UniqueOk) {y : NoteRow} (hy : y ∈ s.notes)
    (hremote : y.remoteId = some n.remoteId) (harch : n.archived = true → y.status ≠ "active")
    (h : Applied s uuid' n created' s') : s' = s := by
  cases h with
  | known x hx hxr =>
      split
      · next ha =>
        have hxy : x = y := Lib.eq_of_indexed hs.2.2.1 hx hy hxr hremote
        refine updateRows_eq_self (fun r hr hid => ?_)
        rw [eq_of_id_eq hs hr hx (of_decide_eq_true hid), hxy]
        apply NoteRow.ext
        case status => exact if_neg (harch ha)
        all_goals rfl
      · rfl
  | adopted x hnone => exact absurd hremote (hnone y hy)
  | inserted hnone => exact absurd hremote (hnone y hy)

/-- The insert is refused for the content when nothing else can refuse it. -/
theorem holder_of_refused (hdb : db.SchemaOk) (hfresh : ∀ r ∈ db.notes, r.uuid ≠ some uuid)
    (hnone : ∀ r ∈ db.notes, r.remoteId ≠ some n.remoteId)
    (hrefused : ¬ (db.insertRow (n.row uuid)).UniqueOk) :
    db.entityIdUnique = true ∧ ∃ y ∈ db.notes, y.entityId = some n.entityId := by
  by_contra hno
  refine hrefused ((uniqueOk_insertRow_iff hdb rfl).mpr ⟨?_, ?_, fun hindex e he y hy hye => ?_⟩)
  · intro u hu x hx
    rw [show (n.row uuid).uuid = some uuid from rfl, Option.mem_some_iff] at hu
    exact hu ▸ hfresh x hx
  · intro u hu x hx
    rw [show (n.row uuid).remoteId = some n.remoteId from rfl, Option.mem_some_iff] at hu
    exact hu ▸ hnone x hx
  · rw [show (n.row uuid).entityId = some n.entityId from rfl, Option.mem_some_iff] at he
    exact hno ⟨hindex, y, hy, he ▸ hye⟩

/-- The second apply of an entry changes nothing. -/
theorem applied_again (hdb : db.SchemaOk) (hs : s.SchemaOk)
    (hfresh : ∀ r ∈ db.notes, r.uuid ≠ some uuid) (h : Applied db uuid n created s)
    (h' : Applied s uuid' n created' s') : s' = s := by
  cases h with
  | known x hx hxr =>
      by_cases harch : n.archived = true
      · rw [if_pos harch] at hs h' ⊢
        refine applied_of_known hs.unique (List.mem_map_of_mem hx) ?_ (fun _ => ?_) h'
        · rw [if_pos (decide_eq_true rfl)]
          exact hxr
        · rw [if_pos (decide_eq_true rfl)]
          exact status_archiveRow x
      · rw [if_neg harch] at hs h' ⊢
        exact applied_of_known hs.unique hx hxr (fun ha => absurd ha harch) h'
  | inserted hnone hok =>
      refine applied_of_known hs.unique
        (List.mem_append_right _ (List.mem_singleton.mpr rfl)) rfl (fun ha => ?_) h'
      simp only [PulledNote.row, ha, if_true]
      decide
  | adopted x hnone hx hxe hrefused =>
      -- The row of the content, as the first apply left it.
      have hcols := adoptedRow_columns n x
      have hy : adoptedRow n x ∈
          (db.updateRows (fun r => r.id = x.id) (adoptedRow n)).notes :=
        List.mem_map.mpr ⟨x, hx, if_pos (decide_eq_true rfl)⟩
      rcases hv : x.remoteId with _ | v
      · refine applied_of_known hs.unique hy ?_ hcols.2.2.2 h'
        rw [hcols.2.1, hv]
        rfl
      · have hye : (adoptedRow n x).entityId = some n.entityId := hcols.2.2.1.trans hxe
        have hindex := (holder_of_refused hdb hfresh hnone hrefused).1
        cases h' with
        | known z hz hzr =>
            -- No row took the server id over, so none carries it now.
            rcases List.mem_map.mp hz with ⟨r, hr, rfl⟩
            split at hzr
            · next hid =>
              rw [eq_of_id_eq hdb.unique hr hx (of_decide_eq_true hid), hcols.2.1, hv] at hzr
              exact absurd (hv.trans hzr) (hnone x hx)
            · exact absurd hzr (hnone r hr)
        | adopted z hnone' hz hze =>
            have hzy : z = adoptedRow n x :=
              Lib.eq_of_indexed (hs.unique.2.2.2 hindex) hz hy hze hye
            refine updateRows_eq_self (fun r hr hid => ?_)
            rw [eq_of_id_eq hs.unique hr hz (of_decide_eq_true hid), hzy]
            exact adoptedRow_adoptedRow hv
        | inserted hnone' hok =>
            have hadmits := (uniqueOk_insertRow_iff hs rfl).mp hok
            exact absurd hye (hadmits.entityId hindex _ rfl _ hy)

end Again

section Answering

variable {db : MemoryDb} {n : PulledNote} {uuid : String}

omit [Sha256] in
/-- A server id no row carries is recorded. -/
theorem serves_setRemoteId (hu : db.UniqueOk) (hfk : db.ForeignKeysOk) (id : Nat)
    {remoteId : String} (hnew : ∀ r ∈ db.notes, r.remoteId ≠ some remoteId) :
    Sql.Serves (fun s => s = db) (setRemoteId id remoteId)
      (fun _ s => s = db.updateRows (fun r => r.id = id) (takeRemoteId remoteId) ∧
        s.UniqueOk ∧ s.ForeignKeysOk) := by
  refine Sql.Serves.bind (Q := fun _ s =>
    s = db.updateRows (fun r => r.id = id) (takeRemoteId remoteId) ∧ s.UniqueOk ∧ s.ForeignKeysOk)
    (Sql.Serves.statement (fun s hs => ?_)) (fun _ => Sql.Serves.ok _ (fun _ hs => hs))
  subst hs
  have hfk' := hfk.updateRows (fun r => r.id = id) (f := takeRemoteId remoteId) (fun _ => rfl)
    (fun r hr _ v hv => hfk.1 r hr v hv)
  rw [updateRows_takeRemoteId]
  suffices hu' : (s.updateRows (fun r => r.id = id) (takeRemoteId remoteId)).UniqueOk from
    ⟨_, _, checked_eq_ok hu' hfk', rfl, hu', hfk'⟩
  refine ⟨?_, ?_, ?_, fun hindex => ?_⟩
  · rw [ids_updateRows s _ (f := takeRemoteId remoteId) (fun _ => rfl)]
    exact hu.1
  · rw [filterMap_updateRows s _ (f := takeRemoteId remoteId) _ (fun _ => rfl)]
    exact hu.2.1
  · simp only [updateRows, decide_eq_true_eq]
    refine Lib.nodup_filterMap_set (k := NoteRow.id) hu.1 hu.2.2.1 (fun x hx hid v hv y hy hne => ?_)
    rcases hxr : x.remoteId with _ | w
    · simp only [takeRemoteId, hxr, Option.none_or, Option.mem_some_iff] at hv
      exact hv ▸ hnew y hy
    · simp only [takeRemoteId, hxr, Option.some_or, Option.mem_some_iff] at hv
      subst hv
      intro hyw
      exact hne ((congrArg NoteRow.id (Lib.eq_of_indexed hu.2.2.1 hy hx hyw hxr)).trans hid)
  · rw [filterMap_updateRows s _ (f := takeRemoteId remoteId) _ (fun _ => rfl)]
    exact hu.2.2.2 hindex

/-- The row of the content is found and takes the entry over. -/
theorem answers_takeOver (hdb : db.SchemaOk) (hnone : ∀ r ∈ db.notes, r.remoteId ≠ some n.remoteId)
    {y : NoteRow} (hy : y ∈ db.notes) (hye : y.entityId = some n.entityId) :
    Sql.Answers (fun s => s = db)
      ((recoverFromEntityIdCollision (.error .unique) n.entityId [] []).andThen (fun p =>
        (Sql.whenever (p.2 = false) ((setRemoteId p.1 n.remoteId).andThen
          (fun _ => Sql.whenever n.archived (archive p.1)))).andThen (fun _ => Sql.ok p.2)))
      (fun _ _ => True) := by
  rcases hfind : db.notes.find? (fun r => r.entityId = some n.entityId) with _ | x
  · exact absurd hye (by simpa using List.find?_eq_none.mp hfind y hy)
  have hx := List.mem_of_find?_eq_some hfind
  have hkeeps := keepsIndexed_unionRow [] []
  -- The store once the tags and files are taken over.
  have hu : (db.updateRows (fun r => r.id = x.id) (unionRow [] [])).UniqueOk :=
    hdb.unique.updateRows _ hkeeps
  have hfk : (db.updateRows (fun r => r.id = x.id) (unionRow [] [])).ForeignKeysOk :=
    hdb.foreignKeys.updateRows _ hkeeps.id (fun r hr _ v hv => hdb.foreignKeys.1 r hr v hv)
  have hrecover : Sql.Answers (fun s => s = db)
      (recoverFromEntityIdCollision (.error .unique) n.entityId [] [])
      (fun p s => p = (x.id, false) ∧ s = db.updateRows (fun r => r.id = x.id) (unionRow [] [])) := by
    refine Sql.Answers.bind (Q := fun found s => found = some x ∧ s = db)
      (Sql.Answers.of_serves (Sql.Serves.query (fun s hs => ⟨hs ▸ hfind, hs⟩)))
      (fun found => Sql.Answers.of_pre (fun hfound => ?_))
    subst hfound
    exact Sql.Answers.bind (Sql.Answers.of_serves
      (serves_unionTagsAndFiles hdb.unique hdb.foreignKeys hx [] []))
      (fun _ => Sql.Answers.ok _ (fun s hs => ⟨rfl, hs⟩))
  refine Sql.Answers.bind hrecover (fun p => Sql.Answers.of_pre (fun hp => ?_))
  subst hp
  refine Sql.Answers.bind (Q := fun _ _ => True) (Sql.Answers.whenever (fun _ => ?_)
    (fun _ _ _ => trivial)) (fun _ => Sql.Answers.ok _ (fun _ _ => trivial))
  refine Sql.Answers.bind (Q := fun _ s => s.UniqueOk ∧ s.ForeignKeysOk)
    (Sql.Answers.mono (Sql.Answers.of_serves (serves_setRemoteId hu hfk x.id (fun r hr => ?_)))
      (fun _ hs => hs) (fun _ _ hs => hs.2)) (fun _ => ?_)
  · rcases List.mem_map.mp hr with ⟨r', hr', rfl⟩
    split
    · exact hnone r' hr'
    · exact hnone r' hr'
  · exact Sql.Answers.whenever (fun _ => Sql.Answers.of_each (fun s hs =>
      Sql.Answers.mono (Sql.Answers.of_serves (serves_archive hs.1 hs.2 x.id))
        (fun _ ht => ht) (fun _ _ _ => trivial))) (fun _ _ _ => trivial)

/-- An apply answers. -/
theorem answers_apply (hdb : db.SchemaOk) (hfresh : ∀ r ∈ db.notes, r.uuid ≠ some uuid) :
    Sql.Answers (fun s => s = db) (n.apply uuid) (fun _ _ => True) := by
  refine Sql.Answers.bind (Q := fun found s =>
    found = (db.notes.find? (fun r => r.remoteId = some n.remoteId)).map (·.id) ∧ s = db)
    (Sql.Answers.of_serves (Sql.Serves.query (fun s hs => ⟨by rw [hs], hs⟩)))
    (fun found => Sql.Answers.of_pre (fun hfound => ?_))
  rcases hfind : db.notes.find? (fun r => r.remoteId = some n.remoteId) with _ | x
  · rw [hfind, Option.map_none] at hfound
    subst hfound
    have hnone : ∀ r ∈ db.notes, r.remoteId ≠ some n.remoteId := by
      intro r hr heq
      exact List.find?_eq_none.mp hfind r hr (decide_eq_true heq)
    refine Sql.Answers.transaction ?_
    by_cases hok : (db.insertRow (n.row uuid)).UniqueOk
    · refine Sql.Answers.bind (Q := fun result _ => ∃ id, result = .ok id)
        (Sql.Answers.attempt (Sql.Answers.of_serves
          (serves_insertNote hdb ((uniqueOk_insertRow_iff hdb rfl).mp hok) rfl))
          (fun id _ _ => ⟨id, rfl⟩)) (fun result => ?_)
      rintro s ⟨id, rfl⟩
      exact ⟨true, s, rfl, trivial⟩
    · rcases holder_of_refused hdb hfresh hnone hok with ⟨_, y, hy, hye⟩
      refine Sql.Answers.bind (Sql.Answers.attempt_refused (e := .unique) (fun s hs => ?_))
        (fun result => Sql.Answers.of_pre (fun hresult => ?_))
      · rw [hs]
        exact if_pos hok
      · subst hresult
        exact answers_takeOver hdb hnone hy hye
  · rw [hfind, Option.map_some] at hfound
    subst hfound
    exact Sql.Answers.bind (Q := fun _ _ => True) (Sql.Answers.whenever (fun _ =>
      Sql.Answers.mono (Sql.Answers.of_serves (serves_archive hdb.unique hdb.foreignKeys x.id))
        (fun _ hs => hs) (fun _ _ _ => trivial)) (fun _ _ _ => trivial))
      (fun _ => Sql.Answers.ok _ (fun _ _ => trivial))

end Answering

/-- What an apply promises on the store `db`. -/
structure ApplyLaw (db : MemoryDb) (uuid : String) (n : PulledNote) : Prop where
  /-- Without a fault it answers. -/
  answers : ∃ created s, n.apply uuid ⟨db, none⟩ = (.ok created, ⟨s, none⟩)
  /-- An entry whose server id some row carries adds no row, nor does one whose
      identity some row stores once the index on it is unique. -/
  no_row : ((∃ r ∈ db.notes, r.remoteId = some n.remoteId) ∨
      (db.entityIdUnique = true ∧ ∃ r ∈ db.notes, r.entityId = some n.entityId)) →
    ∀ fault, (n.apply uuid ⟨db, fault⟩).2.db.ids = db.ids
  /-- An archived row stays archived. -/
  archived : ∀ fault, ∀ r ∈ db.notes, r.status = "archived" →
    ∀ r' ∈ (n.apply uuid ⟨db, fault⟩).2.db.notes, r'.id = r.id → r'.status = "archived"
  /-- After an apply that answered, another one of the entry changes nothing. -/
  twice : ∀ fault created, (n.apply uuid ⟨db, fault⟩).1 = .ok created →
    ∀ uuid' fault', (n.apply uuid' ⟨(n.apply uuid ⟨db, fault⟩).2.db, fault'⟩).2.db =
      (n.apply uuid ⟨db, fault⟩).2.db
  /-- An apply that fails leaves the store as it was. -/
  undone : ∀ fault e, (n.apply uuid ⟨db, fault⟩).1 = .error e →
    (n.apply uuid ⟨db, fault⟩).2.db = db

section Law

variable {db : MemoryDb} {n : PulledNote} {uuid : String}

theorem valid_apply (hv : db.Valid) (n : PulledNote) (uuid : String) (fault : Option Nat) :
    (n.apply uuid ⟨db, fault⟩).2.db.Valid :=
  linkClosed_valid.keeps_applyRemoteNote uuid n.remoteId n.kind n.title n.body n.sourceRef
    n.createdAt n.archived ⟨db, fault⟩ hv

/-- An apply that has nothing new to store adds no row. -/
theorem ids_apply (hv : db.Valid)
    (hstored : (∃ r ∈ db.notes, r.remoteId = some n.remoteId) ∨
      (db.entityIdUnique = true ∧ ∃ r ∈ db.notes, r.entityId = some n.entityId))
    (fault : Option Nat) : (n.apply uuid ⟨db, fault⟩).2.db.ids = db.ids := by
  have hpost : Sql.Post (fun s => s = db) (n.apply uuid) (fun _ s => s.ids = db.ids)
      (fun s => s.ids = db.ids) := by
    refine Sql.Post.mono (post_apply hv n uuid) (fun _ hs => hs) (fun created s hs => ?_)
      (fun s hs => congrArg ids hs)
    cases hs with
    | known x hx hxr =>
        split
        · exact ids_updateRows db _ (fun _ => rfl)
        · rfl
    | adopted x => exact ids_updateRows db _ (fun r => (adoptedRow_columns n r).1)
    | inserted hnone hok =>
        have hadmits := (uniqueOk_insertRow_iff hv.toSchemaOk rfl).mp hok
        rcases hstored with ⟨r, hr, hrr⟩ | ⟨hindex, r, hr, hre⟩
        · exact absurd hrr (hnone r hr)
        · exact absurd hre (hadmits.entityId hindex _ rfl r hr)
  exact hpost.ends (c := ⟨db, fault⟩) rfl

/-- An archived row is never made active. -/
theorem archived_apply (hv : db.Valid) (fault : Option Nat) {r r' : NoteRow} (hr : r ∈ db.notes)
    (harch : r.status = "archived") (hr' : r' ∈ (n.apply uuid ⟨db, fault⟩).2.db.notes)
    (hid : r'.id = r.id) : r'.status = "archived" := by
  rcases (linkClosed_extends db).keeps_applyRemoteNote uuid n.remoteId n.kind n.title n.body
    n.sourceRef n.createdAt n.archived ⟨db, fault⟩ (Extends.refl db) r hr with ⟨m, hm, hw⟩
  rw [eq_of_id_eq (valid_apply hv n uuid fault).unique hr' hm (hid.trans hw.id.symm)]
  rcases hw.status with h | h
  · exact h.trans harch
  · exact h

/-- An apply keeps its promises on every store. The generator's uuid is new. -/
theorem applyLaw_of_valid (hv : db.Valid) (hfresh : ∀ r ∈ db.notes, r.uuid ≠ some uuid)
    (n : PulledNote) : ApplyLaw db uuid n := by
  constructor
  case answers =>
    rcases answers_apply (n := n) hv.toSchemaOk hfresh db rfl with ⟨created, s, hrun, _⟩
    exact ⟨created, s, hrun⟩
  case no_row => exact fun hstored fault => ids_apply hv hstored fault
  case archived => exact fun fault r hr harch r' hr' hid => archived_apply hv fault hr harch hr' hid
  case twice =>
    intro fault created hok uuid' fault'
    have hfirst := (post_apply hv n uuid ⟨db, fault⟩ rfl).1 created hok
    have hs := valid_apply hv n uuid fault
    have hsecond := post_apply hs n uuid' ⟨(n.apply uuid ⟨db, fault⟩).2.db, fault'⟩ rfl
    rcases hrun : (n.apply uuid' ⟨(n.apply uuid ⟨db, fault⟩).2.db, fault'⟩).1 with e | created'
    · exact hsecond.2 e hrun
    · exact applied_again hv.toSchemaOk hs.toSchemaOk hfresh hfirst (hsecond.1 created' hrun)
  case undone => exact fun fault e he => (post_apply hv n uuid ⟨db, fault⟩ rfl).2 e he

end Law

end Spelunk
