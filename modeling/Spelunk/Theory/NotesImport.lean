import Spelunk.Core.NotesImport
import Spelunk.Theory.OpenStore

/-!
# What an Import Does

The import of a listing adds a row for every identity the store lacks, the first
entry of the listing supplying it, and touches no other row. It stops at a fault
only, and then it has added nothing.

## Main definitions

* `noteImportRow`: The row an entry is inserted as.
* `Imported`: What an import that answers leaves behind.
* `NotImported`: What one that fails leaves behind.

## Theorems

* `mem_absentNotes`, `exists_absentNotes`: Which entries are inserted.
* `survives_openLocalStore`: The open of the store with its markers.
* `survives_importListed`: The import, unless a fault stops it.
-/

namespace Spelunk

open Lib (Sql SqlError)

open MemoryDb LocalStore

variable [Sha256]

/-- The row an entry is inserted as. -/
def noteImportRow (n : CarrierNote) : NoteRow :=
  { newRow n.kind n.title n.body n.createdAt with
    tags := some (joinCsv n.tags)
    linkedFiles := some (joinCsv n.linkedFiles)
    sourceRef := some initGitNotesSource
    status := if n.status = "archived" then "archived" else "active" }

@[simp] theorem contentId_noteImportRow (n : CarrierNote) :
    (noteImportRow n).contentId = n.entityId := rfl

theorem status_noteImportRow (n : CarrierNote) :
    (noteImportRow n).status = if n.status = "archived" then "archived" else "active" := rfl

section Absent

variable {existing : List String} {notes : List CarrierNote}

/-- An entry that is inserted is listed, and its identity is not stored. -/
theorem mem_absentNotes {n : CarrierNote} (h : n ∈ absentNotes existing notes) :
    n ∈ notes ∧ n.entityId ∉ existing := by
  induction notes generalizing existing with
  | nil => exact absurd h List.not_mem_nil
  | cons m rest ih =>
      rw [absentNotes] at h
      split at h
      · exact ⟨List.mem_cons_of_mem m (ih h).1, (ih h).2⟩
      · next hm =>
        rcases List.mem_cons.mp h with rfl | h
        · exact ⟨List.mem_cons_self, hm⟩
        · exact ⟨List.mem_cons_of_mem m (ih h).1, fun hn => (ih h).2 (List.mem_cons_of_mem _ hn)⟩

/-- No identity is inserted twice. -/
theorem nodup_absentNotes : ((absentNotes existing notes).map (·.entityId)).Nodup := by
  induction notes generalizing existing with
  | nil => exact List.nodup_nil
  | cons m rest ih =>
      rw [absentNotes]
      split
      · exact ih
      · rw [List.map_cons, List.nodup_cons]
        refine ⟨fun h => ?_, ih⟩
        rcases List.mem_map.mp h with ⟨n, hn, he⟩
        exact (mem_absentNotes hn).2 (he ▸ List.mem_cons_self)

/-- Only which identities are stored matters. -/
theorem absentNotes_congr {existing' : List String} (h : ∀ e, e ∈ existing ↔ e ∈ existing') :
    absentNotes existing notes = absentNotes existing' notes := by
  induction notes generalizing existing existing' with
  | nil => rfl
  | cons m rest ih =>
      rw [absentNotes, absentNotes]
      by_cases hm : m.entityId ∈ existing
      · rw [if_pos hm, if_pos ((h _).mp hm), ih h]
      · rw [if_neg hm, if_neg (fun hm' => hm ((h _).mpr hm')), ih (fun e => ?_)]
        rw [List.mem_cons, List.mem_cons, h e]

/-- What is inserted of an identity that is not stored is its first entry. -/
theorem find?_absentNotes {e : String} (he : e ∉ existing) :
    (absentNotes existing notes).find? (fun n => n.entityId = e)
      = notes.find? (fun n => n.entityId = e) := by
  induction notes generalizing existing with
  | nil => rfl
  | cons m rest ih =>
      rw [absentNotes, List.find?_cons]
      split
      · next hm =>
        have hne : m.entityId ≠ e := fun h => he (h ▸ hm)
        rw [ih he, decide_eq_false hne]
      · rw [List.find?_cons]
        by_cases hme : m.entityId = e
        · rw [decide_eq_true hme]
        · rw [decide_eq_false hme, ih (fun h => ?_)]
          rcases List.mem_cons.mp h with h | h
          · exact hme h.symm
          · exact he h

/-- Every listed identity is stored or inserted. -/
theorem exists_absentNotes {n : CarrierNote} (hn : n ∈ notes) (he : n.entityId ∉ existing) :
    ∃ m ∈ absentNotes existing notes, m.entityId = n.entityId ∧
      notes.find? (fun x => x.entityId = n.entityId) = some m := by
  rcases hf : notes.find? (fun x => x.entityId = n.entityId) with _ | m
  · exact absurd (decide_eq_true rfl) (List.find?_eq_none.mp hf n hn)
  · have hfound : (absentNotes existing notes).find? (fun x => x.entityId = n.entityId) = some m :=
      (find?_absentNotes he).trans hf
    have hme := List.find?_some hfound
    exact ⟨m, List.mem_of_find?_eq_some hfound, of_decide_eq_true hme, hf⟩

/-- The entries that are inserted are rows the store takes. -/
theorem takes_absentNotes {db : MemoryDb} :
    db.Takes ((absentNotes (db.notes.map (·.contentId)) notes).map noteImportRow) := by
  constructor
  case new =>
    intro r hr
    rcases List.mem_map.mp hr with ⟨n, _, rfl⟩
    refine ⟨rfl, ?_, rfl⟩
    simp only [noteImportRow]
    split
    · exact Or.inr rfl
    · exact Or.inl rfl
  case local_only =>
    intro r hr
    rcases List.mem_map.mp hr with ⟨n, _, rfl⟩
    exact ⟨rfl, rfl⟩
  case nodup =>
    rw [List.map_map]
    exact nodup_absentNotes
  case absent =>
    intro r hr x hx hxe
    rcases List.mem_map.mp hr with ⟨n, hn, rfl⟩
    exact (mem_absentNotes hn).2 (List.mem_map.mpr ⟨x, hx, hxe⟩)

end Absent

/-- What an import that answers leaves behind: the store as opened, with the rows
    of the entries it lacked. -/
structure Imported (store : LocalStore) (notes : List CarrierNote) (workingOid : Option String)
    (s : LocalStore) : Prop where
  memory : ∃ db, db.Valid ∧ SameRows store.memory db ∧ s.memory =
    db.insertRows ((absentNotes (store.memory.notes.map (·.contentId)) notes).map noteImportRow)
  tracking : s.marker.lastMergedTrackingOid = store.marker.lastMergedTrackingOid
  working : s.marker.lastImportedWorkingOid = store.marker.lastImportedWorkingOid ∨
    s.marker.lastImportedWorkingOid = workingOid

/-- What an import that fails leaves behind. -/
structure NotImported (store s : LocalStore) : Prop where
  valid : s.memory.Valid
  same : SameRows store.memory s.memory
  marker : s.marker = store.marker

section Run

variable {store : LocalStore}

/-- The open of the store with its markers. -/
theorem survives_openLocalStore (hv : store.memory.Valid) :
    Sql.Survives (fun s => s = store) openLocalStore
      (fun _ s => Opened store.memory s.memory ∧ s.marker = store.marker) (NotImported store) := by
  have hstart : NotImported store store := ⟨hv, SameRows.refl _, rfl⟩
  refine Sql.Survives.bind (Q := fun _ s => s.memory = store.memory ∧ s.marker = store.marker)
    (Sql.Survives.execute (fun s hs => ⟨_, rfl, hs ▸ rfl, hs ▸ rfl⟩)
      (fun s hs => by rw [hs]; exact hstart)) (fun _ => ?_)
  exact Sql.Survives.mono (Sql.Survives.zoom (F := fun s : LocalStore => s.marker = store.marker)
    (fun _ _ => rfl) (fun _ _ hs => hs) (survives_openStore hv)) (fun _ hs => hs)
    (fun _ _ hs => hs) (fun _ hs => ⟨hs.1.1, hs.1.2, hs.2⟩)

omit [Sha256] in
/-- The marker is recorded beside the notes. -/
theorem survives_setNotesImportedWorkingOid (oid : Option String) {P : MemoryDb → Prop}
    {E : LocalStore → Prop} (hE : ∀ s, P s.memory ∧ s.marker = store.marker → E s) :
    Sql.Survives (fun s : LocalStore => P s.memory ∧ s.marker = store.marker)
      (setNotesImportedWorkingOid oid)
      (fun _ s => P s.memory ∧
        s.marker = { store.marker with lastImportedWorkingOid := oid }) E :=
  Sql.Survives.execute (fun s hs => ⟨_, rfl, hs.1, by rw [hs.2]⟩) hE

/-- The inserts of an import. -/
theorem serves_importNotes {db : MemoryDb} (hv : db.Valid) (notes : List CarrierNote) :
    Sql.Serves (fun s => s = db)
      (Sql.forEach (absentNotes (db.notes.map (·.contentId)) notes) importNote)
      (fun _ s => s = db.insertRows
        ((absentNotes (db.notes.map (·.contentId)) notes).map noteImportRow)) := by
  have htakes : db.Takes ((absentNotes (db.notes.map (·.contentId)) notes).map noteImportRow) :=
    takes_absentNotes
  refine Sql.Serves.mono (Sql.Serves.forEach (I := fun done s =>
    s = db.insertRows (done.map noteImportRow)) _ ?_) (fun s hs => hs) (fun _ _ hs => hs)
  intro done n rest hsplit
  rw [hsplit, List.map_append, List.map_cons] at htakes
  have hpart : db.Takes (done.map noteImportRow ++ [noteImportRow n]) := by
    rw [← List.singleton_append, ← List.append_assoc] at htakes
    exact htakes.of_append
  rw [List.map_append, List.map_singleton, insertRows_concat]
  exact Sql.Serves.bind (serves_addNoteWithCreatedAt (hv.insertRows hpart.of_append).toSchemaOk
    _ _ _ _ _ _ _ _ (r := noteImportRow n) rfl (admits_insertRows hv hpart))
    (fun _ => Sql.Serves.ok _ (fun _ hs => hs.2))

/-- A valid store with the same rows, which an import that inserts nothing leaves. -/
def Kept (store : LocalStore) (db : MemoryDb) : Prop :=
  db.Valid ∧ SameRows store.memory db

/-- The marker as it was, or recorded. -/
def MarkerOf (store : LocalStore) (workingOid : Option String) (marker : NotesImportMarker) : Prop :=
  marker = store.marker ∨ marker = { store.marker with lastImportedWorkingOid := workingOid }

/-- Where there is nothing to insert, keeping the store imports all. -/
theorem imported_of_nothing {notes : List CarrierNote} {workingOid : Option String}
    (hnil : absentNotes (store.memory.notes.map (·.contentId)) notes = []) {s : LocalStore}
    (hkept : Kept store s.memory) (hmarker : MarkerOf store workingOid s.marker) :
    Imported store notes workingOid s := by
  refine ⟨⟨s.memory, hkept.1, hkept.2, by rw [hnil]; rfl⟩, ?_, ?_⟩
  · rcases hmarker with h | h
    · rw [h]
    · rw [h]
  · rcases hmarker with h | h
    · exact Or.inl (by rw [h])
    · exact Or.inr (by rw [h])

/-- The marker is recorded if it can be. -/
theorem survives_attempt_setNotesImported (workingOid : Option String) :
    Sql.Survives (fun s : LocalStore => Kept store s.memory ∧ s.marker = store.marker)
      (Sql.attempt (setNotesImportedWorkingOid workingOid))
      (fun _ s => Kept store s.memory ∧ MarkerOf store workingOid s.marker)
      (NotImported store) := by
  refine Sql.Survives.mono (Sql.Survives.caught (survives_setNotesImportedWorkingOid workingOid
    (P := Kept store) (E := fun s => Kept store s.memory ∧ s.marker = store.marker)
    (fun _ hs => hs))) (fun _ hs => hs) (fun _ s hs => ?_) (fun _ hs => hs)
  rcases hs with ⟨_, _, hs⟩ | ⟨_, hs⟩
  · exact ⟨hs.1, Or.inr hs.2⟩
  · exact ⟨hs.1, Or.inl hs.2⟩

/-- A store that exists is opened to record the marker, and neither has to succeed. -/
theorem survives_recordNothing (hv : store.memory.Valid) (workingOid : Option String) :
    Sql.Survives (fun s => s = store)
      (Sql.attempt openLocalStore >>= fun opened =>
        match opened with
        | .ok _ => Sql.attempt (setNotesImportedWorkingOid workingOid) >>= fun _ => pure ()
        | .error _ => pure ())
      (fun _ s => Kept store s.memory ∧ MarkerOf store workingOid s.marker)
      (NotImported store) := by
  refine Sql.Survives.bind (Q := fun _ s => Kept store s.memory ∧ s.marker = store.marker)
    (Sql.Survives.mono (Sql.Survives.caught (survives_openLocalStore hv)) (fun _ hs => hs)
      (fun _ s hs => ?_) (fun _ hs => hs)) (fun opened => ?_)
  · rcases hs with ⟨_, _, hs⟩ | ⟨_, hs⟩
    · exact ⟨⟨hs.1.valid, hs.1.same⟩, hs.2⟩
    · exact ⟨⟨hs.valid, hs.same⟩, hs.marker⟩
  · cases opened with
    | ok =>
        exact Sql.Survives.bind (survives_attempt_setNotesImported workingOid)
          (fun _ => Sql.Survives.ok _ (fun _ hs => hs))
    | error => exact Sql.Survives.ok _ (fun _ hs => ⟨hs.1, Or.inl hs.2⟩)

/-- The identities read to see what is absent. -/
theorem survives_absentOf (db : MemoryDb) (notes : List CarrierNote) :
    Sql.Survives (fun s => s = db) (allNotesForDedup >>= fun all => pure (all.map noteEntityId))
      (fun existing s => absentNotes existing notes
        = absentNotes (db.notes.map (·.contentId)) notes ∧ s = db) (fun s => s = db) := by
  refine Sql.Survives.bind (Q := fun all s => all = db.snapshot ∧ s = db)
    (Sql.Survives.query (fun s hs => ⟨by rw [hs]; rfl, hs⟩) (fun _ hs => hs))
    (fun all => Sql.Survives.ok _ (fun s hs => ⟨?_, hs.2⟩))
  rw [hs.1]
  refine absentNotes_congr (fun e => ?_)
  rw [snapshot, List.map_map]
  exact ((rowsByAge_perm db).map _).mem_iff

/-- The same read beside the marker. -/
theorem survives_storedContents (opened : LocalStore) (notes : List CarrierNote)
    {E : LocalStore → Prop} (hE : E opened) :
    Sql.Survives (fun s => s = opened)
      (onMemory (allNotesForDedup >>= fun all => pure (all.map noteEntityId)))
      (fun existing s => absentNotes existing notes
        = absentNotes (opened.memory.notes.map (·.contentId)) notes ∧ s = opened) E := by
  refine Sql.Survives.mono (Sql.Survives.zoom
    (F := fun s : LocalStore => { s with memory := opened.memory } = opened) (fun _ _ => rfl)
    (fun _ _ hs => hs) (survives_absentOf opened.memory notes)) (fun s hs => ?_)
    (fun _ s hs => ?_) (fun s hs => ?_)
  · rw [hs]
    exact ⟨rfl, rfl⟩
  · refine ⟨hs.1.1, ?_⟩
    rw [← hs.2, ← hs.1.2]
  · have heq : s = opened := by rw [← hs.2, ← hs.1]
    rw [heq]
    exact hE

/-- The inserts and the marker, in one transaction. -/
theorem survives_importAbsent {opened : LocalStore} (hv : opened.memory.Valid)
    (notes : List CarrierNote) (workingOid : Option String) :
    Sql.Survives (fun s => s = opened)
      (Sql.transaction (onMemory
          (Sql.forEach (absentNotes (opened.memory.notes.map (·.contentId)) notes) importNote)
        >>= fun _ => setNotesImportedWorkingOid workingOid
        >>= fun _ => pure
          (absentNotes (opened.memory.notes.map (·.contentId)) notes).length))
      (fun n s => (s.memory = opened.memory.insertRows
          ((absentNotes (opened.memory.notes.map (·.contentId)) notes).map noteImportRow) ∧
        s.marker = { opened.marker with lastImportedWorkingOid := workingOid }) ∧
        n = (absentNotes (opened.memory.notes.map (·.contentId)) notes).length)
      (fun s => s = opened) := by
  refine Sql.Survives.transaction (F := fun _ => True) ?_ (fun _ hs => hs)
  refine Sql.Survives.bind (Q := fun _ s => s.memory = opened.memory.insertRows
    ((absentNotes (opened.memory.notes.map (·.contentId)) notes).map noteImportRow) ∧
      s.marker = opened.marker) (Sql.Survives.mono (Sql.Survives.zoom
        (F := fun s : LocalStore => s.marker = opened.marker) (fun _ _ => rfl)
        (fun _ _ hs => hs) (serves_importNotes hv notes))
      (fun s hs => ⟨congrArg LocalStore.memory hs, congrArg LocalStore.marker hs⟩)
      (fun _ _ hs => hs) (fun _ _ => trivial)) (fun _ => ?_)
  exact Sql.Survives.bind (survives_setNotesImportedWorkingOid workingOid (P := fun db =>
    db = opened.memory.insertRows
      ((absentNotes (opened.memory.notes.map (·.contentId)) notes).map noteImportRow))
    (fun _ _ => trivial)) (fun _ => Sql.Survives.ok _ (fun s hs => ⟨hs, rfl⟩))

/-- The import, unless a fault stops it. -/
theorem survives_importListed (hv : store.memory.Valid) (notes : List CarrierNote)
    (workingOid : Option String) :
    Sql.Survives (fun s => s = store) (importListed notes workingOid)
      (fun n s => Imported store notes workingOid s ∧
        n = (absentNotes (store.memory.notes.map (·.contentId)) notes).length)
      (NotImported store) := by
  have hstart : NotImported store store := ⟨hv, SameRows.refl _, rfl⟩
  unfold importListed
  split
  · next hnil =>
    have hempty : absentNotes (store.memory.notes.map (·.contentId)) notes = [] := by
      rw [hnil]
      rfl
    refine Sql.Survives.bind (Q := fun _ s => s = store)
      (Sql.Survives.query (fun _ hs => hs) (fun s hs => by rw [hs]; exact hstart))
      (fun created => Sql.Survives.bind (Q := fun _ s =>
        Kept store s.memory ∧ MarkerOf store workingOid s.marker)
        (Sql.Survives.whenever (fun _ => survives_recordNothing hv workingOid) (fun _ s hs => ?_))
        (fun _ => Sql.Survives.ok _ (fun s hs => ⟨imported_of_nothing hempty hs.1 hs.2, ?_⟩)))
    · rw [hs]
      exact ⟨⟨hv, SameRows.refl _⟩, Or.inl rfl⟩
    · rw [hempty]
      rfl
  · refine Sql.Survives.bind (survives_openLocalStore hv) (fun _ => Sql.Survives.of_each
      (fun opened hopened => ?_))
    rcases hopened with ⟨hopen, hmarker⟩
    have hnot : NotImported store opened := ⟨hopen.valid, hopen.same, hmarker⟩
    -- The identities read are those of the store before the open.
    have habsent : absentNotes (opened.memory.notes.map (·.contentId)) notes
        = absentNotes (store.memory.notes.map (·.contentId)) notes := by
      rw [hopen.same.map_eq NoteRow.contentId (fun _ => rfl)]
    refine Sql.Survives.bind (survives_storedContents opened notes hnot)
      (fun existing => Sql.Survives.of_pre (fun hexisting => ?_))
    rw [hexisting]
    dsimp only
    split
    · next hnil =>
      rw [habsent] at hnil
      refine Sql.Survives.bind (Sql.Survives.mono (survives_attempt_setNotesImported workingOid)
        (fun s hs => ?_) (fun _ _ hs => hs) (fun _ hs => hs))
        (fun _ => Sql.Survives.ok _ (fun s hs => ⟨imported_of_nothing hnil hs.1 hs.2, ?_⟩))
      · rw [hs]
        exact ⟨⟨hopen.valid, hopen.same⟩, hmarker⟩
      · rw [hnil]
        rfl
    · refine Sql.Survives.mono (survives_importAbsent hopen.valid notes workingOid)
        (fun _ hs => hs) (fun n s hs => ⟨⟨⟨opened.memory, hopen.valid, hopen.same, ?_⟩, ?_, ?_⟩, ?_⟩)
        (fun s hs => by rw [hs]; exact hnot)
      · rw [hs.1.1, habsent]
      · rw [hs.1.2, hmarker]
      · exact Or.inr (by rw [hs.1.2])
      · rw [hs.2, habsent]

end Run

end Spelunk
