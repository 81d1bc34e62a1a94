import Spelunk.Theory.NotesImport

/-!
# The Carrier Reaches the Store

An import gives every entity on the carrier a row and takes nothing back: no
archived row becomes active and no entity gets a second row. What it does not do
is look at an entity the store has already. When the carrier archives an entry
after its first import, the row stays active, and that is one of the two ways in
which the store falls behind the carrier; the other is a listing by git that
fails and is read as an empty one.

## Main definitions

* `NotesRepo.answering`: The same repository with git answering.
* `ImportLaw`: What an import promises.
* `NothingOverlooked`: What makes it keep that promise.

## Theorems

* `collect_perm`: A listing under the cap has every entity.
* `importGitNotes_law_iff`: When the promise is kept.
* `importGitNotes_keeps_active`: When it is not.
-/

namespace Spelunk

open Lib (Sql SqlError)

open MemoryDb LocalStore

/-- The same repository, git answering what it is asked. -/
def NotesRepo.answering (repo : NotesRepo) : NotesRepo :=
  { repo with listFails := false, logFails := false, batchFails := false }

/-- A listing or a log that fails is read as an empty carrier. -/
def NotesRepo.Silent (repo : NotesRepo) : Prop :=
  repo.listFails = true ∨ repo.logFails = true

instance (repo : NotesRepo) : Decidable repo.Silent := by
  unfold NotesRepo.Silent
  infer_instance

variable [Sha256]

/-- The identity of a record's content. -/
def NoteRecord.contentId (r : NoteRecord) : String :=
  (recordToNote r).entityId

/-- What an import of the carrier's entities `folded` promises: `s` is what it
    leaves of `store`. -/
structure ImportLaw (store : LocalStore) (folded : List NoteRecord) (s : LocalStore) : Prop where
  /-- Every entity has a row. -/
  present : ∀ r ∈ folded, ∃ x ∈ s.memory.notes, x.contentId = r.contentId
  /-- What the carrier has archived, the store has. -/
  archived : ∀ r ∈ folded, r.status = "archived" →
    ∀ x ∈ s.memory.notes, x.contentId = r.contentId → x.status = "archived"
  /-- No archived row becomes active. -/
  kept : ∀ x ∈ store.memory.notes, x.status = "archived" →
    ∃ y ∈ s.memory.notes, y.id = x.id ∧ y.status = "archived"
  /-- No entity gains a second row. -/
  one_row : ∀ e, s.memory.rowsOf e ≤ max 1 (store.memory.rowsOf e)

/-- What the carrier says is not behind what the import looks at: git answers, or
    has nothing new; no active row has the content of an archived entity; and of
    the entries listed for a content the store lacks the first is archived if one
    is. -/
structure NothingOverlooked (store : LocalStore) (repo : NotesRepo) (folded : List NoteRecord) :
    Prop where
  answered : repo.Silent → ∀ r ∈ folded, ∃ x ∈ store.memory.notes, x.contentId = r.contentId
  stored : ∀ r ∈ folded, r.status = "archived" →
    ∀ x ∈ store.memory.notes, x.contentId = r.contentId → x.status = "archived"
  listed : ∀ r ∈ folded, r.status = "archived" →
    (∀ x ∈ store.memory.notes, x.contentId ≠ r.contentId) →
    ∀ n, (collect none true none gitNotesImportLimit folded).find?
      (fun n => n.entityId = r.contentId) = some n → n.status = "archived"

section Listing

variable {folded : List NoteRecord}

omit [Sha256] in
/-- A listing of everything is the fold, oldest first, when the cap holds it. -/
theorem collect_perm {limit : Nat} (h : folded.length ≤ limit) :
    (collect none true none limit folded).Perm (folded.map recordToNote) := by
  have hfilter : folded.filter (fun r => ((none : Option String) = none ∨
      (none : Option String) = some r.kind) ∧ recordInWindow r true none) = folded := by
    rw [List.filter_eq_self]
    intro r _
    simp [recordInWindow]
  have hcollect : collect none true none limit folded =
      ((folded.insertionSort (fun a b => a.createdAt ≤ b.createdAt)).drop
        ((folded.insertionSort (fun a b => a.createdAt ≤ b.createdAt)).length - limit)).map
          recordToNote := by
    conv_rhs => rw [← hfilter]
    rfl
  rw [hcollect, List.length_insertionSort, Nat.sub_eq_zero_of_le h, List.drop_zero]
  exact (List.perm_insertionSort _ _).map _

end Listing

section Law

variable {store s : LocalStore} {repo : NotesRepo} {folded : List NoteRecord}

/-- What a reader sees: everything, or nothing if git does not answer the listing,
    or an error if it does not serve the notes. -/
theorem foldedRecords_eq [NoteJson] (h : foldedRecords repo.answering = .ok folded) :
    foldedRecords repo = .ok (if repo.Silent then [] else folded) ∨
      (repo.batchFails = true ∧ foldedRecords repo = .error .git) := by
  by_cases hsilent : repo.Silent
  · have hnone : notedCommits repo = [] := by
      unfold notedCommits
      rcases hsilent with hl | hl
      · rw [if_pos hl]
      · rw [hl]
        split
        · rfl
        · split
          · rfl
          · rfl
    left
    rw [if_pos hsilent]
    unfold foldedRecords
    rw [hnone]
    rfl
  · have hflags := hsilent
    rw [NotesRepo.Silent, not_or, Bool.not_eq_true, Bool.not_eq_true] at hflags
    have hsame : notedCommits repo = notedCommits repo.answering := by
      unfold notedCommits NotesRepo.answering
      rw [hflags.1, hflags.2]
    have hbatch : repo.answering.batchFails = false := rfl
    rw [if_neg hsilent]
    unfold foldedRecords at h ⊢
    rw [← hsame] at h
    simp only [hbatch, Bool.false_eq_true, and_false, if_false] at h
    simp only [h]
    split
    · next hfails => exact Or.inr ⟨hfails.2, rfl⟩
    · exact Or.inl rfl

theorem listNotes_of_folded [NoteJson] (h : foldedRecords repo = .ok folded)
    (kindFilter : Option String) (limit : Nat) (includeArchived : Bool) (asOf : Option Int) :
    listNotes repo kindFilter limit includeArchived asOf
      = .ok (collect kindFilter includeArchived asOf (min limit gitNotesMaxList) folded) := by
  rw [listNotes, h]
  rfl

/-- An import of a listing that answers. -/
theorem importGitNotes_of_listed [NoteJson] {notes : List CarrierNote}
    (h : listNotes repo none gitNotesImportLimit true none = .ok notes)
    (workingOid : Option String) :
    importGitNotesIntoMemory repo workingOid = importListed notes workingOid := by
  rw [importGitNotesIntoMemory, h]

/-- The listing an import works from. -/
theorem listNotes_eq [NoteJson] (h : foldedRecords repo.answering = .ok folded) :
    listNotes repo none gitNotesImportLimit true none
        = .ok (if repo.Silent then [] else collect none true none gitNotesImportLimit folded) ∨
      (repo.batchFails = true ∧
        listNotes repo none gitNotesImportLimit true none = .error .git) := by
  rcases foldedRecords_eq h with hread | ⟨hfails, hread⟩
  · left
    rw [listNotes_of_folded hread]
    split
    · rfl
    · rfl
  · exact Or.inr ⟨hfails, by rw [listNotes, hread]; rfl⟩

/-- A row of the store, as the import leaves it. -/
theorem imported_of_stored {notes : List CarrierNote} {oid : Option String}
    (h : Imported store notes oid s) {x : NoteRow} (hx : x ∈ store.memory.notes) :
    ∃ y ∈ s.memory.notes, y.id = x.id ∧ y.contentId = x.contentId ∧ y.status = x.status := by
  rcases h.memory with ⟨db, _, hsame, hmem⟩
  rcases hsame.symm.exists_row hx with ⟨y, hy, heq⟩
  refine ⟨y, ?_, of_withoutIdentity_eq heq⟩
  rw [hmem]
  exact mem_insertRows_notes.mpr (Or.inl hy)

/-- The row of an entry the store lacked. -/
theorem imported_of_absent {notes : List CarrierNote} {oid : Option String}
    (h : Imported store notes oid s) {n : CarrierNote}
    (hn : n ∈ absentNotes (store.memory.notes.map (·.contentId)) notes) :
    ∃ y ∈ s.memory.notes, y.contentId = n.entityId ∧
      y.status = if n.status = "archived" then "archived" else "active" := by
  rcases h.memory with ⟨db, _, _, hmem⟩
  rcases @exists_insertRows db _ _ (List.mem_map_of_mem (f := noteImportRow) hn) with ⟨id, hy⟩
  rw [← hmem] at hy
  refine ⟨_, hy, ?_, status_noteImportRow n⟩
  rw [contentId_withId, contentId_noteImportRow]

/-- Every row afterwards is one or the other. -/
theorem imported_cases {notes : List CarrierNote} {oid : Option String}
    (h : Imported store notes oid s) {y : NoteRow} (hy : y ∈ s.memory.notes) :
    (∃ x ∈ store.memory.notes, y.contentId = x.contentId ∧ y.status = x.status) ∨
      ∃ n ∈ absentNotes (store.memory.notes.map (·.contentId)) notes, y.contentId = n.entityId ∧
        y.status = if n.status = "archived" then "archived" else "active" := by
  rcases h.memory with ⟨db, _, hsame, hmem⟩
  rw [hmem] at hy
  rcases mem_insertRows_notes.mp hy with hy | ⟨p, hp, rfl⟩
  · rcases hsame.exists_row hy with ⟨x, hx, heq⟩
    have hrow := of_withoutIdentity_eq heq
    exact Or.inl ⟨x, hx, hrow.2.1.symm, hrow.2.2.symm⟩
  · rcases List.mem_map.mp (List.fst_mem_of_mem_zipIdx hp) with ⟨n, hn, heq⟩
    refine Or.inr ⟨n, hn, ?_, ?_⟩
    · rw [contentId_withId, ← heq, contentId_noteImportRow]
    · rw [← status_noteImportRow, heq]

/-- What an import keeps in any case. -/
theorem imported_keeps {notes : List CarrierNote} {oid : Option String}
    (h : Imported store notes oid s) :
    (∀ x ∈ store.memory.notes, x.status = "archived" →
      ∃ y ∈ s.memory.notes, y.id = x.id ∧ y.status = "archived") ∧
      ∀ e, s.memory.rowsOf e ≤ max 1 (store.memory.rowsOf e) := by
  refine ⟨fun x hx harch => ?_, fun e => ?_⟩
  · rcases imported_of_stored h hx with ⟨y, hy, hid, _, hstatus⟩
    exact ⟨y, hy, hid, hstatus.trans harch⟩
  · rcases h.memory with ⟨db, hval, hsame, hmem⟩
    have hcontents := hsame.map_eq NoteRow.contentId (fun _ => rfl)
    have hrows : db.rowsOf e = store.memory.rowsOf e := by
      have hcount := congrArg (List.countP (fun c => c = e)) hcontents
      rwa [List.countP_map, List.countP_map] at hcount
    rw [hmem, ← hrows, ← hcontents]
    exact (rowsOf_insertRows takes_absentNotes e).1

/-- A stored content is one of the identities the import reads. -/
theorem notMem_contents {e : String} (h : ∀ x ∈ store.memory.notes, x.contentId ≠ e) :
    e ∉ store.memory.notes.map (·.contentId) := by
  intro he
  rcases List.mem_map.mp he with ⟨x, hx, hxe⟩
  exact h x hx hxe

/-- The promise is kept when nothing the carrier says is overlooked. -/
theorem importLaw_of_nothingOverlooked {notes : List CarrierNote} {oid : Option String}
    (himported : Imported store notes oid s)
    (hnotes : ¬ repo.Silent → notes = collect none true none gitNotesImportLimit folded)
    (hcap : folded.length ≤ gitNotesImportLimit) (h : NothingOverlooked store repo folded) :
    ImportLaw store folded s := by
  have hkeeps := imported_keeps himported
  constructor
  case kept => exact hkeeps.1
  case one_row => exact hkeeps.2
  case present =>
    intro r hr
    by_cases hstored : ∃ x ∈ store.memory.notes, x.contentId = r.contentId
    · rcases hstored with ⟨x, hx, hxr⟩
      rcases imported_of_stored himported hx with ⟨y, hy, _, hyx, _⟩
      exact ⟨y, hy, hyx.trans hxr⟩
    · -- A content that is not stored is listed, and so it is inserted.
      have hlist := hnotes (fun hsilent => hstored (h.answered hsilent r hr))
      have hmem : recordToNote r ∈ notes := by
        rw [hlist, (collect_perm hcap).mem_iff]
        exact List.mem_map_of_mem hr
      rcases exists_absentNotes hmem (notMem_contents (fun x hx hxr => hstored ⟨x, hx, hxr⟩)) with
        ⟨m, hm, hme, _⟩
      rcases imported_of_absent himported hm with ⟨y, hy, hye, _⟩
      exact ⟨y, hy, hye.trans hme⟩
  case archived =>
    intro r hr harch y hy hyr
    rcases imported_cases himported hy with ⟨x, hx, hyx, hstatus⟩ | ⟨n, hn, hyn, hstatus⟩
    · exact hstatus.trans (h.stored r hr harch x hx (hyx.symm.trans hyr))
    · have hnr : n.entityId = r.contentId := hyn.symm.trans hyr
      have habsent := (mem_absentNotes hn).2
      have hlisted : ∀ x ∈ store.memory.notes, x.contentId ≠ r.contentId := fun x hx hxr =>
        habsent (List.mem_map.mpr ⟨x, hx, hxr.trans hnr.symm⟩)
      have hlist := hnotes (fun hsilent => by
        rcases h.answered hsilent r hr with ⟨x, hx, hxr⟩
        exact hlisted x hx hxr)
      rcases exists_absentNotes (mem_absentNotes hn).1 habsent with ⟨m, hm, hme, hfind⟩
      have hmn : m = n := List.inj_on_of_nodup_map nodup_absentNotes hm hn hme
      rw [hlist, hnr, hmn] at hfind
      rw [hstatus, if_pos (h.listed r hr harch hlisted n hfind)]

/-- And only then. -/
theorem nothingOverlooked_of_importLaw {notes : List CarrierNote} {oid : Option String}
    (himported : Imported store notes oid s)
    (hnotes : notes = if repo.Silent then []
      else collect none true none gitNotesImportLimit folded)
    (h : ImportLaw store folded s) : NothingOverlooked store repo folded := by
  have hanswered : repo.Silent → ∀ r ∈ folded,
      ∃ x ∈ store.memory.notes, x.contentId = r.contentId := by
    intro hsilent r hr
    rw [if_pos hsilent] at hnotes
    rcases h.present r hr with ⟨y, hy, hyr⟩
    rcases imported_cases himported hy with ⟨x, hx, hyx, _⟩ | ⟨n, hn, _⟩
    · exact ⟨x, hx, hyx.symm.trans hyr⟩
    · rw [hnotes] at hn
      exact absurd hn List.not_mem_nil
  constructor
  case answered => exact hanswered
  case stored =>
    intro r hr harch x hx hxr
    rcases imported_of_stored himported hx with ⟨y, hy, _, hyx, hstatus⟩
    exact hstatus.symm.trans (h.archived r hr harch y hy (hyx.trans hxr))
  case listed =>
    intro r hr harch habsent n hfind
    have hne : ¬ repo.Silent := fun hsilent => by
      rcases hanswered hsilent r hr with ⟨x, hx, hxr⟩
      exact habsent x hx hxr
    rw [if_neg hne] at hnotes
    rw [← hnotes] at hfind
    have hn := List.mem_of_find?_eq_some hfind
    have hfound := List.find?_some hfind
    have hnr := of_decide_eq_true hfound
    rcases exists_absentNotes hn (hnr ▸ notMem_contents habsent) with ⟨m, hm, _, hfound⟩
    rw [hnr, hfind, Option.some.injEq] at hfound
    subst hfound
    rcases imported_of_absent himported hm with ⟨y, hy, hyn, hstatus⟩
    by_contra hactive
    rw [if_neg hactive] at hstatus
    have := h.archived r hr harch y hy (hyn.trans hnr)
    rw [hstatus] at this
    exact absurd this (by decide)

end Law

section Run

variable [NoteJson] {store : LocalStore} {repo : NotesRepo} {folded : List NoteRecord}

/-- An import answers if git serves what it asks for, and when it does, at
    whatever fault, its promise is kept exactly if nothing was overlooked. -/
theorem importGitNotes_law_iff (hv : store.memory.Valid)
    (hfolded : foldedRecords repo.answering = .ok folded)
    (hcap : folded.length ≤ gitNotesMaxList) (workingOid : Option String) :
    (repo.batchFails = false → ∃ n s,
        importGitNotesIntoMemory repo workingOid ⟨store, none⟩ = (.ok n, ⟨s, none⟩)) ∧
      ∀ fault n, (importGitNotesIntoMemory repo workingOid ⟨store, fault⟩).1 = .ok n →
        (ImportLaw store folded (importGitNotesIntoMemory repo workingOid ⟨store, fault⟩).2.db ↔
          NothingOverlooked store repo folded) := by
  have hlist := listNotes_eq hfolded
  constructor
  · intro hbatch
    rcases hlist with hlist | ⟨hfails, _⟩
    · rw [importGitNotes_of_listed hlist]
      rcases Sql.Answers.of_serves (Sql.Survives.mono (survives_importListed hv _ workingOid)
        (fun _ hs => hs) (fun _ _ hs => hs) (fun _ _ => trivial)) store rfl with ⟨n, s, hrun, _⟩
      exact ⟨n, s, hrun⟩
    · rw [hbatch] at hfails
      exact absurd hfails (by decide)
  · intro fault n hok
    rcases hlist with hlist | ⟨_, hlist⟩
    · rw [importGitNotes_of_listed hlist] at hok ⊢
      have himported := ((survives_importListed hv _ workingOid).post rfl hok).1
      refine ⟨fun h => nothingOverlooked_of_importLaw himported rfl h, fun h =>
        importLaw_of_nothingOverlooked himported (fun hne => if_neg hne) hcap h⟩
    · rw [importGitNotesIntoMemory, hlist] at hok
      exact absurd hok (by simp [Sql.fail])

end Run

section Runs

omit [Sha256]

/-- An entry on the carrier, in a line from before most fields were written. -/
def axumLine : String :=
  "\x7b\"id\":7,\"kind\":\"decision\",\"title\":\"HTTP layer\",\"body\":\"use axum\",\"tags\":[],\"linked_files\":[],\"created_at\":10,\"status\":\"active\"\x7d"

/-- The line that archives it. -/
def axumTombstone : String :=
  "\x7b\"id\":9,\"kind\":\"decision\",\"title\":\"HTTP layer\",\"body\":\"use axum\",\"tags\":[],\"linked_files\":[],\"created_at\":20,\"status\":\"archived\"\x7d"

/-- The record of such a line. -/
def axumRecord (id createdAt : Int) (status : String) : NoteRecord where
  schemaVersion := 0
  id := id
  kind := "decision"
  title := "HTTP layer"
  body := "use axum"
  tags := []
  linkedFiles := []
  createdAt := createdAt
  status := status
  sourceRef := none
  validAt := none
  invalidAt := none
  supersededBy := none
  remoteId := none
  entityId := none
  supersededByEntityId := none

/-- The JSON library on these two lines. -/
@[reducible] def axumJson : NoteJson where
  toLine := fun r => if r.status = "active" then axumLine else axumTombstone
  ofLine := fun line =>
    if line = axumLine then some (axumRecord 7 10 "active")
    else if line = axumTombstone then some (axumRecord 9 20 "archived")
    else none

/-- A commit with the entry, and a later one that archives it. -/
def tombstoned : NotesRepo where
  notes := [("c1", axumLine), ("c2", axumTombstone)]
  log := ["c2", "c1"]
  listFails := false
  logFails := false
  batchFails := false

/-- A clone that recorded the same entry itself. -/
def axumClone : LocalStore where
  created := true
  memory :=
    { notes := [{ @newRow workedSha256 "decision" "HTTP layer" "use axum" 15 with id := 1 }]
      edges := []
      embeddings := []
      nextId := 2
      entityIdUnique := true }
  marker := ⟨none, none⟩

theorem valid_axumClone : @MemoryDb.Valid workedSha256 axumClone.memory :=
  @MemoryDb.Valid.mk workedSha256 _ ⟨by decide, by decide, by decide⟩ (by unfold StatusOk; decide)
    (by decide)

theorem cleanLine_axumLine : CleanLine axumLine := by
  have h : '\n' ∉ axumLine.toList ∧ axumLine.toList ≠ [] ∧ trim axumLine.toList = axumLine.toList := by
    decide +kernel
  exact ⟨h.2.1, h.1, h.2.2⟩

theorem cleanLine_axumTombstone : CleanLine axumTombstone := by
  have h : '\n' ∉ axumTombstone.toList ∧ axumTombstone.toList ≠ [] ∧
      trim axumTombstone.toList = axumTombstone.toList := by
    decide +kernel
  exact ⟨h.2.1, h.1, h.2.2⟩

theorem ofLine_axumLine :
    @NoteJson.ofLine axumJson axumLine = some (axumRecord 7 10 "active") :=
  if_pos rfl

theorem ofLine_axumTombstone :
    @NoteJson.ofLine axumJson axumTombstone = some (axumRecord 9 20 "archived") := by
  show (if axumTombstone = axumLine then _ else if axumTombstone = axumTombstone then _ else _) = _
  rw [if_neg (by decide +kernel), if_pos rfl]

/-- The entry is archived on the carrier. -/
theorem foldedRecords_tombstoned :
    @foldedRecords axumJson workedSha256 tombstoned = .ok [axumRecord 7 10 "archived"] := by
  have hline := @parseRecords_of_cleanLine axumJson _ cleanLine_axumLine (axumRecord 7 10 "active")
    ofLine_axumLine (by decide)
  have htombstone := @parseRecords_of_cleanLine axumJson _ cleanLine_axumTombstone
    (axumRecord 9 20 "archived") ofLine_axumTombstone (by decide)
  have hblobs : (notedCommits tombstoned).map (·.2) = [axumTombstone, axumLine] := rfl
  have hparsed : @parseBlobs axumJson [axumTombstone, axumLine]
      = .ok ([axumRecord 9 20 "archived"] ++ ([axumRecord 7 10 "active"] ++ [])) := by
    rw [@parseBlobs_cons axumJson _ _ _ htombstone, @parseBlobs_cons axumJson _ _ _ hline]
    simp only [parseBlobs, Except.map]
  have hfold : @foldRecords workedSha256
      ([axumRecord 9 20 "archived"] ++ ([axumRecord 7 10 "active"] ++ []))
        = [axumRecord 7 10 "archived"] := by decide
  exact @foldedRecords_of_parsed axumJson workedSha256 _ rfl _ hblobs _ _ hparsed hfold

/-- The import works on the one entry the fold has. -/
theorem importGitNotes_tombstoned :
    @importGitNotesIntoMemory workedSha256 axumJson tombstoned (some "w")
      = @importListed workedSha256 [recordToNote (axumRecord 7 10 "archived")] (some "w") :=
  @importGitNotes_of_listed workedSha256 tombstoned axumJson _
    (@listNotes_of_folded workedSha256 tombstoned _ axumJson foldedRecords_tombstoned _ _ _ _) _

theorem answering_tombstoned : tombstoned.answering = tombstoned := rfl

theorem valid_absent : @MemoryDb.Valid workedSha256 LocalStore.absent.memory :=
  @MemoryDb.Valid.mk workedSha256 _ ⟨by decide, by decide, fun _ hn => absurd hn List.not_mem_nil⟩
    (fun _ hn => absurd hn List.not_mem_nil) (fun _ hn => absurd hn List.not_mem_nil)

theorem nothingOverlooked_absent :
    @NothingOverlooked workedSha256 LocalStore.absent tombstoned [axumRecord 7 10 "archived"] := by
  let _ : Sha256 := workedSha256
  refine ⟨fun h => absurd h (by decide), fun _ _ _ x hx => absurd hx List.not_mem_nil, ?_⟩
  intro r hr _ _ n hn
  rw [List.mem_singleton.mp hr] at hn
  have hfind : (collect none true none gitNotesImportLimit [axumRecord 7 10 "archived"]).find?
      (fun n => n.entityId = (axumRecord 7 10 "archived").contentId)
        = some (recordToNote (axumRecord 7 10 "archived")) := by decide
  rw [hfind, Option.some.injEq] at hn
  rw [← hn]
  rfl

theorem importGitNotes_law_iff_tombstoned :
    (@importGitNotesIntoMemory workedSha256 axumJson tombstoned (some "w")
        ⟨LocalStore.absent, none⟩).1 = .ok 1 ∧
      @ImportLaw workedSha256 LocalStore.absent [axumRecord 7 10 "archived"]
        (@importGitNotesIntoMemory workedSha256 axumJson tombstoned (some "w")
          ⟨LocalStore.absent, none⟩).2.db := by
  have hrun : (@importGitNotesIntoMemory workedSha256 axumJson tombstoned (some "w")
      ⟨LocalStore.absent, none⟩).1 = .ok 1 := by
    rw [importGitNotes_tombstoned]
    decide
  have hlaw := @importGitNotes_law_iff workedSha256 axumJson LocalStore.absent tombstoned
    [axumRecord 7 10 "archived"] valid_absent
    (by rw [answering_tombstoned, foldedRecords_tombstoned]) (by decide) (some "w")
  exact ⟨hrun, (hlaw.2 none 1 hrun).mpr nothingOverlooked_absent⟩

/-- A clone that has an entry keeps it active when the carrier archives it. -/
theorem importGitNotes_keeps_active :
    @MemoryDb.Valid workedSha256 axumClone.memory ∧
      @foldedRecords axumJson workedSha256 tombstoned.answering = .ok [axumRecord 7 10 "archived"] ∧
      (@importGitNotesIntoMemory workedSha256 axumJson tombstoned (some "w")
        ⟨axumClone, none⟩).1 = .ok 0 ∧
      ¬ @ImportLaw workedSha256 axumClone [axumRecord 7 10 "archived"]
        (@importGitNotesIntoMemory workedSha256 axumJson tombstoned (some "w")
          ⟨axumClone, none⟩).2.db := by
  rw [answering_tombstoned, foldedRecords_tombstoned, importGitNotes_tombstoned]
  refine ⟨valid_axumClone, rfl, by decide, fun hlaw => ?_⟩
  let _ : Sha256 := workedSha256
  have harch := hlaw.archived (axumRecord 7 10 "archived") (List.mem_singleton_self _) rfl
    (@NoteRow.mk 1 "decision" "HTTP layer" "use axum" none none 15 "active" none none none none none
      none (some (@entityId workedSha256 "decision" "HTTP layer" "use axum"))) (by decide) rfl
  exact absurd harch (by decide)

end Runs

end Spelunk
