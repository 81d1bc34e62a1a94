import Spelunk.Theory.CarrierImport
import Spelunk.Theory.SyncRuns

/-!
# The Identity Invariant

Rows of a store come from code of several generations: some lack an identity,
some share one. Whatever order the commands, the syncs, the imports and the opens
come in, a stored identity is the one of its row, and the unique index, once it is
there, lets no second row store it. Between an open and the next dedupe the
identity of every row is stored, so an add of content that is there ends at the
row that stores it.

A dedupe keeps the oldest row of a group, and that row may lack its identity until
the store is opened again. This is the one place where the promise is interrupted.

## Main definitions

* `StoreEvent`, `eventStep`: The commands, the writes of a sync and the imports.
* `IdentityLaw`: What holds of every store they reach.

## Theorems

* `serves_addNote_again`: An add of content that is stored.
* `linkClosed_backfilled`: Every identity stays stored while nothing is deleted.
* `identityLaw_of_run`: The law in every run.
* `addNote_twice_after_dedupe`: Why a dedupe has to be followed by an open.
-/

namespace Spelunk

open Lib (Sql SqlError GuardedRun)

open MemoryDb LocalStore

variable [Sha256]

section AddAgain

variable {db : MemoryDb} {x : NoteRow}

omit [Sha256] in
/-- An identity that is stored under the unique index is stored by one row. -/
theorem find?_entityId (hu : db.UniqueOk) (hindex : db.entityIdUnique = true) (hx : x ∈ db.notes)
    {e : String} (hxe : x.entityId = some e) :
    db.notes.find? (fun r => r.entityId = some e) = some x := by
  rcases hfind : db.notes.find? (fun r => r.entityId = some e) with _ | y
  · exact absurd hxe (by simpa using List.find?_eq_none.mp hfind x hx)
  · have hye := List.find?_some hfind
    have hyx : y = x := Lib.eq_of_indexed (hu.2.2.2 hindex) (List.mem_of_find?_eq_some hfind) hx
      (of_decide_eq_true hye) hxe
    exact hfind.trans (congrArg some hyx)

omit [Sha256] in
/-- The recovery from a collision ends at the row that stores the identity. -/
theorem serves_recover (hu : db.UniqueOk) (hfk : db.ForeignKeysOk)
    (hindex : db.entityIdUnique = true) (hx : x ∈ db.notes) {e : String}
    (hxe : x.entityId = some e) (tags linkedFiles : List String) :
    Sql.Serves (fun s => s = db) (recoverFromEntityIdCollision (.error .unique) e tags linkedFiles)
      (fun p s => p = (x.id, false) ∧
        s = db.updateRows (fun r => r.id = x.id) (unionRow tags linkedFiles)) := by
  refine Sql.Serves.bind (Q := fun found s => found = some x ∧ s = db)
    (Sql.Serves.query (fun s hs => ⟨?_, hs⟩)) (fun found => Sql.Serves.of_pre (fun hfound => ?_))
  · rw [hs]
    exact find?_entityId hu hindex hx hxe
  · subst hfound
    exact Sql.Serves.bind (serves_unionTagsAndFiles hu hfk hx tags linkedFiles)
      (fun _ => Sql.Serves.ok _ (fun _ hs => ⟨rfl, hs⟩))

omit [Sha256] in
/-- An insert of an identity that is stored is refused, and the recovery follows. -/
theorem serves_insertOrRecover (hs : db.SchemaOk) (hindex : db.entityIdUnique = true)
    (hx : x ∈ db.notes) {r : NoteRow} {e : String} (hxe : x.entityId = some e)
    (hre : r.entityId = some e) (hsucc : r.supersededBy = none) (tags linkedFiles : List String) :
    Sql.Serves (fun s => s = db)
      ((Sql.attempt (insertNote r)).andThen
        (fun result => recoverFromEntityIdCollision result e tags linkedFiles))
      (fun p s => p = (x.id, false) ∧
        s = db.updateRows (fun r => r.id = x.id) (unionRow tags linkedFiles)) := by
  have hrefused : ¬ (db.insertRow r).UniqueOk := fun hu =>
    ((uniqueOk_insertRow_iff hs hsucc).mp hu).entityId hindex e hre x hx hxe
  refine Sql.Survives.attempt (T := fun result s => result = .error .unique ∧ s = db)
    (fun s n s' hdb hrun => ?_) (fun s e' hdb hrun => ?_)
    (fun result => Sql.Survives.of_pre (fun hresult => ?_)) (fun c _ => ⟨⟨_, rfl⟩, trivial⟩)
  · subst hdb
    exact absurd (of_checked_eq_ok hrun).2.2.1 hrefused
  · subst hdb
    have hunique : checked s.nextId (s.insertRow r) = .error .unique := if_pos hrefused
    exact ⟨congrArg Except.error (Except.error.inj (hrun.symm.trans hunique)), rfl⟩
  · subst hresult
    exact serves_recover hs.unique hs.foreignKeys hindex hx hxe tags linkedFiles

/-- An add of content that is stored. -/
theorem serves_addNote_again (hs : db.SchemaOk) (hindex : db.entityIdUnique = true)
    (hx : x ∈ db.notes) {kind title body : String}
    (hxe : x.entityId = some (entityId kind title body)) (now : Int)
    (tags linkedFiles : List String) (sourceRef : Option String) (validAt : Option Int) :
    Sql.Serves (fun s => s = db) (addNote now kind title body tags linkedFiles sourceRef validAt)
      (fun p s => p = (x.id, false) ∧
        s = db.updateRows (fun r => r.id = x.id) (unionRow tags linkedFiles)) :=
  serves_insertOrRecover hs hindex hx hxe rfl rfl tags linkedFiles

omit [Sha256] in
/-- An edge between rows is recorded beside them. -/
theorem serves_insertEdge (hu : db.UniqueOk) (hfk : db.ForeignKeysOk) {e : MemoryEdge}
    (hfrom : e.fromId ∈ db.ids) (hto : e.toId ∈ db.ids) :
    Sql.Serves (fun s => s = db) (insertEdge e) (fun _ s => s.notes = db.notes) := by
  refine Sql.Serves.statement (fun s hs => ?_)
  subst hs
  split
  · exact ⟨_, _, rfl, rfl⟩
  · refine ⟨_, _, checked_eq_ok hu ⟨hfk.1, fun x hx => ?_⟩, rfl⟩
    rcases List.mem_append.mp hx with hx | hx
    · exact hfk.2 x hx
    · rw [List.mem_singleton.mp hx]
      exact ⟨hfrom, hto⟩

omit [Sha256] in
/-- An active note is archived under another one, which stays as it is. -/
theorem serves_supersedeActive (hu : db.UniqueOk) (hfk : db.ForeignKeysOk) (hx : x ∈ db.notes)
    {old : NoteRow} (hold : old ∈ db.notes) (hactive : old.status = "active") (hne : x.id ≠ old.id)
    (now : Int) (created : Bool) (refusal : SqlError) :
    Sql.Serves (fun s => s = db)
      ((updateNotes (fun r => r.id = old.id ∧ r.status = "active") (supersededRow now x.id)).andThen
        (fun changed => if changed = 0 then Sql.fail refusal
          else (insertEdge ⟨x.id, old.id, .supersedes, now⟩).andThen
            (fun _ => Sql.ok (x.id, created))))
      (fun p s => p = (x.id, created) ∧ s.ids = db.ids ∧ x ∈ s.notes) := by
  have hkeeps : KeepsIndexed (supersededRow now x.id) :=
    ⟨fun _ => rfl, fun _ => rfl, fun _ => rfl, fun _ => rfl⟩
  have hids := ids_updateRows db (fun r => r.id = old.id ∧ r.status = "active") hkeeps.id
  have hsucc : ∀ r ∈ db.notes, (decide (r.id = old.id ∧ r.status = "active") = true) →
      ∀ v ∈ (supersededRow now x.id r).supersededBy, v ∈ db.ids := by
    intro r _ _ v hv
    rw [supersededRow, Option.mem_some_iff] at hv
    exact hv ▸ List.mem_map_of_mem hx
  refine Sql.Serves.bind (serves_updateNotes hu hfk _ hkeeps hsucc)
    (fun changed => Sql.Serves.of_pre (fun hchanged => ?_))
  have hpos : changed ≠ 0 := by
    rw [hchanged, ← Nat.pos_iff_ne_zero, List.countP_pos_iff]
    exact ⟨old, hold, decide_eq_true ⟨rfl, hactive⟩⟩
  rw [if_neg hpos]
  refine Sql.Serves.bind (serves_insertEdge (hu.updateRows _ hkeeps)
    (hfk.updateRows _ hkeeps.id hsucc) (hids ▸ List.mem_map_of_mem hx)
    (hids ▸ List.mem_map_of_mem hold)) (fun _ => Sql.Serves.ok _ (fun s hs => ⟨rfl, ?_, ?_⟩))
  · rw [← hids, ids, hs, ids]
  · rw [hs]
    exact List.mem_map.mpr ⟨x, hx, if_neg (fun h => hne (of_decide_eq_true h).1)⟩

/-- An add of content that is stored, as the successor of an active note. -/
theorem serves_addNoteSuperseding_again (hs : db.SchemaOk) (hindex : db.entityIdUnique = true)
    (hx : x ∈ db.notes) {kind title body : String}
    (hxe : x.entityId = some (entityId kind title body)) (now : Int)
    (tags linkedFiles : List String) (validAt : Option Int) {old : NoteRow} (hold : old ∈ db.notes)
    (hactive : old.status = "active") :
    Sql.Serves (fun s => s = db)
      (addNoteSuperseding now kind title body tags linkedFiles validAt old.id)
      (fun p s => p = (x.id, false) ∧ s.ids = db.ids ∧ unionRow tags linkedFiles x ∈ s.notes) := by
  have hkeeps := keepsIndexed_unionRow tags linkedFiles
  have hids := ids_updateRows db (fun r => r.id = x.id) hkeeps.id
  have hmem : unionRow tags linkedFiles x ∈
      (db.updateRows (fun r => r.id = x.id) (unionRow tags linkedFiles)).notes :=
    List.mem_map.mpr ⟨x, hx, if_pos (decide_eq_true rfl)⟩
  refine Sql.Serves.transaction ?_
  simp only [Sql.bind_eq, Sql.pure_eq]
  rw [← Sql.andThen_assoc]
  refine Sql.Serves.bind (serves_insertOrRecover hs hindex hx hxe rfl rfl tags linkedFiles)
    (fun p => Sql.Serves.of_pre (fun hp => ?_))
  subst hp
  dsimp only
  split
  · refine Sql.Serves.ok _ (fun s hs => ?_)
    rw [hs]
    exact ⟨rfl, hids, hmem⟩
  case isFalse hne =>
    -- The old note is another row, so the union has left it alone.
    have hold' : old ∈ (db.updateRows (fun r => r.id = x.id) (unionRow tags linkedFiles)).notes :=
      List.mem_map.mpr ⟨old, hold, if_neg (fun h => hne (of_decide_eq_true h).symm)⟩
    rw [← hids]
    exact serves_supersedeActive (x := unionRow tags linkedFiles x) (hs.unique.updateRows _ hkeeps)
      (hs.foreignKeys.updateRows _ hkeeps.id (fun r hr _ v hv => hs.foreignKeys.1 r hr v hv)) hmem
      hold' hactive hne now false _

end AddAgain

/-- While nothing is deleted, every identity stays stored. -/
theorem linkClosed_backfilled : LinkClosed (fun db => db.Valid ∧ db.Backfilled) := by
  have hlink : ∀ {db : MemoryDb} {p f}, db.Valid ∧ db.Backfilled →
      (∀ r ∈ db.notes, p r → RowWrite r (f r)) → (db.updateRows p f).Backfilled := by
    intro db p f hdb hf
    -- What a row says is what it said, and a holder of an identity still holds it.
    have hrow : ∀ r ∈ db.notes, (if p r then f r else r).contentId = r.contentId ∧
        ∀ e, r.entityId = some e → (if p r then f r else r).entityId = some e := by
      intro r hr
      split
      · next hp =>
        have hw := hf r hr hp
        refine ⟨hw.content, fun e he => ?_⟩
        rcases hw.entityId with h | h
        · rw [h, he]
        · rw [h, hw.content, hdb.1.entity r hr e he]
      · exact ⟨rfl, fun _ he => he⟩
    intro n hn
    rcases List.mem_map.mp hn with ⟨r, hr, rfl⟩
    rcases hdb.2 r hr with ⟨x, hx, hxe⟩
    refine ⟨_, List.mem_map_of_mem hx, ?_⟩
    rw [(hrow r hr).1]
    exact (hrow x hx).2 _ hxe
  have hvalid := linkClosed_valid
  refine ⟨⟨fun hdb hf hu hfk => ⟨hvalid.update hdb.1 hf hu hfk, hlink hdb (fun r hr hp =>
    (hf r hr hp).1)⟩, ?_, fun edges embeddings hdb hfk => ⟨hvalid.beside edges embeddings hdb.1 hfk,
      hdb.2⟩, fun hdb hnodup => ⟨hvalid.promote hdb.1 hnodup, hdb.2⟩⟩,
    fun hdb hf hu hfk => ⟨hvalid.link hdb.1 hf hu hfk, hlink hdb hf⟩⟩
  intro db r hdb hr hu hfk
  refine ⟨hvalid.insert hdb.1 hr hu hfk, fun n hn => ?_⟩
  rcases List.mem_append.mp hn with hn | hn
  · rcases hdb.2 n hn with ⟨x, hx, hxe⟩
    exact ⟨x, List.mem_append_left _ hx, hxe⟩
  · refine ⟨n, List.mem_append_right _ hn, ?_⟩
    rw [List.mem_singleton.mp hn]
    exact hr.entityId

section Import

variable {I : MemoryDb → Prop}

omit [Sha256] in
/-- What a program keeps of the notes it keeps beside the marker. -/
theorem keeps_onMemory {α : Type} {m : Sql MemoryDb α} (h : Sql.Keeps I m) :
    Sql.Keeps (fun s : LocalStore => I s.memory) (onMemory m) :=
  fun c hc => h ⟨c.db.memory, c.failAfter⟩ hc

omit [Sha256] in
theorem keeps_setNotesImportedWorkingOid (oid : Option String) :
    Sql.Keeps (fun s : LocalStore => I s.memory) (setNotesImportedWorkingOid oid) :=
  Sql.Keeps.execute (fun _ _ hs hrun => Except.ok.inj hrun ▸ hs)

theorem keeps_openLocalStore (hI : WriteClosed I) (hu : ∀ db, I db → db.UniqueOk) :
    Sql.Keeps (fun s : LocalStore => I s.memory) openLocalStore :=
  Sql.Keeps.bind (Sql.Keeps.execute (fun _ _ hs hrun => Except.ok.inj hrun ▸ hs))
    (fun _ => keeps_onMemory (hI.keeps_openStore hu))

/-- An import only adds. -/
theorem keeps_importListed (hI : WriteClosed I) (hu : ∀ db, I db → db.UniqueOk)
    (notes : List CarrierNote) (workingOid : Option String) :
    Sql.Keeps (fun s : LocalStore => I s.memory) (importListed notes workingOid) := by
  unfold importListed
  split
  · refine Sql.Keeps.bind (Sql.Keeps.query _) (fun created => Sql.Keeps.bind (Sql.Keeps.whenever
      (Sql.Keeps.bind (Sql.Keeps.attempt (keeps_openLocalStore hI hu)) (fun opened => ?_)))
      (fun _ => Sql.Keeps.ok _))
    cases opened with
    | ok =>
        exact Sql.Keeps.bind (Sql.Keeps.attempt (keeps_setNotesImportedWorkingOid _))
          (fun _ => Sql.Keeps.ok _)
    | error => exact Sql.Keeps.ok _
  · refine Sql.Keeps.bind (keeps_openLocalStore hI hu) (fun _ => Sql.Keeps.bind (keeps_onMemory
      (Sql.Keeps.bind (Sql.Keeps.query _) (fun _ => Sql.Keeps.ok _))) (fun existing => ?_))
    dsimp only
    split
    · exact Sql.Keeps.bind (Sql.Keeps.attempt (keeps_setNotesImportedWorkingOid _))
        (fun _ => Sql.Keeps.ok _)
    · refine Sql.Keeps.transaction (Sql.Keeps.bind (keeps_onMemory (Sql.Keeps.forEach _
        (fun n _ => ?_))) (fun _ => Sql.Keeps.bind (keeps_setNotesImportedWorkingOid _)
          (fun _ => Sql.Keeps.ok _)))
      refine Sql.Keeps.bind (hI.keeps_addNoteWithCreatedAt _ _ _ _ _ _ ?_ _)
        (fun _ => Sql.Keeps.ok _)
      split
      · exact Or.inr rfl
      · exact Or.inl rfl

end Import

omit [Sha256] in
/-- What happens to a store beside a repository. -/
inductive StoreEvent where
  /-- A command, or a write of a sync. -/
  | sync (op : SyncOp)
  /-- An import of what git lists, the working ref having the given id after it. -/
  | importGitNotes (repo : NotesRepo) (workingOid : Option String)

/-- The event that deletes rows. -/
def StoreEvent.dedupe : StoreEvent :=
  .sync (.command (.dedupeEntityIds false))

section Events

variable [NoteJson]

def StoreEvent.run : StoreEvent → Sql LocalStore Unit
  | .sync op => onMemory op.run
  | .importGitNotes repo workingOid => do
      let _ ← importGitNotesIntoMemory repo workingOid
      pure ()

/-- One event, stopped by a fault at some statement or by none. -/
def eventStep (s : LocalStore) (event : StoreEvent) (s' : LocalStore) : Prop :=
  ∃ fault, s' = (event.run ⟨s, fault⟩).2.db

end Events

/-- An add of the given content ends at the row `x` and extends it. -/
structure AddsTo (db : MemoryDb) (x : NoteRow) (kind title body : String)
    (tags linkedFiles : List String) : Prop where
  add : ∀ now sourceRef validAt, Sql.Serves (fun s => s = db)
    (addNote now kind title body tags linkedFiles sourceRef validAt)
    (fun p s => p = (x.id, false) ∧
      s = db.updateRows (fun r => r.id = x.id) (unionRow tags linkedFiles))
  addSuperseding : ∀ now validAt, ∀ old ∈ db.notes, old.status = "active" →
    Sql.Serves (fun s => s = db)
      (memoryAddSuperseding now kind title body tags linkedFiles validAt old.id)
      (fun p s => p = (x.id, false) ∧ s.ids = db.ids ∧ unionRow tags linkedFiles x ∈ s.notes)

/-- What holds of the identities in every store that is reached. -/
structure IdentityLaw (db : MemoryDb) : Prop where
  /-- An open answers, and a row lacks its identity then only if another row stores it. -/
  opens : Sql.Serves (fun s => s = db) openStore (fun _ s => ∀ r ∈ s.notes, r.entityId = none →
    ∃ x ∈ s.notes, x.id ≠ r.id ∧ x.entityId = some r.contentId)
  /-- A stored identity is the one of its row. -/
  own : ∀ r ∈ db.notes, ∀ e, r.entityId = some e → e = r.contentId
  /-- Under the unique index no two rows store one identity, and an add of one
      that is stored ends there. -/
  one : db.entityIdUnique = true → (db.notes.filterMap (·.entityId)).Nodup
  added : db.entityIdUnique = true → ∀ x ∈ db.notes, ∀ kind title body,
    x.entityId = some (entityId kind title body) →
    ∀ tags linkedFiles, AddsTo db x kind title body tags linkedFiles
  /-- After a dedupe and an open every row stores an identity of its own. -/
  deduped : ∀ fault summary, (dedupeEntityIds false ⟨db, fault⟩).1 = .ok summary →
    Sql.Serves (fun s => s = (dedupeEntityIds false ⟨db, fault⟩).2.db) openStore
      (fun _ s => (∀ r ∈ s.notes, r.entityId ≠ none) ∧
        (s.notes.map (·.entityId)).Nodup ∧ s.entityIdUnique = true)

theorem addsTo_of_stored {db : MemoryDb} (hs : db.SchemaOk) (hindex : db.entityIdUnique = true)
    {x : NoteRow} (hx : x ∈ db.notes) {kind title body : String}
    (hxe : x.entityId = some (entityId kind title body)) (tags linkedFiles : List String) :
    AddsTo db x kind title body tags linkedFiles where
  add := fun now sourceRef validAt =>
    serves_addNote_again hs hindex hx hxe now tags linkedFiles sourceRef validAt
  addSuperseding := by
    intro now validAt old hold hactive
    refine Sql.Serves.bind (Q := fun found s => found = some old ∧ s = db)
      (Sql.Serves.query (fun s hdb => ⟨?_, hdb⟩)) (fun found => Sql.Serves.of_pre (fun hfound => ?_))
    · rw [hdb]
      exact find?_id hs.unique hold
    · subst hfound
      dsimp only
      rw [if_pos hactive]
      exact serves_addNoteSuperseding_again hs hindex hx hxe now tags linkedFiles validAt hold hactive

/-- Every store the schema and its writers produce keeps the law. -/
theorem identityLaw_of_valid {db : MemoryDb} (hv : db.Valid) : IdentityLaw db where
  opens := Sql.Survives.mono (survives_openStore hv) (fun _ hs => hs) (fun _ s hs r hr hnone => by
    rcases hs.twin hr hnone with ⟨x, hx, hne, _, hxe⟩
    exact ⟨x, hx, hne, hxe⟩) (fun _ _ => trivial)
  own := hv.entity
  one := hv.unique.2.2.2
  added := fun hindex x hx kind title body hxe tags linkedFiles =>
    addsTo_of_stored hv.toSchemaOk hindex hx hxe tags linkedFiles
  deduped := by
    intro fault summary hok
    have hspec := deduped_spec hv.toSchemaOk hv.status
    rw [(serves_dedupeEntityIds hv.unique hv.foreignKeys).post rfl hok]
    refine Sql.Survives.mono (survives_openStore (valid_deduped hv)) (fun _ hs => hs)
      (fun _ s hs => ?_) (fun _ _ => trivial)
    rcases hs.of_distinct hspec.one_each with ⟨hstored, hindex⟩
    refine ⟨fun r hr hnone => ?_, ?_, hindex⟩
    · rw [hstored r hr] at hnone
      exact absurd hnone (by simp)
    · have hcontents : (s.notes.map (·.contentId)).Nodup := by
        rw [hs.same.map_eq NoteRow.contentId (fun _ => rfl)]
        exact hspec.one_each
      rw [List.map_congr_left hstored]
      exact List.map_map (l := s.notes) ▸ hcontents.map (Option.some_injective _)

section Reached

variable [NoteJson]

/-- What every writer keeps, every event keeps. -/
theorem keeps_event {I : MemoryDb → Prop} (hI : LinkClosed I) (hu : ∀ db, I db → db.UniqueOk)
    (hfk : ∀ db, I db → db.ForeignKeysOk) (event : StoreEvent)
    (hdedupe : event = .dedupe → Sql.Keeps I (dedupeEntityIds false)) :
    Sql.Keeps (fun s : LocalStore => I s.memory) event.run := by
  cases event with
  | sync op => exact keeps_onMemory (keeps_syncOp hI hu hfk op (fun h => hdedupe (congrArg _ h)))
  | importGitNotes repo workingOid =>
      refine Sql.Keeps.bind (m := importGitNotesIntoMemory repo workingOid) ?_
        (fun _ => Sql.Keeps.ok ())
      unfold importGitNotesIntoMemory
      split
      · exact Sql.Keeps.fail _
      · exact keeps_importListed hI.toWriteClosed hu _ _

/-- One event keeps what the writers guarantee. -/
theorem valid_of_eventStep {s s' : LocalStore} {event : StoreEvent} (hv : s.memory.Valid)
    (h : eventStep s event s') : s'.memory.Valid := by
  rcases h with ⟨fault, rfl⟩
  exact keeps_event linkClosed_valid (fun _ hs => hs.unique) (fun _ hs => hs.foreignKeys) event
    (fun _ => keeps_dedupeEntityIds_valid) ⟨s, fault⟩ hv

/-- One event other than a dedupe keeps every identity stored. -/
theorem backfilled_of_eventStep {s s' : LocalStore} {event : StoreEvent}
    (hs : s.memory.Valid ∧ s.memory.Backfilled) (hevent : event ≠ .dedupe)
    (h : eventStep s event s') : s'.memory.Valid ∧ s'.memory.Backfilled := by
  rcases h with ⟨fault, rfl⟩
  exact keeps_event linkClosed_backfilled (fun _ hs => hs.1.unique) (fun _ hs => hs.1.foreignKeys)
    event (fun h => absurd h hevent) ⟨s, fault⟩ hs

/-- The law holds of every store that is reached, and from an open that answers
    to the next dedupe the identity of every row is stored. -/
theorem identityLaw_of_run (guard : LocalStore → StoreEvent → Prop) (start s : LocalStore)
    (hstart : start.memory.Valid) (h : GuardedRun eventStep guard start s) :
    IdentityLaw s.memory ∧
      ∀ fault, (openLocalStore ⟨s, fault⟩).1 = .ok () →
        ∀ t, GuardedRun eventStep (fun _ event => event ≠ .dedupe) (openLocalStore ⟨s, fault⟩).2.db t →
          IdentityLaw t.memory ∧ t.memory.Backfilled := by
  have hv : s.memory.Valid := h.invariant hstart (fun s event s' hs _ hstep =>
    valid_of_eventStep hs hstep)
  refine ⟨identityLaw_of_valid hv, fun fault hok t ht => ?_⟩
  have hopened := (survives_openLocalStore hv).post rfl hok
  have hback := ht.invariant (I := fun s : LocalStore => s.memory.Valid ∧ s.memory.Backfilled)
    ⟨hopened.1.valid, hopened.1.backfilled⟩
    (fun s event s' hs hevent hstep => backfilled_of_eventStep hs hevent hstep)
  exact ⟨identityLaw_of_valid hback.1, hback.2⟩

end Reached

section Runs

omit [Sha256]

/-- A store whose index is unique, with an older row that has no identity yet. -/
def olderTwin : LocalStore where
  created := true
  memory :=
    { notes :=
        [{ @newRow workedSha256 "decision" "HTTP layer" "use axum" 10 with
            id := 1, entityId := none },
          { @newRow workedSha256 "decision" "HTTP layer" "use axum" 20 with id := 2 }]
      edges := []
      embeddings := []
      nextId := 3
      entityIdUnique := true }
  marker := ⟨none, none⟩

theorem valid_olderTwin : @MemoryDb.Valid workedSha256 olderTwin.memory :=
  @MemoryDb.Valid.mk workedSha256 _ ⟨by decide, by decide, by decide⟩ (by unfold StatusOk; decide)
    (by decide)

theorem identityLaw_of_run_olderTwin :
    ∃ s, GuardedRun (@eventStep workedSha256 axumJson) (fun _ _ => True) olderTwin s ∧
      @IdentityLaw workedSha256 s.memory ∧
      @MemoryDb.Backfilled workedSha256 (@openLocalStore workedSha256 ⟨s, none⟩).2.db.memory := by
  let _ : Sha256 := workedSha256
  let _ : NoteJson := axumJson
  have hrun : GuardedRun eventStep (fun _ _ => True) olderTwin
      (StoreEvent.dedupe.run ⟨olderTwin, none⟩).2.db :=
    GuardedRun.refl.tail .dedupe trivial ⟨none, rfl⟩
  have hlaw := identityLaw_of_run _ olderTwin _ valid_olderTwin hrun
  exact ⟨_, hrun, hlaw.1, (hlaw.2 none (by decide) _ GuardedRun.refl).2⟩

/-- A dedupe keeps the older row, and until the next open an add of its content
    is a second row. -/
theorem addNote_twice_after_dedupe :
    ∃ s, GuardedRun (@eventStep workedSha256 axumJson) (fun _ _ => True) olderTwin s ∧
      s.memory.entityIdUnique = true ∧
      (∃ x ∈ s.memory.notes, @NoteRow.contentId workedSha256 x
        = @entityId workedSha256 "decision" "HTTP layer" "use axum") ∧
      (@addNote workedSha256 30 "decision" "HTTP layer" "use axum" [] [] none none
        ⟨s.memory, none⟩).1 = .ok (3, true) := by
  let _ : Sha256 := workedSha256
  let _ : NoteJson := axumJson
  refine ⟨(StoreEvent.dedupe.run ⟨((StoreEvent.sync (.command .openStore)).run
    ⟨olderTwin, none⟩).2.db, none⟩).2.db, ?_, by decide, by decide, by decide⟩
  exact (GuardedRun.refl.tail (.sync (.command .openStore)) trivial ⟨none, rfl⟩).tail
    .dedupe trivial ⟨none, rfl⟩

end Runs

end Spelunk
