import Spelunk.Core.PullSync
import Spelunk.Theory.SyncRuns

/-!
# Runs of a Pull

The loop is a fold over what lies above its cursor: pages, cursors and the requests that fail
are gone from it, up to where it ends. What the fold leaves behind is known from what one entry
does. A later pull starts from the greatest id the store has, which need not be one that a pull
put there.

## Main definitions

* `entriesAbove`, `appliedBefore`, `appliedEntries`: What a run applies.
* `Absorbed`: An entry that would change nothing.
* `AddedFrom`, `PageRun`: What a run leaves behind.
* `PullExact`: What is claimed of a pull.
* `NotOvershot`: The store has no id above an entry it lacks.

## Theorems

* `pullPages_eq`: The loop as a fold.
* `Applied.addedFrom`, `Applied.absorbed`, `Absorbed.unchanged`: One entry.
* `applyPage_run`, `applyPage_absorbed`: The entries of a run.
* `pullLaw`: When a pull is exact.
-/

namespace Spelunk

open Lib (Sql SqlError)

open Lib.Paging (pending)

open MemoryDb

variable [Sha256]

/-! ### The requests -/

/-- What lies above a cursor, in the order of the ids. -/
def entriesAbove (backlog : List RemoteEntry) (cursor : Option String) : List RemoteEntry :=
  pending RemoteEntry.id (cursor.getD nilCursor) backlog

/-- How many entries are applied before a request fails; `none` when none does. -/
def appliedBefore (backlog : List RemoteEntry) (cursor : Option String) (answered : Option ℕ) :
    Option ℕ :=
  answered.bind fun k =>
    if k * memorySincePullLimit ≤ (entriesAbove backlog cursor).length then
      some (k * memorySincePullLimit)
    else none

omit [Sha256] in
theorem andThen_ok {σ α : Type} (m : Sql σ α) : m.andThen Sql.ok = m := by
  funext c
  simp only [Sql.andThen]
  rcases h : m c with ⟨_ | a, c'⟩ <;> rfl

omit [Sha256] in
/-- The requests behind a full page. -/
theorem appliedBefore_next {backlog : List RemoteEntry} {cursor next : Option String}
    (hrest : entriesAbove backlog next = (entriesAbove backlog cursor).drop memorySincePullLimit)
    (hfull : memorySincePullLimit ≤ (entriesAbove backlog cursor).length) {answered : Option ℕ}
    (hzero : answered ≠ some 0) :
    appliedBefore backlog cursor answered =
      (appliedBefore backlog next (answered.map (· - 1))).map (memorySincePullLimit + ·) := by
  cases answered with
  | none => rfl
  | some k =>
    obtain ⟨k, rfl⟩ : ∃ j, k = j + 1 := ⟨k - 1, by
      have : k ≠ 0 := fun h => hzero (by rw [h])
      omega⟩
    rw [Option.map_some, Nat.add_sub_cancel, appliedBefore, appliedBefore, Option.bind_some,
      Option.bind_some, hrest, List.length_drop]
    have hiff : (k + 1) * memorySincePullLimit ≤ (entriesAbove backlog cursor).length ↔
        k * memorySincePullLimit ≤ (entriesAbove backlog cursor).length - memorySincePullLimit := by
      rw [Nat.succ_mul]
      omega
    by_cases hmore : (k + 1) * memorySincePullLimit ≤ (entriesAbove backlog cursor).length
    · rw [if_pos hmore, if_pos (hiff.1 hmore), Option.map_some, Nat.succ_mul, Nat.add_comm]
    · rw [if_neg hmore, if_neg (mt hiff.2 hmore), Option.map_none]

theorem applyPage_append (env : PullEnv) (l l' : List RemoteEntry) (applied : ℕ) :
    applyPage env (l ++ l') applied = (applyPage env l applied).andThen (applyPage env l') :=
  Sql.foldEach_append l l' applied _

omit [Sha256] in
/-- The server of this repository answers a request so. -/
theorem pullSince_notesSinceId (rfc3339 : Int → String) (projectId : ℕ) (db : ServerDb)
    (cursor : Option String) :
    (Server.notesSinceId projectId (cursor.getD nilCursor) memorySincePullLimit ⟨db, none⟩).1.map
        (·.map (Server.sinceIdEntry rfc3339)) =
      .ok (pullSince ((Server.shownOf projectId db).map (Server.sinceIdEntry rfc3339)) cursor) := by
  rw [pullSince, Lib.Paging.page_map]
  rfl

/-- The loop applies what lies above the cursor, each entry once and in the order of the ids, up
    to the request that fails. -/
theorem pullPages_eq {backlog : List RemoteEntry} (hids : (backlog.map RemoteEntry.id).Nodup)
    (env : PullEnv) (answered : Option ℕ) (cursor : Option String) (applied : ℕ) :
    pullPages env backlog answered cursor applied =
      match appliedBefore backlog cursor answered with
      | none => applyPage env (entriesAbove backlog cursor) applied
      | some n => (applyPage env ((entriesAbove backlog cursor).take n) applied).andThen
          fun _ => Sql.fail requestFailed := by
  induction hn : (entriesAbove backlog cursor).length using Nat.strongRecOn
    generalizing answered cursor applied with
  | ind n ih =>
    subst hn
    rw [pullPages]
    by_cases hzero : answered = some 0
    · subst hzero
      rw [if_pos rfl]
      have hbefore : appliedBefore backlog cursor (some 0) = some 0 := by
        rw [appliedBefore, Option.bind_some, Nat.zero_mul, if_pos (Nat.zero_le _)]
      rw [hbefore]
      rfl
    rw [if_neg hzero]
    dsimp only
    have hpage : pullSince backlog cursor =
        (entriesAbove backlog cursor).take memorySincePullLimit := rfl
    by_cases hshort : (pullSince backlog cursor).length < memorySincePullLimit
    · have hlength : (entriesAbove backlog cursor).length < memorySincePullLimit := by
        rw [hpage, List.length_take] at hshort
        omega
      have hnone : appliedBefore backlog cursor answered = none := by
        cases answered with
        | none => rfl
        | some k =>
          have hk : k ≠ 0 := fun h => hzero (by rw [h])
          rw [appliedBefore, Option.bind_some, if_neg]
          simp only [memorySincePullLimit] at hlength ⊢
          omega
      simp only [hshort, dite_true, hnone]
      rw [andThen_ok, hpage, List.take_of_length_le hlength.le]
    · have hne : pullSince backlog cursor ≠ [] := fun hnil => hshort (by rw [hnil]; decide)
      have hlast := List.getLast?_eq_some_getLast hne
      have hrest : entriesAbove backlog ((pullSince backlog cursor).getLast?.map RemoteEntry.id) =
          (entriesAbove backlog cursor).drop memorySincePullLimit := by
        rw [hlast, Option.map_some, entriesAbove, Option.getD_some]
        exact Lib.Paging.pending_getLast hids hlast
      have hfull : memorySincePullLimit ≤ (entriesAbove backlog cursor).length := by
        rw [hpage, List.length_take] at hshort
        omega
      simp only [hshort, dite_false]
      have hih : ∀ applied, pullPages env backlog (answered.map (· - 1))
          ((pullSince backlog cursor).getLast?.map RemoteEntry.id) applied = _ := fun applied =>
        ih _ (by rw [hrest, List.length_drop]; simp only [memorySincePullLimit] at hfull ⊢; omega)
          (answered.map (· - 1)) ((pullSince backlog cursor).getLast?.map RemoteEntry.id) applied
          rfl
      have hsplit : entriesAbove backlog cursor = pullSince backlog cursor ++
          (entriesAbove backlog cursor).drop memorySincePullLimit := by
        rw [hpage, List.take_append_drop]
      simp only [hih]
      rw [appliedBefore_next hrest hfull hzero]
      cases appliedBefore backlog ((pullSince backlog cursor).getLast?.map RemoteEntry.id)
          (answered.map (· - 1)) with
      | none =>
        simp only [Option.map_none]
        rw [hrest, ← applyPage_append, ← hsplit]
      | some m =>
        simp only [Option.map_some]
        rw [hrest, ← Sql.andThen_assoc, ← applyPage_append, List.take_add, ← hpage]

/-! ### One entry -/

/-- An entry as it is applied. -/
def PullEnv.note (env : PullEnv) (e : RemoteEntry) : PulledNote where
  remoteId := e.id
  kind := e.kind
  title := e.title
  body := e.body.getD ""
  sourceRef := e.sourceCommit
  createdAt := env.parseIsoToSecs e.createdAt
  archived := e.isArchived

/-- The identity of an entry. -/
def RemoteEntry.entityId (e : RemoteEntry) : String :=
  Spelunk.entityId e.kind e.title (e.body.getD "")

/-- Applying the entry again would change nothing. -/
def Absorbed (n : PulledNote) (s : MemoryDb) : Prop :=
  (∃ y ∈ s.notes, y.remoteId = some n.remoteId) ∨
    (s.entityIdUnique = true ∧ ∃ y ∈ s.notes, y.entityId = some n.entityId ∧
      y.remoteId.isSome = true ∧ unionRow [] [] y = y)

/-- What is new in a store that grew by entries: `uuid`, `remoteId` and `entityId` say which
    values of these columns come from the entries. -/
structure AddedFrom (uuid remoteId entityId : String → Prop) (db s : MemoryDb) : Prop where
  uuids : ∀ r ∈ s.notes, ∀ v ∈ r.uuid, uuid v ∨ ∃ x ∈ db.notes, x.uuid = some v
  remoteIds : ∀ r ∈ s.notes, ∀ v ∈ r.remoteId, remoteId v ∨ ∃ x ∈ db.notes, x.remoteId = some v
  entityIds : ∀ r ∈ s.notes, ∀ v ∈ r.entityId, entityId v ∨ ∃ x ∈ db.notes, x.entityId = some v
  kept : ∀ x ∈ db.notes, ∃ r ∈ s.notes, (∀ v ∈ x.remoteId, r.remoteId = some v) ∧
    r.entityId = x.entityId

section OneEntry

variable {db s : MemoryDb} {n : PulledNote} {uuid : String} {created : Bool}

omit [Sha256] in
theorem AddedFrom.refl (uuid remoteId entityId : String → Prop) (db : MemoryDb) :
    AddedFrom uuid remoteId entityId db db where
  uuids r hr _ hv := Or.inr ⟨r, hr, hv⟩
  remoteIds r hr _ hv := Or.inr ⟨r, hr, hv⟩
  entityIds r hr _ hv := Or.inr ⟨r, hr, hv⟩
  kept x hx := ⟨x, hx, fun _ hv => hv, rfl⟩

omit [Sha256] in
theorem AddedFrom.trans {u r e u' r' e' : String → Prop} {t : MemoryDb} (h : AddedFrom u r e db s)
    (h' : AddedFrom u' r' e' s t) :
    AddedFrom (fun v => u v ∨ u' v) (fun v => r v ∨ r' v) (fun v => e v ∨ e' v) db t where
  uuids x hx v hv := by
    rcases h'.uuids x hx v hv with hnew | ⟨y, hy, hyv⟩
    · exact Or.inl (Or.inr hnew)
    · exact (h.uuids y hy v hyv).imp_left Or.inl
  remoteIds x hx v hv := by
    rcases h'.remoteIds x hx v hv with hnew | ⟨y, hy, hyv⟩
    · exact Or.inl (Or.inr hnew)
    · exact (h.remoteIds y hy v hyv).imp_left Or.inl
  entityIds x hx v hv := by
    rcases h'.entityIds x hx v hv with hnew | ⟨y, hy, hyv⟩
    · exact Or.inl (Or.inr hnew)
    · exact (h.entityIds y hy v hyv).imp_left Or.inl
  kept x hx := by
    obtain ⟨y, hy, hyr, hye⟩ := h.kept x hx
    obtain ⟨z, hz, hzr, hze⟩ := h'.kept y hy
    exact ⟨z, hz, fun v hv => hzr v (hyr v hv), hze.trans hye⟩

omit [Sha256] in
theorem AddedFrom.mono {u r e u' r' e' : String → Prop} (h : AddedFrom u r e db s)
    (hu : ∀ v, u v → u' v) (hr : ∀ v, r v → r' v) (he : ∀ v, e v → e' v) :
    AddedFrom u' r' e' db s where
  uuids x hx v hv := (h.uuids x hx v hv).imp_left (hu v)
  remoteIds x hx v hv := (h.remoteIds x hx v hv).imp_left (hr v)
  entityIds x hx v hv := (h.entityIds x hx v hv).imp_left (he v)
  kept := h.kept

omit [Sha256] in
theorem adoptedRow_of_active (hactive : n.archived = false) (r : NoteRow) :
    adoptedRow n r = takeRemoteId n.remoteId (unionRow [] [] r) := by
  rw [adoptedRow, hactive]
  rfl

omit [Sha256] in
theorem unionRow_unionRow_nil (r : NoteRow) :
    unionRow [] [] (unionRow [] [] r) = unionRow [] [] r := by
  have hunion : ∀ col : Option String, unionCsv (unionCsv col []) [] = unionCsv col [] :=
    fun col => unionCsv_unionCsv col (fun _ hv => absurd hv List.not_mem_nil)
  apply NoteRow.ext
  case tags => exact hunion r.tags
  case linkedFiles => exact hunion r.linkedFiles
  all_goals rfl

/-- What an apply adds. -/
theorem Applied.addedFrom (h : Applied db uuid n created s) (hactive : n.archived = false) :
    AddedFrom (· = uuid) (· = n.remoteId) (· = n.entityId) db s ∧
      s.notes.length = db.notes.length + created.toNat ∧ s.entityIdUnique = db.entityIdUnique := by
  cases h with
  | known x hx hxr =>
    rw [hactive]
    exact ⟨AddedFrom.refl _ _ _ db, rfl, rfl⟩
  | adopted x hnone hx hxe hrefused =>
    refine ⟨⟨?_, ?_, ?_, ?_⟩, List.length_map _, rfl⟩
    · intro r hr v hv
      obtain ⟨y, hy, rfl⟩ := List.mem_map.1 hr
      refine Or.inr ⟨y, hy, ?_⟩
      split at hv
      · rwa [adoptedRow_of_active hactive] at hv
      · exact hv
    · intro r hr v hv
      obtain ⟨y, hy, rfl⟩ := List.mem_map.1 hr
      split at hv
      · rw [Option.mem_def, (adoptedRow_columns n y).2.1] at hv
        cases hyr : y.remoteId with
        | none =>
          rw [hyr, Option.none_or] at hv
          exact Or.inl (Option.some.inj hv).symm
        | some w =>
          rw [hyr, Option.some_or] at hv
          exact Or.inr ⟨y, hy, hyr.trans hv⟩
      · exact Or.inr ⟨y, hy, hv⟩
    · intro r hr v hv
      obtain ⟨y, hy, rfl⟩ := List.mem_map.1 hr
      refine Or.inr ⟨y, hy, ?_⟩
      split at hv
      · rwa [Option.mem_def, (adoptedRow_columns n y).2.2.1] at hv
      · exact hv
    · intro y hy
      refine ⟨_, List.mem_map_of_mem hy, ?_⟩
      split
      · refine ⟨fun v hv => ?_, (adoptedRow_columns n y).2.2.1⟩
        rw [(adoptedRow_columns n y).2.1, hv]
        rfl
      · exact ⟨fun v hv => hv, rfl⟩
  | inserted hnone hok =>
    have hmem : ∀ r ∈ (db.insertRow (n.row uuid)).notes, r ∈ db.notes ∨
        r = { n.row uuid with id := db.nextId } := fun r hr =>
      (List.mem_append.1 hr).imp_right List.mem_singleton.1
    refine ⟨⟨?_, ?_, ?_, ?_⟩, ?_, rfl⟩
    · intro r hr v hv
      rcases hmem r hr with hr | rfl
      · exact Or.inr ⟨r, hr, hv⟩
      · exact Or.inl (Option.some.inj hv).symm
    · intro r hr v hv
      rcases hmem r hr with hr | rfl
      · exact Or.inr ⟨r, hr, hv⟩
      · exact Or.inl (Option.some.inj hv).symm
    · intro r hr v hv
      rcases hmem r hr with hr | rfl
      · exact Or.inr ⟨r, hr, hv⟩
      · exact Or.inl (Option.some.inj hv).symm
    · exact fun x hx => ⟨x, List.mem_append_left _ hx, fun v hv => hv, rfl⟩
    · exact List.length_append

/-- An entry that was applied is absorbed. -/
theorem Applied.absorbed (h : Applied db uuid n created s) (hdb : db.SchemaOk)
    (hfresh : ∀ r ∈ db.notes, r.uuid ≠ some uuid) (hactive : n.archived = false) :
    Absorbed n s := by
  cases h with
  | known x hx hxr =>
    rw [hactive]
    exact Or.inl ⟨x, hx, hxr⟩
  | adopted x hnone hx hxe hrefused =>
    have hcols := adoptedRow_columns n x
    have hy : adoptedRow n x ∈ (db.updateRows (fun r => r.id = x.id) (adoptedRow n)).notes :=
      List.mem_map.2 ⟨x, hx, if_pos (decide_eq_true rfl)⟩
    cases hxr : x.remoteId with
    | none =>
      refine Or.inl ⟨_, hy, ?_⟩
      rw [hcols.2.1, hxr]
      rfl
    | some v =>
      have hrow : adoptedRow n x = unionRow [] [] x := by
        rw [adoptedRow_of_active hactive]
        exact takeRemoteId_eq_self (r := unionRow [] [] x) hxr n.remoteId
      refine Or.inr ⟨(holder_of_refused hdb hfresh hnone hrefused).1, _, hy,
        hcols.2.2.1.trans hxe, ?_, ?_⟩
      · rw [hcols.2.1, hxr]
        rfl
      · rw [hrow, unionRow_unionRow_nil]
  | inserted hnone hok =>
    exact Or.inl ⟨_, List.mem_append_right _ (List.mem_singleton.2 rfl), rfl⟩

/-- What is absorbed stays absorbed when another entry is applied. -/
theorem Absorbed.applied {m : PulledNote} (h : Absorbed m db)
    (happlied : Applied db uuid n created s) (hactive : n.archived = false) : Absorbed m s := by
  have hgrown := happlied.addedFrom hactive
  rcases h with ⟨y, hy, hyr⟩ | ⟨hindex, y, hy, hye, hyr, hyu⟩
  · obtain ⟨z, hz, hzr, -⟩ := hgrown.1.kept y hy
    exact Or.inl ⟨z, hz, hzr _ hyr⟩
  · refine Or.inr ⟨hgrown.2.2.trans hindex, ?_⟩
    obtain ⟨v, hv⟩ := Option.isSome_iff_exists.1 hyr
    cases happlied with
    | known x hx hxr =>
      rw [hactive]
      exact ⟨y, hy, hye, hyr, hyu⟩
    | adopted x =>
      refine ⟨y, List.mem_map.2 ⟨y, hy, ?_⟩, hye, hyr, hyu⟩
      -- Adoption gives the row nothing it has not.
      split
      · rw [adoptedRow_of_active hactive, hyu]
        exact takeRemoteId_eq_self hv n.remoteId
      · rfl
    | inserted => exact ⟨y, List.mem_append_left _ hy, hye, hyr, hyu⟩

/-- Applying an entry that is absorbed changes nothing. -/
theorem Absorbed.unchanged (h : Absorbed n db) (hdb : db.SchemaOk)
    (happlied : Applied db uuid n created s) (hactive : n.archived = false) :
    created = false ∧ s = db := by
  rcases h with ⟨y, hy, hyr⟩ | ⟨hindex, y, hy, hye, hyr, hyu⟩
  · cases happlied with
    | known x => exact ⟨rfl, by rw [hactive]; rfl⟩
    | adopted x hnone => exact absurd hyr (hnone y hy)
    | inserted hnone => exact absurd hyr (hnone y hy)
  · cases happlied with
    | known x => exact ⟨rfl, by rw [hactive]; rfl⟩
    | adopted x hnone hx hxe =>
      refine ⟨rfl, MemoryDb.updateRows_eq_self fun r hr hid => ?_⟩
      obtain ⟨v, hv⟩ := Option.isSome_iff_exists.1 hyr
      have hxy : x = y := Lib.eq_of_indexed (hdb.unique.2.2.2 hindex) hx hy hxe hye
      rw [MemoryDb.eq_of_id_eq hdb.unique hr hx (of_decide_eq_true hid), hxy,
        adoptedRow_of_active hactive, hyu]
      exact takeRemoteId_eq_self hv n.remoteId
    | inserted hnone hok =>
      have hadmits := (uniqueOk_insertRow_iff hdb rfl).1 hok
      exact absurd hye (hadmits.entityId hindex _ rfl y hy)

/-- An entry that no row is known by is stored by its content. -/
theorem Applied.exists_content (h : Applied db uuid n created s)
    (hnone : ∀ r ∈ db.notes, r.remoteId ≠ some n.remoteId) :
    ∃ r ∈ s.notes, r.entityId = some n.entityId := by
  cases h with
  | known x hx hxr => exact absurd hxr (hnone x hx)
  | adopted x _ hx hxe =>
    exact ⟨_, List.mem_map.2 ⟨x, hx, if_pos (decide_eq_true rfl)⟩,
      (adoptedRow_columns n x).2.2.1.trans hxe⟩
  | inserted => exact ⟨_, List.mem_append_right _ (List.mem_singleton.2 rfl), rfl⟩

end OneEntry

/-! ### The entries of a run -/

/-- The uuids minted for entries are new, and no two of them are alike. -/
structure Minted (env : PullEnv) (l : List RemoteEntry) (db : MemoryDb) : Prop where
  new : ∀ e ∈ l, ∀ r ∈ db.notes, r.uuid ≠ some (env.uuid e.id)
  distinct : ∀ e ∈ l, ∀ e' ∈ l, env.uuid e.id = env.uuid e'.id → e.id = e'.id

omit [Sha256] in
theorem Minted.subset {env : PullEnv} {l l' : List RemoteEntry} {db : MemoryDb}
    (h : Minted env l db) (hsub : l' ⊆ l) : Minted env l' db where
  new e he := h.new e (hsub he)
  distinct e he e' he' := h.distinct e (hsub he) e' (hsub he')

/-- The store `s` is `db` with `count` rows more, from the entries `l`. -/
structure PageRun (env : PullEnv) (l : List RemoteEntry) (db : MemoryDb) (count : ℕ)
    (s : MemoryDb) : Prop where
  valid : s.Valid
  rows : s.notes.length = db.notes.length + count
  grown : AddedFrom (fun v => ∃ e ∈ l, v = env.uuid e.id) (fun v => ∃ e ∈ l, v = e.id)
    (fun v => ∃ e ∈ l, v = e.entityId) db s
  absorbed : ∀ e ∈ l, Absorbed (env.note e) s
  stays : ∀ n, Absorbed n db → Absorbed n s
  content : ∀ e ∈ l, (∀ r ∈ db.notes, r.remoteId ≠ some e.id) →
    ∃ r ∈ s.notes, r.entityId = some e.entityId

section Pages

variable {env : PullEnv} {l : List RemoteEntry} {db : MemoryDb}

/-- One entry on a store without faults. -/
theorem applyEntry_run (hv : db.Valid) (e : RemoteEntry)
    (hfresh : ∀ r ∈ db.notes, r.uuid ≠ some (env.uuid e.id)) (applied : ℕ) :
    ∃ created s, applyEntry env applied e ⟨db, none⟩ = (.ok (applied + created.toNat), ⟨s, none⟩) ∧
      Applied db (env.uuid e.id) (env.note e) created s ∧ s.Valid := by
  obtain ⟨created, s, hrun⟩ := (applyLaw_of_valid hv hfresh (env.note e)).answers
  have happlied := (post_apply hv (env.note e) (env.uuid e.id) ⟨db, none⟩ rfl).1 created
    (by rw [hrun])
  have hvalid := valid_apply hv (env.note e) (env.uuid e.id) none
  rw [hrun] at happlied hvalid
  refine ⟨created, s, ?_, happlied, hvalid⟩
  have hentry : applyEntry env applied e = ((env.note e).apply (env.uuid e.id)).andThen
      fun inserted => Sql.ok (if inserted then applied + 1 else applied) := rfl
  rw [hentry, Sql.andThen, hrun]
  cases created <;> rfl

/-- The entries of a page on a store without faults. -/
theorem applyPage_run (hactive : ∀ e ∈ l, e.isArchived = false)
    (hids : (l.map RemoteEntry.id).Nodup) (hv : db.Valid) (hminted : Minted env l db)
    (applied : ℕ) :
    ∃ count s, applyPage env l applied ⟨db, none⟩ = (.ok (applied + count), ⟨s, none⟩) ∧
      PageRun env l db count s := by
  induction l generalizing db applied with
  | nil =>
    exact ⟨0, db, rfl, hv, rfl, AddedFrom.refl _ _ _ db, fun e he => absurd he List.not_mem_nil,
      fun n hn => hn, fun e he => absurd he List.not_mem_nil⟩
  | cons e l ih =>
    rw [List.map_cons, List.nodup_cons] at hids
    have hfresh := hminted.new e List.mem_cons_self
    have hhead : (env.note e).archived = false := hactive e List.mem_cons_self
    obtain ⟨created, s, hrun, happlied, hvalid⟩ := applyEntry_run hv e hfresh applied
    obtain ⟨hgrown, hrows, -⟩ := happlied.addedFrom hhead
    have hother : ∀ e' ∈ l, e'.id ≠ e.id := fun e' he' heq =>
      hids.1 (heq ▸ List.mem_map_of_mem he')
    have hminted' : Minted env l s := by
      refine ⟨fun e' he' r hr heq => ?_, fun a ha b hb => hminted.distinct a
        (List.mem_cons_of_mem e ha) b (List.mem_cons_of_mem e hb)⟩
      rcases hgrown.uuids r hr _ heq with hnew | ⟨x, hx, hxu⟩
      · exact hother e' he' (hminted.distinct e' (List.mem_cons_of_mem e he') e
          List.mem_cons_self hnew)
      · exact hminted.new e' (List.mem_cons_of_mem e he') x hx hxu
    obtain ⟨count, t, hrest, hpage⟩ := ih (fun e' he' => hactive e' (List.mem_cons_of_mem e he'))
      hids.2 hvalid hminted' (applied + created.toNat)
    refine ⟨created.toNat + count, t, ?_, hpage.valid, ?_, ?_, ?_, ?_, ?_⟩
    · have hfold : applyPage env (e :: l) applied =
          (applyEntry env applied e).andThen (applyPage env l) := rfl
      rw [hfold, Sql.andThen, hrun]
      exact hrest.trans (by rw [Nat.add_assoc])
    · rw [hpage.rows, hrows, Nat.add_assoc]
    · refine (hgrown.trans hpage.grown).mono ?_ ?_ ?_
      all_goals
        rintro v (rfl | ⟨e', he', rfl⟩)
        · exact ⟨e, List.mem_cons_self, rfl⟩
        · exact ⟨e', List.mem_cons_of_mem e he', rfl⟩
    · intro e' he'
      rcases List.mem_cons.1 he' with rfl | he'
      · exact hpage.stays _ (happlied.absorbed hv.toSchemaOk hfresh hhead)
      · exact hpage.absorbed e' he'
    · exact fun n hn => hpage.stays n (hn.applied happlied hhead)
    · intro e' he' hnone
      rcases List.mem_cons.1 he' with rfl | he'
      · obtain ⟨r, hr, hre⟩ := happlied.exists_content hnone
        obtain ⟨r', hr', -, hre'⟩ := hpage.grown.kept r hr
        exact ⟨r', hr', hre'.trans hre⟩
      · refine hpage.content e' he' fun r hr heq => ?_
        rcases hgrown.remoteIds r hr _ heq with hnew | ⟨x, hx, hxr⟩
        · exact hother e' he' hnew
        · exact hnone x hx hxr

/-- Entries that are absorbed leave the store as it is. -/
theorem applyPage_absorbed (hactive : ∀ e ∈ l, e.isArchived = false) (hv : db.Valid)
    (hminted : Minted env l db) (habsorbed : ∀ e ∈ l, Absorbed (env.note e) db) (applied : ℕ) :
    applyPage env l applied ⟨db, none⟩ = (.ok applied, ⟨db, none⟩) := by
  induction l with
  | nil => rfl
  | cons e l ih =>
    have hhead : (env.note e).archived = false := hactive e List.mem_cons_self
    obtain ⟨created, s, hrun, happlied, -⟩ :=
      applyEntry_run hv e (hminted.new e List.mem_cons_self) applied
    obtain ⟨rfl, rfl⟩ := (habsorbed e List.mem_cons_self).unchanged hv.toSchemaOk happlied hhead
    have hfold : applyPage env (e :: l) applied =
        (applyEntry env applied e).andThen (applyPage env l) := rfl
    rw [hfold, Sql.andThen, hrun]
    exact ih (fun e' he' => hactive e' (List.mem_cons_of_mem e he'))
      (hminted.subset (List.subset_cons_self e l))
      (fun e' he' => habsorbed e' (List.mem_cons_of_mem e he'))

end Pages

/-! ### The loop -/

/-- A row of the store stands for the entry. -/
def Held (e : RemoteEntry) (s : MemoryDb) : Prop :=
  ∃ r ∈ s.notes, r.remoteId = some e.id ∨ r.entityId = some e.entityId

instance (e : RemoteEntry) (s : MemoryDb) : Decidable (Held e s) := by
  unfold Held
  infer_instance

/-- The entries a run applies. -/
def appliedEntries (backlog : List RemoteEntry) (cursor : Option String) (answered : Option ℕ) :
    List RemoteEntry :=
  match appliedBefore backlog cursor answered with
  | none => entriesAbove backlog cursor
  | some n => (entriesAbove backlog cursor).take n

/-- A pull is exact: it applies what lies above the cursor, each entry once and in the order of
    the ids, up to the request that fails; it ends, and counts the rows it adds; after a failure
    a pull from the store's own cursor completes the set; after a success another pull changes
    nothing. -/
structure PullExact (backlog : List RemoteEntry) (cursor : Option String) (db : MemoryDb) :
    Prop where
  ordered : (entriesAbove backlog cursor).Pairwise (fun e e' => e.id < e'.id)
  covered : ∀ e, e ∈ entriesAbove backlog cursor ↔ e ∈ backlog ∧ cursor.getD nilCursor < e.id
  once : ∀ env answered, pullAndApplySince env backlog answered cursor =
    (applyPage env (appliedEntries backlog cursor answered) 0).andThen fun applied =>
      if (appliedBefore backlog cursor answered).isNone then Sql.ok applied
      else Sql.fail requestFailed
  ends : ∀ env answered, Minted env backlog db → ∃ count s,
    pullAndApplySince env backlog answered cursor ⟨db, none⟩ =
      (if (appliedBefore backlog cursor answered).isNone then .ok count else .error requestFailed,
        ⟨s, none⟩) ∧
      PageRun env (appliedEntries backlog cursor answered) db count s
  completes : ∀ env answered s, Minted env backlog db →
    pullAndApplySince env backlog answered cursor ⟨db, none⟩ =
      (.error requestFailed, ⟨s, none⟩) → ∀ env', Minted env' backlog s → ∃ count t,
        pullAndApply env' backlog none ⟨s, none⟩ = (.ok count, ⟨t, none⟩) ∧
        ∀ e ∈ entriesAbove backlog cursor, Held e t
  again : ∀ env count s, Minted env backlog db →
    pullAndApplySince env backlog none cursor ⟨db, none⟩ = (.ok count, ⟨s, none⟩) →
      ∀ env' cursor', cursor.getD nilCursor ≤ cursor'.getD nilCursor → Minted env' backlog s →
        pullAndApplySince env' backlog none cursor' ⟨s, none⟩ = (.ok 0, ⟨s, none⟩)

/-- The store has no id above an entry it lacks: what lies above the cursor, and not above the
    greatest id of the store, is there, or comes again under an id above. -/
def NotOvershot (backlog : List RemoteEntry) (cursor : Option String) (db : MemoryDb) : Prop :=
  ∀ m ∈ db.maxRemoteId, ∀ e ∈ entriesAbove backlog cursor, e.id ≤ m →
    Held e db ∨ ∃ e' ∈ backlog, m < e'.id ∧ e'.entityId = e.entityId

section Law

variable {backlog : List RemoteEntry} {cursor : Option String} {db s : MemoryDb}
  {env : PullEnv} {l : List RemoteEntry} {count : ℕ}

omit [Sha256] in
theorem mem_entriesAbove {e : RemoteEntry} :
    e ∈ entriesAbove backlog cursor ↔ e ∈ backlog ∧ cursor.getD nilCursor < e.id :=
  Lib.Paging.mem_pending

omit [Sha256] in
theorem nodup_entriesAbove (hids : (backlog.map RemoteEntry.id).Nodup) :
    ((entriesAbove backlog cursor).map RemoteEntry.id).Nodup :=
  ((List.perm_insertionSort _ _).map _).nodup_iff.2 (hids.sublist (List.filter_sublist.map _))

omit [Sha256] in
theorem entriesAbove_ordered (hids : (backlog.map RemoteEntry.id).Nodup) :
    (entriesAbove backlog cursor).Pairwise (fun e e' => e.id < e'.id) :=
  (Lib.Paging.pending_sorted.and (List.pairwise_map.1 (nodup_entriesAbove hids))).imp
    fun h => lt_of_le_of_ne h.1 h.2

omit [Sha256] in
theorem appliedEntries_subset (answered : Option ℕ) :
    appliedEntries backlog cursor answered ⊆ entriesAbove backlog cursor := by
  unfold appliedEntries
  cases appliedBefore backlog cursor answered with
  | none => exact List.Subset.refl _
  | some n => exact List.take_subset n _

omit [Sha256] in
theorem maxRemoteId_eq_some_iff {m : String} : db.maxRemoteId = some m ↔
    (∃ r ∈ db.notes, r.remoteId = some m) ∧ ∀ r ∈ db.notes, ∀ v ∈ r.remoteId, v ≤ m := by
  rw [MemoryDb.maxRemoteId, List.max?_eq_some_iff, List.mem_filterMap]
  constructor
  · rintro ⟨hm, hmax⟩
    exact ⟨hm, fun r hr v hv => hmax v (List.mem_filterMap.2 ⟨r, hr, hv⟩)⟩
  · rintro ⟨hm, hmax⟩
    refine ⟨hm, fun v hv => ?_⟩
    obtain ⟨r, hr, hrv⟩ := List.mem_filterMap.1 hv
    exact hmax r hr v hrv

theorem Absorbed.held {e : RemoteEntry} (h : Absorbed (env.note e) s) : Held e s := by
  rcases h with ⟨y, hy, hyr⟩ | ⟨-, y, hy, hye, -⟩
  · exact ⟨y, hy, Or.inl hyr⟩
  · exact ⟨y, hy, Or.inr hye⟩

theorem PageRun.held (h : PageRun env l db count s) {e : RemoteEntry} (he : Held e db) :
    Held e s := by
  obtain ⟨r, hr, hre⟩ := he
  obtain ⟨r', hr', hrid, hrent⟩ := h.grown.kept r hr
  exact ⟨r', hr', hre.imp (hrid _) fun heq => hrent.trans heq⟩

/-- A run as one over the entries it applies. -/
theorem pullAndApplySince_eq (hids : (backlog.map RemoteEntry.id).Nodup) (env : PullEnv)
    (answered : Option ℕ) (cursor : Option String) :
    pullAndApplySince env backlog answered cursor =
      (applyPage env (appliedEntries backlog cursor answered) 0).andThen fun applied =>
        if (appliedBefore backlog cursor answered).isNone then Sql.ok applied
        else Sql.fail requestFailed := by
  rw [pullAndApplySince, pullPages_eq hids, appliedEntries]
  cases appliedBefore backlog cursor answered with
  | none => exact (andThen_ok _).symm
  | some n => rfl

/-- A run ends. -/
theorem pullAndApplySince_run (hids : (backlog.map RemoteEntry.id).Nodup)
    (hactive : ∀ e ∈ backlog, e.isArchived = false) (hv : db.Valid)
    (hminted : Minted env backlog db)
    (answered : Option ℕ) (cursor : Option String) :
    ∃ count s, pullAndApplySince env backlog answered cursor ⟨db, none⟩ =
        (if (appliedBefore backlog cursor answered).isNone then .ok count
          else .error requestFailed, ⟨s, none⟩) ∧
      PageRun env (appliedEntries backlog cursor answered) db count s := by
  have hsub : appliedEntries backlog cursor answered ⊆ backlog := fun e he =>
    (mem_entriesAbove.1 (appliedEntries_subset answered he)).1
  have hnodup : ((appliedEntries backlog cursor answered).map RemoteEntry.id).Nodup := by
    unfold appliedEntries
    cases appliedBefore backlog cursor answered with
    | none => exact nodup_entriesAbove hids
    | some n => exact (nodup_entriesAbove hids).sublist ((List.take_sublist n _).map _)
  obtain ⟨count, s, hrun, hpage⟩ := applyPage_run (fun e he => hactive e (hsub he)) hnodup hv
    (hminted.subset hsub) 0
  refine ⟨count, s, ?_, hpage⟩
  rw [pullAndApplySince_eq hids, Sql.andThen, hrun, Nat.zero_add]
  cases appliedBefore backlog cursor answered <;> rfl

/-- A pull from the store's own cursor. -/
theorem pullAndApply_run (hids : (backlog.map RemoteEntry.id).Nodup)
    (hactive : ∀ e ∈ backlog, e.isArchived = false) (hv : db.Valid)
    (hminted : Minted env backlog db) :
    ∃ count s, pullAndApply env backlog none ⟨db, none⟩ = (.ok count, ⟨s, none⟩) ∧
      PageRun env (entriesAbove backlog db.maxRemoteId) db count s :=
  pullAndApplySince_run hids hactive hv hminted none db.maxRemoteId

/-- Behind the pages that were applied the store's own cursor is that of before, or not above
    what is left. -/
theorem completes_of_notOvershot (hids : (backlog.map RemoteEntry.id).Nodup)
    (hactive : ∀ e ∈ backlog, e.isArchived = false) (hnil : ∀ e ∈ backlog, nilCursor < e.id)
    (h : NotOvershot backlog cursor db) {n : ℕ}
    (hpage : PageRun env ((entriesAbove backlog cursor).take n) db count s) {env' : PullEnv}
    (hminted : Minted env' backlog s) :
    ∃ count t, pullAndApply env' backlog none ⟨s, none⟩ = (.ok count, ⟨t, none⟩) ∧
      ∀ e ∈ entriesAbove backlog cursor, Held e t := by
  obtain ⟨count', t, hrun, hrest⟩ := pullAndApply_run hids hactive hpage.valid hminted
  refine ⟨count', t, hrun, fun e he => ?_⟩
  by_cases htake : e ∈ (entriesAbove backlog cursor).take n
  · exact hrest.held (hpage.absorbed e htake).held
  by_cases habove : s.maxRemoteId.getD nilCursor < e.id
  · exact (hrest.absorbed e (mem_entriesAbove.2 ⟨(mem_entriesAbove.1 he).1, habove⟩)).held
  -- The entry is passed over, so the cursor is an id of the old store.
  obtain ⟨m, hm⟩ : ∃ m, s.maxRemoteId = some m := by
    cases hmax : s.maxRemoteId with
    | none => exact absurd (hnil e (mem_entriesAbove.1 he).1) (by rwa [hmax] at habove)
    | some m => exact ⟨m, rfl⟩
  rw [hm, Option.getD_some, not_lt] at habove
  obtain ⟨⟨r, hr, hrm⟩, hmax⟩ := maxRemoteId_eq_some_iff.1 hm
  have hold : db.maxRemoteId = some m := by
    refine maxRemoteId_eq_some_iff.2 ⟨?_, fun x hx v hv => ?_⟩
    · refine (hpage.grown.remoteIds r hr m hrm).resolve_left ?_
      rintro ⟨a, ha, rfl⟩
      have hdrop : e ∈ (entriesAbove backlog cursor).drop n := by
        rw [← List.take_append_drop n (entriesAbove backlog cursor), List.mem_append] at he
        exact he.resolve_left htake
      have hordered : (entriesAbove backlog cursor).Pairwise (fun e e' => e.id < e'.id) :=
        entriesAbove_ordered hids
      rw [← List.take_append_drop n (entriesAbove backlog cursor), List.pairwise_append]
        at hordered
      exact absurd (hordered.2.2 a ha e hdrop) (not_lt.2 habove)
    · obtain ⟨y, hy, hyr, -⟩ := hpage.grown.kept x hx
      exact hmax y hy v (hyr v hv)
  rcases h m hold e he habove with hheld | ⟨e', he', hlt, hcontent⟩
  · exact hrest.held (hpage.held hheld)
  · obtain ⟨y, hy, hye⟩ := hrest.content e' (mem_entriesAbove.2 ⟨he', by rwa [hm]⟩)
      fun x hx heq => absurd (hmax x hx _ heq) (not_le.2 hlt)
    exact ⟨y, hy, Or.inr (hye.trans (by rw [hcontent]))⟩

omit [Sha256] in
/-- There are enough texts for uuids. -/
theorem exists_minted (backlog : List RemoteEntry) (db : MemoryDb) :
    ∃ env, Minted env backlog db := by
  obtain ⟨k, hk⟩ : ∃ k, ∀ r ∈ db.notes, ∀ v ∈ r.uuid, v.toList.length < k := by
    induction db.notes with
    | nil => exact ⟨0, fun r hr => absurd hr List.not_mem_nil⟩
    | cons r l ih =>
      obtain ⟨k, hk⟩ := ih
      refine ⟨max k ((r.uuid.getD "").toList.length + 1), fun x hx v hv => ?_⟩
      rcases List.mem_cons.1 hx with rfl | hx
      · rw [Option.mem_def.1 hv, Option.getD_some]
        omega
      · exact (hk x hx v hv).trans_le (le_max_left _ _)
  refine ⟨⟨fun id => String.ofList (List.replicate k 'u' ++ id.toList), fun _ => 0⟩, ?_, ?_⟩
  · intro e _ r hr heq
    have hlength := hk r hr _ heq
    rw [String.toList_ofList, List.length_append, List.length_replicate] at hlength
    omega
  · intro e _ e' _ heq
    exact String.toList_injective (List.append_cancel_left (String.ofList_injective heq))

theorem notOvershot_of_completes (hids : (backlog.map RemoteEntry.id).Nodup)
    (hactive : ∀ e ∈ backlog, e.isArchived = false) (hv : db.Valid)
    (h : PullExact backlog cursor db) : NotOvershot backlog cursor db := by
  intro m hm e he hle
  obtain ⟨env, hminted⟩ := exists_minted backlog db
  have hfailed : pullAndApplySince env backlog (some 0) cursor ⟨db, none⟩ =
      (.error requestFailed, ⟨db, none⟩) := by
    rw [pullAndApplySince, pullPages, if_pos rfl]
    rfl
  obtain ⟨count, t, hrun, hheld⟩ := h.completes env (some 0) db hminted hfailed env hminted
  obtain ⟨count', t', hrun', hpage⟩ := pullAndApply_run hids hactive hv hminted
  rw [hrun, Prod.mk.injEq] at hrun'
  obtain rfl : t = t' := congrArg Lib.Conn.db hrun'.2
  obtain ⟨r, hr, hrid | hrent⟩ := hheld e he
  · rcases hpage.grown.remoteIds r hr _ hrid with ⟨a, ha, heq⟩ | ⟨x, hx, hxr⟩
    · have hlt := (mem_entriesAbove.1 ha).2
      rw [Option.mem_def.1 hm, Option.getD_some, ← heq] at hlt
      exact absurd hlt (not_lt.2 hle)
    · exact Or.inl ⟨x, hx, Or.inl hxr⟩
  · rcases hpage.grown.entityIds r hr _ hrent with ⟨a, ha, heq⟩ | ⟨x, hx, hxe⟩
    · have hlt := (mem_entriesAbove.1 ha).2
      rw [Option.mem_def.1 hm, Option.getD_some] at hlt
      exact Or.inr ⟨a, (mem_entriesAbove.1 ha).1, hlt, heq.symm⟩
    · exact Or.inl ⟨x, hx, Or.inr hxe⟩

end Law

/-- A pull is exact when the store has no id above an entry it lacks. -/
theorem pullLaw (backlog : List RemoteEntry) (cursor : Option String) (db : MemoryDb)
    (hids : (backlog.map RemoteEntry.id).Nodup) (hnil : ∀ e ∈ backlog, nilCursor < e.id)
    (hactive : ∀ e ∈ backlog, e.isArchived = false) (hv : db.Valid) :
    PullExact backlog cursor db ↔ NotOvershot backlog cursor db := by
  refine ⟨notOvershot_of_completes hids hactive hv, fun h => ⟨entriesAbove_ordered hids,
    fun e => mem_entriesAbove, fun env answered => pullAndApplySince_eq hids env answered cursor,
    fun env answered hminted => pullAndApplySince_run hids hactive hv hminted answered cursor,
    fun env answered s hminted hrun env' hminted' => ?_,
    fun env count s hminted hrun env' cursor' hle hminted' => ?_⟩⟩
  · obtain ⟨count, s', hrun', hpage⟩ :=
      pullAndApplySince_run hids hactive hv hminted answered cursor
    rw [hrun, Prod.mk.injEq] at hrun'
    obtain rfl : s = s' := congrArg Lib.Conn.db hrun'.2
    cases hbefore : appliedBefore backlog cursor answered with
    | none =>
      rw [hbefore] at hrun'
      cases hrun'.1
    | some n =>
      rw [appliedEntries, hbefore] at hpage
      exact completes_of_notOvershot hids hactive hnil h hpage hminted'
  · obtain ⟨count', s', hrun', hpage⟩ := pullAndApplySince_run hids hactive hv hminted none cursor
    rw [hrun, Prod.mk.injEq] at hrun'
    obtain rfl : s = s' := congrArg Lib.Conn.db hrun'.2
    have hsub : ∀ e ∈ entriesAbove backlog cursor', e ∈ entriesAbove backlog cursor := fun e he =>
      mem_entriesAbove.2 ⟨(mem_entriesAbove.1 he).1, hle.trans_lt (mem_entriesAbove.1 he).2⟩
    have hmem : entriesAbove backlog cursor' ⊆ backlog := fun e he => (mem_entriesAbove.1 he).1
    rw [pullAndApplySince_eq hids, Sql.andThen]
    have hnothing := applyPage_absorbed (fun e he => hactive e (hmem he)) hpage.valid
      (hminted'.subset hmem) (fun e he => hpage.absorbed e (hsub e he)) 0
    rw [show appliedEntries backlog cursor' none = entriesAbove backlog cursor' from rfl, hnothing]
    rfl

section Runs

omit [Sha256]

/-- An entry that a teammate pushed. -/
def teammateEntry : RemoteEntry where
  id := "01990000-0000-7000-8000-000000000002"
  kind := "decision"
  title := "theirs"
  body := none
  sourceCommit := none
  archivedAt := none
  createdAt := "2026-01-01T00:00:00Z"

/-- A row that was synced before the round, under `01990000-0000-7000-8000-000000000001`. -/
def syncedBefore : MemoryDb where
  notes := [{ @newRow workedSha256 "decision" "first" "" 10 with
    id := 1, remoteId := some "01990000-0000-7000-8000-000000000001" }]
  edges := []
  embeddings := []
  nextId := 2
  entityIdUnique := true

/-- The same with a row that the round has pushed. -/
def pushedSince : MemoryDb :=
  { syncedBefore with
    notes := syncedBefore.notes ++ [{ @newRow workedSha256 "decision" "ours" "" 20 with
      id := 2, remoteId := some "01990000-0000-7000-8000-000000000003" }]
    nextId := 3 }

def roundEnv : PullEnv := ⟨fun id => id, fun _ => 0⟩

theorem pullLaw_syncedBefore : @PullExact workedSha256 [teammateEntry]
    (some "01990000-0000-7000-8000-000000000001") syncedBefore := by
  let _ : Sha256 := workedSha256
  refine (pullLaw _ _ _ (by decide) (by decide) (by decide)
    (@MemoryDb.Valid.mk workedSha256 _ ⟨by decide, by decide, by decide⟩
      (by unfold MemoryDb.StatusOk; decide) (by decide))).2 fun m hm e he hle => ?_
  have hmax : m = "01990000-0000-7000-8000-000000000001" :=
    (Option.some.inj ((show syncedBefore.maxRemoteId = _ from by decide).symm.trans hm)).symm
  have hlt := (mem_entriesAbove.1 he).2
  rw [Option.getD_some, ← hmax] at hlt
  exact absurd hlt (not_lt.2 hle)

/-- The request of the second pull of a round fails. A pull from the store's own cursor asks
    above the row that was pushed, and the teammate's entry is not pulled. -/
theorem pull_skipsEntry : ∃ t : MemoryDb,
    @pullAndApplySince workedSha256 roundEnv [teammateEntry] (some 0)
      (some "01990000-0000-7000-8000-000000000001") ⟨pushedSince, none⟩ =
        (.error requestFailed, ⟨pushedSince, none⟩) ∧
    @pullAndApply workedSha256 roundEnv [teammateEntry] none ⟨pushedSince, none⟩ =
      (.ok 0, ⟨t, none⟩) ∧ ¬ @Held workedSha256 teammateEntry t := by
  let _ : Sha256 := workedSha256
  refine ⟨pushedSince, ?_, ?_, by decide⟩
  · rw [pullAndApplySince, pullPages, if_pos rfl]
    rfl
  · have hnone : entriesAbove [teammateEntry] pushedSince.maxRemoteId = [] := by decide
    have hrun : pullAndApply roundEnv [teammateEntry] none ⟨pushedSince, none⟩ =
        pullAndApplySince roundEnv [teammateEntry] none pushedSince.maxRemoteId
          ⟨pushedSince, none⟩ := rfl
    rw [hrun, pullAndApplySince_eq (by decide), appliedEntries]
    simp only [appliedBefore, Option.bind_none, hnone]
    rfl

end Runs

end Spelunk
