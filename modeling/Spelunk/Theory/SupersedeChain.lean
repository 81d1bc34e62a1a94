import Spelunk.Core.SyncStore
import Spelunk.Lib.Acyclic
import Spelunk.Theory.DedupeCorrect

/-!
# The Supersede Relation

The relation `superseded_by` of a store, and what each writer can add to it.
Every operation keeps a store settled, whatever statement fails: each row
stores its identity, no two rows share one, and a row that has a successor is
archived. All but three operations add nothing to the relation.

## Main definitions

* `MemoryDb.Leads`: One row is superseded by another.
* `MemoryDb.Settled`: What every operation keeps.
* `ChainIn`: A settled store whose relation lies in another relation.

## Theorems

* `ChainIn.updateRows`: Updates that add only allowed links.
* `keeps_addNote`, `keeps_archive`, `keeps_applyRemoteNote`, `keeps_openStore`,
  `keeps_dedupeEntityIds`: The operations that add no link.
* `post_memorySupersede`, `post_memoryAddSuperseding`: The operations that add one.
-/

namespace Spelunk

open Lib (Sql SqlError)

open MemoryDb

variable [Sha256]

omit [Sha256] in
/-- Row `a` is superseded by row `b`. -/
def MemoryDb.Leads (db : MemoryDb) (a b : Nat) : Prop :=
  ∃ n ∈ db.notes, n.id = a ∧ n.supersededBy = some b

/-- What every operation keeps of a store, once the index on the identities is
    unique. -/
structure MemoryDb.Settled (db : MemoryDb) : Prop extends db.Valid where
  unique_index : db.entityIdUnique = true
  stored : ∀ n ∈ db.notes, n.entityId = some n.contentId
  /-- A row that has a successor is archived. -/
  archived : ∀ n ∈ db.notes, n.supersededBy ≠ none → n.status = "archived"

/-- A settled store whose supersede relation lies in `R`. -/
def ChainIn (R : Nat → Nat → Prop) (db : MemoryDb) : Prop :=
  db.Settled ∧ ∀ a b, db.Leads a b → R a b

/-- What an update may do to a row: the identity stays stored, an archived row
    stays archived, and a new link is one `R` allows out of an archived row. -/
structure LawfulUpdate (R : Nat → Nat → Prop) (r r' : NoteRow) : Prop where
  id : r'.id = r.id
  content : r'.contentId = r.contentId
  stored : r'.entityId = some r'.contentId
  status : r'.status = r.status ∨ r'.status = "archived"
  link : r'.supersededBy = none ∨ r'.supersededBy = r.supersededBy ∨
    (r'.status = "archived" ∧ ∀ v ∈ r'.supersededBy, R r.id v)

section Statements

variable {R : Nat → Nat → Prop} {db : MemoryDb}

theorem settled_emptyStore : emptyStore.Settled where
  toValid := valid_emptyStore
  unique_index := rfl
  stored := fun _ hn => absurd hn List.not_mem_nil
  archived := fun _ hn => absurd hn List.not_mem_nil

/-- No two rows of a settled store share an identity. -/
theorem MemoryDb.Settled.nodup_contentId (h : db.Settled) :
    (db.notes.map (·.contentId)).Nodup := by
  have hmap : db.notes.filterMap (·.entityId) = db.notes.map (·.contentId) := by
    rw [List.filterMap_congr (g := fun n => some n.contentId) (fun n hn => h.stored n hn),
      List.filterMap_eq_map']
  rw [← hmap]
  exact h.unique.2.2.2 h.unique_index

/-- Every successor of a settled store is a row. -/
theorem MemoryDb.Settled.leads_lt (h : db.Settled) {a b : Nat} (hab : db.Leads a b) :
    a < db.nextId ∧ b < db.nextId := by
  rcases hab with ⟨n, hn, rfl, hb⟩
  refine ⟨h.id_lt n hn, ?_⟩
  rcases List.mem_map.mp (h.foreignKeys.1 n hn b hb) with ⟨m, hm, rfl⟩
  exact h.id_lt m hm

theorem ChainIn.mono {R' : Nat → Nat → Prop} (h : ChainIn R db) (hle : ∀ a b, R a b → R' a b) :
    ChainIn R' db :=
  ⟨h.1, fun a b hab => hle a b (h.2 a b hab)⟩

/-- Updates that add only links `R` allows. -/
theorem ChainIn.updateRows (h : ChainIn R db) {p : NoteRow → Bool} {f : NoteRow → NoteRow}
    (hf : ∀ r ∈ db.notes, p r → LawfulUpdate R r (f r)) (hu : (db.updateRows p f).UniqueOk)
    (hfk : (db.updateRows p f).ForeignKeysOk) : ChainIn R (db.updateRows p f) := by
  have hrow : ∀ n ∈ (db.updateRows p f).notes, ∃ r ∈ db.notes, LawfulUpdate R r n := by
    intro n hn
    rcases List.mem_map.mp hn with ⟨r, hr, rfl⟩
    refine ⟨r, hr, ?_⟩
    by_cases hp : p r
    · rw [if_pos hp]
      exact hf r hr hp
    · rw [if_neg hp]
      exact ⟨rfl, rfl, h.1.stored r hr, Or.inl rfl, Or.inr (Or.inl rfl)⟩
  refine ⟨⟨⟨⟨hu, hfk, fun n hn => ?_⟩, fun n hn => ?_, fun n hn e he => ?_⟩, h.1.unique_index,
    fun n hn => ?_, fun n hn hne => ?_⟩, ?_⟩
  · rcases hrow n hn with ⟨r, hr, hl⟩
    rw [hl.id]
    exact h.1.id_lt r hr
  · rcases hrow n hn with ⟨r, hr, hl⟩
    rcases hl.status with hs | hs
    · rw [hs]
      exact h.1.status r hr
    · exact Or.inr hs
  · rcases hrow n hn with ⟨r, hr, hl⟩
    rw [hl.stored, Option.mem_some_iff] at he
    exact he.symm
  · rcases hrow n hn with ⟨r, hr, hl⟩
    exact hl.stored
  · rcases hrow n hn with ⟨r, hr, hl⟩
    rcases hl.link with hnone | hsame | ⟨harch, _⟩
    · exact absurd hnone hne
    · rw [hsame] at hne
      rcases hl.status with hs | hs
      · rw [hs]
        exact h.1.archived r hr hne
      · exact hs
    · exact harch
  · rintro a b ⟨n, hn, rfl, hb⟩
    rcases hrow n hn with ⟨r, hr, hl⟩
    rw [hl.id]
    rcases hl.link with hnone | hsame | ⟨_, hlink⟩
    · rw [hnone] at hb
      exact absurd hb (by simp)
    · exact h.2 _ _ ⟨r, hr, rfl, hsame ▸ hb⟩
    · exact hlink b hb

theorem keeps_updateNotes {p : NoteRow → Bool} {f : NoteRow → NoteRow}
    (hf : ∀ r, p r → r.entityId = some r.contentId → LawfulUpdate R r (f r)) :
    Sql.Keeps (ChainIn R) (updateNotes p f) :=
  Sql.Keeps.statement (fun s n s' hs hrun => by
    rcases of_checked_eq_ok hrun with ⟨_, rfl, hu, hfk⟩
    exact hs.updateRows (fun r hr hp => hf r hp (hs.1.stored r hr)) hu hfk)

/-- A row without a successor adds nothing to the relation. -/
theorem keeps_insertNote {r : NoteRow} (hsucc : r.supersededBy = none)
    (hstatus : r.status = "active" ∨ r.status = "archived")
    (hstored : r.entityId = some r.contentId) : Sql.Keeps (ChainIn R) (insertNote r) :=
  Sql.Keeps.statement (fun s id s' hs hrun => by
    rcases of_checked_eq_ok hrun with ⟨_, rfl, hu, hfk⟩
    have hrow : ∀ n ∈ s.notes ++ [{ r with id := s.nextId }], n ∈ s.notes ∨
        n = { r with id := s.nextId } := fun n hn => by
      rwa [List.mem_append, List.mem_singleton] at hn
    refine ⟨⟨⟨⟨hu, hfk, fun n hn => ?_⟩, fun n hn => ?_, fun n hn e he => ?_⟩,
      hs.1.unique_index, fun n hn => ?_, fun n hn hne => ?_⟩, ?_⟩
    · rcases hrow n hn with hn | rfl
      · exact (hs.1.id_lt n hn).trans (Nat.lt_succ_self _)
      · exact Nat.lt_succ_self _
    · rcases hrow n hn with hn | rfl
      · exact hs.1.status n hn
      · exact hstatus
    · rcases hrow n hn with hn | rfl
      · exact hs.1.entity n hn e he
      · rw [show ({ r with id := s.nextId } : NoteRow).entityId = some r.contentId from hstored,
          Option.mem_some_iff] at he
        exact he.symm
    · rcases hrow n hn with hn | rfl
      · exact hs.1.stored n hn
      · exact hstored
    · rcases hrow n hn with hn | rfl
      · exact hs.1.archived n hn hne
      · exact absurd hsucc hne
    · rintro a b ⟨n, hn, rfl, hb⟩
      rcases hrow n hn with hn | rfl
      · exact hs.2 _ _ ⟨n, hn, rfl, hb⟩
      · exact absurd (hsucc.symm.trans hb) (by simp))

theorem keeps_insertEdge (e : MemoryEdge) : Sql.Keeps (ChainIn R) (insertEdge e) :=
  Sql.Keeps.statement (fun s a s' hs hrun => by
    split at hrun
    · rw [Except.ok.injEq, Prod.mk.injEq] at hrun
      exact hrun.2 ▸ hs
    · rcases of_checked_eq_ok hrun with ⟨_, rfl, _, hfk⟩
      exact ⟨⟨⟨⟨hs.1.unique, hfk, hs.1.id_lt⟩, hs.1.status, hs.1.entity⟩, hs.1.unique_index,
        hs.1.stored, hs.1.archived⟩, hs.2⟩)

end Statements

section Operations

variable {R : Nat → Nat → Prop}

theorem keeps_unionTagsAndFiles (id : Nat) (tags linkedFiles : List String) :
    Sql.Keeps (ChainIn R) (unionTagsAndFiles id tags linkedFiles) := by
  refine Sql.Keeps.bind (Sql.Keeps.bind (Sql.Keeps.query _) (fun r => ?_)) (fun cur => ?_)
  · rcases r with _ | r
    · exact Sql.Keeps.fail _
    · exact Sql.Keeps.ok r
  · simp only [Sql.bind_eq, Sql.pure_eq]
    split
    · exact Sql.Keeps.ok _
    · exact Sql.Keeps.bind (keeps_updateNotes (fun r _ hr =>
        ⟨rfl, rfl, hr, Or.inl rfl, Or.inr (Or.inl rfl)⟩)) (fun _ => Sql.Keeps.ok _)

theorem keeps_archive (id : Nat) : Sql.Keeps (ChainIn R) (archive id) :=
  Sql.Keeps.bind (keeps_updateNotes (fun _ _ hr =>
    ⟨rfl, rfl, hr, Or.inr rfl, Or.inr (Or.inl rfl)⟩)) (fun _ => Sql.Keeps.ok _)

theorem keeps_setRemoteId (id : Nat) (remoteId : String) :
    Sql.Keeps (ChainIn R) (setRemoteId id remoteId) :=
  Sql.Keeps.bind (keeps_updateNotes (fun _ _ hr =>
    ⟨rfl, rfl, hr, Or.inl rfl, Or.inr (Or.inl rfl)⟩)) (fun _ => Sql.Keeps.ok _)

theorem keeps_recoverFromEntityIdCollision (result : Except SqlError Nat) (e : String)
    (tags linkedFiles : List String) :
    Sql.Keeps (ChainIn R) (recoverFromEntityIdCollision result e tags linkedFiles) := by
  rcases result with (_ | _ | _ | _) | id
  case ok => exact Sql.Keeps.ok _
  case error.unique =>
    refine Sql.Keeps.bind (Sql.Keeps.query _) (fun r => ?_)
    rcases r with _ | r
    · exact Sql.Keeps.fail _
    · exact Sql.Keeps.bind (keeps_unionTagsAndFiles _ _ _) (fun _ => Sql.Keeps.ok _)
  all_goals exact Sql.Keeps.fail _

theorem keeps_addNote (now : Int) (kind title body : String) (tags linkedFiles : List String)
    (sourceRef : Option String) (validAt : Option Int) :
    Sql.Keeps (ChainIn R) (addNote now kind title body tags linkedFiles sourceRef validAt) :=
  Sql.Keeps.bind (Sql.Keeps.attempt (keeps_insertNote rfl (Or.inl rfl) rfl))
    (fun r => keeps_recoverFromEntityIdCollision r _ _ _)

theorem keeps_applyRemoteNote (uuid remoteId kind title body : String) (sourceRef : Option String)
    (createdAt : Int) (archived : Bool) :
    Sql.Keeps (ChainIn R)
      (applyRemoteNote uuid remoteId kind title body sourceRef createdAt archived) := by
  refine Sql.Keeps.bind (Sql.Keeps.query _) (fun existing => ?_)
  rcases existing with _ | id
  · refine Sql.Keeps.transaction (Sql.Keeps.bind (Sql.Keeps.attempt (keeps_insertNote rfl ?_ rfl))
      (fun r => Sql.Keeps.bind (keeps_recoverFromEntityIdCollision r _ _ _) (fun p => ?_)))
    · cases archived
      · exact Or.inl rfl
      · exact Or.inr rfl
    · exact Sql.Keeps.bind (Sql.Keeps.whenever (Sql.Keeps.bind (keeps_setRemoteId _ _)
        (fun _ => Sql.Keeps.whenever (keeps_archive _)))) (fun _ => Sql.Keeps.ok _)
  · exact Sql.Keeps.bind (Sql.Keeps.whenever (keeps_archive _)) (fun _ => Sql.Keeps.ok _)

/-- Every row stores its identity already, and the index is unique. -/
theorem keeps_openStore : Sql.Keeps (ChainIn R) openStore := by
  refine Sql.Keeps.bind (Sql.Post.keeps (Sql.Post.bind
    (Q := fun rows s => rows = [] ∧ ChainIn R s) (Sql.Post.query _ (fun s hs => ⟨?_, hs⟩)
      (fun _ hs => hs)) (fun rows => Sql.Post.of_pre (fun hrows => ?_)))) (fun _ => ?_)
  · rw [List.filter_eq_nil_iff]
    intro r hr
    rw [hs.1.stored r hr]
    exact Bool.false_ne_true
  · rw [hrows]
    exact Sql.Post.ok () (fun _ hs => hs)
  · refine Sql.Keeps.execute (fun s s' hs hrun => ?_)
    rw [if_pos hs.1.unique_index, Except.ok.injEq] at hrun
    exact hrun ▸ hs

/-- Without two rows of one identity there is nothing to collapse. -/
theorem keeps_dedupeEntityIds (dryRun : Bool) :
    Sql.Keeps (ChainIn R) (dedupeEntityIds dryRun) := by
  refine Sql.Post.keeps (Sql.Post.bind (Q := fun all s => duplicateGroups all = [] ∧ ChainIn R s)
    (Sql.Post.query _ (fun s hs => ⟨groups_eq_nil hs.1.unique hs.1.nodup_contentId, hs⟩)
      (fun _ hs => hs)) (fun all => Sql.Post.of_pre (fun hnil => ?_)))
  simp only [hnil, if_true]
  exact Sql.Post.ok (P := ChainIn R) _ (fun _ hs => hs)

/-- Superseding adds at most the link asked for, out of an active row. -/
theorem post_supersede {db : MemoryDb} (hdb : ChainIn R db) (now : Int) (oldId newId : Nat)
    (hlink : (∃ r ∈ db.notes, r.id = oldId ∧ r.status = "active") → R oldId newId) :
    Sql.Post (fun s => s = db) (supersede now oldId newId) (fun _ s => ChainIn R s)
      (fun s => s = db) := by
  refine Sql.Post.transaction (F := fun _ => True) (Sql.Post.bind (Q := fun _ s => ChainIn R s)
    (Sql.Post.statement (fun s n s' hs hrun => ?_) (fun _ _ => trivial)) (fun changed => ?_))
    (fun _ hs => hs)
  · subst hs
    rcases of_checked_eq_ok hrun with ⟨_, rfl, hu, hfk⟩
    refine hdb.updateRows (fun r hr hp => ?_) hu hfk
    rw [decide_eq_true_eq] at hp
    refine ⟨rfl, rfl, hdb.1.stored r hr, Or.inr rfl, Or.inr (Or.inr ⟨rfl, fun v hv => ?_⟩)⟩
    rw [supersededRow, Option.mem_some_iff] at hv
    rw [← hv, hp.1]
    exact hlink ⟨r, hr, hp⟩
  · exact Sql.Post.bind (Sql.Post.mono (Sql.Post.of_keeps (Sql.Keeps.whenever
      (keeps_insertEdge (R := R) _))) (fun _ hs => hs) (fun _ _ hs => hs) (fun _ _ => trivial))
      (fun _ => Sql.Post.ok _ (fun _ hs => hs))

/-- The command over it. -/
theorem post_memorySupersede {db : MemoryDb} (hdb : ChainIn R db) (now : Int) (oldId newId : Nat)
    (hlink : (∃ r ∈ db.notes, r.id = oldId ∧ r.status = "active") → R oldId newId) :
    Sql.Post (fun s => s = db) (memorySupersede now oldId newId) (fun _ s => ChainIn R s)
      (ChainIn R) := by
  have hback : ∀ s, s = db → ChainIn R s := fun s hs => hs ▸ hdb
  refine Sql.Post.bind (Q := fun _ s => s = db) (Sql.Post.query _ (fun _ hs => hs) hback)
    (fun found => ?_)
  rcases found with _ | r
  · exact Sql.Post.fail _ hback
  refine Sql.Post.bind (Sql.Post.mono (post_supersede hdb now oldId newId hlink) (fun _ hs => hs)
    (fun _ _ hs => hs) hback) (fun superseded => ?_)
  cases superseded
  · exact Sql.Post.fail _ (fun _ hs => hs)
  · exact Sql.Post.ok _ (fun _ hs => hs)

end Operations

section Target

variable {R : Nat → Nat → Prop} {db : MemoryDb}

/-- The row an insert of a content ends up at: the one that stores it, else the
    next one. -/
def MemoryDb.contentTarget (db : MemoryDb) (e : String) : Nat :=
  ((db.notes.find? (fun r => r.entityId = some e)).map (·.id)).getD db.nextId

/-- An insert, with the recovery from a collision, answers that row. -/
theorem post_insertOrRecover (hdb : ChainIn R db) {r : NoteRow} {e : String}
    (hsucc : r.supersededBy = none) (hstatus : r.status = "active" ∨ r.status = "archived")
    (hstored : r.entityId = some r.contentId) (he : r.contentId = e)
    (tags linkedFiles : List String) :
    Sql.Post (fun s => s = db)
      ((Sql.attempt (insertNote r)).andThen
        (fun result => recoverFromEntityIdCollision result e tags linkedFiles))
      (fun p s => p.1 = db.contentTarget e ∧ ChainIn R s) (fun _ => True) := by
  refine Sql.Post.bind (Q := fun result s =>
    (∃ id, result = .ok id ∧ id = db.contentTarget e ∧ ChainIn R s) ∨
      ((∃ e, result = .error e) ∧ s = db))
    (Sql.Post.attempt (Q := fun id s => id = db.contentTarget e ∧ ChainIn R s)
      (E := fun s => s = db) ?_ (fun id s hs => Or.inl ⟨id, rfl, hs⟩)
      (fun err s hs => Or.inr ⟨⟨err, rfl⟩, hs⟩)) (fun result => ?_)
  · intro c hc
    refine ⟨fun id hid => ⟨?_, ?_⟩, fun err herr => ?_⟩
    · -- The insert passed the unique index, so no row stores the content.
      refine (Sql.Post.statement (P := fun s => s = db) (Q := fun id _ => id = db.contentTarget e)
        (E := fun _ => True) (fun s id s' hs hrun => ?_) (fun _ _ => trivial) c hc).1 id hid
      subst hs
      rcases of_checked_eq_ok hrun with ⟨rfl, rfl, hu, _⟩
      have hnodup := hu.2.2.2 hdb.1.unique_index
      rw [List.filterMap_append, List.filterMap_cons_some (b := e) (by rw [hstored, he]),
        List.filterMap_nil] at hnodup
      have hnone : s.notes.find? (fun r => r.entityId = some e) = none := by
        rw [List.find?_eq_none]
        intro x hx hxe
        exact (List.nodup_append.mp hnodup).2.2 e
          (List.mem_filterMap.mpr ⟨x, hx, of_decide_eq_true hxe⟩) e (List.mem_singleton_self e) rfl
      rw [contentTarget, hnone]
      rfl
    · exact keeps_insertNote hsucc hstatus hstored c (hc ▸ hdb)
    · refine (Sql.Post.statement (P := fun s => s = db) (Q := fun _ _ => True)
        (E := fun s => s = db) (fun _ _ _ _ _ => trivial) (fun _ hs => hs) c hc).2 err herr
  · rcases result with (_ | _ | _ | _) | id
    case ok =>
      refine Sql.Post.ok _ (fun s hs => ?_)
      rcases hs with ⟨id', hid, htarget, hchain⟩ | ⟨⟨err, herr⟩, _⟩
      · rw [Except.ok.injEq] at hid
        exact ⟨hid ▸ htarget, hchain⟩
      · exact absurd herr (by simp)
    case error.unique =>
      refine Sql.Post.bind (Q := fun found s => found = db.notes.find? (fun r => r.entityId = some e)
        ∧ ChainIn R s) (Sql.Post.query _ (fun s hs => ?_) (fun _ _ => trivial)) (fun found =>
          Sql.Post.of_pre (fun hfound => ?_))
      · rcases hs with ⟨_, hid, _⟩ | ⟨_, rfl⟩
        · exact absurd hid (by simp)
        · exact ⟨rfl, hdb⟩
      · rcases found with _ | x
        · exact Sql.Post.fail _ (fun _ _ => trivial)
        · refine Sql.Post.bind (Sql.Post.mono (Sql.Post.of_keeps (keeps_unionTagsAndFiles (R := R) _ _ _))
            (fun _ hs => hs) (fun _ _ hs => hs) (fun _ _ => trivial)) (fun _ =>
              Sql.Post.ok _ (fun s hs => ⟨?_, hs⟩))
          rw [contentTarget, ← hfound]
          rfl
    all_goals exact Sql.Post.fail _ (fun _ _ => trivial)

/-- Adding a note that supersedes another adds at most that one link. -/
theorem post_addNoteSuperseding (hdb : ChainIn R db) (now : Int) (kind title body : String)
    (tags linkedFiles : List String) (validAt : Option Int) (supersedesId : Nat)
    (hlink : db.contentTarget (entityId kind title body) ≠ supersedesId →
      R supersedesId (db.contentTarget (entityId kind title body))) :
    Sql.Post (fun s => s = db)
      (addNoteSuperseding now kind title body tags linkedFiles validAt supersedesId)
      (fun _ s => ChainIn R s) (fun s => s = db) := by
  refine Sql.Post.transaction (F := fun _ => True) ?_ (fun _ hs => hs)
  simp only [Sql.bind_eq, Sql.pure_eq]
  rw [← Sql.andThen_assoc]
  refine Sql.Post.bind (post_insertOrRecover hdb rfl (Or.inl rfl) rfl rfl tags linkedFiles)
    (fun p => Sql.Post.of_pre (fun hp => ?_))
  split
  · exact Sql.Post.ok _ (fun _ hs => hs)
  next hne =>
  rw [hp] at hne
  refine Sql.Post.bind (Q := fun _ s => ChainIn R s)
    (Sql.Post.mono (Sql.Post.of_keeps (I := ChainIn R) (keeps_updateNotes (fun r hr hstored => ?_)))
      (fun _ hs => hs) (fun _ _ hs => hs) (fun _ _ => trivial)) (fun changed => ?_)
  · rw [decide_eq_true_eq] at hr
    refine ⟨rfl, rfl, hstored, Or.inr rfl, Or.inr (Or.inr ⟨rfl, fun v hv => ?_⟩)⟩
    rw [supersededRow, Option.mem_some_iff] at hv
    rw [← hv, hp, hr.1]
    exact hlink hne
  · split
    · exact Sql.Post.fail _ (fun _ _ => trivial)
    · exact Sql.Post.bind (Sql.Post.mono (Sql.Post.of_keeps (keeps_insertEdge (R := R) _))
        (fun _ hs => hs) (fun _ _ hs => hs) (fun _ _ => trivial))
        (fun _ => Sql.Post.ok _ (fun _ hs => hs))

/-- The command over it: nothing happens unless the old row is active. -/
theorem post_memoryAddSuperseding (hdb : ChainIn R db) (now : Int) (kind title body : String)
    (tags linkedFiles : List String) (validAt : Option Int) (supersedesId : Nat)
    (hlink : (∃ r ∈ db.notes, r.id = supersedesId ∧ r.status = "active") →
      db.contentTarget (entityId kind title body) ≠ supersedesId →
      R supersedesId (db.contentTarget (entityId kind title body))) :
    Sql.Post (fun s => s = db)
      (memoryAddSuperseding now kind title body tags linkedFiles validAt supersedesId)
      (fun _ s => ChainIn R s) (ChainIn R) := by
  have hback : ∀ s, s = db → ChainIn R s := fun s hs => hs ▸ hdb
  refine Sql.Post.bind (Q := fun found s =>
    found = db.notes.find? (fun r => r.id = supersedesId) ∧ s = db)
    (Sql.Post.query _ (fun s hs => ⟨by rw [hs], hs⟩) hback)
    (fun found => Sql.Post.of_pre (fun hfound => ?_))
  rcases found with _ | old
  · exact Sql.Post.fail _ hback
  simp only
  split
  · next hactive =>
    have hid := List.find?_some hfound.symm
    refine Sql.Post.mono (post_addNoteSuperseding hdb now kind title body tags linkedFiles validAt
      supersedesId (hlink ⟨old, List.mem_of_find?_eq_some hfound.symm, of_decide_eq_true hid,
        hactive⟩)) (fun _ hs => hs) (fun _ _ hs => hs) hback
  · exact Sql.Post.fail _ hback

end Target

end Spelunk
