import Spelunk.Theory.FoldGroup

/-!
# Order of the Copies

When does the fold of a log not depend on the order of its lines? The merged
fields never do. The base-sourced ones depend on it exactly where two copies
tie on `baseKey`: the first of them in the list is the base, and `baseKey` has
neither the `entity_id` field nor the status. So two machines converge exactly
when tied copies agree on those two, the status only as long as no copy of the
entity is archived.

## Main definitions

* `GroupsAgree`: Equal identity means equal kind, title and body.
* `LeastKeyed`: The copies that may become the base.
* `TiesAgree`: Tied base copies agree on what the base key leaves out.

## Theorems

* `joinCopies_eq_of_tie`: Agreeing ties give the same folded record.
* `foldRecords_perm_of_tiesAgree`: Then every order gives the same records.
* `foldRecords_perm_iff_tiesAgree`: And only then.
-/

namespace Spelunk

variable [Sha256]

/-- Records of one entity have the same kind, title and body. -/
def GroupsAgree (records : List NoteRecord) : Prop :=
  ∀ a ∈ records, ∀ b ∈ records, a.resolveEntityId = b.resolveEntityId →
    a.kind = b.kind ∧ a.title = b.title ∧ a.body = b.body

/-- A copy of least base key in its entity's group. -/
def LeastKeyed (records : List NoteRecord) (a : NoteRecord) : Prop :=
  a ∈ records ∧ ∀ c ∈ records, c.resolveEntityId = a.resolveEntityId → baseKey a ≤ baseKey c

/-- Two copies that may both become the base of their entity carry the same
    `entity_id` field, and the same status unless some copy is archived. -/
def TiesAgree (records : List NoteRecord) : Prop :=
  ∀ a b, LeastKeyed records a → LeastKeyed records b → a.resolveEntityId = b.resolveEntityId →
    a.entityId = b.entityId ∧
      (a.status = b.status ∨
        ∃ c ∈ records, c.resolveEntityId = a.resolveEntityId ∧ c.status = "archived")

omit [Sha256] in
/-- Tied base copies that agree on what the base key leaves out give the same
    folded record. -/
theorem joinCopies_eq_of_tie {a b : NoteRecord} {copies : List NoteRecord}
    (hkey : baseKey a = baseKey b) (hkind : a.kind = b.kind) (htitle : a.title = b.title)
    (hbody : a.body = b.body) (hentity : a.entityId = b.entityId)
    (hstatus : a.status = b.status ∨ ∃ c ∈ copies, c.status = "archived")
    (hlone : copies.length ≤ 1 → a = b) :
    joinCopies a copies = joinCopies b copies := by
  rcases (baseKey_eq_iff a b).mp hkey with ⟨hcreated, hid, hsource, hremote, hsuper⟩
  have hs : (if ∃ c ∈ copies, c.status = "archived" then "archived" else a.status)
      = if ∃ c ∈ copies, c.status = "archived" then "archived" else b.status := by
    rcases hstatus with h | h
    · rw [h]
    · rw [if_pos h, if_pos h]
  have hunion : ∀ f : NoteRecord → List String,
      (if copies.length ≤ 1 then f a else Lib.sortDedup (copies.flatMap f))
        = if copies.length ≤ 1 then f b else Lib.sortDedup (copies.flatMap f) := by
    intro f
    by_cases hlen : copies.length ≤ 1
    · rw [hlone hlen]
    · rw [if_neg hlen, if_neg hlen]
  simp only [joinCopies, hs, hunion (·.tags), hunion (·.linkedFiles), hid, hkind, htitle, hbody,
    hcreated, hsource, hremote, hsuper, hentity]

/-- The base of a non-empty group is one of its least-keyed copies. -/
theorem leastKeyed_firstMin {entity : String} {records : List NoteRecord} {a : NoteRecord}
    {l : List NoteRecord} (h : copiesOf entity records = a :: l) :
    LeastKeyed records (Lib.firstMin baseKey a l) ∧
      (Lib.firstMin baseKey a l).resolveEntityId = entity := by
  have hbase : Lib.firstMin baseKey a l ∈ copiesOf entity records := h ▸ Lib.firstMin_mem _ _ _
  rcases mem_copiesOf.mp hbase with ⟨hmem, hentity⟩
  refine ⟨⟨hmem, fun c hc heq => ?_⟩, hentity⟩
  apply Lib.firstMin_key_le baseKey a l c
  rw [← h]
  exact mem_copiesOf.mpr ⟨hc, heq.trans hentity⟩

theorem LeastKeyed.perm {records records' : List NoteRecord} {a : NoteRecord}
    (h : LeastKeyed records a) (hperm : records.Perm records') : LeastKeyed records' a :=
  ⟨hperm.mem_iff.mp h.1, fun c hc => h.2 c (hperm.mem_iff.mpr hc)⟩

/-- With agreeing ties, a group folds to the same record in every order. -/
theorem foldGroup_eq_of_perm {records records' : List NoteRecord} (hperm : records'.Perm records)
    (hagree : GroupsAgree records) (hties : TiesAgree records) (entity : String) :
    foldGroup (copiesOf entity records') = foldGroup (copiesOf entity records) := by
  have hcopies := copiesOf_perm entity hperm
  rcases hc' : copiesOf entity records' with _ | ⟨a', l'⟩
  · rw [hc'] at hcopies
    rw [hcopies.symm.eq_nil]
  rcases hc : copiesOf entity records with _ | ⟨a, l⟩
  · rw [hc, hc'] at hcopies
    exact absurd hcopies.eq_nil (List.cons_ne_nil _ _)
  rcases leastKeyed_firstMin hc' with ⟨hleast', hentity'⟩
  rcases leastKeyed_firstMin hc with ⟨hleast, hentity⟩
  replace hleast' := hleast'.perm hperm
  have heq : (Lib.firstMin baseKey a' l').resolveEntityId
      = (Lib.firstMin baseKey a l).resolveEntityId := hentity'.trans hentity.symm
  rcases hties _ _ hleast' hleast heq with ⟨hid, hstatus⟩
  rcases hagree _ hleast'.1 _ hleast.1 heq with ⟨hkind, htitle, hbody⟩
  rw [hc, hc'] at hcopies
  have hjoin := joinCopies_congr (Lib.firstMin baseKey a' l') (fun x => hcopies.mem_iff (a := x))
    (by rw [hcopies.length_eq])
  rw [foldGroup_eq, foldGroup_eq, hjoin, Option.some.injEq]
  apply joinCopies_eq_of_tie _ hkind htitle hbody hid
  · rcases hstatus with h | ⟨c, hmem, hk, hs⟩
    · exact Or.inl h
    · exact Or.inr ⟨c, hc ▸ mem_copiesOf.mpr ⟨hmem, hk.trans hentity'⟩, hs⟩
  · -- A group of one has one candidate.
    intro hone
    have hl : l = [] := List.length_eq_zero_iff.mp (by simp only [List.length_cons] at hone; omega)
    subst hl
    have hl' := List.perm_singleton.mp hcopies
    rw [List.cons.injEq] at hl'
    rw [hl'.1, hl'.2]
  · exact le_antisymm (hleast'.2 _ hleast.1 heq.symm) (hleast.2 _ hleast'.1 heq)

theorem foldRecords_perm_of_tiesAgree {records records' : List NoteRecord}
    (hperm : records'.Perm records) (hagree : GroupsAgree records) (hties : TiesAgree records) :
    (foldRecords records').Perm (foldRecords records) := by
  have hkeys : (Lib.firstKeys NoteRecord.resolveEntityId records').Perm
      (Lib.firstKeys NoteRecord.resolveEntityId records) := by
    rw [List.perm_ext_iff_of_nodup (Lib.nodup_firstKeys _ _) (Lib.nodup_firstKeys _ _)]
    intro k
    simp only [Lib.mem_firstKeys, hperm.mem_iff]
  rw [foldRecords_eq, foldRecords_eq,
    List.filterMap_congr (fun k _ => foldGroup_eq_of_perm hperm hagree hties k)]
  exact hkeys.filterMap _

/-- A least-keyed copy moved to the front is the base of its entity. -/
theorem joinCopies_mem_foldRecords {records : List NoteRecord} {a : NoteRecord}
    (h : LeastKeyed (a :: records) a) :
    joinCopies a (copiesOf a.resolveEntityId (a :: records)) ∈ foldRecords (a :: records) := by
  have hcons : copiesOf a.resolveEntityId (a :: records)
      = a :: copiesOf a.resolveEntityId records := List.filter_cons_of_pos (by simp)
  rw [mem_foldRecords_iff, resolveEntityId_joinCopies, hcons, foldGroup_eq,
    Lib.firstMin_eq_head]
  intro x hx
  rcases mem_copiesOf.mp hx with ⟨hmem, hk⟩
  exact h.2 x (List.mem_cons_of_mem _ hmem) hk

/-- Order independence forces tied base copies to agree. -/
theorem tiesAgree_of_foldRecords_perm {records : List NoteRecord}
    (h : ∀ records', records'.Perm records → (foldRecords records').Perm (foldRecords records)) :
    TiesAgree records := by
  intro a b ha hb heq
  -- Two orders of the log, one with each candidate in front.
  have hpa := (List.perm_cons_erase ha.1).symm
  have hpb := (List.perm_cons_erase hb.1).symm
  have hma := joinCopies_mem_foldRecords (ha.perm hpa.symm)
  have hmb := joinCopies_mem_foldRecords (hb.perm hpb.symm)
  have hmb' := ((h _ hpb).trans (h _ hpa).symm).mem_iff.mp hmb
  -- One entity, so one folded record.
  rw [mem_foldRecords_iff] at hma hmb'
  simp only [resolveEntityId_joinCopies] at hma hmb'
  rw [heq, hmb'] at hma
  have hfold := Option.some.inj hma
  refine ⟨(congrArg NoteRecord.entityId hfold).symm, ?_⟩
  by_cases harch : ∃ c ∈ records, c.resolveEntityId = a.resolveEntityId ∧ c.status = "archived"
  · exact Or.inr harch
  · left
    have hstatus := congrArg NoteRecord.status hfold
    simp only [joinCopies] at hstatus
    rw [if_neg, if_neg] at hstatus
    · exact hstatus.symm
    · rintro ⟨c, hc, hs⟩
      rcases mem_copiesOf.mp hc with ⟨hmem, hk⟩
      exact harch ⟨c, hpa.mem_iff.mp hmem, hk.trans heq.symm, hs⟩
    · rintro ⟨c, hc, hs⟩
      rcases mem_copiesOf.mp hc with ⟨hmem, hk⟩
      exact harch ⟨c, hpb.mem_iff.mp hmem, hk.trans heq.symm, hs⟩

/-- The fold is independent of the order of its input exactly when tied base
    copies agree. -/
theorem foldRecords_perm_iff_tiesAgree (records : List NoteRecord)
    (hagree : GroupsAgree records) :
    (∀ records', records'.Perm records → (foldRecords records').Perm (foldRecords records)) ↔
      TiesAgree records :=
  ⟨tiesAgree_of_foldRecords_perm, fun hties _ hperm =>
    foldRecords_perm_of_tiesAgree hperm hagree hties⟩

section TiedCopies

omit [Sha256]

/-- A line written before the `entity_id` field existed. -/
def legacyLine : NoteRecord where
  schemaVersion := 1
  id := 1
  kind := "decision"
  title := "HTTP layer"
  body := "use axum"
  tags := ["x"]
  linkedFiles := ["a.rs"]
  createdAt := 123
  status := "active"
  sourceRef := none
  validAt := none
  invalidAt := none
  supersededBy := none
  remoteId := none
  entityId := none
  supersededByEntityId := none

/-- The same row written again by a current writer. -/
def freshLine : NoteRecord :=
  { legacyLine with
    entityId := some "cc308a1ca5d849191e1710cc9def561377a9ef37e4fcb895e5aa3b1896e43603" }

theorem foldRecords_perm_iff_tiesAgree_legacyLine :
    (∀ records', records'.Perm [legacyLine, freshLine] →
      (@foldRecords workedSha256 records').Perm
        (@foldRecords workedSha256 [legacyLine, freshLine])) ↔
      @TiesAgree workedSha256 [legacyLine, freshLine] :=
  @foldRecords_perm_iff_tiesAgree workedSha256 [legacyLine, freshLine] (by
    unfold GroupsAgree
    decide)

/-- Two lines of one entity whose order decides the folded record: the first of
    them supplies the `entity_id` field. -/
theorem foldRecords_order_matters :
    [freshLine, legacyLine].Perm [legacyLine, freshLine] ∧
      @GroupsAgree workedSha256 [legacyLine, freshLine] ∧
      ¬ (@foldRecords workedSha256 [freshLine, legacyLine]).Perm
        (@foldRecords workedSha256 [legacyLine, freshLine]) := by
  unfold GroupsAgree
  decide

end TiedCopies

end Spelunk
