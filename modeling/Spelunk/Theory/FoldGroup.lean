import Spelunk.Core.Fold

/-!
# One Folded Group in Closed Form

`foldGroup` takes its base out of the group, merges the leftovers onto it in
whatever order `swap_remove` left them, and overwrites the successor. Here the
result is brought to a closed form, `joinCopies`: every field is either the
base's or a merge of a whole group's fields, and the order in which the copies
were merged is gone. Order, repetition and nesting of folds are then questions
about `joinCopies` and about which copy is the base.

## Main definitions

* `joinCopies`: The base with every merged field filled in from the group.
* `copiesOf`: The records of one entity.

## Theorems

* `foldGroup_eq`: `foldGroup` computes `joinCopies` at the first minimum.
* `joinCopies_congr`: Which copies there are decides the merged fields.
* `baseKey_eq_iff`: What equal base keys say about two copies.
* `resolveSupersededByEntityId_congr`: The successor depends on the copies only.
* `foldRecords_eq`: The fold as a map over first-encounter identities.
* `mem_foldRecords_iff`: The folded records, one per entity.
* `firstKeys_foldRecords`: A fold keeps the entities and their order.
* `copiesOf_foldRecords`: After a fold every entity has one copy.
-/

namespace Spelunk

/-- The base with the merged fields of the whole group `copies`, the base
    included. A group of one keeps its tags and files as they were written. -/
def joinCopies (base : NoteRecord) (copies : List NoteRecord) : NoteRecord :=
  { base with
    status := if ∃ c ∈ copies, c.status = "archived" then "archived" else base.status
    schemaVersion := Lib.mergeAll max 0 (copies.map (·.schemaVersion))
    validAt := Lib.mergeAll minSome none (copies.map (·.validAt))
    invalidAt := Lib.mergeAll minSome none (copies.map (·.invalidAt))
    tags := if copies.length ≤ 1 then base.tags else Lib.sortDedup (copies.flatMap (·.tags))
    linkedFiles := if copies.length ≤ 1 then base.linkedFiles
      else Lib.sortDedup (copies.flatMap (·.linkedFiles))
    supersededByEntityId := resolveSupersededByEntityId copies }

section MinSome

instance : Std.Associative minSome where
  assoc a b c := by
    cases a <;> cases b <;> cases c <;> simp only [minSome, Option.or, min_assoc]

instance : Std.Commutative minSome where
  comm a b := by
    cases a <;> cases b <;> simp only [minSome, Option.or, min_comm]

instance : Std.IdempotentOp minSome where
  idempotent a := by
    cases a <;> simp only [minSome, Option.or, min_self]

instance : Std.LawfulLeftIdentity minSome none where
  left_id a := by
    cases a <;> rfl

end MinSome

section Keys

theorem optKey_injective {α : Type*} : Function.Injective (optKey (α := α)) := by
  intro a b h
  cases a <;> cases b <;> simp_all [optKey]

/-- Copies of equal key agree on the five fields the key has. -/
theorem baseKey_eq_iff (a b : NoteRecord) :
    baseKey a = baseKey b ↔ a.createdAt = b.createdAt ∧ a.id = b.id ∧ a.sourceRef = b.sourceRef ∧
      a.remoteId = b.remoteId ∧ a.supersededBy = b.supersededBy := by
  simp only [baseKey, EmbeddingLike.apply_eq_iff_eq, Prod.mk.injEq, optKey_injective.eq_iff]

theorem supersededByEntityId_eq_of_successorKey_eq {a b : NoteRecord}
    (h : successorKey a = successorKey b) : a.supersededByEntityId = b.supersededByEntityId := by
  simp only [successorKey, EmbeddingLike.apply_eq_iff_eq, Prod.mk.injEq,
    optKey_injective.eq_iff] at h
  exact h.2.2

end Keys

section Successor

/-- Every copy of least key among those that name a successor names the one the
    group resolves to. -/
theorem resolveSupersededByEntityId_eq {group : List NoteRecord} {r : NoteRecord}
    (hr : r ∈ group) (hsome : r.supersededByEntityId.isSome)
    (hmin : ∀ x ∈ group, x.supersededByEntityId.isSome → successorKey r ≤ successorKey x) :
    resolveSupersededByEntityId group = r.supersededByEntityId := by
  have hmem : r ∈ group.filter (fun r => r.supersededByEntityId.isSome) :=
    List.mem_filter.mpr ⟨hr, hsome⟩
  rcases hf : group.filter (fun r => r.supersededByEntityId.isSome) with _ | ⟨first, rest⟩
  · rw [hf] at hmem
    exact absurd hmem List.not_mem_nil
  · simp only [resolveSupersededByEntityId, hf]
    have hwin : Lib.firstMin successorKey first rest
        ∈ group.filter (fun r => r.supersededByEntityId.isSome) := by
      rw [hf]
      exact Lib.firstMin_mem _ _ _
    rcases List.mem_filter.mp hwin with ⟨hg, hs⟩
    apply supersededByEntityId_eq_of_successorKey_eq
    apply le_antisymm
    · exact Lib.firstMin_key_le successorKey first rest r (hf ▸ hmem)
    · exact hmin _ hg hs

/-- The successor of a group depends only on which copies it has. -/
theorem resolveSupersededByEntityId_congr {group group' : List NoteRecord}
    (h : ∀ x, x ∈ group ↔ x ∈ group') :
    resolveSupersededByEntityId group = resolveSupersededByEntityId group' := by
  rcases hf : group.filter (fun r => r.supersededByEntityId.isSome) with _ | ⟨first, rest⟩
  · have hf' : group'.filter (fun r => r.supersededByEntityId.isSome) = [] := by
      rw [List.filter_eq_nil_iff] at hf ⊢
      exact fun x hx => hf x ((h x).mpr hx)
    simp only [resolveSupersededByEntityId, hf, hf']
  · have hwin : Lib.firstMin successorKey first rest
        ∈ group.filter (fun r => r.supersededByEntityId.isSome) := by
      rw [hf]
      exact Lib.firstMin_mem _ _ _
    rcases List.mem_filter.mp hwin with ⟨hg, hs⟩
    have hmin : ∀ x ∈ group, x.supersededByEntityId.isSome →
        successorKey (Lib.firstMin successorKey first rest) ≤ successorKey x := fun x hx hxs =>
      Lib.firstMin_key_le successorKey first rest x (hf ▸ List.mem_filter.mpr ⟨hx, hxs⟩)
    rw [resolveSupersededByEntityId_eq hg hs hmin]
    exact (resolveSupersededByEntityId_eq ((h _).mp hg) hs
      (fun x hx => hmin x ((h x).mpr hx))).symm

theorem resolveSupersededByEntityId_singleton (r : NoteRecord) :
    resolveSupersededByEntityId [r] = r.supersededByEntityId := by
  cases hs : r.supersededByEntityId <;>
    simp [resolveSupersededByEntityId, hs]

end Successor

section Merge

theorem foldl_mergeInto_status (base : NoteRecord) (l : List NoteRecord) :
    (l.foldl mergeInto base).status
      = if ∃ c ∈ l, c.status = "archived" then "archived" else base.status := by
  induction l using List.reverseRecOn with
  | nil => simp only [List.foldl_nil, List.not_mem_nil, false_and, exists_false, if_false]
  | append_singleton l x ih =>
      rw [List.foldl_append, List.foldl_cons, List.foldl_nil]
      simp only [mergeInto, ih]
      by_cases hx : x.status = "archived"
      · rw [if_pos hx, if_pos ⟨x, List.mem_append_right _ (List.mem_singleton_self x), hx⟩]
      · rw [if_neg hx]
        by_cases hl : ∃ c ∈ l, c.status = "archived"
        · rcases hl with ⟨c, hc, hs⟩
          rw [if_pos ⟨c, hc, hs⟩, if_pos ⟨c, List.mem_append_left _ hc, hs⟩]
        · rw [if_neg hl, if_neg]
          rintro ⟨c, hc, hs⟩
          rcases List.mem_append.mp hc with hc | hc
          · exact hl ⟨c, hc, hs⟩
          · exact hx (List.mem_singleton.mp hc ▸ hs)

theorem foldl_mergeInto_tags (base : NoteRecord) (l : List NoteRecord) :
    (l.foldl mergeInto base).tags
      = if l = [] then base.tags else Lib.sortDedup (base.tags ++ l.flatMap (·.tags)) := by
  induction l using List.reverseRecOn with
  | nil => rfl
  | append_singleton l x ih =>
      rw [List.foldl_append, List.foldl_cons, List.foldl_nil, if_neg (by simp)]
      simp only [mergeInto, unionInto, ih]
      apply Lib.sortDedup_eq_of_mem_iff
      intro t
      by_cases hl : l = []
      · simp [hl]
      · simp [hl, or_assoc]

theorem foldl_mergeInto_linkedFiles (base : NoteRecord) (l : List NoteRecord) :
    (l.foldl mergeInto base).linkedFiles
      = if l = [] then base.linkedFiles
        else Lib.sortDedup (base.linkedFiles ++ l.flatMap (·.linkedFiles)) := by
  induction l using List.reverseRecOn with
  | nil => rfl
  | append_singleton l x ih =>
      rw [List.foldl_append, List.foldl_cons, List.foldl_nil, if_neg (by simp)]
      simp only [mergeInto, unionInto, ih]
      apply Lib.sortDedup_eq_of_mem_iff
      intro t
      by_cases hl : l = []
      · simp [hl]
      · simp [hl, or_assoc]

/-- The pairwise merges in one step, field by field. -/
theorem foldl_mergeInto (base : NoteRecord) (l : List NoteRecord) :
    l.foldl mergeInto base =
      { base with
        status := (l.foldl mergeInto base).status
        schemaVersion := (l.map (·.schemaVersion)).foldl max base.schemaVersion
        validAt := (l.map (·.validAt)).foldl minSome base.validAt
        invalidAt := (l.map (·.invalidAt)).foldl minSome base.invalidAt
        tags := (l.foldl mergeInto base).tags
        linkedFiles := (l.foldl mergeInto base).linkedFiles } := by
  induction l generalizing base with
  | nil => rfl
  | cons x l ih =>
      rw [List.foldl_cons, ih (mergeInto base x)]
      simp only [mergeInto, List.map_cons, List.foldl_cons]

end Merge

section Base

/-- The base index points at the first copy of least key. -/
theorem baseIndex_spec (a : NoteRecord) (l : List NoteRecord) :
    ∃ i, baseIndex (a :: l) = some i ∧ (a :: l)[i]? = some (Lib.firstMin baseKey a l) := by
  have hmem := Lib.firstMin_mem (fun p : NoteRecord × Nat => baseKey p.1) (a, 0) (l.zipIdx 1)
  have hmap := Lib.firstMin_map baseKey Prod.fst (a, 0) (l.zipIdx 1)
  rw [List.zipIdx_map_fst] at hmap
  refine ⟨(Lib.firstMin (fun p => baseKey p.1) (a, 0) (l.zipIdx 1)).2, rfl, ?_⟩
  rw [show (a, 0) :: l.zipIdx 1 = (a :: l).zipIdx from rfl] at hmem
  rw [List.mem_zipIdx_iff_getElem?.mp hmem, ← hmap]

/-- A merged field does not see in which order the copies were merged. -/
theorem mergeAll_eq_foldl_of_perm {α : Type*} (op : α → α → α) (e : α) [Std.Associative op]
    [Std.Commutative op] [Std.LawfulLeftIdentity op e] [Std.IdempotentOp op]
    (f : NoteRecord → α) {base : NoteRecord} {rest group : List NoteRecord}
    (h : (base :: rest).Perm group) :
    (rest.map f).foldl op (f base) = Lib.mergeAll op e (group.map f) := by
  have hcons : Lib.mergeAll op e ((base :: rest).map f) = (rest.map f).foldl op (f base) := by
    rw [List.map_cons, Lib.mergeAll_cons]
  rw [← hcons]
  exact Lib.mergeAll_eq_of_mem_iff op e _ _ (fun x => (h.map f).mem_iff)

/-- Merging the leftovers onto the base gives the closed form, in any order of
    the leftovers. -/
theorem foldl_mergeInto_eq_joinCopies {base : NoteRecord} {rest group : List NoteRecord}
    (h : (base :: rest).Perm group) :
    { rest.foldl mergeInto base with
      supersededByEntityId := resolveSupersededByEntityId group } = joinCopies base group := by
  have hlen : rest.length + 1 = group.length := h.length_eq
  have hstatus : (rest.foldl mergeInto base).status
      = if ∃ c ∈ group, c.status = "archived" then "archived" else base.status := by
    rw [foldl_mergeInto_status]
    by_cases hr : ∃ c ∈ rest, c.status = "archived"
    · rcases hr with ⟨c, hc, hs⟩
      rw [if_pos ⟨c, hc, hs⟩, if_pos ⟨c, h.mem_iff.mp (List.mem_cons_of_mem _ hc), hs⟩]
    · rw [if_neg hr]
      split
      · next hg =>
        rcases hg with ⟨c, hc, hs⟩
        rcases List.mem_cons.mp (h.mem_iff.mpr hc) with rfl | hc'
        · exact hs
        · exact absurd ⟨c, hc', hs⟩ hr
      · rfl
  have hunion : ∀ f : NoteRecord → List String,
      (if rest = [] then f base else Lib.sortDedup (f base ++ rest.flatMap f))
        = if group.length ≤ 1 then f base else Lib.sortDedup (group.flatMap f) := by
    intro f
    by_cases hr : rest = []
    · have hone : group.length ≤ 1 := by rw [← hlen, hr]; rfl
      rw [if_pos hr, if_pos hone]
    · have hmany : ¬ group.length ≤ 1 := by
        have := List.length_pos_iff.mpr hr
        omega
      rw [if_neg hr, if_neg hmany]
      exact Lib.sortDedup_eq_of_mem_iff (fun t => (h.flatMap_right f).mem_iff)
  rw [foldl_mergeInto, hstatus, foldl_mergeInto_tags, foldl_mergeInto_linkedFiles,
    hunion (·.tags), hunion (·.linkedFiles), mergeAll_eq_foldl_of_perm max 0 _ h,
    mergeAll_eq_foldl_of_perm minSome none (·.validAt) h,
    mergeAll_eq_foldl_of_perm minSome none (·.invalidAt) h]
  rfl

/-- One group in closed form: the first copy of least key is the base. -/
theorem foldGroup_eq (a : NoteRecord) (l : List NoteRecord) :
    foldGroup (a :: l) = some (joinCopies (Lib.firstMin baseKey a l) (a :: l)) := by
  rcases baseIndex_spec a l with ⟨i, hi, hget⟩
  rcases List.getElem?_eq_some_iff.mp hget with ⟨hlt, hbase⟩
  have hperm := Lib.swapRemove_perm (a :: l) i hlt
  rw [hbase] at hperm
  simp only [foldGroup, hi, hget, Option.bind_eq_bind, Option.bind_some, Option.pure_def]
  rw [foldl_mergeInto_eq_joinCopies hperm]

/-- Only an entity without copies folds to nothing. -/
theorem foldGroup_eq_none_iff (group : List NoteRecord) : foldGroup group = none ↔ group = [] := by
  cases group with
  | nil => exact ⟨fun _ => rfl, fun _ => rfl⟩
  | cons a l => simp [foldGroup_eq]

/-- Which copies there are decides every merged field but the two unions, which
    a group of one leaves as they are written. -/
theorem joinCopies_congr_of_unions (base : NoteRecord) {copies copies' : List NoteRecord}
    (hmem : ∀ x, x ∈ copies ↔ x ∈ copies')
    (htags : (joinCopies base copies).tags = (joinCopies base copies').tags)
    (hfiles : (joinCopies base copies).linkedFiles = (joinCopies base copies').linkedFiles) :
    joinCopies base copies = joinCopies base copies' := by
  have hmap : ∀ {β : Type} (f : NoteRecord → β) (y : β), y ∈ copies.map f ↔ y ∈ copies'.map f := by
    intro β f y
    simp only [List.mem_map, hmem]
  apply NoteRecord.ext
  case status => simp only [joinCopies, hmem]
  case schemaVersion => exact Lib.mergeAll_eq_of_mem_iff max 0 _ _ (hmap (·.schemaVersion))
  case validAt => exact Lib.mergeAll_eq_of_mem_iff minSome none _ _ (hmap (·.validAt))
  case invalidAt => exact Lib.mergeAll_eq_of_mem_iff minSome none _ _ (hmap (·.invalidAt))
  case tags => exact htags
  case linkedFiles => exact hfiles
  case supersededByEntityId => exact resolveSupersededByEntityId_congr hmem
  all_goals rfl

/-- Which copies there are, and whether there is more than one, decides every
    merged field. -/
theorem joinCopies_congr (base : NoteRecord) {copies copies' : List NoteRecord}
    (hmem : ∀ x, x ∈ copies ↔ x ∈ copies') (hlen : copies.length ≤ 1 ↔ copies'.length ≤ 1) :
    joinCopies base copies = joinCopies base copies' := by
  have hunion : ∀ f : NoteRecord → List String,
      (if copies.length ≤ 1 then f base else Lib.sortDedup (copies.flatMap f))
        = if copies'.length ≤ 1 then f base else Lib.sortDedup (copies'.flatMap f) := by
    intro f
    have hset : Lib.sortDedup (copies.flatMap f) = Lib.sortDedup (copies'.flatMap f) :=
      Lib.sortDedup_eq_of_mem_iff (fun t => by simp only [List.mem_flatMap, hmem])
    simp only [hlen, hset]
  exact joinCopies_congr_of_unions base hmem (hunion (·.tags)) (hunion (·.linkedFiles))

/-- A record that is its own group is already in closed form. -/
theorem joinCopies_singleton (r : NoteRecord) : joinCopies r [r] = r := by
  have hstatus : (if ∃ c ∈ [r], c.status = "archived" then "archived" else r.status)
      = r.status := by
    split
    · next h =>
      rcases h with ⟨c, hc, hs⟩
      rw [List.mem_singleton.mp hc] at hs
      exact hs.symm
    · rfl
  have hmin : ∀ v : Option Int, minSome none v = v := fun v => by cases v <;> rfl
  simp only [joinCopies, hstatus, Lib.mergeAll, List.map_cons, List.map_nil, List.foldl_cons,
    List.foldl_nil, Nat.zero_max, hmin, List.length_singleton, le_refl, if_true,
    resolveSupersededByEntityId_singleton]

end Base

end Spelunk

namespace Spelunk

/-! ### Folding Every Entity of a Log

`foldRecords` groups the records by identity and folds each group. Since a
folded record keeps the identity of its group, the whole fold is determined by
its groups one at a time: `mem_foldRecords_iff` says which records it returns
and `foldRecords_eq` in which order.
-/

variable [Sha256]

/-- The copies of one entity, in the order of the log. -/
def copiesOf (entity : String) (records : List NoteRecord) : List NoteRecord :=
  records.filter (fun r => r.resolveEntityId = entity)

theorem mem_copiesOf {entity : String} {records : List NoteRecord} {r : NoteRecord} :
    r ∈ copiesOf entity records ↔ r ∈ records ∧ r.resolveEntityId = entity := by
  simp only [copiesOf, List.mem_filter, decide_eq_true_eq]

theorem copiesOf_append (entity : String) (l r : List NoteRecord) :
    copiesOf entity (l ++ r) = copiesOf entity l ++ copiesOf entity r :=
  List.filter_append ..

theorem copiesOf_perm (entity : String) {l r : List NoteRecord} (h : l.Perm r) :
    (copiesOf entity l).Perm (copiesOf entity r) :=
  h.filter _

@[simp] theorem resolveEntityId_joinCopies (base : NoteRecord) (copies : List NoteRecord) :
    (joinCopies base copies).resolveEntityId = base.resolveEntityId := rfl

/-- A folded copy group keeps its identity. -/
theorem resolveEntityId_of_foldGroup {entity : String} {records : List NoteRecord} {m : NoteRecord}
    (h : foldGroup (copiesOf entity records) = some m) : m.resolveEntityId = entity := by
  rcases hc : copiesOf entity records with _ | ⟨a, l⟩
  · rw [hc] at h
    exact absurd h (by simp [foldGroup, baseIndex])
  · rw [hc, foldGroup_eq] at h
    have hbase : Lib.firstMin baseKey a l ∈ copiesOf entity records := hc ▸ Lib.firstMin_mem _ _ _
    rw [← Option.some.inj h, resolveEntityId_joinCopies]
    exact (mem_copiesOf.mp hbase).2

theorem foldRecords_eq (records : List NoteRecord) :
    foldRecords records = (Lib.firstKeys NoteRecord.resolveEntityId records).filterMap
      (fun entity => foldGroup (copiesOf entity records)) := by
  rw [foldRecords, Lib.groupBy_eq, List.filterMap_map]
  rfl

/-- The folded records are the folds of the entities' copies. -/
theorem mem_foldRecords_iff (records : List NoteRecord) (m : NoteRecord) :
    m ∈ foldRecords records ↔ foldGroup (copiesOf m.resolveEntityId records) = some m := by
  rw [foldRecords_eq, List.mem_filterMap]
  constructor
  · rintro ⟨entity, _, h⟩
    rwa [resolveEntityId_of_foldGroup h]
  · intro h
    refine ⟨m.resolveEntityId, ?_, h⟩
    rw [Lib.mem_firstKeys]
    by_contra hnone
    have hnil : copiesOf m.resolveEntityId records = [] := by
      rw [copiesOf, List.filter_eq_nil_iff]
      exact fun r hr heq => hnone ⟨r, hr, of_decide_eq_true heq⟩
    rw [hnil] at h
    exact absurd h (by simp [foldGroup, baseIndex])

/-- The fold returns every entity once, in the order of first encounter. -/
theorem map_resolveEntityId_foldRecords (records : List NoteRecord) :
    (foldRecords records).map NoteRecord.resolveEntityId
      = Lib.firstKeys NoteRecord.resolveEntityId records := by
  rw [foldRecords_eq, List.map_filterMap]
  have hsome : ∀ entity ∈ Lib.firstKeys NoteRecord.resolveEntityId records,
      (foldGroup (copiesOf entity records)).map NoteRecord.resolveEntityId = some entity := by
    intro entity hmem
    rcases hf : foldGroup (copiesOf entity records) with _ | m
    · rcases (Lib.mem_firstKeys _ _ _).mp hmem with ⟨r, hr, hk⟩
      have hin : r ∈ copiesOf entity records := mem_copiesOf.mpr ⟨hr, hk⟩
      rw [(foldGroup_eq_none_iff _).mp hf] at hin
      exact absurd hin List.not_mem_nil
    · rw [Option.map_some, resolveEntityId_of_foldGroup hf]
  rw [List.filterMap_congr hsome]
  exact List.filterMap_some

theorem nodup_map_resolveEntityId_foldRecords (records : List NoteRecord) :
    ((foldRecords records).map NoteRecord.resolveEntityId).Nodup := by
  rw [map_resolveEntityId_foldRecords]
  exact Lib.nodup_firstKeys _ _

/-- A fold keeps the entities and the order in which they are met. -/
theorem firstKeys_foldRecords (records : List NoteRecord) :
    Lib.firstKeys NoteRecord.resolveEntityId (foldRecords records)
      = Lib.firstKeys NoteRecord.resolveEntityId records := by
  rw [Lib.firstKeys_eq_of_nodup _ _ (nodup_map_resolveEntityId_foldRecords records),
    map_resolveEntityId_foldRecords]

/-- After a fold, the copies of an entity are its folded record alone. -/
theorem copiesOf_foldRecords (entity : String) (records : List NoteRecord) :
    copiesOf entity (foldRecords records) = (foldGroup (copiesOf entity records)).toList := by
  have hnodup : (copiesOf entity (foldRecords records)).Nodup :=
    ((nodup_map_resolveEntityId_foldRecords records).of_map _).filter _
  have hmem : ∀ m, m ∈ copiesOf entity (foldRecords records)
      ↔ foldGroup (copiesOf entity records) = some m := by
    intro m
    rw [mem_copiesOf, mem_foldRecords_iff]
    constructor
    · rintro ⟨h, rfl⟩
      exact h
    · intro h
      have hk := resolveEntityId_of_foldGroup h
      exact ⟨hk ▸ h, hk⟩
  rcases hf : foldGroup (copiesOf entity records) with _ | m
  · rw [Option.toList_none, List.eq_nil_iff_forall_not_mem]
    intro m hm
    rw [hmem, hf] at hm
    exact absurd hm (by simp)
  · rw [Option.toList_some]
    have honly : ∀ m', m' ∈ copiesOf entity (foldRecords records) ↔ m' = m := by
      intro m'
      rw [hmem, hf, Option.some.injEq, eq_comm]
    exact List.perm_singleton.mp ((List.perm_ext_iff_of_nodup hnodup (List.nodup_singleton m)).mpr
      (fun m' => by rw [honly, List.mem_singleton]))

end Spelunk
