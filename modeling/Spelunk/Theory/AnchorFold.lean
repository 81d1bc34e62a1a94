import Spelunk.Theory.FoldOrder

/-!
# Anchors Agree with the Fold

`anchorCommits` picks each entity's base copy by a running minimum over the whole log,
`foldGroup` by a minimum over the entity's own copies. Both come down to `Lib.leastOf`
over the copies in the order of the log, so they pick the same line, also among ties.

A tie is decided by the order of the log. The doc of the base key says that this cannot
show, because copies the key does not separate agree on every field the base supplies;
a legacy line and a fresh one of one note differ in the identity field, so it can.

## Main definitions

* `baseFields`: What a folded record takes from its base copy.
* `AnchorsAgree`: What the anchors of a log promise of its fold.
* `TiesShareBase`: When they keep that promise.

## Theorems

* `anchoredCopy_eq`: The running minimum in closed form.
* `exists_anchoredBase`: The anchor is the commit of the base copy.
* `anchoredCopy_updates`: Later updates move no anchor.
* `anchorLaw`: Anchors agree with the fold exactly when ties share their base fields.
-/

namespace Spelunk

variable [Sha256]

/-! ### The pass in closed form -/

/-- The order of two copies, each with its commit. -/
def copyKey (p : String × NoteRecord) : BaseKey := baseKey p.2

/-- The copies of one entity, each with its commit, in the order of the log. -/
def pairsOf (entity : String) (records : List (String × NoteRecord)) :
    List (String × NoteRecord) :=
  records.filter fun p => p.2.resolveEntityId = entity

/-- The same with their positions. -/
def placesOf (entity : String) (places : List ((String × NoteRecord) × ℕ)) :
    List ((String × NoteRecord) × ℕ) :=
  places.filter fun p => p.1.2.resolveEntityId = entity

theorem mem_placesOf {entity : String} {places : List ((String × NoteRecord) × ℕ)}
    {p : (String × NoteRecord) × ℕ} :
    p ∈ placesOf entity places ↔ p ∈ places ∧ p.1.2.resolveEntityId = entity := by
  simp only [placesOf, List.mem_filter, decide_eq_true_eq]

/-- A pair touches the slot of its own entity only. -/
theorem bestStep_of_ne (records : List (String × NoteRecord)) (best : String → Option ℕ)
    (p : (String × NoteRecord) × ℕ) {entity : String} (h : entity ≠ p.1.2.resolveEntityId) :
    bestStep records best p entity = best entity := by
  unfold bestStep
  cases best p.1.2.resolveEntityId with
  | none => exact Function.update_of_ne h _ _
  | some slot =>
    cases hget : records[slot]? with
    | none => simp only [hget]
    | some held =>
      simp only [hget]
      by_cases hlt : baseKey p.1.2 < baseKey held.2
      · rw [if_pos hlt, Function.update_of_ne h]
      · rw [if_neg hlt]

theorem bestStep_vacant {records : List (String × NoteRecord)} {best : String → Option ℕ}
    {p : (String × NoteRecord) × ℕ} (h : best p.1.2.resolveEntityId = none) :
    bestStep records best p p.1.2.resolveEntityId = some p.2 := by
  simp only [bestStep, h, Function.update_self]

theorem bestStep_occupied {records : List (String × NoteRecord)} {best : String → Option ℕ}
    {p : (String × NoteRecord) × ℕ} {slot : ℕ} {held : String × NoteRecord}
    (h : best p.1.2.resolveEntityId = some slot) (hget : records[slot]? = some held) :
    bestStep records best p p.1.2.resolveEntityId =
      some (if baseKey p.1.2 < baseKey held.2 then p.2 else slot) := by
  simp only [bestStep, h, hget]
  by_cases hlt : baseKey p.1.2 < baseKey held.2
  · rw [if_pos hlt, if_pos hlt, Function.update_self]
  · rw [if_neg hlt, if_neg hlt, h]

/-- The pass keeps the position of the first copy of least key, for each entity. -/
theorem foldl_bestStep (records : List (String × NoteRecord))
    {done : List ((String × NoteRecord) × ℕ)} (hdone : done <+: records.zipIdx) :
    done.foldl (bestStep records) (fun _ => none) = fun entity =>
      (Lib.leastOf (fun p => copyKey p.1) (placesOf entity done)).map (·.2) := by
  induction done using List.reverseRecOn with
  | nil => rfl
  | append_singleton done p ih =>
    have hpre : done <+: records.zipIdx := (List.prefix_append _ _).trans hdone
    rw [List.foldl_append, ih hpre, List.foldl_cons, List.foldl_nil]
    funext entity
    have hplaces : placesOf entity (done ++ [p]) = placesOf entity done ++
        if p.1.2.resolveEntityId = entity then [p] else [] := by
      unfold placesOf
      rw [List.filter_append]
      by_cases he : p.1.2.resolveEntityId = entity <;> simp [he]
    rw [hplaces]
    by_cases he : p.1.2.resolveEntityId = entity
    · subst he
      rw [if_pos rfl, Lib.leastOf_concat]
      cases hl : Lib.leastOf (fun p => copyKey p.1) (placesOf p.1.2.resolveEntityId done) with
      | none =>
        rw [bestStep_vacant (by rw [hl, Option.map_none]), Option.map_some]
      | some best =>
        -- The slot is a position of the list, and holds the copy it was chosen for.
        have hmem := hpre.subset (mem_placesOf.1 (Lib.leastOf_mem hl)).1
        have hget : records[best.2]? = some best.1 := List.mem_zipIdx_iff_getElem?.1 hmem
        rw [bestStep_occupied (by rw [hl, Option.map_some]) hget, Option.map_some,
          apply_ite Prod.snd]
        rfl
    · rw [if_neg he, List.append_nil]
      exact bestStep_of_ne records _ p (Ne.symm he)

theorem bestCopies_eq (records : List (String × NoteRecord)) (entity : String) :
    bestCopies records entity =
      (Lib.leastOf (fun p => copyKey p.1) (placesOf entity records.zipIdx)).map (·.2) :=
  congrFun (foldl_bestStep records List.prefix_rfl) entity

theorem map_placesOf_zipIdx (records : List (String × NoteRecord)) (entity : String) :
    (placesOf entity records.zipIdx).map (·.1) = pairsOf entity records := by
  have hmap := List.filter_map (f := fun p : (String × NoteRecord) × ℕ => p.1)
    (p := fun p => decide (p.2.resolveEntityId = entity)) (l := records.zipIdx)
  rw [List.zipIdx_map_fst] at hmap
  exact hmap.symm

/-- An entity's anchored copy is its first copy of least key. -/
theorem anchoredCopy_eq (records : List (String × NoteRecord)) (entity : String) :
    anchoredCopy records entity = Lib.leastOf copyKey (pairsOf entity records) := by
  unfold anchoredCopy
  rw [bestCopies_eq, ← map_placesOf_zipIdx, Lib.leastOf_map]
  cases hl : Lib.leastOf (fun p => copyKey p.1) (placesOf entity records.zipIdx) with
  | none => rfl
  | some best =>
    have hmem := (mem_placesOf.1 (Lib.leastOf_mem hl)).1
    exact List.mem_zipIdx_iff_getElem?.1 hmem

theorem map_pairsOf (entity : String) (records : List (String × NoteRecord)) :
    (pairsOf entity records).map (·.2) = copiesOf entity (records.map (·.2)) := by
  unfold pairsOf copiesOf
  rw [List.filter_map]
  rfl

theorem mem_pairsOf {entity : String} {records : List (String × NoteRecord)}
    {p : String × NoteRecord} :
    p ∈ pairsOf entity records ↔ p ∈ records ∧ p.2.resolveEntityId = entity := by
  simp only [pairsOf, List.mem_filter, decide_eq_true_eq]

/-! ### The base copy -/

/-- The fields a folded record takes from its base copy: the ones no merge touches. -/
def baseFields (r : NoteRecord) : BaseKey × String × String × String × Option String :=
  (baseKey r, r.kind, r.title, r.body, r.entityId)

omit [Sha256] in
theorem baseFields_joinCopies (base : NoteRecord) (copies : List NoteRecord) :
    baseFields (joinCopies base copies) = baseFields base := rfl

omit [Sha256] in
/-- The base index points at the first copy of least key. -/
theorem baseIndex_append {x y : List NoteRecord} {m : NoteRecord}
    (hx : ∀ c ∈ x, baseKey m < baseKey c) (hy : ∀ c ∈ y, baseKey m ≤ baseKey c) :
    baseIndex (x ++ m :: y) = some x.length := by
  have hleast : Lib.leastOf (fun p : NoteRecord × ℕ => baseKey p.1) (x ++ m :: y).zipIdx =
      some (m, x.length) := by
    refine Lib.leastOf_eq_some_iff.2 ⟨x.zipIdx, y.zipIdx (x.length + 1), ?_, ?_, ?_⟩
    · rw [List.zipIdx_append, List.zipIdx_cons, Nat.zero_add]
    · exact fun c hc => hx c.1 (List.fst_mem_of_mem_zipIdx hc)
    · exact fun c hc => hy c.1 (List.fst_mem_of_mem_zipIdx hc)
  unfold baseIndex
  cases hzip : (x ++ m :: y).zipIdx with
  | nil =>
    rw [hzip] at hleast
    cases hleast
  | cons first rest =>
    rw [hzip, Lib.leastOf, Option.some.injEq] at hleast
    exact congrArg some (congrArg Prod.snd hleast)

/-- The group of an entity folds onto its anchored copy. -/
theorem foldGroup_of_anchoredCopy {records : List (String × NoteRecord)} {entity : String}
    {p : String × NoteRecord} (h : anchoredCopy records entity = some p) :
    foldGroup (copiesOf entity (records.map (·.2))) =
      some (joinCopies p.2 (copiesOf entity (records.map (·.2)))) := by
  rw [anchoredCopy_eq] at h
  rw [← map_pairsOf]
  cases hpairs : pairsOf entity records with
  | nil =>
    rw [hpairs] at h
    cases h
  | cons a l =>
    rw [hpairs, Lib.leastOf, Option.some.injEq] at h
    rw [List.map_cons, foldGroup_eq, Lib.firstMin_map, ← h]
    rfl

theorem anchoredCopy_isSome_iff (records : List (String × NoteRecord)) (entity : String) :
    (anchoredCopy records entity).isSome ↔
      ∃ folded ∈ foldRecords (records.map (·.2)), folded.resolveEntityId = entity := by
  constructor
  · intro h
    obtain ⟨p, hp⟩ := Option.isSome_iff_exists.1 h
    have hfold := foldGroup_of_anchoredCopy hp
    have hentity := resolveEntityId_of_foldGroup hfold
    exact ⟨_, (mem_foldRecords_iff _ _).2 (by rw [hentity]; exact hfold), hentity⟩
  · rintro ⟨folded, hmem, rfl⟩
    rw [anchoredCopy_eq, Option.isSome_iff_ne_none, Ne, Lib.leastOf_eq_none_iff]
    intro hnil
    have hfold := (mem_foldRecords_iff _ _).1 hmem
    rw [← map_pairsOf, hnil] at hfold
    cases hfold

/-! ### The law -/

/-- The line at position `i` is the one the entity is folded onto, and its commit is the anchor: it
    stands at the base index of the entity's copies, and the folded record has its fields. -/
structure AnchoredBase (records : List (String × NoteRecord)) (folded : NoteRecord) (i : ℕ)
    (commit : String) (copy : NoteRecord) : Prop where
  line : records[i]? = some (commit, copy)
  anchor : anchorCommits records folded.resolveEntityId = some commit
  base : ∃ j, baseIndex (copiesOf folded.resolveEntityId (records.map (·.2))) = some j ∧
    (placesOf folded.resolveEntityId records.zipIdx)[j]? = some ((commit, copy), i)
  fields : baseFields folded = baseFields copy

/-- A log in which some lines are marked as state updates, wherever they stand: each is of an entity
    that has an unmarked line of a smaller `createdAt`. -/
def LaterUpdates (marked : List ((String × NoteRecord) × Bool)) : Prop :=
  ∀ u ∈ marked, u.2 = true → ∃ o ∈ marked, o.2 = false ∧
    o.1.2.resolveEntityId = u.1.2.resolveEntityId ∧ o.1.2.createdAt < u.1.2.createdAt

/-- The lines of a marked log that are no updates. -/
def unmarked (marked : List ((String × NoteRecord) × Bool)) : List (String × NoteRecord) :=
  (marked.filter fun u => !u.2).map (·.1)

/-- The anchors of a log agree with its fold. -/
structure AnchorsAgree (records : List (String × NoteRecord)) : Prop where
  /-- One entry for each entity that is folded. -/
  entries : ∀ entity, (anchorCommits records entity).isSome ↔
    ∃ folded ∈ foldRecords (records.map (·.2)), folded.resolveEntityId = entity
  /-- An entry names the commit of the line its entity is folded onto. -/
  base : ∀ folded ∈ foldRecords (records.map (·.2)),
    ∃ i commit copy, AnchoredBase records folded i commit copy
  /-- Updates move no anchor. -/
  updates : ∀ marked, LaterUpdates marked → unmarked marked = records →
    anchorCommits (marked.map (·.1)) = anchorCommits records
  /-- Two orders of the log choose different anchors only between copies of equal fields. -/
  permuted : ∀ l r, l.Perm records → r.Perm records → ∀ entity,
    anchorCommits l entity = anchorCommits r entity ∨
      ∃ p q, anchoredCopy l entity = some p ∧ anchoredCopy r entity = some q ∧
        baseFields p.2 = baseFields q.2

/-- Copies of one entity that its least key does not separate, on different commits, agree on the
    fields that the key leaves out. -/
def TiesShareBase (records : List (String × NoteRecord)) : Prop :=
  ∀ p ∈ records, ∀ q ∈ records, p.2.resolveEntityId = q.2.resolveEntityId →
    (∀ c ∈ records, c.2.resolveEntityId = p.2.resolveEntityId → baseKey p.2 ≤ baseKey c.2) →
      baseKey p.2 = baseKey q.2 → p.1 ≠ q.1 →
        p.2.kind = q.2.kind ∧ p.2.title = q.2.title ∧ p.2.body = q.2.body ∧
          p.2.entityId = q.2.entityId

/-- The folded record of an entity and the line its anchor comes from. -/
theorem exists_anchoredBase {records : List (String × NoteRecord)} {folded : NoteRecord}
    (hmem : folded ∈ foldRecords (records.map (·.2))) :
    ∃ i commit copy, AnchoredBase records folded i commit copy := by
  have hsome := (anchoredCopy_isSome_iff records folded.resolveEntityId).2 ⟨folded, hmem, rfl⟩
  obtain ⟨⟨commit, copy⟩, hcopy⟩ := Option.isSome_iff_exists.1 hsome
  have hplaces := hcopy
  rw [anchoredCopy_eq, ← map_placesOf_zipIdx, Lib.leastOf_map, Option.map_eq_some_iff] at hplaces
  obtain ⟨⟨p, i⟩, hleast, rfl⟩ := hplaces
  obtain ⟨x, y, hsplit, hx, hy⟩ := Lib.leastOf_eq_some_iff.1 hleast
  refine ⟨i, commit, copy, ?_, ?_, ⟨x.length, ?_, ?_⟩, ?_⟩
  · have hplace := (mem_placesOf.1 (Lib.leastOf_mem hleast)).1
    exact List.mem_zipIdx_iff_getElem?.1 hplace
  · rw [anchorCommits, hcopy, Option.map_some]
  · have hcopies : copiesOf folded.resolveEntityId (records.map (·.2)) =
        x.map (fun p => p.1.2) ++ copy :: y.map (fun p => p.1.2) := by
      rw [← map_pairsOf, ← map_placesOf_zipIdx, List.map_map, hsplit, List.map_append,
        List.map_cons]
      rfl
    have hlength : (x.map fun p => p.1.2).length = x.length := List.length_map _
    rw [hcopies, ← hlength]
    refine baseIndex_append ?_ ?_
    · exact List.forall_mem_map.2 hx
    · exact List.forall_mem_map.2 hy
  · rw [hsplit, List.getElem?_append_right le_rfl, Nat.sub_self, List.getElem?_cons_zero]
  · have hfold := (mem_foldRecords_iff _ _).1 hmem
    rw [foldGroup_of_anchoredCopy hcopy, Option.some.injEq] at hfold
    rw [← hfold, baseFields_joinCopies]

omit [Sha256] in
theorem baseKey_lt_of_createdAt {a b : NoteRecord} (h : a.createdAt < b.createdAt) :
    baseKey a < baseKey b :=
  Prod.Lex.toLex_lt_toLex.2 (Or.inl h)

/-- A later update is beaten by the line it updates. -/
theorem anchoredCopy_updates {marked : List ((String × NoteRecord) × Bool)}
    (h : LaterUpdates marked) (entity : String) :
    anchoredCopy (marked.map (·.1)) entity = anchoredCopy (unmarked marked) entity := by
  let own := marked.filter fun u => decide (u.1.2.resolveEntityId = entity)
  have hall : pairsOf entity (marked.map (·.1)) = own.map (·.1) := List.filter_map
  have hold : pairsOf entity (unmarked marked) = (own.filter fun u => !u.2).map (·.1) := by
    unfold pairsOf unmarked
    rw [List.filter_map, List.filter_filter, List.filter_filter]
    congr 2
    funext u
    exact Bool.and_comm _ _
  have hbeaten : ∀ u ∈ own, (!u.2) = false → ∃ o ∈ own, copyKey o.1 < copyKey u.1 := by
    intro u hu hmarked
    obtain ⟨humem, hue⟩ := List.mem_filter.1 hu
    obtain ⟨o, ho, -, hentity, hlt⟩ := h u humem (by simpa using hmarked)
    refine ⟨o, List.mem_filter.2 ⟨ho, ?_⟩, baseKey_lt_of_createdAt hlt⟩
    rw [hentity]
    exact hue
  rw [anchoredCopy_eq, anchoredCopy_eq, hall, hold, Lib.leastOf_map, Lib.leastOf_map copyKey,
    ← Lib.leastOf_filter hbeaten]

/-- What the anchored copy of a reordered log is. -/
theorem anchoredCopy_of_perm {records l : List (String × NoteRecord)} (hl : l.Perm records)
    {entity : String} {p : String × NoteRecord} (h : anchoredCopy l entity = some p) :
    p ∈ records ∧ p.2.resolveEntityId = entity ∧
      ∀ c ∈ records, c.2.resolveEntityId = entity → baseKey p.2 ≤ baseKey c.2 := by
  rw [anchoredCopy_eq] at h
  obtain ⟨hmem, hentity⟩ := mem_pairsOf.1 (Lib.leastOf_mem h)
  refine ⟨hl.subset hmem, hentity, fun c hc hce => ?_⟩
  exact Lib.leastOf_key_le h c (mem_pairsOf.2 ⟨hl.symm.subset hc, hce⟩)

/-- A line of least key that stands first is the anchored one. -/
theorem anchoredCopy_cons {p : String × NoteRecord} {rest : List (String × NoteRecord)}
    (h : ∀ c ∈ rest, c.2.resolveEntityId = p.2.resolveEntityId → baseKey p.2 ≤ baseKey c.2) :
    anchoredCopy (p :: rest) p.2.resolveEntityId = some p := by
  rw [anchoredCopy_eq]
  refine Lib.leastOf_eq_some_iff.2 ⟨[], pairsOf p.2.resolveEntityId rest, ?_, by simp, ?_⟩
  · exact List.filter_cons_of_pos (by simp)
  · intro c hc
    obtain ⟨hmem, hentity⟩ := mem_pairsOf.1 hc
    exact h c hmem hentity

theorem anchoredCopy_eq_none_of_perm {l r : List (String × NoteRecord)} (h : l.Perm r)
    {entity : String} (hnone : anchoredCopy l entity = none) : anchoredCopy r entity = none := by
  rw [anchoredCopy_eq, Lib.leastOf_eq_none_iff] at hnone ⊢
  have hperm : (pairsOf entity l).Perm (pairsOf entity r) := h.filter _
  rw [hnone] at hperm
  exact hperm.nil_eq.symm

/-- Each of two tied copies is the anchored one of an order in which it stands first. -/
theorem AnchorsAgree.tiesShareBase {records : List (String × NoteRecord)}
    (h : AnchorsAgree records) : TiesShareBase records := by
  intro p hp q hq hentity hleast hkey hne
  have hfirst : anchoredCopy (p :: records.erase p) p.2.resolveEntityId = some p :=
    anchoredCopy_cons fun c hc => hleast c (List.mem_of_mem_erase hc)
  have hsecond : anchoredCopy (q :: records.erase q) p.2.resolveEntityId = some q := by
    rw [hentity]
    refine anchoredCopy_cons fun c hc hce => ?_
    rw [← hkey]
    exact hleast c (List.mem_of_mem_erase hc) (hce.trans hentity.symm)
  rcases h.permuted _ _ (List.perm_cons_erase hp).symm (List.perm_cons_erase hq).symm
    p.2.resolveEntityId with heq | ⟨p', q', hp', hq', hfields⟩
  · rw [anchorCommits, anchorCommits, hfirst, hsecond] at heq
    exact absurd (Option.some.inj heq) hne
  · rw [hfirst, Option.some.injEq] at hp'
    rw [hsecond, Option.some.injEq] at hq'
    subst hp' hq'
    simp only [baseFields, Prod.mk.injEq] at hfields
    exact hfields.2

/-- Two orders of the log anchor an entity to copies of equal key. -/
theorem TiesShareBase.permuted {records : List (String × NoteRecord)} (h : TiesShareBase records)
    {l r : List (String × NoteRecord)} (hl : l.Perm records) (hr : r.Perm records)
    (entity : String) : anchorCommits l entity = anchorCommits r entity ∨
      ∃ p q, anchoredCopy l entity = some p ∧ anchoredCopy r entity = some q ∧
        baseFields p.2 = baseFields q.2 := by
  unfold anchorCommits
  cases hp : anchoredCopy l entity with
  | none =>
    rw [anchoredCopy_eq_none_of_perm (hl.trans hr.symm) hp]
    exact Or.inl rfl
  | some p =>
    cases hq : anchoredCopy r entity with
    | none =>
      rw [anchoredCopy_eq_none_of_perm (hr.trans hl.symm) hq] at hp
      cases hp
    | some q =>
      obtain ⟨hpmem, hpe, hple⟩ := anchoredCopy_of_perm hl hp
      obtain ⟨hqmem, hqe, hqle⟩ := anchoredCopy_of_perm hr hq
      have hkey : baseKey p.2 = baseKey q.2 :=
        le_antisymm (hple q hqmem hqe) (hqle p hpmem hpe)
      by_cases hcommit : p.1 = q.1
      · left
        rw [Option.map_some, Option.map_some, hcommit]
      · right
        obtain ⟨hkind, htitle, hbody, hid⟩ :=
          h p hpmem q hqmem (hpe.trans hqe.symm) (hpe.symm ▸ hple) hkey hcommit
        refine ⟨p, q, rfl, rfl, ?_⟩
        simp only [baseFields, hkey, hkind, htitle, hbody, hid]

/-- Anchors agree with the fold exactly when ties share what the key leaves out. -/
theorem anchorLaw (records : List (String × NoteRecord)) :
    AnchorsAgree records ↔ TiesShareBase records := by
  refine ⟨AnchorsAgree.tiesShareBase, fun h => ?_⟩
  refine ⟨fun entity => ?_, fun folded hmem => exists_anchoredBase hmem, ?_, ?_⟩
  · rw [anchorCommits, Option.isSome_map]
    exact anchoredCopy_isSome_iff records entity
  · rintro marked hlater rfl
    funext entity
    rw [anchorCommits, anchorCommits, anchoredCopy_updates hlater]
  · exact fun l r hl hr entity => h.permuted hl hr entity

section TiedLines

omit [Sha256]

/-- A legacy line and a fresh one of the same note, equal in every field of the key but read off two
    commits: the anchor is the commit that is read first, and the two differ in the identity field
    that the folded record takes from it. -/
theorem anchors_tiedLines :
    ¬ @AnchorsAgree workedSha256 [("a", legacyLine), ("b", freshLine)] := by
  intro h
  have hties := @AnchorsAgree.tiesShareBase workedSha256 _ h ("a", legacyLine) (by decide)
    ("b", freshLine) (by decide) (by decide) (by decide) (by decide) (by decide)
  exact absurd hties.2.2.2 (by decide)

end TiedLines

end Spelunk
