import Mathlib
import Spelunk.Core.ExportSource
import Spelunk.Lib.Matching

/-!
# A Dump Says What the Store Says

Every row of `notes`, of a registry's `projects` and of `usage` becomes one entity with the
values of its columns, and every link between two of them one relationship.

The lifecycle column names the successor of an entry and the edge table the predecessor of
one; both are facts about one link. A link gathered so far is one per kind and ends, has the
time of a recorded fact, and has a time once one was recorded: this holds after every fact.

## Main definitions

* `CarriesEntry`: An entry has the values of a row.
* `ExportStore.Fact`: The links a store records, with what is said of one that is dropped.
* `Gathered`: The links of the facts read so far.

## Theorems

* `gathered_entryLinks`: The links of the two encodings.
* `exportLaw`: What the dump of a store is.
-/

namespace Spelunk

open List (Forall₂)
open Lib (row_of_read read_of_row nodup_of_read)

/-! ### Rows -/

section Rows

variable {α β ε : Type}

theorem except_bind_ok {x : Except ε α} {f : α → Except ε β} {b : β} (h : x >>= f = .ok b) :
    ∃ a, x = .ok a ∧ f a = .ok b := by
  cases x with
  | error e => exact absurd h (by simp [bind, Except.bind])
  | ok a => exact ⟨a, rfl, h⟩

theorem forall₂_of_mapM {f : α → Except ε β} {as : List α} {bs : List β}
    (h : as.mapM f = .ok bs) : Forall₂ (fun a b => f a = .ok b) as bs := by
  induction as generalizing bs with
  | nil =>
    rw [List.mapM_nil] at h
    cases h
    exact .nil
  | cons a as ih =>
    rw [List.mapM_cons] at h
    rcases except_bind_ok h with ⟨b, hb, h⟩
    rcases except_bind_ok h with ⟨bs', hbs, h⟩
    cases h
    exact .cons hb (ih hbs)

end Rows

/-- The value of an optional text. -/
def SqlValue.ofText : Option String → SqlValue
  | none => .null
  | some s => .text s

/-- The value of an optional integer. -/
def SqlValue.ofInt : Option ℤ → SqlValue
  | none => .null
  | some n => .int n

section Values

variable {row : List SqlValue} {i : ℕ}

theorem of_getInt {n : ℤ} (h : getInt row i = .ok n) : row[i]? = some (.int n) := by
  unfold getInt at h
  split at h
  · next m hm => rw [hm, Except.ok.inj h]
  · cases h

theorem of_getText {s : String} (h : getText row i = .ok s) : row[i]? = some (.text s) := by
  unfold getText at h
  split at h
  · next m hm => rw [hm, Except.ok.inj h]
  · cases h

theorem of_getOptInt {n : Option ℤ} (h : getOptInt row i = .ok n) :
    row[i]? = some (.ofInt n) := by
  unfold getOptInt at h
  split at h
  · next hm => rw [hm, ← Except.ok.inj h]; rfl
  · next m hm => rw [hm, ← Except.ok.inj h]; rfl
  · cases h

theorem of_getOptText {s : Option String} (h : getOptText row i = .ok s) :
    row[i]? = some (.ofText s) := by
  unfold getOptText at h
  split at h
  · next hm => rw [hm, ← Except.ok.inj h]; rfl
  · next m hm => rw [hm, ← Except.ok.inj h]; rfl
  · cases h

end Values

namespace SqlTable

/-- The values of a row under a select list. -/
def values (t : SqlTable) (list : List SelectColumn) (r : String → SqlValue) : List SqlValue :=
  list.map fun c => t.value r c.name

/-- A statement reads the rows of the table, each of them once. -/
theorem of_select {t : SqlTable} {list : List SelectColumn} {order : List String}
    {rows : List (List SqlValue)} (h : t.select list order = .ok rows) :
    ∃ rs : List (String → SqlValue), rs.Perm t.rows ∧ rows = rs.map (t.values list) := by
  unfold select at h
  split at h
  · cases h
  · exact ⟨_, List.mergeSort_perm _ _, (Except.ok.inj h).symm⟩

/-- A statement names columns that are there. -/
theorem mem_columns_of_select {t : SqlTable} {list : List SelectColumn} {order : List String}
    {rows : List (List SqlValue)} {name : String} (h : t.select list order = .ok rows)
    (hc : need name ∈ list) : name ∈ t.columns := by
  unfold select at h
  split at h
  · cases h
  · next hnone =>
    by_contra hmissing
    have := List.find?_eq_none.1 hnone (need name) hc
    simp [need, hmissing] at this

/-- What is decoded is the rows of the table, each of them once. -/
theorem rows_of_select {γ : Type} {t : SqlTable} {list : List SelectColumn}
    {order : List String} {decode : List SqlValue → Except ExportError γ} {out : List γ}
    (h : t.select list order >>= List.mapM decode = .ok out) :
    ∃ rs : List (String → SqlValue), rs.Perm t.rows ∧
      Forall₂ (fun r e => decode (t.values list r) = .ok e) rs out := by
  rcases except_bind_ok h with ⟨rows, hrows, hout⟩
  rcases of_select hrows with ⟨rs, hperm, rfl⟩
  exact ⟨rs, hperm, List.forall₂_map_left_iff.1 (forall₂_of_mapM hout)⟩

end SqlTable

/-! ### Entries -/

/-- An entry has the values of a row of `notes`, apart from its identity. -/
structure CarriesEntry (t : SqlTable) (r : String → SqlValue) (e : MemoryEntry) : Prop where
  kind : t.value r "kind" = .text e.kind
  title : t.value r "title" = .text e.title
  body : t.value r "body" = .text e.body
  tags : ∃ s, t.value r "tags" = .ofText s ∧ e.tags = splitCsv s
  linkedFiles : ∃ s, t.value r "linked_files" = .ofText s ∧ e.linkedFiles = splitCsv s
  createdAt : t.value r "created_at" = .int e.createdAt
  status : t.value r "status" = .ofText e.status
  sourceRef : t.value r "source_ref" = .ofText e.sourceRef
  validAt : t.value r "valid_at" = .ofInt e.validAt
  invalidAt : t.value r "invalid_at" = .ofInt e.invalidAt
  remoteId : t.value r "remote_id" = .ofText e.remoteId
  entityId : t.value r "entity_id" = .ofText e.entityId

/-- What a decoded row of a table says. -/
structure ReadsRow (t : SqlTable) (ref : ℤ → String) (r : String → SqlValue) (e : EntryRow) :
    Prop where
  carries : CarriesEntry t r e.entry
  id : t.value r "id" = .int e.id
  reference : e.entry.reference = ref e.id
  supersededBy : t.value r "superseded_by" = .ofInt e.supersededBy

theorem readsRow_of_decodeEntry {t : SqlTable} {r : String → SqlValue} {e : EntryRow}
    (h : decodeEntry (t.values entryColumns r) = .ok e) :
    ReadsRow t entryRef r e ∧ t.value r "uuid" = .ofText e.entry.uuid ∧ e.entry.ns = none := by
  unfold decodeEntry at h
  rcases except_bind_ok h with ⟨id, hid, h⟩
  rcases except_bind_ok h with ⟨kind, hkind, h⟩
  rcases except_bind_ok h with ⟨title, htitle, h⟩
  rcases except_bind_ok h with ⟨body, hbody, h⟩
  rcases except_bind_ok h with ⟨tags, htags, h⟩
  rcases except_bind_ok h with ⟨linked, hlinked, h⟩
  rcases except_bind_ok h with ⟨created, hcreated, h⟩
  rcases except_bind_ok h with ⟨status, hstatus, h⟩
  rcases except_bind_ok h with ⟨superseded, hsuperseded, h⟩
  rcases except_bind_ok h with ⟨sourceRef, hsourceRef, h⟩
  rcases except_bind_ok h with ⟨validAt, hvalid, h⟩
  rcases except_bind_ok h with ⟨invalidAt, hinvalid, h⟩
  rcases except_bind_ok h with ⟨uuid, huuid, h⟩
  rcases except_bind_ok h with ⟨remoteId, hremote, h⟩
  rcases except_bind_ok h with ⟨entityId, hentity, h⟩
  cases h
  refine ⟨⟨⟨Option.some.inj (of_getText hkind), Option.some.inj (of_getText htitle),
    Option.some.inj (of_getText hbody), ⟨tags, Option.some.inj (of_getOptText htags), rfl⟩,
    ⟨linked, Option.some.inj (of_getOptText hlinked), rfl⟩,
    Option.some.inj (of_getInt hcreated), Option.some.inj (of_getOptText hstatus),
    Option.some.inj (of_getOptText hsourceRef), Option.some.inj (of_getOptInt hvalid),
    Option.some.inj (of_getOptInt hinvalid), Option.some.inj (of_getOptText hremote),
    Option.some.inj (of_getOptText hentity)⟩, Option.some.inj (of_getInt hid), rfl,
    Option.some.inj (of_getOptInt hsuperseded)⟩, Option.some.inj (of_getOptText huuid), rfl⟩

theorem readsRow_of_decodeNamespaced {t : SqlTable} {slug : ℤ → Option String}
    {r : String → SqlValue} {e : EntryRow}
    (h : decodeNamespaced slug (t.values namespacedColumns r) = .ok e) :
    ReadsRow t namespacedRef r e ∧ e.entry.uuid = none ∧
      ∃ p, t.value r "project_id" = .ofInt p ∧ e.entry.ns = p.bind slug := by
  unfold decodeNamespaced at h
  rcases except_bind_ok h with ⟨id, hid, h⟩
  rcases except_bind_ok h with ⟨project, hproject, h⟩
  rcases except_bind_ok h with ⟨kind, hkind, h⟩
  rcases except_bind_ok h with ⟨title, htitle, h⟩
  rcases except_bind_ok h with ⟨body, hbody, h⟩
  rcases except_bind_ok h with ⟨tags, htags, h⟩
  rcases except_bind_ok h with ⟨linked, hlinked, h⟩
  rcases except_bind_ok h with ⟨created, hcreated, h⟩
  rcases except_bind_ok h with ⟨status, hstatus, h⟩
  rcases except_bind_ok h with ⟨superseded, hsuperseded, h⟩
  rcases except_bind_ok h with ⟨sourceRef, hsourceRef, h⟩
  rcases except_bind_ok h with ⟨validAt, hvalid, h⟩
  rcases except_bind_ok h with ⟨invalidAt, hinvalid, h⟩
  rcases except_bind_ok h with ⟨remoteId, hremote, h⟩
  rcases except_bind_ok h with ⟨entityId, hentity, h⟩
  cases h
  refine ⟨⟨⟨Option.some.inj (of_getText hkind), Option.some.inj (of_getText htitle),
    Option.some.inj (of_getText hbody), ⟨tags, Option.some.inj (of_getOptText htags), rfl⟩,
    ⟨linked, Option.some.inj (of_getOptText hlinked), rfl⟩,
    Option.some.inj (of_getInt hcreated), Option.some.inj (of_getOptText hstatus),
    Option.some.inj (of_getOptText hsourceRef), Option.some.inj (of_getOptInt hvalid),
    Option.some.inj (of_getOptInt hinvalid), Option.some.inj (of_getOptText hremote),
    Option.some.inj (of_getOptText hentity)⟩, Option.some.inj (of_getInt hid), rfl,
    Option.some.inj (of_getOptInt hsuperseded)⟩, rfl,
    project, Option.some.inj (of_getOptInt hproject), rfl⟩

/-! ### Links -/

/-- The kind and the ends of a link. -/
def Relationship.ends (q : Relationship) : String × String × String :=
  (q.kindTag, q.fromRef, q.toRef)

theorem Relationship.ext_ends {q q' : Relationship} (h : q.ends = q'.ends)
    (ht : q.createdAt = q'.createdAt) : q = q' := by
  rcases q with ⟨_, _, _, _, _, rfl⟩
  rcases q' with ⟨_, _, _, _, _, rfl⟩
  simp only [Relationship.ends, Prod.mk.injEq] at h
  simp_all

theorem sameLink_iff {q q' : Relationship} : sameLink q q' = true ↔ q.ends = q'.ends := by
  simp [sameLink, Relationship.ends, and_assoc]

theorem StoredLink.ends_relationship (ref : ℤ → String) (l : StoredLink) :
    (l.relationship ref).ends = (l.kind, ref l.source, ref l.target) :=
  rfl

/-- A link with both its ends in the store. -/
def StoredLink.Whole (present : List ℤ) (l : StoredLink) : Prop :=
  l.source ∈ present ∧ l.target ∈ present

/-- The links of the facts read so far: each fact comes with what is said when it is dropped. -/
structure Gathered (present : List ℤ) (ref : ℤ → String) (facts : List (StoredLink × String))
    (s : Links) : Prop where
  distinct : (s.rels.map Relationship.ends).Nodup
  recorded : ∀ q ∈ s.rels, ∃ f ∈ facts, f.1.Whole present ∧ q = f.1.relationship ref
  carried : ∀ f ∈ facts, f.1.Whole present → ∃ q ∈ s.rels,
    q.ends = (f.1.relationship ref).ends ∧ (f.1.createdAt.isSome → q.createdAt.isSome)
  warned : ∀ w, w ∈ s.warnings ↔ ∃ f ∈ facts, f.2 = w ∧ ¬ f.1.Whole present

section Gathering

variable {present : List ℤ} {ref : ℤ → String} {facts : List (StoredLink × String)} {s : Links}

theorem Gathered.nil : Gathered present ref [] ⟨[], []⟩ := by
  constructor <;> simp

theorem Gathered.warn {f : StoredLink × String} (h : Gathered present ref facts s)
    (hf : ¬ f.1.Whole present) :
    Gathered present ref (facts ++ [f]) { s with warnings := s.warnings ++ [f.2] } := by
  constructor
  · exact h.distinct
  · intro q hq
    rcases h.recorded q hq with ⟨g, hg, hrest⟩
    exact ⟨g, by simp [hg], hrest⟩
  · intro g hg hw
    rcases List.mem_append.1 hg with hg | hg
    · exact h.carried g hg hw
    · rw [List.mem_singleton.1 hg] at hw
      exact absurd hw hf
  · intro w
    simp only [List.mem_append, h.warned, List.mem_singleton]
    grind

/-- A fact whose link is there already. -/
theorem Gathered.known {f : StoredLink × String} {q : Relationship}
    (h : Gathered present ref facts s) (hf : f.1.Whole present) (hq : q ∈ s.rels)
    (hends : q.ends = (f.1.relationship ref).ends)
    (htime : f.1.createdAt.isSome → q.createdAt.isSome) :
    Gathered present ref (facts ++ [f]) s := by
  constructor
  · exact h.distinct
  · intro p hp
    rcases h.recorded p hp with ⟨g, hg, hrest⟩
    exact ⟨g, by simp [hg], hrest⟩
  · intro g hg hw
    rcases List.mem_append.1 hg with hg | hg
    · exact h.carried g hg hw
    · rw [List.mem_singleton.1 hg]
      exact ⟨q, hq, hends, htime⟩
  · intro w
    simp only [List.mem_append, h.warned, List.mem_singleton]
    grind

/-- A new link, or one in place of a link without a time. -/
theorem Gathered.put {f : StoredLink × String} {rels : List Relationship}
    (h : Gathered present ref facts s) (hf : f.1.Whole present)
    (hsub : rels.Sublist s.rels)
    (hrest : ∀ q ∈ s.rels, q ∉ rels →
      q.ends = (f.1.relationship ref).ends ∧ q.createdAt = none)
    (hnew : ∀ q ∈ rels, q.ends ≠ (f.1.relationship ref).ends) :
    Gathered present ref (facts ++ [f])
      { s with rels := rels ++ [f.1.relationship ref] } := by
  constructor
  · rw [List.map_append, List.map_singleton, List.nodup_append]
    refine ⟨(hsub.map _).nodup h.distinct, by simp, ?_⟩
    intro a ha b hb hab
    rcases List.mem_map.1 ha with ⟨q, hq, rfl⟩
    rw [List.mem_singleton.1 hb] at hab
    exact hnew q hq hab
  · intro q hq
    rcases List.mem_append.1 hq with hq | hq
    · rcases h.recorded q (hsub.subset hq) with ⟨g, hg, hrest⟩
      exact ⟨g, by simp [hg], hrest⟩
    · exact ⟨f, by simp, hf, List.mem_singleton.1 hq⟩
  · intro g hg hw
    rcases List.mem_append.1 hg with hg | hg
    · rcases h.carried g hg hw with ⟨q, hq, hends, htime⟩
      by_cases hkept : q ∈ rels
      · exact ⟨q, by simp [hkept], hends, htime⟩
      · rcases hrest q hq hkept with ⟨hsame, hnone⟩
        refine ⟨_, List.mem_append_right _ (List.mem_singleton.2 rfl),
          hsame.symm.trans hends, fun hg => ?_⟩
        have := htime hg
        rw [hnone] at this
        exact absurd this (by simp)
    · rw [List.mem_singleton.1 hg]
      exact ⟨_, List.mem_append_right _ (List.mem_singleton.2 rfl), rfl, id⟩
  · intro w
    simp only [List.mem_append, h.warned, List.mem_singleton]
    grind

/-- A link of the lifecycle column, with what is said when its successor is missing. -/
def supersededFact (link : ℤ × ℤ) : StoredLink × String :=
  (⟨"supersedes", link.1, link.2, none⟩, successorWarning link.1 link.2)

/-- A row of the edge table, with what is said when an end is missing. -/
def edgeFact (l : StoredLink) : StoredLink × String :=
  (l, edgeWarning l)

/-- A dependency, with what is said when a project is missing. -/
def dependencyFact (dep : ℤ × ℤ) : StoredLink × String :=
  (⟨"depends_on", dep.1, dep.2, none⟩, dependencyWarning dep.1 dep.2)

/-- No link of the lifecycle column has a time, so the set has each of them once. -/
theorem gathered_addSuperseded {link : ℤ × ℤ} (h : Gathered present ref facts s)
    (htimes : ∀ q ∈ s.rels, q.createdAt = none) (hpresent : link.2 ∈ present) :
    Gathered present ref (facts ++ [supersededFact link]) (addSuperseded present ref s link) ∧
      ∀ q ∈ (addSuperseded present ref s link).rels, q.createdAt = none := by
  unfold addSuperseded
  by_cases hs : link.1 ∉ present
  · rw [if_pos hs]
    exact ⟨h.warn (f := supersededFact link) fun hw => hs hw.1, htimes⟩
  · rw [if_neg hs]
    have hwhole : (supersededFact link).1.Whole present := ⟨not_not.1 hs, hpresent⟩
    unfold insertRel
    by_cases hmem : StoredLink.relationship ref ⟨"supersedes", link.1, link.2, none⟩ ∈ s.rels
    · rw [if_pos hmem]
      exact ⟨h.known hwhole hmem rfl (by simp [supersededFact]), htimes⟩
    · rw [if_neg hmem]
      refine ⟨h.put hwhole (List.Sublist.refl _) (fun q hq hnot => absurd hq hnot) ?_, ?_⟩
      · intro q hq hends
        exact hmem (Relationship.ext_ends hends (htimes q hq) ▸ hq)
      · intro q hq
        rcases List.mem_append.1 hq with hq | hq
        · exact htimes q hq
        · rw [List.mem_singleton.1 hq]
          rfl

theorem gathered_addStoredEdge {l : StoredLink} (h : Gathered present ref facts s) :
    Gathered present ref (facts ++ [edgeFact l]) (addStoredEdge present ref s l) := by
  unfold addStoredEdge
  by_cases hs : l.source ∉ present ∨ l.target ∉ present
  · rw [if_pos hs]
    exact h.warn (f := edgeFact l) fun hw => hs.elim (· hw.1) (· hw.2)
  rw [if_neg hs]
  have hwhole : (edgeFact l).1.Whole present := by
    rw [not_or, not_not, not_not] at hs
    exact hs
  have hinsert : ∀ rels : List Relationship,
      (∀ q ∈ rels, q.ends ≠ (l.relationship ref).ends) →
      insertRel (l.relationship ref) rels = rels ++ [l.relationship ref] :=
    fun rels hrels => if_neg fun hmem => hrels _ hmem rfl
  simp only
  split
  · next prev hprev =>
    have hmem := List.mem_of_find?_eq_some hprev
    have hsame : sameLink prev (l.relationship ref) = true :=
      List.find?_some (p := fun q => sameLink q (l.relationship ref)) hprev
    have hends : prev.ends = (l.relationship ref).ends := sameLink_iff.1 hsame
    split
    · -- the recorded time takes the place of none
      next htime =>
      rw [Bool.and_eq_true, Option.isNone_iff_eq_none] at htime
      have hother : ∀ q ∈ s.rels.filter (· ≠ prev), q.ends ≠ (l.relationship ref).ends := by
        intro q hq hsame
        rw [List.mem_filter, decide_eq_true_iff] at hq
        exact hq.2 (List.inj_on_of_nodup_map h.distinct hq.1 hmem (hsame.trans hends.symm))
      rw [hinsert _ hother]
      refine h.put (f := edgeFact l) hwhole List.filter_sublist ?_ hother
      intro q hq hnot
      have hq : q = prev := by
        by_contra hne
        exact hnot (List.mem_filter.2 ⟨hq, by simpa using hne⟩)
      rw [hq]
      exact ⟨hends, htime.1⟩
    · next htime =>
      refine h.known hwhole hmem hends fun hsome => ?_
      have hsome : (l.relationship ref).createdAt.isSome = true := hsome
      rw [hsome, Bool.and_true, Bool.not_eq_true] at htime
      rw [← Option.not_isNone, htime]
      rfl
  · next hnone =>
    have hother : ∀ q ∈ s.rels, q.ends ≠ (l.relationship ref).ends := fun q hq hsame =>
      List.find?_eq_none.1 hnone q hq (sameLink_iff.2 hsame)
    rw [hinsert _ hother]
    exact h.put (f := edgeFact l) hwhole (List.Sublist.refl _)
      (fun q hq hnot => absurd hq hnot) hother

/-- A dependency is new where no earlier one has both its ends. -/
theorem gathered_addDependency {dep : ℤ × ℤ} {earlier : List (ℤ × ℤ)}
    (href : Function.Injective ref) (hnew : dep ∉ earlier)
    (h : Gathered present ref (earlier.map dependencyFact) s)
    (hp : ref = projectRef) :
    Gathered present ref (earlier.map dependencyFact ++ [dependencyFact dep])
      (addDependency present s dep) := by
  subst hp
  unfold addDependency
  by_cases hs : dep.1 ∉ present ∨ dep.2 ∉ present
  · rw [if_pos hs]
    exact h.warn (f := dependencyFact dep) fun hw => hs.elim (· hw.1) (· hw.2)
  · rw [if_neg hs]
    rw [not_or, not_not, not_not] at hs
    refine h.put (f := dependencyFact dep) hs (List.Sublist.refl _)
      (fun q hq hnot => absurd hq hnot) ?_
    intro q hq hends
    rcases h.recorded q hq with ⟨f, hf, -, rfl⟩
    rcases List.mem_map.1 hf with ⟨d, hd, rfl⟩
    simp only [StoredLink.ends_relationship, dependencyFact, Prod.mk.injEq, true_and] at hends
    exact hnew (Prod.ext (href hends.1) (href hends.2) ▸ hd)

end Gathering

/-- The links of the lifecycle column. -/
def supersededOf (entries : List EntryRow) : List (ℤ × ℤ) :=
  entries.filterMap fun e => e.supersededBy.map fun s => (s, e.id)

theorem gathered_supersededOf {present : List ℤ} {ref : ℤ → String} :
    ∀ links : List (ℤ × ℤ), (∀ link ∈ links, link.2 ∈ present) →
      Gathered present ref (links.map supersededFact)
          (links.foldl (addSuperseded present ref) ⟨[], []⟩) ∧
        ∀ q ∈ (links.foldl (addSuperseded present ref) ⟨[], []⟩).rels, q.createdAt = none := by
  intro links
  induction links using List.reverseRecOn with
  | nil => exact fun _ => ⟨.nil, by simp⟩
  | append_singleton links link ih =>
    intro hpresent
    rcases ih fun l hl => hpresent l (List.mem_append_left _ hl) with ⟨h, htimes⟩
    rw [List.foldl_append, List.map_append]
    exact gathered_addSuperseded h htimes (hpresent link (by simp))

theorem gathered_edges {present : List ℤ} {ref : ℤ → String}
    {facts : List (StoredLink × String)} {s : Links} (h : Gathered present ref facts s) :
    ∀ edges : List StoredLink, Gathered present ref (facts ++ edges.map edgeFact)
      (edges.foldl (addStoredEdge present ref) s) := by
  intro edges
  induction edges using List.reverseRecOn with
  | nil => rw [List.map_nil, List.append_nil]; exact h
  | append_singleton edges l ih =>
    rw [List.foldl_append, List.map_append, ← List.append_assoc]
    exact gathered_addStoredEdge ih

/-- The links of the entries are those of both encodings. -/
theorem gathered_entryLinks (ref : ℤ → String) (entries : List EntryRow)
    (edges : List StoredLink) :
    Gathered (entries.map EntryRow.id) ref
      ((supersededOf entries).map supersededFact ++ edges.map edgeFact)
      (entryLinks ref entries edges) := by
  refine gathered_edges (gathered_supersededOf (supersededOf entries) ?_).1 edges
  intro link hlink
  rcases List.mem_filterMap.1 hlink with ⟨e, he, hlink⟩
  rcases Option.map_eq_some_iff.1 hlink with ⟨s, -, rfl⟩
  exact List.mem_map_of_mem he

theorem gathered_projectLinks (projects : List (ℤ × DumpProject))
    (hinj : Function.Injective projectRef) :
    ∀ deps : List (ℤ × ℤ), deps.Nodup →
      Gathered (projects.map Prod.fst) projectRef (deps.map dependencyFact)
        (projectLinks projects deps) := by
  intro deps
  unfold projectLinks
  induction deps using List.reverseRecOn with
  | nil => exact fun _ => .nil
  | append_singleton deps dep ih =>
    intro hnodup
    rw [List.nodup_append] at hnodup
    rw [List.foldl_append, List.map_append]
    refine gathered_addDependency hinj ?_ (ih hnodup.1) rfl
    exact fun hmem => hnodup.2.2 dep hmem dep (by simp) rfl

/-! ### The store -/

theorem entryRef_injective : Function.Injective entryRef := fun _ _ h =>
  Int.repr_injective (String.append_right_inj "e" |>.1 h)

theorem namespacedRef_injective : Function.Injective namespacedRef := fun _ _ h =>
  Int.repr_injective (String.append_right_inj "n" |>.1 h)

theorem projectRef_injective : Function.Injective projectRef := fun _ _ h =>
  Int.repr_injective (String.append_right_inj "p" |>.1 h)

theorem usageRef_injective : Function.Injective usageRef := fun _ _ h =>
  Nat.repr_injective (String.append_right_inj "u" |>.1 h)

/-- What a reference is to: its first character says. -/
def refKind (s : String) : Option Char :=
  s.toList.head?

@[simp] theorem refKind_entryRef (i : ℤ) : refKind (entryRef i) = some 'e' := by
  simp [refKind, entryRef]

@[simp] theorem refKind_namespacedRef (i : ℤ) : refKind (namespacedRef i) = some 'n' := by
  simp [refKind, namespacedRef]

@[simp] theorem refKind_projectRef (i : ℤ) : refKind (projectRef i) = some 'p' := by
  simp [refKind, projectRef]

@[simp] theorem refKind_usageRef (n : ℕ) : refKind (usageRef n) = some 'u' := by
  simp [refKind, usageRef]

/-- A store of many projects has a project in every row. -/
def SqlTable.Namespaced (t : SqlTable) : Prop :=
  "project_id" ∈ t.columns

instance (t : SqlTable) : Decidable t.Namespaced :=
  inferInstanceAs (Decidable (_ ∈ _))

/-- The table of the links of a table of notes. -/
def SqlTable.edgeTable (t : SqlTable) : String :=
  if t.Namespaced then "note_edges" else "memory_edges"

/-- The references to the rows of a table of notes. -/
def SqlTable.noteRef (t : SqlTable) : ℤ → String :=
  if t.Namespaced then namespacedRef else entryRef

theorem SqlTable.noteRef_injective (t : SqlTable) : Function.Injective t.noteRef := by
  unfold noteRef
  split
  · exact namespacedRef_injective
  · exact entryRef_injective

/-- What a link is between. -/
inductive LinkEnd where
  | entry (id : ℤ)
  | project (id : ℤ)

namespace ExportStore

variable (store : ExportStore)

/-- The table of a registry. -/
def IsRegistry (t : SqlTable) : Prop :=
  store.table "projects" = some t ∧ "root_path" ∈ t.columns

/-- An end is in the store, under a reference. -/
inductive Held : LinkEnd → String → Prop where
  | entry {t : SqlTable} {r : String → SqlValue} {id : ℤ} (ht : store.table "notes" = some t)
    (hr : r ∈ t.rows) (hid : t.value r "id" = .int id) : Held (.entry id) (t.noteRef id)
  | project {t : SqlTable} {r : String → SqlValue} {id : ℤ} (ht : store.IsRegistry t)
    (hr : r ∈ t.rows) (hid : t.value r "id" = .int id) : Held (.project id) (projectRef id)

/-- A link the store records: its kind, its ends, its time, and what is said of it when it is
    dropped. -/
inductive Fact : String → LinkEnd → LinkEnd → Option ℤ → String → Prop where
  /-- The lifecycle column of the predecessor names the successor. -/
  | lifecycle {t : SqlTable} {r : String → SqlValue} {successor predecessor : ℤ}
    (ht : store.table "notes" = some t) (hr : r ∈ t.rows)
    (hid : t.value r "id" = .int predecessor)
    (hby : t.value r "superseded_by" = .int successor) :
    Fact "supersedes" (.entry successor) (.entry predecessor) none
      (successorWarning successor predecessor)
  | edge {t edges : SqlTable} {r : String → SqlValue} {l : StoredLink}
    (ht : store.table "notes" = some t) (hedges : store.table t.edgeTable = some edges)
    (hr : r ∈ edges.rows) (hsource : edges.value r "from_id" = .int l.source)
    (htarget : edges.value r "to_id" = .int l.target)
    (hkind : edges.value r "kind" = .text l.kind)
    (htime : edges.value r "created_at" = .ofInt l.createdAt) :
    Fact l.kind (.entry l.source) (.entry l.target) l.createdAt (edgeWarning l)
  | dependency {t deps : SqlTable} {r : String → SqlValue} {source target : ℤ}
    (ht : store.IsRegistry t) (hdeps : store.table "project_deps" = some deps)
    (hr : r ∈ deps.rows) (hsource : deps.value r "project_id" = .int source)
    (htarget : deps.value r "dep_id" = .int target) :
    Fact "depends_on" (.project source) (.project target) none
      (dependencyWarning source target)

/-- The slug of a project in a store of many. -/
def Slug (id : ℤ) (slug : String) : Prop :=
  ∃ t, store.table "projects" = some t ∧ "slug" ∈ t.columns ∧
    ∃ r ∈ t.rows, t.value r "id" = .int id ∧ t.value r "slug" = .text slug

end ExportStore

/-- The identity of an entry: a store of many projects carries the project, and no uuid. -/
def CarriesIdentity (store : ExportStore) (t : SqlTable) (r : String → SqlValue)
    (e : MemoryEntry) : Prop :=
  if t.Namespaced then
    e.uuid = none ∧ ∀ s, e.ns = some s ↔
      ∃ p, t.value r "project_id" = .int p ∧ store.Slug p s
  else t.value r "uuid" = .ofText e.uuid ∧ e.ns = none

/-- The entities of a dump are the authored rows of the store, each of them once. -/
structure EntitiesCarried (store : ExportStore) (d : Dump) : Prop where
  noEntries : store.table "notes" = none → d.entries = []
  entries : ∀ t, store.table "notes" = some t → ∃ rs : List (String → SqlValue),
    rs.Perm t.rows ∧ Forall₂ (fun r e => CarriesEntry t r e ∧ CarriesIdentity store t r e ∧
      ∃ id, t.value r "id" = .int id ∧ e.reference = t.noteRef id) rs d.entries
  noProjects : (∀ t, ¬ store.IsRegistry t) → d.projects = []
  projects : ∀ t, store.IsRegistry t → ∃ rs : List (String → SqlValue),
    rs.Perm t.rows ∧ Forall₂ (fun r p => t.value r "root_path" = .text p.rootPath ∧
      t.value r "registered_at" = .ofInt p.registeredAt ∧
      ∃ id, t.value r "id" = .int id ∧ p.reference = projectRef id) rs d.projects
  noUsage : store.table "usage" = none → d.usage = []
  usage : ∀ t, store.table "usage" = some t → ∃ rs : List (String → SqlValue),
    rs.Perm t.rows ∧ Forall₂ (fun r u => t.value r "command" = .text u.command ∧
      t.value r "called_at" = .int u.usedAt) rs d.usage

/-- The relationships of a dump are the links with both ends in the store, one for each kind
    and ends; the others are in the warnings. -/
structure LinksCarried (store : ExportStore) (rels : List Relationship)
    (warnings : List String) : Prop where
  distinct : (rels.map Relationship.ends).Nodup
  recorded : ∀ q ∈ rels, ∃ a b w, store.Fact q.kindTag a b q.createdAt w ∧
    store.Held a q.fromRef ∧ store.Held b q.toRef
  carried : ∀ kind a b time w ra rb, store.Fact kind a b time w → store.Held a ra →
    store.Held b rb → ∃ q ∈ rels, q.ends = (kind, ra, rb) ∧ (time.isSome → q.createdAt.isSome)
  warned : ∀ w, w ∈ warnings ↔ ∃ kind a b time, store.Fact kind a b time w ∧
    ¬ ((∃ ra, store.Held a ra) ∧ ∃ rb, store.Held b rb)

theorem SqlValue.ofInt_eq_int {n : Option ℤ} {m : ℤ} :
    (.int m : SqlValue) = .ofInt n ↔ n = some m := by
  cases n <;> simp [ofInt, eq_comm]

section Reading

variable {store : ExportStore}

theorem value_of_mem {t : SqlTable} {c : String} (h : c ∈ t.columns) (r : String → SqlValue) :
    t.value r c = r c :=
  if_pos h

/-- The slugs that are read are those of the projects. -/
theorem slugOf_eq_some_iff {slugs : List (ℤ × String)} (h : readSlugs store = .ok slugs)
    {p : ℤ} {s : String} : slugOf slugs p = some s ↔ store.Slug p s := by
  unfold readSlugs at h
  unfold ExportStore.Slug slugOf
  split at h
  · next hnone =>
    cases h
    simp [hnone]
  · next t ht =>
    by_cases hslug : "slug" ∉ t.columns
    · rw [if_pos hslug] at h
      cases h
      simp [ht, hslug]
    rw [if_neg hslug] at h
    rcases SqlTable.rows_of_select h with ⟨rs, hperm, hall⟩
    rcases except_bind_ok h with ⟨_, hselect, -⟩
    have hcol : "id" ∈ t.columns := SqlTable.mem_columns_of_select hselect (by simp)
    have hread : Forall₂ (fun r (q : ℤ × String) => t.value r "id" = .int q.1 ∧
        t.value r "slug" = .text q.2) rs slugs := by
      refine hall.imp fun r q hq => ?_
      rcases except_bind_ok hq with ⟨id, hid, hq⟩
      rcases except_bind_ok hq with ⟨slug, hs, hq⟩
      cases hq
      exact ⟨Option.some.inj (of_getInt hid), Option.some.inj (of_getText hs)⟩
    have hnodup : (slugs.map Prod.fst).Nodup :=
      nodup_of_read (g := SqlValue.int) (store.projectIds t ht) hperm hread fun r q hq => by
        rw [← value_of_mem hcol r]
        exact hq.1
    rw [Option.map_eq_some_iff]
    constructor
    · rintro ⟨q, hq, rfl⟩
      have hp : q.1 = p := by simpa using List.find?_some hq
      rcases row_of_read hperm hread (List.mem_of_find?_eq_some hq) with ⟨r, hr, hid, hs⟩
      exact ⟨t, ht, not_not.1 hslug, r, hr, by rw [hid, hp], hs⟩
    · rintro ⟨t', ht', -, r, hr, hid, hs⟩
      obtain rfl : t = t' := Option.some.inj (ht.symm.trans ht')
      rcases read_of_row hperm hread hr with ⟨q, hq, hqid, hqs⟩
      have hqp : q.1 = p := SqlValue.int.inj (hqid.symm.trans hid)
      have hqs : q.2 = s := SqlValue.text.inj (hqs.symm.trans hs)
      cases hfind : slugs.find? (·.1 = p) with
      | none =>
        exact absurd hqp (by simpa using List.find?_eq_none.1 hfind q hq)
      | some q' =>
        have hq' : q'.1 = p := by simpa using List.find?_some hfind
        refine ⟨q', rfl, ?_⟩
        rw [List.inj_on_of_nodup_map hnodup (List.mem_of_find?_eq_some hfind) hq
          (hq'.trans hqp.symm), hqs]

/-- What the table of notes is read as. -/
theorem notes_of_readAllEntries {t : SqlTable} {entries : List EntryRow} {links : Links}
    (ht : store.table "notes" = some t) (h : readAllEntries store = .ok (entries, links)) :
    "id" ∈ t.columns ∧
    (∃ rs : List (String → SqlValue), rs.Perm t.rows ∧
      Forall₂ (fun r e => ReadsRow t t.noteRef r e ∧ CarriesIdentity store t r e.entry)
        rs entries) ∧
    ∃ edges, readEdges store t.edgeTable = .ok edges ∧
      links = entryLinks t.noteRef entries edges := by
  unfold readAllEntries at h
  rw [ht] at h
  simp only at h
  by_cases hnamespaced : "project_id" ∈ t.columns
  · have hn : t.Namespaced := hnamespaced
    rw [if_pos hnamespaced] at h
    rcases except_bind_ok h with ⟨_, -, h⟩
    rcases except_bind_ok h with ⟨slugs, hslugs, h⟩
    rcases except_bind_ok h with ⟨rows, hrows, h⟩
    rcases except_bind_ok h with ⟨_, hentries, h⟩
    rcases except_bind_ok h with ⟨edges, hedges, h⟩
    cases h
    have hselect : t.select namespacedColumns ["id"] >>=
        List.mapM (decodeNamespaced (slugOf slugs)) = .ok entries := by
      rw [hrows]
      exact hentries
    rcases SqlTable.rows_of_select hselect with ⟨rs, hperm, hall⟩
    refine ⟨SqlTable.mem_columns_of_select hrows (by simp [namespacedColumns]), ⟨rs, hperm,
      hall.imp fun r e he => ?_⟩, edges, ?_, ?_⟩
    · rcases readsRow_of_decodeNamespaced he with ⟨hreads, huuid, p, hp, hns⟩
      unfold SqlTable.noteRef CarriesIdentity
      rw [if_pos hn, if_pos hn]
      refine ⟨hreads, huuid, fun s => ?_⟩
      rw [hns, Option.bind_eq_some_iff]
      refine exists_congr fun a => ?_
      rw [slugOf_eq_some_iff hslugs, hp, eq_comm (a := SqlValue.ofInt p), SqlValue.ofInt_eq_int]
    · unfold SqlTable.edgeTable
      rw [if_pos hn]
      exact hedges
    · unfold SqlTable.noteRef
      rw [if_pos hn]
  · have hn : ¬ t.Namespaced := hnamespaced
    rw [if_neg hnamespaced] at h
    rcases except_bind_ok h with ⟨_, -, h⟩
    rcases except_bind_ok h with ⟨rows, hrows, h⟩
    rcases except_bind_ok h with ⟨_, hentries, h⟩
    rcases except_bind_ok h with ⟨edges, hedges, h⟩
    cases h
    have hselect : t.select entryColumns ["id"] >>= List.mapM decodeEntry = .ok entries := by
      rw [hrows]
      exact hentries
    rcases SqlTable.rows_of_select hselect with ⟨rs, hperm, hall⟩
    refine ⟨SqlTable.mem_columns_of_select hrows (by simp [entryColumns]), ⟨rs, hperm,
      hall.imp fun r e he => ?_⟩, edges, ?_, ?_⟩
    · unfold SqlTable.noteRef CarriesIdentity
      rw [if_neg hn, if_neg hn]
      exact readsRow_of_decodeEntry he
    · unfold SqlTable.edgeTable
      rw [if_neg hn]
      exact hedges
    · unfold SqlTable.noteRef
      rw [if_neg hn]

/-- The edge table is read row by row, and is empty where there is none. -/
theorem mem_readEdges {table : String} {edges : List StoredLink}
    (h : readEdges store table = .ok edges) {l : StoredLink} :
    l ∈ edges ↔ ∃ t, store.table table = some t ∧ ∃ r ∈ t.rows,
      t.value r "from_id" = .int l.source ∧ t.value r "to_id" = .int l.target ∧
      t.value r "kind" = .text l.kind ∧ t.value r "created_at" = .ofInt l.createdAt := by
  unfold readEdges at h
  split at h
  · next hnone =>
    cases h
    simp [hnone]
  · next t ht =>
    rcases SqlTable.rows_of_select h with ⟨rs, hperm, hall⟩
    have hread : Forall₂ (fun r (l : StoredLink) => t.value r "from_id" = .int l.source ∧
        t.value r "to_id" = .int l.target ∧ t.value r "kind" = .text l.kind ∧
        t.value r "created_at" = .ofInt l.createdAt) rs edges := by
      refine hall.imp fun r l hl => ?_
      unfold decodeEdge at hl
      rcases except_bind_ok hl with ⟨source, hsource, hl⟩
      rcases except_bind_ok hl with ⟨target, htarget, hl⟩
      rcases except_bind_ok hl with ⟨kind, hkind, hl⟩
      rcases except_bind_ok hl with ⟨time, htime, hl⟩
      cases hl
      exact ⟨Option.some.inj (of_getInt hsource), Option.some.inj (of_getInt htarget),
        Option.some.inj (of_getText hkind), Option.some.inj (of_getOptInt htime)⟩
    constructor
    · intro hl
      rcases row_of_read hperm hread hl with ⟨r, hr, hrl⟩
      exact ⟨t, ht, r, hr, hrl⟩
    · rintro ⟨t', ht', r, hr, hsource, htarget, hkind, htime⟩
      obtain rfl : t = t' := Option.some.inj (ht.symm.trans ht')
      rcases read_of_row hperm hread hr with ⟨l', hl', hsource', htarget', hkind', htime'⟩
      rw [hsource'] at hsource
      rw [htarget'] at htarget
      rw [hkind'] at hkind
      rw [htime'] at htime
      have htime : l'.createdAt = l.createdAt := by
        rcases l' with ⟨_, _, _, _ | _⟩ <;> rcases l with ⟨_, _, _, _ | _⟩ <;>
          simp_all [SqlValue.ofInt]
      rcases l' with ⟨kind', source', target', time'⟩
      rcases l with ⟨kind, source, target, time⟩
      cases hsource
      cases htarget
      cases hkind
      cases htime
      exact hl'

end Reading

/-- What the tables of a registry are read as. -/
theorem registry_of_readProjects {store : ExportStore} {projects : List (ℤ × DumpProject)}
    {deps : List (ℤ × ℤ)} (h : readProjects store = .ok (projects, deps)) :
    ((∀ t, ¬ store.IsRegistry t) → projects = [] ∧ deps = []) ∧
    ∀ t, store.IsRegistry t → (projects.map Prod.fst).Nodup ∧ deps.Nodup ∧
      (∃ rs : List (String → SqlValue), rs.Perm t.rows ∧
        Forall₂ (fun r p => t.value r "id" = .int p.1 ∧
          t.value r "root_path" = .text p.2.rootPath ∧
          t.value r "registered_at" = .ofInt p.2.registeredAt ∧
          p.2.reference = projectRef p.1) rs projects) ∧
      ∀ d, d ∈ deps ↔ ∃ t', store.table "project_deps" = some t' ∧ ∃ r ∈ t'.rows,
        t'.value r "project_id" = .int d.1 ∧ t'.value r "dep_id" = .int d.2 := by
  unfold readProjects at h
  split at h
  · next hnone =>
    cases h
    exact ⟨fun _ => ⟨rfl, rfl⟩, fun t ht => by
      have := hnone.symm.trans ht.1
      exact absurd this (by simp)⟩
  next t ht =>
  by_cases hroot : "root_path" ∉ t.columns
  · rw [if_pos hroot] at h
    cases h
    refine ⟨fun _ => ⟨rfl, rfl⟩, fun t' ht' => ?_⟩
    obtain rfl : t = t' := Option.some.inj (ht.symm.trans ht'.1)
    exact absurd ht'.2 hroot
  rw [if_neg hroot] at h
  refine ⟨fun hnot => absurd ⟨ht, not_not.1 hroot⟩ (hnot t), fun t' ht' => ?_⟩
  obtain rfl : t = t' := Option.some.inj (ht.symm.trans ht'.1)
  rcases except_bind_ok h with ⟨rows, hrows, h⟩
  rcases except_bind_ok h with ⟨ps, hps, h⟩
  have hselect : t.select [need "id", need "root_path", maybe "registered_at"] ["id"] >>=
      List.mapM decodeProject = .ok ps := by
    rw [hrows]
    exact hps
  rcases SqlTable.rows_of_select hselect with ⟨rs, hperm, hall⟩
  have hcol : "id" ∈ t.columns := SqlTable.mem_columns_of_select hrows (by simp)
  have hread : Forall₂ (fun r (p : ℤ × DumpProject) => t.value r "id" = .int p.1 ∧
      t.value r "root_path" = .text p.2.rootPath ∧
      t.value r "registered_at" = .ofInt p.2.registeredAt ∧
      p.2.reference = projectRef p.1) rs ps := by
    refine hall.imp fun r p hp => ?_
    unfold decodeProject at hp
    rcases except_bind_ok hp with ⟨id, hid, hp⟩
    rcases except_bind_ok hp with ⟨root, hroot, hp⟩
    rcases except_bind_ok hp with ⟨time, htime, hp⟩
    cases hp
    exact ⟨Option.some.inj (of_getInt hid), Option.some.inj (of_getText hroot),
      Option.some.inj (of_getOptInt htime), rfl⟩
  have hnodup : (ps.map Prod.fst).Nodup :=
    nodup_of_read (g := SqlValue.int) (store.projectIds t ht) hperm hread fun r p hp => by
      rw [← value_of_mem hcol r]
      exact hp.1
  split at h
  · next hnone =>
    cases h
    exact ⟨hnodup, List.nodup_nil, ⟨rs, hperm, hread⟩, fun d => by simp [hnone]⟩
  · next t' ht' =>
    rcases except_bind_ok h with ⟨rows', hrows', h⟩
    rcases except_bind_ok h with ⟨ds, hds, h⟩
    cases h
    have hselect' : t'.select [need "project_id", need "dep_id"] ["project_id", "dep_id"] >>=
        List.mapM decodeDependency = .ok deps := by
      rw [hrows']
      exact hds
    rcases SqlTable.rows_of_select hselect' with ⟨rs', hperm', hall'⟩
    have hp : "project_id" ∈ t'.columns := SqlTable.mem_columns_of_select hrows' (by simp)
    have hd : "dep_id" ∈ t'.columns := SqlTable.mem_columns_of_select hrows' (by simp)
    have hread' : Forall₂ (fun r (d : ℤ × ℤ) => t'.value r "project_id" = .int d.1 ∧
        t'.value r "dep_id" = .int d.2) rs' deps := by
      refine hall'.imp fun r d hdec => ?_
      unfold decodeDependency at hdec
      rcases except_bind_ok hdec with ⟨source, hsource, hdec⟩
      rcases except_bind_ok hdec with ⟨target, htarget, hdec⟩
      cases hdec
      exact ⟨Option.some.inj (of_getInt hsource), Option.some.inj (of_getInt htarget)⟩
    refine ⟨hnodup, ?_, ⟨rs, hperm, hread⟩, fun d => ⟨fun hmem => ?_, ?_⟩⟩
    · have hpairs : (deps.map id).Nodup :=
        nodup_of_read (f := id) (g := fun d : ℤ × ℤ => (SqlValue.int d.1, SqlValue.int d.2))
          (store.dependencies t' ht') hperm' hread' fun r d hr => by
            rw [← value_of_mem hp r, ← value_of_mem hd r, hr.1, hr.2]
            rfl
      rwa [List.map_id] at hpairs
    · rcases row_of_read hperm' hread' hmem with ⟨r, hr, hrd⟩
      exact ⟨t', ht', r, hr, hrd⟩
    · rintro ⟨t'', ht'', r, hr, h1, h2⟩
      obtain rfl : t' = t'' := Option.some.inj (ht'.symm.trans ht'')
      rcases read_of_row hperm' hread' hr with ⟨d', hd', h1', h2'⟩
      have e1 : d'.1 = d.1 := SqlValue.int.inj (h1'.symm.trans h1)
      have e2 : d'.2 = d.2 := SqlValue.int.inj (h2'.symm.trans h2)
      rwa [← Prod.ext e1 e2]

/-- What the table of the recorded invocations is read as. -/
theorem usage_of_readUsage {store : ExportStore} {usage : List CommandUsage}
    (h : readUsage store = .ok usage) :
    (store.table "usage" = none → usage = []) ∧
    (∀ t, store.table "usage" = some t → ∃ rs : List (String → SqlValue), rs.Perm t.rows ∧
      Forall₂ (fun r u => t.value r "command" = .text u.command ∧
        t.value r "called_at" = .int u.usedAt) rs usage) ∧
    ∃ n, usage.map CommandUsage.reference = (List.range n).map usageRef := by
  unfold readUsage at h
  split at h
  · next hnone =>
    cases h
    exact ⟨fun _ => rfl, fun t ht => by simp [hnone] at ht, 0, rfl⟩
  · next t ht =>
    rcases except_bind_ok h with ⟨selected, hselected, h⟩
    rcases except_bind_ok h with ⟨rows, hrows, h⟩
    cases h
    have hselect : t.select [need "command", need "called_at"] ["called_at"] >>=
        List.mapM decodeUsage = .ok rows := by
      rw [hselected]
      exact hrows
    rcases SqlTable.rows_of_select hselect with ⟨rs, hperm, hall⟩
    refine ⟨fun hnone => by simp [ht] at hnone, fun t' ht' => ?_, rows.length, ?_⟩
    · obtain rfl : t = t' := Option.some.inj (ht.symm.trans ht')
      have hread : Forall₂ (fun r (u : String × ℤ) => t.value r "command" = .text u.1 ∧
          t.value r "called_at" = .int u.2) rs rows := by
        refine hall.imp fun r u hu => ?_
        unfold decodeUsage at hu
        rcases except_bind_ok hu with ⟨command, hcommand, hu⟩
        rcases except_bind_ok hu with ⟨usedAt, hused, hu⟩
        cases hu
        exact ⟨Option.some.inj (of_getText hcommand), Option.some.inj (of_getInt hused)⟩
      refine ⟨rs, hperm, List.forall₂_map_right_iff.2 ?_⟩
      have hzip : rows.zipIdx.map Prod.fst = rows := List.zipIdx_map_fst 0 rows
      rw [← hzip, List.forall₂_map_right_iff] at hread
      exact hread
    · rw [List.map_map, List.range_eq_range', ← List.zipIdx_map_snd 0 rows, List.map_map]
      rfl

/-! ### The dump -/

/-- What one kind of ends says of the links gathered over it. -/
structure Covers (store : ExportStore) (c : ℤ → LinkEnd) (present : List ℤ) (ref : ℤ → String)
    (facts : List (StoredLink × String)) : Prop where
  fact : ∀ l w, (l, w) ∈ facts ↔ store.Fact l.kind (c l.source) (c l.target) l.createdAt w
  held : ∀ i s, store.Held (c i) s ↔ i ∈ present ∧ s = ref i

section Covering

variable {store : ExportStore} {c : ℤ → LinkEnd} {present : List ℤ} {ref : ℤ → String}
  {facts : List (StoredLink × String)} {s : Links}

theorem Covers.whole (hc : Covers store c present ref facts) (l : StoredLink) :
    l.Whole present ↔
      (∃ ra, store.Held (c l.source) ra) ∧ ∃ rb, store.Held (c l.target) rb := by
  simp only [hc.held, StoredLink.Whole]
  constructor
  · rintro ⟨ha, hb⟩
    exact ⟨⟨_, ha, rfl⟩, _, hb, rfl⟩
  · rintro ⟨⟨_, ha, -⟩, _, hb, -⟩
    exact ⟨ha, hb⟩

theorem Covers.recorded (hc : Covers store c present ref facts)
    (h : Gathered present ref facts s) {q : Relationship} (hq : q ∈ s.rels) :
    ∃ a b w, store.Fact q.kindTag a b q.createdAt w ∧ store.Held a q.fromRef ∧
      store.Held b q.toRef := by
  rcases h.recorded q hq with ⟨⟨l, w⟩, hf, hwhole, rfl⟩
  exact ⟨c l.source, c l.target, w, (hc.fact l w).1 hf, (hc.held _ _).2 ⟨hwhole.1, rfl⟩,
    (hc.held _ _).2 ⟨hwhole.2, rfl⟩⟩

theorem Covers.carried (hc : Covers store c present ref facts)
    (h : Gathered present ref facts s) {kind : String} {a b : ℤ} {time : Option ℤ}
    {w ra rb : String} (hf : store.Fact kind (c a) (c b) time w) (ha : store.Held (c a) ra)
    (hb : store.Held (c b) rb) :
    ∃ q ∈ s.rels, q.ends = (kind, ra, rb) ∧ (time.isSome → q.createdAt.isSome) := by
  rcases (hc.held _ _).1 ha with ⟨hpa, rfl⟩
  rcases (hc.held _ _).1 hb with ⟨hpb, rfl⟩
  exact h.carried (⟨kind, a, b, time⟩, w) ((hc.fact ⟨kind, a, b, time⟩ w).2 hf) ⟨hpa, hpb⟩

theorem Covers.warned (hc : Covers store c present ref facts)
    (h : Gathered present ref facts s) (w : String) :
    w ∈ s.warnings ↔ ∃ kind a b time, store.Fact kind (c a) (c b) time w ∧
      ¬ ((∃ ra, store.Held (c a) ra) ∧ ∃ rb, store.Held (c b) rb) := by
  rw [h.warned]
  constructor
  · rintro ⟨⟨l, _⟩, hf, rfl, hnot⟩
    exact ⟨_, _, _, _, (hc.fact l _).1 hf, fun hheld => hnot ((hc.whole l).2 hheld)⟩
  · rintro ⟨kind, a, b, time, hf, hnot⟩
    exact ⟨(⟨kind, a, b, time⟩, w), (hc.fact ⟨kind, a, b, time⟩ w).2 hf, rfl, fun hwhole =>
      hnot ((hc.whole ⟨kind, a, b, time⟩).1 hwhole)⟩

end Covering

/-- The links between entries and those between projects are all the links. -/
theorem linksCarried {store : ExportStore} {present present' : List ℤ} {ref : ℤ → String}
    {facts facts' : List (StoredLink × String)} {s s' : Links}
    (h : Gathered present ref facts s) (hc : Covers store .entry present ref facts)
    (h' : Gathered present' projectRef facts' s')
    (hc' : Covers store .project present' projectRef facts')
    (href : ∀ i, refKind (ref i) ≠ some 'p') :
    LinksCarried store (s.rels.mergeSort Relationship.le ++ s'.rels)
      (s.warnings ++ s'.warnings) := by
  have hmem : ∀ q, q ∈ s.rels.mergeSort Relationship.le ++ s'.rels ↔
      q ∈ s.rels ∨ q ∈ s'.rels := fun q => by simp
  constructor
  · rw [List.map_append, List.nodup_append]
    refine ⟨((List.mergeSort_perm _ _).map _).nodup_iff.2 h.distinct, h'.distinct, ?_⟩
    intro a ha b hb hab
    rcases List.mem_map.1 ha with ⟨q, hq, rfl⟩
    rcases List.mem_map.1 hb with ⟨q', hq', rfl⟩
    rcases h.recorded q ((List.mergeSort_perm _ _).subset hq) with ⟨f, -, -, rfl⟩
    rcases h'.recorded q' hq' with ⟨f', -, -, rfl⟩
    rw [StoredLink.ends_relationship, StoredLink.ends_relationship, Prod.mk.injEq,
      Prod.mk.injEq] at hab
    refine href f.1.source ?_
    rw [hab.2.1, refKind_projectRef]
  · intro q hq
    rcases (hmem q).1 hq with hq | hq
    · exact hc.recorded h hq
    · exact hc'.recorded h' hq
  · intro kind a b time w ra rb hf ha hb
    cases hf with
    | lifecycle ht hr hid hby =>
      rcases hc.carried h (.lifecycle ht hr hid hby) ha hb with ⟨q, hq, hrest⟩
      exact ⟨q, (hmem q).2 (.inl hq), hrest⟩
    | edge ht hedges hr hsource htarget hkind htime =>
      rcases hc.carried h (.edge ht hedges hr hsource htarget hkind htime) ha hb with
        ⟨q, hq, hrest⟩
      exact ⟨q, (hmem q).2 (.inl hq), hrest⟩
    | dependency ht hdeps hr hsource htarget =>
      rcases hc'.carried h' (.dependency ht hdeps hr hsource htarget) ha hb with
        ⟨q, hq, hrest⟩
      exact ⟨q, (hmem q).2 (.inr hq), hrest⟩
  · intro w
    rw [List.mem_append, hc.warned h, hc'.warned h']
    constructor
    · rintro (⟨kind, a, b, time, hf⟩ | ⟨kind, a, b, time, hf⟩)
      · exact ⟨kind, _, _, time, hf⟩
      · exact ⟨kind, _, _, time, hf⟩
    · rintro ⟨kind, a, b, time, hf, hnot⟩
      cases hf with
      | lifecycle ht hr hid hby =>
        exact .inl ⟨_, _, _, _, .lifecycle ht hr hid hby, hnot⟩
      | edge ht hedges hr hsource htarget hkind htime =>
        exact .inl ⟨_, _, _, _, .edge ht hedges hr hsource htarget hkind htime, hnot⟩
      | dependency ht hdeps hr hsource htarget =>
        exact .inr ⟨_, _, _, _, .dependency ht hdeps hr hsource htarget, hnot⟩

section Entries

variable {store : ExportStore} {t : SqlTable} {entries : List EntryRow}
  {rs : List (String → SqlValue)}

theorem mem_ids_iff (hperm : rs.Perm t.rows)
    (hread : Forall₂ (fun r e => ReadsRow t t.noteRef r e ∧ CarriesIdentity store t r e.entry)
      rs entries) {i : ℤ} :
    i ∈ entries.map EntryRow.id ↔ ∃ r ∈ t.rows, t.value r "id" = .int i := by
  rw [List.mem_map]
  constructor
  · rintro ⟨e, he, rfl⟩
    rcases row_of_read hperm hread he with ⟨r, hr, hre, -⟩
    exact ⟨r, hr, hre.id⟩
  · rintro ⟨r, hr, hid⟩
    rcases read_of_row hperm hread hr with ⟨e, he, hre, -⟩
    exact ⟨e, he, SqlValue.int.inj (hre.id.symm.trans hid)⟩

theorem mem_supersededOf (hperm : rs.Perm t.rows)
    (hread : Forall₂ (fun r e => ReadsRow t t.noteRef r e ∧ CarriesIdentity store t r e.entry)
      rs entries) {a b : ℤ} :
    (a, b) ∈ supersededOf entries ↔ ∃ r ∈ t.rows, t.value r "id" = .int b ∧
      t.value r "superseded_by" = .int a := by
  unfold supersededOf
  rw [List.mem_filterMap]
  constructor
  · rintro ⟨e, he, hlink⟩
    rcases Option.map_eq_some_iff.1 hlink with ⟨s, hs, heq⟩
    cases heq
    rcases row_of_read hperm hread he with ⟨r, hr, hre, -⟩
    refine ⟨r, hr, hre.id, ?_⟩
    rw [hre.supersededBy, hs]
    rfl
  · rintro ⟨r, hr, hid, hby⟩
    rcases read_of_row hperm hread hr with ⟨e, he, hre, -⟩
    refine ⟨e, he, ?_⟩
    rw [SqlValue.ofInt_eq_int.1 (hby.symm.trans hre.supersededBy), Option.map_some,
      SqlValue.int.inj (hre.id.symm.trans hid)]

/-- The facts about entries are those of the lifecycle column and of the edge table. -/
theorem covers_entries {edges : List StoredLink} (ht : store.table "notes" = some t)
    (hperm : rs.Perm t.rows)
    (hread : Forall₂ (fun r e => ReadsRow t t.noteRef r e ∧ CarriesIdentity store t r e.entry)
      rs entries) (hedges : readEdges store t.edgeTable = .ok edges) :
    Covers store .entry (entries.map EntryRow.id) t.noteRef
      ((supersededOf entries).map supersededFact ++ edges.map edgeFact) := by
  constructor
  · intro l w
    rw [List.mem_append, List.mem_map, List.mem_map]
    constructor
    · rintro (⟨⟨a, b⟩, hlink, heq⟩ | ⟨l', hl, heq⟩)
      · cases heq
        rcases (mem_supersededOf hperm hread).1 hlink with ⟨r, hr, hid, hby⟩
        exact .lifecycle ht hr hid hby
      · cases heq
        rcases (mem_readEdges hedges).1 hl with ⟨t', ht', r, hr, hs, htg, hk, htime⟩
        exact .edge ht ht' hr hs htg hk htime
    · generalize hkind : l.kind = kind
      generalize ha : LinkEnd.entry l.source = a
      generalize hb : LinkEnd.entry l.target = b
      generalize htime : l.createdAt = time
      intro hf
      cases hf with
      | @lifecycle t' r successor predecessor ht' hr hid hby =>
        obtain rfl : t = t' := Option.some.inj (ht.symm.trans ht')
        refine .inl ⟨(successor, predecessor),
          (mem_supersededOf hperm hread).2 ⟨r, hr, hid, hby⟩, ?_⟩
        rcases l with ⟨_, _, _, _⟩
        cases hkind
        cases ha
        cases hb
        cases htime
        rfl
      | @edge t' et r l' ht' het hr hs htg hk htm =>
        obtain rfl : t = t' := Option.some.inj (ht.symm.trans ht')
        refine .inr ⟨l', (mem_readEdges hedges).2 ⟨et, het, r, hr, hs, htg, hk, htm⟩, ?_⟩
        rcases l with ⟨_, _, _, _⟩
        rcases l' with ⟨_, _, _, _⟩
        cases hkind
        cases ha
        cases hb
        cases htime
        rfl
      | dependency => cases ha
  · intro i s
    rw [mem_ids_iff hperm hread]
    constructor
    · intro hheld
      cases hheld with
      | @entry t' r _ ht' hr hid =>
        obtain rfl : t = t' := Option.some.inj (ht.symm.trans ht')
        exact ⟨⟨r, hr, hid⟩, rfl⟩
    · rintro ⟨⟨r, hr, hid⟩, rfl⟩
      exact .entry ht hr hid

theorem covers_noEntries (ht : store.table "notes" = none) :
    Covers store .entry [] entryRef [] := by
  constructor
  · intro l w
    refine ⟨fun h => absurd h (by simp), fun hf => ?_⟩
    generalize ha : LinkEnd.entry l.source = a at hf
    generalize LinkEnd.entry l.target = b at hf
    generalize l.kind = kind at hf
    generalize l.createdAt = time at hf
    cases hf with
    | lifecycle ht' => exact absurd (ht.symm.trans ht') (by simp)
    | edge ht' => exact absurd (ht.symm.trans ht') (by simp)
    | dependency => cases ha
  · intro i s
    refine ⟨fun hheld => ?_, fun h => absurd h.1 (by simp)⟩
    cases hheld with
    | entry ht' => exact absurd (ht.symm.trans ht') (by simp)

/-- The facts about projects are the dependencies of a registry. -/
theorem covers_projects {projects : List (ℤ × DumpProject)} {deps : List (ℤ × ℤ)}
    (h : readProjects store = .ok (projects, deps)) :
    Covers store .project (projects.map Prod.fst) projectRef (deps.map dependencyFact) := by
  rcases registry_of_readProjects h with ⟨hnone, hsome⟩
  by_cases hreg : ∃ t, store.IsRegistry t
  · rcases hreg with ⟨t, ht⟩
    rcases hsome t ht with ⟨-, -, ⟨rs, hperm, hread⟩, hdeps⟩
    constructor
    · intro l w
      rw [List.mem_map]
      constructor
      · rintro ⟨d, hd, heq⟩
        cases heq
        rcases (hdeps d).1 hd with ⟨t', ht', r, hr, hs, htg⟩
        exact .dependency ht ht' hr hs htg
      · generalize hkind : l.kind = kind
        generalize ha : LinkEnd.project l.source = a
        generalize hb : LinkEnd.project l.target = b
        generalize htime : l.createdAt = time
        intro hf
        cases hf with
        | lifecycle => cases ha
        | edge => cases ha
        | @dependency t' dt r source target ht' hdt hr hs htg =>
          refine ⟨(source, target), (hdeps _).2 ⟨dt, hdt, r, hr, hs, htg⟩, ?_⟩
          rcases l with ⟨_, _, _, _⟩
          cases hkind
          cases ha
          cases hb
          cases htime
          rfl
    · intro i s
      rw [List.mem_map]
      constructor
      · intro hheld
        cases hheld with
        | @project t' r _ ht' hr hid =>
          obtain rfl : t = t' := Option.some.inj (ht.1.symm.trans ht'.1)
          rcases read_of_row hperm hread hr with ⟨p, hp, hpid, -⟩
          exact ⟨⟨p, hp, SqlValue.int.inj (hpid.symm.trans hid)⟩, rfl⟩
      · rintro ⟨⟨p, hp, rfl⟩, rfl⟩
        rcases row_of_read hperm hread hp with ⟨r, hr, hid, -⟩
        exact .project ht hr hid
  · rcases hnone fun t ht => hreg ⟨t, ht⟩ with ⟨rfl, rfl⟩
    constructor
    · intro l w
      refine ⟨fun h => absurd h (by simp), fun hf => ?_⟩
      generalize l.kind = kind at hf
      generalize l.createdAt = time at hf
      cases hf with
      | dependency ht => exact absurd ⟨_, ht⟩ hreg
    · intro i s
      refine ⟨fun hheld => ?_, fun h => absurd h.1 (by simp)⟩
      cases hheld with
      | project ht => exact absurd ⟨_, ht⟩ hreg

end Entries

section Law

variable {store : ExportStore}

/-- The references of entities of the three kinds are distinct. -/
theorem nodup_references {entries projects : List String} {n : ℕ}
    (he : entries.Nodup) (hp : projects.Nodup)
    (hentries : ∀ s ∈ entries, refKind s = some 'e' ∨ refKind s = some 'n')
    (hprojects : ∀ s ∈ projects, refKind s = some 'p') :
    (entries ++ projects ++ (List.range n).map usageRef).Nodup := by
  rw [List.nodup_append, List.nodup_append]
  refine ⟨⟨he, hp, ?_⟩, List.nodup_range.map usageRef_injective, ?_⟩
  · rintro s hs _ hs' rfl
    rcases hentries s hs with h | h <;> simp [hprojects s hs'] at h
  · rintro s hs _ hs' rfl
    rcases List.mem_map.1 hs' with ⟨m, -, rfl⟩
    rcases List.mem_append.1 hs with hs | hs
    · rcases hentries _ hs with h | h <;> simp at h
    · simpa using hprojects _ hs

theorem refKind_noteRef (t : SqlTable) (i : ℤ) :
    refKind (t.noteRef i) = some 'e' ∨ refKind (t.noteRef i) = some 'n' := by
  unfold SqlTable.noteRef
  split
  · exact .inr (refKind_namespacedRef i)
  · exact .inl (refKind_entryRef i)

/-- The entries of a dump and their links. -/
structure EntriesRead (store : ExportStore) (entries : List EntryRow) (links : Links) : Prop where
  none : store.table "notes" = none → entries = []
  carried : ∀ t, store.table "notes" = some t → ∃ rs : List (String → SqlValue),
    rs.Perm t.rows ∧ Forall₂ (fun r e => ReadsRow t t.noteRef r e ∧
      CarriesIdentity store t r e.entry) rs entries
  distinct : (entries.map fun e => e.entry.reference).Nodup
  kinds : ∀ e ∈ entries,
    refKind e.entry.reference = some 'e' ∨ refKind e.entry.reference = some 'n'
  links : ∃ present ref facts, Gathered present ref facts links ∧
    Covers store .entry present ref facts ∧ ∀ i, refKind (ref i) ≠ some 'p'

theorem entriesRead_of_readAllEntries {entries : List EntryRow} {links : Links}
    (h : readAllEntries store = .ok (entries, links)) : EntriesRead store entries links := by
  cases ht : store.table "notes" with
  | none =>
    unfold readAllEntries at h
    rw [ht] at h
    cases h
    exact ⟨fun _ => rfl, fun t ht' => absurd (ht.symm.trans ht') (by simp), List.nodup_nil,
      by simp, [], entryRef, [], .nil, covers_noEntries ht, by simp⟩
  | some t =>
    rcases notes_of_readAllEntries ht h with ⟨hcol, ⟨rs, hperm, hread⟩, edges, hedges, rfl⟩
    refine ⟨fun hnone => absurd (ht.symm.trans hnone) (by simp), fun t' ht' => ?_, ?_, ?_,
      _, _, _, gathered_entryLinks t.noteRef entries edges,
      covers_entries ht hperm hread hedges, fun i hi => ?_⟩
    · obtain rfl : t = t' := Option.some.inj (ht.symm.trans ht')
      exact ⟨rs, hperm, hread⟩
    · have hids : (entries.map EntryRow.id).Nodup :=
        nodup_of_read (g := SqlValue.int) (store.noteIds t ht) hperm hread fun r e he => by
          rw [← value_of_mem hcol r]
          exact he.1.id
      have hrefs : entries.map (fun e => e.entry.reference) =
          (entries.map EntryRow.id).map t.noteRef := by
        rw [List.map_map]
        refine List.map_congr_left fun e he => ?_
        rcases row_of_read hperm hread he with ⟨r, -, hre, -⟩
        exact hre.reference
      rw [hrefs]
      exact hids.map t.noteRef_injective
    · intro e he
      rcases row_of_read hperm hread he with ⟨r, -, hre, -⟩
      rw [hre.reference]
      exact refKind_noteRef t e.id
    · rcases refKind_noteRef t i with h | h <;> simp [h] at hi

/-- The projects of a dump and their links. -/
structure ProjectsRead (store : ExportStore) (projects : List (ℤ × DumpProject))
    (deps : List (ℤ × ℤ)) : Prop where
  none : (∀ t, ¬ store.IsRegistry t) → projects = []
  carried : ∀ t, store.IsRegistry t → ∃ rs : List (String → SqlValue), rs.Perm t.rows ∧
    Forall₂ (fun r p => t.value r "id" = .int p.1 ∧
      t.value r "root_path" = .text p.2.rootPath ∧
      t.value r "registered_at" = .ofInt p.2.registeredAt ∧
      p.2.reference = projectRef p.1) rs projects
  distinct : (projects.map fun p => p.2.reference).Nodup
  kinds : ∀ p ∈ projects, refKind p.2.reference = some 'p'
  gathered : Gathered (projects.map Prod.fst) projectRef (deps.map dependencyFact)
    (projectLinks projects deps)

theorem projectsRead_of_readProjects {projects : List (ℤ × DumpProject)} {deps : List (ℤ × ℤ)}
    (h : readProjects store = .ok (projects, deps)) : ProjectsRead store projects deps := by
  rcases registry_of_readProjects h with ⟨hnone, hsome⟩
  by_cases hreg : ∃ t, store.IsRegistry t
  · rcases hreg with ⟨t, ht⟩
    rcases hsome t ht with ⟨hids, hdeps, ⟨rs, hperm, hread⟩, -⟩
    have href : ∀ p ∈ projects, p.2.reference = projectRef p.1 := fun p hp => by
      rcases row_of_read hperm hread hp with ⟨r, -, -, -, -, hrp⟩
      exact hrp
    refine ⟨fun hnot => absurd ht (hnot t), fun t' ht' => ?_, ?_, fun p hp => ?_,
      gathered_projectLinks projects projectRef_injective deps hdeps⟩
    · obtain rfl : t = t' := Option.some.inj (ht.1.symm.trans ht'.1)
      exact ⟨rs, hperm, hread⟩
    · have hrefs : projects.map (fun p => p.2.reference) =
          (projects.map Prod.fst).map projectRef := by
        rw [List.map_map]
        exact List.map_congr_left href
      rw [hrefs]
      exact hids.map projectRef_injective
    · rw [href p hp, refKind_projectRef]
  · rcases hnone fun t ht => hreg ⟨t, ht⟩ with ⟨rfl, rfl⟩
    exact ⟨fun _ => rfl, fun t ht => absurd ⟨t, ht⟩ hreg, List.nodup_nil, by simp,
      gathered_projectLinks [] projectRef_injective [] List.nodup_nil⟩

/-- The dump of a store has its authored rows as entities, under distinct references, and its
    links as relationships. -/
theorem exportLaw (store : ExportStore) (x : Extract) (h : extract store = .ok x) :
    EntitiesCarried store x.dump ∧ x.dump.references.Nodup ∧
      LinksCarried store x.dump.relationships x.warnings := by
  unfold extract at h
  rcases except_bind_ok h with ⟨⟨entries, links⟩, hentries, h⟩
  rcases except_bind_ok h with ⟨⟨projects, deps⟩, hprojects, h⟩
  rcases except_bind_ok h with ⟨usage, husage, h⟩
  cases h
  have he := entriesRead_of_readAllEntries hentries
  have hp := projectsRead_of_readProjects hprojects
  rcases usage_of_readUsage husage with ⟨hnoUsage, hcarried, n, hrefs⟩
  refine ⟨?_, ?_, ?_⟩
  · refine ⟨fun hnone => ?_, fun t ht => ?_, fun hnone => ?_, fun t ht => ?_, hnoUsage,
      hcarried⟩
    · rw [he.none hnone, List.map_nil]
    · rcases he.carried t ht with ⟨rs, hperm, hread⟩
      exact ⟨rs, hperm, List.forall₂_map_right_iff.2 <| hread.imp fun r e hre =>
        ⟨hre.1.carries, hre.2, e.id, hre.1.id, hre.1.reference⟩⟩
    · rw [hp.none hnone, List.map_nil]
    · rcases hp.carried t ht with ⟨rs, hperm, hread⟩
      exact ⟨rs, hperm, List.forall₂_map_right_iff.2 <| hread.imp fun r p hrp =>
        ⟨hrp.2.1, hrp.2.2.1, p.1, hrp.1, hrp.2.2.2⟩⟩
  · unfold Dump.references
    simp only [List.map_map, hrefs]
    refine nodup_references he.distinct hp.distinct ?_ ?_
    · intro s hs
      rcases List.mem_map.1 hs with ⟨e, hmem, rfl⟩
      exact he.kinds e hmem
    · intro s hs
      rcases List.mem_map.1 hs with ⟨p, hmem, rfl⟩
      exact hp.kinds p hmem
  · rcases he.links with ⟨present, ref, facts, hgathered, hcovers, href⟩
    exact linksCarried hgathered hcovers hp.gathered (covers_projects hprojects) href

end Law

/-! ### Small stores -/

/-- Reading a table of one row. -/
theorem read_oneRow {γ : Type} {columns : List String} {r : String → SqlValue}
    {list : List SelectColumn} (order : List String)
    (hcols : (list.find? fun c => !c.optional && c.name ∉ columns) = none)
    (decode : List SqlValue → Except ExportError γ) :
    (SqlTable.mk columns [r]).select list order >>= List.mapM decode =
      (decode ((SqlTable.mk columns [r]).values list r)).map fun a => [a] := by
  unfold SqlTable.select
  simp only [hcols, List.mergeSort_singleton, List.map_cons, List.map_nil]
  change List.mapM decode [SqlTable.values _ _ _] = _
  rw [List.mapM_cons, List.mapM_nil]
  cases decode ((SqlTable.mk columns [r]).values list r) <;> rfl

/-- An entry whose successor is gone. -/
def oneEntryNotes : SqlTable where
  columns := ["id", "kind", "title", "body", "created_at", "superseded_by"]
  rows := [fun c => if c = "id" then .int 1 else if c = "created_at" then .int 7
    else if c = "superseded_by" then .int 2 else .text c]

/-- A link of an entry to itself. -/
def oneEntryEdges : SqlTable where
  columns := ["from_id", "to_id", "kind", "created_at"]
  rows := [fun c => if c = "kind" then .text "relates" else if c = "created_at" then .int 9
    else .int 1]

def oneEntry : ExportStore where
  table name :=
    if name = "notes" then some oneEntryNotes
    else if name = "memory_edges" then some oneEntryEdges
    else none
  noteIds t ht := by
    obtain rfl : oneEntryNotes = t := Option.some.inj ht
    exact List.nodup_singleton _
  projectIds t ht := by simp at ht
  dependencies t ht := by simp at ht

/-- What is read from it. -/
def oneEntryExtract : Extract where
  dump := {
    entries := [{
      record := "entity"
      kindTag := "memory_entry"
      reference := "e1"
      uuid := none
      kind := "kind"
      title := "title"
      body := "body"
      tags := []
      linkedFiles := []
      createdAt := 7
      status := none
      sourceRef := none
      validAt := none
      invalidAt := none
      entityId := none
      remoteId := none
      ns := none
      isEntity := rfl }]
    projects := []
    usage := []
    relationships := [.new "relates" "e1" "e1" (some 9)] }
  warnings := [successorWarning 2 1]

theorem extract_oneEntry : extract oneEntry = .ok oneEntryExtract := by
  have hedges : readEdges oneEntry "memory_edges" = .ok [⟨"relates", 1, 1, some 9⟩] := by
    change oneEntryEdges.select edgeColumns _ >>= List.mapM decodeEdge = _
    unfold oneEntryEdges
    rw [read_oneRow _ (by decide)]
    rfl
  have hnotes : ∃ e, oneEntryNotes.select entryColumns ["id"] >>= List.mapM decodeEntry =
      .ok [e] ∧ e.id = 1 ∧ e.supersededBy = some 2 ∧ oneEntryExtract.dump.entries = [e.entry] := by
    unfold oneEntryNotes
    rw [read_oneRow _ (by decide)]
    exact ⟨_, rfl, rfl, rfl, rfl⟩
  rcases hnotes with ⟨⟨id, by_, entry⟩, hnotes, rfl, rfl, hentry⟩
  have hread : readAllEntries oneEntry = .ok ([⟨1, some 2, entry⟩],
      entryLinks entryRef [⟨1, some 2, entry⟩] [⟨"relates", 1, 1, some 9⟩]) := by
    change readNotes oneEntry oneEntryNotes entryColumns decodeEntry "memory_edges" entryRef = _
    unfold readNotes
    rw [← bind_assoc, hnotes]
    change readEdges oneEntry "memory_edges" >>= _ = _
    rw [hedges]
    rfl
  unfold extract
  rw [hread]
  change Except.ok (Extract.mk ⟨[entry], [], [], List.mergeSort [_] _ ++ []⟩ _) = _
  rw [List.mergeSort_singleton, ← hentry]
  rfl

theorem exportLaw_oneEntry : EntitiesCarried oneEntry oneEntryExtract.dump ∧
    oneEntryExtract.dump.references.Nodup ∧
    LinksCarried oneEntry oneEntryExtract.dump.relationships oneEntryExtract.warnings :=
  exportLaw oneEntry oneEntryExtract extract_oneEntry

/-- An entry of a store of many projects, with a uuid. -/
def manyProjectsNotes : SqlTable where
  columns := ["id", "project_id", "kind", "title", "body", "created_at", "uuid"]
  rows := [fun c => if c = "id" ∨ c = "project_id" then .int 1
    else if c = "created_at" then .int 7 else .text c]

def manyProjects : ExportStore where
  table name := if name = "notes" then some manyProjectsNotes else none
  noteIds t ht := by
    obtain rfl : manyProjectsNotes = t := Option.some.inj ht
    exact List.nodup_singleton _
  projectIds t ht := by simp at ht
  dependencies t ht := by simp at ht

/-- A table of links without the table of its entries. -/
def onlyEdges : ExportStore where
  table name := if name = "memory_edges" then some oneEntryEdges else none
  noteIds t ht := by simp at ht
  projectIds t ht := by simp at ht
  dependencies t ht := by simp at ht

/-- An entry of a store of many projects does not have the value of the uuid column, and a link
    without a table of entries is not reported. -/
theorem uuid_notCarried :
    (¬ ∀ (store : ExportStore) (x : Extract), extract store = .ok x →
      ∀ t, store.table "notes" = some t → ∃ rs : List (String → SqlValue),
        rs.Perm t.rows ∧
          Forall₂ (fun r e => t.value r "uuid" = .ofText e.uuid) rs x.dump.entries) ∧
    ¬ ∀ (store : ExportStore) (x : Extract), extract store = .ok x →
      ∀ t, store.table "memory_edges" = some t → t.rows ≠ [] →
        x.dump.relationships ≠ [] ∨ x.warnings ≠ [] := by
  refine ⟨fun hall => ?_, fun hall => ?_⟩
  swap
  · have hempty : extract onlyEdges = .ok ⟨⟨[], [], [], List.mergeSort [] _ ++ []⟩, []⟩ := rfl
    rcases hall onlyEdges _ hempty oneEntryEdges rfl (by simp [oneEntryEdges]) with h | h
    · exact h (by simp)
    · exact h rfl
  have hnotes : ∃ e, manyProjectsNotes.select namespacedColumns ["id"] >>=
      List.mapM (decodeNamespaced (slugOf [])) = .ok [e] ∧ e.entry.uuid = none := by
    unfold manyProjectsNotes
    rw [read_oneRow _ (by decide)]
    exact ⟨_, rfl, rfl⟩
  rcases hnotes with ⟨e, hnotes, huuid⟩
  have hread : readAllEntries manyProjects = .ok ([e], entryLinks namespacedRef [e] []) := by
    change readNotes manyProjects manyProjectsNotes namespacedColumns
      (decodeNamespaced (slugOf [])) "note_edges" namespacedRef = _
    unfold readNotes
    rw [← bind_assoc, hnotes]
    rfl
  have hextract : ∃ x, extract manyProjects = .ok x ∧ x.dump.entries = [e.entry] := by
    unfold extract
    rw [hread]
    exact ⟨_, rfl, rfl⟩
  rcases hextract with ⟨x, hx, hentries⟩
  rcases hall manyProjects x hx manyProjectsNotes rfl with ⟨rs, hperm, hcarried⟩
  rw [hentries, List.perm_singleton.1 hperm] at hcarried
  cases hcarried with
  | cons hvalue _ =>
    rw [huuid] at hvalue
    exact absurd hvalue (by decide)

end Spelunk
