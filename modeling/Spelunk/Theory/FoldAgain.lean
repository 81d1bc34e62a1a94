import Spelunk.Theory.FoldGroup

/-!
# Folding Twice, Folding in Parts

The algebra of the fold. Folding a folded log changes nothing, and folding a
part first changes nothing but the successor: both hold for every log, because
a folded record merged with the rest of its group is merged with everything
its own group had. Repeating every line of a log is another matter. A copy that
was alone in its group keeps its tags and files as written, and its duplicate
sends it through the union that sorts them; so repetition is harmless exactly
when every lone copy is sorted already.

## Main definitions

* `withoutSuccessor`: A record with the successor blanked.
* `LoneCopiesSorted`: Lone copies carry sorted tags and files.

## Theorems

* `foldRecords_foldRecords`: Folding a folded log.
* `foldRecords_foldRecords_append`: Folding a part first.
* `foldRecords_append_self_iff`: Repeating every line.
* `foldRecords_laws_iff`: The three laws together.
-/

namespace Spelunk

/-- A record with its successor blanked. -/
def withoutSuccessor (r : NoteRecord) : NoteRecord :=
  { r with supersededByEntityId := none }

section Groups

/-- A folded group folds to itself. -/
theorem foldGroup_toList_foldGroup (group : List NoteRecord) :
    foldGroup (foldGroup group).toList = foldGroup group := by
  rcases hf : foldGroup group with _ | m
  · rfl
  · rw [Option.toList_some, foldGroup_eq, Lib.firstMin_nil, joinCopies_singleton]

/-- The tags of a folded group are the tags of its copies. -/
theorem mem_tags_joinCopies {base : NoteRecord} {copies : List NoteRecord} (h : base ∈ copies)
    (t : String) : t ∈ (joinCopies base copies).tags ↔ ∃ c ∈ copies, t ∈ c.tags := by
  simp only [joinCopies]
  by_cases hlen : copies.length ≤ 1
  · rcases List.length_eq_one_iff.mp (le_antisymm hlen (List.length_pos_of_mem h)) with ⟨c, rfl⟩
    rw [if_pos hlen, List.mem_singleton.mp h]
    simp
  · rw [if_neg hlen, Lib.mem_sortDedup, List.mem_flatMap]

/-- The files of a folded group are the files of its copies. -/
theorem mem_linkedFiles_joinCopies {base : NoteRecord} {copies : List NoteRecord}
    (h : base ∈ copies) (t : String) :
    t ∈ (joinCopies base copies).linkedFiles ↔ ∃ c ∈ copies, t ∈ c.linkedFiles := by
  simp only [joinCopies]
  by_cases hlen : copies.length ≤ 1
  · rcases List.length_eq_one_iff.mp (le_antisymm hlen (List.length_pos_of_mem h)) with ⟨c, rfl⟩
    rw [if_pos hlen, List.mem_singleton.mp h]
    simp
  · rw [if_neg hlen, Lib.mem_sortDedup, List.mem_flatMap]

/-- A folded group is archived when a copy is, or when its base says so. -/
theorem archived_joinCopies_iff {base : NoteRecord} {copies : List NoteRecord} (h : base ∈ copies) :
    (joinCopies base copies).status = "archived" ↔ ∃ c ∈ copies, c.status = "archived" := by
  simp only [joinCopies]
  constructor
  · intro hs
    by_contra hnone
    rw [if_neg hnone] at hs
    exact hnone ⟨base, h, hs⟩
  · intro hs
    rw [if_pos hs]

/-- The folded part put back among the rest merges to what the whole does,
    whether the base comes from the part or from the rest. -/
theorem joinCopies_append {base : NoteRecord} {part rest : List NoteRecord} {x y : NoteRecord}
    (hbase : base ∈ part) (hrest : rest ≠ [])
    (hxy : (x = joinCopies base part ∧ y = base) ∨ x = y) :
    withoutSuccessor (joinCopies x (joinCopies base part :: rest))
      = withoutSuccessor (joinCopies y (part ++ rest)) := by
  have hone : ¬ (joinCopies base part :: rest).length ≤ 1 := by
    have := List.length_pos_iff.mpr hrest
    simp only [List.length_cons]
    omega
  have hmany : ¬ (part ++ rest).length ≤ 1 := by
    have := List.length_pos_iff.mpr hrest
    have := List.length_pos_of_mem hbase
    simp only [List.length_append]
    omega
  have htags : Lib.sortDedup ((joinCopies base part :: rest).flatMap (·.tags))
      = Lib.sortDedup ((part ++ rest).flatMap (·.tags)) := by
    apply Lib.sortDedup_eq_of_mem_iff
    intro t
    simp only [List.flatMap_cons, List.flatMap_append, List.mem_append,
      mem_tags_joinCopies hbase, List.mem_flatMap]
  have hfiles : Lib.sortDedup ((joinCopies base part :: rest).flatMap (·.linkedFiles))
      = Lib.sortDedup ((part ++ rest).flatMap (·.linkedFiles)) := by
    apply Lib.sortDedup_eq_of_mem_iff
    intro t
    simp only [List.flatMap_cons, List.flatMap_append, List.mem_append,
      mem_linkedFiles_joinCopies hbase, List.mem_flatMap]
  have harch : (∃ c ∈ joinCopies base part :: rest, c.status = "archived")
      ↔ ∃ c ∈ part ++ rest, c.status = "archived" := by
    simp only [List.mem_cons, List.mem_append, or_and_right, exists_or, exists_eq_left,
      archived_joinCopies_iff hbase]
  have hstatus : (if ∃ c ∈ joinCopies base part :: rest, c.status = "archived" then "archived"
      else x.status) = if ∃ c ∈ part ++ rest, c.status = "archived" then "archived"
      else y.status := by
    by_cases h : ∃ c ∈ part ++ rest, c.status = "archived"
    · rw [if_pos h, if_pos (harch.mpr h)]
    · rw [if_neg h, if_neg (fun h' => h (harch.mp h'))]
      rcases hxy with ⟨rfl, rfl⟩ | rfl
      · -- Nothing in the part is archived, so the folded part kept the base's status.
        simp only [joinCopies]
        rw [if_neg]
        rintro ⟨c, hc, hs⟩
        exact h ⟨c, List.mem_append_left _ hc, hs⟩
      · rfl
  have hmerge : ∀ {α : Type} (op : α → α → α) (e : α) (f : NoteRecord → α)
      [Std.LawfulLeftIdentity op e],
      Lib.mergeAll op e (Lib.mergeAll op e (part.map f) :: rest.map f)
        = Lib.mergeAll op e ((part ++ rest).map f) := by
    intro α op e f _
    rw [List.map_append, Lib.mergeAll_append, Lib.mergeAll_cons]
  apply NoteRecord.ext
  case schemaVersion => exact hmerge max 0 (·.schemaVersion)
  case validAt => exact hmerge minSome none (·.validAt)
  case invalidAt => exact hmerge minSome none (·.invalidAt)
  case status => exact hstatus
  case tags => exact (if_neg hone).trans (htags.trans (if_neg hmany).symm)
  case linkedFiles => exact (if_neg hone).trans (hfiles.trans (if_neg hmany).symm)
  -- Every other field is the base's, and the folded part has its base's.
  all_goals rcases hxy with ⟨rfl, rfl⟩ | rfl <;> rfl

/-- Folding a part of a group first changes nothing but the successor. -/
theorem foldGroup_foldGroup_append (part rest : List NoteRecord) :
    (foldGroup ((foldGroup part).toList ++ rest)).map withoutSuccessor
      = (foldGroup (part ++ rest)).map withoutSuccessor := by
  rcases part with _ | ⟨a, l⟩
  · rfl
  by_cases hrest : rest = []
  · subst hrest
    rw [List.append_nil, List.append_nil, foldGroup_toList_foldGroup]
  · have hbase : Lib.firstMin baseKey a l ∈ a :: l := Lib.firstMin_mem _ _ _
    rw [foldGroup_eq, Option.toList_some, List.singleton_append, foldGroup_eq, List.cons_append,
      foldGroup_eq, Lib.firstMin_append, Option.map_some, Option.map_some, ← List.cons_append,
      joinCopies_append hbase hrest]
    exact Lib.firstMin_congr baseKey _ _ rest rfl

/-- A group repeated after itself folds as before, except that a lone copy has
    its tags and files sorted. -/
theorem foldGroup_append_self_iff (group : List NoteRecord) :
    foldGroup (group ++ group) = foldGroup group ↔
      ∀ r, group = [r] → r.tags.SortedLT ∧ r.linkedFiles.SortedLT := by
  rcases group with _ | ⟨a, l⟩
  · exact ⟨fun _ r h => absurd h (by simp), fun _ => rfl⟩
  have hmem : ∀ x, x ∈ a :: l ++ a :: l ↔ x ∈ a :: l := fun x => by
    rw [List.mem_append, or_self]
  rw [List.cons_append, foldGroup_eq, foldGroup_eq, Lib.firstMin_append_self, ← List.cons_append,
    Option.some.injEq]
  rcases l with _ | ⟨b, l⟩
  · -- A lone copy: the union sorts what the copy alone does not.
    rw [Lib.firstMin_nil, joinCopies_singleton]
    constructor
    · intro h r hr
      rw [List.cons.injEq] at hr
      have htags := congrArg NoteRecord.tags h
      have hfiles := congrArg NoteRecord.linkedFiles h
      simp only [joinCopies] at htags hfiles
      rw [if_neg (by simp)] at htags hfiles
      exact hr.1 ▸ ⟨htags ▸ Lib.sortDedup_sortedLT _, hfiles ▸ Lib.sortDedup_sortedLT _⟩
    · intro h
      rcases h a rfl with ⟨htags, hfiles⟩
      have hunion : ∀ f : NoteRecord → List String, (f a).SortedLT →
          Lib.sortDedup ([a, a].flatMap f) = f a := by
        intro f hf
        rw [← Lib.sortDedup_of_sortedLT hf]
        exact Lib.sortDedup_eq_of_mem_iff (fun t => by simp)
      calc joinCopies a [a, a] = joinCopies a [a] :=
            joinCopies_congr_of_unions a hmem (hunion (·.tags) htags)
              (hunion (·.linkedFiles) hfiles)
        _ = a := joinCopies_singleton a
  · constructor
    · intro _ r hr
      exact absurd hr (by simp)
    · intro _
      exact joinCopies_congr _ hmem (by simp)

end Groups

section Logs

variable [Sha256]

/-- A copy that is alone in its entity's group has sorted, duplicate-free tags
    and files. -/
def LoneCopiesSorted (records : List NoteRecord) : Prop :=
  ∀ r ∈ records, copiesOf r.resolveEntityId records = [r] →
    r.tags.SortedLT ∧ r.linkedFiles.SortedLT

/-- Folding a folded log changes nothing. -/
theorem foldRecords_foldRecords (records : List NoteRecord) :
    foldRecords (foldRecords records) = foldRecords records := by
  rw [foldRecords_eq (foldRecords records), firstKeys_foldRecords, foldRecords_eq records]
  refine List.filterMap_congr (fun k _ => ?_)
  rw [← foldRecords_eq, copiesOf_foldRecords, foldGroup_toList_foldGroup]

/-- Folding a part of a log first changes nothing but the successors. -/
theorem foldRecords_foldRecords_append (l r : List NoteRecord) :
    (foldRecords (foldRecords l ++ r)).map withoutSuccessor
      = (foldRecords (l ++ r)).map withoutSuccessor := by
  have hkeys : Lib.firstKeys NoteRecord.resolveEntityId (foldRecords l ++ r)
      = Lib.firstKeys NoteRecord.resolveEntityId (l ++ r) := by
    rw [Lib.firstKeys_append, Lib.firstKeys_append, firstKeys_foldRecords]
  rw [foldRecords_eq (foldRecords l ++ r), foldRecords_eq (l ++ r), hkeys, List.map_filterMap,
    List.map_filterMap]
  refine List.filterMap_congr (fun k _ => ?_)
  rw [copiesOf_append, copiesOf_append, copiesOf_foldRecords, foldGroup_foldGroup_append]

/-- Repeating every line of a log is invisible exactly when lone copies are
    sorted. -/
theorem foldRecords_append_self_iff (l : List NoteRecord) :
    foldRecords (l ++ l) = foldRecords l ↔ LoneCopiesSorted l := by
  constructor
  · intro h r hr hlone
    have hfold : foldGroup (copiesOf r.resolveEntityId l) = some r := by
      rw [hlone, foldGroup_eq, Lib.firstMin_nil, joinCopies_singleton]
    have hmem : r ∈ foldRecords (l ++ l) := h ▸ (mem_foldRecords_iff l r).mpr hfold
    rw [mem_foldRecords_iff, copiesOf_append] at hmem
    exact (foldGroup_append_self_iff _).mp (hmem.trans hfold.symm) r hlone
  · intro h
    have hkeys : Lib.firstKeys NoteRecord.resolveEntityId (l ++ l)
        = Lib.firstKeys NoteRecord.resolveEntityId l := by
      have hnone : (Lib.firstKeys NoteRecord.resolveEntityId l).filter
          (fun k => k ∉ Lib.firstKeys NoteRecord.resolveEntityId l) = [] := by
        rw [List.filter_eq_nil_iff]
        intro k hk
        simpa using hk
      rw [Lib.firstKeys_append, hnone, List.append_nil]
    rw [foldRecords_eq, foldRecords_eq, hkeys]
    refine List.filterMap_congr (fun k _ => ?_)
    rw [copiesOf_append, foldGroup_append_self_iff]
    intro r hlone
    have hr : r ∈ copiesOf k l := hlone ▸ List.mem_singleton_self r
    rcases mem_copiesOf.mp hr with ⟨hmem, hk⟩
    exact h r hmem (hk ▸ hlone)

/-- The three laws of the fold hold of a log exactly when its lone copies are
    sorted: the last two always do. -/
theorem foldRecords_laws_iff (l r : List NoteRecord) :
    (foldRecords (l ++ l) = foldRecords l ∧ foldRecords (foldRecords l) = foldRecords l ∧
      (foldRecords (foldRecords l ++ r)).map withoutSuccessor
        = (foldRecords (l ++ r)).map withoutSuccessor) ↔ LoneCopiesSorted l :=
  ⟨fun h => (foldRecords_append_self_iff l).mp h.1, fun h =>
    ⟨(foldRecords_append_self_iff l).mpr h, foldRecords_foldRecords l,
      foldRecords_foldRecords_append l r⟩⟩

/-- A line whose tags are in the order they were typed. -/
def unsortedLine : NoteRecord where
  schemaVersion := 1
  id := 1
  kind := "decision"
  title := "HTTP layer"
  body := "use axum"
  tags := ["storage", "api"]
  linkedFiles := []
  createdAt := 123
  status := "active"
  sourceRef := none
  validAt := none
  invalidAt := none
  supersededBy := none
  remoteId := none
  entityId := some "cc308a1ca5d849191e1710cc9def561377a9ef37e4fcb895e5aa3b1896e43603"
  supersededByEntityId := none

omit [Sha256] in
/-- The same line twice is seen with its tags sorted. -/
theorem foldRecords_append_self_unsortedLine :
    @foldRecords workedSha256 ([unsortedLine] ++ [unsortedLine])
      ≠ @foldRecords workedSha256 [unsortedLine] := by
  decide

end Logs

end Spelunk
