import Mathlib.Algebra.BigOperators.Group.List.Lemmas
import Mathlib.Data.List.Sort
import Spelunk.Core.Reconcile
import Spelunk.Theory.NoteSpecs

/-!
# Folding Candidates

What `collapseCandidates` makes of a list of candidates: one entry for each
identity, whose tags and files are those of all its copies, whose time is the
earliest, and which is archived when a copy is. The counts of a run rest on
`sum_rows_collapseCandidates`: every candidate is in exactly one entry.

## Main definitions

* `copiesIn`: The candidates of one identity.
* `FoldsCopies`: What an entry carries of its copies.

## Theorems

* `mem_collapseCandidates`: Every entry folds the copies of its identity.
* `exists_entry`: Every candidate has an entry.
* `nodup_entityId_collapseCandidates`: No identity has two entries.
* `sum_rows_collapseCandidates`: The entries partition the candidates.
-/

namespace Spelunk

section Missing

theorem mem_appendMissing (present incoming : List String) (t : String) :
    t ∈ appendMissing present incoming ↔ t ∈ present ∨ t ∈ incoming := by
  induction incoming generalizing present with
  | nil => simp [appendMissing]
  | cons v incoming ih =>
      have hstep : appendMissing present (v :: incoming)
          = appendMissing (if v ∈ present then present else present ++ [v]) incoming := rfl
      rw [hstep, ih, List.mem_cons]
      by_cases hv : v ∈ present
      · rw [if_pos hv]
        constructor
        · rintro (h | h)
          · exact Or.inl h
          · exact Or.inr (Or.inr h)
        · rintro (h | rfl | h)
          · exact Or.inl h
          · exact Or.inl hv
          · exact Or.inr h
      · rw [if_neg hv, List.mem_append, List.mem_singleton, or_assoc]

end Missing

variable [Sha256]

/-- The candidates of one identity. -/
def copiesIn (candidates : List ServerNote) (e : String) : List ServerNote :=
  candidates.filter (fun c => c.entityId = e)

theorem mem_copiesIn {candidates : List ServerNote} {e : String} {c : ServerNote} :
    c ∈ copiesIn candidates e ↔ c ∈ candidates ∧ c.entityId = e := by
  simp only [copiesIn, List.mem_filter, decide_eq_true_eq]

/-- What an entry carries of the copies it folds. -/
structure FoldsCopies (m : MergedNote) (copies : List ServerNote) : Prop where
  entityId : m.entityId = Spelunk.entityId m.kind m.title m.body
  tags : ∀ t, t ∈ m.tags ↔ ∃ c ∈ copies, t ∈ splitCsv (some c.tags)
  linkedFiles : ∀ t, t ∈ m.linkedFiles ↔ ∃ c ∈ copies, t ∈ splitCsv (some c.linkedFiles)
  createdAt_le : ∀ c ∈ copies, m.createdAt ≤ c.createdAt
  createdAt_mem : ∃ c ∈ copies, c.createdAt = m.createdAt
  archived : m.status = "archived" ↔ ∃ c ∈ copies, c.status = "archived"
  rows : m.rows = copies.length

theorem foldsCopies_fromServer (c : ServerNote) : FoldsCopies (MergedNote.fromServer c) [c] := by
  constructor
  case entityId => rfl
  case tags => intro t; simp [MergedNote.fromServer]
  case linkedFiles => intro t; simp [MergedNote.fromServer]
  case createdAt_le => intro x hx; rw [List.mem_singleton.mp hx]; rfl
  case createdAt_mem => exact ⟨c, List.mem_singleton_self c, rfl⟩
  case archived => simp [MergedNote.fromServer]
  case rows => rfl

/-- One more copy absorbed. -/
theorem FoldsCopies.absorb {m : MergedNote} {copies : List ServerNote} (h : FoldsCopies m copies)
    (c : ServerNote) : FoldsCopies (m.absorb c) (copies ++ [c]) := by
  constructor
  case entityId => exact h.entityId
  case tags =>
    intro t
    rw [MergedNote.absorb, mem_appendMissing, h.tags]
    simp only [List.mem_append, List.mem_singleton, or_and_right, exists_or, exists_eq_left]
  case linkedFiles =>
    intro t
    rw [MergedNote.absorb, mem_appendMissing, h.linkedFiles]
    simp only [List.mem_append, List.mem_singleton, or_and_right, exists_or, exists_eq_left]
  case createdAt_le =>
    intro x hx
    rcases List.mem_append.mp hx with hx | hx
    · exact le_trans (min_le_left _ _) (h.createdAt_le x hx)
    · rw [List.mem_singleton.mp hx]
      exact min_le_right _ _
  case createdAt_mem =>
    rcases le_total m.createdAt c.createdAt with hle | hle
    · rcases h.createdAt_mem with ⟨x, hx, heq⟩
      exact ⟨x, List.mem_append_left _ hx, by rw [heq]; exact (min_eq_left hle).symm⟩
    · exact ⟨c, List.mem_append_right _ (List.mem_singleton_self c), (min_eq_right hle).symm⟩
  case archived =>
    simp only [MergedNote.absorb, List.mem_append, List.mem_singleton, or_and_right, exists_or,
      exists_eq_left, ← h.archived]
    by_cases hc : c.status = "archived"
    · simp only [hc, if_true, or_true]
    · simp only [hc, if_false, or_false]
  case rows => rw [MergedNote.absorb, h.rows, List.length_append, List.length_singleton]

theorem foldsCopies_foldl {m : MergedNote} {copies : List ServerNote} (h : FoldsCopies m copies)
    (rest : List ServerNote) : FoldsCopies (rest.foldl MergedNote.absorb m) (copies ++ rest) := by
  induction rest generalizing m copies with
  | nil => rwa [List.append_nil]
  | cons c rest ih =>
      rw [List.foldl_cons, List.append_cons]
      exact ih (h.absorb c)

omit [Sha256] in
theorem foldl_absorb_entityId (m : MergedNote) (rest : List ServerNote) :
    (rest.foldl MergedNote.absorb m).entityId = m.entityId := by
  induction rest generalizing m with
  | nil => rfl
  | cons c rest ih => rw [List.foldl_cons, ih]; rfl

/-- The fold of one group of copies. -/
def foldCopies (copies : List ServerNote) : Option MergedNote :=
  match copies with
  | first :: rest => some (rest.foldl MergedNote.absorb (MergedNote.fromServer first))
  | [] => none

/-- The fold of the copies of an identity has that identity and carries them. -/
theorem foldCopies_spec {candidates : List ServerNote} {e : String} {m : MergedNote}
    (h : foldCopies (copiesIn candidates e) = some m) :
    m.entityId = e ∧ FoldsCopies m (copiesIn candidates e) := by
  rcases hc : copiesIn candidates e with _ | ⟨first, rest⟩
  · rw [hc] at h
    exact absurd h (by simp [foldCopies])
  · rw [hc, foldCopies, Option.some.injEq] at h
    have hfirst : first ∈ copiesIn candidates e := hc ▸ List.mem_cons_self
    subst h
    refine ⟨?_, foldsCopies_foldl (foldsCopies_fromServer first) rest⟩
    rw [foldl_absorb_entityId]
    exact (mem_copiesIn.mp hfirst).2

theorem collapseCandidates_eq (candidates : List ServerNote) :
    collapseCandidates candidates = (Lib.firstKeys ServerNote.entityId candidates).filterMap
      (fun e => foldCopies (copiesIn candidates e)) := by
  rw [collapseCandidates, Lib.groupBy_eq, List.filterMap_map]
  rfl

/-- Every entry folds the copies of its identity. -/
theorem mem_collapseCandidates {candidates : List ServerNote} {m : MergedNote}
    (h : m ∈ collapseCandidates candidates) :
    FoldsCopies m (copiesIn candidates m.entityId) ∧
      foldCopies (copiesIn candidates m.entityId) = some m := by
  rw [collapseCandidates_eq, List.mem_filterMap] at h
  rcases h with ⟨e, _, hfold⟩
  rcases foldCopies_spec hfold with ⟨rfl, hspec⟩
  exact ⟨hspec, hfold⟩

/-- Every candidate has an entry. -/
theorem exists_entry {candidates : List ServerNote} {c : ServerNote} (hc : c ∈ candidates) :
    ∃ m ∈ collapseCandidates candidates, m.entityId = c.entityId := by
  have hmem : c ∈ copiesIn candidates c.entityId := mem_copiesIn.mpr ⟨hc, rfl⟩
  rcases hf : foldCopies (copiesIn candidates c.entityId) with _ | m
  · rcases hcp : copiesIn candidates c.entityId with _ | ⟨first, rest⟩
    · rw [hcp] at hmem
      exact absurd hmem List.not_mem_nil
    · rw [hcp] at hf
      exact absurd hf (by simp [foldCopies])
  · refine ⟨m, ?_, (foldCopies_spec hf).1⟩
    rw [collapseCandidates_eq, List.mem_filterMap]
    exact ⟨c.entityId, (Lib.mem_firstKeys _ _ _).mpr ⟨c, hc, rfl⟩, hf⟩

/-- The identities of the entries, in order of first encounter. -/
theorem map_entityId_collapseCandidates (candidates : List ServerNote) :
    (collapseCandidates candidates).map (·.entityId)
      = Lib.firstKeys ServerNote.entityId candidates := by
  rw [collapseCandidates_eq, List.map_filterMap]
  have hsome : ∀ e ∈ Lib.firstKeys ServerNote.entityId candidates,
      (foldCopies (copiesIn candidates e)).map (·.entityId) = some e := by
    intro e he
    rcases (Lib.mem_firstKeys _ _ _).mp he with ⟨c, hc, rfl⟩
    rcases hf : foldCopies (copiesIn candidates c.entityId) with _ | m
    · have hmem : c ∈ copiesIn candidates c.entityId := mem_copiesIn.mpr ⟨hc, rfl⟩
      rcases hcp : copiesIn candidates c.entityId with _ | ⟨first, rest⟩
      · rw [hcp] at hmem
        exact absurd hmem List.not_mem_nil
      · rw [hcp] at hf
        exact absurd hf (by simp [foldCopies])
    · rw [Option.map_some, (foldCopies_spec hf).1]
  rw [List.filterMap_congr hsome]
  exact List.filterMap_some

/-- No identity has two entries. -/
theorem nodup_entityId_collapseCandidates (candidates : List ServerNote) :
    ((collapseCandidates candidates).map (·.entityId)).Nodup := by
  rw [map_entityId_collapseCandidates]
  exact Lib.nodup_firstKeys _ _

/-- Entries of one identity are one entry. -/
theorem entry_eq_of_entityId_eq {candidates : List ServerNote} {m m' : MergedNote}
    (hm : m ∈ collapseCandidates candidates) (hm' : m' ∈ collapseCandidates candidates)
    (h : m.entityId = m'.entityId) : m = m' :=
  List.inj_on_of_nodup_map (nodup_entityId_collapseCandidates candidates) hm hm' h

/-- Every candidate is a copy of exactly one key. -/
theorem sum_length_copiesIn (candidates : List ServerNote) (keys : List String)
    (hnodup : keys.Nodup) (hkeys : ∀ c ∈ candidates, c.entityId ∈ keys) :
    (keys.map (fun e => (copiesIn candidates e).length)).sum = candidates.length := by
  induction candidates with
  | nil => simp [copiesIn]
  | cons c candidates ih =>
      -- The new candidate adds one to its own key and nothing to the others.
      have hstep : ∀ e, (copiesIn (c :: candidates) e).length
          = (copiesIn candidates e).length + if e = c.entityId then 1 else 0 := by
        intro e
        rw [copiesIn, List.filter_cons]
        by_cases he : c.entityId = e
        · simp [copiesIn, he]
        · simp [copiesIn, he, Ne.symm he]
      have hone : (keys.map (fun e => if e = c.entityId then 1 else 0)).sum = 1 := by
        rw [List.sum_map_eq_nsmul_single c.entityId _ (fun e he _ => if_neg he),
          List.count_eq_one_of_mem hnodup (hkeys c List.mem_cons_self), if_pos rfl, one_nsmul]
      rw [List.map_congr_left (fun e _ => hstep e), List.sum_map_add,
        ih (fun x hx => hkeys x (List.mem_cons_of_mem _ hx)), hone, List.length_cons]

/-- The entries partition the candidates. -/
theorem sum_rows_collapseCandidates (candidates : List ServerNote) :
    ((collapseCandidates candidates).map (·.rows)).sum = candidates.length := by
  have hrows : (collapseCandidates candidates).map (·.rows)
      = ((collapseCandidates candidates).map (·.entityId)).map
        (fun e => (copiesIn candidates e).length) := by
    rw [List.map_map]
    exact List.map_congr_left (fun m hm => (mem_collapseCandidates hm).1.rows)
  rw [hrows, map_entityId_collapseCandidates]
  exact sum_length_copiesIn candidates _ (Lib.nodup_firstKeys _ _)
    (fun c hc => (Lib.mem_firstKeys _ _ _).mpr ⟨c, hc, rfl⟩)

end Spelunk
