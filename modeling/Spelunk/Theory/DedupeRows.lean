import Spelunk.Theory.DedupePhases

/-!
# Rows After a Dedupe Run

What each row a run keeps looks like, told from the rows of the store before
it: a kept row is the survivor of its group or alone in its identity
(`kept_cases`), a survivor is the oldest of its group, and its columns have the
members of the whole group.

## Theorems

* `mem_newMembers`: What a survivor gains.
* `kept_cases`: A kept row is a survivor or alone in its identity.
* `survivor_older`: Survivors are oldest.
* `exists_kept`: Every identity keeps a row, and links lead there.
* `mem_mergedRow_column`: A survivor's columns have its group's members.
-/

namespace Spelunk

open Lib (Sql SqlError)

open MemoryDb

variable [Sha256]

section Members

omit [Sha256] in
theorem mem_foldl_newMember (present : List String) (members new : List String) (t : String) :
    t ∈ members.foldl (fun new t => if t ∉ present ∧ t ∉ new then new ++ [t] else new) new ↔
      t ∈ new ∨ (t ∈ members ∧ t ∉ present) := by
  induction members generalizing new with
  | nil => simp
  | cons m members ih =>
      rw [List.foldl_cons, ih, List.mem_cons]
      by_cases hm : m ∉ present ∧ m ∉ new
      · rw [if_pos hm, List.mem_append, List.mem_singleton]
        constructor
        · rintro ((h | rfl) | h)
          · exact Or.inl h
          · exact Or.inr ⟨Or.inl rfl, hm.1⟩
          · exact Or.inr ⟨Or.inr h.1, h.2⟩
        · rintro (h | ⟨rfl | h, hp⟩)
          · exact Or.inl (Or.inl h)
          · exact Or.inl (Or.inr rfl)
          · exact Or.inr ⟨h, hp⟩
      · rw [if_neg hm]
        constructor
        · rintro (h | h)
          · exact Or.inl h
          · exact Or.inr ⟨Or.inr h.1, h.2⟩
        · rintro (h | ⟨rfl | h, hp⟩)
          · exact Or.inl h
          · exact Or.inl (by_contra fun hnew => hm ⟨hp, hnew⟩)
          · exact Or.inr ⟨h, hp⟩

omit [Sha256] in
/-- The new members are those of the losers that the survivor lacks. -/
theorem mem_newMembers (present : List String) (losers : List (List String)) (t : String) :
    t ∈ newMembers present losers ↔ (∃ l ∈ losers, t ∈ l) ∧ t ∉ present := by
  have hall : ∀ new, t ∈ losers.foldl (fun new members => members.foldl (fun new t =>
      if t ∉ present ∧ t ∉ new then new ++ [t] else new) new) new ↔
      t ∈ new ∨ ((∃ l ∈ losers, t ∈ l) ∧ t ∉ present) := by
    induction losers with
    | nil => simp
    | cons l losers ih =>
        intro new
        rw [List.foldl_cons, ih, mem_foldl_newMember]
        simp only [List.exists_mem_cons_iff, or_and_right, or_assoc]
  rw [newMembers, hall]
  simp only [List.not_mem_nil, false_or]

omit [Sha256] in
/-- A column that gains a group's new members has the members of the group. -/
theorem mem_splitCsv_mergedColumn (column : Option String) {losers : List (List String)}
    (hclean : ∀ l ∈ losers, ∀ t ∈ l, CleanMember t) (t : String) :
    t ∈ splitCsv (unionCsv column (newMembers (splitCsv column) losers)) ↔
      t ∈ splitCsv column ∨ ∃ l ∈ losers, t ∈ l := by
  rw [mem_splitCsv_unionCsv column (fun v hv => ?_), mem_newMembers]
  · by_cases hp : t ∈ splitCsv column
    · simp only [hp, true_or]
    · simp only [hp, false_or, not_false_eq_true, and_true]
  · rcases ((mem_newMembers _ _ v).mp hv).1 with ⟨l, hl, hvl⟩
    exact hclean l hl v hvl

end Members

section Survivors

variable {db : MemoryDb}

theorem survivorRow_columns (losers : List (Nat × Nat)) (g : DuplicateGroup) (r : NoteRow) :
    (survivorRow losers g r).createdAt = r.createdAt ∧
      (survivorRow losers g r).contentId = r.contentId ∧
      (survivorRow losers g r).tags = (mergedRow g r).tags ∧
      (survivorRow losers g r).linkedFiles = (mergedRow g r).linkedFiles := by
  simp only [survivorRow, archivedRow, mergedRow, NoteRow.contentId]
  split <;> split <;> exact ⟨rfl, rfl, rfl, rfl⟩

theorem contentId_dedupedRow (groups : List DuplicateGroup) (r : NoteRow) :
    (dedupedRow groups r).contentId = r.contentId := by
  rw [dedupedRow]
  split
  · exact (survivorRow_columns _ _ r).2.1
  · rfl

omit [Sha256] in
theorem id_dedupedRow (groups : List DuplicateGroup) (r : NoteRow) :
    (dedupedRow groups r).id = r.id := by
  rw [dedupedRow]
  split
  · exact (keepsIndexed_survivorRow _ _).id r
  · rfl

theorem createdAt_dedupedRow (groups : List DuplicateGroup) (r : NoteRow) :
    (dedupedRow groups r).createdAt = r.createdAt := by
  rw [dedupedRow]
  split
  · exact (survivorRow_columns _ _ r).1
  · rfl

theorem mem_deduped_notes {r' : NoteRow} :
    r' ∈ db.deduped.notes ↔
      ∃ r ∈ db.notes, r.id ∉ loserIds db.groups ∧ r' = dedupedRow db.groups r := by
  simp only [deduped, without, List.mem_filter, List.mem_map, decide_eq_true_eq]
  constructor
  · rintro ⟨⟨r, hr, rfl⟩, hgone⟩
    exact ⟨r, hr, by rwa [id_dedupedRow] at hgone, rfl⟩
  · rintro ⟨r, hr, hgone, rfl⟩
    exact ⟨⟨r, hr, rfl⟩, by rwa [id_dedupedRow]⟩

/-- A note has its row's identity. -/
theorem noteEntityId_rowToNote (r : NoteRow) : noteEntityId (rowToNote r) = r.contentId := rfl

/-- The rows of a group are those of its survivor's identity. -/
theorem rowToNote_mem_members_iff {g : DuplicateGroup} (hg : g ∈ db.groups) {r : NoteRow}
    (hr : r ∈ db.notes) :
    rowToNote r ∈ g.members ↔ r.contentId = noteEntityId g.survivor := by
  rw [mem_members_iff hg, noteEntityId_rowToNote]
  exact and_iff_right (mem_snapshot.mpr ⟨r, hr, rfl⟩)

/-- A row that is kept is the survivor of its group, or alone in its identity. -/
theorem kept_cases (hu : db.UniqueOk) {r : NoteRow} (hr : r ∈ db.notes)
    (hkept : r.id ∉ loserIds db.groups) :
    (∃ g ∈ db.groups, rowToNote r = g.survivor ∧
        dedupedRow db.groups r = survivorRow (loserToSurvivor db.groups) g r) ∨
      ((∀ x ∈ db.notes, x.contentId = r.contentId → x = r) ∧
        dedupedRow db.groups r = redirectRow (loserToSurvivor db.groups) r) := by
  have hmem : rowToNote r ∈ db.snapshot.filter (fun n => noteEntityId n = r.contentId) :=
    List.mem_filter.mpr ⟨mem_snapshot.mpr ⟨r, hr, rfl⟩, decide_eq_true rfl⟩
  rcases hf : db.snapshot.filter (fun n => noteEntityId n = r.contentId) with
    _ | ⟨a, _ | ⟨b, rest⟩⟩
  · rw [hf] at hmem
    exact absurd hmem List.not_mem_nil
  · -- Alone: every row of this identity is the one in the list.
    right
    have halone : ∀ x ∈ db.notes, x.contentId = r.contentId → x = r := by
      intro x hx hxe
      have hmemx : rowToNote x ∈ db.snapshot.filter (fun n => noteEntityId n = r.contentId) :=
        List.mem_filter.mpr ⟨mem_snapshot.mpr ⟨x, hx, rfl⟩, decide_eq_true hxe⟩
      rw [hf, List.mem_singleton] at hmem hmemx
      have hid : (rowToNote x).id = (rowToNote r).id := by rw [hmemx, hmem]
      exact eq_of_id_eq hu hx hr hid
    refine ⟨halone, ?_⟩
    rw [dedupedRow]
    split
    · next g hfind =>
      -- A group of this row would have a second row of its identity.
      rcases of_find?_survivor hfind with ⟨hg, hid⟩
      rcases exists_row_of_mem_snapshot hu (survivor_mem hg) with ⟨s, hs, hnote, _⟩
      have hsr : s = r := eq_of_id_eq hu hs hr (by rw [← hid, ← hnote]; rfl)
      have hlosers := ((mem_duplicateGroups_iff g).mp hg).1
      rcases hl : g.losers with _ | ⟨l, losers⟩
      · exact absurd hl hlosers
      · have hlmem : l ∈ g.losers := hl ▸ List.mem_cons_self
        rcases loser_mem hg hlmem with ⟨hlsnap, hle⟩
        rcases mem_snapshot.mp hlsnap with ⟨x, hx, rfl⟩
        have hxr : x = r := halone x hx (by
          rw [← noteEntityId_rowToNote x, hle, ← hnote, hsr]
          rfl)
        exact absurd (mem_loserIds.mpr ⟨g, hg, _, hlmem, by rw [hxr]; rfl⟩) hkept
    · rfl
  · left
    have hsurvivor : noteEntityId a = r.contentId :=
      of_decide_eq_true (List.mem_filter.mp (hf ▸ List.mem_cons_self :
        a ∈ db.snapshot.filter (fun n => noteEntityId n = r.contentId))).2
    have hg : (⟨a, b :: rest⟩ : DuplicateGroup) ∈ db.groups := by
      refine (mem_duplicateGroups_iff _).mpr ⟨List.cons_ne_nil _ _, ?_⟩
      rw [hsurvivor, hf]
      rfl
    have hra : rowToNote r = a := by
      rw [hf] at hmem
      rcases List.mem_cons.mp hmem with h | h
      · exact h
      · exact absurd (mem_loserIds.mpr ⟨_, hg, _, h, rfl⟩) hkept
    refine ⟨_, hg, hra, ?_⟩
    rw [dedupedRow, find?_survivor_eq hu hg (by rw [← hra]; rfl)]

/-- A survivor is older than every row of its group. -/
theorem survivor_older {g : DuplicateGroup} (hg : g ∈ db.groups) {r x : NoteRow}
    (hr : rowToNote r = g.survivor) (hx : rowToNote x ∈ g.members) : olderRow r x := by
  have hmembers := (pairwise_snapshot db).filter (fun n => noteEntityId n = noteEntityId g.survivor)
  rw [((mem_duplicateGroups_iff g).mp hg).2, DuplicateGroup.members, List.pairwise_cons] at hmembers
  rcases List.mem_cons.mp hx with h | h
  · have hsame : (rowToNote x).id = (rowToNote r).id ∧
        (rowToNote x).createdAt = (rowToNote r).createdAt := by rw [h, hr]; exact ⟨rfl, rfl⟩
    exact Or.inr ⟨hsame.2.symm, le_of_eq hsame.1.symm⟩
  · have := hmembers.1 _ h
    rw [← hr] at this
    exact this

/-- The row kept of an identity. -/
theorem exists_kept (hu : db.UniqueOk) {x : NoteRow} (hx : x ∈ db.notes) :
    ∃ r ∈ db.notes, r.id ∉ loserIds db.groups ∧ r.contentId = x.contentId ∧
      r.id = ((loserToSurvivor db.groups).lookup x.id).getD x.id := by
  have hids := nodup_snapshot_ids hu
  rcases hl : (loserToSurvivor db.groups).lookup x.id with _ | t
  · exact ⟨x, hx, (lookup_loserToSurvivor_eq_none_iff hids _).mp hl, rfl, rfl⟩
  · rcases (lookup_loserToSurvivor_eq_some_iff hids _ _).mp hl with ⟨g, hg, rfl, n, hn, hid⟩
    rcases exists_row_of_mem_snapshot hu (survivor_mem hg) with ⟨s, hs, hnote, _⟩
    have hsid : s.id = g.survivor.id := by rw [← hnote]; rfl
    refine ⟨s, hs, hsid ▸ survivor_notMem_loserIds hids hg, ?_, hsid⟩
    rcases loser_mem hg hn with ⟨hnsnap, hne⟩
    rcases mem_snapshot.mp hnsnap with ⟨y, hy, rfl⟩
    have hyx : y = x := eq_of_id_eq hu hy hx hid
    rw [← noteEntityId_rowToNote s, hnote, ← hne, hyx]
    rfl

/-- A survivor's column after the run: the members its whole group had. -/
theorem mem_mergedRow_column {g : DuplicateGroup} (hg : g ∈ db.groups) {r : NoteRow}
    (hnote : rowToNote r = g.survivor) (t : String) :
    (t ∈ splitCsv (mergedRow g r).tags ↔
        ∃ x ∈ db.notes, x.contentId = r.contentId ∧ t ∈ splitCsv x.tags) ∧
      (t ∈ splitCsv (mergedRow g r).linkedFiles ↔
        ∃ x ∈ db.notes, x.contentId = r.contentId ∧ t ∈ splitCsv x.linkedFiles) := by
  -- The group's members, read off the rows of the identity.
  have hgroup : ∀ f : Note → List String, (t ∈ f (rowToNote r) ∨ ∃ l ∈ g.losers.map f, t ∈ l) ↔
      ∃ x ∈ db.notes, x.contentId = r.contentId ∧ t ∈ f (rowToNote x) := by
    intro f
    have hrows : (∃ n ∈ g.members, t ∈ f n) ↔
        ∃ x ∈ db.notes, x.contentId = r.contentId ∧ t ∈ f (rowToNote x) := by
      constructor
      · rintro ⟨n, hn, ht⟩
        rcases (mem_members_iff hg n).mp hn with ⟨hsnap, he⟩
        rcases mem_snapshot.mp hsnap with ⟨x, hx, rfl⟩
        exact ⟨x, hx, by rw [← noteEntityId_rowToNote x, he, ← hnote]; rfl, ht⟩
      · rintro ⟨x, hx, he, ht⟩
        exact ⟨rowToNote x, (rowToNote_mem_members_iff hg hx).mpr (by rw [he, ← hnote]; rfl), ht⟩
    rw [← hrows, DuplicateGroup.members, List.exists_mem_cons_iff, ← hnote]
    simp only [List.mem_map, exists_exists_and_eq_and]
  have hclean : ∀ f : Note → List String, (∀ x : NoteRow, ∀ u ∈ f (rowToNote x), CleanMember u) →
      ∀ l ∈ g.losers.map f, ∀ u ∈ l, CleanMember u := by
    intro f hf l hl u hu
    rcases List.mem_map.mp hl with ⟨n, hn, rfl⟩
    rcases mem_snapshot.mp (loser_mem hg hn).1 with ⟨x, _, rfl⟩
    exact hf x u hu
  have htags := mem_splitCsv_mergedColumn r.tags
    (hclean (·.tags) (fun x u hu => cleanMember_of_mem_splitCsv hu)) t
  have hfiles := mem_splitCsv_mergedColumn r.linkedFiles
    (hclean (·.linkedFiles) (fun x u hu => cleanMember_of_mem_splitCsv hu)) t
  have htagsOf : (t ∈ splitCsv r.tags ∨ ∃ l ∈ g.losers.map (·.tags), t ∈ l) ↔
      ∃ x ∈ db.notes, x.contentId = r.contentId ∧ t ∈ splitCsv x.tags := hgroup (·.tags)
  have hfilesOf : (t ∈ splitCsv r.linkedFiles ∨ ∃ l ∈ g.losers.map (·.linkedFiles), t ∈ l) ↔
      ∃ x ∈ db.notes, x.contentId = r.contentId ∧ t ∈ splitCsv x.linkedFiles :=
    hgroup (·.linkedFiles)
  rw [← htagsOf, ← hfilesOf]
  have hst : g.survivor.tags = splitCsv r.tags := by rw [← hnote]; rfl
  have hsf : g.survivor.linkedFiles = splitCsv r.linkedFiles := by rw [← hnote]; rfl
  simp only [mergedRow, hst, hsf]
  split
  · exact ⟨htags, hfiles⟩
  · next hnone =>
    -- Nothing new: every member of a loser was the survivor's already.
    rw [not_or, not_not, not_not] at hnone
    have hsubset : ∀ present losers, newMembers present losers = [] →
        (∃ l ∈ losers, t ∈ l) → t ∈ present := by
      intro present losers hnil hl
      by_contra hp
      have := (mem_newMembers present losers t).mpr ⟨hl, hp⟩
      rw [hnil] at this
      exact List.not_mem_nil this
    exact ⟨⟨Or.inl, fun h => h.elim id (hsubset _ _ hnone.1)⟩,
      ⟨Or.inl, fun h => h.elim id (hsubset _ _ hnone.2)⟩⟩

end Survivors

end Spelunk
