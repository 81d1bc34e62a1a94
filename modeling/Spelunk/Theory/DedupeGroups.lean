import Spelunk.Core.Dedupe

/-!
# Duplicate Groups

What the grouping of a list of notes with distinct rowids guarantees: a group
is all the notes of one identity, no note is in two groups, no survivor is
doomed, and every doomed rowid leads to the one survivor of its group.

## Main definitions

* `loserIds`: The rowids a run deletes.

## Theorems

* `mem_duplicateGroups_iff`: The groups are the identities met more than once.
* `group_eq_of_id_eq`: A rowid belongs to one group.
* `lookup_loserToSurvivor_eq_some_iff`: Where a doomed rowid leads.
* `survivor_notMem_loserIds`: Survivors survive.
* `resolveSuccessor_notMem_loserIds`: A resolved successor survives.
-/

namespace Spelunk

/-- The rowids a run deletes. -/
def loserIds (groups : List DuplicateGroup) : List Nat :=
  groups.flatMap (fun g => g.losers.map (·.id))

theorem mem_loserIds {groups : List DuplicateGroup} {v : Nat} :
    v ∈ loserIds groups ↔ ∃ g ∈ groups, ∃ n ∈ g.losers, n.id = v := by
  simp only [loserIds, List.mem_flatMap, List.mem_map]

variable [Sha256] {all : List Note}

/-- A group is all the notes of its survivor's identity, of which there is more
    than one. -/
theorem mem_duplicateGroups_iff (g : DuplicateGroup) :
    g ∈ duplicateGroups all ↔ g.losers ≠ [] ∧
      all.filter (fun n => noteEntityId n = noteEntityId g.survivor) = g.members := by
  simp only [duplicateGroups, Lib.groupBy_eq, List.mem_filterMap, List.mem_map]
  constructor
  · rintro ⟨_, ⟨k, _, rfl⟩, hmatch⟩
    simp only at hmatch
    rcases hf : all.filter (fun n => noteEntityId n = k) with _ | ⟨survivor, _ | ⟨loser, losers⟩⟩
    · rw [hf] at hmatch
      exact absurd hmatch (by simp)
    · rw [hf] at hmatch
      exact absurd hmatch (by simp)
    · rw [hf] at hmatch
      have hg : DuplicateGroup.mk survivor (loser :: losers) = g := Option.some.inj hmatch
      have hmem : survivor ∈ all.filter (fun n => noteEntityId n = k) := hf ▸ List.mem_cons_self
      have hk : noteEntityId survivor = k := of_decide_eq_true (List.mem_filter.mp hmem).2
      subst hg
      refine ⟨List.cons_ne_nil _ _, ?_⟩
      rw [hk]
      exact hf
  · rintro ⟨hne, hmembers⟩
    have hmem : g.survivor ∈ all.filter (fun n => noteEntityId n = noteEntityId g.survivor) :=
      hmembers ▸ List.mem_cons_self
    refine ⟨_, ⟨noteEntityId g.survivor, ?_, rfl⟩, ?_⟩
    · exact (Lib.mem_firstKeys _ _ _).mpr ⟨g.survivor, (List.mem_filter.mp hmem).1, rfl⟩
    · simp only [hmembers, DuplicateGroup.members]
      rcases g with ⟨survivor, _ | ⟨loser, losers⟩⟩
      · exact absurd rfl hne
      · rfl

theorem mem_members_iff {g : DuplicateGroup} (hg : g ∈ duplicateGroups all) (n : Note) :
    n ∈ g.members ↔ n ∈ all ∧ noteEntityId n = noteEntityId g.survivor := by
  rw [← ((mem_duplicateGroups_iff g).mp hg).2, List.mem_filter, decide_eq_true_eq]

theorem survivor_mem {g : DuplicateGroup} (hg : g ∈ duplicateGroups all) : g.survivor ∈ all :=
  ((mem_members_iff hg _).mp List.mem_cons_self).1

theorem loser_mem {g : DuplicateGroup} (hg : g ∈ duplicateGroups all) {n : Note}
    (hn : n ∈ g.losers) : n ∈ all ∧ noteEntityId n = noteEntityId g.survivor :=
  (mem_members_iff hg n).mp (List.mem_cons_of_mem _ hn)

/-- Groups of one identity are one group. -/
theorem group_eq_of_entityId_eq {g g' : DuplicateGroup} (hg : g ∈ duplicateGroups all)
    (hg' : g' ∈ duplicateGroups all)
    (h : noteEntityId g.survivor = noteEntityId g'.survivor) : g = g' := by
  have hm := ((mem_duplicateGroups_iff g).mp hg).2
  have hm' := ((mem_duplicateGroups_iff g').mp hg').2
  rw [h, hm'] at hm
  rcases g with ⟨s, l⟩
  rcases g' with ⟨s', l'⟩
  simp only [DuplicateGroup.members, List.cons.injEq] at hm
  rw [hm.1, hm.2]

/-- The survivor carries the key of its group. -/
theorem entityId_survivor {k : String} {g : DuplicateGroup}
    (h : (match all.filter (fun n => noteEntityId n = k) with
      | survivor :: loser :: losers => some (DuplicateGroup.mk survivor (loser :: losers))
      | _ => none) = some g) : noteEntityId g.survivor = k := by
  rcases hf : all.filter (fun n => noteEntityId n = k) with _ | ⟨survivor, _ | ⟨loser, losers⟩⟩
  · rw [hf] at h
    cases h
  · rw [hf] at h
    cases h
  · rw [hf] at h
    have hmem : survivor ∈ all.filter (fun n => noteEntityId n = k) := hf ▸ List.mem_cons_self
    rw [← Option.some.inj h]
    exact of_decide_eq_true (List.mem_filter.mp hmem).2

theorem nodup_duplicateGroups (all : List Note) : (duplicateGroups all).Nodup := by
  rw [duplicateGroups, Lib.groupBy_eq, List.filterMap_map]
  refine List.Nodup.filterMap ?_ (Lib.nodup_firstKeys _ _)
  -- Equal groups have one survivor.
  exact fun k k' g hk hk' => (entityId_survivor hk).symm.trans (entityId_survivor hk')

section DistinctIds

variable (hids : (all.map (·.id)).Nodup)
include hids

/-- A rowid belongs to one group. -/
theorem group_eq_of_id_eq {g g' : DuplicateGroup} (hg : g ∈ duplicateGroups all)
    (hg' : g' ∈ duplicateGroups all) {n n' : Note} (hn : n ∈ g.members) (hn' : n' ∈ g'.members)
    (h : n.id = n'.id) : g = g' := by
  rcases (mem_members_iff hg n).mp hn with ⟨hmem, hk⟩
  rcases (mem_members_iff hg' n').mp hn' with ⟨hmem', hk'⟩
  have hsame : n = n' := List.inj_on_of_nodup_map hids hmem hmem' h
  exact group_eq_of_entityId_eq hg hg' (by rw [← hk, ← hk', hsame])

theorem nodup_members {g : DuplicateGroup} (hg : g ∈ duplicateGroups all) :
    (g.members.map (·.id)).Nodup := by
  rw [← ((mem_duplicateGroups_iff g).mp hg).2]
  exact hids.sublist (List.filter_sublist.map _)

theorem nodup_survivorIds : ((duplicateGroups all).map (·.survivor.id)).Nodup := by
  refine (nodup_duplicateGroups all).map_on (fun g hg g' hg' h => ?_)
  exact group_eq_of_id_eq hids hg hg' List.mem_cons_self List.mem_cons_self h

/-- Survivors survive. -/
theorem survivor_notMem_loserIds {g : DuplicateGroup} (hg : g ∈ duplicateGroups all) :
    g.survivor.id ∉ loserIds (duplicateGroups all) := by
  rw [mem_loserIds]
  rintro ⟨g', hg', n, hn, hid⟩
  have hsame := group_eq_of_id_eq hids hg' hg (List.mem_cons_of_mem _ hn) List.mem_cons_self hid
  subst hsame
  have hnodup := nodup_members hids hg
  rw [DuplicateGroup.members, List.map_cons, List.nodup_cons] at hnodup
  exact hnodup.1 (List.mem_map.mpr ⟨n, hn, hid⟩)

/-- A doomed rowid leads to the survivor of its group. -/
theorem lookup_loserToSurvivor_eq_some_iff (v t : Nat) :
    (loserToSurvivor (duplicateGroups all)).lookup v = some t ↔
      ∃ g ∈ duplicateGroups all, g.survivor.id = t ∧ ∃ n ∈ g.losers, n.id = v := by
  have hmem : ∀ v t, (v, t) ∈ loserToSurvivor (duplicateGroups all) ↔
      ∃ g ∈ duplicateGroups all, g.survivor.id = t ∧ ∃ n ∈ g.losers, n.id = v := by
    intro v t
    simp only [loserToSurvivor, List.mem_flatMap, List.mem_map, Prod.mk.injEq]
    constructor
    · rintro ⟨g, hg, n, hn, hv, ht⟩
      exact ⟨g, hg, ht, n, hn, hv⟩
    · rintro ⟨g, hg, ht, n, hn, hv⟩
      exact ⟨g, hg, n, hn, hv, ht⟩
  have hfun : ∀ t t', (v, t) ∈ loserToSurvivor (duplicateGroups all) →
      (v, t') ∈ loserToSurvivor (duplicateGroups all) → t = t' := by
    intro t t' ht ht'
    rcases (hmem v t).mp ht with ⟨g, hg, rfl, n, hn, hv⟩
    rcases (hmem v t').mp ht' with ⟨g', hg', rfl, n', hn', hv'⟩
    rw [group_eq_of_id_eq hids hg hg' (List.mem_cons_of_mem _ hn) (List.mem_cons_of_mem _ hn')
      (hv.trans hv'.symm)]
  constructor
  · intro h
    rcases List.lookup_eq_some_iff.mp h with ⟨l₁, l₂, hsplit, _⟩
    exact (hmem v t).mp (hsplit ▸ List.mem_append_right _ List.mem_cons_self)
  · intro h
    have hin := (hmem v t).mpr h
    rcases hl : (loserToSurvivor (duplicateGroups all)).lookup v with _ | t'
    · rw [List.lookup_eq_none_iff] at hl
      exact absurd (hl _ hin) (by simp)
    · rcases List.lookup_eq_some_iff.mp hl with ⟨l₁, l₂, hsplit, _⟩
      rw [hfun t t' hin (hsplit ▸ List.mem_append_right _ List.mem_cons_self)]

/-- Only doomed rowids are redirected. -/
theorem lookup_loserToSurvivor_eq_none_iff (v : Nat) :
    (loserToSurvivor (duplicateGroups all)).lookup v = none ↔
      v ∉ loserIds (duplicateGroups all) := by
  rw [mem_loserIds]
  constructor
  · rintro h ⟨g, hg, n, hn, hv⟩
    have := (lookup_loserToSurvivor_eq_some_iff hids v g.survivor.id).mpr ⟨g, hg, rfl, n, hn, hv⟩
    rw [h] at this
    exact absurd this (by simp)
  · intro h
    rcases hl : (loserToSurvivor (duplicateGroups all)).lookup v with _ | t
    · rfl
    · rcases (lookup_loserToSurvivor_eq_some_iff hids v t).mp hl with ⟨g, hg, _, n, hn, hv⟩
      exact absurd ⟨g, hg, n, hn, hv⟩ h

/-- A successor, redirected, is a rowid that survives. -/
theorem redirect_notMem_loserIds (v : Nat) :
    ((loserToSurvivor (duplicateGroups all)).lookup v).getD v ∉ loserIds (duplicateGroups all) := by
  rcases hl : (loserToSurvivor (duplicateGroups all)).lookup v with _ | t
  · exact (lookup_loserToSurvivor_eq_none_iff hids v).mp hl
  · rcases (lookup_loserToSurvivor_eq_some_iff hids v t).mp hl with ⟨g, hg, rfl, _⟩
    exact survivor_notMem_loserIds hids hg

/-- A redirected rowid of the list is a rowid of the list. -/
theorem redirect_mem_ids {v : Nat} (hv : v ∈ all.map (·.id)) :
    ((loserToSurvivor (duplicateGroups all)).lookup v).getD v ∈ all.map (·.id) := by
  rcases hl : (loserToSurvivor (duplicateGroups all)).lookup v with _ | t
  · exact hv
  · rcases (lookup_loserToSurvivor_eq_some_iff hids v t).mp hl with ⟨g, hg, rfl, _⟩
    exact List.mem_map_of_mem (survivor_mem hg)

end DistinctIds

end Spelunk
