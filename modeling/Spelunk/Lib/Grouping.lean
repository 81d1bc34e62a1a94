import Mathlib.Data.List.Induction
import Mathlib.Data.List.Nodup
import Mathlib.Data.List.Perm.Basic

/-!
# Grouping in First-Encounter Order

A hash map from keys to vectors, filled by one pass over a list, together with
the order in which its keys were first met. The pair behaves as one association
list in first-encounter order, and that is how it is modelled.

`groupBy_eq` replaces the pass by a closed form: the keys in first-encounter
order, each with the sublist of elements carrying it. Every later argument
about a grouping goes through it and never looks at the insertions again.

## Main definitions

* `insertGroup`: Adds one element to the group of its key.
* `groupBy`: The groups of a list, in first-encounter order.
* `firstKeys`: The keys of a list, in first-encounter order.
* `multimap`: A hash map of vectors filled with pairs.

## Theorems

* `groupBy_eq`: The groups are the sublists of equal key.
* `exists_mem_multimap`: What stands under a key was pushed there.
* `mem_firstKeys`: The first-encounter keys are the keys.
* `nodup_firstKeys`: No key is met for the first time twice.
* `nodup_eraseDups`: Nor is an element kept twice.
* `firstKeys_append`: Keys of a concatenation.
* `firstKeys_eq_of_nodup`: Distinct keys are all first encounters.
-/

namespace Spelunk

namespace Lib

variable {α κ : Type*} [DecidableEq κ]

/-- The group members of `x`'s key gain `x`; an unseen key opens a group. -/
def insertGroup (key : α → κ) : List (κ × List α) → α → List (κ × List α)
  | [], x => [(key x, [x])]
  | (k, group) :: groups, x =>
      if k = key x then (k, group ++ [x]) :: groups else (k, group) :: insertGroup key groups x

/-- The groups of a list, in first-encounter order. -/
def groupBy (key : α → κ) (l : List α) : List (κ × List α) :=
  l.foldl (insertGroup key) []

/-- The keys of a list, in first-encounter order. -/
def firstKeys (key : α → κ) (l : List α) : List κ :=
  l.foldl (fun seen x => if key x ∈ seen then seen else seen ++ [key x]) []

@[simp] theorem firstKeys_nil (key : α → κ) : firstKeys key [] = [] := rfl

theorem firstKeys_concat (key : α → κ) (l : List α) (x : α) :
    firstKeys key (l ++ [x])
      = if key x ∈ firstKeys key l then firstKeys key l else firstKeys key l ++ [key x] := by
  rw [firstKeys, List.foldl_append]
  rfl

theorem mem_firstKeys (key : α → κ) (l : List α) (k : κ) :
    k ∈ firstKeys key l ↔ ∃ x ∈ l, key x = k := by
  induction l using List.reverseRecOn with
  | nil => simp only [firstKeys_nil, List.not_mem_nil, false_and, exists_false]
  | append_singleton l x ih =>
      rw [firstKeys_concat]
      constructor
      · intro h
        by_cases hx : key x ∈ firstKeys key l
        · rw [if_pos hx] at h
          rcases ih.mp h with ⟨y, hy, hk⟩
          exact ⟨y, List.mem_append_left _ hy, hk⟩
        · rw [if_neg hx, List.mem_append, List.mem_singleton] at h
          rcases h with h | h
          · rcases ih.mp h with ⟨y, hy, hk⟩
            exact ⟨y, List.mem_append_left _ hy, hk⟩
          · exact ⟨x, List.mem_append_right _ (List.mem_singleton_self x), h.symm⟩
      · rintro ⟨y, hy, hk⟩
        rcases List.mem_append.mp hy with hy | hy
        · have hmem := ih.mpr ⟨y, hy, hk⟩
          split
          · exact hmem
          · exact List.mem_append_left _ hmem
        · rw [List.mem_singleton] at hy
          subst hy hk
          split
          · assumption
          · exact List.mem_append_right _ (List.mem_singleton_self _)

theorem nodup_firstKeys (key : α → κ) (l : List α) : (firstKeys key l).Nodup := by
  induction l using List.reverseRecOn with
  | nil => exact List.nodup_nil
  | append_singleton l x ih =>
      rw [firstKeys_concat]
      by_cases hx : key x ∈ firstKeys key l
      · rw [if_pos hx]
        exact ih
      · rw [if_neg hx]
        exact (List.nodup_append).mpr ⟨ih, List.nodup_singleton _, fun a ha b hb => by
          rw [List.mem_singleton] at hb
          subst hb
          exact fun hab => hx (hab ▸ ha)⟩

omit [DecidableEq κ] in
/-- The first encounters of a list are distinct. -/
theorem nodup_eraseDups [BEq κ] [LawfulBEq κ] (l : List κ) : l.eraseDups.Nodup := by
  induction l using List.reverseRecOn with
  | nil => exact List.nodup_nil
  | append_singleton l x ih =>
    rw [List.eraseDups_append]
    refine ih.append ?_ ?_
    · by_cases h : x ∈ l
      · simp [List.removeAll, h]
      · simp [List.removeAll, h, List.eraseDups_cons]
    · intro y hy hy'
      have hremoved := (List.mem_filter.1 (List.mem_eraseDups.1 hy')).2
      simp only [List.elem_eq_mem, Bool.not_eq_true', decide_eq_false_iff_not] at hremoved
      exact hremoved (List.mem_eraseDups.1 hy)

/-- Keys of a concatenation: those of the left part, then the new ones. -/
theorem firstKeys_append (key : α → κ) (l r : List α) :
    firstKeys key (l ++ r)
      = firstKeys key l ++ (firstKeys key r).filter (fun k => k ∉ firstKeys key l) := by
  induction r using List.reverseRecOn with
  | nil => simp only [List.append_nil, firstKeys_nil, List.filter_nil]
  | append_singleton r x ih =>
      have hmem : key x ∈ firstKeys key (l ++ r) ↔
          key x ∈ firstKeys key l ∨ key x ∈ firstKeys key r := by
        simp only [mem_firstKeys, List.mem_append]
        constructor
        · rintro ⟨y, hy | hy, hk⟩
          · exact Or.inl ⟨y, hy, hk⟩
          · exact Or.inr ⟨y, hy, hk⟩
        · rintro (⟨y, hy, hk⟩ | ⟨y, hy, hk⟩)
          · exact ⟨y, Or.inl hy, hk⟩
          · exact ⟨y, Or.inr hy, hk⟩
      rw [← List.append_assoc, firstKeys_concat, firstKeys_concat, ih]
      by_cases hl : key x ∈ firstKeys key l
      · by_cases hr : key x ∈ firstKeys key r
        · rw [if_pos (by rw [← ih]; exact hmem.mpr (Or.inl hl)), if_pos hr]
        · rw [if_pos (by rw [← ih]; exact hmem.mpr (Or.inl hl)), if_neg hr, List.filter_append]
          simp only [List.filter_cons, hl, not_true_eq_false, decide_false, List.filter_nil,
            Bool.false_eq_true, if_false, List.append_nil]
      · by_cases hr : key x ∈ firstKeys key r
        · rw [if_pos (by rw [← ih]; exact hmem.mpr (Or.inr hr)), if_pos hr]
        · have hnot : key x ∉ firstKeys key (l ++ r) := fun h => (hmem.mp h).elim hl hr
          rw [if_neg (by rw [← ih]; exact hnot), if_neg hr, List.filter_append]
          simp only [List.filter_cons, hl, not_false_eq_true, decide_true, List.filter_nil,
            if_true, List.append_assoc]

/-- When no key repeats, every element is the first encounter of its key. -/
theorem firstKeys_eq_of_nodup (key : α → κ) (l : List α) (h : (l.map key).Nodup) :
    firstKeys key l = l.map key := by
  induction l using List.reverseRecOn with
  | nil => rfl
  | append_singleton l x ih =>
      rw [List.map_append, List.map_singleton] at h ⊢
      rcases List.nodup_append.mp h with ⟨hl, _, hdis⟩
      have hnot : key x ∉ l.map key :=
        fun hmem => hdis _ hmem _ (List.mem_singleton_self _) rfl
      rw [firstKeys_concat, ih hl, if_neg hnot]

/-- Inserting into an association list given as a map over distinct keys. -/
theorem insertGroup_map (key : α → κ) (f : κ → List α) (ks : List κ) (x : α) (h : ks.Nodup) :
    insertGroup key (ks.map (fun k => (k, f k))) x
      = if key x ∈ ks then ks.map (fun k => (k, if k = key x then f k ++ [x] else f k))
        else ks.map (fun k => (k, f k)) ++ [(key x, [x])] := by
  induction ks with
  | nil => simp only [List.map_nil, insertGroup, List.not_mem_nil, if_false, List.nil_append]
  | cons k ks ih =>
      rcases List.nodup_cons.mp h with ⟨hk, hks⟩
      rw [List.map_cons, insertGroup]
      by_cases hkx : k = key x
      · rw [if_pos hkx, if_pos (by rw [hkx]; exact List.mem_cons_self), List.map_cons,
          if_pos hkx]
        congr 1
        -- The other keys differ from `k`, so their groups are as they were.
        refine List.map_congr_left (fun j hj => ?_)
        have hj' : j ≠ key x := by
          rintro rfl
          exact hk (hkx ▸ hj)
        rw [if_neg hj']
      · rw [if_neg hkx, ih hks]
        by_cases hx : key x ∈ ks
        · rw [if_pos hx, if_pos (List.mem_cons_of_mem _ hx), List.map_cons, if_neg hkx]
        · have hnot : key x ∉ k :: ks := by
            rw [List.mem_cons]
            rintro (heq | hmem)
            · exact hkx heq.symm
            · exact hx hmem
          rw [if_neg hx, if_neg hnot]
          rfl

/-- The pass in closed form: first-encounter keys, each with its elements. -/
theorem groupBy_eq (key : α → κ) (l : List α) :
    groupBy key l = (firstKeys key l).map (fun k => (k, l.filter (fun x => key x = k))) := by
  induction l using List.reverseRecOn with
  | nil => rfl
  | append_singleton l x ih =>
      have hstep : groupBy key (l ++ [x]) = insertGroup key (groupBy key l) x := by
        simp only [groupBy, List.foldl_append, List.foldl_cons, List.foldl_nil]
      have hfilter : ∀ k, (l ++ [x]).filter (fun y => key y = k)
          = if k = key x then l.filter (fun y => key y = k) ++ [x]
            else l.filter (fun y => key y = k) := by
        intro k
        rw [List.filter_append]
        by_cases hk : k = key x
        · rw [if_pos hk]
          simp only [List.filter_cons, hk, decide_true, List.filter_nil, if_true]
        · rw [if_neg hk]
          simp only [List.filter_cons, Ne.symm hk, decide_false, List.filter_nil,
            Bool.false_eq_true, if_false, List.append_nil]
      rw [hstep, ih, insertGroup_map _ _ _ _ (nodup_firstKeys key l), firstKeys_concat]
      by_cases hx : key x ∈ firstKeys key l
      · rw [if_pos hx, if_pos hx]
        exact List.map_congr_left (fun k _ => by rw [hfilter k])
      · rw [if_neg hx, if_neg hx, List.map_append, List.map_singleton]
        congr 1
        · refine List.map_congr_left (fun k hk => ?_)
          have hne : k ≠ key x := by
            rintro rfl
            exact hx hk
          rw [hfilter k, if_neg hne]
        · -- No earlier element carries the new key.
          have hnone : l.filter (fun y => key y = key x) = [] := by
            rw [List.filter_eq_nil_iff]
            intro y hy hky
            exact hx ((mem_firstKeys key l _).mpr ⟨y, hy, of_decide_eq_true hky⟩)
          rw [hfilter, if_pos rfl, hnone, List.nil_append]

/-! ### Maps of vectors -/

section Multimap

variable {β : Type*}

/-- The values of each key: a hash map of vectors, filled by `entry(k).or_default().push(v)`. -/
def multimap (rows : List (κ × β)) : List (κ × List β) :=
  (groupBy Prod.fst rows).map fun g => (g.1, g.2.map Prod.snd)

theorem multimap_eq (rows : List (κ × β)) : multimap rows =
    (firstKeys Prod.fst rows).map fun k => (k, (rows.filter fun r => r.1 = k).map Prod.snd) := by
  rw [multimap, groupBy_eq, List.map_map]
  rfl

theorem nodup_keys_multimap (rows : List (κ × β)) : ((multimap rows).map Prod.fst).Nodup := by
  have hkeys : (multimap rows).map Prod.fst = firstKeys Prod.fst rows := by
    rw [multimap_eq, List.map_map]
    exact List.map_id _
  rw [hkeys]
  exact nodup_firstKeys _ _

/-- What stands under a key was a row. -/
theorem exists_mem_multimap {rows : List (κ × β)} {k : κ} {v : β} :
    (∃ g ∈ multimap rows, g.1 = k ∧ v ∈ g.2) ↔ (k, v) ∈ rows := by
  rw [multimap_eq]
  constructor
  · rintro ⟨g, hg, rfl, hv⟩
    obtain ⟨k, -, rfl⟩ := List.mem_map.1 hg
    obtain ⟨r, hr, rfl⟩ := List.mem_map.1 hv
    obtain ⟨hr, hkey⟩ := List.mem_filter.1 hr
    have hkey : r.1 = k := of_decide_eq_true hkey
    exact hkey ▸ hr
  · intro h
    refine ⟨_, List.mem_map_of_mem ((mem_firstKeys _ _ _).2 ⟨(k, v), h, rfl⟩), rfl, ?_⟩
    exact List.mem_map.2 ⟨(k, v), List.mem_filter.2 ⟨h, decide_eq_true rfl⟩, rfl⟩

/-- No key stands there without a value. -/
theorem exists_value_of_mem_multimap {rows : List (κ × β)} {g : κ × List β}
    (h : g ∈ multimap rows) : ∃ v, v ∈ g.2 := by
  rw [multimap_eq] at h
  obtain ⟨k, hk, rfl⟩ := List.mem_map.1 h
  obtain ⟨r, hr, rfl⟩ := (mem_firstKeys _ _ _).1 hk
  exact ⟨r.2, List.mem_map_of_mem (List.mem_filter.2 ⟨hr, decide_eq_true rfl⟩)⟩

/-- The rows of a map of vectors. -/
def mapRows (m : List (κ × List β)) : List (κ × β) := m.flatMap fun g => g.2.map fun v => (g.1, v)

/-- The rows of the map are those that it was filled with. -/
theorem mapRows_multimap_perm (rows : List (κ × β)) : (mapRows (multimap rows)).Perm rows := by
  have hgroups : mapRows (multimap rows) =
      (firstKeys Prod.fst rows).flatMap fun k => rows.filter fun r => decide (r.1 = k) := by
    unfold mapRows
    rw [multimap_eq, List.flatMap_map]
    refine List.flatMap_congr fun k _ => ?_
    rw [List.map_map]
    refine (List.map_congr_left fun r hr => ?_).trans (List.map_id _)
    exact Prod.ext (of_decide_eq_true (List.mem_filter.1 hr).2).symm rfl
  rw [hgroups]
  -- The rows of one key after the other, for distinct keys that are all there are.
  have hkeys : ∀ (ks : List κ), ks.Nodup → ∀ rows : List (κ × β), (∀ r ∈ rows, r.1 ∈ ks) →
      (ks.flatMap fun k => rows.filter fun r => decide (r.1 = k)).Perm rows := by
    intro ks hnodup
    induction ks with
    | nil =>
      intro rows hall
      cases rows with
      | nil => exact List.Perm.refl _
      | cons r rows => exact absurd (hall r List.mem_cons_self) List.not_mem_nil
    | cons k ks ih =>
      intro rows hall
      obtain ⟨hk, hnodup⟩ := List.nodup_cons.1 hnodup
      have hrest : (ks.flatMap fun j => rows.filter fun r => decide (r.1 = j)) =
          ks.flatMap fun j => (rows.filter fun r => !decide (r.1 = k)).filter
            fun r => decide (r.1 = j) := by
        refine List.flatMap_congr fun j hj => ?_
        rw [List.filter_filter]
        refine List.filter_congr fun r _ => ?_
        by_cases hr : r.1 = j
        · have hne : r.1 ≠ k := fun he => hk (he.symm.trans hr ▸ hj)
          simp [hr, hr ▸ hne]
        · simp [hr]
      rw [List.flatMap_cons, hrest]
      refine (List.Perm.append_left _ (ih hnodup _ fun r hr => ?_)).trans
        (List.filter_append_perm _ rows)
      obtain ⟨hr, hne⟩ := List.mem_filter.1 hr
      have hne : r.1 ≠ k := by simpa using hne
      exact (List.mem_cons.1 (hall r hr)).resolve_left hne
  refine hkeys _ (nodup_firstKeys _ _) rows fun r hr => ?_
  exact (mem_firstKeys _ _ _).2 ⟨r, hr, rfl⟩

end Multimap

end Lib

end Spelunk
