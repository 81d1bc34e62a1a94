import Mathlib.Algebra.BigOperators.Group.List.Basic
import Mathlib.Algebra.Order.Field.Basic
import Mathlib.Data.List.Dedup
import Mathlib.Tactic.Linarith
import Mathlib.Tactic.Positivity
import Spelunk.Core.HybridSearch
import Spelunk.Lib.Ranking

/-!
# The Order of Hybrid Results

What `search_hybrid` makes of its two lists: every id of one of them once, under the sum
of the parts it has in both, by descending score. The entries are sorted in the order of
a hash map, so the results are the same in every such order if and only if no two ids
with the same sum come into them; and such sums are common, since a result that is in one
list only has the part of its rank.

## Main definitions

* `rrfSum`, `rrfTotal`: The parts of an id in a list, and in both.
* `FusionDecided`: When two candidates with the same sum are behind the cut.
* `TopOf`: Results that are the first of a ranking.

## Theorems

* `scoresOf_fusedScores`, `fusedScores_perm`: The scores.
* `fuse_pairs`: The results by id and score.
* `searchHybrid_iff`: When the order does not matter.
* `topOf_searchHybrid`: What the results are in every order.
-/

namespace Spelunk

open Lib (ranked Descending Decided toFront toFront_perm)

section Fusion

variable {ι : Type*} [DecidableEq ι]

/-! ### Scores -/

/-- The parts of an id in a list. -/
def rrfSum (ids : List ι) (id : ι) : ℚ :=
  (ids.zipIdx.map fun p => if p.1 = id then rrf p.2 else 0).sum

theorem rrf_pos (rank : ℕ) : 0 < rrf rank := by
  unfold rrf rrfK
  positivity

/-- Ids are there once, and have a score if and only if it is positive. -/
structure ScoresOf (sum : ι → ℚ) (scores : List (ι × ℚ)) : Prop where
  nodup : (scores.map Prod.fst).Nodup
  value : ∀ p ∈ scores, p.2 = sum p.1
  listed : ∀ id, id ∈ scores.map Prod.fst ↔ 0 < sum id
  nonneg : ∀ id, 0 ≤ sum id

theorem ScoresOf.addScore {sum : ι → ℚ} {scores : List (ι × ℚ)} (h : ScoresOf sum scores) (id : ι)
    {x : ℚ} (hx : 0 < x) :
    ScoresOf (fun j => sum j + if id = j then x else 0) (addScore scores id x) := by
  have hnonneg : ∀ j, 0 ≤ sum j + if id = j then x else 0 := by
    intro j
    have := h.nonneg j
    split <;> linarith
  unfold Spelunk.addScore
  by_cases hmem : id ∈ scores.map Prod.fst
  · rw [if_pos hmem]
    have hkey : ∀ p : ι × ℚ, (if p.1 = id then (p.1, p.2 + x) else p).1 = p.1 := by
      intro p
      split <;> rfl
    have hkeys : (scores.map fun p => if p.1 = id then (p.1, p.2 + x) else p).map Prod.fst =
        scores.map Prod.fst := by
      rw [List.map_map]
      exact List.map_congr_left fun p _ => hkey p
    refine ⟨hkeys ▸ h.nodup, fun q hq => ?_, fun j => ?_, hnonneg⟩
    · obtain ⟨p, hp, rfl⟩ := List.mem_map.1 hq
      by_cases hid : p.1 = id
      · simp [hid, h.value p hp]
      · simp [hid, Ne.symm hid, h.value p hp]
    · rw [hkeys, h.listed j]
      by_cases hid : id = j
      · subst hid
        have hpos := (h.listed id).1 hmem
        simp only [if_true]
        exact iff_of_true hpos (by linarith)
      · simp [hid]
  · rw [if_neg hmem]
    have hzero : sum id = 0 := by
      have hnot := mt (h.listed id).2 hmem
      exact le_antisymm (not_lt.1 hnot) (h.nonneg id)
    refine ⟨?_, fun q hq => ?_, fun j => ?_, hnonneg⟩
    · rw [List.map_append, List.map_singleton]
      refine h.nodup.append (List.nodup_singleton _) ?_
      intro k hk hs
      rw [List.mem_singleton.1 hs] at hk
      exact hmem hk
    · rcases List.mem_append.1 hq with hq | hq
      · have hne : id ≠ q.1 := fun he => hmem (he ▸ List.mem_map_of_mem hq)
        simp [hne, h.value q hq]
      · rw [List.mem_singleton.1 hq]
        simp [hzero]
    · rw [List.map_append, List.map_singleton, List.mem_append, List.mem_singleton, h.listed j]
      by_cases hid : id = j
      · subst hid
        simp [hzero, hx]
      · simp [hid, Ne.symm hid]

/-- One of the two lists is added. -/
theorem ScoresOf.addRanked {sum : ι → ℚ} {scores : List (ι × ℚ)} (h : ScoresOf sum scores)
    (ids : List ι) : ScoresOf (fun j => sum j + rrfSum ids j) (addRanked scores ids) := by
  unfold Spelunk.addRanked rrfSum
  generalize ids.zipIdx = ranks
  induction ranks generalizing sum scores with
  | nil => simpa using h
  | cons p ranks ih =>
    have hstep := ih (h.addScore p.1 (rrf_pos p.2))
    rw [List.foldl_cons]
    simpa only [List.map_cons, List.sum_cons, add_assoc] using hstep

/-- The scores: every id of one of the lists, under the sum of its parts. -/
theorem scoresOf_fusedScores (vec text : List ι) :
    ScoresOf (fun j => rrfSum vec j + rrfSum text j) (fusedScores vec text) := by
  have hnil : ScoresOf (fun _ : ι => (0 : ℚ)) [] :=
    ⟨List.nodup_nil, fun _ h => absurd h List.not_mem_nil, by simp, fun _ => le_rfl⟩
  have hboth := (hnil.addRanked vec).addRanked text
  simp only [zero_add] at hboth
  exact hboth

theorem rrfSum_nonneg (ids : List ι) (id : ι) : 0 ≤ rrfSum ids id := by
  refine List.sum_nonneg fun x hx => ?_
  obtain ⟨p, -, rfl⟩ := List.mem_map.1 hx
  split
  · exact (rrf_pos _).le
  · exact le_rfl

theorem rrfSum_pos_iff {ids : List ι} {id : ι} : 0 < rrfSum ids id ↔ id ∈ ids := by
  constructor
  · intro hpos
    by_contra hmem
    have hzero : rrfSum ids id = 0 := by
      refine List.sum_eq_zero fun x hx => ?_
      obtain ⟨p, hp, rfl⟩ := List.mem_map.1 hx
      refine if_neg fun he => hmem ?_
      rw [← he]
      exact List.fst_mem_of_mem_zipIdx hp
    exact absurd hzero hpos.ne'
  · intro hmem
    obtain ⟨k, hk⟩ := List.getElem?_of_mem hmem
    have hin : rrf k ∈ ids.zipIdx.map fun p => if p.1 = id then rrf p.2 else (0 : ℚ) :=
      List.mem_map.2 ⟨(id, k), List.mk_mem_zipIdx_iff_getElem?.2 hk, if_pos rfl⟩
    refine (rrf_pos k).trans_le (List.single_le_sum (fun x hx => ?_) _ hin)
    obtain ⟨p, -, rfl⟩ := List.mem_map.1 hx
    split
    · exact (rrf_pos _).le
    · exact le_rfl

theorem mem_ids_fusedScores {vec text : List ι} {id : ι} :
    id ∈ (fusedScores vec text).map Prod.fst ↔ id ∈ vec ∨ id ∈ text := by
  rw [(scoresOf_fusedScores vec text).listed id, ← rrfSum_pos_iff, ← rrfSum_pos_iff]
  have hvec := rrfSum_nonneg vec id
  have htext := rrfSum_nonneg text id
  constructor
  · intro h
    by_contra hnone
    push Not at hnone
    linarith
  · rintro (h | h) <;> linarith

/-! ### Rankings -/

/-- What an id has in both lists. -/
def rrfTotal (vec text : List ι) (id : ι) : ℚ := rrfSum vec id + rrfSum text id

/-- The ids of both lists with what they have. -/
def candidateScores (vec text : List ι) : List (ι × ℚ) :=
  (vec ++ text).dedup.map fun id => (id, rrfTotal vec text id)

/-- Of two candidates with the same sum, as many have a greater one as are asked for. -/
def FusionDecided (limit : ℕ) (vec text : List ι) : Prop :=
  Decided (rrfTotal vec text) limit (vec ++ text).dedup

theorem fusedScores_perm (vec text : List ι) :
    (fusedScores vec text).Perm (candidateScores vec text) := by
  have hscores := scoresOf_fusedScores vec text
  have hvalues : fusedScores vec text = ((fusedScores vec text).map Prod.fst).map
      fun id => (id, rrfTotal vec text id) := by
    rw [List.map_map]
    refine (List.map_id _).symm.trans (List.map_congr_left fun p hp => ?_)
    exact Prod.ext rfl (hscores.value p hp)
  rw [hvalues]
  refine List.Perm.map _ ((List.perm_ext_iff_of_nodup hscores.nodup (List.nodup_dedup _)).2 ?_)
  intro id
  rw [mem_ids_fusedScores, List.mem_dedup, List.mem_append]

theorem nodup_candidateScores (vec text : List ι) :
    ((candidateScores vec text).map Prod.fst).Nodup := by
  have hids : (candidateScores vec text).map Prod.fst = (vec ++ text).dedup := by
    unfold candidateScores
    rw [List.map_map]
    exact List.map_id _
  exact hids ▸ List.nodup_dedup _

theorem decided_fusedScores_iff {limit : ℕ} {vec text : List ι} :
    Decided Prod.snd limit (fusedScores vec text) ↔ FusionDecided limit vec text := by
  have hinj : Function.Injective fun id : ι => (id, rrfTotal vec text id) := fun _ _ h =>
    (Prod.mk.inj h).1
  have hmap : Decided Prod.snd limit (candidateScores vec text) ↔ FusionDecided limit vec text :=
    Lib.decided_map hinj
  rw [← hmap]
  have hperm := fusedScores_perm vec text
  exact ⟨fun h => h.perm hperm, fun h => h.perm hperm.symm⟩

/-- Results that are the first of a ranking of all that is scored. -/
structure TopOf (scored : List (ι × ℚ)) (limit : ℕ) (results : List (ι × ℚ)) : Prop where
  nodup : (results.map Prod.fst).Nodup
  length : results.length ≤ limit
  descending : Descending Prod.snd results
  top : ∃ ranking : List (ι × ℚ), ranking.Perm scored ∧ Descending Prod.snd ranking ∧
    results = ranking.take limit

omit [DecidableEq ι] in
theorem topOf_ranked {scored l : List (ι × ℚ)} (hperm : l.Perm scored)
    (hnodup : (scored.map Prod.fst).Nodup) (limit : ℕ) :
    TopOf scored limit ((ranked Prod.snd l).take limit) := by
  have hranked := (Lib.ranked_perm Prod.snd l).trans hperm
  refine ⟨?_, List.length_take_le _ _, ?_, _, hranked, Lib.descending_ranked _ _, rfl⟩
  · exact ((hranked.map Prod.fst).nodup_iff.2 hnodup).sublist ((List.take_sublist _ _).map _)
  · exact (Lib.descending_ranked Prod.snd l).sublist (List.take_sublist _ _)

omit [DecidableEq ι] in
theorem eq_of_fst_eq {scores : List (ι × ℚ)} (hnodup : (scores.map Prod.fst).Nodup) :
    ∀ p ∈ scores, ∀ q ∈ scores, p.1 = q.1 → p = q := fun _ hp _ hq h =>
  List.inj_on_of_nodup_map hnodup hp hq h

/-- When the order of the scores does not matter. -/
theorem take_ranked_iff {scores : List (ι × ℚ)} (hnodup : (scores.map Prod.fst).Nodup) (n : ℕ) :
    (∀ order order' : IterationOrder (ι × ℚ), ((ranked Prod.snd (order.of scores)).take n).map
      Prod.fst = ((ranked Prod.snd (order'.of scores)).take n).map Prod.fst) ↔
      Decided Prod.snd n scores := by
  constructor
  · intro h
    exact Lib.decided_of_take_eq (List.Nodup.of_map _ hnodup) (eq_of_fst_eq hnodup)
      fun x _ y _ => h ⟨toFront x, toFront_perm x⟩ ⟨toFront y, toFront_perm y⟩
  · intro h order order'
    have hperm := (Lib.ranked_perm Prod.snd _).trans (order.perm scores)
    have hperm' := (Lib.ranked_perm Prod.snd _).trans (order'.perm scores)
    exact congrArg _ (Lib.take_eq_of_decided (Lib.descending_ranked _ _) (Lib.descending_ranked _ _)
      (hperm.trans hperm'.symm) (h.perm hperm.symm))

/-! ### Results -/

variable {α : Type*} (key : α → ι)

/-- The results by id and score. -/
theorem fuse_pairs (order : IterationOrder (ι × ℚ)) (limit : ℕ) (vec text : List α) :
    (fuse key order limit vec text).map (fun r => (key r.row, r.score)) =
      (ranked Prod.snd (order.of (fusedScores (vec.map key) (text.map key)))).take limit := by
  have hfound : ∀ p ∈ (ranked Prod.snd
        (order.of (fusedScores (vec.map key) (text.map key)))).take limit,
      (((vec ++ text).find? fun row => decide (key row = p.1)).map fun row =>
        (⟨row, p.2, 1 / p.2⟩ : Fused α)).map (fun r => (key r.row, r.score)) = some p := by
    intro p hp
    have hscores : p ∈ fusedScores (vec.map key) (text.map key) :=
      (order.perm _).mem_iff.1 ((Lib.mem_ranked _).1 (List.mem_of_mem_take hp))
    have hid := mem_ids_fusedScores.1 (List.mem_map_of_mem hscores)
    rw [← List.mem_append, ← List.map_append] at hid
    obtain ⟨row, hrow, hkey⟩ := List.mem_map.1 hid
    cases hfind : (vec ++ text).find? fun row => decide (key row = p.1) with
    | none => exact absurd (List.find?_eq_none.1 hfind row hrow) (by simp [hkey])
    | some found =>
      have hsame : key found = p.1 := by simpa using List.find?_some hfind
      simp [hsame]
  unfold fuse
  simp only [List.map_filterMap]
  exact (List.filterMap_congr hfound).trans List.filterMap_some

theorem fuse_distance {order : IterationOrder (ι × ℚ)} {limit : ℕ} {vec text : List α} {r : Fused α}
    (hr : r ∈ fuse key order limit vec text) : r.distance = 1 / r.score := by
  obtain ⟨p, -, hp⟩ := List.mem_filterMap.1 hr
  obtain ⟨row, -, rfl⟩ := Option.map_eq_some_iff.1 hp
  rfl

/-- The ids of the two lists that are fused. -/
def fusedLists (similar text : ℕ → Option (List α)) (limit : ℕ) : List ι × List ι :=
  match similar (rrfCandidates limit) with
  | none => ([], [])
  | some vec => (vec.map key, ((text (rrfCandidates limit)).getD []).map key)

variable {key} {similar text : ℕ → Option (List α)} {limit : ℕ}

theorem searchHybrid_pairs {order : IterationOrder (ι × ℚ)} {results : List (Fused α)}
    (h : searchHybrid key order similar text limit = some results) :
    results.map (fun r => (key r.row, r.score)) =
      (ranked Prod.snd (order.of (fusedScores (fusedLists key similar text limit).1
        (fusedLists key similar text limit).2))).take limit := by
  obtain ⟨vec, hvec, rfl⟩ := Option.map_eq_some_iff.1 h
  rw [fuse_pairs]
  unfold fusedLists
  rw [hvec]

/-- The ids of the results, in their order. -/
def resultIds (key : α → ι) (found : Option (List (Fused α))) : Option (List ι) :=
  found.map fun results => results.map fun r => key r.row

/-- When the order does not matter. -/
theorem searchHybrid_iff :
    (∀ order order' : IterationOrder (ι × ℚ),
      resultIds key (searchHybrid key order similar text limit) =
        resultIds key (searchHybrid key order' similar text limit)) ↔
      FusionDecided limit (fusedLists key similar text limit).1
        (fusedLists key similar text limit).2 := by
  rw [← decided_fusedScores_iff]
  refine Iff.trans ?_ (take_ranked_iff (scoresOf_fusedScores _ _).nodup limit)
  cases hvec : similar (rrfCandidates limit) with
  | none =>
    have hnone : ∀ order, searchHybrid key order similar text limit = none := fun order => by
      unfold searchHybrid
      rw [hvec]
      rfl
    have hlists : fusedLists key similar text limit = ([], []) := by
      unfold fusedLists
      rw [hvec]
    refine iff_of_true (fun order order' => by rw [hnone, hnone]) fun order order' => ?_
    have hnil : ∀ order : IterationOrder (ι × ℚ), order.of [] = [] := fun order =>
      (order.perm []).eq_nil
    rw [hlists]
    show ((ranked Prod.snd (order.of [])).take limit).map Prod.fst =
      ((ranked Prod.snd (order'.of [])).take limit).map Prod.fst
    rw [hnil, hnil]
  | some vec =>
    have hids : ∀ order, resultIds key (searchHybrid key order similar text limit) =
        some (((ranked Prod.snd (order.of (fusedScores (fusedLists key similar text limit).1
          (fusedLists key similar text limit).2))).take limit).map Prod.fst) := by
      intro order
      have hsome : searchHybrid key order similar text limit =
          some (fuse key order limit vec ((text (rrfCandidates limit)).getD [])) := by
        unfold searchHybrid
        rw [hvec]
        rfl
      rw [hsome, ← searchHybrid_pairs hsome, List.map_map]
      rfl
    exact forall₂_congr fun order order' => by rw [hids, hids, Option.some.injEq]

/-- What the results are in every order. -/
theorem topOf_searchHybrid {order : IterationOrder (ι × ℚ)} {results : List (Fused α)}
    (h : searchHybrid key order similar text limit = some results) :
    TopOf (candidateScores (fusedLists key similar text limit).1
      (fusedLists key similar text limit).2) limit
      (results.map fun r => (key r.row, r.score)) := by
  rw [searchHybrid_pairs h]
  exact topOf_ranked ((order.perm _).trans (fusedScores_perm _ _)) (nodup_candidateScores _ _) limit

end Fusion

end Spelunk
