import Mathlib.Algebra.Field.Rat
import Mathlib.Algebra.Order.Ring.Rat
import Mathlib.Data.List.GetD
import Mathlib.Tactic.NormNum
import Spelunk.Core.PageRank
import Spelunk.Lib.Walk

/-!
# The Mass of the PageRank

Both forms of the ranking, over exact numbers. A round of either is a round of the walk
along the edges between different names, whose weights are the same for every node or
those of the personalisation; so the scores of every round are shares of one. They
depend neither on the order of the edges or of the weights nor on the names.

## Main definitions

* `links`: The edges that count.
* `Walks`: Rounds that are those of a walk.
* `IsDistribution`: Scores that share one among the names of a set.

## Theorems

* `walks_pagerankStep`, `walks_personalisedStep`: Both forms walk.
* `Walks.sum_eq`, `Walks.nonneg`, `Walks.rename`: What every number of rounds keeps.
* `pageRankLaw`: The law of the scores.
-/

namespace Spelunk

open Lib

/-! ### The nodes -/

theorem mem_addNode {nodes : List String} {name other : String} :
    other ∈ addNode nodes name ↔ other ∈ nodes ∨ other = name := by
  unfold addNode
  split
  · next h => exact ⟨Or.inl, fun ho => ho.elim id fun he => he ▸ h⟩
  · simp

theorem nodup_addNode {nodes : List String} (h : nodes.Nodup) (name : String) :
    (addNode nodes name).Nodup := by
  unfold addNode
  split
  · exact h
  · next hnot => exact List.nodup_append.2 ⟨h, by simp, by
      rintro a ha b hb rfl
      exact hnot (List.mem_singleton.1 hb ▸ ha)⟩

/-- A name of an edge. -/
def EdgeNode (edges : List (String × String)) (name : String) : Prop :=
  ∃ e ∈ edges, name = e.1 ∨ name = e.2

theorem collect_spec (edges : List (String × String)) {nodes : List String} (h : nodes.Nodup) :
    (edges.foldl (fun nodes e => addNode (addNode nodes e.1) e.2) nodes).Nodup ∧
      ∀ name, name ∈ edges.foldl (fun nodes e => addNode (addNode nodes e.1) e.2) nodes ↔
        name ∈ nodes ∨ EdgeNode edges name := by
  induction edges generalizing nodes with
  | nil => exact ⟨h, fun name => by simp [EdgeNode]⟩
  | cons e edges ih =>
    obtain ⟨hnodup, hmem⟩ := ih (nodup_addNode (nodup_addNode h e.1) e.2)
    refine ⟨hnodup, fun name => (hmem name).trans ?_⟩
    simp only [mem_addNode, EdgeNode, List.exists_mem_cons_iff, or_assoc]

theorem nodup_collectNodes (edges : List (String × String)) : (collectNodes edges).Nodup :=
  (collect_spec edges List.nodup_nil).1

theorem mem_collectNodes {edges : List (String × String)} {name : String} :
    name ∈ collectNodes edges ↔ EdgeNode edges name :=
  ((collect_spec edges List.nodup_nil).2 name).trans (by simp)

section Personalised

variable {R : Type} {personalisation : List (String × R)} {edges : List (String × String)}

theorem weighed_spec (personalisation : List (String × R)) {nodes : List String}
    (h : nodes.Nodup) :
    (personalisation.foldl (fun nodes p => addNode nodes p.1) nodes).Nodup ∧
      ∀ name, name ∈ personalisation.foldl (fun nodes p => addNode nodes p.1) nodes ↔
        name ∈ nodes ∨ name ∈ personalisation.map Prod.fst := by
  induction personalisation generalizing nodes with
  | nil => exact ⟨h, fun name => by simp⟩
  | cons p personalisation ih =>
    obtain ⟨hnodup, hmem⟩ := ih (nodup_addNode h p.1)
    refine ⟨hnodup, fun name => (hmem name).trans ?_⟩
    simp only [mem_addNode, List.map_cons, List.mem_cons, or_assoc]

variable (personalisation edges) in
theorem nodup_collectPersonalised : (collectPersonalised personalisation edges).Nodup :=
  (collect_spec edges (weighed_spec personalisation List.nodup_nil).1).1

theorem mem_collectPersonalised {name : String} :
    name ∈ collectPersonalised personalisation edges ↔
      name ∈ personalisation.map Prod.fst ∨ EdgeNode edges name := by
  refine ((collect_spec edges (weighed_spec personalisation List.nodup_nil).1).2 name).trans ?_
  rw [(weighed_spec personalisation List.nodup_nil).2 name]
  simp

end Personalised

/-- The edges between different names. -/
def links (edges : List (String × String)) : List (String × String) :=
  edges.filter fun e => e.1 ≠ e.2

theorem ends_links {edges : List (String × String)} {nodes : List String}
    (h : ∀ name, EdgeNode edges name → name ∈ nodes) :
    ∀ l ∈ links edges, l.1 ∈ nodes ∧ l.2 ∈ nodes := by
  intro l hl
  have hmem := List.mem_of_mem_filter hl
  exact ⟨h l.1 ⟨l, hmem, Or.inl rfl⟩, h l.2 ⟨l, hmem, Or.inr rfl⟩⟩

/-! ### A round, by name -/

/-- What a name has in a list by nodes. -/
def atNode (nodes : List String) (values : List ℚ) (name : String) : ℚ :=
  values.getD (nodes.idxOf name) 0

theorem map_idxOf_eq_range {nodes : List String} (h : nodes.Nodup) :
    nodes.map nodes.idxOf = List.range nodes.length := by
  refine List.ext_getElem (by simp) fun i h1 _ => ?_
  rw [List.getElem_map, List.getElem_range]
  exact h.idxOf_getElem i (by simpa using h1)

/-- A list by nodes, with the names. -/
theorem zip_eq_atNode {nodes : List String} {values : List ℚ} (h : nodes.Nodup)
    (hlength : values.length = nodes.length) :
    nodes.zip values = nodes.map fun name => (name, atNode nodes values name) := by
  refine List.ext_getElem (by simp [hlength]) fun i h1 h2 => ?_
  have hi : i < nodes.length := by simpa using h2
  rw [List.getElem_zip, List.getElem_map, atNode, h.idxOf_getElem i hi,
    List.getD_eq_getElem values 0 (hlength ▸ hi)]

/-- What a round computes for every node is what it computes for its name. -/
theorem atNode_range {nodes : List String} {name : String} (hname : name ∈ nodes) (f : ℕ → ℚ) :
    atNode nodes ((List.range nodes.length).map f) name = f (nodes.idxOf name) := by
  have hidx := List.idxOf_lt_length_of_mem hname
  rw [atNode, List.getD_eq_getElem _ 0 (by simpa using hidx), List.getElem_map,
    List.getElem_range]

theorem foldl_add_eq {α : Type} (l : List α) (f : α → ℚ) (start : ℚ) :
    l.foldl (fun acc a => acc + f a) start = start + (l.map f).sum := by
  induction l generalizing start with
  | nil => simp
  | cons a l ih => rw [List.foldl_cons, ih, List.map_cons, List.sum_cons, add_assoc]

theorem sum_map_filter {α : Type} (l : List α) (p : α → Bool) (f : α → ℚ) :
    ((l.filter p).map f).sum = (l.map fun a => if p a = true then f a else 0).sum := by
  induction l with
  | nil => rfl
  | cons a l ih =>
    by_cases h : p a = true
    · rw [List.filter_cons_of_pos h, List.map_cons, List.sum_cons, ih, List.map_cons,
        List.sum_cons, if_pos h]
    · rw [List.filter_cons_of_neg h, ih, List.map_cons, List.sum_cons, if_neg h, zero_add]

section Round

variable {nodes : List String} {edges : List (String × String)}
  (hnodes : ∀ name, EdgeNode edges name → name ∈ nodes)

include hnodes

theorem idxOf_edge_inj {e : String × String} (he : e ∈ edges) (name : String) :
    (nodes.idxOf e.1 = nodes.idxOf name ↔ e.1 = name) ∧
      (nodes.idxOf e.2 = nodes.idxOf name ↔ e.2 = name) :=
  ⟨List.idxOf_inj (hnodes e.1 ⟨e, he, Or.inl rfl⟩), List.idxOf_inj (hnodes e.2 ⟨e, he, Or.inr rfl⟩)⟩

theorem length_outEdges (name : String) :
    (outEdges nodes edges (nodes.idxOf name)).length = walkDegree (links edges) name := by
  unfold outEdges walkDegree links
  rw [List.length_filterMap_eq_countP, List.countP_filter]
  refine List.countP_congr fun e he => ?_
  have hloop := (idxOf_edge_inj hnodes he e.2).1
  have hsource := (idxOf_edge_inj hnodes he name).1
  by_cases h : nodes.idxOf e.1 ≠ nodes.idxOf e.2 ∧ nodes.idxOf e.1 = nodes.idxOf name
  · have hkept : e.1 = name ∧ e.1 ≠ e.2 := ⟨hsource.1 h.2, mt hloop.2 h.1⟩
    rw [if_pos h]
    simpa using hkept
  · have hnot : ¬(e.1 = name ∧ e.1 ≠ e.2) := fun he' => h ⟨mt hloop.1 he'.2, hsource.2 he'.1⟩
    rw [if_neg h]
    simpa using hnot

theorem sum_inEdges (name : String) (f : ℕ → ℚ) :
    ((inEdges nodes edges (nodes.idxOf name)).map f).sum =
      ((links edges).map fun l => if l.2 = name then f (nodes.idxOf l.1) else 0).sum := by
  induction edges with
  | nil => rfl
  | cons e edges ih =>
    have hrest := ih fun name h => hnodes name (by
      obtain ⟨e', he', h'⟩ := h
      exact ⟨e', List.mem_cons_of_mem e he', h'⟩)
    have hloop := (idxOf_edge_inj hnodes List.mem_cons_self e.2).1
    have htarget := (idxOf_edge_inj hnodes List.mem_cons_self name).2
    have hin : inEdges nodes (e :: edges) (nodes.idxOf name) =
        if e.1 ≠ e.2 ∧ e.2 = name then
          nodes.idxOf e.1 :: inEdges nodes edges (nodes.idxOf name)
        else inEdges nodes edges (nodes.idxOf name) := by
      simp only [inEdges, List.filterMap_cons, ne_eq, hloop, htarget]
      by_cases h : ¬e.1 = e.2 ∧ e.2 = name
      · simp only [if_pos h]
      · simp only [if_neg h]
    rw [hin]
    by_cases h : e.1 = e.2
    · have hskip : links (e :: edges) = links edges := List.filter_cons_of_neg (by simpa using h)
      rw [if_neg fun h' => h'.1 h, hskip, hrest]
    · have hkeep : links (e :: edges) = e :: links edges :=
        List.filter_cons_of_pos (by simpa using h)
      rw [hkeep, List.map_cons, List.sum_cons, ← hrest]
      by_cases ht : e.2 = name
      · rw [if_pos ⟨h, ht⟩, if_pos ht, List.map_cons, List.sum_cons]
      · rw [if_neg fun h' => ht h'.2, if_neg ht, zero_add]

/-- What the edges bring a node. -/
theorem gather_eq (name : String) (damping start : ℚ) (scores : List ℚ) :
    (inEdges nodes edges (nodes.idxOf name)).foldl
        (fun acc u => acc + damping * scores.getD u 0 / ((outEdges nodes edges u).length : ℚ))
        start =
      start + damping * walkInflow (links edges) (atNode nodes scores) name := by
  rw [foldl_add_eq, sum_inEdges hnodes, walkInflow, ← List.sum_map_mul_left]
  congr 2
  refine List.map_congr_left fun l _ => ?_
  rw [length_outEdges hnodes, mul_ite, mul_zero, mul_div_assoc]
  rfl

/-- What the nodes without outgoing edges have. -/
theorem dangling_eq (hnodup : nodes.Nodup) (scores : List ℚ) :
    ((((List.range nodes.length).filter fun i => outEdges nodes edges i = []).map
        fun i => scores.getD i 0).foldl (· + ·) 0) =
      walkSunk nodes (links edges) (atNode nodes scores) := by
  rw [← List.sum_eq_foldl, ← map_idxOf_eq_range hnodup, List.filter_map, List.map_map,
    sum_map_filter]
  unfold walkSunk
  congr 1
  refine List.map_congr_left fun name _ => ?_
  have hsink : outEdges nodes edges (nodes.idxOf name) = [] ↔
      walkDegree (links edges) name = 0 := by
    rw [← length_outEdges hnodes, List.length_eq_zero_iff]
  simp only [Function.comp_apply, decide_eq_true_eq, hsink]
  rfl

end Round

/-! ### The rounds -/

/-- Rounds that are those of the walk along the edges. -/
structure Walks (nodes : List String) (edges : List (String × String)) (pull : String → ℚ)
    (damping : ℚ) (step : List ℚ → List ℚ) : Prop where
  /-- The nodes are the names of the edges, and maybe more. -/
  nodup : nodes.Nodup
  names : ∀ name, EdgeNode edges name → name ∈ nodes
  /-- One round. -/
  length : ∀ scores, (step scores).length = nodes.length
  mass : ∀ scores, ∀ name ∈ nodes, atNode nodes (step scores) name =
    walkStep nodes (links edges) pull damping (atNode nodes scores) name

/-- The scores after some rounds. -/
def rankRounds (nodes : List String) (step : List ℚ → List ℚ) (k : ℕ) : List ℚ :=
  Nat.iterate step k (List.replicate nodes.length (1 / (nodes.length : ℚ)))

theorem atNode_rankRounds_zero {nodes : List String} (step : List ℚ → List ℚ) {name : String}
    (h : name ∈ nodes) : atNode nodes (rankRounds nodes step 0) name = 1 / (nodes.length : ℚ) := by
  have hidx := List.idxOf_lt_length_of_mem h
  rw [atNode, rankRounds, Function.iterate_zero, id, List.getD_eq_getElem _ 0 (by simpa using hidx),
    List.getElem_replicate]

theorem sum_map_const {nodes : List String} (h : nodes ≠ []) :
    (nodes.map fun _ => 1 / (nodes.length : ℚ)).sum = 1 := by
  have hne : (nodes.length : ℚ) ≠ 0 := by simpa using h
  rw [List.map_const', List.sum_replicate, nsmul_eq_mul, mul_one_div_cancel hne]

namespace Walks

variable {nodes : List String} {edges : List (String × String)} {pull : String → ℚ} {damping : ℚ}
  {step : List ℚ → List ℚ} (h : Walks nodes edges pull damping step)

include h

theorem length_rankRounds (k : ℕ) : (rankRounds nodes step k).length = nodes.length := by
  cases k with
  | zero => simp [rankRounds]
  | succ k =>
    rw [rankRounds, Function.iterate_succ_apply']
    exact h.length _

theorem atNode_rankRounds_succ (k : ℕ) {name : String} (hname : name ∈ nodes) :
    atNode nodes (rankRounds nodes step (k + 1)) name =
      walkStep nodes (links edges) pull damping (atNode nodes (rankRounds nodes step k)) name := by
  rw [rankRounds, Function.iterate_succ_apply']
  exact h.mass _ name hname

/-- The scores stay shares of one. -/
theorem sum_eq (hne : nodes ≠ []) (hpull : (nodes.map pull).sum = 1) (k : ℕ) :
    (nodes.map (atNode nodes (rankRounds nodes step k))).sum = 1 := by
  induction k with
  | zero =>
    rw [List.map_congr_left fun name hname => atNode_rankRounds_zero step hname]
    exact sum_map_const hne
  | succ k ih =>
    rw [List.map_congr_left fun name hname => h.atNode_rankRounds_succ k hname]
    exact sum_walkStep h.nodup (ends_links h.names) damping hpull ih

/-- The scores stay non-negative. -/
theorem nonneg (h0 : 0 ≤ damping) (h1 : damping ≤ 1) (hpull : ∀ name ∈ nodes, 0 ≤ pull name)
    (k : ℕ) : ∀ name ∈ nodes, 0 ≤ atNode nodes (rankRounds nodes step k) name := by
  induction k with
  | zero =>
    intro name hname
    rw [atNode_rankRounds_zero step hname]
    positivity
  | succ k ih =>
    intro name hname
    rw [h.atNode_rankRounds_succ k hname]
    exact walkStep_nonneg (ends_links h.names) h0 h1 ih (hpull name hname)

/-- The scores go with the names, whatever the order of the edges and of the nodes. -/
theorem rename {nodes' : List String} {edges' : List (String × String)} {pull' : String → ℚ}
    {step' : List ℚ → List ℚ} (h' : Walks nodes' edges' pull' damping step')
    {f : String → String} (hf : Set.InjOn f {name | name ∈ nodes})
    (hnodes : nodes'.Perm (nodes.map f)) (hedges : edges'.Perm (edges.map (Prod.map f f)))
    (hpull : ∀ name ∈ nodes, pull' (f name) = pull name) (k : ℕ) :
    ∀ name ∈ nodes, atNode nodes' (rankRounds nodes' step' k) (f name) =
      atNode nodes (rankRounds nodes step k) name := by
  have hmem : ∀ name ∈ nodes, f name ∈ nodes' :=
    fun name hname => hnodes.mem_iff.2 (List.mem_map_of_mem hname)
  have hends := ends_links h.names
  have hlinks : (links edges').Perm ((links edges).map (Prod.map f f)) := by
    refine (hedges.filter _).trans ?_
    rw [List.filter_map, links]
    refine List.Perm.of_eq (congrArg _ (List.filter_congr fun e he => ?_))
    have hiff : f e.1 = f e.2 ↔ e.1 = e.2 :=
      hf.eq_iff (h.names e.1 ⟨e, he, Or.inl rfl⟩) (h.names e.2 ⟨e, he, Or.inr rfl⟩)
    simp [hiff]
  induction k with
  | zero =>
    intro name hname
    rw [atNode_rankRounds_zero step hname, atNode_rankRounds_zero step' (hmem name hname),
      hnodes.length_eq, List.length_map]
  | succ k ih =>
    intro name hname
    rw [h.atNode_rankRounds_succ k hname, h'.atNode_rankRounds_succ k (hmem name hname)]
    exact walkStep_rename hends hf hnodes hlinks hpull ih damping hname

end Walks

/-- A round of `compute_pagerank` is a round of the walk with equal weights. -/
theorem walks_pagerankStep (edges : List (String × String)) (damping : ℚ) :
    Walks (collectNodes edges) edges (fun _ => 1 / ((collectNodes edges).length : ℚ)) damping
      (pagerankStep damping (collectNodes edges) edges) where
  nodup := nodup_collectNodes edges
  names := fun _ hname => mem_collectNodes.2 hname
  length := fun scores => by simp [pagerankStep]
  mass := by
    intro scores name hname
    have hnames : ∀ name, EdgeNode edges name → name ∈ collectNodes edges :=
      fun _ hname => mem_collectNodes.2 hname
    refine (atNode_range hname _).trans ?_
    rw [gather_eq hnames, dangling_eq hnames (nodup_collectNodes edges), walkStep]
    ring

section Weights

variable {personalisation : List (String × ℚ)} {edges : List (String × String)}

/-- The part a name has of the weights. -/
def weightOf (personalisation : List (String × ℚ)) (name : String) : ℚ :=
  (personalisation.map fun p =>
    if p.1 = name then
      p.2 / max (personalisation.map Prod.snd).sum (((1 : ℕ) : ℚ) / ((1000000000 : ℕ) : ℚ))
    else 0).sum

theorem atNode_set {nodes : List String} {values : List ℚ} (hlength : values.length = nodes.length)
    {key : String} (hkey : key ∈ nodes) (name : String) (value : ℚ) :
    atNode nodes (values.set (nodes.idxOf key) value) name =
      if key = name then value else atNode nodes values name := by
  have hidx := List.idxOf_lt_length_of_mem hkey
  unfold atNode
  by_cases h : key = name
  · rw [if_pos h, ← h, List.getD_eq_getElem _ 0 (by simpa [hlength] using hidx),
      List.getElem_set_self]
  · have hne : nodes.idxOf key ≠ nodes.idxOf name := fun he => h ((List.idxOf_inj hkey).1 he)
    rw [if_neg h, List.getD_eq_getElem?_getD, List.getElem?_set_ne hne,
      List.getD_eq_getElem?_getD]

theorem foldl_set_eq {nodes : List String} (total : ℚ) {name : String}
    {values : List ℚ} (hlength : values.length = nodes.length)
    (hkeys : (personalisation.map Prod.fst).Nodup)
    (hmem : ∀ p ∈ personalisation, p.1 ∈ nodes)
    (hzero : ∀ p ∈ personalisation, atNode nodes values p.1 = 0) :
    atNode nodes (personalisation.foldl
        (fun values p => values.set (nodes.idxOf p.1) (p.2 / total)) values) name =
      atNode nodes values name +
        (personalisation.map fun p => if p.1 = name then p.2 / total else 0).sum := by
  induction personalisation generalizing values with
  | nil => simp
  | cons p personalisation ih =>
    obtain ⟨hfresh, hkeys⟩ := List.nodup_cons.1 (List.map_cons ▸ hkeys)
    have hp := hmem p List.mem_cons_self
    have hset := fun name => atNode_set hlength hp name (p.2 / total)
    rw [List.foldl_cons, ih (by simpa using hlength) hkeys
      (fun q hq => hmem q (List.mem_cons_of_mem p hq)), hset, List.map_cons, List.sum_cons]
    · by_cases h : p.1 = name
      · rw [if_pos h, if_pos h, ← h, hzero p List.mem_cons_self, zero_add]
      · rw [if_neg h, if_neg h, zero_add]
    · intro q hq
      have hne : p.1 ≠ q.1 := fun he => hfresh (he ▸ List.mem_map_of_mem hq)
      rw [hset, if_neg hne]
      exact hzero q (List.mem_cons_of_mem p hq)

/-- `p_vec` has the weights of the nodes. -/
theorem atNode_pVec (nodes : List String) (hkeys : (personalisation.map Prod.fst).Nodup)
    (hmem : ∀ p ∈ personalisation, p.1 ∈ nodes) (name : String) :
    atNode nodes (pVec nodes personalisation) name = weightOf personalisation name := by
  have hzero : ∀ name, atNode nodes (List.replicate nodes.length 0) name = 0 := by
    intro name
    rw [atNode, List.getD_eq_getElem?_getD, List.getElem?_replicate]
    split <;> rfl
  unfold pVec weightOf
  rw [← List.sum_eq_foldl, foldl_set_eq _ (List.length_replicate ..) hkeys hmem
    fun p _ => hzero p.1, hzero, zero_add]

/-- A round of `compute_personalised_pagerank` is a round of the walk with the weights. -/
theorem walks_personalisedStep (hkeys : (personalisation.map Prod.fst).Nodup)
    (edges : List (String × String)) (damping : ℚ) :
    Walks (collectPersonalised personalisation edges) edges (weightOf personalisation) damping
      (personalisedStep damping (collectPersonalised personalisation edges) edges
        (pVec (collectPersonalised personalisation edges) personalisation)) where
  nodup := nodup_collectPersonalised personalisation edges
  names := fun _ hname => mem_collectPersonalised.2 (Or.inr hname)
  length := fun scores => by simp [personalisedStep]
  mass := by
    intro scores name hname
    have hnames : ∀ name, EdgeNode edges name → name ∈ collectPersonalised personalisation edges :=
      fun _ hname => mem_collectPersonalised.2 (Or.inr hname)
    have hweight := atNode_pVec (collectPersonalised personalisation edges) hkeys
      (fun p hp => mem_collectPersonalised.2 (Or.inl (List.mem_map_of_mem hp))) name
    refine (atNode_range hname _).trans ?_
    rw [gather_eq hnames, dangling_eq hnames (nodup_collectPersonalised _ _), walkStep, ← hweight,
      atNode]
    ring

/-- The weights share one among the names that have one. -/
theorem sum_weightOf {nodes : List String} (hnodes : nodes.Nodup)
    (hmem : ∀ p ∈ personalisation, p.1 ∈ nodes)
    (htotal : 1 / 1000000000 ≤ (personalisation.map Prod.snd).sum) :
    (nodes.map (weightOf personalisation)).sum = 1 := by
  have hmax : max (personalisation.map Prod.snd).sum (((1 : ℕ) : ℚ) / ((1000000000 : ℕ) : ℚ)) =
      (personalisation.map Prod.snd).sum := max_eq_left (by exact_mod_cast htotal)
  have hne : (personalisation.map Prod.snd).sum ≠ 0 :=
    (lt_of_lt_of_le (by norm_num) htotal).ne'
  have hsum := sum_arrived Prod.fst hnodes hmem
    fun p : String × ℚ => p.2 / (personalisation.map Prod.snd).sum
  unfold weightOf
  rw [hmax]
  refine hsum.trans ?_
  simp only [div_eq_mul_inv, List.sum_map_mul_right]
  exact mul_inv_cancel₀ hne

theorem weightOf_nonneg (hweights : ∀ p ∈ personalisation, 0 ≤ p.2) (name : String) :
    0 ≤ weightOf personalisation name := by
  refine List.sum_nonneg fun x hx => ?_
  obtain ⟨p, hp, rfl⟩ := List.mem_map.1 hx
  split
  · exact div_nonneg (hweights p hp) (le_max_of_le_right (by positivity))
  · exact le_rfl

end Weights

/-! ### The law -/

/-- Scores that share one among the names of a set, each with a part that is not
negative. -/
structure IsDistribution (scores : List (String × ℚ)) (names : String → Prop) : Prop where
  nodup : (scores.map Prod.fst).Nodup
  names : ∀ name, name ∈ scores.map Prod.fst ↔ names name
  nonneg : ∀ p ∈ scores, 0 ≤ p.2
  sum : (scores.map Prod.snd).sum = 1

theorem scoreOf_map {nodes : List String} (f : String → ℚ) {name : String}
    (hname : name ∈ nodes) :
    scoreOf (nodes.map fun name => (name, f name)) name = some (f name) := by
  unfold scoreOf
  induction nodes with
  | nil => exact absurd hname List.not_mem_nil
  | cons first nodes ih =>
    rw [List.map_cons, List.find?_cons]
    by_cases h : first = name
    · simp [h]
    · simp only [h, decide_false]
      exact ih ((List.mem_cons.1 hname).resolve_left (Ne.symm h))

theorem Walks.isDistribution {nodes : List String} {edges : List (String × String)}
    {pull : String → ℚ} {damping : ℚ} {step : List ℚ → List ℚ}
    (h : Walks nodes edges pull damping step) (hne : nodes ≠ []) (h0 : 0 ≤ damping)
    (h1 : damping ≤ 1) (hpull : ∀ name ∈ nodes, 0 ≤ pull name) (hsum : (nodes.map pull).sum = 1)
    (k : ℕ) : IsDistribution (nodes.zip (rankRounds nodes step k)) (· ∈ nodes) := by
  have hzip := zip_eq_atNode h.nodup (h.length_rankRounds k)
  rw [hzip]
  have hfst : (nodes.map fun name =>
      (name, atNode nodes (rankRounds nodes step k) name)).map Prod.fst = nodes := by
    rw [List.map_map]
    exact List.map_id nodes
  refine ⟨hfst.symm ▸ h.nodup, fun name => hfst.symm ▸ Iff.rfl, ?_, ?_⟩
  · intro p hp
    obtain ⟨name, hname, rfl⟩ := List.mem_map.1 hp
    exact h.nonneg h0 h1 hpull k name hname
  · rw [List.map_map]
    exact h.sum_eq hne hsum k

theorem Walks.scoreOf_eq {nodes : List String} {edges : List (String × String)}
    {pull : String → ℚ} {damping : ℚ} {step : List ℚ → List ℚ}
    (h : Walks nodes edges pull damping step) (k : ℕ) {name : String} (hname : name ∈ nodes) :
    scoreOf (nodes.zip (rankRounds nodes step k)) name =
      some (atNode nodes (rankRounds nodes step k) name) := by
  rw [zip_eq_atNode h.nodup (h.length_rankRounds k)]
  exact scoreOf_map _ hname

theorem computePagerank_eq {edges : List (String × String)} (hedges : edges ≠ [])
    (iterations : ℕ) (damping : ℚ) :
    computePagerank edges iterations damping =
      (collectNodes edges).zip
        (rankRounds (collectNodes edges) (pagerankStep damping (collectNodes edges) edges)
          iterations) :=
  if_neg hedges

theorem computePersonalisedPagerank_eq {edges : List (String × String)} (hedges : edges ≠ [])
    (personalisation : List (String × ℚ)) (iterations : ℕ) (damping : ℚ) :
    computePersonalisedPagerank edges personalisation iterations damping =
      (collectPersonalised personalisation edges).zip
        (rankRounds (collectPersonalised personalisation edges)
          (personalisedStep damping (collectPersonalised personalisation edges) edges
            (pVec (collectPersonalised personalisation edges) personalisation)) iterations) :=
  if_neg hedges

/-! ### Other names -/

section Rename

variable {f : String → String} {edges edges' : List (String × String)}
  {personalisation personalisation' : List (String × ℚ)}

theorem edgeNode_rename (hperm : edges'.Perm (edges.map (Prod.map f f))) (other : String) :
    EdgeNode edges' other ↔ ∃ name, EdgeNode edges name ∧ f name = other := by
  constructor
  · rintro ⟨e', he', hname⟩
    obtain ⟨e, he, rfl⟩ := List.mem_map.1 (hperm.mem_iff.1 he')
    rcases hname with rfl | rfl
    · exact ⟨e.1, ⟨e, he, Or.inl rfl⟩, rfl⟩
    · exact ⟨e.2, ⟨e, he, Or.inr rfl⟩, rfl⟩
  · rintro ⟨name, ⟨e, he, hname⟩, rfl⟩
    refine ⟨Prod.map f f e, hperm.mem_iff.2 (List.mem_map_of_mem he), ?_⟩
    exact hname.imp (congrArg f) (congrArg f)

theorem perm_map_of_mem {nodes nodes' : List String} (hnodes : nodes.Nodup)
    (hnodes' : nodes'.Nodup) (hf : Set.InjOn f {name | name ∈ nodes})
    (hmem : ∀ other, other ∈ nodes' ↔ ∃ name, name ∈ nodes ∧ f name = other) :
    nodes'.Perm (nodes.map f) := by
  have hmap : (nodes.map f).Nodup := hnodes.map_on fun a ha b hb => hf ha hb
  exact (List.perm_ext_iff_of_nodup hnodes' hmap).2 fun other =>
    (hmem other).trans List.mem_map.symm

theorem weightOf_rename (hperm : personalisation'.Perm (personalisation.map (Prod.map f id)))
    {name : String} (hf : ∀ p ∈ personalisation, f p.1 = f name → p.1 = name) :
    weightOf personalisation' (f name) = weightOf personalisation name := by
  have htotal : (personalisation'.map Prod.snd).sum = (personalisation.map Prod.snd).sum := by
    rw [(hperm.map Prod.snd).sum_eq, List.map_map]
    rfl
  unfold weightOf
  rw [htotal, (hperm.map _).sum_eq, List.map_map]
  congr 1
  refine List.map_congr_left fun p hp => ?_
  have hiff : f p.1 = f name ↔ p.1 = name := ⟨hf p hp, congrArg f⟩
  simp only [Function.comp_apply, Prod.map_fst, Prod.map_snd, id, hiff]

end Rename

theorem ne_nil_of_rename {edges edges' : List (String × String)} {f : String → String}
    (hedges : edges ≠ []) (hperm : edges'.Perm (edges.map (Prod.map f f))) : edges' ≠ [] := by
  intro hnil
  exact hedges (List.map_eq_nil_iff.1 (hnil ▸ hperm).nil_eq.symm)

/-- The same weights on a graph that is the same up to the names and the order. -/
theorem scoreOf_personalised_rename {edges edges' : List (String × String)} (hedges : edges ≠ [])
    (iterations : ℕ) (damping : ℚ) {f : String → String}
    {personalisation personalisation' : List (String × ℚ)}
    (hkeys : (personalisation.map Prod.fst).Nodup)
    (hf : Set.InjOn f {name | name ∈ personalisation.map Prod.fst ∨ EdgeNode edges name})
    (hperm : edges'.Perm (edges.map (Prod.map f f)))
    (hweights : personalisation'.Perm (personalisation.map (Prod.map f id))) {name : String}
    (hname : name ∈ personalisation.map Prod.fst ∨ EdgeNode edges name) :
    scoreOf (computePersonalisedPagerank edges' personalisation' iterations damping) (f name) =
      scoreOf (computePersonalisedPagerank edges personalisation iterations damping) name := by
  have hf' : Set.InjOn f {name | name ∈ collectPersonalised personalisation edges} :=
    hf.mono fun name h => mem_collectPersonalised.1 h
  have hfst : (personalisation'.map Prod.fst).Perm ((personalisation.map Prod.fst).map f) := by
    refine (hweights.map Prod.fst).trans (List.Perm.of_eq ?_)
    rw [List.map_map, List.map_map]
    rfl
  have hkeys' : (personalisation'.map Prod.fst).Nodup :=
    hfst.nodup_iff.2 (hkeys.map_on fun a ha b hb => hf (Or.inl ha) (Or.inl hb))
  have hnodes := perm_map_of_mem (nodup_collectPersonalised personalisation edges)
    (nodup_collectPersonalised personalisation' edges') hf' fun other => by
      rw [mem_collectPersonalised, edgeNode_rename hperm other, hfst.mem_iff, List.mem_map]
      simp only [mem_collectPersonalised]
      constructor
      · rintro (⟨name, h, he⟩ | ⟨name, h, he⟩)
        · exact ⟨name, Or.inl h, he⟩
        · exact ⟨name, Or.inr h, he⟩
      · rintro ⟨name, h | h, he⟩
        · exact Or.inl ⟨name, h, he⟩
        · exact Or.inr ⟨name, h, he⟩
  have hwalks := walks_personalisedStep hkeys edges damping
  have hwalks' := walks_personalisedStep hkeys' edges' damping
  have hmem := mem_collectPersonalised.2 hname
  have hpull : ∀ name ∈ collectPersonalised personalisation edges,
      weightOf personalisation' (f name) = weightOf personalisation name := fun name h =>
    weightOf_rename hweights fun p hp he =>
      hf (Or.inl (List.mem_map_of_mem hp)) (mem_collectPersonalised.1 h) he
  rw [computePersonalisedPagerank_eq hedges, computePersonalisedPagerank_eq (ne_nil_of_rename hedges hperm),
    hwalks.scoreOf_eq _ hmem,
    hwalks'.scoreOf_eq _ (hnodes.mem_iff.2 (List.mem_map_of_mem hmem)),
    hwalks.rename hwalks' hf' hnodes hperm hpull iterations name hmem]

/-- The order of the edges and of the weights does not matter. -/
theorem scoreOf_personalised_perm {edges edges' : List (String × String)} (hedges : edges ≠ [])
    (iterations : ℕ) (damping : ℚ) {personalisation personalisation' : List (String × ℚ)}
    (hkeys : (personalisation.map Prod.fst).Nodup) (hperm : edges'.Perm edges)
    (hweights : personalisation'.Perm personalisation) (name : String) :
    scoreOf (computePersonalisedPagerank edges' personalisation' iterations damping) name =
      scoreOf (computePersonalisedPagerank edges personalisation iterations damping) name := by
  by_cases hname : name ∈ personalisation.map Prod.fst ∨ EdgeNode edges name
  · have hid : Prod.map (id : String → String) (id : String → String) = id := Prod.map_id
    have hid' : Prod.map (id : String → String) (id : ℚ → ℚ) = id := Prod.map_id
    refine scoreOf_personalised_rename hedges iterations damping hkeys
      (Function.injective_id.injOn) ?_ ?_ hname
    · rwa [hid, List.map_id]
    · rwa [hid', List.map_id]
  · have hnone : ∀ {edges : List (String × String)} {personalisation : List (String × ℚ)},
        edges ≠ [] → ¬ (name ∈ personalisation.map Prod.fst ∨ EdgeNode edges name) →
        scoreOf (computePersonalisedPagerank edges personalisation iterations damping) name =
          none := by
      intro edges personalisation hedges hname
      rw [computePersonalisedPagerank_eq hedges, scoreOf, Option.map_eq_none_iff,
        List.find?_eq_none]
      intro p hp hkey
      have hmem := (List.of_mem_zip (show (p.1, p.2) ∈ _ from hp)).1
      rw [of_decide_eq_true hkey] at hmem
      exact hname (mem_collectPersonalised.1 hmem)
    rw [hnone hedges hname, hnone]
    · exact fun he => hedges (he ▸ hperm).nil_eq.symm
    · rintro (hmem | ⟨e, he, hends⟩)
      · exact hname (.inl ((hweights.map Prod.fst).mem_iff.1 hmem))
      · exact hname (.inr ⟨e, hperm.mem_iff.1 he, hends⟩)

/-- Both forms of the ranking give the names of the graph, and those of the weights, shares
of one; and a graph that is the same up to the names and the order of the edges, with the
same weights, gives the same names the same scores. -/
theorem pageRankLaw {edges : List (String × String)} (hedges : edges ≠ []) (iterations : ℕ)
    (damping : ℚ) (h0 : 0 ≤ damping) (h1 : damping ≤ 1) :
    IsDistribution (computePagerank edges iterations damping) (EdgeNode edges) ∧
      (∀ personalisation : List (String × ℚ), (personalisation.map Prod.fst).Nodup →
        (∀ p ∈ personalisation, 0 ≤ p.2) →
        1 / 1000000000 ≤ (personalisation.map Prod.snd).sum →
        IsDistribution (computePersonalisedPagerank edges personalisation iterations damping)
          fun name => name ∈ personalisation.map Prod.fst ∨ EdgeNode edges name) ∧
      (∀ (f : String → String) (edges' : List (String × String)),
        Set.InjOn f {name | EdgeNode edges name} → edges'.Perm (edges.map (Prod.map f f)) →
        ∀ name, EdgeNode edges name →
          scoreOf (computePagerank edges' iterations damping) (f name) =
            scoreOf (computePagerank edges iterations damping) name) ∧
      ∀ (f : String → String) (edges' : List (String × String))
        (personalisation personalisation' : List (String × ℚ)),
        (personalisation.map Prod.fst).Nodup →
        Set.InjOn f {name | name ∈ personalisation.map Prod.fst ∨ EdgeNode edges name} →
        edges'.Perm (edges.map (Prod.map f f)) →
        personalisation'.Perm (personalisation.map (Prod.map f id)) →
        ∀ name, name ∈ personalisation.map Prod.fst ∨ EdgeNode edges name →
          scoreOf (computePersonalisedPagerank edges' personalisation' iterations damping)
              (f name) =
            scoreOf (computePersonalisedPagerank edges personalisation iterations damping)
              name := by
  obtain ⟨e, he⟩ := List.exists_mem_of_ne_nil edges hedges
  have hnode : EdgeNode edges e.1 := ⟨e, he, Or.inl rfl⟩
  refine ⟨?_, ?_, ?_, ?_⟩
  · have hne := List.ne_nil_of_mem (mem_collectNodes.2 hnode)
    have hdist := (walks_pagerankStep edges damping).isDistribution hne h0 h1
      (fun _ _ => by positivity) (sum_map_const hne) iterations
    rw [computePagerank_eq hedges]
    exact { hdist with names := fun name => (hdist.names name).trans mem_collectNodes }
  · intro personalisation hkeys hweights htotal
    have hmem : e.1 ∈ collectPersonalised personalisation edges :=
      mem_collectPersonalised.2 (Or.inr hnode)
    have hne := List.ne_nil_of_mem hmem
    have hsum := sum_weightOf (nodup_collectPersonalised personalisation edges)
      (fun p hp => mem_collectPersonalised.2 (Or.inl (List.mem_map_of_mem hp))) htotal
    have hdist := (walks_personalisedStep hkeys edges damping).isDistribution hne h0 h1
      (fun name _ => weightOf_nonneg hweights name) hsum iterations
    rw [computePersonalisedPagerank_eq hedges]
    exact { hdist with names := fun name => (hdist.names name).trans mem_collectPersonalised }
  · intro f edges' hf hperm name hname
    have hf' : Set.InjOn f {name | name ∈ collectNodes edges} :=
      hf.mono fun name h => mem_collectNodes.1 h
    have hnodes := perm_map_of_mem (nodup_collectNodes edges) (nodup_collectNodes edges') hf'
      fun other => by simpa only [mem_collectNodes] using edgeNode_rename hperm other
    have hlength : (collectNodes edges').length = (collectNodes edges).length := by
      rw [hnodes.length_eq, List.length_map]
    have hwalks := walks_pagerankStep edges damping
    have hwalks' := walks_pagerankStep edges' damping
    have hmem := mem_collectNodes.2 hname
    rw [computePagerank_eq hedges, computePagerank_eq (ne_nil_of_rename hedges hperm), hwalks.scoreOf_eq _ hmem,
      hwalks'.scoreOf_eq _ (hnodes.mem_iff.2 (List.mem_map_of_mem hmem)),
      hwalks.rename hwalks' hf' hnodes hperm (fun _ _ => by rw [hlength]) iterations name hmem]
  · intro f edges' personalisation personalisation' hkeys hf hperm hweights name hname
    exact scoreOf_personalised_rename hedges iterations damping hkeys hf hperm hweights hname

/-- A loop, a name without outgoing edges and one that only has a weight. -/
theorem pageRankLaw_dangling :
    IsDistribution (computePagerank [("a", "b"), ("a", "a")] 20 (85 / 100))
        (EdgeNode [("a", "b"), ("a", "a")]) ∧
      IsDistribution
        (computePersonalisedPagerank [("a", "b"), ("a", "a")] [("c", 3), ("a", 0)] 20 (85 / 100))
        (fun name => name ∈ ["c", "a"] ∨ EdgeNode [("a", "b"), ("a", "a")] name) ∧
      scoreOf (computePagerank [("x", "x"), ("x", "y")] 20 (85 / 100 : ℚ)) "y" =
        scoreOf (computePagerank [("a", "b"), ("a", "a")] 20 (85 / 100)) "b" := by
  have hne : [("a", "b"), ("a", "a")] ≠ [] := by simp
  have hlaw := pageRankLaw hne 20 (85 / 100) (by norm_num) (by norm_num)
  refine ⟨hlaw.1, hlaw.2.1 [("c", 3), ("a", 0)] (by decide) (by simp) (by norm_num), ?_⟩
  refine hlaw.2.2.1 (fun name => if name = "a" then "x" else "y") [("x", "x"), ("x", "y")] ?_
    (List.Perm.swap ..) "b" ⟨("a", "b"), by simp, Or.inr rfl⟩
  rintro a ⟨e, he, ha⟩ b ⟨e', he', hb⟩ hab
  have hcases : ∀ {name : String} {e : String × String},
      e ∈ [("a", "b"), ("a", "a")] → name = e.1 ∨ name = e.2 → name = "a" ∨ name = "b" := by
    intro name e he hname
    rcases List.mem_pair.1 he with rfl | rfl
    · exact hname
    · exact Or.inl (hname.elim id id)
  rcases hcases he ha with rfl | rfl <;> rcases hcases he' hb with rfl | rfl
  · rfl
  · exact absurd hab (by decide)
  · exact absurd hab (by decide)
  · rfl

end Spelunk
