import Mathlib.Algebra.BigOperators.Group.List.Basic
import Mathlib.Algebra.BigOperators.Ring.List
import Mathlib.Algebra.Order.BigOperators.Group.List
import Mathlib.Algebra.Order.Field.Basic
import Mathlib.Logic.Function.Iterate
import Mathlib.Tactic.LinearCombination
import Mathlib.Tactic.Ring
import Mathlib.Tactic.Positivity

/-!
# Walks over a Graph

Mass that moves along the links of a finite graph. In a round every node shares what it
has equally between the links that leave it; what the nodes without such a link have,
and a fixed part of everything, goes to the nodes by a vector of weights. When the
weights sum to one so does the mass, and the mass depends on the links and not on their
order or on the names of the nodes.

## Main definitions

* `walkDegree`, `walkInflow`, `walkSunk`: The links that leave a node, what the links
  bring it, and what no link takes away.
* `walkStep`: One round.

## Theorems

* `sum_walkStep`, `walkStep_nonneg`: A round keeps the mass, and keeps it non-negative.
* `walkStep_rename`: A round of the renamed graph.
-/

namespace Spelunk.Lib

section Definitions

variable {α K : Type*} [DecidableEq α] [Field K]

/-- How many links leave a node. -/
def walkDegree (links : List (α × α)) (u : α) : ℕ :=
  links.countP (·.1 = u)

/-- What the links bring a node. -/
def walkInflow (links : List (α × α)) (mass : α → K) (v : α) : K :=
  (links.map fun l => if l.2 = v then mass l.1 / (walkDegree links l.1 : K) else 0).sum

/-- What the nodes have that no link leaves. -/
def walkSunk (nodes : List α) (links : List (α × α)) (mass : α → K) : K :=
  (nodes.map fun u => if walkDegree links u = 0 then mass u else 0).sum

/-- One round, with the weights `pull`. -/
def walkStep (nodes : List α) (links : List (α × α)) (pull : α → K) (damping : K)
    (mass : α → K) (v : α) : K :=
  (1 - damping + damping * walkSunk nodes links mass) * pull v + damping * walkInflow links mass v

end Definitions

section Mass

variable {α K : Type*} [DecidableEq α] [Field K] {nodes : List α} {links : List (α × α)}

theorem sum_map_single (hnodes : nodes.Nodup) {a : α} (ha : a ∈ nodes) (c : K) :
    (nodes.map fun v => if a = v then c else 0).sum = c := by
  induction nodes with
  | nil => exact absurd ha List.not_mem_nil
  | cons b nodes ih =>
    rw [List.map_cons, List.sum_cons]
    rcases List.mem_cons.1 ha with rfl | ha
    · have hrest : nodes.map (fun v => if a = v then c else 0) = nodes.map fun _ => (0 : K) :=
        List.map_congr_left fun v hv =>
          if_neg fun he : a = v => (List.nodup_cons.1 hnodes).1 (he ▸ hv)
      rw [if_pos rfl, hrest]
      simp
    · have hne : a ≠ b := fun he => (List.nodup_cons.1 hnodes).1 (he ▸ ha)
      rw [if_neg hne, zero_add, ih (List.nodup_cons.1 hnodes).2 ha]

/-- What arrives over all nodes is what is sent, each item to one node. -/
theorem sum_arrived {ι : Type*} {items : List ι} (target : ι → α) (hnodes : nodes.Nodup)
    (hends : ∀ x ∈ items, target x ∈ nodes) (w : ι → K) :
    (nodes.map fun v => (items.map fun x => if target x = v then w x else 0).sum).sum =
      (items.map w).sum := by
  induction items with
  | nil => simp
  | cons x items ih =>
    simp only [List.map_cons, List.sum_cons, List.sum_map_add]
    rw [sum_map_single hnodes (hends x List.mem_cons_self),
      ih fun y hy => hends y (List.mem_cons_of_mem x hy)]

/-- What the links carry, by where it comes from. -/
theorem sum_left (hnodes : nodes.Nodup) (hends : ∀ l ∈ links, l.1 ∈ nodes) (f : α → K) :
    (links.map fun l => f l.1).sum =
      (nodes.map fun u => (walkDegree links u : K) * f u).sum := by
  induction links with
  | nil => simp [walkDegree]
  | cons l links ih =>
    have hcount : ∀ u, (walkDegree (l :: links) u : K) * f u =
        (if l.1 = u then f l.1 else 0) + (walkDegree links u : K) * f u := by
      intro u
      by_cases hu : l.1 = u
      · rw [if_pos hu, hu, walkDegree, List.countP_cons_of_pos (by simpa using hu), walkDegree]
        push_cast
        ring
      · rw [if_neg hu, zero_add, walkDegree, List.countP_cons_of_neg (by simpa using hu), walkDegree]
    rw [List.map_cons, List.sum_cons, ih fun m hm => hends m (List.mem_cons_of_mem l hm)]
    simp only [hcount, List.sum_map_add]
    rw [sum_map_single hnodes (hends l List.mem_cons_self)]

/-- Every node's mass is shared among its links, or it is sunk. -/
theorem sum_inflow_sunk [CharZero K] (hnodes : nodes.Nodup)
    (hends : ∀ l ∈ links, l.1 ∈ nodes ∧ l.2 ∈ nodes) (mass : α → K) :
    (nodes.map (walkInflow links mass)).sum + walkSunk nodes links mass = (nodes.map mass).sum := by
  have harrived := sum_arrived Prod.snd hnodes (fun l hl => (hends l hl).2)
    fun l : α × α => mass l.1 / (walkDegree links l.1 : K)
  have hleft := sum_left hnodes (fun l hl => (hends l hl).1)
    fun u => mass u / (walkDegree links u : K)
  have hinflow : (nodes.map (walkInflow links mass)).sum =
      (nodes.map fun u => (walkDegree links u : K) * (mass u / (walkDegree links u : K))).sum :=
    harrived.trans hleft
  rw [hinflow, walkSunk, ← List.sum_map_add]
  congr 1
  refine List.map_congr_left fun u _ => ?_
  by_cases hu : walkDegree links u = 0
  · rw [if_pos hu, hu]
    simp
  · rw [if_neg hu, add_zero, mul_div_cancel₀]
    exact_mod_cast hu

/-- A round keeps the mass. -/
theorem sum_walkStep [CharZero K] (hnodes : nodes.Nodup)
    (hends : ∀ l ∈ links, l.1 ∈ nodes ∧ l.2 ∈ nodes) {pull : α → K} (damping : K) {mass : α → K}
    (hpull : (nodes.map pull).sum = 1) (hmass : (nodes.map mass).sum = 1) :
    (nodes.map (walkStep nodes links pull damping mass)).sum = 1 := by
  have hall := sum_inflow_sunk hnodes hends mass
  have hstep : (nodes.map (walkStep nodes links pull damping mass)).sum =
      (1 - damping + damping * walkSunk nodes links mass) * (nodes.map pull).sum +
        damping * (nodes.map (walkInflow links mass)).sum := by
    rw [← List.sum_map_mul_left, ← List.sum_map_mul_left, ← List.sum_map_add]
    rfl
  rw [hstep, hpull]
  linear_combination damping * hall + damping * hmass

end Mass

section Sign

variable {α K : Type*} [DecidableEq α] [Field K] [LinearOrder K] [IsStrictOrderedRing K]
  {nodes : List α} {links : List (α × α)} {pull mass : α → K} {damping : K}

theorem walkInflow_nonneg (hmass : ∀ l ∈ links, 0 ≤ mass l.1) (v : α) :
    0 ≤ walkInflow links mass v := by
  refine List.sum_nonneg fun x hx => ?_
  obtain ⟨l, hl, rfl⟩ := List.mem_map.1 hx
  split
  · exact div_nonneg (hmass l hl) (Nat.cast_nonneg _)
  · exact le_rfl

theorem walkSunk_nonneg (links : List (α × α)) (hmass : ∀ u ∈ nodes, 0 ≤ mass u) : 0 ≤ walkSunk nodes links mass := by
  refine List.sum_nonneg fun x hx => ?_
  obtain ⟨u, hu, rfl⟩ := List.mem_map.1 hx
  split
  · exact hmass u hu
  · exact le_rfl

/-- A round keeps the mass non-negative. -/
theorem walkStep_nonneg (hends : ∀ l ∈ links, l.1 ∈ nodes ∧ l.2 ∈ nodes) (h0 : 0 ≤ damping)
    (h1 : damping ≤ 1) (hmass : ∀ u ∈ nodes, 0 ≤ mass u) {v : α} (hpull : 0 ≤ pull v) :
    0 ≤ walkStep nodes links pull damping mass v := by
  have hsunk := walkSunk_nonneg links hmass
  have hinflow := walkInflow_nonneg (fun l hl => hmass l.1 (hends l hl).1) v
  have hrest : 0 ≤ 1 - damping := sub_nonneg.2 h1
  unfold walkStep
  positivity

end Sign

section Names

variable {α β K : Type*} [DecidableEq α] [DecidableEq β] [Field K] {nodes : List α}
  {links : List (α × α)} {nodes' : List β} {links' : List (β × β)} {f : α → β}

theorem walkDegree_rename (hends : ∀ l ∈ links, l.1 ∈ nodes ∧ l.2 ∈ nodes)
    (hf : Set.InjOn f {u | u ∈ nodes}) (hlinks : links'.Perm (links.map (Prod.map f f))) {u : α}
    (hu : u ∈ nodes) : walkDegree links' (f u) = walkDegree links u := by
  unfold walkDegree
  rw [hlinks.countP_eq, List.countP_map]
  refine List.countP_congr fun l hl => ?_
  simp only [Function.comp_apply, Prod.map_fst, decide_eq_true_eq]
  exact hf.eq_iff (hends l hl).1 hu

/-- A round of the renamed graph, whatever the order of its nodes and its links. -/
theorem walkStep_rename (hends : ∀ l ∈ links, l.1 ∈ nodes ∧ l.2 ∈ nodes)
    (hf : Set.InjOn f {u | u ∈ nodes}) (hnodes : nodes'.Perm (nodes.map f))
    (hlinks : links'.Perm (links.map (Prod.map f f))) {pull mass : α → K} {pull' mass' : β → K}
    (hpull : ∀ u ∈ nodes, pull' (f u) = pull u) (hmass : ∀ u ∈ nodes, mass' (f u) = mass u)
    (damping : K) {v : α} (hv : v ∈ nodes) :
    walkStep nodes' links' pull' damping mass' (f v) = walkStep nodes links pull damping mass v := by
  have hsunk : walkSunk nodes' links' mass' = walkSunk nodes links mass := by
    unfold walkSunk
    rw [(hnodes.map _).sum_eq, List.map_map]
    congr 1
    refine List.map_congr_left fun u hu => ?_
    rw [Function.comp_apply, walkDegree_rename hends hf hlinks hu, hmass u hu]
  have hinflow : walkInflow links' mass' (f v) = walkInflow links mass v := by
    unfold walkInflow
    rw [(hlinks.map _).sum_eq, List.map_map]
    congr 1
    refine List.map_congr_left fun l hl => ?_
    obtain ⟨hl1, hl2⟩ := hends l hl
    have hiff : f l.2 = f v ↔ l.2 = v := hf.eq_iff hl2 hv
    simp only [Function.comp_apply, Prod.map_fst, Prod.map_snd, hiff,
      walkDegree_rename hends hf hlinks hl1, hmass l.1 hl1]
  unfold walkStep
  rw [hsunk, hinflow, hpull v hv]

end Names

end Spelunk.Lib
