import Mathlib.Algebra.GroupWithZero.Nat
import Mathlib.Algebra.BigOperators.Group.List.Basic

/-!
# Greedy Packing

Items of a weight that are kept in their order as long as each fits into what is left of a
budget. What is kept and what is left make up the budget, and nothing that was dropped would
fit at the end.

## Main definitions

* `pack`: What is kept, and what is left.
* `Packs`: What is kept of a list where so much is left.

## Theorems

* `pack_sum`: The weights and what is left make up the budget.
* `packs_pack`: The kept items, and those that were dropped.
-/

namespace Spelunk

namespace Lib

variable {α : Type*} (weight : α → ℕ)

/-- The items that fit one after another, and what is left. -/
def pack : ℕ → List α → List α × ℕ
  | left, [] => ([], left)
  | left, a :: l =>
    if weight a ≤ left then (a :: (pack (left - weight a) l).1, (pack (left - weight a) l).2)
    else pack left l

/-- Some items are kept in their order, and no dropped one fits into what is left. -/
structure Packs (left : ℕ) (l kept : List α) : Prop where
  sublist : kept.Sublist l
  dropped : ∃ dropped, (kept ++ dropped).Perm l ∧ ∀ a ∈ dropped, left < weight a

variable {weight}

theorem pack_cons_of_le {left : ℕ} {a : α} (h : weight a ≤ left) (l : List α) :
    pack weight left (a :: l) =
      (a :: (pack weight (left - weight a) l).1, (pack weight (left - weight a) l).2) := by
  rw [pack, if_pos h]

theorem pack_cons_of_lt {left : ℕ} {a : α} (h : left < weight a) (l : List α) :
    pack weight left (a :: l) = pack weight left l := by
  rw [pack, if_neg (Nat.not_le.2 h)]

variable (weight) in
/-- The weights and what is left make up the budget. -/
theorem pack_sum (left : ℕ) (l : List α) :
    ((pack weight left l).1.map weight).sum + (pack weight left l).2 = left := by
  induction l generalizing left with
  | nil => simp [pack]
  | cons a l ih =>
    by_cases h : weight a ≤ left
    · have hrest := ih (left - weight a)
      rw [pack_cons_of_le h]
      simp only [List.map_cons, List.sum_cons]
      omega
    · rw [pack_cons_of_lt (Nat.not_le.1 h)]
      exact ih left

variable (weight) in
theorem pack_left_le (left : ℕ) (l : List α) : (pack weight left l).2 ≤ left := by
  have h := pack_sum weight left l
  omega

theorem Packs.mono {left left' : ℕ} {l kept : List α} (h : Packs weight left l kept)
    (hle : left' ≤ left) : Packs weight left' l kept := by
  obtain ⟨hsub, dropped, hperm, hfit⟩ := h
  exact ⟨hsub, dropped, hperm, fun a ha => Nat.lt_of_le_of_lt hle (hfit a ha)⟩

theorem Packs.refl (left : ℕ) (l : List α) : Packs weight left l l :=
  ⟨List.Sublist.refl l, [], by rw [List.append_nil], fun _ h => absurd h List.not_mem_nil⟩

/-- The kept items, and those that were dropped. -/
theorem packs_pack (left : ℕ) (l : List α) :
    Packs weight (pack weight left l).2 l (pack weight left l).1 := by
  induction l generalizing left with
  | nil => exact Packs.refl _ []
  | cons a l ih =>
    by_cases h : weight a ≤ left
    · obtain ⟨hsub, dropped, hperm, hfit⟩ := ih (left - weight a)
      rw [pack_cons_of_le h]
      exact ⟨hsub.cons_cons a, dropped, hperm.cons a, hfit⟩
    · obtain ⟨hsub, dropped, hperm, hfit⟩ := ih left
      rw [pack_cons_of_lt (Nat.not_le.1 h)]
      refine ⟨hsub.cons a, a :: dropped, List.perm_middle.trans (hperm.cons a), fun b hb => ?_⟩
      rcases List.mem_cons.1 hb with rfl | hb
      · exact Nat.lt_of_le_of_lt (pack_left_le weight left l) (Nat.not_le.1 h)
      · exact hfit b hb

end Lib

end Spelunk
