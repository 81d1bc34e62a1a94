import Mathlib.Data.List.Induction
import Mathlib.Data.List.Perm.Basic
import Mathlib.Data.List.Sort

/-!
# Merging by an Idempotent Operation

Folding a list with an operation that is associative, commutative and
idempotent and has an identity gives a value that depends only on *which*
elements the list has: not on their order, and not on how often each occurs.
That is what makes a state-based merge converge, and it is stated here once
for any such operation.

## Main definitions

* `mergeAll`: The fold of a list from the identity.
* `dedupConsecutive`: Drops an element equal to the one after it.
* `sortDedup`: Sorts, then drops repetitions.

## Theorems

* `mergeAll_append`: Merging a concatenation in two passes.
* `mergeAll_absorb`: A value already merged changes nothing.
* `mergeAll_eq_of_mem_iff`: Equal members, equal merge.
* `mem_sortDedup`: Sorting and deduplicating keeps the members.
* `sortDedup_sortedLT`: The result is strictly ascending.
* `sortDedup_eq_of_mem_iff`: The result is decided by the members.
* `sortDedup_of_sortedLT`: A strictly ascending vector is left alone.
-/

namespace Spelunk

namespace Lib

variable {α : Type*} (op : α → α → α) (e : α)

/-- Merge of a list, from the identity `e`. -/
def mergeAll (l : List α) : α :=
  l.foldl op e

theorem mergeAll_append (l r : List α) : mergeAll op e (l ++ r) = r.foldl op (mergeAll op e l) := by
  rw [mergeAll, List.foldl_append]
  rfl

section Identity

variable [Std.LawfulLeftIdentity op e]

theorem left_id (a : α) : op e a = a := Std.LawfulLeftIdentity.left_id a

theorem mergeAll_cons (x : α) (l : List α) : mergeAll op e (x :: l) = l.foldl op x := by
  rw [mergeAll, List.foldl_cons, left_id op e]

end Identity

variable [Std.Associative op] [Std.Commutative op] [Std.LawfulLeftIdentity op e]

theorem foldl_op_eq (l : List α) (a : α) : l.foldl op a = op a (mergeAll op e l) := by
  have h : l.foldl op (op a e) = op a (l.foldl op e) := List.foldl_assoc
  have hcomm : op a e = op e a := Std.Commutative.comm a e
  rw [hcomm, left_id op e] at h
  exact h

variable [Std.IdempotentOp op]

/-- A value already merged changes nothing. -/
theorem mergeAll_absorb (l : List α) (x : α) (h : x ∈ l) :
    op (mergeAll op e l) x = mergeAll op e l := by
  induction l with
  | nil => exact absurd h List.not_mem_nil
  | cons y l ih =>
      have hy : mergeAll op e (y :: l) = op y (mergeAll op e l) := by
        rw [mergeAll_cons, foldl_op_eq op e]
      have hassoc : ∀ a b c, op (op a b) c = op a (op b c) := Std.Associative.assoc
      rw [hy, hassoc]
      rcases List.mem_cons.mp h with rfl | h'
      · have hcomm : op (mergeAll op e l) x = op x (mergeAll op e l) := Std.Commutative.comm _ _
        have hidem : op x x = x := Std.IdempotentOp.idempotent x
        rw [hcomm, ← hassoc, hidem]
      · rw [ih h']

/-- Values that were all merged already change nothing. -/
theorem mergeAll_append_of_subset (l r : List α) (h : ∀ x ∈ r, x ∈ l) :
    mergeAll op e (l ++ r) = mergeAll op e l := by
  induction r using List.reverseRecOn with
  | nil => rw [List.append_nil]
  | append_singleton r x ih =>
      have hr : ∀ y ∈ r, y ∈ l := fun y hy => h y (List.mem_append_left _ hy)
      have hx : x ∈ l := h x (List.mem_append_right _ (List.mem_singleton_self x))
      rw [← List.append_assoc, mergeAll_append, ih hr]
      exact mergeAll_absorb op e l x hx

/-- The merge of a list depends only on which values it has. -/
theorem mergeAll_eq_of_mem_iff (l r : List α) (h : ∀ x, x ∈ l ↔ x ∈ r) :
    mergeAll op e l = mergeAll op e r := by
  have hl := mergeAll_append_of_subset op e l r (fun x hx => (h x).mpr hx)
  have hr := mergeAll_append_of_subset op e r l (fun x hx => (h x).mp hx)
  rw [← hl, ← hr, mergeAll_append, mergeAll_append, foldl_op_eq op e, foldl_op_eq op e]
  exact Std.Commutative.comm _ _

end Lib

end Spelunk

namespace Spelunk

namespace Lib

/-! ### Sorted Sets as Vectors

A set kept as a sorted vector without repetitions: `sort` followed by `dedup`.
`dedup` on a vector removes *consecutive* repetitions only, so on its own it
says nothing; after a sort it leaves each member once.

`sortDedup_eq_of_mem_iff` is the fact everything else is for. Two vectors with
the same members become the same vector, so any expression built from
concatenations and `sortDedup` is decided by its members alone.
-/

variable {α : Type*} [LinearOrder α]

/-- Drop each element that equals its successor, as `Vec::dedup` does. -/
def dedupConsecutive : List α → List α
  | [] => []
  | [a] => [a]
  | a :: b :: l => if a = b then dedupConsecutive (b :: l) else a :: dedupConsecutive (b :: l)

theorem mem_dedupConsecutive (l : List α) (x : α) : x ∈ dedupConsecutive l ↔ x ∈ l := by
  induction l with
  | nil => simp only [dedupConsecutive]
  | cons a l ih =>
      cases l with
      | nil => simp only [dedupConsecutive]
      | cons b l =>
          rw [dedupConsecutive]
          by_cases hab : a = b
          · rw [if_pos hab, ih, hab]
            simp only [List.mem_cons, or_self_left]
          · rw [if_neg hab, List.mem_cons, ih]
            exact List.mem_cons.symm

theorem dedupConsecutive_sortedLT (l : List α) (h : l.SortedLE) :
    (dedupConsecutive l).SortedLT := by
  rw [List.sortedLT_iff_pairwise]
  rw [List.sortedLE_iff_pairwise] at h
  induction l with
  | nil => exact List.Pairwise.nil
  | cons a l ih =>
      cases l with
      | nil => exact List.pairwise_singleton _ _
      | cons b l =>
          rcases List.pairwise_cons.mp h with ⟨ha, hbl⟩
          rw [dedupConsecutive]
          by_cases hab : a = b
          · rw [if_pos hab]
            exact ih hbl
          · rw [if_neg hab]
            refine List.pairwise_cons.mpr ⟨fun x hx => ?_, ih hbl⟩
            -- Everything after `a` is at least `b`, which is strictly above it.
            have hlt : a < b := lt_of_le_of_ne (ha b List.mem_cons_self) hab
            rcases List.mem_cons.mp ((mem_dedupConsecutive _ _).mp hx) with rfl | hx'
            · exact hlt
            · exact lt_of_lt_of_le hlt ((List.pairwise_cons.mp hbl).1 x hx')

/-- Sort, then drop repetitions. -/
def sortDedup (l : List α) : List α := dedupConsecutive (l.insertionSort (· ≤ ·))

@[simp] theorem mem_sortDedup (l : List α) (x : α) : x ∈ sortDedup l ↔ x ∈ l := by
  rw [sortDedup, mem_dedupConsecutive, List.mem_insertionSort]

theorem sortDedup_sortedLT (l : List α) : (sortDedup l).SortedLT :=
  dedupConsecutive_sortedLT _ (List.sortedLE_iff_pairwise.mpr (List.pairwise_insertionSort _ l))

/-- The members alone decide the sorted vector. -/
theorem sortDedup_eq_of_mem_iff {l r : List α} (h : ∀ x, x ∈ l ↔ x ∈ r) :
    sortDedup l = sortDedup r :=
  (sortDedup_sortedLT l).eq_of_mem_iff (sortDedup_sortedLT r)
    (fun x => by rw [mem_sortDedup, mem_sortDedup, h x])

theorem sortDedup_of_sortedLT {l : List α} (h : l.SortedLT) : sortDedup l = l :=
  (sortDedup_sortedLT l).eq_of_mem_iff h (fun x => mem_sortDedup l x)

end Lib

end Spelunk
