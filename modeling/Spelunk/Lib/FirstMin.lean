import Mathlib.Data.List.Induction
import Mathlib.Data.List.Sort
import Mathlib.Data.List.Perm.Basic

/-!
# First Minimum and Swap Removal

Two vector operations a fold over copies is built from, over arbitrary element
and key types.

`firstMin` scans a non-empty list for an element of least key and keeps the
earlier one on a tie, which is what `Iterator::min_by` does. Ties are the whole
point: the element returned is determined by the *list*, not by the set of its
elements, and every order-dependence a caller has comes from there.

`swapRemove` takes an element out of a vector by moving the last one into its
place, so what is left over is not in its old order. A caller that merges the
leftovers must not depend on that order; `swapRemove_perm` is the only fact it
gets about them.

## Main definitions

* `firstMin`: The first element of least key.
* `leastOf`: The same of a list that may be empty.
* `swapRemove`: Removal of one slot, filling it from the end.

## Theorems

* `firstMin_mem`: The first minimum is one of the elements.
* `firstMin_key_le`: Its key is least.
* `firstMin_eq_head`: A head of least key is the first minimum.
* `firstMin_append`: The first minimum of a concatenation.
* `firstMin_congr`: Replacing the head by one with the same key.
* `leastOf_eq_some_iff`: Where it stands.
* `leastOf_filter`: Elements that are beaten make no difference.
* `swapRemove_perm`: The removed element and the rest are the whole.
-/

namespace Spelunk

namespace Lib

section FirstMin

variable {α β κ : Type*} [LinearOrder κ]

/-- The first element of least key of the list `a :: l`. -/
def firstMin (key : α → κ) (a : α) (l : List α) : α :=
  l.foldl (fun best x => if key x < key best then x else best) a

@[simp] theorem firstMin_nil (key : α → κ) (a : α) : firstMin key a [] = a := rfl

theorem firstMin_cons (key : α → κ) (a x : α) (l : List α) :
    firstMin key a (x :: l) = firstMin key (if key x < key a then x else a) l := rfl

theorem firstMin_mem (key : α → κ) (a : α) (l : List α) : firstMin key a l ∈ a :: l := by
  induction l generalizing a with
  | nil => simp only [firstMin_nil, List.mem_singleton]
  | cons x l ih =>
      rw [firstMin_cons]
      by_cases hlt : key x < key a
      · rw [if_pos hlt]
        exact List.mem_cons_of_mem _ (ih x)
      · rw [if_neg hlt]
        rcases List.mem_cons.mp (ih a) with heq | hmem
        · rw [heq]
          exact List.mem_cons_self
        · exact List.mem_cons_of_mem _ (List.mem_cons_of_mem _ hmem)

theorem firstMin_key_le (key : α → κ) (a : α) (l : List α) :
    ∀ x ∈ a :: l, key (firstMin key a l) ≤ key x := by
  induction l generalizing a with
  | nil =>
      intro x hx
      rw [firstMin_nil, List.mem_singleton.mp hx]
  | cons y l ih =>
      intro x hx
      rw [firstMin_cons]
      by_cases hlt : key y < key a
      · rw [if_pos hlt]
        rcases List.mem_cons.mp hx with rfl | hx'
        · exact le_trans (ih y y List.mem_cons_self) (le_of_lt hlt)
        · exact ih y x hx'
      · rw [if_neg hlt]
        rcases List.mem_cons.mp hx with rfl | hx'
        · exact ih x x List.mem_cons_self
        rcases List.mem_cons.mp hx' with rfl | hx''
        · exact le_trans (ih a a List.mem_cons_self) (not_lt.mp hlt)
        · exact ih a x (List.mem_cons_of_mem _ hx'')

/-- A head of least key wins, whatever ties with it later in the list. -/
theorem firstMin_eq_head (key : α → κ) (a : α) (l : List α)
    (h : ∀ x ∈ l, key a ≤ key x) : firstMin key a l = a := by
  induction l with
  | nil => rfl
  | cons x l ih =>
      rw [firstMin_cons, if_neg (not_lt.mpr (h x List.mem_cons_self))]
      exact ih (fun y hy => h y (List.mem_cons_of_mem _ hy))

theorem firstMin_append (key : α → κ) (a : α) (l r : List α) :
    firstMin key a (l ++ r) = firstMin key (firstMin key a l) r := by
  simp only [firstMin, List.foldl_append]

/-- Repeating the list after itself does not change the first minimum. -/
theorem firstMin_append_self (key : α → κ) (a : α) (l : List α) :
    firstMin key a (l ++ a :: l) = firstMin key a l := by
  rw [firstMin_append]
  exact firstMin_eq_head key _ _ (firstMin_key_le key a l)

/-- The scan looks at keys only, so it commutes with a map that keeps them. -/
theorem firstMin_map (key : β → κ) (f : α → β) (a : α) (l : List α) :
    firstMin key (f a) (l.map f) = f (firstMin (fun x => key (f x)) a l) := by
  induction l generalizing a with
  | nil => rfl
  | cons x l ih =>
      rw [List.map_cons, firstMin_cons, firstMin_cons, ← ih]
      congr 1
      exact (apply_ite f _ _ _).symm

/-- A head replaced by another of the same key is what the scan then returns
    whenever it returned the old head; otherwise nothing changes. -/
theorem firstMin_congr (key : α → κ) (a b : α) (l : List α) (h : key a = key b) :
    (firstMin key a l = a ∧ firstMin key b l = b) ∨ firstMin key a l = firstMin key b l := by
  induction l with
  | nil => exact Or.inl ⟨rfl, rfl⟩
  | cons x l ih =>
      rw [firstMin_cons, firstMin_cons, h]
      by_cases hlt : key x < key b
      · rw [if_pos hlt, if_pos hlt]
        exact Or.inr rfl
      · rw [if_neg hlt, if_neg hlt]
        exact ih

end FirstMin

section LeastOf

variable {α β κ : Type*} [LinearOrder κ] {key : α → κ}

/-- The first element of least key, if there is any. -/
def leastOf (key : α → κ) : List α → Option α
  | [] => none
  | a :: l => some (firstMin key a l)

theorem leastOf_eq_none_iff {l : List α} : leastOf key l = none ↔ l = [] := by
  cases l <;> simp [leastOf]

theorem leastOf_concat (l : List α) (x : α) :
    leastOf key (l ++ [x]) = some (match leastOf key l with
      | none => x
      | some best => if key x < key best then x else best) := by
  cases l with
  | nil => rfl
  | cons a l => rw [List.cons_append, leastOf, firstMin_append, leastOf, firstMin_cons, firstMin_nil]

theorem leastOf_map (key : β → κ) (f : α → β) (l : List α) :
    leastOf key (l.map f) = (leastOf (fun x => key (f x)) l).map f := by
  cases l with
  | nil => rfl
  | cons a l => rw [List.map_cons, leastOf, firstMin_map, leastOf, Option.map_some]

/-- Where the first element of least key stands: everything before it has a greater key, and nothing
    behind it a smaller one. -/
theorem leastOf_eq_some_iff {l : List α} {m : α} :
    leastOf key l = some m ↔
      ∃ x y, l = x ++ m :: y ∧ (∀ c ∈ x, key m < key c) ∧ ∀ c ∈ y, key m ≤ key c := by
  constructor
  · intro h
    induction l using List.reverseRecOn generalizing m with
    | nil => cases h
    | append_singleton l z ih =>
      rw [leastOf_concat, Option.some.injEq] at h
      cases hl : leastOf key l with
      | none =>
        rw [hl] at h
        rw [leastOf_eq_none_iff.1 hl, ← h]
        exact ⟨[], [], rfl, by simp, by simp⟩
      | some best =>
        obtain ⟨x, y, rfl, hx, hy⟩ := ih hl
        replace h : (if key z < key best then z else best) = m := by
          rw [hl] at h
          exact h
        by_cases hz : key z < key best
        · rw [if_pos hz] at h
          subst h
          refine ⟨x ++ best :: y, [], by simp, fun c hc => ?_, by simp⟩
          rcases List.mem_append.1 hc with hc | hc
          · exact hz.trans (hx c hc)
          · rcases List.mem_cons.1 hc with rfl | hc
            · exact hz
            · exact hz.trans_le (hy c hc)
        · rw [if_neg hz] at h
          subst h
          refine ⟨x, y ++ [z], by simp, hx, fun c hc => ?_⟩
          rcases List.mem_append.1 hc with hc | hc
          · exact hy c hc
          · rw [List.mem_singleton.1 hc]
            exact not_lt.1 hz
  · rintro ⟨x, y, rfl, hx, hy⟩
    cases x with
    | nil => rw [List.nil_append, leastOf, firstMin_eq_head key m y hy]
    | cons b x =>
      have hb : key m < key (firstMin key b x) := hx _ (firstMin_mem key b x)
      rw [List.cons_append, leastOf, firstMin_append, firstMin_cons, if_pos hb,
        firstMin_eq_head key m y hy]

theorem leastOf_mem {l : List α} {m : α} (h : leastOf key l = some m) : m ∈ l := by
  obtain ⟨x, y, rfl, -, -⟩ := leastOf_eq_some_iff.1 h
  simp

theorem leastOf_key_le {l : List α} {m : α} (h : leastOf key l = some m) :
    ∀ c ∈ l, key m ≤ key c := by
  obtain ⟨x, y, rfl, hx, hy⟩ := leastOf_eq_some_iff.1 h
  intro c hc
  rcases List.mem_append.1 hc with hc | hc
  · exact (hx c hc).le
  · rcases List.mem_cons.1 hc with rfl | hc
    · exact le_rfl
    · exact hy c hc

/-- Elements that are beaten by one that stays make no difference. -/
theorem leastOf_filter {l : List α} {p : α → Bool}
    (h : ∀ c ∈ l, p c = false → ∃ d ∈ l, key d < key c) :
    leastOf key (l.filter p) = leastOf key l := by
  cases hl : leastOf key l with
  | none => rw [leastOf_eq_none_iff.1 hl]; rfl
  | some m =>
    have hp : p m = true := by
      by_contra hp
      obtain ⟨d, hd, hlt⟩ := h m (leastOf_mem hl) (by simpa using hp)
      exact absurd hlt (not_lt.2 (leastOf_key_le hl d hd))
    obtain ⟨x, y, rfl, hx, hy⟩ := leastOf_eq_some_iff.1 hl
    refine leastOf_eq_some_iff.2 ⟨x.filter p, y.filter p, ?_, ?_, ?_⟩
    · rw [List.filter_append, List.filter_cons_of_pos hp]
    · exact fun c hc => hx c (List.mem_filter.1 hc).1
    · exact fun c hc => hy c (List.mem_filter.1 hc).1

end LeastOf

section SwapRemove

variable {α : Type*}

/-- Remove slot `i`, moving the last element into it. -/
def swapRemove (l : List α) (i : Nat) : List α :=
  match l.getLast? with
  | none => []
  | some x => (l.set i x).dropLast

theorem swapRemove_perm (l : List α) (i : Nat) (h : i < l.length) :
    (l[i] :: swapRemove l i).Perm l := by
  rcases List.eq_nil_or_concat l with rfl | ⟨init, x, rfl⟩
  · exact absurd h (Nat.not_lt_zero _)
  simp only [List.concat_eq_append] at h ⊢
  have hlast : swapRemove (init ++ [x]) i = ((init ++ [x]).set i x).dropLast := by
    simp only [swapRemove, List.getLast?_append, List.getLast?_singleton, Option.some_or]
  rw [hlast]
  by_cases hi : i < init.length
  · -- An inner slot: the last element fills it, and the old content leaves.
    rw [List.set_append_left _ _ hi, List.dropLast_concat, List.getElem_append_left hi]
    have hset := List.set_perm_cons_eraseIdx hi x
    have hget := List.getElem_cons_eraseIdx_perm hi
    calc (init[i] :: init.set i x).Perm (init[i] :: x :: init.eraseIdx i) := hset.cons _
      _ |>.Perm (x :: init[i] :: init.eraseIdx i) := List.Perm.swap _ _ _
      _ |>.Perm (x :: init) := hget.cons _
      _ |>.Perm (init ++ [x]) := (List.perm_append_singleton x init).symm
  · -- The last slot itself: the vector just shrinks.
    have hieq : i = init.length := by
      simp only [List.length_append, List.length_singleton] at h
      omega
    subst hieq
    simp only [List.set_append_right _ _ (le_refl _), Nat.sub_self, List.set_cons_zero,
      List.dropLast_concat, List.getElem_concat_length]
    exact (List.perm_append_singleton x init).symm

end SwapRemove

end Lib

end Spelunk
