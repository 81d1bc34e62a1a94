import Mathlib.Data.List.Perm.Basic
import Mathlib.Data.List.Sort
import Mathlib.Data.Prod.Lex

/-!
# Nearest Elements

A query for the `k` nearest elements of a list, over arbitrary elements and distances. Where
elements are equally near the answer may take any of them, so an answer is a relation. A
filter that is applied to the answer and not to the list it is drawn from can leave too few:
when it does not, whatever the answer, is a property of the list.

## Main definitions

* `Nearest`: An answer to a query for the nearest elements.
* `Undisplaced`: No element that a filter removes takes the place of one that it keeps.

## Theorems

* `nearest_take_mergeSort`: Sorting answers a query.
* `Nearest.union`: The answers for two lists have that for both among them.
* `Nearest.filterMap`: What is left of an answer where nothing is displaced.
* `not_nearest_filterMap`: What is left of one where something is.
* `exists_nearest_displacing`: An answer in which something is.
* `nearest_filterMap_iff`: Filtering every answer gives the nearest of the filtered list
  exactly when nothing is displaced.
-/

namespace Spelunk

namespace Lib

variable {α β D : Type*} [LinearOrder D]

/-- `found` are the `k` elements of `rows` nearest by `dist`, in ascending order; all of them,
    where there are fewer. -/
structure Nearest (dist : α → D) (k : ℕ) (rows found : List α) : Prop where
  sorted : found.Pairwise (fun x y => dist x ≤ dist y)
  split : ∃ rest, (found ++ rest).Perm rows ∧ ∀ x ∈ found, ∀ y ∈ rest, dist x ≤ dist y
  length : found.length = min k rows.length

/-- No element without `p` can be among the `k` nearest while one with `p` is not. -/
def Undisplaced (dist : α → D) (k : ℕ) (rows : List α) (p : α → Bool) : Prop :=
  ∀ x ∈ rows, p x = true → ∀ y ∈ rows, p y = false →
    rows.countP (fun z => dist z ≤ dist x) ≤ k ∨ k ≤ rows.countP (fun z => dist z < dist y)

variable {dist : α → D} {k : ℕ} {rows found : List α}

theorem Nearest.perm_rows {rows' : List α} (h : Nearest dist k rows found)
    (hperm : rows.Perm rows') : Nearest dist k rows' found := by
  obtain ⟨rest, hrest, hle⟩ := h.split
  exact ⟨h.sorted, ⟨rest, hrest.trans hperm, hle⟩, hperm.length_eq ▸ h.length⟩

theorem Nearest.mem (h : Nearest dist k rows found) {x : α} (hx : x ∈ found) : x ∈ rows := by
  obtain ⟨rest, hrest, -⟩ := h.split
  exact hrest.subset (List.mem_append_left _ hx)

theorem Nearest.nodup_map {κ : Type*} {f : α → κ} (h : Nearest dist k rows found)
    (hrows : (rows.map f).Nodup) : (found.map f).Nodup := by
  obtain ⟨rest, hrest, -⟩ := h.split
  have hall := (hrest.map f).nodup_iff.2 hrows
  rw [List.map_append] at hall
  exact (List.nodup_append.1 hall).1

/-- An answer that has room for everything. -/
theorem Nearest.perm_of_length_le (h : Nearest dist k rows found) (hk : rows.length ≤ k) :
    found.Perm rows := by
  obtain ⟨rest, hrest, -⟩ := h.split
  have hlength := h.length
  have hall := hrest.length_eq
  rw [List.length_append] at hall
  have hnone : rest = [] := List.eq_nil_of_length_eq_zero (by omega)
  rwa [hnone, List.append_nil] at hrest

/-- A list that is sorted and short is its own answer. -/
theorem Nearest.self (h : Nearest dist k rows found) : Nearest dist k found found where
  sorted := h.sorted
  split := ⟨[], by rw [List.append_nil], fun _ _ _ hy => absurd hy List.not_mem_nil⟩
  length := by
    have hlength := h.length
    omega

/-- The first elements of a list that is sorted by a key finer than the distance. -/
theorem nearest_take_mergeSort {κ : Type*} [LinearOrder κ] (key : α → κ)
    (hkey : ∀ a b, key a ≤ key b → dist a ≤ dist b) (k : ℕ) (rows : List α) :
    Nearest dist k rows ((rows.mergeSort (fun a b => key a ≤ key b)).take k) := by
  have hsorted : (rows.mergeSort (fun a b => key a ≤ key b)).Pairwise
      (fun a b => dist a ≤ dist b) :=
    (List.pairwise_mergeSort' (fun a b => key a ≤ key b) rows).imp (hkey _ _)
  refine ⟨hsorted.sublist (List.take_sublist k _),
    ⟨(rows.mergeSort (fun a b => key a ≤ key b)).drop k, ?_, ?_⟩, ?_⟩
  · rw [List.take_append_drop]
    exact List.mergeSort_perm rows _
  · rw [← List.take_append_drop k (rows.mergeSort _), List.pairwise_append] at hsorted
    exact hsorted.2.2
  · rw [List.length_take, List.length_mergeSort]

/-- With an element left behind, a query is answered in full. -/
theorem Nearest.length_eq (h : Nearest dist k rows found) {rest : List α}
    (hrest : (found ++ rest).Perm rows) {x : α} (hx : x ∈ rest) : found.length = k := by
  have hlength := h.length
  have hpos := List.length_pos_of_mem hx
  rw [← hrest.length_eq, List.length_append] at hlength
  omega

/-- An element that at most `k` are as near as is in every answer. -/
theorem Nearest.mem_of_countP_le (h : Nearest dist k rows found) {y : α} (hy : y ∈ rows)
    (hnear : rows.countP (fun z => dist z ≤ dist y) ≤ k) : y ∈ found := by
  obtain ⟨rest, hrest, hle⟩ := h.split
  refine (List.mem_append.1 (hrest.symm.subset hy)).resolve_right fun hy => ?_
  rw [← hrest.countP_eq, List.countP_append,
    List.countP_eq_length.2 fun z hz => decide_eq_true (hle z hz y hy), h.length_eq hrest hy]
    at hnear
  have hpos : 0 < rest.countP (fun z => dist z ≤ dist y) :=
    List.countP_pos_iff.2 ⟨y, hy, decide_eq_true le_rfl⟩
  omega

/-- What as many elements as are asked for are no farther than is no nearer than what is found. -/
theorem Nearest.le_of_le_countP (h : Nearest dist k rows found) {d : D}
    (hnear : k ≤ rows.countP fun z => decide (dist z ≤ d)) : ∀ x ∈ found, dist x ≤ d := by
  obtain ⟨rest, hrest, hle⟩ := h.split
  intro x hx
  by_contra hfar
  have hnone : rest.countP (fun z => decide (dist z ≤ d)) = 0 :=
    List.countP_eq_zero.2 fun z hz hzd => hfar ((hle x hx z hz).trans (of_decide_eq_true hzd))
  have hshort : found.countP (fun z => decide (dist z ≤ d)) < found.length :=
    lt_of_le_of_ne List.countP_le_length fun heq =>
      hfar (of_decide_eq_true (List.countP_eq_length.1 heq x hx))
  have hlength := h.length
  rw [← hrest.countP_eq, List.countP_append, hnone] at hnear
  omega

/-- The nearest elements of two lists, put together, have the nearest elements of both among
    them. -/
theorem Nearest.union {left right foundLeft foundRight both : List α}
    (hleft : Nearest dist k left foundLeft) (hright : Nearest dist k right foundRight)
    (hrows : rows.Nodup) (hmem : ∀ x, x ∈ rows ↔ x ∈ left ∨ x ∈ right)
    (hnodupLeft : left.Nodup) (hnodupRight : right.Nodup)
    (hboth : both.Nodup) (hmemBoth : ∀ x, x ∈ both ↔ x ∈ foundLeft ∨ x ∈ foundRight)
    (h : Nearest dist k both found) : Nearest dist k rows found := by
  classical
  have hbothSub : both ⊆ rows := by
    intro x hx
    rw [hmem]
    exact ((hmemBoth x).1 hx).imp hleft.mem hright.mem
  have hperm : (both ++ rows.filter fun x => decide (x ∉ both)).Perm rows := by
    have happ : (both ++ rows.filter fun x => decide (x ∉ both)).Nodup := by
      refine List.nodup_append.2 ⟨hboth, hrows.filter _, fun a ha b hb hab => ?_⟩
      exact of_decide_eq_true (List.mem_filter.1 hb).2 (hab ▸ ha)
    refine (List.perm_ext_iff_of_nodup happ hrows).2 fun x => ⟨fun hx => ?_, fun hx => ?_⟩
    · exact (List.mem_append.1 hx).elim (fun hx => hbothSub hx) List.mem_of_mem_filter
    · by_cases hxb : x ∈ both
      · exact List.mem_append_left _ hxb
      · exact List.mem_append_right _ (List.mem_filter.2 ⟨hx, decide_eq_true hxb⟩)
  -- An element that was left out has as many no farther ones among those put together.
  have hfull : ∀ x ∈ rows, x ∉ both → k ≤ both.countP fun z => decide (dist z ≤ dist x) := by
    have hside : ∀ {l f : List α}, Nearest dist k l f → l.Nodup → (∀ z ∈ f, z ∈ both) →
        ∀ x ∈ l, x ∉ f → k ≤ both.countP fun z => decide (dist z ≤ dist x) := by
      intro l f hf hl hfboth x hx hxf
      obtain ⟨rest, hrest, hle⟩ := hf.split
      have hxrest : x ∈ rest := (List.mem_append.1 (hrest.symm.subset hx)).resolve_left hxf
      have hfnodup : f.Nodup := (List.nodup_append.1 (hrest.nodup_iff.2 hl)).1
      have hcount : f.countP (fun z => decide (dist z ≤ dist x)) = f.length :=
        List.countP_eq_length.2 fun z hz => decide_eq_true (hle z hz x hxrest)
      rw [← hf.length_eq hrest hxrest, ← hcount]
      exact (List.subperm_of_subset hfnodup hfboth).countP_le _
    intro x hx hxb
    rcases (hmem x).1 hx with hx | hx
    · exact hside hleft hnodupLeft (fun z hz => (hmemBoth z).2 (.inl hz)) x hx
        fun hxf => hxb ((hmemBoth x).2 (.inl hxf))
    · exact hside hright hnodupRight (fun z hz => (hmemBoth z).2 (.inr hz)) x hx
        fun hxf => hxb ((hmemBoth x).2 (.inr hxf))
  obtain ⟨rest, hrest, hle⟩ := h.split
  refine ⟨h.sorted, ⟨rest ++ rows.filter fun x => decide (x ∉ both), ?_, ?_⟩, ?_⟩
  · rw [← List.append_assoc]
    exact (hrest.append_right _).trans hperm
  · intro x hx y hy
    rcases List.mem_append.1 hy with hy | hy
    · exact hle x hx y hy
    · obtain ⟨hy, hyb⟩ := List.mem_filter.1 hy
      exact h.le_of_le_countP (hfull y hy (of_decide_eq_true hyb)) x hx
  · rw [h.length, ← hperm.length_eq, List.length_append]
    by_cases hnone : rows.filter (fun x => decide (x ∉ both)) = []
    · rw [hnone, List.length_nil, Nat.add_zero]
    · obtain ⟨x, hx⟩ := List.exists_mem_of_ne_nil _ hnone
      obtain ⟨hx, hxb⟩ := List.mem_filter.1 hx
      have hk := (hfull x hx (of_decide_eq_true hxb)).trans List.countP_le_length
      omega

section Filter

variable {f : α → Option β} {dist' : β → D}

/-- Where nothing is displaced, what is left of an answer are the nearest elements left. -/
theorem Nearest.filterMap (h : Nearest dist k rows found)
    (hdist : ∀ a, ∀ b ∈ f a, dist' b = dist a)
    (hkept : Undisplaced dist k rows (fun a => (f a).isSome)) :
    Nearest dist' k (rows.filterMap f) (found.filterMap f) := by
  obtain ⟨rest, hrest, hle⟩ := h.split
  have hperm : (found.filterMap f ++ rest.filterMap f).Perm (rows.filterMap f) := by
    rw [← List.filterMap_append]
    exact hrest.filterMap f
  refine ⟨?_, ⟨rest.filterMap f, hperm, ?_⟩, ?_⟩
  · refine List.pairwise_filterMap.2 (h.sorted.imp fun {a a'} haa' b hb b' hb' => ?_)
    rw [hdist a b hb, hdist a' b' hb']
    exact haa'
  · intro b hb b' hb'
    obtain ⟨a, ha, hab⟩ := List.mem_filterMap.1 hb
    obtain ⟨a', ha', hab'⟩ := List.mem_filterMap.1 hb'
    rw [hdist a b hab, hdist a' b' hab']
    exact hle a ha a' ha'
  · rw [← hperm.length_eq, List.length_append]
    have hshort := List.length_filterMap_le f found
    have hk : found.length ≤ k := h.length ▸ Nat.min_le_left _ _
    by_cases hnone : rest.filterMap f = []
    · rw [hnone, List.length_nil]
      omega
    · obtain ⟨b, hb⟩ := List.exists_mem_of_ne_nil _ hnone
      obtain ⟨x, hx, hxb⟩ := List.mem_filterMap.1 hb
      have hfull := h.length_eq hrest hx
      -- Everything found is nearer than `x`, so nothing found was removed.
      have hall : ∀ y ∈ found, (f y).isSome = true := by
        intro y hy
        by_contra hremoved
        have hkeep : (f x).isSome = true := by rw [hxb]; rfl
        rcases hkept x (hrest.subset (List.mem_append_right found hx)) hkeep y
          (hrest.subset (List.mem_append_left rest hy)) (by simpa using hremoved) with hnear | hfar
        · rw [← hrest.countP_eq, List.countP_append,
            List.countP_eq_length.2 fun z hz => decide_eq_true (hle z hz x hx)] at hnear
          have hpos : 0 < rest.countP (fun z => dist z ≤ dist x) :=
            List.countP_pos_iff.2 ⟨x, hx, decide_eq_true le_rfl⟩
          omega
        · rw [← hrest.countP_eq, List.countP_append,
            (List.countP_eq_zero (l := rest)).2 fun z hz => by simpa using hle y hy z hz] at hfar
          have hlt : found.countP (fun z => dist z < dist y) < found.length := by
            refine lt_of_le_of_ne List.countP_le_length fun heq => ?_
            exact lt_irrefl _ (of_decide_eq_true (List.countP_eq_length.1 heq y hy))
          omega
      have hlength : (found.filterMap f).length = found.length := by
        rw [List.length_filterMap_eq_countP, List.countP_eq_length]
        exact hall
      have hpos := List.length_pos_of_mem hb
      omega

/-- Where an element can be displaced, there is an answer in which it is. -/
theorem exists_nearest_displacing {x y : α} (hx : x ∈ rows) (hy : y ∈ rows) (hxy : x ≠ y)
    (hfar : k < rows.countP (fun z => dist z ≤ dist x))
    (hnear : rows.countP (fun z => dist z < dist y) < k) :
    ∃ found rest, Nearest dist k rows found ∧ (found ++ rest).Perm rows ∧ y ∈ found ∧ x ∈ rest := by
  classical
  -- Among equally near elements `y` comes first and `x` last.
  let tie : α → ℕ := fun a => if a = y then 0 else if a = x then 2 else 1
  let key : α → D ×ₗ ℕ := fun a => toLex (dist a, tie a)
  have hkey : ∀ a b, key a ≤ key b ↔ dist a < dist b ∨ dist a = dist b ∧ tie a ≤ tie b :=
    fun a b => Prod.Lex.toLex_le_toLex
  have hdist : ∀ a b, key a ≤ key b → dist a ≤ dist b := fun a b h =>
    ((hkey a b).1 h).elim le_of_lt fun h => h.1.le
  set sorted := rows.mergeSort (fun a b => key a ≤ key b) with hsorted
  have hperm : sorted.Perm rows := List.mergeSort_perm rows _
  have hle : ∀ a ∈ sorted.take k, ∀ b ∈ sorted.drop k, key a ≤ key b := by
    have h := List.pairwise_mergeSort' (fun a b => key a ≤ key b) rows
    rw [← hsorted, ← List.take_append_drop k sorted, List.pairwise_append] at h
    exact h.2.2
  have hsplit : (sorted.take k ++ sorted.drop k).Perm rows := by
    rwa [List.take_append_drop]
  refine ⟨sorted.take k, sorted.drop k, nearest_take_mergeSort key hdist k rows, hsplit, ?_, ?_⟩
  · by_contra hout
    have hrest : y ∈ sorted.drop k :=
      (List.mem_append.1 (hsplit.symm.subset hy)).resolve_left hout
    have hcloser : ∀ a ∈ sorted.take k, dist a < dist y := by
      intro a ha
      have hay : a ≠ y := fun h => hout (h ▸ ha)
      refine ((hkey a y).1 (hle a ha y hrest)).resolve_right fun h => ?_
      have htie := h.2
      simp only [tie, if_pos, if_neg hay] at htie
      split_ifs at htie <;> omega
    have hlength : (sorted.take k).length = k :=
      (nearest_take_mergeSort key hdist k rows).length_eq hsplit hrest
    rw [← hsplit.countP_eq, List.countP_append,
      List.countP_eq_length.2 fun a ha => decide_eq_true (hcloser a ha)] at hnear
    omega
  · by_contra hin
    have hfound : x ∈ sorted.take k :=
      (List.mem_append.1 (hsplit.symm.subset hx)).resolve_right hin
    have hfurther : ∀ b ∈ sorted.drop k, dist x < dist b := by
      intro b hb
      have hbx : b ≠ x := fun h => hin (h ▸ hb)
      refine ((hkey x b).1 (hle x hfound b hb)).resolve_right fun h => ?_
      have htie := h.2
      simp only [tie, if_pos, if_neg hxy, if_neg hbx] at htie
      split_ifs at htie <;> omega
    rw [← hsplit.countP_eq, List.countP_append, (List.countP_eq_zero (l := sorted.drop k)).2
      fun b hb => by simpa using hfurther b hb] at hfar
    have hcount := List.countP_le_length (p := fun z => decide (dist z ≤ dist x))
      (l := sorted.take k)
    have htake := List.length_take_le k sorted
    omega

/-- An answer with an element that is removed, and without one that is kept. -/
theorem not_nearest_filterMap {rest : List α} (h : Nearest dist k rows found)
    (hperm : (found ++ rest).Perm rows) {x y : α} (hy : y ∈ found) (hfy : (f y).isSome = false)
    (hx : x ∈ rest) (hfx : (f x).isSome = true) :
    ¬ Nearest dist' k (rows.filterMap f) (found.filterMap f) := by
  intro hcon
  have hlength := hcon.length
  rw [← (hperm.filterMap f).length_eq, List.filterMap_append, List.length_append] at hlength
  have hk : found.length ≤ k := h.length ▸ Nat.min_le_left _ _
  have hlost : (found.filterMap f).length < found.length := by
    rw [List.length_filterMap_eq_countP]
    refine lt_of_le_of_ne List.countP_le_length fun heq => ?_
    exact Bool.false_ne_true (hfy.symm.trans (List.countP_eq_length.1 heq y hy))
  have hleft : 0 < (rest.filterMap f).length := by
    obtain ⟨b, hb⟩ := Option.isSome_iff_exists.1 hfx
    exact List.length_pos_of_mem (List.mem_filterMap.2 ⟨x, hx, hb⟩)
  omega

/-- Filtering every answer gives the nearest of the filtered list exactly when nothing is
    displaced. -/
theorem nearest_filterMap_iff (dist' : β → D) (hdist : ∀ a, ∀ b ∈ f a, dist' b = dist a) :
    (∀ found, Nearest dist k rows found →
      Nearest dist' k (rows.filterMap f) (found.filterMap f)) ↔
      Undisplaced dist k rows (fun a => (f a).isSome) := by
  constructor
  · intro h x hx hfx y hy hfy
    by_contra hcon
    obtain ⟨hfar, hnear⟩ := not_or.1 hcon
    have hxy : x ≠ y := fun heq => by rw [heq, hfy] at hfx; cases hfx
    obtain ⟨found, rest, hfound, hperm, hyf, hxr⟩ :=
      exists_nearest_displacing hx hy hxy (not_le.1 hfar) (not_le.1 hnear)
    exact not_nearest_filterMap hfound hperm hyf hfy hxr hfx (h found hfound)
  · exact fun h found hfound => hfound.filterMap hdist h

end Filter

end Lib

end Spelunk
