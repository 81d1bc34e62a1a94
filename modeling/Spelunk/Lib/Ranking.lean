import Mathlib.Data.List.Nodup
import Mathlib.Data.List.Perm.Subperm
import Mathlib.Data.List.Pairwise
import Mathlib.Data.Prod.Lex
import Mathlib.Order.Basic

/-!
# Rankings

A list sorted by descending score, and cut to its first elements. What is cut off does
not depend on the order before the sort as long as no two elements of one score are on
both sides of the cut; and the first elements are the same in the same order as long as
no two of one score come into them. The sort is stable, so this is exact: an element
that stands first before the sort is the first of its score behind it.

## Main definitions

* `ranked`: The sort.
* `Descending`: No element has a better one behind it.
* `Decided`: Two of one score are behind the cut.
* `CutClear`: Two of one score are on one side of the cut.
* `toFront`: An element is brought to the front.

## Theorems

* `Descending.countP_lt_le`, `Descending.lt_countP_le`: The place of an element by what is better.
* `take_eq_of_decided`: The first elements are the same.
* `take_perm_of_cutClear`: What is cut off is the same.
* `descending_ranked_lex`: What is equal stays in the order it had.
* `decided_of_take_eq`: They are the same in every order only if they are decided.
-/

namespace Spelunk

namespace Lib

variable {α S : Type*} [LinearOrder S] (score : α → S)

/-- By descending score, and what is equal in the order it had. -/
def ranked (l : List α) : List α := l.mergeSort fun a b => decide (score b ≤ score a)

/-- No element has a better one behind it. -/
def Descending (l : List α) : Prop := l.Pairwise fun a b => score b ≤ score a

/-- How many elements are better. -/
def better (l : List α) (x : α) : ℕ := l.countP fun z => decide (score x < score z)

/-- How many elements are no worse. -/
def noWorse (l : List α) (x : α) : ℕ := l.countP fun z => decide (score x ≤ score z)

/-- Before two elements of one score there are as many better ones as are taken. -/
def Decided (n : ℕ) (l : List α) : Prop :=
  ∀ x ∈ l, ∀ y ∈ l, score x = score y → x ≠ y → n ≤ better score l x

/-- Two elements of one score are both taken, or neither is. -/
def CutClear (n : ℕ) (l : List α) : Prop :=
  ∀ x ∈ l, ∀ y ∈ l, score x = score y → x ≠ y →
    n ≤ better score l x ∨ noWorse score l x ≤ n

theorem ranked_perm (l : List α) : (ranked score l).Perm l := List.mergeSort_perm _ _

theorem mem_ranked {l : List α} {x : α} : x ∈ ranked score l ↔ x ∈ l := List.mem_mergeSort

theorem descending_ranked (l : List α) : Descending score (ranked score l) := by
  have hsorted : (ranked score l).Pairwise fun a b => decide (score b ≤ score a) = true :=
    List.pairwise_mergeSort
    (fun a b c hab hbc => by simp only [decide_eq_true_eq] at *; exact le_trans hbc hab)
    (fun a b => by simpa using le_total (score b) (score a)) l
  exact hsorted.imp fun h => of_decide_eq_true h

variable {score} {l l' : List α} {n : ℕ}

theorem better_perm (h : l.Perm l') (x : α) : better score l x = better score l' x := h.countP_eq _

theorem noWorse_perm (h : l.Perm l') (x : α) : noWorse score l x = noWorse score l' x :=
  h.countP_eq _

theorem Decided.perm (h : Decided score n l) (hperm : l.Perm l') : Decided score n l' := by
  intro x hx y hy hscore hne
  rw [← better_perm hperm]
  exact h x (hperm.mem_iff.2 hx) y (hperm.mem_iff.2 hy) hscore hne

theorem CutClear.perm (h : CutClear score n l) (hperm : l.Perm l') : CutClear score n l' := by
  intro x hx y hy hscore hne
  rw [← better_perm hperm, ← noWorse_perm hperm]
  exact h x (hperm.mem_iff.2 hx) y (hperm.mem_iff.2 hy) hscore hne

/-- No more elements are better than stand before. -/
theorem Descending.countP_lt_le (h : Descending score l) {i : ℕ} {x : α} (hx : l[i]? = some x) :
    better score l x ≤ i := by
  induction l generalizing i with
  | nil => exact nomatch hx
  | cons a l ih =>
    obtain ⟨hhead, htail⟩ := List.pairwise_cons.1 h
    unfold better
    rw [List.countP_cons]
    cases i with
    | zero =>
      obtain rfl : a = x := Option.some.inj hx
      have hnone : l.countP (fun z => decide (score a < score z)) = 0 :=
        List.countP_eq_zero.2 fun z hz => by simpa using hhead z hz
      simp [hnone]
    | succ i =>
      have hrest := ih htail (i := i) hx
      unfold better at hrest
      split <;> omega

/-- An element stands among those that are no worse. -/
theorem Descending.lt_countP_le (h : Descending score l) {i : ℕ} {x : α} (hx : l[i]? = some x) :
    i < noWorse score l x := by
  induction l generalizing i with
  | nil => exact nomatch hx
  | cons a l ih =>
    obtain ⟨hhead, htail⟩ := List.pairwise_cons.1 h
    unfold noWorse
    rw [List.countP_cons]
    cases i with
    | zero =>
      obtain rfl : a = x := Option.some.inj hx
      simp
    | succ i =>
      have hrest := ih htail (i := i) hx
      have hle : score x ≤ score a := hhead x (List.mem_of_getElem? hx)
      unfold noWorse at hrest
      simp only [hle, decide_true, if_true]
      omega

/-- The first elements are the same. -/
theorem take_eq_of_decided (h : Descending score l) (h' : Descending score l') (hperm : l.Perm l')
    (hdecided : Decided score n l) : l.take n = l'.take n := by
  have hscores : l.map score = l'.map score :=
    (hperm.map score).eq_of_pairwise (fun _ _ _ _ hab hba => le_antisymm hba hab)
      (List.pairwise_map.2 h) (List.pairwise_map.2 h')
  refine List.ext_getElem? fun i => ?_
  rw [List.getElem?_take, List.getElem?_take]
  split
  · next hi =>
    have hscore := congrArg (fun s : List S => s[i]?) hscores
    simp only [List.getElem?_map] at hscore
    cases hx : l[i]? with
    | none =>
      rw [hx] at hscore
      exact (Option.map_eq_none_iff.1 hscore.symm).symm
    | some x =>
      rw [hx] at hscore
      obtain ⟨y, hy, hxy⟩ := Option.map_eq_some_iff.1 hscore.symm
      rw [hy]
      by_contra hne
      have hle := hdecided x (List.mem_of_getElem? hx) y
        (hperm.mem_iff.2 (List.mem_of_getElem? hy)) hxy.symm fun he => hne (he ▸ rfl)
      exact absurd (h.countP_lt_le hx) (by omega)
  · rfl

/-- Two elements of one score, where more are no worse than are better by two. -/
theorem exists_tie (hnodup : l.Nodup) {x : α} (h : better score l x + 2 ≤ noWorse score l x) :
    ∃ y ∈ l, score x = score y ∧ x ≠ y := by
  by_contra hnone
  push Not at hnone
  have hsub : (l.filter fun z => decide (score x ≤ score z)).Subperm
      (x :: l.filter fun z => decide (score x < score z)) := by
    refine List.subperm_of_subset (hnodup.filter _) fun z hz => ?_
    obtain ⟨hz, hle⟩ := List.mem_filter.1 hz
    rcases (of_decide_eq_true hle).lt_or_eq with hlt | heq
    · exact List.mem_cons_of_mem x (List.mem_filter.2 ⟨hz, decide_eq_true hlt⟩)
    · exact hnone z hz heq ▸ List.mem_cons_self
  have hlength := hsub.length_le
  rw [List.length_cons, ← List.countP_eq_length_filter, ← List.countP_eq_length_filter] at hlength
  unfold better noWorse at h
  omega

/-- What is cut off is the same. -/
theorem take_perm_of_cutClear (h : Descending score l) (h' : Descending score l')
    (hperm : l.Perm l') (hnodup : l.Nodup) (hclear : CutClear score n l) :
    (l.take n).Perm (l'.take n) := by
  have hmem : ∀ {l l' : List α}, Descending score l → Descending score l' → l.Perm l' → l.Nodup →
      CutClear score n l → ∀ x ∈ l.take n, x ∈ l'.take n := by
    intro l l' h h' hperm hnodup hclear x hx
    obtain ⟨i, hi⟩ := List.getElem?_of_mem hx
    obtain ⟨hin, hi⟩ : i < n ∧ l[i]? = some x := by
      rw [List.getElem?_take] at hi
      split at hi
      · exact ⟨‹_›, hi⟩
      · exact nomatch hi
    obtain ⟨j, hj⟩ := List.getElem?_of_mem (hperm.mem_iff.1 (List.mem_of_getElem? hi))
    by_cases hjn : j < n
    · refine List.mem_of_getElem? (i := j) ?_
      rw [List.getElem?_take, if_pos hjn, hj]
    · -- The element is cut off in the other list, so it is not alone with its score.
      have hbetter := h.countP_lt_le hi
      have hworse := h'.lt_countP_le hj
      rw [← noWorse_perm hperm] at hworse
      obtain ⟨y, hy, hscore, hne⟩ : ∃ y ∈ l, score x = score y ∧ x ≠ y :=
        exists_tie hnodup (by omega)
      rcases hclear x (List.mem_of_getElem? hi) y hy hscore hne with hcut | hcut <;> omega
  have htake : ∀ {l : List α}, l.Nodup → (l.take n).Nodup := fun h =>
    h.sublist (List.take_sublist _ _)
  exact (List.perm_ext_iff_of_nodup (htake hnodup) (htake (hperm.nodup_iff.1 hnodup))).2 fun x =>
    ⟨hmem h h' hperm hnodup hclear x, hmem h' h hperm.symm (hperm.nodup_iff.1 hnodup)
      (hclear.perm hperm) x⟩

/-! ### The order before the sort -/

section Ties

variable {T : Type*} [LinearOrder T] {tie : α → T}

/-- What is equal stays in the order it had. -/
theorem descending_ranked_lex (h : Descending tie l) :
    Descending (fun x => toLex (score x, tie x)) (ranked score l) := by
  have hsorted : (l.zipIdx.mergeSort (List.zipIdxLE fun a b => decide (score b ≤ score a))).Pairwise
      fun a b => List.zipIdxLE (fun a b => decide (score b ≤ score a)) a b = true :=
    List.pairwise_mergeSort
    (List.zipIdxLE_trans fun a b c hab hbc => by
      simp only [decide_eq_true_eq] at *
      exact le_trans hbc hab)
    (List.zipIdxLE_total fun a b => by simpa using le_total (score b) (score a)) l.zipIdx
  have hranked : ranked score l = (l.zipIdx.mergeSort
      (List.zipIdxLE fun a b => decide (score b ≤ score a))).map Prod.fst :=
    List.mergeSort_zipIdx.symm
  rw [hranked]
  refine List.pairwise_map.2 (hsorted.imp_of_mem fun {a b} ha hb hab => ?_)
  obtain ⟨x, i⟩ := a
  obtain ⟨y, j⟩ := b
  have hx := List.mk_mem_zipIdx_iff_getElem?.1 (List.mem_mergeSort.1 ha)
  have hy := List.mk_mem_zipIdx_iff_getElem?.1 (List.mem_mergeSort.1 hb)
  rw [Prod.Lex.toLex_le_toLex']
  unfold List.zipIdxLE at hab
  simp only [decide_eq_true_eq] at hab
  split at hab
  · next hle =>
    refine ⟨hle, fun heq => ?_⟩
    rw [if_pos (show score y = score x from heq).ge] at hab
    rcases (of_decide_eq_true hab).eq_or_lt with rfl | hlt
    · rw [hx] at hy
      exact (Option.some.inj hy) ▸ le_rfl
    · obtain ⟨hi, rfl⟩ := List.getElem?_eq_some_iff.1 hx
      obtain ⟨hj, rfl⟩ := List.getElem?_eq_some_iff.1 hy
      exact List.pairwise_iff_getElem.1 h i j hi hj hlt
  · exact absurd hab (by simp)

theorem Descending.assoc {U : Type*} [LinearOrder U] {f : α → S} {g : α → T} {h : α → U}
    (hl : Descending (fun x => toLex (f x, toLex (g x, h x))) l) :
    Descending (fun x => toLex (toLex (f x, g x), h x)) l := by
  refine hl.imp fun {a b} hab => ?_
  rw [Prod.Lex.toLex_le_toLex', Prod.Lex.toLex_le_toLex'] at hab
  obtain ⟨hf, hg⟩ := hab
  rw [Prod.Lex.toLex_le_toLex', Prod.Lex.toLex_le_toLex']
  refine ⟨⟨hf, fun hfe => (hg hfe).1⟩, fun he => ?_⟩
  obtain ⟨hfe, hge⟩ := Prod.mk.inj (toLex_inj.1 he)
  exact (hg hfe).2 hge

/-- An element that is alone with its score stands behind what is better. -/
theorem Descending.getElem?_better (h : Descending score l) (hnodup : l.Nodup) {x : α} (hx : x ∈ l)
    (halone : ∀ y ∈ l, score x = score y → x = y) : l[better score l x]? = some x := by
  obtain ⟨i, hi⟩ := List.getElem?_of_mem hx
  have hbetter := h.countP_lt_le hi
  have hworse := h.lt_countP_le hi
  by_cases htwo : better score l x + 2 ≤ noWorse score l x
  · obtain ⟨y, hy, hscore, hne⟩ := exists_tie hnodup htwo
    exact absurd (halone y hy hscore) hne
  · obtain rfl : i = better score l x := by omega
    exact hi

end Ties

section Front

variable [DecidableEq α]

/-- An element that is the first of its score stands behind what is better. -/
theorem getElem?_of_front {r : List α} (hnodup : l.Nodup) {x : α} (hx : x ∈ l) (hperm : r.Perm l)
    (hfront : Descending (fun z => toLex (score z, decide (z = x))) r) :
    r[better score l x]? = some x := by
  have hcount : better (fun z => toLex (score z, decide (z = x))) r x = better score l x := by
    rw [better_perm hperm]
    refine List.countP_congr fun z _ => ?_
    simp [Prod.Lex.toLex_lt_toLex]
  rw [← hcount]
  refine hfront.getElem?_better (hperm.nodup_iff.2 hnodup) (hperm.mem_iff.2 hx) fun y _ heq => ?_
  have htie := congrArg (fun p => (ofLex p).2) heq
  simpa [eq_comm] using htie

/-- Of two elements of one score each can be the first, so that neither is taken. -/
theorem le_better_of_fronts {β : Type*} {f : α → β} {r r' : List α} (hnodup : l.Nodup) {x y : α}
    (hx : x ∈ l) (hy : y ∈ l) (hscore : score x = score y) (hf : f x ≠ f y) (hperm : r.Perm l)
    (hperm' : r'.Perm l) (hfront : Descending (fun z => toLex (score z, decide (z = x))) r)
    (hfront' : Descending (fun z => toLex (score z, decide (z = y))) r')
    (htake : (r.take n).map f = (r'.take n).map f) : n ≤ better score l x := by
  by_contra hlt
  have hlt : better score l x < n := Nat.lt_of_not_le hlt
  have hsame : better score l y = better score l x := by
    unfold better
    rw [hscore]
  have hfirst := getElem?_of_front hnodup hx hperm hfront
  have hsecond := getElem?_of_front hnodup hy hperm' hfront'
  rw [hsame] at hsecond
  have hat := congrArg (fun s : List β => s[better score l x]?) htake
  simp only [List.getElem?_map, List.getElem?_take, if_pos hlt, hfirst, hsecond, Option.map_some,
    Option.some.injEq] at hat
  exact hf hat

/-- An element is brought to the front. -/
def toFront (x : α) (l : List α) : List α := if x ∈ l then x :: l.erase x else l

theorem toFront_perm (x : α) (l : List α) : (toFront x l).Perm l := by
  unfold toFront
  split
  · next h => exact (List.perm_cons_erase h).symm
  · exact List.Perm.refl l

theorem descending_toFront (x : α) (hnodup : l.Nodup) :
    Descending (fun z => decide (z = x)) (toFront x l) := by
  have hlast : ∀ {l : List α}, x ∉ l → Descending (fun z => decide (z = x)) l := by
    intro l hx
    refine List.pairwise_of_forall_mem_list fun a _ b hb => ?_
    have hne : b ≠ x := fun he => hx (he ▸ hb)
    simp [hne]
  unfold toFront
  split
  · exact List.pairwise_cons.2 ⟨fun z _ => by simp [Bool.le_true], hlast hnodup.not_mem_erase⟩
  · exact hlast ‹_›

/-- They are the same in every order only if they are decided. -/
theorem decided_of_take_eq {β : Type*} {f : α → β} (hnodup : l.Nodup)
    (hf : ∀ x ∈ l, ∀ y ∈ l, f x = f y → x = y)
    (h : ∀ x ∈ l, ∀ y ∈ l, ((ranked score (toFront x l)).take n).map f =
      ((ranked score (toFront y l)).take n).map f) : Decided score n l := by
  intro x hx y hy hscore hne
  have hperm : ∀ z, (ranked score (toFront z l)).Perm l := fun z =>
    (ranked_perm score _).trans (toFront_perm z l)
  exact le_better_of_fronts hnodup hx hy hscore (fun he => hne (hf x hx y hy he)) (hperm x)
    (hperm y) (descending_ranked_lex (descending_toFront x hnodup))
    (descending_ranked_lex (descending_toFront y hnodup)) (h x hx y hy)

end Front

/-! ### Other elements -/

theorem better_map {β : Type*} (h : β → α) (l : List β) (b : β) :
    better score (l.map h) (h b) = better (fun c => score (h c)) l b := by
  unfold better
  rw [List.countP_map]
  rfl

theorem cutClear_map {β : Type*} {h : β → α} {l : List β}
    (hclear : CutClear (fun b => score (h b)) n l) : CutClear score n (l.map h) := by
  intro x hx y hy hscore hne
  obtain ⟨b, hb, rfl⟩ := List.mem_map.1 hx
  obtain ⟨c, hc, rfl⟩ := List.mem_map.1 hy
  have hworse : noWorse score (l.map h) (h b) = noWorse (fun c => score (h c)) l b := by
    unfold noWorse
    rw [List.countP_map]
    rfl
  rw [better_map, hworse]
  exact hclear b hb c hc hscore fun he => hne (congrArg h he)

theorem decided_map {β : Type*} {h : β → α} (hinj : Function.Injective h) {l : List β} :
    Decided score n (l.map h) ↔ Decided (fun b => score (h b)) n l := by
  constructor
  · intro hdecided x hx y hy hscore hne
    rw [← better_map]
    exact hdecided (h x) (List.mem_map_of_mem hx) (h y) (List.mem_map_of_mem hy) hscore
      (hinj.ne hne)
  · intro hdecided x hx y hy hscore hne
    obtain ⟨b, hb, rfl⟩ := List.mem_map.1 hx
    obtain ⟨c, hc, rfl⟩ := List.mem_map.1 hy
    rw [better_map]
    exact hdecided b hb c hc hscore fun he => hne (congrArg h he)

end Lib

end Spelunk
