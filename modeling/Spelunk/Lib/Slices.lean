import Mathlib.Algebra.BigOperators.Group.List.Basic
import Mathlib.Data.List.Nodup
import Mathlib.Data.List.Perm.Basic
import Mathlib.Order.Basic

/-!
# Slices

A list cut into slices of some length, as `slice::chunks` does it, and a query that is asked
for one slice after the other where it could be asked for the whole list. A row comes as
often as its key stands in different slices, so the answers are the same if and only if
no key with a row stands in two of them.

## Main definitions

* `slices`: The slices of a list.
* `selectIn`: The rows whose key is in a list.
* `InTwoSlices`: A key stands in two slices.
* `addNew`: Elements that are not there yet are added.

## Theorems

* `flatten_slices`: The slices make up the list.
* `flatMap_selectIn_perm_iff`: When the answers are the same.
* `take_filter_perm_iff`: When two predicates choose the same first elements.
* `filter_notMem_take`: What is not in the front of a list.
* `filter_zipIdx_range`: A range of numbers is a piece of the list.
-/

namespace Spelunk

namespace Lib

section Slices

variable {α : Type*}

/-- The slices of a list. -/
def slices (n : ℕ) (l : List α) : List (List α) :=
  if _h : l = [] ∨ n = 0 then [] else l.take n :: slices n (l.drop n)
termination_by l.length
decreasing_by
  push Not at _h
  have := List.length_pos_iff.2 _h.1
  rw [List.length_drop]
  omega

variable {n : ℕ}

theorem slices_nil : slices n ([] : List α) = [] := by
  rw [slices, dif_pos (.inl rfl)]

theorem slices_of_ne_nil (hn : 0 < n) {l : List α} (hl : l ≠ []) :
    slices n l = l.take n :: slices n (l.drop n) := by
  rw [slices, dif_neg (by push Not; exact ⟨hl, by omega⟩)]

/-- The cases of a list of slices. -/
theorem slices_induction (hn : 0 < n) {P : List α → Prop} (nil : P [])
    (cut : ∀ l, l ≠ [] → P (l.drop n) → P l) (l : List α) : P l := by
  induction hlength : l.length using Nat.strongRecOn generalizing l with
  | _ k ih =>
    by_cases hl : l = []
    · exact hl ▸ nil
    · refine cut l hl (ih (l.drop n).length ?_ _ rfl)
      have := List.length_pos_iff.2 hl
      rw [List.length_drop]
      omega

/-- The slices make up the list. -/
theorem flatten_slices (hn : 0 < n) (l : List α) : (slices n l).flatten = l := by
  induction l using slices_induction hn with
  | nil => rw [slices_nil, List.flatten_nil]
  | cut l hl ih => rw [slices_of_ne_nil hn hl, List.flatten_cons, ih, List.take_append_drop]

theorem length_le_of_mem_slices (hn : 0 < n) {l s : List α} (hs : s ∈ slices n l) :
    s.length ≤ n := by
  induction l using slices_induction hn with
  | nil => exact absurd hs (slices_nil ▸ List.not_mem_nil)
  | cut l hl ih =>
    rw [slices_of_ne_nil hn hl] at hs
    rcases List.mem_cons.1 hs with rfl | hs
    · exact List.length_take_le n l
    · exact ih hs

theorem mem_slices_iff (hn : 0 < n) {l : List α} {x : α} :
    (∃ s ∈ slices n l, x ∈ s) ↔ x ∈ l := by
  conv_rhs => rw [← flatten_slices hn l, List.mem_flatten]

theorem slices_append (hn : 0 < n) {a b : List α} (ha : a.length = n) :
    slices n (a ++ b) = a :: slices n b := by
  have hne : a ++ b ≠ [] := by
    intro hnil
    rw [(List.append_eq_nil_iff.1 hnil).1] at ha
    rw [List.length_nil] at ha
    omega
  rw [slices_of_ne_nil hn hne, List.take_left' ha, List.drop_left' ha]

theorem slices_of_length_le {l : List α} (hl : l ≠ []) (hle : l.length ≤ n) :
    slices n l = [l] := by
  have hn : 0 < n := Nat.lt_of_lt_of_le (List.length_pos_iff.2 hl) hle
  rw [slices_of_ne_nil hn hl, List.take_of_length_le hle, List.drop_eq_nil_of_le hle, slices_nil]

end Slices

/-! ### Queries -/

section Select

variable {ρ κ : Type*} [DecidableEq κ] (key : ρ → κ) (table : List ρ)

/-- The rows whose key is in a list. -/
def selectIn (keys : List κ) : List ρ := table.filter fun r => key r ∈ keys

theorem selectIn_map {σ : Type*} (f : σ → ρ) (table : List σ) (keys : List κ) :
    (selectIn (fun r => key (f r)) table keys).map f = selectIn key (table.map f) keys := by
  unfold selectIn
  rw [List.filter_map]
  rfl

/-- A key stands in two slices. -/
def InTwoSlices (n : ℕ) (keys : List κ) (k : κ) : Prop :=
  2 ≤ (slices n keys).countP fun s => decide (k ∈ s)

/-- A key that is not repeated stands in one slice. -/
theorem not_inTwoSlices_of_nodup {n : ℕ} (hn : 0 < n) {keys : List κ} (h : keys.Nodup) (k : κ) :
    ¬ InTwoSlices n keys k := by
  have hparts : ∀ parts : List (List κ),
      (parts.countP fun s => decide (k ∈ s)) ≤ parts.flatten.count k := by
    intro parts
    induction parts with
    | nil => exact Nat.le_refl 0
    | cons part parts ih =>
      rw [List.countP_cons, List.flatten_cons, List.count_append]
      by_cases hk : k ∈ part
      · have := List.count_pos_iff.2 hk
        rw [if_pos (decide_eq_true hk)]
        omega
      · rw [if_neg (by simpa using hk)]
        omega
  intro htwo
  have hle := hparts (slices n keys)
  rw [flatten_slices hn] at hle
  have hone := List.nodup_iff_count_le_one.1 h k
  unfold InTwoSlices at htwo
  omega

/-- How often a row is in the answers. -/
theorem count_flatMap_selectIn [DecidableEq ρ] (parts : List (List κ)) (r : ρ) :
    (parts.flatMap (selectIn key table)).count r =
      (parts.countP fun s => decide (key r ∈ s)) * table.count r := by
  induction parts with
  | nil => simp
  | cons s parts ih =>
    rw [List.flatMap_cons, List.count_append, ih, List.countP_cons]
    unfold selectIn
    by_cases hs : key r ∈ s
    · rw [List.count_filter (by simpa using hs), if_pos (decide_eq_true hs), Nat.add_mul,
        Nat.one_mul, Nat.add_comm]
    · have hnone : (table.filter fun r => decide (key r ∈ s)).count r = 0 :=
        List.count_eq_zero.2 fun hr => hs (of_decide_eq_true (List.mem_filter.1 hr).2)
      rw [hnone, if_neg (by simpa using hs), Nat.add_zero, Nat.zero_add]

/-- The answers for the slices are the answer for the list if and only if no key with a row stands
    in two of them. -/
theorem flatMap_selectIn_perm_iff {n : ℕ} (hn : 0 < n) (keys : List κ) :
    ((slices n keys).flatMap (selectIn key table)).Perm (selectIn key table keys) ↔
      ∀ r ∈ table, ¬ InTwoSlices n keys (key r) := by
  classical
  have hwhole : ∀ r, (selectIn key table keys).count r =
      (if key r ∈ keys then 1 else 0) * table.count r := by
    intro r
    have hone := count_flatMap_selectIn key table [keys] r
    rw [List.flatMap_singleton, List.countP_singleton] at hone
    simpa using hone
  have hsome : ∀ k, k ∈ keys ↔ 0 < (slices n keys).countP fun s => decide (k ∈ s) := by
    intro k
    rw [List.countP_pos_iff, ← mem_slices_iff hn]
    simp
  rw [List.perm_iff_count]
  constructor
  · intro h r hr htwo
    have hcount := h r
    rw [count_flatMap_selectIn, hwhole] at hcount
    have hpos := List.count_pos_iff.2 hr
    have hsame := Nat.eq_of_mul_eq_mul_right hpos hcount
    unfold InTwoSlices at htwo
    split at hsame <;> omega
  · intro h r
    rw [count_flatMap_selectIn, hwhole]
    by_cases hr : r ∈ table
    · have hone := h r hr
      unfold InTwoSlices at hone
      have hiff := hsome (key r)
      congr 1
      split
      · next hin =>
        have := hiff.1 hin
        omega
      · next hin =>
        have := mt hiff.2 hin
        omega
    · rw [List.count_eq_zero.2 hr, Nat.mul_zero, Nat.mul_zero]

end Select

/-! ### Elements that are not there yet -/

section AddNew

variable {α : Type*} [DecidableEq α]

/-- Elements that are not there yet are added. -/
def addNew (out l : List α) : List α :=
  l.foldl (fun out x => if x ∈ out then out else out ++ [x]) out

theorem mem_addNew {out l : List α} {x : α} : x ∈ addNew out l ↔ x ∈ out ∨ x ∈ l := by
  unfold addNew
  induction l generalizing out with
  | nil => simp
  | cons y l ih =>
    rw [List.foldl_cons, ih, List.mem_cons]
    split
    · next hy =>
      constructor
      · rintro (h | h)
        · exact .inl h
        · exact .inr (.inr h)
      · rintro (h | rfl | h)
        · exact .inl h
        · exact .inl hy
        · exact .inr h
    · rw [List.mem_append, List.mem_singleton, or_assoc]

theorem nodup_addNew {out : List α} (h : out.Nodup) (l : List α) : (addNew out l).Nodup := by
  unfold addNew
  induction l generalizing out with
  | nil => exact h
  | cons y l ih =>
    rw [List.foldl_cons]
    refine ih ?_
    split
    · exact h
    · next hy =>
      refine h.append (List.nodup_singleton y) ?_
      intro x hx hs
      exact hy (List.mem_singleton.1 hs ▸ hx)

theorem addNew_nil {l : List α} (h : l.Nodup) : addNew [] l = l := by
  have hmore : ∀ (out l : List α), (out ++ l).Nodup → addNew out l = out ++ l := by
    intro out l
    induction l generalizing out with
    | nil => exact fun _ => (List.append_nil out).symm
    | cons x l ih =>
      intro h
      have hx : x ∉ out := fun hx =>
        (List.nodup_append.1 h).2.2 x hx x List.mem_cons_self rfl
      rw [List.append_cons] at h ⊢
      rw [← ih _ h, addNew, List.foldl_cons, if_neg hx]
      rfl
  exact hmore [] l h

end AddNew

/-- Of the elements that one and another predicate choose the first ones are the same exactly where
    before each element on which the predicates differ there are as many as are taken. -/
theorem take_filter_perm_iff {α : Type*} {l : List α} (h : l.Nodup) (p q : α → Bool) (n : ℕ) :
    ((l.filter p).take n).Perm ((l.filter q).take n) ↔
      ∀ before x after, l = before ++ x :: after → p x ≠ q x → n ≤ (before.filter q).length := by
  induction l generalizing n with
  | nil =>
    refine iff_of_true List.Perm.rfl fun before x after hl => ?_
    exact absurd hl.symm (by simp)
  | cons y l ih =>
    obtain ⟨hy, hnodup⟩ := List.nodup_cons.1 h
    have hcases : ∀ P : List α → α → Prop, (∀ before x after, y :: l = before ++ x :: after →
        P before x) ↔ P [] y ∧ ∀ before x after, l = before ++ x :: after →
        P (y :: before) x := by
      intro P
      constructor
      · exact fun hall => ⟨hall [] y l rfl, fun before x after hl =>
          hall (y :: before) x after (by rw [hl]; rfl)⟩
      · rintro ⟨hfirst, hrest⟩ before x after hl
        cases before with
        | nil =>
          obtain ⟨rfl, rfl⟩ := List.cons_eq_cons.1 hl
          exact hfirst
        | cons z before =>
          obtain ⟨rfl, rfl⟩ := List.cons_eq_cons.1 hl
          exact hrest before x after rfl
    rw [hcases fun before x => p x ≠ q x → n ≤ (before.filter q).length]
    cases n with
    | zero => exact iff_of_true List.Perm.rfl ⟨fun _ => Nat.zero_le _, fun _ _ _ _ _ =>
        Nat.zero_le _⟩
    | succ n =>
      by_cases hp : p y = true
      · by_cases hq : q y = true
        · rw [List.filter_cons_of_pos hp, List.filter_cons_of_pos hq, List.take_succ_cons,
            List.take_succ_cons, List.perm_cons, ih hnodup, and_iff_right fun hne =>
            absurd (hp.trans hq.symm) hne]
          simp only [List.filter_cons_of_pos hq, List.length_cons, Nat.add_le_add_iff_right]
        · rw [List.filter_cons_of_pos hp, List.filter_cons_of_neg hq, List.take_succ_cons]
          refine iff_of_false (fun hperm => ?_) fun hall => ?_
          · have hmem := hperm.subset List.mem_cons_self
            exact hy (List.mem_of_mem_filter (List.mem_of_mem_take hmem))
          · exact absurd (hall.1 fun heq => hq (heq ▸ hp)) (Nat.not_succ_le_zero n)
      · by_cases hq : q y = true
        · rw [List.filter_cons_of_neg hp, List.filter_cons_of_pos hq, List.take_succ_cons]
          refine iff_of_false (fun hperm => ?_) fun hall => ?_
          · have hmem := hperm.symm.subset List.mem_cons_self
            exact hy (List.mem_of_mem_filter (List.mem_of_mem_take hmem))
          · exact absurd (hall.1 fun heq => hp (heq ▸ hq)) (Nat.not_succ_le_zero n)
        · rw [List.filter_cons_of_neg hp, List.filter_cons_of_neg hq, ih hnodup,
            and_iff_right fun hne => absurd (by rw [Bool.eq_false_iff.2 hp,
              Bool.eq_false_iff.2 hq]) hne]
          simp only [List.filter_cons_of_neg hq]

/-- What is not in the front of a list without repetitions is its rest. -/
theorem filter_notMem_take {α : Type*} [DecidableEq α] {l : List α} (h : l.Nodup) (n : ℕ) :
    l.filter (· ∉ l.take n) = l.drop n := by
  have hdisjoint := List.disjoint_take_drop h (Nat.le_refl n)
  conv_lhs =>
    arg 2
    rw [← List.take_append_drop n l]
  rw [List.filter_append, List.filter_eq_nil_iff.2 (by simp), List.nil_append,
    List.filter_eq_self]
  exact fun x hx => decide_eq_true fun hmem => hdisjoint hmem hx

/-- The elements whose number is in a range are a piece of the list. -/
theorem filter_zipIdx_range {α : Type*} (l : List α) (k a b : ℕ) :
    (((l.zipIdx k).filter fun p => a < p.2 ∧ p.2 ≤ b).map Prod.fst) =
      (l.take (b + 1 - k)).drop (a + 1 - k) := by
  induction l generalizing k with
  | nil => simp
  | cons x l ih =>
    rw [List.zipIdx_cons, List.filter_cons]
    by_cases hb : k ≤ b
    · have htake : b + 1 - k = b + 1 - (k + 1) + 1 := by omega
      rw [htake, List.take_succ_cons]
      by_cases ha : a < k
      · have hdrop : a + 1 - k = 0 := by omega
        have hdrop' : a + 1 - (k + 1) = 0 := by omega
        rw [if_pos (decide_eq_true ⟨ha, hb⟩), List.map_cons, ih, hdrop, hdrop']
        rfl
      · have hdrop : a + 1 - k = a + 1 - (k + 1) + 1 := by omega
        rw [if_neg (by simp [ha]), ih, hdrop, List.drop_succ_cons]
    · have htake : b + 1 - k = 0 := by omega
      have htake' : b + 1 - (k + 1) = 0 := by omega
      rw [if_neg (by simp [hb]), ih, htake, htake']
      simp

end Lib

end Spelunk
