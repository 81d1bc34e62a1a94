import Mathlib.Data.List.Nodup

/-!
# The First of Each Key

A list of which the first element of each key is kept, as a set of the keys that were seen
does it. Where one key is coarser than another, keeping the first of each keeps fewer; and
the first so many elements are the same exactly as long as no two of them have the same
coarse key.

## Main definitions

* `keepFirst`: The first elements of the keys that were not seen.

## Theorems

* `nodup_keepFirst`: No key comes twice.
* `exists_mem_keepFirst`: No key is lost.
* `keepFirst_of_coarser`: By a coarser key what is kept is the same after a finer one.
* `take_keepFirst_eq_iff`: When the first elements are the same.
-/

namespace Spelunk

namespace Lib

variable {α κ ι : Type*} [DecidableEq κ] [DecidableEq ι]

/-- The first elements of the keys that were not seen. -/
def keepFirst (key : α → κ) : List κ → List α → List α
  | _, [] => []
  | seen, x :: l =>
    if key x ∈ seen then keepFirst key seen l else x :: keepFirst key (key x :: seen) l

variable {key : α → κ}

theorem keepFirst_cons_of_mem {seen : List κ} {x : α} (h : key x ∈ seen) (l : List α) :
    keepFirst key seen (x :: l) = keepFirst key seen l := by
  rw [keepFirst, if_pos h]

theorem keepFirst_cons_of_notMem {seen : List κ} {x : α} (h : key x ∉ seen) (l : List α) :
    keepFirst key seen (x :: l) = x :: keepFirst key (key x :: seen) l := by
  rw [keepFirst, if_neg h]

theorem keepFirst_sublist (seen : List κ) (l : List α) : (keepFirst key seen l).Sublist l := by
  induction l generalizing seen with
  | nil => exact List.Sublist.refl _
  | cons x l ih =>
    by_cases h : key x ∈ seen
    · rw [keepFirst_cons_of_mem h]
      exact (ih seen).cons x
    · rw [keepFirst_cons_of_notMem h]
      exact (ih _).cons_cons x

theorem notMem_of_mem_keepFirst {seen : List κ} {l : List α} {x : α}
    (hx : x ∈ keepFirst key seen l) : key x ∉ seen := by
  induction l generalizing seen with
  | nil => exact absurd hx List.not_mem_nil
  | cons y l ih =>
    by_cases h : key y ∈ seen
    · rw [keepFirst_cons_of_mem h] at hx
      exact ih hx
    · rw [keepFirst_cons_of_notMem h] at hx
      rcases List.mem_cons.1 hx with rfl | hx
      · exact h
      · exact fun hseen => ih hx (List.mem_cons_of_mem _ hseen)

/-- No key comes twice. -/
theorem nodup_keepFirst (seen : List κ) (l : List α) :
    ((keepFirst key seen l).map key).Nodup := by
  induction l generalizing seen with
  | nil => exact List.nodup_nil
  | cons x l ih =>
    by_cases h : key x ∈ seen
    · rw [keepFirst_cons_of_mem h]
      exact ih seen
    · rw [keepFirst_cons_of_notMem h, List.map_cons, List.nodup_cons]
      refine ⟨fun hmem => ?_, ih _⟩
      obtain ⟨y, hy, heq⟩ := List.mem_map.1 hmem
      exact notMem_of_mem_keepFirst hy (heq ▸ List.mem_cons_self)

/-- No key is lost, and what is kept of it stands before all others. -/
theorem exists_mem_keepFirst {r : α → α → Prop} {seen : List κ} {l : List α} (h : l.Pairwise r)
    {x : α} (hx : x ∈ l) (hseen : key x ∉ seen) :
    ∃ y ∈ keepFirst key seen l, key y = key x ∧ (y = x ∨ r y x) := by
  induction l generalizing seen with
  | nil => exact absurd hx List.not_mem_nil
  | cons z l ih =>
    obtain ⟨hz, hl⟩ := List.pairwise_cons.1 h
    by_cases hkey : key z ∈ seen
    · rw [keepFirst_cons_of_mem hkey]
      rcases List.mem_cons.1 hx with rfl | hx
      · exact absurd hkey hseen
      · exact ih hl hx hseen
    · rw [keepFirst_cons_of_notMem hkey]
      rcases List.mem_cons.1 hx with rfl | hx
      · exact ⟨x, List.mem_cons_self, rfl, .inl rfl⟩
      · by_cases heq : key x = key z
        · exact ⟨z, List.mem_cons_self, heq.symm, .inr (hz x hx)⟩
        · obtain ⟨y, hy, hyx⟩ : ∃ y ∈ keepFirst key (key z :: seen) l,
              key y = key x ∧ (y = x ∨ r y x) :=
            ih hl hx fun hmem => (List.mem_cons.1 hmem).elim heq hseen
          exact ⟨y, List.mem_cons_of_mem _ hy, hyx⟩

theorem keepFirst_map {β : Type*} (f : β → α) (seen : List κ) (l : List β) :
    keepFirst key seen (l.map f) = (keepFirst (fun b => key (f b)) seen l).map f := by
  induction l generalizing seen with
  | nil => rfl
  | cons b l ih =>
    rw [List.map_cons]
    by_cases h : key (f b) ∈ seen
    · rw [keepFirst_cons_of_mem h, keepFirst, if_pos h, ih]
    · rw [keepFirst_cons_of_notMem h, keepFirst, if_neg h, ih, List.map_cons]

variable {fine : α → ι}

/-- By a coarser key what is kept is the same after a finer one. -/
theorem keepFirst_of_coarser {seen : List κ} {seenFine : List ι} {l : List α}
    (hcoarser : ∀ x ∈ l, ∀ y ∈ l, fine x = fine y → key x = key y)
    (hseen : ∀ x ∈ l, fine x ∈ seenFine → key x ∈ seen) :
    keepFirst key seen (keepFirst fine seenFine l) = keepFirst key seen l := by
  induction l generalizing seen seenFine with
  | nil => rfl
  | cons x l ih =>
    have hcoarser' := fun y hy z hz => hcoarser y (List.mem_cons_of_mem x hy) z
      (List.mem_cons_of_mem x hz)
    have hseen' := fun y hy => hseen y (List.mem_cons_of_mem x hy)
    by_cases hfine : fine x ∈ seenFine
    · have hkey := hseen x List.mem_cons_self hfine
      rw [keepFirst_cons_of_mem hfine, keepFirst_cons_of_mem hkey]
      exact ih hcoarser' hseen'
    · rw [keepFirst_cons_of_notMem hfine]
      -- What has the fine key of the first element has its coarse key too.
      have hnext : ∀ seen' : List κ, key x ∈ seen' → (∀ k ∈ seen, k ∈ seen') →
          ∀ y ∈ l, fine y ∈ fine x :: seenFine → key y ∈ seen' := by
        intro seen' hx hsub y hy hmem
        rcases List.mem_cons.1 hmem with heq | hmem
        · rwa [hcoarser y (List.mem_cons_of_mem x hy) x List.mem_cons_self heq]
        · exact hsub _ (hseen' y hy hmem)
      by_cases hkey : key x ∈ seen
      · rw [keepFirst_cons_of_mem hkey, keepFirst_cons_of_mem hkey]
        exact ih hcoarser' (hnext seen hkey fun _ h => h)
      · rw [keepFirst_cons_of_notMem hkey, keepFirst_cons_of_notMem hkey]
        rw [ih hcoarser' (hnext _ List.mem_cons_self fun _ h => List.mem_cons_of_mem _ h)]

/-- Of elements of different keys the first ones are kept. -/
theorem take_keepFirst_of_nodup {seen : List κ} {l : List α} {n : ℕ}
    (hnodup : ((l.take n).map key).Nodup) (hseen : ∀ x ∈ l.take n, key x ∉ seen) :
    (keepFirst key seen l).take n = l.take n := by
  induction l generalizing seen n with
  | nil => rfl
  | cons x l ih =>
    cases n with
    | zero => rfl
    | succ n =>
      rw [List.take_succ_cons] at hnodup hseen
      rw [List.map_cons, List.nodup_cons] at hnodup
      rw [keepFirst_cons_of_notMem (hseen x List.mem_cons_self), List.take_succ_cons,
        List.take_succ_cons, ih hnodup.2]
      intro y hy hmem
      rcases List.mem_cons.1 hmem with heq | hmem
      · exact hnodup.1 (List.mem_map.2 ⟨y, hy, heq⟩)
      · exact hseen y (List.mem_cons_of_mem x hy) hmem

/-- When the first elements are the same. -/
theorem take_keepFirst_eq_iff {l : List α} {n : ℕ}
    (hcoarser : ∀ x ∈ l, ∀ y ∈ l, fine x = fine y → key x = key y) :
    (keepFirst key [] l).take n = (keepFirst fine [] l).take n ↔
      (((keepFirst fine [] l).take n).map key).Nodup := by
  rw [← keepFirst_of_coarser hcoarser fun x _ (h : fine x ∈ ([] : List ι)) =>
    absurd h List.not_mem_nil]
  constructor
  · intro h
    rw [← h]
    exact (nodup_keepFirst [] _).sublist ((List.take_sublist n _).map key)
  · exact fun h => take_keepFirst_of_nodup h fun _ _ => List.not_mem_nil

end Lib

end Spelunk
