import Mathlib.Data.List.Forall2
import Mathlib.Data.List.Nodup
import Mathlib.Data.List.Perm.Basic

/-!
# Lists Matched Element by Element

Two lists of which each element is related to the one in its place, and where one of them is
a list in another order. What is in one has its partner in the other, and keys that partners
share are distinct in both or in none.

## Theorems

* `exists_left_of_forall₂`, `exists_right_of_forall₂`: The partners.
* `row_of_read`, `read_of_row`: The same up to the order.
* `nodup_of_read`: Distinct keys.
-/

namespace Spelunk

namespace Lib

open List (Forall₂)

variable {α β : Type*} {R : α → β → Prop} {as rows : List α} {bs : List β}

theorem exists_left_of_forall₂ (h : Forall₂ R as bs) {b : β} (hb : b ∈ bs) :
    ∃ a ∈ as, R a b := by
  induction h with
  | nil => exact absurd hb (by simp)
  | cons hab _ ih =>
    rcases List.mem_cons.1 hb with rfl | hb
    · exact ⟨_, List.mem_cons_self, hab⟩
    · rcases ih hb with ⟨a, ha, hr⟩
      exact ⟨a, List.mem_cons_of_mem _ ha, hr⟩

theorem exists_right_of_forall₂ (h : Forall₂ R as bs) {a : α} (ha : a ∈ as) :
    ∃ b ∈ bs, R a b :=
  exists_left_of_forall₂ (R := fun b a => R a b) h.flip ha

/-- What is read is read from a row. -/
theorem row_of_read (hperm : as.Perm rows) (h : Forall₂ R as bs) {b : β} (hb : b ∈ bs) :
    ∃ r ∈ rows, R r b := by
  rcases exists_left_of_forall₂ h hb with ⟨r, hr, hrb⟩
  exact ⟨r, hperm.subset hr, hrb⟩

/-- Every row is read. -/
theorem read_of_row (hperm : as.Perm rows) (h : Forall₂ R as bs) {r : α} (hr : r ∈ rows) :
    ∃ b ∈ bs, R r b :=
  exists_right_of_forall₂ h (hperm.symm.subset hr)

/-- What is read under a key has the keys of the rows. -/
theorem nodup_of_read {κ γ : Type*} {key : α → κ} {f : β → γ} {g : γ → κ}
    (hrows : (rows.map key).Nodup) (hperm : as.Perm rows) (h : Forall₂ R as bs)
    (hkey : ∀ a b, R a b → key a = g (f b)) : (bs.map f).Nodup := by
  have hmap : (bs.map f).map g = as.map key := by
    clear hrows hperm
    induction h with
    | nil => rfl
    | cons hab _ ih =>
      simp only [List.map_cons, ih, hkey _ _ hab]
  refine List.Nodup.of_map g ?_
  rw [hmap]
  exact (hperm.map key).nodup_iff.2 hrows

end Lib

end Spelunk
