import Mathlib.Data.List.Nodup
import Mathlib.Data.List.Pairwise

/-!
# Unique Indexes

A unique index over a nullable column of a table, as a list of rows: the column
without its NULLs has no repetition. A row is determined by its value in the
column, and a row may be added when its value is new.

## Theorems

* `eq_of_indexed`: Two rows with one value are one row.
* `nodup_filterMap_concat`: A row with a new value keeps the index.
* `ne_of_nodup_filterMap_concat`: Only such a row does.
* `nodup_filterMap_set`: So does a row that gets a new value.
* `find?_eq_some_iff_of_nodup`: What a search by a key finds.
-/

namespace Spelunk

namespace Lib

variable {α β : Type*} {g : α → Option β} {l : List α}

/-- Two rows with one value are one row. -/
theorem eq_of_indexed (h : (l.filterMap g).Nodup) {a b : α} (ha : a ∈ l) (hb : b ∈ l) {v : β}
    (hav : g a = some v) (hbv : g b = some v) : a = b := by
  rw [List.Nodup, List.pairwise_filterMap] at h
  by_contra hne
  have hsymm : Std.Symm (fun a b => ∀ x, g a = some x → ∀ y, g b = some y → x ≠ y) :=
    ⟨fun a b hab x hx y hy heq => hab y hy x hx heq.symm⟩
  exact h.forall ha hb hne v hav v hbv rfl

/-- A row with a new value keeps the index. -/
theorem nodup_filterMap_concat {r : α} (hl : (l.filterMap g).Nodup)
    (hr : ∀ v ∈ g r, ∀ x ∈ l, g x ≠ some v) : ((l ++ [r]).filterMap g).Nodup := by
  rw [List.filterMap_append]
  rcases hv : g r with _ | v
  · simpa [hv] using hl
  · rw [List.filterMap_cons_some hv, List.filterMap_nil, List.nodup_append]
    refine ⟨hl, List.nodup_singleton v, fun a ha b hb => ?_⟩
    rw [List.mem_singleton] at hb
    subst hb
    rintro rfl
    rcases List.mem_filterMap.mp ha with ⟨x, hx, hxa⟩
    exact hr a hv x hx hxa

/-- What an index that admits one more row says of the new value. -/
theorem ne_of_nodup_filterMap_concat {r : α} (h : ((l ++ [r]).filterMap g).Nodup) :
    ∀ v ∈ g r, ∀ x ∈ l, g x ≠ some v := by
  intro v hv x hx hxv
  rw [List.filterMap_append, List.filterMap_cons_some hv, List.filterMap_nil,
    List.nodup_append] at h
  exact h.2.2 v (List.mem_filterMap.mpr ⟨x, hx, hxv⟩) v (List.mem_singleton.mpr rfl) rfl

/-- One row gets a value that no other row has. -/
theorem nodup_filterMap_set {κ : Type*} [DecidableEq κ] {k : α → κ} {i : κ} {f : α → α}
    (hk : (l.map k).Nodup) (hl : (l.filterMap g).Nodup)
    (hnew : ∀ x ∈ l, k x = i → ∀ v ∈ g (f x), ∀ y ∈ l, k y ≠ i → g y ≠ some v) :
    ((l.map (fun x => if k x = i then f x else x)).filterMap g).Nodup := by
  rw [List.Nodup, List.pairwise_filterMap] at hl ⊢
  rw [List.Nodup, List.pairwise_map] at hk
  rw [List.pairwise_map]
  refine (hk.and hl).imp_of_mem (fun {a b} ha hb hab v hv w hw => ?_)
  -- At most one of the two rows is the one that changes.
  by_cases hai : k a = i
  · have hbi : k b ≠ i := fun h => hab.1 (hai.trans h.symm)
    rw [if_pos hai] at hv
    rw [if_neg hbi] at hw
    rintro rfl
    exact hnew a ha hai v hv b hb hbi hw
  · rw [if_neg hai] at hv
    by_cases hbi : k b = i
    · rw [if_pos hbi] at hw
      rintro rfl
      exact hnew b hb hbi v hw a ha hai hv
    · rw [if_neg hbi] at hw
      exact hab.2 v hv w hw

/-- The same for a column without NULLs. -/
theorem nodup_map_concat {f : α → β} {r : α} (hl : (l.map f).Nodup) (hr : ∀ x ∈ l, f x ≠ f r) :
    ((l ++ [r]).map f).Nodup := by
  rw [List.map_append, List.map_singleton, List.nodup_append]
  refine ⟨hl, List.nodup_singleton _, fun a ha b hb => ?_⟩
  rw [List.mem_singleton] at hb
  subst hb
  rcases List.mem_map.mp ha with ⟨x, hx, rfl⟩
  exact hr x hx

/-- What a search by a key without repetition finds. -/
theorem find?_eq_some_iff_of_nodup {κ : Type*} [DecidableEq κ] {key : α → κ}
    (h : (l.map key).Nodup) {p : α → Bool} {k : κ} {a : α} :
    l.find? (fun x => key x = k ∧ p x) = some a ↔ a ∈ l ∧ key a = k ∧ p a = true := by
  constructor
  · intro hfind
    have hp := List.find?_some hfind
    exact ⟨List.mem_of_find?_eq_some hfind, of_decide_eq_true hp⟩
  · rintro ⟨hmem, hk, hp⟩
    have hsome : (l.find? (fun x => key x = k ∧ p x)).isSome :=
      List.find?_isSome.2 ⟨a, hmem, decide_eq_true ⟨hk, hp⟩⟩
    obtain ⟨b, hb⟩ := Option.isSome_iff_exists.1 hsome
    have hbk : key b = k ∧ p b = true := by simpa using List.find?_some hb
    rw [hb, List.inj_on_of_nodup_map h (List.mem_of_find?_eq_some hb) hmem (hbk.1.trans hk.symm)]

/-- What a lookup answers is in the map. -/
theorem mem_of_lookup {κ : Type*} [BEq κ] [LawfulBEq κ] {m : List (κ × β)} {k : κ} {v : β}
    (h : m.lookup k = some v) : (k, v) ∈ m := by
  rcases List.lookup_eq_some_iff.mp h with ⟨_, _, rfl, _⟩
  exact List.mem_append_right _ List.mem_cons_self

/-- Where no key is there twice, a lookup answers what is in the map. -/
theorem lookup_of_mem {κ : Type*} [DecidableEq κ] {m : List (κ × β)} {p : κ × β}
    (h : (m.map Prod.fst).Nodup) (hp : p ∈ m) : m.lookup p.1 = some p.2 := by
  induction m with
  | nil => exact absurd hp List.not_mem_nil
  | cons q m ih =>
    rw [List.map_cons, List.nodup_cons] at h
    rw [List.lookup_cons]
    rcases List.mem_cons.1 hp with rfl | hp
    · simp
    · have hne : p.1 ≠ q.1 := fun he => h.1 (he ▸ List.mem_map_of_mem hp)
      rw [ih h.2 hp, beq_false_of_ne hne]

end Lib

end Spelunk
