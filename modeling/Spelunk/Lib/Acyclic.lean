import Mathlib.Logic.Relation

/-!
# Acyclic Relations

A relation without a cycle, and the two ways a relation grows without getting
one: by an edge whose head does not reach its tail, and by a batch of edges out
of new elements that has no cycle of its own.

## Main definitions

* `Acyclic`: No element reaches itself.
* `addEdge`: A relation with one more edge.

## Theorems

* `Acyclic.mono`: Fewer edges, no new cycle.
* `Acyclic.addEdge_iff`: One more edge closes a cycle exactly when its head
  already reaches its tail.
* `Acyclic.of_closed`: A cycle stays inside a closed set or outside it.
* `Acyclic.of_map`: Acyclicity pulled back along a map.
-/

namespace Spelunk

namespace Lib

open Relation

variable {α β : Type*} {r r' : α → α → Prop}

/-- No element reaches itself. -/
def Acyclic (r : α → α → Prop) : Prop :=
  ∀ a, ¬ TransGen r a a

/-- `r` with an edge from `a` to `b` added. -/
def addEdge (r : α → α → Prop) (a b : α) (x y : α) : Prop :=
  r x y ∨ (x = a ∧ y = b)

theorem Acyclic.mono (h : Acyclic r') (hle : ∀ x y, r x y → r' x y) : Acyclic r :=
  fun a ha => h a (TransGen.mono hle a a ha)

/-- A path in the larger relation either avoids the new edge, or reaches its
    tail and leaves from its head. -/
theorem transGen_addEdge_cases {a b x y : α} (h : TransGen (addEdge r a b) x y) :
    TransGen r x y ∨ (ReflTransGen r x a ∧ ReflTransGen r b y) := by
  induction h with
  | single hxy =>
      rcases hxy with hxy | ⟨rfl, rfl⟩
      · exact Or.inl (TransGen.single hxy)
      · exact Or.inr ⟨ReflTransGen.refl, ReflTransGen.refl⟩
  | tail _ hyz ih =>
      rcases hyz with hyz | ⟨rfl, rfl⟩
      · rcases ih with ih | ⟨hxa, hby⟩
        · exact Or.inl (ih.tail hyz)
        · exact Or.inr ⟨hxa, hby.tail hyz⟩
      · rcases ih with ih | ⟨hxa, _⟩
        · exact Or.inr ⟨ih.to_reflTransGen, ReflTransGen.refl⟩
        · exact Or.inr ⟨hxa, ReflTransGen.refl⟩

/-- One more edge closes a cycle exactly when its head reaches its tail. -/
theorem Acyclic.addEdge_iff (h : Acyclic r) (a b : α) :
    Acyclic (addEdge r a b) ↔ ¬ ReflTransGen r b a := by
  constructor
  · intro hac hba
    have hup : ReflTransGen (addEdge r a b) b a :=
      ReflTransGen.mono (fun _ _ => Or.inl) _ _ hba
    exact hac a (TransGen.head' (Or.inr ⟨rfl, rfl⟩) hup)
  · intro hba x hx
    rcases transGen_addEdge_cases hx with hx | ⟨hxa, hbx⟩
    · exact h x hx
    · exact hba (hbx.trans hxa)

/-- A path into a closed set, or out of one element of it, does not come back. -/
theorem transGen_closed {S : α → Prop} (hclosed : ∀ x y, r x y → S x → S y) {x y : α}
    (h : TransGen r x y) (hx : S x) : S y := by
  induction h with
  | single hxy => exact hclosed _ _ hxy hx
  | tail _ hyz ih => exact hclosed _ _ hyz ih

/-- With `S` closed under `r`, it is enough that `r` has no cycle inside `S` and
    none outside it. -/
theorem Acyclic.of_closed {S : α → Prop} (hclosed : ∀ x y, r x y → S x → S y)
    (hin : Acyclic (fun x y => r x y ∧ S x)) (hout : Acyclic (fun x y => r x y ∧ ¬ S y)) :
    Acyclic r := by
  intro a ha
  by_cases hSa : S a
  · -- Inside: every edge of the cycle starts in `S`.
    have hinside : ∀ y, TransGen r a y → TransGen (fun x y => r x y ∧ S x) a y := by
      intro y hy
      induction hy with
      | single hxy => exact TransGen.single ⟨hxy, hSa⟩
      | tail hay hyz ih => exact ih.tail ⟨hyz, transGen_closed hclosed hay hSa⟩
    exact hin a (hinside a ha)
  · -- Outside: an edge into `S` could not lead back.
    have houtside : ∀ x, TransGen r x a → TransGen (fun x y => r x y ∧ ¬ S y) x a := by
      intro x hx
      induction hx using TransGen.head_induction_on with
      | single hxa => exact TransGen.single ⟨hxa, hSa⟩
      | head hxy hya ih =>
          exact TransGen.head ⟨hxy, fun hSy => hSa (transGen_closed hclosed hya hSy)⟩ ih
    exact hout a (houtside a ha)

/-- A relation that maps into an acyclic one is acyclic. -/
theorem Acyclic.of_map {s : β → β → Prop} (hs : Acyclic s) (f : α → β)
    (hf : ∀ x y, r x y → s (f x) (f y)) : Acyclic r :=
  fun a ha => hs (f a) (ha.lift f hf)

end Lib

end Spelunk
