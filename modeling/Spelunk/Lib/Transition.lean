import Mathlib.Logic.Basic

/-!
# Guarded Runs

Runs of a labelled step relation in which every step meets a condition in the
state it starts from, and the rule that carries an invariant along them. The
condition is part of the run, not of the step: the same system has its free
runs (condition `True`) and the runs in which nothing goes wrong.

## Main definitions

* `GuardedRun`: Runs whose steps all meet the condition.

## Theorems

* `GuardedRun.invariant`: What the start has and guarded steps keep, every
  reached state has.
* `foldl_iff`: When a fold keeps a property.
-/

namespace Spelunk

namespace Lib

variable {σ ℓ : Type*}

/-- From `s` to `t` by steps that all meet `guard` where they start. -/
inductive GuardedRun (step : σ → ℓ → σ → Prop) (guard : σ → ℓ → Prop) (s : σ) : σ → Prop where
  | refl : GuardedRun step guard s s
  | tail {t u : σ} (l : ℓ) : GuardedRun step guard s t → guard t l → step t l u →
      GuardedRun step guard s u

variable {step : σ → ℓ → σ → Prop} {guard : σ → ℓ → Prop} {s t : σ}

/-- What the start has and guarded steps keep, every reached state has. -/
theorem GuardedRun.invariant {I : σ → Prop} (h : GuardedRun step guard s t) (hs : I s)
    (hstep : ∀ t l u, I t → guard t l → step t l u → I u) : I t := by
  induction h with
  | refl => exact hs
  | tail l _ hguard hone ih => exact hstep _ l _ ih hguard hone

theorem GuardedRun.trans {u : σ} (h : GuardedRun step guard s t) (h' : GuardedRun step guard t u) :
    GuardedRun step guard s u := by
  induction h' with
  | refl => exact h
  | tail l _ hguard hone ih => exact ih.tail l hguard hone

/-- A fold keeps a property exactly where every step meets what it takes to keep it, in the state
    it starts from. -/
theorem foldl_iff {f : σ → ℓ → σ} {P : σ → Prop} {Q : σ → ℓ → Prop}
    (h : ∀ s l, P (f s l) ↔ P s ∧ Q s l) (s : σ) (ls : List ℓ) :
    P (ls.foldl f s) ↔
      P s ∧ ∀ before l after, ls = before ++ l :: after → Q (before.foldl f s) l := by
  induction ls generalizing s with
  | nil => simp
  | cons l ls ih =>
    rw [List.foldl_cons, ih, h, and_assoc]
    refine and_congr_right fun _ => ⟨?_, fun hall => ⟨hall [] l ls rfl, ?_⟩⟩
    · rintro ⟨hl, hls⟩ before x after heq
      rcases List.cons_eq_append_iff.1 heq with ⟨rfl, hcons⟩ | ⟨before', rfl, hrest⟩
      · obtain ⟨rfl, rfl⟩ := List.cons.inj hcons
        exact hl
      · exact hls before' x after hrest
    · intro before x after heq
      exact hall (l :: before) x after (by rw [heq]; rfl)

end Lib

end Spelunk
