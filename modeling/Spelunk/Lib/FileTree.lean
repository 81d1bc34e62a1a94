import Mathlib.Data.List.Basic
import Mathlib.Data.List.Infix
import Mathlib.Tactic.Common

/-!
# File Trees with Links

A file system as the list of its objects, each at the physical path where it stands, and how a path
is walked: component by component, through directories that can be searched and along symbolic
links, a bounded number of them.

## Main definitions

* `TreeNode`, `Files`: The objects of a file system.
* `follow`: A walk up to the first link.
* `resolve`: A walk along links.
* `names`: What a directory has in it.
* `ancestors`: A path and the paths above it, the nearest first.
* `IsNearest`: The nearest path above with an answer.

## Theorems

* `follow_eq_found`: A walk that meets no link ends where its path says.
* `follow_congr`: A walk sees the prefixes of its path only.
* `follow_append`, `follow_dropLast`: A walk in two parts.
* `at_filter`, `names_filter`: What is left when objects are removed.
* `ancestors_concat`: One step of the walk from a path up to the root.
* `findSome?_ancestors`: A search along it finds the nearest.
-/

namespace Spelunk.Lib

/-- The components of a path from the root. -/
abbrev TreePath := List String

inductive TreeNode where
  | file
  | link (target : TreePath)
  | dir (readable searchable : Bool)
deriving DecidableEq, Repr

abbrev Files := List (TreePath × TreeNode)

/-- The object at a physical path. The root is a directory that all can search. -/
def Files.at (files : Files) (p : TreePath) : Option TreeNode :=
  if p = [] then some (.dir true true) else (files.find? fun o => o.1 = p).map Prod.snd

/-- The names in the directory at a physical path. -/
def Files.names (files : Files) (p : TreePath) : List String :=
  files.filterMap fun o =>
    match o.1.getLast? with
    | some name => if o.1 = p ++ [name] then some name else none
    | none => none

/-- Where a walk gets to without a link. -/
inductive Walked where
  | found (p : TreePath)
  | jump (rest : TreePath)
  | failed
deriving DecidableEq, Repr

/-- Whether a walk can go on in an object. Whoever is refused nothing searches every directory. -/
def searchableBy (refused : Bool) : Option TreeNode → Bool
  | some (.dir _ searchable) => searchable || !refused
  | _ => false

/-- Whether an object is a directory that can be read. -/
def readable : Option TreeNode → Bool
  | some (.dir readable _) => readable
  | _ => false

/-- A walk up to the first link. -/
def follow (refused : Bool) (files : Files) : TreePath → TreePath → Walked
  | base, [] => .found base
  | base, c :: rest =>
    if searchableBy refused (files.at base) then
      match files.at (base ++ [c]) with
      | none => .failed
      | some (.link target) => .jump (target ++ rest)
      | some _ => follow refused files (base ++ [c]) rest
    else .failed

/-- A walk along at most so many links, less one. -/
def resolve (refused : Bool) (files : Files) : ℕ → TreePath → Option TreePath
  | 0, _ => none
  | links + 1, p =>
    match follow refused files [] p with
    | .found q => some q
    | .jump rest => resolve refused files links rest
    | .failed => none

section Walks

variable {refused : Bool} {files files' : Files} {base rest p q : TreePath} {last : String}

/-- A walk that meets no link ends where its path says. -/
theorem follow_eq_found (h : follow refused files base rest = .found q) : q = base ++ rest := by
  induction rest generalizing base with
  | nil =>
    cases h
    exact (List.append_nil _).symm
  | cons c rest ih =>
    rw [follow] at h
    split at h
    · split at h
      · cases h
      · cases h
      · rw [ih h, List.append_assoc, List.singleton_append]
    · cases h

/-- A walk sees the prefixes of its path only. -/
theorem follow_congr (h : ∀ x, x <+: base ++ rest → files'.at x = files.at x) :
    follow refused files' base rest = follow refused files base rest := by
  induction rest generalizing base with
  | nil => rfl
  | cons c rest ih =>
    have hstep : base ++ [c] ++ rest = base ++ c :: rest := by
      rw [List.append_assoc, List.singleton_append]
    rw [follow, follow, h base (List.prefix_append _ _),
      h (base ++ [c]) (hstep ▸ List.prefix_append _ _)]
    rw [ih fun x hx => h x (hstep ▸ hx)]

/-- The same from the root. -/
theorem follow_congr_root (h : ∀ x, x <+: p → files'.at x = files.at x) :
    follow refused files' [] p = follow refused files [] p :=
  follow_congr fun x hx => h x hx

/-- A walk ends at an object. -/
theorem at_of_follow (h : follow refused files base rest = .found q) (hrest : rest ≠ []) :
    (files.at q).isSome = true := by
  induction rest generalizing base with
  | nil => exact absurd rfl hrest
  | cons c rest ih =>
    rw [follow] at h
    split at h
    · split at h
      · cases h
      · cases h
      · next n _ hn =>
        rcases rest with _ | ⟨d, rest⟩
        · cases h
          rw [hn]
          rfl
        · exact ih h (List.cons_ne_nil _ _)
    · cases h

/-- A walk that succeeds goes through the directory above its end. -/
theorem follow_dropLast (h : follow refused files base (rest ++ [last]) = .found q) :
    follow refused files base rest = .found (base ++ rest) := by
  induction rest generalizing base with
  | nil => rw [follow, List.append_nil]
  | cons c rest ih =>
    rw [List.cons_append, follow] at h
    rw [follow]
    split at h
    · next hs =>
      rw [if_pos hs]
      split at h
      · cases h
      · cases h
      · have hnext := ih h
        rwa [List.append_assoc, List.singleton_append] at hnext
    · cases h

/-- A walk in two parts. -/
theorem follow_append {front : TreePath} (h : follow refused files base front = .found q) :
    follow refused files base (front ++ rest) = follow refused files q rest := by
  induction front generalizing base with
  | nil =>
    cases h
    rfl
  | cons c front ih =>
    rw [follow] at h
    rw [List.cons_append, follow]
    split at h
    · next hs =>
      rw [if_pos hs]
      split at h
      · cases h
      · cases h
      · exact ih h
    · cases h

/-- Whoever is refused nothing gets as far. -/
theorem follow_unrefused (h : follow true files base rest = .found q) :
    follow false files base rest = .found q := by
  induction rest generalizing base with
  | nil => exact h
  | cons c rest ih =>
    rw [follow] at h
    split at h
    · next hs =>
      have hsearch : searchableBy false (files.at base) = true := by
        unfold searchableBy at hs ⊢
        split
        · exact Bool.or_true _
        · next hdir =>
          split at hs
          · next r s heq => exact absurd heq (hdir r s)
          · cases hs
      rw [follow, if_pos hsearch]
      split at h
      · cases h
      · cases h
      · exact ih h
    · cases h

theorem filter_kept {keep : TreePath → Bool} {o : TreePath × TreeNode} (ho : keep o.1 = true) :
    ((o :: files).filter fun o => keep o.1) = o :: files.filter fun o => keep o.1 := by
  rw [List.filter_cons, if_pos ho]

theorem filter_removed {keep : TreePath → Bool} {o : TreePath × TreeNode}
    (ho : ¬keep o.1 = true) :
    ((o :: files).filter fun o => keep o.1) = files.filter fun o => keep o.1 := by
  rw [List.filter_cons, if_neg ho]

theorem at_filter {keep : TreePath → Bool} (h : keep p = true) :
    Files.at (files.filter fun o => keep o.1) p = files.at p := by
  unfold Files.at
  split
  · rfl
  · congr 1
    induction files with
    | nil => rfl
    | cons o files ih =>
      by_cases ho : keep o.1 = true
      · rw [filter_kept ho]
        by_cases hp : o.1 = p
        · rw [List.find?_cons_of_pos (by simpa using hp),
            List.find?_cons_of_pos (by simpa using hp)]
        · rw [List.find?_cons_of_neg (by simpa using hp),
            List.find?_cons_of_neg (by simpa using hp), ih]
      · have hp : o.1 ≠ p := fun hp => ho (hp ▸ h)
        rw [filter_removed ho, List.find?_cons_of_neg (by simpa using hp), ih]

theorem at_filter_removed {keep : TreePath → Bool} (h : keep p = false) (hp : p ≠ []) :
    Files.at (files.filter fun o => keep o.1) p = none := by
  rw [Files.at, if_neg hp, Option.map_eq_none_iff, List.find?_eq_none]
  intro o ho heq
  have hkeep := (List.mem_filter.1 ho).2
  rw [of_decide_eq_true heq, h] at hkeep
  cases hkeep

/-- The names left are those of the objects left. -/
theorem names_filter (keep : TreePath → Bool) :
    Files.names (files.filter fun o => keep o.1) p =
      (files.names p).filter fun name => keep (p ++ [name]) := by
  induction files with
  | nil => rfl
  | cons o files ih =>
    unfold Files.names at ih ⊢
    by_cases ho : keep o.1 = true
    · rw [filter_kept ho, List.filterMap_cons, List.filterMap_cons]
      split
      · next hnone => rw [ih]
      · next name hname =>
        have heq : o.1 = p ++ [name] := by
          split at hname
          · next last _ =>
            split at hname
            · next heq =>
              cases hname
              exact heq
            · cases hname
          · cases hname
        rw [List.filter_cons_of_pos (by rw [← heq]; exact ho), ih]
    · rw [filter_removed ho, List.filterMap_cons, ih]
      split
      · rfl
      · next name hname =>
        have heq : o.1 = p ++ [name] := by
          split at hname
          · next last _ =>
            split at hname
            · next heq =>
              cases hname
              exact heq
            · cases hname
          · cases hname
        rw [List.filter_cons_of_neg (by rw [← heq]; exact ho)]

end Walks

/-! ### The way up -/

section Ancestors

variable {α β : Type*}

/-- A path and the paths above it, the nearest first. -/
def ancestors (path : List α) : List (List α) := path.inits.reverse

/-- The nearest path above that `f` has an answer for has this answer. -/
def IsNearest (f : List α → Option β) (path : List α) (answer : β) : Prop :=
  ∃ dir, dir <+: path ∧ f dir = some answer ∧
    ∀ other, other <+: path → dir.length < other.length → f other = none

@[simp] theorem ancestors_nil : ancestors ([] : List α) = [[]] := rfl

theorem ancestors_concat (path : List α) (x : α) :
    ancestors (path ++ [x]) = (path ++ [x]) :: ancestors path := by
  rw [ancestors, List.inits_append, ancestors]
  simp

theorem mem_ancestors {dir path : List α} : dir ∈ ancestors path ↔ dir <+: path := by
  rw [ancestors, List.mem_reverse, List.mem_inits]

/-- A search along the walk finds the nearest. -/
theorem findSome?_ancestors {f : List α → Option β} {path : List α} {answer : β} :
    (ancestors path).findSome? f = some answer ↔ IsNearest f path answer := by
  induction path using List.reverseRecOn with
  | nil =>
    rw [ancestors_nil, IsNearest]
    simp only [List.prefix_nil, exists_eq_left, List.findSome?_singleton]
    exact ⟨fun h => ⟨h, fun other hother hlt => absurd hlt (by simp [hother])⟩, And.left⟩
  | append_singleton path x ih =>
    rw [ancestors_concat, List.findSome?_cons]
    rcases hx : f (path ++ [x]) with _ | found
    · -- the path itself has no answer, so the nearest is above it
      dsimp only
      rw [ih]
      constructor
      · rintro ⟨dir, hdir, hfound, hnear⟩
        refine ⟨dir, hdir.trans (List.prefix_append _ _), hfound, fun other hother hlt => ?_⟩
        rcases List.prefix_concat_iff.1 hother with rfl | habove
        · exact hx
        · exact hnear other habove hlt
      · rintro ⟨dir, hdir, hfound, hnear⟩
        rcases List.prefix_concat_iff.1 hdir with rfl | habove
        · rw [hx] at hfound
          cases hfound
        · exact ⟨dir, habove, hfound, fun other hother hlt =>
            hnear other (hother.trans (List.prefix_append _ _)) hlt⟩
    · dsimp only
      constructor
      · intro h
        refine ⟨path ++ [x], List.prefix_rfl, hx.trans h, fun other hother hlt => ?_⟩
        exact absurd hother.length_le (Nat.not_le.2 hlt)
      · rintro ⟨dir, hdir, hfound, hnear⟩
        rcases List.prefix_concat_iff.1 hdir with rfl | habove
        · exact hx.symm.trans hfound
        · -- the path itself would be nearer
          have hlt : dir.length < (path ++ [x]).length := by
            rw [List.length_append, List.length_singleton]
            exact Nat.lt_succ_of_le habove.length_le
          rw [hnear _ List.prefix_rfl hlt] at hx
          cases hx

theorem findSome?_ancestors_eq_none {f : List α → Option β} {path : List α} :
    (ancestors path).findSome? f = none ↔ ∀ dir, dir <+: path → f dir = none := by
  rw [List.findSome?_eq_none_iff]
  exact forall_congr' fun dir => imp_congr_left mem_ancestors

end Ancestors

end Spelunk.Lib
