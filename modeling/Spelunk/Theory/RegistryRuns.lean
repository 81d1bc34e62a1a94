import Spelunk.Core.Registry

/-!
# Runs of the Registry

What any sequence of statements leaves of the registry, in whatever order the processes of a
machine make them and wherever a command stops: an id stays with its project, is never given out
again once its row is gone, and a dependency is there because it was asked for and as long as
nobody takes it away. And what the commands do when they are not disturbed: a path belongs to the
nearest project above it, and a link is between the projects its two paths belong to.

## Main definitions

* `RegistryCommand`: A command.
* `Registry.writes`: The registry after statements that write.

## Theorems

* `registryRuns`: What any statements leave.
* `findProjectLaw`: The project that a path belongs to.
* `linkLaw`: What a link links.
-/

namespace Spelunk

open Lib (Sql SqlError Conn TreePath ancestors IsNearest findSome?_ancestors
  findSome?_ancestors_eq_none mem_ancestors)

namespace Registry

/-- The registry after statements that write. -/
def writes (r : Registry) (ws : List RegistryWrite) : Registry := ws.foldl RegistryWrite.apply r

theorem writes_append (r : Registry) (before after : List RegistryWrite) :
    r.writes (before ++ after) = (r.writes before).writes after := List.foldl_append

theorem mem_ids {r : Registry} {i : ℕ} : i ∈ r.ids ↔ ∃ p ∈ r.projects, p.id = i := List.mem_map

/-! ### One statement -/

section Statements

variable {r s : Registry} {p q : RegistryRow} {root db : TreePath} {stamp : Stamp}

theorem upsert_of_mem (db : TreePath) (stamp : Stamp)
    (h : root ∈ r.projects.map RegistryRow.root) :
    (r.upsert root db stamp).projects = r.projects.map (setDb root db) ∧
      (r.upsert root db stamp).lastId = r.lastId := by
  rw [upsert, dif_pos h]
  exact ⟨rfl, rfl⟩

theorem upsert_of_notMem (db : TreePath) (stamp : Stamp)
    (h : root ∉ r.projects.map RegistryRow.root) :
    (r.upsert root db stamp).projects =
        r.projects ++ [⟨r.lastId + 1 + stamp.gap, root, db, stamp.now⟩] ∧
      (r.upsert root db stamp).lastId = r.lastId + 1 + stamp.gap := by
  rw [upsert, dif_neg h]
  exact ⟨rfl, rfl⟩

@[simp] theorem upsert_deps : (r.upsert root db stamp).deps = r.deps := by
  rw [upsert]
  split
  · rfl
  · rfl

theorem insertDep_ok {i j : ℕ} (h : r.insertDep i j = .ok s) :
    s.projects = r.projects ∧ s.lastId = r.lastId ∧ (i, j) ∈ s.deps ∧
      ∀ d, d ∈ s.deps ↔ d ∈ r.deps ∨ d = (i, j) := by
  unfold insertDep at h
  split at h
  · split at h
    · next hd =>
      cases h
      exact ⟨rfl, rfl, hd, fun d => ⟨.inl, fun hor => hor.elim id fun heq => heq ▸ hd⟩⟩
    · cases h
      refine ⟨rfl, rfl, List.mem_append_right _ (List.mem_singleton_self _), fun d => ?_⟩
      rw [List.mem_append, List.mem_singleton]
  · cases h

/-- Rows of one project: they share the id, the root and the time. -/
def SameRow (p q : RegistryRow) : Prop :=
  p.id = q.id ∧ p.root = q.root ∧ p.registeredAt = q.registeredAt

theorem SameRow.trans {p m q : RegistryRow} (h : SameRow p m) (h' : SameRow m q) : SameRow p q :=
  ⟨h.1.trans h'.1, h.2.1.trans h'.2.1, h.2.2.trans h'.2.2⟩

theorem sameRow_setDb (root db : TreePath) (p : RegistryRow) : SameRow p (setDb root db p) := by
  rw [setDb]
  split
  · exact ⟨rfl, rfl, rfl⟩
  · exact ⟨rfl, rfl, rfl⟩

/-- What a statement does to the rows: the ids given out only grow, a row keeps its id, its root
    and its time, and a row that is new has an id that was never given out. -/
theorem apply_rows (w : RegistryWrite) :
    r.lastId ≤ (w.apply r).lastId ∧
    ∀ q ∈ (w.apply r).projects, r.lastId < q.id ∨ ∃ p ∈ r.projects, SameRow p q := by
  have hsame : ∀ q ∈ r.projects, r.lastId < q.id ∨ ∃ p ∈ r.projects, SameRow p q :=
    fun q hq => .inr ⟨q, hq, rfl, rfl, rfl⟩
  cases w with
  | upsert root db stamp =>
    rw [RegistryWrite.apply]
    by_cases h : root ∈ r.projects.map RegistryRow.root
    · obtain ⟨hprojects, hlast⟩ := upsert_of_mem db stamp h
      refine ⟨hlast.ge, fun q hq => ?_⟩
      rw [hprojects] at hq
      obtain ⟨p, hp, rfl⟩ := List.mem_map.1 hq
      exact .inr ⟨p, hp, sameRow_setDb root db p⟩
    · obtain ⟨hprojects, hlast⟩ := upsert_of_notMem db stamp h
      refine ⟨by rw [hlast]; omega, fun q hq => ?_⟩
      rw [hprojects] at hq
      rcases List.mem_append.1 hq with hold | hnew
      · exact hsame q hold
      · rw [List.mem_singleton.1 hnew]
        exact .inl (by dsimp only; omega)
  | insertDep i j =>
    rw [RegistryWrite.apply]
    rcases h : r.insertDep i j with e | s
    · exact ⟨le_rfl, hsame⟩
    · obtain ⟨hprojects, hlast, -⟩ := insertDep_ok h
      dsimp only
      rw [hprojects, hlast]
      exact ⟨le_rfl, hsame⟩
  | deleteDep i j => exact ⟨le_rfl, hsame⟩
  | deleteProject i => exact ⟨le_rfl, fun q hq => hsame q (List.mem_filter.1 hq).1⟩

/-- Only its deletion takes a row away. -/
theorem apply_keeps_row {w : RegistryWrite} (hp : p ∈ r.projects) (hw : w ≠ .deleteProject p.id) :
    ∃ q ∈ (w.apply r).projects, SameRow p q := by
  cases w with
  | upsert root db stamp =>
    rw [RegistryWrite.apply]
    by_cases h : root ∈ r.projects.map RegistryRow.root
    · rw [(upsert_of_mem db stamp h).1]
      exact ⟨_, List.mem_map_of_mem hp, sameRow_setDb root db p⟩
    · rw [(upsert_of_notMem db stamp h).1]
      exact ⟨p, List.mem_append_left _ hp, rfl, rfl, rfl⟩
  | insertDep i j =>
    rw [RegistryWrite.apply]
    rcases h : r.insertDep i j with e | s
    · exact ⟨p, hp, rfl, rfl, rfl⟩
    · exact ⟨p, (insertDep_ok h).1 ▸ hp, rfl, rfl, rfl⟩
  | deleteDep i j => exact ⟨p, hp, rfl, rfl, rfl⟩
  | deleteProject i =>
    refine ⟨p, List.mem_filter.2 ⟨hp, decide_eq_true fun hid => hw ?_⟩, rfl, rfl, rfl⟩
    rw [hid]

/-- A dependency is there because it was asked for. -/
theorem apply_deps {w : RegistryWrite} {d : ℕ × ℕ} (h : d ∈ (w.apply r).deps) :
    d ∈ r.deps ∨ w = .insertDep d.1 d.2 := by
  cases w with
  | upsert root db stamp =>
    rw [RegistryWrite.apply, upsert_deps] at h
    exact .inl h
  | insertDep i j =>
    rw [RegistryWrite.apply] at h
    rcases hinsert : r.insertDep i j with e | s
    · rw [hinsert] at h
      exact .inl h
    · rw [hinsert] at h
      obtain ⟨-, -, -, hdeps⟩ := insertDep_ok hinsert
      exact ((hdeps d).1 h).imp id fun heq => by rw [heq]
  | deleteDep i j => exact .inl (List.mem_filter.1 h).1
  | deleteProject i => exact .inl (List.mem_filter.1 h).1

/-- Nothing else takes a dependency away than its own deletion and that of one of its ends. -/
theorem apply_keeps_dep {w : RegistryWrite} {d : ℕ × ℕ} (h : d ∈ r.deps)
    (hw : w ≠ .deleteDep d.1 d.2 ∧ w ≠ .deleteProject d.1 ∧ w ≠ .deleteProject d.2) :
    d ∈ (w.apply r).deps := by
  obtain ⟨hdep, h1, h2⟩ := hw
  cases w with
  | upsert root db stamp => rwa [RegistryWrite.apply, upsert_deps]
  | insertDep i j =>
    rw [RegistryWrite.apply]
    rcases hinsert : r.insertDep i j with e | s
    · exact h
    · exact ((insertDep_ok hinsert).2.2.2 d).2 (.inl h)
  | deleteDep i j =>
    refine List.mem_filter.2 ⟨h, decide_eq_true fun heq => hdep ?_⟩
    rw [heq]
  | deleteProject i =>
    refine List.mem_filter.2 ⟨h, decide_eq_true ⟨fun heq => h1 ?_, fun heq => h2 ?_⟩⟩
    · rw [heq]
    · rw [heq]

end Statements

/-! ### Any statements -/

section Runs

variable {r : Registry} {ws : List RegistryWrite} {p : RegistryRow}

theorem writes_rows (r : Registry) (ws : List RegistryWrite) :
    r.lastId ≤ (r.writes ws).lastId ∧
    ∀ q ∈ (r.writes ws).projects, r.lastId < q.id ∨ ∃ p ∈ r.projects, SameRow p q := by
  induction ws generalizing r with
  | nil => exact ⟨le_rfl, fun q hq => .inr ⟨q, hq, rfl, rfl, rfl⟩⟩
  | cons w ws ih =>
    obtain ⟨hle, hrows⟩ := apply_rows (r := r) w
    obtain ⟨hle', hrows'⟩ := ih (w.apply r)
    refine ⟨hle.trans hle', fun q hq => ?_⟩
    rcases hrows' q hq with hnew | ⟨m, hm, hsame⟩
    · exact .inl (hle.trans_lt hnew)
    · rcases hrows m hm with hnew | ⟨p, hp, hfirst⟩
      · exact .inl (hsame.1 ▸ hnew)
      · exact .inr ⟨p, hp, hfirst.trans hsame⟩

/-- An id stays with its project. -/
theorem writes_root {q : RegistryRow} (hp : p ∈ r.projects) (hq : q ∈ (r.writes ws).projects)
    (hid : p.id = q.id) : p.root = q.root ∧ p.registeredAt = q.registeredAt := by
  rcases (writes_rows r ws).2 q hq with hnew | ⟨m, hm, hmid, hroot, htime⟩
  · have hle := r.ids_le p hp
    omega
  · have hsame : p = m := List.inj_on_of_nodup_map r.ids_nodup hp hm (hid.trans hmid.symm)
    exact hsame ▸ ⟨hroot, htime⟩

/-- An id that is gone is never given out again. -/
theorem writes_gone {i : ℕ} (ws : List RegistryWrite) (hle : i ≤ r.lastId) (hgone : i ∉ r.ids) :
    i ∉ (r.writes ws).ids := by
  intro hmem
  obtain ⟨q, hq, rfl⟩ := mem_ids.1 hmem
  rcases (writes_rows r ws).2 q hq with hnew | ⟨p, hp, hid, -⟩
  · omega
  · exact hgone (mem_ids.2 ⟨p, hp, hid⟩)

theorem writes_keeps_row (hp : p ∈ r.projects) (hws : ∀ w ∈ ws, w ≠ .deleteProject p.id) :
    ∃ q ∈ (r.writes ws).projects, SameRow p q := by
  induction ws generalizing r p with
  | nil => exact ⟨p, hp, rfl, rfl, rfl⟩
  | cons w ws ih =>
    obtain ⟨m, hm, hfirst⟩ := apply_keeps_row hp (hws w List.mem_cons_self)
    obtain ⟨q, hq, hsame⟩ := ih hm fun v hv => hfirst.1 ▸ hws v (List.mem_cons_of_mem _ hv)
    exact ⟨q, hq, hfirst.trans hsame⟩

theorem writes_deps {d : ℕ × ℕ} (h : d ∈ (r.writes ws).deps) :
    d ∈ r.deps ∨ .insertDep d.1 d.2 ∈ ws := by
  induction ws generalizing r with
  | nil => exact .inl h
  | cons w ws ih =>
    rcases ih h with hmid | hlater
    · rcases apply_deps hmid with hold | rfl
      · exact .inl hold
      · exact .inr List.mem_cons_self
    · exact .inr (List.mem_cons_of_mem _ hlater)

theorem writes_keeps_dep {d : ℕ × ℕ} (h : d ∈ r.deps)
    (hws : ∀ w ∈ ws, w ≠ .deleteDep d.1 d.2 ∧ w ≠ .deleteProject d.1 ∧ w ≠ .deleteProject d.2) :
    d ∈ (r.writes ws).deps := by
  induction ws generalizing r with
  | nil => exact h
  | cons w ws ih =>
    exact ih (apply_keeps_dep h (hws w List.mem_cons_self)) fun v hv =>
      hws v (List.mem_cons_of_mem _ hv)

/-- A dependency of the cleaning is one of the registry: it deletes the same rows. -/
theorem catalogue_deleteProject (r : Registry) (i : ℕ) :
    (r.deleteProject i).catalogue = r.catalogue.delete i := by
  have hrows : (r.projects.filter fun p => p.id ≠ i).map
      (fun p => (⟨p.id, p.root⟩ : CatalogueRow)) =
      (r.projects.map fun p => (⟨p.id, p.root⟩ : CatalogueRow)).filter fun p => p.id ≠ i := by
    rw [List.filter_map]
    rfl
  exact Catalogue.ext hrows rfl

end Runs

end Registry

/-! ### The commands -/

section Commands

variable {r : Registry} {world : ProjectWorld} {α : Type}

/-- What a user can ask for. -/
inductive RegistryCommand where
  | register (root db : TreePath)
  | find (start : TreePath)
  | link (cwd target : TreePath)
  | unlink (cwd target : TreePath)

def RegistryCommand.run (world : ProjectWorld) (stamps : Registry.Stamp × Registry.Stamp) :
    RegistryCommand → Sql Registry Unit
  | .register root db => do
    let _ ← Spelunk.register root db stamps.1
    pure ()
  | .find start => do
    let _ ← findProjectForPath world stamps.1 start
    pure ()
  | .link cwd target => Spelunk.link world stamps cwd target
  | .unlink cwd target => Spelunk.unlink world stamps.1 cwd target

/-- The statements that write which a command may make: none deletes a project. -/
def RegistryCommand.May : RegistryCommand → RegistryWrite → Prop
  | .register root db, .upsert root' db' _ => root' = root ∧ db' = db
  | .find _, .upsert root db _ => db = indexPath root
  | .link _ _, .upsert root db _ => db = indexPath root
  | .link _ _, .insertDep _ _ => True
  | .unlink _ _, .upsert root db _ => db = indexPath root
  | .unlink _ _, .deleteDep _ _ => True
  | _, _ => False

/-- The registry after statements that write, all of one kind. -/
def Registry.Wrote (may : RegistryWrite → Prop) (r s : Registry) : Prop :=
  ∃ ws, (∀ w ∈ ws, may w) ∧ s = r.writes ws

theorem Registry.Wrote.tail {may : RegistryWrite → Prop} {s : Registry} {w : RegistryWrite}
    (h : r.Wrote may s) (hw : may w) : r.Wrote may (w.apply s) := by
  obtain ⟨ws, hws, rfl⟩ := h
  refine ⟨ws ++ [w], fun v hv => ?_, (r.writes_append ws [w]).symm⟩
  rcases List.mem_append.1 hv with hold | hnew
  · exact hws v hold
  · rwa [List.mem_singleton.1 hnew]

theorem keeps_register {may : RegistryWrite → Prop} {root db : TreePath} {stamp : Registry.Stamp}
    (hmay : may (.upsert root db stamp)) :
    Sql.Keeps (r.Wrote may) (register root db stamp) := by
  refine Sql.Keeps.bind (Sql.Keeps.execute fun s s' hs hs' => ?_) fun _ =>
    Sql.Keeps.statement fun s a s' hs hs' => ?_
  · rw [← Except.ok.inj hs']
    exact hs.tail hmay
  · split at hs'
    · rw [← (Prod.mk.inj (Except.ok.inj hs')).2]
      exact hs
    · cases hs'

theorem keeps_findRegistered (may : RegistryWrite → Prop) (dirs : List TreePath) :
    Sql.Keeps (r.Wrote may) (findRegistered dirs) := by
  induction dirs with
  | nil => exact Sql.Keeps.ok _
  | cons dir above ih =>
    refine Sql.Keeps.bind (Sql.Keeps.query _) fun found => ?_
    rcases found with _ | p
    · exact ih
    · exact Sql.Keeps.ok _

theorem keeps_findIndexed {may : RegistryWrite → Prop} {stamp : Registry.Stamp}
    (hmay : ∀ root, may (.upsert root (indexPath root) stamp)) (dirs : List TreePath) :
    Sql.Keeps (r.Wrote may) (findIndexed world stamp dirs) := by
  induction dirs with
  | nil => exact Sql.Keeps.ok _
  | cons dir above ih =>
    rw [findIndexed]
    split
    · exact Sql.Keeps.bind (keeps_register (hmay dir)) fun _ => Sql.Keeps.ok _
    · exact ih

theorem keeps_findProjectForPath {may : RegistryWrite → Prop} {stamp : Registry.Stamp}
    (hmay : ∀ root, may (.upsert root (indexPath root) stamp)) (start : TreePath) :
    Sql.Keeps (r.Wrote may) (findProjectForPath world stamp start) := by
  refine Sql.Keeps.bind (keeps_findRegistered may _) fun found => ?_
  rcases found with _ | p
  · exact keeps_findIndexed hmay _
  · exact Sql.Keeps.ok _

/-- Wherever it stops, a command has made statements of its kind. -/
theorem keeps_command (c : RegistryCommand) (stamps : Registry.Stamp × Registry.Stamp) :
    Sql.Keeps (r.Wrote c.May) (c.run world stamps) := by
  rcases c with ⟨root, db⟩ | start | ⟨cwd, target⟩ | ⟨cwd, target⟩
  · exact Sql.Keeps.bind (keeps_register ⟨rfl, rfl⟩) fun _ => Sql.Keeps.ok _
  · exact Sql.Keeps.bind (keeps_findProjectForPath (fun _ => rfl) start) fun _ => Sql.Keeps.ok _
  · refine Sql.Keeps.bind (keeps_findProjectForPath (fun _ => rfl) cwd) fun found => ?_
    rcases found with _ | primary
    · exact Sql.Keeps.fail _
    dsimp only
    split
    · exact Sql.Keeps.fail _
    refine Sql.Keeps.bind (keeps_findProjectForPath (fun _ => rfl) target) fun found => ?_
    rcases found with _ | dep
    · exact Sql.Keeps.fail _
    refine Sql.Keeps.execute fun s s' hs hs' => ?_
    have htail := hs.tail (w := .insertDep primary.id dep.id) trivial
    rwa [RegistryWrite.apply, hs'] at htail
  · refine Sql.Keeps.bind (keeps_findProjectForPath (fun _ => rfl) cwd) fun found => ?_
    rcases found with _ | primary
    · exact Sql.Keeps.fail _
    refine Sql.Keeps.bind (Sql.Keeps.query _) fun found => ?_
    rcases found with _ | dep
    · exact Sql.Keeps.fail _
    refine Sql.Keeps.execute fun s s' hs hs' => ?_
    rw [← Except.ok.inj hs']
    exact hs.tail (w := .deleteDep primary.id dep.id) trivial

/-- Every command, wherever it stops, has made some statements that write, of which none deletes a
    project; and what any processes write in any order, from a registry `r` on, leaves ids with
    their projects, never gives an id out again that is gone, leaves projects that are not deleted,
    adds no dependency that was not asked for, and takes none away but with a deletion of its own or
    of one of its ends. -/
theorem registryRuns (r : Registry) :
    (∀ (c : RegistryCommand) (world : ProjectWorld) (stamps : Registry.Stamp × Registry.Stamp)
      (failAfter : Option ℕ), r.Wrote c.May (c.run world stamps ⟨r, failAfter⟩).2.db) ∧
    (∀ i, (r.deleteProject i).catalogue = r.catalogue.delete i) ∧
    ∀ ws : List RegistryWrite,
      (∀ p ∈ r.projects, ∀ q ∈ (r.writes ws).projects, p.id = q.id →
        p.root = q.root ∧ p.registeredAt = q.registeredAt) ∧
      (∀ p ∈ r.projects, p.id ∉ (r.writes ws).ids → ∀ later,
        p.id ∉ ((r.writes ws).writes later).ids ∧
        ∀ d ∈ ((r.writes ws).writes later).deps, d.1 ≠ p.id ∧ d.2 ≠ p.id) ∧
      (∀ p ∈ r.projects, (∀ w ∈ ws, w ≠ .deleteProject p.id) →
        ∃ q ∈ (r.writes ws).projects, q.id = p.id ∧ q.root = p.root) ∧
      (∀ d ∈ (r.writes ws).deps, d ∈ r.deps ∨ .insertDep d.1 d.2 ∈ ws) ∧
      ∀ d ∈ r.deps, (∀ w ∈ ws, w ≠ .deleteDep d.1 d.2 ∧ w ≠ .deleteProject d.1 ∧
        w ≠ .deleteProject d.2) → d ∈ (r.writes ws).deps := by
  refine ⟨fun c world stamps failAfter =>
      keeps_command c stamps ⟨r, failAfter⟩ ⟨[], by simp, rfl⟩,
    r.catalogue_deleteProject, fun ws => ⟨fun p hp q hq hid => Registry.writes_root hp hq hid,
      fun p hp hgone later => ?_, fun p hp hws => ?_, fun d hd => Registry.writes_deps hd,
      fun d hd hws => Registry.writes_keeps_dep hd hws⟩⟩
  · have hle : p.id ≤ (r.writes ws).lastId := (r.ids_le p hp).trans (Registry.writes_rows r ws).1
    have hnever := Registry.writes_gone later hle hgone
    refine ⟨hnever, fun d hd => ?_⟩
    obtain ⟨h1, h2⟩ := ((r.writes ws).writes later).deps_known d hd
    exact ⟨fun heq => hnever (heq ▸ h1), fun heq => hnever (heq ▸ h2)⟩
  · obtain ⟨q, hq, hid, hroot, -⟩ := Registry.writes_keeps_row hp hws
    exact ⟨q, hq, hid.symm, hroot.symm⟩

end Commands

/-! ### The project that a path belongs to -/

section Finding

variable {r : Registry} {world : ProjectWorld} {stamp : Registry.Stamp} {root db dir : TreePath}
  {p q : RegistryRow}

namespace Registry

theorem byRoot_some (h : r.byRoot root = some p) : p ∈ r.projects ∧ p.root = root :=
  ⟨List.mem_of_find?_eq_some h,
    of_decide_eq_true (List.find?_some (p := fun q : RegistryRow => q.root = root) h)⟩

theorem byRoot_eq (hp : p ∈ r.projects) : r.byRoot p.root = some p := by
  rcases h : r.byRoot p.root with _ | q
  · exact absurd rfl (of_decide_eq_false (Bool.eq_false_iff.2 (List.find?_eq_none.1 h p hp)))
  · obtain ⟨hq, hroot⟩ := byRoot_some h
    rw [List.inj_on_of_nodup_map r.roots_nodup hq hp hroot]

theorem byRoot_none : r.byRoot root = none ↔ root ∉ r.projects.map RegistryRow.root := by
  rw [byRoot, List.find?_eq_none, List.mem_map]
  simp only [decide_eq_true_eq, not_exists, not_and]

/-- A root that was not there has the new row. -/
theorem byRoot_upsert (h : r.byRoot root = none) :
    (r.upsert root db stamp).byRoot root =
      some ⟨r.lastId + 1 + stamp.gap, root, db, stamp.now⟩ := by
  obtain ⟨hprojects, -⟩ := upsert_of_notMem db stamp (byRoot_none.1 h)
  rw [byRoot, hprojects, List.find?_append]
  rw [byRoot] at h
  rw [h, Option.none_or, List.find?_singleton, if_pos (decide_eq_true rfl)]

theorem byRoot_upsert_of_ne (h : r.byRoot root = none) (hne : dir ≠ root) :
    (r.upsert root db stamp).byRoot dir = r.byRoot dir := by
  obtain ⟨hprojects, -⟩ := upsert_of_notMem db stamp (byRoot_none.1 h)
  rw [byRoot, hprojects, List.find?_append, List.find?_singleton, if_neg, Option.or_none, byRoot]
  exact fun heq => hne (of_decide_eq_true heq).symm

end Registry

/-- A directory that has an index. -/
def ProjectWorld.indexedRoot (world : ProjectWorld) (dir : TreePath) : Option TreePath :=
  if world.indexed dir then some dir else none

theorem findRegistered_run (r : Registry) (dirs : List TreePath) :
    findRegistered dirs ⟨r, none⟩ = (.ok (dirs.findSome? r.byRoot), ⟨r, none⟩) := by
  induction dirs with
  | nil => rfl
  | cons dir above ih =>
    rw [List.findSome?_cons]
    have hquery : Sql.query (fun r : Registry => r.byRoot dir) ⟨r, none⟩ =
      (.ok (r.byRoot dir), ⟨r, none⟩) := rfl
    rw [findRegistered, Sql.bind_eq, Sql.andThen, hquery]
    rcases r.byRoot dir with _ | p
    · exact ih
    · rfl

theorem register_run (h : r.byRoot root = none) :
    register root db stamp ⟨r, none⟩ =
      (.ok (r.lastId + 1 + stamp.gap), ⟨r.upsert root db stamp, none⟩) := by
  have hwrite : Sql.execute (fun r : Registry => .ok (r.upsert root db stamp)) ⟨r, none⟩ =
    (.ok (), ⟨r.upsert root db stamp, none⟩) := rfl
  rw [register, Sql.bind_eq, Sql.andThen, hwrite]
  simp only [Sql.statement, Registry.byRoot_upsert h, Option.map_none]

/-- Without a registered root above, the nearest index on disk is registered. -/
theorem findIndexed_run {dirs : List TreePath} (h : ∀ d ∈ dirs, r.byRoot d = none) :
    findIndexed world stamp dirs ⟨r, none⟩ =
      match dirs.findSome? world.indexedRoot with
      | some d => (.ok (some ⟨r.lastId + 1 + stamp.gap, d, indexPath d, 0⟩),
          ⟨r.upsert d (indexPath d) stamp, none⟩)
      | none => (.ok none, ⟨r, none⟩) := by
  induction dirs with
  | nil => rfl
  | cons d above ih =>
    obtain ⟨hd, habove⟩ := List.forall_mem_cons.1 h
    rw [List.findSome?_cons, ProjectWorld.indexedRoot, findIndexed]
    rcases world.indexed d with _ | _
    · exact ih habove
    · rw [if_pos rfl, if_pos rfl, Sql.bind_eq, Sql.andThen, register_run hd]
      rfl

theorem findProject_registered {start : TreePath}
    (h : IsNearest r.byRoot (world.mainRoot start) p) :
    findProjectForPath world stamp start ⟨r, none⟩ = (.ok (some p), ⟨r, none⟩) := by
  rw [findProjectForPath, Sql.bind_eq, Sql.andThen, findRegistered_run,
    findSome?_ancestors.2 h]
  rfl

theorem findProject_unregistered {start : TreePath}
    (h : ∀ d, d <+: world.mainRoot start → r.byRoot d = none) :
    findProjectForPath world stamp start ⟨r, none⟩ =
      findIndexed world stamp (ancestors (world.mainRoot start)) ⟨r, none⟩ := by
  rw [findProjectForPath, Sql.bind_eq, Sql.andThen, findRegistered_run,
    findSome?_ancestors_eq_none.2 h]

end Finding

/-! ### Links -/

section Links

variable {r : Registry} {world : ProjectWorld} {stamp : Registry.Stamp}
  {stamps : Registry.Stamp × Registry.Stamp} {cwd target : TreePath} {p q : RegistryRow}

namespace Registry

theorem mem_getDeps {i : ℕ} {row : RegistryRow} :
    row ∈ r.getDeps i ↔ row ∈ r.projects ∧ (i, row.id) ∈ r.deps := by
  rw [getDeps, List.mem_filter, decide_eq_true_eq]

/-- Two projects can be linked, and unlinking takes a new link back. -/
theorem insertDep_run (hp : p ∈ r.projects) (hq : q ∈ r.projects) :
    ∃ s, r.insertDep p.id q.id = .ok s ∧ ((p.id, q.id) ∉ r.deps → s.deleteDep p.id q.id = r) := by
  rw [insertDep, dif_pos ⟨mem_ids.2 ⟨p, hp, rfl⟩, mem_ids.2 ⟨q, hq, rfl⟩⟩]
  split
  · next hd => exact ⟨r, rfl, fun hnot => absurd hd hnot⟩
  · next hd =>
    refine ⟨_, rfl, fun _ => Registry.ext rfl ?_ rfl⟩
    have hkeep : r.deps.filter (fun d => d ≠ (p.id, q.id)) = r.deps :=
      List.filter_eq_self.2 fun d hmem => decide_eq_true fun heq => hd (heq ▸ hmem)
    rw [deleteDep]
    dsimp only
    rw [List.filter_append, hkeep, List.filter_cons_of_neg (by simp), List.filter_nil,
      List.append_nil]

end Registry

theorem nearest_mem {dir : TreePath} (h : IsNearest r.byRoot dir p) : p ∈ r.projects := by
  obtain ⟨d, -, hfound, -⟩ := h
  exact (Registry.byRoot_some hfound).1

/-- In the project `p`, a link to a path that belongs to the project `q` is refused exactly if the
    path is the root of `p`. Otherwise it makes `q`, and nothing else, a dependency of `p`, also
    where the path lies in `p` itself and `q` is `p`; and naming the root of `q` takes it back. -/
theorem linkLaw (hp : IsNearest r.byRoot (world.mainRoot cwd) p)
    (hq : IsNearest r.byRoot (world.mainRoot target) q) :
    (target = p.root → link world stamps cwd target ⟨r, none⟩ =
      (.error (.refused "A project cannot depend on itself."), ⟨r, none⟩)) ∧
    (target ≠ p.root → ∃ s, link world stamps cwd target ⟨r, none⟩ = (.ok (), ⟨s, none⟩) ∧
      (∀ i row, row ∈ s.getDeps i ↔ row ∈ r.getDeps i ∨ i = p.id ∧ row = q) ∧
      (p ∈ s.getDeps p.id ↔ p ∈ r.getDeps p.id ∨ p = q) ∧
      unlink world stamp cwd q.root ⟨s, none⟩ = (.ok (), ⟨s.deleteDep p.id q.id, none⟩) ∧
      ((p.id, q.id) ∉ r.deps → s.deleteDep p.id q.id = r)) := by
  have hfound : findProjectForPath world stamps.1 cwd ⟨r, none⟩ = (.ok (some p), ⟨r, none⟩) :=
    findProject_registered hp
  refine ⟨fun heq => ?_, fun hne => ?_⟩
  · rw [link, Sql.bind_eq, Sql.andThen, hfound]
    dsimp only
    rw [if_pos heq]
    rfl
  obtain ⟨s, hs, hback⟩ := Registry.insertDep_run (nearest_mem hp) (nearest_mem hq)
  obtain ⟨hprojects, -, -, hdeps⟩ := Registry.insertDep_ok hs
  have hroots : s.byRoot = r.byRoot := by
    funext root
    rw [Registry.byRoot, hprojects, Registry.byRoot]
  have hlinked : ∀ i row, row ∈ s.getDeps i ↔ row ∈ r.getDeps i ∨ i = p.id ∧ row = q := by
    intro i row
    rw [Registry.mem_getDeps, Registry.mem_getDeps, hprojects, hdeps, and_or_left]
    refine or_congr_right ⟨?_, ?_⟩
    · rintro ⟨hrow, heq⟩
      obtain ⟨hi, hid⟩ := Prod.mk.inj heq
      exact ⟨hi, List.inj_on_of_nodup_map r.ids_nodup hrow (nearest_mem hq) hid⟩
    · rintro ⟨rfl, rfl⟩
      exact ⟨nearest_mem hq, rfl⟩
  refine ⟨s, ?_, hlinked, ?_, ?_, hback⟩
  · have htarget : findProjectForPath world stamps.2 target ⟨r, none⟩ =
        (.ok (some q), ⟨r, none⟩) := findProject_registered hq
    rw [link, Sql.bind_eq, Sql.andThen, hfound]
    dsimp only
    rw [if_neg hne, Sql.bind_eq, Sql.andThen, htarget]
    simp only [Sql.execute, Sql.statement, hs, Except.map, Option.map_none]
  · rw [hlinked]
    exact or_congr_right (and_iff_right rfl)
  · have hcwd : findProjectForPath world stamp cwd ⟨s, none⟩ = (.ok (some p), ⟨s, none⟩) :=
      findProject_registered (hroots ▸ hp)
    have hquery : Sql.query (fun r : Registry => r.byRoot q.root) ⟨s, none⟩ =
        (.ok (some q), ⟨s, none⟩) := by
      have hrow : s.byRoot q.root = some q :=
        Registry.byRoot_eq (hprojects ▸ nearest_mem hq)
      simp only [Sql.query, Sql.statement, hrow, Option.map_none]
    rw [unlink, Sql.bind_eq, Sql.andThen, hcwd]
    dsimp only
    rw [Sql.bind_eq, Sql.andThen, hquery]
    rfl

def loneProject : RegistryRow := ⟨1, ["a"], ["a", ".spelunk", "index.db"], 0⟩

/-- A registry of one project. -/
def loneRegistry : Registry where
  projects := [loneProject]
  deps := []
  lastId := 1
  ids_nodup := by decide
  roots_nodup := by decide
  ids_le := by decide
  deps_nodup := by decide
  deps_known := by decide

/-- A link to a directory of the project makes it a dependency of itself. -/
theorem linkLaw_inside :
    ∃ s, link ⟨id, fun _ => false⟩ (⟨0, 0⟩, ⟨0, 0⟩) ["a"] ["a", "src"]
      ⟨loneRegistry, none⟩ = (.ok (), ⟨s, none⟩) ∧ loneProject ∈ s.getDeps loneProject.id := by
  obtain ⟨s, hlink, -, hself, -⟩ :=
    (@linkLaw loneRegistry ⟨id, fun _ => false⟩ ⟨0, 0⟩ (⟨0, 0⟩, ⟨0, 0⟩) ["a"] ["a", "src"]
      loneProject loneProject (findSome?_ancestors.1 (by decide))
      (findSome?_ancestors.1 (by decide))).2 (by decide)
  exact ⟨s, hlink, hself.2 (.inr rfl)⟩

end Links

end Spelunk
