import Spelunk.Core.Autoclean
import Spelunk.Lib.Sql

/-!
# The Registry

The projects that are known on a machine and which of them depend on which. Every statement is
one of four writes, or only reads. A project is found from a path inside of it: by the nearest
registered root above, or else by the nearest index on disk above, which is then registered.

Paths are those of the main worktree, canonical, by their components.

## Main definitions

* `Registry`: The two tables, with their constraints.
* `RegistryWrite`: The statements that write.
* `register`, `findProjectForPath`, `getDeps`: The operations.
* `link`, `unlink`: The commands.
-/

namespace Spelunk

open Lib (Sql SqlError TreePath ancestors)

/-- A row of `projects`. -/
structure RegistryRow where
  id : ℕ
  root : TreePath
  db : TreePath
  registeredAt : ℕ
deriving DecidableEq, Repr

/-- The registry, and the last id that was given out: `AUTOINCREMENT` keeps it. -/
@[ext] structure Registry where
  projects : List RegistryRow
  deps : List (ℕ × ℕ)
  lastId : ℕ
  ids_nodup : (projects.map RegistryRow.id).Nodup
  roots_nodup : (projects.map RegistryRow.root).Nodup
  ids_le : ∀ p ∈ projects, p.id ≤ lastId
  deps_nodup : deps.Nodup
  deps_known : ∀ d ∈ deps, d.1 ∈ projects.map RegistryRow.id ∧ d.2 ∈ projects.map RegistryRow.id

namespace Registry

def ids (r : Registry) : List ℕ := r.projects.map RegistryRow.id

/-- `SELECT .. FROM projects WHERE root_path = ?1`. -/
def byRoot (r : Registry) (root : TreePath) : Option RegistryRow :=
  r.projects.find? fun p => p.root = root

/-- The database chooses an id above all that it ever gave out, and knows the time. -/
structure Stamp where
  gap : ℕ
  now : ℕ

/-- The row of a root that is there gets another database. -/
def setDb (root db : TreePath) (p : RegistryRow) : RegistryRow :=
  if p.root = root then { p with db := db } else p

theorem map_setDb {β : Type} (f : RegistryRow → β) (root db : TreePath)
    (hf : ∀ p : RegistryRow, f { p with db := db } = f p) (ps : List RegistryRow) :
    (ps.map (setDb root db)).map f = ps.map f := by
  rw [List.map_map]
  refine List.map_congr_left fun p _ => ?_
  rw [Function.comp_apply, setDb]
  split
  · exact hf p
  · rfl

/-- `INSERT INTO projects .. ON CONFLICT(root_path) DO UPDATE SET db_path`. -/
def upsert (r : Registry) (root db : TreePath) (stamp : Stamp) : Registry :=
  if h : root ∈ r.projects.map RegistryRow.root then
    { r with
      projects := r.projects.map (setDb root db)
      ids_nodup := by
        rw [map_setDb RegistryRow.id root db fun _ => rfl]
        exact r.ids_nodup
      roots_nodup := by
        rw [map_setDb RegistryRow.root root db fun _ => rfl]
        exact r.roots_nodup
      ids_le := by
        intro p hp
        have hid : p.id ∈ (r.projects.map (setDb root db)).map RegistryRow.id :=
          List.mem_map_of_mem hp
        rw [map_setDb RegistryRow.id root db fun _ => rfl] at hid
        obtain ⟨q, hq, hqid⟩ := List.mem_map.1 hid
        exact hqid ▸ r.ids_le q hq
      deps_known := by
        rw [map_setDb RegistryRow.id root db fun _ => rfl]
        exact r.deps_known }
  else
    { projects := r.projects ++ [⟨r.lastId + 1 + stamp.gap, root, db, stamp.now⟩]
      deps := r.deps
      lastId := r.lastId + 1 + stamp.gap
      ids_nodup := by
        rw [List.map_append, List.nodup_append_comm]
        refine List.nodup_cons.2 ⟨fun hmem => ?_, r.ids_nodup⟩
        obtain ⟨p, hp, hid⟩ := List.mem_map.1 hmem
        have hle := r.ids_le p hp
        dsimp only at hid
        omega
      roots_nodup := by
        rw [List.map_append, List.nodup_append_comm]
        exact List.nodup_cons.2 ⟨h, r.roots_nodup⟩
      ids_le := by
        intro p hp
        rcases List.mem_append.1 hp with hold | hnew
        · exact (r.ids_le p hold).trans (by omega)
        · rw [List.mem_singleton.1 hnew]
      deps_nodup := r.deps_nodup
      deps_known := by
        intro d hd
        rw [List.map_append]
        exact ⟨List.mem_append_left _ (r.deps_known d hd).1,
          List.mem_append_left _ (r.deps_known d hd).2⟩ }

/-- `INSERT OR IGNORE INTO project_deps`, which both ends must be rows for. -/
def insertDep (r : Registry) (project dep : ℕ) : Except SqlError Registry :=
  if h : project ∈ r.ids ∧ dep ∈ r.ids then
    if hd : (project, dep) ∈ r.deps then .ok r
    else .ok
      { r with
        deps := r.deps ++ [(project, dep)]
        deps_nodup := by
          rw [List.nodup_append_comm]
          exact List.nodup_cons.2 ⟨hd, r.deps_nodup⟩
        deps_known := by
          intro d hmem
          rcases List.mem_append.1 hmem with hold | hnew
          · exact r.deps_known d hold
          · rw [List.mem_singleton.1 hnew]
            exact h }
  else .error .foreignKey

/-- `DELETE FROM project_deps WHERE project_id = ?1 AND dep_id = ?2`. -/
def deleteDep (r : Registry) (project dep : ℕ) : Registry :=
  { r with
    deps := r.deps.filter fun d => d ≠ (project, dep)
    deps_nodup := r.deps_nodup.filter _
    deps_known := fun d hd => r.deps_known d (List.mem_filter.1 hd).1 }

/-- `DELETE FROM projects WHERE id = ?1`; the dependencies of the row go with it. -/
def deleteProject (r : Registry) (id : ℕ) : Registry :=
  { r with
    projects := r.projects.filter fun p => p.id ≠ id
    deps := r.deps.filter fun d => d.1 ≠ id ∧ d.2 ≠ id
    ids_nodup := r.ids_nodup.sublist (List.Sublist.map _ List.filter_sublist)
    roots_nodup := r.roots_nodup.sublist (List.Sublist.map _ List.filter_sublist)
    ids_le := fun p hp => r.ids_le p (List.mem_filter.1 hp).1
    deps_nodup := r.deps_nodup.filter _
    deps_known := by
      intro d hd
      obtain ⟨hmem, hne⟩ := List.mem_filter.1 hd
      obtain ⟨h1, h2⟩ := of_decide_eq_true hne
      have hkeep : ∀ {i}, i ≠ id → i ∈ r.projects.map RegistryRow.id →
          i ∈ (r.projects.filter fun p => p.id ≠ id).map RegistryRow.id := by
        intro i hi hmem
        obtain ⟨p, hp, hid⟩ := List.mem_map.1 hmem
        exact List.mem_map.2 ⟨p, List.mem_filter.2 ⟨hp, decide_eq_true (hid ▸ hi)⟩, hid⟩
      exact ⟨hkeep h1 (r.deps_known d hmem).1, hkeep h2 (r.deps_known d hmem).2⟩ }

/-- `Registry::get_deps`. -/
def getDeps (r : Registry) (project : ℕ) : List RegistryRow :=
  r.projects.filter fun p => (project, p.id) ∈ r.deps

/-- What the cleaning of the registry sees of it. -/
def catalogue (r : Registry) : Catalogue where
  projects := r.projects.map fun p => ⟨p.id, p.root⟩
  deps := r.deps
  ids_nodup := by
    rw [List.map_map]
    exact r.ids_nodup

end Registry

/-- A statement that writes. -/
inductive RegistryWrite where
  | upsert (root db : TreePath) (stamp : Registry.Stamp)
  | insertDep (project dep : ℕ)
  | deleteDep (project dep : ℕ)
  | deleteProject (id : ℕ)

/-- A statement that is refused has no effect. -/
def RegistryWrite.apply (r : Registry) : RegistryWrite → Registry
  | .upsert root db stamp => r.upsert root db stamp
  | .insertDep project dep =>
    match r.insertDep project dep with
    | .ok r => r
    | .error _ => r
  | .deleteDep project dep => r.deleteDep project dep
  | .deleteProject id => r.deleteProject id

/-- What the commands ask of the machine: the root of the main worktree that a path belongs to, and
    whether a directory has an index. -/
structure ProjectWorld where
  mainRoot : TreePath → TreePath
  indexed : TreePath → Bool

/-- The index of a directory. -/
def indexPath (dir : TreePath) : TreePath := dir ++ [".spelunk", "index.db"]

/-- `Registry::register`. -/
def register (root db : TreePath) (stamp : Registry.Stamp) : Sql Registry ℕ := do
  Sql.execute fun r => .ok (r.upsert root db stamp)
  Sql.statement fun r =>
    match r.byRoot root with
    | some p => .ok (p.id, r)
    | none => .error (.refused "fetching project id after register")

/-- The walk up along the registry. -/
def findRegistered : List TreePath → Sql Registry (Option RegistryRow)
  | [] => pure none
  | dir :: above => do
    match ← Sql.query fun r : Registry => r.byRoot dir with
    | some p => pure (some p)
    | none => findRegistered above

/-- The walk up along the file system. -/
def findIndexed (world : ProjectWorld) (stamp : Registry.Stamp) :
    List TreePath → Sql Registry (Option RegistryRow)
  | [] => pure none
  | dir :: above =>
    if world.indexed dir then do
      let id ← register dir (indexPath dir) stamp
      pure (some ⟨id, dir, indexPath dir, 0⟩)
    else findIndexed world stamp above

/-- `Registry::find_project_for_path`. -/
def findProjectForPath (world : ProjectWorld) (stamp : Registry.Stamp) (start : TreePath) :
    Sql Registry (Option RegistryRow) := do
  match ← findRegistered (ancestors (world.mainRoot start)) with
  | some p => pure (some p)
  | none => findIndexed world stamp (ancestors (world.mainRoot start))

/-- `link`, in a directory, of another one. -/
def link (world : ProjectWorld) (stamps : Registry.Stamp × Registry.Stamp)
    (cwd target : TreePath) : Sql Registry Unit := do
  match ← findProjectForPath world stamps.1 cwd with
  | none => Sql.fail (.refused "No indexed project found for the current directory.")
  | some primary =>
    if target = primary.root then Sql.fail (.refused "A project cannot depend on itself.")
    else do
      match ← findProjectForPath world stamps.2 target with
      | none => Sql.fail (.refused "No index found")
      | some dep => Sql.execute fun r => r.insertDep primary.id dep.id

/-- `unlink`, in a directory, of another one. -/
def unlink (world : ProjectWorld) (stamp : Registry.Stamp) (cwd target : TreePath) :
    Sql Registry Unit := do
  match ← findProjectForPath world stamp cwd with
  | none => Sql.fail (.refused "No indexed project found for the current directory.")
  | some primary =>
    match ← Sql.query fun r : Registry => r.byRoot target with
    | none => Sql.fail (.refused "No registered project found")
    | some dep => Sql.execute fun r => .ok (r.deleteDep primary.id dep.id)

end Spelunk
