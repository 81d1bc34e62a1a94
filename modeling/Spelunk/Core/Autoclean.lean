import Mathlib.Data.List.Nodup
import Spelunk.Lib.FileTree

/-!
# Cleaning the Registry

`Registry::autoclean`: the rows whose root is gone are deleted, and where a worktree has left only
its `.spelunk` directory behind, this remnant is removed too. Files and rows are deleted in
separate steps, each of which can fail for each project.

## Main definitions

* `Catalogue`: The registry: projects and their dependencies.
* `CleanFaults`: What fails at a project.
* `spelunkOnlyRemnant`: The probe of a root.
* `cleanProject`, `autoclean`: One round of the loop, and the loop.
-/

namespace Spelunk

open Lib (TreePath TreeNode Files follow resolve)

/-- A row of the registry, with its root as the system walks it. -/
structure CatalogueRow where
  id : ℕ
  root : TreePath
deriving DecidableEq, Repr

/-- The registry. Ids are the primary key; rows are listed by their root. -/
@[ext] structure Catalogue where
  projects : List CatalogueRow
  deps : List (ℕ × ℕ)
  ids_nodup : (projects.map CatalogueRow.id).Nodup

/-- `DELETE FROM projects WHERE id = ?1`; the dependencies of the row go with it. -/
def Catalogue.delete (c : Catalogue) (id : ℕ) : Catalogue where
  projects := c.projects.filter fun p => p.id ≠ id
  deps := c.deps.filter fun d => d.1 ≠ id ∧ d.2 ≠ id
  ids_nodup := c.ids_nodup.sublist (List.Sublist.map _ List.filter_sublist)

/-- What fails at a project: the removal of `.spelunk`, after which these objects are still there;
    the removal of the root; the deletion of the row. -/
structure CleanFaults where
  survivors : Option (List TreePath)
  removeRoot : Bool
  deleteRow : Bool

/-- The registry and the file system. -/
@[ext] structure CleanState where
  catalogue : Catalogue
  files : Files

/-- The links that one path may go through, and one. -/
def maxLinks : ℕ := 41

/-- `Path::exists`. -/
def pathExists (files : Files) (root : TreePath) : Bool :=
  (resolve true files maxLinks root).isSome

def spelunkOnlyRemnant (files : Files) (root : TreePath) : Bool :=
  match resolve true files maxLinks root with
  | none => false
  | some dir => Lib.readable (files.at dir) && files.names dir = [".spelunk"]

/-- `symlink_metadata` of the root's `.spelunk`. -/
def spelunkMetadata (files : Files) (root : TreePath) : Option TreeNode :=
  match resolve true files maxLinks root with
  | none => none
  | some dir =>
    if Lib.searchableBy true (files.at dir) then files.at (dir ++ [".spelunk"]) else none

/-- `remove_dir_all` of the root's `.spelunk`, which does not follow links within. When it fails,
    the directory itself is still there. -/
def removeSpelunk (files : Files) (survivors : Option (List TreePath)) (root : TreePath) :
    Files × Bool :=
  match resolve true files maxLinks root with
  | none => (files, false)
  | some dir =>
    let target := dir ++ [".spelunk"]
    match files.at target with
    | some (.dir _ _) =>
      match survivors with
      | none => (files.filter fun o => !target.isPrefixOf o.1, true)
      | some left =>
        (files.filter fun o => !target.isPrefixOf o.1 || o.1 = target || left.contains o.1, false)
    | _ => (files, false)

/-- `remove_dir` of the root, which does not follow a link at its end. A failure is ignored. -/
def removeRootDir (files : Files) (fails : Bool) (root : TreePath) : Files :=
  match root.getLast? with
  | none => files
  | some name =>
    match resolve true files maxLinks root.dropLast with
    | none => files
    | some parent =>
      let target := parent ++ [name]
      match files.at target with
      | some (.dir _ _) =>
        if fails = false ∧ files.names target = [] then files.filter fun o => o.1 ≠ target
        else files
      | _ => files

/-- What a round of the loop comes to. -/
inductive CleanOutcome where
  | kept
  | removed
  | failed
deriving DecidableEq, Repr

/-- The row is deleted, or the deletion fails. -/
def deleteRow (state : CleanState) (faults : CleanFaults) (p : CatalogueRow) :
    CleanState × CleanOutcome :=
  if faults.deleteRow then (state, .failed)
  else ({ state with catalogue := state.catalogue.delete p.id }, .removed)

/-- One round of the loop. -/
def cleanProject (state : CleanState) (faults : CleanFaults) (p : CatalogueRow) :
    CleanState × CleanOutcome :=
  if pathExists state.files p.root = false then deleteRow state faults p
  else if spelunkOnlyRemnant state.files p.root then
    match spelunkMetadata state.files p.root with
    | some (.link _) => (state, .kept)
    | some _ =>
      match removeSpelunk state.files faults.survivors p.root with
      | (files, false) => ({ state with files := files }, .failed)
      | (files, true) =>
        deleteRow { state with files := removeRootDir files faults.removeRoot p.root } faults p
    -- Taken for a remnant that is already gone.
    | none => deleteRow state faults p
  else (state, .kept)

/-- The loop over the projects that are left, with the roots removed so far; no list is returned
    when a round fails. -/
def cleanLoop (faults : CatalogueRow → CleanFaults) :
    List CatalogueRow → CleanState → List TreePath → CleanState × Option (List TreePath)
  | [], state, removed => (state, some removed)
  | p :: rest, state, removed =>
    match cleanProject state (faults p) p with
    | (state, .kept) => cleanLoop faults rest state removed
    | (state, .removed) => cleanLoop faults rest state (removed ++ [p.root])
    | (state, .failed) => (state, none)

/-- `Registry::autoclean`. -/
def autoclean (faults : CatalogueRow → CleanFaults) (state : CleanState) :
    CleanState × Option (List TreePath) :=
  cleanLoop faults state.catalogue.projects state []

/-- Nothing fails. -/
def noFaults : CatalogueRow → CleanFaults := fun _ => ⟨none, false, false⟩

end Spelunk
