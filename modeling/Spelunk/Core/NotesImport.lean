import Spelunk.Core.Dedupe
import Spelunk.Core.GitNotes

/-!
# Importing the Carrier

Entries on the notes ref that the local store lacks are inserted in one
transaction, together with the id of the ref they were read from. That marker
lets later reads skip the import until the ref moves.

## Main definitions

* `NotesImportMarker`, `LocalStore`: The store with its import markers.
* `importListed`: The import of a listing.
* `importGitNotesIntoMemory`: The whole import.
-/

namespace Spelunk

open Lib (Sql SqlError)

/-- The ids of the two notes refs as of the last merge and the last import. -/
structure NotesImportMarker where
  lastMergedTrackingOid : Option String
  lastImportedWorkingOid : Option String
deriving DecidableEq, Repr

/-- A `memory.db` with its import markers. `created` says whether the file is
    there; a store that is not is empty and has no marker. -/
structure LocalStore where
  created : Bool
  memory : MemoryDb
  marker : NotesImportMarker
deriving DecidableEq, Repr

namespace LocalStore

/-- No file yet. -/
def absent : LocalStore where
  created := false
  memory := createdStore
  marker := ⟨none, none⟩

/-- A program over the notes of the store. -/
def onMemory {α : Type} (m : Sql MemoryDb α) : Sql LocalStore α :=
  Sql.zoom LocalStore.memory (fun s memory => { s with memory := memory }) m

/-- The file is created when it is opened. -/
def createFile : Sql LocalStore Unit :=
  Sql.execute fun s => .ok { s with created := true }

def notesImportState : Sql LocalStore NotesImportMarker :=
  Sql.query LocalStore.marker

def setNotesMergedTrackingOid (oid : Option String) : Sql LocalStore Unit :=
  Sql.execute fun s => .ok { s with marker := { s.marker with lastMergedTrackingOid := oid } }

def setNotesImportedWorkingOid (oid : Option String) : Sql LocalStore Unit :=
  Sql.execute fun s => .ok { s with marker := { s.marker with lastImportedWorkingOid := oid } }

end LocalStore

open LocalStore

/-- The `source_ref` of imported entries. -/
def initGitNotesSource : String := "init:git-notes"

/-- The limit an import lists with: the most a listing returns. -/
def gitNotesImportLimit : Nat := 500

variable [Sha256]

/-- Open the store, which creates the file. -/
def openLocalStore : Sql LocalStore Unit := do
  createFile
  onMemory openStore

/-- The entries to insert: those of an identity that is neither stored nor among
    the entries before. -/
def absentNotes (existing : List String) : List CarrierNote → List CarrierNote
  | [] => []
  | n :: rest =>
      if n.entityId ∈ existing then absentNotes existing rest
      else n :: absentNotes (n.entityId :: existing) rest

/-- Insert one entry. -/
def importNote (n : CarrierNote) : Sql MemoryDb Unit := do
  let status := if n.status = "archived" then "archived" else "active"
  let _ ← addNoteWithCreatedAt n.kind n.title n.body n.tags n.linkedFiles
    (some initGitNotesSource) status n.createdAt
  pure ()

/-- Import a listing into the store; `workingOid` is the id of the working ref
    read after it. Answers how many entries were inserted. -/
def importListed (notes : List CarrierNote) (workingOid : Option String) : Sql LocalStore Nat := do
  if notes = [] then
    -- Nothing on the carrier: no store is created to record that.
    let created ← Sql.query LocalStore.created
    Sql.whenever created (do
      let opened ← Sql.attempt openLocalStore
      match opened with
      | .ok _ => do
          let _ ← Sql.attempt (setNotesImportedWorkingOid workingOid)
          pure ()
      | .error _ => pure ())
    pure 0
  else
    openLocalStore
    let existing ← onMemory (do
      let all ← allNotesForDedup
      pure (all.map noteEntityId))
    let toImport := absentNotes existing notes
    if toImport = [] then
      let _ ← Sql.attempt (setNotesImportedWorkingOid workingOid)
      pure 0
    else
      Sql.transaction do
        onMemory (Sql.forEach toImport importNote)
        setNotesImportedWorkingOid workingOid
        pure toImport.length

/-- Import what the carrier has into the store. `repo` is what git answers the
    listing, `workingOid` the id of the working ref read after it. -/
def importGitNotesIntoMemory [NoteJson] (repo : NotesRepo) (workingOid : Option String) :
    Sql LocalStore Nat :=
  match listNotes repo none gitNotesImportLimit true none with
  | .error e => Sql.fail (.refused e.message)
  | .ok notes => importListed notes workingOid

end Spelunk
