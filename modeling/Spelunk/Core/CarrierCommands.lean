import Spelunk.Core.Carrier

/-!
# Commands on the Carrier

The import of the carrier and the refresh that every read starts with, as
programs of calls, and all commands that touch the carrier together: the writers,
the merge, the publish, the readers' refresh, and what a user does with git beside
them.

## Main definitions

* `listCarrier`: A listing as it is read, call by call.
* `importCarrier`: The import, the working ref's id read after the listing.
* `refreshReadPath`: The refresh before a read.
* `CarrierCmd`, `carrierMachinery`: All commands, and how they run.
-/

namespace Spelunk

open Lib (Prog Machinery)

section Import

variable [NoteJson] [Sha256]

/-- What git answered a reader, call by call. -/
def readRepo : CarrierProg NotesRepo := do
  match ← Call.listNotes with
  | none => pure ⟨[], [], true, false, false⟩
  | some tree =>
      if tree = [] then pure ⟨[], [], false, false, false⟩
      else do
        match ← Call.logHead with
        | none => pure ⟨tree, [], false, true, false⟩
        | some log => do
            let read ← Call.catFile
            pure ⟨tree, log, false, false, read = false⟩

/-- `GitNotesBackend::list` with everything. -/
def listCarrier : CarrierProg (Except CarrierError (List CarrierNote)) := do
  let repo ← readRepo
  pure (listNotes repo none gitNotesImportLimit true none)

/-- Record the working ref's id in a store that can be opened. -/
def recordImported (workingOid : Option String) : CarrierProg Unit := do
  match ← Call.store .openStore with
  | none => pure ()
  | some _ => do
      let _ ← Call.store (.setImported workingOid)
      pure ()

/-- Import what the carrier has; `none` is a failure. -/
def importCarrier : CarrierProg (Option Nat) := do
  match ← listCarrier with
  | .error _ => pure none
  | .ok notes => do
      let workingOid ← Call.workingOid
      if notes = [] then do
        -- Nothing on the carrier: no store is created to record that.
        if (← Call.storeExists) = true then recordImported workingOid
        pure (some 0)
      else do
        match ← Call.store .openStore with
        | none => pure none
        | some _ => do
            match ← Call.store .contents with
            | none => pure none
            | some existing => do
                let toImport := absentNotes existing notes
                if toImport = [] then do
                  let _ ← Call.store (.setImported workingOid)
                  pure (some 0)
                else do
                  match ← Call.store (.importNotes toImport workingOid) with
                  | none => pure none
                  | some _ => pure (some toImport.length)

/-- Where a read goes. -/
inductive ReadRoute where
  /-- The carrier is the store. -/
  | gitNotes
  /-- A server is the store. -/
  | cloudFirst
  | memory
deriving DecidableEq, Repr

/-- The markers as recorded; a store that is not there has none. -/
def readMarker : CarrierProg NotesImportMarker := do
  if (← Call.storeExists) = true then do
    match ← Call.store .openStore with
    | none => pure ⟨none, none⟩
    | some _ => do
        let marker ← Call.store .importState
        pure (marker.getD ⟨none, none⟩)
  else pure ⟨none, none⟩

/-- Record the tracking ref's id in a store that can be opened. -/
def recordMerged (trackingOid : Option String) : CarrierProg Unit := do
  match ← Call.store .openStore with
  | none => pure ()
  | some _ => do
      let _ ← Call.store (.setMerged trackingOid)
      pure ()

/-- Merge if the tracking ref has moved since the last merge, and read the working
    ref's id again. -/
def mergeMoved (tracking working : Option String) (marker : NotesImportMarker) :
    CarrierProg (Option String) :=
  if tracking ≠ marker.lastMergedTrackingOid then do
    let _ ← mergeTrackingNotes
    Call.workingOid
  else pure working

/-- Import if the working ref has moved since the last import. -/
def importMoved (working : Option String) (marker : NotesImportMarker) : CarrierProg Unit :=
  if working ≠ marker.lastImportedWorkingOid then do
    let _ ← importCarrier
    pure ()
  else pure ()

/-- Bring the store up to date before a read, where a ref has moved since. -/
def refreshReadPath : ReadRoute → CarrierProg Unit
  | .gitNotes => do
      let _ ← mergeTrackingNotes
      pure ()
  | .cloudFirst => pure ()
  | .memory => do
      let tracking ← Call.trackingOid
      let working ← Call.workingOid
      if tracking = none ∧ working = none then pure ()
      else do
        let marker ← readMarker
        let working ← mergeMoved tracking working marker
        importMoved working marker
        -- The merge may have been skipped; the id is recorded all the same.
        if tracking ≠ marker.lastMergedTrackingOid then recordMerged tracking else pure ()

end Import

/-- Everything that happens on the carrier. -/
inductive CarrierCmd where
  | append (record : NoteRecord)
  | add (input : NoteInput)
  | archive (id : Int)
  | merge
  | publish (remote : String)
  | importNotes
  | refresh (route : ReadRoute)
  /-- The user fetches, or moves HEAD. -/
  | fetch (remote : String)
  | moveHead (head : Option String) (log : List String)

def CarrierCmd.Out : CarrierCmd → Type
  | .append _ => Except AppendError AppendOutcome
  | .add _ => Except AppendError (Int × Bool)
  | .archive _ => Except AppendError Bool
  | .merge => NotesMergeOutcome
  | .publish _ => Except String PublishOutcome
  | .importNotes => Option Nat
  | .refresh _ => Unit
  | .fetch _ => Bool
  | .moveHead _ _ => Unit

def CarrierCmd.prog [NoteJson] [Sha256] : (cmd : CarrierCmd) → CarrierProg cmd.Out
  | .append record => appendToGitNotes record
  | .add input => gitNotesAdd input
  | .archive id => archiveEntry id
  | .merge => mergeTrackingNotes
  | .publish remote => publishNotes remote
  | .importNotes => importCarrier
  | .refresh route => refreshReadPath route
  | .fetch remote => Call.fetch remote
  | .moveHead head log => Call.moveHead head log

/-- How the commands run on all machines. -/
def carrierMachinery [Git] [NoteJson] [Sha256] (M R : Type) [DecidableEq M] [DecidableEq R] :
    Machinery (ProcessId M) (World M R) CarrierOp CarrierOp.Res CarrierCmd CarrierCmd.Out where
  exec := CarrierOp.exec
  die := World.die
  prog := CarrierCmd.prog

/-- A call on the carrier as it happened. -/
abbrev CarrierEvent (M R : Type) : Type :=
  Lib.Event (ProcessId M) (World M R) CarrierOp CarrierOp.Res

/-- All machines with their processes. -/
abbrev CarrierConfig (M R : Type) : Type :=
  Lib.Config (ProcessId M) (World M R) CarrierOp CarrierOp.Res CarrierCmd.Out

end Spelunk
