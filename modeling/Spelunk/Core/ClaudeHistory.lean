import Mathlib.Data.Int.Notation
import Spelunk.Core.HarvestRun
import Spelunk.Core.HybridSearch

/-!
# The Sessions of a History

What a harvest of the Claude Code history sends: of all sessions in the file those of this
repository that are new and have no secret, each as one text. The loop over them is that of
every harvest.

How a line is read as an entry, and a date as a time, are arguments; so are what the store
reports as harvested and the order of the hash map of sessions. A harvest that ends with an
error or a message before the loop sends nothing, and so has no sessions here.

## Main definitions

* `HistoryEntry`: A line of the file.
* `RepoRoot`: The root of the repository, in canonical form.
* `ClaudeHarvest`: What a harvest is given.
* `ClaudeHarvest.newSessions`: What it sends.
* `MemoryDb.harvestedShas`: What the local database reports.
-/

namespace Spelunk

/-- `ClaudeHistoryEntry`: the texts that were pasted are in the order of their hash map. -/
structure HistoryEntry where
  display : String
  pastedContents : List String
  timestamp : ℤ
  project : String
  sessionId : String
deriving DecidableEq, Repr

/-- A canonical directory, by the names on the way to it. -/
structure RepoRoot where
  names : List (List Char)
  proper : ∀ name ∈ names, name ≠ [] ∧ '/' ∉ name ∧ name ≠ ['.'] ∧ name ≠ ['.', '.']

def RepoRoot.text (root : RepoRoot) : List Char :=
  if root.names = [] then ['/'] else root.names.flatMap ('/' :: ·)

/-- The seconds that a date of the calendar can stand for. -/
structure EpochSeconds where
  secs : ℤ
  inRange : -8334601228800 ≤ secs ∧ secs ≤ 8210266876799

/-- The texts of an entry that are not empty. -/
def HistoryEntry.parts (e : HistoryEntry) : List String :=
  (e.display :: e.pastedContents).filter fun s => s ≠ ""

/-- The text of a session. -/
def combinedText (entries : List HistoryEntry) : String :=
  "\n\n".intercalate (entries.flatMap HistoryEntry.parts)

def sessionCap : ℕ := 16000

def capText (combined : String) : String :=
  if sessionCap < combined.utf8ByteSize then
    String.ofList (floorCharBoundary sessionCap combined.toList) ++ "\n\n[...truncated]"
  else combined

def sessionKey (sessionId : String) : String := "claude-code:" ++ sessionId

/-- What a harvest is given: whether there is a model, the flags, the file, if it can be read, and
    what the store reports as harvested, if it does. -/
structure ClaudeHarvest where
  llm : Bool
  confirm : Bool
  history : Option String
  repoRoot : RepoRoot
  since : Option String
  knownRefs : Option (List String)
  batchSize : ℕ

namespace ClaudeHarvest

section Collect

variable (parseAsOf : String → Option EpochSeconds) (parseLine : List Char → Option HistoryEntry)
  (h : ClaudeHarvest)

/-- The threshold in milliseconds, if the date can be read. -/
def sinceMs : Option ℤ :=
  match h.since with
  | none => some 0
  | some s => (parseAsOf s).map fun t => t.secs * 1000

/-- The entries of the file, in its order; a line that is blank or no entry is left out. -/
def entries : List HistoryEntry :=
  ((h.history.elim [] lines).map fun line => trim line.toList).filterMap fun line =>
    if line = [] then none else parseLine line

/-- An entry is of this repository, and not too old. -/
def keeps (threshold : ℤ) (e : HistoryEntry) : Bool :=
  !decide (e.timestamp < threshold) && h.repoRoot.text.isPrefixOf e.project.toList

/-- The sessions by their ids, in the order in which they are met. -/
def sessions (threshold : ℤ) : List (String × List HistoryEntry) :=
  Lib.groupBy HistoryEntry.sessionId ((h.entries parseLine).filter (h.keeps threshold))

variable [SecretScan]

/-- What becomes of a session: `none` where it is skipped. -/
def sessionOf (known : List String) (p : String × List HistoryEntry) : Option ClaudeSession :=
  if sessionKey p.1 ∈ known then none
  else if containsSecret (combinedText p.2) then none
  else if trim (combinedText p.2).toList = [] then none
  else some ⟨p.1, capText (combinedText p.2)⟩

variable (order : IterationOrder (String × List HistoryEntry))

/-- The sessions that are sent. -/
def newSessions : List ClaudeSession :=
  if h.llm && h.confirm then
    match h.sinceMs parseAsOf, h.knownRefs with
    | some threshold, some known =>
      (order.of (h.sessions parseLine threshold)).filterMap (sessionOf known)
    | _, _ => []
  else []

/-- `harvest_claude_code`. -/
def harvestClaudeCode (fromStr : List Char → Option (List ReplyEntry)) (world : HarvestWorld) :
    HarvestRun ClaudeSession :=
  harvestBatches fromStr claudeTask world
    ((h.newSessions parseAsOf parseLine order).toChunks (max h.batchSize 1)) .start

end Collect

end ClaudeHarvest

/-- The references among the tags of a row, as older versions wrote them. -/
def legacyShas (tags : Option String) : List String :=
  (((tags.getD "").toList.splitOn ',').map trim).filterMap fun tag =>
    if "git:".toList.isPrefixOf tag then some (String.ofList (tag.drop 4)) else none

/-- `harvested_shas` of the local database. -/
def MemoryDb.harvestedShas (db : MemoryDb) : List String :=
  db.notes.filterMap NoteRow.sourceRef ++ db.notes.flatMap fun r => legacyShas r.tags

end Spelunk
