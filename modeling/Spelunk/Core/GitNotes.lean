import Mathlib.Data.List.Sort
import Spelunk.Core.Csv
import Spelunk.Core.Fold
import Spelunk.Lib.Utf8

/-!
# The Git-Notes Carrier

Memory entries travel as git notes: the note on a commit is a text of JSON
lines, one record a line, possibly with foreign lines between them. Readers list
the notes of the commits reachable from HEAD, parse the lines they know, fold
the copies of each entity and filter the result.

JSON is read and written by a library, so both directions are parameters
(`NoteJson`) and what is relied on of them is a hypothesis where it is used.

## Main definitions

* `NoteJson`: The JSON library.
* `NotesTree`: The notes ref's content.
* `NotesRepo`: What git answers a reader.
* `parseRecords`: The records of one note.
* `foldedRecords`: Every entity visible from HEAD.
* `recordInWindow`, `collect`, `listNotes`: What a listing keeps.
* `findFolded`, `getNote`: What the look-up of an id shows.
* `CleanLine`: A line as the JSON library writes one.
* `BatchError`: What the decoder fails with, and the overflow it dies of.
* `parseUsize`: `str::parse::<usize>`.
* `parseCatFileBatch`: The decoder.

## Theorems

* `lines_of_cleanLine`: A text of one line.
* `parseRecords_of_cleanLine`: A note of one record.
-/

namespace Spelunk

/-- The JSON library: a record to one line of text, and a trimmed line back if it
    is an object with the fields of a record. -/
class NoteJson where
  toLine : NoteRecord → String
  ofLine : String → Option NoteRecord

/-- The content of a notes ref: the note text of each annotated commit. -/
abbrev NotesTree := List (String × String)

/-- What git answers a reader: the notes ref, the commits reachable from HEAD,
    newest first, and which of the commands that ask for them fail. -/
structure NotesRepo where
  notes : NotesTree
  log : List String
  listFails : Bool
  logFails : Bool
  batchFails : Bool
deriving DecidableEq, Repr

/-- What a reader of the carrier fails with. -/
inductive CarrierError where
  /-- git itself failed. -/
  | git
  /-- A record of a newer schema. -/
  | schemaMismatch (found maxKnown : Nat)
deriving DecidableEq, Repr

/-- The text of an error. -/
def CarrierError.message : CarrierError → String
  | .git => "git cat-file --batch"
  | .schemaMismatch found maxKnown =>
      s!"schema version {found} is newer than max known {maxKnown}; upgrade spelunk"

/-- A line without the carriage return of a `\r\n` line end. -/
def stripCarriageReturn (l : List Char) : List Char :=
  if l.getLast? = some '\r' then l.dropLast else l

/-- The lines of a text, as `str::lines` cuts them: a final line end starts no
    line, and a carriage return counts as part of a line end only before one. -/
def lines (s : String) : List String :=
  let parts := s.toList.splitOn '\n'
  let last := match parts.getLast? with
    | some [] => []
    | last => last.toList
  (parts.dropLast.map stripCarriageReturn ++ last).map String.ofList

/-- The note of a commit, if it has one. -/
def NotesTree.note (tree : NotesTree) (commit : String) : Option String :=
  tree.lookup commit

/-- The noted commits reachable from HEAD with their notes, newest first. A
    listing or a log that fails is an empty answer, not an error. -/
def notedCommits (repo : NotesRepo) : List (String × String) :=
  if repo.listFails then []
  else if repo.notes = [] then []
  else if repo.logFails then []
  else repo.log.filterMap (fun commit => (repo.notes.note commit).map (fun blob => (commit, blob)))

section Records

variable [NoteJson]

/-- One line: a record, or foreign content. -/
def parseSpelunkLine (line : String) : Option NoteRecord :=
  let trimmed := trim line.toList
  if trimmed = [] then none else NoteJson.ofLine (String.ofList trimmed)

/-- The records among some lines. Foreign lines are skipped; a record of a newer
    schema is an error. -/
def parseLines : List String → Except CarrierError (List NoteRecord)
  | [] => .ok []
  | line :: rest =>
      match parseSpelunkLine line with
      | none => parseLines rest
      | some record =>
          if 1 < record.schemaVersion then .error (.schemaMismatch record.schemaVersion 1)
          else (parseLines rest).map (record :: ·)

/-- The records of one note. -/
def parseRecords (blob : String) : Except CarrierError (List NoteRecord) :=
  parseLines (lines blob)

/-- The records of several notes, in order. -/
def parseBlobs : List String → Except CarrierError (List NoteRecord)
  | [] => .ok []
  | blob :: rest =>
      match parseRecords blob with
      | .error e => .error e
      | .ok records => (parseBlobs rest).map (records ++ ·)

theorem parseBlobs_cons {blob : String} {blobs : List String} {records : List NoteRecord}
    (h : parseRecords blob = .ok records) :
    parseBlobs (blob :: blobs) = (parseBlobs blobs).map (records ++ ·) := by
  rw [parseBlobs.eq_2, h]

variable [Sha256]

/-- Every entity visible from HEAD, each folded into one record. -/
def foldedRecords (repo : NotesRepo) : Except CarrierError (List NoteRecord) :=
  let blobs := (notedCommits repo).map (·.2)
  if blobs ≠ [] ∧ repo.batchFails then .error .git
  else (parseBlobs blobs).map foldRecords

theorem foldedRecords_of_parsed {repo : NotesRepo} (hrepo : repo.batchFails = false)
    {blobs : List String} (hblobs : (notedCommits repo).map (·.2) = blobs)
    {records folded : List NoteRecord} (hparsed : parseBlobs blobs = .ok records)
    (hfold : foldRecords records = folded) : foldedRecords repo = .ok folded := by
  unfold foldedRecords
  simp only [hblobs, hrepo, hparsed, Bool.false_eq_true, and_false, if_false, Except.map, hfold]

end Records

/-- A text of one line with nothing to trim. -/
structure CleanLine (s : String) : Prop where
  ne_nil : s.toList ≠ []
  no_newline : '\n' ∉ s.toList
  trimmed : trim s.toList = s.toList

/-- Such a text is its own only line. -/
theorem lines_of_cleanLine {s : String} (h : CleanLine s) : lines s = [s] := by
  unfold lines
  rw [List.splitOn_eq_singleton h.no_newline]
  rcases hs : s.toList with _ | ⟨c, l⟩
  · exact absurd hs h.ne_nil
  · simp only [List.getLast?_singleton, List.dropLast_singleton, List.map_nil, List.nil_append,
      Option.toList_some, List.map_cons]
    rw [← hs, String.ofList_toList]

section CleanLines

variable [NoteJson] {s : String}

theorem parseSpelunkLine_of_cleanLine (h : CleanLine s) :
    parseSpelunkLine s = NoteJson.ofLine s := by
  simp only [parseSpelunkLine, h.trimmed, if_neg h.ne_nil, String.ofList_toList]

/-- A note of one record. -/
theorem parseRecords_of_cleanLine (h : CleanLine s) {r : NoteRecord}
    (hr : NoteJson.ofLine s = some r) (hv : r.schemaVersion ≤ 1) : parseRecords s = .ok [r] := by
  rw [parseRecords, lines_of_cleanLine h, parseLines, parseSpelunkLine_of_cleanLine h, hr]
  simp only [if_neg (Nat.not_lt.mpr hv), parseLines]
  rfl

end CleanLines

/-- A record as the commands see it. Its ids are the ones of the machine that
    wrote it. -/
structure CarrierNote where
  id : Int
  kind : String
  title : String
  body : String
  tags : List String
  linkedFiles : List String
  createdAt : Int
  status : String
  supersededBy : Option Int
  sourceRef : Option String
  validAt : Option Int
  invalidAt : Option Int
  remoteId : Option String
deriving DecidableEq, Repr

def recordToNote (r : NoteRecord) : CarrierNote where
  id := r.id
  kind := r.kind
  title := r.title
  body := r.body
  tags := r.tags
  linkedFiles := r.linkedFiles
  createdAt := r.createdAt
  status := r.status
  supersededBy := r.supersededBy
  sourceRef := r.sourceRef
  validAt := r.validAt
  invalidAt := r.invalidAt
  remoteId := r.remoteId

/-- The content identity of a note. -/
def CarrierNote.entityId [Sha256] (n : CarrierNote) : String :=
  Spelunk.entityId n.kind n.title n.body

/-- Whether a record passes the archived gate, or, for a point in time, the
    window of its validity. -/
def recordInWindow (record : NoteRecord) (includeArchived : Bool) : Option Int → Bool
  | some ts =>
      record.validAt.getD record.createdAt ≤ ts ∧ ¬ record.invalidAt.any (· ≤ ts)
  | none => includeArchived ∨ record.status ≠ "archived"

/-- The newest entries a listing keeps, oldest first; of equal age the later one
    in the fold counts as newer. -/
def collect (kindFilter : Option String) (includeArchived : Bool) (asOf : Option Int) (limit : Nat)
    (folded : List NoteRecord) : List CarrierNote :=
  let kept := folded.filter (fun r =>
    (kindFilter = none ∨ kindFilter = some r.kind) ∧ recordInWindow r includeArchived asOf)
  let sorted := kept.insertionSort (fun a b => a.createdAt ≤ b.createdAt)
  (sorted.drop (sorted.length - limit)).map recordToNote

/-- Cap on the entries a listing returns. -/
def gitNotesMaxList : Nat := 500

/-- `GitNotesBackend::list`. -/
def listNotes [NoteJson] [Sha256] (repo : NotesRepo) (kindFilter : Option String) (limit : Nat)
    (includeArchived : Bool) (asOf : Option Int) : Except CarrierError (List CarrierNote) :=
  (foldedRecords repo).map
    (collect kindFilter includeArchived asOf (min limit gitNotesMaxList))

/-- The folded record with this id. -/
def findFolded [NoteJson] [Sha256] (repo : NotesRepo) (id : Int) :
    Except CarrierError (Option NoteRecord) :=
  (foldedRecords repo).map (·.find? (fun r => r.id = id))

/-- `GitNotesBackend::get`. -/
def getNote [NoteJson] [Sha256] (repo : NotesRepo) (id : Int) :
    Except CarrierError (Option CarrierNote) :=
  (findFolded repo id).map (·.map recordToNote)

end Spelunk

namespace Spelunk

open Lib.Utf8 (fromUtf8Lossy)

/-! ### Reading Many Notes at Once

What `git cat-file --batch` answers is one byte string: for each object that was
asked for a header line and, where the header has three words, the body and one
byte after it. The third word is the size of the body, and only it says where the
body ends.

A `usize` has 64 bits. The sum of a size and one is a checked addition, so the
largest size that the header can name ends the program.
-/

def newline : UInt8 := 0x0A

def space : UInt8 := 0x20

/-- Every `usize` lies below this. -/
def usizeBound : ℕ := 2 ^ 64

/-- What ends the decoding. All but `overflow` are errors that it returns. -/
inductive BatchError where
  | headerWithNoNewline
  | badSize (header : String)
  | truncatedBody
  | unexpectedHeader (header : String)
  /-- The size and one is no `usize`. -/
  | overflow
deriving DecidableEq, Repr

/-- `str::parse::<usize>`: digits, possibly after one plus sign, of a number that a
    `usize` holds. -/
def parseUsize (s : List Char) : Option ℕ :=
  let digits := if s.head? = some '+' then s.tail else s
  if digits = [] ∨ ¬ digits.all Char.isDigit then none
  else
    let n := Nat.ofDigitChars 10 digits 0
    if n < usizeBound then some n else none

/-- Split the output of `git cat-file --batch` into one body per requested object. -/
def parseCatFileBatch (rest : List UInt8) : Except BatchError (List String) :=
  if rest = [] then .ok []
  else
    let header := fromUtf8Lossy (rest.takeWhile (· ≠ newline))
    match _h : rest.dropWhile (· ≠ newline) with
    | [] => .error .headerWithNoNewline
    | _ :: rest' =>
        match header.splitOn ' ' with
        -- "<sha> missing": no body follows.
        | [_, _] => (parseCatFileBatch rest').map ("" :: ·)
        | [_, _, size] =>
            match parseUsize size with
            | none => .error (.badSize (String.ofList header))
            | some size =>
                if usizeBound ≤ size + 1 then .error .overflow
                else if rest'.length < size + 1 then .error .truncatedBody
                else
                  (parseCatFileBatch (rest'.drop (size + 1))).map
                    (String.ofList (fromUtf8Lossy (rest'.take size)) :: ·)
        | _ => .error (.unexpectedHeader (String.ofList header))
termination_by rest.length
decreasing_by
  all_goals have hle := (List.dropWhile_suffix (l := rest) (· ≠ newline)).length_le
  all_goals rw [_h, List.length_cons] at hle
  · omega
  · rw [List.length_drop]
    omega

end Spelunk
