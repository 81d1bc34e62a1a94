import Spelunk.Core.GitNotes

/-!
# The Portable Dump

The dump file of `spelunk-export`: one JSON record a line, a header first, then the
entities and the relationships, and a footer with the counts of the records and the
digest of all lines before it. A reader of the file recomputes what the footer
claims and refuses the file as a whole where anything disagrees.

The JSON library is a parameter: `DumpCodec` prints a value and reads a line as a
value, a header or a footer. What the records serialize to is spelled out.

The file is put in place by a verified write: a sibling temporary, created
exclusively, is written, read back, verified and renamed, over a file system in which
every step may fail.

## Main definitions

* `MemoryEntry`, `DumpProject`, `CommandUsage`, `Relationship`, `Dump`: What is written.
* `Dump.render`: The text, its digests and its footer.
* `verifyRendered`: The reader.
* `writeVerified`: The verified write.
-/

namespace Spelunk

/-- A JSON value; the members of an object in their order. -/
inductive JsonValue where
  | null
  | bool (b : Bool)
  | num (n : ℤ)
  | float (text : String)
  | str (s : String)
  | arr (items : List JsonValue)
  | obj (members : List (String × JsonValue))

namespace JsonValue

/-- `value.get(key)`: of an object, the last member under the key. -/
def get (key : String) : JsonValue → Option JsonValue
  | .obj members => (members.reverse.find? (·.1 = key)).map Prod.snd
  | _ => none

def asStr : JsonValue → Option String
  | .str s => some s
  | _ => none

/-- A member that is a string. -/
def getStr (key : String) (v : JsonValue) : Option String := (v.get key).bind asStr

end JsonValue

def dumpFormat : String := "portable-dump"

def dumpFormatVersion : ℕ := 1

/-- The name and the version of the crate. -/
def generatorName : String := "spelunk-export/0.9.9"

/-! ### Records -/

structure DumpHeader where
  record : String
  format : String
  formatVersion : ℕ
  generatedAt : ℤ
  generator : String
deriving DecidableEq

def DumpHeader.new (generatedAt : ℤ) : DumpHeader where
  record := "header"
  format := dumpFormat
  formatVersion := dumpFormatVersion
  generatedAt := generatedAt
  generator := generatorName

def DumpHeader.toJson (h : DumpHeader) : JsonValue :=
  .obj [("record", .str h.record), ("format", .str h.format),
    ("format_version", .num h.formatVersion), ("generated_at", .num h.generatedAt),
    ("generator", .str h.generator)]

/-- A member that is left out when there is no value. -/
def optional {α : Type} (key : String) (toJson : α → JsonValue) :
    Option α → List (String × JsonValue)
  | some a => [(key, toJson a)]
  | none => []

/-- A list of strings that is left out when it is empty. -/
def optionalList (key : String) : List String → List (String × JsonValue)
  | [] => []
  | items => [(key, .arr (items.map .str))]

/-- A memory entry. Whatever builds one writes `entity` into `record`. -/
structure MemoryEntry where
  record : String
  kindTag : String
  reference : String
  uuid : Option String
  kind : String
  title : String
  body : String
  tags : List String
  linkedFiles : List String
  createdAt : ℤ
  status : Option String
  sourceRef : Option String
  validAt : Option ℤ
  invalidAt : Option ℤ
  entityId : Option String
  remoteId : Option String
  ns : Option String
  isEntity : record = "entity"
deriving DecidableEq

def MemoryEntry.toJson (e : MemoryEntry) : JsonValue :=
  .obj ([("record", .str e.record), ("type", .str e.kindTag), ("ref", .str e.reference)] ++
    optional "uuid" .str e.uuid ++
    [("kind", .str e.kind), ("title", .str e.title), ("body", .str e.body)] ++
    optionalList "tags" e.tags ++ optionalList "linked_files" e.linkedFiles ++
    [("created_at", .num e.createdAt)] ++
    optional "status" .str e.status ++ optional "source_ref" .str e.sourceRef ++
    optional "valid_at" .num e.validAt ++ optional "invalid_at" .num e.invalidAt ++
    optional "entity_id" .str e.entityId ++ optional "remote_id" .str e.remoteId ++
    optional "namespace" .str e.ns)

/-- A registered project. -/
structure DumpProject where
  record : String
  kindTag : String
  reference : String
  rootPath : String
  registeredAt : Option ℤ
  isEntity : record = "entity"
deriving DecidableEq

def DumpProject.toJson (p : DumpProject) : JsonValue :=
  .obj ([("record", .str p.record), ("type", .str p.kindTag), ("ref", .str p.reference),
    ("root_path", .str p.rootPath)] ++ optional "registered_at" .num p.registeredAt)

/-- One recorded command invocation. -/
structure CommandUsage where
  record : String
  kindTag : String
  reference : String
  command : String
  usedAt : ℤ
  isEntity : record = "entity"
deriving DecidableEq

def CommandUsage.toJson (u : CommandUsage) : JsonValue :=
  .obj [("record", .str u.record), ("type", .str u.kindTag), ("ref", .str u.reference),
    ("command", .str u.command), ("at", .num u.usedAt)]

/-- A link between two entities, by their references. -/
structure Relationship where
  record : String
  kindTag : String
  fromRef : String
  toRef : String
  createdAt : Option ℤ
  isRelationship : record = "relationship"
deriving DecidableEq

def Relationship.new (kind fromRef toRef : String) (createdAt : Option ℤ) : Relationship where
  record := "relationship"
  kindTag := kind
  fromRef := fromRef
  toRef := toRef
  createdAt := createdAt
  isRelationship := rfl

def Relationship.toJson (r : Relationship) : JsonValue :=
  .obj ([("record", .str r.record), ("type", .str r.kindTag), ("from", .str r.fromRef),
    ("to", .str r.toRef)] ++ optional "created_at" .num r.createdAt)

/-- A count of one more of a kind, in a map in the order of its keys. -/
def addCount (kind : String) : List (String × ℕ) → List (String × ℕ)
  | [] => [(kind, 1)]
  | (k, n) :: rest =>
      if k = kind then (k, n + 1) :: rest
      else if kind < k then (kind, 1) :: (k, n) :: rest
      else (k, n) :: addCount kind rest

structure Counts where
  entity : List (String × ℕ)
  relationship : List (String × ℕ)
deriving DecidableEq, Repr

namespace Counts

def zero : Counts := ⟨[], []⟩

def addEntity (kind : String) (c : Counts) : Counts := { c with entity := addCount kind c.entity }

def addRelationship (kind : String) (c : Counts) : Counts :=
  { c with relationship := addCount kind c.relationship }

def mapJson (m : List (String × ℕ)) : JsonValue := .obj (m.map fun p => (p.1, .num p.2))

def toJson (c : Counts) : JsonValue :=
  .obj [("entity", mapJson c.entity), ("relationship", mapJson c.relationship)]

end Counts

structure DumpFooter where
  record : String
  counts : Counts
  digest : String
deriving DecidableEq

def DumpFooter.toJson (f : DumpFooter) : JsonValue :=
  .obj [("record", .str f.record), ("counts", f.counts.toJson), ("digest", .str f.digest)]

/-- Everything one dump carries, in the order it is written. -/
structure Dump where
  entries : List MemoryEntry
  projects : List DumpProject
  usage : List CommandUsage
  relationships : List Relationship

namespace Dump

def counts (d : Dump) : Counts :=
  let c := d.entries.foldl (fun c e => c.addEntity e.kindTag) .zero
  let c := d.projects.foldl (fun c p => c.addEntity p.kindTag) c
  let c := d.usage.foldl (fun c u => c.addEntity u.kindTag) c
  d.relationships.foldl (fun c r => c.addRelationship r.kindTag) c

/-- The references of the entities. -/
def references (d : Dump) : List String :=
  d.entries.map MemoryEntry.reference ++ d.projects.map DumpProject.reference ++
    d.usage.map CommandUsage.reference

/-- What the records after the header serialize to. -/
def recordValues (d : Dump) : List JsonValue :=
  d.entries.map MemoryEntry.toJson ++ d.projects.map DumpProject.toJson ++
    d.usage.map CommandUsage.toJson ++ d.relationships.map Relationship.toJson

end Dump

/-! ### Text -/

/-- `serde_json`, as far as the dump uses it. -/
structure DumpCodec where
  print : JsonValue → String
  value : String → Except String JsonValue
  header : String → Except String DumpHeader
  footer : String → Except String DumpFooter

section Text

variable [Sha256] (codec : DumpCodec)

/-- `Digester::finish`. -/
def finishDigest (perRecord : List String) : String :=
  "sha256:" ++ Sha256.hexDigest (String.join perRecord)

/-- What `render` returns. -/
structure Rendered where
  text : String
  perRecord : List String
  footer : DumpFooter

/-- A line with its end, for each line. -/
def withLineEnds (lines : List String) : String :=
  String.ofList (lines.flatMap fun line => line.toList ++ ['\n'])

namespace Dump

/-- The lines before the footer. -/
def recordLines (d : Dump) (generatedAt : ℤ) : List String :=
  codec.print (DumpHeader.new generatedAt).toJson :: d.recordValues.map codec.print

def footer (d : Dump) (generatedAt : ℤ) : DumpFooter where
  record := "footer"
  counts := d.counts
  digest := finishDigest ((d.recordLines codec generatedAt).map Sha256.hexDigest)

def render (d : Dump) (generatedAt : ℤ) : Rendered where
  text := withLineEnds (d.recordLines codec generatedAt ++
    [codec.print (d.footer codec generatedAt).toJson])
  perRecord := (d.recordLines codec generatedAt).map Sha256.hexDigest
  footer := d.footer codec generatedAt

end Dump

/-- Why a dump is refused. -/
inductive DumpError where
  | empty
  | unreadableHeader (e : String)
  | notAHeader (record : String)
  | unknownFormat (format : String)
  | unsupportedVersion (version : ℕ)
  | recordsFollowFooter
  | unreadableRecord (e : String)
  | unreadableFooter (e : String)
  | entityWithoutType
  | entityWithoutRef
  | relationshipWithoutType
  | relationshipWithoutEnd (which : String)
  | unknownRecordKind (kind : Option String)
  | noFooter
  | countsMismatch
  | digestMismatch
  | sharedReference (reference : String)
  | danglingEndpoint (reference : String)
deriving DecidableEq, Repr

/-- The text of a refusal. The kind of an unknown record stands in it as it is. -/
def DumpError.message : DumpError → String
  | .empty => "dump is empty: expected a header record"
  | .unreadableHeader e => s!"unreadable header: {e}"
  | .notAHeader record => s!"first record is '{record}', expected 'header'"
  | .unknownFormat format => s!"unknown dump format '{format}'"
  | .unsupportedVersion version =>
      s!"dump format version {version} is not supported by this build (supports 1)"
  | .recordsFollowFooter => "records follow the footer; the dump is not whole"
  | .unreadableRecord e => s!"unreadable record: {e}"
  | .unreadableFooter e => e
  | .entityWithoutType => "entity record without a type"
  | .entityWithoutRef => "entity record without a ref"
  | .relationshipWithoutType => "relationship record without a type"
  | .relationshipWithoutEnd which => s!"relationship record without a '{which}'"
  | .unknownRecordKind none => "unknown record kind None"
  | .unknownRecordKind (some kind) => s!"unknown record kind Some(\"{kind}\")"
  | .noFooter => "dump has no footer; it is truncated"
  | .countsMismatch => "footer counts do not match the records present"
  | .digestMismatch => "dump digest does not match its contents"
  | .sharedReference reference => s!"two entities share the reference '{reference}'"
  | .danglingEndpoint reference =>
      s!"a relationship names '{reference}', which is not an entity in this dump"

/-- What the reader has gathered so far. -/
structure DumpReading where
  perRecord : List String
  counts : Counts
  footer : Option DumpFooter
  refs : List String
  endpoints : List String

/-- One line after the header. -/
def readRecord (s : DumpReading) (line : String) : Except DumpError DumpReading :=
  if s.footer.isSome then .error .recordsFollowFooter
  else match codec.value line with
    | .error e => .error (.unreadableRecord e)
    | .ok value =>
        match value.getStr "record" with
        | some "footer" =>
            match codec.footer line with
            | .error e => .error (.unreadableFooter e)
            | .ok footer => .ok { s with footer := some footer }
        | some "entity" =>
            match value.getStr "type" with
            | none => .error .entityWithoutType
            | some t =>
                match value.getStr "ref" with
                | none => .error .entityWithoutRef
                | some reference =>
                    .ok { s with
                      refs := s.refs ++ [reference]
                      counts := s.counts.addEntity t
                      perRecord := s.perRecord ++ [Sha256.hexDigest line] }
        | some "relationship" =>
            match value.getStr "type" with
            | none => .error .relationshipWithoutType
            | some t =>
                match value.getStr "from" with
                | none => .error (.relationshipWithoutEnd "from")
                | some source =>
                    match value.getStr "to" with
                    | none => .error (.relationshipWithoutEnd "to")
                    | some target =>
                        .ok { s with
                          endpoints := s.endpoints ++ [source, target]
                          counts := s.counts.addRelationship t
                          perRecord := s.perRecord ++ [Sha256.hexDigest line] }
        | other => .error (.unknownRecordKind other)

/-- The lines after the header. -/
def readRecords (s : DumpReading) : List String → Except DumpError DumpReading
  | [] => .ok s
  | line :: rest =>
      match readRecord codec s line with
      | .error e => .error e
      | .ok s => readRecords s rest

/-- The first of the references that stands among those before it. -/
def firstShared (seen : List String) : List String → Option String
  | [] => none
  | r :: rest => if r ∈ seen then some r else firstShared (r :: seen) rest

structure ReadBack where
  perRecord : List String
  counts : Counts
deriving DecidableEq, Repr

/-- What is checked once all lines are read. -/
def checkReading (s : DumpReading) : Except DumpError ReadBack :=
  match s.footer with
  | none => .error .noFooter
  | some footer =>
      if footer.counts ≠ s.counts then .error .countsMismatch
      else if footer.digest ≠ finishDigest s.perRecord then .error .digestMismatch
      else match firstShared [] s.refs with
        | some r => .error (.sharedReference r)
        | none =>
            match s.endpoints.find? (· ∉ s.refs) with
            | some r => .error (.danglingEndpoint r)
            | none => .ok ⟨s.perRecord, s.counts⟩

/-- The header line. -/
def checkHeader (line : String) : Except DumpError Unit :=
  match codec.header line with
  | .error e => .error (.unreadableHeader e)
  | .ok header =>
      if header.record ≠ "header" then .error (.notAHeader header.record)
      else if header.format ≠ dumpFormat then .error (.unknownFormat header.format)
      else if header.formatVersion ≠ dumpFormatVersion then
        .error (.unsupportedVersion header.formatVersion)
      else .ok ()

/-- `verify_rendered`. -/
def verifyRendered (text : String) : Except DumpError ReadBack :=
  match lines text with
  | [] => .error .empty
  | headerLine :: rest =>
      match checkHeader codec headerLine with
      | .error e => .error e
      | .ok () =>
          match readRecords codec ⟨[Sha256.hexDigest headerLine], .zero, none, [], []⟩ rest with
          | .error e => .error e
          | .ok s => checkReading s

end Text

/-! ### The verified write -/

/-- A path, by its last component, where that is a name. -/
structure FilePath where
  parent : List String
  name : Option String
deriving DecidableEq, Repr

/-- `file_stem`: the name up to its last dot, unless that is its first character. -/
def fileStem (name : String) : String :=
  let before := (name.toList.reverse.dropWhile (· ≠ '.')).tail.reverse
  if before = [] then name else String.ofList before

def FilePath.withExtension (extension : String) (p : FilePath) : FilePath :=
  { p with name := p.name.map fun n => fileStem n ++ "." ++ extension }

/-- What a path may lead to. -/
inductive FileNode where
  | file (bytes : ByteArray)
  | directory

abbrev FileTree := FilePath → Option FileNode

def FileTree.put (fs : FileTree) (p : FilePath) (node : Option FileNode) : FileTree :=
  fun q => if q = p then node else fs q

/-- Which steps fail: the creation for another reason than a file in the way, the writing after
    some bytes, the reading back, the renaming, the removal of the temporary. -/
structure WriteFaults where
  create : Bool
  write : Option ByteArray
  readBack : Bool
  rename : Bool
  remove : Bool

inductive WriteError where
  | alreadyExists
  | creating
  | writing
  | readingBack
  | refused (e : DumpError)
  | notTheStore
  | moving
deriving DecidableEq, Repr

section Write

variable [Sha256] (codec : DumpCodec)

/-- The file at the temporary path goes, unless the removal fails, which nobody looks at. -/
def removeTemp (faults : WriteFaults) (temp : FilePath) (fs : FileTree) : FileTree :=
  if faults.remove then fs else fs.put temp none

/-- Read the temporary back and check it. -/
def checkWritten (expected : List String) (faults : WriteFaults) (temp : FilePath)
    (fs : FileTree) : Except WriteError Unit :=
  if faults.readBack then .error .readingBack
  else match fs temp with
    | some (.file bytes) =>
        match String.fromUTF8? bytes with
        | none => .error .readingBack
        | some written =>
            match verifyRendered codec written with
            | .error e => .error (.refused e)
            | .ok readBack =>
                if readBack.perRecord ≠ expected then .error .notTheStore else .ok ()
    | _ => .error .readingBack

/-- `rename`: onto a file or nothing; a directory in the way is an error. -/
def renameFile (faults : WriteFaults) (source target : FilePath) (fs : FileTree) :
    Option FileTree :=
  if faults.rename then none
  else match fs target with
    | some .directory => none
    | _ => some ((fs.put source none).put target (fs source))

/-- `write_verified`. -/
def writeVerified (text : String) (expected : List String) (out : FilePath) (faults : WriteFaults)
    (fs : FileTree) : FileTree × Except WriteError Unit :=
  let temp := out.withExtension "partial"
  if (fs temp).isSome then (fs, .error .alreadyExists)
  else if faults.create then (fs, .error .creating)
  else match faults.write with
    | some written =>
        (removeTemp faults temp (fs.put temp (some (.file written))), .error .writing)
    | none =>
        let fs := fs.put temp (some (.file text.toUTF8))
        match checkWritten codec expected faults temp fs with
        | .error e => (removeTemp faults temp fs, .error e)
        | .ok () =>
            match renameFile faults temp out fs with
            | none => (fs, .error .moving)
            | some fs => (fs, .ok ())

end Write

end Spelunk
