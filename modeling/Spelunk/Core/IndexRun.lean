import Mathlib.Data.List.Nodup

/-!
# A Run of the Indexer

`spelunk index` in two phases. The parse phase cuts the new and changed files into
chunks, or all of them with `--force`, and removes the files that are gone; the embed
phase gives the chunks without a vector one. Beside every chunk stands what a reader of
the database cannot see, the chunker config it was cut under, and for a vector the model
it comes from. The database itself records one of each: the model where vectors are
written first, the config there too and at the end of a forced parse.

What a file gives is part of the tree: whether it can be read, its hash, and how many
chunks the build cuts it into, those with a secret in them left out. How far the embed
phase comes is an argument.

## Main definitions

* `CodeIndex`: The database.
* `SourceTree`: The files of a walk.
* `runParsePhase`, `runEmbedPhase`: The two phases.
* `index`: A run.
-/

namespace Spelunk

/-- A stored chunk. -/
structure CodeChunk where
  cutUnder : String
  vector : Option String
deriving DecidableEq, Repr

/-- A stored file with its chunks. -/
structure IndexedFile where
  path : String
  hash : String
  chunks : List CodeChunk
deriving DecidableEq, Repr

/-- An `index.db` with its two stamps. -/
structure CodeIndex where
  files : List IndexedFile
  embeddingModel : Option String
  chunkerConfig : Option String
deriving DecidableEq, Repr

def CodeIndex.empty : CodeIndex := { files := [], embeddingModel := none, chunkerConfig := none }

/-- The formats with a branch of their own. -/
inductive FileFormat where
  | doc
  | pdf
  | text
deriving DecidableEq, Repr

/-- What reading a file gives. -/
inductive FileContent where
  | binary
  | tooLarge
  | unreadable
  /-- The hash, and the number of chunks; `none` where the file does not parse. -/
  | read (hash : String) (chunks : Option Nat)
deriving DecidableEq, Repr

structure TreeFile where
  path : String
  format : FileFormat
  content : FileContent
deriving DecidableEq, Repr

/-- The files of a walk, each once. -/
structure SourceTree where
  files : List TreeFile
  nodup : (files.map (·.path)).Nodup

/-- A build with its model and its chunker config. -/
structure IndexBuild where
  model : String
  config : String
deriving DecidableEq, Repr

/-- The hash that lets the file be passed over: a text file needs a chunk beside it. -/
def upToDate (format : FileFormat) (hash : String) (stored : Option IndexedFile) : Bool :=
  match stored with
  | none => false
  | some f => f.hash = hash && (format != .text || f.chunks != [])

/-- The hash and the number of the chunks a file is cut into, if it is. -/
def TreeFile.cut (t : TreeFile) (force : Bool) (stored : Option IndexedFile) :
    Option (String × Nat) :=
  match t.content with
  | .read hash chunks =>
      if !force && upToDate t.format hash stored then none
      else
        match t.format, chunks with
        | .doc, n => some (hash, n.getD 0)
        | _, n => n.map (fun n => (hash, n))
  | _ => none

/-- The row of a file that is cut anew. -/
def freshFile (path config hash : String) (n : Nat) : IndexedFile :=
  { path := path, hash := hash,
    chunks := List.replicate n { cutUnder := config, vector := none } }

/-- The row of a path replaced, or added. -/
def upsertFile (files : List IndexedFile) (f : IndexedFile) : List IndexedFile :=
  files.filter (fun g => g.path ≠ f.path) ++ [f]

/-- One file of the walk. -/
def processFile (config : String) (force : Bool) (files : List IndexedFile) (t : TreeFile) :
    List IndexedFile :=
  match t.cut force (files.find? (fun f => f.path = t.path)) with
  | none => files
  | some (hash, n) => upsertFile files (freshFile t.path config hash n)

/-- Remove the files that the walk does not have. -/
def cleanupStale (tree : List TreeFile) (files : List IndexedFile) : List IndexedFile :=
  files.filter (fun f => f.path ∈ tree.map (·.path))

/-- The parse phase; a walk without files ends it at once. -/
def runParsePhase (build : IndexBuild) (force : Bool) (tree : SourceTree) (s : CodeIndex) :
    CodeIndex :=
  if tree.files = [] then s
  else
    { s with
      files := cleanupStale tree.files
        (tree.files.foldl (processFile build.config force) s.files)
      chunkerConfig := if force then some build.config else s.chunkerConfig }

/-- Whether the chunk waits for its vector. -/
def CodeChunk.missing (ch : CodeChunk) : Bool := ch.vector.isNone

/-- Whether there is a chunk to embed; a walk without files leaves the queue empty. -/
def embedQueued (tree : SourceTree) (s : CodeIndex) : Bool :=
  tree.files ≠ [] && s.files.any (fun f => f.chunks.any CodeChunk.missing)

/-- The vectors that are written, by path and place of the chunk. -/
def embedFile (model : String) (served : String → Nat → Bool) (f : IndexedFile) : IndexedFile :=
  { f with
    chunks := f.chunks.zipIdx.map (fun p =>
      if p.1.missing && served f.path p.2 then { p.1 with vector := some model } else p.1) }

/-- How a run ends: the embed phase may refuse the model, and warns of another config. -/
inductive IndexOutcome where
  | finished (warned : Bool)
  | refused
deriving DecidableEq, Repr

/-- The embed phase: the model has to be the recorded one, the config is compared. -/
def runEmbedPhase (build : IndexBuild) (served : String → Nat → Bool) (s : CodeIndex) :
    IndexOutcome × CodeIndex :=
  if s.embeddingModel ≠ none ∧ s.embeddingModel ≠ some build.model then (.refused, s)
  else
    (.finished (s.chunkerConfig ≠ none && s.chunkerConfig ≠ some build.config),
      { files := s.files.map (embedFile build.model served)
        embeddingModel := some build.model
        chunkerConfig := some (s.chunkerConfig.getD build.config) })

/-- A run to its end. -/
def index (build : IndexBuild) (force : Bool) (tree : SourceTree) (embedReady : Bool)
    (served : String → Nat → Bool) (s : CodeIndex) : IndexOutcome × CodeIndex :=
  let parsed := runParsePhase build force tree s
  if ¬ embedQueued tree parsed then (.finished false, parsed)
  else if embedReady then runEmbedPhase build served parsed
  else (.finished false, parsed)

end Spelunk
