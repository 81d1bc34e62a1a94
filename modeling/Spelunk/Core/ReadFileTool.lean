import Mathlib.Data.List.Infix
import Mathlib.Data.Nat.Notation
import Spelunk.Core.FtsQuery
import Spelunk.Core.GitNotes

/-!
# Reading a File for a Model

The tool by which a model that explores a project reads a file. The path is what the model
asks for, and so it is checked before the file system is asked: by its text, against the
files of the index, and by where it leads.

What the file system makes of a path and the texts of files are arguments.

## Main definitions

* `Platform.isRooted`: What `Path` takes for absolute or prefixed.
* `resolveSegments`: The loop over the segments of a path.
* `resolveIndexedPath`: The checks.
* `executeReadFile`: The tool.
-/

namespace Spelunk

inductive Platform where
  | unix
  | windows
deriving DecidableEq, Repr

/-- `is_absolute`, or a prefix or the root as the first component: only on Windows a backslash
    separates and a drive is a prefix. -/
def Platform.isRooted : Platform → List Char → Bool
  | .unix, '/' :: _ => true
  | .unix, _ => false
  | .windows, '/' :: _ => true
  | .windows, '\\' :: _ => true
  | .windows, c :: ':' :: _ => c.isAlpha
  | .windows, _ => false

inductive Denied where
  | invalid
  | notIndexed
deriving DecidableEq, Repr

def Denied.toolResult : Denied → String → String
  | .invalid, requested =>
    "read_file denied: '" ++ requested ++ "' is not a valid project-relative path. " ++
      "Only files returned by search/graph results can be read. " ++
      "Use read_chunk for indexed content."
  | .notIndexed, requested =>
    "read_file denied: '" ++ requested ++ "' is outside the indexed project or not an " ++
      "indexed file. Only files returned by search/graph results can be read. " ++
      "Use read_chunk for indexed content."

/-- What the checks and the tool ask: the paths in the index, unless it cannot be read, the
    canonical root, if there is one, where a path under the root leads, by its components, and the
    text of a file, if it can be read. -/
structure ReadEnv where
  files : Option (List String)
  projectRoot : Option (List String)
  canonicalize : List String → String → Option (List String)
  readToString : List String → Option String

/-- `raw.replace('\\', "/").split('/')`. -/
def pathSegments (raw : List Char) : List (List Char) :=
  (raw.map fun c => if c = '\\' then '/' else c).splitOn '/'

/-- The loop over the segments; `none` where `..` has nothing to take back. -/
def resolveSegments : List (List Char) → List (List Char) → Option (List (List Char))
  | parts, [] => some parts
  | parts, seg :: rest =>
    if seg = [] ∨ seg = ['.'] then resolveSegments parts rest
    else if seg = ['.', '.'] then
      if parts = [] then none else resolveSegments parts.dropLast rest
    else resolveSegments (parts ++ [seg]) rest

/-- `parts.join("/")`. -/
def joinSegments (parts : List (List Char)) : String := String.ofList (['/'].intercalate parts)

/-- `resolve_indexed_path`. -/
def resolveIndexedPath (platform : Platform) (env : ReadEnv) (raw : String) :
    Except Denied (List String) :=
  if nul ∈ raw.toList then .error .invalid
  else if platform.isRooted raw.toList then .error .invalid
  else match resolveSegments [] (pathSegments raw.toList) with
    | none => .error .invalid
    | some parts =>
      if parts = [] then .error .invalid
      else match env.files with
        | none => .error .notIndexed
        | some files =>
          if joinSegments parts ∉ files then .error .notIndexed
          else match env.projectRoot with
            | none => .error .notIndexed
            | some root => match env.canonicalize root (joinSegments parts) with
              | none => .error .notIndexed
              | some canonical =>
                if root <+: canonical then .ok canonical else .error .notIndexed

/-- `ToolCall::ReadFile`. -/
structure ReadFileCall where
  path : String
  startLine : Option UInt64
  endLine : Option UInt64

/-- What the summary of the arguments names: the path, and the lines of a file that was read. -/
structure ReadArgs where
  path : String
  lines : Option (ℕ × ℕ)
deriving DecidableEq, Repr

/-- What is told of a call: the summary of its arguments, the path that goes to the sources, if
    one does, and the text for the model. -/
inductive ReadOutcome where
  | result (args : ReadArgs) (source : Option String) (text : String)
  /-- "reading file". -/
  | failed
  /-- An addition that does not fit. -/
  | overflow
deriving DecidableEq, Repr

/-- Where the lines end, as an index; `none` where the addition does not fit. -/
def ReadFileCall.rangeEnd (call : ReadFileCall) (first length : ℕ) : Option ℕ :=
  match call.endLine with
  | some n => some (min n.toNat length)
  | none => if first + 80 < usizeBound then some (min (first + 80) length) else none

/-- The `ReadFile` arm of `execute`. -/
def executeReadFile (platform : Platform) (env : ReadEnv) (call : ReadFileCall) : ReadOutcome :=
  match resolveIndexedPath platform env call.path with
  | .error denied => .result ⟨call.path, none⟩ none (denied.toolResult call.path)
  | .ok resolved => match env.readToString resolved with
    | none => .failed
    | some content =>
      let first := (call.startLine.map fun n => n.toNat - 1).getD 0
      match call.rangeEnd first (lines content).length with
      | none => .overflow
      | some last =>
        let slice := if first ≤ last then ((lines content).take last).drop first else []
        .result ⟨call.path, some (first + 1, last)⟩ (some call.path)
          (call.path ++ ":" ++ toString (first + 1) ++ "-" ++ toString last ++ "\n" ++
            "\n".intercalate slice)

end Spelunk
