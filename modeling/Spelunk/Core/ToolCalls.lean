import Mathlib.Data.Int.Notation
import Spelunk.Core.RecordJson

/-!
# Tool Calls in Prose

The tool calls by which a model explores a project, as JSON, and how one is found in what
the model writes: from the first opening brace to where the braces are balanced, whatever is
a string there. Reading a text as a call is the JSON library's.

## Main definitions

* `ToolCall`, `toolCallJson`: A call and its text.
* `extractJson`: What is taken for a JSON object.
* `ToolReader`: The library.
* `parseToolCall`: The call in a text.
-/

namespace Spelunk

inductive ToolCall where
  | search (query : String) (limit : UInt64)
  | graph (symbol : String)
  | readChunk (chunkId : Int64)
  | readFile (path : String) (startLine endLine : Option UInt64)
  | done (answer : String)
deriving DecidableEq

namespace ToolCall

def name : ToolCall → String
  | .search _ _ => "search"
  | .graph _ => "graph"
  | .readChunk _ => "read_chunk"
  | .readFile _ _ _ => "read_file"
  | .done _ => "done"

/-- The string among the arguments. -/
def text : ToolCall → String
  | .search query _ => query
  | .graph symbol => symbol
  | .readChunk _ => ""
  | .readFile path _ _ => path
  | .done answer => answer

end ToolCall

/-- A `usize`, or `null`. -/
def jsonLine : Option UInt64 → List Char
  | none => "null".toList
  | some n => Nat.toDigits 10 n.toNat

def ToolCall.args : ToolCall → List (List Char)
  | .search query limit =>
    [jsonField "query" (jsonString query), jsonField "limit" (Nat.toDigits 10 limit.toNat)]
  | .graph symbol => [jsonField "symbol" (jsonString symbol)]
  | .readChunk chunkId => [jsonField "chunk_id" (jsonInt chunkId.toInt)]
  | .readFile path startLine endLine =>
    [jsonField "path" (jsonString path), jsonField "start_line" (jsonLine startLine),
      jsonField "end_line" (jsonLine endLine)]
  | .done answer => [jsonField "answer" (jsonString answer)]

def jsonObject (fields : List (List Char)) : List Char :=
  '\x7b' :: [','].intercalate fields ++ ['\x7d']

/-- The text of a call. -/
def toolCallJson (call : ToolCall) : List Char :=
  jsonObject [jsonField "tool" (jsonString call.name), jsonField "args" (jsonObject call.args)]

/-- What becomes of a text: it has no object, or this one; or the depth falls below zero, or a slice
    ends inside a character, at which the program dies. -/
inductive Extracted where
  | nothing
  | found (s : List Char)
  | panics
deriving DecidableEq, Repr

/-- With a character in front. -/
def Extracted.cons (c : Char) : Extracted → Extracted
  | .found s => .found (c :: s)
  | e => e

/-- The loop over the characters at a depth. -/
def scanBraces : ℕ → List Char → Extracted
  | _, [] => .nothing
  | depth, c :: rest =>
    if c = '\x7b' then (scanBraces (depth + 1) rest).cons c
    else if c = '\x7d' then
      if depth = 0 then .panics
      else if depth - 1 = 0 then .found [c]
      else (scanBraces (depth - 1) rest).cons c
    else (scanBraces depth rest).cons c

/-- `extract_json`. -/
def extractJson (raw : List Char) : Extracted :=
  match raw.dropWhile (· ≠ '\x7b') with
  | [] => .nothing
  | s => scanBraces 0 s

/-- `serde_json::from_str` at calls: it reads the text of a call, and no text that is cut off or goes
    on behind it with anything but white space. -/
structure ToolReader where
  fromStr : List Char → Option ToolCall
  reads : ∀ call, fromStr (toolCallJson call) = some call
  trailing : ∀ call rest, (∃ c ∈ rest, c ∉ [' ', '\t', '\n', '\r']) →
    fromStr (toolCallJson call ++ rest) = none
  truncated : ∀ call start rest, toolCallJson call = start ++ rest → rest ≠ [] →
    fromStr start = none

/-- `parse_tool_call`; `none` where the program dies. -/
def parseToolCall (reader : ToolReader) (raw : List Char) : Option (Option ToolCall) :=
  match extractJson raw with
  | .panics => none
  | .nothing => some none
  | .found s => some (reader.fromStr s)

end Spelunk
