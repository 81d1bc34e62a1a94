import Mathlib.Data.List.Infix
import Mathlib.Data.Nat.Notation
import Spelunk.Core.GitNotes

/-!
# Live Search

The search that needs no index: a plain query is looked for, without regard to case, in the
named leaves of each parsed file, and in the lines of a file that has it in none.

How a character is lowered is an argument, and so are the search for patterns and, for
each file, the language that is detected and the named leaves that its parser finds.

## Main definitions

* `LiveFile`: A file of the tree.
* `searchLiveSubstring`: The search for a plain string.
* `searchLiveQuery`: The search.
-/

namespace Spelunk

structure LiveMatch where
  filePath : String
  language : String
  startLine : ℕ
  endLine : ℕ
  text : List Char
deriving DecidableEq, Repr

/-- A named leaf of a parsed file, by its place in the text. -/
structure LeafNode where
  start : ℕ
  length : ℕ
deriving DecidableEq, Repr

/-- A file of the walk: its text, if it can be read as UTF-8, and its leaves, if its language is
    parsed. -/
structure LiveFile where
  path : String
  source : Option String
  detectLanguage : Option String
  namedLeaves : Option (List LeafNode)
deriving DecidableEq, Repr

section Search

variable (lower : Char → List Char)

/-- `to_lowercase`. -/
def toLowercase (s : List Char) : List Char := s.flatMap lower

/-- `text.to_lowercase().contains(&needle)`. -/
def containsLower (text needle : List Char) : Bool := decide (needle <:+: toLowercase lower text)

/-- The line of a place in a text, from one on. -/
def lineAt (src : List Char) (pos : ℕ) : ℕ := (src.take pos).count '\n' + 1

/-- `node.text()`. -/
def LeafNode.text (node : LeafNode) (src : List Char) : List Char :=
  (src.drop node.start).take node.length

/-- Pass 1: the leaves that have the needle in them. -/
def LiveFile.nodeMatches (f : LiveFile) (src needle : List Char) : List LiveMatch :=
  ((f.namedLeaves.getD []).filter fun node => containsLower lower (node.text src) needle).map
    fun node =>
      { filePath := f.path
        language := f.detectLanguage.getD "unknown"
        startLine := lineAt src node.start
        endLine := lineAt src (node.start + node.length)
        text := node.text src }

/-- Pass 2: the lines that have the needle in them. -/
def LiveFile.lineMatches (f : LiveFile) (src needle : List Char) : List LiveMatch :=
  ((lines (String.ofList src)).zipIdx.filter fun p =>
    containsLower lower p.1.toList needle).map fun p =>
      { filePath := f.path
        language := f.detectLanguage.getD "text"
        startLine := p.2 + 1
        endLine := p.2 + 1
        text := p.1.toList }

/-- Matches are pushed until the limit is reached. -/
def pushMatches (limit : ℕ) : List LiveMatch → List LiveMatch → List LiveMatch
  | out, [] => out
  | out, m :: rest => if limit ≤ out.length then out else pushMatches limit (out ++ [m]) rest

/-- One file of the walk. -/
def searchLiveFile (needle : List Char) (limit : ℕ) (out : List LiveMatch) (f : LiveFile) :
    List LiveMatch :=
  match f.source with
  | none => out
  | some source =>
    let src := source.toList
    if containsLower lower src needle then
      let afterNodes := pushMatches limit out (f.nodeMatches lower src needle)
      if afterNodes.length = out.length then
        pushMatches limit afterNodes (f.lineMatches lower src needle)
      else afterNodes
    else out

/-- `search_live_substring`. -/
def searchLiveSubstring (query : String) (files : List LiveFile) (limit : ℕ) : List LiveMatch :=
  files.foldl (fun out f =>
    if limit ≤ out.length then out
    else searchLiveFile lower (toLowercase lower query.toList) limit out f) []

/-- `search_live_query`. -/
def searchLiveQuery (searchLiveMatches : String → List LiveFile → ℕ → List LiveMatch)
    (query : String) (files : List LiveFile) (limit : ℕ) : List LiveMatch :=
  if query = "" ∨ limit = 0 then []
  else if '$' ∈ query.toList then searchLiveMatches query files limit
  else searchLiveSubstring lower query files limit

end Search

end Spelunk
