import Spelunk.Core.Chunker

/-!
# Markdown Sections

`parse_markdown`: the lines of a document are cut before every heading, the sections that
are too large are cut again by the sliding window, and a document without anything but
white space is one window.

The text of a section is made when it is flushed, so the loop collects what it flushes.

## Main definitions

* `atxHeading`: The text of a heading line.
* `markdownSections`: The sections.
* `parseMarkdown`: The chunks.
-/

namespace Spelunk

/-- `atx_heading`: the text of a line of one to six hashes and a space or nothing. -/
def atxHeading (line : String) : Option String :=
  let stripped := line.toList.dropWhile (· = '#')
  let hashes := line.toList.length - stripped.length
  if hashes = 0 ∨ 6 < hashes then none
  else if stripped ≠ [] ∧ stripped.head? ≠ some ' ' then none
  else some (String.ofList (trim stripped))

/-- The arguments of a flush: the first line of a section, counted from zero, its title and
    the line behind it. -/
structure MarkdownSection where
  start : ℕ
  title : Option String
  stop : ℕ
deriving DecidableEq, Repr

/-- What the loop carries. -/
structure MarkdownState where
  openSection : Option (ℕ × String)
  preamble : List ℕ
  flushed : List MarkdownSection
deriving DecidableEq, Repr

namespace MarkdownState

def initial : MarkdownState := { openSection := none, preamble := [], flushed := [] }

/-- The flush of what is open, up to a line. -/
def flush (s : MarkdownState) (stop : ℕ) : MarkdownState :=
  match s.openSection with
  | some (start, title) => {
      s with
      openSection := none
      flushed := s.flushed ++ [{ start, title := some title, stop }] }
  | none =>
    match s.preamble with
    | first :: _ => {
        s with
        preamble := []
        flushed := s.flushed ++ [{ start := first, title := none, stop }] }
    | [] => s

/-- One line. -/
def line (s : MarkdownState) (i : ℕ) (text : String) : MarkdownState :=
  match atxHeading text with
  | some heading => { s.flush i with openSection := some (i, heading) }
  | none =>
    if s.openSection = none then { s with preamble := s.preamble ++ [i] } else s

/-- The lines from one on. -/
def lines (s : MarkdownState) (i : ℕ) : List String → MarkdownState
  | [] => s
  | text :: rest => (s.line i text).lines (i + 1) rest

end MarkdownState

/-- The sections of a document, in the order in which they are flushed. -/
def markdownSections (ls : List String) : List MarkdownSection :=
  ((MarkdownState.initial.lines 0 ls).flush ls.length).flushed

/-- A section that is cut again. -/
def MarkdownSection.Oversized (cap : ℕ) (ls : List String) (s : MarkdownSection) : Prop :=
  cap < estimateTokens (joinLines ls s.start s.stop)

instance (cap : ℕ) (ls : List String) (s : MarkdownSection) : Decidable (s.Oversized cap ls) :=
  inferInstanceAs (Decidable (_ < _))

/-- The chunks of a section. -/
def MarkdownSection.chunks (cap : ℕ) (filePath : String) (ls : List String)
    (s : MarkdownSection) : List Chunk :=
  let content := joinLines ls s.start s.stop
  if trim content.toList = [] then []
  else if s.Oversized cap ls then
    (slidingWindow cap content filePath "markdown" s.title none none).map fun sub => {
      sub with
      startLine := sub.startLine + s.start
      endLine := sub.endLine + s.start }
  else [{
    filePath := filePath
    language := "markdown"
    kind := .sectionKind
    name := s.title
    startLine := s.start + 1
    endLine := s.stop
    content := content
    docstring := none
    parentScope := none
    summary := none }]

/-- `parse_markdown`. -/
def parseMarkdown (cap : ℕ) (source filePath : String) : List Chunk :=
  let ls := lines source
  let chunks := (markdownSections ls).flatMap (MarkdownSection.chunks cap filePath ls)
  if chunks = [] then slidingWindow cap source filePath "markdown" none none none else chunks

end Spelunk
