import Spelunk.Core.GitNotes

/-!
# Chunks and Sliding Windows

A chunk of a source file and `sliding_window`, which cuts a text into windows of whole
lines. A window takes lines as long as they fit into the budget, its first line always;
the next window starts some lines earlier, on as many as fit into an eighth of the
budget, and always behind the start of the one before.

The cap of a chunk is the process-wide `CHUNK_TOKEN_CAP`, an argument here.

## Main definitions

* `Chunk`, `Chunk.embeddingText`: A chunk and what is embedded of it.
* `windowEnd`: Where a window ends.
* `stepBack`: Where the next one starts.
* `slidingWindow`: The windows.
-/

namespace Spelunk

/-- `ChunkKind`. -/
inductive ChunkKind where
  | function
  | method
  | structKind
  | classKind
  | enum
  | interface
  | impl
  | trait
  | moduleKind
  | constant
  | typeAlias
  | rule
  | sectionKind
  | verbatim
deriving DecidableEq, Repr

/-- A unit of source code. Lines are counted from one. -/
structure Chunk where
  filePath : String
  language : String
  kind : ChunkKind
  name : Option String
  startLine : ℕ
  endLine : ℕ
  content : String
  docstring : Option String
  parentScope : Option String
  summary : Option String
deriving DecidableEq, Repr

/-- The text that is embedded. -/
def Chunk.embeddingText (c : Chunk) : String :=
  let title := c.name.getD "none"
  let body := match c.docstring with
    | some doc => doc ++ "\n" ++ c.content
    | none => c.content
  match c.summary with
  | some summary => "title: " ++ title ++ " | summary: " ++ summary ++ " | text: " ++ body
  | none => "title: " ++ title ++ " | text: " ++ body

/-- `MAX_CHUNK_TOKENS`. -/
def maxChunkTokens : ℕ := 512

/-- `estimate_tokens`. -/
def estimateTokens (text : String) : ℕ := max (text.length / 4) 1

/-- The first inner loop behind the first line of a window, with the characters it has so
    far: how many of the next lines it takes. -/
def takeLines (budgetChars acc : ℕ) : List ℕ → ℕ
  | [] => 0
  | chars :: rest =>
    if budgetChars < acc + (chars + 1) then 0
    else takeLines budgetChars (acc + (chars + 1)) rest + 1

/-- Where a window ends, by where it starts. -/
def windowEnd (lineChars : List ℕ) (budgetChars start : ℕ) : ℕ :=
  match lineChars.drop start with
  | [] => start
  | first :: rest => start + 1 + takeLines budgetChars first rest

/-- The second inner loop: where the next window starts, with the characters stepped over
    so far. -/
def stepBackFrom (lineChars : List ℕ) (overlapChars start overlap : ℕ) : ℕ → ℕ
  | 0 => 0
  | nextStart + 1 =>
    if start < nextStart then
      let candidate := lineChars.getD nextStart 0 + 1
      if overlapChars < overlap + candidate then nextStart + 1
      else stepBackFrom lineChars overlapChars start (overlap + candidate) nextStart
    else nextStart + 1

/-- Where the next window starts, by where one starts and ends. -/
def stepBack (lineChars : List ℕ) (overlapChars start stop : ℕ) : ℕ :=
  stepBackFrom lineChars overlapChars start 0 stop

theorem lt_stepBackFrom (lineChars : List ℕ) (overlapChars overlap : ℕ) {start stop : ℕ}
    (h : start < stop) : start < stepBackFrom lineChars overlapChars start overlap stop := by
  induction stop generalizing overlap with
  | zero => exact absurd h (Nat.not_lt_zero _)
  | succ nextStart ih =>
    unfold stepBackFrom
    split
    · next hlt =>
      dsimp only
      split
      · exact h
      · exact ih _ hlt
    · exact h

theorem lt_windowEnd (budgetChars : ℕ) {lineChars : List ℕ} {start : ℕ}
    (h : start < lineChars.length) : start < windowEnd lineChars budgetChars start := by
  unfold windowEnd
  rw [List.drop_eq_getElem_cons h]
  dsimp only
  omega

/-- The outer loop: the windows from a start on, each with its first line and the line
    behind it. -/
def windowsFrom (lineChars : List ℕ) (budgetChars overlapChars start : ℕ) : List (ℕ × ℕ) :=
  if start < lineChars.length then
    let stop := windowEnd lineChars budgetChars start
    if lineChars.length ≤ stop then [(start, stop)]
    else
      (start, stop) :: windowsFrom lineChars budgetChars overlapChars
        (stepBack lineChars overlapChars start stop)
  else []
termination_by lineChars.length - start
decreasing_by
  have hlt := lt_stepBackFrom lineChars overlapChars 0 (lt_windowEnd budgetChars ‹_›)
  exact Nat.sub_lt_sub_left ‹_› hlt

/-- Some lines of a text, counted from zero and without the last. -/
def joinLines (ls : List String) (start stop : ℕ) : String :=
  "\n".intercalate ((ls.drop start).take (stop - start))

/-- `sliding_window`. -/
def slidingWindow (cap : ℕ) (source filePath language : String)
    (name docstring parentScope : Option String) : List Chunk :=
  let ls := lines source
  let budgetChars := cap * 4
  let overlapChars := budgetChars / 8
  let lineChars := ls.map String.length
  (windowsFrom lineChars budgetChars overlapChars 0).map fun w => {
    filePath := filePath
    language := language
    kind := .verbatim
    name := name
    startLine := w.1 + 1
    endLine := w.2
    content := joinLines ls w.1 w.2
    docstring := docstring
    parentScope := parentScope
    summary := none }

end Spelunk
