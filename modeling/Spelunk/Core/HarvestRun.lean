import Spelunk.Core.FtsQuery
import Spelunk.Core.MemoryWrites
import Spelunk.Core.Summariser

/-!
# A Harvest Batch by Batch

The loop that the three sources of `memory harvest` share, with all that can end it: the
message for a batch and its budget, what is read of the reply, and the store that is asked
for the reference of an entry before the entry goes there.

A `usize` has 64 bits. The addition and the multiplications of sizes of texts in memory fit
and are plain; the room for a body is computed from the configured context length and need
not fit. How a text is read as the entries of a reply is an argument.

## Main definitions

* `GitCommit`: A commit as git has it.
* `logText`: What `git log` writes.
* `parseCommitLog`: The commits a harvest reads from it.
* `cutAt`, `floorCharBoundary`: A text cut at a byte.
* `HarvestTask`: What the sources do differently.
* `storeEntry`, `askBatch`, `harvestBatches`: The loop.
* `gitTask`, `failuresTask`, `claudeTask`: The sources.
-/

namespace Spelunk

/-! ### The Commit Log

What both harvests of commits read: `git log --format=%H%x00%s%x00%b%x00---`, and how they
take its records apart.
-/

/-- A commit as git has it: its hash, the line of its subject, and its body. -/
structure GitCommit where
  sha : List Char
  subject : List Char
  body : List Char
  length_sha : sha.length = 40
  hex_sha : ∀ c ∈ sha, c ∈ "0123456789abcdef".toList
  newline_subject : '\n' ∉ subject
  nul_subject : nul ∉ subject
  nul_body : nul ∉ body

/-- The separator of the records, as it is looked for. -/
def recordEnd : List Char := "---\n".toList

/-- `%H%x00%s%x00%b%x00---` and a newline. -/
def GitCommit.record (c : GitCommit) : List Char :=
  c.sha ++ nul :: (c.subject ++ nul :: (c.body ++ nul :: recordEnd))

/-- The output of `git log`. -/
def logText (commits : List GitCommit) : List Char := commits.flatMap GitCommit.record

/-- `splitn(4, '\0')`: the last part is the rest. -/
def splitNul4 (entry : List Char) : List (List Char) :=
  let parts := entry.splitOn nul
  if parts.length ≤ 4 then parts else parts.take 3 ++ [[nul].intercalate (parts.drop 3)]

/-- One record; with fewer than three parts it is left out. -/
def parseCommit (entry : List Char) : Option LogCommit :=
  match splitNul4 entry with
  | sha :: subject :: body :: _ =>
    some ⟨String.ofList (trim sha), String.ofList (trim subject), String.ofList (trim body)⟩
  | _ => none

/-- The commits that are read from the output of `git log`. -/
def parseCommitLog (raw : List Char) : List LogCommit :=
  ((Lib.splitText recordEnd raw).filter fun s => trim s ≠ []).filterMap parseCommit

end Spelunk

namespace Spelunk

/-- `&s[..s.len().min(k)]`; `none` where the cut is inside a character. -/
def cutAt : ℕ → List Char → Option (List Char)
  | 0, _ => some []
  | _ + 1, [] => some []
  | k + 1, c :: rest =>
    if c.utf8Size ≤ k + 1 then (cutAt (k + 1 - c.utf8Size) rest).map (c :: ·) else none

/-- The text up to `floor_char_boundary`. -/
def floorCharBoundary (k : ℕ) : List Char → List Char
  | [] => []
  | c :: rest =>
    if c.utf8Size ≤ k then c :: floorCharBoundary (k - c.utf8Size) rest else []

/-- `estimate_tokens` of a harvest. -/
def Harvest.estimateTokens (s : String) : ℕ := s.utf8ByteSize / 3

/-- What the sources do differently: the messages, `none` where a size does not fit, the output
    that is planned for, what is made of an entry, and the text whose start is shown of it. -/
structure HarvestTask (α : Type) where
  system : String
  userMessage : ℕ → List α → Option String
  outputEach : ℕ
  outputLeast : ℕ
  source : HarvestSource α
  shown : List α → ReplyEntry → String

/-- A batch that was asked for, with the message and the tokens for the answer. -/
structure AskedBatch (α : Type) where
  batch : List α
  message : String
  maxTokens : ℕ

/-- A harvest: the batches that were asked for, the entries that were stored, each with its batch,
    and whether the program is dead. -/
structure HarvestRun (α : Type) where
  asked : List (AskedBatch α)
  stored : List (List α × MemoryWrite)
  dead : Bool

namespace HarvestRun

variable {α : Type}

def start : HarvestRun α := ⟨[], [], false⟩

/-- The references of what was stored. -/
def refs (run : HarvestRun α) : List (Option String) :=
  run.stored.map fun p => p.2.sourceRef

end HarvestRun

/-- What the world answers: the reply to each request, with none where it fails, and for each entry
    of it what the calls answer; `hasSourceRef` is what the store has of others. -/
structure HarvestWorld where
  target : MemoryTarget
  contextLength : ℕ
  replies : ℕ → Option String
  answers : ℕ → ℕ → EntryAnswers

section Loop

variable [SecretScan] {α : Type} (fromStr : List Char → Option (List ReplyEntry))
  (task : HarvestTask α) (world : HarvestWorld)

/-- An entry is let through to the store: its body has no secret, the store does not have its
    reference, and the calls for it do not fail. -/
def letsThrough (batch : List α) (run : HarvestRun α) (e : ReplyEntry) (a : EntryAnswers) : Bool :=
  !(task.source.scansBody && containsSecret e.bodyText) &&
    decide (a.hasSourceRef = some false ∧ some (task.source.sourceRef batch e) ∉ run.refs) &&
    a.embeds && decide (a.nearDuplicate = some false)

/-- One entry of the reply to a call. -/
def storeEntry (call : ℕ) (batch : List α) (run : HarvestRun α) (p : ReplyEntry × ℕ) :
    HarvestRun α :=
  if run.dead then run
  else
    let a := world.answers call p.2
    if letsThrough task batch run p.1 a then
      let write := task.source.entry world.target batch p.1
      match a.add with
      | .failed => run
      | .unanswered => { run with stored := run.stored ++ [(batch, write)] }
      | .done =>
        { run with
          stored := run.stored ++ [(batch, write)]
          dead := (cutAt 8 (task.shown batch p.1).toList).isNone }
    else run

/-- The request for a batch, and what is made of its reply. -/
def askBatch (batch : List α) (message : String) (maxTokens : ℕ) (run : HarvestRun α) :
    HarvestRun α :=
  let call := run.asked.length
  let run := { run with asked := run.asked ++ [⟨batch, message, maxTokens⟩] }
  match world.replies call with
  | none => run
  | some reply =>
    let raw := stripAnsi .text reply.toList
    match fromStr raw with
    | none => { run with dead := (cutAt 200 raw).isNone }
    | some entries => entries.zipIdx.foldl (storeEntry task world call batch) run

/-- `(n * outputEach).clamp(outputLeast, context_length / 2)`, where the bounds are in order. -/
def HarvestTask.outBudget (n : ℕ) : ℕ :=
  max task.outputLeast (min (n * task.outputEach) (world.contextLength / 2))

/-- The message of a batch leaves too little room for the output. -/
def HarvestTask.tooLarge (message : String) (batch : List α) : Bool :=
  decide (world.contextLength < Harvest.estimateTokens task.system +
    Harvest.estimateTokens message + task.outBudget world batch.length)

/-- The loop over the work: a batch that is too large is halved, and the halves come first. -/
def harvestBatches : List (List α) → HarvestRun α → HarvestRun α
  | [], run => run
  | batch :: work, run =>
    if run.dead then run
    else match task.userMessage world.contextLength batch with
      | none => { run with dead := true }
      | some message =>
        if world.contextLength / 2 < task.outputLeast then { run with dead := true }
        else if _h : task.tooLarge world message batch = true ∧ 1 < batch.length then
          harvestBatches
            (batch.take (batch.length / 2) :: batch.drop (batch.length / 2) :: work) run
        else
          let input := Harvest.estimateTokens task.system + Harvest.estimateTokens message
          harvestBatches work (askBatch fromStr task world batch message
            (max 128 (min (world.contextLength - input) (task.outBudget world batch.length))) run)
termination_by work => ((work.map (fun b => 2 * b.length - 1)).sum, work.length)
decreasing_by
  · apply Prod.Lex.left
    simp only [List.map_cons, List.sum_cons, List.length_take, List.length_drop]
    omega
  · simp only [List.map_cons, List.sum_cons, List.length_cons]
    rcases Nat.eq_zero_or_pos (2 * batch.length - 1) with hzero | hpos
    · rw [hzero, Nat.zero_add]
      exact Prod.Lex.right _ (Nat.lt_succ_self _)
    · exact Prod.Lex.left _ _ (by omega)

end Loop

section Tasks

/-- The part of the message that shows a commit, with so much of its body. -/
def commitText (maxBody : ℕ) (c : LogCommit) : String :=
  if c.body = "" then "COMMIT " ++ c.sha ++ "\n" ++ c.subject
  else "COMMIT " ++ c.sha ++ "\n" ++ c.subject ++ "\n\n" ++
    String.ofList (floorCharBoundary maxBody c.body.toList)

def commitList (maxBody : ℕ) (batch : List LogCommit) : String :=
  "\n\n---\n\n".intercalate (batch.map (commitText maxBody))

def gitSystem : String :=
  "You help build a project memory store from git history. Respond ONLY with valid JSON " ++
    "matching the provided schema. No other text."

/-- The room for the body of a single commit; `none` where a `usize` is too small for it. -/
def singleBody (contextLength : ℕ) : Option ℕ :=
  let available := contextLength - (Harvest.estimateTokens gitSystem + 600)
  if available * 3 < 2 ^ 64 then some (max 120 (min (available * 3) 400)) else none

def gitMessage (commits : String) : String :=
  "Review these git commit messages. Identify commits that represent:\n" ++
    "- \"decision\": A significant architectural or design choice and reasoning\n" ++
    "- \"context\": Background about requirements, constraints, or project goals\n" ++
    "- \"requirement\": A hard constraint the codebase must satisfy\n" ++
    "- \"note\": A surprising or non-obvious discovery\n" ++
    "\n" ++
    "SKIP — return NO entry for:\n" ++
    "- Formatting/linting: \"ran prettier\", \"cargo fmt\", \"apply eslint\", \"gofmt\", " ++
    "\"fix whitespace\", \"code style\", \"apply linting\"\n" ++
    "- Version/release: \"bump version\", \"release v1.2.3\", \"update changelog\"\n" ++
    "- Merge commits: subjects starting with \"Merge branch\" or \"Merge pull request\"\n" ++
    "- Trivial fixes: typos, comment wording, variable renames with no design " ++
    "significance\n" ++
    "- Dependency bumps that reveal no architectural constraint\n" ++
    "\n" ++
    "Only create an entry if the commit reveals WHY something was designed a certain way, " ++
    "establishes a hard constraint, or captures non-obvious knowledge a future developer " ++
    "needs.\n" ++
    "\n" ++
    "For each significant commit write: sha (first 8 chars), kind, title (one sentence, " ++
    "past tense for decisions), body (include why, what alternatives were considered), " ++
    "tags (2-4 keywords).\n" ++
    "\n" ++
    "Commits:\n" ++
    commits

/-- `memory_harvest_git`. -/
def gitTask : HarvestTask LogCommit where
  system := gitSystem
  userMessage contextLength batch :=
    (if batch.length = 1 then singleBody contextLength else some 400).map fun maxBody =>
      gitMessage (commitList maxBody batch)
  outputEach := 400
  outputLeast := 256
  source := gitSource
  shown := fullSha

def failuresMessage (commits : String) : String :=
  "Review these failure-signal git commits (reverts, bug fixes, regressions, crashes).\n" ++
    "For EACH commit, extract an antipattern rule: what went wrong and what should be " ++
    "avoided in future.\n" ++
    "\n" ++
    "Write each entry as:\n" ++
    "- title: a short imperative rule starting with \"Never\", \"Avoid\", or \"Don't\" " ++
    "(e.g. \"Never call block_on inside an async context\")\n" ++
    "- body: explain what was wrong, what broke, and what to do instead. Include context " ++
    "so a future developer understands the failure mode.\n" ++
    "- tags: 2-4 keywords\n" ++
    "\n" ++
    "SKIP a commit if it is too vague to yield a useful rule (e.g. \"fix typo\").\n" ++
    "Return one entry per meaningful failure pattern found.\n" ++
    "\n" ++
    "Commits:\n" ++
    commits

/-- `memory_harvest_failures`. -/
def failuresTask : HarvestTask LogCommit where
  system := gitSystem
  userMessage _ batch := some (failuresMessage (commitList 400 batch))
  outputEach := 400
  outputLeast := 256
  source := failuresSource
  shown := fullSha

def claudeSystem : String :=
  "You help build a project memory store from Claude Code conversation history. Respond " ++
    "ONLY with valid JSON matching the provided schema. No other text."

def claudeMessage (sessions : String) : String :=
  "Review these Claude Code conversation turns. Identify turns that represent:\n" ++
    "- \"decision\": A significant architectural or design choice and reasoning\n" ++
    "- \"context\": Background about requirements, constraints, or project goals\n" ++
    "- \"requirement\": A hard constraint the codebase must satisfy\n" ++
    "- \"note\": A surprising or non-obvious discovery\n" ++
    "\n" ++
    "SKIP — return NO entry for:\n" ++
    "- Routine coding questions with no design significance\n" ++
    "- Trivial edits, typos, comment wording\n" ++
    "- Questions about syntax or standard library usage\n" ++
    "- Conversations with no lasting architectural insight\n" ++
    "\n" ++
    "Only create an entry if the conversation reveals WHY something was designed a certain " ++
    "way, establishes a hard constraint, or captures non-obvious knowledge a future " ++
    "developer needs.\n" ++
    "\n" ++
    "For each significant session write: session_id (full UUID), kind, title (one " ++
    "sentence, past tense for decisions), body (include why, what alternatives were " ++
    "considered), tags (2-4 keywords).\n" ++
    "\n" ++
    "Sessions:\n" ++
    sessions

/-- `harvest_claude_code`. -/
def claudeTask : HarvestTask ClaudeSession where
  system := claudeSystem
  userMessage _ batch := some (claudeMessage ("\n\n---\n\n".intercalate
    (batch.map fun s => "SESSION " ++ s.sessionId ++ "\n" ++ s.combined)))
  outputEach := 1200
  outputLeast := 512
  source := claudeSource
  shown _ e := e.key.getD ""

end Tasks

end Spelunk
