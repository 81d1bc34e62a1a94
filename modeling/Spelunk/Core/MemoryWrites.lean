import Spelunk.Core.GitNotes

/-!
# Commands That Create Memory Entries

`memory add` and the three sources of `memory harvest`, from their input to what they
hand to a store. The scanner for secrets is a predicate on texts. What the commands ask
of others is a parameter each: a fetched page and an edited body, the language model's
replies, the embedder, and the answers of the stores. A store's answer also says whether
the write happened; one that reports a failure may have written all the same.

A field of a reply that is not a text reads as its default. The batches of a harvest are
halved while their prompt does not fit the model; `tooLarge` is that comparison.

## Main definitions

* `SecretScan`: The scanner.
* `MemoryWrite`: An entry as a store gets it.
* `memoryAdd`: `memory add`.
* `HarvestSource`, `harvestLoop`: The store loop that the three sources share.
* `memoryHarvestGit`, `memoryHarvestFailures`, `harvestClaudeCode`: The three sources.
-/

namespace Spelunk

/-- The scanner. -/
class SecretScan where
  containsSecret : String → Bool

export SecretScan (containsSecret)

/-- A kind of store. -/
inductive MemoryTarget where
  | sqlite
  | gitNotes
  | server
deriving DecidableEq, Repr

/-- An entry as a store gets it. -/
structure MemoryWrite where
  target : MemoryTarget
  kind : String
  title : String
  body : String
  tags : List String
  sourceRef : Option String
deriving DecidableEq, Repr

/-- How a store answers a write. -/
inductive WriteAnswer where
  | done
  | failed
  /-- It was written, and the call failed. -/
  | unanswered
deriving DecidableEq, Repr

/-- What there is of a write after its answer. -/
def WriteAnswer.logged (a : WriteAnswer) (w : MemoryWrite) : List MemoryWrite :=
  match a with
  | .failed => []
  | _ => [w]

section Scan

variable [SecretScan]

/-- A field of the entry holds a secret. -/
def MemoryWrite.HasSecret (w : MemoryWrite) : Prop :=
  containsSecret w.title = true ∨ containsSecret w.body = true ∨
    ∃ tag ∈ w.tags, containsSecret tag = true

end Scan

section Add

/-- The options of `memory add`. -/
structure MemoryAddArgs where
  kind : String
  title : Option String
  body : Option String
  fromUrl : Option String
  tags : Option String
  supersedes : Option Int
  relatesTo : Option Int
deriving DecidableEq, Repr

/-- The store the command works on: before init there is no project store, and
    `--backend git-notes` leaves the carrier to it. -/
structure AddContext where
  preInitNotes : Bool
  backend : MemoryTarget
  backendOverride : Option String
  storeInGitNotes : Bool
deriving DecidableEq, Repr

/-- What the command reads: the page, the edited body, and the entries of the store;
    `none` where the call fails. -/
structure AddReads where
  fetchUrlContent : String → Option (String × String)
  openEditorForBody : String → Option String
  get : Int → Option (Option CarrierNote)

/-- What the calls that write answer. -/
structure AddAnswers where
  opens : Bool
  add : WriteAnswer
  addEdge : Bool
  append : WriteAnswer
  appendStateUpdate : WriteAnswer

/-- What the command fails with. -/
inductive AddError where
  | titleRequired
  | secret
  | notActive (id : Int)
  | notFound (id : Int)
  /-- A call failed. -/
  | call
deriving DecidableEq, Repr

def AddError.message : AddError → Option String
  | .titleRequired => some "--title is required when --from-url is not provided"
  | .secret => some ("memory add: refusing to store entry — title or body matches a secret " ++
      "pattern. Remove the credential and try again. (No data was written to SQLite or git notes.)")
  | .notActive id => some s!"No active memory entry with id {id} (old)."
  | .notFound id => some s!"No memory entry with id {id} to relate to."
  | .call => none

/-- The title and the body: typed, edited or fetched. -/
def addContent (args : MemoryAddArgs) (reads : AddReads) : Except AddError (String × String) :=
  match args.fromUrl with
  | some url =>
      match reads.fetchUrlContent url with
      | none => .error .call
      | some (fetchedTitle, fetchedBody) =>
          .ok (args.title.getD fetchedTitle, args.body.getD fetchedBody)
  | none =>
      match args.title with
      | none => .error .titleRequired
      | some title =>
          match args.body with
          | some body => .ok (title, body)
          | none =>
              match reads.openEditorForBody title with
              | none => .error .call
              | some body => .ok (title, body)

/-- The members of the tags option, empty ones included. -/
def addTags (tags : Option String) : List String :=
  match tags with
  | some s => ((s.toList.splitOn ',').map trim).map String.ofList
  | none => []

/-- OLD has to be active, before any write. -/
def supersedePreflight (ctx : AddContext) (args : MemoryAddArgs) (reads : AddReads)
    (opens : Bool) : Except AddError (Option CarrierNote) :=
  match args.supersedes with
  | none => .ok none
  | some id =>
      if ¬ ctx.preInitNotes ∧ ¬ opens then .error .call
      else
        match reads.get id with
        | none => .error .call
        | some (some note) => if note.status = "active" then .ok (some note) else .error (.notActive id)
        | some none => .error (.notActive id)

/-- The entry to relate to has to be there, before any write. -/
def relatesPreflight (ctx : AddContext) (args : MemoryAddArgs) (reads : AddReads)
    (opens : Bool) : Except AddError Unit :=
  match args.relatesTo with
  | none => .ok ()
  | some id =>
      if ctx.preInitNotes then .ok ()
      else if ¬ opens then .error .call
      else
        match reads.get id with
        | none => .error .call
        | some none => .error (.notFound id)
        | some (some _) => .ok ()

/-- The carrier gets the entry too, unless it is the store already. -/
def AddContext.writeThrough (ctx : AddContext) : Bool :=
  ctx.preInitNotes || (ctx.storeInGitNotes && ctx.backendOverride != some "git-notes")

/-- The record that carries the new state of OLD. -/
def stateUpdateWrite (old : CarrierNote) : MemoryWrite :=
  { target := .gitNotes, kind := old.kind, title := old.title, body := old.body,
    tags := old.tags, sourceRef := old.sourceRef }

/-- The carry: fatal where there is no other store. -/
def carryEntry (ctx : AddContext) (entry : MemoryWrite) (old : Option CarrierNote)
    (answers : AddAnswers) : Except AddError Unit × List MemoryWrite :=
  if ctx.writeThrough then
    let carried := answers.append.logged { entry with target := .gitNotes }
    if answers.append ≠ .done ∧ ctx.preInitNotes then (.error .call, carried)
    else
      match old with
      | none => (.ok (), carried)
      | some note =>
          (.ok (), carried ++ answers.appendStateUpdate.logged (stateUpdateWrite note))
  else (.ok (), [])

/-- The primary store, the relates_to edge and the carrier, in this order. -/
def storeAdded (ctx : AddContext) (args : MemoryAddArgs) (entry : MemoryWrite)
    (old : Option CarrierNote) (answers : AddAnswers) : Except AddError Unit × List MemoryWrite :=
  if ctx.preInitNotes then carryEntry ctx entry old answers
  else if ¬ answers.opens then (.error .call, [])
  else
    let stored := answers.add.logged { entry with target := ctx.backend }
    if answers.add ≠ .done then (.error .call, stored)
    else if args.relatesTo.isSome ∧ ctx.backend = .sqlite ∧ ¬ answers.addEdge then
      (.error .call, stored)
    else
      let carried := carryEntry ctx entry old answers
      (carried.1, stored ++ carried.2)

variable [SecretScan]

/-- `memory add`: its result, and what it wrote. -/
def memoryAdd (ctx : AddContext) (args : MemoryAddArgs) (reads : AddReads)
    (answers : AddAnswers) : Except AddError Unit × List MemoryWrite :=
  match addContent args reads with
  | .error e => (.error e, [])
  | .ok (title, body) =>
      let tags := addTags args.tags
      if containsSecret title || containsSecret body then (.error .secret, [])
      else
        match supersedePreflight ctx args reads answers.opens with
        | .error e => (.error e, [])
        | .ok old =>
            match relatesPreflight ctx args reads answers.opens with
            | .error e => (.error e, [])
            | .ok () =>
                storeAdded ctx args
                  { target := ctx.backend, kind := args.kind, title := title, body := body,
                    tags := tags, sourceRef := none }
                  old answers

end Add

section Harvest

/-- An entry of a reply: each field, where it is a text. -/
structure ReplyEntry where
  /-- `sha`, or `session_id`. -/
  key : Option String
  kind : Option String
  title : Option String
  body : Option String
  tags : Option (List (Option String))
deriving DecidableEq, Repr

namespace ReplyEntry

def titleText (e : ReplyEntry) : String := e.title.getD ""

def bodyText (e : ReplyEntry) : String := e.body.getD ""

def tagTexts (e : ReplyEntry) : List String := (e.tags.getD []).filterMap id

end ReplyEntry

/-- What the calls for one entry answer: `none` where one fails. -/
structure EntryAnswers where
  hasSourceRef : Option Bool
  embeds : Bool
  /-- Whether the nearest entry is closer than the threshold. -/
  nearDuplicate : Option Bool
  add : WriteAnswer
deriving DecidableEq, Repr

/-- What the three sources do differently with an entry of a reply. -/
structure HarvestSource (α : Type) where
  kind : ReplyEntry → String
  sourceRef : List α → ReplyEntry → String
  /-- The body is scanned. -/
  scansBody : Bool

variable [SecretScan] {α : Type}

/-- The entry as the store gets it. -/
def HarvestSource.entry (source : HarvestSource α) (target : MemoryTarget) (batch : List α)
    (e : ReplyEntry) : MemoryWrite :=
  { target := target, kind := source.kind e, title := e.titleText, body := e.bodyText,
    tags := e.tagTexts, sourceRef := some (source.sourceRef batch e) }

/-- One round of the store loop. -/
def storeReplyEntry (source : HarvestSource α) (target : MemoryTarget) (batch : List α)
    (e : ReplyEntry) (answers : EntryAnswers) : List MemoryWrite :=
  if source.scansBody && containsSecret e.bodyText then []
  else if answers.hasSourceRef ≠ some false then []
  else if ¬ answers.embeds then []
  else if answers.nearDuplicate ≠ some false then []
  else answers.add.logged (source.entry target batch e)

/-- The store loop over a reply. -/
def storeReply (source : HarvestSource α) (target : MemoryTarget) (batch : List α)
    (reply : List ReplyEntry) (answers : Nat → EntryAnswers) : List MemoryWrite :=
  reply.zipIdx.flatMap (fun p => storeReplyEntry source target batch p.1 (answers p.2))

/-- The batches that are asked about: one that is too large is halved, and the halves come
    first. -/
def askedBatches (tooLarge : List α → Bool) : List (List α) → List (List α)
  | [] => []
  | batch :: work =>
      if _h : tooLarge batch = true ∧ 1 < batch.length then
        askedBatches tooLarge
          (batch.take (batch.length / 2) :: batch.drop (batch.length / 2) :: work)
      else batch :: askedBatches tooLarge work
termination_by work => ((work.map (fun b => 2 * b.length - 1)).sum, work.length)
decreasing_by
  · apply Prod.Lex.left
    simp only [List.map_cons, List.sum_cons, List.length_take, List.length_drop]
    omega
  · simp only [List.map_cons, List.sum_cons, List.length_cons]
    rcases Nat.eq_zero_or_pos (2 * batch.length - 1) with hzero | hpos
    · rw [hzero, Nat.zero_add]
      exact Prod.Lex.right _ (Nat.lt_succ_self _)
    · exact Prod.Lex.left _ _ (by omega)

/-- What asking about a batch ends with. -/
inductive LlmReply where
  | entries (l : List ReplyEntry)
  /-- The call failed, or the reply does not parse: the batch is skipped. -/
  | skipped
  /-- The reply does not parse, and the warning cuts it inside a character. -/
  | panics
deriving DecidableEq, Repr

def LlmReply.list : LlmReply → List ReplyEntry
  | .entries l => l
  | _ => []

/-- The batches whose replies are looked at, each with the number of its call. -/
def heardBatches (tooLarge : List α → Bool) (work : List (List α)) (replies : Nat → LlmReply) :
    List (List α × Nat) :=
  (askedBatches tooLarge work).zipIdx.takeWhile (fun p => replies p.2 ≠ .panics)

/-- Ask about each batch and store what the model replies. -/
def harvestLoop (source : HarvestSource α) (target : MemoryTarget) (tooLarge : List α → Bool)
    (work : List (List α)) (replies : Nat → LlmReply) (answers : Nat → Nat → EntryAnswers) :
    List MemoryWrite :=
  (heardBatches tooLarge work replies).flatMap (fun p =>
    storeReply source target p.1 (replies p.2).list (answers p.2))

/-- A commit of the log. -/
structure LogCommit where
  sha : String
  subject : String
  body : String
deriving DecidableEq, Repr

/-- The commit a reply names by the start of its hash. -/
def fullSha (batch : List LogCommit) (e : ReplyEntry) : String :=
  let shaShort := e.key.getD ""
  ((batch.find? (fun c => shaShort.toList.isPrefixOf c.sha.toList)).map (·.sha)).getD shaShort

def gitSource : HarvestSource LogCommit where
  kind e := e.kind.getD "note"
  sourceRef := fullSha
  scansBody := false

def failuresSource : HarvestSource LogCommit where
  kind _ := "antipattern"
  sourceRef := fullSha
  scansBody := false

/-- A session of the history with its combined text. -/
structure ClaudeSession where
  sessionId : String
  combined : String
deriving DecidableEq, Repr

def claudeSource : HarvestSource ClaudeSession where
  kind e := e.kind.getD "note"
  sourceRef _ e := "claude-code:" ++ e.key.getD ""
  scansBody := true

/-- What a harvest is given: whether a model is there, the references that were harvested
    before (`none` where the store does not say), and the size of a batch. -/
structure HarvestContext where
  llm : Bool
  target : MemoryTarget
  harvestedShas : Option (List String)
  batchSize : Nat
deriving DecidableEq, Repr

/-- The new elements, in batches; none without a model or where the store fails. -/
def harvestWork (ctx : HarvestContext) (ref : α → String) (worth : α → Bool) (l : List α) :
    List (List α) :=
  match ctx.harvestedShas with
  | none => []
  | some known =>
      if ctx.llm then
        ((l.filter (fun x => ref x ∉ known)).filter worth).toChunks (max ctx.batchSize 1)
      else []

/-- Harvest a range of commits, without the routine ones. -/
def memoryHarvestGit (ctx : HarvestContext) (isRoutineSubject : String → Bool)
    (tooLarge : List LogCommit → Bool) (commits : List LogCommit)
    (replies : Nat → LlmReply) (answers : Nat → Nat → EntryAnswers) : List MemoryWrite :=
  harvestLoop gitSource ctx.target tooLarge
    (harvestWork ctx (·.sha) (fun c => !isRoutineSubject c.subject) commits) replies answers

/-- Harvest the commits that signal a failure. -/
def memoryHarvestFailures (ctx : HarvestContext) (isFailureSubject : String → Bool)
    (tooLarge : List LogCommit → Bool) (commits : List LogCommit)
    (replies : Nat → LlmReply) (answers : Nat → Nat → EntryAnswers) : List MemoryWrite :=
  harvestLoop failuresSource ctx.target tooLarge
    (harvestWork ctx (·.sha) (fun c => isFailureSubject c.subject) commits) replies answers

/-- The new sessions without a secret in their text, in batches. -/
def claudeWork (ctx : HarvestContext) (sessions : List ClaudeSession) :
    List (List ClaudeSession) :=
  harvestWork ctx (fun s => "claude-code:" ++ s.sessionId)
    (fun s => !containsSecret s.combined && (trim s.combined.toList) != []) sessions

/-- Harvest the sessions of the history, once that is confirmed. -/
def harvestClaudeCode (ctx : HarvestContext) (confirm : Bool)
    (tooLarge : List ClaudeSession → Bool) (sessions : List ClaudeSession)
    (replies : Nat → LlmReply) (answers : Nat → Nat → EntryAnswers) : List MemoryWrite :=
  if confirm then
    harvestLoop claudeSource ctx.target tooLarge (claudeWork ctx sessions) replies answers
  else []

end Harvest

end Spelunk
