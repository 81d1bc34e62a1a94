import Spelunk.Core.Chunker
import Spelunk.Core.CommitListing
import Spelunk.Lib.Packing

/-!
# Context for an Agent

The sections of notes that an agent starts with: by kind, from the local store and, of
decisions and requirements, what linked projects have tagged for others; cut to a number of
entries or packed into a budget of tokens.

A linked store that is missing or does not open has no content here, and which of its
listings fail is given; the conventions are those that the index has.

## Main definitions

* `ContextArgs`: The flags.
* `ContextNote`: A note with the store it is from.
* `collectSections`: The local sections.
* `collectDepCrossCutting`: The notes of linked projects.
* `applyBudget`: The packing.
* `context`: What is emitted.
-/

namespace Spelunk

structure ContextArgs where
  kind : Option String
  limit : Option ℕ
  budget : Option ℕ
  path : Option String
  noConventions : Bool
  localOnly : Bool
deriving DecidableEq

/-- A note, the file it was read from, and the project if that is a linked one. -/
structure ContextNote where
  row : NoteRow
  store : String
  sourceProjectPath : Option String
deriving DecidableEq

structure ConventionRecord where
  category : String
  description : String
deriving DecidableEq

/-- The memory of the project. -/
structure MemoryFile where
  path : String
  db : MemoryDb
  nodup_ids : db.ids.Nodup

/-- The memory of a linked project. -/
structure LinkedStore where
  rootPath : String
  path : String
  db : Option MemoryDb
  /-- Whether its listing of a kind succeeds. -/
  lists : String → Bool

/-- A section: its kind and its notes. -/
abbrev Section := String × List ContextNote

/-- `SECTIONS`, with the limits. -/
def sectionDefaults : List (String × ℕ) :=
  [("handoff", 3), ("question", 10), ("decision", 10), ("requirement", 10)]

def defaultUnknownKindLimit : ℕ := 20

def depPassKinds : List String := ["decision", "requirement"]

def crossCuttingKinds : List String := ["decision", "requirement"]

def crossProjectTags : List String := ["locked", "cross-project"]

def packPriority : List String := ["decision", "requirement", "handoff", "question"]

def sectionLimit (kind : String) (limitOverride : Option ℕ) : ℕ :=
  limitOverride.getD
    (((sectionDefaults.find? fun s => s.1 = kind).map Prod.snd).getD defaultUnknownKindLimit)

def noteTokens (n : ContextNote) : ℕ := estimateTokens n.row.title + estimateTokens n.row.body

def conventionTokens (c : ConventionRecord) : ℕ :=
  estimateTokens c.category + estimateTokens c.description

/-- Whether a linked file has the path in it. -/
def onPath (p : String) (r : NoteRow) : Bool :=
  (splitCsv r.linkedFiles).any fun f => decide (p.toList <:+: f.toList)

def isCrossCutting (r : NoteRow) : Bool :=
  (splitCsv r.tags).any fun t => decide (t ∈ crossProjectTags)

/-- The kinds that are shown. -/
def sectionKinds (args : ContextArgs) : List String :=
  args.kind.elim (sectionDefaults.map Prod.fst) fun kind => [kind]

/-- `collect_sections`. -/
def collectSections (order : ScanOrder) (s : MemoryFile) (args : ContextArgs) :
    Option (List Section) :=
  (sectionKinds args).mapM fun kind =>
    (listFiltered order s.db (some kind) none (sectionLimit kind args.limit) false none).map
      fun rows => (kind, (rows.filter fun r => args.path.all fun p => onPath p r).map
        fun r => ⟨r, s.path, none⟩)

/-- `query_dep_cross_cutting`. -/
def queryDepCrossCutting (order : ScanOrder) (dep : LinkedStore) : List ContextNote :=
  match dep.db with
  | none => []
  | some db => crossCuttingKinds.flatMap fun kind =>
    if dep.lists kind then
      (((listFiltered order db (some kind) none 500 false none).getD []).filter
        isCrossCutting).map fun r => ⟨r, dep.path, some dep.rootPath⟩
    else []

/-- By what a linked note is told from those that were seen. -/
def seenKey (n : ContextNote) : String × ℕ := (n.sourceProjectPath.getD "", n.row.id)

/-- `collect_dep_cross_cutting`. -/
def collectDepCrossCutting (order : ScanOrder) (deps : List LinkedStore)
    (seen : List (String × ℕ)) : List ContextNote :=
  Lib.keepFirst seenKey seen (deps.flatMap (queryDepCrossCutting order))

/-- A note at the end of the first section of its kind. -/
def pushNote (n : ContextNote) : List Section → List Section
  | [] => []
  | s :: rest => if s.1 = n.row.kind then (s.1, s.2 ++ [n]) :: rest else s :: pushNote n rest

/-- One linked note merged into the sections. -/
def mergeNote (args : ContextArgs) (sections : List Section) (n : ContextNote) : List Section :=
  if n.row.kind ∈ depPassKinds ∧ (∀ kind ∈ args.kind, n.row.kind = kind) then pushNote n sections
  else sections

/-- `cap_sections`. -/
def capSections (limitOverride : Option ℕ) (sections : List Section) : List Section :=
  sections.map fun s => (s.1, s.2.take (sectionLimit s.1 limitOverride))

/-- The first section of a kind is packed. -/
def packKind (kind : String) (left : ℕ) : List Section → List Section × ℕ
  | [] => ([], left)
  | s :: rest =>
    if s.1 = kind then
      ((s.1, (Lib.pack noteTokens left s.2).1) :: rest, (Lib.pack noteTokens left s.2).2)
    else (s :: (packKind kind left rest).1, (packKind kind left rest).2)

/-- The sections of no priority are packed. -/
def packOthers : List Section → ℕ → List Section × ℕ
  | [], left => ([], left)
  | s :: rest, left =>
    if s.1 ∈ packPriority then (s :: (packOthers rest left).1, (packOthers rest left).2)
    else
      let packed := Lib.pack noteTokens left s.2
      ((s.1, packed.1) :: (packOthers rest packed.2).1, (packOthers rest packed.2).2)

/-- What is emitted; with a budget, the tokens that were packed. -/
structure ContextOutput where
  sections : List Section
  conventions : List ConventionRecord
  tokensUsed : Option ℕ

/-- `apply_budget`. -/
def applyBudget (sections : List Section) (conventions : List ConventionRecord) (budget : ℕ) :
    ContextOutput :=
  let first := packPriority.foldl (fun state kind => packKind kind state.2 state.1)
    (sections, budget)
  let packed := packOthers first.1 first.2
  let rules := Lib.pack conventionTokens packed.2 conventions
  ⟨packed.1, rules.1, some (budget - rules.2)⟩

/-- The sections with what linked projects have for them, cut to their limits. -/
def assembleSections (order : ScanOrder) (deps : List LinkedStore) (args : ContextArgs)
    (sections : List Section) : List Section :=
  capSections args.limit <|
    if args.localOnly then sections
    else
      let seen := sections.flatMap fun s => s.2.map fun n => ("", n.row.id)
      (collectDepCrossCutting order deps seen).foldl (mergeNote args) sections

/-- The conventions that are shown. -/
def loadConventions (index : List ConventionRecord) (args : ContextArgs) : List ConventionRecord :=
  if args.noConventions = false ∧ args.kind = none then index else []

/-- `context`. -/
def context (order : ScanOrder) (s : MemoryFile) (deps : List LinkedStore)
    (index : List ConventionRecord) (args : ContextArgs) : Option ContextOutput :=
  (collectSections order s args).map fun sections =>
    let capped := assembleSections order deps args sections
    let conventions := loadConventions index args
    match args.budget with
    | none => ⟨capped, conventions, none⟩
    | some budget => applyBudget capped conventions budget

end Spelunk
