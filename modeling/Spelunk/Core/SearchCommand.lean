import Spelunk.Core.ProjectSearch

/-!
# The Search Command

`search`, up to what it prints when nothing is found: which mode asks which index, what the
embedding coverage of the primary index means, and where a search falls back to another kind.
Which sub-query fails, and what the others find, is given.

## Main definitions

* `SearchWorld`: The indexes, and the outcomes of the sub-queries.
* `coverageDisposition`: What the coverage means for a search.
* `searchCommand`: The command.
-/

namespace Spelunk

/-- The counts of embedded chunks and of chunks. -/
structure IndexStats where
  embeddingCount : ℤ
  chunkCount : ℤ
deriving DecidableEq, Repr

/-- `Database::stats`. -/
def ProjectIndex.stats {R : Type} (index : ProjectIndex R) : IndexStats :=
  ⟨index.db.embeddings.length, index.db.chunks.length⟩

/-- The indexes, and the outcomes of the sub-queries: whether the indexes are resolved and the
    statistics of the primary are read, each of the two times; what the full-text search and the
    live search find; whether there is a server, and whether it embeds the query. -/
structure SearchWorld (R : Type) where
  resolvesFirst : Bool
  resolves : Bool
  primary : ProjectIndex R
  linked : List (LinkedProject R)
  statsFirst : Bool
  statsAgain : Bool
  searchText : ℕ → Option (List (SearchResult R))
  server : Bool
  embeds : Bool
  stale : Bool
  live : List (SearchResult R)

/-- Whether the primary is seen to have no chunks. -/
def SearchWorld.isEmpty {R : Type} (w : SearchWorld R) : Bool :=
  w.statsFirst && w.primary.stats.chunkCount = 0

/-- What goes to standard error in front of the results. -/
inductive SearchNotice where
  | stale
  | warmupPartial (embedded total : ℤ)
  | warmupZero (total : ℤ)
  | semanticUnavailable
  | usingText
deriving DecidableEq, Repr

/-- Whether a notice says that something was not searched. -/
def SearchNotice.namesIncompleteness : SearchNotice → Bool
  | .stale => false
  | _ => true

inductive SearchError where
  | noIndex
  | noFtsIndex
  | emptyIndex
  | noServer
  | warmup (mode : String) (total : ℤ)
  | notOpened
  | notEmbedded
deriving DecidableEq, Repr

/-- What the command ends with: an error, results, `No results found.`, or that nothing was found in
    the embedded portion. -/
inductive SearchPrinted (R : Type) where
  | error (e : SearchError)
  | results (all : List (SearchResult R))
  | noResults
  | noResultsInPortion (embedded total : ℤ)

/-- The notices and the end of a run. -/
structure SearchOutcome (R : Type) where
  notices : List SearchNotice
  printed : SearchPrinted R

inductive CoverageDisposition where
  | complete
  | partialNotice
  | zeroFallBack
  | zeroExplicitError
deriving DecidableEq, Repr

def coverageDisposition (embedded total : ℤ) (autoMode : Bool) : CoverageDisposition :=
  if total ≤ 0 ∨ embedded ≥ total then .complete
  else if embedded ≤ 0 then
    if autoMode then .zeroFallBack else .zeroExplicitError
  else .partialNotice

section Command

variable {R : Type}

/-- The end of a run that has found these. -/
def printFound (notices : List SearchNotice) (found : List (SearchResult R)) : SearchOutcome R :=
  match found with
  | [] => ⟨notices, .noResults⟩
  | _ => ⟨notices, .results found⟩

/-- `search_live`. -/
def searchLive (w : SearchWorld R) (notices : List SearchNotice) : SearchOutcome R :=
  printFound notices w.live

/-- Text mode. A full-text search that fails finds nothing. -/
def searchTextMode (args : SearchArgs) (w : SearchWorld R) (notices : List SearchNotice) :
    SearchOutcome R :=
  if w.primary.opens then printFound notices ((w.searchText (min args.limit 100)).getD [])
  else ⟨notices, .error .notOpened⟩

/-- The search with the vector of the query, over a corpus of which so much is embedded. -/
def searchVector (args : SearchArgs) (w : SearchWorld R) (coverage : Option IndexStats)
    (notices : List SearchNotice) : SearchOutcome R :=
  let coveragePartial := coverage.any fun s => s.embeddingCount < s.chunkCount
  match searchAllDbsLinearrag w.primary (args.deps w.linked) args.fetchLimit with
  | none => ⟨notices, .error .notOpened⟩
  | some res =>
    if args.mode = "auto" ∧ res.isEmpty ∧ coveragePartial then
      searchTextMode args w (notices ++ [.usingText])
    else if args.mode = "auto" ∧ res.isEmpty ∧ !args.noStaleCheck ∧ w.stale then
      searchLive w notices
    else if res.isEmpty ∧ coveragePartial then
      match coverage with
      | some s => ⟨notices, .noResultsInPortion s.embeddingCount s.chunkCount⟩
      | none => ⟨notices, .noResultsInPortion 0 0⟩
    else printFound notices res

/-- The embedding of the query; without one, auto mode searches live. -/
def searchEmbedded (args : SearchArgs) (w : SearchWorld R) (coverage : Option IndexStats)
    (notices : List SearchNotice) : SearchOutcome R :=
  if w.server ∧ w.embeds then searchVector args w coverage notices
  else if args.mode = "auto" then searchLive w (notices ++ [.semanticUnavailable])
  else ⟨notices, .error .notEmbedded⟩

/-- The search of an index that is there, by its coverage. -/
def searchCovered (args : SearchArgs) (w : SearchWorld R) (notices : List SearchNotice) :
    SearchOutcome R :=
  if args.mode = "text" then searchTextMode args w notices
  else
    let coverage := if w.statsAgain then some w.primary.stats else none
    match coverage with
    | none => searchEmbedded args w none notices
    | some s =>
      match coverageDisposition s.embeddingCount s.chunkCount (args.mode = "auto") with
      | .complete => searchEmbedded args w coverage notices
      | .partialNotice =>
        searchEmbedded args w coverage (notices ++ [.warmupPartial s.embeddingCount s.chunkCount])
      | .zeroFallBack => searchLive w (notices ++ [.warmupZero s.chunkCount])
      | .zeroExplicitError => ⟨notices, .error (.warmup args.mode s.chunkCount)⟩

/-- The command. -/
def searchCommand (args : SearchArgs) (w : SearchWorld R) : SearchOutcome R :=
  if args.mode = "auto" ∧ (w.resolvesFirst = false ∨ w.isEmpty = true) then searchLive w []
  else if args.mode = "ast-grep" then searchLive w []
  else if w.resolves = false then ⟨[], .error .noIndex⟩
  else if args.mode ≠ "auto" ∧ w.isEmpty = true then
    ⟨[], .error (if args.mode = "text" then .noFtsIndex else .emptyIndex)⟩
  else
    let notices := if !args.noStaleCheck ∧ w.stale then [SearchNotice.stale] else []
    if (args.mode = "semantic" ∨ args.mode = "hybrid") ∧ w.server = false then
      ⟨notices, .error .noServer⟩
    else searchCovered args w notices

end Command

end Spelunk
