import Mathlib.Data.Int.Notation
import Spelunk.Core.HybridSearch
import Spelunk.Lib.Grouping
import Spelunk.Lib.Slices

/-!
# LinearRAG

`linearrag_search`: a pool of chunks from the hybrid search activates the symbols they
mention or call; a graph of chunks and symbols is ranked by personalised PageRank with
these activations; and the pool and the chunks the symbols lead to besides are sorted by
a mixture of both scores.

The scores are rationals. Every hash map and hash set is gone through in an order that
is an argument (`RagOrders`). The rows of the two joins and of `chunks_by_ids` come in the
order of their tables; the results are the ids of the chunks with their distances.

## Main definitions

* `mentionEdgesForChunks`, `chunksMentioningSymbols`: The two joins.
* `activate`, `propagate`: The activation of symbols.
* `RagGraph`, `ragGraph`: The graph and what it is made of.
* `linearragSearch`: The results.
* `Queried`: An answer, with the parameters of the statements.
* `Bound.chunksByIds`, `Bound.mentionEdgesForChunks`, `Bound.chunksMentioningSymbols`,
  `Bound.graphNeighborChunks`: The queries.
-/

namespace Spelunk

/-- δ, the least activation. -/
def entityThreshold : ℚ := 1 / 4

def activationIterations : ℕ := 3

def pprIterations : ℕ := 20

def pprDamping : ℚ := 85 / 100

/-- λ, the weight of the similarity. -/
def mixture : ℚ := 1 / 2

def maxActiveSymbols : ℕ := 150

def maxChunksPerSymbol : ℕ := 50

def maxExpandedChunks : ℕ := 500

/-! ### The index -/

section Index

variable {R : Type}

/-- `ge.source_name = c.name AND ge.source_file = f.path AND ge.kind IN ('mentions', 'calls')`. -/
def ChunkRow.mentionedBy (c : ChunkRow R) (e : EdgeRow) : Bool :=
  decide (c.name.isSome ∧ e.sourceName = c.name ∧ e.sourceFile = c.path ∧
    (e.kind = CodeDb.mentionKind ∨ e.kind = "calls"))

/-- The chunks with a row for their file. -/
def CodeDb.filedChunks (db : CodeDb R) : List (ChunkRow R) :=
  db.chunks.filter fun c => c.path ∈ db.paths

/-- `mention_edges_for_chunks`: the symbols by chunk, in the order of the rows. -/
def CodeDb.mentionEdgesForChunks (db : CodeDb R) (ids : List ℕ) : List (ℕ × List String) :=
  let rows := (db.filedChunks.filter fun c => c.id ∈ ids).flatMap fun c =>
    (db.edges.filter c.mentionedBy).map fun e => (c.id, e.targetName)
  Lib.multimap rows

/-- `chunks_mentioning_symbols`: the chunks by symbol, in the order of the rows. -/
def CodeDb.chunksMentioningSymbols (db : CodeDb R) (symbols : List String) :
    List (String × List ℕ) :=
  let rows := (db.edges.filter fun e => e.targetName ∈ symbols).flatMap fun e =>
    (db.filedChunks.filter fun c => c.mentionedBy e).map fun c => (e.targetName, c.id)
  Lib.multimap rows

/-- `chunks_by_ids`: the ids of the rows. -/
def CodeDb.chunksByIds (db : CodeDb R) (ids : List ℕ) : List ℕ :=
  (db.filedChunks.filter fun c => c.id ∈ ids).map ChunkRow.id

end Index

/-! ### Activation -/

/-- The order of each hash map and hash set of a search. -/
structure RagOrders where
  fused : IterationOrder (ℕ × ℚ)
  mentions : IterationOrder (ℕ × List String)
  inverted : IterationOrder (String × List ℕ)
  activation : IterationOrder (String × ℚ)
  symbols : IterationOrder (String × List ℕ)
  candidates : IterationOrder ℕ

/-- `norm_sim`. -/
def normSim (distance minD range : ℚ) : ℚ := 1 - (distance - minD) / range

/-- `knn_by_id`: a pool of ids and distances, with their similarities in the range of the pool. -/
def knnById (pool : List (ℕ × ℚ)) : List (ℕ × ℚ) :=
  let distances := pool.map Prod.snd
  let minD := distances.foldl min (distances.headD 0)
  let maxD := distances.foldl max (distances.headD 0)
  let range := max (maxD - minD) (1 / 1000000)
  pool.map fun r => (r.1, normSim r.2 minD range)

/-- `e = aq.entry(sym).or_insert(0.0)` and `*e = e.max(sim)`. -/
def raise (aq : List (String × ℚ)) (sym : String) (sim : ℚ) : List (String × ℚ) :=
  if sym ∈ aq.map Prod.fst then aq.map fun p => if p.1 = sym then (p.1, max p.2 sim) else p
  else aq ++ [(sym, max 0 sim)]

/-- The activations that the pool gives. -/
def activate (knn : List (ℕ × ℚ)) (mentions : List (ℕ × List String)) : List (String × ℚ) :=
  mentions.foldl (fun aq m =>
    let sim := (knn.lookup m.1).getD 0
    if entityThreshold < sim then m.2.foldl (fun aq sym => raise aq sym sim) aq else aq) []

/-- `sym_to_knn_chunks`. -/
def symToKnnChunks (mentions : List (ℕ × List String)) : List (String × List ℕ) :=
  Lib.multimap (mentions.flatMap fun m => m.2.map fun sym => (sym, m.1))

/-- One chunk of a symbol in a round; the flag says whether something was raised. -/
def propagateChunk (knn : List (ℕ × ℚ)) (sym : String) (acc : List (String × ℚ) × Bool)
    (cid : ℕ) : List (String × ℚ) × Bool :=
  match knn.lookup cid with
  | none => acc
  | some sim =>
    if entityThreshold < sim then
      (raise acc.1 sym sim, acc.2 || decide ((acc.1.lookup sym).getD 0 < sim))
    else acc

/-- One round. -/
def propagateRound (knn : List (ℕ × ℚ)) (inverted : List (String × List ℕ))
    (aq : List (String × ℚ)) : List (String × ℚ) × Bool :=
  let raised := inverted.foldl (fun acc entry =>
    if entry.1 ∈ acc.1.map Prod.fst then entry.2.foldl (propagateChunk knn entry.1) acc
    else acc) (aq, false)
  (raised.1.filter fun p => entityThreshold ≤ p.2, raised.2)

/-- The rounds: no more than these, and no more after one that raises nothing. -/
def propagate (knn : List (ℕ × ℚ)) (inverted : List (String × List ℕ)) :
    ℕ → List (String × ℚ) → List (String × ℚ)
  | 0, aq => aq
  | n + 1, aq =>
    if aq = [] then aq
    else
      let round := propagateRound knn inverted aq
      if round.2 then propagate knn inverted n round.1 else round.1

/-! ### The graph -/

/-- `chunk_node`. -/
def chunkNode (id : ℕ) : String := "c:" ++ toString id

/-- Both directions of an edge between a chunk and a symbol. -/
def bothWays (p : ℕ × String) : List (String × String) :=
  [(chunkNode p.1, p.2), (p.2, chunkNode p.1)]

/-- What the second loop has come to: the pairs of its edges, the candidates, and how many of these
    are not in the pool. -/
structure Expansion where
  pairs : List (ℕ × String)
  candidates : List ℕ
  totalExtra : ℕ

/-- One chunk of a symbol; the second component is `sym_extra`. -/
def expandChunk (knn : List (ℕ × ℚ)) (sym : String) (acc : Expansion × ℕ) (cid : ℕ) :
    Expansion × ℕ :=
  let isExtra := decide (cid ∉ knn.map Prod.fst)
  if isExtra ∧ (maxChunksPerSymbol ≤ acc.2 ∨ maxExpandedChunks ≤ acc.1.totalExtra) then acc
  else
    ({ pairs := acc.1.pairs ++ [(cid, sym)]
       candidates := if cid ∈ acc.1.candidates then acc.1.candidates
         else acc.1.candidates ++ [cid]
       totalExtra := acc.1.totalExtra + (if isExtra then 1 else 0) },
      acc.2 + (if isExtra then 1 else 0))

/-- The second loop. -/
def expand (knn : List (ℕ × ℚ)) (symToChunks : List (String × List ℕ)) (start : Expansion) :
    Expansion :=
  symToChunks.foldl (fun acc entry =>
    if maxExpandedChunks ≤ acc.totalExtra then acc
    else (entry.2.foldl (expandChunk knn entry.1) (acc, 0)).1) start

/-- The graph that is ranked: the pairs of a chunk and a symbol for which an edge is pushed both
    ways, the candidates, the symbols that are kept, and the activations. -/
structure RagGraph where
  pairs : List (ℕ × String)
  candidates : List ℕ
  activeSyms : List String
  aq : List (String × ℚ)

/-- `bipartite`. -/
def RagGraph.edges (g : RagGraph) : List (String × String) := g.pairs.flatMap bothWays

section Search

variable {R : Type} (orders : RagOrders) (db : CodeDb R)

/-- The activations after the rounds, in the order they are gone through. -/
def ragActivation (pool : List (ℕ × ℚ)) : List (String × ℚ) :=
  let knn := knnById pool
  let mentions := orders.mentions.of (db.mentionEdgesForChunks (pool.map Prod.fst))
  orders.activation.of (propagate knn (orders.inverted.of (symToKnnChunks mentions))
    activationIterations (activate knn mentions))

/-- The graph of a pool; `none` where no symbol is activated. -/
def ragGraph (pool : List (ℕ × ℚ)) : Option RagGraph :=
  let knn := knnById pool
  let mentions := orders.mentions.of (db.mentionEdgesForChunks (pool.map Prod.fst))
  let aq := ragActivation orders db pool
  if aq = [] then none
  else
    let activeSyms := ((rankScores aq).take maxActiveSymbols).map Prod.fst
    let symToChunks := orders.symbols.of (db.chunksMentioningSymbols activeSyms)
    let poolPairs := mentions.flatMap fun m =>
      (m.2.filter fun sym => sym ∈ aq.map Prod.fst).map fun sym => (m.1, sym)
    let expanded := expand knn symToChunks ⟨poolPairs, (pool.map Prod.fst).dedup, 0⟩
    some {
      pairs := expanded.pairs
      candidates := orders.candidates.of expanded.candidates
      activeSyms := activeSyms
      aq := aq }

/-- The mixed scores of the pool and of the other candidates. -/
def ragScores (pool : List (ℕ × ℚ)) (g : RagGraph) : List (ℕ × ℚ) :=
  let knn := knnById pool
  let ppr := computePersonalisedPagerank g.edges g.aq pprIterations pprDamping
  let extra := db.chunksByIds (g.candidates.filter fun id => id ∉ knn.map Prod.fst)
  let found := g.candidates.filterMap fun id => scoreOf ppr (chunkNode id)
  let pprNorm := match found with
    | [] => 1
    | x :: rest => if 0 < rest.foldl max x then rest.foldl max x else 1
  let pprSim (id : ℕ) : ℚ := (scoreOf ppr (chunkNode id)).getD 0 / pprNorm
  (pool.map fun r => (r.1, mixture * (knn.lookup r.1).getD 0 + (1 - mixture) * pprSim r.1)) ++
    extra.map fun id => (id, (1 - mixture) * pprSim id)

/-- The first result of each id. -/
def firstOfEach : List (ℕ × ℚ) → List ℕ → List (ℕ × ℚ)
  | [], _ => []
  | p :: rest, seen =>
    if p.1 ∈ seen then firstOfEach rest seen else p :: firstOfEach rest (p.1 :: seen)

/-- The results of a pool, with their scores: what is fused if nothing is activated. -/
def ragResults (limit : ℕ) (pool : List (ℕ × ℚ)) : List (ℕ × ℚ) :=
  match ragGraph orders db pool with
  | none => pool.take limit
  | some g => ((firstOfEach (rankScores (ragScores db pool g)) []).take limit).map fun p =>
      (p.1, 1 - p.2)

/-- `linearrag_search`: ids and distances. -/
def linearragSearch (similar text : ℕ → Option (List (ChunkRow R))) (limit : ℕ) :
    List (ℕ × ℚ) :=
  let poolSize := min (max (limit * 5) 50) 300
  let pool := ((CodeDb.searchHybrid orders.fused similar text poolSize).getD []).map fun f =>
    (f.row.id, f.distance)
  ragResults orders db limit pool

end Search

end Spelunk

namespace Spelunk

/-! ### Queries with Bound Lists

The four queries of the index that bind a list of ids, names or symbols: a statement takes
no more than a number of parameters, so the list is cut into slices, and a statement is
issued for each.
-/

/-- `SQLITE_MAX_BIND`. -/
def sqliteMaxBind : ℕ := 30000

/-- The answer of a query, and how many placeholders each of its statements has. -/
structure Queried (α : Type) where
  answer : α
  placeholders : List ℕ

section Statements

variable {R : Type} (db : CodeDb R)

/-! ### Statements -/

/-- The rows `WHERE c.id IN (…)`. -/
def CodeDb.rowsByIds (ids : List ℤ) : List (ChunkRow R) :=
  Lib.selectIn (fun c : ChunkRow R => (c.id : ℤ)) db.filedChunks ids

/-- The chunks joined with the edges by which they mention or call. -/
def CodeDb.mentionJoin : List (ChunkRow R × EdgeRow) :=
  db.filedChunks.flatMap fun c => (db.edges.filter c.mentionedBy).map fun e => (c, e)

/-- The rows `WHERE c.id IN (…)` of the join: a chunk and a symbol. -/
def CodeDb.mentionRows (ids : List ℤ) : List (ℕ × String) :=
  (Lib.selectIn (fun j : ChunkRow R × EdgeRow => (j.1.id : ℤ)) db.mentionJoin ids).map
    fun j => (j.1.id, j.2.targetName)

/-- The rows `WHERE ge.target_name IN (…)` of the join: a symbol and a chunk. -/
def CodeDb.mentioningRows (symbols : List String) : List (String × ℕ) :=
  (Lib.selectIn (fun j : ChunkRow R × EdgeRow => j.2.targetName) db.mentionJoin symbols).map
    fun j => (j.2.targetName, j.1.id)

/-- What the names call, and by what they are called; `NULL` is no name. -/
def CodeDb.neighborNames (names : List String) : List String :=
  (db.edges.filter fun e => e.sourceName.any (· ∈ names) ∧ e.kind = "calls").map
      EdgeRow.targetName ++
    (db.edges.filter fun e => e.targetName ∈ names ∧ e.kind = "calls").filterMap
      EdgeRow.sourceName

/-- `SELECT DISTINCT c.id`: the chunks with one of these names. -/
def CodeDb.neighborIds (names : List String) : List ℕ :=
  ((db.chunks.filter fun c => c.name.any (· ∈ db.neighborNames names)).map ChunkRow.id).dedup

/-! ### Queries -/

/-- `chunks_by_ids`. -/
def Bound.chunksByIds (ids : List ℤ) : Queried (List (ChunkRow R)) :=
  let parts := Lib.slices sqliteMaxBind ids
  { answer := parts.flatMap db.rowsByIds
    placeholders := parts.map List.length }

/-- `mention_edges_for_chunks`. -/
def Bound.mentionEdgesForChunks (ids : List ℤ) : Queried (List (ℕ × List String)) :=
  let parts := Lib.slices sqliteMaxBind ids
  { answer := Lib.multimap (parts.flatMap db.mentionRows)
    placeholders := parts.map List.length }

/-- `chunks_mentioning_symbols`. -/
def Bound.chunksMentioningSymbols (symbols : List String) : Queried (List (String × List ℕ)) :=
  let parts := Lib.slices sqliteMaxBind symbols
  { answer := Lib.multimap (parts.flatMap db.mentioningRows)
    placeholders := parts.map List.length }

/-- `graph_neighbor_chunks`: the names are bound twice, and an id that was seen is left out. -/
def Bound.graphNeighborChunks (names : List String) : Queried (List ℕ) :=
  let parts := Lib.slices (sqliteMaxBind / 2) names
  { answer := parts.foldl (fun out part => Lib.addNew out (db.neighborIds part)) []
    placeholders := parts.map fun part => (part ++ part).length }

end Statements

end Spelunk
