import Mathlib.Data.Nat.Notation
import Mathlib.Data.List.Basic
import Mathlib.Logic.Function.Iterate

/-!
# PageRank

`compute_pagerank`, over any numbers with the operations it uses: the nodes are the
names in the order they first stand in an edge, every node starts with an equal share,
and each round a node gets a base, its part of what the nodes without outgoing edges
have, and of every node that points to it a part by the number of its edges. An edge
from a node to itself makes it a node and counts for nothing else.
`compute_personalised_pagerank` has weights on some names: these are nodes too, and the
base and what the nodes without outgoing edges have goes to them by their weights.

## Main definitions

* `collectNodes`: The names of an edge list.
* `pagerankStep`: One round.
* `computePagerank`: The scores.
* `pVec`, `personalisedStep`, `computePersonalisedPagerank`: The same with weights.
-/

namespace Spelunk

/-- The damping of the indexer, and how many rounds it runs. -/
def pagerankDamping {R : Type} [Div R] [NatCast R] : R := (85 : ℕ) / (100 : ℕ)

def pagerankIterations : ℕ := 20

/-- `node_index`: a name that is not there yet is added. -/
def addNode (nodes : List String) (name : String) : List String :=
  if name ∈ nodes then nodes else nodes ++ [name]

/-- The names of an edge list, each once. -/
def collectNodes (edges : List (String × String)) : List String :=
  edges.foldl (fun nodes e => addNode (addNode nodes e.1) e.2) []

/-- `out_edges[i]`. -/
def outEdges (nodes : List String) (edges : List (String × String)) (i : ℕ) : List ℕ :=
  edges.filterMap fun e =>
    let fi := nodes.idxOf e.1
    let ti := nodes.idxOf e.2
    if fi ≠ ti ∧ fi = i then some ti else none

/-- `in_edges[i]`. -/
def inEdges (nodes : List String) (edges : List (String × String)) (i : ℕ) : List ℕ :=
  edges.filterMap fun e =>
    let fi := nodes.idxOf e.1
    let ti := nodes.idxOf e.2
    if fi ≠ ti ∧ ti = i then some fi else none

section Scores

variable {R : Type} [Zero R] [One R] [Add R] [Sub R] [Mul R] [Div R] [NatCast R]

/-- One round. -/
def pagerankStep (damping : R) (nodes : List String) (edges : List (String × String))
    (scores : List R) : List R :=
  let n := nodes.length
  let dangling := (List.range n).filter fun i => outEdges nodes edges i = []
  let danglingSum := (dangling.map fun i => scores.getD i 0).foldl (· + ·) 0
  let base := (1 - damping) / (n : R)
  let danglingContrib := damping * danglingSum / (n : R)
  (List.range n).map fun v =>
    (inEdges nodes edges v).foldl
      (fun acc u => acc + damping * scores.getD u 0 / ((outEdges nodes edges u).length : R))
      (base + danglingContrib)

/-- `compute_pagerank`: the scores by name. -/
def computePagerank (edges : List (String × String)) (iterations : ℕ) (damping : R) :
    List (String × R) :=
  if edges = [] then []
  else
    let nodes := collectNodes edges
    let initScore := (1 : R) / (nodes.length : R)
    nodes.zip (Nat.iterate (pagerankStep damping nodes edges) iterations
      (List.replicate nodes.length initScore))

/-- The score of a name, if it is in the graph. -/
def scoreOf (scores : List (String × R)) (name : String) : Option R :=
  (scores.find? (·.1 = name)).map Prod.snd

/-! ### With weights

The weights are a map of names; the list is in the order in which it is gone through. -/

/-- The names with a weight and then those of the edges, each once. -/
def collectPersonalised (personalisation : List (String × R)) (edges : List (String × String)) :
    List String :=
  edges.foldl (fun nodes e => addNode (addNode nodes e.1) e.2)
    (personalisation.foldl (fun nodes p => addNode nodes p.1) [])

/-- `p_vec`: a node's part of all weights. -/
def pVec [Max R] (nodes : List String) (personalisation : List (String × R)) : List R :=
  let totalP := max ((personalisation.map Prod.snd).foldl (· + ·) 0)
    (((1 : ℕ) : R) / ((1000000000 : ℕ) : R))
  personalisation.foldl (fun pVec p => pVec.set (nodes.idxOf p.1) (p.2 / totalP))
    (List.replicate nodes.length 0)

/-- One round. -/
def personalisedStep (damping : R) (nodes : List String) (edges : List (String × String))
    (pVec scores : List R) : List R :=
  let n := nodes.length
  let dangling := (List.range n).filter fun i => outEdges nodes edges i = []
  let danglingSum := (dangling.map fun i => scores.getD i 0).foldl (· + ·) 0
  (List.range n).map fun v =>
    (inEdges nodes edges v).foldl
      (fun acc u => acc + damping * scores.getD u 0 / ((outEdges nodes edges u).length : R))
      (0 + (1 - damping) * pVec.getD v 0 + damping * danglingSum * pVec.getD v 0)

/-- `compute_personalised_pagerank`: the scores by name. -/
def computePersonalisedPagerank [Max R] (edges : List (String × String))
    (personalisation : List (String × R)) (iterations : ℕ) (damping : R) : List (String × R) :=
  if edges = [] then personalisation
  else
    let nodes := collectPersonalised personalisation edges
    let pVec := pVec nodes personalisation
    let init := (1 : R) / (nodes.length : R)
    nodes.zip (Nat.iterate (personalisedStep damping nodes edges pVec) iterations
      (List.replicate nodes.length init))

end Scores

end Spelunk
