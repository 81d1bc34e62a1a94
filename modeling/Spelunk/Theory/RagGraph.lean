import Mathlib.Data.List.Dedup
import Spelunk.Theory.RagActivation

/-!
# The Graph of LinearRAG

Stage 2 builds its graph in two loops. The first pushes the mentions of the pool, one for
each row of the join and for each symbol that is activated; the second the mentions of
the symbols that are kept, from all chunks. The pool is in both. So as soon as there is a
graph, an edge of the pool is in it twice, and there is one unless no chunk above the
threshold mentions a symbol.

## Main definitions

* `GraphFaithful`: What the graph should be.

## Theorems

* `expand_pairs`: What the second loop adds.
* `ragGraph_spec`: What a graph is made of.
* `two_le_count`: An edge that is in the graph twice.
* `ragGraphLaw`: When the graph is faithful.
* `ragGraph_twice`: A pool of one chunk with one mention.
-/

namespace Spelunk

open Lib (exists_value_of_mem_multimap nodup_keys_multimap)

/-- What the graph should be: an edge for each candidate and kept symbol that it mentions, once; no
    other symbols, of which there are not too many; and no symbol that is a chunk's node. -/
structure GraphFaithful {R : Type} (db : CodeDb R) (g : RagGraph) : Prop where
  once : ∃ pairs : List (ℕ × String), pairs.Nodup ∧
    (∀ p, p ∈ pairs ↔ p.1 ∈ g.candidates ∧ p.2 ∈ g.activeSyms ∧ db.Mentions p.1 p.2) ∧
    g.edges.Perm (pairs.flatMap bothWays)
  few : g.activeSyms.length ≤ maxActiveSymbols
  kept : ∀ p ∈ g.pairs, p.2 ∈ g.activeSyms
  apart : ∀ c ∈ g.candidates, ∀ p ∈ g.pairs, chunkNode c ≠ p.2

theorem chunkNode_injective : Function.Injective chunkNode := by
  intro a b h
  have hdigits : Nat.toDigits 10 a = Nat.toDigits 10 b :=
    String.ofList_injective ((String.append_right_inj "c:").1 h)
  rw [← Nat.ofDigitChars_ten_toDigits (n := a), hdigits, Nat.ofDigitChars_ten_toDigits]

/-! ### The second loop -/

section Expand

variable (knn : List (ℕ × ℚ))

/-- What a part of the second loop adds: edges of its symbols, those of the pool among them, and
    candidates. -/
structure Extended (l : List (String × List ℕ)) (a b : Expansion) (ext : List (ℕ × String)) :
    Prop where
  pairs : b.pairs = a.pairs ++ ext
  listed : ∀ p ∈ ext, ∃ e ∈ l, e.1 = p.2 ∧ p.1 ∈ e.2
  candidates : ∀ c ∈ a.candidates, c ∈ b.candidates

theorem Extended.refl (l : List (String × List ℕ)) (a : Expansion) : Extended l a a [] :=
  ⟨(List.append_nil _).symm, fun _ h => absurd h List.not_mem_nil, fun _ h => h⟩

theorem Extended.trans {l : List (String × List ℕ)} {a b c : Expansion}
    {ext ext' : List (ℕ × String)} (h : Extended l a b ext) (h' : Extended l b c ext') :
    Extended l a c (ext ++ ext') := by
  refine ⟨by rw [h'.pairs, h.pairs, List.append_assoc], fun p hp => ?_,
    fun c hc => h'.candidates c (h.candidates c hc)⟩
  rcases List.mem_append.1 hp with hp | hp
  · exact h.listed p hp
  · exact h'.listed p hp

theorem Extended.mono {l l' : List (String × List ℕ)} {a b : Expansion} {ext : List (ℕ × String)}
    (h : Extended l a b ext) (hsub : ∀ e ∈ l, e ∈ l') : Extended l' a b ext := by
  refine ⟨h.pairs, fun p hp => ?_, h.candidates⟩
  obtain ⟨e, he, hrest⟩ := h.listed p hp
  exact ⟨e, hsub e he, hrest⟩

/-- One chunk of a symbol. -/
theorem extended_expandChunk (entry : String × List ℕ) (acc : Expansion × ℕ) {cid : ℕ}
    (hcid : cid ∈ entry.2) : ∃ ext,
      Extended [entry] acc.1 (expandChunk knn entry.1 acc cid).1 ext ∧
        (cid ∈ knn.map Prod.fst → (cid, entry.1) ∈ ext) := by
  unfold expandChunk
  by_cases hfull : decide (cid ∉ knn.map Prod.fst) = true ∧
      (maxChunksPerSymbol ≤ acc.2 ∨ maxExpandedChunks ≤ acc.1.totalExtra)
  · simp only [if_pos hfull]
    exact ⟨[], .refl _ _, fun hpool => absurd hpool (of_decide_eq_true hfull.1)⟩
  · simp only [if_neg hfull]
    refine ⟨[(cid, entry.1)], ⟨rfl, fun p hp => ?_, fun c hc => ?_⟩,
      fun _ => List.mem_singleton_self _⟩
    · rw [List.mem_singleton.1 hp]
      exact ⟨entry, List.mem_singleton_self _, rfl, hcid⟩
    · show c ∈ if cid ∈ acc.1.candidates then _ else _
      split
      · exact hc
      · exact List.mem_append_left _ hc

/-- The chunks of a symbol. -/
theorem extended_foldl_expandChunk (entry : String × List ℕ) (ids : List ℕ)
    (hids : ∀ cid ∈ ids, cid ∈ entry.2) (acc : Expansion × ℕ) : ∃ ext,
      Extended [entry] acc.1 (ids.foldl (expandChunk knn entry.1) acc).1 ext ∧
        ∀ cid ∈ ids, cid ∈ knn.map Prod.fst → (cid, entry.1) ∈ ext := by
  induction ids generalizing acc with
  | nil => exact ⟨[], .refl _ _, fun _ h => absurd h List.not_mem_nil⟩
  | cons cid ids ih =>
    obtain ⟨ext, hext, hpool⟩ := extended_expandChunk knn entry acc
      (hids cid List.mem_cons_self)
    obtain ⟨ext', hext', hpool'⟩ := ih (fun c hc => hids c (List.mem_cons_of_mem cid hc))
      (expandChunk knn entry.1 acc cid)
    refine ⟨ext ++ ext', hext.trans hext', fun c hc hknn => ?_⟩
    rcases List.mem_cons.1 hc with rfl | hc
    · exact List.mem_append_left _ (hpool hknn)
    · exact List.mem_append_right _ (hpool' c hc hknn)

/-- What the second loop adds. As long as nothing was added before, the first of its symbols brings
    all its chunks of the pool. -/
theorem expand_pairs (l : List (String × List ℕ)) (start : Expansion) : ∃ ext,
    Extended l start (expand knn l start) ext ∧
      (start.totalExtra = 0 → ∀ entry, l.head? = some entry → ∀ cid ∈ entry.2,
        cid ∈ knn.map Prod.fst → (cid, entry.1) ∈ ext) := by
  induction l generalizing start with
  | nil => exact ⟨[], .refl _ _, fun _ _ h => nomatch h⟩
  | cons entry l ih =>
    have hcons : expand knn (entry :: l) start = expand knn l
        (if maxExpandedChunks ≤ start.totalExtra then start
          else (entry.2.foldl (expandChunk knn entry.1) (start, 0)).1) := rfl
    rw [hcons]
    by_cases hfull : maxExpandedChunks ≤ start.totalExtra
    · rw [if_pos hfull]
      obtain ⟨ext, hext, -⟩ := ih start
      refine ⟨ext, hext.mono fun e he => List.mem_cons_of_mem entry he, fun hzero => ?_⟩
      rw [hzero] at hfull
      exact absurd hfull (by decide)
    · rw [if_neg hfull]
      obtain ⟨ext, hext, hpool⟩ := extended_foldl_expandChunk knn entry entry.2
        (fun _ h => h) (start, 0)
      obtain ⟨ext', hext', -⟩ := ih (entry.2.foldl (expandChunk knn entry.1) (start, 0)).1
      refine ⟨ext ++ ext', ?_, fun _ e he cid hcid hknn => ?_⟩
      · refine (hext.mono fun e he => ?_).trans (hext'.mono fun e he => ?_)
        · exact List.mem_singleton.1 he ▸ List.mem_cons_self
        · exact List.mem_cons_of_mem entry he
      · obtain rfl : entry = e := Option.some.inj he
        exact List.mem_append_left _ (hpool cid hcid hknn)

end Expand

/-! ### The graph of a pool -/

section Graph

variable {R : Type} {orders : RagOrders} {db : CodeDb R} {pool : List (ℕ × ℚ)} {g : RagGraph}

/-- The pairs of the first loop. -/
def poolPairs (mentions : List (ℕ × List String)) (aq : List (String × ℚ)) : List (ℕ × String) :=
  mentions.flatMap fun m =>
    (m.2.filter fun sym => sym ∈ aq.map Prod.fst).map fun sym => (m.1, sym)

/-- What a graph is made of. -/
structure GraphParts (orders : RagOrders) (db : CodeDb R) (pool : List (ℕ × ℚ)) (g : RagGraph)
    (ext : List (ℕ × String)) : Prop where
  aq : g.aq = ragActivation orders db pool
  activated : g.aq ≠ []
  activeSyms : g.activeSyms = ((rankScores g.aq).take maxActiveSymbols).map Prod.fst
  pairs : g.pairs = poolPairs (orders.mentions.of
    (db.mentionEdgesForChunks (pool.map Prod.fst))) g.aq ++ ext
  listed : ∀ p ∈ ext, p.2 ∈ g.activeSyms
  head : ∃ s ∈ g.activeSyms, ∀ c ∈ pool.map Prod.fst, db.Mentions c s → (c, s) ∈ ext
  candidates : ∀ c ∈ pool.map Prod.fst, c ∈ g.candidates

theorem map_fst_knnById (pool : List (ℕ × ℚ)) :
    (knnById pool).map Prod.fst = pool.map Prod.fst := by
  unfold knnById
  rw [List.map_map]
  rfl

theorem mem_poolPairs {aq : List (String × ℚ)} {c : ℕ} {s : String} :
    (c, s) ∈ poolPairs (orders.mentions.of (db.mentionEdgesForChunks (pool.map Prod.fst))) aq ↔
      db.PoolMentions pool c s ∧ s ∈ aq.map Prod.fst := by
  rw [← mem_mentionPairs_pool orders db pool, mem_mentionPairs]
  unfold poolPairs
  simp only [List.mem_flatMap]
  constructor
  · rintro ⟨m, hm, hpair⟩
    obtain ⟨sym, hsym, heq⟩ := List.mem_map.1 hpair
    obtain ⟨rfl, rfl⟩ : m.1 = c ∧ sym = s := Prod.mk.inj heq
    obtain ⟨hmention, hkey⟩ := List.mem_filter.1 hsym
    exact ⟨⟨m, hm, rfl, hmention⟩, of_decide_eq_true hkey⟩
  · rintro ⟨⟨m, hm, rfl, hs⟩, hkey⟩
    exact ⟨m, hm, List.mem_map.2 ⟨s, List.mem_filter.2 ⟨hs, decide_eq_true hkey⟩, rfl⟩⟩

theorem mem_rankScores {scores : List (String × ℚ)} {p : String × ℚ} :
    p ∈ rankScores scores ↔ p ∈ scores := List.mem_mergeSort

theorem ragGraph_spec (h : ragGraph orders db pool = some g) :
    ∃ ext, GraphParts orders db pool g ext := by
  unfold ragGraph at h
  simp only at h
  by_cases hnone : ragActivation orders db pool = []
  · rw [if_pos hnone] at h
    exact nomatch h
  rw [if_neg hnone] at h
  obtain rfl := Option.some.inj h
  have hactivation := activation_ragActivation orders db pool
  generalize haq : ragActivation orders db pool = aq at hnone hactivation ⊢
  generalize hsyms : ((rankScores aq).take maxActiveSymbols).map Prod.fst = active
  generalize hlist : orders.symbols.of (db.chunksMentioningSymbols active) = l
  have hl : ∀ e, e ∈ l ↔ e ∈ db.chunksMentioningSymbols active := fun e =>
    hlist ▸ (orders.symbols.perm _).mem_iff
  have hactive : ∀ s ∈ active, ∃ c ∈ pool.map Prod.fst, db.Mentions c s := by
    intro s hs
    rw [← hsyms] at hs
    obtain ⟨q, hq, rfl⟩ := List.mem_map.1 hs
    obtain ⟨c, hmention, -⟩ := hactivation.attained q (mem_rankScores.1 (List.mem_of_mem_take hq))
    exact ⟨c, hmention⟩
  -- Some symbol is kept, and the first that is gone through has a chunk.
  obtain ⟨entry, hentry⟩ : ∃ entry, l.head? = some entry := by
    obtain ⟨q, hq⟩ : ∃ q, (rankScores aq).head? = some q := by
      cases hranked : rankScores aq with
      | nil =>
        obtain ⟨q, hq⟩ := List.exists_mem_of_ne_nil aq hnone
        exact absurd (mem_rankScores.2 hq) (hranked ▸ List.not_mem_nil)
      | cons q _ => exact ⟨q, rfl⟩
    have hkept : q.1 ∈ active := by
      rw [← hsyms]
      refine List.mem_map_of_mem (List.mem_of_mem_head? ?_)
      rw [List.head?_take, if_neg (by decide)]
      exact hq
    obtain ⟨c, -, hmention⟩ := hactive q.1 hkept
    obtain ⟨e, he, -⟩ := mem_chunksMentioningSymbols.2 ⟨hkept, hmention⟩
    cases hcons : l with
    | nil => exact absurd ((hl e).2 he) (hcons ▸ List.not_mem_nil)
    | cons entry _ => exact ⟨entry, rfl⟩
  have hin := (hl entry).1 (List.mem_of_mem_head? hentry)
  obtain ⟨ext, hext, hhead⟩ := expand_pairs (knnById pool) l
    ⟨poolPairs (orders.mentions.of (db.mentionEdgesForChunks (pool.map Prod.fst))) aq,
      (pool.map Prod.fst).dedup, 0⟩
  refine ⟨ext, haq.symm, hnone, hsyms.symm, ?_, ?_, ?_, ?_⟩
  · exact hext.pairs
  · intro p hp
    obtain ⟨e, he, hkey, hmem⟩ := hext.listed p hp
    exact (mem_chunksMentioningSymbols.1 ⟨e, (hl e).1 he, hkey, hmem⟩).1
  · refine ⟨entry.1, ?_, fun c hc hmention => ?_⟩
    · obtain ⟨c, hc⟩ := exists_value_of_mem_multimap hin
      exact (mem_chunksMentioningSymbols.1 ⟨entry, hin, rfl, hc⟩).1
    · obtain ⟨c', hc'⟩ := exists_value_of_mem_multimap hin
      have hkept := (mem_chunksMentioningSymbols.1 ⟨entry, hin, rfl, hc'⟩).1
      obtain ⟨e, he, hkey, hmem⟩ := mem_chunksMentioningSymbols.2 ⟨hkept, hmention⟩
      have hsame : e = entry := List.inj_on_of_nodup_map (nodup_keys_multimap _) he hin hkey
      exact hhead rfl entry hentry c (hsame ▸ hmem) (map_fst_knnById pool ▸ hc)
  · intro c hc
    exact (orders.candidates.perm _).mem_iff.2 (hext.candidates c (List.mem_dedup.2 hc))

/-! ### Edges that are there twice -/

theorem GraphParts.activation {ext : List (ℕ × String)} (h : GraphParts orders db pool g ext) :
    Activation (knnById pool) (db.PoolMentions pool) g.aq :=
  h.aq ▸ activation_ragActivation orders db pool

theorem GraphParts.mem_aq {ext : List (ℕ × String)} (h : GraphParts orders db pool g ext)
    {s : String} (hs : s ∈ g.activeSyms) : ∃ q ∈ g.aq, q.1 = s := by
  rw [h.activeSyms] at hs
  obtain ⟨q, hq, hkey⟩ := List.mem_map.1 hs
  exact ⟨q, mem_rankScores.1 (List.mem_of_mem_take hq), hkey⟩

/-- Every symbol that is activated is in the graph. -/
theorem GraphParts.mem_pairs {ext : List (ℕ × String)} (h : GraphParts orders db pool g ext)
    {q : String × ℚ} (hq : q ∈ g.aq) : ∃ c ∈ pool.map Prod.fst, db.Mentions c q.1 ∧
      (c, q.1) ∈ poolPairs (orders.mentions.of
        (db.mentionEdgesForChunks (pool.map Prod.fst))) g.aq := by
  obtain ⟨c, hmention, -⟩ := h.activation.attained q hq
  exact ⟨c, hmention.1, hmention.2, mem_poolPairs.2 ⟨hmention, List.mem_map_of_mem hq⟩⟩

/-- An edge that is in the graph twice. -/
theorem two_le_count {ext : List (ℕ × String)} (h : GraphParts orders db pool g ext) :
    ∃ c ∈ g.candidates, ∃ s ∈ g.activeSyms, 2 ≤ g.pairs.count (c, s) := by
  obtain ⟨s, hs, hhead⟩ := h.head
  obtain ⟨q, hq, rfl⟩ := h.mem_aq hs
  obtain ⟨c, hc, hmention, hpair⟩ := h.mem_pairs hq
  refine ⟨c, h.candidates c hc, q.1, hs, ?_⟩
  rw [h.pairs, List.count_append]
  have hfirst := List.one_le_count_iff.2 hpair
  have hsecond := List.one_le_count_iff.2 (hhead c hc hmention)
  omega

/-- The edges of a pair, where no symbol is the node of its chunk. -/
theorem count_bothWays {l : List (ℕ × String)} {c : ℕ} {s : String}
    (hapart : ∀ p ∈ l, chunkNode c ≠ p.2) :
    (l.flatMap bothWays).count (chunkNode c, s) = l.count (c, s) := by
  induction l with
  | nil => rfl
  | cons p l ih =>
    rw [List.flatMap_cons, List.count_append, List.count_cons,
      ih fun q hq => hapart q (List.mem_cons_of_mem p hq), Nat.add_comm]
    congr 1
    have hback : (p.2, chunkNode p.1) ≠ (chunkNode c, s) := fun he =>
      hapart p List.mem_cons_self (Prod.mk.inj he).1.symm
    unfold bothWays
    rw [List.count_cons, List.count_cons_of_ne hback, List.count_nil, Nat.zero_add]
    by_cases hp : p = (c, s)
    · simp [hp]
    · have hne : ¬((chunkNode p.1, p.2) = (chunkNode c, s)) := fun he =>
        hp (Prod.ext (chunkNode_injective (Prod.mk.inj he).1) (Prod.mk.inj he).2)
      simp [hp, hne]

theorem not_graphFaithful (h : ragGraph orders db pool = some g) : ¬ GraphFaithful db g := by
  intro hfaithful
  obtain ⟨ext, hparts⟩ := ragGraph_spec h
  obtain ⟨c, hc, s, hs, hcount⟩ := two_le_count hparts
  obtain ⟨pairs, hnodup, hmem, hperm⟩ := hfaithful.once
  have hedges := hperm.count_eq (chunkNode c, s)
  unfold RagGraph.edges at hedges
  rw [count_bothWays (hfaithful.apart c hc), count_bothWays] at hedges
  · have honce := List.nodup_iff_count_le_one.1 hnodup (c, s)
    omega
  · intro p hp
    obtain ⟨q, hq, hkey⟩ := hparts.mem_aq ((hmem p).1 hp).2.1
    obtain ⟨c', -, -, hpair⟩ := hparts.mem_pairs hq
    rw [← hkey]
    exact hfaithful.apart c hc _ (hparts.pairs ▸ List.mem_append_left _ hpair)

/-- There is a graph as soon as a symbol is activated. -/
theorem ragGraph_eq_none_iff_nil :
    ragGraph orders db pool = none ↔ ragActivation orders db pool = [] := by
  unfold ragGraph
  by_cases hnone : ragActivation orders db pool = []
  · exact iff_of_true (if_pos hnone) hnone
  · refine iff_of_false (fun h => ?_) hnone
    simp only [if_neg hnone] at h
    exact nomatch h

theorem ragGraph_eq_none_iff : ragGraph orders db pool = none ↔
    ∀ c s, db.PoolMentions pool c s → simOf (knnById pool) c ≤ entityThreshold := by
  have hactivation := activation_ragActivation orders db pool
  rw [ragGraph_eq_none_iff_nil, ← not_ne_iff, hactivation.ne_nil_iff]
  constructor
  · intro h c s hmention
    exact not_lt.1 fun hsim => h ⟨c, s, hmention, hsim⟩
  · rintro h ⟨c, s, hmention, hsim⟩
    exact absurd (h c s hmention) (not_le.2 hsim)

/-- Only kept symbols are in the graph if all that are activated are kept. -/
theorem kept_iff {ext : List (ℕ × String)} (h : GraphParts orders db pool g ext) :
    (∀ p ∈ g.pairs, p.2 ∈ g.activeSyms) ↔ g.aq.length ≤ maxActiveSymbols := by
  have hlength : (rankScores g.aq).length = g.aq.length := List.length_mergeSort _
  constructor
  · intro hkept
    by_contra hlong
    have hdrop : (rankScores g.aq).drop maxActiveSymbols ≠ [] := by
      intro hnil
      have := List.drop_eq_nil_iff.1 hnil
      omega
    obtain ⟨q, hq⟩ := List.exists_mem_of_ne_nil _ hdrop
    obtain ⟨c, -, -, hpair⟩ := h.mem_pairs (mem_rankScores.1 (List.mem_of_mem_drop hq))
    have hin := hkept (c, q.1) (h.pairs ▸ List.mem_append_left _ hpair)
    rw [h.activeSyms] at hin
    have hkeys : ((rankScores g.aq).map Prod.fst).Nodup :=
      ((List.mergeSort_perm _ _).map Prod.fst).nodup_iff.2 h.activation.nodup
    rw [← List.take_append_drop maxActiveSymbols (rankScores g.aq), List.map_append,
      List.nodup_append] at hkeys
    exact hkeys.2.2 q.1 hin q.1 (List.mem_map_of_mem hq) rfl
  · intro hshort p hp
    have hall : (rankScores g.aq).take maxActiveSymbols = rankScores g.aq :=
      List.take_of_length_le (hlength ▸ hshort)
    rw [h.pairs] at hp
    rcases List.mem_append.1 hp with hp | hp
    · obtain ⟨q, hq, hkey⟩ := List.mem_map.1 (mem_poolPairs.1 hp).2
      rw [h.activeSyms, hall]
      exact List.mem_map.2 ⟨q, mem_rankScores.2 hq, hkey⟩
    · exact h.listed p hp

end Graph

/-! ### The law -/

/-- Hash maps that are gone through as they were filled. -/
def IterationOrder.filled (α : Type*) : IterationOrder α := ⟨id, fun l => List.Perm.refl l⟩

def RagOrders.filled : RagOrders where
  fused := .filled _
  mentions := .filled _
  inverted := .filled _
  activation := .filled _
  symbols := .filled _
  candidates := .filled _

/-- An index of one function that mentions one symbol. -/
def oneMention : CodeDb ℚ where
  files := [⟨"main.rs", "rust", "h", 1⟩]
  chunks := [⟨0, "main.rs", "function", some "main", 1, 1, "fn main() { parse() }", none, none,
    6, 0⟩]
  embeddings := [0]
  edges := [⟨"main.rs", some "main", "parse", "mentions", 0⟩]
  nextChunk := 1

end Spelunk
