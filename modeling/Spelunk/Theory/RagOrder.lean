import Spelunk.Theory.HybridOrder
import Spelunk.Theory.PageRankMass
import Spelunk.Theory.RagGraph

/-!
# The Order of LinearRAG Results

The pipeline of `linearrag_search` goes through several hash maps. What it takes from them
is a list up to its order as long as no cut falls between two entries of one score: the
cut of the pool, that of the symbols, and the bound on the chunks that are added, which
takes them as they come. Then the ranks are the same, and the results are if no two of
one score come into them.

## Main definitions

* `capped`, `Room`: The chunks of a symbol for which there is an edge, if the bound takes none away.
* `SymbolsClear`, `RagClear`: No cut is made between equals.
* `SameGraph`, `SameRun`: What is the same in two orders.
* `ragKey`, `RagDecided`: What chunks are sorted by, and that those sorted alike are behind the cut.

## Theorems

* `expand_eq`: The second loop, as long as its bound takes nothing away.
* `sameGraph_ragGraph`: The graphs of two orders.
* `ragScores_perm`: Their scores.
* `linearrag_iff`: When the order does not matter.
* `hybridRankingLaw`: When the results are a function of the data.
* `hybrid_tie`: A result of each list, of which one is asked for.
-/

namespace Spelunk

open Lib (ranked Descending Decided CutClear lookup_of_mem mem_of_lookup toFront toFront_perm
  addNew)

/-! ### Lists in another order -/

section Orders

theorem lookup_perm {κ β : Type*} [DecidableEq κ] {l l' : List (κ × β)} (hperm : l.Perm l')
    (hnodup : (l.map Prod.fst).Nodup) (k : κ) : l.lookup k = l'.lookup k := by
  have hiff : ∀ {l : List (κ × β)}, (l.map Prod.fst).Nodup → ∀ v, l.lookup k = some v ↔
      (k, v) ∈ l := fun h v => ⟨mem_of_lookup, fun hmem => lookup_of_mem h hmem⟩
  refine Option.ext fun v => ?_
  rw [hiff hnodup, hiff ((hperm.map Prod.fst).nodup_iff.1 hnodup), hperm.mem_iff]

/-- The least of some values is one of them. -/
theorem foldl_min_spec {S : Type*} [LinearOrder S] (x : S) (l : List S) :
    l.foldl min x ∈ x :: l ∧ ∀ y ∈ x :: l, l.foldl min x ≤ y := by
  induction l generalizing x with
  | nil => exact ⟨List.mem_cons_self, fun y hy => (List.mem_singleton.1 hy).ge⟩
  | cons a l ih =>
    obtain ⟨hmem, hle⟩ := ih (min x a)
    rw [List.foldl_cons]
    refine ⟨?_, fun y hy => ?_⟩
    · rcases List.mem_cons.1 hmem with heq | hmem
      · rw [heq]
        rcases min_choice x a with h | h <;> rw [h] <;> simp
      · exact List.mem_cons_of_mem x (List.mem_cons_of_mem a hmem)
    · have hleast := hle (min x a) List.mem_cons_self
      rcases List.mem_cons.1 hy with rfl | hy
      · exact hleast.trans (min_le_left _ _)
      · rcases List.mem_cons.1 hy with rfl | hy
        · exact hleast.trans (min_le_right _ _)
        · exact hle y (List.mem_cons_of_mem _ hy)

theorem foldl_min_perm {S : Type*} [LinearOrder S] {l l' : List S} (hperm : l.Perm l') (d : S) :
    l.foldl min (l.headD d) = l'.foldl min (l'.headD d) := by
  have hspec : ∀ {l : List S}, l ≠ [] → l.foldl min (l.headD d) ∈ l ∧
      ∀ y ∈ l, l.foldl min (l.headD d) ≤ y := by
    intro l hne
    cases l with
    | nil => exact absurd rfl hne
    | cons a l =>
      obtain ⟨hmem, hle⟩ := foldl_min_spec a (a :: l)
      refine ⟨?_, fun y hy => hle y (List.mem_cons_of_mem a hy)⟩
      rcases List.mem_cons.1 hmem with heq | hmem
      · exact List.mem_cons.2 (.inl heq)
      · exact hmem
  by_cases hnil : l = []
  · subst hnil
    rw [hperm.nil_eq.symm]
  · have hnil' : l' ≠ [] := fun he => hnil (he ▸ hperm).eq_nil
    obtain ⟨hmem, hle⟩ := hspec hnil
    obtain ⟨hmem', hle'⟩ := hspec hnil'
    exact le_antisymm (hle _ (hperm.mem_iff.2 hmem')) (hle' _ (hperm.mem_iff.1 hmem))

theorem foldl_max_perm {S : Type*} [LinearOrder S] {l l' : List S} (hperm : l.Perm l') (d : S) :
    l.foldl max (l.headD d) = l'.foldl max (l'.headD d) := foldl_min_perm (S := Sᵒᵈ) hperm d

end Orders

/-! ### Pools -/

section Pools

variable {pool pool' : List (ℕ × ℚ)}

theorem knnById_perm (hperm : pool.Perm pool') : (knnById pool).Perm (knnById pool') := by
  unfold knnById
  simp only [foldl_min_perm (hperm.map Prod.snd) 0, foldl_max_perm (hperm.map Prod.snd) 0]
  exact hperm.map _

theorem simOf_perm (hperm : pool.Perm pool') (hnodup : (pool.map Prod.fst).Nodup) (c : ℕ) :
    simOf (knnById pool) c = simOf (knnById pool') c := by
  unfold simOf
  rw [lookup_perm (knnById_perm hperm) (map_fst_knnById pool ▸ hnodup)]

variable {R : Type} {db : CodeDb R}

theorem mentionEdgesForChunks_congr {ids ids' : List ℕ} (h : ∀ c, c ∈ ids ↔ c ∈ ids') :
    db.mentionEdgesForChunks ids = db.mentionEdgesForChunks ids' := by
  unfold CodeDb.mentionEdgesForChunks
  simp only [h]

theorem chunksMentioningSymbols_congr {symbols symbols' : List String}
    (h : ∀ s, s ∈ symbols ↔ s ∈ symbols') :
    db.chunksMentioningSymbols symbols = db.chunksMentioningSymbols symbols' := by
  unfold CodeDb.chunksMentioningSymbols
  simp only [h]

theorem chunksByIds_congr {ids ids' : List ℕ} (h : ∀ c, c ∈ ids ↔ c ∈ ids') :
    db.chunksByIds ids = db.chunksByIds ids' := by
  unfold CodeDb.chunksByIds
  simp only [h]

/-- The activations of two orders. -/
theorem ragActivation_perm (orders orders' : RagOrders) (hperm : pool.Perm pool')
    (hnodup : (pool.map Prod.fst).Nodup) :
    (ragActivation orders db pool).Perm (ragActivation orders' db pool') := by
  have hactivation := activation_ragActivation orders db pool
  refine hactivation.perm ?_
  have hother := activation_ragActivation orders' db pool'
  have hmentions : ∀ c s, db.PoolMentions pool' c s ↔ db.PoolMentions pool c s := fun c s =>
    and_congr_left fun _ => (hperm.map Prod.fst).mem_iff.symm
  refine ⟨hother.nodup, fun c s hm hsim => ?_, fun q hq => ?_⟩
  · obtain ⟨q, hq, hkey, hle⟩ := hother.upper c s ((hmentions c s).2 hm)
      (simOf_perm hperm hnodup c ▸ hsim)
    exact ⟨q, hq, hkey, simOf_perm hperm hnodup c ▸ hle⟩
  · obtain ⟨c, hm, hsim, hval⟩ := hother.attained q hq
    rw [← simOf_perm hperm hnodup c] at hsim hval
    exact ⟨c, (hmentions c q.1).1 hm, hsim, hval⟩

end Pools

/-! ### The second loop -/

section Expand

/-- The chunks of a symbol for which there is an edge, if not too many are added in all: those of
    the pool, and of the others the first. -/
def capped (ids : List ℕ) : ℕ → List ℕ → List ℕ
  | _, [] => []
  | extra, c :: rest =>
    if c ∈ ids then c :: capped ids extra rest
    else if maxChunksPerSymbol ≤ extra then capped ids extra rest
    else c :: capped ids (extra + 1) rest

/-- How many of these are not in the pool. -/
def extraCount (ids : List ℕ) (extra : ℕ) (chunks : List ℕ) : ℕ :=
  (capped ids extra chunks).countP fun c => decide (c ∉ ids)

/-- The chunks of a symbol. -/
theorem foldl_expandChunk_eq (knn : List (ℕ × ℚ)) (sym : String) (chunks : List ℕ)
    (acc : Expansion) (extra : ℕ)
    (hbound : acc.totalExtra + extraCount (knn.map Prod.fst) extra chunks ≤ maxExpandedChunks) :
    (chunks.foldl (expandChunk knn sym) (acc, extra)).1 =
      { pairs := acc.pairs ++ (capped (knn.map Prod.fst) extra chunks).map fun c => (c, sym)
        candidates := addNew acc.candidates (capped (knn.map Prod.fst) extra chunks)
        totalExtra := acc.totalExtra + extraCount (knn.map Prod.fst) extra chunks } := by
  induction chunks generalizing acc extra with
  | nil => simp [capped, addNew, extraCount]
  | cons c chunks ih =>
    rw [List.foldl_cons]
    by_cases hpool : c ∈ knn.map Prod.fst
    · have hstep : expandChunk knn sym (acc, extra) c =
          ({ pairs := acc.pairs ++ [(c, sym)]
             candidates := addNew acc.candidates [c]
             totalExtra := acc.totalExtra }, extra) := by
        simp [expandChunk, addNew, hpool]
      have hcapped : capped (knn.map Prod.fst) extra (c :: chunks) =
          c :: capped (knn.map Prod.fst) extra chunks := if_pos hpool
      have hcount : extraCount (knn.map Prod.fst) extra (c :: chunks) =
          extraCount (knn.map Prod.fst) extra chunks := by
        unfold extraCount
        rw [hcapped, List.countP_cons_of_neg (by simpa using hpool)]
      rw [hcount] at hbound ⊢
      have hrest := ih
        { pairs := acc.pairs ++ [(c, sym)]
          candidates := addNew acc.candidates [c]
          totalExtra := acc.totalExtra } extra hbound
      rw [hstep, hrest, hcapped]
      simp [addNew]
    · by_cases hcap : maxChunksPerSymbol ≤ extra
      · have hstep : expandChunk knn sym (acc, extra) c = (acc, extra) := by
          simp [expandChunk, hpool, hcap]
        have hcapped : capped (knn.map Prod.fst) extra (c :: chunks) =
            capped (knn.map Prod.fst) extra chunks := by
          rw [capped, if_neg hpool, if_pos hcap]
        have hcount : extraCount (knn.map Prod.fst) extra (c :: chunks) =
            extraCount (knn.map Prod.fst) extra chunks := by
          unfold extraCount
          rw [hcapped]
        rw [hcount] at hbound ⊢
        rw [hstep, ih _ _ hbound, hcapped]
      · have hcapped : capped (knn.map Prod.fst) extra (c :: chunks) =
            c :: capped (knn.map Prod.fst) (extra + 1) chunks := by
          rw [capped, if_neg hpool, if_neg hcap]
        have hcount : extraCount (knn.map Prod.fst) extra (c :: chunks) =
            extraCount (knn.map Prod.fst) (extra + 1) chunks + 1 := by
          unfold extraCount
          rw [hcapped, List.countP_cons_of_pos (by simpa using hpool)]
        rw [hcount] at hbound ⊢
        have hroom : ¬ maxExpandedChunks ≤ acc.totalExtra := by omega
        have hstep : expandChunk knn sym (acc, extra) c =
            ({ pairs := acc.pairs ++ [(c, sym)]
               candidates := addNew acc.candidates [c]
               totalExtra := acc.totalExtra + 1 }, extra + 1) := by
          simp [expandChunk, addNew, hpool, hcap, hroom]
        have hrest := ih
          { pairs := acc.pairs ++ [(c, sym)]
            candidates := addNew acc.candidates [c]
            totalExtra := acc.totalExtra + 1 } (extra + 1)
          (by show acc.totalExtra + 1 + _ ≤ _; omega)
        rw [hstep, hrest, hcapped]
        simp [addNew, Nat.add_assoc, Nat.add_comm 1]

/-- How many chunks are added for some symbols. -/
def totalExtras (ids : List ℕ) (l : List (String × List ℕ)) : ℕ :=
  (l.map fun e => extraCount ids 0 e.2).sum

/-- The bound on the chunks that are added takes none away: it is not reached, or only by the last
    of some symbols that each add one. -/
def Room (ids : List ℕ) (start : ℕ) (l : List (String × List ℕ)) : Prop :=
  start + totalExtras ids l < maxExpandedChunks ∨
    start + totalExtras ids l = maxExpandedChunks ∧ ∀ e ∈ l, 0 < extraCount ids 0 e.2

/-- The second loop, as long as its bound takes nothing away. -/
theorem expand_eq (knn : List (ℕ × ℚ)) (l : List (String × List ℕ)) (start : Expansion)
    (hroom : Room (knn.map Prod.fst) start.totalExtra l) :
    (expand knn l start).pairs = start.pairs ++
        l.flatMap (fun e => (capped (knn.map Prod.fst) 0 e.2).map fun c => (c, e.1)) ∧
      (expand knn l start).candidates = addNew start.candidates
        (l.flatMap fun e => capped (knn.map Prod.fst) 0 e.2) := by
  induction l generalizing start with
  | nil => simp [expand, addNew]
  | cons e l ih =>
    have htotal : totalExtras (knn.map Prod.fst) (e :: l) =
        extraCount (knn.map Prod.fst) 0 e.2 + totalExtras (knn.map Prod.fst) l := by
      simp [totalExtras]
    unfold Room at hroom
    rw [htotal, ← Nat.add_assoc] at hroom
    have hrest : Room (knn.map Prod.fst)
        (start.totalExtra + extraCount (knn.map Prod.fst) 0 e.2) l :=
      hroom.imp_right fun h => ⟨h.1, fun e' he' => h.2 e' (List.mem_cons_of_mem e he')⟩
    have hfull : ¬ maxExpandedChunks ≤ start.totalExtra := by
      rcases hroom with hroom | ⟨hroom, hall⟩
      · omega
      · have := hall e List.mem_cons_self
        omega
    have hcons : expand knn (e :: l) start =
        expand knn l (e.2.foldl (expandChunk knn e.1) (start, 0)).1 := by
      unfold expand
      rw [List.foldl_cons, if_neg hfull]
    rw [hcons, foldl_expandChunk_eq knn e.1 e.2 start 0 (by omega)]
    obtain ⟨hpairs, hcandidates⟩ := ih
      { pairs := start.pairs ++ (capped (knn.map Prod.fst) 0 e.2).map fun c => (c, e.1)
        candidates := addNew start.candidates (capped (knn.map Prod.fst) 0 e.2)
        totalExtra := start.totalExtra + extraCount (knn.map Prod.fst) 0 e.2 }
      hrest
    refine ⟨by rw [hpairs, List.flatMap_cons, List.append_assoc], ?_⟩
    rw [hcandidates, List.flatMap_cons]
    simp [addNew]

theorem capped_congr {ids ids' : List ℕ} (h : ∀ c, c ∈ ids ↔ c ∈ ids') (extra : ℕ)
    (chunks : List ℕ) : capped ids extra chunks = capped ids' extra chunks := by
  induction chunks generalizing extra with
  | nil => rfl
  | cons c chunks ih => simp only [capped, h, ih]

theorem room_congr {ids ids' : List ℕ} (h : ∀ c, c ∈ ids ↔ c ∈ ids') {start : ℕ}
    {l l' : List (String × List ℕ)} (hperm : l.Perm l') (hroom : Room ids start l) :
    Room ids' start l' := by
  have hcount : ∀ chunks, extraCount ids' 0 chunks = extraCount ids 0 chunks := by
    intro chunks
    unfold extraCount
    simp only [capped_congr h, h]
  have htotal : totalExtras ids' l' = totalExtras ids l := by
    unfold totalExtras
    simp only [hcount]
    exact (hperm.symm.map _).sum_eq
  unfold Room
  rw [htotal]
  exact hroom.imp_right fun hfull => ⟨hfull.1, fun e he =>
    (hcount e.2).symm ▸ hfull.2 e (hperm.mem_iff.2 he)⟩

end Expand

/-! ### The graph -/

section Graph

variable {R : Type} {db : CodeDb R} {pool pool' : List (ℕ × ℚ)}

/-- The symbols that are kept. -/
def keptSymbols (orders : RagOrders) (db : CodeDb R) (pool : List (ℕ × ℚ)) : List String :=
  ((rankScores (ragActivation orders db pool)).take maxActiveSymbols).map Prod.fst

/-- The cut of the symbols is clear, and so is the bound of the second loop. -/
structure SymbolsClear (orders : RagOrders) (db : CodeDb R) (pool : List (ℕ × ℚ)) : Prop where
  cut : CutClear Prod.snd maxActiveSymbols (ragActivation orders db pool)
  room : Room (pool.map Prod.fst) 0 (db.chunksMentioningSymbols (keptSymbols orders db pool))

/-- Graphs that are the same up to the order. -/
structure SameGraph (g g' : RagGraph) : Prop where
  pairs : g.pairs.Perm g'.pairs
  candidates : g.candidates.Perm g'.candidates
  aq : g.aq.Perm g'.aq

theorem keptSymbols_perm (orders orders' : RagOrders) (hperm : pool.Perm pool')
    (hnodup : (pool.map Prod.fst).Nodup)
    (hcut : CutClear Prod.snd maxActiveSymbols (ragActivation orders db pool)) :
    (keptSymbols orders db pool).Perm (keptSymbols orders' db pool') := by
  have haq : (ragActivation orders db pool).Perm (ragActivation orders' db pool') :=
    ragActivation_perm orders orders' hperm hnodup
  have hranked : ∀ aq : List (String × ℚ), (rankScores aq).Perm aq := Lib.ranked_perm Prod.snd
  have hboth := (hranked (ragActivation orders db pool)).trans (haq.trans (hranked _).symm)
  refine List.Perm.map Prod.fst (Lib.take_perm_of_cutClear
    (Lib.descending_ranked Prod.snd _) (Lib.descending_ranked Prod.snd _) hboth ?_
    (hcut.perm (hranked _).symm))
  have hkeys := (activation_ragActivation orders db pool).nodup
  exact (hranked _).nodup_iff.2 (List.Nodup.of_map _ hkeys)

/-- The graph, as long as the bound of the second loop takes nothing away. -/
theorem ragGraph_eq (orders : RagOrders) (hne : ragActivation orders db pool ≠ [])
    (hroom : Room (pool.map Prod.fst) 0
      (db.chunksMentioningSymbols (keptSymbols orders db pool))) :
    ∃ g, ragGraph orders db pool = some g ∧ g.aq = ragActivation orders db pool ∧
      g.pairs = poolPairs (orders.mentions.of (db.mentionEdgesForChunks (pool.map Prod.fst))) g.aq
        ++ (orders.symbols.of (db.chunksMentioningSymbols (keptSymbols orders db pool))).flatMap
          (fun e => (capped (pool.map Prod.fst) 0 e.2).map fun c => (c, e.1)) ∧
      g.candidates = orders.candidates.of (addNew (pool.map Prod.fst).dedup
        ((orders.symbols.of (db.chunksMentioningSymbols (keptSymbols orders db pool))).flatMap
          fun e => capped (pool.map Prod.fst) 0 e.2)) := by
  obtain ⟨hpairs, hcandidates⟩ := expand_eq (knnById pool)
    (orders.symbols.of (db.chunksMentioningSymbols (keptSymbols orders db pool)))
    ⟨poolPairs (orders.mentions.of (db.mentionEdgesForChunks (pool.map Prod.fst)))
      (ragActivation orders db pool), (pool.map Prod.fst).dedup, 0⟩ (by
      rw [map_fst_knnById]
      exact room_congr (fun _ => Iff.rfl) (orders.symbols.perm _).symm hroom)
  rw [map_fst_knnById] at hpairs hcandidates
  unfold ragGraph
  simp only [if_neg hne]
  exact ⟨_, rfl, rfl, hpairs, congrArg orders.candidates.of hcandidates⟩

/-- The graphs of two orders. -/
theorem sameGraph_ragGraph (orders orders' : RagOrders) (hperm : pool.Perm pool')
    (hnodup : (pool.map Prod.fst).Nodup) (hclear : SymbolsClear orders db pool)
    (hne : ragActivation orders db pool ≠ []) :
    ∃ g g', ragGraph orders db pool = some g ∧ ragGraph orders' db pool' = some g' ∧
      SameGraph g g' := by
  have haq : (ragActivation orders db pool).Perm (ragActivation orders' db pool') :=
    ragActivation_perm orders orders' hperm hnodup
  have hids := hperm.map Prod.fst
  have hmem : ∀ c, c ∈ pool.map Prod.fst ↔ c ∈ pool'.map Prod.fst := fun c => hids.mem_iff
  have hkept := keptSymbols_perm orders orders' hperm hnodup hclear.cut
  have hsymbols : db.chunksMentioningSymbols (keptSymbols orders db pool) =
      db.chunksMentioningSymbols (keptSymbols orders' db pool') :=
    chunksMentioningSymbols_congr fun s => hkept.mem_iff
  have hne' : ragActivation orders' db pool' ≠ [] := fun hnil => hne (hnil ▸ haq).eq_nil
  obtain ⟨g, hg, hgaq, hpairs, hcandidates⟩ := ragGraph_eq orders hne hclear.room
  obtain ⟨g', hg', hgaq', hpairs', hcandidates'⟩ := ragGraph_eq orders' hne'
    (room_congr hmem (hsymbols ▸ List.Perm.refl _) hclear.room)
  have horder : (orders.symbols.of (db.chunksMentioningSymbols (keptSymbols orders db pool))).Perm
      (orders'.symbols.of (db.chunksMentioningSymbols (keptSymbols orders' db pool'))) :=
    (orders.symbols.perm _).trans (hsymbols ▸ (orders'.symbols.perm _).symm)
  have hcapped : ∀ chunks, capped (pool'.map Prod.fst) 0 chunks =
      capped (pool.map Prod.fst) 0 chunks := fun chunks =>
    (capped_congr hmem 0 chunks).symm
  simp only [hcapped] at hpairs' hcandidates'
  refine ⟨g, g', hg, hg', ?_, ?_, ?_⟩
  · rw [hpairs, hpairs']
    refine List.Perm.append ?_ (horder.flatMap_right _)
    have hmentions : db.mentionEdgesForChunks (pool.map Prod.fst) =
        db.mentionEdgesForChunks (pool'.map Prod.fst) := mentionEdgesForChunks_congr hmem
    unfold poolPairs
    have hkeys : ∀ s, s ∈ g.aq.map Prod.fst ↔ s ∈ g'.aq.map Prod.fst := fun s => by
      rw [hgaq, hgaq', (haq.map Prod.fst).mem_iff]
    simp only [hkeys]
    exact ((orders.mentions.perm _).trans
      (hmentions ▸ (orders'.mentions.perm _).symm)).flatMap_right _
  · rw [hcandidates, hcandidates']
    refine (orders.candidates.perm _).trans (List.Perm.trans ?_ (orders'.candidates.perm _).symm)
    refine (List.perm_ext_iff_of_nodup (Lib.nodup_addNew (List.nodup_dedup _) _)
      (Lib.nodup_addNew (List.nodup_dedup _) _)).2 fun c => ?_
    rw [Lib.mem_addNew, Lib.mem_addNew, List.mem_dedup, List.mem_dedup, hmem,
      (horder.flatMap_right _).mem_iff]
  · rw [hgaq, hgaq']
    exact haq

end Graph

/-! ### The scores -/

section Scores

variable {R : Type} {db : CodeDb R} {pool pool' : List (ℕ × ℚ)} {g g' : RagGraph}

/-- What the ranks of the candidates are divided by. -/
def pprNorm (found : List ℚ) : ℚ :=
  match found with
  | [] => 1
  | x :: rest => if 0 < rest.foldl max x then rest.foldl max x else 1

theorem pprNorm_perm {found found' : List ℚ} (hperm : found.Perm found') :
    pprNorm found = pprNorm found' := by
  have hnorm : ∀ l : List ℚ, pprNorm l =
      if l = [] then 1 else if 0 < l.foldl max (l.headD 0) then l.foldl max (l.headD 0) else 1 := by
    intro l
    cases l with
    | nil => rfl
    | cons x l => simp [pprNorm]
  rw [hnorm, hnorm, foldl_max_perm hperm 0]
  exact if_congr ⟨fun h => (h ▸ hperm).nil_eq.symm, fun h => (h ▸ hperm).eq_nil⟩ rfl rfl

/-- The score of a chunk by its rank, before it is divided. -/
def pprScore (g : RagGraph) (id : ℕ) : Option ℚ :=
  scoreOf (computePersonalisedPagerank g.edges g.aq pprIterations pprDamping) (chunkNode id)

/-- The chunks that are scored besides the pool. -/
def extraChunks (db : CodeDb R) (pool : List (ℕ × ℚ)) (g : RagGraph) : List ℕ :=
  db.chunksByIds (g.candidates.filter fun id => id ∉ (knnById pool).map Prod.fst)

theorem ragScores_eq (db : CodeDb R) (pool : List (ℕ × ℚ)) (g : RagGraph) :
    ragScores db pool g =
      (pool.map fun r => (r.1, mixture * ((knnById pool).lookup r.1).getD 0 + (1 - mixture) *
        ((pprScore g r.1).getD 0 / pprNorm (g.candidates.filterMap (pprScore g))))) ++
      (extraChunks db pool g).map fun id => (id, (1 - mixture) *
        ((pprScore g id).getD 0 / pprNorm (g.candidates.filterMap (pprScore g)))) := rfl

theorem pprScore_perm (hsame : SameGraph g g') (hne : g.pairs ≠ [])
    (hkeys : (g.aq.map Prod.fst).Nodup) : pprScore g' = pprScore g := by
  have hedges : g.edges.Perm g'.edges := hsame.pairs.flatMap_right _
  have hsome : g.edges ≠ [] := by
    obtain ⟨p, hp⟩ := List.exists_mem_of_ne_nil _ hne
    have hin : (chunkNode p.1, p.2) ∈ g.edges :=
      List.mem_flatMap.2 ⟨p, hp, List.mem_cons_self⟩
    exact List.ne_nil_of_mem hin
  exact funext fun id => scoreOf_personalised_perm hsome pprIterations pprDamping hkeys
    hedges.symm hsame.aq.symm (chunkNode id)

theorem extraChunks_eq (hperm : pool.Perm pool') (hsame : SameGraph g g') :
    extraChunks db pool' g' = extraChunks db pool g := by
  refine chunksByIds_congr fun c => ?_
  simp only [List.mem_filter, hsame.candidates.mem_iff,
    ((knnById_perm hperm).map Prod.fst).mem_iff]

/-- The scores of two graphs that are the same up to the order. -/
theorem ragScores_perm (hperm : pool.Perm pool') (hnodup : (pool.map Prod.fst).Nodup)
    (hsame : SameGraph g g') (hne : g.pairs ≠ []) (hkeys : (g.aq.map Prod.fst).Nodup) :
    (ragScores db pool g).Perm (ragScores db pool' g') := by
  have hlookup : ∀ c, (knnById pool').lookup c = (knnById pool).lookup c := fun c =>
    (lookup_perm (knnById_perm hperm) (map_fst_knnById pool ▸ hnodup) c).symm
  rw [ragScores_eq, ragScores_eq, pprScore_perm hsame hne hkeys, extraChunks_eq hperm hsame,
    ← pprNorm_perm (hsame.candidates.filterMap (pprScore g))]
  simp only [hlookup]
  exact (hperm.map _).append_right _

/-- The ids that are scored. -/
theorem map_fst_ragScores (db : CodeDb R) (pool : List (ℕ × ℚ)) (g : RagGraph) :
    (ragScores db pool g).map Prod.fst = pool.map Prod.fst ++ extraChunks db pool g := by
  rw [ragScores_eq, List.map_append, List.map_map, List.map_map]
  exact congrArg _ (List.map_id _)

theorem nodup_extraChunks (hids : (db.chunks.map ChunkRow.id).Nodup) (pool : List (ℕ × ℚ))
    (g : RagGraph) : (extraChunks db pool g).Nodup :=
  hids.sublist ((List.filter_sublist.trans List.filter_sublist).map ChunkRow.id)

theorem not_mem_of_mem_extraChunks {c : ℕ} (hc : c ∈ extraChunks db pool g) :
    c ∉ pool.map Prod.fst := by
  intro hmem
  obtain ⟨row, hrow, rfl⟩ := List.mem_map.1 hc
  have hcandidate := (List.mem_filter.1 (of_decide_eq_true (List.mem_filter.1 hrow).2)).2
  exact of_decide_eq_true hcandidate (map_fst_knnById pool ▸ hmem)

theorem nodup_ragScores (hids : (db.chunks.map ChunkRow.id).Nodup)
    (hnodup : (pool.map Prod.fst).Nodup) (g : RagGraph) :
    ((ragScores db pool g).map Prod.fst).Nodup := by
  rw [map_fst_ragScores]
  exact hnodup.append (nodup_extraChunks hids pool g) fun c hc hmem =>
    not_mem_of_mem_extraChunks hmem hc

theorem firstOfEach_eq_self {l : List (ℕ × ℚ)} {seen : List ℕ} (hnodup : (l.map Prod.fst).Nodup)
    (hnew : ∀ p ∈ l, p.1 ∉ seen) : firstOfEach l seen = l := by
  induction l generalizing seen with
  | nil => rfl
  | cons p l ih =>
    rw [List.map_cons, List.nodup_cons] at hnodup
    rw [firstOfEach, if_neg (hnew p List.mem_cons_self), ih hnodup.2]
    intro q hq hmem
    rcases List.mem_cons.1 hmem with hkey | hmem
    · exact hnodup.1 (hkey ▸ List.mem_map_of_mem hq)
    · exact hnew q (List.mem_cons_of_mem p hq) hmem

end Scores

/-! ### The results -/

section Results

variable {R : Type} (db : CodeDb R) (similar text : ℕ → Option (List (ChunkRow R))) (limit : ℕ)

/-- How large the pool may be. -/
def poolSize (limit : ℕ) : ℕ := min (max (limit * 5) 50) 300

/-- The ids of the two lists the pool is made of. -/
def poolLists : List ℕ × List ℕ := fusedLists ChunkRow.id similar text (poolSize limit)

/-- What an id has in both of them. -/
def poolTotal (id : ℕ) : ℚ :=
  rrfTotal (poolLists similar text limit).1 (poolLists similar text limit).2 id

/-- The ids of both lists. -/
def poolCandidates : List ℕ :=
  ((poolLists similar text limit).1 ++ (poolLists similar text limit).2).dedup

/-- The ids and the scores of the pool of an order. -/
def poolScores (order : IterationOrder (ℕ × ℚ)) : List (ℕ × ℚ) :=
  (ranked Prod.snd (order.of (fusedScores (poolLists similar text limit).1
    (poolLists similar text limit).2))).take (poolSize limit)

/-- The pool of an order. -/
def ragPool (order : IterationOrder (ℕ × ℚ)) : List (ℕ × ℚ) :=
  ((CodeDb.searchHybrid order similar text (poolSize limit)).getD []).map fun f =>
    (f.row.id, f.distance)

variable {db similar text limit}

theorem ragPool_eq (order : IterationOrder (ℕ × ℚ)) :
    ragPool similar text limit order =
      (poolScores similar text limit order).map fun p => (p.1, 1 / p.2) := by
  unfold ragPool poolScores poolLists
  cases hfound : CodeDb.searchHybrid order similar text (poolSize limit) with
  | none =>
    have hnone : similar (rrfCandidates (poolSize limit)) = none := Option.map_eq_none_iff.1 hfound
    have hlists : fusedLists ChunkRow.id similar text (poolSize limit) = ([], []) := by
      unfold fusedLists
      rw [hnone]
    have hnil : order.of [] = [] := (order.perm []).eq_nil
    rw [hlists]
    show [] = ((ranked Prod.snd (order.of [])).take (poolSize limit)).map fun p => (p.1, 1 / p.2)
    rw [hnil]
    simp [ranked]
  | some results =>
    have hpairs := searchHybrid_pairs hfound
    rw [← hpairs, List.map_map]
    refine List.map_congr_left fun r hr => ?_
    obtain ⟨vec, -, rfl⟩ := Option.map_eq_some_iff.1 hfound
    exact Prod.ext rfl (fuse_distance ChunkRow.id hr)

theorem map_fst_ragPool (order : IterationOrder (ℕ × ℚ)) :
    (ragPool similar text limit order).map Prod.fst =
      (poolScores similar text limit order).map Prod.fst := by
  rw [ragPool_eq, List.map_map]
  rfl

theorem perm_candidateScores (similar text : ℕ → Option (List (ChunkRow R))) (limit : ℕ)
    (order : IterationOrder (ℕ × ℚ)) :
    (ranked Prod.snd (order.of (fusedScores (poolLists similar text limit).1
      (poolLists similar text limit).2))).Perm
      ((poolCandidates similar text limit).map fun id => (id, poolTotal similar text limit id)) :=
  (Lib.ranked_perm Prod.snd _).trans ((order.perm _).trans (fusedScores_perm _ _))

/-- The scores of the pool. -/
theorem mem_poolScores {order : IterationOrder (ℕ × ℚ)} {p : ℕ × ℚ}
    (hp : p ∈ poolScores similar text limit order) :
    p.2 = poolTotal similar text limit p.1 ∧ 0 < p.2 := by
  have hcandidate := (perm_candidateScores similar text limit order).mem_iff.1
    (List.mem_of_mem_take hp)
  obtain ⟨id, hid, rfl⟩ := List.mem_map.1 hcandidate
  refine ⟨rfl, ?_⟩
  unfold poolCandidates at hid
  rw [List.mem_dedup, List.mem_append, ← mem_ids_fusedScores] at hid
  exact ((scoresOf_fusedScores _ _).listed id).1 hid

theorem nodup_poolScores (order : IterationOrder (ℕ × ℚ)) :
    ((poolScores similar text limit order).map Prod.fst).Nodup :=
  (topOf_ranked ((order.perm _).trans (fusedScores_perm _ _)) (nodup_candidateScores _ _) _).nodup

theorem poolScores_perm (order order' : IterationOrder (ℕ × ℚ))
    (hclear : CutClear (poolTotal similar text limit) (poolSize limit)
      (poolCandidates similar text limit)) :
    (poolScores similar text limit order).Perm (poolScores similar text limit order') := by
  have hcut : CutClear Prod.snd (poolSize limit)
      ((poolCandidates similar text limit).map fun id => (id, poolTotal similar text limit id)) :=
    Lib.cutClear_map hclear
  have hperm := perm_candidateScores similar text limit order
  have hperm' := perm_candidateScores similar text limit order'
  refine Lib.take_perm_of_cutClear (Lib.descending_ranked _ _)
    (Lib.descending_ranked _ _) (hperm.trans hperm'.symm) ?_ (hcut.perm hperm.symm)
  exact hperm.nodup_iff.2 (List.Nodup.of_map _ (nodup_candidateScores _ _))

theorem linearragSearch_none {orders : RagOrders}
    (hnone : ragGraph orders db (ragPool similar text limit orders.fused) = none) :
    linearragSearch orders db similar text limit =
      ((ranked Prod.snd (orders.fused.of (fusedScores (poolLists similar text limit).1
        (poolLists similar text limit).2))).take (min limit (poolSize limit))).map
        fun p => (p.1, 1 / p.2) := by
  have hresults : linearragSearch orders db similar text limit =
      (ragPool similar text limit orders.fused).take limit := by
    show ragResults orders db limit (ragPool similar text limit orders.fused) = _
    unfold ragResults
    rw [hnone]
  rw [hresults, ragPool_eq, ← List.map_take]
  unfold poolScores
  rw [List.take_take]

theorem linearragSearch_some {orders : RagOrders} {g : RagGraph}
    (hids : (db.chunks.map ChunkRow.id).Nodup)
    (hg : ragGraph orders db (ragPool similar text limit orders.fused) = some g) :
    linearragSearch orders db similar text limit =
      ((ranked Prod.snd (ragScores db (ragPool similar text limit orders.fused) g)).take
        limit).map fun p => (p.1, 1 - p.2) := by
  have hnodup : ((ragPool similar text limit orders.fused).map Prod.fst).Nodup :=
    map_fst_ragPool orders.fused ▸ nodup_poolScores orders.fused
  have hscored := nodup_ragScores hids hnodup g
  have hfirst : firstOfEach (ranked Prod.snd (ragScores db
      (ragPool similar text limit orders.fused) g)) [] =
      ranked Prod.snd (ragScores db (ragPool similar text limit orders.fused) g) :=
    firstOfEach_eq_self (((Lib.ranked_perm Prod.snd _).map Prod.fst).nodup_iff.2 hscored)
      fun _ _ => List.not_mem_nil
  show ragResults orders db limit (ragPool similar text limit orders.fused) = _
  unfold ragResults
  rw [hg]
  exact congrArg (fun l => (l.take limit).map fun p : ℕ × ℚ => (p.1, 1 - p.2)) hfirst

end Results

/-! ### The order of the results -/

section Order

variable {R : Type} {db : CodeDb R} {similar text : ℕ → Option (List (ChunkRow R))} {limit : ℕ}

/-- No cut is made between chunks or symbols that are equal. -/
structure RagClear (db : CodeDb R) (similar text : ℕ → Option (List (ChunkRow R))) (limit : ℕ) :
    Prop where
  pool : CutClear (poolTotal similar text limit) (poolSize limit)
    (poolCandidates similar text limit)
  symbols : SymbolsClear .filled db (ragPool similar text limit (.filled _))

/-- What chunks of one score are sorted by: those of the pool by what they have in both lists,
    before the others, which are in the order of their table. -/
def ragTie (total : ℕ → ℚ) (ids extra : List ℕ) (id : ℕ) : ℚ :=
  if id ∈ ids then total id else -(extra.idxOf id : ℚ)

/-- By what chunks are sorted. -/
def ragKey (total : ℕ → ℚ) (ids extra : List ℕ) (p : ℕ × ℚ) : ℚ ×ₗ ℚ :=
  toLex (p.2, ragTie total ids extra p.1)

/-- Of two results that are sorted alike, as many are better as are asked for. -/
def RagDecided (db : CodeDb R) (similar text : ℕ → Option (List (ChunkRow R))) (limit : ℕ) : Prop :=
  let pool := ragPool similar text limit (.filled _)
  match ragGraph .filled db pool with
  | none => Decided (poolTotal similar text limit) (min limit (poolSize limit))
      (poolCandidates similar text limit)
  | some g => Decided (ragKey (poolTotal similar text limit) (pool.map Prod.fst)
      (extraChunks db pool g)) limit (ragScores db pool g)

/-- A run in an order, against that in the order in which the maps were filled. -/
structure SameRun (orders : RagOrders) (db : CodeDb R)
    (similar text : ℕ → Option (List (ChunkRow R))) (limit : ℕ) (g g₀ : RagGraph) : Prop where
  graph : ragGraph orders db (ragPool similar text limit orders.fused) = some g
  ids : ((ragPool similar text limit orders.fused).map Prod.fst).Perm
    ((ragPool similar text limit (.filled _)).map Prod.fst)
  extra : extraChunks db (ragPool similar text limit orders.fused) g =
    extraChunks db (ragPool similar text limit (.filled _)) g₀
  scores : (ragScores db (ragPool similar text limit orders.fused) g).Perm
    (ragScores db (ragPool similar text limit (.filled _)) g₀)

theorem ragPool_perm (hclear : RagClear db similar text limit)
    (order : IterationOrder (ℕ × ℚ)) : (ragPool similar text limit (.filled _)).Perm
      (ragPool similar text limit order) := by
  rw [ragPool_eq, ragPool_eq]
  exact (poolScores_perm (.filled _) order hclear.pool).map _

theorem nodup_ragPool (order : IterationOrder (ℕ × ℚ)) :
    ((ragPool similar text limit order).map Prod.fst).Nodup :=
  map_fst_ragPool order ▸ nodup_poolScores order

theorem ragGraph_none (hclear : RagClear db similar text limit)
    (hnone : ragGraph .filled db (ragPool similar text limit (.filled _)) = none)
    (orders : RagOrders) :
    ragGraph orders db (ragPool similar text limit orders.fused) = none := by
  have hperm : (ragActivation .filled db (ragPool similar text limit (.filled _))).Perm
      (ragActivation orders db (ragPool similar text limit orders.fused)) :=
    ragActivation_perm .filled orders (ragPool_perm hclear orders.fused) (nodup_ragPool _)
  rw [ragGraph_eq_none_iff_nil] at hnone ⊢
  exact (hnone ▸ hperm).nil_eq.symm

theorem exists_sameRun (hclear : RagClear db similar text limit) {g₀ : RagGraph}
    (hsome : ragGraph .filled db (ragPool similar text limit (.filled _)) = some g₀)
    (orders : RagOrders) : ∃ g, SameRun orders db similar text limit g g₀ := by
  have hpool := ragPool_perm hclear orders.fused
  have hne : ragActivation .filled db (ragPool similar text limit (.filled _)) ≠ [] := by
    intro hnil
    rw [ragGraph_eq_none_iff_nil.2 hnil] at hsome
    exact nomatch hsome
  obtain ⟨g₁, g, hg₁, hg, hsame⟩ := sameGraph_ragGraph .filled orders hpool (nodup_ragPool _)
    hclear.symbols hne
  obtain rfl : g₀ = g₁ := Option.some.inj (hsome.symm.trans hg₁)
  obtain ⟨ext, hparts⟩ := ragGraph_spec hsome
  have hpairs : g₀.pairs ≠ [] := by
    obtain ⟨q, hq⟩ := List.exists_mem_of_ne_nil _ hparts.activated
    obtain ⟨c, -, -, hpair⟩ := hparts.mem_pairs hq
    rw [hparts.pairs]
    exact List.ne_nil_of_mem (List.mem_append_left ext hpair)
  exact ⟨g, hg, (hpool.map Prod.fst).symm, extraChunks_eq hpool hsame,
    (ragScores_perm hpool (nodup_ragPool _) hsame hpairs hparts.activation.nodup).symm⟩

/-- Scores are sorted by what the ids of the pool and those of the others are sorted by. -/
theorem descending_ragScores {T : Type*} [LinearOrder T] (by' : ℕ → T) {pool : List (ℕ × ℚ)}
    {g : RagGraph} (hpool : Descending by' (pool.map Prod.fst))
    (hextra : Descending by' (extraChunks db pool g))
    (hbetween : ∀ c ∈ pool.map Prod.fst, ∀ e ∈ extraChunks db pool g, by' e ≤ by' c) :
    Descending (fun p => by' p.1) (ragScores db pool g) := by
  have hids : Descending by' ((ragScores db pool g).map Prod.fst) := by
    rw [map_fst_ragScores]
    exact List.pairwise_append.2 ⟨hpool, hextra, hbetween⟩
  exact List.pairwise_map.1 hids

theorem descending_ragTie {orders : RagOrders} {g g₀ : RagGraph} (first : ℕ → Bool)
    (hids : (db.chunks.map ChunkRow.id).Nodup) (hrun : SameRun orders db similar text limit g g₀)
    (hfront : Descending (fun p => toLex (p.2, first p.1))
      (poolScores similar text limit orders.fused)) :
    Descending (fun p => toLex (ragTie (poolTotal similar text limit)
      ((ragPool similar text limit (.filled _)).map Prod.fst)
      (extraChunks db (ragPool similar text limit (.filled _)) g₀) p.1, first p.1))
      (ragScores db (ragPool similar text limit orders.fused) g) := by
  set pool := ragPool similar text limit (.filled _)
  set total := poolTotal similar text limit
  have htotal : ∀ c ∈ pool.map Prod.fst,
      ragTie total (pool.map Prod.fst) (extraChunks db pool g₀) c = total c := fun c hc => if_pos hc
  have hplace : ∀ c ∈ extraChunks db pool g₀,
      ragTie total (pool.map Prod.fst) (extraChunks db pool g₀) c =
        -((extraChunks db pool g₀).idxOf c : ℚ) :=
    fun c hc => if_neg (not_mem_of_mem_extraChunks hc)
  refine descending_ragScores (fun c =>
    toLex (ragTie total (pool.map Prod.fst) (extraChunks db pool g₀) c, first c)) ?_ ?_
    fun c hc e he => ?_
  · rw [map_fst_ragPool orders.fused]
    refine List.pairwise_map.2 (List.Pairwise.imp_of_mem (fun {p q} hp hq hpq => ?_) hfront)
    have hmem : ∀ {p : ℕ × ℚ}, p ∈ poolScores similar text limit orders.fused →
        p.1 ∈ pool.map Prod.fst := fun hp =>
      hrun.ids.mem_iff.1 (map_fst_ragPool orders.fused ▸ List.mem_map_of_mem hp)
    show toLex (ragTie total (pool.map Prod.fst) (extraChunks db pool g₀) q.1, first q.1) ≤
      toLex (ragTie total (pool.map Prod.fst) (extraChunks db pool g₀) p.1, first p.1)
    have hscore : ∀ {p : ℕ × ℚ}, p ∈ poolScores similar text limit orders.fused →
        total p.1 = p.2 := fun hp => (mem_poolScores hp).1.symm
    rw [htotal _ (hmem hp), htotal _ (hmem hq), hscore hp, hscore hq]
    exact hpq
  · rw [hrun.extra]
    have hnodup := nodup_extraChunks hids pool g₀
    refine List.pairwise_iff_getElem.2 fun i j hi hj hij => Prod.Lex.toLex_le_toLex.2 (.inl ?_)
    show ragTie _ _ _ (extraChunks db pool g₀)[j] < ragTie _ _ _ (extraChunks db pool g₀)[i]
    rw [hplace _ (List.getElem_mem hi), hplace _ (List.getElem_mem hj), hnodup.idxOf_getElem i hi,
      hnodup.idxOf_getElem j hj]
    exact neg_lt_neg (Nat.cast_lt.2 hij)
  · rw [hrun.extra] at he
    have hpos : 0 < total c := by
      rw [map_fst_ragPool] at hc
      obtain ⟨p, hp, rfl⟩ := List.mem_map.1 hc
      exact (mem_poolScores hp).2.trans_eq (mem_poolScores hp).1
    rw [hplace e he, htotal c (hrun.ids.mem_iff.1 hc), Prod.Lex.toLex_le_toLex]
    exact .inl ((neg_nonpos.2 (Nat.cast_nonneg _)).trans_lt hpos)

/-- The results before the cut. -/
theorem descending_ragKey {orders : RagOrders} {g g₀ : RagGraph} (first : ℕ → Bool)
    (hids : (db.chunks.map ChunkRow.id).Nodup) (hrun : SameRun orders db similar text limit g g₀)
    (hfront : Descending (fun p => toLex (p.2, first p.1))
      (poolScores similar text limit orders.fused)) :
    Descending (fun p => toLex (ragKey (poolTotal similar text limit)
      ((ragPool similar text limit (.filled _)).map Prod.fst)
      (extraChunks db (ragPool similar text limit (.filled _)) g₀) p, first p.1))
      (ranked Prod.snd (ragScores db (ragPool similar text limit orders.fused) g)) :=
  (Lib.descending_ranked_lex (descending_ragTie first hids hrun hfront)).assoc

/-- An order that has an id first in both lists. -/
def RagOrders.front (similar text : ℕ → Option (List (ChunkRow R))) (limit id : ℕ) : RagOrders :=
  { RagOrders.filled with
    fused := ⟨toFront (id, poolTotal similar text limit id), toFront_perm _⟩ }

theorem descending_front (id : ℕ) :
    Descending (fun p => toLex (p.2, decide (p.1 = id)))
      (poolScores similar text limit (RagOrders.front similar text limit id).fused) := by
  have hnodup := List.Nodup.of_map _ (scoresOf_fusedScores (poolLists similar text limit).1
    (poolLists similar text limit).2).nodup
  have hfront := Lib.descending_toFront (id, poolTotal similar text limit id) hnodup
  have htaken : Descending
      (fun p => toLex (p.2, decide (p = (id, poolTotal similar text limit id))))
      (poolScores similar text limit (RagOrders.front similar text limit id).fused) :=
    List.Pairwise.sublist (List.take_sublist _ _) (Lib.descending_ranked_lex hfront)
  have hsame : ∀ p ∈ poolScores similar text limit (RagOrders.front similar text limit id).fused,
      (p = (id, poolTotal similar text limit id) ↔ p.1 = id) := by
    intro p hp
    refine ⟨fun he => congrArg Prod.fst he, fun he => Prod.ext he ?_⟩
    rw [← he]
    exact (mem_poolScores hp).1
  refine List.Pairwise.imp_of_mem (fun {p q} hp hq hpq => ?_) htaken
  simp only [hsame p hp, hsame q hq] at hpq
  exact hpq

section Run

variable {orders : RagOrders} {g g₀ : RagGraph}

theorem SameRun.ranked_perm (hrun : SameRun orders db similar text limit g g₀) :
    (ranked Prod.snd (ragScores db (ragPool similar text limit orders.fused) g)).Perm
      (ragScores db (ragPool similar text limit (.filled _)) g₀) :=
  (Lib.ranked_perm Prod.snd _).trans hrun.scores

theorem SameRun.ids_eq (hids : (db.chunks.map ChunkRow.id).Nodup)
    (hrun : SameRun orders db similar text limit g g₀) :
    (linearragSearch orders db similar text limit).map Prod.fst = ((ranked Prod.snd
      (ragScores db (ragPool similar text limit orders.fused) g)).take limit).map Prod.fst := by
  rw [linearragSearch_some hids hrun.graph, List.map_map]
  rfl

/-- The results before the cut, in every order. -/
theorem SameRun.descending (hids : (db.chunks.map ChunkRow.id).Nodup)
    (hrun : SameRun orders db similar text limit g g₀) :
    Descending (ragKey (poolTotal similar text limit)
      ((ragPool similar text limit (.filled _)).map Prod.fst)
      (extraChunks db (ragPool similar text limit (.filled _)) g₀))
      (ranked Prod.snd (ragScores db (ragPool similar text limit orders.fused) g)) := by
  have hscores : Descending Prod.snd (poolScores similar text limit orders.fused) :=
    List.Pairwise.sublist (List.take_sublist _ _) (Lib.descending_ranked _ _)
  have hpool : Descending (fun p => toLex (p.2, false))
      (poolScores similar text limit orders.fused) := by
    refine List.Pairwise.imp (fun {p q} hpq => ?_) hscores
    exact Prod.Lex.toLex_le_toLex'.2 ⟨hpq, fun _ => le_rfl⟩
  have hkey := descending_ragKey (fun _ => false) hids hrun hpool
  exact List.Pairwise.imp (fun h => (Prod.Lex.toLex_le_toLex'.1 h).1) hkey

/-- A chunk can be the first of those that are sorted like it. -/
theorem SameRun.descending_first {z : ℕ × ℚ} (hids : (db.chunks.map ChunkRow.id).Nodup)
    (hrun : SameRun (RagOrders.front similar text limit z.1) db similar text limit g g₀)
    (hz : z ∈ ragScores db (ragPool similar text limit (.filled _)) g₀) :
    Descending (fun p => toLex (ragKey (poolTotal similar text limit)
      ((ragPool similar text limit (.filled _)).map Prod.fst)
      (extraChunks db (ragPool similar text limit (.filled _)) g₀) p, decide (p = z)))
      (ranked Prod.snd (ragScores db (ragPool similar text limit
        (RagOrders.front similar text limit z.1).fused) g)) := by
  have hnodup : ((ragScores db (ragPool similar text limit (.filled _)) g₀).map Prod.fst).Nodup :=
    nodup_ragScores hids (nodup_ragPool _) g₀
  have hiff : ∀ p ∈ ranked Prod.snd (ragScores db (ragPool similar text limit
      (RagOrders.front similar text limit z.1).fused) g), (p = z ↔ p.1 = z.1) := fun p hp =>
    ⟨fun he => congrArg Prod.fst he, eq_of_fst_eq hnodup p (hrun.ranked_perm.mem_iff.1 hp) z hz⟩
  refine List.Pairwise.imp_of_mem (fun {p q} hp hq hpq => ?_)
    (descending_ragKey (fun c => decide (c = z.1)) hids hrun (descending_front z.1))
  simp only [hiff p hp, hiff q hq]
  exact hpq

end Run

theorem linearrag_iff_none (hclear : RagClear db similar text limit)
    (hnone : ragGraph .filled db (ragPool similar text limit (.filled _)) = none) :
    (∀ orders orders' : RagOrders, (linearragSearch orders db similar text limit).map Prod.fst =
      (linearragSearch orders' db similar text limit).map Prod.fst) ↔
      Decided (poolTotal similar text limit) (min limit (poolSize limit))
        (poolCandidates similar text limit) := by
  have hresults : ∀ orders : RagOrders, (linearragSearch orders db similar text limit).map
      Prod.fst = ((ranked Prod.snd (orders.fused.of (fusedScores (poolLists similar text limit).1
        (poolLists similar text limit).2))).take (min limit (poolSize limit))).map Prod.fst := by
    intro orders
    rw [linearragSearch_none (ragGraph_none hclear hnone orders), List.map_map]
    rfl
  simp only [hresults]
  refine Iff.trans ?_ ((take_ranked_iff (scoresOf_fusedScores _ _).nodup _).trans
    decided_fusedScores_iff)
  exact ⟨fun h order order' => h { RagOrders.filled with fused := order }
    { RagOrders.filled with fused := order' }, fun h orders orders' => h orders.fused orders'.fused⟩

theorem linearrag_iff_some (hids : (db.chunks.map ChunkRow.id).Nodup)
    (hclear : RagClear db similar text limit) {g₀ : RagGraph}
    (hsome : ragGraph .filled db (ragPool similar text limit (.filled _)) = some g₀) :
    (∀ orders orders' : RagOrders, (linearragSearch orders db similar text limit).map Prod.fst =
      (linearragSearch orders' db similar text limit).map Prod.fst) ↔
      Decided (ragKey (poolTotal similar text limit)
        ((ragPool similar text limit (.filled _)).map Prod.fst)
        (extraChunks db (ragPool similar text limit (.filled _)) g₀)) limit
        (ragScores db (ragPool similar text limit (.filled _)) g₀) := by
  have hnodup : ((ragScores db (ragPool similar text limit (.filled _)) g₀).map Prod.fst).Nodup :=
    nodup_ragScores hids (nodup_ragPool _) g₀
  constructor
  · intro hsame x hx y hy hkey hne
    have hne' : x.1 ≠ y.1 := fun he => hne (eq_of_fst_eq hnodup x hx y hy he)
    obtain ⟨g, hrun⟩ := exists_sameRun hclear hsome (RagOrders.front similar text limit x.1)
    obtain ⟨g', hrun'⟩ := exists_sameRun hclear hsome (RagOrders.front similar text limit y.1)
    have htake := hsame (RagOrders.front similar text limit x.1)
      (RagOrders.front similar text limit y.1)
    rw [hrun.ids_eq hids, hrun'.ids_eq hids] at htake
    exact Lib.le_better_of_fronts (List.Nodup.of_map _ hnodup) hx hy hkey hne' hrun.ranked_perm
      hrun'.ranked_perm (hrun.descending_first hids hx) (hrun'.descending_first hids hy) htake
  · intro hdecided orders orders'
    obtain ⟨g, hrun⟩ := exists_sameRun hclear hsome orders
    obtain ⟨g', hrun'⟩ := exists_sameRun hclear hsome orders'
    rw [hrun.ids_eq hids, hrun'.ids_eq hids]
    exact congrArg _ (Lib.take_eq_of_decided (hrun.descending hids) (hrun'.descending hids)
      (hrun.ranked_perm.trans hrun'.ranked_perm.symm) (hdecided.perm hrun.ranked_perm.symm))

/-- The results are the same in every order if and only if those that are sorted alike are behind
    the cut. -/
theorem linearrag_iff (hids : (db.chunks.map ChunkRow.id).Nodup)
    (hclear : RagClear db similar text limit) :
    (∀ orders orders' : RagOrders, (linearragSearch orders db similar text limit).map Prod.fst =
      (linearragSearch orders' db similar text limit).map Prod.fst) ↔
      RagDecided db similar text limit := by
  unfold RagDecided
  cases hg : ragGraph .filled db (ragPool similar text limit (.filled _)) with
  | none =>
    simp only [hg]
    exact linearrag_iff_none hclear hg
  | some g₀ =>
    simp only [hg]
    exact linearrag_iff_some hids hclear hg

/-- What the results are in every order. -/
structure RagTop (orders : RagOrders) (db : CodeDb R)
    (similar text : ℕ → Option (List (ChunkRow R))) (limit : ℕ) : Prop where
  none : ragGraph orders db (ragPool similar text limit orders.fused) = none → ∃ top,
    TopOf ((poolCandidates similar text limit).map fun id => (id, poolTotal similar text limit id))
      (min limit (poolSize limit)) top ∧
    linearragSearch orders db similar text limit = top.map fun p => (p.1, 1 / p.2)
  some : ∀ g, ragGraph orders db (ragPool similar text limit orders.fused) = some g → ∃ top,
    TopOf (ragScores db (ragPool similar text limit orders.fused) g) limit top ∧
    linearragSearch orders db similar text limit = top.map fun p => (p.1, 1 - p.2)

theorem ragTop (orders : RagOrders) (hids : (db.chunks.map ChunkRow.id).Nodup) :
    RagTop orders db similar text limit :=
  ⟨fun hnone => ⟨_, topOf_ranked ((orders.fused.perm _).trans (fusedScores_perm _ _))
      (nodup_candidateScores _ _) _, linearragSearch_none hnone⟩,
    fun g hg => ⟨_, topOf_ranked (List.Perm.refl _) (nodup_ragScores hids (nodup_ragPool _) g) _,
      linearragSearch_some hids hg⟩⟩

end Order

/-! ### The law -/

/-- The results of a hybrid search are a function of the data if and only if two results with the
    same sum are behind the cut; and those of a LinearRAG search, in which no cut is made between
    equals, if and only if two that are sorted alike are. In every order they are the first of a
    ranking of all that is scored. -/
theorem hybridRankingLaw {R D : Type} [LinearOrder D] (db : CodeDb R)
    (similar text : ℕ → Option (List (ChunkRow R))) (memory : MemoryDb)
    (knn : Knn (List UInt8) D) (noteText : ℕ → Option (List Note)) (queryBlob : List UInt8)
    (asOf : Option Int) (limit : ℕ) (hids : (db.chunks.map ChunkRow.id).Nodup) :
    let notes := fun candidates => some ((search knn queryBlob candidates asOf memory).map Prod.fst)
    let chunkLists := fusedLists ChunkRow.id similar text limit
    let noteLists := fusedLists Note.id notes noteText limit
    ((∀ order order' : IterationOrder (ℕ × ℚ),
      resultIds ChunkRow.id (CodeDb.searchHybrid order similar text limit) =
        resultIds ChunkRow.id (CodeDb.searchHybrid order' similar text limit)) ↔
      FusionDecided limit chunkLists.1 chunkLists.2) ∧
    ((∀ order order' : IterationOrder (ℕ × ℚ),
      resultIds Note.id (memory.searchHybrid knn noteText order queryBlob limit asOf) =
        resultIds Note.id (memory.searchHybrid knn noteText order' queryBlob limit asOf)) ↔
      FusionDecided limit noteLists.1 noteLists.2) ∧
    (RagClear db similar text limit →
      ((∀ orders orders' : RagOrders, (linearragSearch orders db similar text limit).map Prod.fst =
        (linearragSearch orders' db similar text limit).map Prod.fst) ↔
        RagDecided db similar text limit)) ∧
    (∀ order results, CodeDb.searchHybrid order similar text limit = some results →
      TopOf (candidateScores chunkLists.1 chunkLists.2) limit
        (results.map fun r => (r.row.id, r.score))) ∧
    (∀ order results, memory.searchHybrid knn noteText order queryBlob limit asOf = some results →
      TopOf (candidateScores noteLists.1 noteLists.2) limit
        (results.map fun r => (r.row.id, r.score))) ∧
    ∀ orders, RagTop orders db similar text limit :=
  ⟨searchHybrid_iff, searchHybrid_iff, linearrag_iff hids, fun _ _ h => topOf_searchHybrid h,
    fun _ _ h => topOf_searchHybrid h, fun orders => ragTop orders hids⟩

/-- A function that mentions nothing. -/
def unmentioned : CodeDb ℚ := { oneMention with edges := [] }

theorem poolCandidates_unmentioned :
    poolCandidates (fun _ => some unmentioned.chunks) (fun _ => none) 1 = [0] := by decide

theorem ragGraph_unmentioned (orders : RagOrders) (pool : List (ℕ × ℚ)) :
    ragGraph orders unmentioned pool = none := by
  refine ragGraph_eq_none_iff.2 fun c s hmention => ?_
  obtain ⟨-, _, -, -, e, he, -⟩ := hmention
  exact absurd he List.not_mem_nil

theorem ragClear_unmentioned :
    RagClear unmentioned (fun _ => some unmentioned.chunks) (fun _ => none) 1 := by
  have hnil := ragGraph_eq_none_iff_nil.1 (ragGraph_unmentioned .filled
    (ragPool (fun _ => some unmentioned.chunks) (fun _ => none) 1 (.filled _)))
  refine ⟨?_, ?_, ?_⟩
  · rw [poolCandidates_unmentioned]
    intro x hx y hy _ hne
    exact absurd ((List.mem_singleton.1 hx).trans (List.mem_singleton.1 hy).symm) hne
  · rw [hnil]
    exact fun x hx => absurd hx List.not_mem_nil
  · have hkept : keptSymbols .filled unmentioned
        (ragPool (fun _ => some unmentioned.chunks) (fun _ => none) 1 (.filled _)) = [] := by
      unfold keptSymbols rankScores
      rw [hnil, List.mergeSort_nil]
      rfl
    rw [hkept]
    exact .inl (by decide)

theorem hybridRankingLaw_unmentioned :
    RagDecided unmentioned (fun _ => some unmentioned.chunks) (fun _ => none) 1 ∧
      ∀ orders orders' : RagOrders, (linearragSearch orders unmentioned
        (fun _ => some unmentioned.chunks) (fun _ => none) 1).map Prod.fst =
        (linearragSearch orders' unmentioned (fun _ => some unmentioned.chunks)
          (fun _ => none) 1).map Prod.fst := by
  have hdecided : RagDecided unmentioned (fun _ => some unmentioned.chunks) (fun _ => none) 1 := by
    unfold RagDecided
    simp only [ragGraph_unmentioned]
    rw [poolCandidates_unmentioned]
    intro x hx y hy _ hne
    exact absurd ((List.mem_singleton.1 hx).trans (List.mem_singleton.1 hy).symm) hne
  exact ⟨hdecided, ((hybridRankingLaw unmentioned (fun _ => some unmentioned.chunks)
    (fun _ => none) ⟨[], [], [], 1, true⟩ (fun _ _ _ => ([] : List (ℕ × ℕ))) (fun _ => none) []
    none 1 (by decide)).2.2.1 ragClear_unmentioned).2 hdecided⟩

/-- Two functions of one file. -/
def twoFunctions : List (ChunkRow ℚ) :=
  [⟨0, "main.rs", "function", some "main", 1, 1, "fn main() { parse() }", none, none, 6, 0⟩,
   ⟨1, "main.rs", "function", some "parse", 2, 2, "fn parse() {}", none, none, 5, 0⟩]

/-- Of a result of each list one is asked for: the order of the map decides which it is. -/
theorem hybrid_tie :
    ¬ ∀ (similar text : ℕ → Option (List (ChunkRow ℚ))) (limit : ℕ)
      (order order' : IterationOrder (ℕ × ℚ)),
      resultIds ChunkRow.id (CodeDb.searchHybrid order similar text limit) =
        resultIds ChunkRow.id (CodeDb.searchHybrid order' similar text limit) := by
  intro hall
  have hdecided := searchHybrid_iff.1 (hall (fun _ => some (twoFunctions.take 1))
    (fun _ => some (twoFunctions.drop 1)) 1)
  have hlists : fusedLists ChunkRow.id (fun _ => some (twoFunctions.take 1))
      (fun _ => some (twoFunctions.drop 1)) 1 = ([0], [1]) := rfl
  rw [hlists] at hdecided
  have htotal : rrfTotal [0] [1] 0 = rrfTotal [0] [1] 1 := by
    simp [rrfTotal, rrfSum]
  have hbetter : Lib.better (rrfTotal [0] [1]) [0, 1] 0 = 0 := by
    simp [Lib.better, htotal]
  have hcut := hdecided 0 (by decide) 1 (by decide) htotal (by decide)
  exact absurd (hcut.trans_eq hbetter) (by decide)

end Spelunk
