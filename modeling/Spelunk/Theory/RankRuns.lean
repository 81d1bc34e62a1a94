import Mathlib.Algebra.Field.Rat
import Spelunk.Theory.ParseRows

/-!
# Runs and Ranks

When the ranks of an index are those of its graph. The ranking writes the score of
every named chunk whose name is in the graph and leaves the others alone; and a run
that has nothing to embed ends before it. So after any history of partial runs, a
complete run leaves true ranks in exactly two cases: it has something to embed and
every chunk it keeps whose name is not in the graph any more has no rank; or it has
nothing to embed and the chunks it keeps have their ranks already.

## Main definitions

* `Ranked`: Every named chunk has the score of its name.
* `keptChunks`, `graphAfter`: The chunks a run keeps and the graph it leaves, from the
  database before it.
* `CatchesUp`: The condition on the database before the run.

## Theorems

* `scoreOf_computePagerank`: The names with a score are those of the graph.
* `ranked_rankPhase`: What the ranking needs.
* `rankLaw`: The law of the ranks.
* `staleRank_deletedFile`: A rank that is left over when a file is deleted.
-/

namespace Spelunk

open CodeDb RunState

section Scores

variable {R : Type} [Zero R] [One R] [Add R] [Sub R] [Mul R] [Div R] [NatCast R]

/-! ### The names of the graph -/

theorem length_pagerankRounds (damping : R) (nodes : List String) (edges : List (String × String))
    {scores : List R} (h : scores.length = nodes.length) (k : ℕ) :
    (Nat.iterate (pagerankStep damping nodes edges) k scores).length = nodes.length := by
  induction k generalizing scores with
  | zero => exact h
  | succ k ih =>
    rw [Function.iterate_succ_apply]
    exact ih (by simp [pagerankStep])

/-- The names with a score are those of the graph. -/
theorem scoreOf_computePagerank (edges : List (String × String)) (k : ℕ) (damping : R)
    (name : String) :
    scoreOf (computePagerank edges k damping) name = none ↔ name ∉ collectNodes edges := by
  unfold computePagerank
  split
  · next h =>
    rw [h]
    simp [scoreOf, collectNodes]
  · have hlength := length_pagerankRounds damping (collectNodes edges) edges
      (List.length_replicate (n := (collectNodes edges).length)
        (a := (1 : R) / ((collectNodes edges).length : R))) k
    have hnames := List.map_fst_zip hlength.ge
    simp only [scoreOf, Option.map_eq_none_iff, List.find?_eq_none, decide_eq_true_eq]
    constructor
    · intro h hmem
      rw [← hnames] at hmem
      obtain ⟨p, hp, he⟩ := List.mem_map.1 hmem
      exact h p hp he
    · intro h p hp he
      refine h ?_
      rw [← hnames, ← he]
      exact List.mem_map_of_mem hp

/-! ### The ranking -/

/-- The score a name has in a graph, zero outside of it. -/
def graphScore (graph : List (String × String)) (name : String) : R :=
  (scoreOf (computePagerank graph pagerankIterations pagerankDamping) name).getD 0

/-- Every named chunk has the score of its name. -/
def Ranked (db : CodeDb R) : Prop :=
  ∀ c ∈ db.chunks, ∀ name, c.name = some name → c.graphRank = graphScore db.graphEdgesAll name

omit [Zero R] [One R] [Add R] [Sub R] [Mul R] [Div R] [NatCast R] in
/-- What one update does to a chunk. -/
def setRank (c : ChunkRow R) (u : ℕ × R) : ChunkRow R :=
  if c.id = u.1 then { c with graphRank := u.2 } else c

omit [Zero R] [One R] [Add R] [Sub R] [Mul R] [Div R] [NatCast R] in
theorem updateGraphRanks_rows (scores : List (ℕ × R)) (db : CodeDb R) :
    (db.updateGraphRanks scores).chunks = db.chunks.map (fun c => scores.foldl setRank c) ∧
      (db.updateGraphRanks scores).edges = db.edges := by
  unfold CodeDb.updateGraphRanks
  induction scores generalizing db with
  | nil => simp
  | cons u scores ih =>
    obtain ⟨hchunks, hedges⟩ := ih (db.updateGraphRank u)
    refine ⟨?_, hedges⟩
    rw [List.foldl_cons, hchunks, CodeDb.updateGraphRank, List.map_map]
    rfl

omit [Zero R] [One R] [Add R] [Sub R] [Mul R] [Div R] [NatCast R] in
theorem foldl_setRank_other {scores : List (ℕ × R)} {c : ChunkRow R}
    (h : ∀ u ∈ scores, u.1 ≠ c.id) : scores.foldl setRank c = c := by
  induction scores with
  | nil => rfl
  | cons u scores ih =>
    have hne : setRank c u = c := if_neg (h u List.mem_cons_self).symm
    rw [List.foldl_cons, hne]
    exact ih fun v hv => h v (List.mem_cons_of_mem u hv)

omit [Zero R] [One R] [Add R] [Sub R] [Mul R] [Div R] [NatCast R] in
theorem foldl_setRank_self {scores : List (ℕ × R)} {c : ChunkRow R} {score : R}
    (hval : ∀ u ∈ scores, u.1 = c.id → u.2 = score) (hmem : ∃ u ∈ scores, u.1 = c.id) :
    scores.foldl setRank c = { c with graphRank := score } := by
  induction scores generalizing c with
  | nil =>
    obtain ⟨u, hu, -⟩ := hmem
    exact absurd hu List.not_mem_nil
  | cons u scores ih =>
    have hrest : ∀ v ∈ scores, v.1 = c.id → v.2 = score :=
      fun v hv => hval v (List.mem_cons_of_mem u hv)
    rw [List.foldl_cons]
    by_cases hu : u.1 = c.id
    · have hset : setRank c u = { c with graphRank := score } := by
        rw [setRank, if_pos hu.symm, hval u List.mem_cons_self hu]
      rw [hset]
      by_cases hmore : ∃ v ∈ scores, v.1 = c.id
      · exact ih (c := { c with graphRank := score }) hrest hmore
      · exact foldl_setRank_other (c := { c with graphRank := score })
          fun v hv he => hmore ⟨v, hv, he⟩
    · have hset : setRank c u = c := if_neg (Ne.symm hu)
      rw [hset]
      obtain ⟨v, hv, he⟩ := hmem
      rcases List.mem_cons.1 hv with rfl | hv
      · exact absurd he hu
      · exact ih hrest ⟨v, hv, he⟩

/-- The ranking leaves true ranks exactly where the named chunks outside of the graph have none. -/
theorem ranked_rankPhase {db : CodeDb R} (h : Sound db) :
    Ranked (rankPhase db) ↔ ∀ c ∈ db.chunks, ∀ name, c.name = some name →
      name ∉ collectNodes db.graphEdgesAll → c.graphRank = 0 := by
  by_cases hempty : db.graphEdgesAll = []
  · have hsame : rankPhase db = db := if_pos hempty
    rw [hsame]
    unfold Ranked graphScore
    rw [hempty]
    simp [computePagerank, scoreOf, collectNodes]
  · let scores : List (String × R) :=
      computePagerank db.graphEdgesAll pagerankIterations pagerankDamping
    let updates := db.chunksWithNames.filterMap fun c =>
      c.2.bind fun name => (scoreOf scores name).map fun score => (c.1, score)
    have hphase : rankPhase db = db.updateGraphRanks updates := if_neg hempty
    obtain ⟨hchunks, hedges⟩ := updateGraphRanks_rows updates db
    have hgraph : (db.updateGraphRanks updates).graphEdgesAll = db.graphEdgesAll := by
      unfold CodeDb.graphEdgesAll
      rw [hedges]
    have hupdate : ∀ u, u ∈ updates ↔ ∃ c ∈ db.chunks, ∃ name, c.name = some name ∧
        scoreOf scores name = some u.2 ∧ c.id = u.1 := by
      intro u
      simp only [updates, CodeDb.chunksWithNames, List.mem_filterMap, List.mem_map,
        List.mem_filter, Option.bind_eq_some_iff, Option.map_eq_some_iff]
      constructor
      · rintro ⟨p, ⟨c, ⟨hc, -⟩, rfl⟩, name, hname, score, hscore, rfl⟩
        exact ⟨c, hc, name, hname, hscore, rfl⟩
      · rintro ⟨c, hc, name, hname, hscore, hid⟩
        exact ⟨(c.id, c.name), ⟨c, ⟨hc, by simp [hname]⟩, rfl⟩, name, hname, u.2, hscore,
          by rw [hid]⟩
    -- What the updates make of one named chunk.
    have hone : ∀ c ∈ db.chunks, ∀ name, c.name = some name →
        updates.foldl setRank c =
          { c with graphRank := (scoreOf scores name).getD c.graphRank } := by
      intro c hc name hname
      have hown : ∀ u ∈ updates, u.1 = c.id → scoreOf scores name = some u.2 := by
        intro u hu hid
        obtain ⟨d, hd, name', hname', hscore, hdid⟩ := (hupdate u).1 hu
        have hsame := h.eq_of_id hd hc (hdid.trans hid)
        rw [hsame, hname] at hname'
        rwa [Option.some.inj hname']
      cases hscore : scoreOf scores name with
      | none =>
        refine foldl_setRank_other fun u hu hid => ?_
        simp [hown u hu hid] at hscore
      | some score =>
        refine foldl_setRank_self (fun u hu hid => ?_)
          ⟨(c.id, score), (hupdate _).2 ⟨c, hc, name, hname, hscore, rfl⟩, rfl⟩
        have := hown u hu hid
        rw [hscore] at this
        exact (Option.some.inj this).symm
    rw [hphase]
    unfold Ranked
    rw [hgraph, hchunks]
    constructor
    · intro hranked c hc name hname hnot
      have hnone : scoreOf scores name = none := (scoreOf_computePagerank _ _ _ _).2 hnot
      have hrank := hranked _ (List.mem_map_of_mem hc) name (by
        rw [hone c hc name hname]
        exact hname)
      rw [hone c hc name hname] at hrank
      have hscore : (graphScore db.graphEdgesAll name : R) = 0 := by
        show (scoreOf scores name).getD 0 = 0
        rw [hnone]
        rfl
      rw [hscore] at hrank
      simpa [hnone] using hrank
    · intro hzero d hd name hname
      obtain ⟨c, hc, rfl⟩ := List.mem_map.1 hd
      have hcname : c.name = some name := by
        have hkeeps : ∀ (us : List (ℕ × R)) (c : ChunkRow R),
            (us.foldl setRank c).name = c.name := by
          intro us
          induction us with
          | nil => exact fun c => rfl
          | cons u us ih =>
            intro c
            rw [List.foldl_cons, ih, setRank]
            split <;> rfl
        rw [← hkeeps updates c]
        exact hname
      rw [hone c hc name hcname]
      show (scoreOf scores name).getD c.graphRank = (scoreOf scores name).getD 0
      cases hscore : scoreOf scores name with
      | some score => rfl
      | none => exact hzero c hc name hcname ((scoreOf_computePagerank _ _ _ _).1 hscore)

end Scores

/-! ### What a run keeps -/

section Run

variable {R : Type} (env : Extractors) (files : List WalkedFile) (db : CodeDb R)

/-- The chunks a run keeps: those of the files of the walk that it passes over. A walk without files
    changes nothing. -/
def Extractors.keptChunks : List (ChunkRow R) :=
  if files = [] then db.chunks
  else db.chunks.filter fun c =>
    c.path ∈ files.map WalkedFile.path ∧ env.cuts false db files c.path = false

/-- The edges a run leaves: those of the files that keep theirs, then the new ones. -/
def Extractors.edgesAfter : List EdgeRow :=
  if files = [] then db.edges
  else (db.edges.filter fun e =>
      (e.sourceFile ∈ files.map WalkedFile.path ∨ e.sourceFile ∉ db.paths) ∧
        env.replacesEdges false db files e.sourceFile = false) ++
    files.flatMap (env.newEdges false db)

/-- The graph of these edges. -/
def Extractors.graphAfter : List (String × String) :=
  { db with edges := env.edgesAfter files db }.graphEdgesAll

/-- No chunk is stored, and every chunk that is kept has its vector. -/
def Extractors.NothingToEmbed : Prop :=
  files = [] ∨ ((∀ f ∈ files, env.storesNothing false db f) ∧
    ∀ c ∈ env.keptChunks files db, c.id ∈ db.embeddings)

variable {env files db}

theorem cuts_mem {q : String} (h : env.cuts false db files q = true) :
    q ∈ files.map WalkedFile.path := by
  obtain ⟨f, hf, hq⟩ := List.any_eq_true.1 h
  rw [Bool.and_eq_true, decide_eq_true_eq] at hq
  exact List.mem_map.2 ⟨f, hf, hq.1⟩

/-- What the parse phase leaves. -/
structure Leaves [Zero R] (env : Extractors) (files : List WalkedFile) (db : CodeDb R)
    (parsed : RunState R × List ℕ) : Prop where
  sound : Sound parsed.1.db
  edges : parsed.1.db.edges = env.edgesAfter files db
  kept : ∀ c ∈ env.keptChunks files db, c ∈ parsed.1.db.chunks
  fresh : ∀ c ∈ parsed.1.db.chunks, c ∈ env.keptChunks files db ∨ c.graphRank = 0
  queue : parsed.2 = [] ↔ env.NothingToEmbed files db
  idle : env.NothingToEmbed files db → ∀ c ∈ parsed.1.db.chunks, c ∈ env.keptChunks files db

theorem leaves_runParsePhase [Zero R] (hsound : Sound db)
    (hnodup : (files.map WalkedFile.path).Nodup) :
    Leaves env files db (env.runParsePhase false files db) := by
  by_cases hfiles : files = []
  · have hrun : env.runParsePhase false files db = (.start db, []) := if_pos hfiles
    have hkept : env.keptChunks files db = db.chunks := if_pos hfiles
    have hedges : env.edgesAfter files db = db.edges := if_pos hfiles
    rw [hrun]
    refine ⟨hsound, hedges.symm, fun c hc => hkept ▸ hc, fun c hc => .inl (hkept.symm ▸ hc),
      iff_of_true rfl (.inl hfiles), fun _ c hc => hkept.symm ▸ hc⟩
  · have halong := along_runParsePhase env hsound false files
    obtain ⟨hparsed, hwalkSound⟩ : Parsed env false db files
        (files.foldl (env.processFile false) (.start db)) ∧
          Sound (files.foldl (env.processFile false) (.start db)).db := parsed_files hsound hnodup
    have hrun : env.runParsePhase false files db =
        (removeStale files (files.foldl (env.processFile false) (.start db)),
          (removeStale files (files.foldl (env.processFile false) (.start db))).queue) :=
      if_neg hfiles
    generalize hs : files.foldl (env.processFile false) (.start db) = s at *
    have hout : (removeStale files s).out = s.out := execAll_out _ _
    rw [hrun] at halong ⊢
    have hend : Sound (removeStale files s).db := halong.1
    obtain ⟨⟨-, hedges, -, hembedded⟩, hmem⟩ := removeStale_rows hwalkSound files
    have hstale : ∀ q, q ∉ s.db.paths.filter (· ∉ files.map WalkedFile.path) ↔
        q ∈ files.map WalkedFile.path ∨ q ∉ s.db.paths := by
      intro q
      rw [List.mem_filter, decide_eq_true_eq, not_and_or, not_not, or_comm]
    have hkept : ∀ c, c ∈ env.keptChunks files db ↔ c ∈ db.chunks ∧
        c.path ∈ files.map WalkedFile.path ∧ env.cuts false db files c.path = false := by
      intro c
      unfold Extractors.keptChunks
      rw [if_neg hfiles, List.mem_filter, decide_eq_true_eq]
    have hkeptMem : ∀ c ∈ env.keptChunks files db, c ∈ (removeStale files s).db.chunks := by
      intro c hc
      obtain ⟨hin, hpath, hcut⟩ := (hkept c).1 hc
      exact (hmem c).2 ⟨(hparsed.kept c hcut).2 hin, hpath⟩
    have huncut : ∀ c ∈ (removeStale files s).db.chunks, env.cuts false db files c.path = false →
        c ∈ env.keptChunks files db := by
      intro c hc hcut
      obtain ⟨hin, hpath⟩ := (hmem c).1 hc
      exact (hkept c).2 ⟨(hparsed.kept c hcut).1 hin, hpath, hcut⟩
    have hidle : (∀ f ∈ files, env.storesNothing false db f) →
        ∀ c ∈ (removeStale files s).db.chunks, c ∈ env.keptChunks files db := by
      intro hnone c hc
      exact huncut c hc (hparsed.unstored hnone c ((hmem c).1 hc).1)
    have hvector : ∀ c ∈ env.keptChunks files db,
        (c.id ∈ (removeStale files s).db.embeddings ↔ c.id ∈ db.embeddings) := by
      intro c hc
      obtain ⟨hin, hpath, hcut⟩ := (hkept c).1 hc
      rw [hembedded c ((hparsed.kept c hcut).2 hin) ((hstale c.path).2 (.inl hpath))]
      exact hparsed.embedded c hin hcut
    refine ⟨hend, ?_, hkeptMem, fun c hc => ?_, ?_, fun hnothing => ?_⟩
    · show (removeStale files s).db.edges = _
      unfold Extractors.edgesAfter
      rw [hedges, hparsed.edges, if_neg hfiles, List.filter_append, List.filter_filter]
      congr 1
      · refine List.filter_congr fun e _ => ?_
        have hpath := hparsed.paths e.sourceFile
        rw [Bool.eq_iff_iff, Bool.and_eq_true, decide_eq_true_eq, decide_eq_true_eq, hstale, hpath,
          not_or, Bool.not_eq_true', Bool.not_eq_true]
        refine and_congr_left fun _ => ⟨fun h => h.imp_right And.left, fun h => ?_⟩
        rcases h with h | h
        · exact .inl h
        · cases hcut : env.cuts false db files e.sourceFile with
          | false => exact .inr ⟨h, rfl⟩
          | true => exact .inl (cuts_mem hcut)
      · refine List.filter_eq_self.2 fun e he => decide_eq_true ?_
        obtain ⟨f, hf, hpath⟩ := sourceFile_newEdges env false db he
        exact (hstale e.sourceFile).2 (.inl (hpath ▸ List.mem_map_of_mem hf))
    · cases hcut : env.cuts false db files c.path with
      | false => exact .inl (huncut c hc hcut)
      | true => exact .inr (hparsed.fresh c ((hmem c).1 hc).1 hcut)
    · show (removeStale files s).queue = [] ↔ _
      unfold RunState.queue Extractors.NothingToEmbed
      rw [List.append_eq_nil_iff, hout, hparsed.out]
      refine ⟨fun ⟨hnone, hmissing⟩ => .inr ⟨hnone, fun c hc => ?_⟩, fun h => ?_⟩
      · have hnil : s.out = [] := hparsed.out.2 hnone
        by_contra hnot
        have hin : c.id ∈ (removeStale files s).db.chunksMissingEmbeddings := by
          refine List.mem_map.2 ⟨c, List.mem_filter.2 ⟨hkeptMem c hc, decide_eq_true ⟨?_, ?_⟩⟩, rfl⟩
          · exact hend.filed c (hkeptMem c hc)
          · exact fun h => hnot ((hvector c hc).1 h)
        have : c.id ∈ (removeStale files s).db.chunksMissingEmbeddings.filter (· ∉ s.out) :=
          List.mem_filter.2 ⟨hin, by simp [hnil]⟩
        rw [hmissing] at this
        exact absurd this List.not_mem_nil
      · obtain ⟨hnone, hvectors⟩ := h.resolve_left hfiles
        refine ⟨hnone, List.filter_eq_nil_iff.2 fun id hid => ?_⟩
        obtain ⟨c, hc, rfl⟩ := List.mem_map.1 hid
        obtain ⟨hin, hmissing⟩ := List.mem_filter.1 hc
        have hck := hidle hnone c hin
        have := (of_decide_eq_true hmissing).2
        exact absurd ((hvector c hck).2 (hvectors c hck)) this
    · exact hidle (hnothing.resolve_left hfiles).1

variable [Zero R] [One R] [Add R] [Sub R] [Mul R] [Div R] [NatCast R]

variable (env files db) in
/-- The condition on the database before the run: with nothing to embed, the chunks it keeps have
    their ranks; with something to embed, those whose name leaves the graph have none. -/
def CatchesUp : Prop :=
  (env.NothingToEmbed files db → ∀ c ∈ env.keptChunks files db, ∀ name, c.name = some name →
    c.graphRank = graphScore (env.graphAfter files db) name) ∧
  (¬ env.NothingToEmbed files db → ∀ c ∈ env.keptChunks files db, ∀ name, c.name = some name →
    name ∉ collectNodes (env.graphAfter files db) → c.graphRank = 0)

/-- The law of the ranks. After any history of partial runs, a complete plain run leaves every named
    chunk with the score of its name exactly where the condition holds of the database before it. -/
theorem rankLaw (h : IndexHistory env db) (hnodup : (files.map WalkedFile.path).Nodup)
    (batches : List (List ℕ)) :
    Ranked (env.indexRun false files batches db).db ↔ CatchesUp env files db := by
  obtain ⟨hsound, hedges, hkept, hfresh, hqueue, hidle⟩ : Leaves env files db
      (env.runParsePhase false files db) :=
    leaves_runParsePhase (sound_of_history env h) hnodup
  have hrun : env.indexRun false files batches db =
      if (env.runParsePhase false files db).2 = [] then (env.runParsePhase false files db).1
      else ((env.runParsePhase false files db).1.execAll
        (embedBatches (env.runParsePhase false files db).2 batches)).exec rankPhase := rfl
  generalize env.runParsePhase false files db = parsed at *
  have hgraph : parsed.1.db.graphEdgesAll = env.graphAfter files db := by
    unfold Extractors.graphAfter CodeDb.graphEdgesAll
    rw [hedges]
  unfold CatchesUp
  by_cases hnothing : env.NothingToEmbed files db
  · rw [hrun, if_pos (hqueue.2 hnothing)]
    unfold Ranked
    rw [hgraph]
    constructor
    · exact fun hranked => ⟨fun _ c hc => hranked c (hkept c hc), fun hnot => absurd hnothing hnot⟩
    · exact fun hcatches c hc => hcatches.1 hnothing c (hidle hnothing c hc)
  · rw [hrun, if_neg fun hnil => hnothing (hqueue.1 hnil)]
    show Ranked (rankPhase (parsed.1.execAll (embedBatches parsed.2 batches)).db) ↔ _
    -- The embed phase writes vectors only.
    have hembed : ∀ (bs : List (List ℕ)) (db : CodeDb R), Sound db →
        Sound ((embedBatches parsed.2 bs).foldl (fun db (st : CodeDb R → CodeDb R) => st db) db) ∧
        ((embedBatches parsed.2 bs).foldl (fun db (st : CodeDb R → CodeDb R) => st db) db).chunks =
          db.chunks ∧
        ((embedBatches parsed.2 bs).foldl (fun db (st : CodeDb R → CodeDb R) => st db) db).edges =
          db.edges := by
      intro bs
      induction bs with
      | nil => exact fun db h => ⟨h, rfl, rfl⟩
      | cons ids bs ih => exact fun db h => ih _ (h.insertEmbeddings _)
    obtain ⟨hsound', hchunks', hedges'⟩ := hembed batches parsed.1.db hsound
    rw [execAll_db, ranked_rankPhase hsound']
    unfold CodeDb.graphEdgesAll at hgraph ⊢
    rw [hedges', hgraph, hchunks']
    constructor
    · exact fun hzero => ⟨fun h => absurd h hnothing, fun _ c hc => hzero c (hkept c hc)⟩
    · intro hcatches c hc name hname hnot
      rcases hfresh c hc with hck | hzero
      · exact hcatches.2 hnothing c hck name hname hnot
      · exact hzero

end Run

/-! ### A deleted file -/

section History

variable {R : Type} [Zero R] (env : Extractors)

/-- A run to its end is one of the ways a run may go. -/
theorem indexRun_db_mem [One R] [Add R] [Sub R] [Mul R] [Div R] [NatCast R] (force : Bool)
    (files : List WalkedFile) (batches : List (List ℕ)) (db : CodeDb R) :
    (env.indexRun force files batches db).db ∈ (env.indexRun force files batches db).trace := by
  have hfile : ∀ (s : RunState R) f, s.db ∈ s.trace →
      (env.processFile force s f).db ∈ (env.processFile force s f).trace := by
    intro s f h
    unfold Extractors.processFile
    split
    · exact h
    · exact db_mem_trace (db_mem_trace h _) _
  have hwalk : ∀ (fs : List WalkedFile) (s : RunState R), s.db ∈ s.trace →
      (fs.foldl (env.processFile force) s).db ∈ (fs.foldl (env.processFile force) s).trace := by
    intro fs
    induction fs with
    | nil => exact fun s h => h
    | cons f fs ih => exact fun s h => ih _ (hfile s f h)
  have hstart : (RunState.start db).db ∈ (RunState.start db).trace := List.mem_singleton_self _
  have hparsed : (env.runParsePhase force files db).1.db ∈
      (env.runParsePhase force files db).1.trace := by
    unfold Extractors.runParsePhase
    split
    · exact hstart
    · exact db_mem_trace (hwalk files _ hstart) _
  simp only [Extractors.indexRun]
  split
  · exact hparsed
  · exact List.mem_append_right _ (List.mem_singleton_self _)

end History

/-- Every text is one function `a`, which calls itself in one of them. -/
def oneFunction : Extractors where
  hash source := source
  parse _ _ source := some [{
    nodeType := "function"
    name := some "a"
    startLine := 1
    endLine := 1
    content := source
    docstring := none
    parentScope := none }]
  extract _ _ source :=
    some (if source = "fn a() \x7b a() \x7d" then [⟨some "a", "a", "calls", 1⟩] else [])
  mentions _ _ := []
  parseDoc _ _ _ := []
  pdfPages _ := none
  containsSecret _ := false
  estimateTokens _ := 1

def leafFile : WalkedFile :=
  ⟨"leaf.rs", .text "rust", false, false, some "fn a() \x7b\x7d", 0⟩

def callFile : WalkedFile :=
  ⟨"call.rs", .text "rust", false, false, some "fn a() \x7b a() \x7d", 0⟩

/-- The index after both files are indexed, embedded and ranked. -/
def bothFiles : CodeDb ℚ := (oneFunction.indexRun false [leafFile, callFile] [[0, 1]] .empty).db

theorem history_bothFiles : IndexHistory oneFunction bothFiles :=
  .run .empty (.index false [leafFile, callFile] [[0, 1]] (indexRun_db_mem oneFunction _ _ _ _))

/-- With the caller deleted, a run to its end leaves the rank of the time when it was there. -/
theorem staleRank_deletedFile :
    (oneFunction.indexRun false [leafFile] [] bothFiles).db.chunks.map ChunkRow.graphRank = [1] ∧
    ¬ Ranked (oneFunction.indexRun false [leafFile] [] bothFiles).db := by
  obtain ⟨hranks, hnames, hedges⟩ :
      (oneFunction.indexRun false [leafFile] [] bothFiles).db.chunks.map ChunkRow.graphRank = [1] ∧
      (oneFunction.indexRun false [leafFile] [] bothFiles).db.chunks.map ChunkRow.name =
        [some "a"] ∧
      (oneFunction.indexRun false [leafFile] [] bothFiles).db.edges = [] := by
    decide +kernel
  refine ⟨hranks, fun hranked => ?_⟩
  obtain ⟨c, hchunks⟩ : ∃ c, (oneFunction.indexRun false [leafFile] [] bothFiles).db.chunks = [c] :=
    List.length_eq_one_iff.1 (by rw [← List.length_map ChunkRow.graphRank, hranks]; rfl)
  have hgraph : (oneFunction.indexRun false [leafFile] [] bothFiles).db.graphEdgesAll = [] := by
    rw [CodeDb.graphEdgesAll, hedges]
    rfl
  rw [hchunks] at hranks hnames
  have hone : c.graphRank = 1 := List.singleton_inj.1 hranks
  have hname : c.name = some "a" := List.singleton_inj.1 hnames
  have hrank := hranked c (by rw [hchunks]; exact List.mem_singleton_self c) "a" hname
  rw [hgraph, hone] at hrank
  exact absurd hrank (by decide +kernel)

theorem rankLaw_deletedFile : Ranked (oneFunction.indexRun false [leafFile] [] bothFiles).db ↔
    CatchesUp oneFunction [leafFile] bothFiles :=
  rankLaw history_bothFiles (by decide) []

end Spelunk
