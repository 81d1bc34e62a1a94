import Mathlib.Tactic.Tauto
import Spelunk.Core.IndexRun
import Spelunk.Lib.Transition

/-!
# What the Stamps of an Index Say

After a parse an index holds the files that the parse left as they were and those it cut
anew; `AfterParse` says which from the files of the walk alone. The vectors are all of the
recorded model, in every run: no vector is written where another model is recorded. The
config is a different matter. It is compared only where the embed phase runs, the warning
depends on the recorded config alone, and a forced run records its config although a file
it could not read keeps its chunks. So each promise about a run is proved equivalent to a
condition on the files that stay, on the recorded values and on how far the embedder came.

## Main definitions

* `Stays`, `AfterParse`: The files after a parse.
* `IndexEvent`, `indexNext`: What happens to an index.
* `OfRecordedModel`: The invariant of the vectors.

## Theorems

* `mem_runParsePhase`: The files after a parse, as the walk has them.
* `ofRecordedModel_of_run`: The vectors are of the recorded model, in every run.
* `unwarned_iff`, `forced_iff`: What a run without a warning and a forced run promise.
* `provenanceLaw`: The three together.
-/

namespace Spelunk

open Lib (GuardedRun)

section Parse

variable {config : String} {force : Bool} {files : List IndexedFile} {t : TreeFile}
  {f : IndexedFile}

/-- The stored row of a path. -/
def storedFile (files : List IndexedFile) (path : String) : Option IndexedFile :=
  files.find? (fun f => f.path = path)

theorem mem_upsertFile {g : IndexedFile} :
    f ∈ upsertFile files g ↔ (f ∈ files ∧ f.path ≠ g.path) ∨ f = g := by
  simp only [upsertFile, List.mem_append, List.mem_filter, decide_eq_true_eq, List.mem_singleton]

/-- Another path's row is not touched. -/
theorem storedFile_processFile {path : String} (h : path ≠ t.path) :
    storedFile (processFile config force files t) path = storedFile files path := by
  unfold processFile
  split
  · rfl
  · next hash n _ =>
    unfold storedFile upsertFile
    rw [List.find?_append, List.find?_filter]
    have hlast : [freshFile t.path config hash n].find? (fun f => f.path = path) = none := by
      rw [List.find?_eq_none]
      intro g hg
      rw [List.mem_singleton.mp hg]
      rw [decide_eq_true_eq]
      exact fun heq => h heq.symm
    rw [hlast, Option.or_none]
    congr 1
    funext g
    by_cases hg : g.path = path
    · simp [hg, freshFile, h]
    · simp [hg]

theorem mem_processFile :
    f ∈ processFile config force files t ↔
      (f ∈ files ∧ (f.path = t.path → t.cut force (storedFile files t.path) = none)) ∨
        ∃ hash n, t.cut force (storedFile files t.path) = some (hash, n) ∧
          f = freshFile t.path config hash n := by
  unfold processFile
  rw [show files.find? (fun f => f.path = t.path) = storedFile files t.path from rfl]
  rcases hcut : t.cut force (storedFile files t.path) with _ | ⟨hash, n⟩
  · simp
  · simp only [mem_upsertFile, freshFile, reduceCtorEq, imp_false, Option.some.injEq, Prod.mk.injEq]
    constructor
    · rintro (⟨hf, hpath⟩ | rfl)
      · exact Or.inl ⟨hf, hpath⟩
      · exact Or.inr ⟨hash, n, ⟨rfl, rfl⟩, rfl⟩
    · rintro (⟨hf, hpath⟩ | ⟨_, _, ⟨rfl, rfl⟩, rfl⟩)
      · exact Or.inl ⟨hf, hpath⟩
      · exact Or.inr rfl

/-- What the loop over the walk leaves; every path is decided by the row it had before. -/
theorem mem_foldl_processFile {tree : List TreeFile} (hnodup : (tree.map (·.path)).Nodup) :
    f ∈ tree.foldl (processFile config force) files ↔
      (f ∈ files ∧ ∀ t ∈ tree, t.path = f.path → t.cut force (storedFile files t.path) = none) ∨
        ∃ t ∈ tree, ∃ hash n, t.cut force (storedFile files t.path) = some (hash, n) ∧
          f = freshFile t.path config hash n := by
  induction tree generalizing files with
  | nil => simp
  | cons t rest ih =>
      rw [List.map_cons, List.nodup_cons] at hnodup
      have hother : ∀ x ∈ rest, x.path ≠ t.path :=
        fun x hx heq => hnodup.1 (heq ▸ List.mem_map_of_mem hx)
      have hstored : ∀ x ∈ rest, storedFile (processFile config force files t) x.path =
          storedFile files x.path := fun x hx => storedFile_processFile (hother x hx)
      rw [List.foldl_cons, ih hnodup.2, mem_processFile]
      constructor
      · rintro (⟨hf | ⟨hash, n, hcut, rfl⟩, hrest⟩ | ⟨x, hx, hash, n, hcut, rfl⟩)
        · refine Or.inl ⟨hf.1, fun x hx hpath => ?_⟩
          rcases List.mem_cons.mp hx with rfl | hx
          · exact hf.2 hpath.symm
          · exact hstored x hx ▸ hrest x hx hpath
        · exact Or.inr ⟨t, List.mem_cons_self, hash, n, hcut, rfl⟩
        · exact Or.inr ⟨x, List.mem_cons_of_mem _ hx, hash, n, hstored x hx ▸ hcut, rfl⟩
      · rintro (⟨hf, hall⟩ | ⟨x, hx, hash, n, hcut, rfl⟩)
        · refine Or.inl ⟨Or.inl ⟨hf, fun hpath => hall t List.mem_cons_self hpath.symm⟩, ?_⟩
          exact fun x hx hpath => (hstored x hx).symm ▸ hall x (List.mem_cons_of_mem _ hx) hpath
        · rcases List.mem_cons.mp hx with rfl | hx
          · refine Or.inl ⟨Or.inr ⟨hash, n, hcut, rfl⟩, fun y hy hpath => ?_⟩
            exact absurd hpath (hother y hy)
          · exact Or.inr ⟨x, hx, hash, n, (hstored x hx).symm ▸ hcut, rfl⟩

/-- A file that a parse leaves as it was: the walk has it and it is not cut, or the walk
    is empty. -/
def Stays (force : Bool) (tree : SourceTree) (s : CodeIndex) (f : IndexedFile) : Prop :=
  f ∈ s.files ∧ (tree.files = [] ∨
    ∃ t ∈ tree.files, t.path = f.path ∧ t.cut force (storedFile s.files t.path) = none)

/-- A file that a parse cuts anew. -/
def CutAnew (build : IndexBuild) (force : Bool) (tree : SourceTree) (s : CodeIndex)
    (f : IndexedFile) : Prop :=
  ∃ t ∈ tree.files, ∃ hash n, t.cut force (storedFile s.files t.path) = some (hash, n) ∧
    f = freshFile t.path build.config hash n

/-- A file of the index after a parse. -/
def AfterParse (build : IndexBuild) (force : Bool) (tree : SourceTree) (s : CodeIndex)
    (f : IndexedFile) : Prop :=
  Stays force tree s f ∨ CutAnew build force tree s f

variable {build : IndexBuild} {tree : SourceTree} {s : CodeIndex}

theorem mem_runParsePhase :
    f ∈ (runParsePhase build force tree s).files ↔ AfterParse build force tree s f := by
  unfold runParsePhase AfterParse Stays CutAnew
  by_cases hempty : tree.files = []
  · rw [if_pos hempty]
    simp [hempty]
  · rw [if_neg hempty]
    simp only [cleanupStale, List.mem_filter, decide_eq_true_eq, List.mem_map,
      mem_foldl_processFile tree.nodup, hempty, false_or]
    constructor
    · rintro ⟨⟨hf, hall⟩ | hcut, t, ht, hpath⟩
      · exact Or.inl ⟨hf, t, ht, hpath, hall t ht hpath⟩
      · exact Or.inr hcut
    · rintro (⟨hf, t, ht, hpath, hcut⟩ | ⟨t, ht, hash, n, hcut, rfl⟩)
      · refine ⟨Or.inl ⟨hf, fun x hx hx' => ?_⟩, t, ht, hpath⟩
        rw [List.inj_on_of_nodup_map tree.nodup hx ht (hx'.trans hpath.symm)]
        exact hcut
      · exact ⟨Or.inr ⟨t, ht, hash, n, hcut, rfl⟩, t, ht, rfl⟩

end Parse

section Promises

variable {build : IndexBuild} {force ready : Bool} {tree : SourceTree}
  {served : String → Nat → Bool} {s : CodeIndex} {config model : String}

/-- Every chunk was cut under the config. -/
def AllCut (config : String) (s : CodeIndex) : Prop :=
  ∀ f ∈ s.files, ∀ ch ∈ f.chunks, ch.cutUnder = config

/-- Every chunk has a vector of the model. -/
def AllEmbedded (model : String) (s : CodeIndex) : Prop :=
  ∀ f ∈ s.files, ∀ ch ∈ f.chunks, ch.vector = some model

/-- Every vector is of the recorded model. -/
def OfRecordedModel (s : CodeIndex) : Prop :=
  ∀ f ∈ s.files, ∀ ch ∈ f.chunks, ∀ m ∈ ch.vector, s.embeddingModel = some m

/-- There is something to embed. -/
def Queued (build : IndexBuild) (force : Bool) (tree : SourceTree) (s : CodeIndex) : Prop :=
  tree.files ≠ [] ∧ ∃ f, AfterParse build force tree s f ∧ ∃ ch ∈ f.chunks, ch.vector = none

/-- Another model is recorded. -/
def OtherModel (build : IndexBuild) (s : CodeIndex) : Prop :=
  s.embeddingModel ≠ none ∧ s.embeddingModel ≠ some build.model

/-- Another config is recorded, and the parse does not record this one. -/
def OtherConfig (build : IndexBuild) (force : Bool) (tree : SourceTree) (s : CodeIndex) : Prop :=
  (force = false ∨ tree.files = []) ∧ s.chunkerConfig ≠ none ∧
    s.chunkerConfig ≠ some build.config

theorem embedQueued_iff :
    embedQueued tree (runParsePhase build force tree s) = true ↔ Queued build force tree s := by
  simp only [embedQueued, Queued, Bool.and_eq_true, decide_eq_true_eq, List.any_eq_true,
    mem_runParsePhase, CodeChunk.missing, Option.isNone_iff_eq_none]

theorem embeddingModel_runParsePhase :
    (runParsePhase build force tree s).embeddingModel = s.embeddingModel := by
  unfold runParsePhase
  split <;> rfl

theorem chunkerConfig_runParsePhase : (runParsePhase build force tree s).chunkerConfig =
    if force = true ∧ tree.files ≠ [] then some build.config else s.chunkerConfig := by
  unfold runParsePhase
  by_cases hempty : tree.files = []
  · rw [if_pos hempty, if_neg (fun h => h.2 hempty)]
  · rw [if_neg hempty]
    cases force <;> simp [hempty]

/-- A parse warns in the embed phase exactly of another config that stays recorded. -/
theorem otherConfig_iff :
    ((runParsePhase build force tree s).chunkerConfig ≠ none ∧
      (runParsePhase build force tree s).chunkerConfig ≠ some build.config) ↔
      OtherConfig build force tree s := by
  rw [chunkerConfig_runParsePhase, OtherConfig]
  by_cases hforced : force = true ∧ tree.files ≠ []
  · rw [if_pos hforced]
    simp [hforced.1, hforced.2]
  · rw [if_neg hforced]
    have hnot : force = false ∨ tree.files = [] := by
      rcases Bool.eq_false_or_eq_true force with htrue | hfalse
      · exact Or.inr (not_not.mp (fun hne => hforced ⟨htrue, hne⟩))
      · exact Or.inl hfalse
    simp [hnot]

/-- A vector changes nothing of how a chunk was cut. -/
theorem mem_embedFile {f : IndexedFile} {ch : CodeChunk}
    (h : ch ∈ (embedFile model served f).chunks) :
    ∃ i x, (x, i) ∈ f.chunks.zipIdx ∧
      ch = if x.missing && served f.path i then { x with vector := some model } else x := by
  rcases List.mem_map.mp h with ⟨⟨x, i⟩, hx, rfl⟩
  exact ⟨i, x, hx, rfl⟩

theorem allCut_embed {t : CodeIndex} (ht : t.files = s.files.map (embedFile model served)) :
    AllCut config t ↔ AllCut config s := by
  constructor
  · intro h f hf ch hch
    rcases List.mem_iff_getElem.mp hch with ⟨i, hi, hat⟩
    have hzip : (ch, i) ∈ f.chunks.zipIdx := by
      rw [List.mk_mem_zipIdx_iff_getElem?]
      exact List.getElem?_eq_some_iff.mpr ⟨hi, hat⟩
    have hcut := h (embedFile model served f) (ht ▸ List.mem_map_of_mem hf) _
      (List.mem_map_of_mem hzip)
    split at hcut <;> exact hcut
  · intro h f hf ch hch
    rw [ht] at hf
    rcases List.mem_map.mp hf with ⟨g, hg, rfl⟩
    rcases mem_embedFile hch with ⟨i, x, hx, rfl⟩
    have hcut := h g hg x (List.fst_mem_of_mem_zipIdx hx)
    split <;> exact hcut

/-- The chunks of the files that stay were all cut under the config. -/
def StaysCut (config : String) (force : Bool) (tree : SourceTree) (s : CodeIndex) : Prop :=
  ∀ f, Stays force tree s f → ∀ ch ∈ f.chunks, ch.cutUnder = config

theorem allCut_runParsePhase :
    AllCut build.config (runParsePhase build force tree s) ↔
      StaysCut build.config force tree s := by
  simp only [AllCut, mem_runParsePhase]
  constructor
  · exact fun h f hf => h f (Or.inl hf)
  · rintro h f (hf | ⟨t, _, hash, n, _, rfl⟩)
    · exact h f hf
    · intro ch hch
      rw [List.eq_of_mem_replicate hch]

/-- The ways a run can go: nothing to embed, no embedder, or the embed phase. -/
theorem index_cases (build : IndexBuild) (force ready : Bool) (tree : SourceTree)
    (served : String → Nat → Bool) (s : CodeIndex) :
    (¬ (Queued build force tree s ∧ ready = true) ∧
        index build force tree ready served s =
          (.finished false, runParsePhase build force tree s)) ∨
      (Queued build force tree s ∧ ready = true ∧ index build force tree ready served s =
        runEmbedPhase build served (runParsePhase build force tree s)) := by
  unfold index
  by_cases hqueued : Queued build force tree s
  · have hany := embedQueued_iff.mpr hqueued
    cases ready with
    | false => exact Or.inl ⟨by simp, by simp [hany]⟩
    | true => exact Or.inr ⟨hqueued, rfl, by simp [hany]⟩
  · refine Or.inl ⟨fun h => hqueued h.1, ?_⟩
    have hnone : embedQueued tree (runParsePhase build force tree s) ≠ true :=
      fun h => hqueued (embedQueued_iff.mp h)
    simp [hnone]

/-- The embed phase after a parse: a refusal, or vectors, stamps and the comparison. -/
theorem runEmbedPhase_cases (build : IndexBuild) (force : Bool) (tree : SourceTree)
    (served : String → Nat → Bool) (s : CodeIndex) :
    (OtherModel build s ∧ runEmbedPhase build served (runParsePhase build force tree s) =
        (.refused, runParsePhase build force tree s)) ∨
      (¬ OtherModel build s ∧ ∃ warned t,
        runEmbedPhase build served (runParsePhase build force tree s) = (.finished warned, t) ∧
        (warned = true ↔ OtherConfig build force tree s) ∧
        t.files = (runParsePhase build force tree s).files.map (embedFile build.model served) ∧
        t.embeddingModel = some build.model ∧
        t.chunkerConfig =
          some ((runParsePhase build force tree s).chunkerConfig.getD build.config)) := by
  unfold runEmbedPhase OtherModel
  rw [embeddingModel_runParsePhase]
  by_cases hother : s.embeddingModel ≠ none ∧ s.embeddingModel ≠ some build.model
  · exact Or.inl ⟨hother, by rw [if_pos hother]⟩
  · refine Or.inr ⟨hother, _, _, by rw [if_neg hother], ?_, rfl, rfl, rfl⟩
    rw [← otherConfig_iff, Bool.and_eq_true, decide_eq_true_eq, decide_eq_true_eq]

/-- A run without a warning leaves only chunks of its config exactly where the files that
    stay have no others, or it does not end so. -/
theorem unwarned_iff :
    ((index build force tree ready served s).1 = .finished false →
        AllCut build.config (index build force tree ready served s).2) ↔
      StaysCut build.config force tree s ∨ (Queued build force tree s ∧ ready = true ∧
        (OtherModel build s ∨ OtherConfig build force tree s)) := by
  rcases index_cases build force ready tree served s with ⟨hnot, hrun⟩ | ⟨hqueued, hready, hrun⟩
  · rw [hrun]
    simp only [true_imp_iff, allCut_runParsePhase]
    tauto
  · rw [hrun]
    rcases runEmbedPhase_cases build force tree served s with ⟨hother, hend⟩ | ⟨hsame, warned, t, hend, hwarned, ht, _⟩
    · rw [hend]
      simp only [reduceCtorEq, false_imp_iff, true_iff]
      exact Or.inr ⟨hqueued, hready, Or.inl hother⟩
    · rw [hend]
      simp only [IndexOutcome.finished.injEq, allCut_embed ht, allCut_runParsePhase]
      rw [← Bool.not_eq_true, hwarned]
      tauto

/-- Every chunk that waits after the parse gets its vector. -/
def EmbedsAll (build : IndexBuild) (force : Bool) (tree : SourceTree)
    (served : String → Nat → Bool) (s : CodeIndex) : Prop :=
  ∀ f, AfterParse build force tree s f → ∀ p ∈ f.chunks.zipIdx, p.1.vector = none →
    tree.files ≠ [] ∧ served f.path p.2 = true

/-- A parse writes no vector. -/
theorem ofRecordedModel_runParsePhase (build : IndexBuild) (force : Bool) (tree : SourceTree)
    (h : OfRecordedModel s) :
    OfRecordedModel (runParsePhase build force tree s) := by
  intro f hf ch hch m hm
  rw [embeddingModel_runParsePhase]
  rcases mem_runParsePhase.mp hf with hstays | ⟨t, _, hash, n, _, rfl⟩
  · exact h f hstays.1 ch hch m hm
  · rw [List.eq_of_mem_replicate hch] at hm
    exact absurd hm (by simp)

/-- The embed phase writes vectors of the model it records. -/
theorem ofRecordedModel_runEmbedPhase (h : OfRecordedModel s) :
    OfRecordedModel (runEmbedPhase build served s).2 := by
  unfold runEmbedPhase
  by_cases hother : s.embeddingModel ≠ none ∧ s.embeddingModel ≠ some build.model
  · rw [if_pos hother]
    exact h
  · rw [if_neg hother]
    intro f hf ch hch m hm
    rcases List.mem_map.mp hf with ⟨g, hg, rfl⟩
    rcases mem_embedFile hch with ⟨i, x, hx, rfl⟩
    split at hm
    · exact hm
    · have hold := h g hg x (List.fst_mem_of_mem_zipIdx hx) m hm
      by_contra hne
      exact hother ⟨by rw [hold]; simp, fun hsame => hne (hsame.symm.trans hold)⟩

/-- What the embed phase leaves is embedded whole exactly where every waiting chunk was
    served; the other vectors are of the model already. -/
theorem allEmbedded_embed {t : CodeIndex} (hmodel : ∀ f ∈ s.files, ∀ ch ∈ f.chunks,
    ∀ m ∈ ch.vector, m = model) (ht : t.files = s.files.map (embedFile model served)) :
    AllEmbedded model t ↔ ∀ f ∈ s.files, ∀ p ∈ f.chunks.zipIdx, p.1.vector = none →
      served f.path p.2 = true := by
  constructor
  · rintro h f hf ⟨x, i⟩ hx hnone
    have hat := h (embedFile model served f) (ht ▸ List.mem_map_of_mem hf) _
      (List.mem_map_of_mem hx)
    by_contra hnot
    rw [if_neg (by simp [hnot]), show x.vector = none from hnone] at hat
    exact absurd hat (by simp)
  · intro h f hf ch hch
    rw [ht] at hf
    rcases List.mem_map.mp hf with ⟨g, hg, rfl⟩
    rcases mem_embedFile hch with ⟨i, x, hx, rfl⟩
    rcases hvector : x.vector with _ | m
    · rw [if_pos (by simp [CodeChunk.missing, hvector, h g hg (x, i) hx hvector])]
    · rw [if_neg (by simp [CodeChunk.missing, hvector]), hvector,
        hmodel g hg x (List.fst_mem_of_mem_zipIdx hx) m hvector]

/-- Where nothing was written, the index is embedded whole exactly where nothing waits. -/
theorem allEmbedded_iff_none (hmodel : ∀ f ∈ s.files, ∀ ch ∈ f.chunks, ∀ m ∈ ch.vector, m = model) :
    AllEmbedded model s ↔ ∀ f ∈ s.files, ∀ ch ∈ f.chunks, ch.vector ≠ none := by
  constructor
  · intro h f hf ch hch hnone
    exact absurd ((h f hf ch hch).symm.trans hnone) (by simp)
  · intro h f hf ch hch
    rcases hvector : ch.vector with _ | m
    · exact absurd hvector (h f hf ch hch)
    · rw [hmodel f hf ch hch m hvector]

/-- What a forced run promises: one config, one model, and both recorded. -/
def WholeIndex (build : IndexBuild) (s : CodeIndex) : Prop :=
  AllCut build.config s ∧ AllEmbedded build.model s ∧ s.embeddingModel = some build.model ∧
    s.chunkerConfig = some build.config

/-- When a forced run that ends keeps its promise. -/
def ForceReaches (build : IndexBuild) (tree : SourceTree) (served : String → Nat → Bool)
    (s : CodeIndex) : Prop :=
  StaysCut build.config true tree s ∧ EmbedsAll build true tree served s ∧
    (s.embeddingModel = some build.model ∨
      (s.embeddingModel = none ∧ Queued build true tree s)) ∧
    (tree.files ≠ [] ∨ s.chunkerConfig = some build.config)

theorem chunkerConfig_forced : (runParsePhase build true tree s).chunkerConfig =
      some build.config ↔ tree.files ≠ [] ∨ s.chunkerConfig = some build.config := by
  rw [chunkerConfig_runParsePhase]
  by_cases hempty : tree.files = []
  · simp [hempty]
  · simp [hempty]

/-- A forced run with the embedder ready keeps its promise exactly under its condition, or
    is refused. -/
theorem forced_iff (hinv : OfRecordedModel s) :
    ((∃ warned, (index build true tree true served s).1 = .finished warned) →
        WholeIndex build (index build true tree true served s).2) ↔
      (Queued build true tree s ∧ OtherModel build s) ∨ ForceReaches build tree served s := by
  have hparsed := ofRecordedModel_runParsePhase build true tree hinv
  rcases index_cases build true true tree served s with ⟨hnot, hrun⟩ | ⟨hqueued, _, hrun⟩
  · have hnone : ¬ Queued build true tree s := fun h => hnot ⟨h, rfl⟩
    rw [hrun, WholeIndex, ForceReaches, allCut_runParsePhase, chunkerConfig_forced,
      embeddingModel_runParsePhase]
    simp only [IndexOutcome.finished.injEq, exists_eq', true_imp_iff, hnone, false_and, and_false,
      or_false, false_or]
    refine and_congr_right (fun _ => ?_)
    constructor
    · rintro ⟨hembedded, hmodel, hconfig⟩
      refine ⟨fun f hf p hp hvector => ?_, hmodel, hconfig⟩
      have hat := hembedded f (mem_runParsePhase.mpr hf) p.1 (List.fst_mem_of_mem_zipIdx hp)
      exact absurd (hat.symm.trans hvector) (by simp)
    · rintro ⟨hall, hmodel, hconfig⟩
      refine ⟨?_, hmodel, hconfig⟩
      have hof : ∀ f ∈ (runParsePhase build true tree s).files, ∀ ch ∈ f.chunks,
          ∀ m ∈ ch.vector, m = build.model := by
        intro f hf ch hch m hm
        have hrecorded := hparsed f hf ch hch m hm
        rw [embeddingModel_runParsePhase, hmodel, Option.some.injEq] at hrecorded
        exact hrecorded.symm
      rw [allEmbedded_iff_none hof]
      intro f hf ch hch hvector
      rcases List.mem_iff_getElem.mp hch with ⟨i, hi, hat⟩
      have hzip : (ch, i) ∈ f.chunks.zipIdx := by
        rw [List.mk_mem_zipIdx_iff_getElem?]
        exact List.getElem?_eq_some_iff.mpr ⟨hi, hat⟩
      have hqueue := hall f (mem_runParsePhase.mp hf) (ch, i) hzip hvector
      exact hnone ⟨hqueue.1, f, mem_runParsePhase.mp hf, ch, hch, hvector⟩
  · rw [hrun]
    rcases runEmbedPhase_cases build true tree served s with ⟨hother, hend⟩ |
        ⟨hsame, warned, t, hend, _, ht, htmodel, htconfig⟩
    · rw [hend]
      simp [hqueued, hother]
    · rw [hend]
      have hmodel : s.embeddingModel = some build.model ∨ s.embeddingModel = none := by
        by_contra hnot
        exact hsame ⟨fun h => hnot (Or.inr h), fun h => hnot (Or.inl h)⟩
      have hof : ∀ f ∈ (runParsePhase build true tree s).files, ∀ ch ∈ f.chunks,
          ∀ m ∈ ch.vector, m = build.model := by
        intro f hf ch hch m hm
        have hrecorded := hparsed f hf ch hch m hm
        rw [embeddingModel_runParsePhase] at hrecorded
        rcases hmodel with hmodel | hmodel
        · rw [hmodel, Option.some.injEq] at hrecorded
          exact hrecorded.symm
        · exact absurd (hmodel.symm.trans hrecorded) (by simp)
      have hconfig : (runParsePhase build true tree s).chunkerConfig = some build.config :=
        chunkerConfig_forced.mpr (Or.inl hqueued.1)
      rw [WholeIndex, ForceReaches, allCut_embed ht, allCut_runParsePhase,
        allEmbedded_embed hof ht, htmodel, htconfig, hconfig]
      simp only [IndexOutcome.finished.injEq, exists_eq', true_imp_iff, hqueued, true_and, hsame,
        false_or, Option.getD_some, and_true, hqueued.1, ne_eq, not_false_eq_true, true_or]
      refine and_congr_right (fun _ => ?_)
      constructor
      · exact fun h => ⟨fun f hf p hp hvector => ⟨hqueued.1, h f (mem_runParsePhase.mpr hf) p hp
          hvector⟩, hmodel⟩
      · exact fun h f hf p hp hvector => (h.1 f (mem_runParsePhase.mp hf) p hp hvector).2

end Promises

section Runs

/-- What happens to an index: a run to its end, one that stops after the parse, and the
    child that embeds what waits. -/
inductive IndexEvent where
  | full (build : IndexBuild) (force : Bool) (tree : SourceTree) (ready : Bool)
      (served : String → Nat → Bool)
  | parseOnly (build : IndexBuild) (force : Bool) (tree : SourceTree)
  | embedOnly (build : IndexBuild) (served : String → Nat → Bool)

def indexNext (s : CodeIndex) : IndexEvent → CodeIndex
  | .full build force tree ready served => (index build force tree ready served s).2
  | .parseOnly build force tree => runParsePhase build force tree s
  | .embedOnly build served => (runEmbedPhase build served s).2

def indexStep (s : CodeIndex) (e : IndexEvent) (s' : CodeIndex) : Prop := s' = indexNext s e

/-- An index that any runs of any builds left. -/
def ReachedIndex (s : CodeIndex) : Prop :=
  GuardedRun indexStep (fun _ _ => True) CodeIndex.empty s

/-- The vectors are of the recorded model, in every run. -/
theorem ofRecordedModel_of_run {s : CodeIndex} (h : ReachedIndex s) : OfRecordedModel s := by
  refine GuardedRun.invariant h (fun f hf => absurd hf List.not_mem_nil)
    (fun t e u ht _ hstep => ?_)
  subst hstep
  cases e with
  | full build force tree ready served =>
      have hparsed := ofRecordedModel_runParsePhase build force tree ht
      rcases index_cases build force ready tree served t with ⟨_, hrun⟩ | ⟨_, _, hrun⟩
      · rw [indexNext, hrun]
        exact hparsed
      · rw [indexNext, hrun]
        exact ofRecordedModel_runEmbedPhase hparsed
  | parseOnly build force tree => exact ofRecordedModel_runParsePhase build force tree ht
  | embedOnly build served => exact ofRecordedModel_runEmbedPhase ht

/-- The vectors are always of the recorded model; what a run without a warning and what a
    forced run promise holds exactly under their conditions. -/
theorem provenanceLaw {s : CodeIndex} (h : ReachedIndex s) :
    OfRecordedModel s ∧
    (∀ build force tree ready served,
      ((index build force tree ready served s).1 = .finished false →
        AllCut build.config (index build force tree ready served s).2) ↔
      StaysCut build.config force tree s ∨ (Queued build force tree s ∧ ready = true ∧
        (OtherModel build s ∨ OtherConfig build force tree s))) ∧
    ∀ build tree served,
      ((∃ warned, (index build true tree true served s).1 = .finished warned) →
        WholeIndex build (index build true tree true served s).2) ↔
      (Queued build true tree s ∧ OtherModel build s) ∨ ForceReaches build tree served s :=
  ⟨ofRecordedModel_of_run h, fun _ _ _ _ _ => unwarned_iff,
    fun _ _ _ => forced_iff (ofRecordedModel_of_run h)⟩

/-- Two builds of one model whose chunkers differ. -/
def firstBuild : IndexBuild := ⟨"F2LLM-v2-330M", "max_chunk_tokens=1024"⟩

def nextBuild : IndexBuild := ⟨"F2LLM-v2-330M", "max_chunk_tokens=512"⟩

/-- A tree of one file. -/
def oneFile : SourceTree where
  files := [⟨"src/lib.rs", .text, .read "h1" (some 1)⟩]
  nodup := by decide

/-- The index of the first build. -/
def firstIndex : CodeIndex :=
  (index firstBuild false oneFile true (fun _ _ => true) CodeIndex.empty).2

theorem provenanceLaw_firstIndex : OfRecordedModel firstIndex :=
  (provenanceLaw (GuardedRun.refl.tail
    (.full firstBuild false oneFile true (fun _ _ => true)) trivial rfl)).1

/-- A run of the next build with nothing to embed does not look at the config. -/
theorem nextBuild_unwarned :
    (index nextBuild false oneFile true (fun _ _ => true) firstIndex).1 = .finished false ∧
      ¬ AllCut nextBuild.config
        (index nextBuild false oneFile true (fun _ _ => true) firstIndex).2 := by
  unfold AllCut
  decide

end Runs

end Spelunk
