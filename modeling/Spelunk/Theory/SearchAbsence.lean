import Mathlib.Tactic.Common
import Spelunk.Core.SearchCommand

/-!
# Absence Claims of a Search

When the search may say that there is nothing. `No results found.` alone claims that every index
the search was asked for has been searched, and that all of it could be found. The statistics, the
full-text search and the search of each index can fail without a word, and the coverage of linked
indexes is not looked at.

## Main definitions

* `Silent`: A run that ends in `No results found.` and names nothing that was not searched.
* `Substantiated`: Every index that was asked for is searched, and completely.
* `Swallowed`: A part of the search is left out without a word.

## Theorems

* `searchAllDbsLinearrag_eq_nil`: When the search with a vector finds nothing.
* `silent_searchCommand`: When a run is silent.
* `Swallowed.silent`, `Swallowed.not_substantiated`, `substantiated_of_silent`: The two sides.
* `absenceLaw`: When an absence claim is substantiated.
* `searchCommand_swallowed`: A failing full-text search.
-/

namespace Spelunk

section Absence

variable {R : Type} {args : SearchArgs} {w : SearchWorld R} {notices : List SearchNotice}

/-- Nothing is found, and nothing is named that was not searched. -/
structure Silent (o : SearchOutcome R) : Prop where
  printed : o.printed = .noResults
  notices : ∀ n ∈ o.notices, n.namesIncompleteness = false

/-- An index is searched without an error. -/
def ProjectIndex.Searched (index : ProjectIndex R) (args : SearchArgs) : Prop :=
  index.opens = true ∧ (index.linearrag (fetchEach args.fetchLimit)).isSome = true

/-- Every chunk is embedded. -/
def IndexStats.Complete (s : IndexStats) : Prop := s.chunkCount ≤ s.embeddingCount

/-- Every index that was asked for is searched, and completely embedded where that matters. In auto
    mode an index that is not there is not asked for, and one without chunks has nothing to find. -/
def Substantiated (args : SearchArgs) (w : SearchWorld R) : Prop :=
  if args.mode = "ast-grep" ∨ (args.mode = "auto" ∧ w.resolvesFirst = false) then True
  else if args.mode = "auto" ∧ w.isEmpty = true then
    args.deps w.linked = []
  else if args.mode = "text" then
    w.primary.opens = true ∧ (w.searchText (min args.limit 100)).isSome = true ∧
      args.deps w.linked = []
  else
    (w.primary.Searched args ∧ w.primary.stats.Complete) ∧
      ∀ p ∈ args.deps w.linked, p.index.Searched args ∧ p.index.stats.Complete

/-! ### Runs that are silent -/

theorem silent_printFound (hquiet : ∀ n ∈ notices, n.namesIncompleteness = false)
    (found : List (SearchResult R)) : Silent (printFound notices found) ↔ found = [] := by
  rcases found with _ | ⟨r, found⟩
  · exact ⟨fun _ => rfl, fun _ => ⟨rfl, hquiet⟩⟩
  · exact ⟨fun h => (nomatch h.printed), fun h => (nomatch h)⟩

/-- A notice that names something stays. -/
theorem notices_printFound {n : SearchNotice} (hn : n ∈ notices) (found : List (SearchResult R)) :
    n ∈ (printFound notices found).notices := by
  rcases found with _ | ⟨r, found⟩
  · exact hn
  · exact hn

theorem notices_searchTextMode {n : SearchNotice} (hn : n ∈ notices) :
    n ∈ (searchTextMode args w notices).notices := by
  unfold searchTextMode
  split
  · exact notices_printFound hn _
  · exact hn

theorem notices_searchVector {n : SearchNotice} (hn : n ∈ notices) (coverage : Option IndexStats) :
    n ∈ (searchVector args w coverage notices).notices := by
  unfold searchVector
  dsimp only
  split
  · exact hn
  · split
    · exact notices_searchTextMode (List.mem_append_left _ hn)
    split
    · exact notices_printFound hn _
    split
    · split
      · exact hn
      · exact hn
    · exact notices_printFound hn _

theorem notices_searchEmbedded {n : SearchNotice} (hn : n ∈ notices)
    (coverage : Option IndexStats) : n ∈ (searchEmbedded args w coverage notices).notices := by
  unfold searchEmbedded
  split
  · exact notices_searchVector hn coverage
  split
  · exact notices_printFound (List.mem_append_left _ hn) _
  · exact hn

theorem not_silent {o : SearchOutcome R} {n : SearchNotice} (hn : n ∈ o.notices)
    (hnames : n.namesIncompleteness = true) : ¬Silent o := fun h => by
  rw [h.notices n hn] at hnames
  cases hnames

/-- The search with a vector finds nothing. -/
theorem searchAllDbsLinearrag_eq_nil (primary : ProjectIndex R) (deps : List (LinkedProject R))
    (limit : ℕ) : searchAllDbsLinearrag primary deps limit = some [] ↔
      primary.opens = true ∧
        (limit = 0 ∨ primary.hits limit = [] ∧ ∀ dep ∈ deps, dep.index.hits limit = []) := by
  have hspecs : ∀ all : List (SearchResult R), annotateSpecs primary all = [] ↔ all = [] := by
    intro all
    unfold annotateSpecs
    split
    · exact List.map_eq_nil_iff
    · exact Iff.rfl
  have hkeep : ∀ all : List (SearchResult R),
      Lib.keepFirst SearchResult.place [] all = [] ↔ all = [] := by
    intro all
    rcases all with _ | ⟨r, all⟩
    · exact Iff.rfl
    · rw [Lib.keepFirst_cons_of_notMem List.not_mem_nil]
      simp
  have hsort : ∀ (all : List (SearchResult R)) (le : SearchResult R → SearchResult R → Bool),
      all.mergeSort le = [] ↔ all = [] := fun all le => by
    rw [← List.length_eq_zero_iff, List.length_mergeSort, List.length_eq_zero_iff]
  unfold searchAllDbsLinearrag
  split
  · next hopens =>
    simp only [Option.some.injEq, hspecs, List.take_eq_nil_iff, hkeep, hsort, hopens, true_and,
      List.append_eq_nil_iff, List.map_eq_nil_iff, List.flatMap_eq_nil_iff, annotateDepResults]
  · next hopens =>
    refine ⟨fun h => ?_, fun h => absurd h.1 hopens⟩
    cases h

theorem silent_searchVector (hquiet : ∀ n ∈ notices, n.namesIncompleteness = false)
    (coverage : Option IndexStats) :
    Silent (searchVector args w coverage notices) ↔
      searchAllDbsLinearrag w.primary (args.deps w.linked) args.fetchLimit =
          some [] ∧
        (∀ s, coverage = some s → s.Complete) ∧
        (args.mode = "auto" → args.noStaleCheck = false → w.stale = true → w.live = []) := by
  have hmissing : (coverage.any fun s => s.embeddingCount < s.chunkCount) = true ↔
      ¬∀ s, coverage = some s → s.Complete := by
    rcases coverage with _ | s
    · simp
    · simp [IndexStats.Complete]
  unfold searchVector
  dsimp only
  rcases hres : searchAllDbsLinearrag w.primary (args.deps w.linked)
    args.fetchLimit with _ | res
  · exact ⟨fun h => (nomatch h.printed), fun h => (nomatch h.1)⟩
  dsimp only
  by_cases hempty : res = []
  · subst hempty
    by_cases hp : (coverage.any fun s => s.embeddingCount < s.chunkCount) = true
    · -- What was not embedded is named.
      refine ⟨fun h => ?_, fun h => absurd h.2.1 (hmissing.1 hp)⟩
      by_cases hauto : args.mode = "auto"
      · rw [if_pos ⟨hauto, rfl, hp⟩] at h
        exact absurd h (not_silent (notices_searchTextMode
          (List.mem_append_right _ (List.mem_singleton_self _))) rfl)
      · rw [if_neg fun hc => hauto hc.1, if_neg fun hc => hauto hc.1, if_pos ⟨rfl, hp⟩] at h
        split at h
        · exact (nomatch h.printed)
        · exact (nomatch h.printed)
    · rw [if_neg fun hc => hp hc.2.2]
      have hcomplete : ∀ s, coverage = some s → s.Complete := by
        by_contra hc
        exact hp (hmissing.2 hc)
      split
      · next hc =>
        rw [searchLive, silent_printFound hquiet]
        exact ⟨fun h => ⟨rfl, hcomplete, fun _ _ _ => h⟩, fun h => h.2.2 hc.1
          (by simpa using hc.2.2.1) hc.2.2.2⟩
      · next hc =>
        rw [if_neg fun hc => hp hc.2, silent_printFound hquiet]
        exact ⟨fun _ => ⟨rfl, hcomplete, fun h1 h2 h3 => absurd
          ⟨h1, rfl, by rw [h2]; rfl, h3⟩ hc⟩, fun _ => rfl⟩
  · have hne : ¬res.isEmpty = true := by rwa [List.isEmpty_iff]
    rw [if_neg fun hc => hne hc.2.1, if_neg fun hc => hne hc.2.1, if_neg fun hc => hne hc.1,
      silent_printFound hquiet]
    exact ⟨fun h => absurd h hempty, fun h => absurd (Option.some.inj h.1) hempty⟩

theorem silent_searchEmbedded (coverage : Option IndexStats) :
    Silent (searchEmbedded args w coverage notices) ↔
      (w.server = true ∧ w.embeds = true) ∧ Silent (searchVector args w coverage notices) := by
  unfold searchEmbedded
  by_cases hserver : w.server = true ∧ w.embeds = true
  · rw [if_pos hserver]
    exact ⟨fun h => ⟨hserver, h⟩, fun h => h.2⟩
  · rw [if_neg hserver]
    refine ⟨fun h => ?_, fun h => absurd h.1 hserver⟩
    split at h
    · exact absurd h (not_silent (notices_printFound
        (List.mem_append_right _ (List.mem_singleton_self _)) _) rfl)
    · exact (nomatch h.printed)

/-- A search by meaning is silent where it has found nothing and has seen nothing incomplete. -/
structure SilentVector (args : SearchArgs) (w : SearchWorld R) : Prop where
  server : w.server = true
  embeds : w.embeds = true
  coverage : w.statsAgain = true → w.primary.stats.Complete
  opens : w.primary.opens = true
  nothing : args.fetchLimit = 0 ∨ w.primary.hits args.fetchLimit = [] ∧
    ∀ p ∈ args.deps w.linked, p.index.hits args.fetchLimit = []
  live : args.mode = "auto" → args.noStaleCheck = false → w.stale = true → w.live = []

theorem silent_searchCovered (hquiet : ∀ n ∈ notices, n.namesIncompleteness = false)
    (htext : args.mode ≠ "text") :
    Silent (searchCovered args w notices) ↔ SilentVector args w := by
  have hvector : ∀ coverage : Option IndexStats,
      ((∀ s, coverage = some s → s.Complete) ↔
        (w.statsAgain = true → w.primary.stats.Complete)) →
      (((w.server = true ∧ w.embeds = true) ∧ Silent (searchVector args w coverage notices)) ↔
        SilentVector args w) := by
    intro coverage hcoverage
    rw [silent_searchVector hquiet, searchAllDbsLinearrag_eq_nil, hcoverage]
    exact ⟨fun ⟨⟨h1, h2⟩, ⟨h3, h4⟩, h5, h6⟩ => ⟨h1, h2, h5, h3, h4, h6⟩,
      fun h => ⟨⟨h.server, h.embeds⟩, ⟨h.opens, h.nothing⟩, h.coverage, h.live⟩⟩
  rw [searchCovered, if_neg htext]
  rcases hstats : w.statsAgain with _ | _
  · rw [if_neg Bool.false_ne_true]
    dsimp only
    rw [silent_searchEmbedded]
    refine hvector none ⟨fun _ h => ?_, fun _ s h => (nomatch h)⟩
    rw [hstats] at h
    cases h
  · rw [if_pos rfl]
    dsimp only
    by_cases hcomplete : w.primary.stats.Complete
    · have hdisposition : coverageDisposition w.primary.stats.embeddingCount
          w.primary.stats.chunkCount (args.mode = "auto") = .complete := if_pos (.inr hcomplete)
      rw [hdisposition]
      dsimp only
      rw [silent_searchEmbedded]
      refine hvector (some w.primary.stats) ⟨fun _ _ => hcomplete, fun _ s h => ?_⟩
      rw [← Option.some.inj h]
      exact hcomplete
    · have hnot : ¬SilentVector args w := fun h => hcomplete (h.coverage hstats)
      refine ⟨fun h => absurd h ?_, fun h => absurd h hnot⟩
      split
      · rw [silent_searchEmbedded, silent_searchVector hquiet]
        exact fun h => hcomplete (h.2.2.1 w.primary.stats rfl)
      · exact not_silent (notices_searchEmbedded
          (List.mem_append_right _ (List.mem_singleton_self _)) _) rfl
      · exact not_silent (notices_printFound
          (List.mem_append_right _ (List.mem_singleton_self _)) _) rfl
      · exact fun h => (nomatch h.printed)

theorem silent_searchTextMode (hquiet : ∀ n ∈ notices, n.namesIncompleteness = false) :
    Silent (searchTextMode args w notices) ↔
      w.primary.opens = true ∧ (w.searchText (min args.limit 100)).getD [] = [] := by
  unfold searchTextMode
  split
  · next hopens =>
    rw [silent_printFound hquiet]
    exact ⟨fun h => ⟨hopens, h⟩, fun h => h.2⟩
  · next hopens => exact ⟨fun h => (nomatch h.printed), fun h => absurd h.1 hopens⟩

/-- When the command is silent: where it searches live without a word, in text mode, and where it
    searches by meaning. -/
theorem silent_searchCommand : Silent (searchCommand args w) ↔
    if (args.mode = "auto" ∧ (w.resolvesFirst = false ∨ w.isEmpty = true)) ∨
        args.mode = "ast-grep" then
      w.live = []
    else
      w.resolves = true ∧ (args.mode ≠ "auto" → ¬w.isEmpty = true) ∧
        if args.mode = "text" then
          w.primary.opens = true ∧ (w.searchText (min args.limit 100)).getD [] = []
        else SilentVector args w := by
  have hnone : ∀ n ∈ ([] : List SearchNotice), n.namesIncompleteness = false :=
    fun n hn => absurd hn List.not_mem_nil
  have hquiet : ∀ n ∈ (if !args.noStaleCheck ∧ w.stale then [SearchNotice.stale] else []),
      n.namesIncompleteness = false := by
    intro n hn
    split at hn
    · rw [List.mem_singleton.1 hn]
      rfl
    · exact absurd hn List.not_mem_nil
  unfold searchCommand
  dsimp only
  by_cases hfast : args.mode = "auto" ∧ (w.resolvesFirst = false ∨ w.isEmpty = true)
  · rw [if_pos hfast, if_pos (.inl hfast), searchLive, silent_printFound hnone]
  rw [if_neg hfast]
  by_cases hgrep : args.mode = "ast-grep"
  · rw [if_pos hgrep, if_pos (.inr hgrep), searchLive, silent_printFound hnone]
  rw [if_neg hgrep, if_neg (not_or.2 ⟨hfast, hgrep⟩)]
  rcases hresolves : w.resolves with _ | _
  · rw [if_pos rfl]
    exact ⟨fun h => (nomatch h.printed), fun h => (nomatch h.1)⟩
  rw [if_neg Bool.noConfusion]
  by_cases hempty : args.mode ≠ "auto" ∧ w.isEmpty = true
  · rw [if_pos hempty]
    exact ⟨fun h => (nomatch h.printed), fun h => absurd hempty.2 (h.2.1 hempty.1)⟩
  rw [if_neg hempty]
  have hchunks : args.mode ≠ "auto" → ¬w.isEmpty = true := fun h1 h2 => hempty ⟨h1, h2⟩
  by_cases htext : args.mode = "text"
  · have hgate : ¬((args.mode = "semantic" ∨ args.mode = "hybrid") ∧ w.server = false) := by
      rw [htext]
      exact fun h => absurd h.1 (by decide)
    rw [if_neg hgate, if_pos htext, searchCovered, if_pos htext, silent_searchTextMode hquiet]
    exact ⟨fun h => ⟨rfl, hchunks, h⟩, fun h => h.2.2⟩
  · rw [if_neg htext]
    by_cases hgate : (args.mode = "semantic" ∨ args.mode = "hybrid") ∧ w.server = false
    · rw [if_pos hgate]
      refine ⟨fun h => (nomatch h.printed), fun h => ?_⟩
      have hserver := h.2.2.server
      rw [hgate.2] at hserver
      cases hserver
    · rw [if_neg hgate, silent_searchCovered hquiet htext]
      exact ⟨fun h => ⟨rfl, hchunks, h⟩, fun h => h.2.2⟩

/-! ### What is swallowed -/

/-- A part of the search is left out without a word. -/
inductive Swallowed (args : SearchArgs) (w : SearchWorld R) : Prop where
  /-- Auto mode leaves an empty primary index for the live search, and linked indexes with it. -/
  | emptyPrimary (auto : args.mode = "auto") (resolves : w.resolvesFirst = true)
      (empty : w.isEmpty = true) (live : w.live = []) (left : args.deps w.linked ≠ [])
  /-- Text mode takes an error for nothing, and searches the primary index only. -/
  | text (mode : args.mode = "text") (resolves : w.resolves = true) (chunks : ¬w.isEmpty = true)
      (opens : w.primary.opens = true)
      (nothing : (w.searchText (min args.limit 100)).getD [] = [])
      (left : w.searchText (min args.limit 100) = none ∨ args.deps w.linked ≠ [])
  /-- The search by meaning takes errors for nothing, does without statistics that cannot be read,
      and does not look at the coverage of linked indexes. -/
  | vector (modes : args.mode ≠ "text" ∧ args.mode ≠ "ast-grep")
      (first : args.mode = "auto" → w.resolvesFirst = true) (resolves : w.resolves = true)
      (chunks : ¬w.isEmpty = true) (silent : SilentVector args w)
      (left : w.primary.linearrag (fetchEach args.fetchLimit) = none ∨
        ¬w.primary.stats.Complete ∨
        ∃ p ∈ args.deps w.linked, p.index.opens = false ∨
          p.index.linearrag (fetchEach args.fetchLimit) = none ∨ ¬p.index.stats.Complete)

/-- A search that leaves something out without a word is silent. -/
theorem Swallowed.silent (h : Swallowed args w) : Silent (searchCommand args w) := by
  rw [silent_searchCommand]
  cases h with
  | emptyPrimary auto resolves empty live left =>
    rw [if_pos (.inl ⟨auto, .inr empty⟩)]
    exact live
  | text mode resolves chunks opens nothing left =>
    rw [if_neg (by rw [mode]; simp), if_pos mode]
    exact ⟨resolves, fun _ => chunks, opens, nothing⟩
  | vector modes first resolves chunks silent left =>
    have hfast : ¬((args.mode = "auto" ∧ (w.resolvesFirst = false ∨ w.isEmpty = true)) ∨
        args.mode = "ast-grep") := by
      rintro (⟨hmode, hfirst | hempty⟩ | hmode)
      · rw [first hmode] at hfirst
        cases hfirst
      · exact chunks hempty
      · exact modes.2 hmode
    rw [if_neg hfast, if_neg modes.1]
    exact ⟨resolves, fun _ => chunks, silent⟩

/-- What is left out is missing from the claim. -/
theorem Swallowed.not_substantiated (h : Swallowed args w) : ¬Substantiated args w := by
  intro hsub
  cases h with
  | emptyPrimary auto resolves empty live left =>
    have hasked : ¬(args.mode = "ast-grep" ∨
        (args.mode = "auto" ∧ w.resolvesFirst = false)) := by
      rw [auto, resolves]
      simp
    rw [Substantiated, if_neg hasked, if_pos ⟨auto, empty⟩] at hsub
    exact left hsub
  | text mode resolves chunks opens nothing left =>
    rw [Substantiated, if_neg (by rw [mode]; simp), if_neg (by rw [mode]; simp),
      if_pos mode] at hsub
    rcases left with hnone | hlinked
    · rw [hnone] at hsub
      exact absurd hsub.2.1 (by simp)
    · exact hlinked hsub.2.2
  | vector modes first resolves chunks silent left =>
    have hasked : ¬(args.mode = "ast-grep" ∨
        (args.mode = "auto" ∧ w.resolvesFirst = false)) := by
      rintro (hmode | ⟨hmode, hfirst⟩)
      · exact modes.2 hmode
      · rw [first hmode] at hfirst
        cases hfirst
    rw [Substantiated, if_neg hasked, if_neg (fun hc => chunks hc.2), if_neg modes.1] at hsub
    rcases left with hnone | hincomplete | ⟨p, hp, hclosed | hnone | hincomplete⟩
    · have hsome := hsub.1.1.2
      rw [hnone] at hsome
      cases hsome
    · exact hincomplete hsub.1.2
    · have hopens := (hsub.2 p hp).1.1
      rw [hclosed] at hopens
      cases hopens
    · have hsome := (hsub.2 p hp).1.2
      rw [hnone] at hsome
      cases hsome
    · exact hincomplete (hsub.2 p hp).2

/-- A silent search that leaves nothing out has searched all that was asked for. -/
theorem substantiated_of_silent (hsilent : Silent (searchCommand args w))
    (hnot : ¬Swallowed args w) : Substantiated args w := by
  rw [silent_searchCommand] at hsilent
  unfold Substantiated
  split
  · trivial
  next hasked =>
  obtain ⟨hgrep, hnotFirst⟩ := not_or.1 hasked
  have hfirst : args.mode = "auto" → w.resolvesFirst = true := fun hmode => by
    by_contra h
    exact hnotFirst ⟨hmode, by simpa using h⟩
  split
  · next hempty =>
    by_contra hleft
    rw [if_pos (.inl ⟨hempty.1, .inr hempty.2⟩)] at hsilent
    exact hnot (.emptyPrimary hempty.1 (hfirst hempty.1) hempty.2 hsilent hleft)
  next hempty =>
  have hfast : ¬((args.mode = "auto" ∧ (w.resolvesFirst = false ∨ w.isEmpty = true)) ∨
      args.mode = "ast-grep") := by
    rintro (⟨hmode, h | h⟩ | h)
    · rw [hfirst hmode] at h
      cases h
    · exact hempty ⟨hmode, h⟩
    · exact hgrep h
  rw [if_neg hfast] at hsilent
  obtain ⟨hresolves, hexplicit, hsilent⟩ := hsilent
  have hchunks : ¬w.isEmpty = true := fun h => by
    by_cases hmode : args.mode = "auto"
    · exact hempty ⟨hmode, h⟩
    · exact hexplicit hmode h
  split
  · next htext =>
    rw [if_pos htext] at hsilent
    have hleft := fun left => hnot (.text htext hresolves hchunks hsilent.1 hsilent.2 left)
    exact ⟨hsilent.1, Option.ne_none_iff_isSome.1 fun h => hleft (.inl h),
      by_contra fun h => hleft (.inr h)⟩
  · next htext =>
    rw [if_neg htext] at hsilent
    have hleft := fun left =>
      hnot (.vector ⟨htext, hgrep⟩ hfirst hresolves hchunks hsilent left)
    refine ⟨⟨⟨hsilent.opens, Option.ne_none_iff_isSome.1 fun h => hleft (.inl h)⟩, ?_⟩,
      fun p hp => ⟨⟨?_, Option.ne_none_iff_isSome.1 fun h =>
        hleft (.inr (.inr ⟨p, hp, .inr (.inl h)⟩))⟩, ?_⟩⟩
    · by_contra h
      exact hleft (.inr (.inl h))
    · by_contra h
      exact hleft (.inr (.inr ⟨p, hp, .inl (by simpa using h)⟩))
    · by_contra h
      exact hleft (.inr (.inr ⟨p, hp, .inr (.inr h)⟩))

end Absence

/-- An absence claim is substantiated exactly where nothing is swallowed. -/
theorem absenceLaw {R : Type} (args : SearchArgs) (w : SearchWorld R) :
    (Silent (searchCommand args w) → Substantiated args w) ↔ ¬Swallowed args w :=
  ⟨fun h hswallowed => hswallowed.not_substantiated (h hswallowed.silent),
    fun hnot hsilent => substantiated_of_silent hsilent hnot⟩

/-- An index without a full-text table: text mode says that there is nothing. -/
def brokenText : SearchWorld Unit where
  resolvesFirst := true
  resolves := true
  primary := ⟨.empty, [], true, fun _ => some [], List.nodup_nil, fun _ h => (nomatch h),
    fun _ _ h => by cases h; exact fun _ h => (nomatch h)⟩
  linked := []
  statsFirst := false
  statsAgain := false
  searchText := fun _ => none
  server := false
  embeds := false
  stale := false
  live := []

/-- A full-text search that fails is taken for one that has found nothing. -/
theorem searchCommand_swallowed :
    ¬(Silent (searchCommand ⟨"text", 10, none, 10, false, true⟩ brokenText) →
      Substantiated ⟨"text", 10, none, 10, false, true⟩ brokenText) := by
  intro h
  have hsilent : Silent (searchCommand ⟨"text", 10, none, 10, false, true⟩ brokenText) :=
    ⟨rfl, fun n hn => absurd hn List.not_mem_nil⟩
  have hsub := h hsilent
  rw [Substantiated, if_neg (by decide), if_neg (by decide), if_pos rfl] at hsub
  exact absurd hsub.2.1 (by decide)

end Spelunk
