import Spelunk.Core.ProjectSearch
import Spelunk.Theory.BindSlices

/-!
# Projects Kept Apart

The merged results of a search over linked projects against what they should be: of all that
the indexes find, a chunk of a project being what it is by its project and its id, the
nearest so many, each with the label and the specs of its own project; and then the first
neighbours of the primary results.

The code tells results apart by path and lines, looks the specs of all of them up in the
primary index, and asks its graph for the names of all of them. So what it does is right
exactly where none of this matters for the results at hand (`searchProjectsLaw`).

## Main definitions

* `Found`: What an index finds, with its project.
* `nearest`: The results as they should be.
* `Apart`: What is demanded of a search.
* `Stray`, `Shadowed`: Chunks for which the names and ids of other projects matter.

## Theorems

* `sorted_nearest`, `nearest_of_notMem`: They are the nearest.
* `searchAllDbs_eq`: The results before they are told apart.
* `searchProjectsLaw`: When the projects are kept apart.
* `projects_mixed`: Two projects that are mixed.
-/

namespace Spelunk

/-- What an index finds, with the number of its project, which is zero for the primary one. -/
structure Found (R : Type) where
  number : ℕ
  dep : Option (LinkedProject R)
  hit : Hit R

namespace Found

variable {R : Type}

/-- The index it was found in. -/
def index (f : Found R) (primary : ProjectIndex R) : ProjectIndex R :=
  f.dep.elim primary LinkedProject.index

/-- What a chunk of a project is known by. -/
def ident (f : Found R) : ℕ × ℕ := (f.number, f.hit.row.id)

/-- The result with the label of its project. -/
def toResult (f : Found R) : SearchResult R :=
  { SearchResult.ofHit f.hit with
    projectName := f.dep.map LinkedProject.displayName
    projectPath := f.dep.map LinkedProject.rootPath }

end Found

section Search

variable {R : Type} (primary : ProjectIndex R) (deps : List (LinkedProject R)) (limit : ℕ)

/-- What all indexes find. -/
def foundAll : List (Found R) :=
  (primary.hits limit).map (⟨0, none, ·⟩) ++ (deps.zipIdx 1).flatMap fun p =>
    (p.1.index.hits limit).map (⟨p.2, some p.1, ·⟩)

/-- By distance. -/
def sortedFound : List (Found R) :=
  (foundAll primary deps limit).mergeSort fun a b => decide (a.hit.distance ≤ b.hit.distance)

/-- The nearest so many. -/
def nearest : List (Found R) :=
  (Lib.keepFirst Found.ident [] (sortedFound primary deps limit)).take limit

variable {primary deps limit}

/-! ### The nearest -/

theorem mem_sortedFound {f : Found R} :
    f ∈ sortedFound primary deps limit ↔ f ∈ foundAll primary deps limit :=
  List.mem_mergeSort

theorem pairwise_sortedFound : (sortedFound primary deps limit).Pairwise fun a b =>
    a.hit.distance ≤ b.hit.distance := by
  have hsorted : (sortedFound primary deps limit).Pairwise fun a b =>
      decide (a.hit.distance ≤ b.hit.distance) = true :=
    List.pairwise_mergeSort
      (fun a b c hab hbc => decide_eq_true
        ((of_decide_eq_true hab).trans (of_decide_eq_true hbc)))
      (fun a b => by simpa using le_total a.hit.distance b.hit.distance) _
  exact hsorted.imp fun h => of_decide_eq_true h

/-- They are in order of distance, and none of them is another. -/
theorem sorted_nearest :
    ((nearest primary deps limit).Pairwise fun a b => a.hit.distance ≤ b.hit.distance) ∧
      ((nearest primary deps limit).map Found.ident).Nodup := by
  have hsub := List.take_sublist limit
    (Lib.keepFirst Found.ident [] (sortedFound primary deps limit))
  exact ⟨pairwise_sortedFound.sublist (hsub.trans (Lib.keepFirst_sublist _ _)),
    (Lib.nodup_keepFirst [] _).sublist (hsub.map _)⟩

theorem exists_of_mem_foundAll {f : Found R} (h : f ∈ foundAll primary deps limit) :
    f.hit ∈ (f.index primary).hits limit ∧
      (f.number = 0 ∧ f.dep = none ∨
        ∃ dep, f.dep = some dep ∧ f.number ≠ 0 ∧ deps[f.number - 1]? = some dep) := by
  rcases List.mem_append.1 h with h | h
  · obtain ⟨hit, hhit, rfl⟩ := List.mem_map.1 h
    exact ⟨hhit, .inl ⟨rfl, rfl⟩⟩
  · obtain ⟨⟨dep, number⟩, hdep, h⟩ := List.mem_flatMap.1 h
    obtain ⟨hit, hhit, rfl⟩ := List.mem_map.1 h
    obtain ⟨hle, -, hget⟩ := List.mem_zipIdx hdep
    refine ⟨hhit, .inr ⟨dep, rfl, Nat.ne_of_gt hle, ?_⟩⟩
    rw [List.getElem?_eq_some_iff]
    exact ⟨_, hget.symm⟩

theorem ProjectIndex.row_mem {index : ProjectIndex R} {hit : Hit R}
    (h : hit ∈ index.hits limit) : hit.row ∈ index.db.chunks := by
  unfold ProjectIndex.hits at h
  split at h
  · cases hfound : index.linearrag (fetchEach limit) with
    | none =>
      rw [hfound] at h
      exact absurd h List.not_mem_nil
    | some hits =>
      rw [hfound] at h
      exact index.found _ _ hfound hit h
  · exact absurd h List.not_mem_nil

/-- The same chunk of the same project is in the same place. -/
theorem place_of_ident {f g : Found R} (hf : f ∈ foundAll primary deps limit)
    (hg : g ∈ foundAll primary deps limit) (h : f.ident = g.ident) :
    f.toResult.place = g.toResult.place := by
  obtain ⟨hnumber, hid⟩ := Prod.mk.inj h
  obtain ⟨hfrow, hfdep⟩ := exists_of_mem_foundAll hf
  obtain ⟨hgrow, hgdep⟩ := exists_of_mem_foundAll hg
  have hdep : f.dep = g.dep := by
    rcases hfdep with ⟨hzero, hnone⟩ | ⟨dep, hsome, hne, hget⟩
    · rcases hgdep with ⟨-, hnone'⟩ | ⟨_, -, hne, -⟩
      · rw [hnone, hnone']
      · exact absurd (hnumber.symm.trans hzero) hne
    · rcases hgdep with ⟨hzero, -⟩ | ⟨dep', hsome', -, hget'⟩
      · exact absurd (hnumber.trans hzero) hne
      · rw [hsome, hsome', ← hget, ← hget', hnumber]
  have hindex : f.index primary = g.index primary := by rw [Found.index, Found.index, hdep]
  have hrow : f.hit.row = g.hit.row :=
    List.inj_on_of_nodup_map (f.index primary).nodup_ids (ProjectIndex.row_mem hfrow)
      (hindex ▸ ProjectIndex.row_mem hgrow) hid
  unfold SearchResult.place Found.toResult SearchResult.ofHit
  rw [hrow]

/-- What is left out is no nearer than any of them, or is one of them. -/
theorem nearest_of_notMem {f : Found R} (hf : f ∈ foundAll primary deps limit) :
    (∃ g ∈ nearest primary deps limit, g.ident = f.ident ∧ g.hit.distance ≤ f.hit.distance) ∨
      (nearest primary deps limit).length = limit ∧
        ∀ g ∈ nearest primary deps limit, g.hit.distance ≤ f.hit.distance := by
  obtain ⟨y, hy, hident, hle⟩ :
      ∃ y ∈ Lib.keepFirst Found.ident [] (sortedFound primary deps limit),
        y.ident = f.ident ∧ (y = f ∨ y.hit.distance ≤ f.hit.distance) :=
    Lib.exists_mem_keepFirst pairwise_sortedFound (mem_sortedFound.2 hf) List.not_mem_nil
  have hdist : y.hit.distance ≤ f.hit.distance := by
    rcases hle with rfl | hle
    · exact le_rfl
    · exact hle
  have hpair : (Lib.keepFirst Found.ident [] (sortedFound primary deps limit)).Pairwise
      fun a b => a.hit.distance ≤ b.hit.distance :=
    pairwise_sortedFound.sublist (Lib.keepFirst_sublist _ _)
  unfold nearest
  rw [← List.take_append_drop limit (Lib.keepFirst Found.ident [] _)] at hy hpair
  rcases List.mem_append.1 hy with hy | hy
  · exact .inl ⟨y, hy, hident, hdist⟩
  · refine .inr ⟨?_, fun g hg => ((List.pairwise_append.1 hpair).2.2 g hg y hy).trans hdist⟩
    have hlong := List.length_pos_of_mem hy
    rw [List.length_drop] at hlong
    rw [List.length_take]
    omega

/-! ### The results -/

/-- What all indexes find, as results. -/
theorem map_toResult_foundAll : (foundAll primary deps limit).map Found.toResult =
    (primary.hits limit).map SearchResult.ofHit ++ deps.flatMap fun dep =>
      annotateDepResults ((dep.index.hits limit).map SearchResult.ofHit) dep.displayName
        dep.rootPath := by
  have hnumbered : deps = (deps.zipIdx 1).map Prod.fst := (List.zipIdx_map_fst 1 deps).symm
  conv_rhs => rw [hnumbered, List.flatMap_map]
  rw [foundAll, List.map_append, List.map_map, List.map_flatMap]
  congr 1
  refine List.flatMap_congr fun p _ => ?_
  rw [annotateDepResults, List.map_map, List.map_map]
  rfl

/-- The results before the specs are looked up. -/
theorem searchAllDbs_eq (h : primary.opens = true) :
    searchAllDbsLinearrag primary deps limit = some (annotateSpecs primary
      (((Lib.keepFirst (fun f => f.toResult.place) [] (sortedFound primary deps limit)).take
        limit).map Found.toResult)) := by
  rw [searchAllDbsLinearrag, if_pos h]
  dsimp only
  rw [← map_toResult_foundAll, ← List.map_mergeSort (r := fun a b : Found R =>
    decide (a.hit.distance ≤ b.hit.distance)) fun _ _ _ _ => rfl, Lib.keepFirst_map,
    ← List.map_take]
  rfl

/-! ### Specs -/

/-- The specs that govern a file in an index. -/
def ProjectIndex.specsOf (index : ProjectIndex R) (path : String) : List String :=
  (specsForFiles index.specLinks [path]).map Prod.fst

theorem specsForFiles_of_mem {links : List SpecLink} {paths : List String} {path : String}
    (hpath : path ∈ paths) (h : specsForFiles links paths = []) :
    specsForFiles links [path] = [] := by
  have hnone : ∀ l ∈ links, (l.linkedPath.toList.isPrefixOf path.toList ||
      decide (path = l.linkedPath)) = false := by
    intro l hl
    by_contra hgoverns
    have hmem : (l.path, l.title) ∈ (links.filter fun l => paths.any fun fp =>
        l.linkedPath.toList.isPrefixOf fp.toList || decide (fp = l.linkedPath)).map
        fun l => (l.path, l.title) :=
      List.mem_map.2 ⟨l, List.mem_filter.2 ⟨hl, List.any_eq_true.2
        ⟨path, hpath, Bool.eq_true_of_not_eq_false hgoverns⟩⟩, rfl⟩
    obtain ⟨y, hy, -⟩ : ∃ y ∈ specsForFiles links paths, y.1 = l.path ∧ (y = (l.path, l.title) ∨
        True) :=
      Lib.exists_mem_keepFirst (List.pairwise_of_forall fun _ _ => trivial) hmem List.not_mem_nil
    rw [h] at hy
    exact List.not_mem_nil hy
  rw [specsForFiles, List.filter_eq_nil_iff.2]
  · rfl
  · intro l hl
    simp only [List.any_cons, List.any_nil, Bool.or_false, hnone l hl]
    exact Bool.false_ne_true

/-- Every result gets the specs that the primary index has for its path. -/
theorem annotateSpecs_eq (l : List (Found R)) :
    annotateSpecs primary (l.map Found.toResult) = l.map fun f =>
      { f.toResult with governingSpecs := primary.specsOf f.hit.row.path } := by
  rw [annotateSpecs]
  by_cases h : specsForFiles primary.specLinks
      ((l.map Found.toResult).map fun r => r.hit.row.path) = []
  · rw [if_neg (not_not.2 h)]
    refine List.map_congr_left fun f hf => ?_
    have hpath : f.hit.row.path ∈ (l.map Found.toResult).map fun r => r.hit.row.path :=
      List.mem_map.2 ⟨f.toResult, List.mem_map.2 ⟨f, hf, rfl⟩, rfl⟩
    rw [ProjectIndex.specsOf, specsForFiles_of_mem hpath h]
    rfl
  · rw [if_pos h, List.map_map]
    rfl

/-! ### Neighbours -/

/-- A chunk is a neighbour of one of these names. -/
def ProjectIndex.next (index : ProjectIndex R) (names : List String) (c : ChunkRow R) : Bool :=
  c.name.any (· ∈ index.db.neighborNames names)

/-- The names of results. -/
def namesOf (l : List (Found R)) : List String := l.filterMap fun f => f.hit.row.name

def idsOf (l : List (Found R)) : List ℕ := l.map fun f => f.hit.row.id

/-- The results of the primary project. -/
def ofPrimary (l : List (Found R)) : List (Found R) := l.filter fun f => f.number = 0

/-- The results of the linked projects. -/
def ofLinked (l : List (Found R)) : List (Found R) := l.filter fun f => f.number ≠ 0

theorem neighborIds_eq (index : ProjectIndex R) (names : List String) (ids : List ℕ) :
    (index.db.neighborIds names).filter (· ∉ ids) =
      (index.db.chunks.filter fun c => index.next names c && decide (c.id ∉ ids)).map
        ChunkRow.id := by
  have hnodup : ((index.db.chunks.filter (index.next names)).map ChunkRow.id).Nodup :=
    index.nodup_ids.sublist (List.filter_sublist.map _)
  have hids : index.db.neighborIds names =
      (index.db.chunks.filter (index.next names)).map ChunkRow.id := hnodup.dedup
  rw [hids, List.filter_map, List.filter_filter]
  refine congrArg _ (List.filter_congr fun c _ => ?_)
  exact Bool.and_comm _ _

/-- The query for neighbours is one statement. -/
theorem graphNeighborChunks_eq (index : ProjectIndex R) {names : List String}
    (h : names.length ≤ sqliteMaxBind / 2) :
    (Bound.graphNeighborChunks index.db names).answer = index.db.neighborIds names := by
  by_cases hnil : names = []
  · subst hnil
    have hnone : index.db.neighborIds [] = [] := by
      rw [List.eq_nil_iff_forall_not_mem]
      intro id hid
      obtain ⟨c, -, -, name, -, hname⟩ := (mem_neighborIds _).1 hid
      obtain ⟨n, hn, -⟩ := (mem_neighborNames _).1 hname
      exact List.not_mem_nil hn
    rw [hnone, Bound.graphNeighborChunks, Lib.slices_nil]
    rfl
  · rw [Bound.graphNeighborChunks, Lib.slices_of_length_le hnil h]
    exact Lib.addNew_nil (List.nodup_dedup _)

/-- The query for chunks gives each of them once. -/
theorem map_id_chunksByIds_perm (index : ProjectIndex R) {ids : List ℕ} (hnodup : ids.Nodup)
    (hids : ∀ id ∈ ids, id ∈ index.db.chunks.map ChunkRow.id) :
    ((Bound.chunksByIds index.db (ids.map Int.ofNat)).answer.map ChunkRow.id).Perm ids := by
  have hcast : Function.Injective Int.ofNat := fun _ _ => Int.ofNat.inj
  have hanswer : (Bound.chunksByIds index.db (ids.map Int.ofNat)).answer.Perm
      (index.db.rowsByIds (ids.map Int.ofNat)) :=
    (Lib.flatMap_selectIn_perm_iff _ _ (by decide) _).2 fun _ _ =>
      Lib.not_inTwoSlices_of_nodup (by decide) (hnodup.map hcast) _
  have hfiled : index.db.filedChunks = index.db.chunks :=
    List.filter_eq_self.2 fun c hc => decide_eq_true (index.filed c hc)
  refine (hanswer.map _).trans ((List.perm_ext_iff_of_nodup ?_ hnodup).2 fun id => ?_)
  · rw [CodeDb.rowsByIds, Lib.selectIn, hfiled]
    exact index.nodup_ids.sublist (List.filter_sublist.map _)
  · rw [CodeDb.rowsByIds, Lib.selectIn, hfiled, List.mem_map]
    constructor
    · rintro ⟨c, hc, rfl⟩
      obtain ⟨d, hd, heq⟩ := List.mem_map.1 (of_decide_eq_true (List.mem_filter.1 hc).2)
      exact Int.ofNat.inj heq ▸ hd
    · intro hid
      obtain ⟨c, hc, rfl⟩ := List.mem_map.1 (hids id hid)
      exact ⟨c, List.mem_filter.2 ⟨hc, decide_eq_true (List.mem_map.2 ⟨c.id, hid, rfl⟩)⟩, rfl⟩

/-- A neighbour of the name of a linked result only. -/
def Stray (primary : ProjectIndex R) (l : List (Found R)) (c : ChunkRow R) : Prop :=
  primary.next (namesOf (ofLinked l)) c = true ∧ primary.next (namesOf (ofPrimary l)) c = false ∧
    c.id ∉ idsOf l

/-- A neighbour that is not listed, but has the id of a linked result. -/
def Shadowed (primary : ProjectIndex R) (l : List (Found R)) (c : ChunkRow R) : Prop :=
  primary.next (namesOf (ofPrimary l)) c = true ∧ c.id ∉ idsOf (ofPrimary l) ∧
    c.id ∈ idsOf (ofLinked l)

theorem mem_ofPrimary_or_ofLinked {l : List (Found R)} {f : Found R} :
    f ∈ l ↔ f ∈ ofPrimary l ∨ f ∈ ofLinked l := by
  unfold ofPrimary ofLinked
  simp only [List.mem_filter, decide_eq_true_eq]
  tauto

theorem mem_idsOf {l : List (Found R)} {id : ℕ} :
    id ∈ idsOf l ↔ id ∈ idsOf (ofPrimary l) ∨ id ∈ idsOf (ofLinked l) := by
  unfold idsOf
  simp only [List.mem_map, ← exists_or, ← or_and_right, ← mem_ofPrimary_or_ofLinked]

theorem next_namesOf {l : List (Found R)} {c : ChunkRow R} :
    primary.next (namesOf l) c = true ↔ primary.next (namesOf (ofPrimary l)) c = true ∨
      primary.next (namesOf (ofLinked l)) c = true := by
  have hnames : ∀ n, n ∈ namesOf l ↔ n ∈ namesOf (ofPrimary l) ∨ n ∈ namesOf (ofLinked l) := by
    intro n
    unfold namesOf
    simp only [List.mem_filterMap, ← exists_or, ← or_and_right, ← mem_ofPrimary_or_ofLinked]
  unfold ProjectIndex.next
  simp only [Option.any_eq_true, decide_eq_true_eq, mem_neighborNames, hnames, ← exists_or,
    ← and_or_left, ← or_and_right]

/-- The chunks for which the names and ids of the linked results make a difference. -/
theorem differs_iff {l : List (Found R)} {c : ChunkRow R} :
    (primary.next (namesOf l) c && decide (c.id ∉ idsOf l)) ≠
        (primary.next (namesOf (ofPrimary l)) c && decide (c.id ∉ idsOf (ofPrimary l))) ↔
      Stray primary l c ∨ Shadowed primary l c := by
  unfold Stray Shadowed
  rw [← Bool.not_eq_true, Ne, Bool.eq_iff_iff]
  simp only [Bool.and_eq_true, decide_eq_true_eq]
  rw [next_namesOf, mem_idsOf]
  tauto

variable (primary) in
/-- The neighbours that are added, by their ids. -/
theorem graphExtra_perm {l : List (Found R)} (h : l.length ≤ sqliteMaxBind / 2) (graphLimit : ℕ)
    (specs : Found R → List String) :
    ((graphExtra primary graphLimit (l.map fun f =>
        { f.toResult with governingSpecs := specs f })).map fun r => r.hit.row.id).Perm
      (((primary.db.chunks.filter fun c =>
        primary.next (namesOf l) c && decide (c.id ∉ idsOf l)).take graphLimit).map
          ChunkRow.id) := by
  have hnames : (l.map fun f => { f.toResult with governingSpecs := specs f }).filterMap
      (fun r => r.hit.row.name) = namesOf l := List.filterMap_map
  have hids : (l.map fun f => { f.toResult with governingSpecs := specs f }).map
      (fun r => r.hit.row.id) = idsOf l := List.map_map
  have hlength : (namesOf l).length ≤ sqliteMaxBind / 2 := (List.length_filterMap_le _ _).trans h
  unfold graphExtra
  rw [hnames, hids]
  dsimp only
  rw [graphNeighborChunks_eq primary hlength, neighborIds_eq, ← List.map_take, List.map_map]
  have hsub := (List.take_sublist graphLimit _).trans (List.filter_sublist
    (p := fun c => primary.next (namesOf l) c && decide (c.id ∉ idsOf l)) (l := primary.db.chunks))
  exact map_id_chunksByIds_perm primary (primary.nodup_ids.sublist (hsub.map _))
    fun id hid => (hsub.map _).subset hid

theorem map_id_perm_iff {index : ProjectIndex R} {l l' : List (ChunkRow R)}
    (hl : l.Sublist index.db.chunks) (hl' : l'.Sublist index.db.chunks) :
    (l.map ChunkRow.id).Perm (l'.map ChunkRow.id) ↔ l.Perm l' := by
  refine ⟨fun h => ?_, fun h => h.map _⟩
  have hnodup := index.nodup_ids.of_map
  have hsubset : ∀ {l l' : List (ChunkRow R)}, l.Sublist index.db.chunks →
      l'.Sublist index.db.chunks → (l.map ChunkRow.id).Perm (l'.map ChunkRow.id) →
      ∀ c ∈ l, c ∈ l' := by
    intro l l' hl hl' h c hc
    obtain ⟨d, hd, hid⟩ := List.mem_map.1 (h.subset (List.mem_map.2 ⟨c, hc, rfl⟩))
    exact List.inj_on_of_nodup_map index.nodup_ids (hl'.subset hd) (hl.subset hc) hid ▸ hd
  exact (List.perm_ext_iff_of_nodup (hnodup.sublist hl) (hnodup.sublist hl')).2 fun c =>
    ⟨hsubset hl hl' h c, hsubset hl' hl h.symm c⟩

/-! ### The law -/

variable (primary deps limit) in
/-- What is demanded of a search: the nearest so many, each with the label of its project and only
    with specs that govern it there, and the first neighbours of the primary ones. -/
structure Apart (graphLimit : ℕ) (all : List (SearchResult R)) : Prop where
  results : List.Forall₂ (fun f r => { r with governingSpecs := [] } = f.toResult ∧
    ∀ s ∈ r.governingSpecs, s ∈ (f.index primary).specsOf f.hit.row.path)
      (nearest primary deps limit) all
  neighbours : ((graphExtra primary graphLimit all).map fun r => r.hit.row.id).Perm
    (((primary.db.neighborIds (namesOf (ofPrimary (nearest primary deps limit)))).filter
      (· ∉ idsOf (ofPrimary (nearest primary deps limit)))).take graphLimit)
  labels : ∀ r ∈ graphExtra primary graphLimit all,
    r.projectName = none ∧ r.projectPath = none ∧ r.governingSpecs = []

theorem fetchLimit_le (args : SearchArgs) : args.fetchLimit ≤ 100 := by
  unfold SearchArgs.fetchLimit
  split <;> omega

theorem mem_foundAll_of_mem_nearest {f : Found R} (h : f ∈ nearest primary deps limit) :
    f ∈ foundAll primary deps limit :=
  mem_sortedFound.1 ((Lib.keepFirst_sublist _ _).subset (List.mem_of_mem_take h))

/-- The specs of all results are right exactly where those of the linked ones are. -/
theorem specs_iff : (∀ f ∈ nearest primary deps limit,
      ∀ s ∈ primary.specsOf f.hit.row.path, s ∈ (f.index primary).specsOf f.hit.row.path) ↔
    ∀ f ∈ ofLinked (nearest primary deps limit),
      ∀ s ∈ primary.specsOf f.hit.row.path, s ∈ (f.index primary).specsOf f.hit.row.path := by
  refine ⟨fun h f hf => h f (List.mem_of_mem_filter hf), fun h f hf => ?_⟩
  rcases (exists_of_mem_foundAll (mem_foundAll_of_mem_nearest hf)).2 with ⟨-, hnone⟩ | hdep
  · rw [Found.index, hnone]
    exact fun s hs => hs
  · obtain ⟨dep, -, hnumber, -⟩ := hdep
    exact h f (List.mem_filter.2 ⟨hf, decide_eq_true hnumber⟩)

/-- The search keeps the projects apart exactly where: no two of the nearest are in one place; the
    specs that the primary index has for the path of a linked one govern it there too; and every
    chunk for which the names or ids of the linked ones make a difference comes after as many
    neighbours as are added. -/
theorem searchProjectsLaw (primary : ProjectIndex R) (linked : List (LinkedProject R))
    (args : SearchArgs) :
    let deps := args.deps linked
    let chosen := nearest primary deps args.fetchLimit
    (primary.opens = false ∧ searchAllDbsLinearrag primary deps args.fetchLimit = none) ∨
      ∃ all, searchAllDbsLinearrag primary deps args.fetchLimit = some all ∧
        (Apart primary deps args.fetchLimit args.graphLimit all ↔
          (chosen.map fun f => f.toResult.place).Nodup ∧
          (∀ f ∈ ofLinked chosen, ∀ s ∈ primary.specsOf f.hit.row.path,
            s ∈ (f.index primary).specsOf f.hit.row.path) ∧
          ∀ before c after, primary.db.chunks = before ++ c :: after →
            Stray primary chosen c ∨ Shadowed primary chosen c →
            args.graphLimit ≤ (before.filter fun c => primary.next (namesOf (ofPrimary chosen)) c &&
              decide (c.id ∉ idsOf (ofPrimary chosen))).length) := by
  intro deps chosen
  by_cases hopens : primary.opens = true
  swap
  · refine .inl ⟨Bool.eq_false_iff.2 hopens, ?_⟩
    rw [searchAllDbsLinearrag, if_neg hopens]
  refine .inr ⟨_, searchAllDbs_eq hopens, ?_⟩
  have hcoarser : ∀ f ∈ sortedFound primary deps args.fetchLimit,
      ∀ g ∈ sortedFound primary deps args.fetchLimit, f.ident = g.ident →
      f.toResult.place = g.toResult.place :=
    fun f hf g hg => place_of_ident (mem_sortedFound.1 hf) (mem_sortedFound.1 hg)
  have hsame := Lib.take_keepFirst_eq_iff (n := args.fetchLimit) hcoarser
  rw [annotateSpecs_eq]
  generalize hraw : (Lib.keepFirst (fun f => f.toResult.place) []
    (sortedFound primary deps args.fetchLimit)).take args.fetchLimit = raw at hsame ⊢
  by_cases heq : raw = chosen
  swap
  · refine iff_of_false (fun h => ?_) fun h => heq (hsame.2 h.1)
    -- The results have different places, and so would the nearest.
    have hmap : chosen.map Found.toResult = raw.map Found.toResult := by
      rw [← List.forall₂_eq_eq_eq, List.forall₂_map_left_iff, List.forall₂_map_right_iff]
      exact ((List.forall₂_map_right_iff).1 h.results).imp fun _ _ h => h.1.symm
    have hplaces := congrArg (List.map SearchResult.place) hmap
    rw [List.map_map, List.map_map] at hplaces
    refine heq (hsame.2 ?_)
    show (chosen.map (SearchResult.place ∘ Found.toResult)).Nodup
    rw [hplaces, ← hraw]
    exact (Lib.nodup_keepFirst [] _).sublist ((List.take_sublist _ _).map _)
  have hplaces : (chosen.map fun f => f.toResult.place).Nodup := hsame.1 heq
  rw [heq, and_iff_right hplaces, ← specs_iff]
  have hlength : chosen.length ≤ sqliteMaxBind / 2 :=
    (List.length_take_le _ _).trans ((fetchLimit_le args).trans (by decide))
  have hresults : List.Forall₂ (fun f r => { r with governingSpecs := [] } = f.toResult ∧
      ∀ s ∈ r.governingSpecs, s ∈ (f.index primary).specsOf f.hit.row.path) chosen
      (chosen.map fun f => { f.toResult with
        governingSpecs := primary.specsOf f.hit.row.path }) ↔
      ∀ f ∈ chosen, ∀ s ∈ primary.specsOf f.hit.row.path,
        s ∈ (f.index primary).specsOf f.hit.row.path := by
    rw [List.forall₂_map_right_iff, List.forall₂_same]
    exact forall₂_congr fun f _ => and_iff_right rfl
  have hneighbours : ((graphExtra primary args.graphLimit (chosen.map fun f =>
      { f.toResult with governingSpecs := primary.specsOf f.hit.row.path })).map
        fun r => r.hit.row.id).Perm
      (((primary.db.neighborIds (namesOf (ofPrimary chosen))).filter
        (· ∉ idsOf (ofPrimary chosen))).take args.graphLimit) ↔
      ∀ before c after, primary.db.chunks = before ++ c :: after →
        Stray primary chosen c ∨ Shadowed primary chosen c →
        args.graphLimit ≤ (before.filter fun c => primary.next (namesOf (ofPrimary chosen)) c &&
          decide (c.id ∉ idsOf (ofPrimary chosen))).length := by
    rw [neighborIds_eq, ← List.map_take]
    have hsub : ∀ p : ChunkRow R → Bool,
        ((primary.db.chunks.filter p).take args.graphLimit).Sublist primary.db.chunks :=
      fun p => (List.take_sublist _ _).trans List.filter_sublist
    have hperm := graphExtra_perm primary hlength args.graphLimit
      fun f => primary.specsOf f.hit.row.path
    refine Iff.trans ⟨hperm.symm.trans, hperm.trans⟩ ?_
    rw [map_id_perm_iff (hsub _) (hsub _), Lib.take_filter_perm_iff primary.nodup_ids.of_map]
    simp only [differs_iff]
  constructor
  · exact fun h => ⟨hresults.1 h.results, hneighbours.1 h.neighbours⟩
  · rintro ⟨hspecs, hnext⟩
    refine ⟨hresults.2 hspecs, hneighbours.2 hnext, fun r hr => ?_⟩
    obtain ⟨row, -, rfl⟩ := List.mem_map.1 hr
    exact ⟨rfl, rfl, rfl⟩

end Search

/-- A function on the first lines of a file. -/
def firstLines (id : ℕ) (path name : String) : ChunkRow Unit where
  id := id
  path := path
  nodeType := "function_item"
  name := some name
  startLine := 1
  endLine := 5
  content := ""
  docstring := none
  parentScope := none
  tokenCount := 10
  graphRank := ()

/-- A project in which one function calls another. -/
def callerIndex : ProjectIndex Unit where
  db := {
    files := [⟨"a.rs", "rust", "h", 1⟩, ⟨"b.rs", "rust", "h", 1⟩]
    chunks := [firstLines 1 "a.rs" "alpha", firstLines 2 "b.rs" "beta"]
    embeddings := [1, 2]
    edges := [⟨"a.rs", some "alpha", "beta", "calls", 3⟩]
    nextChunk := 3 }
  specLinks := [⟨"docs/c.md", "C", "c.rs"⟩]
  opens := true
  linearrag _ := some [⟨firstLines 1 "a.rs" "alpha", 0⟩]
  nodup_ids := by decide
  filed := by decide
  found := by
    rintro n hits ⟨⟩ hit hhit
    rw [List.mem_singleton.1 hhit]
    exact List.mem_cons_self

/-- A project with a function in one file. -/
def besideIndex (path : String) : LinkedProject Unit where
  displayName := "beside"
  rootPath := "/beside"
  index := {
    db := ⟨[⟨path, "rust", "h", 1⟩], [firstLines 2 path "gamma"], [2], [], 3⟩
    specLinks := []
    opens := true
    linearrag := fun _ => some [⟨firstLines 2 path "gamma", 1⟩]
    nodup_ids := List.nodup_singleton _
    filed := by
      intro c hc
      rw [List.mem_singleton.1 hc]
      exact List.mem_cons_self
    found := by
      rintro n hits ⟨⟩ hit hhit
      rw [List.mem_singleton.1 hhit]
      exact List.mem_cons_self }

/-- What the two find. -/
def foundBeside (path : String) : List (Found Unit) :=
  [⟨0, none, ⟨firstLines 1 "a.rs" "alpha", 0⟩⟩,
    ⟨1, some (besideIndex path), ⟨firstLines 2 path "gamma", 1⟩⟩]

theorem sortedFound_beside (path : String) :
    sortedFound callerIndex [besideIndex path] 10 = foundBeside path := by
  refine List.mergeSort_of_pairwise (List.pairwise_pair.2 (decide_eq_true ?_))
  exact zero_le_one

theorem searchAllDbs_beside (path : String) (l : List (Found Unit))
    (h : (Lib.keepFirst (fun f => f.toResult.place) [] (foundBeside path)).take 10 = l) :
    searchAllDbsLinearrag callerIndex [besideIndex path] 10 = some (l.map fun f =>
      { f.toResult with governingSpecs := callerIndex.specsOf f.hit.row.path }) := by
  rw [searchAllDbs_eq rfl, sortedFound_beside, h, annotateSpecs_eq]

/-- The result of a linked project is dropped that has the path and the lines of another; one gets a
    spec of the primary project for its path; and by its id it hides a neighbour. -/
theorem projects_mixed :
    ((searchAllDbsLinearrag callerIndex [besideIndex "a.rs"] 10).map fun all =>
        all.map SearchResult.projectName) = some [none] ∧
      (nearest callerIndex [besideIndex "a.rs"] 10).length = 2 ∧
    ((searchAllDbsLinearrag callerIndex [besideIndex "c.rs"] 10).map fun all =>
        all.map fun r => (r.projectName, r.governingSpecs)) =
      some [(none, []), (some "beside", ["docs/c.md"])] ∧
      (besideIndex "c.rs").index.specsOf "c.rs" = [] ∧
    (∀ all, searchAllDbsLinearrag callerIndex [besideIndex "c.rs"] 10 = some all →
        graphExtra callerIndex 10 all = []) ∧
      callerIndex.db.neighborIds ["alpha"] = [2] := by
  have hsame := searchAllDbs_beside "a.rs" [⟨0, none, ⟨firstLines 1 "a.rs" "alpha", 0⟩⟩] rfl
  have hother := searchAllDbs_beside "c.rs" (foundBeside "c.rs") rfl
  refine ⟨?_, ?_, ?_, ?_, ?_, ?_⟩
  · rw [hsame]
    rfl
  · rw [nearest, sortedFound_beside]
    rfl
  · rw [hother]
    rfl
  · rfl
  · intro all hall
    rw [hother] at hall
    obtain rfl := Option.some.inj hall
    have hnone : (callerIndex.db.chunks.filter fun c =>
        callerIndex.next (namesOf (foundBeside "c.rs")) c &&
          decide (c.id ∉ idsOf (foundBeside "c.rs"))) = [] := by decide
    have hlength : (foundBeside "c.rs").length ≤ sqliteMaxBind / 2 := by decide
    refine List.map_eq_nil_iff.1 ((graphExtra_perm _ hlength 10 _).trans ?_).eq_nil
    rw [hnone]
    exact List.Perm.refl _
  · decide

end Spelunk
