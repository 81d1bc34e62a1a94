import Spelunk.Core.ContextPack
import Spelunk.Lib.Matching

/-!
# What an Agent Starts With

The sections of the context, kind by kind, and what the packing makes of them. Every section
is within its limit, has active notes of its kind and the local ones first, and what a budget
keeps fills it as far as it goes. The linked notes come after the path was looked at, so they
are on it only if they are; and the same store under two names has its notes twice.

## Main definitions

* `localNotes`, `linkedNotes`: The notes for a section.
* `reached`, `LinkedFit`: The linked notes that a section has room for, and that they fit.
* `Partly`: What the packing has done with the sections of some kinds.

## Theorems

* `assembleSections_eq`: The sections before the packing.
* `applyBudget_spec`: What the packing leaves.
* `contextLaw`: What the context honours.
* `linked_off_path`: A linked note that is not on the path.
-/

namespace Spelunk

/-! ### The listings -/

/-- What a listing of a kind returns. -/
theorem listFiltered_kind (order : ScanOrder) (db : MemoryDb) (kind : String) (limit : ℕ) :
    ∃ rows, listFiltered order db (some kind) none limit false none = some rows ∧
      rows.length ≤ limit ∧ (∀ r ∈ rows, r.kind = kind ∧ r.status = "active") ∧
      (db.ids.Nodup → (rows.map NoteRow.id).Nodup) := by
  refine ⟨_, by simp only [listFiltered, Option.any_none, Bool.false_and]; rfl, ?_, ?_, ?_⟩
  · exact (List.length_take_le _ _).trans (Nat.min_le_left _ _)
  · intro r hr
    have hmem := (order.perm _).mem_iff.1 (List.mem_mergeSort.1 (List.mem_of_mem_take hr))
    have hgate := List.of_mem_filter (List.mem_of_mem_filter hmem)
    simpa [statusGate, and_comm] using hgate
  · intro hids
    refine ((List.take_sublist _ _).map _).nodup ?_
    refine (((List.mergeSort_perm _ _).trans (order.perm _)).map NoteRow.id).nodup_iff.2 ?_
    exact ((List.filter_sublist.trans List.filter_sublist).map NoteRow.id).nodup hids

section Sections

variable (order : ScanOrder) (s : MemoryFile) (deps : List LinkedStore) (args : ContextArgs)

/-- The local notes for a section. -/
def localNotes (kind : String) : List ContextNote :=
  ((((listFiltered order s.db (some kind) none (sectionLimit kind args.limit) false none).getD
    []).filter fun r => args.path.all fun p => onPath p r).map fun r => ⟨r, s.path, none⟩)

/-- What was seen when the linked notes are collected. -/
def seenLocal : List (String × ℕ) :=
  (sectionKinds args).flatMap fun kind => (localNotes order s args kind).map fun n => ("", n.row.id)

/-- The linked notes for a section. -/
def linkedNotes (kind : String) : List ContextNote :=
  if args.localOnly then []
  else (collectDepCrossCutting order deps (seenLocal order s args)).filter fun n =>
    decide (n.row.kind = kind ∧ kind ∈ depPassKinds)

/-- The linked notes that a section has room for. -/
def reached (kind : String) : List ContextNote :=
  (linkedNotes order s deps args kind).take
    (sectionLimit kind args.limit - (localNotes order s args kind).length)

/-- By what a note is told from all others: the file it is in, and its id there. -/
def fileKey (n : ContextNote) : String × ℕ := (n.store, n.row.id)

variable {order s deps args}

theorem length_localNotes_le (kind : String) :
    (localNotes order s args kind).length ≤ sectionLimit kind args.limit := by
  obtain ⟨rows, hrows, hlength, -, -⟩ :=
    listFiltered_kind order s.db kind (sectionLimit kind args.limit)
  rw [localNotes, hrows, List.length_map]
  exact (List.length_filter_le _ _).trans hlength

theorem mem_localNotes {kind : String} {n : ContextNote} (h : n ∈ localNotes order s args kind) :
    n.row.kind = kind ∧ n.row.status = "active" ∧ n.sourceProjectPath = none ∧
      ∀ p ∈ args.path, onPath p n.row = true := by
  obtain ⟨rows, hrows, -, hgate, -⟩ :=
    listFiltered_kind order s.db kind (sectionLimit kind args.limit)
  rw [localNotes, hrows] at h
  obtain ⟨r, hr, rfl⟩ := List.mem_map.1 h
  obtain ⟨hr, hpath⟩ := List.mem_filter.1 hr
  refine ⟨(hgate r hr).1, (hgate r hr).2, rfl, fun p hp => ?_⟩
  rw [Option.mem_def.1 hp] at hpath
  exact hpath

theorem nodup_localNotes (kind : String) : ((localNotes order s args kind).map fileKey).Nodup := by
  obtain ⟨rows, hrows, -, -, hnodup⟩ :=
    listFiltered_kind order s.db kind (sectionLimit kind args.limit)
  rw [localNotes, hrows, List.map_map]
  have hids := ((List.filter_sublist (p := fun r => args.path.all fun p => onPath p r)
    (l := rows)).map NoteRow.id).nodup (hnodup s.nodup_ids)
  have hpairs := hids.map (f := fun id => (s.path, id)) fun a b hab => (Prod.mk.inj hab).2
  rwa [List.map_map] at hpairs

theorem mem_linkedNotes {kind : String} {n : ContextNote}
    (h : n ∈ linkedNotes order s deps args kind) :
    n.row.kind = kind ∧ n.row.status = "active" ∧ n.sourceProjectPath ≠ none ∧
      kind ∈ depPassKinds ∧ isCrossCutting n.row = true := by
  rw [linkedNotes] at h
  by_cases hlocal : args.localOnly = true
  · rw [if_pos hlocal] at h
    exact absurd h List.not_mem_nil
  · rw [if_neg hlocal] at h
    obtain ⟨hmem, hkind⟩ := List.mem_filter.1 h
    obtain ⟨hkind, hpass⟩ := of_decide_eq_true hkind
    obtain ⟨dep, -, hdep⟩ := List.mem_flatMap.1 ((Lib.keepFirst_sublist _ _).subset hmem)
    rw [queryDepCrossCutting] at hdep
    cases hdb : dep.db with
    | none =>
      rw [hdb] at hdep
      exact absurd hdep List.not_mem_nil
    | some db =>
      rw [hdb] at hdep
      obtain ⟨kind', -, hlist⟩ := List.mem_flatMap.1 hdep
      split at hlist
      · obtain ⟨rows, hrows, -, hgate, -⟩ := listFiltered_kind order db kind' 500
        rw [hrows] at hlist
        obtain ⟨r, hr, rfl⟩ := List.mem_map.1 hlist
        obtain ⟨hr, hcross⟩ := List.mem_filter.1 hr
        exact ⟨hkind, (hgate r hr).2, Option.some_ne_none _, hpass, hcross⟩
      · exact absurd hlist List.not_mem_nil

theorem nodup_sectionKinds (args : ContextArgs) : (sectionKinds args).Nodup := by
  unfold sectionKinds
  cases args.kind with
  | none => decide
  | some kind => exact List.nodup_singleton kind

theorem kind_of_mem_sectionKinds {kind : String} (h : kind ∈ sectionKinds args) :
    ∀ filter ∈ args.kind, kind = filter := by
  intro filter hfilter
  rw [sectionKinds, Option.mem_def.1 hfilter] at h
  exact List.mem_singleton.1 h

theorem collectSections_eq : collectSections order s args =
    some ((sectionKinds args).map fun kind => (kind, localNotes order s args kind)) := by
  have hsection : ∀ kind, (listFiltered order s.db (some kind) none (sectionLimit kind args.limit)
      false none).map (fun rows => (kind, (rows.filter fun r =>
        args.path.all fun p => onPath p r).map fun r => (⟨r, s.path, none⟩ : ContextNote))) =
      some (kind, localNotes order s args kind) := by
    intro kind
    obtain ⟨rows, hrows, -⟩ := listFiltered_kind order s.db kind (sectionLimit kind args.limit)
    rw [localNotes, hrows]
    rfl
  rw [collectSections, funext hsection]
  exact List.mapM_pure

/-! ### The linked notes in their sections -/

theorem pushNote_eq {n : ContextNote} {sections : List Section}
    (h : (sections.map Prod.fst).Nodup) : pushNote n sections =
      sections.map fun t => if t.1 = n.row.kind then (t.1, t.2 ++ [n]) else t := by
  induction sections with
  | nil => rfl
  | cons t rest ih =>
    obtain ⟨hnot, hrest⟩ := List.nodup_cons.1 h
    rw [pushNote, List.map_cons]
    by_cases hkind : t.1 = n.row.kind
    · rw [if_pos hkind, if_pos hkind]
      refine congrArg _ ?_
      conv_lhs => rw [← List.map_id rest]
      refine List.map_congr_left fun u hu => ?_
      have hne : u.1 ≠ n.row.kind := fun heq =>
        hnot (hkind ▸ heq ▸ List.mem_map_of_mem hu)
      rw [if_neg hne]
      rfl
    · rw [if_neg hkind, if_neg hkind, ih hrest]

/-- Every section gets the linked notes of its kind. -/
theorem foldl_mergeNote (notes : List ContextNote) {sections : List Section}
    (hkinds : ∀ t ∈ sections, ∀ filter ∈ args.kind, t.1 = filter)
    (hnodup : (sections.map Prod.fst).Nodup) :
    notes.foldl (mergeNote args) sections = sections.map fun t =>
      (t.1, t.2 ++ notes.filter fun n => decide (n.row.kind = t.1 ∧ t.1 ∈ depPassKinds)) := by
  induction notes generalizing sections with
  | nil => simp
  | cons n notes ih =>
    have hstep : mergeNote args sections n = sections.map fun t =>
        (t.1, t.2 ++ [n].filter fun n => decide (n.row.kind = t.1 ∧ t.1 ∈ depPassKinds)) := by
      rw [mergeNote]
      split
      · rename_i hmerge
        rw [pushNote_eq hnodup]
        refine List.map_congr_left fun t _ => ?_
        by_cases hkind : t.1 = n.row.kind
        · rw [if_pos hkind, List.filter_cons_of_pos, List.filter_nil]
          exact decide_eq_true ⟨hkind.symm, hkind ▸ hmerge.1⟩
        · rw [if_neg hkind, List.filter_cons_of_neg, List.filter_nil, List.append_nil]
          exact fun hd => hkind (of_decide_eq_true hd).1.symm
      · rename_i hmerge
        conv_lhs => rw [← List.map_id sections]
        refine List.map_congr_left fun t ht => ?_
        rw [List.filter_cons_of_neg, List.filter_nil, List.append_nil, id]
        intro hd
        obtain ⟨hkind, hpass⟩ := of_decide_eq_true hd
        exact hmerge ⟨hkind ▸ hpass, fun filter hf => hkind.trans (hkinds t ht filter hf)⟩
    have hfst : (mergeNote args sections n).map Prod.fst = sections.map Prod.fst := by
      rw [hstep, List.map_map]
      rfl
    rw [List.foldl_cons, ih ?_ (hfst ▸ hnodup), hstep, List.map_map]
    · refine List.map_congr_left fun t _ => ?_
      simp only [Function.comp_apply, List.append_assoc, ← List.filter_append, List.singleton_append]
    · intro t ht
      rw [hstep] at ht
      obtain ⟨u, hu, rfl⟩ := List.mem_map.1 ht
      exact hkinds u hu

/-- The sections before the packing. -/
theorem assembleSections_eq : assembleSections order deps args
      ((sectionKinds args).map fun kind => (kind, localNotes order s args kind)) =
    (sectionKinds args).map fun kind =>
      (kind, localNotes order s args kind ++ reached order s deps args kind) := by
  have hcap : ∀ kind, ((localNotes order s args kind ++ linkedNotes order s deps args kind).take
      (sectionLimit kind args.limit)) =
      localNotes order s args kind ++ reached order s deps args kind := by
    intro kind
    rw [List.take_append, List.take_of_length_le (length_localNotes_le kind)]
    rfl
  rw [assembleSections, capSections]
  by_cases hlocal : args.localOnly = true
  · rw [if_pos hlocal, List.map_map]
    refine List.map_congr_left fun kind _ => ?_
    have hnone : linkedNotes order s deps args kind = [] := if_pos hlocal
    rw [← hcap kind, hnone, List.append_nil]
    rfl
  · rw [if_neg hlocal, foldl_mergeNote, List.map_map, List.map_map]
    · refine List.map_congr_left fun kind _ => ?_
      have hlinked : linkedNotes order s deps args kind = _ := if_neg hlocal
      rw [← hcap kind, hlinked]
      simp only [Function.comp_apply, seenLocal, List.flatMap_map]
    · intro t ht
      obtain ⟨kind, hkind, rfl⟩ := List.mem_map.1 ht
      exact kind_of_mem_sectionKinds hkind
    · rw [List.map_map]
      have hfst : ((sectionKinds args).map (Prod.fst ∘ fun kind =>
          (kind, localNotes order s args kind))) = sectionKinds args := List.map_id _
      rw [hfst]
      exact nodup_sectionKinds args

end Sections

/-! ### The packing -/

/-- What the packing has done with a section: those of some kinds are packed. -/
def Partly (done : String → Bool) (left : ℕ) (t u : Section) : Prop :=
  u.1 = t.1 ∧ if done t.1 then Lib.Packs noteTokens left t.2 u.2 else u.2 = t.2

/-- The tokens of sections. -/
def sectionTokens (sections : List Section) : ℕ :=
  (sections.map fun t => (t.2.map noteTokens).sum).sum

theorem sectionTokens_cons (t : Section) (sections : List Section) :
    sectionTokens (t :: sections) = (t.2.map noteTokens).sum + sectionTokens sections := rfl

/-- The sections of some kinds are packed. -/
def packWhere (p : String → Bool) : List Section → ℕ → List Section × ℕ
  | [], left => ([], left)
  | t :: rest, left =>
    if p t.1 then
      let packed := Lib.pack noteTokens left t.2
      ((t.1, packed.1) :: (packWhere p rest packed.2).1, (packWhere p rest packed.2).2)
    else (t :: (packWhere p rest left).1, (packWhere p rest left).2)

theorem packWhere_of_none {p : String → Bool} {sections : List Section}
    (h : ∀ t ∈ sections, p t.1 = false) (left : ℕ) : packWhere p sections left = (sections, left) := by
  induction sections with
  | nil => rfl
  | cons t rest ih =>
    rw [packWhere, if_neg (by rw [h t List.mem_cons_self]; decide),
      ih fun u hu => h u (List.mem_cons_of_mem t hu)]

theorem packKind_eq (kind : String) (left : ℕ) {sections : List Section}
    (h : (sections.map Prod.fst).Nodup) :
    packKind kind left sections = packWhere (fun k => decide (k = kind)) sections left := by
  induction sections with
  | nil => rfl
  | cons t rest ih =>
    obtain ⟨hnot, hrest⟩ := List.nodup_cons.1 h
    rw [packKind, packWhere]
    by_cases hkind : t.1 = kind
    · have hnone : ∀ u ∈ rest, decide (u.1 = kind) = false := fun u hu =>
        decide_eq_false fun heq => hnot (hkind ▸ heq ▸ List.mem_map_of_mem hu)
      rw [if_pos hkind, if_pos (decide_eq_true hkind)]
      dsimp only
      rw [packWhere_of_none (p := fun k => decide (k = kind)) hnone]
    · rw [if_neg hkind, if_neg (by simpa using hkind), ih hrest]

theorem packOthers_eq (sections : List Section) (left : ℕ) :
    packOthers sections left = packWhere (fun k => decide (k ∉ packPriority)) sections left := by
  induction sections generalizing left with
  | nil => rfl
  | cons t rest ih =>
    rw [packOthers, packWhere]
    by_cases hkind : t.1 ∈ packPriority
    · rw [if_pos hkind, if_neg (by simpa using hkind), ih]
    · rw [if_neg hkind, if_pos (decide_eq_true hkind)]
      simp only [ih]

theorem Partly.mono {done : String → Bool} {left left' : ℕ} {t u : Section}
    (h : Partly done left t u) (hle : left' ≤ left) : Partly done left' t u := by
  refine ⟨h.1, ?_⟩
  have hsection := h.2
  split at hsection
  · rename_i hdone
    rw [if_pos hdone]
    exact hsection.mono hle
  · rename_i hdone
    rw [if_neg hdone]
    exact hsection

theorem map_fst_of_partly {done : String → Bool} {left : ℕ} {before after : List Section}
    (h : List.Forall₂ (Partly done left) before after) :
    after.map Prod.fst = before.map Prod.fst := by
  induction h with
  | nil => rfl
  | cons hhead _ ih => rw [List.map_cons, List.map_cons, hhead.1, ih]

/-- The tokens of the packed sections. -/
def spent (done : String → Bool) (sections : List Section) : ℕ :=
  sectionTokens (sections.filter fun t => done t.1)

/-- Packing the sections of further kinds. -/
theorem partly_packWhere {done p : String → Bool} (hnew : ∀ k, p k = true → done k = false)
    {before after : List Section} {left : ℕ} (h : List.Forall₂ (Partly done left) before after) :
    (packWhere p after left).2 ≤ left ∧
      List.Forall₂ (Partly (fun k => done k || p k) (packWhere p after left).2) before
        (packWhere p after left).1 ∧
      spent (fun k => done k || p k) (packWhere p after left).1 + (packWhere p after left).2 =
        spent done after + left := by
  induction after generalizing before left with
  | nil =>
    cases h
    exact ⟨le_refl _, .nil, rfl⟩
  | cons u after ih =>
    cases h with
    | @cons t _ before _ hhead htail =>
      obtain ⟨hkind, hsection⟩ := hhead
      rw [packWhere]
      by_cases hp : p u.1 = true
      · have hdone : done u.1 = false := hnew _ hp
        rw [if_pos hp]
        dsimp only
        rw [if_neg (by rw [← hkind, hdone]; decide)] at hsection
        have hle := Lib.pack_left_le noteTokens left u.2
        have hsum := Lib.pack_sum noteTokens left u.2
        obtain ⟨hrest, heach, htotal⟩ := ih (htail.imp fun _ _ hx => hx.mono hle)
        refine ⟨hrest.trans hle, .cons ⟨hkind, ?_⟩ heach, ?_⟩
        · have hnow : (done t.1 || p t.1) = true := by rw [← hkind, hp, Bool.or_true]
          rw [if_pos hnow, ← hsection]
          exact (Lib.packs_pack left u.2).mono hrest
        · simp only [spent, List.filter_cons, hp, hdone, Bool.or_true, if_true, Bool.false_eq_true,
            if_false, sectionTokens_cons] at htotal ⊢
          omega
      · have hp' : p u.1 = false := by simpa using hp
        rw [if_neg hp]
        obtain ⟨hrest, heach, htotal⟩ := ih htail
        refine ⟨hrest, .cons ?_ heach, ?_⟩
        · have hhead : Partly done (packWhere p after left).2 t u :=
            Partly.mono ⟨hkind, hsection⟩ hrest
          have hnow : (done t.1 || p t.1) = done t.1 := by rw [← hkind, hp', Bool.or_false]
          refine ⟨hkind, ?_⟩
          simp only [hnow]
          exact hhead.2
        · simp only [spent, List.filter_cons, hp', Bool.or_false] at htotal ⊢
          cases hdone : done u.1 with
          | false => simpa [hdone] using htotal
          | true =>
            simp only [if_true, sectionTokens_cons]
            omega

/-- Packing the sections of some kinds one after another. -/
theorem partly_foldl {done : String → Bool} {kinds : List String} (hkinds : kinds.Nodup)
    (hnew : ∀ k ∈ kinds, done k = false) {before after : List Section}
    (hbefore : (before.map Prod.fst).Nodup) {left : ℕ}
    (h : List.Forall₂ (Partly done left) before after) :
    List.Forall₂ (Partly (fun k => done k || decide (k ∈ kinds))
        (kinds.foldl (fun state kind => packKind kind state.2 state.1) (after, left)).2) before
        (kinds.foldl (fun state kind => packKind kind state.2 state.1) (after, left)).1 ∧
      spent (fun k => done k || decide (k ∈ kinds))
          (kinds.foldl (fun state kind => packKind kind state.2 state.1) (after, left)).1 +
        (kinds.foldl (fun state kind => packKind kind state.2 state.1) (after, left)).2 =
        spent done after + left := by
  induction kinds generalizing done after left with
  | nil =>
    have hsame : (fun k => done k || decide (k ∈ ([] : List String))) = done := by
      funext k
      simp
    rw [hsame]
    exact ⟨h, rfl⟩
  | cons kind kinds ih =>
    obtain ⟨hnot, hrest⟩ := List.nodup_cons.1 hkinds
    have hnodup : (after.map Prod.fst).Nodup := map_fst_of_partly h ▸ hbefore
    have hfirst : ∀ k, decide (k = kind) = true → done k = false := fun k hk =>
      of_decide_eq_true hk ▸ hnew kind List.mem_cons_self
    obtain ⟨-, heach, hsum⟩ := partly_packWhere hfirst h
    have hlater : ∀ k ∈ kinds, (done k || decide (k = kind)) = false := by
      intro k hk
      rw [hnew k (List.mem_cons_of_mem kind hk), Bool.false_or]
      exact decide_eq_false fun heq => hnot (heq ▸ hk)
    have hsame : (fun k => done k || decide (k ∈ kind :: kinds)) =
        fun k => (done k || decide (k = kind)) || decide (k ∈ kinds) := by
      funext k
      simp [List.mem_cons, Bool.or_assoc]
    have hstep := ih hrest hlater heach
    rw [List.foldl_cons, packKind_eq kind left hnodup, hsame]
    exact ⟨hstep.1, hstep.2.trans hsum⟩

/-- What the packing leaves. -/
theorem applyBudget_spec {sections : List Section} (h : (sections.map Prod.fst).Nodup)
    (conventions : List ConventionRecord) (budget : ℕ) : ∃ used,
      (applyBudget sections conventions budget).tokensUsed = some used ∧ used ≤ budget ∧
      used = sectionTokens (applyBudget sections conventions budget).sections +
        ((applyBudget sections conventions budget).conventions.map conventionTokens).sum ∧
      List.Forall₂ (fun t u => u.1 = t.1 ∧ Lib.Packs noteTokens (budget - used) t.2 u.2) sections
        (applyBudget sections conventions budget).sections ∧
      Lib.Packs conventionTokens (budget - used) conventions
        (applyBudget sections conventions budget).conventions := by
  have hstart : List.Forall₂ (Partly (fun _ => false) budget) sections sections :=
    List.forall₂_same.2 fun t _ => ⟨rfl, rfl⟩
  have hpriority : packPriority.Nodup := by decide
  obtain ⟨hfirst, hfirstSum⟩ := partly_foldl hpriority (fun _ _ => rfl) h hstart
  have hnone : spent (fun _ => false) sections = 0 := by
    simp [spent, sectionTokens]
  unfold applyBudget
  dsimp only
  generalize packPriority.foldl (fun state kind => packKind kind state.2 state.1)
    (sections, budget) = first at hfirst hfirstSum ⊢
  obtain ⟨hle, hall, hsum⟩ := partly_packWhere (p := fun k => decide (k ∉ packPriority))
    (fun k hk => by simpa using hk) hfirst
  rw [packOthers_eq]
  generalize packWhere (fun k => decide (k ∉ packPriority)) first.1 first.2 = packed
    at hle hall hsum ⊢
  have hrules := Lib.pack_sum conventionTokens packed.2 conventions
  have hrulesLe := Lib.pack_left_le conventionTokens packed.2 conventions
  have hdone : (fun k => (false || decide (k ∈ packPriority)) || decide (k ∉ packPriority)) =
      fun _ => true := by
    funext k
    by_cases hk : k ∈ packPriority <;> simp [hk]
  rw [hdone] at hall hsum
  have htotal : spent (fun _ => true) packed.1 = sectionTokens packed.1 := by
    rw [spent, List.filter_true]
  rw [htotal, hfirstSum, hnone] at hsum
  have hleft : budget - (budget - (Lib.pack conventionTokens packed.2 conventions).2) =
      (Lib.pack conventionTokens packed.2 conventions).2 := by omega
  refine ⟨_, rfl, Nat.sub_le _ _, by omega, ?_, ?_⟩
  · rw [hleft]
    refine hall.imp fun t u htu => ⟨htu.1, ?_⟩
    exact (htu.2 : Lib.Packs noteTokens packed.2 t.2 u.2).mono hrulesLe
  · rw [hleft]
    exact Lib.packs_pack packed.2 conventions

/-! ### The law -/

/-- A section as it may be emitted, whatever the stores hold. -/
structure Proper (limitOverride : Option ℕ) (t : Section) : Prop where
  length_le : t.2.length ≤ sectionLimit t.1 limitOverride
  active : ∀ n ∈ t.2, n.row.kind = t.1 ∧ n.row.status = "active"
  local_first : t.2.Pairwise fun a b => b.sourceProjectPath = none → a.sourceProjectPath = none
  linked : ∀ n ∈ t.2, n.sourceProjectPath ≠ none →
    n.row.kind ∈ crossCuttingKinds ∧ ∃ tag ∈ splitCsv n.row.tags, tag ∈ crossProjectTags

/-- No note is in a section twice, and every note is on the path that was given. -/
structure Fitting (args : ContextArgs) (t : Section) : Prop where
  nodup : (t.2.map fileKey).Nodup
  on_path : ∀ p ∈ args.path, ∀ n ∈ t.2, onPath p n.row = true

theorem Proper.sublist {limitOverride : Option ℕ} {t u : Section} (h : Proper limitOverride t)
    (hkind : u.1 = t.1) (hsub : u.2.Sublist t.2) : Proper limitOverride u where
  length_le := hkind ▸ hsub.length_le.trans h.length_le
  active n hn := hkind ▸ h.active n (hsub.subset hn)
  local_first := h.local_first.sublist hsub
  linked n hn := h.linked n (hsub.subset hn)

theorem Fitting.sublist {args : ContextArgs} {t u : Section} (h : Fitting args t)
    (hsub : u.2.Sublist t.2) : Fitting args u where
  nodup := (hsub.map fileKey).nodup h.nodup
  on_path p hp n hn := h.on_path p hp n (hsub.subset hn)

section Law

variable (order : ScanOrder) (s : MemoryFile) (deps : List LinkedStore) (args : ContextArgs)

/-- The sections that the limits leave. -/
def cappedSections : List Section :=
  (sectionKinds args).map fun kind =>
    (kind, localNotes order s args kind ++ reached order s deps args kind)

variable {order s deps args}

theorem context_eq (index : List ConventionRecord) : context order s deps index args =
    some (match args.budget with
      | none => ⟨cappedSections order s deps args, loadConventions index args, none⟩
      | some budget =>
        applyBudget (cappedSections order s deps args) (loadConventions index args) budget) := by
  rw [context, collectSections_eq]
  simp only [Option.map_some, assembleSections_eq]
  rfl

theorem nodup_cappedSections : ((cappedSections order s deps args).map Prod.fst).Nodup := by
  have hfst : (cappedSections order s deps args).map Prod.fst = sectionKinds args := by
    rw [cappedSections, List.map_map]
    exact List.map_id _
  rw [hfst]
  exact nodup_sectionKinds args

theorem proper_cappedSections : ∀ t ∈ cappedSections order s deps args, Proper args.limit t := by
  intro t ht
  obtain ⟨kind, -, rfl⟩ := List.mem_map.1 ht
  have hreached : ∀ n ∈ reached order s deps args kind, n ∈ linkedNotes order s deps args kind :=
    fun n hn => List.mem_of_mem_take hn
  refine ⟨?_, fun n hn => ?_, ?_, fun n hn hsource => ?_⟩
  · have hlocal : (localNotes order s args kind).length ≤ sectionLimit kind args.limit :=
      length_localNotes_le kind
    have htake := List.length_take_le
      (sectionLimit kind args.limit - (localNotes order s args kind).length)
      (linkedNotes order s deps args kind)
    show (localNotes order s args kind ++ _).length ≤ sectionLimit kind args.limit
    rw [List.length_append, reached]
    omega
  · rcases List.mem_append.1 hn with hn | hn
    · exact ⟨(mem_localNotes hn).1, (mem_localNotes hn).2.1⟩
    · exact ⟨(mem_linkedNotes (hreached n hn)).1, (mem_linkedNotes (hreached n hn)).2.1⟩
  · refine List.pairwise_append.2 ⟨?_, ?_, fun a ha _ _ _ => (mem_localNotes ha).2.2.1⟩
    · exact List.pairwise_of_forall_mem_list fun a ha _ _ _ => (mem_localNotes ha).2.2.1
    · exact List.pairwise_of_forall_mem_list fun _ _ b hb hnone =>
        absurd hnone (mem_linkedNotes (hreached b hb)).2.2.1
  · rcases List.mem_append.1 hn with hn | hn
    · exact absurd (mem_localNotes hn).2.2.1 hsource
    · obtain ⟨hkind, -, -, hpass, hcross⟩ := mem_linkedNotes (hreached n hn)
      obtain ⟨tag, htag, hmem⟩ := List.any_eq_true.1 hcross
      exact ⟨hkind ▸ hpass, tag, htag, of_decide_eq_true hmem⟩

variable (order s deps args) in
/-- The linked notes that a section has room for are on the path, and are neither local notes under
    another name nor the same notes again. -/
structure LinkedFit (kind : String) : Prop where
  on_path : ∀ p ∈ args.path, ∀ n ∈ reached order s deps args kind, onPath p n.row = true
  nodup : ((reached order s deps args kind).map fileKey).Nodup
  apart : ∀ n ∈ reached order s deps args kind,
    fileKey n ∉ (localNotes order s args kind).map fileKey

theorem fitting_cappedSections_iff : (∀ t ∈ cappedSections order s deps args, Fitting args t) ↔
    ∀ kind ∈ sectionKinds args, LinkedFit order s deps args kind := by
  rw [cappedSections, List.forall_mem_map]
  refine forall₂_congr fun kind _ => ⟨fun h => ⟨fun p hp n hn => ?_, ?_, fun n hn hmem => ?_⟩, ?_⟩
  · exact h.on_path p hp n (List.mem_append_right _ hn)
  · have hnodup := h.nodup
    rw [List.map_append] at hnodup
    exact (List.nodup_append.1 hnodup).2.1
  · have hnodup := h.nodup
    rw [List.map_append] at hnodup
    exact (List.nodup_append.1 hnodup).2.2 _ hmem _ (List.mem_map_of_mem hn) rfl
  · rintro ⟨hpath, hnodup, hapart⟩
    refine ⟨?_, fun p hp n hn => ?_⟩
    · rw [List.map_append]
      refine List.nodup_append.2 ⟨nodup_localNotes kind, hnodup, fun a ha b hb hab => ?_⟩
      obtain ⟨n, hn, rfl⟩ := List.mem_map.1 hb
      exact hapart n hn (hab ▸ ha)
    · rcases List.mem_append.1 hn with hn | hn
      · exact (mem_localNotes hn).2.2.2 p hp
      · exact hpath p hp n hn

end Law

/-- Without a budget the sections fit exactly if the linked notes that they have room for do; then
    they fit with every budget. In any case they are proper, and what is packed is within the budget
    and leaves no room for anything that was dropped. -/
theorem contextLaw (order : ScanOrder) (s : MemoryFile) (deps : List LinkedStore)
    (index : List ConventionRecord) (args : ContextArgs) :
    (∃ out, context order s deps index args = some out ∧
      (∀ t ∈ out.sections, Proper args.limit t) ∧
      (args.budget = none → out.sections = cappedSections order s deps args ∧
        out.conventions = loadConventions index args ∧ out.tokensUsed = none) ∧
      ∀ budget ∈ args.budget, ∃ used, out.tokensUsed = some used ∧ used ≤ budget ∧
        used = sectionTokens out.sections + (out.conventions.map conventionTokens).sum ∧
        List.Forall₂ (fun t u => u.1 = t.1 ∧ Lib.Packs noteTokens (budget - used) t.2 u.2)
          (cappedSections order s deps args) out.sections ∧
        Lib.Packs conventionTokens (budget - used) (loadConventions index args)
          out.conventions) ∧
    ((∀ out, context order s deps index { args with budget := none } = some out →
        ∀ t ∈ out.sections, Fitting args t) ↔
      ∀ kind ∈ sectionKinds args, LinkedFit order s deps args kind) ∧
    ((∀ kind ∈ sectionKinds args, LinkedFit order s deps args kind) →
      ∀ out, context order s deps index args = some out → ∀ t ∈ out.sections, Fitting args t) := by
  have hproper : ∀ t ∈ cappedSections order s deps args, Proper args.limit t :=
    proper_cappedSections
  have hnodup : ((cappedSections order s deps args).map Prod.fst).Nodup := nodup_cappedSections
  refine ⟨⟨_, context_eq index, ?_⟩, ?_, fun hlinked out hout u hu => ?_⟩
  · cases hbudget : args.budget with
    | none => exact ⟨hproper, fun _ => ⟨rfl, rfl, rfl⟩, fun b hb => nomatch hb⟩
    | some budget =>
      obtain ⟨used, hused, hle, hsum, heach, hrules⟩ :=
        applyBudget_spec hnodup (loadConventions index args) budget
      refine ⟨fun u hu => ?_, nofun, fun b hb => ?_⟩
      · obtain ⟨t, ht, hkind, hpacks⟩ := Lib.exists_left_of_forall₂ heach hu
        exact (hproper t ht).sublist hkind hpacks.sublist
      · obtain rfl := Option.some.inj hb
        exact ⟨used, hused, hle, hsum, heach, hrules⟩
  · rw [← fitting_cappedSections_iff, context_eq]
    exact ⟨fun h => h _ rfl, fun h out hout => Option.some.inj hout ▸ h⟩
  · rw [context_eq] at hout
    obtain rfl := Option.some.inj hout
    have hfits := fitting_cappedSections_iff.2 hlinked
    cases hbudget : args.budget with
    | none =>
      rw [hbudget] at hu
      exact hfits u hu
    | some budget =>
      rw [hbudget] at hu
      obtain ⟨used, -, -, -, heach, -⟩ :=
        applyBudget_spec hnodup (loadConventions index args) budget
      obtain ⟨t, ht, -, hpacks⟩ := Lib.exists_left_of_forall₂ heach hu
      exact (hfits t ht).sublist hpacks.sublist

/-- The order of the table. -/
def tableOrder : ScanOrder := ⟨id, List.Perm.refl⟩

@[simp] theorem tableOrder_scan (rows : List NoteRow) : tableOrder.scan rows = rows := rfl

/-- A decision for all projects, of no file. -/
def lockedRow : NoteRow :=
  ⟨1, "decision", "t", "b", some "locked", none, 0, "active", none, none, none, none, none, none, none⟩

/-- The store of a linked project with that decision. -/
def lockedStore : LinkedStore :=
  ⟨"/dep", "/dep/memory.db", some ⟨[lockedRow], [], [], 2, true⟩, fun _ => true⟩

/-- A linked note is shown whatever path is asked for. -/
theorem linked_off_path :
    (context tableOrder ⟨"memory.db", ⟨[], [], [], 1, true⟩, List.nodup_nil⟩ [lockedStore] []
      ⟨some "decision", none, none, some "src/", false, false⟩).map (fun out => out.sections) =
      some [("decision", [⟨lockedRow, "/dep/memory.db", some "/dep"⟩])] ∧
    onPath "src/" lockedRow = false := by
  refine ⟨?_, by decide⟩
  have hdep : queryDepCrossCutting tableOrder lockedStore =
      [⟨lockedRow, "/dep/memory.db", some "/dep"⟩] := by
    have hcross : isCrossCutting lockedRow = true := by decide
    have hkinds : (lockedRow.kind = "decision" ∧ lockedRow.kind ≠ "requirement") ∧
        lockedRow.status = "active" := by decide
    simp [queryDepCrossCutting, lockedStore, crossCuttingKinds, listFiltered, newestFirst,
      statusGate, timeGate, hkinds, hcross]
  have hkind : lockedRow.kind = "decision" := rfl
  rw [context_eq]
  simp [cappedSections, sectionKinds, reached, linkedNotes, localNotes, collectDepCrossCutting,
    hdep, listFiltered, seenLocal, newestFirst, sectionLimit, depPassKinds, Lib.keepFirst,
    sectionDefaults, hkind]

end Spelunk
