import Spelunk.Theory.SupersedingAdd
import Spelunk.Theory.SyncRuns

/-!
# Lists in Comma-Separated Columns

A list of tags or files is one text, joined by commas when it is written and split again
by every reader. A union reads the members, adds the trimmed values that are new and
joins them again, so a value with a comma in it is not among the members of the result
and is added anew each time; a list that is written as it is loses the white space
around its members and the empty ones. Otherwise lists survive: they are read back, and
found after any later unions, on whatever path they came into the store.

## Main definitions

* `ListWriter`: The writers that put lists into a row.
* `UnionStep`: A later union.
* `HasLists`: Some row of a content has these members.
* `ListsSurvive`: What the columns promise.
* `Storable`: When they keep that promise.

## Theorems

* `exists_added`: What a union adds.
* `mem_splitCsv_unionCsv_iff`: What is read from a union.
* `HasLists.stays`: No later union takes a member away.
* `post_listWriter`: What a writer stores is found.
* `listLaw`: Lists survive exactly when they can be stored.
-/

namespace Spelunk

open Lib (Sql SqlError)

open MemoryDb

/-! ### Members -/

/-- A value as a union takes it. -/
def trimmed (v : String) : String := String.ofList (trim v.toList)

theorem trimmed_of_cleanMember {t : String} (h : CleanMember t) : trimmed t = t := by
  rw [trimmed, h.trimmed, String.ofList_toList]

theorem mem_dropWhile {α : Type*} {p : α → Bool} {l : List α} {c : α} (h : c ∈ l)
    (hc : p c = false) : c ∈ l.dropWhile p := by
  rw [← List.takeWhile_append_dropWhile (p := p) (l := l), List.mem_append] at h
  refine h.resolve_left fun htake => ?_
  rw [List.mem_takeWhile_imp htake] at hc
  cases hc

/-- Trimming takes no comma away. -/
theorem comma_mem_trim_iff {s : List Char} : ',' ∈ trim s ↔ ',' ∈ s := by
  refine ⟨mem_of_mem_trim, fun h => ?_⟩
  have hcomma : isWhiteSpace ',' = false := by decide
  rw [trim, List.rdropWhile, List.mem_reverse]
  exact mem_dropWhile (List.mem_reverse.2 (mem_dropWhile h hcomma)) hcomma

theorem cleanMember_trimmed {v : String} (hne : trimmed v ≠ "") (hcomma : ',' ∉ v.toList) :
    CleanMember (trimmed v) := by
  refine ⟨?_, ?_, ?_⟩
  · rwa [Ne, ← String.toList_empty, String.toList_inj]
  · rw [trimmed, String.toList_ofList, comma_mem_trim_iff]
    exact hcomma
  · rw [trimmed, String.toList_ofList, trim_trim]

/-- The members a union adds: each trimmed value that is not empty and not there, once. -/
theorem exists_added (incoming : List String) (present : List String) :
    ∃ added, incoming.foldl addMember present = present ++ added ∧ added.Nodup ∧
      ∀ t, t ∈ added ↔ t ∉ present ∧ t ≠ "" ∧ ∃ v ∈ incoming, t = trimmed v := by
  induction incoming generalizing present with
  | nil => exact ⟨[], by simp, List.nodup_nil, by simp⟩
  | cons v incoming ih =>
    have hstep : addMember present v =
        if trimmed v ≠ "" ∧ trimmed v ∉ present then present ++ [trimmed v] else present := rfl
    obtain ⟨added, hfold, hnodup, hmem⟩ := ih (addMember present v)
    rw [List.foldl_cons, hfold, hstep]
    rw [hstep] at hmem
    by_cases hv : trimmed v ≠ "" ∧ trimmed v ∉ present
    · rw [if_pos hv] at hmem ⊢
      refine ⟨trimmed v :: added, by simp, List.nodup_cons.2 ⟨fun h => ?_, hnodup⟩, fun t => ?_⟩
      · exact ((hmem _).1 h).1 (by simp)
      · rw [List.mem_cons, hmem]
        simp only [List.mem_append, List.mem_cons, List.not_mem_nil, or_false, not_or]
        constructor
        · rintro (rfl | ⟨⟨hp, -⟩, hne, w, hw, rfl⟩)
          · exact ⟨hv.2, hv.1, v, Or.inl rfl, rfl⟩
          · exact ⟨hp, hne, w, Or.inr hw, rfl⟩
        · rintro ⟨hp, hne, w, rfl | hw, rfl⟩
          · exact Or.inl rfl
          · by_cases hsame : trimmed w = trimmed v
            · exact Or.inl hsame
            · exact Or.inr ⟨⟨hp, hsame⟩, hne, w, hw, rfl⟩
    · rw [if_neg hv] at hmem ⊢
      refine ⟨added, rfl, hnodup, fun t => ?_⟩
      rw [hmem]
      constructor
      · rintro ⟨hp, hne, w, hw, rfl⟩
        exact ⟨hp, hne, w, List.mem_cons_of_mem _ hw, rfl⟩
      · rintro ⟨hp, hne, w, hw, rfl⟩
        rcases List.mem_cons.1 hw with rfl | hw
        · exact absurd ⟨hne, hp⟩ hv
        · exact ⟨hp, hne, w, hw, rfl⟩

/-- What is read from a union, commas in the incoming values or not. -/
theorem splitCsv_unionCsv_eq (current : Option String) {incoming added : List String}
    (h : incoming.foldl addMember (splitCsv current) = splitCsv current ++ added) :
    splitCsv (unionCsv current incoming) =
      splitCsv current ++ added.flatMap fun t => csvMembers t.toList := by
  have hclean : (splitCsv current).flatMap (fun t => csvMembers t.toList) = splitCsv current := by
    rw [List.flatMap_congr (fun t ht => csvMembers_of_cleanMember (cleanMember_of_mem_splitCsv ht)),
      List.flatMap_singleton']
  rw [unionCsv_eq, h]
  by_cases hnil : splitCsv current ++ added = [] ∧ current = none
  · rw [if_pos hnil]
    obtain ⟨rfl, rfl⟩ := (List.append_eq_nil_iff.1 hnil.1).2, hnil.2
    rfl
  · rw [if_neg hnil, splitCsv_joinCsv_eq_flatMap, List.flatMap_append, hclean]

/-- No union takes a member away. -/
theorem subset_splitCsv_unionCsv (current : Option String) (incoming : List String) :
    splitCsv current ⊆ splitCsv (unionCsv current incoming) := by
  obtain ⟨added, hfold, -⟩ := exists_added incoming (splitCsv current)
  rw [splitCsv_unionCsv_eq current hfold]
  exact List.subset_append_left _ _

theorem csvMembers_nil : csvMembers [] = [] := rfl

/-- What is read from a union: a value with commas comes apart. -/
theorem mem_splitCsv_unionCsv_iff (current : Option String) (incoming : List String) (t : String) :
    t ∈ splitCsv (unionCsv current incoming) ↔
      t ∈ splitCsv current ∨ ∃ v ∈ incoming, t ∈ csvMembers (trimmed v).toList := by
  obtain ⟨added, hfold, -, hmem⟩ := exists_added incoming (splitCsv current)
  rw [splitCsv_unionCsv_eq current hfold, List.mem_append, List.mem_flatMap]
  refine or_congr_right' fun hnot => ⟨?_, ?_⟩
  · rintro ⟨u, hu, ht⟩
    obtain ⟨-, -, v, hv, rfl⟩ := (hmem u).1 hu
    exact ⟨v, hv, ht⟩
  · rintro ⟨v, hv, ht⟩
    refine ⟨trimmed v, (hmem _).2 ⟨fun hpresent => hnot ?_, fun hempty => ?_, v, hv, rfl⟩, ht⟩
    · rw [csvMembers_of_cleanMember (cleanMember_of_mem_splitCsv hpresent)] at ht
      rwa [List.mem_singleton.1 ht]
    · rw [hempty, String.toList_empty, csvMembers_nil] at ht
      cases ht

theorem csvMembers_trimmed_of_mem {col : Option String} {u : String} (h : u ∈ splitCsv col) :
    csvMembers (trimmed u).toList = [u] := by
  have hclean := cleanMember_of_mem_splitCsv h
  rw [trimmed_of_cleanMember hclean, csvMembers_of_cleanMember hclean]

/-! ### The lists of a row -/

/-- The writers that put a list of tags and one of linked files into a row, freshly or by a
    collision. -/
inductive ListWriter where
  | add (now : Int) (kind title body : String) (sourceRef : Option String) (validAt : Option Int)
  | addWithCreatedAt (kind title body : String) (sourceRef : Option String) (archived : Bool)
      (createdAt : Int)
  | addSuperseding (now : Int) (kind title body : String) (validAt : Option Int)
      (supersedesId : ℕ)

variable [Sha256]

/-- The program of a writer. -/
def ListWriter.run (tags linkedFiles : List String) : ListWriter → Sql MemoryDb (ℕ × Bool)
  | .add now kind title body sourceRef validAt =>
      addNote now kind title body tags linkedFiles sourceRef validAt
  | .addWithCreatedAt kind title body sourceRef archived createdAt =>
      addNoteWithCreatedAt kind title body tags linkedFiles sourceRef
        (if archived then "archived" else "active") createdAt
  | .addSuperseding now kind title body validAt supersedesId =>
      addNoteSuperseding now kind title body tags linkedFiles validAt supersedesId

/-- A later union: members of any kind added to any row, or the rows of every content merged into
    one. Either may be stopped by a fault. -/
inductive UnionStep (s : MemoryDb) : MemoryDb → Prop where
  | union (id : ℕ) (tags linkedFiles : List String) (fault : Option ℕ) :
      UnionStep s (unionTagsAndFiles id tags linkedFiles ⟨s, fault⟩).2.db
  | dedupe (fault : Option ℕ) : UnionStep s (dedupeEntityIds false ⟨s, fault⟩).2.db

/-- Some row of a content has these tags and files. -/
def HasLists (s : MemoryDb) (e : String) (tags linkedFiles : List String) : Prop :=
  ∃ r ∈ s.notes, r.contentId = e ∧ tags ⊆ splitCsv r.tags ∧ linkedFiles ⊆ splitCsv r.linkedFiles

variable {s s' : MemoryDb} {e : String} {tags linkedFiles : List String}

theorem HasLists.union (hu : s.UniqueOk) (h : HasLists s e tags linkedFiles) (id : ℕ)
    (tags' linkedFiles' : List String) (fault : Option ℕ) :
    HasLists (unionTagsAndFiles id tags' linkedFiles' ⟨s, fault⟩).2.db e tags linkedFiles := by
  obtain ⟨r, hr, hcontent, htags, hfiles⟩ := h
  have hpost := post_unionTagsAndFiles hu id tags' linkedFiles' ⟨s, fault⟩ rfl
  rcases hrun : unionTagsAndFiles id tags' linkedFiles' ⟨s, fault⟩ with ⟨err | changed, c⟩
  · rw [hrun] at hpost
    rw [hpost.2 err rfl]
    exact ⟨r, hr, hcontent, htags, hfiles⟩
  · rw [hrun] at hpost
    rw [(hpost.1 changed rfl).2]
    refine ⟨_, List.mem_map_of_mem hr, ?_⟩
    by_cases hown : r.id = id
    · rw [if_pos (decide_eq_true hown)]
      exact ⟨hcontent, List.Subset.trans htags (subset_splitCsv_unionCsv _ _),
        List.Subset.trans hfiles (subset_splitCsv_unionCsv _ _)⟩
    · rw [if_neg (by simpa using hown)]
      exact ⟨hcontent, htags, hfiles⟩

theorem HasLists.deduped (hv : s.Valid) (h : HasLists s e tags linkedFiles) :
    HasLists s.deduped e tags linkedFiles := by
  obtain ⟨r, hr, hcontent, htags, hfiles⟩ := h
  have hspec := deduped_spec hv.toSchemaOk hv.status
  obtain ⟨r', hr', he⟩ := (hspec.same_entities e).2 ⟨r, hr, hcontent⟩
  refine ⟨r', hr', he, fun t ht => ?_, fun t ht => ?_⟩
  · exact (hspec.tags r' hr' t).2 ⟨r, hr, hcontent.trans he.symm, htags ht⟩
  · exact (hspec.linkedFiles r' hr' t).2 ⟨r, hr, hcontent.trans he.symm, hfiles ht⟩

theorem HasLists.step (hv : s.Valid) (h : HasLists s e tags linkedFiles) (hstep : UnionStep s s') :
    s'.Valid ∧ HasLists s' e tags linkedFiles := by
  cases hstep with
  | union id tags' linkedFiles' fault =>
    exact ⟨linkClosed_valid.keeps_unionTagsAndFiles id tags' linkedFiles' ⟨s, fault⟩ hv,
      h.union hv.unique id tags' linkedFiles' fault⟩
  | dedupe fault =>
    refine ⟨keeps_dedupeEntityIds_valid ⟨s, fault⟩ hv, ?_⟩
    have hpost := post_dedupeEntityIds hv.unique hv.foreignKeys false ⟨s, fault⟩ rfl
    cases hrun : (dedupeEntityIds false ⟨s, fault⟩).1 with
    | error err => rwa [hpost.2 err hrun]
    | ok summary =>
      rw [(hpost.1 summary hrun)]
      exact h.deduped hv

/-- What a store has it has after any later unions. -/
theorem HasLists.stays (hv : s.Valid) (h : HasLists s e tags linkedFiles)
    (hrun : Relation.ReflTransGen UnionStep s s') : HasLists s' e tags linkedFiles := by
  suffices hboth : s'.Valid ∧ HasLists s' e tags linkedFiles from hboth.2
  induction hrun with
  | refl => exact ⟨hv, h⟩
  | tail _ hstep ih => exact ih.2.step ih.1 hstep

theorem HasLists.updateNotes {p : NoteRow → Bool} {f : NoteRow → NoteRow}
    (hcontent : ∀ r, (f r).contentId = r.contentId) (htags : ∀ r, (f r).tags = r.tags)
    (hfiles : ∀ r, (f r).linkedFiles = r.linkedFiles) (h : HasLists s e tags linkedFiles) :
    HasLists (s.updateRows p f) e tags linkedFiles := by
  obtain ⟨r, hr, hre, ht, hf⟩ := h
  refine ⟨_, List.mem_map_of_mem hr, ?_⟩
  by_cases hp : p r = true
  · rw [if_pos hp, hcontent, htags, hfiles]
    exact ⟨hre, ht, hf⟩
  · rw [if_neg hp]
    exact ⟨hre, ht, hf⟩

/-- The row of the content has the members, whether it was inserted or found. -/
theorem hasLists_of_insertOutcome {db : MemoryDb} (hv : db.Valid) {r : NoteRow}
    (hr : r.contentId = e) (htags : r.tags = some (joinCsv tags))
    (hfiles : r.linkedFiles = some (joinCsv linkedFiles)) (hct : ∀ t ∈ tags, CleanMember t)
    (hcf : ∀ t ∈ linkedFiles, CleanMember t) {p : ℕ × Bool}
    (h : InsertOutcome db r e tags linkedFiles p s) : HasLists s e tags linkedFiles := by
  cases h with
  | created =>
    refine ⟨{ r with id := db.nextId }, by simp [insertRow], hr, ?_, ?_⟩
    · show tags ⊆ splitCsv r.tags
      rw [htags, splitCsv_joinCsv hct]
      exact List.Subset.refl _
    · show linkedFiles ⊆ splitCsv r.linkedFiles
      rw [hfiles, splitCsv_joinCsv hcf]
      exact List.Subset.refl _
  | collided x hx he =>
    refine ⟨unionRow tags linkedFiles x, ?_, (hv.entity x hx e he).symm, fun t ht => ?_,
      fun t ht => ?_⟩
    · exact List.mem_map.2 ⟨x, hx, if_pos (decide_eq_true rfl)⟩
    · exact (mem_splitCsv_unionCsv _ hct t).2 (Or.inr ht)
    · exact (mem_splitCsv_unionCsv _ hcf t).2 (Or.inr ht)

/-- The content a writer writes. -/
def ListWriter.content : ListWriter → String
  | .add _ kind title body _ _ => entityId kind title body
  | .addWithCreatedAt kind title body _ _ _ => entityId kind title body
  | .addSuperseding _ kind title body _ _ => entityId kind title body

/-- Whoever writes clean members, they are found. -/
theorem post_listWriter {db : MemoryDb} (hv : db.Valid) (hct : ∀ t ∈ tags, CleanMember t)
    (hcf : ∀ t ∈ linkedFiles, CleanMember t) (w : ListWriter) :
    Sql.Post (fun s => s = db) (w.run tags linkedFiles)
      (fun _ s => HasLists s w.content tags linkedFiles) (fun _ => True) := by
  have hinsert : ∀ r : NoteRow, r.contentId = w.content → r.tags = some (joinCsv tags) →
      r.linkedFiles = some (joinCsv linkedFiles) →
      Sql.Post (fun s => s = db) ((Sql.attempt (insertNote r)).andThen
        (fun result => recoverFromEntityIdCollision result w.content tags linkedFiles))
        (fun _ s => HasLists s w.content tags linkedFiles) (fun _ => True) :=
    fun r hr htags hfiles => Sql.Post.mono (post_insertOutcome hv.unique r w.content tags linkedFiles)
      (fun _ hs => hs) (fun p s hs => hasLists_of_insertOutcome hv hr htags hfiles hct hcf hs)
      (fun _ _ => trivial)
  cases w with
  | add => exact hinsert _ rfl rfl rfl
  | addWithCreatedAt => exact hinsert _ rfl rfl rfl
  | addSuperseding now kind title body validAt supersedesId =>
    refine Sql.Post.transaction (F := fun _ => True) ?_ (fun _ _ => trivial)
    simp only [Sql.bind_eq, Sql.pure_eq]
    rw [← Sql.andThen_assoc]
    refine Sql.Post.bind (hinsert _ rfl rfl rfl) (fun p => ?_)
    split
    · exact Sql.Post.ok _ fun _ hs => hs
    refine Sql.Post.bind (Q := fun _ s => HasLists s (entityId kind title body) tags linkedFiles)
      (Sql.Post.of_each fun s hs => Sql.Post.mono (post_updateNotes _ _) (fun _ ht => ht)
        (fun _ t ht => ht.2 ▸ hs.updateNotes (fun _ => rfl) (fun _ => rfl) (fun _ => rfl))
        (fun _ _ => trivial)) (fun changed => ?_)
    split
    · exact Sql.Post.fail _ fun _ _ => trivial
    refine Sql.Post.bind (Q := fun _ s => HasLists s (entityId kind title body) tags linkedFiles)
      ?_ (fun _ => Sql.Post.ok _ fun _ hs => hs)
    refine Sql.Post.statement (fun s _ s' hs hrun => ?_) (fun _ _ => trivial)
    split at hrun
    · rw [Except.ok.injEq, Prod.mk.injEq] at hrun
      exact hrun.2 ▸ hs
    · rw [(of_checked_eq_ok hrun).2.1]
      exact hs

/-! ### The law -/

/-- What the comma-separated columns promise, of a column, values to be added to it, and lists to be
    written. -/
structure ListsSurvive (current : Option String) (incoming tags linkedFiles : List String) :
    Prop where
  /-- The members stay in their order, and every trimmed value that is new is added once. -/
  added : ∃ added, splitCsv (unionCsv current incoming) = splitCsv current ++ added ∧
    added.Nodup ∧ ∀ t, t ∈ added ↔
      t ∉ splitCsv current ∧ t ≠ "" ∧ ∃ v ∈ incoming, t = trimmed v
  idempotent : unionCsv (unionCsv current incoming) incoming = unionCsv current incoming
  associative : ∀ other t,
    t ∈ splitCsv (unionCsv (unionCsv current (splitCsv other)) incoming) ↔
      t ∈ splitCsv (unionCsv current (splitCsv (unionCsv other incoming)))
  /-- A list that is written is read back. -/
  tagsRead : splitCsv (some (joinCsv tags)) = tags
  filesRead : splitCsv (some (joinCsv linkedFiles)) = linkedFiles
  /-- Lists that a writer stores are found on a row of the content after any later unions. -/
  written : ∀ (w : ListWriter) (db s : MemoryDb) (fault fault' : Option ℕ) (p : ℕ × Bool),
    db.Valid → w.run tags linkedFiles ⟨db, fault⟩ = (.ok p, ⟨s, fault'⟩) →
      ∀ s', Relation.ReflTransGen UnionStep s s' → HasLists s' w.content tags linkedFiles
  /-- So are values that a union adds to a row. -/
  unioned : ∀ (db s : MemoryDb) (x : NoteRow) (fault fault' : Option ℕ) (changed : Bool),
    db.Valid → x ∈ db.notes →
      unionTagsAndFiles x.id incoming incoming ⟨db, fault⟩ = (.ok changed, ⟨s, fault'⟩) →
        ∀ s', Relation.ReflTransGen UnionStep s s' →
          HasLists s' x.contentId ((incoming.map trimmed).filter (· ≠ ""))
            ((incoming.map trimmed).filter (· ≠ ""))

/-- No value to be added has a comma, and every member to be written is not empty, has no comma and
    no white space at its ends. -/
structure Storable (incoming tags linkedFiles : List String) : Prop where
  incoming : ∀ v ∈ incoming, ',' ∉ v.toList
  tags : ∀ t ∈ tags, CleanMember t
  linkedFiles : ∀ t ∈ linkedFiles, CleanMember t

theorem keeps_valid_listWriter (w : ListWriter) :
    Sql.Keeps MemoryDb.Valid (w.run tags linkedFiles) := by
  cases w with
  | add => exact linkClosed_valid.keeps_addNote _ _ _ _ _ _ _ _
  | addWithCreatedAt kind title body sourceRef archived createdAt =>
    refine linkClosed_valid.keeps_addNoteWithCreatedAt _ _ _ _ _ _ ?_ _
    cases archived
    · exact Or.inl rfl
    · exact Or.inr rfl
  | addSuperseding => exact linkClosed_valid.keeps_addNoteSuperseding _ _ _ _ _ _ _ _

variable {current : Option String} {incoming : List String}

omit [Sha256] in
theorem cleanMember_of_mem_trimmed (h : ∀ v ∈ incoming, ',' ∉ v.toList) {t : String}
    (ht : t ∈ (incoming.map trimmed).filter (· ≠ "")) : CleanMember t := by
  obtain ⟨hmem, hne⟩ := List.mem_filter.1 ht
  obtain ⟨v, hv, rfl⟩ := List.mem_map.1 hmem
  exact cleanMember_trimmed (by simpa using hne) (h v hv)

omit [Sha256] in
/-- Values without commas are read from the union as they were added. -/
theorem splitCsv_unionCsv_of_noComma (h : ∀ v ∈ incoming, ',' ∉ v.toList) :
    splitCsv (unionCsv current incoming) = incoming.foldl addMember (splitCsv current) := by
  obtain ⟨added, hfold, -, hmem⟩ := exists_added incoming (splitCsv current)
  rw [splitCsv_unionCsv_eq current hfold, hfold, List.flatMap_congr fun t ht => ?_,
    List.flatMap_singleton']
  obtain ⟨-, hne, v, hv, rfl⟩ := (hmem t).1 ht
  exact csvMembers_of_cleanMember (cleanMember_trimmed hne (h v hv))

omit [Sha256] in
/-- A second time there is nothing to add. -/
theorem unionCsv_idempotent (h : ∀ v ∈ incoming, ',' ∉ v.toList) :
    unionCsv (unionCsv current incoming) incoming = unionCsv current incoming := by
  obtain ⟨added, hfold, -, hmem⟩ := exists_added incoming (splitCsv current)
  obtain ⟨again, hagain, -, hnone⟩ :=
    exists_added incoming (splitCsv (unionCsv current incoming))
  have hnil : again = [] := by
    refine List.eq_nil_iff_forall_not_mem.2 fun t ht => ?_
    obtain ⟨hnot, hne, v, hv, rfl⟩ := (hnone t).1 ht
    refine hnot ((mem_splitCsv_unionCsv_iff _ _ _).2 (Or.inr ⟨v, hv, ?_⟩))
    rw [csvMembers_of_cleanMember (cleanMember_trimmed hne (h v hv))]
    exact List.mem_singleton_self _
  rw [hnil, List.append_nil, splitCsv_unionCsv_of_noComma h] at hagain
  rw [unionCsv_eq (unionCsv current incoming), splitCsv_unionCsv_of_noComma h, hagain,
    unionCsv_eq current]
  by_cases hempty : incoming.foldl addMember (splitCsv current) = [] ∧ current = none
  · rw [if_pos hempty, if_pos ⟨hempty.1, rfl⟩]
  · rw [if_neg hempty, if_neg (by simp)]

omit [Sha256] in
theorem unionCsv_associative (current other : Option String) (incoming : List String)
    (t : String) :
    t ∈ splitCsv (unionCsv (unionCsv current (splitCsv other)) incoming) ↔
      t ∈ splitCsv (unionCsv current (splitCsv (unionCsv other incoming))) := by
  have hcol : ∀ col : Option String, (∃ v ∈ splitCsv col, t ∈ csvMembers (trimmed v).toList) ↔
      t ∈ splitCsv col := by
    intro col
    constructor
    · rintro ⟨v, hv, ht⟩
      rw [csvMembers_trimmed_of_mem hv, List.mem_singleton] at ht
      rwa [ht]
    · intro ht
      exact ⟨t, ht, by rw [csvMembers_trimmed_of_mem ht]; exact List.mem_singleton_self t⟩
  rw [mem_splitCsv_unionCsv_iff, mem_splitCsv_unionCsv_iff, hcol, mem_splitCsv_unionCsv_iff, hcol,
    mem_splitCsv_unionCsv_iff, or_assoc]

/-- A value with a comma in it is not among the members that were added. -/
theorem ListsSurvive.storable {tags linkedFiles : List String}
    (h : ListsSurvive current incoming tags linkedFiles) : Storable incoming tags linkedFiles := by
  refine ⟨fun v hv hcomma => ?_, fun t ht => ?_, fun t ht => ?_⟩
  · obtain ⟨added, hread, -, hmem⟩ := h.added
    have hcomma' : ',' ∈ (trimmed v).toList := by
      rwa [trimmed, String.toList_ofList, comma_mem_trim_iff]
    have hin : trimmed v ∈ splitCsv (unionCsv current incoming) := by
      rw [hread, List.mem_append]
      by_cases hpresent : trimmed v ∈ splitCsv current
      · exact Or.inl hpresent
      · refine Or.inr ((hmem _).2 ⟨hpresent, fun hempty => ?_, v, hv, rfl⟩)
        rw [hempty] at hcomma'
        cases hcomma'
    exact (cleanMember_of_mem_splitCsv hin).no_comma hcomma'
  · rw [← h.tagsRead] at ht
    exact cleanMember_of_mem_splitCsv ht
  · rw [← h.filesRead] at ht
    exact cleanMember_of_mem_splitCsv ht

theorem Storable.unioned {tags linkedFiles : List String} (h : Storable incoming tags linkedFiles)
    {db : MemoryDb} (hv : db.Valid) {x : NoteRow} (hx : x ∈ db.notes) :
    Sql.Post (fun s => s = db) (unionTagsAndFiles x.id incoming incoming)
      (fun _ s => HasLists s x.contentId ((incoming.map trimmed).filter (· ≠ ""))
        ((incoming.map trimmed).filter (· ≠ ""))) (fun _ => True) := by
  refine Sql.Post.mono (post_unionTagsAndFiles hv.unique x.id incoming incoming) (fun _ hs => hs)
    (fun _ s hs => ?_) (fun _ _ => trivial)
  have hfound : ∀ col : Option String, (incoming.map trimmed).filter (· ≠ "") ⊆
      splitCsv (unionCsv col incoming) := by
    intro col t ht
    have hclean := cleanMember_of_mem_trimmed h.incoming ht
    obtain ⟨v, hv, rfl⟩ := List.mem_map.1 (List.mem_filter.1 ht).1
    refine (mem_splitCsv_unionCsv_iff col incoming _).2 (Or.inr ⟨v, hv, ?_⟩)
    rw [csvMembers_of_cleanMember hclean]
    exact List.mem_singleton_self _
  rw [hs.2]
  exact ⟨unionRow incoming incoming x, List.mem_map.2 ⟨x, hx, if_pos (decide_eq_true rfl)⟩, rfl,
    hfound _, hfound _⟩

/-- The lists survive exactly when they can be stored. -/
theorem listLaw (current : Option String) (incoming tags linkedFiles : List String) :
    ListsSurvive current incoming tags linkedFiles ↔ Storable incoming tags linkedFiles := by
  refine ⟨ListsSurvive.storable, fun h => ?_⟩
  refine ⟨?_, unionCsv_idempotent h.incoming, fun other t => unionCsv_associative _ _ _ t,
    splitCsv_joinCsv h.tags, splitCsv_joinCsv h.linkedFiles, ?_, ?_⟩
  · obtain ⟨added, hfold, hnodup, hmem⟩ := exists_added incoming (splitCsv current)
    exact ⟨added, (splitCsv_unionCsv_of_noComma h.incoming).trans hfold, hnodup, hmem⟩
  · intro w db s fault fault' p hv hrun s' hlater
    have hpost := (post_listWriter hv h.tags h.linkedFiles w ⟨db, fault⟩ rfl).1 p
      (congrArg Prod.fst hrun)
    have hvalid : (w.run tags linkedFiles ⟨db, fault⟩).2.db.Valid := keeps_valid_listWriter w _ hv
    rw [hrun] at hpost hvalid
    exact hpost.stays hvalid hlater
  · intro db s x fault fault' changed hv hx hrun s' hlater
    have hpost := (h.unioned hv hx ⟨db, fault⟩ rfl).1 changed (congrArg Prod.fst hrun)
    have hvalid := linkClosed_valid.keeps_unionTagsAndFiles x.id incoming incoming ⟨db, fault⟩ hv
    rw [hrun] at hpost hvalid
    exact hpost.stays hvalid hlater

omit [Sha256] in
/-- The name of one file with a comma in it becomes two members, and a second union of the same file
    adds them once more. -/
theorem lists_commaFile :
    ¬ @ListsSurvive workedSha256 (some "a.md") ["b,c.md"] [] ["b,c.md"] ∧
      unionCsv (some "a.md") ["b,c.md"] = some "a.md,b,c.md" ∧
        unionCsv (some "a.md,b,c.md") ["b,c.md"] = some "a.md,b,c.md,b,c.md" := by
  refine ⟨fun h => ?_, by decide, by decide⟩
  exact (@ListsSurvive.storable workedSha256 _ _ _ _ h).incoming "b,c.md" (by decide) (by decide)

end Spelunk
