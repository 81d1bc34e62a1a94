import Spelunk.Theory.BodyAppend
import Spelunk.Theory.CarrierBounds
import Spelunk.Theory.FoldAgain

/-!
# What a Reader Sees of a Log

A reader's view is decided by the note lines of the commits it can reach: the records among
them, folded by entity. So a write that adds one line changes the view of one entity, and a
log that has only gained lines keeps every entity archived that was.

## Main definitions

* `repoOf`: The repository of a ref and a log, git answering what it is asked.
* `recordsAt`: The records of some commits, in order.
* `entityRecord`: What a reader sees of one entity.
* `LaterLog`: What a log may become by appends and merges.

## Theorems

* `parseBlobs_eq`: The note lines decide what a reader parses.
* `foldedRecords_repoOf`: The whole view.
* `find?_foldRecords`: The view of one entity.
* `archived_iff`: An entity is archived if one of its copies is.
* `LaterLog.sub`: A later log has every line.
* `archived_later`: It keeps archived what is.
-/

namespace Spelunk

/-! ### Lines and records -/

section Reading

variable [NoteJson]

/-- The records among the note lines are those among the pieces. -/
theorem filterMap_noteLines (s : String) :
    (noteLines s).filterMap parseSpelunkLine = (pieces s).filterMap classify := by
  have hpieces : ∀ l : List (List Char),
      (((l.map (·.rdropWhile isWhiteSpace)).filter (· ≠ [])).map String.ofList).filterMap
        parseSpelunkLine = l.filterMap classify := by
    intro l
    induction l with
    | nil => rfl
    | cons piece l ih =>
      have hclass : classify (piece.rdropWhile isWhiteSpace) = classify piece := by
        simp only [classify, parseSpelunkLine, String.toList_ofList, trim_rdropWhile]
      rw [List.map_cons]
      by_cases hnil : piece.rdropWhile isWhiteSpace = []
      · have hnone : classify piece = none := by
          rw [← hclass, hnil, classify_of_trim_eq_nil rfl]
        rw [List.filter_cons_of_neg (by simpa using hnil), List.filterMap_cons_none hnone, ih]
      · rw [List.filter_cons_of_pos (by simpa using hnil), List.map_cons, List.filterMap_cons,
          List.filterMap_cons, ← classify, hclass, ih]
  exact hpieces (pieces s)

/-- So are those among the lines that a search goes through. -/
theorem filterMap_lines (s : String) :
    (lines s).filterMap parseSpelunkLine = (noteLines s).filterMap parseSpelunkLine := by
  obtain ⟨j, hj⟩ := map_classify_pieces s
  have hnone : (List.replicate j (none : Option NoteRecord)).filterMap id = [] :=
    List.filterMap_eq_nil_iff.2 fun o ho => List.eq_of_mem_replicate ho
  have hlines := congrArg (List.filterMap id) hj
  rw [List.filterMap_append, hnone, List.append_nil, List.filterMap_map,
    List.filterMap_map] at hlines
  rw [filterMap_noteLines]
  exact hlines.symm

omit [NoteJson] in
/-- Foreign lines make no difference. -/
theorem classRecords_eq (l : List (Option NoteRecord)) :
    classRecords l = classRecords ((l.filterMap id).map some) := by
  induction l with
  | nil => rfl
  | cons o l ih =>
    cases o with
    | none => exact ih
    | some record =>
      show classRecords (some record :: l) =
        classRecords (some record :: (l.filterMap id).map some)
      simp only [classRecords, ih]

omit [NoteJson] in
/-- The records can be read exactly when none has a newer schema. -/
theorem classRecords_some_eq_ok_iff {l records : List NoteRecord} :
    classRecords (l.map some) = .ok records ↔
      (∀ r ∈ l, r.schemaVersion ≤ 1) ∧ records = l := by
  induction l generalizing records with
  | nil => simp [classRecords, eq_comm]
  | cons r l ih =>
    rw [List.map_cons, classRecords, List.forall_mem_cons]
    by_cases hr : 1 < r.schemaVersion
    · rw [if_pos hr]
      exact ⟨fun h => (by cases h), fun h => absurd h.1.1 (not_le.2 hr)⟩
    · rw [if_neg hr]
      cases hl : classRecords (l.map some) with
      | error e =>
        refine ⟨fun h => (by cases h), fun h => ?_⟩
        rw [ih.2 ⟨h.1.2, rfl⟩] at hl
        cases hl
      | ok rest =>
        obtain ⟨hall, rfl⟩ := ih.1 hl
        constructor
        · intro h
          cases h
          exact ⟨⟨not_lt.1 hr, hall⟩, rfl⟩
        · rintro ⟨-, rfl⟩
          rfl

theorem parseBlobs_eq (blobs : List String) :
    parseBlobs blobs = classRecords
      ((blobs.flatMap fun blob => (noteLines blob).filterMap parseSpelunkLine).map some) := by
  have happend : ∀ l r : List NoteRecord, classRecords ((l ++ r).map some) =
      (classRecords (l.map some)).bind fun records =>
        (classRecords (r.map some)).map (records ++ ·) := by
    intro l r
    induction l with
    | nil =>
      simp only [List.nil_append, List.map_nil, classRecords]
      cases classRecords (r.map some) <;> rfl
    | cons a l ih =>
      rw [List.cons_append, List.map_cons, List.map_cons, classRecords, classRecords, ih]
      split_ifs
      · rfl
      · cases classRecords (l.map some) with
        | error e => rfl
        | ok records => cases classRecords (r.map some) <;> rfl
  induction blobs with
  | nil => rfl
  | cons blob blobs ih =>
    have hblob : parseRecords blob = classRecords
        (((noteLines blob).filterMap parseSpelunkLine).map some) := by
      rw [parseRecords_eq_pieces, classRecords_eq, List.filterMap_map, filterMap_noteLines]
      rfl
    rw [parseBlobs, hblob, ih, List.flatMap_cons]
    refine Eq.trans ?_ (happend _ _).symm
    cases classRecords (((noteLines blob).filterMap parseSpelunkLine).map some) <;> rfl

end Reading

/-! ### Views -/

/-- The repository of a notes ref and a log, git answering what it is asked. -/
def repoOf (ref : Option NotesCommit) (log : List String) : NotesRepo where
  notes := notesOf ref
  log := log
  listFails := false
  logFails := false
  batchFails := false

theorem notedCommits_repoOf (ref : Option NotesCommit) (log : List String) :
    (notedCommits (repoOf ref log)).map (·.2) = log.filterMap (notesOf ref).note := by
  unfold notedCommits
  simp only [repoOf, Bool.false_eq_true, if_false]
  split_ifs with hnil
  · rw [hnil, List.map_nil]
    exact (List.filterMap_eq_nil_iff.2 fun commit _ => rfl).symm
  · rw [List.map_filterMap]
    refine List.filterMap_congr fun commit _ => ?_
    rw [Option.map_map]
    exact congrFun Option.map_id _

section Views

variable [NoteJson]

/-- The records of some commits, in order. -/
def recordsAt (tree : NotesTree) (commits : List String) : List NoteRecord :=
  (commits.flatMap tree.linesAt).filterMap parseSpelunkLine

theorem recordsAt_append (tree : NotesTree) (l r : List String) :
    recordsAt tree (l ++ r) = recordsAt tree l ++ recordsAt tree r := by
  rw [recordsAt, List.flatMap_append, List.filterMap_append, recordsAt, recordsAt]

/-- Commits without a note have no records. -/
theorem recordsAt_eq (tree : NotesTree) (commits : List String) :
    recordsAt tree commits = (commits.filterMap tree.note).flatMap fun blob =>
      (noteLines blob).filterMap parseSpelunkLine := by
  induction commits with
  | nil => rfl
  | cons commit commits ih =>
    rw [← List.singleton_append, recordsAt_append, ih, List.singleton_append, recordsAt,
      List.flatMap_singleton, NotesTree.linesAt]
    cases hnote : tree.note commit with
    | none => rw [List.filterMap_cons_none hnote]; rfl
    | some blob => rw [List.filterMap_cons_some hnote, List.flatMap_cons]; rfl

/-- The records of the first commit, as a search goes through its lines, then the others. -/
theorem recordsAt_cons (tree : NotesTree) (commit : String) (rest : List String) :
    recordsAt tree (commit :: rest) =
      (lines ((tree.note commit).getD "")).filterMap parseSpelunkLine ++ recordsAt tree rest := by
  rw [filterMap_lines, ← List.singleton_append, recordsAt_append, recordsAt,
    List.flatMap_singleton, NotesTree.linesAt]

theorem recordsAt_filter (tree : NotesTree) (commits : List String) :
    recordsAt tree (commits.filter fun commit => (tree.note commit).isSome) =
      recordsAt tree commits := by
  rw [recordsAt_eq, recordsAt_eq, List.filterMap_filter]
  congr 1
  refine List.filterMap_congr fun commit _ => ?_
  cases tree.note commit <;> rfl

theorem mem_recordsAt {tree : NotesTree} {commits : List String} {r : NoteRecord} :
    r ∈ recordsAt tree commits ↔
      ∃ commit ∈ commits, ∃ line ∈ tree.linesAt commit, parseSpelunkLine line = some r := by
  simp only [recordsAt, List.mem_filterMap, List.mem_flatMap]
  exact ⟨fun ⟨line, ⟨commit, hcommit, hline⟩, hr⟩ => ⟨commit, hcommit, line, hline, hr⟩,
    fun ⟨commit, hcommit, line, hline, hr⟩ => ⟨line, ⟨commit, hcommit, hline⟩, hr⟩⟩

/-- More commits with more lines have more records. -/
theorem recordsAt_subset {tree tree' : NotesTree} (htree : tree.Sub tree')
    {commits commits' : List String} (hcommits : commits ⊆ commits') :
    recordsAt tree commits ⊆ recordsAt tree' commits' := by
  intro r hr
  obtain ⟨commit, hcommit, line, hline, hparse⟩ := mem_recordsAt.1 hr
  exact mem_recordsAt.2 ⟨commit, hcommits hcommit, line, htree commit line hline, hparse⟩

variable [Sha256]

/-- A reader that gets an answer sees the entities of the records, each folded. -/
theorem foldedRecords_repoOf {ref : Option NotesCommit} {log : List String}
    {folded : List NoteRecord} :
    foldedRecords (repoOf ref log) = .ok folded ↔
      (∀ r ∈ recordsAt (notesOf ref) log, r.schemaVersion ≤ 1) ∧
        folded = foldRecords (recordsAt (notesOf ref) log) := by
  have hview : foldedRecords (repoOf ref log) =
      (classRecords ((recordsAt (notesOf ref) log).map some)).map foldRecords := by
    unfold foldedRecords
    rw [notedCommits_repoOf, if_neg (by simp [repoOf]), parseBlobs_eq, recordsAt_eq]
  rw [hview]
  constructor
  · intro h
    cases hread : classRecords ((recordsAt (notesOf ref) log).map some) with
    | error e =>
      rw [hread] at h
      cases h
    | ok records =>
      obtain ⟨hall, rfl⟩ := classRecords_some_eq_ok_iff.1 hread
      rw [hread] at h
      exact ⟨hall, (Except.ok.inj h).symm⟩
  · rintro ⟨hall, rfl⟩
    rw [classRecords_some_eq_ok_iff.2 ⟨hall, rfl⟩]
    rfl

/-- What a reader sees of one entity. -/
def entityRecord (repo : NotesRepo) (entity : String) : Except CarrierError (Option NoteRecord) :=
  (foldedRecords repo).map (·.find? (fun r => r.resolveEntityId = entity))

omit [NoteJson] in
/-- An entity is seen as the fold of its copies. -/
theorem find?_foldRecords (records : List NoteRecord) (entity : String) :
    (foldRecords records).find? (fun r => r.resolveEntityId = entity) =
      foldGroup (copiesOf entity records) := by
  rw [← List.head?_filter, ← copiesOf, copiesOf_foldRecords]
  cases foldGroup (copiesOf entity records) <;> rfl

omit [NoteJson] in
/-- An entity is archived if one of its copies is. -/
theorem archived_iff {records : List NoteRecord} {entity : String} :
    (∃ r, foldGroup (copiesOf entity records) = some r ∧ r.status = "archived") ↔
      ∃ c ∈ copiesOf entity records, c.status = "archived" := by
  cases hcopies : copiesOf entity records with
  | nil => simp [foldGroup, baseIndex]
  | cons a l =>
    rw [foldGroup_eq]
    have hbase := Lib.firstMin_mem baseKey a l
    constructor
    · rintro ⟨r, hr, harchived⟩
      rw [Option.some.injEq] at hr
      rw [← hr] at harchived
      exact (archived_joinCopies_iff hbase).1 harchived
    · exact fun h => ⟨_, rfl, (archived_joinCopies_iff hbase).2 h⟩

end Views

/-! ### Later logs -/

section Later

variable [Git]

/-- What a log may become: writers append lines to any notes, it is united with other logs, or
    others are united with it. -/
inductive LaterLog (ref : Option NotesCommit) : Option NotesCommit → Prop where
  | refl : LaterLog ref ref
  | append {later : Option NotesCommit} (stamp object : String) {line : String} :
      LaterLog ref later → CleanLine line →
      LaterLog ref (some (World.notedRef stamp object
        (appendLine ((notesOf later).note object) line) later))
  | merge {later other : Option NotesCommit} (stamp : String) :
      LaterLog ref later → (∀ c ∈ other, c.Grown) →
      LaterLog ref (World.mergedRef stamp later other)
  | mergedInto {later other : Option NotesCommit} (stamp : String) :
      LaterLog ref later → (∀ c ∈ other, c.Grown) →
      LaterLog ref (World.mergedRef stamp other later)

/-- A later log has every line. -/
theorem LaterLog.sub (hgit : Git.Documented) {ref later : Option NotesCommit}
    (h : LaterLog ref later) (href : ∀ c ∈ ref, c.Grown) :
    (∀ c ∈ later, c.Grown) ∧ (notesOf ref).Sub (notesOf later) := by
  induction h with
  | refl => exact ⟨href, NotesTree.Sub.refl _⟩
  | @append later stamp object line _ hline ih =>
    have hlines : ∀ l ∈ (notesOf later).linesAt object,
        l ∈ noteLines (appendLine ((notesOf later).note object) line) := by
      intro l hl
      rw [noteLines_appendLine hline]
      exact List.mem_append_left _ hl
    have hgrown : ∀ c ∈ some (World.notedRef stamp object
        (appendLine ((notesOf later).note object) line) later), c.Grown := by
      intro c hc
      rw [← Option.mem_some_iff.1 hc]
      exact grown_notedRef hgit ih.1 hlines stamp
    exact ⟨hgrown, ih.2.trans ((refLe_notedRef _ _ _ _).sub hgrown)⟩
  | merge stamp _ hother ih =>
    have hgrown := grown_mergedRef hgit ih.1 hother stamp
    exact ⟨hgrown, ih.2.trans ((refLe_mergedRef stamp).sub hgrown)⟩
  | mergedInto stamp _ hother ih =>
    exact ⟨grown_mergedRef hgit hother ih.1 stamp,
      ih.2.trans (sub_mergedRef hgit hother ih.1 stamp)⟩

variable [NoteJson] [Sha256]

/-- What is archived stays so in every later log, for every reader that reaches the commits. -/
theorem archived_later (hgit : Git.Documented) {ref later : Option NotesCommit}
    {log log' : List String} (href : ∀ c ∈ ref, c.Grown) (h : LaterLog ref later)
    (hlog : log ⊆ log') {entity : String}
    (harchived : ∃ c ∈ copiesOf entity (recordsAt (notesOf ref) log), c.status = "archived")
    {folded : List NoteRecord} (hfolded : foldedRecords (repoOf later log') = .ok folded) :
    ∃ r ∈ folded, r.resolveEntityId = entity ∧ r.status = "archived" := by
  obtain ⟨c, hc, hstatus⟩ := harchived
  obtain ⟨hmem, hentity⟩ := mem_copiesOf.1 hc
  have hlater : c ∈ copiesOf entity (recordsAt (notesOf later) log') :=
    mem_copiesOf.2 ⟨recordsAt_subset (h.sub hgit href).2 hlog hmem, hentity⟩
  obtain ⟨r, hr, hr'⟩ := archived_iff.2 ⟨c, hlater, hstatus⟩
  obtain ⟨-, rfl⟩ := foldedRecords_repoOf.1 hfolded
  have hkey := resolveEntityId_of_foldGroup hr
  exact ⟨r, (mem_foldRecords_iff _ _).2 (by rw [hkey]; exact hr), hkey, hr'⟩

end Later

end Spelunk
