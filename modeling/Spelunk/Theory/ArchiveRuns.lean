import Spelunk.Theory.CarrierAlone
import Spelunk.Theory.CatSortUniq
import Spelunk.Theory.NoteViews
import Spelunk.Theory.RecordText

/-!
# Archiving on the Carrier

An archive looks for the first line with the id, and adds a line for the entity of that line's
content. What was shown under the id is the first folded record with it. Ids belong to the
machine that wrote a line, so the two need not be of one entity: then an entity that nobody
asked for is archived, and the one that was shown is not.

## Main definitions

* `LineAdded`: A machine after a write.
* `StateUpdate`: The record an archive writes.
* `ArchiveKept`: What an archive promises.
* `ReachesShown`, `Unnoticed`: When it keeps that promise.

## Theorems

* `doesAlone_archiveEntry`: What an archive does.
* `archiveLaw`: The promise is kept exactly when the line found is of the entity shown.
* `archive_wrongEntity`: Where it is not.
-/

namespace Spelunk

open Lib (Prog Alone Bounds Wp)

section Writers

variable [Git] [NoteJson] [Sha256] {M R : Type} [DecidableEq M] [DecidableEq R]

/-! ### A writer that nobody disturbs -/

/-- What a program of `i` does when no other process makes a call. -/
def DoesAlone {α : Type} (i : ProcessId M) (post : α → World M R → Prop) (p : CarrierProg α)
    (w : World M R) : Prop :=
  ∀ hist, Wp (carrierMachinery M R) (fun _ _ => True)
    (Bounds.alone (ProcessId M) (World M R) CarrierOp CarrierOp.Res) i (fun a _ w' => post a w')
    hist p w

variable {i : ProcessId M} {w : World M R} {α β : Type} {post : α → World M R → Prop}

theorem DoesAlone.ret {a : α} (h : post a w) : DoesAlone i post (.ret a) w :=
  fun _ => h

theorem DoesAlone.call {o : CarrierOp} {k : o.Res → CarrierProg α}
    (h : ∀ r w', o.exec i w r w' → DoesAlone i post (k r) w') :
    DoesAlone i post (.call o k) w := by
  rintro hist t rfl - r w' hexec -
  exact ⟨trivial, h r w' hexec _⟩

theorem DoesAlone.bind {p : CarrierProg α} {f : α → CarrierProg β} {post : β → World M R → Prop}
    (h : DoesAlone i (fun a v => DoesAlone i post (f a) v) p w) : DoesAlone i post (p.bind f) w :=
  fun hist => Wp.bind ((h hist).mono fun _ _ _ h' => h' _)

theorem DoesAlone.mono {post' : α → World M R → Prop} {p : CarrierProg α}
    (h : DoesAlone i post p w) (hpost : ∀ a v, post a v → post' a v) : DoesAlone i post' p w :=
  fun hist => (h hist).mono fun a _ v h' => hpost a v h'

theorem DoesAlone.ends {p : CarrierProg α} (h : DoesAlone i post p w) {a : α} {w' : World M R}
    {events : List (CarrierEvent M R)}
    (hrun : Alone (carrierMachinery M R) (fun _ _ => True) i [] p w events (.ret a) w') :
    post a w' :=
  Alone.post (h []) hrun

theorem doesAlone_readNoteBody (object : String) (attempts : ℕ) :
    DoesAlone i (fun r w' => w' = w ∧ ∀ existing, r = .ok existing →
      existing = (notesOf (w.machines i.machine).working).note object)
      (readNoteBody object attempts) w := by
  induction attempts with
  | zero => exact DoesAlone.ret ⟨rfl, fun _ h => by cases h⟩
  | succ attempts ih =>
    refine DoesAlone.call (o := .showNote object) fun r w' hexec => ?_
    cases r with
    | none =>
      have hsame : w' = w := hexec
      rw [hsame]
      exact ih
    | some body =>
      obtain ⟨hbody, hsame⟩ := hexec
      refine DoesAlone.ret ⟨hsame, fun existing h => ?_⟩
      exact (Except.ok.inj h).symm.trans hbody

/-- The machine `x` after a line was added to a note of its working ref. -/
structure LineAdded (x x' : Machine M R) (object line : String) : Prop where
  working : ∃ stamp, x'.working = some (World.notedRef stamp object
    (appendLine ((notesOf x.working).note object) line) x.working)
  log : x'.log = x.log

theorem doesAlone_writeLine (object line : String) :
    DoesAlone i (fun r w' => ∀ u, r = .ok u →
      LineAdded (w.machines i.machine) (w'.machines i.machine) object line)
      (writeLine object line) w := by
  refine DoesAlone.bind ((doesAlone_readNoteBody object noteReadAttempts).mono ?_)
  rintro (e | existing) v ⟨hsame, hread⟩
  · exact DoesAlone.ret fun _ h => by cases h
  subst hsame
  rw [hread existing rfl]
  refine DoesAlone.call (o := .addNote object _) fun done w' hexec => DoesAlone.ret fun u hok => ?_
  cases done with
  | false => cases hok
  | true =>
    obtain ⟨stamp, rfl⟩ := hexec
    rw [World.setMachine_self]
    exact ⟨⟨stamp, rfl⟩, rfl⟩

/-- The rest of an append, once the lock is there or cannot be: only the lock of the machine has
    changed. -/
theorem doesAlone_appendHead (record : NoteRecord) (lock : WriterLock) {v : World M R}
    (hhead : (v.machines i.machine).head = (w.machines i.machine).head)
    (hworking : (v.machines i.machine).working = (w.machines i.machine).working)
    (hlog : (v.machines i.machine).log = (w.machines i.machine).log) :
    DoesAlone i (fun r w' => ∀ out, r = .ok out → ∃ head, (w.machines i.machine).head = some head ∧
      LineAdded (w.machines i.machine) (w'.machines i.machine) head (NoteJson.toLine record))
      (Prog.bind (Call.revParseHead.bind fun head => match head with
        | none => pure (.error .noHead)
        | some head => writeLine head (NoteJson.toLine record)) fun result =>
          lock.drop.bind fun _ => .ret (result.map fun _ => AppendOutcome.mk (lock = .unlocked)))
      v := by
  refine DoesAlone.bind (DoesAlone.call (o := .revParseHead) fun r v' hexec => ?_)
  have hwritten : DoesAlone i (fun result w' => ∀ u, result = .ok u → ∃ head,
      (w.machines i.machine).head = some head ∧
      LineAdded (w.machines i.machine) (w'.machines i.machine) head (NoteJson.toLine record))
      (match r with
        | none => pure (.error .noHead)
        | some head => writeLine head (NoteJson.toLine record)) v' := by
    cases r with
    | none => exact DoesAlone.ret fun _ h => by cases h
    | some head =>
      obtain ⟨hfound, rfl⟩ := hexec
      refine (doesAlone_writeLine head _).mono fun result w' h u hok => ?_
      have hadded := h u hok
      refine ⟨head, hhead.symm.trans hfound, ?_, hadded.log.trans hlog⟩
      rw [← hworking]
      exact hadded.working
  refine hwritten.mono fun result w' h => DoesAlone.bind ?_
  have hdrop : DoesAlone i (fun _ w'' => ∃ lock, w''.machines i.machine =
      { w'.machines i.machine with lock := lock }) lock.drop w' := by
    cases lock with
    | held =>
      refine DoesAlone.call (o := .dropLock) fun _ w'' hexec => DoesAlone.ret ?_
      rw [show w'' = w'.die i from hexec]
      exact World.machines_die i w' i.machine
    | unlocked => exact DoesAlone.ret ⟨_, rfl⟩
  refine hdrop.mono fun _ w'' hlock => DoesAlone.ret fun out hok => ?_
  obtain ⟨lock', hlock⟩ := hlock
  cases result with
  | error e => cases hok
  | ok u =>
    obtain ⟨head, hfound, hadded⟩ := h u rfl
    exact ⟨head, hfound, by rw [hlock]; exact hadded.working, by rw [hlock]; exact hadded.log⟩

/-- An append that succeeds has added the line of its record to the note of HEAD. -/
theorem doesAlone_appendToGitNotes (record : NoteRecord) :
    DoesAlone i (fun r w' => ∀ out, r = .ok out → ∃ head, (w.machines i.machine).head = some head ∧
      LineAdded (w.machines i.machine) (w'.machines i.machine) head (NoteJson.toLine record))
      (appendToGitNotes record) w := by
  refine DoesAlone.call (o := .lockNotes) fun r v hexec => ?_
  cases r with
  | acquired =>
    obtain ⟨-, rfl⟩ := hexec
    refine doesAlone_appendHead record .held ?_ ?_ ?_
    all_goals rw [World.setMachine_self]
  | contended => exact DoesAlone.ret fun _ h => by cases h
  | unusable =>
    have hsame : v = w := hexec
    subst hsame
    exact doesAlone_appendHead record .unlocked rfl rfl rfl
  | unresolved => exact DoesAlone.ret fun _ h => by cases h

theorem doesAlone_notedCommits :
    DoesAlone i (fun commits w' => w' = w ∧ (commits = [] ∨ commits =
      (w.machines i.machine).log.filter fun commit =>
        ((notesOf (w.machines i.machine).working).note commit).isSome))
      notedCommitsProg w := by
  refine DoesAlone.call (o := .listNotes) fun r w' hexec => ?_
  cases r with
  | none => exact DoesAlone.ret ⟨hexec, Or.inl rfl⟩
  | some tree =>
    obtain ⟨rfl, rfl⟩ := hexec
    show DoesAlone i _ (ite _ _ _) _
    split_ifs with hnil
    · exact DoesAlone.ret ⟨rfl, Or.inl rfl⟩
    · refine DoesAlone.call (o := .logHead) fun r w'' hexec => ?_
      cases r with
      | none => exact DoesAlone.ret ⟨hexec, Or.inl rfl⟩
      | some log =>
        obtain ⟨rfl, rfl⟩ := hexec
        exact DoesAlone.ret ⟨rfl, Or.inr rfl⟩

omit [NoteJson] [Sha256] [Git] in
theorem findSome?_filter {γ δ : Type} (f : γ → Option δ) (p : δ → Bool) (l : List γ) :
    (l.findSome? fun a => (f a).filter p) = (l.filterMap f).find? p := by
  induction l with
  | nil => rfl
  | cons a l ih =>
    rw [List.findSome?_cons]
    cases ha : f a with
    | none => rw [List.filterMap_cons_none ha, Option.filter_none, ih]
    | some b =>
      rw [List.filterMap_cons_some ha, List.find?_cons, Option.filter_some]
      cases p b with
      | true => rfl
      | false => exact ih

/-- The record an archive finds is the first one with the id. -/
theorem doesAlone_findRecord (id : ℤ) (commits : List String) :
    DoesAlone i (fun r w' => w' = w ∧ ∀ record, r = .ok (some record) →
      (recordsAt (notesOf (w.machines i.machine).working) commits).find? (fun r => r.id = id) =
        some record)
      (findRecord id commits) w := by
  induction commits with
  | nil => exact DoesAlone.ret ⟨rfl, fun _ h => by cases h⟩
  | cons commit rest ih =>
    refine DoesAlone.bind ((doesAlone_readNoteBody commit noteReadAttempts).mono ?_)
    rintro (e | body) v ⟨hsame, hread⟩
    · exact DoesAlone.ret ⟨hsame, fun _ h => by cases h⟩
    subst hsame
    rw [recordsAt_cons, ← hread body rfl, List.find?_append, ← findSome?_filter]
    dsimp only
    cases (lines (body.getD "")).findSome? fun line =>
        (parseSpelunkLine line).filter fun r => r.id = id with
    | some record => exact DoesAlone.ret ⟨rfl, fun _ h => (Option.some.inj (Except.ok.inj h)) ▸ rfl⟩
    | none => exact ih

/-- The record an archive writes for the one it has found. -/
structure StateUpdate (record update : NoteRecord) : Prop where
  made : ∃ id createdAt invalidAt, update =
    (recordToNote record).stateUpdate id createdAt "archived" (some invalidAt) none
  /-- An end of validity that is there stays. -/
  invalidAt : ∀ ts ∈ record.invalidAt, update.invalidAt = some ts

/-- What an archive that answers `true` has done: it found the first record with the id, and added
    a line for the entity of its content to the note of HEAD. -/
theorem doesAlone_archiveEntry (id : ℤ) :
    DoesAlone i (fun r w' => r = .ok true → ∃ record update head,
      (recordsAt (notesOf (w.machines i.machine).working) (w.machines i.machine).log).find?
        (fun r => r.id = id) = some record ∧
      StateUpdate record update ∧ (w.machines i.machine).head = some head ∧
      LineAdded (w.machines i.machine) (w'.machines i.machine) head (NoteJson.toLine update))
      (archiveEntry id) w := by
  refine DoesAlone.bind (doesAlone_notedCommits.mono ?_)
  rintro commits v ⟨hsame, hcommits⟩
  subst hsame
  refine DoesAlone.bind ((doesAlone_findRecord id commits).mono ?_)
  rintro (e | record) u ⟨hsame, hfound⟩
  · exact DoesAlone.ret fun h => by cases h
  subst hsame
  cases record with
  | none => exact DoesAlone.ret fun h => by cases h
  | some record =>
    have hfirst : (recordsAt (notesOf (u.machines i.machine).working)
        (u.machines i.machine).log).find? (fun r => r.id = id) = some record := by
      have h := hfound record rfl
      rcases hcommits with rfl | rfl
      · cases h
      · rwa [recordsAt_filter] at h
    -- The entry's own end of validity stays, else it is the clock.
    have hupdate : ∀ invalidAt : ℤ, (∀ ts ∈ record.invalidAt, invalidAt = ts) →
        DoesAlone i (fun r w' => r = .ok true → ∃ record update head,
          (recordsAt (notesOf (u.machines i.machine).working) (u.machines i.machine).log).find?
            (fun r => r.id = id) = some record ∧
          StateUpdate record update ∧ (u.machines i.machine).head = some head ∧
          LineAdded (u.machines i.machine) (w'.machines i.machine) head (NoteJson.toLine update))
          ((appendStateUpdate (recordToNote record) "archived" (some invalidAt) none).bind
            fun result => Prog.ret (result.map fun _ => true)) u := by
      intro invalidAt hkept
      refine DoesAlone.bind (DoesAlone.call (o := .nowMillis) fun now v hsame => ?_)
      rw [show v = u from hsame]
      refine DoesAlone.call (o := .nowSecs) fun createdAt v hsame => ?_
      rw [show v = u from hsame]
      refine (doesAlone_appendToGitNotes _).mono fun r w' h => DoesAlone.ret fun hok => ?_
      cases r with
      | error e => cases hok
      | ok out =>
        obtain ⟨head, hhead, hadded⟩ := h out rfl
        exact ⟨record, _, head, hfirst, ⟨⟨_, _, _, rfl⟩, fun ts hts =>
          congrArg some (hkept ts hts)⟩, hhead, hadded⟩
    dsimp only
    split
    · next ts hts =>
      exact hupdate ts fun ts' hts' => Option.some.inj (hts.symm.trans hts')
    · next hnone =>
      refine DoesAlone.call (o := .nowSecs) fun now v hsame => ?_
      rw [show v = u from hsame]
      refine hupdate now fun ts hts => ?_
      rw [show record.invalidAt = none from hnone] at hts
      cases hts

/-! ### The promise -/

/-- What readers of a clone are answered. -/
def Machine.repo (x : Machine M R) : NotesRepo :=
  repoOf x.working x.log

/-- The log starts with HEAD and has every commit once. -/
structure Machine.HeadFirst (x : Machine M R) : Prop where
  first : x.log.head? = x.head
  nodup : x.log.Nodup

/-- What an archive that has taken `x` to `x'` promises, where the look-up of its id had answered
    `shown`. -/
structure ArchiveKept (x x' : Machine M R) (shown : Option NoteRecord) : Prop where
  /-- The entity that was shown is archived. -/
  archived : ∀ s ∈ shown, ∃ r, entityRecord x'.repo s.resolveEntityId = .ok (some r) ∧
    r.status = "archived"
  /-- A listing has what it would have of the other entities alone. -/
  unlisted : ∀ s ∈ shown, ∀ kindFilter limit folded, foldedRecords x'.repo = .ok folded →
    listNotes x'.repo kindFilter limit false none =
      .ok (collect kindFilter false none (min limit gitNotesMaxList)
        (folded.filter fun r => r.resolveEntityId ≠ s.resolveEntityId))
  /-- Every other entity is seen as before. -/
  others : ∀ entity, (∀ s ∈ shown, s.resolveEntityId ≠ entity) →
    entityRecord x'.repo entity = entityRecord x.repo entity
  /-- The lines that were there are there, in their order. -/
  lines : ∀ object, (notesOf x.working).linesAt object <+: (notesOf x'.working).linesAt object
  /-- No later append or merge makes the entity active again. -/
  lasting : ∀ s ∈ shown, ∀ later, LaterLog x'.working later → ∀ log, x'.log ⊆ log →
    ∀ folded, foldedRecords (repoOf later log) = .ok folded →
      ∃ r ∈ folded, r.resolveEntityId = s.resolveEntityId ∧ r.status = "archived"

/-- The line that was found has the content of the entity that was shown. -/
def ReachesShown (shown : Option NoteRecord) (record : NoteRecord) : Prop :=
  ∃ s ∈ shown, s.resolveEntityId = (recordToNote record).entityId

/-- The records of a log with more of them behind those of its newest commit. -/
def recordsWith (tree : NotesTree) (log : List String) (added : List NoteRecord) :
    List NoteRecord :=
  recordsAt tree (log.take 1) ++ added ++ recordsAt tree (log.drop 1)

/-- The state update is for another entity but makes no difference: what was shown was archived
    already, and that other entity is seen as before. -/
structure Unnoticed (x : Machine M R) (shown : Option NoteRecord) (update : NoteRecord) :
    Prop where
  archived : ∀ s ∈ shown, s.status = "archived"
  seen : foldGroup (copiesOf update.resolveEntityId
      (recordsWith (notesOf x.working) x.log [update])) =
    foldGroup (copiesOf update.resolveEntityId (recordsAt (notesOf x.working) x.log))

omit [Git] [Sha256] in
theorem recordsWith_nil (tree : NotesTree) (log : List String) :
    recordsWith tree log [] = recordsAt tree log := by
  rw [recordsWith, List.append_nil, ← recordsAt_append, List.take_append_drop]

omit [Git] in
theorem copiesOf_recordsWith (entity : String) (tree : NotesTree) (log : List String)
    (added : List NoteRecord) : copiesOf entity (recordsWith tree log added) =
      copiesOf entity (recordsAt tree (log.take 1)) ++ copiesOf entity added ++
        copiesOf entity (recordsAt tree (log.drop 1)) := by
  rw [recordsWith, copiesOf_append, copiesOf_append]

omit [Git] in
/-- An entity that the update is not for has the same copies. -/
theorem copiesOf_recordsWith_of_ne {entity : String} {tree : NotesTree} {log : List String}
    {update : NoteRecord} (h : update.resolveEntityId ≠ entity) :
    copiesOf entity (recordsWith tree log [update]) = copiesOf entity (recordsAt tree log) := by
  have hnone : copiesOf entity [update] = [] := by
    rw [copiesOf, List.filter_cons_of_neg (by simpa using h), List.filter_nil]
  rw [← recordsWith_nil, copiesOf_recordsWith, copiesOf_recordsWith, hnone]
  rfl

omit [DecidableEq M] [DecidableEq R] [Sha256] [NoteJson] in
/-- The lines of every note after a write. -/
theorem LineAdded.linesAt (hgit : Git.Documented) {x x' : Machine M R} {head line : String}
    (h : LineAdded x x' head line) (hline : CleanLine line) (object : String) :
    (notesOf x'.working).linesAt object = (notesOf x.working).linesAt object ++
      if object = head then [line] else [] := by
  obtain ⟨stamp, hworking⟩ := h.working
  have htree : notesOf x'.working = (notesOf x.working).set head (Git.stripspace
      (appendLine ((notesOf x.working).note head) line)) := by
    rw [hworking]
    exact tree_notedRef stamp head _ x.working
  rw [htree, NotesTree.linesAt_set]
  split_ifs with hobject
  · rw [hobject, hgit.stripspace_lines, noteLines_appendLine hline]
    rfl
  · rw [List.append_nil]

omit [DecidableEq M] [DecidableEq R] [Sha256] in
/-- The records of the log after a write to the note of HEAD. -/
theorem LineAdded.records (hgit : Git.Documented) {x x' : Machine M R} {head line : String}
    (h : LineAdded x x' head line) (hline : CleanLine line) (hlog : x.HeadFirst)
    (hhead : x.head = some head) {record : NoteRecord} (hread : NoteJson.ofLine line = some record) :
    recordsAt (notesOf x'.working) x'.log =
      recordsWith (notesOf x.working) x.log [record] := by
  obtain ⟨rest, hcons⟩ : ∃ rest, x.log = head :: rest :=
    List.head?_eq_some_iff.1 (hlog.first.trans hhead)
  have hnodup := hlog.nodup
  rw [hcons, List.nodup_cons] at hnodup
  have hrest : rest.flatMap (notesOf x'.working).linesAt =
      rest.flatMap (notesOf x.working).linesAt := by
    refine List.flatMap_congr fun commit hcommit => ?_
    have hne : commit ≠ head := fun heq => hnodup.1 (heq ▸ hcommit)
    rw [h.linesAt hgit hline, if_neg hne, List.append_nil]
  rw [h.log, hcons, recordsWith, List.take_succ_cons, List.take_zero, List.drop_succ_cons,
    List.drop_zero, recordsAt, List.flatMap_cons, hrest, h.linesAt hgit hline, if_pos rfl,
    recordsAt, recordsAt, List.flatMap_singleton, List.filterMap_append, List.filterMap_append]
  congr 2
  rw [List.filterMap_cons_some ((parseSpelunkLine_of_cleanLine hline).trans hread),
    List.filterMap_nil]

omit [Git] in
/-- What a reader that gets an answer sees of one entity. -/
theorem entityRecord_repoOf {ref : Option NotesCommit} {log : List String}
    (h : ∀ r ∈ recordsAt (notesOf ref) log, r.schemaVersion ≤ 1) (entity : String) :
    entityRecord (repoOf ref log) entity =
      .ok (foldGroup (copiesOf entity (recordsAt (notesOf ref) log))) := by
  rw [entityRecord, foldedRecords_repoOf.2 ⟨h, rfl⟩, ← find?_foldRecords]
  rfl

omit [Git] in
/-- What the look-up of an id shows is the fold of an entity. -/
theorem shown_of_findFolded {ref : Option NotesCommit} {log : List String} {id : ℤ}
    {shown : Option NoteRecord} (h : findFolded (repoOf ref log) id = .ok shown) :
    (∀ r ∈ recordsAt (notesOf ref) log, r.schemaVersion ≤ 1) ∧ ∀ s ∈ shown,
      foldGroup (copiesOf s.resolveEntityId (recordsAt (notesOf ref) log)) = some s := by
  cases hfolded : foldedRecords (repoOf ref log) with
  | error e =>
    rw [findFolded, hfolded] at h
    cases h
  | ok folded =>
    obtain ⟨hread, rfl⟩ := foldedRecords_repoOf.1 hfolded
    rw [findFolded, hfolded] at h
    refine ⟨hread, fun s hs => ?_⟩
    have hfind := (Except.ok.inj h).trans hs
    exact (mem_foldRecords_iff _ _).1 (List.mem_of_find?_eq_some hfind)

omit [NoteJson] [Git] in
/-- What is archived is not in a listing. -/
theorem collect_eq_of_archived {records : List NoteRecord} {entity : String}
    (h : ∃ c ∈ copiesOf entity records, c.status = "archived") (kindFilter : Option String)
    (limit : ℕ) :
    collect kindFilter false none limit (foldRecords records) =
      collect kindFilter false none limit
        ((foldRecords records).filter fun r => r.resolveEntityId ≠ entity) := by
  have hactive : ∀ r ∈ foldRecords records, r.status ≠ "archived" → r.resolveEntityId ≠ entity := by
    rintro r hr hstatus rfl
    obtain ⟨r', hr', hstatus'⟩ := archived_iff.2 h
    rw [(mem_foldRecords_iff _ _).1 hr, Option.some.injEq] at hr'
    exact hstatus (hr' ▸ hstatus')
  simp only [collect, List.filter_filter]
  have hkept : (foldRecords records).filter (fun r => decide ((kindFilter = none ∨
        kindFilter = some r.kind) ∧ recordInWindow r false none = true)) =
      (foldRecords records).filter (fun r => decide ((kindFilter = none ∨
        kindFilter = some r.kind) ∧ recordInWindow r false none = true) &&
        decide (r.resolveEntityId ≠ entity)) := by
    refine List.filter_congr fun r hr => ?_
    by_cases hwindow : (kindFilter = none ∨ kindFilter = some r.kind) ∧
        recordInWindow r false none = true
    · have hstatus : r.status ≠ "archived" := by
        have h := hwindow.2
        simpa [recordInWindow] using h
      rw [decide_eq_true hwindow, decide_eq_true (hactive r hr hstatus)]
      rfl
    · rw [decide_eq_false hwindow]
      rfl
  rw [hkept]

/-! ### The law -/

/-- An archive of what was found under `id` in `x`, by a line on HEAD's note. -/
structure ArchivedLine (id : ℤ) (x x' : Machine M R) (record update : NoteRecord) : Prop where
  found : (recordsAt (notesOf x.working) x.log).find? (fun r => r.id = id) = some record
  made : StateUpdate record update
  records : recordsAt (notesOf x'.working) x'.log =
    recordsWith (notesOf x.working) x.log [update]
  lines : ∀ object, (notesOf x.working).linesAt object <+: (notesOf x'.working).linesAt object
  grown : ∀ c ∈ x'.working, c.Grown

section Law

variable {id : ℤ} {x x' : Machine M R} {shown : Option NoteRecord} {record update : NoteRecord}

omit [DecidableEq M] [DecidableEq R] [Git] [NoteJson] in
theorem StateUpdate.resolveEntityId (h : StateUpdate record update) :
    update.resolveEntityId = (recordToNote record).entityId := by
  obtain ⟨_, _, _, rfl⟩ := h.made
  rfl

omit [DecidableEq M] [DecidableEq R] [Git] in
/-- The update is a record that every reader knows. -/
theorem ArchivedLine.readable (h : ArchivedLine id x x' record update)
    (hread : ∀ r ∈ recordsAt (notesOf x.working) x.log, r.schemaVersion ≤ 1) :
    ∀ r ∈ recordsAt (notesOf x'.working) x'.log, r.schemaVersion ≤ 1 := by
  intro r hr
  rw [h.records, recordsWith, List.mem_append, List.mem_append, List.mem_singleton] at hr
  rw [← recordsWith_nil, recordsWith, List.append_nil] at hread
  rcases hr with (hr | rfl) | hr
  · exact hread r (List.mem_append_left _ hr)
  · obtain ⟨_, _, _, rfl⟩ := h.made.made
    exact le_rfl
  · exact hread r (List.mem_append_right _ hr)

omit [DecidableEq M] [DecidableEq R] [Git] in
/-- The entity the update is for has an archived copy. -/
theorem ArchivedLine.archived (h : ArchivedLine id x x' record update) :
    ∃ c ∈ copiesOf update.resolveEntityId (recordsAt (notesOf x'.working) x'.log),
      c.status = "archived" := by
  refine ⟨update, mem_copiesOf.2 ⟨?_, rfl⟩, ?_⟩
  · rw [h.records, recordsWith]
    exact List.mem_append_left _ (List.mem_append_right _ (List.mem_singleton_self update))
  · obtain ⟨_, _, _, rfl⟩ := h.made.made
    rfl

omit [DecidableEq M] [DecidableEq R] [Git] in
theorem ArchivedLine.others (h : ArchivedLine id x x' record update) {entity : String}
    (hne : update.resolveEntityId ≠ entity) :
    copiesOf entity (recordsAt (notesOf x'.working) x'.log) =
      copiesOf entity (recordsAt (notesOf x.working) x.log) := by
  rw [h.records, copiesOf_recordsWith_of_ne hne]

omit [DecidableEq M] [DecidableEq R] in
/-- Once the entity that was shown has an archived copy and the others are seen as before, the
    promise is kept. -/
theorem archiveKept_of_copies (hgit : Git.Documented) (h : ArchivedLine id x x' record update)
    (hread : ∀ r ∈ recordsAt (notesOf x.working) x.log, r.schemaVersion ≤ 1)
    (harchived : ∀ s ∈ shown, ∃ c ∈ copiesOf s.resolveEntityId
      (recordsAt (notesOf x'.working) x'.log), c.status = "archived")
    (hothers : ∀ entity, (∀ s ∈ shown, s.resolveEntityId ≠ entity) →
      foldGroup (copiesOf entity (recordsAt (notesOf x'.working) x'.log)) =
        foldGroup (copiesOf entity (recordsAt (notesOf x.working) x.log))) :
    ArchiveKept x x' shown where
  archived s hs := by
    obtain ⟨r, hr, hstatus⟩ := archived_iff.2 (harchived s hs)
    exact ⟨r, (entityRecord_repoOf (h.readable hread) _).trans (congrArg Except.ok hr), hstatus⟩
  unlisted s hs kindFilter limit folded hfolded := by
    obtain ⟨-, rfl⟩ := foldedRecords_repoOf.1 hfolded
    rw [listNotes, hfolded, ← collect_eq_of_archived (harchived s hs)]
    rfl
  others entity hentity := by
    rw [Machine.repo, Machine.repo, entityRecord_repoOf (h.readable hread),
      entityRecord_repoOf hread, hothers entity hentity]
  lines := h.lines
  lasting s hs later hlater log hlog folded hfolded :=
    archived_later hgit h.grown hlater hlog (harchived s hs) hfolded

omit [DecidableEq M] [DecidableEq R] in
/-- The promise is kept if the update is for the entity that was shown, or makes no difference. -/
theorem archiveKept_of_reaches (hgit : Git.Documented) (h : ArchivedLine id x x' record update)
    (hget : findFolded x.repo id = .ok shown)
    (hcase : ReachesShown shown record ∨ Unnoticed x shown update) : ArchiveKept x x' shown := by
  obtain ⟨hread, hshown⟩ := shown_of_findFolded hget
  have hkey := h.made.resolveEntityId
  rcases hcase with ⟨s, hs, hreach⟩ | hsame
  · refine archiveKept_of_copies hgit h hread (fun s' hs' => ?_) fun entity hentity => ?_
    · rw [Option.mem_unique hs' hs, hreach, ← hkey]
      exact h.archived
    · rw [h.others]
      rw [hkey, ← hreach]
      exact hentity s hs
  · refine archiveKept_of_copies hgit h hread (fun s hs => ?_) fun entity hentity => ?_
    · by_cases hreach : update.resolveEntityId = s.resolveEntityId
      · rw [← hreach]
        exact h.archived
      · rw [h.others hreach]
        exact archived_iff.1 ⟨s, hshown s hs, hsame.archived s hs⟩
    · by_cases hreach : update.resolveEntityId = entity
      · rw [← hreach, h.records]
        exact hsame.seen
      · rw [h.others hreach]

omit [DecidableEq M] [DecidableEq R] in
/-- A promise that is kept was about the entity the update is for, or about nothing. -/
theorem reaches_of_archiveKept (h : ArchivedLine id x x' record update)
    (hget : findFolded x.repo id = .ok shown) (hkept : ArchiveKept x x' shown) :
    ReachesShown shown record ∨ Unnoticed x shown update := by
  obtain ⟨hread, hshown⟩ := shown_of_findFolded hget
  have hkey := h.made.resolveEntityId
  by_cases hreach : ReachesShown shown record
  · exact Or.inl hreach
  have hne : ∀ s ∈ shown, s.resolveEntityId ≠ update.resolveEntityId :=
    fun s hs heq => hreach ⟨s, hs, heq.trans hkey⟩
  refine Or.inr ⟨fun s hs => ?_, ?_⟩
  · obtain ⟨r, hr, hstatus⟩ := hkept.archived s hs
    rw [Machine.repo, entityRecord_repoOf (h.readable hread), h.others (hne s hs).symm,
      hshown s hs, Except.ok.injEq, Option.some.injEq] at hr
    rw [hr]
    exact hstatus
  · have hseen := hkept.others update.resolveEntityId hne
    rw [Machine.repo, Machine.repo, entityRecord_repoOf (h.readable hread),
      entityRecord_repoOf hread, Except.ok.injEq, h.records] at hseen
    exact hseen

end Law

variable {id : ℤ} {w' : World M R} {events : List (CarrierEvent M R)}

/-- What an archive that answers `true` has done to its clone. -/
theorem archivedLine_of_run (hgit : Git.Documented)
    (hline : ∀ record : NoteRecord, CleanLine (NoteJson.toLine record))
    (hread : ∀ record : NoteRecord, NoteJson.ofLine (NoteJson.toLine record) = some record)
    (hlog : (w.machines i.machine).HeadFirst)
    (hgrown : ∀ c ∈ (w.machines i.machine).working, c.Grown)
    (hrun : Alone (carrierMachinery M R) (fun _ _ => True) i [] (archiveEntry id) w events
      (.ret (.ok true)) w') :
    ∃ record update,
      ArchivedLine id (w.machines i.machine) (w'.machines i.machine) record update := by
  obtain ⟨record, update, head, hfound, hupdate, hhead, hadded⟩ :=
    (doesAlone_archiveEntry id).ends hrun rfl
  refine ⟨record, update, hfound, hupdate,
    hadded.records hgit (hline update) hlog hhead (hread update), fun object => ?_, fun c hc => ?_⟩
  · rw [hadded.linesAt hgit (hline update)]
    exact List.prefix_append _ _
  · obtain ⟨stamp, hworking⟩ := hadded.working
    rw [hworking, Option.mem_some_iff] at hc
    rw [← hc]
    refine grown_notedRef hgit hgrown (fun line hl => ?_) stamp
    rw [noteLines_appendLine (hline update)]
    exact List.mem_append_left _ hl

theorem undisturbed_findRecord {commits : List String} {record : NoteRecord}
    (hfound : (recordsAt (notesOf (w.machines i.machine).working) commits).find?
      (fun r => r.id = id) = some record) (hist : List (CarrierEvent M R)) :
    Undisturbed (fun _ _ => True) i hist (findRecord id commits) w (.ret (.ok (some record))) w := by
  induction commits generalizing hist with
  | nil => cases hfound
  | cons commit rest ih =>
    refine Undisturbed.bind (p := readNoteBodyWithRetry commit) (v := w)
      (a := .ok ((notesOf (w.machines i.machine).working).note commit)) ?_ fun hist => ?_
    · exact Undisturbed.call (o := .showNote commit) (some _) ⟨rfl, rfl⟩ trivial
        (Undisturbed.refl _)
    rw [recordsAt_cons, List.find?_append, ← findSome?_filter] at hfound
    dsimp only
    cases hhere : (lines (((notesOf (w.machines i.machine).working).note commit).getD "")).findSome?
        fun line => (parseSpelunkLine line).filter fun r => r.id = id with
    | some r =>
      rw [hhere] at hfound
      rw [show r = record from Option.some.inj hfound]
      exact Undisturbed.refl _
    | none =>
      rw [hhere] at hfound
      exact ih hfound hist

/-- An archive of an entry that is there answers `true`, if nobody holds the lock. -/
theorem undisturbed_archiveEntry (hlock : (w.machines i.machine).lock = none) {head : String}
    (hhead : (w.machines i.machine).head = some head) {record : NoteRecord}
    (hfound : (recordsAt (notesOf (w.machines i.machine).working) (w.machines i.machine).log).find?
      (fun r => r.id = id) = some record) (hinvalid : record.invalidAt = none) (now : ℤ)
    (stamp : String) :
    Undisturbed (fun _ _ => True) i [] (archiveEntry id) w (.ret (.ok true))
      (w.setMachine i.machine ((w.machines i.machine).appended stamp head (NoteJson.toLine
        ((recordToNote record).stateUpdate now now "archived" (some now) none)))) := by
  have htree : notesOf (w.machines i.machine).working ≠ [] := by
    intro hnil
    have hnotes : (w.machines i.machine).log.filterMap (NotesTree.note []) = [] :=
      List.filterMap_eq_nil_iff.2 fun _ _ => rfl
    have hnone : recordsAt [] (w.machines i.machine).log = [] := by
      rw [recordsAt_eq, hnotes, List.flatMap_nil]
    rw [hnil, hnone] at hfound
    cases hfound
  refine Undisturbed.bind (p := notedCommitsProg) (v := w)
    (a := (w.machines i.machine).log.filter fun commit =>
      ((notesOf (w.machines i.machine).working).note commit).isSome) ?_ fun hist => ?_
  · refine Undisturbed.call (o := .listNotes) (some _) ⟨rfl, rfl⟩ trivial ?_
    show Undisturbed _ i _ (ite _ _ _) _ _ _
    rw [if_neg htree]
    exact Undisturbed.call (o := .logHead) (some _) ⟨rfl, rfl⟩ trivial (Undisturbed.refl _)
  refine Undisturbed.bind (p := findRecord id _) (v := w)
    (undisturbed_findRecord (by rw [recordsAt_filter]; exact hfound) hist) fun hist => ?_
  dsimp only
  split
  · next ts hts =>
    rw [show record.invalidAt = some ts from hts] at hinvalid
    cases hinvalid
  refine Undisturbed.call (o := .nowSecs) now rfl trivial ?_
  refine Undisturbed.bind (p := appendStateUpdate _ _ _ _) (a := .ok ⟨false⟩) ?_ fun hist =>
    Undisturbed.refl _
  refine Undisturbed.call (o := .nowMillis) now rfl trivial ?_
  refine Undisturbed.call (o := .nowSecs) now rfl trivial ?_
  obtain ⟨events, happend⟩ := undisturbed_appendToGitNotes hlock hhead
    ((recordToNote record).stateUpdate now now "archived" (some now) none) stamp
  exact ⟨events, happend.unguarded _⟩

end Writers

section Runs

local instance : Git := catSortUniqGit

noncomputable local instance : NoteJson := recordJsonLibrary

local instance : Sha256 := workedSha256

/-- An entry, in a line from before identities were written. -/
def oldEntry (title : String) (id createdAt : ℤ) : NoteRecord where
  schemaVersion := 1
  id := id
  kind := "note"
  title := title
  body := "text"
  tags := []
  linkedFiles := []
  createdAt := createdAt
  status := "active"
  sourceRef := none
  validAt := none
  invalidAt := none
  supersededBy := none
  remoteId := none
  entityId := none
  supersededByEntityId := none

/-- Two machines have recorded the axum entry, and a third another one under the id of the later
    copy. Each line is the note of its own commit, HEAD's the newest. -/
def sharedIds : World Unit Unit where
  machines := fun _ =>
    { working := some (.root "start" [("c3", recordJson (oldEntry "axum" 1 20)),
        ("c2", recordJson (oldEntry "serde" 1 10)), ("c1", recordJson (oldEntry "axum" 7 5))])
      tracking := none, lock := none, head := some "c3", log := ["c3", "c2", "c1"]
      url := fun _ => none, store := LocalStore.absent }
  sites := fun _ => none

theorem recordsAt_sharedIds :
    recordsAt (notesOf (sharedIds.machines ()).working) (sharedIds.machines ()).log =
      [oldEntry "axum" 1 20, oldEntry "serde" 1 10, oldEntry "axum" 7 5] := by
  have hline : ∀ r : NoteRecord, (noteLines (recordJson r)).filterMap parseSpelunkLine = [r] := by
    intro r
    rw [noteLines_of_noteLine (cleanLine_recordJson r).noteLine, List.filterMap_cons_some
      ((parseSpelunkLine_of_cleanLine (cleanLine_recordJson r)).trans (ofLine_recordJson r)),
      List.filterMap_nil]
  rw [recordsAt_eq]
  show [recordJson (oldEntry "axum" 1 20), recordJson (oldEntry "serde" 1 10),
    recordJson (oldEntry "axum" 7 5)].flatMap _ = _
  rw [List.flatMap_cons, List.flatMap_cons, List.flatMap_cons, hline, hline, hline]
  rfl

/-- The axum entry has the id of its first copy; the other one is alone with its id. -/
theorem foldRecords_sharedIds :
    foldRecords [oldEntry "axum" 1 20, oldEntry "serde" 1 10, oldEntry "axum" 7 5] =
      [oldEntry "axum" 7 5, oldEntry "serde" 1 10] := by
  decide +kernel

theorem findFolded_sharedIds (id : ℤ) : findFolded (sharedIds.machines ()).repo id =
    .ok ([oldEntry "axum" 7 5, oldEntry "serde" 1 10].find? fun r => r.id = id) := by
  have hread : ∀ r ∈ recordsAt (notesOf (sharedIds.machines ()).working)
      (sharedIds.machines ()).log, r.schemaVersion ≤ 1 := by
    rw [recordsAt_sharedIds]
    decide
  rw [findFolded, Machine.repo, foldedRecords_repoOf.2 ⟨hread, rfl⟩, recordsAt_sharedIds,
    foldRecords_sharedIds]
  rfl

theorem headFirst_sharedIds : (sharedIds.machines ()).HeadFirst :=
  ⟨rfl, by decide⟩

theorem grown_sharedIds : ∀ c ∈ (sharedIds.machines ()).working, c.Grown := by
  intro c hc
  rw [← Option.mem_some_iff.1 hc]
  trivial

end Runs

end Spelunk
