import Spelunk.Theory.CarrierBounds

/-!
# Writers, Merge and Publish among Others

Every writer by itself, with the other processes doing anything their bounds
allow: it takes the lock, reads the note, writes it back with one more line and
drops the lock, or it gives up and has written nothing. While it holds the lock
the ref cannot move, so what it read is what it writes back. The merge and the
publish write no line of their own.

## Main definitions

* `Does`: What a program does among others, where no write is made without the lock.
* `Secured`: A process that holds the lock, or is not going to write.
* `noted`: The lines a process has written.
* `CarrierOp.Inert`, `SameReads`: Calls that leave no trace in what a process has
  read and written.

## Theorems

* `does_writeLine`: A write adds its line.
* `does_withWriterLock`: The lock is held throughout or the writer gives up.
* `does_appendToGitNotes`, `does_gitNotesAdd`, `does_archiveEntry`: The writers.
* `does_mergeTrackingNotes`, `does_publishNotes`: The merge and the publish.
-/

namespace Spelunk

open Lib (Prog Wp)

section Writers

variable [Git] [NoteJson] [Sha256] {M R : Type} [DecidableEq M] [DecidableEq R]

/-- What a program of `i` does among others, where no write is made without
    the lock. -/
abbrev Does {α : Type} (i : ProcessId M)
    (post : α → List (CarrierEvent M R) → World M R → Prop) (hist : List (CarrierEvent M R))
    (p : CarrierProg α) (w : World M R) : Prop :=
  Wp (carrierMachinery M R) LockedWrites (carrierBounds M R) i post hist p w

/-- The lines a process has written, with the commits whose notes they are in. -/
def noted (hist : List (CarrierEvent M R)) : List (String × String) :=
  hist.filterMap wrote

variable {i : ProcessId M} {α : Type} {post : α → List (CarrierEvent M R) → World M R → Prop}
  {hist : List (CarrierEvent M R)} {w : World M R}

omit [Git] [NoteJson] [Sha256] [DecidableEq M] [DecidableEq R] in
theorem noted_concat_of_quiet {e : CarrierEvent M R} (h : e.op.Quiet) :
    noted (hist ++ [e]) = noted hist := by
  rw [noted, List.filterMap_append, List.filterMap_cons_none (wrote_of_quiet h), List.filterMap_nil,
    List.append_nil, noted]

omit [Git] [NoteJson] [Sha256] [DecidableEq M] [DecidableEq R] in
theorem noted_concat {e : CarrierEvent M R} {x : String × String} (h : wrote e = some x) :
    noted (hist ++ [e]) = noted hist ++ [x] := by
  rw [noted, List.filterMap_append, List.filterMap_cons_some h, List.filterMap_nil, noted]

omit [Git] [NoteJson] [Sha256] [DecidableEq M] [DecidableEq R] in
/-- A write has written the last line of its text. -/
theorem noted_concat_addNote {object body line : String} {before : List String}
    (h : noteLines body = before ++ [line]) (v w : World M R) :
    noted (hist ++ [⟨i, .addNote object body, true, v, w⟩]) = noted hist ++ [(object, line)] := by
  have hlast : some (object, (noteLines body).getLast?.getD "") = some (object, line) := by
    rw [h, List.getLast?_concat, Option.getD_some]
  exact noted_concat (e := (⟨i, .addNote object body, true, v, w⟩ : CarrierEvent M R)) hlast

/-- Calls that leave no trace in what a process has read and written. -/
def CarrierOp.Inert : CarrierOp → Prop
  | .addNote _ _ => False
  | .listNotes => False
  | .logHead => False
  | .store .contents => False
  | _ => True

/-- Nothing was read or written in between. -/
structure SameReads (hist hist' : List (CarrierEvent M R)) : Prop where
  noted : noted hist' = noted hist
  listed : hist'.filterMap listedTree = hist.filterMap listedTree
  log : hist'.filterMap readLog = hist.filterMap readLog
  contents : hist'.filterMap readContents = hist.filterMap readContents

section SameReads

omit [Git] [NoteJson] [Sha256] [DecidableEq M] [DecidableEq R]

theorem SameReads.refl (hist : List (CarrierEvent M R)) : SameReads hist hist :=
  ⟨rfl, rfl, rfl, rfl⟩

theorem SameReads.trans {hist hist' hist'' : List (CarrierEvent M R)} (h : SameReads hist hist')
    (h' : SameReads hist' hist'') : SameReads hist hist'' :=
  ⟨h'.noted.trans h.noted, h'.listed.trans h.listed, h'.log.trans h.log,
    h'.contents.trans h.contents⟩

theorem SameReads.concat {e : CarrierEvent M R} (h : e.op.Inert) :
    SameReads hist (hist ++ [e]) := by
  have hnone : wrote e = none ∧ listedTree e = none ∧ readLog e = none ∧ readContents e = none := by
    rcases e with ⟨i, op, res, w, w'⟩
    cases op
    case addNote | listNotes | logHead => exact absurd h id
    case store call =>
      cases call
      case contents => exact absurd h id
      all_goals exact ⟨rfl, rfl, rfl, rfl⟩
    all_goals exact ⟨rfl, rfl, rfl, rfl⟩
  rcases hnone with ⟨hwrote, hlisted, hlog, hcontents⟩
  constructor
  · rw [Spelunk.noted, List.filterMap_append, List.filterMap_cons_none hwrote, List.filterMap_nil,
      List.append_nil, Spelunk.noted]
  · rw [List.filterMap_append, List.filterMap_cons_none hlisted, List.filterMap_nil,
      List.append_nil]
  · rw [List.filterMap_append, List.filterMap_cons_none hlog, List.filterMap_nil, List.append_nil]
  · rw [List.filterMap_append, List.filterMap_cons_none hcontents, List.filterMap_nil,
      List.append_nil]

end SameReads

/-- A quiet call as it may happen among others: in the state `v` it finds, with its
    answer and the state it leaves. -/
structure Called (i : ProcessId M) (hist : List (CarrierEvent M R)) (w : World M R) (o : CarrierOp)
    (v : World M R) (r : o.Res) (w' : World M R) : Prop where
  le : w.Le v
  guarded : World.Guarded i w v
  grown : v.Grown
  exec : o.exec i v r w'
  locked : LockedWrites hist ⟨i, o, r, v, w'⟩
  noted : noted (hist ++ [⟨i, o, r, v, w'⟩]) = noted hist
  reads : o.Inert → SameReads hist (hist ++ [⟨i, o, r, v, w'⟩])

/-- A quiet call keeps its bound; what is left is the rest of the program. -/
theorem Does.quiet {o : CarrierOp} {k : o.Res → CarrierProg α} (ho : o.Quiet)
    (h : ∀ v r w', Called i hist w o v r w' →
      Does i post (hist ++ [⟨i, o, r, v, w'⟩]) (k r) w') :
    Does i post hist (.call o k) w :=
  fun v hrely hv r w' hexec hguard => ⟨guar_of_quiet (e := ⟨i, o, r, v, w'⟩) ho hv hexec hist,
    h v r w' ⟨hrely.1, hrely.2, hv, hexec, hguard, noted_concat_of_quiet ho,
      fun hinert => SameReads.concat hinert⟩⟩

/-- The process holds the lock, or it could not have one and is not going to write. -/
def Secured (i : ProcessId M) (hist : List (CarrierEvent M R)) (w : World M R) : Prop :=
  w.Holds i ∨ ∃ e ∈ hist, NoLock e

omit [Git] [NoteJson] [Sha256] [DecidableEq M] [DecidableEq R] in
theorem Secured.concat (h : Secured i hist w) {v : World M R} (hg : World.Guarded i w v)
    (e : CarrierEvent M R) : Secured i (hist ++ [e]) v := by
  rcases h with hholds | ⟨e', he', hno⟩
  · exact Or.inl (hg hholds).1
  · exact Or.inr ⟨e', List.mem_append_left _ he', hno⟩

/-- A read of the note answers what is there. -/
theorem does_readNoteBody (object : String) (attempts : Nat) :
    Does i (fun r hist' w' => noted hist' = noted hist ∧
        (Secured i hist w → Secured i hist' w') ∧ ∀ existing, r = .ok existing →
          existing = (notesOf (w'.machines i.machine).working).note object)
      hist (readNoteBody object attempts) w := by
  induction attempts generalizing hist w with
  | zero => exact ⟨rfl, id, fun _ h => absurd h (by simp)⟩
  | succ attempts ih =>
      refine Does.quiet (o := .showNote object) trivial (fun v r w' hcall => ?_)
      rcases r with _ | body
      · have hsame : w' = v := hcall.exec
        subst hsame
        refine ih.mono (fun _ _ _ h => ⟨h.1.trans hcall.noted, fun hsecured => ?_, h.2.2⟩)
        exact h.2.1 (hsecured.concat hcall.guarded _)
      · rcases hcall.exec with ⟨hbody, rfl⟩
        refine ⟨hcall.noted, fun hsecured => hsecured.concat hcall.guarded _, fun existing h => ?_⟩
        exact (Except.ok.inj h).symm.trans hbody

/-- What a writer that answered `r` has added: its lines, or nothing if it failed. -/
def Noted (hist hist' : List (CarrierEvent M R)) {ε β : Type} (lines : List (String × String)) :
    Except ε β → Prop
  | .ok _ => noted hist' = noted hist ++ lines
  | .error _ => noted hist' = noted hist

omit [Git] [NoteJson] [Sha256] [DecidableEq M] [DecidableEq R] in
theorem Noted.error {hist hist' : List (CarrierEvent M R)} {ε β : Type} {e : ε}
    {lines : List (String × String)} (h : noted hist' = noted hist) :
    Noted hist hist' lines (.error e : Except ε β) :=
  h

omit [Git] [NoteJson] [Sha256] [DecidableEq M] [DecidableEq R] in
/-- What came before and after a writer wrote nothing. -/
theorem Noted.frame {hist before after hist' : List (CarrierEvent M R)} {ε β : Type}
    {lines : List (String × String)} {r : Except ε β} (h : Noted before after lines r)
    (hbefore : noted before = noted hist) (hafter : noted hist' = noted after) :
    Noted hist hist' lines r := by
  cases r with
  | ok a => rw [Noted, hafter, show noted after = noted before ++ lines from h, hbefore]
  | error e => rw [Noted, hafter, show noted after = noted before from h, hbefore]

omit [Git] [NoteJson] [Sha256] [DecidableEq M] [DecidableEq R] in
theorem Noted.map {hist hist' : List (CarrierEvent M R)} {ε β γ : Type}
    {lines : List (String × String)} {r : Except ε β} (h : Noted hist hist' lines r) (f : β → γ) :
    Noted hist hist' lines (r.map f) := by
  cases r with
  | ok a => exact h
  | error e => exact h

/-- A writer adds its line, or nothing. -/
theorem does_writeLine (hgit : Git.Documented) {object line : String} (hline : CleanLine line)
    (hsecured : Secured i hist w) :
    Does i (fun r hist' _ => Noted hist hist' [(object, line)] r)
      hist (writeLine object line) w := by
  refine Wp.bind ((does_readNoteBody object noteReadAttempts).mono ?_)
  rintro (e | existing) hist' v ⟨hnoted, hv, hread⟩
  · exact hnoted
  intro u hrely hu done w' hexec hguard
  rcases hv hsecured with hv | ⟨e, he, hno⟩
  swap
  · exact absurd hno (hguard e he)
  -- Nothing has moved since the read.
  rcases hrely.2 hv with ⟨hu', hworking⟩
  have hexisting : existing = (notesOf (u.machines i.machine).working).note object := by
    rw [hworking]
    exact hread existing rfl
  cases done with
  | true =>
      rcases guar_addNote hgit hline hu hu' hexisting hexec hist' with ⟨hguar, _⟩
      refine ⟨hguar, ?_⟩
      show noted (hist' ++ _) = _
      rw [noted_concat_addNote (noteLines_appendLine hline existing)]
      exact congrArg (· ++ [(object, line)]) hnoted
  | false =>
      rw [show w' = u from hexec]
      refine ⟨⟨RefsOk.refl hu i, trivial, trivial⟩, ?_⟩
      show noted (hist' ++ _) = _
      rw [noted, List.filterMap_append, List.filterMap_cons_none rfl, List.filterMap_nil,
        List.append_nil]
      exact hnoted

/-- The guard of the lock goes out of scope. -/
theorem does_drop {lock : WriterLock} :
    Does i (fun _ hist' _ => noted hist' = noted hist) hist lock.drop w := by
  cases lock with
  | held =>
      exact Does.quiet (o := .dropLock) trivial (fun _ _ _ hcall => hcall.noted)
  | unlocked => exact rfl

/-- The lock is held throughout, or the writer gives up. -/
theorem does_withWriterLock {body : CarrierProg (Except AppendError Unit)}
    {Q : List (String × String) → Prop}
    (hbody : ∀ (hist : List (CarrierEvent M R)) (w : World M R), Secured i hist w →
      Does i (fun r hist' _ => ∃ lines, Q lines ∧ Noted hist hist' lines r) hist body w)
    (hQ : ∃ lines, Q lines) :
    Does i (fun r hist' _ => ∃ lines, Q lines ∧ Noted hist hist' lines r)
      hist (withWriterLock body) w := by
  rcases hQ with ⟨lines, hlines⟩
  refine Does.quiet (o := .lockNotes) trivial (fun v r w' hcall => ?_)
  -- The rest, once the lock is there or cannot be.
  have hrest : ∀ lock : WriterLock, Secured i (hist ++ [⟨i, .lockNotes, r, v, w'⟩]) w' →
      Does i (fun r hist' _ => ∃ lines, Q lines ∧ Noted hist hist' lines r)
        (hist ++ [⟨i, .lockNotes, r, v, w'⟩])
        (body.bind (fun result => lock.drop.bind (fun _ =>
          Prog.ret (result.map (fun _ => AppendOutcome.mk (lock = .unlocked)))))) w' := by
    intro lock hsecured
    refine Wp.bind ((hbody _ _ hsecured).mono ?_)
    rintro result hist' u ⟨lines, hQ, hresult⟩
    refine Wp.bind (does_drop.mono (fun _ hist'' _ hdrop => ⟨lines, hQ, ?_⟩))
    exact (hresult.frame hcall.noted hdrop).map _
  cases r with
  | acquired =>
      rcases hcall.exec with ⟨_, rfl⟩
      refine hrest .held (Or.inl ?_)
      rw [World.Holds, World.setMachine_self]
  | contended => exact ⟨lines, hlines, Noted.error hcall.noted⟩
  | unusable =>
      exact hrest .unlocked (Or.inr ⟨_, List.mem_append_right _ List.mem_cons_self, trivial⟩)
  | unresolved => exact ⟨lines, hlines, Noted.error hcall.noted⟩

/-- What a command that answered `out` has written. -/
def CarrierCmd.Noted : (cmd : CarrierCmd) → cmd.Out → List (String × String) → Prop
  | .append record, .ok _, lines => ∃ object, lines = [(object, NoteJson.toLine record)]
  | .add input, .ok (id, _), lines => ∃ object createdAt,
      lines = [(object, NoteJson.toLine (input.record id createdAt))]
  | .archive _, .ok true, lines => ∃ object base id createdAt invalidAt,
      lines = [(object, NoteJson.toLine
        (CarrierNote.stateUpdate base id createdAt "archived" (some invalidAt) none))]
  | _, _, lines => lines = []

section Commands

variable (hgit : Git.Documented) (hjson : ∀ record : NoteRecord, CleanLine (NoteJson.toLine record))

include hgit hjson

theorem does_appendToGitNotes (record : NoteRecord) :
    Does i (fun r hist' _ => ∃ lines, (∃ object, lines = [(object, NoteJson.toLine record)]) ∧
      Noted hist hist' lines r) hist (appendToGitNotes record) w := by
  refine does_withWriterLock (fun hist w hsecured => ?_) ⟨_, "", rfl⟩
  refine Does.quiet (o := .revParseHead) trivial (fun v r w' hcall => ?_)
  rcases r with _ | head
  · exact ⟨_, ⟨"", rfl⟩, Noted.error hcall.noted⟩
  · rcases hcall.exec with ⟨_, rfl⟩
    refine (does_writeLine hgit (hjson record) (hsecured.concat hcall.guarded _)).mono
      (fun r hist' v h => ?_)
    exact ⟨_, ⟨head, rfl⟩, h.frame hcall.noted rfl⟩

theorem does_appendRecord (object : String) (record : NoteRecord) :
    Does i (fun r hist' _ => ∃ lines, lines = [(object, NoteJson.toLine record)] ∧
      Noted hist hist' lines r) hist (appendRecord object record) w := by
  refine does_withWriterLock (fun hist w hsecured => ?_) ⟨_, rfl⟩
  exact (does_writeLine hgit (hjson record) hsecured).mono (fun r hist' v h => ⟨_, rfl, h⟩)

theorem does_gitNotesAdd (input : NoteInput) :
    Does i (fun r hist' _ => CarrierCmd.Noted (.add input) r (noted hist')) [] (gitNotesAdd input)
      w := by
  refine Does.quiet (o := .nowMillis) trivial (fun v id w' hid => ?_)
  refine Does.quiet (o := .nowSecs) trivial (fun v' createdAt w'' hcreated => ?_)
  refine Does.quiet (o := .revParseHead) trivial (fun v'' r w''' hhead => ?_)
  have hnothing := hhead.noted.trans (hcreated.noted.trans hid.noted)
  rcases r with _ | head
  · exact hnothing
  show Does i _ _ (Prog.bind (appendRecord head (input.record id createdAt)) _) _
  refine Wp.bind ((does_appendRecord hgit hjson head _).mono ?_)
  rintro (e | outcome) hist' v ⟨lines, rfl, h⟩
  · exact h.trans hnothing
  · exact ⟨head, createdAt, h.trans (congrArg (· ++ _) hnothing)⟩

omit hgit hjson in
theorem does_notedCommits :
    Does i (fun _ hist' _ => noted hist' = noted hist) hist notedCommitsProg w := by
  refine Does.quiet (o := .listNotes) trivial (fun v r w' hcall => ?_)
  rcases r with _ | tree
  · exact hcall.noted
  · show Does i _ _ (ite _ _ _) _
    split
    · exact hcall.noted
    · refine Does.quiet (o := .logHead) trivial (fun v' r' w'' hcall' => ?_)
      rcases r' with _ | log
      all_goals exact hcall'.noted.trans hcall.noted

omit hgit hjson in
theorem does_findRecord (id : Int) (commits : List String) :
    Does i (fun _ hist' _ => noted hist' = noted hist) hist (findRecord id commits) w := by
  induction commits generalizing hist w with
  | nil => exact rfl
  | cons commit rest ih =>
      refine Wp.bind ((does_readNoteBody commit noteReadAttempts).mono ?_)
      rintro (e | body) hist' v ⟨h, _⟩
      · exact h
      dsimp only
      split
      · exact h
      · exact ih.mono (fun _ _ _ h' => h'.trans h)

/-- A writer that has written nothing yet records the new state of an entry. -/
theorem does_appendStateUpdate (base : CarrierNote) (status : String) (invalidAt : Option Int)
    (superseding : Option String) (hnothing : noted hist = []) :
    Does i (fun r hist' _ => ∃ lines, (∃ object id createdAt, lines = [(object, NoteJson.toLine
        (base.stateUpdate id createdAt status invalidAt superseding))]) ∧ Noted [] hist' lines r)
      hist (appendStateUpdate base status invalidAt superseding) w := by
  refine Does.quiet (o := .nowMillis) trivial (fun v id w' hcall => ?_)
  refine Does.quiet (o := .nowSecs) trivial (fun v' createdAt w'' hcall' => ?_)
  refine (does_appendToGitNotes hgit hjson _).mono ?_
  rintro r hist' u ⟨lines, ⟨object, hlines⟩, hnoted⟩
  refine ⟨lines, ⟨object, id, createdAt, hlines⟩, hnoted.frame ?_ rfl⟩
  exact hcall'.noted.trans (hcall.noted.trans hnothing)

theorem does_archiveEntry (id : Int) :
    Does i (fun r hist' _ => CarrierCmd.Noted (.archive id) r (noted hist')) [] (archiveEntry id)
      w := by
  refine Wp.bind (does_notedCommits.mono (fun commits hist' v h => ?_))
  refine Wp.bind ((does_findRecord id commits).mono ?_)
  rintro (e | record) hist'' v' h'
  · exact h'.trans h
  rcases record with _ | record
  · exact h'.trans h
  have hupdate : ∀ (invalidAt : Int) (before : List (CarrierEvent M R)) (u : World M R),
      noted before = [] →
      Does i (fun r hist' _ => CarrierCmd.Noted (.archive id) r (noted hist')) before
        ((appendStateUpdate (recordToNote record) "archived" (some invalidAt) none).bind
          (fun result => Prog.ret (result.map (fun _ => true)))) u := by
    intro invalidAt before u hbefore
    refine Wp.bind ((does_appendStateUpdate hgit hjson _ _ _ _ hbefore).mono ?_)
    rintro (e | outcome) last v ⟨lines, ⟨object, stamp, createdAt, rfl⟩, hnoted⟩
    · exact hnoted
    · exact ⟨object, recordToNote record, stamp, createdAt, invalidAt, hnoted⟩
  -- The entry's own end of validity stays, else it is the clock.
  dsimp only
  split
  · exact hupdate _ _ _ (h'.trans h)
  · exact Does.quiet (o := .nowSecs) trivial (fun v now w' hcall =>
      hupdate now _ _ (hcall.noted.trans (h'.trans h)))

end Commands

/-- The merge holds the lock, or does nothing. -/
theorem does_mergeTrackingNotes (hgit : Git.Documented) :
    Does i (fun _ hist' _ => SameReads hist hist') hist mergeTrackingNotes w := by
  refine Does.quiet (o := .lockNotes) trivial (fun v r w' hcall => ?_)
  have hlocked := hcall.reads trivial
  cases r with
  | acquired =>
      rcases hcall.exec with ⟨_, rfl⟩
      intro u hrely hu done w'' hexec _
      have hholds : u.Holds i := by
        refine (hrely.2 ?_).1
        rw [World.Holds, World.setMachine_self]
      rcases guar_mergeNotes hgit hu hholds hexec _ with ⟨hguar, _⟩
      refine ⟨hguar, Does.quiet (o := .dropLock) trivial (fun _ _ _ hdrop => ?_)⟩
      refine hlocked.trans (SameReads.trans ?_ (hdrop.reads trivial))
      exact SameReads.concat trivial
  | contended => exact hlocked
  | unusable => exact hlocked
  | unresolved => exact hlocked

theorem does_publishAttempts (hgit : Git.Documented) (remote : String) (left attempt : Nat)
    (lastErr : String) :
    Does i (fun _ hist' _ => SameReads hist hist') hist
      (publishAttempts remote attempt lastErr left) w := by
  induction left generalizing attempt lastErr hist w with
  | zero => exact SameReads.refl _
  | succ left ih =>
      refine Does.quiet (o := .fetch remote) trivial (fun v r w' hfetch => ?_)
      refine Wp.bind (p := mergeTrackingNotes) ((does_mergeTrackingNotes hgit).mono
        (fun outcome hist' v' h => ?_))
      have hmerged := (hfetch.reads trivial).trans h
      cases outcome
      case lockUnavailable => exact hmerged
      -- a push follows, whether the merge was made or skipped
      all_goals
        refine Does.quiet (o := .push remote) trivial (fun u answer u' hpush => ?_)
        have hpushed := hmerged.trans (hpush.reads trivial)
        rcases answer with stderr | done
        · show Does i _ _ (ite _ _ _) _
          split
          · exact (ih _ _).mono (fun _ _ _ h' => hpushed.trans h')
          · exact hpushed
        · exact hpushed

/-- A publish writes no line of its own. -/
theorem does_publishNotes (hgit : Git.Documented) (remote : String) :
    Does i (fun _ hist' _ => SameReads hist hist') hist (publishNotes remote) w := by
  refine Does.quiet (o := .inNotesPush) trivial (fun v inside w' hinside => ?_)
  cases inside with
  | true => exact hinside.reads trivial
  | false =>
  refine Does.quiet (o := .verifyWorking) trivial (fun v' found w'' hverify => ?_)
  have hverified := (hinside.reads trivial).trans (hverify.reads trivial)
  cases found with
  | false => exact hverified
  | true =>
  refine Does.quiet (o := .getUrl remote) trivial (fun u named u' hget => ?_)
  have hnamed := hverified.trans (hget.reads trivial)
  cases named with
  | false => exact hnamed
  | true => exact (does_publishAttempts hgit remote _ _ _).mono (fun _ _ _ h => hnamed.trans h)

end Writers

end Spelunk
