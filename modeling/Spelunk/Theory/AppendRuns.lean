import Spelunk.Theory.CarrierAlone
import Spelunk.Theory.CarrierImport
import Spelunk.Theory.CarrierReaders
import Spelunk.Theory.CatSortUniq

/-!
# Appended Records Survive

Any number of processes append, add, archive and merge on the notes refs, in any
order of their calls, and every writer obtains the lock or gives up. What was on a
working ref stays there, a writer that answered success has written exactly its
line, and one that failed has written nothing.

How often a line is there is a matter of the merges. Without one, as often as it
was appended; a merge unites the copies of a line, and never makes more of them.

## Main definitions

* `Merged`: A merge that was made.
* `notedOn`: The lines written on one machine.
* `World.AllRefs`: A property of the notes of every ref.

## Theorems

* `lines_of_event`: What one call does to the lines of a working ref.
* `allRefs_of_event`: What one call does to all refs.
* `lines_kept`: Lines stay.
* `appended_records_survive`: All of it, over every run.
-/

namespace Spelunk

open Lib (Prog Run own)

section Events

variable [Git] [NoteJson] [Sha256] {M R : Type} [DecidableEq M] [DecidableEq R]

/-- The lines written on one machine. -/
def notedOn (m : M) (trace : List (CarrierEvent M R)) : List (String × String) :=
  trace.filterMap (fun e => if e.pid.machine = m then wrote e else none)

omit [NoteJson] in
/-- Only writes and merges move a working ref, and only on their machine. -/
theorem working_of_event {e : CarrierEvent M R} (hexec : e.op.exec e.pid e.before e.res e.after)
    {m : M} (h : e.pid.machine = m → wrote e = none ∧ ¬ Merged e) :
    (e.after.machines m).working = (e.before.machines m).working := by
  have hset : ∀ (w : World M R) (m' : M) (x : Machine M R),
      (m' = m → x.working = (w.machines m').working) →
      ((w.setMachine m' x).machines m).working = (w.machines m).working := by
    intro w m' x hx
    by_cases hm : m = m'
    · subst hm
      rw [World.setMachine_self]
      exact hx rfl
    · rw [World.setMachine_of_ne w hm]
  cases moves_of_exec hexec with
  | shifted x hafter hshift =>
      rw [hafter]
      exact hset _ _ x (fun _ => hshift.working)
  | noted i w object body stamp =>
      exact hset w _ _ (fun hm => absurd (h hm).1 (Option.some_ne_none _))
  | merged i w stamp => exact hset w _ _ (fun hm => absurd trivial (h hm).2)
  | pushed remote hpushed =>
      rcases hpushed with ⟨_, _, _, _, _, hafter⟩
      rw [hafter]
      rfl

omit [Git] [NoteJson] [Sha256] [DecidableEq M] [DecidableEq R] in
theorem exists_of_wrote {e : CarrierEvent M R} {object line : String}
    (h : wrote e = some (object, line)) :
    ∃ body, e = ⟨e.pid, .addNote object body, true, e.before, e.after⟩ ∧
      (noteLines body).getLast?.getD "" = line := by
  rcases e with ⟨i, op, res, w, w'⟩
  cases op
  case addNote object' body =>
    cases res with
    | false => exact absurd h (by simp [wrote])
    | true =>
        rcases Prod.mk.inj (Option.some.inj h) with ⟨rfl, hline⟩
        exact ⟨body, rfl, hline⟩
  all_goals exact absurd h (by simp [wrote])

omit [NoteJson] in
/-- A write adds its line to its note and leaves the other notes alone. -/
theorem lines_of_wrote (hgit : Git.Documented) {e : CarrierEvent M R}
    (hexec : e.op.exec e.pid e.before e.res e.after) (happends : Appends e)
    {object line : String} (hwrote : wrote e = some (object, line)) (other : String) :
    e.after.lines e.pid.machine other
      = if other = object then e.before.lines e.pid.machine object ++ [line]
        else e.before.lines e.pid.machine other := by
  rcases exists_of_wrote hwrote with ⟨body, he, hline⟩
  rw [he] at happends hexec
  rcases happends with ⟨l, hl, hbody⟩
  rcases hexec with ⟨stamp, hafter⟩
  have hlines : noteLines body = e.before.lines e.pid.machine object ++ [l] := by
    rw [hbody, noteLines_appendLine hl]
    rfl
  rw [hlines, List.getLast?_concat, Option.getD_some] at hline
  subst hline
  rw [World.lines, hafter, World.setMachine_self]
  show (World.notedRef stamp object body _).tree.linesAt other = _
  rw [tree_notedRef, NotesTree.linesAt_set, hgit.stripspace_lines, hlines]
  rfl

omit [Git] [NoteJson] [Sha256] [DecidableEq R] in
theorem notedOn_singleton (m : M) (e : CarrierEvent M R) :
    notedOn m [e] = if e.pid.machine = m then (wrote e).toList else [] := by
  by_cases hm : e.pid.machine = m
  · cases hwrote : wrote e <;> simp [notedOn, hm, hwrote]
  · simp [notedOn, hm]

omit [NoteJson] in
/-- How often a line is in a note after a call that is no merge. -/
theorem count_of_event (hgit : Git.Documented) {e : CarrierEvent M R}
    (hexec : e.op.exec e.pid e.before e.res e.after) (happends : Appends e) {m : M}
    (hmerged : e.pid.machine = m → ¬ Merged e) (object line : String) :
    (e.after.lines m object).count line = (e.before.lines m object).count line
      + (notedOn m [e]).count (object, line) := by
  rw [notedOn_singleton]
  by_cases hm : e.pid.machine = m
  · rw [if_pos hm]
    rcases hwrote : wrote e with _ | ⟨o, l⟩
    · rw [World.lines, World.lines, working_of_event hexec (fun h => ⟨hwrote, hmerged h⟩)]
      rfl
    · subst hm
      rw [lines_of_wrote hgit hexec happends hwrote, Option.toList_some, List.count_singleton]
      by_cases ho : object = o
      · subst ho
        rw [if_pos rfl, List.count_append, List.count_singleton]
        simp
      · have hne : ¬ (o, l) = (object, line) := fun h => ho (Prod.mk.inj h).1.symm
        rw [if_neg ho]
        simp [hne]
  · rw [if_neg hm, World.lines, World.lines, working_of_event hexec (fun h => absurd h hm)]
    rfl

/-- A property of the notes of every ref. -/
structure World.AllRefs (P : NotesTree → Prop) (w : World M R) : Prop where
  working : ∀ m, P (notesOf (w.machines m).working)
  tracking : ∀ m, P (notesOf (w.machines m).tracking)
  sites : ∀ s, P (notesOf (w.sites s))

omit [Git] [NoteJson] [Sha256] [DecidableEq R] in
theorem World.AllRefs.die {P : NotesTree → Prop} {w : World M R} (h : w.AllRefs P)
    (i : ProcessId M) : (w.die i).AllRefs P := by
  refine ⟨fun m => ?_, fun m => ?_, fun s => ?_⟩
  · rcases World.machines_die i w m with ⟨lock, hdie⟩
    rw [hdie]
    exact h.working m
  · rcases World.machines_die i w m with ⟨lock, hdie⟩
    rw [hdie]
    exact h.tracking m
  · rw [World.sites_die]
    exact h.sites s

omit [NoteJson] in
/-- What one call does to all refs: it copies them, or it writes or merges. -/
theorem allRefs_of_event {e : CarrierEvent M R} (hexec : e.op.exec e.pid e.before e.res e.after)
    {P Q : NotesTree → Prop} (hPQ : ∀ tree, P tree → Q tree)
    (hmoved : wrote e ≠ none ∨ Merged e → Q (notesOf (e.after.machines e.pid.machine).working))
    (h : e.before.AllRefs P) : e.after.AllRefs Q := by
  have hset : ∀ (w : World M R) (m : M) (x : Machine M R), w.AllRefs P →
      Q (notesOf x.working) → Q (notesOf x.tracking) → (w.setMachine m x).AllRefs Q :=
    fun w m x hw hworking htracking =>
      ⟨World.forall_setMachine (P := fun _ y => Q (notesOf y.working)) hworking
          (fun m => hPQ _ (hw.working m)),
        World.forall_setMachine (P := fun _ y => Q (notesOf y.tracking)) htracking
          (fun m => hPQ _ (hw.tracking m)), fun s => hPQ _ (hw.sites s)⟩
  cases moves_of_exec hexec with
  | shifted x hafter hshift =>
      rw [hafter]
      refine hset _ _ x h (hPQ _ (hshift.working ▸ h.working _)) (hPQ _ ?_)
      rcases hshift.tracking with hsame | ⟨s, hfetched⟩
      · exact hsame ▸ h.tracking _
      · exact hfetched ▸ h.sites s
  | noted i w object body stamp =>
      replace hmoved := hmoved (Or.inl (Option.some_ne_none _))
      rw [World.setMachine_self] at hmoved
      exact hset w _ _ h hmoved (hPQ _ (h.tracking _))
  | merged i w stamp =>
      replace hmoved := hmoved (Or.inr trivial)
      rw [World.setMachine_self] at hmoved
      exact hset w _ _ h hmoved (hPQ _ (h.tracking _))
  | pushed remote hpushed =>
      rcases hpushed with ⟨site, _, tip, htip, _, hafter⟩
      rw [hafter]
      refine ⟨fun m => hPQ _ (h.working m), fun m => hPQ _ (h.tracking m),
        World.forall_setSite (P := fun _ ref => Q (notesOf ref)) ?_ (fun s => hPQ _ (h.sites s))⟩
      exact hPQ _ (Option.mem_def.mp htip ▸ h.working e.pid.machine)

/-- No line of any note has white space at its end. -/
def World.Clean (w : World M R) : Prop :=
  w.AllRefs NotesTree.Clean

omit [NoteJson] in
/-- The working ref after a merge that was made. -/
theorem exists_of_merged {e : CarrierEvent M R} (hexec : e.op.exec e.pid e.before e.res e.after)
    (h : Merged e) : ∃ stamp, (e.after.machines e.pid.machine).working
      = World.mergedRef stamp (e.before.machines e.pid.machine).working
        (e.before.machines e.pid.machine).tracking := by
  rcases e with ⟨i, op, res, w, w'⟩
  cases op
  case mergeNotes =>
    cases res with
    | false => exact absurd h id
    | true =>
        rcases hexec with ⟨_, stamp, hafter⟩
        refine ⟨stamp, ?_⟩
        rw [hafter, World.setMachine_self]
  all_goals exact absurd h id

omit [NoteJson] in
/-- Notes stay clean. -/
theorem clean_of_event (hgit : Git.Documented) {e : CarrierEvent M R}
    (hexec : e.op.exec e.pid e.before e.res e.after) (happends : Appends e)
    (h : e.before.Clean) : e.after.Clean := by
  refine allRefs_of_event hexec (fun _ => id) (fun hmoved => ?_) h
  rcases hmoved with hwrote | hmerged
  · rcases Option.ne_none_iff_exists'.mp hwrote with ⟨⟨object, line⟩, hwrote⟩
    rcases exists_of_wrote hwrote with ⟨body, he, _⟩
    rw [he] at happends hexec
    rcases happends with ⟨l, hl, hbody⟩
    rcases hexec with ⟨stamp, hafter⟩
    rw [hafter, World.setMachine_self]
    show (World.notedRef stamp object body _).tree.Clean
    rw [tree_notedRef]
    refine clean_set (h.working _) (hgit.stripspace_clean body ?_)
    rw [hbody]
    exact cleanText_appendLine hl (h.working _ object)
  · rcases exists_of_merged hexec hmerged with ⟨stamp, hafter⟩
    rw [hafter]
    exact clean_mergedRef hgit (h.working _) (h.tracking _) stamp

omit [NoteJson] in
/-- A line is in no note more often than it was in one before, and once more where
    it was written. -/
theorem count_le_of_event (hgit : Git.Documented) {e : CarrierEvent M R}
    (hexec : e.op.exec e.pid e.before e.res e.after) (happends : Appends e)
    (hgrown : e.before.Grown) (hclean : e.before.Clean) {object line : String} {n : Nat}
    (h : e.before.AllRefs (fun tree => (tree.linesAt object).count line ≤ n)) :
    e.after.AllRefs (fun tree => (tree.linesAt object).count line
      ≤ n + (noted [e]).count (object, line)) := by
  refine allRefs_of_event hexec (fun _ hle => hle.trans (Nat.le_add_right _ _)) (fun hmoved => ?_) h
  by_cases hmerged : Merged e
  · rcases exists_of_merged hexec hmerged with ⟨stamp, hafter⟩
    rw [hafter]
    have hmax := count_mergedRef_le hgit (hgrown.working e.pid.machine)
      (hgrown.tracking e.pid.machine) (hclean.working _) (hclean.tracking _) stamp object line
    exact (hmax.trans (max_le (h.working _) (h.tracking _))).trans (Nat.le_add_right _ _)
  · have hcount := count_of_event hgit hexec happends (m := e.pid.machine) (fun _ => hmerged)
      object line
    have hnoted : notedOn e.pid.machine [e] = noted [e] := by
      rw [notedOn, noted, List.filterMap_congr]
      intro e' he'
      rw [List.mem_singleton.mp he', if_pos rfl]
    rw [hnoted] at hcount
    show (e.after.lines e.pid.machine object).count line ≤ _
    rw [hcount]
    exact Nat.add_le_add_right (h.working _) _

end Events

section Runs

variable [Git] [NoteJson] [Sha256] {M R : Type} [DecidableEq M] [DecidableEq R]

variable (hgit : Git.Documented) (hjson : ∀ record : NoteRecord, CleanLine (NoteJson.toLine record))
  {start c : CarrierConfig M R} (hstart : start.state.Grown) (hidle : ∀ i, start.procs i = .idle)
  {trace : List (CarrierEvent M R)}
  (hrun : Run (carrierMachinery M R) LockedWrites start trace c)

include hgit hjson hstart hidle hrun

/-- Refs have moved to descendants, from the start and from every call. -/
theorem refs_kept : start.state.Le c.state ∧
    ∀ e ∈ trace, start.state.Le e.before ∧ e.after.Le c.state := by
  rcases carrier_sound hgit hjson hstart hidle hrun with ⟨_, hevents, _⟩
  refine Run.le World.Le.refl (fun _ _ _ => World.Le.trans) World.le_die hrun (fun e he => ?_)
  rcases List.append_of_mem he with ⟨l, r, htrace⟩
  exact (hevents l e r htrace).2.1.1

/-- Lines stay. -/
theorem lines_kept {w : World M R} (h : w.Le c.state) (m : M) (object : String) :
    ∀ line ∈ w.lines m object, line ∈ c.state.lines m object :=
  (h.working m).sub ((carrier_sound hgit hjson hstart hidle hrun).1.working m) object

/-- What was written is on the ref. -/
theorem written_kept {e : CarrierEvent M R} (he : e ∈ trace) {object line : String}
    (hwrote : wrote e = some (object, line)) : line ∈ c.state.lines e.pid.machine object := by
  rcases carrier_sound hgit hjson hstart hidle hrun with ⟨_, hevents, _⟩
  rcases List.append_of_mem he with ⟨l, r, htrace⟩
  rcases Run.split hrun htrace with ⟨_, hexec, _⟩
  refine lines_kept hgit hjson hstart hidle hrun
    ((refs_kept hgit hjson hstart hidle hrun).2 e he).2 _ _ line ?_
  rw [lines_of_wrote hgit hexec (hevents l e r htrace).2.2.1 hwrote, if_pos rfl]
  exact List.mem_append_right _ List.mem_cons_self

/-- Without a merge a line is there as often as it was at the start and was written. -/
theorem count_kept {m : M} (hmerged : ∀ e ∈ trace, e.pid.machine = m → ¬ Merged e)
    (object line : String) :
    (c.state.lines m object).count line = (start.state.lines m object).count line
      + (notedOn m trace).count (object, line) := by
  rcases carrier_sound hgit hjson hstart hidle hrun with ⟨_, hevents, _⟩
  refine Run.invariant (J := fun l w => (w.lines m object).count line
    = (start.state.lines m object).count line + (notedOn m l).count (object, line)) hrun rfl ?_ ?_
  · intro l i w hw
    rw [← hw, ← World.lines_die i w]
    rfl
  · intro l e r htrace hbefore
    rcases Run.split hrun htrace with ⟨_, hexec, _⟩
    have hmem : e ∈ trace := htrace ▸ List.mem_append_right _ List.mem_cons_self
    have hsplit : notedOn m (l ++ [e]) = notedOn m l ++ notedOn m [e] := List.filterMap_append
    rw [count_of_event hgit hexec (hevents l e r htrace).2.2.1 (hmerged e hmem), hbefore, hsplit,
      List.count_append, Nat.add_assoc]

/-- No line is anywhere more often than it was at the start and was written. -/
theorem count_le_kept (hclean : start.state.Clean) {object line : String} {n : Nat}
    (hn : start.state.AllRefs (fun tree => (tree.linesAt object).count line ≤ n)) :
    c.state.AllRefs (fun tree => (tree.linesAt object).count line
      ≤ n + (noted trace).count (object, line)) := by
  rcases carrier_sound hgit hjson hstart hidle hrun with ⟨_, hevents, _⟩
  refine (Run.invariant (J := fun l w => w.Clean ∧ w.AllRefs (fun tree =>
    (tree.linesAt object).count line ≤ n + (noted l).count (object, line))) hrun
    ⟨hclean, hn⟩ (fun l i w hw => ⟨hw.1.die i, hw.2.die i⟩) ?_).2
  · intro l e r htrace hbefore
    rcases Run.split hrun htrace with ⟨_, hexec, _⟩
    rcases hevents l e r htrace with ⟨hgrown, _, happends, _⟩
    refine ⟨clean_of_event hgit hexec happends hbefore.1, ?_⟩
    have hcount := count_le_of_event hgit hexec happends hgrown hbefore.1 hbefore.2
    rw [noted, List.filterMap_append, List.count_append, ← Nat.add_assoc]
    exact hcount

end Runs

/-- The machinery on one machine, with the entry of an earlier example. -/
abbrev axumMachinery : Lib.Machinery (ProcessId Unit) (World Unit Unit) CarrierOp CarrierOp.Res
    CarrierCmd CarrierCmd.Out :=
  @carrierMachinery catSortUniqGit axumJson workedSha256 Unit Unit _ _

/-- What a teammate has written on the same commit. -/
def theirNotes : NotesCommit :=
  .root "theirs" [("c1", "reviewed")]

/-- A clone that has fetched a teammate's notes and has none itself. -/
def fetchedClone : CarrierConfig Unit Unit where
  state :=
    { machines := fun _ =>
        { working := none, tracking := some theirNotes, lock := none, head := some "c1",
          log := ["c1"], url := fun _ => none, store := LocalStore.absent }
      sites := fun _ => none }
  procs := fun _ => .idle

/-- The same record is appended twice, then the fetched notes are merged. -/
theorem append_twice_and_merge : ∃ trace c, Run axumMachinery LockedWrites fetchedClone trace c ∧
    c.procs ⟨(), 0⟩ = .running (.append (axumRecord 7 10 "active")) (.ret (.ok ⟨false⟩)) ∧
    c.procs ⟨(), 1⟩ = .running (.append (axumRecord 7 10 "active")) (.ret (.ok ⟨false⟩)) ∧
    ∃ ours, axumLine ∈ ours.tree.linesAt "c1" ∧ (c.state.machines ()).working
      = some (.merge "merge" (catSortUniq ours theirNotes) ours theirNotes) := by
  let _ : Git := catSortUniqGit
  let _ : NoteJson := axumJson
  let _ : Sha256 := workedSha256
  have hrefl : Run axumMachinery LockedWrites fetchedClone [] fetchedClone := .refl
  rcases Undisturbed.run (i := ⟨(), 0⟩) hrefl (.append (axumRecord 7 10 "active")) rfl
    (undisturbed_appendToGitNotes rfl rfl _ "first") with ⟨_, hone⟩
  rcases Undisturbed.run (i := ⟨(), 1⟩) hone (.append (axumRecord 7 10 "active")) rfl
    (undisturbed_appendToGitNotes rfl rfl _ "second") with ⟨_, htwo⟩
  rcases Undisturbed.run (i := ⟨(), 2⟩) htwo .merge rfl
    (undisturbed_mergeTrackingNotes [] rfl (Or.inr (Option.some_ne_none _)) "merge")
    with ⟨_, hmerge⟩
  let first := World.notedRef "first" "c1" (appendLine none axumLine) none
  let second := World.notedRef "second" "c1" (appendLine (first.tree.note "c1") axumLine) first
  refine ⟨_, _, hmerge, rfl, rfl, second, ?_, ?_⟩
  · show axumLine ∈ (World.notedRef "second" "c1" _ _).tree.linesAt "c1"
    rw [tree_notedRef, NotesTree.linesAt_set, if_pos rfl,
      catSortUniq_documented.stripspace_lines, noteLines_appendLine cleanLine_axumLine]
    exact List.mem_append_right _ List.mem_cons_self
  · show World.mergedRef "merge" (some second) (some theirNotes) = _
    have htheirs : ¬ NotesCommit.Reaches theirNotes second := by
      simp [NotesCommit.Reaches, second, first, theirNotes, World.notedRef]
    have hours : ¬ NotesCommit.Reaches second theirNotes := by
      simp [NotesCommit.Reaches, second, first, theirNotes, World.notedRef]
    rw [World.mergedRef, if_neg htheirs, if_neg hours]
    rfl

theorem grown_fetchedClone : fetchedClone.state.Grown := by
  refine ⟨fun _ c hc => absurd hc (by simp [fetchedClone]), fun _ c hc => ?_,
    fun _ c hc => absurd hc (by simp [fetchedClone])⟩
  rw [← Option.mem_some_iff.mp hc]
  trivial

theorem cleanLine_axumJson (record : NoteRecord) : CleanLine (@NoteJson.toLine axumJson record) := by
  show CleanLine (if record.status = "active" then axumLine else axumTombstone)
  split
  · exact cleanLine_axumLine
  · exact cleanLine_axumTombstone

end Spelunk
