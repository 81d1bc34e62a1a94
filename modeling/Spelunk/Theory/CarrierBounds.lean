import Spelunk.Core.CarrierCommands

/-!
# What a Call on the Carrier May Do

The bounds every command keeps. Refs only move to descendants; while a process
holds the lock nobody else moves its machine's working ref or takes the lock from
it; notes only gain lines, and a writer adds exactly its own. A writer that holds
the lock writes back what it read, because nothing has moved in between.

What git does by itself enters through `Git.Documented`.

## Main definitions

* `Git.Documented`: What is relied on of git.
* `World.Le`, `World.Grown`: Refs that moved to descendants; notes that only grew.
* `LockedWrites`: Every writer obtains the lock or gives up.
* `carrierBounds`: The bounds.

## Theorems

* `moves_of_exec`: What a call may do at all.
* `carrierBounds_fit`: The bounds fit together.
* `guar_of_quiet`: A call that is neither a write nor a merge keeps them.
* `guar_addNote`, `guar_mergeNotes`: Under the lock those do as well.
-/

namespace Spelunk

open Lib (Bounds Machinery Wp)

/-- What is relied on of git: the cleanup of a note's text changes no line, and a
    merge with `cat_sort_uniq` unites the lines of each note. Where no line has
    white space at its end, a merge keeps that and repeats no line. -/
structure Git.Documented [Git] : Prop where
  stripspace_lines : ∀ body, noteLines (Git.stripspace body) = noteLines body
  stripspace_clean : ∀ body, CleanText body → CleanText (Git.stripspace body)
  merge_lines : ∀ ours theirs : NotesCommit, ours.Grown → theirs.Grown → ∀ object line,
    line ∈ (Git.mergeTrees ours theirs).linesAt object ↔
      line ∈ ours.tree.linesAt object ∨ line ∈ theirs.tree.linesAt object
  merge_clean : ∀ ours theirs : NotesCommit, ours.tree.Clean → theirs.tree.Clean →
    (Git.mergeTrees ours theirs).Clean
  merge_count : ∀ ours theirs : NotesCommit, ours.Grown → theirs.Grown →
    ours.tree.Clean → theirs.tree.Clean → ∀ object line,
    ((Git.mergeTrees ours theirs).linesAt object).count line
      ≤ max ((ours.tree.linesAt object).count line) ((theirs.tree.linesAt object).count line)

/-- The second ref is at a descendant. -/
def RefLe (ref ref' : Option NotesCommit) : Prop :=
  ∀ c ∈ ref, ∃ d ∈ ref', NotesCommit.Reaches c d

theorem RefLe.refl (ref : Option NotesCommit) : RefLe ref ref :=
  fun c hc => ⟨c, hc, NotesCommit.Reaches.refl c⟩

theorem RefLe.trans {a b c : Option NotesCommit} (h : RefLe a b) (h' : RefLe b c) : RefLe a c := by
  intro x hx
  rcases h x hx with ⟨y, hy, hxy⟩
  rcases h' y hy with ⟨z, hz, hyz⟩
  exact ⟨z, hz, hxy.trans hyz⟩

/-- A descendant has every line. -/
theorem RefLe.sub {ref ref' : Option NotesCommit} (h : RefLe ref ref')
    (hgrown : ∀ c ∈ ref', c.Grown) : (notesOf ref).Sub (notesOf ref') := by
  rcases ref with _ | c
  · intro object line hline
    exact absurd hline List.not_mem_nil
  · rcases h c rfl with ⟨d, hd, hcd⟩
    rw [Option.mem_def.mp hd]
    exact (hgrown d hd).sub hcd

section Refs

variable [Git]

/-- The notes after a write. -/
theorem tree_notedRef (stamp object body : String) (ref : Option NotesCommit) :
    (World.notedRef stamp object body ref).tree
      = (notesOf ref).set object (Git.stripspace body) := by
  cases ref with
  | none => rfl
  | some parent => rfl

theorem refLe_notedRef (stamp object body : String) (ref : Option NotesCommit) :
    RefLe ref (some (World.notedRef stamp object body ref)) := by
  intro c hc
  rw [Option.mem_def.mp hc]
  exact ⟨_, rfl, Or.inr (NotesCommit.Reaches.refl c)⟩

/-- A write that adds lines only keeps the history grown. -/
theorem grown_notedRef (hgit : Git.Documented) {object body : String}
    {ref : Option NotesCommit} (href : ∀ c ∈ ref, c.Grown)
    (hlines : ∀ line ∈ (notesOf ref).linesAt object, line ∈ noteLines body) (stamp : String) :
    (World.notedRef stamp object body ref).Grown := by
  cases ref with
  | none => trivial
  | some parent =>
      refine ⟨href parent rfl, fun other line hline => ?_⟩
      rw [NotesTree.linesAt_set]
      split
      · next h =>
        rw [hgit.stripspace_lines body]
        exact hlines line (h ▸ hline)
      · exact hline

variable {working tracking : Option NotesCommit}

theorem refLe_mergedRef (stamp : String) : RefLe working (World.mergedRef stamp working tracking) := by
  rcases working with _ | ours
  · exact fun c hc => absurd hc (by simp)
  rcases tracking with _ | theirs
  · exact RefLe.refl _
  · rw [World.mergedRef]
    split
    · exact RefLe.refl _
    · split
      · next h => exact fun c hc => ⟨theirs, rfl, Option.mem_some_iff.mp hc ▸ h⟩
      · exact fun c hc => ⟨_, rfl, Option.mem_some_iff.mp hc ▸
          Or.inr (Or.inl (NotesCommit.Reaches.refl _))⟩

theorem grown_mergedRef (hgit : Git.Documented) (hworking : ∀ c ∈ working, c.Grown)
    (htracking : ∀ c ∈ tracking, c.Grown) (stamp : String) :
    ∀ c ∈ World.mergedRef stamp working tracking, c.Grown := by
  rcases working with _ | ours
  · exact htracking
  rcases tracking with _ | theirs
  · exact hworking
  have ho := hworking ours rfl
  have ht := htracking theirs rfl
  rw [World.mergedRef]
  split
  · exact hworking
  · split
    · exact htracking
    · intro c hc
      rw [Option.mem_some_iff] at hc
      subst hc
      exact ⟨⟨ho, fun object line h => (hgit.merge_lines ours theirs ho ht object line).mpr
        (Or.inl h)⟩, ht, fun object line h => (hgit.merge_lines ours theirs ho ht object line).mpr
          (Or.inr h)⟩

/-- What was fetched is in the merge. -/
theorem sub_mergedRef (hgit : Git.Documented) (hworking : ∀ c ∈ working, c.Grown)
    (htracking : ∀ c ∈ tracking, c.Grown) (stamp : String) :
    (notesOf tracking).Sub (notesOf (World.mergedRef stamp working tracking)) := by
  rcases tracking with _ | theirs
  · exact fun _ _ h => absurd h List.not_mem_nil
  rcases working with _ | ours
  · exact NotesTree.Sub.refl _
  have ho := hworking ours rfl
  have ht := htracking theirs rfl
  rw [World.mergedRef]
  split
  · next h => exact ho.sub h
  · split
    · exact NotesTree.Sub.refl _
    · exact fun object line h => (hgit.merge_lines ours theirs ho ht object line).mpr (Or.inr h)

omit [Git] in
theorem clean_set {tree : NotesTree} (h : tree.Clean) {object body : String}
    (hbody : CleanText body) : (tree.set object body).Clean := by
  intro other text htext
  by_cases hother : other = object
  · rw [hother, NotesTree.note_set_self, Option.mem_some_iff] at htext
    exact htext ▸ hbody
  · rw [NotesTree.note_set_of_ne tree hother] at htext
    exact h other text htext

theorem clean_mergedRef (hgit : Git.Documented) {working tracking : Option NotesCommit}
    (hworking : (notesOf working).Clean) (htracking : (notesOf tracking).Clean) (stamp : String) :
    (notesOf (World.mergedRef stamp working tracking)).Clean := by
  rcases working with _ | ours
  · exact htracking
  rcases tracking with _ | theirs
  · exact hworking
  rw [World.mergedRef]
  split
  · exact hworking
  · split
    · exact htracking
    · exact hgit.merge_clean ours theirs hworking htracking

/-- A merge has no line more often than one of its sides. -/
theorem count_mergedRef_le (hgit : Git.Documented) {working tracking : Option NotesCommit}
    (hworking : ∀ c ∈ working, c.Grown) (htracking : ∀ c ∈ tracking, c.Grown)
    (hours : (notesOf working).Clean) (htheirs : (notesOf tracking).Clean)
    (stamp object line : String) :
    ((notesOf (World.mergedRef stamp working tracking)).linesAt object).count line
      ≤ max (((notesOf working).linesAt object).count line)
        (((notesOf tracking).linesAt object).count line) := by
  rcases working with _ | ours
  · exact le_max_right _ _
  rcases tracking with _ | theirs
  · exact le_max_left _ _
  rw [World.mergedRef]
  split
  · exact le_max_left _ _
  · split
    · exact le_max_right _ _
    · exact hgit.merge_count ours theirs (hworking ours rfl) (htracking theirs rfl) hours htheirs
        object line

end Refs

section Worlds

variable {M R : Type}

namespace World

/-- Every working ref and every site has moved to a descendant, if at all. -/
structure Le (w w' : World M R) : Prop where
  working : ∀ m, RefLe (w.machines m).working (w'.machines m).working
  sites : ∀ s, RefLe (w.sites s) (w'.sites s)

/-- Notes only ever gained lines. -/
structure Grown (w : World M R) : Prop where
  working : ∀ m, ∀ c ∈ (w.machines m).working, c.Grown
  tracking : ∀ m, ∀ c ∈ (w.machines m).tracking, c.Grown
  sites : ∀ s, ∀ c ∈ w.sites s, c.Grown

/-- The process holds the lock of its machine. -/
def Holds (w : World M R) (i : ProcessId M) : Prop :=
  (w.machines i.machine).lock = some i

/-- If `i` holds the lock, it still does, and its working ref has not moved. -/
def Guarded (i : ProcessId M) (w w' : World M R) : Prop :=
  w.Holds i → w'.Holds i ∧ (w'.machines i.machine).working = (w.machines i.machine).working

theorem Le.refl (w : World M R) : w.Le w :=
  ⟨fun _ => RefLe.refl _, fun _ => RefLe.refl _⟩

theorem Le.trans {w w' w'' : World M R} (h : w.Le w') (h' : w'.Le w'') : w.Le w'' :=
  ⟨fun m => (h.working m).trans (h'.working m), fun s => (h.sites s).trans (h'.sites s)⟩

theorem Guarded.refl (i : ProcessId M) (w : World M R) : Guarded i w w :=
  fun h => ⟨h, rfl⟩

theorem Guarded.trans {i : ProcessId M} {w w' w'' : World M R} (h : Guarded i w w')
    (h' : Guarded i w' w'') : Guarded i w w'' := by
  intro hw
  rcases h hw with ⟨hw', heq⟩
  rcases h' hw' with ⟨hw'', heq'⟩
  exact ⟨hw'', heq'.trans heq⟩

end World

/-- The line a successful write added, with the commit whose note it is in. -/
def wrote (e : CarrierEvent M R) : Option (String × String) :=
  match e.op, e.res with
  | .addNote object body, true => some (object, (noteLines body).getLast?.getD "")
  | _, _ => none

/-- A merge that was made. -/
def Merged (e : CarrierEvent M R) : Prop :=
  match e.op, e.res with
  | .mergeNotes, true => True
  | _, _ => False

/-- The lines of a note on a machine's working ref. -/
def World.lines (w : World M R) (m : M) (object : String) : List String :=
  (notesOf (w.machines m).working).linesAt object

/-- A lock attempt that found a lock file it cannot use. -/
def NoLock (e : CarrierEvent M R) : Prop :=
  match e.op, e.res with
  | .lockNotes, .unusable => True
  | _, _ => False

/-- No write is made after such an attempt: every writer obtains the lock or
    gives up. -/
def LockedWrites (hist : List (CarrierEvent M R)) (e : CarrierEvent M R) : Prop :=
  match e.op with
  | .addNote _ _ => ∀ e' ∈ hist, ¬ NoLock e'
  | _ => True

section History

/-! What a process has read. -/

def listedTree (e : CarrierEvent M R) : Option NotesTree :=
  match e.op, e.res with
  | .listNotes, some tree => some tree
  | _, _ => none

def readLog (e : CarrierEvent M R) : Option (List String) :=
  match e.op, e.res with
  | .logHead, some log => some log
  | _, _ => none

def readContents (e : CarrierEvent M R) : Option (List String) :=
  match e.op, e.res with
  | .store .contents, some contents => some contents
  | _, _ => none

/-- `repo` is what the process was answered. -/
structure ReadRepo (hist : List (CarrierEvent M R)) (repo : NotesRepo) : Prop where
  notes : ∀ tree ∈ hist.filterMap listedTree, repo.notes = tree ∧ repo.listFails = false
  log : ∀ log ∈ hist.filterMap readLog, repo.log = log ∧ repo.logFails = false

end History

/-- A write adds one line to the note as it is. -/
def Appends (e : CarrierEvent M R) : Prop :=
  match e.op, e.res with
  | .addNote object body, true => ∃ line, CleanLine line ∧
      body = appendLine ((notesOf (e.before.machines e.pid.machine).working).note object) line
  | _, _ => True

/-- An import inserts what its listing has and the store lacked, and the working
    marker is recorded by one that had nothing to insert. -/
def Imports [NoteJson] [Sha256] (hist : List (CarrierEvent M R)) (e : CarrierEvent M R) : Prop :=
  match e.op with
  | .store (.importNotes notes _) => ∃ repo listed, ReadRepo hist repo ∧
      listNotes repo none gitNotesImportLimit true none = .ok listed ∧
      ∃ contents ∈ hist.filterMap readContents, notes = absentNotes contents listed
  | .store (.setImported _) => ∃ repo listed, ReadRepo hist repo ∧
      listNotes repo none gitNotesImportLimit true none = .ok listed ∧
      (listed = [] ∨ ∃ contents ∈ hist.filterMap readContents, absentNotes contents listed = [])
  | _ => True

/-- The bounds every command keeps. -/
def carrierBounds [NoteJson] [Sha256] (M R : Type) :
    Bounds (ProcessId M) (World M R) CarrierOp CarrierOp.Res where
  inv := World.Grown
  rely := fun i w w' => w.Le w' ∧ World.Guarded i w w'
  guar := fun hist e => (e.before.Le e.after ∧ e.after.Grown ∧
    ∀ j, j ≠ e.pid → World.Guarded j e.before e.after) ∧ Appends e ∧ Imports hist e

namespace World

variable [DecidableEq M]

theorem setMachine_self (w : World M R) (m : M) (x : Machine M R) :
    (w.setMachine m x).machines m = x :=
  Function.update_self ..

theorem setMachine_of_ne (w : World M R) {m m' : M} (h : m' ≠ m) (x : Machine M R) :
    (w.setMachine m x).machines m' = w.machines m' :=
  Function.update_of_ne h ..

theorem setMachine_machines (w : World M R) (m : M) : w.setMachine m (w.machines m) = w := by
  rw [setMachine, Function.update_eq_self]

/-- What is true of every machine is true after one of them has changed. -/
theorem forall_setMachine {w : World M R} {m : M} {x : Machine M R}
    {P : M → Machine M R → Prop} (hx : P m x) (hw : ∀ m', P m' (w.machines m')) (m' : M) :
    P m' ((w.setMachine m x).machines m') := by
  by_cases hm : m' = m
  · subst hm
    rw [setMachine_self]
    exact hx
  · rw [setMachine_of_ne w hm]
    exact hw m'

omit [DecidableEq M] in
theorem forall_setSite [DecidableEq R] {w : World M R} {site : R} {ref : Option NotesCommit}
    {P : R → Option NotesCommit → Prop} (href : P site ref) (hw : ∀ s, P s (w.sites s)) (s : R) :
    P s ((w.setSite site ref).sites s) := by
  rw [setSite]
  by_cases hs : s = site
  · subst hs
    simpa using href
  · simpa [hs] using hw s

theorem Le.setMachine {w : World M R} {m : M} {x : Machine M R}
    (h : RefLe (w.machines m).working x.working) : w.Le (w.setMachine m x) :=
  ⟨forall_setMachine (P := fun m' y => RefLe (w.machines m').working y.working) h
    (fun _ => RefLe.refl _), fun _ => RefLe.refl _⟩

theorem Grown.setMachine {w : World M R} (hw : w.Grown) {m : M} {x : Machine M R}
    (hworking : ∀ c ∈ x.working, c.Grown) (htracking : ∀ c ∈ x.tracking, c.Grown) :
    (w.setMachine m x).Grown :=
  ⟨forall_setMachine (P := fun _ y => ∀ c ∈ y.working, c.Grown) hworking hw.working,
    forall_setMachine (P := fun _ y => ∀ c ∈ y.tracking, c.Grown) htracking hw.tracking, hw.sites⟩

theorem Guarded.setMachine {w : World M R} {j : ProcessId M} {m : M} {x : Machine M R}
    (h : (w.machines m).lock = some j → x.lock = some j ∧ x.working = (w.machines m).working) :
    Guarded j w (w.setMachine m x) := by
  intro hj
  by_cases hm : j.machine = m
  · subst hm
    rw [Holds, setMachine_self]
    exact h hj
  · rw [Holds, setMachine_of_ne w hm]
    exact ⟨hj, rfl⟩

/-- A death moves no ref, no store and no HEAD. -/
theorem machines_die (i : ProcessId M) (w : World M R) (m : M) :
    ∃ lock, (w.die i).machines m = { w.machines m with lock := lock } := by
  rw [die]
  split
  · by_cases hm : m = i.machine
    · subst hm
      exact ⟨none, setMachine_self ..⟩
    · exact ⟨_, setMachine_of_ne w hm _⟩
  · exact ⟨_, rfl⟩

theorem lines_die (i : ProcessId M) (w : World M R) (m : M) (object : String) :
    (w.die i).lines m object = w.lines m object := by
  rcases machines_die i w m with ⟨lock, hdie⟩
  rw [lines, lines, hdie]

theorem sites_die (i : ProcessId M) (w : World M R) : (w.die i).sites = w.sites := by
  rw [die]
  split
  · rfl
  · rfl

/-- The lock goes to nobody else. -/
theorem le_die (i : ProcessId M) (w : World M R) : w.Le (w.die i) := by
  rw [die]
  split
  · exact Le.setMachine (RefLe.refl _)
  · exact Le.refl w

theorem Grown.die {w : World M R} (hw : w.Grown) (i : ProcessId M) : (w.die i).Grown := by
  rw [World.die]
  split
  · exact hw.setMachine (hw.working _) (hw.tracking _)
  · exact hw

theorem guarded_die {i j : ProcessId M} (h : j ≠ i) (w : World M R) : Guarded j w (w.die i) := by
  rw [die]
  split
  · next hi =>
    refine Guarded.setMachine (fun hj => ?_)
    rw [hi, Option.some.injEq] at hj
    exact absurd hj.symm h
  · exact Guarded.refl j w

end World

end Worlds

section Fit

variable [Git] [NoteJson] [Sha256] {M R : Type} [DecidableEq M] [DecidableEq R]

/-- What a call may do to its machine beside writing and merging: it takes or drops
    its own lock, fetches what is at a site, changes the store, moves HEAD. -/
structure Shifts (e : CarrierEvent M R) (x : Machine M R) : Prop where
  working : x.working = (e.before.machines e.pid.machine).working
  tracking : x.tracking = (e.before.machines e.pid.machine).tracking ∨
    ∃ s, x.tracking = e.before.sites s
  lock : ∀ j, j ≠ e.pid → (e.before.machines e.pid.machine).lock = some j → x.lock = some j
  store : x.store = (e.before.machines e.pid.machine).store ∨ ∃ call fault,
    e.op = .store call ∧
      x.store = (call.run ⟨(e.before.machines e.pid.machine).store, fault⟩).2.db
  log : x.log = (e.before.machines e.pid.machine).log ∨ ∃ head, e.op = .moveHead head x.log

/-- What a call may do at all. -/
inductive Moves : CarrierEvent M R → Prop where
  | shifted {e} (x : Machine M R) (hafter : e.after = e.before.setMachine e.pid.machine x)
      (h : Shifts e x) : Moves e
  | noted (i : ProcessId M) (w : World M R) (object body stamp : String) :
      Moves ⟨i, .addNote object body, true, w, w.setMachine i.machine
        { w.machines i.machine with
          working := some (World.notedRef stamp object body (w.machines i.machine).working) }⟩
  | merged (i : ProcessId M) (w : World M R) (stamp : String) :
      Moves ⟨i, .mergeNotes, true, w, w.setMachine i.machine
        { w.machines i.machine with
          working := World.mergedRef stamp (w.machines i.machine).working
            (w.machines i.machine).tracking }⟩
  | pushed {e} (remote : String) (h : e.before.Pushed e.pid.machine remote e.after) : Moves e

omit [NoteJson] in
/-- Nothing happened. -/
theorem Moves.same {e : CarrierEvent M R} (h : e.after = e.before) : Moves e :=
  .shifted _ (h.trans (World.setMachine_machines _ _).symm)
    ⟨rfl, Or.inl rfl, fun _ _ hlock => hlock, Or.inl rfl, Or.inl rfl⟩

omit [NoteJson] in
theorem moves_of_exec {e : CarrierEvent M R} (hexec : e.op.exec e.pid e.before e.res e.after) :
    Moves e := by
  rcases e with ⟨i, op, res, w, w'⟩
  cases op with
  | lockNotes =>
      cases res with
      | acquired =>
          rcases hexec with ⟨hfree, hafter⟩
          refine .shifted _ hafter ⟨rfl, Or.inl rfl, fun j _ hlock => ?_, Or.inl rfl,
            Or.inl rfl⟩
          exact absurd (hfree.symm.trans hlock) (by simp)
      | contended => exact .same hexec.2
      | unusable => exact .same hexec
      | unresolved => exact .same hexec
  | dropLock =>
      rw [show w' = w.die i from hexec, World.die]
      split
      · next hmine =>
        refine .shifted _ rfl ⟨rfl, Or.inl rfl, fun j hj hlock => ?_, Or.inl rfl,
          Or.inl rfl⟩
        exact absurd (Option.some.inj (hlock.symm.trans hmine)) hj
      · exact .same rfl
  | addNote object body =>
      cases res with
      | false => exact .same hexec
      | true =>
          rcases hexec with ⟨stamp, hafter⟩
          rw [show w' = _ from hafter]
          exact .noted i w object body stamp
  | mergeNotes =>
      cases res with
      | false => exact .same hexec
      | true =>
          rcases hexec with ⟨_, stamp, hafter⟩
          rw [show w' = _ from hafter]
          exact .merged i w stamp
  | fetch remote =>
      cases res with
      | false => exact .same hexec
      | true =>
          rcases hexec with ⟨site, _, tip, htip, hafter⟩
          exact .shifted _ hafter ⟨rfl, Or.inr ⟨site, (Option.mem_def.mp htip).symm⟩,
            fun _ _ hlock => hlock, Or.inl rfl, Or.inl rfl⟩
  | push remote =>
      cases res with
      | ok => exact .pushed remote hexec
      | error =>
          rcases hexec with hsame | hpushed
          · exact .same hsame
          · exact .pushed remote hpushed
  | store call =>
      rcases hexec with ⟨fault, _, hafter⟩
      exact .shifted _ hafter ⟨rfl, Or.inl rfl, fun _ _ hlock => hlock,
        Or.inr ⟨call, fault, rfl, rfl⟩, Or.inl rfl⟩
  | moveHead head log =>
      exact .shifted _ hexec ⟨rfl, Or.inl rfl, fun _ _ hlock => hlock, Or.inl rfl,
        Or.inr ⟨head, rfl⟩⟩
  | revParseHead | showNote | listNotes | logHead | workingOid | trackingOid =>
      cases res with
      | none => exact .same hexec
      | some => exact .same hexec.2
  | verifyWorking | getUrl =>
      cases res with
      | false => exact .same hexec
      | true => exact .same hexec.2
  | storeExists => exact .same hexec.2
  | catFile | nowMillis | nowSecs | inNotesPush => exact .same hexec

/-- A call within its bound is one the others reckon with. -/
theorem carrierBounds_fit : (carrierBounds M R).Fit (carrierMachinery M R) where
  refl := fun i w => ⟨World.Le.refl w, World.Guarded.refl i w⟩
  trans := fun _ _ _ _ h h' => ⟨h.1.trans h'.1, h.2.trans h'.2⟩
  call := fun _ _ _ _ hguar => ⟨hguar.1.2.1, fun j hj => ⟨hguar.1.1, hguar.1.2.2 j hj⟩⟩
  die := fun i w hw => ⟨hw.die i, fun _ hj => ⟨World.le_die i w, World.guarded_die hj w⟩⟩

/-- Calls that write no note, merge nothing and record no import. -/
def CarrierOp.Quiet : CarrierOp → Prop
  | .addNote _ _ => False
  | .mergeNotes => False
  | .store (.importNotes _ _) => False
  | .store (.setImported _) => False
  | _ => True

omit [Git] [NoteJson] [Sha256] [DecidableEq M] [DecidableEq R] in
theorem wrote_of_quiet {e : CarrierEvent M R} (h : e.op.Quiet) : wrote e = none := by
  rcases e with ⟨i, op, res, w, w'⟩
  cases op
  case addNote => exact absurd h id
  all_goals rfl

omit [Git] [NoteJson] [Sha256] [DecidableEq M] [DecidableEq R] in
theorem not_merged_of_quiet {e : CarrierEvent M R} (h : e.op.Quiet) : ¬ Merged e := by
  rcases e with ⟨i, op, res, w, w'⟩
  cases op
  case mergeNotes => exact absurd h id
  all_goals exact id

omit [Git] [NoteJson] [Sha256] [DecidableEq M] [DecidableEq R] in
theorem appends_of_quiet {e : CarrierEvent M R} (h : e.op.Quiet) : Appends e := by
  rcases e with ⟨i, op, res, w, w'⟩
  cases op
  case addNote => exact absurd h id
  all_goals trivial

omit [Git] [DecidableEq M] [DecidableEq R] in
theorem imports_of_quiet {hist : List (CarrierEvent M R)} {e : CarrierEvent M R}
    (h : e.op.Quiet) : Imports hist e := by
  rcases e with ⟨i, op, res, w, w'⟩
  cases op
  case store call =>
    cases call
    case importNotes => exact absurd h id
    case setImported => exact absurd h id
    all_goals trivial
  all_goals trivial

/-- The part of the bound that is about the refs. -/
def RefsOk (i : ProcessId M) (w w' : World M R) : Prop :=
  w.Le w' ∧ w'.Grown ∧ ∀ j, j ≠ i → World.Guarded j w w'

omit [Git] [NoteJson] [Sha256] [DecidableEq M] [DecidableEq R] in
theorem RefsOk.refl {w : World M R} (hw : w.Grown) (i : ProcessId M) : RefsOk i w w :=
  ⟨World.Le.refl w, hw, fun j _ => World.Guarded.refl j w⟩

omit [Git] [NoteJson] [Sha256] [DecidableEq M] in
/-- A site that takes a push moves to a descendant. -/
theorem RefsOk.pushed {w w' : World M R} (hw : w.Grown) (i : ProcessId M) {remote : String}
    (h : w.Pushed i.machine remote w') : RefsOk i w w' := by
  rcases h with ⟨site, _, tip, htip, hff, rfl⟩
  refine ⟨⟨fun _ => RefLe.refl _, World.forall_setSite (P := fun s ref => RefLe (w.sites s) ref)
    ?_ (fun _ => RefLe.refl _)⟩, ⟨hw.working, hw.tracking,
      World.forall_setSite (P := fun _ ref => ∀ c ∈ ref, c.Grown) ?_ hw.sites⟩,
    fun j _ hj => ⟨hj, rfl⟩⟩
  · exact fun c hc => ⟨tip, rfl, hff c hc⟩
  · exact fun c hc => Option.mem_some_iff.mp hc ▸ hw.working _ tip htip

omit [NoteJson] in
/-- A call that is neither a write nor a merge keeps the refs. -/
theorem refsOk_of_exec {e : CarrierEvent M R} (hwrote : wrote e = none) (hmerged : ¬ Merged e)
    (hw : e.before.Grown) (hexec : e.op.exec e.pid e.before e.res e.after) :
    RefsOk e.pid e.before e.after := by
  cases moves_of_exec hexec with
  | shifted x hafter h =>
      rw [hafter]
      refine ⟨World.Le.setMachine (h.working ▸ RefLe.refl _), hw.setMachine ?_ ?_,
        fun j hj => World.Guarded.setMachine (fun hlock => ⟨h.lock j hj hlock, h.working⟩)⟩
      · exact h.working ▸ hw.working _
      · rcases h.tracking with hsame | ⟨s, hfetched⟩
        · exact hsame ▸ hw.tracking _
        · exact hfetched ▸ hw.sites s
  | noted => exact absurd hwrote (Option.some_ne_none _)
  | merged => exact absurd trivial hmerged
  | pushed remote hpushed => exact RefsOk.pushed hw e.pid hpushed

/-- A writer that holds the lock and writes back what it read adds its line. -/
theorem guar_addNote (hgit : Git.Documented) {i : ProcessId M} {w w' : World M R}
    {object line : String} (hline : CleanLine line) (hw : w.Grown) (hholds : w.Holds i)
    {existing : Option String}
    (hexisting : existing = (notesOf (w.machines i.machine).working).note object)
    (hexec : (CarrierOp.addNote object (appendLine existing line)).exec i w true w')
    (hist : List (CarrierEvent M R)) :
    (carrierBounds M R).guar hist
        ⟨i, .addNote object (appendLine existing line), true, w, w'⟩ ∧ w'.Holds i := by
  have hlines : noteLines (appendLine existing line) = w.lines i.machine object ++ [line] := by
    rw [noteLines_appendLine hline, hexisting]
    rfl
  rcases hexec with ⟨stamp, rfl⟩
  refine ⟨⟨⟨World.Le.setMachine (refLe_notedRef _ _ _ _), hw.setMachine (fun c hc => ?_)
    (hw.tracking _), fun j hj => World.Guarded.setMachine (fun hlock => ?_)⟩,
    ⟨line, hline, hexisting ▸ rfl⟩, trivial⟩, ?_⟩
  · rw [Option.mem_some_iff] at hc
    rw [← hc]
    refine grown_notedRef hgit (hw.working _) (fun l hl => ?_) stamp
    rw [hlines]
    exact List.mem_append_left _ hl
  · rw [hholds.symm.trans hlock |> Option.some.inj] at hj
    exact absurd rfl hj
  · rw [World.Holds, World.setMachine_self]
    exact hholds

/-- A merge under the lock. -/
theorem guar_mergeNotes (hgit : Git.Documented) {i : ProcessId M} {w w' : World M R} {done : Bool}
    (hw : w.Grown) (hholds : w.Holds i) (hexec : CarrierOp.mergeNotes.exec i w done w')
    (hist : List (CarrierEvent M R)) :
    (carrierBounds M R).guar hist ⟨i, .mergeNotes, done, w, w'⟩ ∧ w'.Holds i := by
  cases done with
  | false =>
      rw [show w' = w from hexec]
      exact ⟨⟨RefsOk.refl hw i, trivial, trivial⟩, hholds⟩
  | true =>
      rcases hexec with ⟨_, stamp, rfl⟩
      refine ⟨⟨⟨World.Le.setMachine (refLe_mergedRef stamp), hw.setMachine
        (grown_mergedRef hgit (hw.working _) (hw.tracking _) stamp) (hw.tracking _),
        fun j hj => World.Guarded.setMachine (fun hlock => ?_)⟩, trivial, trivial⟩, ?_⟩
      · rw [hholds.symm.trans hlock |> Option.some.inj] at hj
        exact absurd rfl hj
      · rw [World.Holds, World.setMachine_self]
        exact hholds

/-- A quiet call keeps the bounds. -/
theorem guar_of_quiet {e : CarrierEvent M R} (he : e.op.Quiet) (hw : e.before.Grown)
    (hexec : e.op.exec e.pid e.before e.res e.after) (hist : List (CarrierEvent M R)) :
    (carrierBounds M R).guar hist e :=
  ⟨refsOk_of_exec (wrote_of_quiet he) (not_merged_of_quiet he) hw hexec, appends_of_quiet he,
    imports_of_quiet he⟩

end Fit

end Spelunk
