import Spelunk.Theory.CarrierBounds

/-!
# Commands That Nobody Disturbs

What a command does when its calls succeed and no other process makes a call in
between. An append to a free lock writes its line, and a merge takes in what was
fetched.

## Theorems

* `alone_appendToGitNotes`: An append.
* `alone_mergeTrackingNotes`: A merge.
-/

namespace Spelunk

open Lib (Prog Alone Run)

section Alone

variable [Git] [NoteJson] [Sha256] {M R : Type} [DecidableEq M] [DecidableEq R]

omit [Git] [NoteJson] [Sha256] [DecidableEq R] in
theorem World.setMachine_setMachine (w : World M R) (m : M) (x y : Machine M R) :
    (w.setMachine m x).setMachine m y = w.setMachine m y := by
  rw [setMachine, setMachine, setMachine, Function.update_idem]

omit [Git] [NoteJson] [Sha256] [DecidableEq R] in
theorem World.die_setMachine {w : World M R} {i : ProcessId M} {x : Machine M R}
    (h : x.lock = some i) :
    (w.setMachine i.machine x).die i = w.setMachine i.machine { x with lock := none } := by
  rw [die, setMachine_self, if_pos h, setMachine_setMachine]

/-- The machine after a line was appended to a note of its working ref. -/
def Machine.appended (x : Machine M R) (stamp object line : String) : Machine M R :=
  { x with
    working := some (World.notedRef stamp object
      (appendLine ((notesOf x.working).note object) line) x.working)
    lock := none }

/-- The machine after a merge. -/
def Machine.merged (x : Machine M R) (stamp : String) : Machine M R :=
  { x with working := World.mergedRef stamp x.working x.tracking, lock := none }

variable {i : ProcessId M} {hist : List (CarrierEvent M R)} {w : World M R}

/-- The program may get to `p'` with no other call in between. -/
def Undisturbed (guard : List (CarrierEvent M R) → CarrierEvent M R → Prop) (i : ProcessId M)
    {α : Type} (hist : List (CarrierEvent M R)) (p : CarrierProg α) (w : World M R)
    (p' : CarrierProg α) (w' : World M R) : Prop :=
  ∃ events, Alone (carrierMachinery M R) guard i hist p w events p' w'

variable {guard : List (CarrierEvent M R) → CarrierEvent M R → Prop} {α β : Type}

theorem Undisturbed.refl (p : CarrierProg α) : Undisturbed guard i hist p w p w :=
  ⟨[], .nil⟩

theorem Undisturbed.call {o : CarrierOp} {k : o.Res → CarrierProg α} (r : o.Res) {v w' : World M R}
    {p' : CarrierProg α} (hexec : o.exec i w r v) (hguard : guard hist ⟨i, o, r, w, v⟩)
    (h : Undisturbed guard i (hist ++ [⟨i, o, r, w, v⟩]) (k r) v p' w') :
    Undisturbed guard i hist (.call o k) w p' w' := by
  rcases h with ⟨events, h⟩
  exact ⟨_, .cons hexec hguard h⟩

/-- One program after the other. -/
theorem Undisturbed.bind {p : CarrierProg α} {a : α} {f : α → CarrierProg β} {v w' : World M R}
    {q : CarrierProg β} (h : Undisturbed guard i hist p w (.ret a) v)
    (h' : ∀ hist, Undisturbed guard i hist (f a) v q w') :
    Undisturbed guard i hist (p.bind f) w q w' := by
  rcases h with ⟨events, h⟩
  rcases h' (hist ++ events) with ⟨events', h'⟩
  exact ⟨_, h.bind.trans h'⟩

theorem Undisturbed.free {p p' : CarrierProg α} {w' : World M R}
    (h : Undisturbed guard i hist p w p' w') :
    Undisturbed (fun _ _ => True) i hist p w p' w' := by
  rcases h with ⟨events, h⟩
  exact ⟨events, h.mono (fun _ _ _ => trivial)⟩

/-- A command may be started and be left undisturbed. -/
theorem Undisturbed.run {start c : CarrierConfig M R} {trace : List (CarrierEvent M R)}
    (hrun : Run (carrierMachinery M R) guard start trace c) (cmd : CarrierCmd)
    (hi : c.procs i = .idle) {p : CarrierProg cmd.Out} {w : World M R}
    (h : Undisturbed guard i [] cmd.prog c.state p w) :
    ∃ events, Run (carrierMachinery M R) guard start (trace ++ events)
      (c.set i w (.running cmd p)) := by
  rcases h with ⟨events, h⟩
  exact ⟨events, Run.command hrun hi h⟩

/-- A command that has been started may go on undisturbed. -/
theorem Undisturbed.resume {start c : CarrierConfig M R} {trace : List (CarrierEvent M R)}
    (hrun : Run (carrierMachinery M R) guard start trace c) {cmd : CarrierCmd}
    {p p' : CarrierProg cmd.Out} (hi : c.procs i = .running cmd p) {w : World M R}
    (h : ∀ hist, Undisturbed guard i hist p c.state p' w) :
    ∃ events, Run (carrierMachinery M R) guard start (trace ++ events)
      (c.set i w (.running cmd p')) := by
  rcases h (Lib.own i trace) with ⟨events, h⟩
  exact ⟨events, Run.alone hrun hi h⟩

/-- An append to a free lock writes its line to the note of HEAD. -/
theorem undisturbed_appendToGitNotes (hlock : (w.machines i.machine).lock = none) {head : String}
    (hhead : (w.machines i.machine).head = some head) (record : NoteRecord) (stamp : String) :
    Undisturbed LockedWrites i [] (appendToGitNotes record) w (.ret (.ok ⟨false⟩))
      (w.setMachine i.machine
        ((w.machines i.machine).appended stamp head (NoteJson.toLine record))) := by
  have hself := World.setMachine_self w i.machine
  refine Undisturbed.call (o := .lockNotes) LockAttempt.acquired ⟨hlock, rfl⟩ trivial ?_
  refine Undisturbed.call (o := .revParseHead) (some head) ⟨?_, rfl⟩ trivial ?_
  · rw [hself]
    exact hhead
  refine Undisturbed.call (o := .showNote head)
    (some ((notesOf (w.machines i.machine).working).note head)) ⟨?_, rfl⟩ trivial ?_
  · rw [hself]
  refine Undisturbed.call (o := .addNote head
    (appendLine ((notesOf (w.machines i.machine).working).note head) (NoteJson.toLine record)))
    (v := w.setMachine i.machine { (w.machines i.machine).appended stamp head
      (NoteJson.toLine record) with lock := some i }) true ⟨stamp, ?_⟩ ?_ ?_
  · rw [World.setMachine_setMachine, hself]
    rfl
  · simp [LockedWrites, NoLock]
  · exact Undisturbed.call (o := .dropLock) () (World.die_setMachine rfl).symm trivial
      (Undisturbed.refl _)

/-- An append that could not have the lock, before it writes back what it read. -/
def staleWrite (object body : String) : CarrierProg (Except AppendError AppendOutcome) :=
  .call (.addNote object body) (fun (done : Bool) =>
    .ret ((if done then Except.ok () else .error .writeFailed).map (fun _ => ⟨true⟩)))

/-- An append that cannot have the lock reads the note and goes on. -/
theorem undisturbed_unlocked {head : String} (hhead : (w.machines i.machine).head = some head)
    (record : NoteRecord) :
    Undisturbed (fun _ _ => True) i [] (appendToGitNotes record) w
      (staleWrite head (appendLine ((notesOf (w.machines i.machine).working).note head)
        (NoteJson.toLine record))) w := by
  refine Undisturbed.call (o := .lockNotes) LockAttempt.unusable rfl trivial ?_
  refine Undisturbed.call (o := .revParseHead) (some head) ⟨hhead, rfl⟩ trivial ?_
  refine Undisturbed.call (o := .showNote head)
    (some ((notesOf (w.machines i.machine).working).note head)) ⟨rfl, rfl⟩ trivial ?_
  exact Undisturbed.refl _

/-- It writes what it has, whatever is there by then. -/
theorem undisturbed_staleWrite (hist : List (CarrierEvent M R)) (object body stamp : String) :
    Undisturbed (fun _ _ => True) i hist (staleWrite object body) w (.ret (.ok ⟨true⟩))
      (w.setMachine i.machine { w.machines i.machine with
        working := some (World.notedRef stamp object body (w.machines i.machine).working) }) :=
  Undisturbed.call (o := .addNote object body) true ⟨stamp, rfl⟩ trivial (Undisturbed.refl _)

/-- A merge takes in what was fetched. -/
theorem undisturbed_mergeTrackingNotes (hist : List (CarrierEvent M R))
    (hlock : (w.machines i.machine).lock = none)
    (hrefs : (w.machines i.machine).working ≠ none ∨ (w.machines i.machine).tracking ≠ none)
    (stamp : String) :
    Undisturbed LockedWrites i hist mergeTrackingNotes w (.ret .merged)
      (w.setMachine i.machine ((w.machines i.machine).merged stamp)) := by
  have hself := World.setMachine_self w i.machine
  refine Undisturbed.call (o := .lockNotes) LockAttempt.acquired ⟨hlock, rfl⟩ trivial ?_
  refine Undisturbed.call (o := .mergeNotes) (v := w.setMachine i.machine
    { (w.machines i.machine).merged stamp with lock := some i }) true ⟨?_, stamp, ?_⟩ trivial ?_
  · rw [hself]
    exact hrefs
  · rw [World.setMachine_setMachine, hself]
    rfl
  · exact Undisturbed.call (o := .dropLock) () (World.die_setMachine rfl).symm trivial
      (Undisturbed.refl _)

/-- A publish of a ref that is ahead of the site takes the site to it. -/
theorem undisturbed_publishNotes {remote : String} {site : R} {ours tip : NotesCommit}
    (hlock : (w.machines i.machine).lock = none)
    (hworking : (w.machines i.machine).working = some ours)
    (hurl : (w.machines i.machine).url remote = some site) (hsite : w.sites site = some tip)
    (hahead : NotesCommit.Reaches tip ours) :
    Undisturbed LockedWrites i [] (publishNotes remote) w (.ret (.ok (.published 1)))
      ((w.setMachine i.machine { w.machines i.machine with
          tracking := some tip, lock := none }).setSite site (some ours)) := by
  have hself := World.setMachine_self w i.machine
  -- The fetched notes are in the working ref already.
  have hsame : Machine.merged { w.machines i.machine with tracking := some tip } "merge"
      = { w.machines i.machine with tracking := some tip, lock := none } := by
    have href : World.mergedRef "merge" (w.machines i.machine).working (some tip)
        = (w.machines i.machine).working := by
      rw [hworking, World.mergedRef, if_pos hahead]
    rw [Machine.merged, href]
  have hmerge : ∀ hist : List (CarrierEvent M R), Undisturbed LockedWrites i hist mergeTrackingNotes
      (w.setMachine i.machine { w.machines i.machine with tracking := some tip }) (.ret .merged)
      (w.setMachine i.machine { w.machines i.machine with tracking := some tip, lock := none }) := by
    intro hist
    have h := undisturbed_mergeTrackingNotes (i := i) (w := w.setMachine i.machine
      { w.machines i.machine with tracking := some tip }) hist
      (by rw [hself]; exact hlock) (by rw [hself]; exact Or.inr (Option.some_ne_none _)) "merge"
    rwa [World.setMachine_setMachine, hself, hsame] at h
  refine Undisturbed.call (o := .inNotesPush) false rfl trivial ?_
  refine Undisturbed.call (o := .verifyWorking) true ⟨?_, rfl⟩ trivial ?_
  · rw [hworking]
    exact Option.some_ne_none _
  refine Undisturbed.call (o := .getUrl remote) true ⟨?_, rfl⟩ trivial ?_
  · rw [hurl]
    exact Option.some_ne_none _
  refine Undisturbed.call (o := .fetch remote) (v := w.setMachine i.machine
    { w.machines i.machine with tracking := some tip }) true ⟨site, hurl, tip, hsite, rfl⟩ trivial ?_
  refine Undisturbed.bind (p := mergeTrackingNotes) (hmerge _) (fun hist => ?_)
  refine Undisturbed.call (o := .push remote) (.ok ()) ⟨site, ?_, ours, ?_, ?_, rfl⟩ trivial
    (Undisturbed.refl _)
  · rw [hself]
    exact hurl
  · rw [hself]
    exact hworking
  · exact fun c hc => Option.some.inj (hsite.symm.trans hc) ▸ hahead

end Alone

end Spelunk
