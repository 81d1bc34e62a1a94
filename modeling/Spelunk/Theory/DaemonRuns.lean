import Spelunk.Core.ServerDaemon
import Spelunk.Lib.Transition

/-!
# Runs of the Local Server

Any number of commands over one state directory, in any order of their steps, each killed
anywhere, while processes come and go. In orderly runs there is at most one daemon, the
state files are those of it, and a signal is sent to no other process.

What carries this is what a command knows: one that has read a pid knows that no other
process is a daemon, and one that has found the process gone, or not a daemon, knows that
there is none. Nobody else spawns a daemon meanwhile: another `start` does not have the
lock, and a `stop` is not in progress while a `start` is, which nothing but the condition on
the run ensures.

## Main definitions

* `Orderly`: The steps of an orderly run.
* `Sound`: What holds in every orderly run.

## Theorems

* `Sound.step`: An orderly step keeps it.
* `lifecycleLaw`: The law of the local server.
* `lifecycle_false`: Runs that are not orderly.
-/

namespace Spelunk

namespace DaemonWorld

/-- The step relation. -/
def Step (s : DaemonWorld) (e : DaemonEvent) (t : DaemonWorld) : Prop := s.step e = some t

/-- The runs whose steps all meet a condition. -/
abbrev Runs (guard : DaemonWorld → DaemonEvent → Prop) (s t : DaemonWorld) : Prop :=
  Lib.GuardedRun Step guard s t

/-- Any step. -/
def AnyStep (_ : DaemonWorld) (_ : DaemonEvent) : Prop := True

/-- A live daemon started through the state directory. -/
def IsDaemon (s : DaemonWorld) (pid : ℕ) : Prop :=
  ∃ db port named, s.procs pid = some (.daemon db port named)

/-- The steps of an orderly run: a `stop` and a `start` do not overlap, a recorded pid is taken for
    a daemon exactly if it is one, `ensure_server_running` goes on only without the daemon it
    reclaims, the state files are written, and no command is killed between the spawn of a daemon
    and the record of its pid. -/
def Orderly (s : DaemonWorld) : DaemonEvent → Prop
  | .acquire _ => ∀ d r, s.commands d = some r → r.command = .stop → r.stage = .begun
  | .readPid c => ∀ r, s.commands c = some r → r.command = .stop → s.lock = none
  | .probe c (some _) =>
      ∀ pid port, s.commands c = some ⟨.stop, .probing pid port⟩ → s.IsDaemon pid
  | .identify c runs => ∀ command pid, s.commands c = some ⟨command, .asking pid⟩ →
      (s.matchesServer pid runs = true ↔ s.IsDaemon pid)
  | .forceOver c => ∀ startPort pid, s.commands c = some ⟨.ensure startPort, .forced pid⟩ →
      ¬ s.IsDaemon pid
  | .write _ written => written = true
  | .kill c => ∀ r pid port, s.commands c = some r → r.stage ≠ .recording pid port stateFiles
  | _ => True

/-! ### What holds in an orderly run -/

end DaemonWorld

namespace CommandStage

/-- The pid a command has read or spawned: no other process is a daemon. -/
def pid : CommandStage → Option ℕ
  | found pid => some pid
  | classifying pid => some pid
  | probing pid _ => some pid
  | asking pid => some pid
  | condemned pid => some pid
  | grace pid => some pid
  | escalating pid => some pid
  | forced pid => some pid
  | recording pid _ _ => some pid
  | _ => none

/-- A command has seen that there is no daemon. -/
def SeesNone : CommandStage → Prop
  | missed _ => True
  | gone => True
  | clearing _ => True
  | ready => True
  | _ => False

/-- A command has spawned a daemon. -/
def Records : CommandStage → Prop
  | recording _ _ _ => True
  | _ => False

end CommandStage

namespace DaemonWorld

/-- What holds in every orderly run. -/
structure Sound (s : DaemonWorld) : Prop where
  fresh : ∀ c, s.nextCommand ≤ c → s.commands c = none
  locked : ∀ c r, s.commands c = some r → r.command ≠ .stop → r.stage ≠ .begun →
    s.lock = some c
  apart : ∀ c r, s.commands c = some r → r.command = .stop → r.stage ≠ .begun → s.lock = none
  knows : ∀ c r pid, s.commands c = some r → r.stage.pid = some pid →
    ∀ q, s.IsDaemon q → q = pid
  seesNone : ∀ c r, s.commands c = some r → r.stage.SeesNone → ∀ q, ¬ s.IsDaemon q
  target : ∀ c r pid, s.commands c = some r → r.stage.target = some pid →
    s.procs pid ≠ none → s.IsDaemon pid
  recorded : ∀ p, s.IsDaemon p → s.pidFile = some p ∨
    ∃ c command port, s.commands c = some ⟨command, .recording p port stateFiles⟩
  spawned : ∀ c command p port rest, s.commands c = some ⟨command, .recording p port rest⟩ →
    command ≠ .stop ∧
    (∀ db port' named, s.procs p = some (.daemon db port' named) →
      db = command.db ∧ port' = port) ∧
    (.pid ∉ rest → s.pidFile = some p) ∧ (.port ∉ rest → s.portFile = some port) ∧
    (.dbPath ∉ rest → s.dbFile = some command.db)
  whole : s.killed = false → ∀ p db port named, s.procs p = some (.daemon db port named) →
    (s.pidFile = some p ∧ s.portFile = some port ∧ s.dbFile = some db) ∨
    ∃ c command port' rest, s.commands c = some ⟨command, .recording p port' rest⟩

attribute [grind =] Function.update_apply CommandStage.pid CommandStage.SeesNone
  CommandStage.target CommandStage.Records

theorem sound_start : Sound start := by
  constructor <;> simp [start, IsDaemon]

section Moves

variable {s : DaemonWorld} {c : ℕ} {command : ServerCommand} {stage stage' : CommandStage}
  {file : StateFile} {rest : List StateFile}

/-- A command at another stage knows what it needs to. -/
theorem Sound.goto (hs : Sound s) (hc : s.commands c = some ⟨command, stage⟩)
    (hbegun : stage = .begun → command = .stop ∧ s.lock = none) (hrecords : ¬ stage.Records)
    (hrecords' : ¬ stage'.Records)
    (hpid : ∀ pid, stage'.pid = some pid → ∀ q, s.IsDaemon q → q = pid)
    (hnone : stage'.SeesNone → ∀ q, ¬ s.IsDaemon q)
    (htarget : ∀ pid, stage'.target = some pid → s.procs pid ≠ none → s.IsDaemon pid) :
    Sound (s.goto c command stage') := by
  obtain ⟨hfresh, hlocked, happart, hknows, hseesNone, hsignal, hrecorded, hspawned, hwhole⟩ := hs
  have hd : ∀ q, IsDaemon { s with
      commands := Function.update s.commands c (some ⟨command, stage'⟩) } q ↔ s.IsDaemon q :=
    fun q => Iff.rfl
  constructor <;> simp only [DaemonWorld.goto, setCommand, hd] <;> grind

/-- A command goes on with the pid it has, and no closer to a signal. -/
theorem Sound.advance (hs : Sound s) (hc : s.commands c = some ⟨command, stage⟩)
    (hbegun : stage ≠ .begun) (hrecords : ¬ stage.Records) (hrecords' : ¬ stage'.Records)
    (hnone : ¬ stage'.SeesNone) (hpid : ∀ pid, stage'.pid = some pid → stage.pid = some pid)
    (htarget : ∀ pid, stage'.target = some pid → stage.target = some pid) :
    Sound (s.goto c command stage') :=
  hs.goto hc (absurd · hbegun) hrecords hrecords'
    (fun pid hp => hs.knows c _ pid hc (hpid pid hp)) (fun hsees => absurd hsees hnone)
    fun pid hp => hs.target c _ pid hc (htarget pid hp)

/-- A command sees that there is no daemon. -/
theorem Sound.seeNone (hs : Sound s) (hc : s.commands c = some ⟨command, stage⟩)
    (hbegun : stage ≠ .begun) (hrecords : ¬ stage.Records) (hsees : stage'.SeesNone)
    (hnone : ∀ q, ¬ s.IsDaemon q) : Sound (s.goto c command stage') := by
  refine hs.goto hc (absurd · hbegun) hrecords ?_ (fun pid hp => ?_) (fun _ => hnone)
    fun pid hp => ?_
  · cases stage' <;> simp_all [CommandStage.Records, CommandStage.SeesNone]
  · cases stage' <;> simp_all [CommandStage.pid, CommandStage.SeesNone]
  · cases stage' <;> simp_all [CommandStage.target, CommandStage.SeesNone]

/-- A command ends. -/
theorem Sound.leave (hs : Sound s) {killed : Bool} (hc : s.commands c = some ⟨command, stage⟩)
    (hkilled : killed = false → s.killed = false)
    (hspawn : ∀ p port, stage ≠ .recording p port stateFiles)
    (hrest : killed = false → ∀ p port rest, stage = .recording p port rest → rest = []) :
    Sound { s.leave c with killed := killed } := by
  obtain ⟨hfresh, hlocked, happart, hknows, hseesNone, hsignal, hrecorded, hspawned, hwhole⟩ := hs
  constructor
  case whole =>
    intro hk p db port named hp
    rcases hwhole (hkilled hk) p db port named hp with hfiles | ⟨d, dcommand, port', rest, hd⟩
    · exact .inl hfiles
    · by_cases hdc : d = c
      · -- It ends with its files written.
        subst hdc
        rw [hc, Option.some.injEq, RunningCommand.mk.injEq] at hd
        obtain ⟨rfl, hstage⟩ := hd
        obtain rfl := hrest hk p port' rest hstage
        rw [hstage] at hc
        obtain ⟨-, hsame, hpidFile, hportFile, hdbFile⟩ := hspawned d command p port' [] hc
        obtain ⟨rfl, rfl⟩ := hsame db port named hp
        exact .inl ⟨hpidFile (by simp), hportFile (by simp), hdbFile (by simp)⟩
      · refine .inr ⟨d, dcommand, port', rest, ?_⟩
        simpa [DaemonWorld.leave, setCommand, hdc] using hd
  case recorded =>
    intro p hp
    rcases hrecorded p hp with hfile | ⟨d, dcommand, port, hd⟩
    · exact .inl hfile
    · refine .inr ⟨d, dcommand, port, ?_⟩
      have hdc : d ≠ c := by
        rintro rfl
        rw [hc, Option.some.injEq, RunningCommand.mk.injEq] at hd
        exact hspawn p port hd.2
      simpa [DaemonWorld.leave, setCommand, hdc] using hd
  all_goals
    have hd : ∀ q, IsDaemon { s with
        commands := Function.update s.commands c none
        lock := if s.lock = some c then none else s.lock
        killed := killed } q ↔ s.IsDaemon q := fun q => Iff.rfl
    simp only [DaemonWorld.leave, setCommand, hd]
    grind

/-- A command that has spawned nothing ends. -/
theorem Sound.leave_free (hs : Sound s) (hc : s.commands c = some ⟨command, stage⟩)
    (hrecords : ¬ stage.Records) : Sound (s.leave c) := by
  refine hs.leave hc id (fun p port h => ?_) fun _ p port rest h => ?_
  all_goals
    subst h
    exact absurd trivial hrecords

/-- The process is gone. -/
theorem Sound.afterExit (hs : Sound s) (hc : s.commands c = some ⟨command, stage⟩)
    (hbegun : stage ≠ .begun) (hrecords : ¬ stage.Records) (hnone : ∀ q, ¬ s.IsDaemon q) :
    Sound (s.afterExit c command) := by
  cases command <;>
    exact hs.seeNone hc hbegun hrecords trivial hnone

/-- The process would not go, and is no daemon where the command goes on. -/
theorem Sound.afterRefusal (hs : Sound s) (hc : s.commands c = some ⟨command, stage⟩)
    (hbegun : stage ≠ .begun) (hrecords : ¬ stage.Records)
    (hnone : ∀ startPort, command = .ensure startPort → ∀ q, ¬ s.IsDaemon q) :
    Sound (s.afterRefusal c command) := by
  have hleave : Sound (s.leave c) := hs.leave_free hc hrecords
  cases command with
  | ensure startPort =>
    exact hs.seeNone hc hbegun hrecords trivial (hnone startPort rfl)
  | start => exact hleave
  | stop => exact hleave

theorem Sound.foundDead (hs : Sound s) (hc : s.commands c = some ⟨command, stage⟩)
    (hbegun : stage ≠ .begun) (hrecords : ¬ stage.Records) (hnone : ∀ q, ¬ s.IsDaemon q) :
    Sound (s.foundDead c command) := by
  cases command <;>
    exact hs.seeNone hc hbegun hrecords trivial hnone

/-- A process ends. -/
theorem Sound.exit (hs : Sound s) (pid : ℕ) : Sound (s.setProc pid none) := by
  obtain ⟨hfresh, hlocked, happart, hknows, hseesNone, hsignal, hrecorded, hspawned, hwhole⟩ := hs
  have hd : ∀ q, IsDaemon { s with procs := Function.update s.procs pid none } q ↔
      s.IsDaemon q ∧ q ≠ pid := by
    intro q
    by_cases hq : q = pid <;> simp [IsDaemon, hq]
  constructor <;> simp only [setProc, hd] <;> grind

/-- Another process takes a free pid. -/
theorem Sound.appear (hs : Sound s) {pid : ℕ} {port : Option ℕ} {named : Bool}
    (hfree : s.Free pid) : Sound (s.setProc pid (some (.other port named))) := by
  obtain ⟨hfresh, hlocked, happart, hknows, hseesNone, hsignal, hrecorded, hspawned, hwhole⟩ := hs
  have hd : ∀ q, IsDaemon { s with
      procs := Function.update s.procs pid (some (.other port named)) } q ↔ s.IsDaemon q := by
    intro q
    by_cases hq : q = pid <;> simp [IsDaemon, hq, hfree.1]
  -- No command that may still signal it has the pid.
  have htarget : ∀ c r, s.commands c = some r → r.stage.target ≠ some pid := by
    intro c r hc htarget
    refine hfree.2 ⟨c, ?_, by simp [hc, htarget]⟩
    by_contra hle
    rw [hfresh c (by omega)] at hc
    cases hc
  constructor <;> simp only [setProc, hd] <;> grind

theorem Sound.begin (hs : Sound s) (command : ServerCommand) :
    Sound { s.goto s.nextCommand command .begun with nextCommand := s.nextCommand + 1 } := by
  obtain ⟨hfresh, hlocked, happart, hknows, hseesNone, hsignal, hrecorded, hspawned, hwhole⟩ := hs
  have hnone := hfresh s.nextCommand (Nat.le_refl _)
  have hd : ∀ q, IsDaemon { s with
      commands := Function.update s.commands s.nextCommand (some ⟨command, .begun⟩)
      nextCommand := s.nextCommand + 1 } q ↔ s.IsDaemon q := fun q => Iff.rfl
  constructor <;> simp only [DaemonWorld.goto, setCommand, hd, Function.update_apply] <;> grind

/-- A `start` gets the lock, and no `stop` is in progress. -/
theorem Sound.acquire (hs : Sound s) (hc : s.commands c = some ⟨command, .begun⟩)
    (hstart : command ≠ .stop) (hlock : s.lock = none)
    (hguard : ∀ d r, s.commands d = some r → r.command = .stop → r.stage = .begun) :
    Sound { s.goto c command .locked with lock := some c } := by
  obtain ⟨hfresh, hlocked, happart, hknows, hseesNone, hsignal, hrecorded, hspawned, hwhole⟩ := hs
  have hd : ∀ q, IsDaemon { s with
      commands := Function.update s.commands c (some ⟨command, .locked⟩)
      lock := some c } q ↔ s.IsDaemon q := fun q => Iff.rfl
  constructor <;> simp only [DaemonWorld.goto, setCommand, hd, Function.update_apply] <;> grind

/-- A file of no daemon is removed. -/
theorem Sound.remove (hs : Sound s) (hc : s.commands c = some ⟨command, .clearing (file :: rest)⟩)
    (removed : Bool) :
    Sound ((if removed then s.removeFile file else s).goto c command (.clearing rest)) := by
  have hnone : ∀ q, ¬ s.IsDaemon q := hs.seesNone c _ hc trivial
  -- Nobody else is recording: the lock is with this command, or with none.
  have halone : ∀ d dcommand p port files,
      s.commands d ≠ some ⟨dcommand, .recording p port files⟩ := by
    intro d dcommand p port files hd
    have hstart := (hs.spawned d dcommand p port files hd).1
    have hlock := hs.locked d _ hd hstart (by simp)
    by_cases hstop : command = .stop
    · have := hs.apart c _ hc hstop (by simp)
      simp [hlock] at this
    · have := hs.locked c _ hc hstop (by simp)
      rw [hlock, Option.some.injEq] at this
      subst this
      rw [hc, Option.some.injEq, RunningCommand.mk.injEq] at hd
      exact absurd hd.2 (by simp)
  have hkeep : Sound (if removed then s.removeFile file else s) := by
    split
    · obtain ⟨hfresh, hlocked, happart, hknows, hseesNone, hsignal, hrecorded, hspawned, hwhole⟩ :=
        hs
      have hd : ∀ p db port named, s.procs p ≠ some (.daemon db port named) :=
        fun p db port named hp => hnone p ⟨db, port, named, hp⟩
      cases file
      all_goals exact ⟨hfresh, hlocked, happart, hknows, hseesNone, hsignal,
        fun p hp => absurd hp (hnone p),
        fun d dcommand p port files hd => absurd hd (halone d dcommand p port files),
        fun _ p db port named hp => absurd hp (hd p db port named)⟩
    · exact hs
  have hcommand : (if removed then s.removeFile file else s).commands c =
      some ⟨command, .clearing (file :: rest)⟩ := by
    split
    · cases file <;> exact hc
    · exact hc
  refine hkeep.seeNone hcommand (by simp) id trivial fun q hq => hnone q ?_
  split at hq
  · cases file <;> exact hq
  · exact hq

/-- A daemon is spawned, by the command with the lock. -/
theorem Sound.spawn (hs : Sound s) {pid port : ℕ} {named : Bool}
    (hc : s.commands c = some ⟨command, .ready⟩) (hstart : command ≠ .stop)
    (hfree : s.procs pid = none) :
    Sound ((s.setProc pid (some (.daemon command.db port named))).goto c command
      (.recording pid port stateFiles)) := by
  have hnone : ∀ q, ¬ s.IsDaemon q := hs.seesNone c _ hc trivial
  have hlock : s.lock = some c := hs.locked c _ hc hstart (by simp)
  -- The other commands have not got past their first step.
  have hothers : ∀ d r, s.commands d = some r → d ≠ c → r.stage = .begun := by
    intro d r hd hdc
    by_contra hbegun
    by_cases hstop : r.command = .stop
    · simp [hs.apart d r hd hstop hbegun] at hlock
    · rw [hs.locked d r hd hstop hbegun, Option.some.injEq] at hlock
      exact hdc hlock
  obtain ⟨hfresh, hlocked, happart, hknows, hseesNone, hsignal, hrecorded, hspawned, hwhole⟩ := hs
  have hd : ∀ q, IsDaemon { s with
      procs := Function.update s.procs pid (some (.daemon command.db port named))
      commands := Function.update s.commands c
        (some ⟨command, .recording pid port stateFiles⟩) } q ↔ q = pid := by
    intro q
    by_cases hq : q = pid
    · simp [IsDaemon, hq]
    · refine ⟨fun h => ?_, fun h => absurd h hq⟩
      obtain ⟨db, port', named', hp⟩ := h
      simp only [Function.update_of_ne hq] at hp
      exact absurd ⟨db, port', named', hp⟩ (hnone q)
  have hfiles : ∀ file : StateFile, file ∈ stateFiles := by
    intro file
    cases file <;> simp [stateFiles]
  constructor <;> simp only [DaemonWorld.goto, setCommand, setProc, hd, Function.update_apply]
  case recorded =>
    rintro p rfl
    exact .inr ⟨c, command, port, by simp⟩
  case whole =>
    intro _ p db port' named' hp
    by_cases hpid : p = pid
    · exact .inr ⟨c, command, port, stateFiles, by simp [hpid]⟩
    · rw [if_neg hpid] at hp
      exact absurd ⟨db, port', named', hp⟩ (hnone p)
  all_goals grind

/-- A state file of the new daemon is written. -/
theorem Sound.write (hs : Sound s) {pid port : ℕ}
    (hc : s.commands c = some ⟨command, .recording pid port (file :: rest)⟩) :
    Sound ((s.writeFile pid port command.db file).goto c command (.recording pid port rest)) := by
  have hstart := (hs.spawned c command pid port _ hc).1
  have hlock := hs.locked c _ hc hstart (by simp)
  have halone : ∀ d dcommand p port' files,
      s.commands d = some ⟨dcommand, .recording p port' files⟩ → d = c := by
    intro d dcommand p port' files hd
    have := hs.locked d _ hd (hs.spawned d dcommand p port' files hd).1 (by simp)
    rw [hlock, Option.some.injEq] at this
    exact this.symm
  have honly : ∀ q, s.IsDaemon q → q = pid := hs.knows c _ pid hc rfl
  obtain ⟨hfresh, hlocked, happart, hknows, hseesNone, hsignal, hrecorded, hspawned, hwhole⟩ := hs
  obtain ⟨-, hsame, hpidFile, hportFile, hdbFile⟩ := hspawned c command pid port _ hc
  -- The pid is written first.
  have hfirst : ∀ q, s.IsDaemon q → file ≠ .pid → s.pidFile = some q := by
    intro q hq hfile
    rcases hrecorded q hq with h | ⟨d, dcommand, port', hd⟩
    · exact h
    · have hdc := halone d dcommand q port' _ hd
      rw [hdc, hc, Option.some.injEq, RunningCommand.mk.injEq] at hd
      simp only [CommandStage.recording.injEq, stateFiles, List.cons.injEq] at hd
      exact absurd hd.2.2.2.1 hfile
  have hd : ∀ q, IsDaemon ((s.writeFile pid port command.db file).goto c command
      (.recording pid port rest)) q ↔ s.IsDaemon q := by
    intro q
    cases file <;> exact Iff.rfl
  have hrecording : ∃ d dcommand port' files, Function.update s.commands c
      (some ⟨command, .recording pid port rest⟩) d =
        some ⟨dcommand, .recording pid port' files⟩ := ⟨c, command, port, rest, by simp⟩
  have hall : ∀ p db port' named, s.procs p = some (.daemon db port' named) → p = pid :=
    fun p db port' named hp => honly p ⟨db, port', named, hp⟩
  cases file
  all_goals
    constructor
    case recorded =>
      intro q hq
      rw [hd] at hq
      first
        | exact .inl (hfirst q hq (by simp))
        | exact .inl (congrArg some (honly q hq).symm)
    case whole =>
      intro _ p db port' named hp
      obtain rfl := hall p db port' named hp
      exact .inr hrecording
    case spawned =>
      intro d dcommand p port' files hrec
      have hdc : d = c := by
        by_contra hne
        refine hne (halone d dcommand p port' files ?_)
        simpa [DaemonWorld.goto, setCommand, writeFile, hne] using hrec
      subst hdc
      simp only [DaemonWorld.goto, setCommand, Function.update_self, Option.some.injEq,
        RunningCommand.mk.injEq, CommandStage.recording.injEq] at hrec
      obtain ⟨rfl, rfl, rfl, rfl⟩ := hrec
      refine ⟨hstart, hsame, fun h => ?_, fun h => ?_, fun h => ?_⟩ <;>
        first
          | rfl
          | exact hpidFile (by simpa using h)
          | exact hportFile (by simpa using h)
          | exact hdbFile (by simpa using h)
    all_goals
      clear hrecording hall hfirst hpidFile hportFile hdbFile hsame hspawned hwhole hrecorded
    case fresh | locked | apart =>
      simp only [DaemonWorld.goto, setCommand, writeFile, Function.update_apply]
      grind
    all_goals
      simp only [hd]
      simp only [DaemonWorld.goto, setCommand, writeFile, Function.update_apply]
      clear hd
      grind

theorem commandStep_kill (s : DaemonWorld) (c d : ℕ) (command : ServerCommand)
    (stage : CommandStage) :
    s.commandStep c command stage (.kill d) = some { s.leave c with killed := true } := by
  cases stage with
  | clearing rest => cases rest <;> rfl
  | recording pid port rest => cases rest <;> rfl
  | _ => rfl

/-- Only the process of a pid that a command has read is a daemon, and not if it is gone. -/
theorem Sound.none_of_gone (hs : Sound s) {pid : ℕ} (hc : s.commands c = some ⟨command, stage⟩)
    (hpid : stage.pid = some pid) (hgone : ¬ s.IsDaemon pid) (q : ℕ) : ¬ s.IsDaemon q := by
  intro hq
  rw [hs.knows c _ pid hc hpid q hq] at hq
  exact hgone hq

theorem not_isDaemon_of_none {pid : ℕ} (h : s.procs pid = none) : ¬ s.IsDaemon pid := by
  rintro ⟨db, port, named, hp⟩
  rw [h] at hp
  cases hp

/-- A pid that is read is that of the daemon. -/
theorem Sound.readPid (hs : Sound s) (hc : s.commands c = some ⟨command, stage⟩)
    (hrecords : ¬ stage.Records)
    (hlock : s.lock = none ∨ s.lock = some c) (q : ℕ) (hq : s.IsDaemon q) :
    s.pidFile = some q := by
  rcases hs.recorded q hq with h | ⟨d, dcommand, port, hd⟩
  · exact h
  · have := hs.locked d _ hd (hs.spawned d dcommand q port _ hd).1 (by simp)
    rcases hlock with hlock | hlock
    · simp [hlock] at this
    · rw [hlock, Option.some.injEq] at this
      subst this
      rw [hc, Option.some.injEq, RunningCommand.mk.injEq] at hd
      rw [hd.2] at hrecords
      exact absurd trivial hrecords

/-- An orderly step of a command. Where `id` stands for a proof, the stage is none that records or
    sees none, by its name. -/
theorem Sound.commandStep {t : DaemonWorld} {e : DaemonEvent} (hs : Sound s)
    (hc : s.commands c = some ⟨command, stage⟩) (hof : commandOf e = some c)
    (hguard : Orderly s e) (h : s.commandStep c command stage e = some t) : Sound t := by
  by_cases hkill : e = .kill c
  · subst hkill
    rw [commandStep_kill, Option.some.injEq] at h
    subst h
    exact hs.leave hc (fun hf => by cases hf) (fun p port => hguard _ p port hc)
      (fun hf => by cases hf)
  have hnoKill : ∀ d, e ≠ .kill d := by
    rintro d rfl
    exact hkill (congrArg DaemonEvent.kill (Option.some.inj hof))
  have hnone : ∀ {pid}, stage.pid = some pid → s.procs pid = none → ∀ q, ¬ s.IsDaemon q :=
    fun hpid hgone => hs.none_of_gone hc hpid (not_isDaemon_of_none hgone)
  cases stage with
  | begun =>
    cases e <;> simp only [DaemonWorld.commandStep, reduceCtorEq] at h
    case acquire d =>
      obtain ⟨hstop, h⟩ := Option.ite_none_left_eq_some.1 h
      split at h
      · next hlock =>
        cases h
        exact hs.acquire hc hstop hlock hguard
      · cases h
        exact hs.leave_free hc id
    case readPid d =>
      obtain rfl : d = c := Option.some.inj hof
      obtain ⟨hstop, h⟩ := Option.ite_none_left_eq_some.1 h
      rw [not_not] at hstop
      have hlock : s.lock = none := hguard _ hc hstop
      have hread := hs.readPid hc id (.inl hlock)
      split at h
      · next pid hpid =>
        cases h
        refine hs.goto hc (fun _ => ⟨hstop, hlock⟩) id id (fun pid' hp q hq => ?_)
          False.elim (by simp [CommandStage.target])
        obtain rfl : pid = pid' := Option.some.inj hp
        exact Option.some.inj ((hread q hq).symm.trans hpid)
      · cases h
        exact hs.leave_free hc id
    case kill d => exact absurd rfl (hnoKill d)
  | locked =>
    cases e <;> simp only [DaemonWorld.commandStep, reduceCtorEq] at h
    case readPid d =>
      have hlock : s.lock = none ∨ s.lock = some c := by
        by_cases hstop : command = .stop
        · exact .inl (hs.apart c _ hc hstop (by simp))
        · exact .inr (hs.locked c _ hc hstop (by simp))
      have hread := hs.readPid hc id hlock
      split at h
      · next pid hpid =>
        cases h
        refine hs.goto hc (by simp) id id (fun pid' hp q hq => ?_) False.elim
          (by simp [CommandStage.target])
        obtain rfl : pid = pid' := Option.some.inj hp
        exact Option.some.inj ((hread q hq).symm.trans hpid)
      · next hpid =>
        cases h
        refine hs.seeNone hc (by simp) id trivial fun q hq => ?_
        have := hread q hq
        simp [hpid] at this
    case kill d => exact absurd rfl (hnoKill d)
  | found pid =>
    cases e <;> simp only [DaemonWorld.commandStep, reduceCtorEq] at h
    case checkAlive d =>
      split at h
      · next hgone =>
        cases h
        exact hs.foundDead hc (by simp) id (hnone rfl hgone)
      · cases h
        exact hs.advance hc (by simp) id id id (fun _ hp => hp) (by simp [CommandStage.target])
    case kill d => exact absurd rfl (hnoKill d)
  | classifying pid =>
    cases e <;> simp only [DaemonWorld.commandStep, reduceCtorEq] at h
    case readPort d =>
      split at h
      all_goals
        cases h
        exact hs.advance hc (by simp) id id id (fun _ hp => hp) (by simp [CommandStage.target])
    case kill d => exact absurd rfl (hnoKill d)
  | probing pid port =>
    cases e <;> simp only [DaemonWorld.commandStep, reduceCtorEq] at h
    case probe d answer =>
      obtain rfl : d = c := Option.some.inj hof
      cases answer with
      | none =>
        cases h
        exact hs.advance hc (by simp) id id id (fun _ hp => hp) (by simp [CommandStage.target])
      | some answer =>
        simp only [Option.ite_none_right_eq_some, Option.some.injEq] at h
        obtain ⟨-, rfl⟩ := h
        cases command with
        | stop =>
          have hdaemon : s.IsDaemon pid := hguard pid port hc
          refine hs.goto hc (by simp) id id (fun pid' hp => hs.knows d _ pid' hc hp)
            False.elim (fun pid' hp _ => ?_)
          obtain rfl : pid = pid' := Option.some.inj hp
          exact hdaemon
        | start => exact hs.leave_free hc id
        | ensure => exact hs.leave_free hc id
    case kill d => exact absurd rfl (hnoKill d)
  | asking pid =>
    cases e <;> simp only [DaemonWorld.commandStep, reduceCtorEq] at h
    case identify d runs =>
      obtain rfl : d = c := Option.some.inj hof
      have hps := hguard command pid hc
      split at h
      · next hmatch =>
        cases h
        refine hs.goto hc (by simp) id id (fun pid' hp => hs.knows d _ pid' hc hp)
          False.elim (fun pid' hp _ => ?_)
        obtain rfl : pid = pid' := Option.some.inj hp
        exact hps.1 hmatch
      · next hmatch =>
        cases h
        have hno := hs.none_of_gone hc rfl fun hd => hmatch (hps.2 hd)
        cases command with
        | stop => exact hs.leave_free hc id
        | start =>
          exact hs.seeNone hc (by simp) id trivial hno
        | ensure =>
          exact hs.seeNone hc (by simp) id trivial hno
    case kill d => exact absurd rfl (hnoKill d)
  | condemned pid =>
    cases e <;> simp only [DaemonWorld.commandStep, reduceCtorEq] at h
    case terminate d =>
      split at h
      · next hgone =>
        cases h
        exact hs.seeNone hc (by simp) id trivial (hnone rfl hgone)
      · cases h
        exact hs.advance hc (by simp) id id id (fun _ hp => hp) (fun _ hp => hp)
    case kill d => exact absurd rfl (hnoKill d)
  | missed pid =>
    cases e <;> simp only [DaemonWorld.commandStep, reduceCtorEq] at h
    case checkAlive d =>
      have hno : ∀ q, ¬ s.IsDaemon q := hs.seesNone c _ hc trivial
      split at h
      · cases h
        exact hs.afterExit hc (by simp) id hno
      · cases h
        exact hs.afterRefusal hc (by simp) id fun _ _ => hno
    case kill d => exact absurd rfl (hnoKill d)
  | grace pid =>
    cases e <;> simp only [DaemonWorld.commandStep, reduceCtorEq] at h
    case seeExit d =>
      simp only [Option.ite_none_right_eq_some, Option.some.injEq] at h
      obtain ⟨hgone, rfl⟩ := h
      exact hs.afterExit hc (by simp) id (hnone rfl hgone)
    case graceOver d =>
      simp only [Option.ite_none_left_eq_some, Option.some.injEq] at h
      obtain ⟨-, rfl⟩ := h
      exact hs.advance hc (by simp) id id id (fun _ hp => hp) (fun _ hp => hp)
    case kill d => exact absurd rfl (hnoKill d)
  | escalating pid =>
    cases e <;> simp only [DaemonWorld.commandStep, reduceCtorEq] at h
    case forceKill d =>
      cases h
      exact hs.advance hc (by simp) id id id (fun _ hp => hp) (by simp [CommandStage.target])
    case kill d => exact absurd rfl (hnoKill d)
  | forced pid =>
    cases e <;> simp only [DaemonWorld.commandStep, reduceCtorEq] at h
    case seeExit d =>
      simp only [Option.ite_none_right_eq_some, Option.some.injEq] at h
      obtain ⟨hgone, rfl⟩ := h
      exact hs.afterExit hc (by simp) id (hnone rfl hgone)
    case forceOver d =>
      obtain rfl : d = c := Option.some.inj hof
      simp only [Option.ite_none_left_eq_some, Option.some.injEq] at h
      obtain ⟨-, rfl⟩ := h
      refine hs.afterRefusal hc (by simp) id ?_
      rintro startPort rfl
      exact hs.none_of_gone hc rfl (hguard startPort pid hc)
    case kill d => exact absurd rfl (hnoKill d)
  | gone =>
    cases e <;> simp only [DaemonWorld.commandStep, reduceCtorEq] at h
    case report d =>
      cases h
      exact hs.seeNone hc (by simp) id trivial (hs.seesNone c _ hc trivial)
    case kill d => exact absurd rfl (hnoKill d)
  | clearing rest =>
    cases rest with
    | nil =>
      cases e <;> simp only [DaemonWorld.commandStep, reduceCtorEq] at h
      case cleared d =>
        split at h
        · cases h
          exact hs.leave_free hc id
        · cases h
          exact hs.seeNone hc (by simp) id trivial (hs.seesNone c _ hc trivial)
      case kill d => exact absurd rfl (hnoKill d)
    | cons file rest =>
      cases e <;> simp only [DaemonWorld.commandStep, reduceCtorEq] at h
      case remove d removed =>
        cases h
        exact hs.remove hc removed
      case kill d => exact absurd rfl (hnoKill d)
  | ready =>
    cases e <;> simp only [DaemonWorld.commandStep, reduceCtorEq] at h
    case spawn d pid port named =>
      simp only [Option.ite_none_right_eq_some, Option.some.injEq] at h
      obtain ⟨⟨hport, hfree⟩, rfl⟩ := h
      refine hs.spawn hc ?_ hfree.1
      rintro rfl
      simp [ServerCommand.portRange] at hport
    case cannotSpawn d =>
      cases h
      exact hs.leave_free hc id
    case kill d => exact absurd rfl (hnoKill d)
  | recording pid port rest =>
    cases rest with
    | nil =>
      cases e <;> simp only [DaemonWorld.commandStep, reduceCtorEq] at h
      case finish d =>
        cases h
        refine hs.leave hc id (fun p port' heq => ?_) fun _ p port' rest heq => ?_
        · simp [stateFiles] at heq
        · simp only [CommandStage.recording.injEq] at heq
          exact heq.2.2.symm
      case kill d => exact absurd rfl (hnoKill d)
    | cons file rest =>
      cases e <;> simp only [DaemonWorld.commandStep, reduceCtorEq] at h
      case write d written =>
        obtain rfl : written = true := hguard
        cases h
        exact hs.write hc
      case kill d => exact absurd rfl (hnoKill d)

/-- An orderly step. -/
theorem Sound.step {t : DaemonWorld} {e : DaemonEvent} (hs : Sound s) (hguard : Orderly s e)
    (h : s.step e = some t) : Sound t := by
  cases e with
  | appear pid port named =>
    simp only [DaemonWorld.step, Option.ite_none_right_eq_some, Option.some.injEq] at h
    obtain ⟨hfree, rfl⟩ := h
    exact hs.appear hfree
  | exit pid =>
    cases h
    exact hs.exit pid
  | begin command =>
    cases h
    exact hs.begin command
  | _ =>
    simp only [DaemonWorld.step, commandOf] at h
    split at h
    · next r hc => exact hs.commandStep hc rfl hguard h
    · cases h

end Moves

theorem run_sound {s : DaemonWorld} (h : Runs Orderly start s) : Sound s :=
  h.invariant (I := Sound) sound_start fun _ _ _ hs hguard hstep => hs.step hguard hstep

/-! ### The law -/

/-- A step signals a process. -/
def Signals (s : DaemonWorld) (pid : ℕ) : DaemonEvent → Prop
  | .terminate c =>
      s.procs pid ≠ none ∧ ∃ command, s.commands c = some ⟨command, .condemned pid⟩
  | .forceKill c =>
      s.procs pid ≠ none ∧ ∃ command, s.commands c = some ⟨command, .escalating pid⟩
  | _ => False

/-- `stop` says that the server is stopped, or ends as a success. -/
def ReportsStopped (s : DaemonWorld) : DaemonEvent → Prop
  | .report c => ∃ command, s.commands c = some ⟨command, .gone⟩
  | .cleared c => s.commands c = some ⟨.stop, .clearing []⟩
  | _ => False

/-- A step removes a state file. -/
def Removes (s : DaemonWorld) (file : StateFile) : DaemonEvent → Prop
  | .remove c removed =>
      removed = true ∧ ∃ command rest, s.commands c = some ⟨command, .clearing (file :: rest)⟩
  | _ => False

/-- A state file is that of a daemon. -/
def FileOf (s : DaemonWorld) (pid port : ℕ) (db : String) : StateFile → Prop
  | .pid => s.pidFile = some pid
  | .port => s.portFile = some port
  | .dbPath => s.dbFile = some db

/-- The clauses of the law: one daemon a database, signals to daemons only, a stop that is one, no
    file taken from a daemon, and every daemon recorded when all is quiet. -/
structure Lifecycle (s : DaemonWorld) : Prop where
  exclusive : ∀ p q db port port' named named', s.procs p = some (.daemon db port named) →
    s.procs q = some (.daemon db port' named') → p = q
  signals : ∀ e pid, Signals s pid e → s.IsDaemon pid
  stopped : ∀ e, ReportsStopped s e → ∀ p, s.pidFile = some p → ¬ s.IsDaemon p
  removals : ∀ e file, Removes s file e → ∀ p db port named,
    s.procs p = some (.daemon db port named) → ¬ FileOf s p port db file
  quiet : (∀ c, s.commands c = none) → s.killed = false → ∀ p db port named,
    s.procs p = some (.daemon db port named) → ∀ file, FileOf s p port db file

/-- In a sound state there is one daemon at most. -/
theorem Sound.exclusive {s : DaemonWorld} (hs : Sound s) {p q : ℕ} (hp : s.IsDaemon p)
    (hq : s.IsDaemon q) : p = q := by
  rcases hs.recorded p hp with hpFile | ⟨c, command, port, hc⟩
  · rcases hs.recorded q hq with hqFile | ⟨c, command, port, hc⟩
    · exact Option.some.inj (hpFile.symm.trans hqFile)
    · exact hs.knows c _ q hc rfl p hp
  · exact (hs.knows c _ p hc rfl q hq).symm

/-- The law of the local server: every state of an orderly run is as it says. -/
theorem lifecycleLaw (s : DaemonWorld) (h : Runs Orderly start s) : Lifecycle s := by
  have hs := run_sound h
  constructor
  · intro p q db port port' named named' hp hq
    exact hs.exclusive ⟨db, port, named, hp⟩ ⟨db, port', named', hq⟩
  · intro e pid he
    cases e with
    | terminate c =>
      obtain ⟨halive, command, hc⟩ := he
      exact hs.target c _ pid hc rfl halive
    | forceKill c =>
      obtain ⟨halive, command, hc⟩ := he
      exact hs.target c _ pid hc rfl halive
    | _ => exact he.elim
  · intro e he p _
    cases e with
    | report c =>
      obtain ⟨command, hc⟩ := he
      exact hs.seesNone c _ hc trivial p
    | cleared c => exact hs.seesNone c _ he trivial p
    | _ => exact he.elim
  · intro e file he p db port named hp _
    cases e with
    | remove c removed =>
      obtain ⟨-, command, rest, hc⟩ := he
      exact hs.seesNone c _ hc trivial p ⟨db, port, named, hp⟩
    | _ => exact he.elim
  · intro hquiet hkilled p db port named hp file
    rcases hs.whole hkilled p db port named hp with hfiles | ⟨c, command, port', rest, hc⟩
    · cases file
      · exact hfiles.1
      · exact hfiles.2.1
      · exact hfiles.2.2
    · rw [hquiet c] at hc
      cases hc

/-- A daemon is started, with the pid 1. -/
def firstStart : List DaemonEvent :=
  [.begin (.start 7777 "server.db"), .acquire 0, .readPid 0, .spawn 0 1 7777 true, .write 0 true,
    .write 0 true, .write 0 true, .finish 0]

theorem lifecycleLaw_firstStart :
    ∃ s, start.run firstStart = some s ∧ s.IsDaemon 1 ∧ Lifecycle s := by
  refine ⟨_, rfl, ⟨"server.db", 7777, true, rfl⟩, lifecycleLaw _ ?_⟩
  have hbegun : Runs Orderly start _ := .tail (.begin (.start 7777 "server.db")) .refl trivial rfl
  have hlocked := hbegun.tail (DaemonEvent.acquire 0) (by
    intro d r hr hstop
    by_cases hd : d = 0
    · subst hd
      cases hr
      rfl
    · simp [start, DaemonWorld.goto, setCommand, hd] at hr) rfl
  have hready := hlocked.tail (DaemonEvent.readPid 0) (by
    intro r hr hstop
    cases hr
    cases hstop) rfl
  have hspawned := hready.tail (DaemonEvent.spawn 0 1 7777 true) trivial rfl
  have hpid := hspawned.tail (DaemonEvent.write 0 true) (by rfl) rfl
  have hport := hpid.tail (DaemonEvent.write 0 true) (by rfl) rfl
  have hdb := hport.tail (DaemonEvent.write 0 true) (by rfl) rfl
  exact hdb.tail (DaemonEvent.finish 0) trivial rfl

/-! ### Runs that are not orderly -/

/-- A list of steps is a run. -/
theorem runs_of_events {es : List DaemonEvent} {s t u : DaemonWorld} (hs : Runs AnyStep s t)
    (h : t.run es = some u) : Runs AnyStep s u := by
  induction es generalizing t with
  | nil => exact Option.some.inj h ▸ hs
  | cons e es ih =>
    obtain ⟨v, hstep, hrest⟩ := Option.bind_eq_some_iff.1 h
    exact ih (hs.tail e trivial hstep) hrest

/-- The files of a command that clears. -/
def clears (c : ℕ) : List DaemonEvent :=
  [.remove c true, .remove c true, .remove c true, .cleared c]

/-- The files of a command that has spawned. -/
def records (c : ℕ) : List DaemonEvent :=
  [.write c true, .write c true, .write c true, .finish c]

/-- The daemon hangs and outlives both signals, and `ensure_server_running` goes on. -/
def refusedReclaim : List DaemonEvent :=
  firstStart ++ [.begin (.ensure 7777), .acquire 1, .readPid 1, .checkAlive 1, .readPort 1,
    .probe 1 none, .identify 1 true, .terminate 1, .graceOver 1, .forceKill 1, .forceOver 1] ++
    clears 1 ++ [.spawn 1 2 7778 true] ++ records 1

/-- A `start` comes between the end of the daemon and the cleanup of the `stop`. -/
def overtakenStop : List DaemonEvent :=
  firstStart ++ [.begin .stop, .readPid 1, .checkAlive 1, .readPort 1, .probe 1 (some 1),
    .terminate 1, .exit 1, .begin (.start 7777 "server.db"), .acquire 2, .readPid 2,
    .checkAlive 2] ++ clears 2 ++ [.spawn 2 2 7777 true] ++ records 2 ++ [.seeExit 1]

/-- The daemon crashes, and an editor with `spelunk-server` in its command line has its pid. -/
def takenPid : List DaemonEvent :=
  firstStart ++ [.exit 1, .appear 1 none true, .begin .stop, .readPid 1, .checkAlive 1,
    .readPort 1, .probe 1 none, .identify 1 true]

/-- Two daemons of one database; a stop that is reported, and takes the files of a live daemon; a
    signal to another process. -/
theorem lifecycle_false :
    (∃ s, start.run refusedReclaim = some s ∧
      s.procs 1 = some (.daemon "server.db" 7777 true) ∧
      s.procs 2 = some (.daemon "server.db" 7778 true)) ∧
    (∃ s, start.run overtakenStop = some s ∧ s.pidFile = some 2 ∧ s.IsDaemon 2 ∧
      ReportsStopped s (.report 1) ∧ ∃ t, s.step (.report 1) = some t ∧
        Removes t .pid (.remove 1 true) ∧ FileOf t 2 7777 "server.db" .pid) ∧
    (∃ s, start.run takenPid = some s ∧ Signals s 1 (.terminate 1) ∧
      s.procs 1 = some (.other none true)) ∧
    ¬ ∀ s, Runs AnyStep start s → Lifecycle s := by
  have hreclaim : ∃ s, start.run refusedReclaim = some s ∧
      s.procs 1 = some (.daemon "server.db" 7777 true) ∧
      s.procs 2 = some (.daemon "server.db" 7778 true) := ⟨_, rfl, rfl, rfl⟩
  refine ⟨hreclaim, ⟨_, rfl, rfl, ⟨_, _, _, rfl⟩, ⟨_, rfl⟩, _, rfl, ⟨rfl, _, _, rfl⟩, rfl⟩,
    ⟨_, rfl, ⟨Option.some_ne_none _, _, rfl⟩, rfl⟩, fun hall => ?_⟩
  obtain ⟨s, hrun, hfirst, hsecond⟩ := hreclaim
  have hsame := (hall s (runs_of_events .refl hrun)).exclusive 1 2 _ _ _ _ _ hfirst hsecond
  exact absurd hsame (by decide)

end DaemonWorld

end Spelunk
