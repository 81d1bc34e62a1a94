import Mathlib.Data.Nat.Notation
import Mathlib.Logic.Function.Basic

/-!
# The Local Server

`spelunk server start`, `ensure_server_running` and `spelunk server stop` over one state
directory, step by step, among the other processes of the machine. A command is at a
stage; a daemon is a process that was started through the directory. Whether a port is
free, whether a daemon answers in time and whether it heeds a signal are left to the
steps of the run.

A pid is free once its process is gone, and may be taken again, though not while a
command that has classified it may still signal it. Databases are named by their
canonical paths. What the commands print, and the log, are left out.

## Main definitions

* `DaemonWorld`: The processes, the state files, the start lock and the commands.
* `DaemonWorld.step`: One step of a command or of another process.
-/

namespace Spelunk

/-- A process: a daemon with its database and port, or any other, which may serve a port. Whether
    `spelunk-server` stands in its command line is what `ps` tells. -/
inductive ServerProcess where
  | daemon (db : String) (port : ℕ) (named : Bool)
  | other (port : Option ℕ) (named : Bool)
deriving DecidableEq, Repr

namespace ServerProcess

/-- Whether `spelunk-server` stands in its command line. -/
def named : ServerProcess → Bool
  | daemon _ _ named => named
  | other _ named => named

/-- The port whose `/v1/health` it may answer. -/
def port : ServerProcess → Option ℕ
  | daemon _ port _ => some port
  | other port _ => port

end ServerProcess

/-- The commands: `server start` with its port and database, `ensure_server_running` with its first
    port, `server stop`. -/
inductive ServerCommand where
  | start (port : ℕ) (db : String)
  | ensure (startPort : ℕ)
  | stop
deriving DecidableEq, Repr

/-- The database of the daemon a command starts. -/
def ServerCommand.db : ServerCommand → String
  | start _ db => db
  | _ => "server.db"

/-- The ports a command may start a daemon on. -/
def ServerCommand.portRange : ServerCommand → List ℕ
  | start port _ => [port]
  | ensure startPort => (List.range 11).map (startPort + ·)
  | stop => []

/-- The state files, beside the log. -/
inductive StateFile where
  | pid
  | port
  | dbPath
deriving DecidableEq, Repr

/-- The order in which they are written and removed. -/
def stateFiles : List StateFile := [.pid, .port, .dbPath]

/-- Where a command stands. -/
inductive CommandStage where
  /-- Before `acquire_start_lock`, or before `stop` reads the pid. -/
  | begun
  /-- With the start lock, before the pid is read. -/
  | locked
  /-- Before `pid_is_alive`. -/
  | found (pid : ℕ)
  /-- Before the port is read. -/
  | classifying (pid : ℕ)
  /-- Before `probe_health`. -/
  | probing (pid port : ℕ)
  /-- Before `process_matches_server`. -/
  | asking (pid : ℕ)
  /-- Before `SIGTERM`. -/
  | condemned (pid : ℕ)
  /-- `SIGTERM` could not be sent. -/
  | missed (pid : ℕ)
  /-- `GRACEFUL_STOP_TIMEOUT`. -/
  | grace (pid : ℕ)
  /-- Before `SIGKILL`. -/
  | escalating (pid : ℕ)
  /-- `FORCE_KILL_TIMEOUT`. -/
  | forced (pid : ℕ)
  /-- `stop` has not said so yet. -/
  | gone
  /-- `cleanup_state_files`. -/
  | clearing (rest : List StateFile)
  /-- Before the daemon is spawned. -/
  | ready
  /-- The state files of the new daemon, and then its health. -/
  | recording (pid port : ℕ) (rest : List StateFile)
deriving DecidableEq, Repr

/-- The pid a command may still signal. -/
def CommandStage.target : CommandStage → Option ℕ
  | condemned pid => some pid
  | grace pid => some pid
  | escalating pid => some pid
  | _ => none

/-- A command in progress. -/
structure RunningCommand where
  command : ServerCommand
  stage : CommandStage
deriving DecidableEq, Repr

inductive DaemonEvent where
  | appear (pid : ℕ) (port : Option ℕ) (named : Bool)
  | exit (pid : ℕ)
  | begin (command : ServerCommand)
  | acquire (c : ℕ)
  | readPid (c : ℕ)
  | checkAlive (c : ℕ)
  | readPort (c : ℕ)
  /-- A probe, and who answers it. -/
  | probe (c : ℕ) (answer : Option ℕ)
  /-- `ps`, and whether it runs. -/
  | identify (c : ℕ) (runs : Bool)
  | terminate (c : ℕ)
  | seeExit (c : ℕ)
  | graceOver (c : ℕ)
  | forceKill (c : ℕ)
  | forceOver (c : ℕ)
  /-- `stop` says that the server is stopped. -/
  | report (c : ℕ)
  /-- A removal, which may fail. -/
  | remove (c : ℕ) (removed : Bool)
  | cleared (c : ℕ)
  | spawn (c pid port : ℕ) (named : Bool)
  /-- No binary, no free port, no log file. -/
  | cannotSpawn (c : ℕ)
  /-- A state file, whose write may fail. -/
  | write (c : ℕ) (written : Bool)
  /-- The daemon is healthy, gone, or silent for too long. -/
  | finish (c : ℕ)
  | kill (c : ℕ)
deriving DecidableEq, Repr

/-- The processes by their pids, the state files, who has the start lock, the commands in progress,
    the next of them, and whether one was killed. -/
structure DaemonWorld where
  procs : ℕ → Option ServerProcess
  pidFile : Option ℕ
  portFile : Option ℕ
  dbFile : Option String
  lock : Option ℕ
  commands : ℕ → Option RunningCommand
  nextCommand : ℕ
  killed : Bool

namespace DaemonWorld

def start : DaemonWorld := ⟨fun _ => none, none, none, none, none, fun _ => none, 0, false⟩

/-- A command that has classified the process may still signal it. -/
def Condemned (s : DaemonWorld) (pid : ℕ) : Prop :=
  ∃ c < s.nextCommand, (s.commands c).bind (·.stage.target) = some pid

instance (s : DaemonWorld) (pid : ℕ) : Decidable (s.Condemned pid) :=
  inferInstanceAs (Decidable (∃ c < s.nextCommand, _))

/-- A pid that a new process may take. -/
def Free (s : DaemonWorld) (pid : ℕ) : Prop := s.procs pid = none ∧ ¬ s.Condemned pid

instance (s : DaemonWorld) (pid : ℕ) : Decidable (s.Free pid) :=
  inferInstanceAs (Decidable (_ ∧ _))

/-- One process replaced. -/
def setProc (s : DaemonWorld) (pid : ℕ) (p : Option ServerProcess) : DaemonWorld :=
  { s with procs := Function.update s.procs pid p }

/-- One command replaced. -/
def setCommand (s : DaemonWorld) (c : ℕ) (r : Option RunningCommand) : DaemonWorld :=
  { s with commands := Function.update s.commands c r }

/-- A command at another stage. -/
def goto (s : DaemonWorld) (c : ℕ) (command : ServerCommand) (stage : CommandStage) :
    DaemonWorld :=
  s.setCommand c (some ⟨command, stage⟩)

/-- A command ends, and the start lock goes with it. -/
def leave (s : DaemonWorld) (c : ℕ) : DaemonWorld :=
  { s.setCommand c none with lock := if s.lock = some c then none else s.lock }

def removeFile (s : DaemonWorld) : StateFile → DaemonWorld
  | .pid => { s with pidFile := none }
  | .port => { s with portFile := none }
  | .dbPath => { s with dbFile := none }

def writeFile (s : DaemonWorld) (pid port : ℕ) (db : String) : StateFile → DaemonWorld
  | .pid => { s with pidFile := some pid }
  | .port => { s with portFile := some port }
  | .dbPath => { s with dbFile := some db }

/-- The process is gone: `stop` says so, the others clear its files. -/
def afterExit (s : DaemonWorld) (c : ℕ) : ServerCommand → DaemonWorld
  | .stop => s.goto c .stop .gone
  | command => s.goto c command (.clearing stateFiles)

/-- The process would not go: `ensure_server_running` ignores it, the others end. -/
def afterRefusal (s : DaemonWorld) (c : ℕ) : ServerCommand → DaemonWorld
  | .ensure startPort => s.goto c (.ensure startPort) (.clearing stateFiles)
  | _ => s.leave c

/-- The recorded pid is dead. -/
def foundDead (s : DaemonWorld) (c : ℕ) : ServerCommand → DaemonWorld
  | .stop => s.goto c .stop .gone
  | .ensure startPort => s.goto c (.ensure startPort) .ready
  | .start port db => s.goto c (.start port db) (.clearing stateFiles)

/-- `RunningServer::Healthy`. -/
def healthy (s : DaemonWorld) (c pid : ℕ) : ServerCommand → DaemonWorld
  | .stop => s.goto c .stop (.condemned pid)
  | _ => s.leave c

/-- `RunningServer::Foreign`. -/
def foreign (s : DaemonWorld) (c : ℕ) : ServerCommand → DaemonWorld
  | .stop => s.leave c
  | command => s.goto c command (.clearing stateFiles)

/-- A process answers a probe of the port. -/
def Serves (s : DaemonWorld) (pid port : ℕ) : Prop := (s.procs pid).bind (·.port) = some port

instance (s : DaemonWorld) (pid port : ℕ) : Decidable (s.Serves pid port) :=
  inferInstanceAs (Decidable (_ = _))

/-- `process_matches_server`: whether `ps` runs, and what it shows. -/
def matchesServer (s : DaemonWorld) (pid : ℕ) (runs : Bool) : Bool :=
  runs && ((s.procs pid).map (·.named)).getD false

/-- One step of a command that is at a stage; `none` where the step is of another stage. -/
def commandStep (s : DaemonWorld) (c : ℕ) (command : ServerCommand) :
    CommandStage → DaemonEvent → Option DaemonWorld
  | .begun, .acquire _ =>
      if command = .stop then none
      else if s.lock = none then some { s.goto c command .locked with lock := some c }
      else some (s.leave c)
  | .begun, .readPid _ =>
      if command ≠ .stop then none
      else match s.pidFile with
        | some pid => some (s.goto c command (.found pid))
        | none => some (s.leave c)
  | .locked, .readPid _ =>
      match s.pidFile with
      | some pid => some (s.goto c command (.found pid))
      | none => some (s.goto c command .ready)
  | .found pid, .checkAlive _ =>
      if s.procs pid = none then some (s.foundDead c command)
      else some (s.goto c command (.classifying pid))
  | .classifying pid, .readPort _ =>
      match s.portFile with
      | some port => some (s.goto c command (.probing pid port))
      | none => some (s.goto c command (.asking pid))
  | .probing pid port, .probe _ (some answer) =>
      if s.Serves answer port then some (s.healthy c pid command) else none
  | .probing pid _, .probe _ none => some (s.goto c command (.asking pid))
  | .asking pid, .identify _ runs =>
      if s.matchesServer pid runs then some (s.goto c command (.condemned pid))
      else some (s.foreign c command)
  | .condemned pid, .terminate _ =>
      if s.procs pid = none then some (s.goto c command (.missed pid))
      else some (s.goto c command (.grace pid))
  | .missed pid, .checkAlive _ =>
      if s.procs pid = none then some (s.afterExit c command)
      else some (s.afterRefusal c command)
  | .grace pid, .seeExit _ => if s.procs pid = none then some (s.afterExit c command) else none
  | .grace pid, .graceOver _ =>
      if s.procs pid = none then none else some (s.goto c command (.escalating pid))
  | .escalating pid, .forceKill _ => some (s.goto c command (.forced pid))
  | .forced pid, .seeExit _ => if s.procs pid = none then some (s.afterExit c command) else none
  | .forced pid, .forceOver _ =>
      if s.procs pid = none then none else some (s.afterRefusal c command)
  | .gone, .report _ => some (s.goto c command (.clearing stateFiles))
  | .clearing (file :: rest), .remove _ removed =>
      some ((if removed then s.removeFile file else s).goto c command (.clearing rest))
  | .clearing [], .cleared _ =>
      if command = .stop then some (s.leave c) else some (s.goto c command .ready)
  | .ready, .spawn _ pid port named =>
      if port ∈ command.portRange ∧ s.Free pid then
        some ((s.setProc pid (some (.daemon command.db port named))).goto c command
          (.recording pid port stateFiles))
      else none
  | .ready, .cannotSpawn _ => some (s.leave c)
  | .recording pid port (file :: rest), .write _ written =>
      if written then
        some ((s.writeFile pid port command.db file).goto c command (.recording pid port rest))
      else some (s.leave c)
  | .recording _ _ [], .finish _ => some (s.leave c)
  | _, .kill _ => some { s.leave c with killed := true }
  | _, _ => none

/-- The command a step is one of. -/
def commandOf : DaemonEvent → Option ℕ
  | .acquire c | .readPid c | .checkAlive c | .readPort c | .probe c _ | .identify c _
  | .terminate c | .seeExit c | .graceOver c | .forceKill c | .forceOver c | .report c
  | .remove c _ | .cleared c | .spawn c _ _ _ | .cannotSpawn c | .write c _ | .finish c
  | .kill c => some c
  | .appear _ _ _ | .exit _ | .begin _ => none

/-- One step; `none` where it cannot be taken. -/
def step (s : DaemonWorld) (e : DaemonEvent) : Option DaemonWorld :=
  match e with
  | .appear pid port named =>
      if s.Free pid then some (s.setProc pid (some (.other port named))) else none
  | .exit pid => some (s.setProc pid none)
  | .begin command =>
      some { s.goto s.nextCommand command .begun with nextCommand := s.nextCommand + 1 }
  | e =>
      match commandOf e with
      | some c =>
          match s.commands c with
          | some r => s.commandStep c r.command r.stage e
          | none => none
      | none => none

/-- The steps of a list, one after the other. -/
def run (s : DaemonWorld) : List DaemonEvent → Option DaemonWorld
  | [] => some s
  | e :: es => (s.step e).bind fun t => t.run es

end DaemonWorld

end Spelunk
