import Mathlib.Data.Nat.Notation
import Mathlib.Logic.Function.Basic

/-!
# The Run Lock of the Indexer

The processes of `spelunk index` on one project, step by step. Each tries the lock
once; the one that gets it records its pid in a file beside the lock, which may fail,
and writes `index.db` until it is done. A run may let its lock go and start a child
for the rest of its work: it then polls the pid file for the pid of the child, and
reports the handoff as taken over when it reads it, or as lost to another run when its
patience ends.

Processes are named by their pids, which count up and are not used again. What a
process writes into `index.db` is not modelled, only that it writes, and who holds the
lock then.

## Main definitions

* `IndexProc`: A process.
* `IndexLock`: The lock, the pid file and the processes.
* `IndexLock.step`: One step of one process.
-/

namespace Spelunk

/-- How a process was started. -/
inductive RunMode where
  | run (force detachEmbed : Bool)
  | recount
  | embedPhases
  | backgroundPhases
deriving DecidableEq, Repr

/-- The children a run may hand the rest of its work to: the embed phase, or phases 3 to 5. -/
def RunMode.continuations : RunMode → List RunMode
  | run _ true => [embedPhases, backgroundPhases]
  | run _ false => [backgroundPhases]
  | _ => []

/-- What a parent says of its handoff. -/
inductive HandoffReport where
  | takenOver (child : ℕ)
  | claimedByOther (child : ℕ)
deriving DecidableEq, Repr

/-- Where a process stands. -/
inductive RunStage where
  /-- Before `try_acquire`. -/
  | started
  /-- It has the lock and has not touched the pid file. -/
  | locked
  /-- The pid file is emptied. -/
  | recording
  | working
  /-- It has let the lock go and not started its child. -/
  | released (child : RunMode)
  /-- It polls for the pid of its child. -/
  | confirming (child : ℕ)
  | exited
deriving DecidableEq, Repr

/-- A process, whether it has had the lock, and what it has reported. -/
structure IndexProc where
  mode : RunMode
  stage : RunStage
  acquired : Bool
  report : Option HandoffReport
deriving DecidableEq, Repr

/-- A new process. -/
def IndexProc.new (mode : RunMode) : IndexProc := ⟨mode, .started, false, none⟩

/-- No process. -/
def IndexProc.absent : IndexProc := ⟨.recount, .exited, false, none⟩

/-- The lock with its holder, the pid in the pid file, the processes, the next pid, and for each
    write of `index.db` who wrote and who held the lock. -/
structure IndexLock where
  holder : Option ℕ
  recorded : Option ℕ
  procs : ℕ → IndexProc
  nextPid : ℕ
  writes : List (ℕ × Option ℕ)

inductive LockEvent where
  | start (mode : RunMode)
  | tryAcquire (pid : ℕ)
  | emptyPidFile (pid : ℕ)
  | recordPid (pid : ℕ)
  /-- The pid file cannot be opened or written. -/
  | pidFileFails (pid : ℕ)
  | writeIndex (pid : ℕ)
  | finish (pid : ℕ)
  | dropLock (pid : ℕ) (child : RunMode)
  | spawnChild (pid : ℕ)
  /-- A poll that reads the pid of the child. -/
  | confirm (pid : ℕ)
  /-- A poll that reads another pid or none, at the end of the wait. -/
  | giveUp (pid : ℕ)
  | kill (pid : ℕ)
deriving DecidableEq, Repr

namespace IndexLock

def start : IndexLock := ⟨none, none, fun _ => .absent, 0, []⟩

/-- One process replaced. -/
def put (s : IndexLock) (pid : ℕ) (p : IndexProc) : IndexLock :=
  { s with procs := Function.update s.procs pid p }

/-- One process at another stage. -/
def setStage (s : IndexLock) (pid : ℕ) (stage : RunStage) : IndexLock :=
  s.put pid { s.procs pid with stage := stage }

/-- A new process under the next pid. -/
def spawn (s : IndexLock) (mode : RunMode) : IndexLock :=
  { s.put s.nextPid (.new mode) with nextPid := s.nextPid + 1 }

/-- The lock goes with the process that has it. -/
def unlock (s : IndexLock) (pid : ℕ) : IndexLock :=
  if s.holder = some pid then { s with holder := none } else s

/-- `try_acquire`: the lock, or the process ends. -/
def tryAcquire (s : IndexLock) (pid : ℕ) : IndexLock :=
  match s.holder with
  | some _ => s.setStage pid .exited
  | none =>
      { s.put pid { s.procs pid with stage := .locked, acquired := true } with holder := some pid }

/-- The report of a parent, which ends it. -/
def reportHandoff (s : IndexLock) (pid : ℕ) (report : HandoffReport) : IndexLock :=
  s.put pid { s.procs pid with stage := .exited, report := some report }

/-- One step; `none` where the process does not stand there. -/
def step (s : IndexLock) : LockEvent → Option IndexLock
  | .start mode => some (s.spawn mode)
  | .tryAcquire pid => if (s.procs pid).stage = .started then some (s.tryAcquire pid) else none
  | .emptyPidFile pid =>
      if (s.procs pid).stage = .locked then some { s.setStage pid .recording with recorded := none }
      else none
  | .recordPid pid =>
      if (s.procs pid).stage = .recording then
        some { s.setStage pid .working with recorded := some pid }
      else none
  | .pidFileFails pid =>
      if (s.procs pid).stage = .locked ∨ (s.procs pid).stage = .recording then
        some (s.setStage pid .working)
      else none
  | .writeIndex pid =>
      if (s.procs pid).stage = .working then
        some { s with writes := s.writes ++ [(pid, s.holder)] }
      else none
  | .finish pid =>
      if (s.procs pid).stage = .working then some ((s.setStage pid .exited).unlock pid) else none
  | .dropLock pid child =>
      if (s.procs pid).stage = .working ∧ child ∈ (s.procs pid).mode.continuations then
        some ((s.setStage pid (.released child)).unlock pid)
      else none
  | .spawnChild pid =>
      match (s.procs pid).stage with
      | .released child => some ((s.spawn child).setStage pid (.confirming s.nextPid))
      | _ => none
  | .confirm pid =>
      match (s.procs pid).stage with
      | .confirming child =>
          if s.recorded = some child then some (s.reportHandoff pid (.takenOver child)) else none
      | _ => none
  | .giveUp pid =>
      match (s.procs pid).stage with
      | .confirming child =>
          if s.recorded = some child then none
          else some (s.reportHandoff pid (.claimedByOther child))
      | _ => none
  | .kill pid =>
      if (s.procs pid).stage = .exited then none else some ((s.setStage pid .exited).unlock pid)

/-- The steps of a list, one after the other. -/
def run (s : IndexLock) : List LockEvent → Option IndexLock
  | [] => some s
  | e :: es => (s.step e).bind fun t => t.run es

end IndexLock

end Spelunk
