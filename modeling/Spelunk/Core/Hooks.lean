import Mathlib.Data.List.Infix
import Spelunk.Lib.ShellWord
import Spelunk.Lib.Split

/-!
# Git Hooks

The commands that install and remove the git hooks, over the files of the machine. A hook is the
program's own if it has the marker of its kind in it; what a command may write or remove depends on
that and on where git says the hooks are.

## Main definitions

* `HookSpec`: A hook that can be installed.
* `shQuoted`, `prePushHookBody`: The body of the hook that names the binary.
* `HookFaults`: What fails during one command.
* `writeHook`, `hooksUninstall`: The commands.
* `prePushInstalled`: Whether a push publishes.
-/

namespace Spelunk

open Lib (splitText singleQuoted)

/-- A path, by its components. -/
abbrev HookPath := List String

/-- What git says of a directory, canonicalized: where its hooks are, the top of its working tree,
    its shared git directory. -/
structure GitAnswers where
  hooksDir : Option HookPath
  toplevel : Option HookPath
  commonDir : Option HookPath
deriving DecidableEq, Repr

/-- A file: its text, if it can be read and is UTF-8, and whether it is executable. -/
structure HookFile where
  body : Option String
  executable : Bool
deriving DecidableEq, Repr

/-- The files of a machine. -/
abbrev HookFiles := HookPath → Option HookFile

/-- An installable hook: its file name and the marker of its own copies. -/
structure HookSpec where
  name : String
  marker : String
deriving DecidableEq, Repr

def postCommit : HookSpec := ⟨"post-commit", "spelunk post-commit hook"⟩

def prePush : HookSpec := ⟨"pre-push", "spelunk pre-push hook"⟩

def allHooks : List HookSpec := [postCommit, prePush]

/-- `str::contains`. -/
def containsText (text part : String) : Prop := part.toList <:+: text.toList

instance (text part : String) : Decidable (containsText text part) :=
  inferInstanceAs (Decidable (_ <:+: _))

/-- A text of whole lines. -/
def ofLines (ls : List String) : List Char := ls.flatMap fun l => l.toList ++ ['\n']

/-- `POST_COMMIT_HOOK`. -/
def postCommitHook : String := String.ofList <| ofLines
  ["#!/bin/sh",
    "# spelunk post-commit hook — installed by `spelunk hooks install`",
    "# Keeps the spelunk index in sync and harvests memory from new commits.",
    "# Silently skips if `spelunk` is not in PATH, so teammates without spelunk are unaffected.",
    "",
    "if ! command -v spelunk >/dev/null 2>&1; then",
    "  exit 0",
    "fi",
    "",
    "PROJECT_ROOT=\"$(git rev-parse --show-toplevel 2>/dev/null)\" || exit 0",
    "",
    "spelunk index \"$PROJECT_ROOT\" --detach",
    "spelunk memory harvest --git-range HEAD~1..HEAD --detach"]

/-- The lines of `PRE_PUSH_HOOK_TEMPLATE` in front of the last. -/
def prePushHookComment : List String :=
  ["#!/bin/sh",
    "# spelunk pre-push hook (installed by `spelunk hooks install --pre-push`)",
    "# Publishes spelunk memory (refs/notes/spelunk) to the remote you are pushing to,",
    "# so decisions travel with the code they describe.",
    "#",
    "# The path below is absolute rather than a PATH lookup: GUI git clients on macOS",
    "# inherit their environment from launchd, not from your shell profile. If spelunk",
    "# is no longer there this exits 127 and stops the push, which is the intended",
    "# loud failure; re-run `spelunk hooks install --pre-push` to re-resolve it.",
    "#",
    "# `exec` makes this hook's status the command's, and --best-effort makes a failed",
    "# publish exit 0, so publishing can never cost you your push.",
    "# stdout is dropped: the command emits JSONL, which a `git push` should not print.",
    ""]

/-- `PRE_PUSH_HOOK_TEMPLATE`. -/
def prePushHookTemplate : List Char := ofLines (prePushHookComment ++
  ["exec \x7bspelunk\x7d plumbing publish-notes --best-effort \"$@\" >/dev/null"])

/-- `sh_quoted`, of the path as it is displayed. -/
def shQuoted (path : List Char) : List Char :=
  singleQuoted (path.map fun c => if c = '\\' then '/' else c)

/-- `pre_push_hook_body`, for a binary at a path: `replace` puts the quoted path wherever the
    template names it. -/
def prePushHookBody (exe : List Char) : String :=
  String.ofList ((shQuoted exe).intercalate
    (splitText "\x7bspelunk\x7d".toList prePushHookTemplate))

/-- Why a command fails. -/
inductive HookError where
  | notInRepository
  | tracked
  | foreignHook (path : HookPath)
  | io
deriving DecidableEq, Repr

/-- `resolve_hooks_dir`. -/
def resolveHooksDir (git : GitAnswers) : Except HookError HookPath :=
  match git.hooksDir with
  | some dir => .ok dir
  | none => .error .notInRepository

/-- `hooks_dir_is_tracked`: inside of the working tree and not inside of the git directory. -/
def hooksDirIsTracked (git : GitAnswers) (hooksDir : HookPath) : Except HookError Bool :=
  match git.toplevel with
  | none => .ok false
  | some toplevel =>
    match git.commonDir with
    | none => .error .notInRepository
    | some commonDir => .ok (toplevel.isPrefixOf hooksDir && !commonDir.isPrefixOf hooksDir)

/-- A write that fails: the file cannot be opened, or something else is left in it. -/
inductive WriteFault where
  | refused
  | cut (left : Option String)
deriving DecidableEq, Repr

/-- What fails during a command: the creation of the directory, the write of the file, the change
    of its mode, the removal of a hook. -/
structure HookFaults where
  createDir : Bool
  write : Option WriteFault
  setMode : Bool
  remove : HookSpec → Bool

/-- What `write_hook` did. -/
inductive Installed where
  | wrote
  | updated
  | alreadyPresent
deriving DecidableEq, Repr

def HookFiles.set (files : HookFiles) (path : HookPath) (file : Option HookFile) : HookFiles :=
  fun p => if p = path then file else files p

/-- The write of a hook and the change of its mode. -/
def writeBody (faults : HookFaults) (path : HookPath) (body : String) (replacing : Bool)
    (files : HookFiles) : Except HookError Installed × HookFiles :=
  let executable := ((files path).map HookFile.executable).getD false
  match faults.write with
  | some .refused => (.error .io, files)
  | some (.cut left) => (.error .io, files.set path (some ⟨left, executable⟩))
  | none =>
    if faults.setMode then (.error .io, files.set path (some ⟨some body, executable⟩))
    else
      (.ok (if replacing then .updated else .wrote), files.set path (some ⟨some body, true⟩))

/-- `write_hook`. -/
def writeHook (git : GitAnswers) (faults : HookFaults) (spec : HookSpec) (body : String)
    (files : HookFiles) : Except HookError Installed × HookFiles :=
  match resolveHooksDir git with
  | .error e => (.error e, files)
  | .ok hooksDir =>
    match hooksDirIsTracked git hooksDir with
    | .error e => (.error e, files)
    | .ok true => (.error .tracked, files)
    | .ok false =>
      if faults.createDir then (.error .io, files)
      else
        let path := hooksDir ++ [spec.name]
        match files path with
        | none => writeBody faults path body false files
        | some ⟨none, _⟩ => (.error .io, files)
        | some ⟨some existing, _⟩ =>
          if ¬containsText existing spec.marker then (.error (.foreignHook path), files)
          else if existing = body then (.ok .alreadyPresent, files)
          else writeBody faults path body true files

/-- `install_post_commit_hook`. -/
def installPostCommitHook (git : GitAnswers) (faults : HookFaults) (files : HookFiles) :
    Except HookError Installed × HookFiles :=
  writeHook git faults postCommit postCommitHook files

/-- `install_pre_push`, by a binary at a path. -/
def installPrePush (git : GitAnswers) (faults : HookFaults) (exe : List Char)
    (files : HookFiles) : Except HookError Installed × HookFiles :=
  writeHook git faults prePush (prePushHookBody exe) files

/-- The loop of `hooks_uninstall` over the hooks that are left: how many are removed, and which are
    not its own. -/
def uninstallLoop (faults : HookFaults) (hooksDir : HookPath) (removed : ℕ)
    (foreign : List HookPath) (files : HookFiles) :
    List HookSpec → Except HookError (ℕ × List HookPath) × HookFiles
  | [] => (.ok (removed, foreign), files)
  | spec :: rest =>
    let path := hooksDir ++ [spec.name]
    match files path with
    | none => uninstallLoop faults hooksDir removed foreign files rest
    | some ⟨none, _⟩ => (.error .io, files)
    | some ⟨some body, _⟩ =>
      if ¬containsText body spec.marker then
        uninstallLoop faults hooksDir removed (foreign ++ [path]) files rest
      else if faults.remove spec then (.error .io, files)
      else uninstallLoop faults hooksDir (removed + 1) foreign (files.set path none) rest

/-- `hooks_uninstall`. -/
def hooksUninstall (git : GitAnswers) (faults : HookFaults) (files : HookFiles) :
    Except HookError ℕ × HookFiles :=
  match resolveHooksDir git with
  | .error e => (.error e, files)
  | .ok hooksDir =>
    match uninstallLoop faults hooksDir 0 [] files allHooks with
    | (.error e, files) => (.error e, files)
    | (.ok (removed, foreign), files) =>
      match removed, foreign with
      | 0, path :: _ => (.error (.foreignHook path), files)
      | _, _ => (.ok removed, files)

/-- `pre_push_installed`. -/
def prePushInstalled (git : GitAnswers) (files : HookFiles) : Bool :=
  match resolveHooksDir git with
  | .error _ => false
  | .ok hooksDir =>
    match (files (hooksDir ++ [prePush.name])).bind HookFile.body with
    | some body => containsText body prePush.marker
    | none => false

end Spelunk
