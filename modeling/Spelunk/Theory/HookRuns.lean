import Mathlib.Data.List.Nodup
import Mathlib.Tactic.Common
import Spelunk.Core.Hooks

/-!
# What the Hook Commands Touch

Runs of the commands that install and remove hooks, with any answers of git and any faults: a hook
that is not the program's own is never changed and never removed. Where an install succeeds, the
hook has its body, and the shell that runs it takes the path of the binary for one word.

## Main definitions

* `HookStep`: One command.
* `OwnHook`: A file that a command may write to or remove.

## Theorems

* `prePushHookBody_eq`: The body of a hook that names a binary.
* `hookRuns`: What runs leave alone.
* `hookInstalls`: What an install leaves.
* `hookUninstalls`: What an uninstall leaves.
-/

namespace Spelunk

open Lib (splitText splitTextFrom splitTextFrom_cons splitTextFrom_sep splitText_of_not_infix
  shellWord shellWord_singleQuoted endsWord)

/-! ### The body that names the binary -/

section Body

/-- A text without the first character of another has it nowhere. -/
theorem splitTextFrom_append {x : Char} {sep a : List Char} (ha : x ∉ a) (piece s : List Char) :
    splitTextFrom (x :: sep) 0 piece (a ++ s) = splitTextFrom (x :: sep) 0 (piece ++ a) s := by
  induction a generalizing piece with
  | nil => rw [List.nil_append, List.append_nil]
  | cons c a ih =>
    have hc : ¬(x :: sep) <+: c :: (a ++ s) := fun h => by
      obtain ⟨t, ht⟩ := h
      exact ha ((List.cons.inj ht).1 ▸ List.mem_cons_self)
    rw [List.cons_append, splitTextFrom_cons hc, ih fun h => ha (List.mem_cons_of_mem _ h),
      List.append_assoc, List.singleton_append]

/-- A text with another in it once. -/
theorem splitText_once {x : Char} {sep a b : List Char} (ha : x ∉ a) (hb : ¬(x :: sep) <:+: b) :
    splitText (x :: sep) (a ++ ((x :: sep) ++ b)) = [a, b] := by
  rw [splitText, splitTextFrom_append ha, List.nil_append,
    splitTextFrom_sep (List.cons_ne_nil _ _), splitText_of_not_infix (List.cons_ne_nil _ _) hb]

/-- What stands in the hook in front of the path, and what behind it. -/
def bodyFront : List Char := ofLines prePushHookComment ++ "exec ".toList

def bodyBack : List Char := " plumbing publish-notes --best-effort \"$@\" >/dev/null\n".toList

theorem prePushHookTemplate_eq :
    prePushHookTemplate = bodyFront ++ ("\x7bspelunk\x7d".toList ++ bodyBack) := by
  rw [prePushHookTemplate, ofLines, List.flatMap_append, ← ofLines, bodyFront, List.append_assoc]
  congr 1

theorem notMem_toList {c : Char} {s : String} {t : List Char} (hs : s = String.ofList t)
    (ht : c ∉ t) : c ∉ s.toList := by
  rwa [hs, String.toList_ofList]

theorem brace_notMem_bodyFront : '\x7b' ∉ bodyFront := by
  have hlines : ∀ line ∈ prePushHookComment, '\x7b' ∉ line.toList := by
    unfold prePushHookComment
    repeat refine List.forall_mem_cons.2 ⟨notMem_toList rfl (by decide), ?_⟩
    exact List.forall_mem_nil _
  refine List.not_mem_append (fun h => ?_) (by decide)
  obtain ⟨line, hline, hmem⟩ := List.mem_flatMap.1 h
  exact List.not_mem_append (hlines line hline) (by decide) hmem

/-- The last line in front of the command is empty. -/
theorem exec_suffix_bodyFront : "\nexec ".toList <:+ bodyFront := by
  have hlast : prePushHookComment = prePushHookComment.dropLast ++ [""] := rfl
  refine ⟨ofLines prePushHookComment.dropLast, ?_⟩
  rw [bodyFront, hlast, ofLines, ofLines, List.flatMap_append, List.append_assoc,
    List.dropLast_concat]
  rfl

/-- The hook names the binary once. -/
theorem prePushHookBody_eq (exe : List Char) :
    prePushHookBody exe = String.ofList (bodyFront ++ (shQuoted exe ++ bodyBack)) := by
  have hname : "\x7bspelunk\x7d".toList = '\x7b' :: "spelunk\x7d".toList := rfl
  have hback : ¬('\x7b' :: "spelunk\x7d".toList) <:+: bodyBack := by decide
  have hsplit : splitText "\x7bspelunk\x7d".toList prePushHookTemplate =
      [bodyFront, bodyBack] := by
    rw [prePushHookTemplate_eq, hname]
    exact splitText_once brace_notMem_bodyFront hback
  rw [prePushHookBody, hsplit, List.intercalate_cons_cons, List.intercalate_singleton,
    List.append_assoc]

/-- The shell that runs the hook takes the path for one word, with slashes for its backslashes. -/
theorem shellWord_exec (exe : List Char) :
    shellWord (shQuoted exe ++ bodyBack) =
      some (exe.map fun c => if c = '\\' then '/' else c, bodyBack) :=
  shellWord_singleQuoted _ fun c hc => by
    rw [← Option.mem_some.1 hc]
    rfl

theorem containsText_prePush (exe : List Char) :
    containsText (prePushHookBody exe) prePush.marker := by
  have hfront : prePush.marker.toList <:+: bodyFront :=
    ⟨"#!/bin/sh\n# ".toList, _, rfl⟩
  rw [containsText, prePushHookBody_eq, String.toList_ofList]
  exact hfront.trans (List.prefix_append _ _).isInfix

end Body

/-! ### One command -/

section Steps

variable {git : GitAnswers} {faults : HookFaults} {spec : HookSpec} {body : String}
  {files : HookFiles} {path : HookPath} {file : HookFile}

/-- A file that a command may write to or remove: it has the name of a hook and its marker. -/
def OwnHook (path : HookPath) (file : HookFile) : Prop :=
  ∃ spec ∈ allHooks, path.getLast? = some spec.name ∧
    ∃ body, file.body = some body ∧ containsText body spec.marker

/-- Whether a file is the program's own copy of a hook. -/
def HookSpec.owns (spec : HookSpec) (file : HookFile) : Bool :=
  file.body.any fun body => decide (containsText body spec.marker)

theorem HookSpec.owns_iff : spec.owns file = true ↔
    ∃ body, file.body = some body ∧ containsText body spec.marker := by
  rw [owns, Option.any_eq_true]
  simp only [decide_eq_true_eq]

@[simp] theorem HookFiles.set_self (files : HookFiles) (path : HookPath) (file : Option HookFile) :
    files.set path file path = file := if_pos rfl

theorem HookFiles.set_of_ne (files : HookFiles) {p path : HookPath} (file : Option HookFile)
    (h : p ≠ path) : files.set path file p = files p := if_neg h

/-- A write changes one file. -/
theorem writeBody_of_ne {p : HookPath} {replacing : Bool} (h : p ≠ path) :
    (writeBody faults path body replacing files).2 p = files p := by
  unfold writeBody
  dsimp only
  split
  · rfl
  · exact HookFiles.set_of_ne files _ h
  · split
    · exact HookFiles.set_of_ne files _ h
    · exact HookFiles.set_of_ne files _ h

/-- What an install can come to: an error that changes nothing, the hook found as it should be, or a
    write where no file is or a file of its own. -/
theorem writeHook_cases (git : GitAnswers) (faults : HookFaults) (spec : HookSpec) (body : String)
    (files : HookFiles) :
    (∃ e, writeHook git faults spec body files = (.error e, files)) ∨
    ∃ hooksDir, git.hooksDir = some hooksDir ∧ hooksDirIsTracked git hooksDir = .ok false ∧
      ((∃ mode, files (hooksDir ++ [spec.name]) = some ⟨some body, mode⟩ ∧
          writeHook git faults spec body files = (.ok .alreadyPresent, files)) ∨
        ∃ replacing, writeHook git faults spec body files =
            writeBody faults (hooksDir ++ [spec.name]) body replacing files ∧
          ∀ file, files (hooksDir ++ [spec.name]) = some file →
            ∃ existing, file.body = some existing ∧ containsText existing spec.marker) := by
  unfold writeHook resolveHooksDir
  rcases hdir : git.hooksDir with _ | hooksDir
  · exact .inl ⟨_, rfl⟩
  dsimp only
  rcases htracked : hooksDirIsTracked git hooksDir with e | _ | _
  · exact .inl ⟨e, rfl⟩
  · dsimp only
    split
    · exact .inl ⟨_, rfl⟩
    rcases hfile : files (hooksDir ++ [spec.name]) with _ | ⟨_ | existing, mode⟩
    · exact .inr ⟨hooksDir, rfl, htracked, .inr ⟨false, rfl, fun file h => by
        rw [hfile] at h
        cases h⟩⟩
    · exact .inl ⟨_, rfl⟩
    · dsimp only
      split
      · exact .inl ⟨_, rfl⟩
      · next hmarker =>
        split
        · next hsame =>
          exact .inr ⟨hooksDir, rfl, htracked, .inl ⟨mode, hsame ▸ hfile, rfl⟩⟩
        · refine .inr ⟨hooksDir, rfl, htracked, .inr ⟨true, rfl, fun file h => ?_⟩⟩
          rw [hfile] at h
          cases h
          exact ⟨existing, rfl, not_not.1 hmarker⟩
  · exact .inl ⟨_, rfl⟩

/-- An install leaves alone what is not its own. -/
theorem writeHook_keeps (hspec : spec ∈ allHooks) (hfile : files path = some file)
    (hown : ¬OwnHook path file) : (writeHook git faults spec body files).2 path = some file := by
  rcases writeHook_cases git faults spec body files with
    ⟨e, h⟩ | ⟨hooksDir, -, -, ⟨mode, -, h⟩ | ⟨replacing, hwrite, hexisting⟩⟩
  · rw [h]
    exact hfile
  · rw [h]
    exact hfile
  · rw [hwrite]
    by_cases hpath : path = hooksDir ++ [spec.name]
    · subst hpath
      obtain ⟨existing, hbody, hmarker⟩ := hexisting file hfile
      exact absurd ⟨spec, hspec, by simp, existing, hbody, hmarker⟩ hown
    · rw [writeBody_of_ne hpath, hfile]

/-- The loop of an uninstall leaves a file as it was, or comes to a hook of its own there. -/
theorem uninstallLoop_cases {hooksDir : HookPath} {specs hooks : List HookSpec} {removed : ℕ}
    {foreign : List HookPath} (hspecs : specs ⊆ hooks) :
    (uninstallLoop faults hooksDir removed foreign files specs).2 path = files path ∨
      ∃ spec ∈ hooks, path = hooksDir ++ [spec.name] ∧ (files path).any spec.owns = true := by
  induction specs generalizing removed foreign files with
  | nil => exact .inl rfl
  | cons spec specs ih =>
    obtain ⟨hspec, hrest⟩ := List.cons_subset.1 hspecs
    rw [uninstallLoop]
    rcases hhook : files (hooksDir ++ [spec.name]) with _ | ⟨_ | body, mode⟩
    · exact ih hrest
    · exact .inl rfl
    dsimp only
    split
    · exact ih hrest
    · next hmarker =>
      split
      · exact .inl rfl
      by_cases hpath : path = hooksDir ++ [spec.name]
      · rw [hpath, hhook]
        exact .inr ⟨spec, hspec, rfl, decide_eq_true (not_not.1 hmarker)⟩
      · rw [← HookFiles.set_of_ne files none hpath]
        exact ih hrest

/-- It leaves alone what is not its own. -/
theorem uninstallLoop_keeps {hooksDir : HookPath} (hfile : files path = some file)
    (hown : ¬OwnHook path file) :
    (uninstallLoop faults hooksDir 0 [] files allHooks).2 path = some file := by
  rcases uninstallLoop_cases (List.Subset.refl allHooks) with h | ⟨spec, hspec, hpath, hhook⟩
  · rw [h, hfile]
  · rw [hfile] at hhook
    exact absurd ⟨spec, hspec, by simp [hpath], HookSpec.owns_iff.1 hhook⟩ hown

/-- It touches no other files. -/
theorem uninstallLoop_of_ne {hooksDir : HookPath} {specs : List HookSpec} {removed : ℕ}
    {foreign : List HookPath} {r : Except HookError (ℕ × List HookPath)} {after : HookFiles}
    (h : uninstallLoop faults hooksDir removed foreign files specs = (r, after))
    (hne : ∀ spec ∈ specs, path ≠ hooksDir ++ [spec.name]) : after path = files path := by
  rw [← (Prod.mk.inj h).2]
  rcases uninstallLoop_cases (List.Subset.refl specs) with hsame | ⟨spec, hspec, hpath, -⟩
  · exact hsame
  · exact absurd hpath (hne spec hspec)

theorem hooksUninstall_snd (git : GitAnswers) (faults : HookFaults) (files : HookFiles) :
    (hooksUninstall git faults files).2 = files ∨ ∃ hooksDir, git.hooksDir = some hooksDir ∧
      (hooksUninstall git faults files).2 =
        (uninstallLoop faults hooksDir 0 [] files allHooks).2 := by
  unfold hooksUninstall resolveHooksDir
  rcases git.hooksDir with _ | hooksDir
  · exact .inl rfl
  refine .inr ⟨hooksDir, rfl, ?_⟩
  dsimp only
  rcases uninstallLoop faults hooksDir 0 [] files allHooks with ⟨e | ⟨removed, foreign⟩, after⟩
  · rfl
  · dsimp only
    split
    · rfl
    · rfl

end Steps

/-! ### Runs -/

section Runs

/-- What a user can ask for. -/
inductive HookCommand where
  | installPostCommit
  | installPrePush (exe : List Char)
  | uninstall

/-- A command, with what git answers to it and what fails. -/
structure HookStep where
  git : GitAnswers
  faults : HookFaults
  command : HookCommand

def hookStep (files : HookFiles) (s : HookStep) : HookFiles :=
  match s.command with
  | .installPostCommit => (installPostCommitHook s.git s.faults files).2
  | .installPrePush exe => (installPrePush s.git s.faults exe files).2
  | .uninstall => (hooksUninstall s.git s.faults files).2

/-- A file in the directory git names; for an install that directory must not be one that a clone
    brings along. -/
def HookStep.Reaches (s : HookStep) (path : HookPath) : Prop :=
  ∃ hooksDir, s.git.hooksDir = some hooksDir ∧ (∃ spec ∈ allHooks, path = hooksDir ++ [spec.name]) ∧
    (s.command = .uninstall ∨ hooksDirIsTracked s.git hooksDir = .ok false)

variable {files : HookFiles} {path : HookPath} {file : HookFile} {s : HookStep}

/-- A command leaves alone what is not its own. -/
theorem hookStep_keeps (hfile : files path = some file) (hown : ¬OwnHook path file) :
    hookStep files s path = some file := by
  unfold hookStep
  rcases s.command with _ | exe | _
  · exact writeHook_keeps (by decide) hfile hown
  · exact writeHook_keeps (by decide) hfile hown
  · dsimp only
    rcases hooksUninstall_snd s.git s.faults files with h | ⟨hooksDir, -, h⟩
    · rw [h, hfile]
    · rw [h]
      exact uninstallLoop_keeps hfile hown

/-- A command leaves alone what it does not reach. -/
theorem hookStep_of_not_reaches (h : ¬s.Reaches path) : hookStep files s path = files path := by
  have hwrite : ∀ spec ∈ allHooks, ∀ body,
      (writeHook s.git s.faults spec body files).2 path = files path := by
    intro spec hspec body
    rcases writeHook_cases s.git s.faults spec body files with
      ⟨e, h⟩ | ⟨hooksDir, hdir, htracked, ⟨mode, -, h⟩ | ⟨replacing, hbody, -⟩⟩
    · rw [h]
    · rw [h]
    · rw [hbody]
      exact writeBody_of_ne fun hpath => h ⟨hooksDir, hdir, ⟨spec, hspec, hpath⟩, .inr htracked⟩
  unfold hookStep
  rcases hcommand : s.command with _ | exe | _
  · exact hwrite postCommit (by decide) _
  · exact hwrite prePush (by decide) _
  · dsimp only
    rcases hooksUninstall_snd s.git s.faults files with hsame | ⟨hooksDir, hdir, hloop⟩
    · rw [hsame]
    · rw [hloop]
      have hne : ∀ spec ∈ allHooks, path ≠ hooksDir ++ [spec.name] := fun spec hspec hpath =>
        h ⟨hooksDir, hdir, ⟨spec, hspec, hpath⟩, .inl hcommand⟩
      exact uninstallLoop_of_ne rfl hne

end Runs

/-! ### What a command leaves -/

section Outcomes

variable {git : GitAnswers} {faults : HookFaults} {spec : HookSpec} {body : String}
  {files after : HookFiles} {file : HookFile} {r : Installed}

/-- A write that succeeds leaves its text, in a file that can be run. -/
theorem writeBody_ok {path : HookPath} {replacing : Bool}
    (h : writeBody faults path body replacing files = (.ok r, after)) :
    after path = some ⟨some body, true⟩ := by
  unfold writeBody at h
  dsimp only at h
  split at h
  · cases h
  · cases h
  · split at h
    · cases h
    · rw [← (Prod.mk.inj h).2, HookFiles.set_self]

/-- An install that succeeds leaves its body at the place that git names. -/
theorem writeHook_ok (h : writeHook git faults spec body files = (.ok r, after)) :
    ∃ hooksDir mode, git.hooksDir = some hooksDir ∧ hooksDirIsTracked git hooksDir = .ok false ∧
      after (hooksDir ++ [spec.name]) = some ⟨some body, mode⟩ ∧
      (r ≠ .alreadyPresent → mode = true) := by
  rcases writeHook_cases git faults spec body files with
    ⟨e, hrun⟩ | ⟨hooksDir, hdir, htracked, ⟨mode, hfile, hrun⟩ | ⟨replacing, hrun, -⟩⟩
  · rw [hrun] at h
    cases h
  · rw [hrun] at h
    cases h
    exact ⟨hooksDir, mode, hdir, htracked, hfile, fun hne => absurd rfl hne⟩
  · rw [hrun] at h
    exact ⟨hooksDir, true, hdir, htracked, writeBody_ok h, fun _ => rfl⟩

/-- A push publishes if the hook that runs is the program's own. -/
theorem prePushInstalled_eq {hooksDir : HookPath} (hdir : git.hooksDir = some hooksDir) :
    prePushInstalled git files = (files (hooksDir ++ [prePush.name])).any prePush.owns := by
  rw [prePushInstalled, resolveHooksDir, hdir]
  dsimp only
  rcases files (hooksDir ++ [prePush.name]) with _ | ⟨_ | body, mode⟩
  · rfl
  · rfl
  · rfl

/-- Where an install of the hook succeeds, the directory that git names is not one that a clone
    brings along, the hook is there with its body and can be run, a push is told to publish, the
    same install again finds it there and changes nothing, and in the line that starts the binary
    the shell takes its path for one word. -/
theorem hookInstalls {exe : List Char}
    (h : installPrePush git faults exe files = (.ok r, after)) :
    ∃ hooksDir mode, git.hooksDir = some hooksDir ∧ hooksDirIsTracked git hooksDir = .ok false ∧
      after (hooksDir ++ [prePush.name]) = some ⟨some (prePushHookBody exe), mode⟩ ∧
      (r ≠ .alreadyPresent → mode = true) ∧ prePushInstalled git after = true ∧
      (∀ again : HookFaults, again.createDir = false →
        installPrePush git again exe after = (.ok .alreadyPresent, after)) ∧
      ∃ front back, prePushHookBody exe = String.ofList (front ++ back) ∧
        "\nexec ".toList <:+ front ∧
        shellWord back = some (exe.map fun c => if c = '\\' then '/' else c, bodyBack) := by
  obtain ⟨hooksDir, mode, hdir, htracked, hfile, hmode⟩ := writeHook_ok h
  have hmarker := containsText_prePush exe
  refine ⟨hooksDir, mode, hdir, htracked, hfile, hmode, ?_, fun again hagain => ?_,
    bodyFront, shQuoted exe ++ bodyBack, prePushHookBody_eq exe, exec_suffix_bodyFront,
    shellWord_exec exe⟩
  · have hown : prePush.owns ⟨some (prePushHookBody exe), mode⟩ = true :=
      HookSpec.owns_iff.2 ⟨_, rfl, hmarker⟩
    rw [prePushInstalled_eq hdir, hfile, Option.any_some, hown]
  · rw [installPrePush, writeHook, resolveHooksDir, hdir]
    dsimp only
    rw [htracked]
    dsimp only
    rw [hagain, if_neg Bool.false_ne_true, hfile]
    dsimp only
    rw [if_neg (not_not.2 hmarker), if_pos rfl]

/-- Nothing is in the way of an install into an untracked directory that has no hook yet. -/
theorem hookInstalls_fresh :
    ∃ hooksDir mode, (some ["r", ".git", "hooks"] : Option HookPath) = some hooksDir ∧
      hooksDirIsTracked ⟨some ["r", ".git", "hooks"], some ["r"], some ["r", ".git"]⟩ hooksDir =
        .ok false ∧ (Installed.wrote ≠ .alreadyPresent → mode = true) := by
  have hwrote : (installPrePush ⟨some ["r", ".git", "hooks"], some ["r"], some ["r", ".git"]⟩
      ⟨false, none, false, fun _ => false⟩ "/bin/spelunk".toList fun _ => none).1 =
        .ok .wrote := rfl
  obtain ⟨hooksDir, mode, hdir, htracked, -, hmode, -⟩ :=
    hookInstalls (Prod.ext hwrote rfl)
  exact ⟨hooksDir, mode, hdir, htracked, hmode⟩

/-- What the loop of an uninstall that ends has done to the hooks it came to: its own are gone and
    counted, what is not its own is as it was and listed. -/
theorem uninstallLoop_ok {hooksDir : HookPath} {specs : List HookSpec} {removed n : ℕ}
    {foreign listed : List HookPath} (hnames : (specs.map HookSpec.name).Nodup)
    (h : uninstallLoop faults hooksDir removed foreign files specs = (.ok (n, listed), after)) :
    (∀ spec ∈ specs, after (hooksDir ++ [spec.name]) =
      (files (hooksDir ++ [spec.name])).filter fun file => !spec.owns file) ∧
    n = removed + specs.countP (fun spec => (files (hooksDir ++ [spec.name])).any spec.owns) ∧
    listed = foreign ++
      (specs.filter fun spec => (files (hooksDir ++ [spec.name])).any fun file =>
        !spec.owns file).map fun spec => hooksDir ++ [spec.name] := by
  induction specs generalizing removed foreign files with
  | nil =>
    obtain ⟨hr, rfl⟩ := Prod.mk.inj h
    obtain ⟨rfl, rfl⟩ := Prod.mk.inj (Except.ok.inj hr)
    simp
  | cons spec specs ih =>
    obtain ⟨hname, hrest⟩ := List.nodup_cons.1 hnames
    have hapart : ∀ t ∈ specs, hooksDir ++ [t.name] ≠ hooksDir ++ [spec.name] := by
      intro t ht heq
      have hsame : t.name = spec.name := by simpa using heq
      exact hname (hsame ▸ List.mem_map_of_mem ht)
    -- the place of this hook is out of the reach of the rest of the loop
    have hhead : ∀ {removed foreign mid},
        uninstallLoop faults hooksDir removed foreign mid specs = (.ok (n, listed), after) →
        after (hooksDir ++ [spec.name]) = mid (hooksDir ++ [spec.name]) :=
      fun hloop => uninstallLoop_of_ne hloop fun t ht => (hapart t ht).symm
    rw [uninstallLoop] at h
    rcases hfile : files (hooksDir ++ [spec.name]) with _ | ⟨body, mode⟩
    · rw [hfile] at h
      obtain ⟨hafter, hn, hlisted⟩ := ih hrest h
      refine ⟨List.forall_mem_cons.2 ⟨?_, hafter⟩, ?_, ?_⟩
      · rw [hhead h, hfile, Option.filter_none]
      · rw [hn, List.countP_cons_of_neg (by simp [hfile])]
      · rw [hlisted, List.filter_cons_of_neg (by simp [hfile])]
    rw [hfile] at h
    rcases body with _ | body
    · cases h
    dsimp only at h
    split at h
    · next hmarker =>
      have hown : spec.owns ⟨some body, mode⟩ = false := decide_eq_false hmarker
      obtain ⟨hafter, hn, hlisted⟩ := ih hrest h
      refine ⟨List.forall_mem_cons.2 ⟨?_, hafter⟩, ?_, ?_⟩
      · rw [hhead h, hfile, Option.filter_some, hown]
        rfl
      · rw [hn, List.countP_cons_of_neg (by simp [hfile, hown])]
      · rw [hlisted, List.filter_cons_of_pos (by simp [hfile, hown]), List.map_cons,
          List.append_assoc, List.singleton_append]
    · next hmarker =>
      have hown : spec.owns ⟨some body, mode⟩ = true := decide_eq_true (not_not.1 hmarker)
      split at h
      · cases h
      obtain ⟨hafter, hn, hlisted⟩ := ih hrest h
      have hmid : ∀ t ∈ specs, files.set (hooksDir ++ [spec.name]) none (hooksDir ++ [t.name]) =
          files (hooksDir ++ [t.name]) := fun t ht => HookFiles.set_of_ne files _ (hapart t ht)
      refine ⟨List.forall_mem_cons.2 ⟨?_, fun t ht => ?_⟩, ?_, ?_⟩
      · rw [hhead h, HookFiles.set_self, hfile, Option.filter_some, hown]
        rfl
      · rw [hafter t ht, hmid t ht]
      · rw [hn, List.countP_cons_of_pos (by simp [hfile, hown]),
          List.countP_congr fun t ht => by rw [hmid t ht]]
        omega
      · rw [hlisted, List.filter_cons_of_neg (by simp [hfile, hown]),
          List.filter_congr fun t ht => by rw [hmid t ht]]

theorem uninstallLoop_not_foreignHook {hooksDir : HookPath} {specs : List HookSpec} {removed : ℕ}
    {foreign : List HookPath} {path : HookPath} :
    uninstallLoop faults hooksDir removed foreign files specs ≠
      (.error (.foreignHook path), after) := by
  induction specs generalizing removed foreign files with
  | nil => exact fun h => nomatch h
  | cons spec specs ih =>
    rw [uninstallLoop]
    rcases files (hooksDir ++ [spec.name]) with _ | ⟨_ | body, mode⟩
    · exact ih
    · exact fun h => nomatch h
    · dsimp only
      split
      · exact ih
      · split
        · exact fun h => nomatch h
        · exact ih

/-- The place of a hook of the program in a directory. -/
def IsHookPath (hooksDir path : HookPath) : Prop :=
  ∃ spec ∈ allHooks, path = hooksDir ++ [spec.name]

theorem nodup_hookNames : (allHooks.map HookSpec.name).Nodup := by decide

/-- A loop that removed nothing changed nothing, for it came to no hook of its own. -/
theorem uninstallLoop_zero {hooksDir : HookPath} {listed : List HookPath}
    (h : uninstallLoop faults hooksDir 0 [] files allHooks = (.ok (0, listed), after)) :
    after = files ∧ ∀ spec ∈ allHooks, ∀ file, files (hooksDir ++ [spec.name]) = some file →
      spec.owns file = false := by
  obtain ⟨-, hn, -⟩ := uninstallLoop_ok nodup_hookNames h
  have hnone := List.countP_eq_zero.1 (Nat.eq_zero_of_add_eq_zero_left hn.symm)
  refine ⟨funext fun path => ?_, fun spec hspec file hfile => ?_⟩
  · rw [← (Prod.mk.inj h).2]
    rcases uninstallLoop_cases (List.Subset.refl allHooks) with hsame | ⟨spec, hspec, hpath, hown⟩
    · exact hsame
    · exact absurd (hpath ▸ hown) (hnone spec hspec)
  · have hown := hnone spec hspec
    rwa [hfile, Option.any_some, Bool.not_eq_true] at hown

/-- The hooks that a loop lists are those that are there and are not the program's own. -/
theorem mem_listed {hooksDir path : HookPath} {n : ℕ} {listed : List HookPath}
    (h : uninstallLoop faults hooksDir 0 [] files allHooks = (.ok (n, listed), after)) :
    path ∈ listed ↔ ∃ spec ∈ allHooks, hooksDir ++ [spec.name] = path ∧
      ∃ file, files (hooksDir ++ [spec.name]) = some file ∧ spec.owns file = false := by
  obtain ⟨-, -, rfl⟩ := uninstallLoop_ok nodup_hookNames h
  simp only [List.nil_append, List.mem_map, List.mem_filter, Option.any_eq_true,
    Bool.not_eq_true', and_assoc]
  exact exists_congr fun spec => and_congr_right fun _ => and_comm

/-- If it removed and listed nothing, no hook was there. -/
theorem uninstallLoop_empty {hooksDir : HookPath}
    (h : uninstallLoop faults hooksDir 0 [] files allHooks = (.ok (0, []), after)) :
    ∀ spec ∈ allHooks, files (hooksDir ++ [spec.name]) = none := by
  intro spec hspec
  rcases hfile : files (hooksDir ++ [spec.name]) with _ | file
  · rfl
  · have hown := (uninstallLoop_zero h).2 spec hspec file hfile
    exact absurd ((mem_listed h).2 ⟨spec, hspec, rfl, file, hfile, hown⟩) List.not_mem_nil

/-- What an uninstall can come to: an error before its loop has ended, the count of the loop, or the
    complaint of a foreign hook where the loop has removed none. -/
theorem hooksUninstall_cases (git : GitAnswers) (faults : HookFaults) (files : HookFiles) :
    (∃ e mid, hooksUninstall git faults files = (.error e, mid) ∧ ∀ path, e ≠ .foreignHook path) ∨
    ∃ hooksDir m listed mid, git.hooksDir = some hooksDir ∧
      uninstallLoop faults hooksDir 0 [] files allHooks = (.ok (m, listed), mid) ∧
      ((m = 0 → listed = []) ∧ hooksUninstall git faults files = (.ok m, mid) ∨
        ∃ path rest, m = 0 ∧ listed = path :: rest ∧
          hooksUninstall git faults files = (.error (.foreignHook path), mid)) := by
  unfold hooksUninstall resolveHooksDir
  rcases git.hooksDir with _ | hooksDir
  · exact .inl ⟨_, _, rfl, fun _ h => nomatch h⟩
  dsimp only
  rcases hloop : uninstallLoop faults hooksDir 0 [] files allHooks with ⟨e | ⟨m, listed⟩, mid⟩
  · exact .inl ⟨e, mid, rfl, fun path he => uninstallLoop_not_foreignHook (he ▸ hloop)⟩
  · refine .inr ⟨hooksDir, m, listed, mid, rfl, hloop, ?_⟩
    rcases m with _ | m
    · rcases listed with _ | ⟨path, rest⟩
      · exact .inl ⟨fun _ => rfl, rfl⟩
      · exact .inr ⟨path, rest, rfl, rfl, rfl⟩
    · exact .inl ⟨fun h => absurd h m.succ_ne_zero, rfl⟩

/-- An uninstall that ends well has removed the program's own hooks in the directory that git
    names, has counted them and has changed nothing else, so that no push publishes any more; if it
    has found none, no hook was there at all. One that complains of a hook that is not the
    program's own has removed nothing, for none was there that is. -/
theorem hookUninstalls (git : GitAnswers) (faults : HookFaults) (files after : HookFiles) :
    (∀ n, hooksUninstall git faults files = (.ok n, after) →
      ∃ hooksDir, git.hooksDir = some hooksDir ∧
        (∀ spec ∈ allHooks, after (hooksDir ++ [spec.name]) =
          (files (hooksDir ++ [spec.name])).filter fun file => !spec.owns file) ∧
        (∀ path, ¬IsHookPath hooksDir path → after path = files path) ∧
        n = allHooks.countP (fun spec => (files (hooksDir ++ [spec.name])).any spec.owns) ∧
        (n = 0 → ∀ spec ∈ allHooks, files (hooksDir ++ [spec.name]) = none) ∧
        prePushInstalled git after = false) ∧
    ∀ path, hooksUninstall git faults files = (.error (.foreignHook path), after) →
      after = files ∧ (∃ file, files path = some file ∧ ¬OwnHook path file) ∧
      ∃ hooksDir, git.hooksDir = some hooksDir ∧ ∀ spec ∈ allHooks, ∀ file,
        files (hooksDir ++ [spec.name]) = some file → spec.owns file = false := by
  rcases hooksUninstall_cases git faults files with
    ⟨e, mid, hrun, hne⟩ | ⟨hooksDir, m, listed, mid, hdir, hloop, hends⟩
  · rw [hrun]
    refine ⟨fun n h => (nomatch h), fun path h => ?_⟩
    cases h
    exact absurd rfl (hne path)
  rcases hends with ⟨hzero, hrun⟩ | ⟨place, rest, rfl, rfl, hrun⟩
  · rw [hrun]
    refine ⟨fun n h => ?_, fun path h => nomatch h⟩
    cases h
    obtain ⟨hafter, hn, -⟩ := uninstallLoop_ok nodup_hookNames hloop
    refine ⟨hooksDir, hdir, hafter, fun path hpath => ?_, hn.trans (Nat.zero_add _),
      fun hm => ?_, ?_⟩
    · exact uninstallLoop_of_ne hloop fun spec hspec heq => hpath ⟨spec, hspec, heq⟩
    · subst hm
      exact uninstallLoop_empty (hzero rfl ▸ hloop)
    · rw [prePushInstalled_eq hdir, hafter prePush (by decide), Option.any_filter]
      simp
  · rw [hrun]
    refine ⟨fun n h => (nomatch h), fun path h => ?_⟩
    cases h
    obtain ⟨rfl, hnone⟩ := uninstallLoop_zero hloop
    refine ⟨rfl, ?_, hooksDir, hdir, hnone⟩
    obtain ⟨spec, hspec, rfl, file, hfile, hown⟩ := (mem_listed hloop).1 List.mem_cons_self
    refine ⟨file, hfile, ?_⟩
    rintro ⟨other, hother, hlast, hmarker⟩
    have hname : spec.name = other.name := by simpa using hlast
    cases List.inj_on_of_nodup_map nodup_hookNames hspec hother hname
    rw [HookSpec.owns_iff.2 hmarker] at hown
    cases hown

end Outcomes

end Spelunk
