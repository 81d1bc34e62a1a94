import Spelunk.Core.Autoclean

/-!
# When Cleaning the Registry Is Safe

Autoclean probes a root through symbolic links and takes whatever it is refused for missing. Where
each project can be seen, and each remnant is a real directory that can be searched, it removes
remnants only, keeps the rows of all other projects, and a later run completes one that has failed.

## Main definitions

* `Remnant`: A real root directory with nothing but a real `.spelunk` directory.
* `PlainProject`: A project at which autoclean sees what is there.
* `IndependentRemnants`: What is found at a project does not change when others are removed.
* `CleanedSafely`: What autoclean may do.

## Theorems

* `independent_of_unrelated`: Roots that do not disturb each other.
* `cleanLoop_rows`: What the loop does to the rows, and which list it returns.
* `cleanLoop_stage`: What it does to the files.
* `autocleanLaw`: When cleaning is safe.
* `autoclean_throughLink`: A remnant that is deleted through a link.
-/

namespace Spelunk

open Lib

/-! ### Rows -/

/-- The registry without some rows. -/
structure Catalogue.Without (c : Catalogue) (ids : List ℕ) (c' : Catalogue) : Prop where
  projects : c'.projects = c.projects.filter fun p => p.id ∉ ids
  deps : c'.deps = c.deps.filter fun d => d.1 ∉ ids ∧ d.2 ∉ ids

theorem Catalogue.Without.refl (c : Catalogue) : c.Without [] c :=
  ⟨(List.filter_eq_self.2 fun _ _ => by simp).symm,
    (List.filter_eq_self.2 fun _ _ => by simp).symm⟩

theorem Catalogue.Without.delete {c c' : Catalogue} {ids : List ℕ} {id : ℕ}
    (h : (c.delete id).Without ids c') : c.Without (id :: ids) c' := by
  constructor
  · rw [h.projects, Catalogue.delete, List.filter_filter]
    refine List.filter_congr fun p _ => ?_
    rw [Bool.eq_iff_iff]
    simp only [List.mem_cons, Bool.and_eq_true, decide_eq_true_eq]
    tauto
  · rw [h.deps, Catalogue.delete, List.filter_filter]
    refine List.filter_congr fun d _ => ?_
    rw [Bool.eq_iff_iff]
    simp only [List.mem_cons, Bool.and_eq_true, decide_eq_true_eq]
    tauto

/-- What a round of the loop does to the rows. -/
theorem cleanProject_rows (state : CleanState) (f : CleanFaults) (p : CatalogueRow) :
    ((cleanProject state f p).2 = .removed ∧
        (cleanProject state f p).1.catalogue = state.catalogue.delete p.id) ∨
      ((cleanProject state f p).2 ≠ .removed ∧
        (cleanProject state f p).1.catalogue = state.catalogue) := by
  have hdelete : ∀ state : CleanState, ((deleteRow state f p).2 = .removed ∧
        (deleteRow state f p).1.catalogue = state.catalogue.delete p.id) ∨
      ((deleteRow state f p).2 ≠ .removed ∧
        (deleteRow state f p).1.catalogue = state.catalogue) := by
    intro state
    unfold deleteRow
    split
    · exact .inr ⟨by simp, rfl⟩
    · exact .inl ⟨rfl, rfl⟩
  unfold cleanProject
  split
  · exact hdelete state
  split
  · split
    · exact .inr ⟨by simp, rfl⟩
    · split
      · exact .inr ⟨by simp, rfl⟩
      · exact hdelete _
    · exact hdelete state
  · exact .inr ⟨by simp, rfl⟩

/-- The loop deletes rows of its list, and the list that it returns is that of their roots. -/
theorem cleanLoop_rows (faults : CatalogueRow → CleanFaults) (ps : List CatalogueRow)
    (hps : (ps.map CatalogueRow.id).Nodup) (state : CleanState) (removed : List TreePath) :
    ∃ ids : List ℕ, (∀ n ∈ ids, n ∈ ps.map CatalogueRow.id) ∧
      state.catalogue.Without ids (cleanLoop faults ps state removed).1.catalogue ∧
      ∀ l, (cleanLoop faults ps state removed).2 = some l →
        l = removed ++ (ps.filter fun p => p.id ∈ ids).map CatalogueRow.root := by
  induction ps generalizing state removed with
  | nil =>
    refine ⟨[], fun n hn => absurd hn List.not_mem_nil, .refl _, fun l hl => ?_⟩
    cases hl
    exact (List.append_nil _).symm
  | cons p ps ih =>
    rw [List.map_cons, List.nodup_cons] at hps
    have hrow := cleanProject_rows state (faults p) p
    rw [cleanLoop]
    rcases hstep : cleanProject state (faults p) p with ⟨state', outcome⟩
    rw [hstep] at hrow
    cases outcome with
    | kept =>
      have hcat : state'.catalogue = state.catalogue := by
        rcases hrow with ⟨h, -⟩ | ⟨-, h⟩
        · cases h
        · exact h
      obtain ⟨ids, hids, hwithout, hlist⟩ := ih hps.2 state' removed
      rw [hcat] at hwithout
      refine ⟨ids, fun n hn => List.mem_cons_of_mem _ (hids n hn), hwithout, fun l hl => ?_⟩
      rw [hlist l hl, List.filter_cons_of_neg]
      simpa using fun h => hps.1 (hids _ h)
    | removed =>
      have hcat : state'.catalogue = state.catalogue.delete p.id := by
        rcases hrow with ⟨-, h⟩ | ⟨h, -⟩
        · exact h
        · exact absurd rfl h
      obtain ⟨ids, hids, hwithout, hlist⟩ := ih hps.2 state' (removed ++ [p.root])
      rw [hcat] at hwithout
      refine ⟨p.id :: ids, ?_, hwithout.delete, fun l hl => ?_⟩
      · intro n hn
        rcases List.mem_cons.1 hn with rfl | hn
        · exact List.mem_cons_self
        · exact List.mem_cons_of_mem _ (hids n hn)
      · have hsame : (ps.filter fun q => q.id ∈ p.id :: ids) = ps.filter fun q => q.id ∈ ids := by
          refine List.filter_congr fun q hq => ?_
          have hne : q.id ≠ p.id := fun h => hps.1 (h ▸ List.mem_map_of_mem hq)
          simp [hne]
        rw [hlist l hl, List.filter_cons_of_pos (by simp), List.map_cons, hsame,
          List.append_assoc, List.singleton_append]
    | failed =>
      have hcat : state'.catalogue = state.catalogue := by
        rcases hrow with ⟨h, -⟩ | ⟨-, h⟩
        · cases h
        · exact h
      refine ⟨[], fun n hn => absurd hn List.not_mem_nil, ?_, fun l hl => by cases hl⟩
      rw [hcat]
      exact .refl _

/-! ### Files -/

/-- A root that is there, whoever may see it. -/
def RootExists (files : Files) (root : TreePath) : Prop :=
  (resolve false files maxLinks root).isSome = true

/-- A root with something else in it than `.spelunk`. -/
def Occupied (files : Files) (root : TreePath) : Prop :=
  ∃ dir, resolve false files maxLinks root = some dir ∧
    ∃ name ∈ files.names dir, name ≠ ".spelunk"

/-- A real root directory with nothing but a real `.spelunk` directory. -/
structure Remnant (files : Files) (root : TreePath) : Prop where
  real : follow true files [] root = .found root
  only : files.names root = [".spelunk"]
  spelunk : ∃ r s, files.at (root ++ [".spelunk"]) = some (.dir r s)

/-- What goes with a remnant: the root, and `.spelunk` with all that is in it. -/
def cleared (root x : TreePath) : Bool := x = root || (root ++ [".spelunk"]).isPrefixOf x

/-- What autoclean finds at a root. -/
structure Look where
  found : Bool
  only : Bool
  spelunk : Option TreeNode
  real : Bool
deriving DecidableEq, Repr

def look (files : Files) (root : TreePath) : Look where
  found := pathExists files root
  only := spelunkOnlyRemnant files root
  spelunk := spelunkMetadata files root
  real := follow true files [] root = .found root

/-- A remnant is found. -/
structure Look.Cleanable (l : Look) : Prop where
  only : l.only = true
  real : l.real = true
  spelunk : ∃ r s, l.spelunk = some (.dir r s)

section Looks

variable {files : Files} {root : TreePath} {keep : TreePath → Bool}

theorem resolve_of_real {refused : Bool} (h : follow refused files [] root = .found root) :
    resolve refused files maxLinks root = some root := by
  show resolve refused files (40 + 1) root = some root
  rw [resolve, h]

theorem real_of_cleanable (h : (look files root).Cleanable) :
    follow true files [] root = .found root :=
  of_decide_eq_true h.real

/-- What stands at a remnant. -/
theorem remnant_of_cleanable (h : (look files root).Cleanable) :
    Remnant files root ∧ ∃ s, files.at root = some (.dir true s) := by
  have hreal := real_of_cleanable h
  have hresolve := resolve_of_real hreal
  have honly : spelunkOnlyRemnant files root = true := h.only
  obtain ⟨r, s, hspelunk⟩ := h.spelunk
  have hmeta : spelunkMetadata files root = some (.dir r s) := hspelunk
  rw [spelunkOnlyRemnant, hresolve] at honly
  rw [spelunkMetadata, hresolve] at hmeta
  dsimp only at honly hmeta
  rw [Bool.and_eq_true, decide_eq_true_eq] at honly
  split at hmeta
  · have hreadable := honly.1
    unfold readable at hreadable
    split at hreadable
    · next s' hat =>
      rw [hreadable] at hat
      exact ⟨⟨hreal, honly.2, r, s, hmeta⟩, s', hat⟩
    · cases hreadable
  · cases hmeta

/-- What autoclean finds at a real root, in terms of the objects there. -/
theorem look_of_real (h : follow true files [] root = .found root) :
    look files root = ⟨true,
      readable (files.at root) && decide (files.names root = [".spelunk"]),
      if searchableBy true (files.at root) then files.at (root ++ [".spelunk"]) else none,
      true⟩ := by
  have hresolve := resolve_of_real h
  rw [look, pathExists, spelunkOnlyRemnant, spelunkMetadata, hresolve]
  simp only [Option.isSome_some, h, decide_true]

theorem cleared_above {x : TreePath} (hx : x <+: root) (hne : x ≠ root) :
    cleared root x = false := by
  rw [cleared, Bool.or_eq_false_iff]
  refine ⟨decide_eq_false hne, ?_⟩
  rcases h : (root ++ [".spelunk"]).isPrefixOf x with _ | _
  · rfl
  · have hlen := (List.isPrefixOf_iff_prefix.1 h).length_le
    have hle := hx.length_le
    rw [List.length_append, List.length_singleton] at hlen
    omega

/-- While the root and `.spelunk` stand, the remnant is found as before. -/
theorem look_whole (h : (look files root).Cleanable)
    (hkeep : ∀ x, keep x = false → cleared root x = true)
    (hroot : keep root = true) (hspelunk : keep (root ++ [".spelunk"]) = true) :
    look (files.filter fun o => keep o.1) root = look files root := by
  have hreal := real_of_cleanable h
  have hat : ∀ x, x <+: root → Files.at (files.filter fun o => keep o.1) x = files.at x := by
    intro x hx
    refine at_filter ?_
    by_cases hne : x = root
    · rw [hne, hroot]
    · by_contra hfalse
      have hc := hkeep x (by simpa using hfalse)
      rw [cleared_above hx hne] at hc
      cases hc
  have hreal' : follow true (files.filter fun o => keep o.1) [] root = .found root :=
    (follow_congr_root hat).trans hreal
  have hnames : Files.names (files.filter fun o => keep o.1) root = files.names root := by
    rw [names_filter, (remnant_of_cleanable h).1.only,
      List.filter_cons_of_pos (by exact hspelunk), List.filter_nil]
  rw [look_of_real hreal, look_of_real hreal', hat root (List.prefix_refl _), hnames,
    at_filter hspelunk]

/-- Without its root the project is gone. -/
theorem look_removed (h : (look files root).Cleanable) (hne : root ≠ [])
    (hkeep : ∀ x, keep x = false → cleared root x = true) (hroot : keep root = false) :
    pathExists (files.filter fun o => keep o.1) root = false := by
  obtain ⟨parent, name, rfl⟩ : ∃ parent name, root = parent ++ [name] :=
    ⟨_, _, (List.dropLast_append_getLast hne).symm⟩
  have hreal := real_of_cleanable h
  have hparent := follow_dropLast hreal
  rw [List.nil_append] at hparent
  have hat : ∀ x, x <+: parent → Files.at (files.filter fun o => keep o.1) x = files.at x := by
    intro x hx
    refine at_filter ?_
    by_contra hfalse
    have hc := hkeep x (by simpa using hfalse)
    have hlen := hx.length_le
    rw [cleared_above (hx.trans (List.prefix_append _ _)) (fun heq => by
      rw [heq, List.length_append, List.length_singleton] at hlen
      omega)] at hc
    cases hc
  have hparent' : follow true (files.filter fun o => keep o.1) [] parent = .found parent :=
    (follow_congr_root hat).trans hparent
  have hwalk : follow true (files.filter fun o => keep o.1) [] (parent ++ [name]) = .failed := by
    rw [follow_append hparent', follow, at_filter_removed hroot (by simp)]
    split <;> rfl
  show (resolve true (files.filter fun o => keep o.1) (40 + 1) (parent ++ [name])).isSome = false
  rw [resolve, hwalk]
  rfl

/-- What the removals do at a remnant: `.spelunk` goes as a whole or in part, and the root with it
    when it goes as a whole. -/
theorem removeSpelunk_remnant (h : (look files root).Cleanable) (left : List TreePath) :
    removeSpelunk files none root =
        (files.filter fun o => !(root ++ [".spelunk"]).isPrefixOf o.1, true) ∧
      removeSpelunk files (some left) root =
        (files.filter fun o => !(root ++ [".spelunk"]).isPrefixOf o.1 ||
          o.1 = root ++ [".spelunk"] || left.contains o.1, false) := by
  obtain ⟨r, s, hspelunk⟩ := (remnant_of_cleanable h).1.spelunk
  rw [removeSpelunk, removeSpelunk, resolve_of_real (real_of_cleanable h)]
  simp only [hspelunk, and_self]

theorem removeRootDir_remnant (h : (look files root).Cleanable) (hne : root ≠ []) :
    removeRootDir (files.filter fun o => !(root ++ [".spelunk"]).isPrefixOf o.1) false root =
      files.filter fun o => !cleared root o.1 := by
  obtain ⟨hremnant, s, hat⟩ := remnant_of_cleanable h
  obtain ⟨parent, name, rfl⟩ : ∃ parent name, root = parent ++ [name] :=
    ⟨_, _, (List.dropLast_append_getLast hne).symm⟩
  have hstay : ∀ x, x <+: parent ++ [name] →
      Files.at (files.filter fun o => !(parent ++ [name] ++ [".spelunk"]).isPrefixOf o.1) x =
        files.at x := by
    intro x hx
    refine @at_filter _ _ (fun x => !(parent ++ [name] ++ [".spelunk"]).isPrefixOf x) ?_
    rcases hp : (parent ++ [name] ++ [".spelunk"]).isPrefixOf x with _ | _
    · rfl
    · have hlen := (List.isPrefixOf_iff_prefix.1 hp).length_le
      have hle := hx.length_le
      simp only [List.length_append, List.length_singleton] at hlen hle
      omega
  have hparent := follow_dropLast (real_of_cleanable h)
  rw [List.nil_append] at hparent
  have hparent' : follow true
      (files.filter fun o => !(parent ++ [name] ++ [".spelunk"]).isPrefixOf o.1) [] parent =
      .found parent :=
    (follow_congr_root fun x hx => hstay x (hx.trans (List.prefix_append _ _))).trans hparent
  have hnames : Files.names
      (files.filter fun o => !(parent ++ [name] ++ [".spelunk"]).isPrefixOf o.1)
      (parent ++ [name]) = [] := by
    rw [names_filter fun x => !(parent ++ [name] ++ [".spelunk"]).isPrefixOf x,
      hremnant.only, List.filter_cons_of_neg (by simp), List.filter_nil]
  rw [removeRootDir, List.getLast?_concat]
  dsimp only
  rw [List.dropLast_concat, resolve_of_real hparent']
  dsimp only
  rw [hstay _ (List.prefix_refl _), hat]
  dsimp only
  rw [if_pos ⟨rfl, hnames⟩, List.filter_filter]
  refine List.filter_congr fun o _ => ?_
  rw [cleared, Bool.not_or, Bool.eq_iff_iff]
  simp

end Looks

/-! ### Rounds -/

/-- A project at which autoclean sees what is there: a root that exists is not refused, what is
    taken for a remnant is a real one that can be searched, or refused as a link, and the emptied
    root can be removed. -/
structure PlainProject (files : Files) (faults : CleanFaults) (root : TreePath) : Prop where
  visible : RootExists files root → pathExists files root = true
  remnant : spelunkOnlyRemnant files root = true →
    (∃ target, spelunkMetadata files root = some (.link target)) ∨ (look files root).Cleanable
  removeRoot : faults.removeRoot = false
  root_ne_nil : root ≠ []

section Rounds

variable {state : CleanState} {f : CleanFaults} {p : CatalogueRow}

/-- A row whose root is gone is deleted. -/
theorem cleanProject_gone (h : (look state.files p.root).found = false) :
    cleanProject state f p = deleteRow state f p := by
  rw [cleanProject, if_pos (show pathExists state.files p.root = false from h)]

theorem found_of_cleanable {files : Files} {root : TreePath} (h : (look files root).Cleanable) :
    (look files root).found = true := by
  rw [look_of_real (real_of_cleanable h)]

/-- A remnant goes, and then its row. -/
theorem cleanProject_remnant (h : (look state.files p.root).Cleanable)
    (hroot : f.removeRoot = false) (hne : p.root ≠ []) :
    cleanProject state f p =
      match f.survivors with
      | none =>
        deleteRow { state with files := state.files.filter fun o => !cleared p.root o.1 } f p
      | some left =>
        ({ state with files := state.files.filter fun o =>
          !(p.root ++ [".spelunk"]).isPrefixOf o.1 || o.1 = p.root ++ [".spelunk"] ||
            left.contains o.1 }, .failed) := by
  have hfound : ¬pathExists state.files p.root = false := by
    rw [show pathExists state.files p.root = true from found_of_cleanable h]
    exact Bool.noConfusion
  obtain ⟨r, s, hdir⟩ := h.spelunk
  have hmeta : spelunkMetadata state.files p.root = some (.dir r s) := hdir
  rw [cleanProject, if_neg hfound,
    if_pos (show spelunkOnlyRemnant state.files p.root = true from h.only), hmeta]
  dsimp only
  rcases f.survivors with _ | left
  · rw [(removeSpelunk_remnant h []).1]
    dsimp only
    rw [hroot, removeRootDir_remnant h hne]
  · rw [(removeSpelunk_remnant h left).2]

/-- Any other project is left alone. -/
theorem cleanProject_kept (hfound : (look state.files p.root).found = true)
    (hplain : (look state.files p.root).only = true →
      ∃ target, (look state.files p.root).spelunk = some (.link target)) :
    cleanProject state f p = (state, .kept) := by
  rw [cleanProject, if_neg (by
    rw [show pathExists state.files p.root = true from hfound]
    exact Bool.noConfusion)]
  by_cases honly : (look state.files p.root).only = true
  · obtain ⟨target, htarget⟩ := hplain honly
    have hmeta : spelunkMetadata state.files p.root = some (.link target) := htarget
    rw [if_pos (show spelunkOnlyRemnant state.files p.root = true from honly), hmeta]
  · rw [if_neg (show ¬spelunkOnlyRemnant state.files p.root = true from honly)]

theorem deleteRow_files (state : CleanState) (f : CleanFaults) (p : CatalogueRow) :
    (deleteRow state f p).1.files = state.files ∧ (deleteRow state f p).2 ≠ .kept ∧
      (f.deleteRow = false → (deleteRow state f p).2 ≠ .failed) := by
  unfold deleteRow
  split
  · next h => exact ⟨rfl, by simp, fun hf => by rw [h] at hf; cases hf⟩
  · exact ⟨rfl, by simp, fun _ => by simp⟩

end Rounds

/-! ### Stages of the run -/

/-- What is found at a project does not change when the remnants of others are removed. -/
def IndependentRemnants (files : Files) (projects : List CatalogueRow) : Prop :=
  ∀ q ∈ projects, ∀ keep : TreePath → Bool,
    (∀ x, keep x = false → ∃ p ∈ projects, p ≠ q ∧ (look files p.root).Cleanable ∧
      cleared p.root x = true) →
    look (files.filter fun o => keep o.1) q.root = look files q.root

/-- Roots without links on the way, none of which is above another, are undisturbed. -/
theorem independent_of_unrelated {files : Files} {projects : List CatalogueRow}
    (hlinks : ∀ q ∈ projects, ∀ rest, follow true files [] q.root ≠ .jump rest)
    (hroots : ∀ p ∈ projects, ∀ q ∈ projects, p ≠ q → ¬p.root <+: q.root) :
    IndependentRemnants files projects := by
  intro q hq keep hkeep
  have hstarts : ∀ x, x <+: q.root → keep x = true := by
    intro x hx
    by_contra hfalse
    obtain ⟨p, hp, hne, -, hc⟩ := hkeep x (by simpa using hfalse)
    rw [cleared, Bool.or_eq_true_iff] at hc
    rcases hc with hc | hc
    · exact hroots p hp q hq hne (of_decide_eq_true hc ▸ hx)
    · exact hroots p hp q hq hne
        ((List.prefix_append _ _).trans ((List.isPrefixOf_iff_prefix.1 hc).trans hx))
  have hchild : ∀ name, keep (q.root ++ [name]) = true := by
    intro name
    by_contra hfalse
    obtain ⟨p, hp, hne, -, hc⟩ := hkeep _ (by simpa using hfalse)
    rw [cleared, Bool.or_eq_true_iff] at hc
    rcases hc with hc | hc
    · exact hroots q hq p hp hne.symm ⟨[name], of_decide_eq_true hc⟩
    · rcases List.prefix_concat_iff.1 (List.isPrefixOf_iff_prefix.1 hc) with heq | hbelow
      · have hroot := List.append_inj_left' heq rfl
        exact hroots p hp q hq hne (hroot ▸ List.prefix_refl _)
      · exact hroots p hp q hq hne ((List.prefix_append _ _).trans hbelow)
  have hwalk : follow true (files.filter fun o => keep o.1) [] q.root =
      follow true files [] q.root :=
    follow_congr_root fun x hx => at_filter (hstarts x hx)
  rcases hcase : follow true files [] q.root with r | rest | _
  · have hr : r = q.root := follow_eq_found hcase
    subst hr
    have hnames : Files.names (files.filter fun o => keep o.1) q.root = files.names q.root := by
      rw [names_filter]
      exact List.filter_eq_self.2 fun name _ => hchild name
    rw [look_of_real hcase, look_of_real (hwalk.trans hcase),
      at_filter (hstarts _ (List.prefix_refl _)), hnames, at_filter (hchild _)]
  · exact absurd hcase (hlinks q hq rest)
  · have hnone : ∀ files : Files, follow true files [] q.root = .failed →
        resolve true files maxLinks q.root = none := by
      intro files h
      show resolve true files (40 + 1) q.root = none
      rw [resolve, h]
    rw [look, look, pathExists, pathExists, spelunkOnlyRemnant, spelunkOnlyRemnant,
      spelunkMetadata, spelunkMetadata, hnone files hcase, hnone _ (hwalk.trans hcase), hwalk]

/-- What is left of the files: parts of remnants are gone, but the root and the `.spelunk` of a
    remnant only with all of it. -/
structure Stage (files : Files) (projects : List CatalogueRow) (keep : TreePath → Bool) : Prop where
  within : ∀ x, keep x = false →
    ∃ p ∈ projects, (look files p.root).Cleanable ∧ cleared p.root x = true
  each : ∀ p ∈ projects, (look files p.root).Cleanable →
    (keep p.root = true ∧ keep (p.root ++ [".spelunk"]) = true) ∨
      ∀ x, cleared p.root x = true → keep x = false

section Stages

variable {files : Files} {projects : List CatalogueRow} {keep : TreePath → Bool}
  {p q : CatalogueRow} {faults : CatalogueRow → CleanFaults}

theorem Stage.start (files : Files) (projects : List CatalogueRow) :
    Stage files projects fun _ => true :=
  ⟨fun _ h => Bool.noConfusion h, fun _ _ _ => .inl ⟨rfl, rfl⟩⟩

/-- The removals at others, and those at the project itself. -/
theorem Stage.others (hund : IndependentRemnants files projects)
    (hstage : Stage files projects keep) (hq : q ∈ projects) :
    look (files.filter fun o => keep o.1 || cleared q.root o.1) q.root = look files q.root ∧
      (files.filter fun o => keep o.1) =
        (files.filter fun o => keep o.1 || cleared q.root o.1).filter fun o =>
          keep o.1 || !cleared q.root o.1 := by
  constructor
  · refine hund q hq (fun x => keep x || cleared q.root x) fun x hx => ?_
    rw [Bool.or_eq_false_iff] at hx
    obtain ⟨p, hp, hclean, hc⟩ := hstage.within x hx.1
    refine ⟨p, hp, ?_, hclean, hc⟩
    rintro rfl
    rw [hx.2] at hc
    cases hc
  · rw [List.filter_filter]
    refine List.filter_congr fun o _ => ?_
    cases keep o.1 <;> cases cleared q.root o.1 <;> rfl

/-- What is found at a project that still stands. -/
theorem Stage.look_eq (hund : IndependentRemnants files projects)
    (hstage : Stage files projects keep) (hq : q ∈ projects) (hwhole : (look files q.root).Cleanable →
      keep q.root = true ∧ keep (q.root ++ [".spelunk"]) = true) :
    look (files.filter fun o => keep o.1) q.root = look files q.root := by
  by_cases hclean : (look files q.root).Cleanable
  · obtain ⟨hsame, hsplit⟩ := hstage.others hund hq
    rw [hsplit, ← hsame]
    refine @look_whole _ _ (fun x => keep x || !cleared q.root x) (hsame ▸ hclean)
      (fun x hx => ?_) ?_ ?_
    · rw [Bool.or_eq_false_iff, Bool.not_eq_false'] at hx
      exact hx.2
    · rw [(hwhole hclean).1, Bool.true_or]
    · rw [(hwhole hclean).2, Bool.true_or]
  · refine hund q hq keep fun x hx => ?_
    obtain ⟨p, hp, hpclean, hc⟩ := hstage.within x hx
    refine ⟨p, hp, ?_, hpclean, hc⟩
    rintro rfl
    exact hclean hpclean

/-- A remnant that has been removed is gone. -/
theorem Stage.gone (hund : IndependentRemnants files projects) (hstage : Stage files projects keep)
    (hq : q ∈ projects) (hclean : (look files q.root).Cleanable) (hne : q.root ≠ [])
    (hremoved : ∀ x, cleared q.root x = true → keep x = false) :
    (look (files.filter fun o => keep o.1) q.root).found = false := by
  obtain ⟨hsame, hsplit⟩ := hstage.others hund hq
  have hself : cleared q.root q.root = true := by rw [cleared, decide_eq_true rfl, Bool.true_or]
  rw [hsplit]
  refine @look_removed _ _ (fun x => keep x || !cleared q.root x) (hsame ▸ hclean) hne
    (fun x hx => ?_) ?_
  · rw [Bool.or_eq_false_iff, Bool.not_eq_false'] at hx
    exact hx.2
  · rw [hremoved _ hself, hself]
    rfl

/-- Two remnants have nothing of each other. -/
theorem cleared_other (hund : IndependentRemnants files projects) (hp : p ∈ projects)
    (hq : q ∈ projects) (hne : p ≠ q) (hpclean : (look files p.root).Cleanable)
    (hqclean : (look files q.root).Cleanable) (hroot : p.root ≠ []) :
    cleared q.root p.root = false ∧ cleared q.root (p.root ++ [".spelunk"]) = false := by
  have hsame : look (files.filter fun o => !cleared q.root o.1) p.root = look files p.root := by
    refine hund p hp (fun x => !cleared q.root x) fun x hx => ?_
    rw [Bool.not_eq_false'] at hx
    exact ⟨q, hq, hne.symm, hqclean, hx⟩
  obtain ⟨hremnant, s, hat⟩ := remnant_of_cleanable (hsame ▸ hpclean)
  obtain ⟨r, s', hspelunk⟩ := hremnant.spelunk
  have hremoved := fun x (hx : cleared q.root x = true) (hne : x ≠ []) =>
    @at_filter_removed files x (fun x => !cleared q.root x) (by rw [hx]; rfl) hne
  constructor
  · by_contra h
    rw [hremoved _ (by simpa using h) hroot] at hat
    cases hat
  · by_contra h
    rw [hremoved _ (by simpa using h) (by simp)] at hspelunk
    cases hspelunk

/-- A round of the loop goes from one stage to the next. -/
theorem Stage.step (hund : IndependentRemnants files projects)
    (hplain : ∀ p ∈ projects, PlainProject files (faults p) p.root)
    (hstage : Stage files projects keep) (hq : q ∈ projects) (c : Catalogue) :
    ∃ keep', Stage files projects keep' ∧ (∀ x, keep' x = true → keep x = true) ∧
      (cleanProject ⟨c, files.filter fun o => keep o.1⟩ (faults q) q).1.files =
        files.filter (fun o => keep' o.1) ∧
      ((cleanProject ⟨c, files.filter fun o => keep o.1⟩ (faults q) q).2 = .removed →
        (look files q.root).found = false ∨
          (look files q.root).Cleanable ∧ ∀ x, cleared q.root x = true → keep' x = false) ∧
      ((cleanProject ⟨c, files.filter fun o => keep o.1⟩ (faults q) q).2 = .kept →
        (look files q.root).found = true ∧ ¬(look files q.root).Cleanable) ∧
      ((faults q).survivors = none → (faults q).deleteRow = false →
        (cleanProject ⟨c, files.filter fun o => keep o.1⟩ (faults q) q).2 ≠ .failed ∧
          ∀ x, keep' x = true ↔
            keep x = true ∧ ((look files q.root).Cleanable → cleared q.root x = false)) := by
  obtain ⟨hvisible, hremnant, hremoveRoot, hne⟩ := hplain q hq
  by_cases hclean : (look files q.root).Cleanable
  · rcases hstage.each q hq hclean with hwhole | hremoved
    · have hlook := hstage.look_eq hund hq fun _ => hwhole
      have hround := @cleanProject_remnant ⟨c, files.filter fun o => keep o.1⟩ (faults q) q
        (hlook ▸ hclean) hremoveRoot hne
      rcases hsurvivors : (faults q).survivors with _ | left
      · -- The remnant goes.
        rw [hsurvivors] at hround
        dsimp only at hround
        rw [List.filter_filter] at hround
        obtain ⟨hfiles, hkept, hfailed⟩ := deleteRow_files
          ⟨c, files.filter fun o => !cleared q.root o.1 && keep o.1⟩ (faults q) q
        refine ⟨fun x => !cleared q.root x && keep x, ⟨fun x hx => ?_, fun p hp hpclean => ?_⟩,
          fun x hx => (Bool.and_eq_true_iff.1 hx).2, ?_, fun _ => .inr ⟨hclean, fun x hx => ?_⟩,
          fun h => ?_, fun _ hrow => ⟨?_, fun x => ?_⟩⟩
        · rw [Bool.and_eq_false_iff, Bool.not_eq_false'] at hx
          rcases hx with hx | hx
          · exact ⟨q, hq, hclean, hx⟩
          · exact hstage.within x hx
        · by_cases hpq : p = q
          · subst hpq
            exact .inr fun x hx => by rw [hx]; rfl
          · obtain ⟨hother, hother'⟩ := cleared_other hund hp hq hpq hpclean hclean
              (hplain p hp).root_ne_nil
            rcases hstage.each p hp hpclean with h | h
            · exact .inl ⟨by rw [hother, h.1]; rfl, by rw [hother', h.2]; rfl⟩
            · exact .inr fun x hx => by rw [h x hx, Bool.and_false]
        · rw [hround, hfiles]
        · show (!cleared q.root x && keep x) = false
          rw [hx]
          rfl
        · rw [hround] at h
          exact absurd h hkept
        · rw [hround]
          exact hfailed hrow
        · rw [Bool.and_eq_true, Bool.not_eq_true']
          exact ⟨fun h => ⟨h.2, fun _ => h.1⟩, fun h => ⟨h.2 hclean, h.1⟩⟩
      · -- It goes in part.
        rw [hsurvivors] at hround
        dsimp only at hround
        rw [List.filter_filter] at hround
        have hroot : (q.root ++ [".spelunk"]).isPrefixOf q.root = false := by
          rcases h : (q.root ++ [".spelunk"]).isPrefixOf q.root with _ | _
          · rfl
          · have hlen := (List.isPrefixOf_iff_prefix.1 h).length_le
            rw [List.length_append, List.length_singleton] at hlen
            omega
        refine ⟨fun x => (!(q.root ++ [".spelunk"]).isPrefixOf x || x = q.root ++ [".spelunk"] ||
            left.contains x) && keep x, ⟨fun x hx => ?_, fun p hp hpclean => ?_⟩,
          fun x hx => (Bool.and_eq_true_iff.1 hx).2, ?_, fun h => ?_, fun h => ?_, fun h => ?_⟩
        · rw [Bool.and_eq_false_iff] at hx
          rcases hx with hx | hx
          · rw [Bool.or_eq_false_iff, Bool.or_eq_false_iff, Bool.not_eq_false'] at hx
            exact ⟨q, hq, hclean, by rw [cleared, hx.1.1, Bool.or_true]⟩
          · exact hstage.within x hx
        · by_cases hpq : p = q
          · subst hpq
            refine .inl ⟨?_, ?_⟩
            · rw [hroot, hwhole.1]
              rfl
            · rw [hwhole.2, decide_eq_true rfl, Bool.or_true, Bool.true_or]
              rfl
          · obtain ⟨hother, hother'⟩ := cleared_other hund hp hq hpq hpclean hclean
              (hplain p hp).root_ne_nil
            rw [cleared, Bool.or_eq_false_iff] at hother hother'
            rcases hstage.each p hp hpclean with h | h
            · refine .inl ⟨?_, ?_⟩
              · rw [hother.2, h.1]
                rfl
              · rw [hother'.2, h.2]
                rfl
            · exact .inr fun x hx => by rw [h x hx, Bool.and_false]
        · rw [hround]
        · rw [hround] at h
          cases h
        · rw [hround] at h
          cases h
        · cases h
    · -- It has gone before.
      have hgone := hstage.gone hund hq hclean hne hremoved
      have hround := @cleanProject_gone ⟨c, files.filter fun o => keep o.1⟩ (faults q) q hgone
      obtain ⟨hfiles, hkept, hfailed⟩ := deleteRow_files
        ⟨c, files.filter fun o => keep o.1⟩ (faults q) q
      rw [hround]
      refine ⟨keep, hstage, fun x hx => hx, hfiles, fun _ => .inr ⟨hclean, hremoved⟩,
        fun h => absurd h hkept, fun _ hrow => ⟨hfailed hrow, fun x => ⟨fun hx => ⟨hx, fun _ => ?_⟩,
          fun h => h.1⟩⟩⟩
      by_contra hc
      rw [hremoved x (by simpa using hc)] at hx
      cases hx
  · have hlook := hstage.look_eq hund hq fun h => absurd h hclean
    have hiff : ∀ x, keep x = true ↔
        keep x = true ∧ ((look files q.root).Cleanable → cleared q.root x = false) := fun x =>
      ⟨fun hx => ⟨hx, fun h => absurd h hclean⟩, fun h => h.1⟩
    rcases hfound : (look files q.root).found with _ | _
    · have hround := @cleanProject_gone ⟨c, files.filter fun o => keep o.1⟩ (faults q) q
        (by rw [hlook, hfound])
      obtain ⟨hfiles, hkept, hfailed⟩ := deleteRow_files
        ⟨c, files.filter fun o => keep o.1⟩ (faults q) q
      rw [hround]
      exact ⟨keep, hstage, fun x hx => hx, hfiles, fun _ => .inl rfl, fun h => absurd h hkept,
        fun _ hrow => ⟨hfailed hrow, hiff⟩⟩
    · have hround := @cleanProject_kept ⟨c, files.filter fun o => keep o.1⟩ (faults q) q
        (by rw [hlook, hfound]) (by
          rw [hlook]
          intro honly
          exact (hremnant honly).resolve_right hclean)
      rw [hround]
      exact ⟨keep, hstage, fun x hx => hx, rfl, (fun h => nomatch h), fun _ => ⟨rfl, hclean⟩,
        fun _ _ => ⟨by simp, hiff⟩⟩

/-- The loop goes from one stage to the next. -/
theorem cleanLoop_stage (hund : IndependentRemnants files projects)
    (hplain : ∀ p ∈ projects, PlainProject files (faults p) p.root)
    (ps : List CatalogueRow) (hps : (ps.map CatalogueRow.id).Nodup) (hmem : ∀ p ∈ ps, p ∈ projects)
    (hstage : Stage files projects keep) (c : Catalogue) (removed : List TreePath) :
    ∃ keep', Stage files projects keep' ∧ (∀ x, keep' x = true → keep x = true) ∧
      (cleanLoop faults ps ⟨c, files.filter fun o => keep o.1⟩ removed).1.files =
        files.filter (fun o => keep' o.1) ∧
      (∀ p ∈ ps, p ∈ c.projects →
        p ∉ (cleanLoop faults ps ⟨c, files.filter fun o => keep o.1⟩
          removed).1.catalogue.projects →
        (look files p.root).found = false ∨
          (look files p.root).Cleanable ∧ ∀ x, cleared p.root x = true → keep' x = false) ∧
      ((∀ p ∈ ps, (faults p).survivors = none ∧ (faults p).deleteRow = false) →
        (∀ p ∈ ps, (look files p.root).found = false ∨ (look files p.root).Cleanable →
          p ∉ (cleanLoop faults ps ⟨c, files.filter fun o => keep o.1⟩
            removed).1.catalogue.projects) ∧
        ∀ x, keep' x = true ↔ keep x = true ∧
          ∀ p ∈ ps, (look files p.root).Cleanable → cleared p.root x = false) := by
  induction ps generalizing keep c removed with
  | nil =>
    refine ⟨keep, hstage, fun x hx => hx, rfl, fun p hp => absurd hp List.not_mem_nil,
      fun _ => ⟨fun p hp => absurd hp List.not_mem_nil, fun x => ⟨fun hx => ⟨hx, fun p hp =>
        absurd hp List.not_mem_nil⟩, fun h => h.1⟩⟩⟩
  | cons q ps ih =>
    rw [List.map_cons, List.nodup_cons] at hps
    obtain ⟨hqnot, hpsnodup⟩ := hps
    obtain ⟨keep₁, hstage₁, hle₁, hfiles₁, hremoved₁, hkept₁, hfault₁⟩ :=
      hstage.step hund hplain (hmem q List.mem_cons_self) c
    have hrow := cleanProject_rows ⟨c, files.filter fun o => keep o.1⟩ (faults q) q
    have hmem' : ∀ p ∈ ps, p ∈ projects := fun p hp => hmem p (List.mem_cons_of_mem _ hp)
    rw [cleanLoop]
    rcases hround : cleanProject ⟨c, files.filter fun o => keep o.1⟩ (faults q) q with
      ⟨⟨c₁, files₁⟩, outcome⟩
    rw [hround] at hfiles₁ hremoved₁ hkept₁ hfault₁ hrow
    dsimp only at hfiles₁ hremoved₁ hkept₁ hfault₁ hrow
    subst hfiles₁
    -- What the rest of the loop keeps of the row that this round was about.
    have hhead : ∀ removed, ∃ ids : List ℕ, q.id ∉ ids ∧
        c₁.Without ids (cleanLoop faults ps ⟨c₁, files.filter fun o => keep₁ o.1⟩
          removed).1.catalogue := by
      intro removed
      obtain ⟨ids, hids, hwithout, -⟩ := cleanLoop_rows faults ps hpsnodup
        ⟨c₁, files.filter fun o => keep₁ o.1⟩ removed
      exact ⟨ids, fun h => hqnot (hids _ h), hwithout⟩
    cases outcome with
    | kept =>
      have hcat : c₁ = c := by
        rcases hrow with ⟨h, -⟩ | ⟨-, h⟩
        · cases h
        · exact h
      subst hcat
      obtain ⟨keep', hstage', hle', hfiles', hgone', hall'⟩ :=
        ih hpsnodup hmem' hstage₁ c₁ removed
      obtain ⟨hfound, hclean⟩ := hkept₁ rfl
      refine ⟨keep', hstage', fun x hx => hle₁ x (hle' x hx), hfiles', fun p hp hpc hpnot => ?_,
        fun hnone => ⟨fun p hp hgone => ?_, fun x => ?_⟩⟩
      · rcases List.mem_cons.1 hp with rfl | hp
        · obtain ⟨ids, hnot, hwithout⟩ := hhead removed
          dsimp only at hpnot
          rw [hwithout.projects] at hpnot
          exact absurd (List.mem_filter.2 ⟨hpc, by simpa using hnot⟩) hpnot
        · exact hgone' p hp hpc hpnot
      · have hrest := hall' fun p hp => hnone p (List.mem_cons_of_mem _ hp)
        rcases List.mem_cons.1 hp with rfl | hp
        · rcases hgone with h | h
          · rw [hfound] at h
            cases h
          · exact absurd h hclean
        · exact hrest.1 p hp hgone
      · have hrest := hall' fun p hp => hnone p (List.mem_cons_of_mem _ hp)
        obtain ⟨hsurvivors, hdelete⟩ := hnone q List.mem_cons_self
        rw [hrest.2, (hfault₁ hsurvivors hdelete).2]
        simp only [List.forall_mem_cons, and_assoc]
    | removed =>
      have hcat : c₁ = c.delete q.id := by
        rcases hrow with ⟨-, h⟩ | ⟨h, -⟩
        · exact h
        · exact absurd rfl h
      subst hcat
      obtain ⟨keep', hstage', hle', hfiles', hgone', hall'⟩ :=
        ih hpsnodup hmem' hstage₁ (c.delete q.id) (removed ++ [q.root])
      refine ⟨keep', hstage', fun x hx => hle₁ x (hle' x hx), hfiles', fun p hp hpc hpnot => ?_,
        fun hnone => ⟨fun p hp hgone => ?_, fun x => ?_⟩⟩
      · rcases List.mem_cons.1 hp with rfl | hp
        · refine (hremoved₁ rfl).imp_right fun h => ⟨h.1, fun x hx => ?_⟩
          have hfalse := h.2 x hx
          by_contra hkeep
          rw [hle' x (by simpa using hkeep)] at hfalse
          cases hfalse
        · refine hgone' p hp ?_ hpnot
          have hne : p.id ≠ q.id := fun h => hqnot (h ▸ List.mem_map_of_mem hp)
          exact List.mem_filter.2 ⟨hpc, by simpa using hne⟩
      · have hrest := hall' fun p hp => hnone p (List.mem_cons_of_mem _ hp)
        rcases List.mem_cons.1 hp with rfl | hp
        · obtain ⟨ids, hnot, hwithout⟩ := hhead (removed ++ [p.root])
          dsimp only
          rw [hwithout.projects]
          intro h
          have hdeleted := (List.mem_filter.1 (List.mem_filter.1 h).1).2
          simp at hdeleted
        · exact hrest.1 p hp hgone
      · have hrest := hall' fun p hp => hnone p (List.mem_cons_of_mem _ hp)
        obtain ⟨hsurvivors, hdelete⟩ := hnone q List.mem_cons_self
        rw [hrest.2, (hfault₁ hsurvivors hdelete).2]
        simp only [List.forall_mem_cons, and_assoc]
    | failed =>
      have hcat : c₁ = c := by
        rcases hrow with ⟨h, -⟩ | ⟨-, h⟩
        · cases h
        · exact h
      subst hcat
      refine ⟨keep₁, hstage₁, hle₁, rfl, fun p _ hpc hpnot => absurd hpc hpnot, fun hnone => ?_⟩
      obtain ⟨hsurvivors, hdelete⟩ := hnone q List.mem_cons_self
      exact absurd rfl (hfault₁ hsurvivors hdelete).1

end Stages

/-! ### The law -/

/-- What autoclean may do to the files and the rows, whatever fails. -/
structure CleanedSafely (before after : CleanState) : Prop where
  /-- Only remnants are deleted. -/
  deleted : ∀ x, (before.files.at x).isSome = true → after.files.at x = none →
    ∃ p ∈ before.catalogue.projects, Remnant before.files p.root ∧ cleared p.root x = true
  /-- The root goes only when it is empty. -/
  emptied : ∀ p ∈ before.catalogue.projects, Remnant before.files p.root →
    after.files.at p.root = none → after.files.at (p.root ++ [".spelunk"]) = none
  /-- A root with anything else in it keeps its row. -/
  occupied : ∀ p ∈ before.catalogue.projects, Occupied before.files p.root →
    p ∈ after.catalogue.projects
  /-- A row is gone only if its project was, or its remnant was removed. -/
  rows : ∀ p ∈ before.catalogue.projects, p ∉ after.catalogue.projects →
    ¬RootExists before.files p.root ∨
      Remnant before.files p.root ∧ after.files.at (p.root ++ [".spelunk"]) = none

theorem spelunk_cleared (root : TreePath) : cleared root (root ++ [".spelunk"]) = true := by
  rw [cleared, Bool.or_eq_true_iff]
  exact .inr (List.isPrefixOf_iff_prefix.2 (List.prefix_refl _))

/-- A stage with its rows is safe. -/
theorem Stage.safe {state : CleanState} {faults : CatalogueRow → CleanFaults}
    {keep : TreePath → Bool} {after : CleanState}
    (hund : IndependentRemnants state.files state.catalogue.projects)
    (hplain : ∀ p ∈ state.catalogue.projects, PlainProject state.files (faults p) p.root)
    (hstage : Stage state.files state.catalogue.projects keep)
    (hfiles : after.files = state.files.filter fun o => keep o.1)
    (hgone : ∀ p ∈ state.catalogue.projects, p ∉ after.catalogue.projects →
      (look state.files p.root).found = false ∨ (look state.files p.root).Cleanable ∧
        ∀ x, cleared p.root x = true → keep x = false) : CleanedSafely state after := by
  have hremoved : ∀ x, keep x = false → x ≠ [] → after.files.at x = none := by
    intro x hx hne
    rw [hfiles]
    exact at_filter_removed hx hne
  refine ⟨fun x hx hnone => ?_, fun p hp hremnant hnone => ?_, fun p hp hoccupied => ?_,
    fun p hp hnot => ?_⟩
  · rcases hkeep : keep x with _ | _
    · obtain ⟨p, hp, hclean, hc⟩ := hstage.within x hkeep
      exact ⟨p, hp, (remnant_of_cleanable hclean).1, hc⟩
    · rw [hfiles, at_filter hkeep] at hnone
      rw [hnone] at hx
      cases hx
  · by_cases hclean : (look state.files p.root).Cleanable
    · have hroot : keep p.root = false := by
        by_contra hkeep
        rw [hfiles, at_filter (by simpa using hkeep)] at hnone
        have hat := at_of_follow hremnant.real (hplain p hp).root_ne_nil
        rw [hnone] at hat
        cases hat
      rcases hstage.each p hp hclean with h | h
      · rw [h.1] at hroot
        cases hroot
      · exact hremoved _ (h _ (spelunk_cleared _)) (by simp)
    · -- Nothing is removed at another project, so the root is still real.
      have hlook := hstage.look_eq hund hp fun h => absurd h hclean
      have hreal : (look after.files p.root).real = true := by
        rw [hfiles, hlook]
        exact decide_eq_true hremnant.real
      have hat := at_of_follow (of_decide_eq_true hreal) (hplain p hp).root_ne_nil
      rw [hnone] at hat
      cases hat
  · by_contra hnot
    obtain ⟨dir, hdir, name, hname, hne⟩ := hoccupied
    rcases hgone p hp hnot with h | ⟨hclean, -⟩
    · have hvisible := (hplain p hp).visible (by rw [RootExists, hdir]; rfl)
      rw [show pathExists state.files p.root = false from h] at hvisible
      cases hvisible
    · obtain ⟨hremnant, -⟩ := remnant_of_cleanable hclean
      rw [resolve_of_real (follow_unrefused hremnant.real), Option.some.injEq] at hdir
      rw [← hdir, hremnant.only, List.mem_singleton] at hname
      exact hne hname
  · rcases hgone p hp hnot with h | ⟨hclean, h⟩
    · left
      intro hexists
      have hvisible := (hplain p hp).visible hexists
      rw [show pathExists state.files p.root = false from h] at hvisible
      cases hvisible
    · exact .inr ⟨(remnant_of_cleanable hclean).1, hremoved _ (h _ (spelunk_cleared _)) (by simp)⟩

/-- The rows that are gone. -/
theorem Catalogue.Without.notMem_iff {c c' : Catalogue} {ids : List ℕ} (h : c.Without ids c')
    {p : CatalogueRow} (hp : p ∈ c.projects) : p ∉ c'.projects ↔ p.id ∈ ids := by
  rw [h.projects, List.mem_filter, decide_eq_true_eq, not_and, not_not]
  exact ⟨fun h => h hp, fun h _ => h⟩

theorem Catalogue.Without.trans {c c₁ c₂ : Catalogue} {ids ids₁ : List ℕ} (h : c.Without ids c₁)
    (h₁ : c₁.Without ids₁ c₂) : c.Without (ids ++ ids₁) c₂ := by
  constructor
  · rw [h₁.projects, h.projects, List.filter_filter]
    refine List.filter_congr fun p _ => ?_
    rw [Bool.eq_iff_iff]
    simp only [List.mem_append, Bool.and_eq_true, decide_eq_true_eq]
    tauto
  · rw [h₁.deps, h.deps, List.filter_filter]
    refine List.filter_congr fun d _ => ?_
    rw [Bool.eq_iff_iff]
    simp only [List.mem_append, Bool.and_eq_true, decide_eq_true_eq]
    tauto

/-- What is left depends on the set of the rows that are gone. -/
theorem Catalogue.Without.unique {c c₁ c₂ : Catalogue} {ids₁ ids₂ : List ℕ}
    (h₁ : c.Without ids₁ c₁) (h₂ : c.Without ids₂ c₂) (hids : ∀ n, n ∈ ids₁ ↔ n ∈ ids₂) :
    c₁ = c₂ := by
  ext1
  · rw [h₁.projects, h₂.projects]
    exact List.filter_congr fun p _ => by rw [decide_eq_decide, hids]
  · rw [h₁.deps, h₂.deps]
    exact List.filter_congr fun d _ => by rw [decide_eq_decide, hids, hids]

/-- A run without faults after another, whatever has failed there, comes to what it would have come
    to in the first place. -/
theorem autoclean_resumes {state : CleanState} {faults : CatalogueRow → CleanFaults}
    {keep : TreePath → Bool} {after : CleanState} {ids : List ℕ}
    (hund : IndependentRemnants state.files state.catalogue.projects)
    (hplain : ∀ p ∈ state.catalogue.projects, PlainProject state.files (faults p) p.root)
    (hstage : Stage state.files state.catalogue.projects keep)
    (hfiles : after.files = state.files.filter fun o => keep o.1)
    (hwithout : state.catalogue.Without ids after.catalogue)
    (hids : ∀ n ∈ ids, n ∈ state.catalogue.projects.map CatalogueRow.id)
    (hgone : ∀ p ∈ state.catalogue.projects, p ∉ after.catalogue.projects →
      (look state.files p.root).found = false ∨ (look state.files p.root).Cleanable ∧
        ∀ x, cleared p.root x = true → keep x = false) :
    (autoclean noFaults after).1 = (autoclean noFaults state).1 := by
  have hplain' : ∀ p ∈ state.catalogue.projects,
      PlainProject state.files (noFaults p) p.root := fun p hp =>
    ⟨(hplain p hp).visible, (hplain p hp).remnant, rfl, (hplain p hp).root_ne_nil⟩
  have hsub : ∀ p ∈ after.catalogue.projects, p ∈ state.catalogue.projects := fun p hp => by
    rw [hwithout.projects] at hp
    exact (List.mem_filter.1 hp).1
  have hafter : after = ⟨after.catalogue, state.files.filter fun o => keep o.1⟩ := by
    rw [← hfiles]
  have hstate : state = ⟨state.catalogue, state.files.filter fun _ => true⟩ := by
    rw [List.filter_true]
  -- The first run without faults, and the run after the one that has failed.
  obtain ⟨keepA, -, -, hfilesA, hgoneA, hallA⟩ := cleanLoop_stage hund hplain'
    state.catalogue.projects state.catalogue.ids_nodup (fun p hp => hp) (.start _ _)
    state.catalogue []
  obtain ⟨keepB, -, -, hfilesB, hgoneB, hallB⟩ := cleanLoop_stage hund hplain'
    after.catalogue.projects after.catalogue.ids_nodup hsub hstage after.catalogue []
  obtain ⟨idsA, hidsA, hwithoutA, -⟩ := cleanLoop_rows noFaults state.catalogue.projects
    state.catalogue.ids_nodup state []
  obtain ⟨idsB, hidsB, hwithoutB, -⟩ := cleanLoop_rows noFaults after.catalogue.projects
    after.catalogue.ids_nodup after []
  rw [← hstate] at hfilesA hgoneA hallA
  rw [← hafter] at hfilesB hgoneB hallB
  obtain ⟨hallA, hkeepA⟩ := hallA fun _ _ => ⟨rfl, rfl⟩
  obtain ⟨hallB, hkeepB⟩ := hallB fun _ _ => ⟨rfl, rfl⟩
  have hA : ∀ p ∈ state.catalogue.projects, p.id ∈ idsA ↔
      (look state.files p.root).found = false ∨ (look state.files p.root).Cleanable := by
    intro p hp
    rw [← hwithoutA.notMem_iff hp]
    exact ⟨fun h => (hgoneA p hp hp h).imp_right And.left, hallA p hp⟩
  have hB : ∀ p ∈ after.catalogue.projects, p.id ∈ idsB ↔
      (look state.files p.root).found = false ∨ (look state.files p.root).Cleanable := by
    intro p hp
    rw [← hwithoutB.notMem_iff hp]
    exact ⟨fun h => (hgoneB p hp hp h).imp_right And.left, hallB p hp⟩
  apply CleanState.ext
  · refine (hwithout.trans hwithoutB).unique hwithoutA fun n => ?_
    rw [List.mem_append]
    constructor
    · rintro (hn | hn)
      · obtain ⟨p, hp, rfl⟩ := List.mem_map.1 (hids n hn)
        exact (hA p hp).2 ((hgone p hp ((hwithout.notMem_iff hp).2 hn)).imp_right And.left)
      · obtain ⟨p, hp, rfl⟩ := List.mem_map.1 (hidsB n hn)
        exact (hA p (hsub p hp)).2 ((hB p hp).1 hn)
    · intro hn
      obtain ⟨p, hp, rfl⟩ := List.mem_map.1 (hidsA n hn)
      by_cases hleft : p ∈ after.catalogue.projects
      · exact .inr ((hB p hleft).2 ((hA p hp).1 hn))
      · exact .inl ((hwithout.notMem_iff hp).1 hleft)
  · show (cleanLoop noFaults after.catalogue.projects after []).1.files =
      (cleanLoop noFaults state.catalogue.projects state []).1.files
    rw [hfilesA, hfilesB]
    refine List.filter_congr fun o _ => ?_
    rw [Bool.eq_iff_iff, hkeepA, hkeepB]
    constructor
    · rintro ⟨hkeep, hcleared⟩
      refine ⟨rfl, fun p hp hclean => ?_⟩
      by_cases hleft : p ∈ after.catalogue.projects
      · exact hcleared p hleft hclean
      · rcases hgone p hp hleft with h | ⟨-, h⟩
        · rw [found_of_cleanable hclean] at h
          cases h
        · by_contra hc
          rw [h _ (by simpa using hc)] at hkeep
          cases hkeep
    · rintro ⟨-, hcleared⟩
      refine ⟨?_, fun p hp hclean => hcleared p (hsub p hp) hclean⟩
      by_contra hkeep
      obtain ⟨p, hp, hclean, hc⟩ := hstage.within o.1 (by simpa using hkeep)
      rw [hcleared p hp hclean] at hc
      cases hc

/-- When cleaning is safe. The list that is returned is that of the rows removed, and dependencies
    between rows that are kept stay, whatever happens. Where each project is plain and what is found
    at a project does not depend on other remnants, only remnants are deleted, all other projects
    keep their rows, and a later run without faults completes the work with the same result. -/
theorem autocleanLaw (faults : CatalogueRow → CleanFaults) (state : CleanState) :
    (∀ l, (autoclean faults state).2 = some l →
      l = (state.catalogue.projects.filter fun p =>
        p ∉ (autoclean faults state).1.catalogue.projects).map CatalogueRow.root) ∧
    (∀ d ∈ state.catalogue.deps,
      (∃ p ∈ (autoclean faults state).1.catalogue.projects, p.id = d.1) →
      (∃ p ∈ (autoclean faults state).1.catalogue.projects, p.id = d.2) →
      d ∈ (autoclean faults state).1.catalogue.deps) ∧
    ((∀ p ∈ state.catalogue.projects, PlainProject state.files (faults p) p.root) →
      IndependentRemnants state.files state.catalogue.projects →
      CleanedSafely state (autoclean faults state).1 ∧
        (autoclean noFaults (autoclean faults state).1).1 = (autoclean noFaults state).1) := by
  obtain ⟨ids, hids, hwithout, hlist⟩ := cleanLoop_rows faults state.catalogue.projects
    state.catalogue.ids_nodup state []
  refine ⟨fun l hl => ?_, fun d hd hfirst hsecond => ?_, fun hplain hund => ?_⟩
  · rw [hlist l hl, List.nil_append]
    congr 1
    refine List.filter_congr fun p hp => ?_
    rw [decide_eq_decide]
    exact (hwithout.notMem_iff hp).symm
  · have hkept : ∀ n, (∃ p ∈ (autoclean faults state).1.catalogue.projects, p.id = n) →
        n ∉ ids := by
      rintro n ⟨p, hp, rfl⟩
      have hp' : p ∈ (cleanLoop faults state.catalogue.projects state []).1.catalogue.projects := hp
      rw [hwithout.projects] at hp'
      simpa using (List.mem_filter.1 hp').2
    show d ∈ (cleanLoop faults state.catalogue.projects state []).1.catalogue.deps
    rw [hwithout.deps]
    exact List.mem_filter.2 ⟨hd, decide_eq_true ⟨hkept _ hfirst, hkept _ hsecond⟩⟩
  · obtain ⟨keep, hstage, -, hfiles, hgone, -⟩ := cleanLoop_stage hund hplain
      state.catalogue.projects state.catalogue.ids_nodup (fun p hp => hp) (.start _ _)
      state.catalogue []
    have hstate : state = ⟨state.catalogue, state.files.filter fun _ => true⟩ := by
      rw [List.filter_true]
    rw [← hstate] at hfiles hgone
    have hgone' := fun p (hp : p ∈ state.catalogue.projects) => hgone p hp hp
    exact ⟨hstage.safe hund hplain hfiles hgone',
      autoclean_resumes hund hplain hstage hfiles hwithout hids hgone'⟩

/-- A root that is a link to a directory with nothing but `.spelunk`. -/
def linkedRoot : CleanState where
  catalogue := ⟨[⟨1, ["w"]⟩], [], List.nodup_singleton _⟩
  files := [(["data"], .dir true true), (["data", "p"], .dir true true),
    (["data", "p", ".spelunk"], .dir true true), (["w"], .link ["data", "p"])]

/-- A remnant is deleted through the link to its root. -/
theorem autoclean_throughLink :
    (autoclean noFaults linkedRoot).1.files = [(["data"], .dir true true),
        (["data", "p"], .dir true true), (["w"], .link ["data", "p"])] ∧
      ¬CleanedSafely linkedRoot (autoclean noFaults linkedRoot).1 := by
  have hfiles : (autoclean noFaults linkedRoot).1.files = [(["data"], .dir true true),
      (["data", "p"], .dir true true), (["w"], .link ["data", "p"])] := by decide
  refine ⟨hfiles, fun hsafe => ?_⟩
  obtain ⟨p, hp, hremnant, -⟩ := hsafe.deleted ["data", "p", ".spelunk"] (by decide) (by
    rw [hfiles]
    decide)
  rw [List.mem_singleton.1 hp] at hremnant
  have hreal := hremnant.real
  rw [show follow true linkedRoot.files [] ["w"] = .jump ["data", "p"] by decide] at hreal
  cases hreal

end Spelunk
