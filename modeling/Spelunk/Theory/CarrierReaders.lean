import Spelunk.Theory.CarrierWriters

/-!
# Readers among Others

The import and the refresh by themselves, with the other processes doing anything
their bounds allow. Nothing is inserted that was not listed, and the working
marker is recorded without an insert only if the listing had nothing that the
store lacked. All commands keep their bounds, so they do so together.

## Main definitions

* `Unread`: A process that has listed nothing yet.

## Theorems

* `does_importCarrier`, `does_refreshReadPath`: The readers.
* `does_prog`: Every command keeps its bounds.
* `carrier_sound`: All processes together do.
-/

namespace Spelunk

open Lib (Prog Wp Run)

section Readers

variable [Git] [NoteJson] [Sha256] {M R : Type} [DecidableEq M] [DecidableEq R]

variable {i : ProcessId M} {α : Type} {post : α → List (CarrierEvent M R) → World M R → Prop}
  {hist : List (CarrierEvent M R)} {w : World M R}

/-- The process has listed nothing yet. -/
structure Unread (hist : List (CarrierEvent M R)) : Prop where
  listed : hist.filterMap listedTree = []
  log : hist.filterMap readLog = []

omit [Git] [NoteJson] [Sha256] [DecidableEq M] [DecidableEq R] in
theorem Unread.nil : Unread ([] : List (CarrierEvent M R)) :=
  ⟨rfl, rfl⟩

omit [Git] [NoteJson] [Sha256] [DecidableEq M] [DecidableEq R] in
theorem Unread.same {hist' : List (CarrierEvent M R)} (h : Unread hist)
    (hsame : SameReads hist hist') : Unread hist' :=
  ⟨hsame.listed.trans h.listed, hsame.log.trans h.log⟩

omit [Git] [NoteJson] [Sha256] [DecidableEq M] [DecidableEq R] in
theorem ReadRepo.same {hist' : List (CarrierEvent M R)} {repo : NotesRepo} (h : ReadRepo hist repo)
    (hsame : SameReads hist hist') : ReadRepo hist' repo :=
  ⟨hsame.listed.symm ▸ h.notes, hsame.log.symm ▸ h.log⟩

/-- A reader has what git answered it. -/
theorem does_readRepo (hunread : Unread hist) :
    Does i (fun repo hist' _ => ReadRepo hist' repo ∧ noted hist' = noted hist) hist readRepo w := by
  refine Does.quiet (o := .listNotes) trivial (fun v answer w' hlist => ?_)
  rcases answer with _ | tree
  · refine ⟨⟨fun tree h => ?_, fun log h => ?_⟩, hlist.noted⟩
    · rw [List.filterMap_append, hunread.listed] at h
      exact absurd h List.not_mem_nil
    · rw [List.filterMap_append, hunread.log] at h
      exact absurd h List.not_mem_nil
  have hlisted : (hist ++ [(⟨i, .listNotes, some tree, v, w'⟩ : CarrierEvent M R)]).filterMap
      listedTree = [tree] := by
    rw [List.filterMap_append, hunread.listed]
    rfl
  have hlog : (hist ++ [(⟨i, .listNotes, some tree, v, w'⟩ : CarrierEvent M R)]).filterMap
      readLog = [] := by
    rw [List.filterMap_append, hunread.log]
    rfl
  show Does i _ _ (ite _ _ _) _
  split
  · next hnil =>
    refine ⟨⟨fun tree' h => ?_, fun log h => ?_⟩, hlist.noted⟩
    · rw [hlisted, List.mem_singleton] at h
      exact ⟨hnil.symm.trans h.symm, rfl⟩
    · rw [hlog] at h
      exact absurd h List.not_mem_nil
  refine Does.quiet (o := .logHead) trivial (fun v' answer w'' hhead => ?_)
  rcases answer with _ | log
  · refine ⟨⟨fun tree' h => ?_, fun log h => ?_⟩, hhead.noted.trans hlist.noted⟩
    · rw [List.filterMap_append, hlisted, List.mem_append, List.mem_singleton] at h
      rcases h with h | h
      · exact ⟨h.symm, rfl⟩
      · exact absurd h List.not_mem_nil
    · rw [List.filterMap_append, hlog] at h
      exact absurd h List.not_mem_nil
  refine Does.quiet (o := .catFile) trivial (fun u read u' hread => ?_)
  refine ⟨ReadRepo.same ⟨fun tree' h => ?_, fun log' h => ?_⟩ (hread.reads trivial),
    hread.noted.trans (hhead.noted.trans hlist.noted)⟩
  · rw [List.filterMap_append, hlisted, List.mem_append, List.mem_singleton] at h
    rcases h with h | h
    · exact ⟨h.symm, rfl⟩
    · exact absurd h List.not_mem_nil
  · rw [List.filterMap_append, hlog, List.nil_append] at h
    exact ⟨(List.mem_singleton.mp h).symm, rfl⟩

omit [Git] [NoteJson] [Sha256] [DecidableEq M] [DecidableEq R] in
theorem ReadRepo.concat_store {repo : NotesRepo} (h : ReadRepo hist repo) (call : StoreCall)
    (r : Option call.Res) (v w' : World M R) :
    ReadRepo (hist ++ [⟨i, .store call, r, v, w'⟩]) repo := by
  constructor
  · rw [List.filterMap_append, List.filterMap_cons_none rfl, List.filterMap_nil, List.append_nil]
    exact h.notes
  · rw [List.filterMap_append, List.filterMap_cons_none rfl, List.filterMap_nil, List.append_nil]
    exact h.log

omit [Git] [NoteJson] [Sha256] [DecidableEq M] [DecidableEq R] in
theorem noted_concat_store (call : StoreCall) (r : Option call.Res) (v w' : World M R) :
    noted (hist ++ [⟨i, .store call, r, v, w'⟩]) = noted hist := by
  rw [noted, List.filterMap_append, List.filterMap_cons_none rfl, List.filterMap_nil,
    List.append_nil, noted]

/-- A call to the store that may be one of the import's. -/
theorem Does.store (call : StoreCall) {k : Option call.Res → CarrierProg α}
    (himports : ∀ v r w', Imports hist (⟨i, .store call, r, v, w'⟩ : CarrierEvent M R))
    (h : ∀ v r w', Does i post (hist ++ [⟨i, .store call, r, v, w'⟩]) (k r) w') :
    Does i post hist (.call (.store call) k) w := by
  intro v _ hv r w' hexec _
  exact ⟨⟨refsOk_of_exec (e := ⟨i, .store call, r, v, w'⟩) rfl id hv hexec, trivial,
    himports v r w'⟩, h v r w'⟩

/-- The import inserts what it listed and the store lacked, or records the marker
    where there was nothing to insert. -/
theorem does_importCarrier (hunread : Unread hist) :
    Does i (fun _ hist' _ => noted hist' = noted hist) hist importCarrier w := by
  refine Wp.bind (Wp.bind ((does_readRepo hunread).mono (fun repo before v hrepo => ?_)))
  rcases hrepo with ⟨hrepo, hnoted⟩
  show Does i _ _ _ _
  rcases hlist : listNotes repo none gitNotesImportLimit true none with e | listed
  · exact hnoted
  refine Does.quiet (o := .workingOid) trivial (fun v' oid w' hoid => ?_)
  replace hrepo := hrepo.same (hoid.reads trivial)
  replace hnoted := hoid.noted.trans hnoted
  show Does i _ _ (ite _ _ _) _
  split
  · next hnil =>
    refine Does.quiet (o := .storeExists) trivial (fun u found u' hexists => ?_)
    replace hrepo := hrepo.same (hexists.reads trivial)
    replace hnoted := hexists.noted.trans hnoted
    cases found with
    | false => exact hnoted
    | true =>
    refine Does.quiet (o := .store .openStore) trivial (fun u opened u' hopen => ?_)
    replace hrepo := hrepo.same (hopen.reads trivial)
    replace hnoted := hopen.noted.trans hnoted
    rcases opened with _ | _
    · exact hnoted
    refine Does.store (.setImported oid)
      (fun _ _ _ => ⟨repo, listed, hrepo, hlist, Or.inl hnil⟩) (fun u r u' => ?_)
    exact (noted_concat_store _ _ _ _).trans hnoted
  refine Does.quiet (o := .store .openStore) trivial (fun u opened u' hopen => ?_)
  replace hrepo := hrepo.same (hopen.reads trivial)
  replace hnoted := hopen.noted.trans hnoted
  rcases opened with _ | _
  · exact hnoted
  refine Does.quiet (o := .store .contents) trivial (fun x contents y hcontents => ?_)
  replace hrepo := hrepo.concat_store (i := i) .contents contents x y
  replace hnoted := hcontents.noted.trans hnoted
  rcases contents with _ | contents
  · exact hnoted
  have hread : ∀ before : List (CarrierEvent M R), contents ∈ (before ++
      [(⟨i, .store .contents, some contents, x, y⟩ : CarrierEvent M R)]).filterMap readContents :=
    fun before => List.mem_filterMap.mpr ⟨_, List.mem_append_right _ List.mem_cons_self, rfl⟩
  show Does i _ _ (ite _ _ _) _
  split
  · next hnone =>
    refine Does.store (.setImported oid)
      (fun _ _ _ => ⟨repo, listed, hrepo, hlist, Or.inr ⟨contents, hread _, hnone⟩⟩)
      (fun u r u' => ?_)
    exact (noted_concat_store _ _ _ _).trans hnoted
  · refine Does.store (.importNotes (absentNotes contents listed) oid)
      (fun _ _ _ => ⟨repo, listed, hrepo, hlist, contents, hread _, rfl⟩) (fun u r u' => ?_)
    rcases r with _ | _
    all_goals exact (noted_concat_store _ _ _ _).trans hnoted

theorem does_readMarker :
    Does i (fun _ hist' _ => SameReads hist hist') hist readMarker w := by
  refine Does.quiet (o := .storeExists) trivial (fun v found w' hexists => ?_)
  cases found with
  | false => exact hexists.reads trivial
  | true =>
  refine Does.quiet (o := .store .openStore) trivial (fun u opened u' hopen => ?_)
  have hopened := (hexists.reads trivial).trans (hopen.reads trivial)
  rcases opened with _ | _
  · exact hopened
  · exact Does.quiet (o := .store .importState) trivial
      (fun _ _ _ hstate => hopened.trans (hstate.reads trivial))

theorem does_recordMerged (oid : Option String) :
    Does i (fun _ hist' _ => noted hist' = noted hist) hist (recordMerged oid) w := by
  refine Does.quiet (o := .store .openStore) trivial (fun u opened u' hopen => ?_)
  rcases opened with _ | _
  · exact hopen.noted
  · exact Does.quiet (o := .store (.setMerged oid)) trivial
      (fun _ _ _ hset => hset.noted.trans hopen.noted)

theorem does_mergeMoved (hgit : Git.Documented) (tracking working : Option String)
    (marker : NotesImportMarker) :
    Does i (fun _ hist' _ => SameReads hist hist') hist (mergeMoved tracking working marker) w := by
  rw [mergeMoved]
  split
  · refine Wp.bind ((does_mergeTrackingNotes hgit).mono (fun _ _ _ h => ?_))
    exact Does.quiet (o := .workingOid) trivial (fun _ _ _ hoid => h.trans (hoid.reads trivial))
  · exact SameReads.refl _

theorem does_importMoved (hunread : Unread hist) (working : Option String)
    (marker : NotesImportMarker) :
    Does i (fun _ hist' _ => noted hist' = noted hist) hist (importMoved working marker) w := by
  rw [importMoved]
  split
  · exact Wp.bind ((does_importCarrier hunread).mono (fun _ _ _ h => h))
  · exact rfl

/-- A refresh imports at most once, and writes no note. -/
theorem does_refreshReadPath (hgit : Git.Documented) (hunread : Unread hist) (route : ReadRoute) :
    Does i (fun _ hist' _ => noted hist' = noted hist) hist (refreshReadPath route) w := by
  cases route with
  | gitNotes =>
      refine Wp.bind ((does_mergeTrackingNotes hgit).mono (fun _ _ _ h => ?_))
      exact h.noted
  | cloudFirst => exact rfl
  | memory =>
  refine Does.quiet (o := .trackingOid) trivial (fun v (tracking : Option String) w' htracking => ?_)
  refine Does.quiet (o := .workingOid) trivial (fun v' (working : Option String) w'' hworking => ?_)
  have hread := (htracking.reads trivial).trans (hworking.reads trivial)
  show Does i _ _ (ite _ _ _) _
  split
  · exact hread.noted
  refine Wp.bind (does_readMarker.mono (fun marker _ _ hmarker => ?_))
  refine Wp.bind ((does_mergeMoved hgit tracking working marker).mono (fun working' _ _ hmoved => ?_))
  have hbefore := hread.trans (hmarker.trans hmoved)
  refine Wp.bind ((does_importMoved (hunread.same hbefore) working' marker).mono
    (fun _ _ _ himported => ?_))
  have hafter := himported.trans hbefore.noted
  show Does i _ _ (ite _ _ _) _
  split
  · exact (does_recordMerged tracking).mono (fun _ _ _ h => h.trans hafter)
  · exact hafter

/-- Every command keeps its bounds, and has written what it says. -/
theorem does_prog (hgit : Git.Documented)
    (hjson : ∀ record : NoteRecord, CleanLine (NoteJson.toLine record)) (cmd : CarrierCmd) :
    Does i (fun out hist' _ => cmd.Noted out (noted hist')) [] cmd.prog w := by
  cases cmd with
  | append record =>
      refine (does_appendToGitNotes hgit hjson record).mono ?_
      rintro (e | outcome) hist' w' ⟨lines, ⟨object, rfl⟩, hnoted⟩
      · exact hnoted
      · exact ⟨object, hnoted⟩
  | add input => exact does_gitNotesAdd hgit hjson input
  | archive id => exact does_archiveEntry hgit hjson id
  | merge => exact (does_mergeTrackingNotes hgit).mono (fun _ _ _ h => h.noted)
  | publish remote => exact (does_publishNotes hgit remote).mono (fun _ _ _ h => h.noted)
  | importNotes => exact does_importCarrier Unread.nil
  | refresh route => exact does_refreshReadPath hgit Unread.nil route
  | fetch remote => exact Does.quiet (o := .fetch remote) trivial (fun _ _ _ hcall => hcall.noted)
  | moveHead head log =>
      exact Does.quiet (o := .moveHead head log) trivial (fun _ _ _ hcall => hcall.noted)

/-- All processes together keep their bounds, in any order of their calls. -/
theorem carrier_sound (hgit : Git.Documented)
    (hjson : ∀ record : NoteRecord, CleanLine (NoteJson.toLine record)) {start c : CarrierConfig M R}
    (hstart : start.state.Grown) (hidle : ∀ i, start.procs i = .idle)
    {trace : List (CarrierEvent M R)}
    (hrun : Run (carrierMachinery M R) LockedWrites start trace c) :
    c.state.Grown ∧
      (∀ l e r, trace = l ++ e :: r → e.before.Grown ∧
        (carrierBounds M R).guar (Lib.own e.pid l) e) ∧
      ∀ i cmd out, c.procs i = .running cmd (.ret out) → cmd.Noted out (noted (Lib.own i trace)) := by
  rcases Run.sound carrierBounds_fit (fun _ cmd out hist _ => cmd.Noted out (noted hist))
    (fun _ _ _ _ _ _ h _ => h) (fun _ cmd _ _ => does_prog hgit hjson cmd) hstart hidle hrun
    with ⟨hgrown, hevents, _, hprocs⟩
  exact ⟨hgrown, hevents, fun i cmd out h => hprocs i cmd _ h⟩

end Readers

end Spelunk
