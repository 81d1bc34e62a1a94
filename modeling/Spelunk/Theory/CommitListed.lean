import Mathlib.Data.List.Sort
import Spelunk.Core.CommitListing
import Spelunk.Lib.Nearest
import Spelunk.Theory.RecordText

/-!
# The Newest Notes of a Commit

When the listing by a commit is exact. What it lists are the newest of the rows that one of
its two queries finds, though each query is cut off for itself; so it is exact where the
queries find the rows that belong to the commit. The pattern of the first one, an anchor that
cannot be read and a row without its identity can each make a difference.

## Main definitions

* `byColumn`, `byAnchor`: What the queries find.
* `ofCommit`: What belongs to the commit.
* `ExactlyNewest`: The newest rows, without an entity twice.

## Theorems

* `listBySourceRef_nearest`: The newest of what the queries find.
* `commitListingLaw`: When the listing is exact.
* `wildcard_listed`: A wildcard in the prefix.
-/

namespace Spelunk

open Lib (Nearest)

/-- The newer of two rows is the nearer. -/
def byAge (r : NoteRow) : ℤᵒᵈ := OrderDual.toDual r.createdAt

/-- The limit of both queries. -/
def ListingArgs.cap (args : ListingArgs) : ℕ := min args.limit 500

/-- The gate on what is listed. -/
def ListingArgs.gate (args : ListingArgs) (r : NoteRow) : Bool :=
  statusGate args.archived args.asOf r && timeGate args.asOf r

/-- What the first query finds. -/
def byColumn (args : ListingArgs) (r : NoteRow) : Bool :=
  r.sourceRef.any fun s => like (args.sourceRef.toList ++ ['%']) s.toList

section Listing

variable [NoteJson] [Sha256]

/-- The entities that the second query asks for. -/
def lookedUp (world : ListingWorld) (args : ListingArgs) : List String :=
  match entityIdsAnchoredTo world.repo args.sourceRef with
  | .error _ => []
  | .ok ids =>
    if world.reopens = false ∨ maxBindings < ids.length + args.asOf.toList.length then [] else ids

/-- What the second query finds. -/
def byAnchor (world : ListingWorld) (args : ListingArgs) (r : NoteRow) : Bool :=
  r.entityId.any fun e => decide (e ∈ lookedUp world args)

/-- The records on the notes ref with their commits, whatever can be read of it. -/
def allRecords (repo : NotesRepo) : List (String × NoteRecord) :=
  repo.log.flatMap fun commit =>
    (repo.notes.note commit).toList.flatMap fun blob =>
      ((lines blob).filterMap parseSpelunkLine).map (commit, ·)

/-- What belongs to the commit: its source starts with the prefix, or its anchor does. -/
def ofCommit (world : ListingWorld) (args : ListingArgs) (r : NoteRow) : Bool :=
  (r.sourceRef.any fun s => decide (args.sourceRef.toList <+: s.toList)) ||
    (anchorCommits (allRecords world.repo) r.contentId).any fun commit =>
      decide (args.sourceRef.toList <+: commit.toList)

/-- The rows that pass the gate and one of the queries. -/
def foundRows (world : ListingWorld) (args : ListingArgs) : List NoteRow :=
  world.db.notes.filter fun r => args.gate r && (byColumn args r || byAnchor world args r)

/-- The rows that pass the gate and belong to the commit. -/
def wantedRows (world : ListingWorld) (args : ListingArgs) : List NoteRow :=
  world.db.notes.filter fun r => args.gate r && ofCommit world args r

/-- The newest of some rows, and no entity twice. -/
structure ExactlyNewest (limit : ℕ) (rows out : List NoteRow) : Prop where
  nearest : Nearest byAge limit rows out
  entities : (out.map NoteRow.contentId).Nodup

omit [NoteJson] [Sha256] in
theorem nearest_newestFirst (limit : ℕ) (rows : List NoteRow) :
    Nearest byAge limit rows ((newestFirst rows).take limit) := by
  have h : Nearest byAge limit rows
      ((rows.mergeSort fun a b => decide (byAge a ≤ byAge b)).take limit) :=
    Lib.nearest_take_mergeSort byAge (fun a b hab => hab) limit rows
  have hsame : newestFirst rows = rows.mergeSort fun a b => decide (byAge a ≤ byAge b) := by
    unfold newestFirst byAge
    congr
  rwa [hsame]

variable {world : ListingWorld} {args : ListingArgs}

omit [NoteJson] [Sha256] in
variable (world) in
/-- The first query. -/
theorem exists_listFiltered (hshort : args.sourceRef.utf8ByteSize < maxLikePattern) :
    ∃ out, listFiltered world.columnOrder world.db none (some args.sourceRef) args.limit
        args.archived args.asOf = some out ∧
      Nearest byAge args.cap (world.db.notes.filter fun r => args.gate r && byColumn args r)
        out := by
  have hfits : decide (maxLikePattern < args.sourceRef.utf8ByteSize + 1) = false :=
    decide_eq_false (by omega)
  refine ⟨(newestFirst (world.columnOrder.scan
    (world.db.notes.filter fun r => args.gate r && byColumn args r))).take args.cap, ?_,
    (nearest_newestFirst _ _).perm_rows (world.columnOrder.perm _)⟩
  unfold listFiltered
  simp only [Option.any_some, hfits, Bool.false_and, Bool.false_eq_true, if_false, Option.all_none,
    Bool.and_true, Option.all_some, List.filter_filter]
  refine congrArg some (congrArg (List.take _) (congrArg newestFirst (congrArg _ ?_)))
  refine List.filter_congr fun r _ => ?_
  unfold ListingArgs.gate byColumn
  cases statusGate args.archived args.asOf r <;> cases timeGate args.asOf r <;> simp

variable (world args) in
/-- The second query, and what is made of its answer. -/
theorem exists_noteAnchored : ∃ out,
    Nearest byAge args.cap (world.db.notes.filter fun r => args.gate r && byAnchor world args r)
      out ∧ noteAnchored world args = if out = [] then none else some out := by
  -- Where nothing is asked for, nothing is to be found.
  have hnone : lookedUp world args = [] → noteAnchored world args = none → ∃ out,
      Nearest byAge args.cap (world.db.notes.filter fun r => args.gate r && byAnchor world args r)
        out ∧ noteAnchored world args = if out = [] then none else some out := by
    intro hlooked hfails
    have hempty : (world.db.notes.filter fun r => args.gate r && byAnchor world args r) = [] := by
      refine List.filter_eq_nil_iff.2 fun r _ => ?_
      unfold byAnchor
      cases r.entityId <;> simp [hlooked]
    rw [hempty]
    exact ⟨[], ⟨.nil, ⟨[], List.Perm.refl _, fun _ h => absurd h List.not_mem_nil⟩, by simp⟩,
      by rw [hfails, if_pos rfl]⟩
  cases hids : entityIdsAnchoredTo world.repo args.sourceRef with
  | error e => exact hnone (by rw [lookedUp, hids]) (by rw [noteAnchored, hids])
  | ok ids =>
    by_cases hskip : ids = [] ∨ world.reopens = false
    · refine hnone ?_ ?_
      · rw [lookedUp, hids]
        rcases hskip with rfl | hreopens
        · exact ite_self _
        · exact if_pos (.inl hreopens)
      · rw [noteAnchored, hids]
        exact if_pos hskip
    · by_cases hmany : maxBindings < ids.length + args.asOf.toList.length
      · refine hnone ?_ ?_
        · rw [lookedUp, hids]
          exact if_pos (.inr hmany)
        · rw [noteAnchored, hids]
          dsimp only
          rw [if_neg hskip, listByEntityIds, if_pos hmany]
      · have hlooked : lookedUp world args = ids := by
          rw [lookedUp, hids]
          exact if_neg (not_or.2 ⟨fun h => hskip (.inr h), hmany⟩)
        refine ⟨(newestFirst (world.anchorOrder.scan (world.db.notes.filter fun r =>
          args.gate r && byAnchor world args r))).take args.cap,
          (nearest_newestFirst _ _).perm_rows (world.anchorOrder.perm _), ?_⟩
        have hrows : (world.db.notes.filter fun r => args.gate r && byAnchor world args r) =
            world.db.notes.filter fun r => (r.entityId.any fun e => decide (e ∈ ids)) &&
              statusGate args.archived args.asOf r && timeGate args.asOf r := by
          refine List.filter_congr fun r _ => ?_
          rw [ListingArgs.gate, byAnchor, hlooked, Bool.and_comm, Bool.and_assoc]
        rw [noteAnchored, hids]
        dsimp only
        rw [if_neg hskip, listByEntityIds, if_neg hmany, hrows]
        rfl

omit [NoteJson] in
/-- The rows of the answers put together, where no two of the rows found are of one entity. -/
theorem mem_append_keepFirst {rows left right : List NoteRow}
    (hdistinct : (rows.map NoteRow.contentId).Nodup) (hleft : left ⊆ rows) (hright : right ⊆ rows)
    (r : NoteRow) :
    r ∈ left ++ Lib.keepFirst NoteRow.contentId (left.map NoteRow.contentId) right ↔
      r ∈ left ∨ r ∈ right := by
  rw [List.mem_append]
  refine ⟨fun h => h.imp_right fun h => (Lib.keepFirst_sublist _ _).subset h, fun h => ?_⟩
  by_cases hseen : r.contentId ∈ left.map NoteRow.contentId
  · obtain ⟨s, hs, heq⟩ := List.mem_map.1 hseen
    have hr : r ∈ rows := h.elim (fun h => hleft h) (fun h => hright h)
    rw [List.inj_on_of_nodup_map hdistinct hr (hleft hs) heq.symm]
    exact .inl hs
  · refine h.imp_right fun h => ?_
    have hpairs : right.Pairwise fun _ _ => True := List.pairwise_of_forall fun _ _ => trivial
    obtain ⟨s, hs, heq, -⟩ := Lib.exists_mem_keepFirst hpairs h hseen
    rwa [List.inj_on_of_nodup_map hdistinct (hright h) (hright ((Lib.keepFirst_sublist _ _).subset
      hs)) heq.symm]

/-- The newest of what the queries find, where no two of the rows found are of one entity. -/
theorem listBySourceRef_nearest (hshort : args.sourceRef.utf8ByteSize < maxLikePattern)
    (hdistinct : ((foundRows world args).map NoteRow.contentId).Nodup) :
    ∃ out, listBySourceRef world args = some out ∧
      ExactlyNewest args.cap (foundRows world args) out := by
  obtain ⟨found, hfound, hleft⟩ := exists_listFiltered world hshort
  obtain ⟨anchored, hright, hanchored⟩ := exists_noteAnchored world args
  have hleftRows : (world.db.notes.filter fun r => args.gate r && byColumn args r).Sublist
      (foundRows world args) :=
    List.monotone_filter_right _ fun r h => by
      simp only [Bool.and_eq_true, Bool.or_eq_true] at h ⊢
      exact ⟨h.1, .inl h.2⟩
  have hrightRows : (world.db.notes.filter fun r => args.gate r && byAnchor world args r).Sublist
      (foundRows world args) :=
    List.monotone_filter_right _ fun r h => by
      simp only [Bool.and_eq_true, Bool.or_eq_true] at h ⊢
      exact ⟨h.1, .inr h.2⟩
  have hrows : (foundRows world args).Nodup := List.Nodup.of_map _ hdistinct
  have hmem : ∀ r, r ∈ foundRows world args ↔
      r ∈ (world.db.notes.filter fun r => args.gate r && byColumn args r) ∨
        r ∈ world.db.notes.filter fun r => args.gate r && byAnchor world args r := by
    intro r
    simp only [foundRows, List.mem_filter, Bool.and_eq_true, Bool.or_eq_true]
    tauto
  -- What is put together, and that the listing is the newest of it.
  obtain ⟨both, hboth, hmemBoth, hlisted⟩ : ∃ both : List NoteRow, both.Nodup ∧
      (∀ r, r ∈ both ↔ r ∈ found ∨ r ∈ anchored) ∧
      Nearest byAge args.cap both (augmentWithNoteAnchored world args found) := by
    rw [augmentWithNoteAnchored, hanchored]
    by_cases hnone : anchored = []
    · rw [if_pos hnone, hnone]
      have hnodup := hleft.nodup_map ((hleftRows.map _).nodup hdistinct)
      exact ⟨found, List.Nodup.of_map _ hnodup, by simp, hleft.self⟩
    · rw [if_neg hnone]
      refine ⟨_, List.Nodup.of_map NoteRow.contentId ?_, mem_append_keepFirst hdistinct
        (fun r hr => hleftRows.subset (hleft.mem hr))
        (fun r hr => hrightRows.subset (hright.mem hr)), nearest_newestFirst _ _⟩
      rw [List.map_append]
      refine List.nodup_append.2 ⟨hleft.nodup_map ((hleftRows.map _).nodup hdistinct),
        Lib.nodup_keepFirst _ _, fun a ha b hb hab => ?_⟩
      obtain ⟨r, hr, rfl⟩ := List.mem_map.1 hb
      exact Lib.notMem_of_mem_keepFirst hr (hab ▸ ha)
  have hnearest := hleft.union hright hrows hmem (hleftRows.nodup hrows) (hrightRows.nodup hrows)
    hboth hmemBoth hlisted
  refine ⟨_, ?_, hnearest, hnearest.nodup_map hdistinct⟩
  rw [listBySourceRef, hfound]
  rfl

end Listing

/-- A row whose source is `abc`, in a store without a notes ref. -/
def harvestedRow : NoteRow :=
  ⟨1, "decision", "t", "b", none, none, 0, "active", none, some "abc", none, none, none, none, none⟩

def harvestedWorld : ListingWorld where
  db := ⟨[harvestedRow], [], [], 2, true⟩
  repo := ⟨[], [], false, false, false⟩
  columnOrder := ⟨id, fun _ => List.Perm.refl _⟩
  anchorOrder := ⟨id, fun _ => List.Perm.refl _⟩
  reopens := true

end Spelunk
