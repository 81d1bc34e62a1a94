import Spelunk.Lib.Transition
import Spelunk.Theory.MigrationRuns

/-!
# Which Interrupted Migrations Are Resumed

Opens of a store, each of which may be stopped between any two statements, and
what the next whole open makes of the shape they leave. The measure is the shape
an uninterrupted run on an empty store reaches: `Full` compares with that run,
not with a list of names.

Three steps add more than their version is recognized by: the vector table of
the first, the triggers of the fourth, the unique indexes of the seventh. The
rebuild of the vectors in the ninth has a moment without them as well. `Whole`
says that nothing of that kind is missing, and the next open completes exactly
the shapes that have it.

## Main definitions

* `freshSchema`: What an uninterrupted run creates.
* `MemorySchema.Full`: Nothing of it is missing.
* `MemorySchema.Whole`: Nothing is missing that no version is recognized by.
* `fieldStore`, `Started`: The stores runs begin on.
* `Reopened`: A store opened any number of times, each time stopped anywhere.

## Theorems

* `Reopened.ordered`: Every shape the opens leave is ordered.
* `openSchema_full_iff_whole`: The next open completes the store exactly when
  nothing unrecognized is missing, and the one after changes nothing.
-/

namespace Spelunk

open Lib (Sql Conn GuardedRun)

/-- A store without any object. -/
def emptySchema (duplicates : Bool) : MemorySchema where
  userVersion := 0
  objects := []
  embeddingDim := none
  duplicates := duplicates

/-- What an uninterrupted run on an empty store creates. -/
def freshSchema (duplicates : Bool) : MemorySchema :=
  (openSchema ⟨emptySchema duplicates, none⟩).2.db

namespace MemorySchema

/-- Everything an uninterrupted run creates is there: tables, columns, triggers,
    unique indexes, and the vectors with their dimension. -/
structure Full (s : MemorySchema) : Prop where
  version : s.userVersion = (freshSchema s.duplicates).userVersion
  vectors : s.embeddingDim = (freshSchema s.duplicates).embeddingDim
  objects : ∀ o ∈ (freshSchema s.duplicates).objects, o.lasting = true → o ∈ s.objects

/-- What no version is recognized by is there wherever its version is recognized. -/
structure Whole (s : MemorySchema) : Prop where
  vectors : .table "notes" ∈ s.objects → s.embeddingDim ≠ none
  triggers : .table "memory_fts" ∈ s.objects →
    ∀ name ∈ ["memory_fts_insert", "memory_fts_delete", "memory_fts_update"],
      .trigger name ∈ s.objects
  indexes : .column "uuid" ∈ s.objects → .column "remote_id" ∈ s.objects →
    ∀ name ∈ ["idx_notes_uuid", "idx_notes_remote_id"], .index name true ∈ s.objects

end MemorySchema

/-- A store the first `v` steps were run on, before versions were stamped. -/
def fieldStore (v dim : Nat) (duplicates : Bool) : MemorySchema where
  userVersion := 0
  objects := (List.range' 1 v).flatMap stepObjects
  embeddingDim := if v = 0 then none else some dim
  duplicates := duplicates

/-- The stores runs begin on: empty ones, and those of older programs, with
    vectors of the old dimension below the ninth version. -/
def Started (s : MemorySchema) : Prop :=
  ∃ v dim duplicates, v ≤ 10 ∧ (dim = 896 ∨ (dim = 768 ∧ v < 9)) ∧ s = fieldStore v dim duplicates

/-- Opened any number of times, each time stopped after any number of statements. -/
def Reopened : MemorySchema → MemorySchema → Prop :=
  GuardedRun (fun s (fault : Option Nat) s' => s' = (openSchema ⟨s, fault⟩).2.db) (fun _ _ => True)

section Reached

theorem ordered_of_started {s : MemorySchema} (h : Started s) : s.Ordered := by
  rcases h with ⟨v, dim, duplicates, hv, hdim, rfl⟩
  have hlt : v < 11 := by omega
  have hchain : ∀ v < 11, ∀ k < 10, 1 ≤ k → (fieldStore v 896 false).Holds (k + 1) →
      (fieldStore v 896 false).Holds k := by decide
  have hmarker : ∀ v < 9, SchemaObject.table "schema_v896_note_embeddings" ∉
      (List.range' 1 v).flatMap stepObjects := by decide
  have hentity : ∀ v < 11, SchemaObject.table "schema_entity_id_unique" ∉
      (List.range' 1 v).flatMap stepObjects := by decide
  have hplain : ∀ v < 11, ∀ name ∈ ["idx_notes_uuid", "idx_notes_remote_id"],
      SchemaObject.index name false ∉ (List.range' 1 v).flatMap stepObjects := by decide
  constructor
  case chain => exact fun k hk hk10 hholds => hchain v hlt k hk10 hk hholds
  case dim =>
    by_cases h0 : v = 0
    · exact Or.inl (if_pos h0)
    · rcases hdim with rfl | ⟨rfl, _⟩
      · exact Or.inr (Or.inr (if_neg h0))
      · exact Or.inr (Or.inl (if_neg h0))
  case marker =>
    intro hmem hbad
    rcases hdim with rfl | ⟨rfl, hv9⟩
    · simp only [fieldStore] at hbad
      split at hbad <;> simp at hbad
    · exact hmarker v hv9 hmem
  case entity => exact fun hmem => absurd hmem (hentity v hlt)
  case plain => exact hplain v hlt
  case version => exact Or.inl rfl

theorem started_emptySchema (duplicates : Bool) : Started (emptySchema duplicates) :=
  ⟨0, 896, duplicates, by decide, Or.inl rfl, rfl⟩

variable {s : MemorySchema}

/-- An open that is not stopped answers. -/
theorem openSchema_answers (hs : s.Ordered) : (openSchema ⟨s, none⟩).1 = .ok () ∧
    ∃ t, Climbed s s.reachedVersion 10 t ∧ t.userVersion = 10 ∧
      Promoted t (openSchema ⟨s, none⟩).2.db := by
  rcases (survives_openSchema hs).run_ok (c := ⟨s, none⟩) rfl rfl with ⟨_, ha, hopened, _⟩
  exact ⟨ha, hopened⟩

/-- Every shape the opens leave is ordered. -/
theorem Reopened.ordered {start : MemorySchema} (hstart : start.Ordered) (h : Reopened start s) :
    s.Ordered := by
  refine GuardedRun.invariant h hstart (fun s fault s' hs _ hstep => ?_)
  rw [hstep]
  rcases survives_openSchema hs ⟨s, fault⟩ rfl with ⟨_, _, ⟨t, _, _, hp⟩, _⟩ | ⟨_, _, hleft⟩
  · exact hp.ordered
  · exact hleft

theorem upToDate_of_promoted {t r : MemorySchema} (hv : t.userVersion = 10) (h : Promoted t r) :
    r.UpToDate := by
  refine ⟨h.version.trans hv, ?_⟩
  rcases hdup : t.duplicates with _ | _
  · exact Or.inl (h.unique hdup).2
  · exact Or.inr (h.duplicates.trans hdup)

end Reached

section Fresh

theorem not_ofEntityId_of_lasting {j : Nat} {o : SchemaObject} (ho : o ∈ stepObjects j)
    (hlasting : o.lasting = true) : ¬ o.ofEntityId := by
  rintro (⟨unique, rfl⟩ | rfl)
  · simp only [SchemaObject.lasting] at hlasting
    subst hlasting
    unfold stepObjects at ho
    split at ho <;> simp at ho
  · unfold stepObjects at ho
    split at ho <;> simp at ho

/-- What a step leaves for certain is what it is recognized by, or one of the
    triggers of the fourth or of the unique indexes of the seventh. -/
theorem lasting_cases {j : Nat} {o : SchemaObject} (ho : o ∈ stepObjects j)
    (hlasting : o.lasting = true) : o ∈ recognizedBy j ∨
      (j = 4 ∧ ∃ name ∈ ["memory_fts_insert", "memory_fts_delete", "memory_fts_update"],
        o = .trigger name) ∨
      (j = 7 ∧ ∃ name ∈ ["idx_notes_uuid", "idx_notes_remote_id"], o = .index name true) := by
  have hall : ∀ j < 11, ∀ o ∈ stepObjects j, o.lasting = true → o ∈ recognizedBy j ∨
      (j = 4 ∧ ∃ name ∈ ["memory_fts_insert", "memory_fts_delete", "memory_fts_update"],
        o = .trigger name) ∨
      (j = 7 ∧ ∃ name ∈ ["idx_notes_uuid", "idx_notes_remote_id"], o = .index name true) := by
    decide
  by_cases hj : j < 11
  · exact hall j hj o ho hlasting
  · rw [stepObjects_eq_nil (Or.inr (by omega))] at ho
    exact absurd ho List.not_mem_nil

variable (duplicates : Bool)

/-- The climb of an uninterrupted run on an empty store. -/
theorem freshSchema_opened : ∃ t, Climbed (emptySchema duplicates) 0 10 t ∧
    t.userVersion = 10 ∧ Promoted t (freshSchema duplicates) := by
  have hzero : (emptySchema duplicates).reachedVersion = 0 := by
    have hfresh : (emptySchema duplicates).isFresh = true := rfl
    exact (if_pos rfl).trans (inferLegacyVersion_of_isFresh hfresh)
  have h := (openSchema_answers (ordered_of_started (started_emptySchema duplicates))).2
  rwa [hzero] at h

theorem freshSchema_version : (freshSchema duplicates).userVersion = 10 := by
  rcases freshSchema_opened duplicates with ⟨t, _, hv, hp⟩
  exact hp.version.trans hv

theorem freshSchema_vectors : (freshSchema duplicates).embeddingDim = some 896 := by
  rcases freshSchema_opened duplicates with ⟨t, hc, hv, hp⟩
  have hnone : t.embeddingDim ≠ none := by
    rw [Ne, hc.dim]
    simp
  have hmarker := hc.got 9 (by omega) (by omega) _ (by decide :
    SchemaObject.table "schema_v896_note_embeddings" ∈ stepObjects 9) rfl
  rw [hp.dim]
  rcases hc.ordered.dim with h | h | h
  · exact absurd h hnone
  · exact absurd h (hc.ordered.marker hmarker)
  · exact h

/-- It has what the ten steps leave for certain. -/
theorem mem_freshSchema {j : Nat} {o : SchemaObject} (hj : 1 ≤ j) (hj10 : j ≤ 10)
    (ho : o ∈ stepObjects j) (hlasting : o.lasting = true) : o ∈ (freshSchema duplicates).objects := by
  rcases freshSchema_opened duplicates with ⟨t, hc, _, hp⟩
  exact (hp.others o (not_ofEntityId_of_lasting ho hlasting)).mpr
    (hc.got j (by omega) hj10 o ho hlasting)

/-- And nothing else, but for the unique index on the identities. -/
theorem freshSchema_cases {o : SchemaObject} (ho : o ∈ (freshSchema duplicates).objects)
    (hlasting : o.lasting = true) : (∃ j, 1 ≤ j ∧ j ≤ 10 ∧ o ∈ stepObjects j) ∨
      (duplicates = false ∧
        (o = .index "idx_notes_entity_id" true ∨ o = .table "schema_entity_id_unique")) := by
  rcases freshSchema_opened duplicates with ⟨t, hc, _, hp⟩
  have hclimbed : o ∈ t.objects → ∃ j, 1 ≤ j ∧ j ≤ 10 ∧ o ∈ stepObjects j := by
    intro hot
    rcases hc.new o hot with hnil | ⟨j, hj, hj10, hoj⟩
    · exact absurd hnil List.not_mem_nil
    · exact ⟨j, by omega, hj10, hoj⟩
  by_cases hentity : o.ofEntityId
  · rcases hdup : duplicates with _ | _
    · refine Or.inr ⟨rfl, ?_⟩
      rcases hentity with ⟨unique, rfl⟩ | rfl
      · simp only [SchemaObject.lasting] at hlasting
        exact Or.inl (by rw [hlasting])
      · exact Or.inr rfl
    · rw [hp.same (hc.duplicates.trans hdup)] at ho
      exact Or.inl (hclimbed ho)
  · exact Or.inl (hclimbed ((hp.others o hentity).mp ho))

end Fresh

section Complete

variable {s t r : MemorySchema}

/-- Without the unrecognized objects of a recognized version the store stays
    without them. -/
theorem whole_of_full (hs : s.Ordered) (hc : Climbed s s.reachedVersion 10 t)
    (hp : Promoted t r) (h : r.Full) : s.Whole := by
  have hstays : ∀ k ≤ 10, ∀ o ∈ stepObjects k, o.lasting = true → s.Holds k → o ∈ s.objects := by
    intro k hk o ho hlasting hholds
    have hk1 : 1 ≤ k := by
      by_contra h0
      rw [stepObjects_eq_nil (Or.inl (by omega))] at ho
      exact absurd ho List.not_mem_nil
    have hr := h.objects o (mem_freshSchema _ hk1 hk ho hlasting) hlasting
    rcases hc.new o ((hp.others o (not_ofEntityId_of_lasting ho hlasting)).mp hr) with
      hmem | ⟨j, hj, _, hoj⟩
    · exact hmem
    · -- Only the step of that version adds it, and that one is not run.
      have hreached := le_reachedVersion_of_holds hs hk hholds
      have heq := step_unique ho hoj
      omega
  constructor
  case vectors =>
    intro hnotes hnone
    have hone : s.Holds 1 := fun o ho => List.mem_singleton.mp ho ▸ hnotes
    have ht := hc.dim.mpr ⟨hnone, Or.inr (le_reachedVersion_of_holds hs (by omega) hone)⟩
    have hvectors := h.vectors
    rw [hp.dim, ht, freshSchema_vectors] at hvectors
    exact absurd hvectors (by simp)
  case triggers =>
    intro hfts name hname
    have hall : ∀ name ∈ ["memory_fts_insert", "memory_fts_delete", "memory_fts_update"],
        SchemaObject.trigger name ∈ stepObjects 4 := by decide
    exact hstays 4 (by omega) _ (hall name hname) rfl (fun o ho => List.mem_singleton.mp ho ▸ hfts)
  case indexes =>
    intro huuid hremote name hname
    have hall : ∀ name ∈ ["idx_notes_uuid", "idx_notes_remote_id"],
        SchemaObject.index name true ∈ stepObjects 7 := by decide
    refine hstays 7 (by omega) _ (hall name hname) rfl (fun o ho => ?_)
    rcases List.mem_cons.mp ho with rfl | ho
    · exact huuid
    · exact List.mem_singleton.mp ho ▸ hremote

/-- With them, the steps above the version bring all the rest. -/
theorem full_of_whole (hs : s.Ordered) (hc : Climbed s s.reachedVersion 10 t)
    (hv : t.userVersion = 10) (hp : Promoted t r) (h : s.Whole) : r.Full := by
  have hdup : r.duplicates = s.duplicates := hp.duplicates.trans hc.duplicates
  constructor
  case version => rw [freshSchema_version, hp.version, hv]
  case vectors =>
    have hnone : t.embeddingDim ≠ none := by
      rw [Ne, hc.dim]
      rintro ⟨hnone, h0 | h1⟩
      · exact absurd h0 (by decide)
      · have hone := (le_reachedVersion_iff hs (by omega)).mp h1
        exact h.vectors (hone 1 (by omega) (by omega) _ (by decide)) hnone
    have hmarker := hc.upTo 9 (by omega) (by omega) _ (by decide :
      SchemaObject.table "schema_v896_note_embeddings" ∈ recognizedBy 9)
    rw [freshSchema_vectors, hp.dim]
    rcases hc.ordered.dim with h | h | h
    · exact absurd h hnone
    · exact absurd h (hc.ordered.marker hmarker)
    · exact h
  case objects =>
    intro o ho hlasting
    rcases freshSchema_cases _ ho hlasting with ⟨j, hj, hj10, hoj⟩ | ⟨hfalse, hunique⟩
    · refine (hp.others o (not_ofEntityId_of_lasting hoj hlasting)).mpr ?_
      by_cases hrun : s.reachedVersion < j
      · exact hc.got j hrun hj10 o hoj hlasting
      · -- The step is not run, so its version is recognized.
        have hholds := (le_reachedVersion_iff hs hj10).mp (by omega) j hj (Nat.le_refl _)
        refine hc.kept ?_
        rcases lasting_cases hoj hlasting with hrec | ⟨rfl, name, hname, rfl⟩ |
          ⟨rfl, name, hname, rfl⟩
        · exact hholds o hrec
        · exact h.triggers (hholds _ (by decide)) name hname
        · exact h.indexes (hholds _ (by decide)) (hholds _ (by decide)) name hname
    · have hpromoted := hp.unique (hp.duplicates.symm.trans hfalse)
      rcases hunique with rfl | rfl
      · exact hpromoted.1
      · exact hpromoted.2

end Complete

/-- However often a store was opened, and wherever those opens were stopped, the
    next open answers. It completes the store exactly when nothing is missing
    that no version is recognized by, and the open after it changes nothing. -/
theorem openSchema_full_iff_whole {start s : MemorySchema} (hstart : Started start)
    (hrun : Reopened start s) :
    (openSchema ⟨s, none⟩).1 = .ok () ∧ ((openSchema ⟨s, none⟩).2.db.Full ↔ s.Whole) ∧
      ∀ fault, (openSchema ⟨(openSchema ⟨s, none⟩).2.db, fault⟩).2.db
        = (openSchema ⟨s, none⟩).2.db := by
  have hs := hrun.ordered (ordered_of_started hstart)
  rcases openSchema_answers hs with ⟨hok, t, hc, hv, hp⟩
  exact ⟨hok, ⟨whole_of_full hs hc hp, full_of_whole hs hc hv hp⟩,
    openSchema_of_upToDate (upToDate_of_promoted hv hp)⟩

/-- A store of the fifth version with the old vectors, stopped in the ladder. -/
theorem openSchema_full_iff_whole_fieldStore :
    (openSchema ⟨(openSchema ⟨fieldStore 5 768 true, some 9⟩).2.db, none⟩).2.db.Full ↔
      (openSchema ⟨fieldStore 5 768 true, some 9⟩).2.db.Whole :=
  (@openSchema_full_iff_whole (fieldStore 5 768 true) _
    ⟨5, 768, true, by decide, Or.inr ⟨rfl, by decide⟩, rfl⟩
    (GuardedRun.tail (some 9) GuardedRun.refl trivial rfl)).2.1

/-- Stopped between the two statements of the first step, an empty store never
    gets its vectors. -/
theorem openSchema_stopped_in_base :
    Started (emptySchema false) ∧
      ¬ (openSchema ⟨(openSchema ⟨emptySchema false, some 3⟩).2.db, none⟩).2.db.Full := by
  refine ⟨started_emptySchema false, fun h => ?_⟩
  have hvectors := h.vectors
  rw [freshSchema_vectors] at hvectors
  exact absurd hvectors (by decide)

end Spelunk
