import Spelunk.Core.MemoryMigrations

/-!
# What One Migration Does

Every statement of a migration either adds an object of that migration or finds
it there. So the shapes a killed process can leave are ordered: a version is
recognized only when the one below it is. `Ordered` says that, with the few
other facts every shape has, and each step keeps it at every statement, provided
the steps below it are recognized.

`Within` follows one step from the shape it starts on: what it has for certain
by now, and what it can have added at all.

## Main definitions

* `stepObjects`: The objects a version adds.
* `recognizedBy`: Those its predicate looks at.
* `Holds`, `UpTo`: One predicate, and all of them up to a version.
* `Ordered`: What every shape a run can leave has.
* `Within`: A shape reached inside one step.
* `Stepped`: A shape behind one step.

## Theorems

* `le_inferLegacyVersion_iff`: The inferred version is the number of predicates
  that hold before the first that does not.
* `Ordered.add`: An object of a step, added in its place, keeps the order.
* `survives_step`: Each of the ten steps, wherever it is stopped.
-/

namespace Spelunk

open Lib (Sql SqlError Conn)

/-- The objects the step to version `k` adds, in the order of its statements;
    the vector table aside. -/
def stepObjects : Nat → List SchemaObject
  | 1 => [.table "notes"]
  | 2 => [.column "status", .column "superseded_by"]
  | 3 => [.column "source_ref"]
  | 4 => [.table "memory_fts", .trigger "memory_fts_insert", .trigger "memory_fts_delete",
      .trigger "memory_fts_update"]
  | 5 => [.column "valid_at", .column "invalid_at", .index "idx_memory_invalid_at" false]
  | 6 => [.table "memory_edges", .index "idx_memory_edges_from" false,
      .index "idx_memory_edges_to" false]
  | 7 => [.column "uuid", .column "remote_id", .index "idx_notes_uuid" true,
      .index "idx_notes_remote_id" true]
  | 8 => [.column "entity_id", .index "idx_notes_entity_id" false]
  | 9 => [.table "schema_v896_note_embeddings"]
  | 10 => [.table "notes_import_state"]
  | _ => []

/-- The objects version `k` is recognized by. -/
def recognizedBy : Nat → List SchemaObject
  | 1 => [.table "notes"]
  | 2 => [.column "status", .column "superseded_by"]
  | 3 => [.column "source_ref"]
  | 4 => [.table "memory_fts"]
  | 5 => [.column "valid_at", .column "invalid_at"]
  | 6 => [.table "memory_edges"]
  | 7 => [.column "uuid", .column "remote_id"]
  | 8 => [.column "entity_id"]
  | 9 => [.table "schema_v896_note_embeddings"]
  | 10 => [.table "notes_import_state"]
  | _ => []

/-- All but the indexes that are not unique. -/
def SchemaObject.lasting : SchemaObject → Bool
  | .index _ unique => unique
  | _ => true

theorem recognizedBy_subset (k : Nat) : recognizedBy k ⊆ stepObjects k := by
  unfold recognizedBy stepObjects
  split <;> simp

theorem stepObjects_eq_nil {k : Nat} (h : k = 0 ∨ 10 < k) : stepObjects k = [] := by
  unfold stepObjects
  split <;> first | rfl | omega

/-- Each object belongs to one step. -/
theorem step_unique {j k : Nat} {o : SchemaObject} (hj : o ∈ stepObjects j)
    (hk : o ∈ stepObjects k) : j = k := by
  have hall : ∀ j < 11, ∀ k < 11, ∀ o ∈ stepObjects j, o ∈ stepObjects k → j = k := by decide
  have hbound : ∀ i, o ∈ stepObjects i → i < 11 := by
    intro i hi
    by_contra hbig
    rw [stepObjects_eq_nil (Or.inr (by omega))] at hi
    exact absurd hi List.not_mem_nil
  exact hall j (hbound j hj) k (hbound k hk) o hj hk

namespace MemorySchema

/-- The predicate of version `k`. -/
def Holds (s : MemorySchema) (k : Nat) : Prop := ∀ o ∈ recognizedBy k, o ∈ s.objects

instance (s : MemorySchema) (k : Nat) : Decidable (s.Holds k) :=
  inferInstanceAs (Decidable (∀ o ∈ recognizedBy k, o ∈ s.objects))

/-- The predicates up to version `k`. -/
def UpTo (s : MemorySchema) (k : Nat) : Prop := ∀ j, 1 ≤ j → j ≤ k → s.Holds j

end MemorySchema

section Infer

/-- The walk up a ladder of predicates stops below the first that fails. -/
theorem takeWhile_rungs (p : Nat → Prop) [DecidablePred p] (n a j : Nat) (hj : j ≤ a + n) :
    j ≤ (((((List.range' (a + 1) n).map (fun k => (k, decide (p k)))).takeWhile
      (·.2)).getLast?).map (·.1)).getD a ↔ ∀ i, a < i → i ≤ j → p i := by
  induction n generalizing a with
  | zero =>
      simp only [List.range'_zero, List.map_nil, List.takeWhile_nil, List.getLast?_nil,
        Option.map_none, Option.getD_none]
      constructor
      · intro _ i hi hij
        omega
      · intro _
        omega
  | succ n ih =>
      rw [List.range'_succ, List.map_cons]
      have hget : ∀ (o : Option (Nat × Bool)) (x : Nat × Bool),
          (o.getD x).1 = (o.map (·.1)).getD x.1 := by
        intro o x
        cases o <;> rfl
      by_cases hp : p (a + 1)
      · rw [List.takeWhile_cons_of_pos (by simpa using hp), List.getLast?_cons, Option.map_some,
          Option.getD_some, hget, ih (a + 1) (by omega)]
        constructor
        · intro h i hi hij
          by_cases heq : i = a + 1
          · exact heq ▸ hp
          · exact h i (by omega) hij
        · intro h i hi hij
          exact h i (by omega) hij
      · rw [List.takeWhile_cons_of_neg (by simpa using hp), List.getLast?_nil, Option.map_none,
          Option.getD_none]
        constructor
        · intro hja i hi hij
          omega
        · intro h
          by_contra hlt
          exact hp (h (a + 1) (by omega) (by omega))

variable {s : MemorySchema}

theorem ladder_eq (s : MemorySchema) :
    s.ladder = (List.range' 1 10).map (fun k => (k, decide (s.Holds k))) := by
  simp only [MemorySchema.ladder, MemorySchema.Holds, MemorySchema.hasTable,
    MemorySchema.notesHasColumn, List.range'_succ, List.range'_zero, List.map_cons, List.map_nil,
    recognizedBy, List.forall_mem_cons, List.not_mem_nil, false_imp_iff, implies_true, and_true,
    decide_eq_true_eq, Nat.reduceAdd]

theorem le_inferLegacyVersion_iff {j : Nat} (hj : j ≤ 10) :
    j ≤ s.inferLegacyVersion ↔ s.UpTo j := by
  rw [MemorySchema.inferLegacyVersion, ladder_eq]
  exact takeWhile_rungs (fun k => s.Holds k) 10 0 j (by omega)

end Infer

namespace MemorySchema

/-- What every shape has that a run of the ladder can leave. -/
structure Ordered (s : MemorySchema) : Prop where
  /-- A version is recognized only where the one below it is. -/
  chain : ∀ k, 1 ≤ k → k < 10 → s.Holds (k + 1) → s.Holds k
  dim : s.embeddingDim = none ∨ s.embeddingDim = some 768 ∨ s.embeddingDim = some 896
  /-- The marker of the new dimension is left last. -/
  marker : .table "schema_v896_note_embeddings" ∈ s.objects → s.embeddingDim ≠ some 768
  /-- So is that of the unique index on the identities. -/
  entity : .table "schema_entity_id_unique" ∈ s.objects →
    .index "idx_notes_entity_id" true ∈ s.objects
  plain : ∀ name ∈ ["idx_notes_uuid", "idx_notes_remote_id"], .index name false ∉ s.objects
  version : s.userVersion = 0 ∨ (s.userVersion = 10 ∧ s.UpTo 10)

section Ordered

variable {s : MemorySchema}

theorem mem_add {o o' : SchemaObject} : o' ∈ (s.add o).objects ↔ o' ∈ s.objects ∨ o' = o := by
  rw [add, List.mem_append, List.mem_singleton]

theorem UpTo.mono {t : MemorySchema} {k : Nat} (h : s.UpTo k) (hle : s.objects ⊆ t.objects) :
    t.UpTo k :=
  fun j hj hjk o ho => hle (h j hj hjk o ho)

/-- A predicate that holds has those below it hold. -/
theorem Ordered.upTo (h : s.Ordered) {k : Nat} (hk : k ≤ 10) (hholds : s.Holds k) : s.UpTo k := by
  induction k with
  | zero =>
      intro j hj hj0
      omega
  | succ k ih =>
      intro j hj hjk
      by_cases heq : j = k + 1
      · exact heq ▸ hholds
      · exact ih (by omega) (h.chain k (by omega) (by omega) hholds) j hj (by omega)

/-- An object of a step, added in its place, keeps the order. -/
theorem Ordered.add (h : s.Ordered) {k : Nat} {o : SchemaObject} (ho : o ∈ stepObjects k)
    (hup : s.UpTo (k - 1)) (hdim : k = 9 → s.embeddingDim ≠ some 768) (hv : s.userVersion = 0) :
    (s.add o).Ordered := by
  have hle : s.objects ⊆ (s.add o).objects := fun o' ho' => mem_add.mpr (Or.inl ho')
  have hother : ∀ o', o' ∉ stepObjects k → o' ∈ (s.add o).objects → o' ∈ s.objects := by
    intro o' hnot hmem
    rcases mem_add.mp hmem with hmem | rfl
    · exact hmem
    · exact absurd ho hnot
  have hforeign : ∀ o', (∀ j < 11, o' ∉ stepObjects j) → o' ∉ stepObjects k := by
    intro o' hall
    by_cases hk : k < 11
    · exact hall k hk
    · rw [stepObjects_eq_nil (Or.inr (by omega))]
      exact List.not_mem_nil
  constructor
  case chain =>
    intro j hj hj10 hholds
    by_cases hjk : j < k
    · exact fun o' ho' => hle (hup j hj (by omega) o' ho')
    · -- The step adds nothing that a version above it is recognized by.
      have hbelow : s.Holds (j + 1) := by
        intro o' ho'
        refine hother o' (fun hk => ?_) (hholds o' ho')
        have heq := step_unique (recognizedBy_subset (j + 1) ho') hk
        omega
      exact fun o' ho' => hle (h.chain j hj hj10 hbelow o' ho')
  case dim => exact h.dim
  case marker =>
    intro hmem
    by_cases hk : k = 9
    · exact hdim hk
    · refine h.marker (hother _ (fun hmk => hk ?_) hmem)
      exact step_unique hmk (by decide : SchemaObject.table _ ∈ stepObjects 9)
  case entity =>
    intro hmem
    exact hle (h.entity (hother _ (hforeign _ (by decide)) hmem))
  case plain =>
    intro name hname hmem
    have hnone : ∀ name ∈ ["idx_notes_uuid", "idx_notes_remote_id"], ∀ j < 11,
        SchemaObject.index name false ∉ stepObjects j := by decide
    exact h.plain name hname (hother _ (hforeign _ (hnone name hname)) hmem)
  case version => exact Or.inl hv

theorem Ordered.setDim (h : s.Ordered) {d : Option Nat} (hd : d = none ∨ d = some 896) :
    ({ s with embeddingDim := d } : MemorySchema).Ordered where
  chain := h.chain
  dim := by
    rcases hd with rfl | rfl
    · exact Or.inl rfl
    · exact Or.inr (Or.inr rfl)
  marker := by
    intro _ hbad
    rcases hd with rfl | rfl
    · exact absurd hbad (by simp)
    · exact absurd hbad (by simp)
  entity := h.entity
  plain := h.plain
  version := h.version

/-- A name that is taken is taken by the object the statement would create. -/
theorem Ordered.mem_of_taken (h : s.Ordered) {k : Nat} {o : SchemaObject} (ho : o ∈ stepObjects k)
    (hlasting : o.lasting = true) (htaken : s.taken o = true) : o ∈ s.objects := by
  cases o with
  | table name => simpa [taken] using htaken
  | column name => simpa [taken] using htaken
  | trigger name => simpa [taken] using htaken
  | index name unique =>
      simp only [SchemaObject.lasting] at hlasting
      subst hlasting
      have hname : name ∈ ["idx_notes_uuid", "idx_notes_remote_id"] := by
        unfold stepObjects at ho
        split at ho <;> simp_all
      simp only [taken, decide_eq_true_eq] at htaken
      exact htaken.resolve_right (h.plain name hname)

end Ordered

end MemorySchema

/-- A shape reached inside step `k` from `s₀`: `got` are the objects whose
    statements are behind it. -/
structure Within (s₀ : MemorySchema) (k : Nat) (got : List SchemaObject) (d : Option Nat)
    (s : MemorySchema) : Prop where
  ordered : s.Ordered
  kept : s₀.objects ⊆ s.objects
  got : ∀ o ∈ got, o.lasting = true → o ∈ s.objects
  new : ∀ o ∈ s.objects, o ∈ s₀.objects ∨ o ∈ stepObjects k
  dim : s.embeddingDim = d
  version : s.userVersion = 0
  duplicates : s.duplicates = s₀.duplicates

section Statements

variable {s₀ : MemorySchema} {k : Nat} {got : List SchemaObject} {d : Option Nat}

theorem Within.start (hs : s₀.Ordered) (hv : s₀.userVersion = 0) :
    Within s₀ k [] s₀.embeddingDim s₀ where
  ordered := hs
  kept := List.Subset.refl _
  got := fun _ ho => absurd ho List.not_mem_nil
  new := fun _ ho => Or.inl ho
  dim := rfl
  version := hv
  duplicates := rfl

/-- The object of one more statement. -/
theorem Within.add {s : MemorySchema} (h : Within s₀ k got d s) {o : SchemaObject}
    (ho : o ∈ stepObjects k) (hup : s₀.UpTo (k - 1)) (hdim : k = 9 → d ≠ some 768) :
    Within s₀ k (got ++ [o]) d (s.add o) where
  ordered := h.ordered.add ho (hup.mono h.kept) (fun hk => h.dim ▸ hdim hk) h.version
  kept := fun _ ho' => MemorySchema.mem_add.mpr (Or.inl (h.kept ho'))
  got := by
    intro o' ho' hlasting
    rcases List.mem_append.mp ho' with ho' | ho'
    · exact MemorySchema.mem_add.mpr (Or.inl (h.got o' ho' hlasting))
    · exact MemorySchema.mem_add.mpr (Or.inr (List.mem_singleton.mp ho'))
  new := by
    intro o' ho'
    rcases MemorySchema.mem_add.mp ho' with ho' | rfl
    · exact h.new o' ho'
    · exact Or.inr ho
  dim := h.dim
  version := h.version
  duplicates := h.duplicates

/-- A statement that finds its object there. -/
theorem Within.found {s : MemorySchema} (h : Within s₀ k got d s) {o : SchemaObject}
    (ho : o.lasting = true → o ∈ s.objects) : Within s₀ k (got ++ [o]) d s where
  ordered := h.ordered
  kept := h.kept
  got := by
    intro o' ho' hlasting
    rcases List.mem_append.mp ho' with ho' | ho'
    · exact h.got o' ho' hlasting
    · rw [List.mem_singleton.mp ho'] at hlasting ⊢
      exact ho hlasting
  new := h.new
  dim := h.dim
  version := h.version
  duplicates := h.duplicates

theorem Within.setDim {s : MemorySchema} (h : Within s₀ k got d s) {d' : Option Nat}
    (hd : d' = none ∨ d' = some 896) : Within s₀ k got d' { s with embeddingDim := d' } where
  ordered := h.ordered.setDim hd
  kept := h.kept
  got := h.got
  new := h.new
  dim := rfl
  version := h.version
  duplicates := h.duplicates

theorem survives_createIfNotExists {o : SchemaObject} {needs : List SchemaObject}
    (ho : o ∈ stepObjects k) (hup : s₀.UpTo (k - 1)) (hdim : k = 9 → d ≠ some 768)
    (hneeds : ∀ n ∈ needs, n ∈ s₀.objects ∨ (n ∈ got ∧ n.lasting = true)) :
    Sql.Survives (Within s₀ k got d) (createIfNotExists o needs)
      (fun _ => Within s₀ k (got ++ [o]) d) MemorySchema.Ordered := by
  refine Sql.Survives.execute (fun s hs => ?_) (fun s hs => hs.ordered)
  by_cases htaken : s.taken o = true
  · rw [if_pos htaken]
    exact ⟨s, rfl, hs.found (fun hlasting => hs.ordered.mem_of_taken ho hlasting htaken)⟩
  · have hall : ∀ n ∈ needs, n ∈ s.objects := by
      intro n hn
      rcases hneeds n hn with hn | ⟨hn, hlasting⟩
      · exact hs.kept hn
      · exact hs.got n hn hlasting
    rw [if_neg htaken, if_pos hall]
    exact ⟨s.add o, rfl, hs.add ho hup hdim⟩

theorem survives_addColumnTolerant {name : String} (ho : .column name ∈ stepObjects k)
    (hup : s₀.UpTo (k - 1)) (hk : k ≠ 9) (hnotes : .table "notes" ∈ s₀.objects) :
    Sql.Survives (Within s₀ k got d) (addColumnTolerant name)
      (fun _ => Within s₀ k (got ++ [.column name]) d) MemorySchema.Ordered := by
  have hthere : ∀ s, Within s₀ k got d s → s.hasTable "notes" = true := by
    intro s hs
    exact decide_eq_true (hs.kept hnotes)
  refine Sql.Survives.attempt (T := fun r s => (∀ e, r = .error e → e = duplicateColumn name) ∧
    Within s₀ k (got ++ [.column name]) d s) ?_ ?_ ?_ ?_
  · -- The column is added.
    intro s a s' hs hf
    simp only [hthere s hs, not_true_eq_false, if_false] at hf
    split at hf
    · exact absurd hf (by simp [Except.map])
    · simp only [Except.map, Except.ok.injEq, Prod.mk.injEq] at hf
      rw [← hf.2]
      exact ⟨fun e he => absurd he (by simp), hs.add ho hup (fun h9 => absurd h9 hk)⟩
  · -- It was there.
    intro s e hs hf
    simp only [hthere s hs, not_true_eq_false, if_false] at hf
    split at hf
    case isTrue hcol =>
      simp only [Except.map, Except.error.injEq] at hf
      refine ⟨fun e' he' => ?_, hs.found (fun _ => of_decide_eq_true hcol)⟩
      rw [← Except.error.inj he', hf]
    case isFalse => exact absurd hf (by simp [Except.map])
  · rintro (e | a)
    · refine Sql.Survives.of_pre (fun he => ?_)
      simp only [if_pos (he e rfl)]
      exact Sql.Survives.ok () (fun s hs => hs)
    · exact Sql.Survives.ok () (fun s hs => hs.2)
  · intro c hc
    have hio : SqlError.io ≠ duplicateColumn name := by simp [duplicateColumn]
    simp only [if_neg hio]
    exact ⟨⟨.io, rfl⟩, hc.ordered⟩

theorem survives_populateFts (hfts : .table "memory_fts" ∈ got)
    (hnotes : .table "notes" ∈ s₀.objects) :
    Sql.Survives (Within s₀ k got d) populateFts (fun _ => Within s₀ k got d)
      MemorySchema.Ordered := by
  refine Sql.Survives.execute (fun s hs => ⟨s, ?_, hs⟩) (fun s hs => hs.ordered)
  rw [if_pos ⟨decide_eq_true (hs.got _ hfts rfl), decide_eq_true (hs.kept hnotes)⟩]

theorem survives_createNoteEmbeddings {b : Bool} (hb : b = false → d = none) :
    Sql.Survives (Within s₀ k got d) (createNoteEmbeddings b)
      (fun _ => Within s₀ k got (some (d.getD 896))) MemorySchema.Ordered := by
  refine Sql.Survives.execute (fun s hs => ?_) (fun s hs => hs.ordered)
  by_cases hsome : s.embeddingDim.isSome = true
  · have hkeep : some (d.getD 896) = d := by
      rw [hs.dim] at hsome
      rcases d with _ | d
      · exact absurd hsome (by simp)
      · rfl
    have htrue : b = true := by
      by_contra hfalse
      rw [hs.dim, hb (by simpa using hfalse)] at hsome
      exact absurd hsome (by simp)
    rw [if_pos hsome, if_pos htrue, hkeep]
    exact ⟨s, rfl, hs⟩
  · have hnone : d = none := by
      rw [← hs.dim]
      simpa using hsome
    rw [if_neg hsome, hnone]
    exact ⟨_, rfl, hs.setDim (Or.inr rfl)⟩

end Statements

/-- The dimension of the vectors behind step `k`. -/
def dimAfter (k : Nat) (d : Option Nat) : Option Nat :=
  if k = 1 then some (d.getD 896) else if k = 9 ∧ d = some 768 then some 896 else d

/-- A shape behind step `k`. -/
def Stepped (s₀ : MemorySchema) (k : Nat) (s : MemorySchema) : Prop :=
  Within s₀ k (stepObjects k) (dimAfter k s₀.embeddingDim) s

section Steps

variable {s₀ : MemorySchema}

theorem survives_applyBaseMigration (hs : s₀.Ordered) (hv : s₀.userVersion = 0) :
    Sql.Survives (fun s => s = s₀) applyBaseMigration (fun _ => Stepped s₀ 1)
      MemorySchema.Ordered := by
  have hup : s₀.UpTo (1 - 1) := fun j hj hj0 => absurd hj (by omega)
  refine Sql.Survives.mono (P := Within s₀ 1 [] s₀.embeddingDim) ?_
    (fun s heq => heq.symm ▸ Within.start hs hv) (fun _ _ h => h) (fun _ h => h)
  refine Sql.Survives.bind (survives_createIfNotExists (by decide) hup (by simp) ?_) (fun _ => ?_)
  · exact fun n hn => absurd hn List.not_mem_nil
  · exact survives_createNoteEmbeddings (by simp)

/-- The steps above the first whose statements only add objects. -/
theorem survives_of_within {k : Nat} {m : Sql MemorySchema Unit} (hk : k ≠ 1) (h9 : k ≠ 9)
    (hs : s₀.Ordered) (hv : s₀.userVersion = 0)
    (h : Sql.Survives (Within s₀ k [] s₀.embeddingDim) m
      (fun _ => Within s₀ k (stepObjects k) s₀.embeddingDim) MemorySchema.Ordered) :
    Sql.Survives (fun s => s = s₀) m (fun _ => Stepped s₀ k) MemorySchema.Ordered := by
  refine h.mono (fun s heq => heq.symm ▸ Within.start hs hv) (fun _ s hs' => ?_) (fun _ h => h)
  rw [Stepped, dimAfter, if_neg hk, if_neg (fun h => h9 h.1)]
  exact hs'

theorem notes_mem {k : Nat} (hk : 2 ≤ k) (hup : s₀.UpTo (k - 1)) : .table "notes" ∈ s₀.objects :=
  hup 1 (by omega) (by omega) _ (by decide)

theorem survives_applyLifecycleMigration (hs : s₀.Ordered) (hv : s₀.userVersion = 0)
    (hup : s₀.UpTo (2 - 1)) :
    Sql.Survives (fun s => s = s₀) applyLifecycleMigration (fun _ => Stepped s₀ 2)
      MemorySchema.Ordered := by
  have hnotes := notes_mem (by omega) hup
  refine survives_of_within (by decide) (by decide) hs hv ?_
  exact Sql.Survives.bind (survives_addColumnTolerant (by decide) hup (by decide) hnotes)
    (fun _ => survives_addColumnTolerant (by decide) hup (by decide) hnotes)

theorem survives_applySourceRefMigration (hs : s₀.Ordered) (hv : s₀.userVersion = 0)
    (hup : s₀.UpTo (3 - 1)) :
    Sql.Survives (fun s => s = s₀) applySourceRefMigration (fun _ => Stepped s₀ 3)
      MemorySchema.Ordered := by
  have hnotes := notes_mem (by omega) hup
  refine survives_of_within (by decide) (by decide) hs hv ?_
  exact survives_addColumnTolerant (by decide) hup (by decide) hnotes

theorem survives_applyFtsMigration (hs : s₀.Ordered) (hv : s₀.userVersion = 0)
    (hup : s₀.UpTo (4 - 1)) :
    Sql.Survives (fun s => s = s₀) applyFtsMigration (fun _ => Stepped s₀ 4)
      MemorySchema.Ordered := by
  have hnotes := notes_mem (by omega) hup
  have hneeds : ∀ got : List SchemaObject, ∀ n ∈ [SchemaObject.table "notes"],
      n ∈ s₀.objects ∨ (n ∈ got ∧ n.lasting = true) := by
    intro got n hn
    exact Or.inl (List.mem_singleton.mp hn ▸ hnotes)
  refine survives_of_within (by decide) (by decide) hs hv ?_
  refine Sql.Survives.bind (survives_createIfNotExists (by decide) hup (by simp) ?_) (fun _ => ?_)
  · exact fun n hn => absurd hn List.not_mem_nil
  refine Sql.Survives.bind (survives_populateFts (by decide) hnotes) (fun _ => ?_)
  refine Sql.Survives.bind
    (survives_createIfNotExists (by decide) hup (by simp) (hneeds _)) (fun _ => ?_)
  refine Sql.Survives.bind
    (survives_createIfNotExists (by decide) hup (by simp) (hneeds _)) (fun _ => ?_)
  exact survives_createIfNotExists (by decide) hup (by simp) (hneeds _)

theorem survives_applyTemporalMigration (hs : s₀.Ordered) (hv : s₀.userVersion = 0)
    (hup : s₀.UpTo (5 - 1)) :
    Sql.Survives (fun s => s = s₀) applyTemporalMigration (fun _ => Stepped s₀ 5)
      MemorySchema.Ordered := by
  have hnotes := notes_mem (by omega) hup
  refine survives_of_within (by decide) (by decide) hs hv ?_
  refine Sql.Survives.bind (survives_addColumnTolerant (by decide) hup (by decide) hnotes)
    (fun _ => ?_)
  refine Sql.Survives.bind (survives_addColumnTolerant (by decide) hup (by decide) hnotes)
    (fun _ => ?_)
  exact survives_createIfNotExists (by decide) hup (by simp) (fun n hn => Or.inr (by
    revert n
    decide))

theorem survives_applyEdgesMigration (hs : s₀.Ordered) (hv : s₀.userVersion = 0)
    (hup : s₀.UpTo (6 - 1)) :
    Sql.Survives (fun s => s = s₀) applyEdgesMigration (fun _ => Stepped s₀ 6)
      MemorySchema.Ordered := by
  refine survives_of_within (by decide) (by decide) hs hv ?_
  refine Sql.Survives.bind (survives_createIfNotExists (by decide) hup (by simp) ?_) (fun _ => ?_)
  · exact fun n hn => absurd hn List.not_mem_nil
  refine Sql.Survives.bind (survives_createIfNotExists (by decide) hup (by simp) ?_) (fun _ => ?_)
  · exact fun n hn => Or.inr (by revert n; decide)
  · exact survives_createIfNotExists (by decide) hup (by simp)
      (fun n hn => Or.inr (by revert n; decide))

theorem survives_applyUuidMigration (hs : s₀.Ordered) (hv : s₀.userVersion = 0)
    (hup : s₀.UpTo (7 - 1)) :
    Sql.Survives (fun s => s = s₀) applyUuidMigration (fun _ => Stepped s₀ 7)
      MemorySchema.Ordered := by
  have hnotes := notes_mem (by omega) hup
  refine survives_of_within (by decide) (by decide) hs hv ?_
  refine Sql.Survives.bind (survives_addColumnTolerant (by decide) hup (by decide) hnotes)
    (fun _ => ?_)
  refine Sql.Survives.bind (survives_addColumnTolerant (by decide) hup (by decide) hnotes)
    (fun _ => ?_)
  refine Sql.Survives.bind (survives_createIfNotExists (by decide) hup (by simp) ?_) (fun _ => ?_)
  · exact fun n hn => Or.inr (by revert n; decide)
  · exact survives_createIfNotExists (by decide) hup (by simp)
      (fun n hn => Or.inr (by revert n; decide))

theorem survives_applyEntityIdColumnMigration (hs : s₀.Ordered) (hv : s₀.userVersion = 0)
    (hup : s₀.UpTo (8 - 1)) :
    Sql.Survives (fun s => s = s₀) applyEntityIdColumnMigration (fun _ => Stepped s₀ 8)
      MemorySchema.Ordered := by
  have hnotes := notes_mem (by omega) hup
  refine survives_of_within (by decide) (by decide) hs hv ?_
  refine Sql.Survives.bind (survives_addColumnTolerant (by decide) hup (by decide) hnotes)
    (fun _ => ?_)
  exact survives_createIfNotExists (by decide) hup (by simp)
    (fun n hn => Or.inr (by revert n; decide))

/-- Dropping and creating the vectors anew is two statements; a shape without
    the vectors lies between them. -/
theorem survives_applyDimUpgradeMigration (hs : s₀.Ordered) (hv : s₀.userVersion = 0)
    (hup : s₀.UpTo (9 - 1)) :
    Sql.Survives (fun s => s = s₀) applyDimUpgradeMigration (fun _ => Stepped s₀ 9)
      MemorySchema.Ordered := by
  have hE : ∀ s, s = s₀ → s.Ordered := fun s heq => heq ▸ hs
  unfold applyDimUpgradeMigration
  refine Sql.Survives.bind (Q := fun already s =>
    already = s₀.hasTable "schema_v896_note_embeddings" ∧ s = s₀)
    (Sql.Survives.query (fun s heq => ⟨heq ▸ rfl, heq⟩) hE) (fun already => ?_)
  refine Sql.Survives.of_pre (fun halready => ?_)
  cases already with
  | true =>
      have hmarker : SchemaObject.table "schema_v896_note_embeddings" ∈ s₀.objects :=
        of_decide_eq_true halready.symm
      rw [if_pos rfl]
      refine Sql.Survives.ok () (fun s heq => ?_)
      rw [Stepped, dimAfter, if_neg (by decide), if_neg (fun h => hs.marker hmarker h.2), heq]
      exact (Within.start hs hv).found (fun _ => hmarker)
  | false =>
      rw [if_neg (by decide)]
      refine Sql.Survives.bind (Q := fun needsUpgrade s =>
        needsUpgrade = decide (s₀.embeddingDim = some 768) ∧ s = s₀)
        (Sql.Survives.query (fun s heq => ⟨heq ▸ rfl, heq⟩) hE) (fun needsUpgrade => ?_)
      refine Sql.Survives.of_pre (fun hneeds => ?_)
      have hdim : dimAfter 9 s₀.embeddingDim
          = if needsUpgrade = true then some 896 else s₀.embeddingDim := by
        rw [dimAfter, if_neg (by decide), hneeds]
        simp only [true_and, decide_eq_true_eq]
      refine Sql.Survives.bind (Q := fun _ => Within s₀ 9 [] (dimAfter 9 s₀.embeddingDim)) ?_
        (fun _ => survives_createIfNotExists (by decide) hup ?_ ?_)
      · refine Sql.Survives.whenever (fun hpos => ?_) (fun hneg s heq => ?_)
        · rw [hdim, if_pos hpos]
          refine Sql.Survives.bind (Q := fun _ => Within s₀ 9 [] none)
            (Sql.Survives.execute (fun s heq => ?_) hE)
            (fun _ => survives_createNoteEmbeddings (fun _ => rfl))
          exact ⟨_, rfl, heq ▸ (Within.start hs hv).setDim (Or.inl rfl)⟩
        · rw [hdim, if_neg hneg, heq]
          exact Within.start hs hv
      · intro _ hbad
        rw [hdim] at hbad
        by_cases h768 : s₀.embeddingDim = some 768
        · rw [if_pos (by rw [hneeds]; exact decide_eq_true h768)] at hbad
          exact absurd hbad (by decide)
        · rw [if_neg (by rw [hneeds]; simpa using h768)] at hbad
          exact h768 hbad
      · exact fun n hn => absurd hn List.not_mem_nil

theorem survives_applyNotesImportStateMigration (hs : s₀.Ordered) (hv : s₀.userVersion = 0)
    (hup : s₀.UpTo (10 - 1)) :
    Sql.Survives (fun s => s = s₀) applyNotesImportStateMigration (fun _ => Stepped s₀ 10)
      MemorySchema.Ordered := by
  refine survives_of_within (by decide) (by decide) hs hv ?_
  exact survives_createIfNotExists (by decide) hup (by simp)
    (fun n hn => absurd hn List.not_mem_nil)

/-- Each of the ten steps, wherever it is stopped. -/
theorem survives_step {k : Nat} {step : Sql MemorySchema Unit} (h : (k, step) ∈ migrationSteps)
    (hs : s₀.Ordered) (hv : s₀.userVersion = 0) (hup : s₀.UpTo (k - 1)) :
    Sql.Survives (fun s => s = s₀) step (fun _ => Stepped s₀ k) MemorySchema.Ordered := by
  simp only [migrationSteps, List.mem_cons, Prod.mk.injEq, List.not_mem_nil, or_false] at h
  rcases h with ⟨rfl, rfl⟩ | ⟨rfl, rfl⟩ | ⟨rfl, rfl⟩ | ⟨rfl, rfl⟩ | ⟨rfl, rfl⟩ | ⟨rfl, rfl⟩ |
    ⟨rfl, rfl⟩ | ⟨rfl, rfl⟩ | ⟨rfl, rfl⟩ | ⟨rfl, rfl⟩
  · exact survives_applyBaseMigration hs hv
  · exact survives_applyLifecycleMigration hs hv hup
  · exact survives_applySourceRefMigration hs hv hup
  · exact survives_applyFtsMigration hs hv hup
  · exact survives_applyTemporalMigration hs hv hup
  · exact survives_applyEdgesMigration hs hv hup
  · exact survives_applyUuidMigration hs hv hup
  · exact survives_applyEntityIdColumnMigration hs hv hup
  · exact survives_applyDimUpgradeMigration hs hv hup
  · exact survives_applyNotesImportStateMigration hs hv hup

end Steps

end Spelunk
