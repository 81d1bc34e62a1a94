import Spelunk.Theory.MigrationSteps

/-!
# The Ladder as a Whole

One open: the steps above the version the store is taken to have, the stamp, and
the promotion of the identity index. Wherever it is stopped it leaves an ordered
shape, and `Climbed` and `Promoted` say what an open that is not stopped leaves:
what was there, what the steps that were run add for certain, and nothing that
does not come from one of them.

## Main definitions

* `Climbed`: A shape behind a number of steps of the ladder.
* `MemorySchema.reachedVersion`: The version an open takes a store to have.
* `Promoted`: A shape behind the promotion of the identity index.
* `MemorySchema.UpToDate`: A store behind a whole open.

## Theorems

* `survives_ladder`: The ladder, wherever it is stopped.
* `le_reachedVersion_iff`: A store has a version when the predicates up to it hold.
* `survives_promoteIndex`: The promotion, wherever it is stopped.
* `survives_openSchema`: An open, wherever it is stopped.
* `openSchema_of_upToDate`: An open of a store behind a whole open changes nothing.
-/

namespace Spelunk

open Lib (Sql SqlError Conn)

/-- A shape behind the steps `v + 1` to `k` of the ladder from `s₀`. -/
structure Climbed (s₀ : MemorySchema) (v k : Nat) (s : MemorySchema) : Prop where
  ordered : s.Ordered
  upTo : s.UpTo (max v k)
  kept : s₀.objects ⊆ s.objects
  got : ∀ j, v < j → j ≤ k → ∀ o ∈ stepObjects j, o.lasting = true → o ∈ s.objects
  new : ∀ o ∈ s.objects, o ∈ s₀.objects ∨ ∃ j, v < j ∧ j ≤ k ∧ o ∈ stepObjects j
  dim : s.embeddingDim = none ↔ s₀.embeddingDim = none ∧ (k = 0 ∨ 1 ≤ v)
  duplicates : s.duplicates = s₀.duplicates

section Ladder

variable {s₀ : MemorySchema} {v : Nat}

theorem lasting_of_recognizedBy {k : Nat} {o : SchemaObject} (h : o ∈ recognizedBy k) :
    o.lasting = true := by
  unfold recognizedBy at h
  split at h <;> revert o <;> decide

theorem Climbed.start (hs : s₀.Ordered) (hup : s₀.UpTo v) : Climbed s₀ v 0 s₀ where
  ordered := hs
  upTo := by rwa [Nat.max_zero]
  kept := List.Subset.refl _
  got := fun j hj hj0 => absurd hj (by omega)
  new := fun o ho => Or.inl ho
  dim := by simp
  duplicates := rfl

/-- A step at or below the version is not run. -/
theorem Climbed.skip {s : MemorySchema} {k : Nat} (h : Climbed s₀ v k s) (hk : k + 1 ≤ v) :
    Climbed s₀ v (k + 1) s where
  ordered := h.ordered
  upTo := by
    have hmax : max v (k + 1) = max v k := by omega
    rw [hmax]
    exact h.upTo
  kept := h.kept
  got := fun j hj hjk => absurd hj (by omega)
  new := by
    intro o ho
    rcases h.new o ho with ho | ⟨j, hj, hjk, _⟩
    · exact Or.inl ho
    · exact absurd hj (by omega)
  dim := by
    rw [h.dim]
    constructor
    · intro h
      exact ⟨h.1, Or.inr (by omega)⟩
    · intro h
      exact ⟨h.1, Or.inr (by omega)⟩
  duplicates := h.duplicates

theorem dimAfter_eq_none_iff {k : Nat} {d : Option Nat} :
    dimAfter k d = none ↔ d = none ∧ k ≠ 1 := by
  unfold dimAfter
  by_cases hk : k = 1
  · rw [if_pos hk]
    simp [hk]
  · rw [if_neg hk]
    by_cases h9 : k = 9 ∧ d = some 768
    · rw [if_pos h9]
      simp [h9.2]
    · rw [if_neg h9]
      simp [hk]

/-- A step above the version is run. -/
theorem Climbed.step {s t : MemorySchema} {k : Nat} (h : Climbed s₀ v k s) (hk : v ≤ k)
    (hstep : Stepped s (k + 1) t) : Climbed s₀ v (k + 1) t where
  ordered := hstep.ordered
  upTo := by
    intro j hj hjk
    by_cases heq : j = k + 1
    · intro o ho
      rw [heq] at ho
      exact hstep.got o (recognizedBy_subset _ ho) (lasting_of_recognizedBy ho)
    · exact fun o ho => hstep.kept (h.upTo j hj (by omega) o ho)
  kept := fun o ho => hstep.kept (h.kept ho)
  got := by
    intro j hj hjk o ho hlasting
    by_cases heq : j = k + 1
    · rw [heq] at ho
      exact hstep.got o ho hlasting
    · exact hstep.kept (h.got j hj (by omega) o ho hlasting)
  new := by
    intro o ho
    rcases hstep.new o ho with ho | ho
    · rcases h.new o ho with ho | ⟨j, hj, hjk, ho⟩
      · exact Or.inl ho
      · exact Or.inr ⟨j, hj, by omega, ho⟩
    · exact Or.inr ⟨k + 1, by omega, Nat.le_refl _, ho⟩
  dim := by
    rw [hstep.dim, dimAfter_eq_none_iff, h.dim]
    constructor
    · rintro ⟨⟨hnone, _⟩, hk1⟩
      exact ⟨hnone, Or.inr (by omega)⟩
    · rintro ⟨hnone, h0 | h1⟩
      · omega
      · exact ⟨⟨hnone, Or.inr h1⟩, by omega⟩
  duplicates := hstep.duplicates.trans h.duplicates

/-- The steps come in the order of their versions. -/
theorem version_of_split {done rest : List (Nat × Sql MemorySchema Unit)}
    {x : Nat × Sql MemorySchema Unit} (h : migrationSteps = done ++ x :: rest) :
    x.1 = done.length + 1 := by
  have hversions : migrationSteps.map (·.1) = List.range' 1 10 := rfl
  have hlen : done.length < 10 := by
    have hl := congrArg List.length h
    rw [List.length_append, List.length_cons] at hl
    have h10 : migrationSteps.length = 10 := rfl
    omega
  have hget : (List.range' 1 10)[done.length]? = some x.1 := by
    rw [← hversions, h]
    simp
  rw [List.getElem?_range' hlen, Nat.one_mul, Option.some.injEq] at hget
  omega

/-- The ladder, wherever it is stopped. -/
theorem survives_ladder (hs : s₀.Ordered) (hup : s₀.UpTo v)
    (hv : v < 10 → s₀.userVersion = 0) :
    Sql.Survives (fun s => s = s₀)
      (Sql.forEach migrationSteps fun step => Sql.whenever (v < step.1) step.2)
      (fun _ s => Climbed s₀ v 10 s ∧ s.userVersion = s₀.userVersion) MemorySchema.Ordered := by
  refine Sql.Survives.mono (Sql.Survives.forEach
    (I := fun done s => Climbed s₀ v done.length s ∧ s.userVersion = s₀.userVersion)
    (E := MemorySchema.Ordered) migrationSteps ?_) ?_ (fun _ _ h => h) (fun _ h => h)
  · intro done x rest hsplit
    have hx := version_of_split hsplit
    have hk10 : x.1 ≤ 10 := by
      have hl := congrArg List.length hsplit
      rw [List.length_append, List.length_cons] at hl
      have h10 : migrationSteps.length = 10 := rfl
      omega
    have hmem : (x.1, x.2) ∈ migrationSteps := by
      rw [hsplit]
      exact List.mem_append.mpr (Or.inr List.mem_cons_self)
    rw [List.length_append, List.length_singleton]
    refine Sql.Survives.whenever (fun hpos => ?_) (fun hneg s hI => ?_)
    · refine Sql.Survives.of_each (fun s hI => ?_)
      have hv0 : s.userVersion = 0 := hI.2.trans (hv (by omega))
      have hbelow : s.UpTo (x.1 - 1) := fun j hj hjk => hI.1.upTo j hj (by omega)
      refine (survives_step hmem hI.1.ordered hv0 hbelow).mono (fun _ h => h) (fun _ t ht => ?_)
        (fun _ h => h)
      rw [hx] at ht
      exact ⟨hI.1.step (by omega) ht, ht.version.trans (hv (by omega)).symm⟩
    · exact ⟨hI.1.skip (by omega), hI.2⟩
  · intro s heq
    exact heq.symm ▸ ⟨Climbed.start hs hup, rfl⟩

end Ladder

/-- The version an open takes a store to have. -/
def MemorySchema.reachedVersion (s : MemorySchema) : Nat :=
  if s.userVersion = 0 then s.inferLegacyVersion else s.userVersion

section Open

variable {s₀ : MemorySchema}

theorem inferLegacyVersion_le (s : MemorySchema) : s.inferLegacyVersion ≤ 10 := by
  by_contra hbig
  have hmem : ∀ x ∈ s.ladder.takeWhile (·.2), x.1 ≤ 10 := by
    intro x hx
    have hx' := (List.takeWhile_prefix _).subset hx
    rw [ladder_eq, List.mem_map] at hx'
    rcases hx' with ⟨k, hk, rfl⟩
    have hk' := (List.mem_range'_1.mp hk).2
    show k ≤ 10
    omega
  unfold MemorySchema.inferLegacyVersion at hbig
  rcases hlast : (s.ladder.takeWhile (·.2)).getLast? with _ | x
  · rw [hlast] at hbig
    exact hbig (Nat.zero_le _)
  · rw [hlast] at hbig
    exact hbig (hmem x (List.mem_of_getLast? hlast))

theorem reachedVersion_le (hs : s₀.Ordered) : s₀.reachedVersion ≤ 10 := by
  unfold MemorySchema.reachedVersion
  split
  · exact inferLegacyVersion_le s₀
  · rcases hs.version with hv | hv
    · omega
    · omega

/-- A store has a version when the predicates up to it hold. -/
theorem le_reachedVersion_iff (hs : s₀.Ordered) {j : Nat} (hj : j ≤ 10) :
    j ≤ s₀.reachedVersion ↔ s₀.UpTo j := by
  unfold MemorySchema.reachedVersion
  split
  · exact le_inferLegacyVersion_iff hj
  case isFalse hne =>
    rcases hs.version with hv | hv
    · exact absurd hv hne
    · constructor
      · exact fun _ i hi hij => hv.2 i hi (by omega)
      · intro _
        omega

/-- A version is reached from its own predicate on. -/
theorem le_reachedVersion_of_holds (hs : s₀.Ordered) {j : Nat} (hj : j ≤ 10) (h : s₀.Holds j) :
    j ≤ s₀.reachedVersion :=
  (le_reachedVersion_iff hs hj).mpr (hs.upTo hj h)

/-- A store without tables has none of the versions. -/
theorem inferLegacyVersion_of_isFresh (h : s₀.isFresh = true) : s₀.inferLegacyVersion = 0 := by
  by_contra hne
  have hone := (le_inferLegacyVersion_iff (s := s₀) (j := 1) (by omega)).mp (by omega)
  have hnotes := hone 1 (by omega) (by omega) (.table "notes") (by decide)
  simp only [MemorySchema.isFresh, Bool.and_eq_true, List.all_eq_true] at h
  exact absurd (h.2 _ hnotes) (by decide)

theorem survives_runMigrations (hs : s₀.Ordered) :
    Sql.Survives (fun s => s = s₀) runMigrations
      (fun _ s => Climbed s₀ s₀.reachedVersion 10 s ∧ s.userVersion = 10)
      MemorySchema.Ordered := by
  have hE : ∀ s, s = s₀ → s.Ordered := fun s heq => heq ▸ hs
  have hv : s₀.reachedVersion < 10 → s₀.userVersion = 0 := by
    intro hlt
    by_contra hne
    rw [MemorySchema.reachedVersion, if_neg hne] at hlt
    rcases hs.version with h0 | h10
    · exact hne h0
    · omega
  unfold runMigrations
  refine Sql.Survives.bind (Q := fun userVersion s => userVersion = s₀.userVersion ∧ s = s₀)
    (Sql.Survives.query (fun s heq => ⟨heq ▸ rfl, heq⟩) hE) (fun userVersion => ?_)
  refine Sql.Survives.of_pre (fun huser => ?_)
  have hsupported : ¬ memorySchemaVersion < userVersion := by
    rw [huser, memorySchemaVersion]
    rcases hs.version with h | h
    · omega
    · omega
  rw [if_neg hsupported]
  refine Sql.Survives.bind (Q := fun version s => version = s₀.reachedVersion ∧ s = s₀)
    (Sql.Survives.query (fun s heq => ⟨?_, heq⟩) hE) (fun version => ?_)
  · rw [heq, huser, MemorySchema.reachedVersion]
    by_cases h0 : s₀.userVersion = 0
    · by_cases hfresh : s₀.isFresh = true
      · rw [if_neg (fun h => h.2 hfresh), if_pos h0, inferLegacyVersion_of_isFresh hfresh, h0]
      · rw [if_pos ⟨h0, hfresh⟩, if_pos h0]
    · rw [if_neg (fun h => h0 h.1), if_neg h0]
  · refine Sql.Survives.of_pre (fun hversion => ?_)
    rw [hversion]
    have hup := (le_reachedVersion_iff hs (reachedVersion_le hs)).mp (Nat.le_refl _)
    refine Sql.Survives.bind (survives_ladder hs hup hv) (fun _ => ?_)
    refine Sql.Survives.execute (fun s hI => ⟨_, rfl, ?_⟩) (fun s hI => hI.1.ordered)
    have hall : s.UpTo 10 := fun j hj hj10 => hI.1.upTo j hj (by omega)
    have hordered : ({ s with userVersion := memorySchemaVersion } : MemorySchema).Ordered :=
      ⟨hI.1.ordered.chain, hI.1.ordered.dim, hI.1.ordered.marker, hI.1.ordered.entity,
        hI.1.ordered.plain, Or.inr ⟨rfl, hall⟩⟩
    exact ⟨⟨hordered, hI.1.upTo, hI.1.kept, hI.1.got, hI.1.new, hI.1.dim, hI.1.duplicates⟩, rfl⟩

end Open

section Promote

/-- The index on the identities and the marker of its being unique. -/
def SchemaObject.ofEntityId (o : SchemaObject) : Prop :=
  (∃ unique, o = .index "idx_notes_entity_id" unique) ∨ o = .table "schema_entity_id_unique"

/-- A shape behind the promotion of the identity index from `t`. -/
structure Promoted (t s : MemorySchema) : Prop where
  ordered : s.Ordered
  others : ∀ o, ¬ o.ofEntityId → (o ∈ s.objects ↔ o ∈ t.objects)
  unique : t.duplicates = false → .index "idx_notes_entity_id" true ∈ s.objects ∧
    .table "schema_entity_id_unique" ∈ s.objects
  same : t.duplicates = true → s = t
  dim : s.embeddingDim = t.embeddingDim
  version : s.userVersion = t.userVersion
  duplicates : s.duplicates = t.duplicates

variable {s t : MemorySchema}

theorem not_ofEntityId_of_recognizedBy {k : Nat} {o : SchemaObject} (h : o ∈ recognizedBy k) :
    ¬ o.ofEntityId := by
  rintro (⟨unique, rfl⟩ | rfl)
  · unfold recognizedBy at h
    split at h <;> simp at h
  · unfold recognizedBy at h
    split at h <;> simp at h

/-- Shapes that differ in the index on the identities only are ordered alike. -/
theorem ordered_of_others (ht : t.Ordered)
    (hothers : ∀ o, ¬ o.ofEntityId → (o ∈ s.objects ↔ o ∈ t.objects))
    (hentity : .table "schema_entity_id_unique" ∈ s.objects →
      .index "idx_notes_entity_id" true ∈ s.objects)
    (hdim : s.embeddingDim = t.embeddingDim) (hv : s.userVersion = t.userVersion) : s.Ordered := by
  have hholds : ∀ k, s.Holds k ↔ t.Holds k := by
    intro k
    constructor
    · exact fun h o ho => (hothers o (not_ofEntityId_of_recognizedBy ho)).mp (h o ho)
    · exact fun h o ho => (hothers o (not_ofEntityId_of_recognizedBy ho)).mpr (h o ho)
  constructor
  case chain => exact fun k hk hk10 h => (hholds k).mpr (ht.chain k hk hk10 ((hholds _).mp h))
  case dim =>
    rw [hdim]
    exact ht.dim
  case marker =>
    intro hmem
    rw [hdim]
    exact ht.marker ((hothers _ (by simp [SchemaObject.ofEntityId])).mp hmem)
  case entity => exact hentity
  case plain =>
    intro name hname hmem
    refine ht.plain name hname ((hothers _ ?_).mp hmem)
    rintro (⟨unique, hu⟩ | hu)
    · rw [SchemaObject.index.injEq] at hu
      rw [hu.1] at hname
      exact absurd hname (by decide)
    · exact absurd hu (by simp)
  case version =>
    rcases ht.version with h | h
    · exact Or.inl (hv.trans h)
    · exact Or.inr ⟨hv.trans h.1, fun j hj hj10 => (hholds j).mpr (h.2 j hj hj10)⟩

/-- A shape without the index on the identities. -/
def MemorySchema.unindexed (t : MemorySchema) : MemorySchema :=
  { t with objects := t.objects.filter (fun o => o ≠ .index "idx_notes_entity_id" true ∧
      o ≠ .index "idx_notes_entity_id" false) }

theorem mem_unindexed {o : SchemaObject} : o ∈ t.unindexed.objects ↔ o ∈ t.objects ∧
    o ≠ .index "idx_notes_entity_id" true ∧ o ≠ .index "idx_notes_entity_id" false := by
  rw [MemorySchema.unindexed, List.mem_filter, decide_eq_true_eq]

theorem mem_unindexed_of_others {o : SchemaObject} (h : ¬ o.ofEntityId) :
    o ∈ t.unindexed.objects ↔ o ∈ t.objects := by
  rw [mem_unindexed]
  constructor
  · exact fun ho => ho.1
  · intro ho
    exact ⟨ho, fun heq => h (Or.inl ⟨true, heq⟩), fun heq => h (Or.inl ⟨false, heq⟩)⟩

/-- Dropping the index, creating it anew and marking it. Between the first two
    the store has no index; the next open drops and creates it again. -/
theorem survives_promotion (ht : t.Ordered) (hv : t.userVersion = 10)
    (hmarker : .table "schema_entity_id_unique" ∉ t.objects) (hdup : t.duplicates = false) :
    Sql.Survives (fun s => s = t) (do
      dropIndex "idx_notes_entity_id"
      createObject false (.index "idx_notes_entity_id" true) [.column "entity_id"]
      createIfNotExists (.table "schema_entity_id_unique") []) (fun _ => Promoted t)
      MemorySchema.Ordered := by
  have hup : t.UpTo 10 := by
    rcases ht.version with h | h
    · omega
    · exact h.2
  have hcolumn : SchemaObject.column "entity_id" ∈ t.unindexed.objects :=
    (mem_unindexed_of_others (not_ofEntityId_of_recognizedBy (k := 8) (by decide))).mpr
      (hup 8 (by omega) (by omega) _ (by decide))
  have hunmarked : SchemaObject.table "schema_entity_id_unique" ∉ t.unindexed.objects :=
    fun h => hmarker (mem_unindexed.mp h).1
  have hdropped : t.unindexed.Ordered :=
    ordered_of_others ht (fun o ho => mem_unindexed_of_others ho)
      (fun h => absurd h hunmarked) rfl rfl
  have hadd : ∀ (u : MemorySchema) (o o' : SchemaObject), o.ofEntityId → ¬ o'.ofEntityId →
      (o' ∈ (u.add o).objects ↔ o' ∈ u.objects) := by
    intro u o o' ho ho'
    rw [MemorySchema.mem_add]
    constructor
    · exact fun h => h.resolve_right (fun heq => ho' (heq ▸ ho))
    · exact Or.inl
  let indexed := t.unindexed.add (.index "idx_notes_entity_id" true)
  have hothers : ∀ o, ¬ o.ofEntityId → (o ∈ indexed.objects ↔ o ∈ t.objects) := fun o ho =>
    (hadd _ _ o (Or.inl ⟨true, rfl⟩) ho).trans (mem_unindexed_of_others ho)
  have hunique : SchemaObject.index "idx_notes_entity_id" true ∈ indexed.objects :=
    MemorySchema.mem_add.mpr (Or.inr rfl)
  have hindexed : indexed.Ordered := ordered_of_others ht hothers (fun _ => hunique) rfl rfl
  refine Sql.Survives.bind (Q := fun _ s => s = t.unindexed)
    (Sql.Survives.execute (fun s heq => ⟨_, rfl, heq ▸ rfl⟩) (fun s heq => heq ▸ ht)) (fun _ => ?_)
  refine Sql.Survives.bind (Q := fun _ s => s = indexed)
    (Sql.Survives.execute (fun s heq => ?_) (fun s heq => heq ▸ hdropped)) (fun _ => ?_)
  · have hfree : ¬ t.unindexed.taken (.index "idx_notes_entity_id" true) = true := by
      simp [MemorySchema.taken, mem_unindexed]
    rw [heq, if_neg hfree, if_pos (by simpa using hcolumn)]
    exact ⟨_, rfl, rfl⟩
  · unfold createIfNotExists
    refine Sql.Survives.execute (fun s heq => ?_) (fun s heq => heq ▸ hindexed)
    have hfree : ¬ indexed.taken (.table "schema_entity_id_unique") = true := by
      simp only [MemorySchema.taken, decide_eq_true_eq, indexed, MemorySchema.mem_add]
      rintro (h | h)
      · exact hunmarked h
      · exact absurd h (by simp)
    rw [heq, if_neg hfree, if_pos (by simp)]
    have hothers' : ∀ o, ¬ o.ofEntityId →
        (o ∈ (indexed.add (.table "schema_entity_id_unique")).objects ↔ o ∈ t.objects) :=
      fun o ho => (hadd _ _ o (Or.inr rfl) ho).trans (hothers o ho)
    have hunique' := MemorySchema.mem_add (o := .table "schema_entity_id_unique").mpr
      (Or.inl hunique)
    exact ⟨_, rfl, ordered_of_others ht hothers' (fun _ => hunique') rfl rfl, hothers',
      fun _ => ⟨hunique', MemorySchema.mem_add.mpr (Or.inr rfl)⟩,
      fun h => absurd (hdup.symm.trans h) (by decide), rfl, rfl, rfl⟩

theorem survives_promoteIndex (ht : t.Ordered) (hv : t.userVersion = 10) :
    Sql.Survives (fun s => s = t) promoteIndex (fun _ => Promoted t) MemorySchema.Ordered := by
  have hE : ∀ s, s = t → s.Ordered := fun s heq => heq ▸ ht
  have hself : (t.duplicates = false → .index "idx_notes_entity_id" true ∈ t.objects ∧
      .table "schema_entity_id_unique" ∈ t.objects) → Promoted t t := fun h =>
    ⟨ht, fun _ _ => Iff.rfl, h, fun _ => rfl, rfl, rfl, rfl⟩
  unfold promoteIndex
  refine Sql.Survives.bind (Q := fun already s =>
    already = t.hasTable "schema_entity_id_unique" ∧ s = t)
    (Sql.Survives.query (fun s heq => ⟨heq ▸ rfl, heq⟩) hE) (fun already => ?_)
  refine Sql.Survives.of_pre (fun halready => ?_)
  cases already with
  | true =>
      have hmarker : SchemaObject.table "schema_entity_id_unique" ∈ t.objects :=
        of_decide_eq_true halready.symm
      rw [if_pos rfl]
      exact Sql.Survives.ok () (fun s heq => heq.symm ▸ hself (fun _ => ⟨ht.entity hmarker, hmarker⟩))
  | false =>
      have hmarker : SchemaObject.table "schema_entity_id_unique" ∉ t.objects :=
        of_decide_eq_false halready.symm
      rw [if_neg (by decide)]
      refine Sql.Survives.bind (Q := fun duplicates s => duplicates = t.duplicates ∧ s = t)
        (Sql.Survives.query (fun s heq => ⟨heq ▸ rfl, heq⟩) hE) (fun duplicates => ?_)
      refine Sql.Survives.of_pre (fun hdup => ?_)
      cases duplicates with
      | true =>
          rw [if_pos rfl]
          exact Sql.Survives.ok () (fun s heq => heq.symm ▸ hself (fun h => absurd (hdup.trans h)
            (by decide)))
      | false =>
          rw [if_neg (by decide)]
          exact survives_promotion ht hv hmarker hdup.symm

end Promote

/-- An open, wherever it is stopped. -/
theorem survives_openSchema {s₀ : MemorySchema} (hs : s₀.Ordered) :
    Sql.Survives (fun s => s = s₀) openSchema
      (fun _ s => ∃ t, Climbed s₀ s₀.reachedVersion 10 t ∧ t.userVersion = 10 ∧ Promoted t s)
      MemorySchema.Ordered := by
  refine Sql.Survives.bind (survives_runMigrations hs) (fun _ => ?_)
  refine Sql.Survives.of_each (fun t ht => ?_)
  exact (survives_promoteIndex ht.1.ordered ht.2).mono (fun _ h => h)
    (fun _ s hp => ⟨t, ht.1, ht.2, hp⟩) (fun _ h => h)

/-- A store behind a whole open: neither the ladder nor the promotion has
    anything left to do. -/
def MemorySchema.UpToDate (s : MemorySchema) : Prop :=
  s.userVersion = 10 ∧ (.table "schema_entity_id_unique" ∈ s.objects ∨ s.duplicates = true)

/-- An open of a store behind a whole open changes nothing. -/
theorem openSchema_of_upToDate {s₀ : MemorySchema} (h : s₀.UpToDate) (fault : Option Nat) :
    (openSchema ⟨s₀, fault⟩).2.db = s₀ := by
  have hkeeps : Sql.Survives (fun s => s = s₀) openSchema (fun _ s => s = s₀)
      (fun s => s = s₀) := by
    have hE : ∀ s, s = s₀ → s = s₀ := fun _ heq => heq
    unfold openSchema runMigrations promoteIndex
    refine Sql.Survives.bind (Q := fun _ s => s = s₀) ?_ (fun _ => ?_)
    case refine_1 =>
      refine Sql.Survives.bind (Q := fun userVersion s => userVersion = 10 ∧ s = s₀)
        (Sql.Survives.query (fun s heq => ⟨heq ▸ h.1, heq⟩) hE) (fun userVersion => ?_)
      refine Sql.Survives.of_pre (fun huser => ?_)
      rw [huser, if_neg (by decide)]
      refine Sql.Survives.bind (Q := fun version s => version = 10 ∧ s = s₀)
        (Sql.Survives.query (fun s heq => ⟨if_neg (by simp), heq⟩) hE) (fun version => ?_)
      refine Sql.Survives.of_pre (fun hversion => ?_)
      refine Sql.Survives.bind (Q := fun _ s => s = s₀) ?_ (fun _ => ?_)
      · refine Sql.Survives.forEach (I := fun _ s => s = s₀) migrationSteps ?_
        intro done x rest hsplit
        have hx := version_of_split hsplit
        have hlen := congrArg List.length hsplit
        have h10 : migrationSteps.length = 10 := rfl
        rw [List.length_append, List.length_cons] at hlen
        exact Sql.Survives.whenever (fun hpos => absurd hpos (by omega)) (fun _ _ heq => heq)
      · refine Sql.Survives.execute (fun s heq => ⟨_, rfl, ?_⟩) hE
        rw [heq, show memorySchemaVersion = s₀.userVersion from h.1.symm]
    case refine_2 =>
      refine Sql.Survives.bind (Q := fun already s =>
        already = s₀.hasTable "schema_entity_id_unique" ∧ s = s₀)
        (Sql.Survives.query (fun s heq => ⟨heq ▸ rfl, heq⟩) hE) (fun already => ?_)
      refine Sql.Survives.of_pre (fun halready => ?_)
      cases already with
      | true =>
          rw [if_pos rfl]
          exact Sql.Survives.ok () hE
      | false =>
          rw [if_neg (by decide)]
          have hmarker := of_decide_eq_false halready.symm
          refine Sql.Survives.bind (Q := fun duplicates s => duplicates = true ∧ s = s₀)
            (Sql.Survives.query (fun s heq => ⟨heq ▸ h.2.resolve_left hmarker, heq⟩) hE)
            (fun duplicates => ?_)
          refine Sql.Survives.of_pre (fun hdup => ?_)
          rw [if_pos hdup]
          exact Sql.Survives.ok () hE
  rcases hkeeps ⟨s₀, fault⟩ rfl with ⟨_, _, hs, _⟩ | ⟨_, _, hs⟩
  · exact hs
  · exact hs

end Spelunk
