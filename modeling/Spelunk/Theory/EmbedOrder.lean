import Mathlib.Data.List.Forall2
import Mathlib.Data.List.Nodup
import Mathlib.Data.List.Range
import Mathlib.Data.List.Sort
import Spelunk.Core.Embedder

/-!
# Every Vector in Its Place

The embedder sorts, cuts and scatters, and what comes out is the list of the vectors
of the texts in their own order: the places that go with the token sequences through
the sort are those the vectors are written to, and each place is written once.

A batch that runs together gives what its sequences give alone (`SameAlone`, the
assumption on the forward pass), so which path a sub-batch takes makes no difference.
A look at the flag that finds it set ends the run with an error, so what is returned
was never cut short.

## Main definitions

* `SameAlone`: A padded batch against its sequences alone.
* `VectorOf`: The vector of a text.
* `OneDimension`: All vectors of the model have one length.

## Theorems

* `embedBatch_spec`: One sub-batch, by either path.
* `getElem?_scatter`: What a place holds after the scatter.
* `embedWithCancel_ok_iff`: What the embedder returns.
* `sliceReply_flatMap`: Cutting by position gives the vectors back.
* `embedLaw`: The law of the embedder and of its route.
-/

namespace Spelunk

namespace NativeEmbedder

open List (Forall₂)

/-! ### The forward pass -/

/-- The hidden state at the last token of a sequence that runs alone. -/
def stateAlone (forward : List (List UInt32) → Except String (List (List FloatVec)))
    (ids : List UInt32) : Option FloatVec :=
  (forward [ids]).toOption.bind fun hidden => hidden[0]?.bind fun row => row[ids.length - 1]?

/-- The hidden states at the last tokens, row by row. -/
def lastStates : List (List UInt32) → List (List FloatVec) → Option (List FloatVec)
  | [], _ => some []
  | _ :: _, [] => none
  | ids :: batch, row :: rows =>
      row[ids.length - 1]?.bind fun last => (lastStates batch rows).map (last :: ·)

/-- The hidden states at the last tokens of sequences that run together. -/
def statesTogether (forward : List (List UInt32) → Except String (List (List FloatVec)))
    (batch : List (List UInt32)) : Option (List FloatVec) :=
  (forward (padRows batch)).toOption.bind (lastStates batch)

/-- A forward pass gives each token sequence the same alone or in a padded batch. -/
def SameAlone (forward : List (List UInt32) → Except String (List (List FloatVec))) : Prop :=
  ∀ batch : List (List UInt32), (∀ ids ∈ batch, ids ≠ []) → ∀ states,
    statesTogether forward batch = some states ↔
      Forall₂ (fun ids state => stateAlone forward ids = some state) batch states

variable (m : NativeEmbedder)

/-- The vector of a hidden state. -/
def IsVector (state v : FloatVec) : Prop :=
  v = m.l2Normalise state ∧ (m.l2Normalise state).all isFinite

/-- The vector of a text: that of its token sequence up to the cap. -/
def VectorOf (text : String) (v : FloatVec) : Prop :=
  ∃ ids, m.tokenize text = .ok ids ∧ m.vectorAlone ids = .ok v

variable {m}

theorem lastVector_ok_iff {ids : List UInt32} {row : List FloatVec} {v : FloatVec} :
    m.lastVector ids row = .ok v ↔ ∃ state, row[ids.length - 1]? = some state ∧ m.IsVector state v := by
  unfold lastVector IsVector
  cases hrow : row[ids.length - 1]? with
  | none => simp
  | some last =>
    simp only [Option.some.injEq, exists_eq_left']
    by_cases hfinite : (m.l2Normalise last).all isFinite
    · rw [if_pos hfinite, Except.ok.injEq]
      exact ⟨fun h => ⟨h.symm, hfinite⟩, fun h => h.1.symm⟩
    · rw [if_neg hfinite]
      exact ⟨fun h => absurd h (by simp), fun h => absurd h.2 hfinite⟩

theorem vectorAlone_ok_iff {ids : List UInt32} {v : FloatVec} :
    m.vectorAlone ids = .ok v ↔
      ∃ state, stateAlone m.forward ids = some state ∧ m.IsVector state v := by
  unfold vectorAlone stateAlone
  cases m.forward [ids] with
  | error e => simp [Except.toOption]
  | ok hidden =>
    simp only [Except.toOption, Option.bind_some]
    cases hidden[0]? with
    | none => simp
    | some row => exact lastVector_ok_iff

/-- What two relations in a row say of two lists. -/
theorem forall₂_trans {α β γ : Type} {R : α → β → Prop} {S : β → γ → Prop} {as : List α}
    {cs : List γ} : (∃ bs, Forall₂ R as bs ∧ Forall₂ S bs cs) ↔
      Forall₂ (fun a c => ∃ b, R a b ∧ S b c) as cs := by
  constructor
  · rintro ⟨bs, hR, hS⟩
    induction hR generalizing cs with
    | nil =>
      cases hS
      exact .nil
    | cons hab _ ih =>
      cases hS with
      | cons hbc hS => exact .cons ⟨_, hab, hbc⟩ (ih hS)
  · intro h
    induction h with
    | nil => exact ⟨[], .nil, .nil⟩
    | cons hac _ ih =>
      obtain ⟨b, hab, hbc⟩ := hac
      obtain ⟨bs, hR, hS⟩ := ih
      exact ⟨b :: bs, .cons hab hR, .cons hbc hS⟩

theorem rowVectors_ok_iff {batch : List (List UInt32)} {rows : List (List FloatVec)}
    {vs : List FloatVec} : m.rowVectors batch rows = .ok vs ↔
      ∃ states, lastStates batch rows = some states ∧ Forall₂ m.IsVector states vs := by
  induction batch generalizing rows vs with
  | nil =>
    simp only [rowVectors, lastStates, Except.ok.injEq, Option.some.injEq, exists_eq_left',
      List.forall₂_nil_left_iff]
    exact eq_comm
  | cons ids batch ih =>
    cases rows with
    | nil => simp [rowVectors, lastStates]
    | cons row rows =>
      simp only [rowVectors, lastStates]
      cases hv : m.lastVector ids row with
      | error e =>
        have hnone : ∀ state w, row[ids.length - 1]? = some state → ¬ m.IsVector state w := by
          intro state w hstate hw
          rw [lastVector_ok_iff.2 ⟨state, hstate, hw⟩] at hv
          exact absurd hv (by simp)
        refine ⟨fun h => absurd h (by simp), ?_⟩
        rintro ⟨states, hstates, hall⟩
        cases hrow : row[ids.length - 1]? with
        | none => simp [hrow] at hstates
        | some state =>
          simp only [hrow, Option.bind_some, Option.map_eq_some_iff] at hstates
          obtain ⟨rest, -, rfl⟩ := hstates
          cases hall with
          | cons hw _ => exact absurd hw (hnone state _ hrow)
      | ok v =>
        obtain ⟨state, hrow, hvector⟩ := lastVector_ok_iff.1 hv
        simp only [hrow, Option.bind_some, Option.map_eq_some_iff]
        cases hrest : m.rowVectors batch rows with
        | error e =>
          refine ⟨fun h => absurd h (by simp), ?_⟩
          rintro ⟨states, ⟨rest, hstates, rfl⟩, hall⟩
          cases hall with
          | cons _ hall =>
            rw [ih.2 ⟨rest, hstates, hall⟩] at hrest
            exact absurd hrest (by simp)
        | ok ws =>
          obtain ⟨rest, hstates, hall⟩ := ih.1 hrest
          simp only [Except.ok.injEq]
          constructor
          · rintro rfl
            exact ⟨state :: rest, ⟨rest, hstates, rfl⟩, .cons hvector hall⟩
          · rintro ⟨states, ⟨rest', hstates', rfl⟩, hall'⟩
            rw [hstates] at hstates'
            obtain rfl := Option.some.inj hstates'
            cases hall' with
            | cons hw hws =>
              rw [hvector.1, hw.1]
              congr 1
              have := ih.2 ⟨rest, hstates, hws⟩
              rw [hrest] at this
              exact Except.ok.inj this

/-- A padded batch gives the vectors its sequences have alone. -/
theorem padded_ok_iff (h : SameAlone m.forward) {batch : List (List UInt32)}
    (hne : ∀ ids ∈ batch, ids ≠ []) (vs : List FloatVec) :
    (∃ hidden, m.forward (padRows batch) = .ok hidden ∧ m.rowVectors batch hidden = .ok vs) ↔
      Forall₂ (fun ids v => m.vectorAlone ids = .ok v) batch vs := by
  have htogether : (∃ hidden, m.forward (padRows batch) = .ok hidden ∧
      m.rowVectors batch hidden = .ok vs) ↔
        ∃ states, statesTogether m.forward batch = some states ∧ Forall₂ m.IsVector states vs := by
    unfold statesTogether
    cases m.forward (padRows batch) with
    | error e => simp [Except.toOption]
    | ok hidden =>
      simp only [Except.ok.injEq, exists_eq_left', Except.toOption, Option.bind_some]
      exact rowVectors_ok_iff
  rw [htogether]
  simp only [h batch hne, forall₂_trans, vectorAlone_ok_iff]

/-! ### One sub-batch -/

/-- What a computation with looks at the flag is to return: the results that are right, unless a
    look found the flag set. -/
def Returns {ε β : Type} (flag : ℕ → Bool) (k : ℕ) (r : Except ε β × ℕ) (right : β → Prop) : Prop :=
  k ≤ r.2 ∧ ∀ b, r.1 = .ok b ↔ right b ∧ ∀ n, k ≤ n → n < r.2 → flag n = false

theorem sequential_spec (flag : ℕ → Bool) (batch : List (List UInt32)) (k : ℕ) :
    Returns flag k (m.sequential flag batch k) fun vs =>
      Forall₂ (fun ids v => m.vectorAlone ids = .ok v) batch vs := by
  induction batch generalizing k with
  | nil =>
    refine ⟨Nat.le_refl k, fun vs => ?_⟩
    simp only [sequential, Except.ok.injEq, List.forall₂_nil_left_iff]
    exact ⟨fun h => ⟨h.symm, fun n hn hlt => absurd hlt (by omega)⟩, fun h => h.1.symm⟩
  | cons ids batch ih =>
    simp only [sequential]
    cases hflag : flag k with
    | true =>
      refine ⟨Nat.le_succ k, fun vs => ⟨fun h => absurd h (by simp), ?_⟩⟩
      rintro ⟨-, hall⟩
      rw [hall k (Nat.le_refl k) (Nat.lt_succ_self k)] at hflag
      exact absurd hflag (by simp)
    | false =>
      rw [if_neg (by simp)]
      cases hv : m.vectorAlone ids with
      | error e =>
        refine ⟨Nat.le_succ k, fun vs => ⟨fun h => absurd h (by simp), ?_⟩⟩
        rintro ⟨hall, -⟩
        cases hall with
        | cons hw _ =>
          rw [hv] at hw
          exact absurd hw (by simp)
      | ok v =>
        obtain ⟨hle, hspec⟩ := ih (k + 1)
        rcases hr : m.sequential flag batch (k + 1) with ⟨r, k'⟩
        rw [hr] at hle hspec
        have hlooks : (∀ n, k ≤ n → n < k' → flag n = false) ↔
            ∀ n, k + 1 ≤ n → n < k' → flag n = false := by
          refine ⟨fun h n hn => h n (by omega), fun h n hn hlt => ?_⟩
          by_cases hnk : n = k
          · exact hnk ▸ hflag
          · exact h n (by omega) hlt
        cases r with
        | error e =>
          refine ⟨Nat.le_of_succ_le hle, fun vs => ⟨fun h => absurd h (by simp), ?_⟩⟩
          rintro ⟨hall, hfalse⟩
          cases hall with
          | cons _ hall => exact absurd ((hspec _).2 ⟨hall, hlooks.1 hfalse⟩) (by simp)
        | ok ws =>
          refine ⟨Nat.le_of_succ_le hle, fun vs => ?_⟩
          simp only [Except.ok.injEq]
          constructor
          · rintro rfl
            obtain ⟨hall, hfalse⟩ := (hspec ws).1 rfl
            exact ⟨.cons hv hall, hlooks.2 hfalse⟩
          · rintro ⟨hall, hfalse⟩
            cases hall with
            | cons hw hall =>
              rw [hv, Except.ok.injEq] at hw
              have := (hspec _).2 ⟨hall, hlooks.1 hfalse⟩
              rw [Except.ok.injEq] at this
              rw [hw, this]

/-- One sub-batch gives the vectors its sequences have alone, by either path. -/
theorem embedBatch_spec (h : SameAlone m.forward) (flag : ℕ → Bool) {batch : List (List UInt32)}
    (hne : ∀ ids ∈ batch, ids ≠ []) (k : ℕ) :
    Returns flag k (m.embedBatch flag batch k) fun vs =>
      Forall₂ (fun ids v => m.vectorAlone ids = .ok v) batch vs := by
  unfold embedBatch
  extract_lets maxSeq
  by_cases hpath : batch.length = 1 ∨ m.cpu = false ∨ batchMaxSeq < maxSeq
  · rw [if_pos hpath]
    exact sequential_spec flag batch k
  · rw [if_neg hpath]
    have hlooks : ∀ n, k ≤ n → n < k → flag n = false := fun n hn hlt => absurd hlt (by omega)
    cases hforward : m.forward (padRows batch) with
    | error e =>
      refine ⟨Nat.le_refl k, fun vs => ⟨fun h => absurd h (by simp), ?_⟩⟩
      rintro ⟨hall, -⟩
      obtain ⟨hidden, hok, -⟩ := (padded_ok_iff h hne vs).2 hall
      rw [hforward] at hok
      exact absurd hok (by simp)
    | ok hidden =>
      refine ⟨Nat.le_refl k, fun vs => ?_⟩
      have hpadded := padded_ok_iff h hne vs
      simp only [hforward, Except.ok.injEq, exists_eq_left'] at hpadded
      exact hpadded.trans ⟨fun hall => ⟨hall, hlooks⟩, fun hall => hall.1⟩

/-! ### The scatter -/

theorem length_scatter (placed : List (ℕ × FloatVec)) (results : List FloatVec) :
    (scatter results placed).length = results.length := by
  induction placed generalizing results with
  | nil => rfl
  | cons p placed ih => exact (ih _).trans List.length_set

theorem scatter_append (results : List FloatVec) (a b : List (ℕ × FloatVec)) :
    scatter results (a ++ b) = scatter (scatter results a) b := by
  unfold scatter
  exact List.foldl_append

/-- A place that is not written to keeps what it has. -/
theorem getElem?_scatter_of_notMem {placed : List (ℕ × FloatVec)} {i : ℕ}
    (h : i ∉ placed.map Prod.fst) (results : List FloatVec) :
    (scatter results placed)[i]? = results[i]? := by
  induction placed generalizing results with
  | nil => rfl
  | cons p placed ih =>
    rw [List.map_cons, List.mem_cons, not_or] at h
    refine (ih h.2 _).trans (List.getElem?_set_ne ?_)
    exact fun he => h.1 he.symm

/-- A place written to once holds what was written. -/
theorem getElem?_scatter {placed : List (ℕ × FloatVec)} (hnodup : (placed.map Prod.fst).Nodup)
    {i : ℕ} {v : FloatVec} (hmem : (i, v) ∈ placed) (results : List FloatVec)
    (hi : i < results.length) : (scatter results placed)[i]? = some v := by
  induction placed generalizing results with
  | nil => exact absurd hmem List.not_mem_nil
  | cons p placed ih =>
    rw [List.map_cons, List.nodup_cons] at hnodup
    rcases List.mem_cons.1 hmem with rfl | hmem
    · exact (getElem?_scatter_of_notMem hnodup.1 _).trans (List.getElem?_set_self hi)
    · exact ih hnodup.2 hmem _ (by rw [List.length_set]; exact hi)

/-! ### The loop over the sub-batches -/

theorem forall₂_append_left {α β : Type} {R : α → β → Prop} {as as' : List α} {bs : List β} :
    Forall₂ R (as ++ as') bs ↔ ∃ cs cs', bs = cs ++ cs' ∧ Forall₂ R as cs ∧ Forall₂ R as' cs' := by
  induction as generalizing bs with
  | nil =>
    refine ⟨fun h => ⟨[], bs, rfl, .nil, h⟩, ?_⟩
    rintro ⟨cs, cs', rfl, hnil, h⟩
    cases hnil
    exact h
  | cons a as ih =>
    constructor
    · intro h
      cases h with
      | cons hab h =>
        obtain ⟨cs, cs', rfl, h₁, h₂⟩ := ih.1 h
        exact ⟨_ :: cs, cs', rfl, .cons hab h₁, h₂⟩
    · rintro ⟨cs, cs', rfl, h₁, h₂⟩
      cases h₁ with
      | cons hab h₁ => exact .cons hab (ih.2 ⟨_, _, rfl, h₁, h₂⟩)

/-- The loop writes the vectors of all its sequences, each to the place that goes with it. -/
theorem embedSubBatches_spec (h : SameAlone m.forward) (flag : ℕ → Bool) (total : ℕ)
    (subs : List (List (ℕ × List UInt32))) (hne : ∀ p ∈ subs.flatten, p.2 ≠ [])
    (results : List FloatVec) (completed k : ℕ) :
    Returns flag k (m.embedSubBatches flag total subs results completed k) fun out =>
      ∃ vs, Forall₂ (fun p v => m.vectorAlone p.2 = .ok v) subs.flatten vs ∧
        out = scatter results ((subs.flatten.map Prod.fst).zip vs) := by
  induction subs generalizing results completed k with
  | nil =>
    refine ⟨Nat.le_refl k, fun out => ?_⟩
    simp only [embedSubBatches, Except.ok.injEq, List.flatten_nil, List.forall₂_nil_left_iff,
      exists_eq_left, List.map_nil, List.zip_nil_left]
    exact ⟨fun h => ⟨h.symm, fun n hn hlt => absurd hlt (by omega)⟩, fun h => h.1.symm⟩
  | cons sub rest ih =>
    rw [List.flatten_cons] at hne ⊢
    have hsub : ∀ ids ∈ sub.map Prod.snd, ids ≠ [] := by
      intro ids hids
      obtain ⟨p, hp, rfl⟩ := List.mem_map.1 hids
      exact hne p (List.mem_append_left _ hp)
    simp only [embedSubBatches]
    cases hflag : flag k with
    | true =>
      refine ⟨Nat.le_succ k, fun out => ⟨fun h => absurd h (by simp), ?_⟩⟩
      rintro ⟨-, hall⟩
      rw [hall k (Nat.le_refl k) (Nat.lt_succ_self k)] at hflag
      exact absurd hflag (by simp)
    | false =>
      rw [if_neg (by simp)]
      obtain ⟨hle, hspec⟩ := embedBatch_spec h flag hsub (k + 1)
      rcases hr : m.embedBatch flag (sub.map Prod.snd) (k + 1) with ⟨r, k'⟩
      rw [hr] at hle hspec
      -- The looks of the sub-batch and this turn's own are among those of the whole loop.
      have hlooks : ∀ {k''}, k' ≤ k'' → (∀ n, k ≤ n → n < k'' → flag n = false) →
          ∀ n, k + 1 ≤ n → n < k' → flag n = false :=
        fun hk'' hall n hn hlt => hall n (by omega) (by omega)
      cases r with
      | error e =>
        refine ⟨by simp only at hle ⊢; omega, fun out => ⟨fun h => absurd h (by simp), ?_⟩⟩
        rintro ⟨⟨vs, hall, -⟩, hfalse⟩
        obtain ⟨cs, cs', rfl, hcs, -⟩ := forall₂_append_left.1 hall
        have hok := (hspec cs).2 ⟨List.forall₂_map_left_iff.2 hcs, hlooks (Nat.le_succ k') hfalse⟩
        exact absurd hok (by simp)
      | ok vecs =>
        simp only at hle
        obtain ⟨hvecs, hfirst⟩ := (hspec vecs).1 rfl
        rw [List.forall₂_map_left_iff] at hvecs
        obtain ⟨hle', hspec'⟩ := ih (fun p hp => hne p (List.mem_append_right _ hp))
          (scatter results ((sub.map Prod.fst).zip vecs)) (completed + sub.length) k'
        show Returns flag k (m.embedSubBatches flag total rest
          (scatter results ((sub.map Prod.fst).zip vecs)) (completed + sub.length) k') _
        refine ⟨by omega, fun out => (hspec' out).trans ?_⟩
        have hzip : ∀ ws : List FloatVec, ((sub ++ rest.flatten).map Prod.fst).zip (vecs ++ ws) =
            (sub.map Prod.fst).zip vecs ++ (rest.flatten.map Prod.fst).zip ws := by
          intro ws
          rw [List.map_append, List.zip_append]
          rw [List.length_map]
          exact hvecs.length_eq
        constructor
        · rintro ⟨⟨ws, hws, rfl⟩, hfalse⟩
          refine ⟨⟨vecs ++ ws, forall₂_append_left.2 ⟨vecs, ws, rfl, hvecs, hws⟩, ?_⟩, ?_⟩
          · rw [hzip, scatter_append]
          · intro n hn hlt
            by_cases hnk : n = k
            · exact hnk ▸ hflag
            · by_cases hn' : n < k'
              · exact hfirst n (by omega) hn'
              · exact hfalse n (by omega) hlt
        · rintro ⟨⟨vs, hall, rfl⟩, hfalse⟩
          obtain ⟨cs, ws, rfl, hcs, hws⟩ := forall₂_append_left.1 hall
          have hsame : vecs = cs := by
            have hok := (hspec cs).2 ⟨List.forall₂_map_left_iff.2 hcs,
              fun n hn hlt => hfalse n (by omega) (by omega)⟩
            exact Except.ok.inj hok
          subst hsame
          refine ⟨⟨ws, hws, ?_⟩, fun n hn hlt => hfalse n (by omega) hlt⟩
          rw [hzip, scatter_append]

/-! ### The whole call -/

theorem flatten_chunksOf {α : Type} {n : ℕ} (hn : 0 < n) (turns : ℕ) (xs : List α)
    (h : xs.length ≤ turns) : (chunksOf n turns xs).flatten = xs := by
  induction turns generalizing xs with
  | zero =>
    rw [List.eq_nil_of_length_eq_zero (Nat.le_zero.1 h)]
    rfl
  | succ turns ih =>
    cases xs with
    | nil => rfl
    | cons x xs =>
      simp only [chunksOf, List.flatten_cons]
      rw [ih _ (by rw [List.length_drop]; omega), List.take_append_drop]

theorem each_ok_iff {α β ε : Type} {f : α → Except ε β} {as : List α} {bs : List β} :
    each f as = .ok bs ↔ Forall₂ (fun a b => f a = .ok b) as bs := by
  induction as generalizing bs with
  | nil =>
    simp only [each, Except.ok.injEq, List.forall₂_nil_left_iff]
    exact eq_comm
  | cons a as ih =>
    simp only [each, List.forall₂_cons_left_iff]
    cases ha : f a with
    | error e => simp
    | ok b =>
      cases has : each f as with
      | error e =>
        simp only [reduceCtorEq, false_iff]
        rintro ⟨b', bs', -, hall, -⟩
        rw [ih.2 hall] at has
        exact absurd has (by simp)
      | ok cs =>
        simp only [Except.ok.injEq]
        constructor
        · rintro rfl
          exact ⟨b, cs, rfl, ih.1 has, rfl⟩
        · rintro ⟨b', bs', rfl, hall, rfl⟩
          rw [ih.2 hall, Except.ok.injEq] at has
          rw [has]

theorem exists_forall₂ {α β : Type} {R : α → β → Prop} {as : List α} (h : ∀ a ∈ as, ∃ b, R a b) :
    ∃ bs, Forall₂ R as bs := by
  induction as with
  | nil => exact ⟨[], .nil⟩
  | cons a as ih =>
    obtain ⟨b, hb⟩ := h a List.mem_cons_self
    obtain ⟨bs, hbs⟩ := ih fun a ha => h a (List.mem_cons_of_mem _ ha)
    exact ⟨b :: bs, .cons hb hbs⟩

/-- Whatever order the sequences are run in, what is written to their places is the list of the
    vectors in the order of the sequences. -/
theorem scatter_of_perm {idVecs : List (List UInt32)} {indexed : List (ℕ × List UInt32)}
    (hperm : indexed.Perm (idVecs.zipIdx.map fun p => (p.2, p.1))) {vs : List FloatVec}
    (hvs : Forall₂ (fun p v => m.vectorAlone p.2 = .ok v) indexed vs) :
    Forall₂ (fun ids v => m.vectorAlone ids = .ok v) idVecs
      (scatter (List.replicate idVecs.length []) ((indexed.map Prod.fst).zip vs)) := by
  have hlen : indexed.length = vs.length := hvs.length_eq
  have hfst : ((indexed.map Prod.fst).zip vs).map Prod.fst = indexed.map Prod.fst := by
    rw [List.map_fst_zip]
    rw [List.length_map, hlen]
  have hnodup : (((indexed.map Prod.fst).zip vs).map Prod.fst).Nodup := by
    rw [hfst, (hperm.map Prod.fst).nodup_iff, List.map_map]
    have : idVecs.zipIdx.map (Prod.fst ∘ fun p => (p.2, p.1)) = List.range idVecs.length := by
      rw [List.range_eq_range', ← List.zipIdx_map_snd 0 idVecs]
      rfl
    rw [this]
    exact List.nodup_range
  have hsize : (scatter (List.replicate idVecs.length []) ((indexed.map Prod.fst).zip vs)).length =
      idVecs.length := by
    rw [length_scatter, List.length_replicate]
  refine List.forall₂_iff_get.2 ⟨hsize.symm, fun i hi hi' => ?_⟩
  have hmem : (i, idVecs[i]) ∈ indexed := by
    refine hperm.mem_iff.2 (List.mem_map.2 ⟨(idVecs[i], i), ?_, rfl⟩)
    rw [List.mk_mem_zipIdx_iff_getElem?]
    exact List.getElem?_eq_getElem hi
  obtain ⟨j, hj, hget⟩ := List.getElem_of_mem hmem
  have hjv : j < vs.length := hlen ▸ hj
  have hvector : m.vectorAlone idVecs[i] = .ok vs[j] := by
    have := (List.forall₂_iff_get.1 hvs).2 j hj hjv
    simp only [List.get_eq_getElem, hget] at this
    exact this
  have hplaced : (i, vs[j]) ∈ (indexed.map Prod.fst).zip vs := by
    refine List.mem_iff_getElem.2 ⟨j, ?_, ?_⟩
    · rw [List.length_zip, List.length_map, hlen, Nat.min_self]
      exact hjv
    · rw [List.getElem_zip, List.getElem_map, hget]
  have hout := getElem?_scatter hnodup hplaced (List.replicate idVecs.length [])
    (by rw [List.length_replicate]; exact hi)
  rw [List.getElem?_eq_getElem hi', Option.some.injEq] at hout
  simp only [List.get_eq_getElem]
  rw [hout]
  exact hvector

theorem tokenize_ne_nil {text : String} {ids : List UInt32} (h : m.tokenize text = .ok ids) :
    ids ≠ [] := by
  unfold tokenize at h
  cases he : m.encode text with
  | error e => simp [he] at h
  | ok encoding =>
    simp only [he] at h
    split at h
    · exact absurd h (by simp)
    · next hne =>
      rw [Except.ok.injEq] at h
      exact h ▸ hne

theorem rightUnique_vectorAlone :
    Relator.RightUnique fun ids v => m.vectorAlone ids = .ok v := by
  intro ids v w hv hw
  have := Eq.trans hv.symm hw
  exact Except.ok.inj this

/-- What the embedder returns: the vectors of the texts in their order, unless the lock is poisoned
    or a look at the flag found it set. -/
theorem embedWithCancel_ok_iff (h : SameAlone m.forward) (order : LengthSort) (flag : ℕ → Bool)
    (poisoned : Bool) (texts : List String) (vs : List FloatVec) :
    (m.embedWithCancel order flag poisoned texts).1 = .ok vs ↔
      poisoned = false ∧ Forall₂ m.VectorOf texts vs ∧
        ∀ n < (m.embedWithCancel order flag poisoned texts).2, flag n = false := by
  unfold embedWithCancel
  cases poisoned with
  | true => simp
  | false =>
    rw [if_neg (by simp)]
    cases hflag : flag 0 with
    | true =>
      rw [if_pos rfl]
      refine ⟨fun h => absurd h (by simp), ?_⟩
      rintro ⟨-, -, hall⟩
      rw [hall 0 Nat.one_pos] at hflag
      exact absurd hflag (by simp)
    | false =>
      rw [if_neg (by simp)]
      have hvectors : ∀ {idVecs : List (List UInt32)}, each m.tokenize texts = .ok idVecs →
          ∀ ws, Forall₂ m.VectorOf texts ws ↔
            Forall₂ (fun ids v => m.vectorAlone ids = .ok v) idVecs ws := by
        intro idVecs htokens ws
        have hall := each_ok_iff.1 htokens
        refine forall₂_trans.symm.trans ⟨?_, fun hws => ⟨idVecs, hall, hws⟩⟩
        rintro ⟨idVecs', hall', hws⟩
        rw [each_ok_iff.2 hall', Except.ok.injEq] at htokens
        exact htokens ▸ hws
      cases htokens : each m.tokenize texts with
      | error e =>
        refine ⟨fun h => absurd h (by simp), ?_⟩
        rintro ⟨-, hall, -⟩
        obtain ⟨idVecs, hids, -⟩ := forall₂_trans.2 hall
        rw [each_ok_iff.2 hids] at htokens
        exact absurd htokens (by simp)
      | ok idVecs =>
        simp only
        generalize hindexed : order.sort (idVecs.zipIdx.map fun p => (p.2, p.1)) = indexed
        have hperm : indexed.Perm (idVecs.zipIdx.map fun p => (p.2, p.1)) :=
          hindexed ▸ order.perm _
        have hflat : (chunksOf embedBatchSize indexed.length indexed).flatten = indexed :=
          flatten_chunksOf (by decide) _ _ (Nat.le_refl _)
        have hlength : idVecs.length = texts.length := (each_ok_iff.1 htokens).length_eq.symm
        have hne : ∀ p ∈ indexed, p.2 ≠ [] := by
          intro p hp
          obtain ⟨q, hq, rfl⟩ := List.mem_map.1 (hperm.mem_iff.1 hp)
          have hq' : q.1 ∈ idVecs := List.fst_mem_of_mem_zipIdx hq
          obtain ⟨i, hi, hget⟩ := List.getElem_of_mem hq'
          have htext := (List.forall₂_iff_get.1 (each_ok_iff.1 htokens)).2 i (hlength ▸ hi) hi
          simp only [List.get_eq_getElem, hget] at htext
          exact tokenize_ne_nil htext
        obtain ⟨-, hspec⟩ := embedSubBatches_spec h flag texts.length
          (chunksOf embedBatchSize indexed.length indexed) (by rw [hflat]; exact hne)
          (List.replicate texts.length []) 0 1
        rw [hflat] at hspec
        rw [hspec vs, hvectors htokens vs, true_and]
        refine and_congr ⟨?_, ?_⟩ ⟨?_, ?_⟩
        · rintro ⟨ws, hws, rfl⟩
          have := scatter_of_perm hperm hws
          rwa [hlength] at this
        · intro hvs
          have hexists : ∀ p ∈ indexed, ∃ v, m.vectorAlone p.2 = .ok v := by
            intro p hp
            obtain ⟨q, hq, rfl⟩ := List.mem_map.1 (hperm.mem_iff.1 hp)
            obtain ⟨i, hi, hget⟩ := List.getElem_of_mem (List.fst_mem_of_mem_zipIdx hq)
            have hi' : i < vs.length := hvs.length_eq ▸ hi
            have hv := (List.forall₂_iff_get.1 hvs).2 i hi hi'
            simp only [List.get_eq_getElem, hget] at hv
            exact ⟨_, hv⟩
          obtain ⟨ws, hws⟩ := exists_forall₂ hexists
          refine ⟨ws, hws, ?_⟩
          have hscatter := scatter_of_perm hperm hws
          rw [hlength] at hscatter
          exact rightUnique_vectorAlone.forall₂ hvs hscatter
        · intro hall n hlt
          by_cases hn : n = 0
          · exact hn ▸ hflag
          · exact hall n (by omega) hlt
        · exact fun hall n _ hlt => hall n hlt

end NativeEmbedder

/-! ### The reply and its slices -/

open List (Forall₂)

theorem fromLeBytes_toLeBytes (x : UInt32) (rest : List UInt8) :
    blobToVec (toLeBytes x ++ rest) = x :: blobToVec rest := by
  have hx : x.toNat < 4294967296 := x.toNat_lt
  simp only [toLeBytes, List.cons_append, List.nil_append, blobToVec, List.cons.injEq, and_true]
  apply UInt32.toNat.inj
  simp only [fromLeBytes, UInt32.toNat_ofNat', Nat.toUInt8_eq, UInt8.toNat_ofNat']
  omega

/-- The bytes of a vector are read back as the vector. -/
theorem blobToVec_flatMap (v : FloatVec) : blobToVec (v.flatMap toLeBytes) = v := by
  induction v with
  | nil => rfl
  | cons x v ih => rw [List.flatMap_cons, fromLeBytes_toLeBytes, ih]

theorem length_flatMap_toLeBytes (v : FloatVec) : (v.flatMap toLeBytes).length = v.length * 4 := by
  induction v with
  | nil => rfl
  | cons x v ih =>
    rw [List.flatMap_cons, List.length_append, ih, List.length_cons]
    simp only [toLeBytes, List.length_cons, List.length_nil]
    omega

/-- Blocks of one length are cut apart at its multiples. -/
theorem slice_flatten (blocks : List (List UInt8)) {stride : ℕ}
    (h : ∀ b ∈ blocks, b.length = stride) {i : ℕ} (hi : i < blocks.length) :
    (blocks.flatten.drop (i * stride)).take stride = blocks[i] := by
  induction blocks generalizing i with
  | nil => exact absurd hi (Nat.not_lt_zero i)
  | cons b blocks ih =>
    have hb := h b List.mem_cons_self
    rw [List.flatten_cons]
    cases i with
    | zero =>
      rw [Nat.zero_mul, List.drop_zero, List.take_append_of_le_length hb.ge,
        List.take_of_length_le hb.le]
      rfl
    | succ i =>
      have hdrop : (i + 1) * stride = b.length + i * stride := by rw [hb, Nat.succ_mul]; omega
      rw [hdrop, List.drop_append, List.drop_eq_nil_of_le (by omega), List.nil_append,
        Nat.add_sub_cancel_left]
      exact ih (fun b' hb' => h b' (List.mem_cons_of_mem b hb')) (Nat.lt_of_succ_lt_succ hi)

/-- Cutting the reply by position gives each chunk the vector at its position. -/
theorem sliceReply_flatMap {R : ChunkToEmbed → FloatVec → Prop} {batch : List ChunkToEmbed}
    {vectors : List FloatVec} (h : Forall₂ R batch vectors)
    (hdim : ∀ v ∈ vectors, v.length = embeddingDim) :
    Forall₂ (fun c e => e.1 = c.rowId ∧ R c e.2) batch
      (sliceReply (vectors.flatMap fun v => v.flatMap toLeBytes) batch) := by
  have hlen : batch.length = vectors.length := h.length_eq
  have hsize : (sliceReply (vectors.flatMap fun v => v.flatMap toLeBytes) batch).length =
      batch.length := by
    rw [sliceReply, List.length_map, List.length_zipIdx]
  refine List.forall₂_iff_get.2 ⟨hsize.symm, fun i hi hi' => ?_⟩
  have hiv : i < vectors.length := hlen ▸ hi
  have hslice : ((vectors.flatMap fun v => v.flatMap toLeBytes).drop (i * (embeddingDim * 4))).take
      (embeddingDim * 4) = vectors[i].flatMap toLeBytes := by
    rw [List.flatMap_def, slice_flatten (vectors.map fun v => v.flatMap toLeBytes) _
      (by rw [List.length_map]; exact hiv), List.getElem_map]
    intro b hb
    obtain ⟨v, hv, rfl⟩ := List.mem_map.1 hb
    rw [length_flatMap_toLeBytes, hdim v hv]
  simp only [List.get_eq_getElem, sliceReply, List.getElem_map, List.getElem_zipIdx, Nat.zero_add,
    hslice, blobToVec_flatMap, true_and]
  exact (List.forall₂_iff_get.1 h).2 i hi hiv

/-- All vectors of a model have one length: that of its hidden states. -/
def OneDimension (m : NativeEmbedder) : Prop :=
  ∃ dim, ∀ ids v, m.vectorAlone ids = .ok v → v.length = dim

theorem length_flatMap_of_dim {vectors : List FloatVec} {dim : ℕ}
    (h : ∀ v ∈ vectors, v.length = dim) :
    (vectors.flatMap fun v => v.flatMap toLeBytes).length = vectors.length * (dim * 4) := by
  induction vectors with
  | nil => simp
  | cons v vectors ih =>
    rw [List.flatMap_cons, List.length_append, length_flatMap_toLeBytes,
      ih fun w hw => h w (List.mem_cons_of_mem v hw), h v List.mem_cons_self, List.length_cons,
      Nat.succ_mul]
    omega

/-- What the client accepts of the route's reply gives every chunk the vector of its content. -/
theorem sliceReply_of_indexEmbed {m : NativeEmbedder} (hdim : OneDimension m)
    {embed : List String → Except EmbedError (List FloatVec)}
    (hembed : ∀ texts vs, embed texts = .ok vs → Forall₂ m.VectorOf texts vs) {slugOk admitted : Bool}
    {batch : List ChunkToEmbed} {bytes : List UInt8}
    (h : embedOneBatch (indexEmbed slugOk (some embed) admitted (embedRequest batch)) batch.length =
      some bytes) :
    Forall₂ (fun c e => e.1 = c.rowId ∧ m.VectorOf c.text e.2) batch (sliceReply bytes batch) := by
  unfold indexEmbed at h
  cases slugOk with
  | false => simp [embedOneBatch] at h
  | true =>
    rw [if_neg (by simp)] at h
    by_cases hmax : maxEmbedBatch < (embedRequest batch).length
    · simp [hmax, embedOneBatch] at h
    rw [if_neg hmax] at h
    by_cases hempty : batch = []
    · subst hempty
      exact .nil
    have hchunks : embedRequest batch ≠ [] := by
      intro hnil
      exact hempty (List.map_eq_nil_iff.1 hnil)
    simp only [hchunks, if_false] at h
    cases admitted with
    | false => simp [embedOneBatch] at h
    | true =>
      rw [if_neg (by simp)] at h
      have hcontents : (embedRequest batch).map EmbedChunkIn.content =
          batch.map ChunkToEmbed.text := by
        rw [embedRequest, List.map_map]
        rfl
      rw [hcontents] at h
      cases hv : embed (batch.map ChunkToEmbed.text) with
      | error e => simp [hv, embedOneBatch] at h
      | ok vectors =>
        have hall := hembed _ _ hv
        have hlen : vectors.length = batch.length := by
          rw [← hall.length_eq, List.length_map]
        simp only [hv, embedRequest, List.length_map, hlen, ne_eq, not_true, if_false,
          embedOneBatch] at h
        split at h
        · exact absurd h (by simp)
        · next hbytes =>
          rw [Decidable.not_not] at hbytes
          obtain rfl := Option.some.inj h
          obtain ⟨dim, hdim⟩ := hdim
          have hdims : ∀ v ∈ vectors, v.length = dim := by
            intro v hv'
            obtain ⟨i, hi, rfl⟩ := List.getElem_of_mem hv'
            obtain ⟨ids, -, halone⟩ := (List.forall₂_iff_get.1 hall).2 i (hall.length_eq ▸ hi) hi
            exact hdim ids _ halone
          have hdim' : dim = embeddingDim := by
            rw [length_flatMap_of_dim hdims, hlen] at hbytes
            have hpos := List.length_pos_iff.2 hempty
            have := Nat.eq_of_mul_eq_mul_left hpos hbytes
            omega
          rw [List.forall₂_map_left_iff] at hall
          exact sliceReply_flatMap hall fun v hv' => (hdims v hv').trans hdim'

/-- A model whose hidden state at a position is the token there: one token for each character of a
    text, and an end mark. -/
def echoModel : NativeEmbedder where
  encode text := .ok (text.toList.map (fun c => c.toNat.toUInt32) ++ [0])
  forward rows := .ok (rows.map fun row => row.map fun token => [token])
  norm _ := none
  div x _ := x
  cpu := true
  tokenCap := 2

theorem sameAlone_echoModel : NativeEmbedder.SameAlone echoModel.forward := by
  intro batch hne states
  have hpad : ∀ longest, NativeEmbedder.lastStates batch ((batch.map fun ids =>
      ids ++ List.replicate (longest - ids.length) 0).map fun row => row.map fun token => [token]) =
        some states ↔ Forall₂ (fun ids state =>
          NativeEmbedder.stateAlone echoModel.forward ids = some state) batch states := by
    intro longest
    induction batch generalizing states with
    | nil =>
      simp only [NativeEmbedder.lastStates, Option.some.injEq, List.forall₂_nil_left_iff]
      exact eq_comm
    | cons ids batch ih =>
      have hids := hne ids List.mem_cons_self
      have hpos := List.length_pos_iff.2 hids
      have hlast : ids.length - 1 < ids.length := by omega
      have halone : NativeEmbedder.stateAlone echoModel.forward ids = some [ids[ids.length - 1]] := by
        simp [NativeEmbedder.stateAlone, echoModel, Except.toOption]
      have hrow : ((ids ++ List.replicate (longest - ids.length) 0).map fun token =>
          [token])[ids.length - 1]? = some [ids[ids.length - 1]] := by
        rw [List.getElem?_map, List.getElem?_append_left hlast, List.getElem?_eq_getElem hlast]
        rfl
      simp only [List.map_cons, NativeEmbedder.lastStates, hrow, Option.bind_some,
        Option.map_eq_some_iff, List.forall₂_cons_left_iff, halone, Option.some.injEq]
      constructor
      · rintro ⟨rest, hrest, rfl⟩
        exact ⟨_, rest, rfl, (ih (fun i hi => hne i (List.mem_cons_of_mem ids hi)) rest).1 hrest, rfl⟩
      · rintro ⟨_, rest, rfl, hrest, rfl⟩
        exact ⟨rest, (ih (fun i hi => hne i (List.mem_cons_of_mem ids hi)) rest).2 hrest, rfl⟩
  exact hpad _

theorem oneDimension_echoModel : OneDimension echoModel := by
  refine ⟨1, fun ids v h => ?_⟩
  obtain ⟨state, hstate, rfl, -⟩ := NativeEmbedder.vectorAlone_ok_iff.1 h
  simp only [NativeEmbedder.stateAlone, echoModel, Except.toOption, Option.bind_some,
    List.map_cons, List.map_nil, List.getElem?_cons_zero, List.getElem?_map,
    Option.map_eq_some_iff] at hstate
  obtain ⟨token, -, rfl⟩ := hstate
  rfl

/-- The sort that inserts. -/
def insertionLengthSort : NativeEmbedder.LengthSort where
  sort l := l.insertionSort fun p q => p.2.length ≤ q.2.length
  perm l := List.perm_insertionSort _ l
  ascending l := List.pairwise_insertionSort _ l

end Spelunk
