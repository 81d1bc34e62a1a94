import Mathlib.Data.List.Induction
import Mathlib.Tactic.NormNum
import Spelunk.Core.Rag
import Spelunk.Lib.UniqueIndex

/-!
# The Activation of Symbols

What stage 1 of LinearRAG comes to: a symbol is activated if a chunk of the pool whose
similarity is above the threshold mentions it, and its activation is the greatest
similarity of such a chunk. The rounds that follow raise nothing, since the activations
are these maxima from the start. So the activations are a function of the pool and the
index, up to the order in which they are gone through.

## Main definitions

* `CodeDb.Mentions`: A chunk mentions or calls a symbol.
* `Activation`: What the activations are.

## Theorems

* `activation_activate`: The first pass gives them.
* `propagate_eq_self`: The rounds leave them.
* `activation_ragActivation`: The activations of a search.
* `Activation.perm`: They are determined.
-/

namespace Spelunk

open Lib (exists_mem_multimap lookup_of_mem)

/-! ### Mentions -/

section Mentions

variable {R : Type}

/-- A chunk mentions or calls a symbol. -/
def CodeDb.Mentions (db : CodeDb R) (c : ℕ) (s : String) : Prop :=
  ∃ r ∈ db.filedChunks, r.id = c ∧ ∃ e ∈ db.edges, r.mentionedBy e ∧ e.targetName = s

/-- The pairs of a map from chunks to symbols. -/
def mentionPairs (mentions : List (ℕ × List String)) : List (ℕ × String) :=
  mentions.flatMap fun m => m.2.map fun sym => (m.1, sym)

theorem mem_mentionPairs {mentions : List (ℕ × List String)} {c : ℕ} {s : String} :
    (c, s) ∈ mentionPairs mentions ↔ ∃ m ∈ mentions, m.1 = c ∧ s ∈ m.2 := by
  unfold mentionPairs
  simp only [List.mem_flatMap, List.mem_map, Prod.mk.injEq]
  constructor
  · rintro ⟨m, hm, sym, hsym, rfl, rfl⟩
    exact ⟨m, hm, rfl, hsym⟩
  · rintro ⟨m, hm, rfl, hs⟩
    exact ⟨m, hm, s, hs, rfl, rfl⟩

/-- The join from chunks to symbols. -/
theorem mem_mentionEdgesForChunks {db : CodeDb R} {ids : List ℕ} {c : ℕ} {s : String} :
    (∃ m ∈ db.mentionEdgesForChunks ids, m.1 = c ∧ s ∈ m.2) ↔ c ∈ ids ∧ db.Mentions c s := by
  unfold CodeDb.mentionEdgesForChunks
  rw [exists_mem_multimap]
  simp only [List.mem_flatMap, List.mem_map, List.mem_filter, decide_eq_true_eq, Prod.mk.injEq]
  constructor
  · rintro ⟨r, ⟨hr, hid⟩, e, ⟨he, hmention⟩, rfl, rfl⟩
    exact ⟨hid, r, hr, rfl, e, he, hmention, rfl⟩
  · rintro ⟨hid, r, hr, rfl, e, he, hmention, rfl⟩
    exact ⟨r, ⟨hr, hid⟩, e, ⟨he, hmention⟩, rfl, rfl⟩

/-- The join from symbols to chunks. -/
theorem mem_chunksMentioningSymbols {db : CodeDb R} {symbols : List String} {c : ℕ} {s : String} :
    (∃ m ∈ db.chunksMentioningSymbols symbols, m.1 = s ∧ c ∈ m.2) ↔
      s ∈ symbols ∧ db.Mentions c s := by
  unfold CodeDb.chunksMentioningSymbols
  rw [exists_mem_multimap]
  simp only [List.mem_flatMap, List.mem_map, List.mem_filter, decide_eq_true_eq, Prod.mk.injEq]
  constructor
  · rintro ⟨e, ⟨he, hsym⟩, r, ⟨hr, hmention⟩, rfl, rfl⟩
    exact ⟨hsym, r, hr, rfl, e, he, hmention, rfl⟩
  · rintro ⟨hsym, r, hr, rfl, e, he, hmention, rfl⟩
    exact ⟨e, ⟨he, hsym⟩, r, ⟨hr, hmention⟩, rfl, rfl⟩

end Mentions

/-! ### Activations -/

/-- The similarity of a chunk; zero outside the pool. -/
def simOf (knn : List (ℕ × ℚ)) (c : ℕ) : ℚ := (knn.lookup c).getD 0

/-- Each symbol that a chunk above the threshold mentions, once, with the greatest similarity of
    such a chunk. -/
structure Activation (knn : List (ℕ × ℚ)) (mentions : ℕ → String → Prop) (aq : List (String × ℚ)) :
    Prop where
  nodup : (aq.map Prod.fst).Nodup
  upper : ∀ c s, mentions c s → entityThreshold < simOf knn c →
    ∃ q ∈ aq, q.1 = s ∧ simOf knn c ≤ q.2
  attained : ∀ q ∈ aq, ∃ c, mentions c q.1 ∧ entityThreshold < simOf knn c ∧ q.2 = simOf knn c

section Activations

variable {knn : List (ℕ × ℚ)} {mentions mentions' : ℕ → String → Prop} {aq aq' : List (String × ℚ)}

theorem eq_of_key {q q' : String × ℚ} (h : (aq.map Prod.fst).Nodup) (hq : q ∈ aq) (hq' : q' ∈ aq)
    (hkey : q.1 = q'.1) : q = q' := List.inj_on_of_nodup_map h hq hq' hkey

theorem Activation.congr (h : Activation knn mentions aq)
    (hiff : ∀ c s, mentions c s ↔ mentions' c s) : Activation knn mentions' aq where
  nodup := h.nodup
  upper c s hm := h.upper c s ((hiff c s).2 hm)
  attained q hq := by
    obtain ⟨c, hm, hrest⟩ := h.attained q hq
    exact ⟨c, (hiff c q.1).1 hm, hrest⟩

theorem Activation.of_perm (h : Activation knn mentions aq) (hperm : aq'.Perm aq) :
    Activation knn mentions aq' where
  nodup := (hperm.map Prod.fst).nodup_iff.2 h.nodup
  upper c s hm hsim := by
    obtain ⟨q, hq, hrest⟩ := h.upper c s hm hsim
    exact ⟨q, hperm.mem_iff.2 hq, hrest⟩
  attained q hq := h.attained q (hperm.mem_iff.1 hq)

/-- They are determined. -/
theorem Activation.perm (h : Activation knn mentions aq) (h' : Activation knn mentions aq') :
    aq.Perm aq' := by
  have hmem : ∀ {aq aq' : List (String × ℚ)}, Activation knn mentions aq →
      Activation knn mentions aq' → ∀ q ∈ aq, q ∈ aq' := by
    intro aq aq' h h' q hq
    obtain ⟨c, hm, hsim, hval⟩ := h.attained q hq
    obtain ⟨q', hq', hkey, hle⟩ := h'.upper c q.1 hm hsim
    obtain ⟨c', hm', hsim', hval'⟩ := h'.attained q' hq'
    obtain ⟨q'', hq'', hkey'', hle''⟩ := h.upper c' q'.1 hm' hsim'
    have hsame : q'' = q := eq_of_key h.nodup hq'' hq (hkey''.trans hkey)
    have hvalues : q'.2 = q.2 := le_antisymm (hval' ▸ hsame ▸ hle'') (hval ▸ hle)
    exact (Prod.ext hkey.symm hvalues.symm : q = q') ▸ hq'
  exact (List.perm_ext_iff_of_nodup (List.Nodup.of_map _ h.nodup)
    (List.Nodup.of_map _ h'.nodup)).2 fun q => ⟨hmem h h' q, hmem h' h q⟩

theorem Activation.ne_nil_iff (h : Activation knn mentions aq) :
    aq ≠ [] ↔ ∃ c s, mentions c s ∧ entityThreshold < simOf knn c := by
  constructor
  · intro hne
    obtain ⟨q, hq⟩ := List.exists_mem_of_ne_nil aq hne
    obtain ⟨c, hm, hsim, -⟩ := h.attained q hq
    exact ⟨c, q.1, hm, hsim⟩
  · rintro ⟨c, s, hm, hsim⟩ rfl
    obtain ⟨q, hq, -⟩ := h.upper c s hm hsim
    exact absurd hq List.not_mem_nil

/-- One mention of a chunk above the threshold. -/
theorem Activation.raise {c : ℕ} {s : String} (h : Activation knn mentions aq)
    (hsim : entityThreshold < simOf knn c) :
    Activation knn (fun c' s' => mentions c' s' ∨ (c' = c ∧ s' = s))
      (raise aq s (simOf knn c)) := by
  have hpos : max 0 (simOf knn c) = simOf knn c := by
    refine max_eq_right (le_of_lt (lt_trans ?_ hsim))
    norm_num [entityThreshold]
  unfold Spelunk.raise
  by_cases hmem : s ∈ aq.map Prod.fst
  · rw [if_pos hmem]
    obtain ⟨r, hr, hrs⟩ := List.mem_map.1 hmem
    have hle : ∀ q : String × ℚ,
        q.2 ≤ (if q.1 = s then (q.1, max q.2 (simOf knn c)) else q).2 := by
      intro q
      split
      · exact le_max_left _ _
      · exact le_rfl
    have hkey : ∀ q : String × ℚ,
        (if q.1 = s then (q.1, max q.2 (simOf knn c)) else q).1 = q.1 := by
      intro q
      split <;> rfl
    refine ⟨?_, fun c' s' hm hsim' => ?_, fun q hq => ?_⟩
    · rw [List.map_map]
      have hkeys : (Prod.fst ∘ fun q : String × ℚ =>
          if q.1 = s then (q.1, max q.2 (simOf knn c)) else q) = Prod.fst := funext hkey
      rw [hkeys]
      exact h.nodup
    · rcases hm with hm | ⟨rfl, rfl⟩
      · obtain ⟨q, hq, hqs, hqle⟩ := h.upper c' s' hm hsim'
        exact ⟨_, List.mem_map_of_mem hq, (hkey q).trans hqs, hqle.trans (hle q)⟩
      · refine ⟨_, List.mem_map_of_mem hr, (hkey r).trans hrs, ?_⟩
        rw [if_pos hrs]
        exact le_max_right _ _
    · obtain ⟨q, hold, rfl⟩ := List.mem_map.1 hq
      obtain ⟨c', hm, hsim', hval⟩ := h.attained q hold
      by_cases hqs : q.1 = s
      · simp only [if_pos hqs]
        rcases le_total q.2 (simOf knn c) with hcase | hcase
        · exact ⟨c, .inr ⟨rfl, hqs⟩, hsim, max_eq_right hcase⟩
        · exact ⟨c', .inl hm, hsim', (max_eq_left hcase).trans hval⟩
      · simp only [if_neg hqs]
        exact ⟨c', .inl hm, hsim', hval⟩
  · rw [if_neg hmem, hpos]
    refine ⟨?_, fun c' s' hm hsim' => ?_, fun q hq => ?_⟩
    · rw [List.map_append, List.map_singleton]
      refine h.nodup.append (List.nodup_singleton _) ?_
      intro k hk hs
      rw [List.mem_singleton.1 hs] at hk
      exact hmem hk
    · rcases hm with hm | ⟨rfl, rfl⟩
      · obtain ⟨q, hq, hrest⟩ := h.upper c' s' hm hsim'
        exact ⟨q, List.mem_append_left _ hq, hrest⟩
      · exact ⟨_, List.mem_append_right _ (List.mem_singleton_self _), rfl, le_rfl⟩
    · rcases List.mem_append.1 hq with hq | hq
      · obtain ⟨c', hm, hrest⟩ := h.attained q hq
        exact ⟨c', .inl hm, hrest⟩
      · rw [List.mem_singleton.1 hq]
        exact ⟨c, .inr ⟨rfl, rfl⟩, hsim, rfl⟩

/-- The first pass as one over all mentions. -/
theorem activate_eq (knn : List (ℕ × ℚ)) (ms : List (ℕ × List String)) :
    activate knn ms = (mentionPairs ms).foldl (fun aq p =>
      if entityThreshold < simOf knn p.1 then raise aq p.2 (simOf knn p.1) else aq) [] := by
  unfold activate mentionPairs
  rw [List.foldl_flatMap]
  congr 1
  funext aq m
  rw [List.foldl_map]
  show (if entityThreshold < simOf knn m.1 then _ else _) = _
  split
  · next h => simp only [simOf]
  · exact (List.foldl_fixed _).symm

/-- The first pass gives them. -/
theorem activation_activate (knn : List (ℕ × ℚ)) (ms : List (ℕ × List String)) :
    Activation knn (fun c s => (c, s) ∈ mentionPairs ms) (activate knn ms) := by
  rw [activate_eq]
  induction mentionPairs ms using List.reverseRecOn with
  | nil =>
    exact ⟨List.nodup_nil, fun c s hm => absurd hm List.not_mem_nil,
      fun q hq => absurd hq List.not_mem_nil⟩
  | append_singleton pairs p ih =>
    rw [List.foldl_append, List.foldl_cons, List.foldl_nil]
    have hiff : ∀ c s, (c, s) ∈ pairs ++ [p] ↔ (c, s) ∈ pairs ∨ (c = p.1 ∧ s = p.2) := by
      intro c s
      rw [List.mem_append, List.mem_singleton, Prod.ext_iff]
    by_cases hsim : entityThreshold < simOf knn p.1
    · rw [if_pos hsim]
      exact (ih.raise hsim).congr fun c s => (hiff c s).symm
    · rw [if_neg hsim]
      refine ⟨ih.nodup, fun c s hm habove => ?_, fun q hq => ?_⟩
      · rcases (hiff c s).1 hm with hm | ⟨rfl, -⟩
        · exact ih.upper c s hm habove
        · exact absurd habove hsim
      · obtain ⟨c, hm, hrest⟩ := ih.attained q hq
        exact ⟨c, (hiff c q.1).2 (.inl hm), hrest⟩

/-! ### Rounds -/

/-- A similarity that is not above the activation raises nothing. -/
theorem raise_of_le {q : String × ℚ} {sim : ℚ} (h : (aq.map Prod.fst).Nodup) (hq : q ∈ aq)
    (hle : sim ≤ q.2) : raise aq q.1 sim = aq := by
  unfold raise
  rw [if_pos (List.mem_map_of_mem hq)]
  have hsame : ∀ p ∈ aq, (if p.1 = q.1 then (p.1, max p.2 sim) else p) = id p := by
    intro p hp
    split
    · next hkey =>
      rw [eq_of_key h hp hq hkey, max_eq_left hle]
      rfl
    · rfl
  rw [List.map_congr_left hsame, List.map_id]

theorem propagateChunk_eq_self (h : Activation knn mentions aq) {c : ℕ} {s : String} (flag : Bool)
    (hm : mentions c s) : propagateChunk knn s (aq, flag) c = (aq, flag) := by
  unfold propagateChunk
  cases hlookup : knn.lookup c with
  | none => rfl
  | some sim =>
    have hsim : simOf knn c = sim := by rw [simOf, hlookup, Option.getD_some]
    by_cases habove : entityThreshold < sim
    · obtain ⟨q, hq, rfl, hle⟩ := h.upper c s hm (hsim ▸ habove)
      rw [hsim] at hle
      simp only [if_pos habove, raise_of_le h.nodup hq hle, lookup_of_mem h.nodup hq,
        Option.getD_some, decide_eq_false (not_lt.2 hle), Bool.or_false]
    · simp only [if_neg habove]

/-- The rounds leave them. -/
theorem propagate_eq_self (h : Activation knn mentions aq) {inverted : List (String × List ℕ)}
    (hinverted : ∀ entry ∈ inverted, ∀ c ∈ entry.2, mentions c entry.1) (n : ℕ) :
    propagate knn inverted n aq = aq := by
  have hround : propagateRound knn inverted aq = (aq, false) := by
    have hfold : inverted.foldl (fun acc entry =>
        if entry.1 ∈ acc.1.map Prod.fst then entry.2.foldl (propagateChunk knn entry.1) acc
        else acc) (aq, false) = (aq, false) := by
      induction inverted with
      | nil => rfl
      | cons entry inverted ih =>
        have hentry : entry.2.foldl (propagateChunk knn entry.1) (aq, false) = (aq, false) := by
          have hchunks := hinverted entry List.mem_cons_self
          generalize entry.2 = ids at hchunks
          induction ids with
          | nil => rfl
          | cons c ids ihIds =>
            rw [List.foldl_cons, propagateChunk_eq_self h false (hchunks c List.mem_cons_self)]
            exact ihIds fun c' hc' => hchunks c' (List.mem_cons_of_mem c hc')
        rw [List.foldl_cons]
        simp only [hentry, ite_self]
        exact ih fun e he => hinverted e (List.mem_cons_of_mem entry he)
    have hkept : aq.filter (fun p => entityThreshold ≤ p.2) = aq := by
      refine List.filter_eq_self.2 fun q hq => decide_eq_true ?_
      obtain ⟨c, -, hsim, hval⟩ := h.attained q hq
      exact hval ▸ hsim.le
    unfold propagateRound
    simp only [hfold, hkept]
  cases n with
  | zero => rfl
  | succ n =>
    unfold propagate
    split
    · rfl
    · simp [hround]

end Activations

/-! ### The activations of a search -/

section Search

variable {R : Type} (orders : RagOrders) (db : CodeDb R) (pool : List (ℕ × ℚ))

/-- The mentions that activate. -/
def CodeDb.PoolMentions (c : ℕ) (s : String) : Prop := c ∈ pool.map Prod.fst ∧ db.Mentions c s

/-- The pairs of the pool, in the order they are gone through. -/
theorem mem_mentionPairs_pool {c : ℕ} {s : String} :
    (c, s) ∈ mentionPairs (orders.mentions.of (db.mentionEdgesForChunks (pool.map Prod.fst))) ↔
      db.PoolMentions pool c s := by
  rw [mem_mentionPairs, CodeDb.PoolMentions, ← mem_mentionEdgesForChunks]
  simp only [(orders.mentions.perm _).mem_iff]

/-- The activations of a search. -/
theorem activation_ragActivation :
    Activation (knnById pool) (db.PoolMentions pool) (ragActivation orders db pool) := by
  have hfirst := (activation_activate (knnById pool)
    (orders.mentions.of (db.mentionEdgesForChunks (pool.map Prod.fst)))).congr
      fun c s => mem_mentionPairs_pool orders db pool
  have hinverted : ∀ entry ∈ orders.inverted.of (symToKnnChunks
      (orders.mentions.of (db.mentionEdgesForChunks (pool.map Prod.fst)))),
      ∀ c ∈ entry.2, db.PoolMentions pool c entry.1 := by
    intro entry he c hc
    have hrow := exists_mem_multimap.1 ⟨entry, (orders.inverted.perm _).mem_iff.1 he, rfl, hc⟩
    obtain ⟨m, hm, hpair⟩ := List.mem_flatMap.1 hrow
    obtain ⟨sym, hsym, heq⟩ := List.mem_map.1 hpair
    obtain ⟨rfl, rfl⟩ : sym = entry.1 ∧ m.1 = c := Prod.mk.inj heq
    have hpairs := mem_mentionPairs.2 ⟨m, hm, rfl, hsym⟩
    exact (mem_mentionPairs_pool orders db pool).1 hpairs
  have hrounds := propagate_eq_self hfirst hinverted activationIterations
  unfold ragActivation
  simp only [hrounds]
  exact hfirst.of_perm (orders.activation.perm _)

end Search

end Spelunk
