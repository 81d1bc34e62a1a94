import Spelunk.Theory.RagGraph

/-!
# Bind Slices

A query whose list is cut into slices against the one statement with the whole list. An
`IN` clause takes a key once however often it is in its list; two statements do not know of
each other. So three of the queries return the rows of a key once for each slice it stands
in, and only the fourth, which leaves out what it has seen, never does.

## Main definitions

* `NoRepeat`: No key with a row stands in two slices.

## Theorems

* `graphNeighborChunks_perm`: The query that leaves out what it has seen.
* `bindLaw`: When the answers are the same.
* `chunksByIds_twice`: An id at both ends of a list that is one too long.
-/

namespace Spelunk

open Lib (slices selectIn InTwoSlices mapRows)

/-- No key with a row stands in two slices of the limit. -/
def NoRepeat {ρ κ : Type*} [DecidableEq κ] (key : ρ → κ) (table : List ρ) (keys : List κ) : Prop :=
  ∀ r ∈ table, ¬ InTwoSlices sqliteMaxBind keys (key r)

section Queries

variable {R : Type} (db : CodeDb R)

theorem mentionRows_eq (ids : List ℤ) : db.mentionRows ids = selectIn
    (fun r : ℕ × String => (r.1 : ℤ)) (db.mentionJoin.map fun j => (j.1.id, j.2.targetName)) ids :=
  Lib.selectIn_map (fun r : ℕ × String => (r.1 : ℤ)) _ _ _

theorem mentioningRows_eq (symbols : List String) : db.mentioningRows symbols = selectIn Prod.fst
    (db.mentionJoin.map fun j => (j.2.targetName, j.1.id)) symbols :=
  Lib.selectIn_map (fun r : String × ℕ => r.1) _ _ _

theorem noRepeat_map {ρ σ κ : Type*} [DecidableEq κ] {f : ρ → σ} {key : σ → κ} {table : List ρ}
    {keys : List κ} : NoRepeat key (table.map f) keys ↔ NoRepeat (key ∘ f) table keys :=
  List.forall_mem_map

/-- The rows of a map that is filled by the statements. -/
theorem mapRows_perm_iff {ρ κ β : Type*} [DecidableEq κ] [DecidableEq ρ] (key : ρ × β → κ)
    (table : List (ρ × β)) (keys : List κ) :
    (mapRows (Lib.multimap ((slices sqliteMaxBind keys).flatMap (selectIn key table)))).Perm
      (selectIn key table keys) ↔ NoRepeat key table keys := by
  refine Iff.trans ?_ (Lib.flatMap_selectIn_perm_iff key table (by decide) keys)
  have hrows := Lib.mapRows_multimap_perm
    ((slices sqliteMaxBind keys).flatMap (selectIn key table))
  exact ⟨hrows.symm.trans, hrows.trans⟩

theorem mem_neighborNames {names : List String} {name : String} :
    name ∈ db.neighborNames names ↔ ∃ n ∈ names, ∃ e ∈ db.edges, e.kind = "calls" ∧
      (e.sourceName = some n ∧ e.targetName = name ∨
        e.targetName = n ∧ e.sourceName = some name) := by
  unfold CodeDb.neighborNames
  simp only [List.mem_append, List.mem_map, List.mem_filterMap, List.mem_filter, Option.any_eq_true,
    decide_eq_true_eq]
  constructor
  · rintro (⟨e, ⟨he, ⟨n, hn, hin⟩, hkind⟩, rfl⟩ | ⟨e, ⟨he, hin, hkind⟩, hname⟩)
    · exact ⟨n, hin, e, he, hkind, .inl ⟨hn, rfl⟩⟩
    · exact ⟨e.targetName, hin, e, he, hkind, .inr ⟨rfl, hname⟩⟩
  · rintro ⟨n, hin, e, he, hkind, ⟨hn, rfl⟩ | ⟨rfl, hname⟩⟩
    · exact .inl ⟨e, ⟨he, ⟨n, hn, hin⟩, hkind⟩, rfl⟩
    · exact .inr ⟨e, ⟨he, hin, hkind⟩, hname⟩

theorem mem_neighborIds {names : List String} {id : ℕ} :
    id ∈ db.neighborIds names ↔
      ∃ c ∈ db.chunks, c.id = id ∧ ∃ name, c.name = some name ∧ name ∈ db.neighborNames names := by
  unfold CodeDb.neighborIds
  simp only [List.mem_dedup, List.mem_map, List.mem_filter, Option.any_eq_true, decide_eq_true_eq]
  constructor
  · rintro ⟨c, ⟨hc, hname⟩, rfl⟩
    exact ⟨c, hc, rfl, hname⟩
  · rintro ⟨c, hc, rfl, hname⟩
    exact ⟨c, ⟨hc, hname⟩, rfl⟩

/-- The query that leaves out what it has seen. -/
theorem graphNeighborChunks_perm (names : List String) :
    (Bound.graphNeighborChunks db names).answer.Perm (db.neighborIds names) := by
  have hfold : ∀ (parts : List (List String)) (out : List ℕ), out.Nodup →
      (parts.foldl (fun out part => Lib.addNew out (db.neighborIds part)) out).Nodup ∧
      ∀ id, id ∈ parts.foldl (fun out part => Lib.addNew out (db.neighborIds part)) out ↔
        id ∈ out ∨ ∃ part ∈ parts, id ∈ db.neighborIds part := by
    intro parts
    induction parts with
    | nil => exact fun out hout => ⟨hout, by simp⟩
    | cons part parts ih =>
      intro out hout
      obtain ⟨hnodup, hmem⟩ := ih _ (Lib.nodup_addNew hout (db.neighborIds part))
      refine ⟨hnodup, fun id => ?_⟩
      rw [List.foldl_cons, hmem, Lib.mem_addNew, List.exists_mem_cons_iff, or_assoc]
  obtain ⟨hnodup, hmem⟩ := hfold (slices (sqliteMaxBind / 2) names) [] List.nodup_nil
  refine (List.perm_ext_iff_of_nodup hnodup (List.nodup_dedup _)).2 fun id => ?_
  show id ∈ (slices (sqliteMaxBind / 2) names).foldl _ [] ↔ id ∈ db.neighborIds names
  have hpos : 0 < sqliteMaxBind / 2 := by decide
  -- A name is next to one of the list if and only if it is next to one of a slice.
  have hnames : ∀ name, name ∈ db.neighborNames names ↔
      ∃ part ∈ slices (sqliteMaxBind / 2) names, name ∈ db.neighborNames part := by
    intro name
    simp only [mem_neighborNames]
    constructor
    · rintro ⟨n, hn, hedge⟩
      obtain ⟨part, hpart, hin⟩ := (Lib.mem_slices_iff hpos).2 hn
      exact ⟨part, hpart, n, hin, hedge⟩
    · rintro ⟨part, hpart, n, hin, hedge⟩
      exact ⟨n, (Lib.mem_slices_iff hpos).1 ⟨part, hpart, hin⟩, hedge⟩
  rw [hmem]
  simp only [mem_neighborIds, hnames]
  constructor
  · rintro (h | ⟨part, hpart, c, hc, hid, name, hname, hin⟩)
    · exact absurd h List.not_mem_nil
    · exact ⟨c, hc, hid, name, hname, part, hpart, hin⟩
  · rintro ⟨c, hc, hid, name, hname, part, hpart, hin⟩
    exact .inr ⟨part, hpart, c, hc, hid, name, hname, hin⟩

end Queries

/-! ### The law -/

/-- The answers are those of the one statement with the whole list if and only if no id or symbol
    with a row stands in two slices; for the neighbours they always are. No statement has more
    placeholders than the limit. -/
theorem bindLaw {R : Type} (db : CodeDb R) (ids : List ℤ)
    (symbols names : List String) :
    ((Bound.chunksByIds db ids).answer.Perm (db.rowsByIds ids) ↔
      NoRepeat (fun c : ChunkRow R => (c.id : ℤ)) db.filedChunks ids) ∧
    ((mapRows (Bound.mentionEdgesForChunks db ids).answer).Perm (db.mentionRows ids) ↔
      NoRepeat (fun j : ChunkRow R × EdgeRow => (j.1.id : ℤ)) db.mentionJoin ids) ∧
    ((mapRows (Bound.chunksMentioningSymbols db symbols).answer).Perm (db.mentioningRows symbols) ↔
      NoRepeat (fun j : ChunkRow R × EdgeRow => j.2.targetName) db.mentionJoin symbols) ∧
    (Bound.graphNeighborChunks db names).answer.Perm (db.neighborIds names) ∧
    ∀ n ∈ (Bound.chunksByIds db ids).placeholders ++
        (Bound.mentionEdgesForChunks db ids).placeholders ++
        (Bound.chunksMentioningSymbols db symbols).placeholders ++
        (Bound.graphNeighborChunks db names).placeholders, n ≤ sqliteMaxBind := by
  refine ⟨Lib.flatMap_selectIn_perm_iff _ _ (by decide) ids, ?_, ?_,
    graphNeighborChunks_perm db names, fun n hn => ?_⟩
  · have hiff := mapRows_perm_iff (fun r : ℕ × String => (r.1 : ℤ))
      (db.mentionJoin.map fun j => (j.1.id, j.2.targetName)) ids
    rw [noRepeat_map, ← mentionRows_eq, ← funext (mentionRows_eq db)] at hiff
    exact hiff
  · have hiff := mapRows_perm_iff (fun r : String × ℕ => r.1)
      (db.mentionJoin.map fun j => (j.2.targetName, j.1.id)) symbols
    rw [noRepeat_map] at hiff
    rw [mentioningRows_eq]
    unfold Bound.chunksMentioningSymbols
    rw [funext (mentioningRows_eq db)]
    exact hiff
  · have hwhole : ∀ {κ : Type} {l : List κ}, n ∈ (slices sqliteMaxBind l).map List.length →
        n ≤ sqliteMaxBind := by
      intro κ l hn
      obtain ⟨s, hs, rfl⟩ := List.mem_map.1 hn
      exact Lib.length_le_of_mem_slices (by decide) hs
    rcases List.mem_append.1 hn with hn | hn
    · rcases List.mem_append.1 hn with hn | hn
      · rcases List.mem_append.1 hn with hn | hn
        · exact hwhole hn
        · exact hwhole hn
      · exact hwhole hn
    · obtain ⟨s, hs, rfl⟩ := List.mem_map.1 hn
      have hhalf : s.length ≤ sqliteMaxBind / 2 := Lib.length_le_of_mem_slices (by decide) hs
      have hlimit : sqliteMaxBind = 30000 := rfl
      rw [List.length_append]
      omega

/-- An id at both ends of a list that is one too long has its row twice. -/
theorem chunksByIds_twice : ¬ ∀ ids : List ℤ,
    (Bound.chunksByIds oneMention ids).answer.Perm (oneMention.rowsByIds ids) := by
  intro hall
  have hnone := (Lib.flatMap_selectIn_perm_iff (fun c : ChunkRow ℚ => (c.id : ℤ))
    oneMention.filedChunks (by decide) _).1 (hall ((0 :: List.replicate 29999 1) ++ [0]))
  have hlength : ((0 : ℤ) :: List.replicate 29999 1).length = sqliteMaxBind := by
    rw [List.length_cons, List.length_replicate]
    rfl
  have hfirst : (0 : ℤ) ∈ (0 : ℤ) :: List.replicate 29999 1 := List.mem_cons_self
  have hlast : (0 : ℤ) ∈ [(0 : ℤ)] := List.mem_cons_self
  have htwo : InTwoSlices sqliteMaxBind (((0 : ℤ) :: List.replicate 29999 1) ++ [0]) 0 := by
    unfold InTwoSlices
    rw [Lib.slices_append (by decide) hlength, Lib.slices_of_length_le (List.cons_ne_nil _ _)
        (by decide), List.countP_cons, List.countP_cons, if_pos (decide_eq_true hfirst),
      if_pos (decide_eq_true hlast)]
    exact Nat.le_refl 2
  exact hnone ⟨0, "main.rs", "function", some "main", 1, 1, "fn main() { parse() }", none, none,
    6, 0⟩ (List.mem_filter.2 ⟨List.mem_singleton_self _, by decide⟩) htwo

end Spelunk
