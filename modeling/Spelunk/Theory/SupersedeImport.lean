import Spelunk.Theory.ReconcileRun
import Spelunk.Theory.SupersedeChain

/-!
# Links Set by a Reconcile Run

A reconcile run adds links out of the rows it imports and out of no other. The
links among the imported rows are those among their identities, so the only way
a run can close a cycle is a cycle among the successors recorded in the server
store itself.

## Main definitions

* `ImportLink`: A link a run sets, by rowid.
* `ImportEdge`: A link a run sets among the entries it imports, by identity.

## Theorems

* `post_reconcileProject_chain`: What a run adds to the relation, whatever
  happens.
* `acyclic_importLink`: When the links of a run close no cycle.
-/

namespace Spelunk

open Lib (Sql SqlError)

open MemoryDb

variable [Sha256] {db : MemoryDb} {candidates : List ServerNote}

/-- A link a run sets: out of an imported row, to its entry's successor. -/
def ImportLink (db : MemoryDb) (candidates : List ServerNote) (a b : Nat) : Prop :=
  ∃ p ∈ db.importedPairs candidates, p.2 = a ∧
    (successorLink (buildSupersedeEdges candidates) (db.linkTarget candidates) p.1 p.2).join = some b

/-- A link among the entries imported: an archived entry and its successor. -/
def ImportEdge (db : MemoryDb) (candidates : List ServerNote) (e e' : String) : Prop :=
  e ≠ e' ∧ (buildSupersedeEdges candidates).lookup e = some e' ∧
    (∃ m ∈ db.toImport candidates, m.entityId = e ∧ m.status = "archived") ∧
    ∃ m ∈ db.toImport candidates, m.entityId = e'

/-- A store on the way through the first phase: the rows are those of `db` but
    for tags and files. -/
def Mirrors (db s : MemoryDb) : Prop :=
  ChainIn db.Leads s ∧ s.nextId = db.nextId ∧
    ∀ n ∈ s.notes, ∃ r ∈ db.notes, n.contentId = r.contentId

/-- A store on the way through the last phase: the imported rows of archived
    entries are archived, and links are old or a run's. -/
def Linking (db : MemoryDb) (candidates : List ServerNote) (s : MemoryDb) : Prop :=
  ChainIn (fun a b => db.Leads a b ∨ ImportLink db candidates a b) s ∧
    ∀ p ∈ db.importedPairs candidates, p.1.status = "archived" →
      ∀ n ∈ s.notes, n.id = p.2 → n.status = "archived"

theorem keeps_mirrors_mergePresent (localOf : String → Option Nat) (present : List MergedNote) :
    Sql.Keeps (Mirrors db) (mergePresent localOf present) := by
  refine Sql.Keeps.forEach present (fun m _ => ?_)
  rcases localOf m.entityId with _ | id
  · exact Sql.Keeps.ok ()
  refine Sql.Keeps.bind (Sql.Keeps.attempt (Sql.Keeps.bind ?_ (fun cur => ?_)))
    (fun _ => Sql.Keeps.ok ())
  · refine Sql.Keeps.bind (Sql.Keeps.query _) (fun r => ?_)
    rcases r with _ | r
    · exact Sql.Keeps.fail _
    · exact Sql.Keeps.ok r
  · simp only [Sql.bind_eq, Sql.pure_eq]
    split
    · exact Sql.Keeps.ok _
    · refine Sql.Keeps.bind (Sql.Keeps.statement (fun s n s' hs hrun => ?_))
        (fun _ => Sql.Keeps.ok _)
      rcases of_checked_eq_ok hrun with ⟨_, rfl, hu, hfk⟩
      refine ⟨hs.1.updateRows (fun r hr _ => ?_) hu hfk, hs.2.1, fun n hn => ?_⟩
      · exact ⟨rfl, rfl, hs.1.1.stored r hr, Or.inl rfl, Or.inr (Or.inl rfl)⟩
      · rcases List.mem_map.mp hn with ⟨r, hr, rfl⟩
        rcases hs.2.2 r hr with ⟨x, hx, hxr⟩
        refine ⟨x, hx, Eq.trans ?_ hxr⟩
        split <;> rfl

/-- Importing into such a store starts the last phase. -/
theorem linking_importRows {s : MemoryDb} (hs : Mirrors db s)
    (himport : s.Importable (db.toImport candidates)) (emb : List (Nat × List UInt8)) :
    Linking db candidates { s.importRows (db.toImport candidates) with embeddings := emb } := by
  have hvalid := hs.1.1.toValid.importRows himport
  have hrow : ∀ n ∈ (s.importRows (db.toImport candidates)).notes, n ∈ s.notes ∨
      ∃ p ∈ db.importedPairs candidates, n = { entryRow p.1 with id := p.2 } := by
    intro n hn
    rw [importedPairs, ← hs.2.1]
    exact mem_importRows_notes.mp hn
  refine ⟨⟨⟨⟨⟨hvalid.unique, hvalid.foreignKeys, hvalid.id_lt⟩, hvalid.status, hvalid.entity⟩,
    ?_, fun n hn => ?_, fun n hn hne => ?_⟩, ?_⟩, fun p hp harch n hn hnid => ?_⟩
  · exact (entityIdUnique_importRows s _).trans hs.1.1.unique_index
  · rcases hrow n hn with hn | ⟨p, _, rfl⟩
    · exact hs.1.1.stored n hn
    · rfl
  · rcases hrow n hn with hn | ⟨p, _, rfl⟩
    · exact hs.1.1.archived n hn hne
    · exact absurd rfl hne
  · rintro a b ⟨n, hn, rfl, hb⟩
    rcases hrow n hn with hn | ⟨p, _, rfl⟩
    · exact Or.inl (hs.1.2 _ _ ⟨n, hn, rfl, hb⟩)
    · exact absurd hb (by simp [entryRow, newRow])
  · rcases hrow n hn with hn | ⟨q, hq, rfl⟩
    · have hlt := hs.1.1.id_lt n hn
      have hle := (mem_importedPairs hp).2
      rw [hs.2.1] at hlt
      omega
    · have hqp : q = p := List.inj_on_of_nodup_map (nodup_importedPairs db candidates) hq hp hnid
      rw [hqp]
      exact if_pos harch

theorem keeps_linking_linkImported :
    Sql.Keeps (Linking db candidates) (linkImported (buildSupersedeEdges candidates)
      (db.linkTarget candidates) (db.importedPairs candidates)) := by
  refine Sql.Keeps.foldEach _ _ (fun unresolved p hp => ?_)
  rcases hlink : successorLink (buildSupersedeEdges candidates) (db.linkTarget candidates) p.1 p.2
    with _ | _ | v
  · exact Sql.Keeps.ok _
  · exact Sql.Keeps.ok _
  have hjoin : (successorLink (buildSupersedeEdges candidates) (db.linkTarget candidates)
      p.1 p.2).join = some v := by rw [hlink]; rfl
  have harch := (join_successorLink_eq_some.mp hjoin).1
  refine Sql.Keeps.bind (Sql.Keeps.attempt (Sql.Keeps.bind (Sql.Keeps.statement
    (fun s n s' hs hrun => ?_)) (fun _ => Sql.Keeps.ok _))) (fun r => ?_)
  · rcases of_checked_eq_ok hrun with ⟨_, rfl, hu, hfk⟩
    refine ⟨hs.1.updateRows (fun r hr hid => ?_) hu hfk, fun q hq hqarch n hn hnid => ?_⟩
    · have hid := of_decide_eq_true hid
      refine ⟨rfl, rfl, hs.1.1.stored r hr, Or.inl rfl,
        Or.inr (Or.inr ⟨hs.2 p hp harch r hr hid, fun w hw => ?_⟩)⟩
      rw [Option.mem_some_iff] at hw
      rw [← hw, hid]
      exact Or.inr ⟨p, hp, rfl, hjoin⟩
    · rcases List.mem_map.mp hn with ⟨r, hr, rfl⟩
      have hrid : r.id = q.2 := by
        rw [← hnid]
        split <;> rfl
      have hrarch := hs.2 q hq hqarch r hr hrid
      split <;> exact hrarch
  · rcases r with e | u
    · exact Sql.Keeps.ok _
    · exact Sql.Keeps.ok _

/-- What a run adds to the relation, whatever happens. -/
theorem post_reconcileProject_chain (hdb : db.Settled) (embed : String → Option (List UInt8))
    (dryRun : Bool) {R : Nat → Nat → Prop} (hold : ∀ a b, db.Leads a b → R a b)
    (hlink : dryRun = false → ∀ a b, ImportLink db candidates a b → R a b) :
    Sql.Post (fun s => s = db) (reconcileProject candidates embed dryRun) (fun _ s => ChainIn R s)
      (ChainIn R) := by
  have hback : ∀ s, Mirrors db s → ChainIn R s := fun s hs => hs.1.mono hold
  have hstart : ∀ s, s = db → Mirrors db s := by
    rintro s rfl
    exact ⟨⟨hdb, fun _ _ h => h⟩, rfl, fun n hn => ⟨n, hn, rfl⟩⟩
  unfold reconcileProject
  simp only [Sql.bind_eq, Sql.pure_eq]
  split
  · exact Sql.Post.ok _ (fun s hs => hback s (hstart s hs))
  refine Sql.Post.bind (Q := fun all s => all = db.snapshot ∧ Mirrors db s) (Sql.Post.query _
    (fun s hs => ⟨by rw [hs]; rfl, hstart s hs⟩) (fun s hs => hback s (hstart s hs)))
    (fun all => Sql.Post.of_pre (fun hall => ?_))
  subst hall
  have hto : entriesToImport (entityToLocal db.snapshot) (collapseCandidates candidates)
      = db.toImport candidates := rfl
  split
  · exact Sql.Post.ok _ hback
  next hwet =>
  have hlinking : ∀ s, Linking db candidates s → ChainIn R s := fun s hs =>
    hs.1.mono (fun a b hab => hab.elim (hold a b) (hlink (Bool.eq_false_of_not_eq_true hwet) a b))
  refine Sql.Post.bind (Sql.Post.mono (Sql.Post.of_keeps (keeps_mirrors_mergePresent _ _))
    (fun _ hs => hs) (fun _ _ hs => hs) hback) (fun _ => ?_)
  rw [hto]
  split
  · exact Sql.Post.ok _ hback
  have hfst : (embedEntries embed (db.toImport candidates)).map (·.1) = db.toImport candidates := by
    rw [embedEntries, List.map_map]
    exact List.map_id' _
  have hlen : (embedEntries embed (db.toImport candidates)).length
      = (db.toImport candidates).length := List.length_map _
  refine Sql.Post.bind (Q := fun ids s => ids = List.range' db.nextId (db.toImport candidates).length
    ∧ Linking db candidates s) ?_ (fun ids => Sql.Post.of_pre (fun hids => ?_))
  · intro c hc
    have himport : c.db.Importable (db.toImport candidates) := by
      have h := importable_toImport db candidates
      refine ⟨h.nodup, h.entity, fun m hm x hx => ?_⟩
      rcases hc.2.2 x hx with ⟨r, hr, hxr⟩
      rw [hxr]
      exact (mem_toImport.mp hm).2 r hr
    have hpost := @post_importBatch _ _ hc.1.1.toValid
      (embedEntries embed (db.toImport candidates)) (by rwa [hfst]) c rfl
    refine ⟨fun ids hrun => ?_, fun e he => ?_⟩
    · rcases hpost.1 ids hrun with ⟨hids, emb, hs⟩
      rw [hids, hs, hfst, hlen, hc.2.1]
      exact ⟨rfl, linking_importRows hc himport emb⟩
    · rw [hpost.2 e he]
      exact hback _ hc
  · have hzip : (db.toImport candidates).zip ids = db.importedPairs candidates := by
      rw [hids, importedPairs, List.zipIdx_eq_zip_range']
    have htarget : (fun e => (importedRow ((db.toImport candidates).zip ids) e).or
        (entityToLocal db.snapshot e)) = db.linkTarget candidates := by
      funext e
      rw [hzip]
      rfl
    rw [htarget, hzip]
    exact Sql.Post.bind (Sql.Post.mono (Sql.Post.of_keeps keeps_linking_linkImported)
      (fun _ hs => hs) (fun _ _ hs => hs) hlinking) (fun _ => Sql.Post.ok _ hlinking)

/-- The identity of an imported row. -/
def importedEntity (db : MemoryDb) (candidates : List ServerNote) (id : Nat) : String :=
  match (db.importedPairs candidates).find? (fun p => p.2 = id) with
  | some p => p.1.entityId
  | none => ""

theorem importedEntity_of_mem {p : MergedNote × Nat} (hp : p ∈ db.importedPairs candidates) :
    importedEntity db candidates p.2 = p.1.entityId := by
  rw [importedEntity, find?_importedPairs hp]

/-- A link from one imported row to another is a link of their entries. -/
theorem importEdge_of_importLink {a b : Nat} (h : ImportLink db candidates a b)
    (hb : db.nextId ≤ b) (hdb : db.SchemaOk) :
    ImportEdge db candidates (importedEntity db candidates a) (importedEntity db candidates b) := by
  rcases h with ⟨p, hp, rfl, hjoin⟩
  rcases join_successorLink_eq_some.mp hjoin with ⟨harch, e, hlookup, htarget, hne⟩
  rcases linkTarget_mem htarget with ⟨r, hr, rfl, hre⟩
  rcases mem_imported_notes.mp hr with hold | ⟨q, hq, rfl⟩
  · have hmem : r.id ∈ db.ids := ids_gained db candidates ▸ List.mem_map_of_mem hold
    rcases List.mem_map.mp hmem with ⟨x, hx, hid⟩
    have hlt := hdb.id_lt x hx
    omega
  · have hqe : q.1.entityId = e := by
      rw [(importable_toImport db candidates).entity q.1 (mem_importedPairs hq).1]
      exact hre
    subst hqe
    rw [importedEntity_of_mem hp, importedEntity_of_mem hq]
    refine ⟨fun heq => hne ?_, hlookup, ⟨p.1, (mem_importedPairs hp).1, rfl, harch⟩, q.1,
      (mem_importedPairs hq).1, rfl⟩
    exact id_of_contentId_eq_entry hp hr (hre.trans heq.symm)

/-- A run closes no cycle when the entries it imports have none. -/
theorem acyclic_importLink (hdb : db.Settled) (hac : Lib.Acyclic db.Leads)
    (hedges : Lib.Acyclic (ImportEdge db candidates)) :
    Lib.Acyclic (fun a b => db.Leads a b ∨ ImportLink db candidates a b) := by
  refine Lib.Acyclic.of_closed (S := fun a => a < db.nextId) ?_ ?_ ?_
  · rintro a b (hab | ⟨p, hp, rfl, _⟩) ha
    · exact (hdb.leads_lt hab).2
    · exact absurd ha (not_lt_of_ge (mem_importedPairs hp).2)
  · refine hac.mono ?_
    rintro a b ⟨hab | ⟨p, hp, rfl, _⟩, ha⟩
    · exact hab
    · exact absurd ha (not_lt_of_ge (mem_importedPairs hp).2)
  · refine hedges.of_map (importedEntity db candidates) ?_
    rintro a b ⟨hab | hab, hb⟩
    · exact absurd (hdb.leads_lt hab).2 hb
    · exact importEdge_of_importLink hab (not_lt.mp hb) hdb.toSchemaOk

end Spelunk
