import Spelunk.Lib.Transition
import Spelunk.Theory.SupersedeImport

/-!
# Runs of the Store

Any sequence of the commands that write a local store, each of which may fail
at any statement. In every run a row that has a successor is archived. That no
row is its own successor needs one condition where a command sets a link: the
new note must not already lead to the old one. No command checks it, and
superseding a note by itself is the shortest run that breaks it.

## Main definitions

* `StoreOp`: The commands.
* `storeStep`: One command, with a fault anywhere in it or none.
* `Safe`: The links a command sets close no cycle.

## Theorems

* `storeStep_chain`: What one command does to the relation.
* `supersedeChain_of_run`: What holds of every run.
-/

namespace Spelunk

open Lib (Sql SqlError GuardedRun)

open MemoryDb

/-- A command that writes a local store, with everything it is given. -/
inductive StoreOp where
  | openStore
  | add (now : Int) (kind title body : String) (tags linkedFiles : List String)
      (sourceRef : Option String) (validAt : Option Int)
  | addSuperseding (now : Int) (kind title body : String) (tags linkedFiles : List String)
      (validAt : Option Int) (supersedesId : Nat)
  | supersede (now : Int) (oldId newId : Nat)
  | archive (id : Nat)
  | applyRemoteNote (uuid remoteId kind title body : String) (sourceRef : Option String)
      (createdAt : Int) (archived : Bool)
  | dedupeEntityIds (dryRun : Bool)
  | reconcileProject (candidates : List ServerNote) (embed : String → Option (List UInt8))
      (dryRun : Bool)

variable [Sha256]

/-- The program a command runs. -/
def StoreOp.run : StoreOp → Sql MemoryDb Unit
  | .openStore => Spelunk.openStore
  | .add now kind title body tags linkedFiles sourceRef validAt => do
      let _ ← addNote now kind title body tags linkedFiles sourceRef validAt
      pure ()
  | .addSuperseding now kind title body tags linkedFiles validAt supersedesId => do
      let _ ← memoryAddSuperseding now kind title body tags linkedFiles validAt supersedesId
      pure ()
  | .supersede now oldId newId => memorySupersede now oldId newId
  | .archive id => do
      let _ ← Spelunk.archive id
      pure ()
  | .applyRemoteNote uuid remoteId kind title body sourceRef createdAt archived => do
      let _ ← Spelunk.applyRemoteNote uuid remoteId kind title body sourceRef createdAt archived
      pure ()
  | .dedupeEntityIds dryRun => do
      let _ ← Spelunk.dedupeEntityIds dryRun
      pure ()
  | .reconcileProject candidates embed dryRun => do
      let _ ← Spelunk.reconcileProject candidates embed dryRun
      pure ()

/-- One command, stopped by a fault at some statement or by none. -/
def storeStep (db : MemoryDb) (op : StoreOp) (db' : MemoryDb) : Prop :=
  ∃ fault, db' = (op.run ⟨db, fault⟩).2.db

/-- The links a command sets close no cycle: the successor does not lead to the
    note it is to supersede, and the successors recorded among the entries a
    reconcile run imports have no cycle of their own. -/
def Safe (db : MemoryDb) : StoreOp → Prop
  | .supersede _ oldId newId =>
      (∃ r ∈ db.notes, r.id = oldId ∧ r.status = "active") →
        ¬ Relation.ReflTransGen db.Leads newId oldId
  | .addSuperseding _ kind title body _ _ _ supersedesId =>
      (∃ r ∈ db.notes, r.id = supersedesId ∧ r.status = "active") →
        db.contentTarget (entityId kind title body) ≠ supersedesId →
        ¬ Relation.ReflTransGen db.Leads (db.contentTarget (entityId kind title body)) supersedesId
  | .reconcileProject candidates _ dryRun =>
      dryRun = false → Lib.Acyclic (ImportEdge db candidates)
  | _ => True

/-- The relation a command leaves lies in this one. -/
def StoreOp.leaves (db : MemoryDb) : StoreOp → Nat → Nat → Prop
  | .supersede _ oldId newId => fun a b =>
      db.Leads a b ∨ ((∃ r ∈ db.notes, r.id = oldId ∧ r.status = "active") ∧ a = oldId ∧ b = newId)
  | .addSuperseding _ kind title body _ _ _ supersedesId => fun a b =>
      db.Leads a b ∨ (((∃ r ∈ db.notes, r.id = supersedesId ∧ r.status = "active") ∧
        db.contentTarget (entityId kind title body) ≠ supersedesId) ∧
        a = supersedesId ∧ b = db.contentTarget (entityId kind title body))
  | .reconcileProject candidates _ dryRun => fun a b =>
      db.Leads a b ∨ (dryRun = false ∧ ImportLink db candidates a b)
  | _ => db.Leads

/-- What one command does to the relation, whatever happens. -/
theorem storeStep_chain {db db' : MemoryDb} {op : StoreOp} (hdb : db.Settled)
    (h : storeStep db op db') : ChainIn (op.leaves db) db' := by
  rcases h with ⟨fault, rfl⟩
  have hstart : ChainIn db.Leads db := ⟨hdb, fun _ _ h => h⟩
  have hkeeps : ∀ {α : Type} {m : Sql MemoryDb α}, Sql.Keeps (ChainIn db.Leads) m →
      ChainIn db.Leads ((m.andThen (fun _ => Sql.ok ())) ⟨db, fault⟩).2.db :=
    fun hm => (Sql.Keeps.bind hm (fun _ => Sql.Keeps.ok ())) ⟨db, fault⟩ hstart
  cases op with
  | openStore => exact keeps_openStore ⟨db, fault⟩ hstart
  | add => exact hkeeps (keeps_addNote _ _ _ _ _ _ _ _)
  | archive => exact hkeeps (keeps_archive _)
  | applyRemoteNote => exact hkeeps (keeps_applyRemoteNote _ _ _ _ _ _ _ _)
  | dedupeEntityIds => exact hkeeps (keeps_dedupeEntityIds _)
  | supersede now oldId newId =>
      exact Sql.Post.ends (post_memorySupersede (hstart.mono (fun _ _ => Or.inl)) now oldId newId
        (fun hactive => Or.inr ⟨hactive, rfl, rfl⟩)) rfl
  | addSuperseding now kind title body tags linkedFiles validAt supersedesId =>
      exact Sql.Post.ends (Sql.Post.bind (post_memoryAddSuperseding
        (hstart.mono (fun _ _ => Or.inl)) now kind title body tags linkedFiles validAt supersedesId
        (fun hactive hne => Or.inr ⟨⟨hactive, hne⟩, rfl, rfl⟩))
        (fun _ => Sql.Post.ok () (fun _ hs => hs))) rfl
  | reconcileProject candidates embed dryRun =>
      exact Sql.Post.ends (Sql.Post.bind (post_reconcileProject_chain hdb embed dryRun
        (fun _ _ => Or.inl) (fun hwet _ _ h => Or.inr ⟨hwet, h⟩)) (fun _ => Sql.Post.ok () (fun _ hs => hs))) rfl

omit [Sha256] in
/-- A relation with one more edge, if any. -/
theorem acyclic_of_edge {db : MemoryDb} (hac : Lib.Acyclic db.Leads) {p : Prop} {a b : Nat}
    (h : p → ¬ Relation.ReflTransGen db.Leads b a) :
    Lib.Acyclic (fun x y => db.Leads x y ∨ (p ∧ x = a ∧ y = b)) := by
  by_cases hp : p
  · refine ((hac.addEdge_iff a b).mpr (h hp)).mono (fun x y hxy => ?_)
    exact hxy.imp_right (fun h => h.2)
  · exact hac.mono (fun x y hxy => hxy.resolve_right (fun h => hp h.1))

/-- A safe command closes no cycle. -/
theorem acyclic_leaves {db : MemoryDb} {op : StoreOp} (hdb : db.Settled)
    (hac : Lib.Acyclic db.Leads) (hsafe : Safe db op) : Lib.Acyclic (op.leaves db) := by
  cases op with
  | supersede => exact acyclic_of_edge hac hsafe
  | addSuperseding => exact acyclic_of_edge hac (fun h => hsafe h.1 h.2)
  | reconcileProject candidates embed dryRun =>
      cases dryRun
      · exact (acyclic_importLink hdb hac (hsafe rfl)).mono
          (fun _ _ hab => hab.imp_right (fun h => h.2))
      · exact hac.mono (fun _ _ hab => hab.resolve_right (fun h => absurd h.1 (by decide)))
  | _ => exact hac

/-- A new content has nothing to lead anywhere, so making it the successor of a
    note is always safe. -/
theorem safe_addSuperseding_of_new {db : MemoryDb} (hdb : db.Settled) (now : Int)
    (kind title body : String) (tags linkedFiles : List String) (validAt : Option Int)
    (supersedesId : Nat) (h : ∀ r ∈ db.notes, r.contentId ≠ entityId kind title body) :
    Safe db (.addSuperseding now kind title body tags linkedFiles validAt supersedesId) := by
  intro _ hne hreach
  have htarget : db.contentTarget (entityId kind title body) = db.nextId := by
    have hnone : db.notes.find? (fun r => r.entityId = some (entityId kind title body)) = none := by
      rw [List.find?_eq_none]
      intro r hr he
      have he := of_decide_eq_true he
      rw [hdb.stored r hr, Option.some.injEq] at he
      exact h r hr he
    rw [contentTarget, hnone]
    rfl
  rcases Relation.ReflTransGen.cases_head hreach with heq | ⟨b, hb, _⟩
  · exact hne heq
  · rw [htarget] at hb
    exact absurd (hdb.leads_lt hb).1 (lt_irrefl _)

/-- Every run from an empty store: a row that has a successor is archived, and
    when every link is set safely no row is its own successor, directly or
    through others. -/
theorem supersedeChain_of_run (guard : MemoryDb → StoreOp → Prop) (db : MemoryDb)
    (h : GuardedRun storeStep guard emptyStore db) :
    (∀ n ∈ db.notes, n.supersededBy ≠ none → n.status = "archived") ∧
      ((∀ s op, guard s op → Safe s op) → Lib.Acyclic db.Leads) := by
  have hsettled : db.Settled := h.invariant settled_emptyStore
    (fun s op s' hs _ hstep => (storeStep_chain hs hstep).1)
  refine ⟨hsettled.archived, fun hguard => ?_⟩
  have hstart : Lib.Acyclic emptyStore.Leads := by
    have hnone : Lib.Acyclic (fun _ _ : Nat => False) := by
      intro a ha
      rcases Relation.TransGen.head'_iff.mp ha with ⟨_, hf, _⟩
      exact hf
    refine hnone.mono (fun a b hab => ?_)
    rcases hab with ⟨n, hn, _⟩
    exact absurd hn List.not_mem_nil
  have hboth := h.invariant (I := fun s => s.Settled ∧ Lib.Acyclic s.Leads)
    ⟨settled_emptyStore, hstart⟩ (fun s op s' hs hsafe hstep => by
      have hchain := storeStep_chain hs.1 hstep
      exact ⟨hchain.1, (acyclic_leaves hs.1 hs.2 (hguard s op hsafe)).mono hchain.2⟩)
  exact hboth.2

section Runs

omit [Sha256]

/-- A note. -/
def axumStore : MemoryDb :=
  (@StoreOp.run workedSha256 (.add 10 "decision" "HTTP layer" "use axum" [] [] none none)
    ⟨emptyStore, none⟩).2.db

/-- A second note that supersedes it. -/
def hyperStore : MemoryDb :=
  (@StoreOp.run workedSha256 (.addSuperseding 20 "decision" "HTTP layer" "use hyper" [] [] none 1)
    ⟨axumStore, none⟩).2.db

theorem supersedeChain_of_run_hyperStore :
    (∀ n ∈ hyperStore.notes, n.supersededBy ≠ none → n.status = "archived") ∧
      ((∀ s op, @Safe workedSha256 s op → @Safe workedSha256 s op) →
        Lib.Acyclic hyperStore.Leads) := by
  let _ : Sha256 := workedSha256
  have hfirst : storeStep emptyStore (.add 10 "decision" "HTTP layer" "use axum" [] [] none none)
      axumStore := ⟨none, rfl⟩
  have hsafe : Safe axumStore
      (.addSuperseding 20 "decision" "HTTP layer" "use hyper" [] [] none 1) :=
    safe_addSuperseding_of_new (storeStep_chain settled_emptyStore hfirst).1 _ _ _ _ _ _ _ _
      (by decide)
  exact supersedeChain_of_run Safe hyperStore
    ((GuardedRun.refl.tail _ trivial hfirst).tail _ hsafe ⟨none, rfl⟩)

/-- A note superseded by itself is its own successor. -/
theorem supersede_own_successor :
    ∃ db, GuardedRun (@storeStep workedSha256) (fun _ _ => True) emptyStore db ∧
      ¬ Lib.Acyclic db.Leads := by
  let _ : Sha256 := workedSha256
  refine ⟨((StoreOp.supersede 20 1 1).run ⟨axumStore, none⟩).2.db,
    ((GuardedRun.refl.tail (.add 10 "decision" "HTTP layer" "use axum" [] [] none none) trivial
      ⟨none, rfl⟩).tail (.supersede 20 1 1) trivial ⟨none, rfl⟩), fun hac => ?_⟩
  have hself : ((StoreOp.supersede 20 1 1).run ⟨axumStore, none⟩).2.db.Leads 1 1 := by
    unfold MemoryDb.Leads
    decide
  exact hac 1 (Relation.TransGen.single hself)

end Runs

end Spelunk
