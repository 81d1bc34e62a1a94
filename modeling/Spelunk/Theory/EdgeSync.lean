import Spelunk.Core.PushRun
import Spelunk.Theory.SyncRuns

/-!
# Which Edges a Push Sends

A push sends the edges that touch a row it has just recorded an id for. So an edge is sent
by the push that completes it, gives its second end a server id, or by none. One step
lemma says what a push leaves: every edge that it completed, and that has two uuids, is
among those it sent, if it reports no failure. Over a run it follows that every complete
edge was sent, as long as edges are completed by such pushes alone.

An edge that is completed otherwise (by the relay's acknowledgement, by a pull, by a push
that stops after the chunk with its second end, or by being recorded between rows that
are both synced) is complete before the next push, touches no row that one records an id
for, and is not sent.

## Main definitions

* `Synced`, `CompleteEdge`: Rows and edges on the server's side.
* `EdgeWorld`, `EdgeEvent`, `edgeNext`: A store with what it sent, and what happens to it.
* `CompletesByPush`: The condition on a step.

## Theorems

* `post_pushLocal`: What a push sends.
* `edgeSyncLaw`: In runs under the condition every complete edge was sent.
-/

namespace Spelunk

open Lib (Sql SqlError GuardedRun)

/-- The row has a server id. -/
def Synced (db : MemoryDb) (id : Nat) : Prop := ∃ r ∈ db.notes, r.id = id ∧ r.remoteId ≠ none

instance (db : MemoryDb) (id : Nat) : Decidable (Synced db id) := by
  unfold Synced
  infer_instance

/-- A relates_to edge whose two ends have a server id. -/
def CompleteEdge (db : MemoryDb) (e : MemoryEdge) : Prop :=
  e ∈ db.edges ∧ e.kind = .relatesTo ∧ Synced db e.fromId ∧ Synced db e.toId

/-- The edge is on a list of edges to send. -/
def Listed (l : List SyncEdge) (e : MemoryEdge) : Prop :=
  ∃ p ∈ l, p.fromLocalId = e.fromId ∧ p.toLocalId = e.toId

instance (l : List SyncEdge) (e : MemoryEdge) : Decidable (Listed l e) := by
  unfold Listed
  infer_instance

section Push

variable {db : MemoryDb}

/-- No row got a server id since `db` but those of the list. -/
def OnlySynced (db : MemoryDb) (ids : List Nat) (s : MemoryDb) : Prop :=
  ∀ id, Synced s id → Synced db id ∨ id ∈ ids

/-- An update that gives no row a server id, but for those of the list. -/
theorem OnlySynced.updateRows {ids : List Nat} {s : MemoryDb} (h : OnlySynced db ids s)
    {p : NoteRow → Bool} {f : NoteRow → NoteRow} (hid : ∀ r, (f r).id = r.id)
    (hf : ∀ r, p r → (f r).remoteId ≠ none → r.remoteId ≠ none ∨ r.id ∈ ids) :
    OnlySynced db ids (s.updateRows p f) := by
  rintro id ⟨r, hr, rfl, hremote⟩
  rcases List.mem_map.mp hr with ⟨x, hx, rfl⟩
  by_cases hp : p x = true
  · rw [if_pos hp] at hremote ⊢
    rw [hid]
    rcases hf x hp hremote with hold | hnew
    · exact h x.id ⟨x, hx, rfl, hold⟩
    · exact Or.inr hnew
  · rw [if_neg hp] at hremote ⊢
    exact h x.id ⟨x, hx, rfl, hremote⟩

theorem OnlySynced.cons {ids : List Nat} {s : MemoryDb} (h : OnlySynced db ids s) (id : Nat) :
    OnlySynced db (id :: ids) s :=
  fun x hx => (h x hx).imp_right (List.mem_cons_of_mem _)

theorem keeps_ensureUuid_onlySynced {ids : List Nat} (id : Nat) (fresh : String) :
    Sql.Keeps (OnlySynced db ids) (ensureUuid id fresh) := by
  refine Sql.Keeps.bind (Sql.Keeps.statement (fun s n s' hs hrun => ?_)) (fun _ => Sql.Keeps.ok _)
  rw [(MemoryDb.of_checked_eq_ok hrun).2.1]
  exact hs.updateRows (fun _ => rfl) (fun _ _ hremote => Or.inl hremote)

theorem keeps_setRemoteId_onlySynced {ids : List Nat} {id : Nat} (hid : id ∈ ids)
    (remoteId : String) : Sql.Keeps (OnlySynced db ids) (setRemoteId id remoteId) := by
  refine Sql.Keeps.bind (Sql.Keeps.statement (fun s n s' hs hrun => ?_)) (fun _ => Sql.Keeps.ok _)
  rw [(MemoryDb.of_checked_eq_ok hrun).2.1]
  exact hs.updateRows (fun _ => rfl) (fun r hp _ => Or.inr (by
    rw [decide_eq_true_eq] at hp
    rw [hp.1]
    exact hid))

theorem keeps_rowsForSync_onlySynced {ids : List Nat} (includeArchived : Bool)
    (fresh : Nat → String) : Sql.Keeps (OnlySynced db ids) (rowsForSync includeArchived fresh) :=
  Sql.Keeps.bind (Sql.Keeps.query _) (fun _ => Sql.Keeps.foldEach _ _ (fun _ _ _ =>
    Sql.Keeps.bind (keeps_ensureUuid_onlySynced _ _) (fun _ =>
      Sql.Keeps.bind (Sql.Keeps.query _) (fun _ => Sql.Keeps.ok _))))

/-- What the loop over a batch and over the chunks knows of its rows. -/
abbrev LoopSynced (db : MemoryDb) (s : PushLoop) (t : MemoryDb) : Prop :=
  OnlySynced db s.justSynced t

theorem post_recordResult (chunk : List SyncRow) (s : PushLoop) (item : CloudSync.BatchItemResult) :
    Sql.Post (LoopSynced db s) (recordResult chunk s item) (fun s' t => LoopSynced db s' t)
      (fun _ => True) := by
  unfold recordResult
  rcases item.affirmed chunk with _ | ⟨localId, cloudId⟩
  · exact Sql.Post.ok _ (fun _ ht => ht)
  · refine Sql.Post.bind (Q := fun _ => OnlySynced db (localId :: s.justSynced))
      (Sql.Post.mono (Sql.Post.of_keeps (keeps_setRemoteId_onlySynced List.mem_cons_self cloudId))
        (fun _ ht => ht.cons localId) (fun _ _ ht => ht) (fun _ _ => trivial))
      (fun _ => Sql.Post.ok _ (fun _ ht => ht))

theorem post_pushChunks (server : PushServer) (chunks : List (List SyncRow)) (n : Nat)
    (s : PushLoop) :
    Sql.Post (LoopSynced db s) (pushChunks server n chunks s) (fun s' t => LoopSynced db s' t)
      (fun _ => True) := by
  induction chunks generalizing n s with
  | nil => exact Sql.Post.ok _ (fun _ ht => ht)
  | cons chunk rest ih =>
      unfold pushChunks
      rcases server.pushBatch n with _ | res
      · exact Sql.Post.ok _ (fun _ ht => ht)
      · refine Sql.Post.bind (Q := fun s' t => LoopSynced db s' t) ?_ (fun s' => ih (n + 1) s')
        refine Sql.Post.mono (Sql.Post.foldEach (I := fun _ s' t => LoopSynced db s' t) res.results
          (s.aggregate res) (fun _ item _ s' _ => post_recordResult chunk s' item)) (fun t ht => ?_)
          (fun _ _ ht => ht) (fun _ ht => ht)
        show OnlySynced db (s.aggregate res).justSynced t
        unfold PushLoop.aggregate
        split <;> exact ht

/-- The deletions are the server's. -/
theorem keeps_deleteArchived {I : MemoryDb → Prop} (server : PushServer) (rows : List SyncRow) :
    Sql.Keeps I (deleteArchived server rows) := by
  refine Sql.Keeps.forEach _ (fun r _ => ?_)
  rcases r.remoteId with _ | remoteId
  · exact Sql.Keeps.ok ()
  · by_cases hdone : server.deleteRemote remoteId = true
    · simp only [if_pos hdone]
      exact Sql.Keeps.ok ()
    · simp only [if_neg hdone]
      exact Sql.Keeps.fail _

/-- The edges of the store that touch one of the rows. -/
def SendsTouching (ids : List Nat) (posted : List SyncEdge) (t : MemoryDb) : Prop :=
  ∀ p ∈ t.relatesToEdgesForSync, p.fromLocalId ∈ ids ∨ p.toLocalId ∈ ids → p ∈ posted

theorem post_pushRelatesToEdges (server : PushServer) (ids : List Nat) :
    Sql.Post (OnlySynced db ids) (pushRelatesToEdges server ids)
      (fun posted t => OnlySynced db ids t ∧ SendsTouching ids posted t) (OnlySynced db ids) := by
  unfold pushRelatesToEdges
  by_cases hnone : ids = []
  · rw [if_pos hnone]
    refine Sql.Post.ok _ (fun t ht => ⟨ht, fun p _ htouch => ?_⟩)
    rw [hnone] at htouch
    exact absurd htouch (by simp)
  · rw [if_neg hnone]
    refine Sql.Post.bind (Q := fun all t => all = t.relatesToEdgesForSync ∧ OnlySynced db ids t)
      (Sql.Post.query _ (fun _ ht => ⟨rfl, ht⟩) (fun _ ht => ht)) (fun all => ?_)
    extract_lets edges
    have hsends : ∀ t, all = t.relatesToEdgesForSync → SendsTouching ids edges t := by
      intro t hall p hp htouch
      exact List.mem_filter.mpr ⟨hall ▸ hp, decide_eq_true htouch⟩
    by_cases hempty : edges = []
    · rw [if_pos hempty]
      exact Sql.Post.ok _ (fun t ht => ⟨ht.2, hempty ▸ hsends t ht.1⟩)
    · rw [if_neg hempty]
      split
      · exact Sql.Post.ok _ (fun t ht => ⟨ht.2, hsends t ht.1⟩)
      · exact Sql.Post.fail _ (fun t ht => ht.2)

/-- What a push that reports no failure sent: every edge to send with an end it synced. -/
def SentNew (db : MemoryDb) (summary : PushSummary) (t : MemoryDb) : Prop :=
  summary.clean = true → ∀ p ∈ t.relatesToEdgesForSync,
    (Synced t p.fromLocalId ∧ ¬ Synced db p.fromLocalId) ∨
      (Synced t p.toLocalId ∧ ¬ Synced db p.toLocalId) → p ∈ summary.posted

theorem sentNew_of_onlySynced {ids : List Nat} {t : MemoryDb} {summary : PushSummary}
    (h : OnlySynced db ids t) (hsent : SendsTouching ids summary.posted t) :
    SentNew db summary t := by
  intro _ p hp htouch
  refine hsent p hp (htouch.imp (fun hnew => ?_) (fun hnew => ?_))
  · exact (h _ hnew.1).resolve_left hnew.2
  · exact (h _ hnew.1).resolve_left hnew.2

theorem post_pushLocal (includeArchived : Bool) (fresh : Nat → String) (server : PushServer) :
    Sql.Post (fun t => t = db) (pushLocal includeArchived fresh server) (SentNew db)
      (fun _ => True) := by
  have hrows : Sql.Post (fun t => t = db) (rowsForSync includeArchived fresh)
      (fun _ => OnlySynced db []) (fun _ => True) :=
    Sql.Post.mono (Sql.Post.of_keeps (keeps_rowsForSync_onlySynced includeArchived fresh))
      (fun t ht id hid => Or.inl (ht ▸ hid)) (fun _ _ ht => ht) (fun _ _ => trivial)
  refine Sql.Post.bind hrows (fun rows => ?_)
  split
  · -- Nothing to push: no row was synced.
    refine Sql.Post.ok _ (fun t ht => sentNew_of_onlySynced ht (fun p _ htouch => ?_))
    exact absurd htouch (by simp)
  · refine Sql.Post.bind (Q := fun s t => LoopSynced db s t) (Sql.Post.mono
      (post_pushChunks server _ 0 _) (fun _ ht => ht) (fun _ _ ht => ht) (fun _ ht => ht))
      (fun s => ?_)
    split
    · next hstopped =>
      refine Sql.Post.ok _ (fun t _ hclean => ?_)
      rw [PushSummary.clean, hstopped] at hclean
      exact absurd hclean (by simp)
    · refine Sql.Post.bind (Q := fun _ t => LoopSynced db s t) (Sql.Post.mono (Sql.Post.of_keeps
        (Sql.Keeps.whenever (keeps_deleteArchived server rows))) (fun _ ht => ht) (fun _ _ ht => ht)
        (fun _ _ => trivial)) (fun _ => ?_)
      have hcaught : Sql.Post (LoopSynced db s) (Sql.attempt (pushRelatesToEdges server s.justSynced))
          (fun r t => ∀ posted, r = .ok posted →
            LoopSynced db s t ∧ SendsTouching s.justSynced posted t) (fun _ => True) :=
        Sql.Post.attempt (post_pushRelatesToEdges server s.justSynced)
          (fun posted t ht r hr => Except.ok.inj hr ▸ ht) (fun e t _ r hr => absurd hr (by simp))
      refine Sql.Post.bind hcaught (fun r => ?_)
      rcases r with e | posted
      · refine Sql.Post.ok _ (fun t _ hclean => ?_)
        exact absurd hclean (by simp [PushSummary.clean])
      · exact Sql.Post.ok _ (fun t ht => sentNew_of_onlySynced (ht posted rfl).1 (ht posted rfl).2)

/-- The edges are read, and sent. -/
theorem keeps_pushRelatesToEdges {I : MemoryDb → Prop} (server : PushServer) (ids : List Nat) :
    Sql.Keeps I (pushRelatesToEdges server ids) := by
  unfold pushRelatesToEdges
  split
  · exact Sql.Keeps.ok _
  · refine Sql.Keeps.bind (Sql.Keeps.query _) (fun all => ?_)
    extract_lets edges
    split
    · exact Sql.Keeps.ok _
    · split
      · exact Sql.Keeps.ok _
      · exact Sql.Keeps.fail _

/-- A push writes uuids and server ids. -/
theorem keeps_pushLocal {I : MemoryDb → Prop} (huuid : ∀ id fresh, Sql.Keeps I (ensureUuid id fresh))
    (hremote : ∀ id remoteId, Sql.Keeps I (setRemoteId id remoteId)) (includeArchived : Bool)
    (fresh : Nat → String) (server : PushServer) :
    Sql.Keeps I (pushLocal includeArchived fresh server) := by
  have hrows : Sql.Keeps I (rowsForSync includeArchived fresh) :=
    Sql.Keeps.bind (Sql.Keeps.query _) (fun _ => Sql.Keeps.foldEach _ _ (fun _ _ _ =>
      Sql.Keeps.bind (huuid _ _) (fun _ => Sql.Keeps.bind (Sql.Keeps.query _) (fun _ =>
        Sql.Keeps.ok _))))
  have hresult : ∀ chunk s item, Sql.Keeps I (recordResult chunk s item) := by
    intro chunk s item
    unfold recordResult
    rcases item.affirmed chunk with _ | ⟨localId, cloudId⟩
    · exact Sql.Keeps.ok _
    · exact Sql.Keeps.bind (hremote localId cloudId) (fun _ => Sql.Keeps.ok _)
  have hchunks : ∀ chunks n s, Sql.Keeps I (pushChunks server n chunks s) := by
    intro chunks
    induction chunks with
    | nil => exact fun _ _ => Sql.Keeps.ok _
    | cons chunk rest ih =>
        intro n s
        unfold pushChunks
        rcases server.pushBatch n with _ | res
        · exact Sql.Keeps.ok _
        · exact Sql.Keeps.bind (Sql.Keeps.foldEach _ _ (fun s item _ => hresult chunk s item))
            (fun s => ih (n + 1) s)
  refine Sql.Keeps.bind hrows (fun rows => ?_)
  split
  · exact Sql.Keeps.ok _
  · refine Sql.Keeps.bind (hchunks _ 0 _) (fun s => ?_)
    split
    · exact Sql.Keeps.ok _
    · refine Sql.Keeps.bind (Sql.Keeps.whenever (keeps_deleteArchived server rows)) (fun _ =>
        Sql.Keeps.bind (Sql.Keeps.attempt
          (keeps_pushRelatesToEdges server s.justSynced)) (fun r => ?_))
      rcases r with e | posted
      · exact Sql.Keeps.ok _
      · exact Sql.Keeps.ok _

theorem keeps_edges_updateNotes (edges : List MemoryEdge) (p : NoteRow → Bool)
    (f : NoteRow → NoteRow) : Sql.Keeps (fun t => t.edges = edges) (updateNotes p f) :=
  Sql.Keeps.statement (fun s n s' hs hrun => by
    rw [(MemoryDb.of_checked_eq_ok hrun).2.1]
    exact hs)

/-- A push records no edge and removes none. -/
theorem keeps_edges_pushLocal (edges : List MemoryEdge) (includeArchived : Bool)
    (fresh : Nat → String) (server : PushServer) :
    Sql.Keeps (fun t => t.edges = edges) (pushLocal includeArchived fresh server) :=
  keeps_pushLocal
    (fun _ _ => Sql.Keeps.bind (keeps_edges_updateNotes edges _ _) (fun _ => Sql.Keeps.ok _))
    (fun _ _ => Sql.Keeps.bind (keeps_edges_updateNotes edges _ _) (fun _ => Sql.Keeps.ok _))
    includeArchived fresh server

end Push

section Runs

variable [Sha256]

/-- A store, and every edge it sent in a request that was answered. -/
structure EdgeWorld where
  db : MemoryDb
  posted : List SyncEdge
deriving DecidableEq

/-- What happens to it; each may be stopped by a fault at a statement. -/
inductive EdgeEvent where
  | push (fault : Option Nat) (includeArchived : Bool) (fresh : Nat → String)
      (server : PushServer)
  /-- The relay acknowledges a row that it pushed. -/
  | ack (fault : Option Nat) (externalId remoteId : String)
  /-- `memory add --relates-to` records its edge. -/
  | relate (fault : Option Nat) (now : Int) (fromId toId : Nat)
  /-- Any other command; a pull applies its entries so. -/
  | command (fault : Option Nat) (op : StoreOp)

/-- The edges a push sent. -/
def sentBy (result : Except SqlError PushSummary) : List SyncEdge :=
  match result with
  | .ok summary => summary.posted
  | .error _ => []

def edgeNext (s : EdgeWorld) : EdgeEvent → EdgeWorld
  | .push fault includeArchived fresh server =>
      let c := pushLocal includeArchived fresh server ⟨s.db, fault⟩
      { db := c.2.db, posted := s.posted ++ sentBy c.1 }
  | .ack fault externalId remoteId =>
      { s with db := (applyPushAck externalId remoteId ⟨s.db, fault⟩).2.db }
  | .relate fault now fromId toId =>
      { s with db := (addEdge now fromId toId .relatesTo ⟨s.db, fault⟩).2.db }
  | .command fault op => { s with db := (op.run ⟨s.db, fault⟩).2.db }

/-- The event is a push that ends and reports no failure. -/
def EndsClean (s : EdgeWorld) : EdgeEvent → Prop
  | .push fault includeArchived fresh server =>
      ∃ summary, (pushLocal includeArchived fresh server ⟨s.db, fault⟩).1 = .ok summary ∧
        summary.clean = true
  | _ => False

/-- An edge that the event completes is completed by a push that reports no failure, and
    has two uuids then. -/
def CompletesByPush (s : EdgeWorld) (e : EdgeEvent) : Prop :=
  ∀ edge, CompleteEdge (edgeNext s e).db edge → CompleteEdge s.db edge ∨
    (EndsClean s e ∧ Listed (edgeNext s e).db.relatesToEdgesForSync edge)

/-- Every complete edge was sent. -/
def AllSent (s : EdgeWorld) : Prop := ∀ edge, CompleteEdge s.db edge → Listed s.posted edge

/-- Nothing that was sent is forgotten. -/
theorem listed_edgeNext {s : EdgeWorld} {edge : MemoryEdge} (e : EdgeEvent)
    (h : Listed s.posted edge) : Listed (edgeNext s e).posted edge := by
  rcases h with ⟨p, hp, hends⟩
  refine ⟨p, ?_, hends⟩
  cases e with
  | push => exact List.mem_append_left _ hp
  | ack => exact hp
  | relate => exact hp
  | command => exact hp

/-- A push that reports no failure sends what it completes. -/
theorem sent_of_endsClean {s : EdgeWorld} {e : EdgeEvent} {edge : MemoryEdge}
    (hclean : EndsClean s e) (hnew : CompleteEdge (edgeNext s e).db edge)
    (hold : ¬ CompleteEdge s.db edge)
    (hlisted : Listed (edgeNext s e).db.relatesToEdgesForSync edge) :
    Listed (edgeNext s e).posted edge := by
  cases e with
  | push fault includeArchived fresh server =>
      rcases hclean with ⟨summary, hrun, hclean⟩
      rcases hlisted with ⟨p, hp, hfrom, hto⟩
      have hsent := (post_pushLocal includeArchived fresh server ⟨s.db, fault⟩ rfl).1 summary hrun
      refine ⟨p, List.mem_append_right _ ?_, hfrom, hto⟩
      simp only [hrun, sentBy]
      refine hsent hclean p hp ?_
      rw [hfrom, hto]
      -- The edge was there, so one of its ends was not synced.
      have hthere : edge ∈ s.db.edges := by
        have hkept := keeps_edges_pushLocal s.db.edges includeArchived fresh server
          ⟨s.db, fault⟩ rfl
        exact hkept ▸ hnew.1
      by_cases hend : Synced s.db edge.fromId
      · exact Or.inr ⟨hnew.2.2.2, fun hend' => hold ⟨hthere, hnew.2.1, hend, hend'⟩⟩
      · exact Or.inl ⟨hnew.2.2.1, hend⟩
  | ack => exact absurd hclean id
  | relate => exact absurd hclean id
  | command => exact absurd hclean id

def edgeStep (s : EdgeWorld) (e : EdgeEvent) (s' : EdgeWorld) : Prop := s' = edgeNext s e

/-- In a run whose steps complete edges by pushes alone that report no failure, every
    complete edge was sent. -/
theorem edgeSyncLaw {start s : EdgeWorld} (hstart : AllSent start)
    (h : GuardedRun edgeStep CompletesByPush start s) : AllSent s := by
  refine h.invariant hstart (fun t e u hsent hguard hstep edge hcomplete => ?_)
  subst hstep
  by_cases hold : CompleteEdge t.db edge
  · exact listed_edgeNext e (hsent edge hold)
  · rcases hguard edge hcomplete with hbefore | ⟨hclean, hlisted⟩
    · exact absurd hbefore hold
    · exact sent_of_endsClean hclean hcomplete hold hlisted

end Runs

/-- A note that was pushed by no one yet. -/
def unsyncedRow (id : Nat) (title uuid : String) : NoteRow where
  id := id
  kind := "note"
  title := title
  body := ""
  tags := none
  linkedFiles := none
  createdAt := 10
  status := "active"
  supersededBy := none
  sourceRef := none
  validAt := none
  invalidAt := none
  uuid := some uuid
  remoteId := none
  entityId := none

/-- The edge between the two notes. -/
def relatedEdge : MemoryEdge := ⟨2, 1, .relatesTo, 20⟩

/-- Two related notes, and nothing sent. -/
def relatedNotes : EdgeWorld where
  db :=
    { notes := [unsyncedRow 1 "Storage" "u-1", unsyncedRow 2 "Backups" "u-2"]
      edges := [relatedEdge]
      embeddings := []
      nextId := 3
      entityIdUnique := true }
  posted := []

/-- A server that affirms both notes, and answers every request. -/
def affirmingServer : PushServer where
  pushBatch _ := some ⟨2, 0, 0, [⟨some "u-1", some "r-1", "created"⟩,
    ⟨some "u-2", some "r-2", "created"⟩]⟩
  deleteRemote _ := true
  pushEdges := true

/-- A push of the two notes. -/
def pushBoth : EdgeEvent := .push none false (fun _ => "") affirmingServer

/-- The push that completes the edge sends it. -/
theorem edgeSyncLaw_pushed :
    AllSent (@edgeNext workedSha256 relatedNotes pushBoth) := by
  let _ : Sha256 := workedSha256
  refine edgeSyncLaw (s := edgeNext relatedNotes pushBoth) (fun edge h => ?_)
    (GuardedRun.refl.tail pushBoth (fun edge h => ?_) rfl)
  · rcases h.2.2.1 with ⟨r, hr, _, hremote⟩
    exact absurd hremote ((by decide : ∀ r ∈ relatedNotes.db.notes, ¬ r.remoteId ≠ none) r hr)
  · have hedges : (edgeNext relatedNotes pushBoth).db.edges = [relatedEdge] := rfl
    have hedge : edge = relatedEdge := List.mem_singleton.mp (hedges ▸ h.1)
    exact Or.inr ⟨⟨_, rfl, rfl⟩, hedge ▸ by decide +kernel⟩

/-- An edge whose ends the relay pushed is not sent by the push after. -/
theorem ackedEdge_notSent :
    let acked := @edgeNext workedSha256 (@edgeNext workedSha256 relatedNotes
      (.ack none "u-1" "r-1")) (.ack none "u-2" "r-2")
    EndsClean acked pushBoth ∧ ¬ AllSent (@edgeNext workedSha256 acked pushBoth) := by
  refine ⟨⟨_, rfl, rfl⟩, fun h => ?_⟩
  exact absurd (h relatedEdge ⟨by decide +kernel, rfl, by decide +kernel, by decide +kernel⟩)
    (by decide +kernel)

end Spelunk
