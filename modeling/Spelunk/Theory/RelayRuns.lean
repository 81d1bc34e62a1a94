import Spelunk.Core.Relay
import Spelunk.Lib.Transition

/-!
# What a Relay Session Keeps

The buffers of the relay are the only copy of what a push was answered and a
catch-up has read, until the command line has it. `Retained` says what one event may
do to them, apart from the keys it acknowledges; a run composes it. A catch-up is
answered for the cursor it began with, so that its page may lie behind the cursor
of the session, which another catch-up or a registration has moved meanwhile: a
run keeps every cursor that a task noted below the cursor of the session, and with
it the page passes over nothing.

## Main definitions

* `Retained`: What an event leaves of the buffers and the cursor.
* `RelayRun`: Runs of a session.
* `RelayLaw`: What holds of a reached session and of every run on from it.

## Theorems

* `relayStep_kept`: One event.
* `bufferPulled_passes`: A page up to where the buffer is full.
* `relayLaw`: The law.
* `pageOf_notesSinceId`: The team server of this repository answers with pages.
-/

namespace Spelunk

open Lib (GuardedRun)

section AList

variable {β : Type}

theorem lookup_foldl_erase (ids : List String) (m : AList (fun _ : String => β)) {id : String}
    (h : id ∉ ids) : (ids.foldl (fun m id => m.erase id) m).lookup id = m.lookup id := by
  induction ids generalizing m with
  | nil => rfl
  | cons x ids ih =>
      rw [List.mem_cons, not_or] at h
      rw [List.foldl_cons, ih _ h.2, AList.lookup_erase_ne h.1]

theorem length_foldl_erase_le (ids : List String) (m : AList (fun _ : String => β)) :
    (ids.foldl (fun m id => m.erase id) m).entries.length ≤ m.entries.length := by
  induction ids generalizing m with
  | nil => exact le_refl _
  | cons x ids ih =>
      refine (ih _).trans ?_
      exact (List.kerase_sublist x m.entries).length_le

theorem length_insert_of_notMem {m : AList (fun _ : String => β)} {id : String} (b : β)
    (h : id ∉ m) : (m.insert id b).entries.length = m.entries.length + 1 := by
  rw [AList.entries_insert_of_notMem h, List.length_cons]

theorem length_insert_of_mem {m : AList (fun _ : String => β)} {id : String} (b : β)
    (h : id ∈ m) : (m.insert id b).entries.length = m.entries.length := by
  have hkeys : (m.insert id b).keys.length = m.keys.length := by
    rw [AList.keys_insert, List.length_cons, List.length_erase_add_one (AList.mem_keys.mp h)]
  simp only [AList.keys, List.keys, List.length_map] at hkeys
  exact hkeys

theorem lookup_insert_other {m : AList (fun _ : String => β)} {id id' : String} {b : β}
    (h : id' ≠ id) : (m.insert id b).lookup id' = m.lookup id' :=
  AList.lookup_insert_ne h

end AList

/-- The buffers are within their bounds. -/
structure RelayInner.Bounded (s : RelayInner) : Prop where
  pushResults : s.pushResults.entries.length ≤ maxBufferedItemsPerSession
  pulled : s.pulled.entries.length ≤ maxBufferedItemsPerSession

/-- What is left of `s` in `t`: the cursor has not moved back, pulled entries and
    results are there but for the keys gone, a remote id once known is known, and
    the buffers are within their bounds if they were. -/
structure Retained (goneResults gonePulled : String → Prop) (s t : RelayInner) : Prop where
  cursor : s.cursor ≤ t.cursor
  pulled : ∀ id e, ¬ gonePulled id → s.pulled.lookup id = some e → t.pulled.lookup id = some e
  results : ∀ id r, ¬ goneResults id → s.pushResults.lookup id = some r →
    ∃ r', t.pushResults.lookup id = some r' ∧ (r.remoteId.isSome → r'.remoteId.isSome)
  bounded : s.Bounded → t.Bounded

namespace Retained

variable {goneResults gonePulled : String → Prop} {s t u : RelayInner}

theorem refl (s : RelayInner) : Retained goneResults gonePulled s s where
  cursor := le_refl _
  pulled _ _ _ h := h
  results _ r _ h := ⟨r, h, fun h => h⟩
  bounded h := h

theorem trans (h : Retained goneResults gonePulled s t) (h' : Retained goneResults gonePulled t u) :
    Retained goneResults gonePulled s u where
  cursor := h.cursor.trans h'.cursor
  pulled id e hid he := h'.pulled id e hid (h.pulled id e hid he)
  results id r hid hr := by
    rcases h.results id r hid hr with ⟨r', hr', hsome⟩
    rcases h'.results id r' hid hr' with ⟨r'', hr'', hsome'⟩
    exact ⟨r'', hr'', fun h => hsome' (hsome h)⟩
  bounded hs := h'.bounded (h.bounded hs)

/-- What the cursor and the buffers do not depend on may change. -/
theorem of_eq (hcursor : t.cursor = s.cursor) (hpulled : t.pulled = s.pulled)
    (hresults : t.pushResults = s.pushResults) : Retained goneResults gonePulled s t where
  cursor := hcursor.ge
  pulled _ _ _ h := by rw [hpulled]; exact h
  results _ r _ h := ⟨r, by rw [hresults]; exact h, fun h => h⟩
  bounded h := ⟨by rw [hresults]; exact h.1, by rw [hpulled]; exact h.2⟩

end Retained

/-- Nothing is gone. -/
abbrev RetainedAll : RelayInner → RelayInner → Prop := Retained (fun _ => False) (fun _ => False)

theorem RetainedAll.kept {goneResults gonePulled : String → Prop} {s t : RelayInner}
    (h : RetainedAll s t) : Retained goneResults gonePulled s t where
  cursor := h.cursor
  pulled id e _ he := h.pulled id e not_false he
  results id r _ hr := h.results id r not_false hr
  bounded := h.bounded

section Parts

variable (s : RelayInner)

theorem setBearer_kept (bearer : Option String) : RetainedAll s (s.setBearer bearer) := by
  unfold RelayInner.setBearer
  by_cases h : bearer.isSome
  · rw [if_pos h]
    exact Retained.of_eq rfl rfl rfl
  · rw [if_neg h]
    exact Retained.refl s

theorem seedCursor_kept (since : Option String) : RetainedAll s (s.seedCursor since) := by
  unfold RelayInner.seedCursor
  cases since with
  | none => exact Retained.refl s
  | some since =>
      by_cases h : s.cursor.unbotD "" < since
      · simp only [if_pos h]
        have hle : s.cursor ≤ (since : WithBot String) := by
          cases hcursor : s.cursor with
          | bot => exact bot_le
          | coe c =>
              rw [hcursor, WithBot.unbotD_coe] at h
              exact WithBot.coe_le_coe.mpr h.le
        exact ⟨hle, fun _ _ _ h => h, fun _ r _ h => ⟨r, h, fun h => h⟩, fun h => ⟨h.1, h.2⟩⟩
      · simp only [if_neg h]
        exact Retained.refl s

/-- The cursor ends at or above the id it is raised to. -/
theorem raiseCursor_cursor (id : String) :
    s.cursor ≤ (s.raiseCursor id).cursor ∧ (s.raiseCursor id).cursor = max s.cursor id := by
  unfold RelayInner.raiseCursor
  by_cases h : s.cursor < id
  · rw [if_pos h]
    exact ⟨h.le, (max_eq_right h.le).symm⟩
  · rw [if_neg h]
    exact ⟨le_refl _, (max_eq_left (not_lt.mp h)).symm⟩

theorem raiseCursor_pulled (id : String) : (s.raiseCursor id).pulled = s.pulled := by
  unfold RelayInner.raiseCursor
  split <;> rfl

theorem raiseCursor_kept (id : String) : RetainedAll s (s.raiseCursor id) where
  cursor := (raiseCursor_cursor s id).1
  pulled k e _ h := by rw [raiseCursor_pulled]; exact h
  results k r _ h := ⟨r, by unfold RelayInner.raiseCursor; split <;> exact h, fun h => h⟩
  bounded h := ⟨by unfold RelayInner.raiseCursor; split <;> exact h.1,
    by rw [raiseCursor_pulled]; exact h.2⟩

/-- A result under a new key, while there is room. -/
theorem insertResult_new_kept {externalId : String} (r : PushOutcome)
    (hnew : s.pushResults.lookup externalId = none)
    (hroom : ¬ maxBufferedItemsPerSession ≤ s.pushResults.entries.length) :
    RetainedAll s (s.insertResult externalId r) where
  cursor := le_refl _
  pulled _ _ _ h := h
  results id old _ h := by
    have hne : id ≠ externalId := by
      intro heq
      rw [heq, hnew] at h
      cases h
    exact ⟨old, (lookup_insert_other hne).trans h, fun h => h⟩
  bounded h := by
    refine ⟨?_, h.2⟩
    have hlength := length_insert_of_notMem ⟨externalId, r.id, r.status⟩
      (AList.lookup_eq_none.mp hnew)
    rw [RelayInner.insertResult, hlength]
    omega

/-- A result in the place of one that it does not lose the remote id of. -/
theorem insertResult_again_kept {externalId : String} (r : PushOutcome) {buffered : RelayPushResult}
    (hold : s.pushResults.lookup externalId = some buffered)
    (hid : r.id.isSome ∨ buffered.remoteId = none) :
    RetainedAll s (s.insertResult externalId r) where
  cursor := le_refl _
  pulled _ _ _ h := h
  results id old _ h := by
    by_cases hne : id = externalId
    · rw [hne] at h ⊢
      rw [hold] at h
      refine ⟨_, AList.lookup_insert _, fun hsome => ?_⟩
      rcases hid with hid | hid
      · exact hid
      · rw [← Option.some.inj h, hid] at hsome
        cases hsome
    · exact ⟨old, (lookup_insert_other hne).trans h, fun h => h⟩
  bounded h := by
    refine ⟨?_, h.2⟩
    have hmem : externalId ∈ s.pushResults := by
      rw [← AList.lookup_isSome, hold]
      rfl
    have hlength := length_insert_of_mem (⟨externalId, r.id, r.status⟩ : RelayPushResult) hmem
    rw [RelayInner.insertResult, hlength]
    exact h.1

theorem bufferResult_kept (bufferFull : Bool) (r : PushOutcome) :
    RetainedAll s (RelayInner.bufferResult (s, bufferFull) r).1 := by
  unfold RelayInner.bufferResult
  cases hexternal : r.externalId with
  | none => exact Retained.refl s
  | some externalId =>
      simp only []
      by_cases hstatus : r.status = "created" ∨ r.status = "skipped"
      · rw [if_pos hstatus]
        cases hlookup : s.pushResults.lookup externalId with
        | some buffered =>
            simp only []
            by_cases hid : r.id.isSome ∨ buffered.remoteId = none
            · rw [if_pos hid]
              exact insertResult_again_kept s r hlookup hid
            · rw [if_neg hid]
              exact Retained.refl s
        | none =>
            simp only []
            by_cases hfull : maxBufferedItemsPerSession ≤ s.pushResults.entries.length
            · rw [if_pos hfull]
              exact Retained.refl s
            · rw [if_neg hfull]
              exact insertResult_new_kept s r hlookup hfull
      · rw [if_neg hstatus]
        exact Retained.refl s

theorem foldl_bufferResult_kept (results : List PushOutcome) (bufferFull : Bool) :
    RetainedAll s (results.foldl RelayInner.bufferResult (s, bufferFull)).1 := by
  induction results generalizing s bufferFull with
  | nil => exact Retained.refl s
  | cons r results ih =>
      exact (bufferResult_kept s bufferFull r).trans (ih _ _)

theorem pushAnswered_kept (now : Int) (results : List PushOutcome) :
    RetainedAll s (s.pushAnswered now results) :=
  (foldl_bufferResult_kept s results false).trans (Retained.of_eq rfl rfl rfl)

/-- An entry under a new key, while there is room. -/
theorem insertPulled_kept {e : RemoteEntry} (hnew : e.id ∉ s.pulled)
    (hroom : ¬ maxBufferedItemsPerSession ≤ s.pulled.entries.length) :
    RetainedAll s { s with pulled := s.pulled.insert e.id e.pulledEntry } where
  cursor := le_refl _
  pulled id old _ h := by
    have hne : id ≠ e.id := by
      intro heq
      rw [heq, AList.lookup_eq_none.mpr hnew] at h
      cases h
    exact (lookup_insert_other hne).trans h
  results _ r _ h := ⟨r, h, fun h => h⟩
  bounded h := by
    refine ⟨h.1, ?_⟩
    rw [length_insert_of_notMem _ hnew]
    omega

theorem bufferPulled_kept (entries : List RemoteEntry) : RetainedAll s (s.bufferPulled entries).1 := by
  induction entries generalizing s with
  | nil => exact Retained.refl s
  | cons e entries ih =>
      unfold RelayInner.bufferPulled
      by_cases hmem : e.id ∈ s.pulled
      · rw [if_pos hmem]
        exact (raiseCursor_kept s e.id).trans (ih _)
      · rw [if_neg hmem]
        by_cases hfull : maxBufferedItemsPerSession ≤ s.pulled.entries.length
        · rw [if_pos hfull]
          exact Retained.refl s
        · rw [if_neg hfull]
          exact ((insertPulled_kept s hmem hfull).trans (raiseCursor_kept _ e.id)).trans (ih _)

theorem catchUpAnswered_kept (now : Int) (entries : List RemoteEntry) :
    RetainedAll s (s.catchUpAnswered now entries) := by
  unfold RelayInner.catchUpAnswered
  by_cases h : entries = []
  · rw [if_pos h]
    exact Retained.refl s
  · rw [if_neg h]
    exact (bufferPulled_kept s entries).trans (Retained.of_eq rfl rfl rfl)

theorem ack_kept (results pulled : List String) :
    Retained (· ∈ results) (· ∈ pulled) s (s.ack results pulled) where
  cursor := le_refl _
  pulled _ _ hid h := (lookup_foldl_erase pulled _ hid).trans h
  results _ r hid h := ⟨r, (lookup_foldl_erase results _ hid).trans h, fun h => h⟩
  bounded h := ⟨(length_foldl_erase_le results _).trans h.1,
    (length_foldl_erase_le pulled _).trans h.2⟩

/-- A page up to where the buffer is full: a key above the cursor that the page does
    not leave out below its end is buffered in the end, or still above the cursor. -/
theorem bufferPulled_passes {entries : List RemoteEntry} {k : String}
    (hsorted : entries.Pairwise (fun e e' => e.id < e'.id))
    (hpage : ∀ e ∈ entries, k ≤ e.id → k ∈ entries.map (·.id)) (hk : s.cursor < k) :
    k ∈ (s.bufferPulled entries).1.pulled ∨ (s.bufferPulled entries).1.cursor < k := by
  induction entries generalizing s with
  | nil => exact Or.inr hk
  | cons e entries ih =>
      rw [List.pairwise_cons] at hsorted
      have htail : e.id ≠ k → ∀ e' ∈ entries, k ≤ e'.id → k ∈ entries.map (·.id) := by
        intro hne e' he' hle
        have hmem := hpage e' (List.mem_cons_of_mem _ he') hle
        rw [List.map_cons, List.mem_cons] at hmem
        exact hmem.resolve_left (Ne.symm hne)
      have hlt : e.id ≠ k → e.id < k := by
        intro hne
        refine lt_of_not_ge (fun hle => ?_)
        have hmem := hpage e List.mem_cons_self hle
        rw [List.map_cons, List.mem_cons] at hmem
        rcases hmem with heq | hmem
        · exact hne heq.symm
        · rcases List.mem_map.mp hmem with ⟨e', he', heq⟩
          have habove := hsorted.1 e' he'
          rw [heq] at habove
          exact absurd (lt_of_lt_of_le habove hle) (lt_irrefl _)
      -- An entry that is in the buffer: the rest of the page keeps it there.
      have hrest : ∀ u : RelayInner, u.cursor = s.cursor → e.id ∈ u.pulled →
          k ∈ ((u.raiseCursor e.id).bufferPulled entries).1.pulled ∨
            ((u.raiseCursor e.id).bufferPulled entries).1.cursor < k := by
        intro u hcursor hmem
        by_cases heq : e.id = k
        · left
          rw [← heq]
          rcases Option.isSome_iff_exists.mp (AList.lookup_isSome.mpr hmem) with ⟨b, hb⟩
          have hkept := (raiseCursor_kept u e.id).trans (bufferPulled_kept _ entries)
          exact AList.lookup_isSome.mp
            (Option.isSome_iff_exists.mpr ⟨b, hkept.pulled e.id b not_false hb⟩)
        · refine ih _ hsorted.2 (htail heq) ?_
          rw [(raiseCursor_cursor u e.id).2, hcursor]
          exact max_lt hk (WithBot.coe_lt_coe.mpr (hlt heq))
      unfold RelayInner.bufferPulled
      by_cases hmem : e.id ∈ s.pulled
      · rw [if_pos hmem]
        exact hrest s rfl hmem
      · rw [if_neg hmem]
        by_cases hfull : maxBufferedItemsPerSession ≤ s.pulled.entries.length
        · rw [if_pos hfull]
          exact Or.inr hk
        · rw [if_neg hfull]
          exact hrest _ rfl ((AList.mem_insert _).mpr (Or.inl rfl))

end Parts

/-- The keys an event acknowledges. -/
def RelayEvent.acksResult (e : RelayEvent) (id : String) : Prop :=
  match e with
  | .ack results _ => id ∈ results
  | _ => False

def RelayEvent.acksPulled (e : RelayEvent) (id : String) : Prop :=
  match e with
  | .ack _ pulled => id ∈ pulled
  | _ => False

section Step

variable {s t : RelaySession}

/-- What an answer does to the state, whatever it is. -/
theorem settle_kept {α : Type} (i : Nat) (answer : Except String α) {f : α → RelayInner → RelayInner}
    (hf : ∀ a s, RetainedAll s (f a s)) : RetainedAll s.inner (s.settle i answer f).inner := by
  cases answer with
  | ok a => exact hf a s.inner
  | error msg => exact Retained.of_eq rfl rfl rfl

/-- What one event keeps. -/
theorem relayStep_kept {e : RelayEvent} (h : relayStep s e = some t) :
    Retained e.acksResult e.acksPulled s.inner t.inner := by
  cases e with
  | setBearer bearer => cases h; exact (setBearer_kept _ _).kept
  | seedCursor since => cases h; exact (seedCursor_kept _ _).kept
  | ensurePullTask => cases h; exact Retained.of_eq rfl rfl rfl
  | push entries =>
      rw [relayStep, Option.ite_none_left_eq_some] at h
      cases h.2
      exact Retained.refl _
  | catchUp => cases h; exact Retained.refl _
  | buildClient i failure =>
      simp only [relayStep] at h
      split at h
      · cases h; exact Retained.refl _
      · cases h; exact Retained.of_eq rfl rfl rfl
      · cases h
  | pushAnswer i answer now =>
      simp only [relayStep] at h
      split at h
      · cases h; exact (settle_kept i answer (fun a s => pushAnswered_kept s now a)).kept
      · cases h
  | catchUpAnswer i answer now =>
      simp only [relayStep] at h
      split at h
      · cases h; exact (settle_kept i answer (fun a s => catchUpAnswered_kept s now a)).kept
      · cases h
  | frameId id => cases h; exact Retained.of_eq rfl rfl rfl
  | streamError msg => cases h; exact Retained.of_eq rfl rfl rfl
  | poll => cases h; exact Retained.refl _
  | ack results pulled => cases h; exact ack_kept _ _ _

/-- The cursors that the catch-ups under way have noted are behind the session's. -/
def RelaySession.Noted (s : RelaySession) : Prop :=
  ∀ task ∈ s.tasks, ∀ cursor, task.job = .catchUp cursor → cursor ≤ s.inner.cursor

/-- A task after an event is one there was, with a client or without, or it has just
    begun. -/
theorem relayStep_tasks {e : RelayEvent} (h : relayStep s e = some t) :
    ∀ task ∈ t.tasks, (∃ old ∈ s.tasks, task.job = old.job) ∨ task.job = .catchUp s.inner.cursor ∨
      ∃ entries, task.job = .push entries := by
  have hsame : ∀ tasks : List RelayTask, (∀ task ∈ tasks, task ∈ s.tasks) → ∀ task ∈ tasks,
      (∃ old ∈ s.tasks, task.job = old.job) ∨ task.job = .catchUp s.inner.cursor ∨
        ∃ entries, task.job = .push entries :=
    fun tasks hsub task htask => Or.inl ⟨task, hsub task htask, rfl⟩
  have hsettle : ∀ {α : Type} (i : Nat) (answer : Except String α)
      (f : α → RelayInner → RelayInner), ∀ task ∈ (s.settle i answer f).tasks, task ∈ s.tasks := by
    intro α i answer f task htask
    cases answer <;> exact List.mem_of_mem_eraseIdx htask
  cases e with
  | push entries =>
      rw [relayStep, Option.ite_none_left_eq_some] at h
      cases h.2
      intro task htask
      rcases List.mem_append.mp htask with htask | htask
      · exact Or.inl ⟨task, htask, rfl⟩
      · rw [List.mem_singleton.mp htask]
        exact Or.inr (Or.inr ⟨entries, rfl⟩)
  | catchUp =>
      cases h
      intro task htask
      rcases List.mem_append.mp htask with htask | htask
      · exact Or.inl ⟨task, htask, rfl⟩
      · rw [List.mem_singleton.mp htask]
        exact Or.inr (Or.inl rfl)
  | buildClient i failure =>
      simp only [relayStep] at h
      split at h
      next job hjob =>
        cases h
        intro task htask
        rcases List.mem_or_eq_of_mem_set htask with htask | htask
        · exact Or.inl ⟨task, htask, rfl⟩
        · exact Or.inl ⟨⟨job, none⟩, List.mem_of_getElem? hjob, by rw [htask]⟩
      next =>
        cases h
        exact hsame _ (fun task htask => List.mem_of_mem_eraseIdx htask)
      next => cases h
  | pushAnswer i answer now =>
      simp only [relayStep] at h
      split at h
      · cases h; exact hsame _ (hsettle i answer _)
      · cases h
  | catchUpAnswer i answer now =>
      simp only [relayStep] at h
      split at h
      · cases h; exact hsame _ (hsettle i answer _)
      · cases h
  | setBearer | seedCursor | ensurePullTask | frameId | streamError | poll | ack =>
      cases h
      exact hsame _ (fun task htask => htask)

/-- The session's cursor stays ahead of the cursors noted. -/
theorem relayStep_noted {e : RelayEvent} (hs : s.Noted) (h : relayStep s e = some t) : t.Noted := by
  intro task htask cursor hjob
  refine le_trans ?_ (relayStep_kept h).cursor
  rcases relayStep_tasks h task htask with ⟨old, hold, heq⟩ | heq | ⟨entries, heq⟩
  · exact hs old hold cursor (heq ▸ hjob)
  · rw [heq] at hjob
    cases hjob
    exact le_refl _
  · rw [heq] at hjob
    cases hjob

end Step

/-- Runs of a session whose events all meet a condition. -/
abbrev RelayRun (guard : RelayEvent → Prop) : RelaySession → RelaySession → Prop :=
  GuardedRun (fun s e t => relayStep s e = some t) (fun _ e => guard e)

/-- What a run keeps that acknowledges only certain keys. -/
theorem relayRun_kept {guard : RelayEvent → Prop} {p q : String → Prop}
    (hresults : ∀ e id, guard e → e.acksResult id → p id)
    (hpulled : ∀ e id, guard e → e.acksPulled id → q id) {s t : RelaySession}
    (h : RelayRun guard s t) : Retained p q s.inner t.inner := by
  induction h with
  | refl => exact Retained.refl _
  | tail e _ hguard hstep ih =>
      have hone := relayStep_kept hstep
      exact ih.trans
        { cursor := hone.cursor
          pulled := fun id b hid => hone.pulled id b (fun h => hid (hpulled e id hguard h))
          results := fun id r hid => hone.results id r (fun h => hid (hresults e id hguard h))
          bounded := hone.bounded }

section CatchUp

variable {s t : RelaySession} {i : Nat} {cursor : WithBot String} {client : Option (Option String)}
  {held page : List RemoteEntry} {now : Int}

/-- The answer to a catch-up passes over nothing that the server held: what was above
    the session's cursor is buffered in the end, or above the new cursor. -/
theorem catchUpAnswer_passes (htask : s.tasks[i]? = some ⟨.catchUp cursor, client⟩)
    (hnoted : cursor ≤ s.inner.cursor)
    (hstep : relayStep s (.catchUpAnswer i (.ok page) now) = some t)
    (hpage : PageOf held (askedAbove cursor) page) {e : RemoteEntry} (he : e ∈ held)
    (hnil : nilCursor < e.id) (hlt : s.inner.cursor < e.id) :
    e.id ∈ t.inner.pulled ∨ t.inner.cursor < e.id := by
  have hinner : t.inner = s.inner.catchUpAnswered now page := by
    simp only [relayStep] at hstep
    split at hstep
    · cases hstep; rfl
    · cases hstep
  have habove : askedAbove cursor < e.id := by
    cases cursor with
    | bot => exact hnil
    | coe c => exact WithBot.coe_lt_coe.mp (hnoted.trans_lt hlt)
  have hbelow : ∀ e' ∈ page, e.id ≤ e'.id → e.id ∈ page.map (·.id) := by
    intro e' he' hle
    exact List.mem_map.mpr ⟨e, hpage.complete e he habove e' he' hle, rfl⟩
  rw [hinner, RelayInner.catchUpAnswered]
  by_cases hempty : page = []
  · rw [if_pos hempty]
    exact Or.inr hlt
  · rw [if_neg hempty]
    exact bufferPulled_passes s.inner hpage.ascending hbelow hlt

end CatchUp

/-- What holds of a session: its cursor moves back in no run on from it; an entry
    leaves a buffer by an acknowledgement of its key, as it is where it was pulled,
    with its remote id once that is known where it is a result; the buffers are within
    their bounds; and the answer to a catch-up, of whichever cursor, moves the cursor
    past nothing the server held that is not in the buffer. -/
structure RelayLaw (s : RelaySession) : Prop where
  cursor : ∀ t, RelayRun (fun _ => True) s t → s.inner.cursor ≤ t.inner.cursor
  pulled : ∀ id e t, s.inner.pulled.lookup id = some e →
    RelayRun (fun ev => ¬ ev.acksPulled id) s t → t.inner.pulled.lookup id = some e
  results : ∀ id r t, s.inner.pushResults.lookup id = some r →
    RelayRun (fun ev => ¬ ev.acksResult id) s t →
      ∃ r', t.inner.pushResults.lookup id = some r' ∧ (r.remoteId.isSome → r'.remoteId.isSome)
  bounded : s.inner.pushResults.entries.length ≤ maxBufferedItemsPerSession ∧
    s.inner.pulled.entries.length ≤ maxBufferedItemsPerSession
  catchUp : ∀ i cursor client held page now t, s.tasks[i]? = some ⟨.catchUp cursor, client⟩ →
    PageOf held (askedAbove cursor) page →
      relayStep s (.catchUpAnswer i (.ok page) now) = some t →
        ∀ e ∈ held, nilCursor < e.id → s.inner.cursor < e.id →
          e.id ∈ t.inner.pulled ∨ t.inner.cursor < e.id

/-- Every session reached from a new one, by pushes, catch-ups, polls,
    acknowledgements and registrations in any order, meets the law. -/
theorem relayLaw {s : RelaySession} (h : RelayRun (fun _ => True) RelaySession.fresh s) :
    RelayLaw s where
  cursor _ ht := (relayRun_kept (p := fun _ => True) (q := fun _ => True)
    (fun _ _ _ _ => trivial) (fun _ _ _ _ => trivial) ht).cursor
  pulled id e _ he ht := by
    have hkept := relayRun_kept (p := fun _ => True) (q := fun k => k ≠ id)
      (fun _ _ _ _ => trivial) (fun ev k hguard hack heq => hguard (heq ▸ hack)) ht
    exact hkept.pulled id e (fun h => h rfl) he
  results id r _ hr ht := by
    have hkept := relayRun_kept (p := fun k => k ≠ id) (q := fun _ => True)
      (fun ev k hguard hack heq => hguard (heq ▸ hack)) (fun _ _ _ _ => trivial) ht
    exact hkept.results id r (fun h => h rfl) hr
  bounded := by
    have hkept := relayRun_kept (p := fun _ => True) (q := fun _ => True)
      (fun _ _ _ _ => trivial) (fun _ _ _ _ => trivial) h
    have hbounded := hkept.bounded ⟨Nat.zero_le _, Nat.zero_le _⟩
    exact ⟨hbounded.pushResults, hbounded.pulled⟩
  catchUp i cursor client held page now t htask hpage hstep e he hnil hlt := by
    have hnoted : s.Noted := by
      refine h.invariant (I := RelaySession.Noted) ?_ (fun _ _ _ hs _ hstep => relayStep_noted hs hstep)
      intro task htask
      exact absurd htask List.not_mem_nil
    exact catchUpAnswer_passes htask (hnoted _ (List.mem_of_getElem? htask) cursor rfl) hstep hpage
      he hnil hlt

/-- A session with two catch-ups under way, both from its start. -/
def racingSession : RelaySession where
  inner := RelayInner.fresh
  tasks := [⟨.catchUp ⊥, some none⟩, ⟨.catchUp ⊥, some none⟩]

theorem relayLaw_racing : RelayLaw racingSession :=
  relayLaw ((((GuardedRun.refl.tail .catchUp trivial rfl).tail .catchUp trivial rfl).tail
    (.buildClient 0 none) trivial rfl).tail (.buildClient 1 none) trivial rfl)

/-- The team server of this repository answers with pages of what it shows. -/
theorem pageOf_notesSinceId {db : ServerDb} (hdb : db.UniqueOk) {projectId limit : Nat}
    {above : String} {failAfter : Option Nat} {rows : List ServerRow} (rfc3339 : Int → String)
    (h : (Server.notesSinceId projectId above limit ⟨db, failAfter⟩).1 = .ok rows) :
    PageOf ((Server.shownOf projectId db).map (Server.sinceIdEntry rfc3339)) above
      (rows.map (Server.sinceIdEntry rfc3339)) := by
  have hrows := Lib.Sql.query_ok h
  subst hrows
  have hnodup : ((Server.shownOf projectId db).map (·.syncId)).Nodup :=
    hdb.2.2.1.sublist (List.filter_sublist.map _)
  refine ⟨?_, ?_, ?_⟩
  · intro e he
    rcases List.mem_map.mp he with ⟨r, hr, rfl⟩
    exact ⟨List.mem_map.mpr ⟨r, (Lib.Paging.mem_page hr).1, rfl⟩, (Lib.Paging.mem_page hr).2⟩
  · exact List.pairwise_map.mpr (Lib.Paging.page_strict hnodup)
  · intro e he hlt e' he' hle
    rcases List.mem_map.mp he with ⟨r, hr, rfl⟩
    rcases List.mem_map.mp he' with ⟨r', hr', rfl⟩
    exact List.mem_map.mpr ⟨r, Lib.Paging.mem_page_of_le hnodup hr hlt hr' hle, rfl⟩

end Spelunk
