import Mathlib.Data.List.Basic
import Spelunk.Core.EmbedAdmission
import Spelunk.Lib.Transition

/-!
# Runs of the Admission Gate

What holds of every run of the requests, and what holds of the runs in which no call
is left without its permit.

In every run the permits are accounted for: the free ones and those of handlers that
still wait make up the capacity, so each goes back once, when its handler ends. A
handler that finds none is answered in the step in which it comes. And a call whose
handler was dropped under a guard while it waited runs no forward pass.

The calls themselves are bounded only where no call does without a permit: no note is
embedded for `add_note`, which does not pass the gate, and no handler is dropped before
its call has ended, for the permit goes with the handler and the call does not.

## Main definitions

* `Orderly`: The events of a run in which every call has its permit.
* `LeftUnderGuard`: The events of a run in which only guarded handlers leave a waiting call.
* `Slotted`: What holds of one request in every run.

## Theorems

* `run_slots`: The permits are accounted for.
* `run_permitted`: In an orderly run every call has its permit.
* `admissionLaw`: The law of the gate.
* `admission_not_bounded`: Two runs with a fifth call, and one with a pass nobody waits for.
-/

namespace Spelunk

namespace EmbedServer

/-- The step relation. -/
def Step (s : EmbedServer) (e : EmbedEvent) (t : EmbedServer) : Prop := s.step e = some t

/-- The runs from the start whose events all meet a condition. -/
def Runs (guard : EmbedServer → EmbedEvent → Prop) (s : EmbedServer) : Prop :=
  Lib.GuardedRun Step guard start s

/-- No event leaves a call without its permit. -/
def Orderly (s : EmbedServer) : EmbedEvent → Prop
  | .arrive kind _ => kind.gated = true
  | .abandon i => ∀ r, s.requests[i]? = some r → r.outstanding = false
  | _ => True

/-- Only guarded handlers are dropped while their call waits. -/
def LeftUnderGuard (s : EmbedServer) : EmbedEvent → Prop
  | .abandon i => ∀ r, s.requests[i]? = some r → r.phase = .waiting → r.kind.guarded = true
  | _ => True

/-! ### What an event does -/

/-- What an event makes of one request, the drop of a handler aside. -/
inductive Moves (r : EmbedRequest) : EmbedRequest → Prop where
  | starts (hwaiting : r.phase = .waiting) (hcancel : r.cancel = false) :
      Moves r { r with phase := .running r.batches }
  | runs (left : ℕ) (hrunning : r.phase = .running (left + 1)) :
      Moves r { r with phase := .running left, passes := r.passes + 1 }
  | ends (result : EmbedResult) (houtstanding : r.outstanding = true) :
      Moves r { r with phase := .ended result }
  | answers (result : EmbedResult) (hawaiting : r.handler = .awaiting)
      (hended : r.phase = .ended result) :
      Moves r { r with handler := .answered result, permit := r.released }

/-- What becomes of a request whose handler is dropped. -/
def dropped (r : EmbedRequest) : EmbedRequest :=
  { r with
    handler := .dropped
    permit := r.released
    cancel := r.cancel || r.kind.guarded
    leftWaiting := decide (r.phase = .waiting) }

/-- The permits a request holds. -/
def slots (r : EmbedRequest) : ℕ := if r.permit = .held then 1 else 0

theorem slots_released (r : EmbedRequest) (available : ℕ) {r' : EmbedRequest}
    (h : r'.permit = r.released) :
    (if r.permit = .held then available + 1 else available) + slots r' = available + slots r := by
  unfold slots
  rw [h, EmbedRequest.released]
  by_cases hheld : r.permit = .held
  · simp [hheld]
  · simp [hheld]

/-- What one event does: a request comes, one moves, or one loses its handler. -/
theorem step_cases {s t : EmbedServer} {e : EmbedEvent} (h : s.step e = some t) :
    (∃ kind batches, e = .arrive kind batches ∧ t = s.arrive kind batches) ∨
    (∃ i r r', s.requests[i]? = some r ∧ Moves r r' ∧ t.requests = s.requests.set i r' ∧
      t.available + slots r' = s.available + slots r) ∨
    ∃ i r, e = .abandon i ∧ s.requests[i]? = some r ∧ r.handler = .awaiting ∧
      t.requests = s.requests.set i (dropped r) ∧
      t.available + slots (dropped r) = s.available + slots r := by
  have hbind : ∀ {i : ℕ} {f : EmbedRequest → Option EmbedServer},
      s.requests[i]?.bind f = some t → ∃ r, s.requests[i]? = some r ∧ f r = some t :=
    fun h => Option.bind_eq_some_iff.1 h
  cases e with
  | arrive kind batches => exact .inl ⟨kind, batches, rfl, (Option.some.inj h).symm⟩
  | lock i =>
    obtain ⟨r, hr, hlock⟩ := hbind h
    refine .inr (.inl ⟨i, r, ?_⟩)
    unfold lock at hlock
    by_cases hwaiting : r.phase = .waiting
    · have hout : r.outstanding = true := by simp [EmbedRequest.outstanding, hwaiting]
      rw [if_neg (not_not.2 hwaiting)] at hlock
      split at hlock
      · cases hlock
        exact ⟨_, hr, .ends .lockPoisoned hout, rfl, rfl⟩
      · split at hlock
        · cases hlock
        · split at hlock
          · cases hlock
            exact ⟨_, hr, .ends .cancelled hout, rfl, rfl⟩
          · next hcancel =>
            cases hlock
            exact ⟨_, hr, .starts hwaiting (by simpa using hcancel), rfl, rfl⟩
    · rw [if_pos hwaiting] at hlock
      cases hlock
  | advance i =>
    obtain ⟨r, hr, hadvance⟩ := hbind h
    refine .inr (.inl ⟨i, r, ?_⟩)
    unfold advance at hadvance
    split at hadvance
    · next hphase =>
      cases hadvance
      exact ⟨_, hr, .ends .vectors (by simp [EmbedRequest.outstanding, hphase]), rfl, rfl⟩
    · next left hphase =>
      split at hadvance
      · cases hadvance
        exact ⟨_, hr, .ends .cancelled (by simp [EmbedRequest.outstanding, hphase]), rfl, rfl⟩
      · cases hadvance
        exact ⟨_, hr, .runs left hphase, rfl, rfl⟩
    · cases hadvance
  | fail i =>
    obtain ⟨r, hr, hstop⟩ := hbind h
    exact .inr (.inl ⟨i, r, of_stop hr hstop⟩)
  | crash i =>
    obtain ⟨r, hr, hstop⟩ := hbind h
    exact .inr (.inl ⟨i, r, of_stop hr hstop⟩)
  | answer i =>
    obtain ⟨r, hr, hanswer⟩ := hbind h
    refine .inr (.inl ⟨i, r, ?_⟩)
    unfold answer at hanswer
    split at hanswer
    · next result hhandler hphase =>
      cases hanswer
      exact ⟨_, hr, .answers result hhandler hphase, rfl, slots_released r s.available rfl⟩
    · cases hanswer
  | abandon i =>
    obtain ⟨r, hr, habandon⟩ := hbind h
    unfold abandon at habandon
    by_cases hhandler : r.handler = .awaiting
    · rw [if_neg (not_not.2 hhandler)] at habandon
      cases habandon
      exact .inr (.inr ⟨i, r, rfl, hr, hhandler, rfl, slots_released r s.available rfl⟩)
    · rw [if_pos hhandler] at habandon
      cases habandon
where
  of_stop {s t : EmbedServer} {i : ℕ} {r : EmbedRequest} {panicked : Bool}
      (hr : s.requests[i]? = some r) (h : s.stop i r panicked = some t) :
      ∃ r', s.requests[i]? = some r ∧ Moves r r' ∧ t.requests = s.requests.set i r' ∧
        t.available + slots r' = s.available + slots r := by
    unfold stop at h
    split at h
    · next left hphase =>
      cases h
      exact ⟨_, hr, .ends _ (by simp [EmbedRequest.outstanding, hphase]), rfl, rfl⟩
    · cases h

/-- A property of single requests along a run: new ones have it, and what an event makes of one
    that has it has it. -/
theorem forall_requests {guard : EmbedServer → EmbedEvent → Prop} {P : EmbedRequest → Prop}
    {s t : EmbedServer} {e : EmbedEvent} (h : s.step e = some t) (hguard : guard s e)
    (hP : ∀ r ∈ s.requests, P r)
    (hbusy : ∀ kind batches, P (.busy kind batches))
    (hstarted : ∀ kind batches, guard s (.arrive kind batches) →
      P (.started kind batches (if kind.gated then .held else .none)))
    (hmoves : ∀ r r', P r → Moves r r' → P r')
    (hdropped : ∀ i r, guard s (.abandon i) → s.requests[i]? = some r → r.handler = .awaiting →
      P r → P (dropped r)) :
    ∀ r ∈ t.requests, P r := by
  have hset : ∀ {i : ℕ} {r' : EmbedRequest}, P r' → ∀ r ∈ s.requests.set i r', P r := by
    intro i r' hr' r hr
    rcases List.mem_or_eq_of_mem_set hr with hr | rfl
    · exact hP r hr
    · exact hr'
  rcases step_cases h with ⟨kind, batches, rfl, rfl⟩ | ⟨i, r, r', hr, hmove, ht, -⟩ |
    ⟨i, r, rfl, hr, hawaiting, ht, -⟩
  · have hnew : P (.started kind batches (if kind.gated then .held else .none)) :=
      hstarted kind batches hguard
    intro r hr
    unfold arrive at hr
    split at hr
    · next hgated =>
      rw [if_pos hgated] at hnew
      split at hr
      · rcases List.mem_append.1 hr with hr | hr
        · exact hP r hr
        · rw [List.mem_singleton.1 hr]
          exact hbusy kind batches
      · rcases List.mem_append.1 hr with hr | hr
        · exact hP r hr
        · rw [List.mem_singleton.1 hr]
          exact hnew
    · next hgated =>
      rw [if_neg hgated] at hnew
      rcases List.mem_append.1 hr with hr | hr
      · exact hP r hr
      · rw [List.mem_singleton.1 hr]
        exact hnew
  · rw [ht]
    exact hset (hmoves r r' (hP r (List.mem_of_getElem? hr)) hmove)
  · rw [ht]
    exact hset (hdropped i r hguard hr hawaiting (hP r (List.mem_of_getElem? hr)))

/-! ### Permits -/

/-- The permit a request has: a handler that passed the gate holds one until it ends, and has given
    it back then. -/
def due (r : EmbedRequest) : EmbedPermit :=
  if r.kind.gated = true ∧ r.phase ≠ .notStarted then
    if r.handler = .awaiting then .held else .returned
  else .none

/-- What holds of one request in every run. -/
structure Slotted (r : EmbedRequest) : Prop where
  permit : r.permit = due r
  started : r.handler = .awaiting → r.phase ≠ .notStarted
  waiting : r.phase = .waiting → r.passes = 0
  left : r.leftWaiting = true → r.kind.guarded = true →
    r.passes = 0 ∧ (r.phase = .waiting → r.cancel = true) ∧ ∀ n, r.phase ≠ .running n

theorem slotted_busy (kind : EmbedKind) (batches : ℕ) : Slotted (.busy kind batches) where
  permit := by simp [due, EmbedRequest.busy]
  started h := by simp [EmbedRequest.busy] at h
  waiting h := by simp [EmbedRequest.busy] at h
  left h := by simp [EmbedRequest.busy] at h

theorem slotted_started (kind : EmbedKind) (batches : ℕ) :
    Slotted (.started kind batches (if kind.gated then .held else .none)) where
  permit := by
    cases hgated : kind.gated <;> simp [due, EmbedRequest.started, hgated]
  started _ := by simp [EmbedRequest.started]
  waiting _ := rfl
  left h := by simp [EmbedRequest.started] at h

/-- The permit of a handler that has ended. -/
theorem due_released {r : EmbedRequest} (h : Slotted r) (hawaiting : r.handler = .awaiting)
    {handler : HandlerState} (hended : handler ≠ .awaiting) {cancel leftWaiting : Bool} :
    r.released = due { r with
      handler := handler, permit := r.released, cancel := cancel, leftWaiting := leftWaiting } := by
  have hpermit := h.permit
  have hstarted := h.started hawaiting
  unfold due at hpermit ⊢
  unfold EmbedRequest.released
  simp only [hstarted, hawaiting, hended, ne_eq, not_false_eq_true, and_true, if_true,
    if_false] at hpermit ⊢
  rw [hpermit]
  cases r.kind.gated <;> simp

theorem Slotted.moves {r r' : EmbedRequest} (h : Slotted r) (hmove : Moves r r') : Slotted r' := by
  have hdue : ∀ phase passes, phase ≠ .notStarted → r.phase ≠ .notStarted →
      r.permit = due { r with phase := phase, passes := passes } := by
    intro phase passes hphase hr
    rw [h.permit]
    simp [due, hphase, hr]
  cases hmove with
  | starts hwaiting hcancel =>
    exact {
      permit := hdue _ _ (by simp) (by simp [hwaiting])
      started := fun _ => by simp
      waiting := fun h => by simp at h
      left := fun hleft hguarded => by
        have := (h.left hleft hguarded).2.1 hwaiting
        simp [hcancel] at this }
  | runs n hrunning =>
    exact {
      permit := hdue _ _ (by simp) (by simp [hrunning])
      started := fun _ => by simp
      waiting := fun h => by simp at h
      left := fun hleft hguarded => absurd hrunning ((h.left hleft hguarded).2.2 _) }
  | ends result hout =>
    have hstarted : r.phase ≠ .notStarted := fun hphase => by
      simp [EmbedRequest.outstanding, hphase] at hout
    exact {
      permit := hdue _ _ (by simp) hstarted
      started := fun _ => by simp
      waiting := fun h => by simp at h
      left := fun hleft hguarded =>
        ⟨(h.left hleft hguarded).1, fun h => by simp at h, fun n => by simp⟩ }
  | answers result hawaiting hended =>
    exact {
      permit := due_released h hawaiting (by simp)
      started := fun h => by simp at h
      waiting := h.waiting
      left := h.left }

theorem Slotted.dropped {r : EmbedRequest} (h : Slotted r) (hawaiting : r.handler = .awaiting) :
    Slotted (dropped r) where
  permit := due_released h hawaiting (by simp)
  started h := by simp [EmbedServer.dropped] at h
  waiting := h.waiting
  left hleft hguarded := by
    have hwaiting : r.phase = .waiting := by simpa [EmbedServer.dropped] using hleft
    have hkind : r.kind.guarded = true := hguarded
    refine ⟨h.waiting hwaiting, fun _ => ?_, fun n hn => ?_⟩
    · simp [EmbedServer.dropped, hkind]
    · have : r.phase = .running n := hn
      simp [hwaiting] at this

/-- In every run every request is slotted. -/
theorem run_slotted {guard : EmbedServer → EmbedEvent → Prop} {s : EmbedServer}
    (h : Runs guard s) : ∀ r ∈ s.requests, Slotted r := by
  refine h.invariant (I := fun s => ∀ r ∈ s.requests, Slotted r)
    (fun r hr => absurd hr List.not_mem_nil) fun s e t hs hguard hstep => ?_
  exact forall_requests hstep hguard hs slotted_busy (fun kind batches _ =>
    slotted_started kind batches) (fun r r' hr hmove => hr.moves hmove)
    fun i r _ _ hawaiting hr => hr.dropped hawaiting

/-- One request of a list replaced, in a count. -/
theorem countP_set_add {l : List EmbedRequest} {i : ℕ} {r : EmbedRequest} (h : l[i]? = some r)
    (r' : EmbedRequest) (p : EmbedRequest → Bool) :
    (l.set i r').countP p + (if p r then 1 else 0) = l.countP p + if p r' then 1 else 0 := by
  obtain ⟨hi, hget⟩ := List.getElem?_eq_some_iff.1 h
  have hle := List.boole_getElem_le_countP (p := p) hi
  rw [hget] at hle
  rw [List.countP_set hi, hget]
  omega

/-- The permits that handlers hold. -/
def holding (s : EmbedServer) : ℕ := s.requests.countP fun r => r.permit = .held

/-- In every run the free permits and the held ones make up the capacity. -/
theorem run_slots {guard : EmbedServer → EmbedEvent → Prop} {s : EmbedServer} (h : Runs guard s) :
    s.available + s.holding = embedQueueCapacity := by
  refine h.invariant (I := fun s => s.available + s.holding = embedQueueCapacity) rfl
    fun s e t hs _ hstep => ?_
  rw [← hs]
  unfold holding
  rcases step_cases hstep with ⟨kind, batches, rfl, rfl⟩ | ⟨i, r, r', hr, -, ht, hslots⟩ |
    ⟨i, r, rfl, hr, -, ht, hslots⟩
  · unfold arrive
    split
    · split
      · simp [EmbedRequest.busy]
      · simp [EmbedRequest.started]
        omega
    · simp [EmbedRequest.started]
  · have hcount := countP_set_add hr r' fun r => r.permit = .held
    rw [ht]
    simp only [slots, decide_eq_true_eq] at hslots hcount
    omega
  · have hcount := countP_set_add hr (dropped r) fun r => r.permit = .held
    rw [ht]
    simp only [slots, decide_eq_true_eq] at hslots hcount
    omega

/-! ### Calls -/

/-- In an orderly run every call has its permit. -/
theorem run_permitted {s : EmbedServer} (h : Runs Orderly s) :
    ∀ r ∈ s.requests, r.outstanding = true → r.permit = .held := by
  refine h.invariant (I := fun s => ∀ r ∈ s.requests, r.outstanding = true → r.permit = .held)
    (fun r hr => absurd hr List.not_mem_nil) fun s e t hs hguard hstep => ?_
  refine forall_requests hstep hguard hs (fun _ _ h => ?_) (fun kind batches hgated _ => ?_)
    (fun r r' hr hmove hout => ?_) fun i r hended hr _ _ hout => ?_
  · simp [EmbedRequest.outstanding, EmbedRequest.busy] at h
  · exact if_pos hgated
  · cases hmove with
    | starts hwaiting _ => exact hr (by simp [EmbedRequest.outstanding, hwaiting])
    | runs left hrunning => exact hr (by simp [EmbedRequest.outstanding, hrunning])
    | ends result _ => simp [EmbedRequest.outstanding] at hout
    | answers result _ hended =>
      have hnone : r.outstanding = false := by simp [EmbedRequest.outstanding, hended]
      exact absurd (hnone.symm.trans hout) (by simp)
  · have hnone : r.outstanding = false := hended r hr
    exact absurd (hnone.symm.trans hout) (by simp)

/-- Where only guarded handlers leave a waiting call, every call that was left waiting is one of
    theirs. -/
theorem run_leftGuarded {s : EmbedServer} (h : Runs LeftUnderGuard s) :
    ∀ r ∈ s.requests, r.leftWaiting = true → r.kind.guarded = true := by
  refine h.invariant (I := fun s => ∀ r ∈ s.requests, r.leftWaiting = true → r.kind.guarded = true)
    (fun r hr => absurd hr List.not_mem_nil) fun s e t hs hguard hstep => ?_
  refine forall_requests hstep hguard hs (fun _ _ h => ?_) (fun _ _ _ h => ?_)
    (fun r r' hr hmove hleft => ?_) fun i r hkind hr _ _ hleft => ?_
  · simp [EmbedRequest.busy] at h
  · simp [EmbedRequest.started] at h
  · cases hmove <;> exact hr hleft
  · exact hkind r hr (by simpa [dropped] using hleft)

/-- The law of the gate. In an orderly run the calls that run or wait are at most the capacity. In
    every run a request that finds no permit is answered as it comes, and nothing else changes; the
    free permits and those of waiting handlers are the capacity, and a handler that passed the gate
    has given its permit back exactly when it has ended. Where only guarded handlers leave a waiting
    call, a call that was left waiting has run no forward pass. -/
theorem admissionLaw (s : EmbedServer) :
    (Runs Orderly s → s.outstanding ≤ embedQueueCapacity) ∧
    (∀ kind batches, kind.gated = true → s.available = 0 →
      s.step (.arrive kind batches) =
        some { s with requests := s.requests ++ [.busy kind batches] }) ∧
    (Runs (fun _ _ => True) s → s.available + s.holding = embedQueueCapacity ∧
      ∀ r ∈ s.requests, r.permit = due r) ∧
    (Runs LeftUnderGuard s → ∀ r ∈ s.requests, r.leftWaiting = true → r.passes = 0) := by
  refine ⟨fun h => ?_, fun kind batches hgated hnone => ?_, fun h => ?_, fun h r hr hleft => ?_⟩
  · have hle : s.outstanding ≤ s.holding := List.countP_mono_left fun r hr hout =>
      decide_eq_true (run_permitted h r hr hout)
    have hslots := run_slots h
    omega
  · simp only [step, arrive, hgated, if_true, hnone]
  · exact ⟨run_slots h, fun r hr => (run_slotted h r hr).permit⟩
  · exact ((run_slotted h r hr).left hleft (run_leftGuarded h r hr hleft)).1

/-! ### Runs that break the bound -/

/-- A list of events is a run. -/
theorem runs_of_events {guard : EmbedServer → EmbedEvent → Prop} (hguard : ∀ s e, guard s e)
    {es : List EmbedEvent} {s t : EmbedServer} (hs : Runs guard s) (h : s.run es = some t) :
    Runs guard t := by
  induction es generalizing s with
  | nil => exact Option.some.inj h ▸ hs
  | cons e es ih =>
    obtain ⟨u, hstep, hrest⟩ := Option.bind_eq_some_iff.1 h
    exact ih (hs.tail e (hguard s e) hstep) hrest

/-- Four batches are admitted, one of their clients goes, and a fifth call comes. -/
def leftBatch : List EmbedEvent :=
  [.arrive .indexEmbed 8, .arrive .indexEmbed 8, .arrive .indexEmbed 8, .arrive .indexEmbed 8,
    .lock 0, .abandon 1, .arrive .projectSearch 1]

/-- Four batches are admitted and a note is added. -/
def addedNote : List EmbedEvent :=
  [.arrive .indexEmbed 8, .arrive .indexEmbed 8, .arrive .indexEmbed 8, .arrive .indexEmbed 8,
    .arrive .addNote 1]

/-- A search is left while it waits for a batch, and its call runs all the same. -/
def leftSearch : List EmbedEvent :=
  [.arrive .indexEmbed 0, .arrive .projectSearch 1, .lock 0, .abandon 1, .advance 0, .lock 1,
    .advance 1]

theorem admission_not_bounded :
    (∃ s, start.run leftBatch = some s ∧ s.outstanding = 5) ∧
    (∃ s, start.run addedNote = some s ∧ s.outstanding = 5) ∧
    (∃ s, start.run leftSearch = some s ∧ ∃ r ∈ s.requests, r.leftWaiting = true ∧ r.passes = 1) ∧
    ¬ (∀ s, Runs (fun _ _ => True) s → s.outstanding ≤ embedQueueCapacity) ∧
    ¬ ∀ s, Runs (fun _ _ => True) s → ∀ r ∈ s.requests, r.leftWaiting = true → r.passes = 0 := by
  have hbatch : ∃ s, start.run leftBatch = some s ∧ s.outstanding = 5 := ⟨_, rfl, by decide⟩
  have hsearch : ∃ s, start.run leftSearch = some s ∧
      ∃ r ∈ s.requests, r.leftWaiting = true ∧ r.passes = 1 := ⟨_, rfl, by decide⟩
  refine ⟨hbatch, ⟨_, rfl, by decide⟩, hsearch, fun hbound => ?_, fun hpasses => ?_⟩
  · obtain ⟨s, hrun, hfive⟩ := hbatch
    have hle := hbound s (runs_of_events (fun _ _ => trivial) .refl hrun)
    rw [hfive] at hle
    exact absurd hle (by decide)
  · obtain ⟨s, hrun, r, hr, hleft, hone⟩ := hsearch
    have hzero := hpasses s (runs_of_events (fun _ _ => trivial) .refl hrun) r hr hleft
    rw [hone] at hzero
    exact absurd hzero (by decide)

theorem admissionLaw_oneBatch : (start.arrive .indexEmbed 8).outstanding ≤ embedQueueCapacity :=
  (admissionLaw _).1 (.tail (.arrive .indexEmbed 8) .refl rfl rfl)

end EmbedServer

end Spelunk
