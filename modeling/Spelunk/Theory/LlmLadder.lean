import Mathlib.Data.List.Chain
import Spelunk.Core.ServerLlm
import Spelunk.Lib.Transition

/-!
# The Ladder of Structured Modes

What any number of overlapping calls do with the one cached mode, and what each call
sends and returns, whatever the endpoint answers.

The log of a call has a shape (`CallShape`) that every answer keeps: the attempts that
were refused, each tried up to three times more after transient failures, then the one
at hand. The bounds and the order are read off it.

The cache can move back: a call that read it before another one stored a weaker mode may
succeed in a stronger mode later. `Overtaken` names that step, and while no step is one
the stores only ever get weaker.

## Main definitions

* `LlmRun`: Runs of the calls whose steps all meet a condition.
* `CallShape`: What the log of a call looks like.
* `Overtaken`: An answer that moves the cache back.

## Theorems

* `callShape_answered`: An answer keeps the shape.
* `movesBack_iff`: The cache moves back exactly where a call was overtaken.
* `ladderLaw`: The law of the ladder.
-/

namespace Spelunk

open Lib (GuardedRun)

/-- Runs of the calls over one cache that starts at `v`. -/
abbrev LlmRun (guard : LlmSystem → LlmEvent → Prop) (s t : LlmSystem) : Prop :=
  GuardedRun (fun s e t => llmStep s e = some t) guard s t

/-- The backend as it is built: a cached mode and no call. -/
def LlmSystem.fresh (v : UInt8) : LlmSystem := ⟨v, [], []⟩

/-- How weak a mode is. -/
def StructuredMode.weakness (m : StructuredMode) : ℕ := m.ordinal.toNat

/-- The cached mode. -/
def LlmSystem.cached (s : LlmSystem) : StructuredMode := .fromOrdinal s.structuredMode

theorem fromOrdinal_ordinal (m : StructuredMode) : StructuredMode.fromOrdinal m.ordinal = m := by
  cases m <;> rfl

/-- What can happen in a step. -/
theorem llmStep_cases {s t : LlmSystem} {e : LlmEvent} (h : llmStep s e = some t) :
    (∃ schema, e = .generate schema ∧
      t = { s with calls := s.calls ++ [beginCall s.structuredMode s.stores.length schema] }) ∨
    (∃ i a call now later attempt backoff, e = .answer i a ∧ s.calls[i]? = some call ∧
      call.phase = .sending now later attempt backoff ∧
      t = {
        structuredMode := match storedMode now a with
          | some mode => mode.ordinal
          | none => s.structuredMode
        calls := s.calls.set i { call with
          phase := answered now later attempt backoff a
          log := call.log ++ [(now, a)] }
        stores := s.stores ++ (storedMode now a).toList }) ∨
    (∃ i result call, e = .streamed i result ∧ s.calls[i]? = some call ∧
      call.phase = .streaming ∧
      t = { s with calls := s.calls.set i { call with
        phase := .returned (match result with
          | .ok () => .ok ()
          | .error e => .error (.reading e)) } }) := by
  cases e with
  | generate schema =>
    exact .inl ⟨schema, rfl, (Option.some.inj h).symm⟩
  | answer i a =>
    simp only [llmStep] at h
    cases hc : s.calls[i]? with
    | none => simp [hc] at h
    | some call =>
      rw [hc] at h
      simp only at h
      cases hp : call.phase with
      | sending now later attempt backoff =>
        rw [hp] at h
        exact .inr (.inl ⟨i, a, call, now, later, attempt, backoff, rfl, hc, hp,
          (Option.some.inj h).symm⟩)
      | streaming => simp [hp] at h
      | returned result => simp [hp] at h
  | streamed i result =>
    simp only [llmStep] at h
    cases hc : s.calls[i]? with
    | none => simp [hc] at h
    | some call =>
      rw [hc] at h
      simp only at h
      cases hp : call.phase with
      | sending now later attempt backoff => simp [hp] at h
      | streaming =>
        rw [hp] at h
        exact .inr (.inr ⟨i, result, call, rfl, hc, hp, (Option.some.inj h).symm⟩)
      | returned result => simp [hp] at h

/-! ### One call -/

/-- An answer after which the same request is sent again while retries are left. -/
def Transient : UpstreamAnswer → Bool
  | .dropped _ => true
  | .status code _ => isTransientStatus code

/-- A successful answer. -/
def Succeeded : UpstreamAnswer → Bool
  | .dropped _ => false
  | .status code _ => isSuccess code

/-- The error that an answer makes. -/
def upstreamError : UpstreamAnswer → LlmError
  | .dropped e => .calling e
  | .status code body => .status code (trim body.toList)

/-- The attempts of a call, from the mode it started at. -/
def LlmCall.plan (call : LlmCall) : List Attempt :=
  attempts call.start.ordinal call.schema

/-- The log of attempts that were all refused: each after up to three transient failures. -/
inductive Refused : List Attempt → List (Attempt × UpstreamAnswer) → Prop where
  | nil : Refused [] []
  | step {done : List Attempt} {log : List (Attempt × UpstreamAnswer)} (now : Attempt)
      (failures : List UpstreamAnswer) (code : ℕ) (body : String) :
      Refused done log → failures.length ≤ maxTransientRetries → (∀ a ∈ failures, Transient a) →
      code = 400 ∨ code = 422 →
      Refused (done ++ [now]) (log ++ (failures ++ [UpstreamAnswer.status code body]).map (Prod.mk now))

/-- A log whose last answer satisfies `last`. -/
def EndsWith (plan : List Attempt) (log : List (Attempt × UpstreamAnswer))
    (last : UpstreamAnswer → Prop) : Prop :=
  ∃ (done : List Attempt) (now : Attempt) (later : List Attempt)
    (earlier : List (Attempt × UpstreamAnswer)) (failures : List UpstreamAnswer)
    (a : UpstreamAnswer), plan = done ++ now :: later ∧ Refused done earlier ∧
    log = earlier ++ (failures ++ [a]).map (Prod.mk now) ∧
    failures.length ≤ maxTransientRetries ∧ (∀ a ∈ failures, Transient a) ∧ last a

/-- What the log of a call looks like. -/
def CallShape (plan : List Attempt) (log : List (Attempt × UpstreamAnswer)) : LlmPhase → Prop
  | .sending now later attempt _ =>
      ∃ (done : List Attempt) (earlier : List (Attempt × UpstreamAnswer))
        (failures : List UpstreamAnswer), plan = done ++ now :: later ∧ Refused done earlier ∧
        log = earlier ++ failures.map (Prod.mk now) ∧ failures.length = attempt ∧
        attempt ≤ maxTransientRetries ∧ ∀ a ∈ failures, Transient a
  | .streaming => EndsWith plan log fun a => Succeeded a
  | .returned (.ok ()) => EndsWith plan log fun a => Succeeded a
  | .returned (.error e) =>
      (EndsWith plan log fun a => Succeeded a = false ∧ e = upstreamError a) ∨
        ∃ msg, e = .reading msg ∧ EndsWith plan log fun a => Succeeded a

/-- The request at hand fails in a transient way and is sent again. -/
theorem callShape_again {plan later log attempt backoff} {now : Attempt} {a : UpstreamAnswer}
    (h : CallShape plan log (.sending now later attempt backoff)) (ha : Transient a)
    (hleft : attempt < maxTransientRetries) (backoff' : ℕ) :
    CallShape plan (log ++ [(now, a)]) (.sending now later (attempt + 1) backoff') := by
  obtain ⟨done, earlier, failures, hplan, hrefused, hlog, hlen, -, hall⟩ := h
  refine ⟨done, earlier, failures ++ [a], hplan, hrefused, ?_, ?_, hleft, ?_⟩
  · rw [hlog, List.map_append, List.append_assoc]
    rfl
  · rw [List.length_append, hlen]
    rfl
  · intro b hb
    rcases List.mem_append.1 hb with hb | hb
    · exact hall b hb
    · rw [List.mem_singleton.1 hb]
      exact ha

/-- The request at hand is the last one. -/
theorem callShape_last {plan later log attempt backoff} {now : Attempt} {a : UpstreamAnswer}
    (h : CallShape plan log (.sending now later attempt backoff)) {last : UpstreamAnswer → Prop}
    (ha : last a) : EndsWith plan (log ++ [(now, a)]) last := by
  obtain ⟨done, earlier, failures, hplan, hrefused, hlog, hlen, hle, hall⟩ := h
  refine ⟨done, now, later, earlier, failures, a, hplan, hrefused, ?_, hlen ▸ hle, hall, ha⟩
  rw [hlog, List.map_append, List.append_assoc]
  rfl

/-- The request at hand is refused and the next mode is tried. -/
theorem callShape_stepDown {plan rest log attempt backoff} {now next : Attempt} {code : ℕ}
    {body : String} (h : CallShape plan log (.sending now (next :: rest) attempt backoff))
    (hcode : code = 400 ∨ code = 422) :
    CallShape plan (log ++ [(now, .status code body)]) (.sending next rest 0 300) := by
  obtain ⟨done, earlier, failures, hplan, hrefused, hlog, hlen, hle, hall⟩ := h
  refine ⟨done ++ [now], _, [], ?_, .step now failures code body hrefused (hlen ▸ hle) hall hcode,
    ?_, rfl, Nat.zero_le _, fun _ hb => absurd hb List.not_mem_nil⟩
  · rw [hplan, List.append_assoc]
    rfl
  · rw [hlog, List.map_append, List.append_assoc, List.map_nil, List.append_nil]
    rfl

/-- An answer keeps the shape. -/
theorem callShape_answered {plan later log attempt backoff} {now : Attempt} {a : UpstreamAnswer}
    (h : CallShape plan log (.sending now later attempt backoff)) :
    CallShape plan (log ++ [(now, a)]) (answered now later attempt backoff a) := by
  cases a with
  | dropped e =>
    simp only [answered]
    by_cases hleft : attempt < maxTransientRetries
    · rw [if_pos hleft]
      exact callShape_again h rfl hleft _
    · rw [if_neg hleft]
      exact .inl (callShape_last h ⟨rfl, rfl⟩)
  | status code body =>
    simp only [answered]
    by_cases hsuccess : isSuccess code
    · rw [if_pos hsuccess]
      exact callShape_last h hsuccess
    rw [if_neg hsuccess]
    have hfailed : Succeeded (.status code body) = false := by simpa [Succeeded] using hsuccess
    by_cases htransient : (isTransientStatus code && decide (attempt < maxTransientRetries)) = true
    · rw [if_pos htransient]
      rw [Bool.and_eq_true, decide_eq_true_eq] at htransient
      have ha : Transient (.status code body) := htransient.1
      exact callShape_again h ha htransient.2 _
    rw [if_neg htransient]
    cases later with
    | nil => exact .inl (callShape_last h ⟨hfailed, rfl⟩)
    | cons next rest =>
      simp only
      by_cases hcode : code = 400 ∨ code = 422
      · rw [if_pos hcode]
        exact callShape_stepDown h hcode
      · rw [if_neg hcode]
        exact .inl (callShape_last h ⟨hfailed, rfl⟩)

/-- The end of the reply keeps the shape. -/
theorem callShape_streamed {plan log} (h : CallShape plan log .streaming)
    (result : Except String Unit) :
    CallShape plan log (.returned (match result with
      | .ok () => .ok ()
      | .error e => .error (.reading e))) := by
  cases result with
  | ok u => exact h
  | error e => exact .inr ⟨e, rfl, h⟩

/-- Every call has an attempt. -/
theorem attempts_ne_nil (cached : UInt8) (schema : Option String) : attempts cached schema ≠ [] := by
  cases schema with
  | none => exact List.cons_ne_nil _ _
  | some schema =>
    simp only [attempts]
    cases StructuredMode.fromOrdinal cached <;>
      simp [StructuredMode.ordered, StructuredMode.ordinal]

/-- A call begins in shape, with the plan from the mode it read. -/
theorem callShape_begin (cached : UInt8) (stores : ℕ) (schema : Option String) :
    CallShape (beginCall cached stores schema).plan (beginCall cached stores schema).log
      (beginCall cached stores schema).phase := by
  have hplan : (beginCall cached stores schema).plan = attempts cached schema := by
    cases schema with
    | none => rfl
    | some schema => simp [LlmCall.plan, beginCall, attempts, fromOrdinal_ordinal]
  rw [hplan]
  cases h : attempts cached schema with
  | nil => exact absurd h (attempts_ne_nil cached schema)
  | cons now later =>
    simp only [beginCall, h]
    exact ⟨[], [], [], rfl, .nil, rfl, rfl, Nat.zero_le _, fun _ hb => absurd hb List.not_mem_nil⟩

/-! ### What is read off the shape -/

/-- The requests a call has sent, each with what came back for it, the one at hand without. -/
def LlmCall.requests (call : LlmCall) : List (Attempt × Option UpstreamAnswer) :=
  call.log.map (fun r => (r.1, some r.2)) ++
    match call.phase with
    | .sending now _ _ _ => [(now, none)]
    | _ => []

/-- The first attempts of the plan in its order, each sent one to four times. -/
def InOrder (plan sent : List Attempt) : Prop :=
  ∃ tries : List ℕ, tries.length ≤ plan.length ∧
    (∀ n ∈ tries, 1 ≤ n ∧ n ≤ maxTransientRetries + 1) ∧
    sent = (List.zipWith List.replicate tries plan).flatten

/-- After a transient failure the same attempt is sent again. -/
def SameAfterTransient (sent : List (Attempt × Option UpstreamAnswer)) : Prop :=
  sent.IsChain fun r r' => r.2.any Transient → r'.1 = r.1

/-- `Ok` after a success only, else the error of the last answer or of the reply. -/
def ReturnsLast (call : LlmCall) : Prop :=
  match call.phase with
  | .returned (.ok ()) => ∃ r, call.log.getLast? = some r ∧ Succeeded r.2
  | .returned (.error e) => ∃ r, call.log.getLast? = some r ∧
      ((Succeeded r.2 = false ∧ e = upstreamError r.2) ∨ (Succeeded r.2 ∧ ∃ msg, e = .reading msg))
  | _ => True

theorem map_fst_block (now : Attempt) (answers : List UpstreamAnswer) :
    (answers.map (Prod.mk now)).map Prod.fst = List.replicate answers.length now := by
  rw [List.map_map]
  exact List.map_const'

/-- Refused attempts were sent in their order, one to four times each. -/
theorem Refused.tries {done : List Attempt} {log : List (Attempt × UpstreamAnswer)}
    (h : Refused done log) : ∃ tries : List ℕ, tries.length = done.length ∧
      (∀ n ∈ tries, 1 ≤ n ∧ n ≤ maxTransientRetries + 1) ∧
      log.map Prod.fst = (List.zipWith List.replicate tries done).flatten := by
  induction h with
  | nil => exact ⟨[], rfl, fun _ hn => absurd hn List.not_mem_nil, rfl⟩
  | step now failures code body _ hle _ _ ih =>
    obtain ⟨tries, hlen, hbound, heq⟩ := ih
    refine ⟨tries ++ [failures.length + 1], ?_, ?_, ?_⟩
    · rw [List.length_append, List.length_append, hlen]
      rfl
    · intro n hn
      rcases List.mem_append.1 hn with hn | hn
      · exact hbound n hn
      · rw [List.mem_singleton.1 hn]
        omega
    · rw [List.map_append, heq, map_fst_block, List.zipWith_append hlen, List.flatten_append,
        List.length_append]
      simp

/-- The attempts refused and `n` tries of the next. -/
theorem Refused.inOrder {done later : List Attempt} {now : Attempt}
    {earlier : List (Attempt × UpstreamAnswer)} (h : Refused done earlier) {n : ℕ} (hn : 1 ≤ n)
    (hle : n ≤ maxTransientRetries + 1) :
    InOrder (done ++ now :: later) (earlier.map Prod.fst ++ List.replicate n now) := by
  obtain ⟨tries, hlen, hbound, heq⟩ := h.tries
  refine ⟨tries ++ [n], ?_, ?_, ?_⟩
  · rw [List.length_append, List.length_append, hlen, List.length_singleton, List.length_cons]
    omega
  · intro k hk
    rcases List.mem_append.1 hk with hk | hk
    · exact hbound k hk
    · rw [List.mem_singleton.1 hk]
      exact ⟨hn, hle⟩
  · rw [heq, List.zipWith_append hlen, List.flatten_append]
    simp

theorem isChain_block (now : Attempt) (answers : List (Option UpstreamAnswer)) :
    SameAfterTransient (answers.map (Prod.mk now)) := by
  refine List.Pairwise.isChain (List.pairwise_map.2 ?_)
  exact List.pairwise_of_forall fun _ _ _ => rfl

/-- The log with every answer in. -/
def answeredAll (log : List (Attempt × UpstreamAnswer)) : List (Attempt × Option UpstreamAnswer) :=
  log.map fun r => (r.1, some r.2)

/-- Refused attempts, and whatever is sent after them. -/
theorem Refused.sameAfter {done : List Attempt} {log : List (Attempt × UpstreamAnswer)}
    (h : Refused done log) {rest : List (Attempt × Option UpstreamAnswer)}
    (hrest : SameAfterTransient rest) : SameAfterTransient (answeredAll log ++ rest) := by
  induction h generalizing rest with
  | nil => exact hrest
  | @step done log now failures code body _ _ _ hcode ih =>
    have hlog : answeredAll (log ++ (failures ++ [UpstreamAnswer.status code body]).map
        (Prod.mk now)) = answeredAll log ++
          (failures.map some ++ [some (UpstreamAnswer.status code body)]).map (Prod.mk now) := by
      simp [answeredAll]
    rw [hlog, List.append_assoc]
    refine ih (List.isChain_append.2 ⟨isChain_block now _, hrest, ?_⟩)
    -- The last answer of the block is a refusal.
    intro r hr r' _ htransient
    rw [List.map_append, List.getLast?_append_of_ne_nil _ (by simp)] at hr
    simp only [List.map_cons, List.map_nil, List.getLast?_singleton, Option.mem_def,
      Option.some.injEq] at hr
    subst hr
    rcases hcode with rfl | rfl <;> simp [Transient, isTransientStatus] at htransient

/-- What a call in shape has sent. -/
theorem CallShape.sent {plan : List Attempt} {call : LlmCall}
    (h : CallShape plan call.log call.phase) :
    InOrder plan (call.requests.map Prod.fst) ∧ SameAfterTransient call.requests := by
  have hended : ∀ {last : UpstreamAnswer → Prop}, EndsWith plan call.log last →
      InOrder plan ((answeredAll call.log).map Prod.fst) ∧
        SameAfterTransient (answeredAll call.log) := by
    rintro last ⟨done, now, later, earlier, failures, a, hplan, hrefused, hlog, hle, -, -⟩
    have hfst : (answeredAll call.log).map Prod.fst =
        earlier.map Prod.fst ++ List.replicate (failures.length + 1) now := by
      rw [answeredAll, List.map_map, hlog, List.map_append]
      congr 1
      rw [show Prod.fst ∘ (fun r : Attempt × UpstreamAnswer => (r.1, some r.2)) = Prod.fst from rfl,
        map_fst_block, List.length_append, List.length_singleton]
    have hall : answeredAll call.log =
        answeredAll earlier ++ (failures.map some ++ [some a]).map (Prod.mk now) := by
      rw [hlog]
      simp [answeredAll]
    rw [hfst, hplan, hall]
    exact ⟨hrefused.inOrder (by omega) (by omega), hrefused.sameAfter (isChain_block now _)⟩
  cases hp : call.phase with
  | sending now later attempt backoff =>
    rw [hp] at h
    obtain ⟨done, earlier, failures, hplan, hrefused, hlog, hlen, hle, hall⟩ := h
    have hrequests : call.requests =
        answeredAll earlier ++ (failures.map some ++ [none]).map (Prod.mk now) := by
      simp [LlmCall.requests, hp, hlog, answeredAll]
    have hfst : call.requests.map Prod.fst =
        earlier.map Prod.fst ++ List.replicate (failures.length + 1) now := by
      rw [hrequests, List.map_append, List.map_map, answeredAll, List.map_map]
      congr 1
      rw [show Prod.fst ∘ Prod.mk now = fun _ : Option UpstreamAnswer => now from rfl,
        List.map_const', List.length_append, List.length_map, List.length_singleton]
    rw [hfst, hplan, hrequests]
    exact ⟨hrefused.inOrder (by omega) (by omega), hrefused.sameAfter (isChain_block now _)⟩
  | streaming =>
    rw [hp] at h
    have : call.requests = answeredAll call.log := by
      simp [LlmCall.requests, hp, answeredAll]
    rw [this]
    exact hended h
  | returned result =>
    rw [hp] at h
    have : call.requests = answeredAll call.log := by
      simp [LlmCall.requests, hp, answeredAll]
    rw [this]
    cases result with
    | ok u => exact hended h
    | error e =>
      rcases h with h | ⟨msg, -, h⟩
      · exact hended h
      · exact hended h

theorem EndsWith.getLast {plan : List Attempt} {log : List (Attempt × UpstreamAnswer)}
    {last : UpstreamAnswer → Prop} (h : EndsWith plan log last) :
    ∃ r, log.getLast? = some r ∧ last r.2 := by
  obtain ⟨done, now, later, earlier, failures, a, -, -, hlog, -, -, ha⟩ := h
  refine ⟨(now, a), ?_, ha⟩
  rw [hlog, List.map_append, ← List.append_assoc]
  exact List.getLast?_concat

/-- What a call in shape returns. -/
theorem CallShape.returns {plan : List Attempt} {call : LlmCall}
    (h : CallShape plan call.log call.phase) : ReturnsLast call := by
  unfold ReturnsLast
  cases hp : call.phase with
  | sending now later attempt backoff => trivial
  | streaming => trivial
  | returned result =>
    rw [hp] at h
    cases result with
    | ok u => exact h.getLast
    | error e =>
      rcases h with h | ⟨msg, he, h⟩
      · obtain ⟨r, hr, hlast⟩ := h.getLast
        exact ⟨r, hr, .inl hlast⟩
      · obtain ⟨r, hr, hlast⟩ := h.getLast
        exact ⟨r, hr, .inr ⟨hlast, msg, he⟩⟩

/-! ### The cache -/

/-- The modes the cache has held, from a first one on. -/
def LlmSystem.held (base : StructuredMode) (s : LlmSystem) : List StructuredMode :=
  base :: s.stores

/-- The request at hand succeeds with a schema, in a mode stronger than one that another call stored
    since this one read the cache. -/
def Overtaken (s : LlmSystem) (e : LlmEvent) : Prop :=
  ∃ i a call now later attempt backoff m, e = .answer i a ∧ s.calls[i]? = some call ∧
    call.phase = .sending now later attempt backoff ∧ storedMode now a = some m ∧
    ∃ w ∈ s.stores.drop call.readAt, m.weakness < w.weakness

/-- The answer to a request with a schema is a success. -/
def SucceedsWithSchema (s : LlmSystem) (e : LlmEvent) : Prop :=
  ∃ i a call, e = .answer i a ∧ s.calls[i]? = some call ∧ call.schema.isSome ∧ Succeeded a

/-- What holds of the calls and the cache in every run. -/
structure LadderInv (base : StructuredMode) (s : LlmSystem) : Prop where
  cached : (s.held base).getLast? = some s.cached
  read : ∀ call ∈ s.calls, (s.held base)[call.readAt]? = some call.start
  shape : ∀ call ∈ s.calls, CallShape call.plan call.log call.phase

theorem storedMode_eq_some {now : Attempt} {a : UpstreamAnswer} {m : StructuredMode}
    (h : storedMode now a = some m) : now.mode = some m ∧ Succeeded a := by
  cases a with
  | dropped e => simp [storedMode] at h
  | status code body =>
    simp only [storedMode] at h
    by_cases hs : isSuccess code
    · rw [if_pos hs] at h
      exact ⟨h, hs⟩
    · rw [if_neg hs] at h
      exact absurd h (by simp)

/-- An attempt with a mode is one of a call with a schema, no stronger than the mode it read. -/
theorem mode_of_mem_plan {call : LlmCall} {now : Attempt} (h : now ∈ call.plan) {m : StructuredMode}
    (hm : now.mode = some m) : call.schema.isSome ∧ call.start.weakness ≤ m.weakness := by
  unfold LlmCall.plan attempts at h
  cases hs : call.schema with
  | none =>
    rw [hs] at h
    rw [List.mem_singleton.1 h] at hm
    exact absurd hm (by simp)
  | some schema =>
    rw [hs] at h
    simp only [fromOrdinal_ordinal, List.mem_map] at h
    obtain ⟨m', hm', rfl⟩ := h
    obtain rfl : m' = m := Option.some.inj hm
    refine ⟨rfl, ?_⟩
    revert hm'
    cases call.start <;> cases m' <;> decide

/-- The mode that a call in shape stores. -/
theorem CallShape.stores {call : LlmCall} {now later attempt backoff}
    (h : CallShape call.plan call.log call.phase)
    (hp : call.phase = .sending now later attempt backoff) {a : UpstreamAnswer}
    {m : StructuredMode} (hm : storedMode now a = some m) :
    call.schema.isSome ∧ call.start.weakness ≤ m.weakness ∧ Succeeded a := by
  rw [hp] at h
  obtain ⟨done, earlier, failures, hplan, -⟩ := h
  obtain ⟨hmode, hsuccess⟩ := storedMode_eq_some hm
  have hmem : now ∈ call.plan := by
    rw [hplan]
    exact List.mem_append_right done List.mem_cons_self
  obtain ⟨hschema, hle⟩ := mode_of_mem_plan hmem hmode
  exact ⟨hschema, hle, hsuccess⟩

theorem ladderInv_fresh (v : UInt8) : LadderInv (.fromOrdinal v) (LlmSystem.fresh v) where
  cached := rfl
  read _ h := absurd h List.not_mem_nil
  shape _ h := absurd h List.not_mem_nil

/-- Every step keeps it. -/
theorem ladderInv_step {base : StructuredMode} {s t : LlmSystem} {e : LlmEvent}
    (hs : LadderInv base s) (h : llmStep s e = some t) : LadderInv base t := by
  rcases llmStep_cases h with ⟨schema, -, rfl⟩ | ⟨i, a, call, now, later, attempt, backoff, -, hc,
    hp, rfl⟩ | ⟨i, result, call, -, hc, hp, rfl⟩
  · -- A call begins: it reads what the cache holds last.
    refine ⟨hs.cached, ?_, ?_⟩
    · intro call hcall
      rcases List.mem_append.1 hcall with hcall | hcall
      · exact hs.read call hcall
      · rw [List.mem_singleton.1 hcall]
        have hlast := hs.cached
        rw [List.getLast?_eq_getElem?] at hlast
        exact hlast
    · intro call hcall
      rcases List.mem_append.1 hcall with hcall | hcall
      · exact hs.shape call hcall
      · rw [List.mem_singleton.1 hcall]
        exact callShape_begin _ _ _
  · -- A request is answered: a success may add a store at the end.
    have hmem : call ∈ s.calls := List.mem_of_getElem? hc
    have hread : ∀ c ∈ s.calls, (base :: (s.stores ++ (storedMode now a).toList))[c.readAt]? =
        some c.start := by
      intro c hcall
      have hget := hs.read c hcall
      rw [← List.cons_append]
      rw [LlmSystem.held] at hget
      rw [List.getElem?_append_left (List.getElem?_eq_some_iff.1 hget).1]
      exact hget
    refine ⟨?_, ?_, ?_⟩
    · cases hm : storedMode now a with
      | none =>
        simp only [LlmSystem.held, Option.toList_none, List.append_nil]
        exact hs.cached
      | some m =>
        simp only [LlmSystem.held, Option.toList_some, ← List.cons_append, LlmSystem.cached,
          fromOrdinal_ordinal]
        exact List.getLast?_concat
    · intro c hcall
      rcases List.mem_or_eq_of_mem_set hcall with hcall | rfl
      · exact hread c hcall
      · exact hread call hmem
    · intro c hcall
      rcases List.mem_or_eq_of_mem_set hcall with hcall | rfl
      · exact hs.shape c hcall
      · have hshape := hs.shape call hmem
        rw [hp] at hshape
        exact callShape_answered hshape
  · have hmem : call ∈ s.calls := List.mem_of_getElem? hc
    refine ⟨hs.cached, ?_, ?_⟩
    · intro c hcall
      rcases List.mem_or_eq_of_mem_set hcall with hcall | rfl
      · exact hs.read c hcall
      · exact hs.read call hmem
    · intro c hcall
      rcases List.mem_or_eq_of_mem_set hcall with hcall | rfl
      · exact hs.shape c hcall
      · have hshape := hs.shape call hmem
        rw [hp] at hshape
        exact callShape_streamed hshape result

theorem ladderInv_of_run {guard : LlmSystem → LlmEvent → Prop} {v : UInt8} {s : LlmSystem}
    (h : LlmRun guard (.fresh v) s) : LadderInv (.fromOrdinal v) s :=
  h.invariant (ladderInv_fresh v) fun _ _ _ hi _ hone => ladderInv_step hi hone

/-- Only a successful answer to a call with a schema changes the cache. -/
theorem succeeds_of_changed {base : StructuredMode} {s t : LlmSystem} {e : LlmEvent}
    (hs : LadderInv base s) (h : llmStep s e = some t) (hne : t.structuredMode ≠ s.structuredMode) :
    SucceedsWithSchema s e := by
  rcases llmStep_cases h with ⟨schema, -, rfl⟩ | ⟨i, a, call, now, later, attempt, backoff, rfl, hc,
    hp, rfl⟩ | ⟨i, result, call, -, hc, hp, rfl⟩
  · exact absurd rfl hne
  · cases hm : storedMode now a with
    | none => simp [hm] at hne
    | some m =>
      obtain ⟨hschema, -, hsuccess⟩ := (hs.shape call (List.mem_of_getElem? hc)).stores hp hm
      exact ⟨i, a, call, rfl, hc, hschema, hsuccess⟩
  · exact absurd rfl hne

/-- Each mode the cache held is no stronger than the ones before it. -/
def Descends (base : StructuredMode) (s : LlmSystem) : Prop :=
  (s.held base).Pairwise fun m m' => m.weakness ≤ m'.weakness

/-- Where the cache has never moved back, it moves back exactly in a step in which a call was
    overtaken. -/
theorem movesBack_iff {base : StructuredMode} {s t : LlmSystem} {e : LlmEvent}
    (hs : LadderInv base s) (hd : Descends base s) (h : llmStep s e = some t) :
    t.cached.weakness < s.cached.weakness ↔ Overtaken s e := by
  rcases llmStep_cases h with ⟨schema, rfl, rfl⟩ | ⟨i, a, call, now, later, attempt, backoff, rfl,
    hc, hp, rfl⟩ | ⟨i, result, call, rfl, hc, hp, rfl⟩
  · refine ⟨fun hlt => absurd hlt (Nat.lt_irrefl _), ?_⟩
    rintro ⟨i, a, call, now, later, attempt, backoff, m, he, -⟩
    exact absurd he (by simp)
  · cases hm : storedMode now a with
    | none =>
      simp only [LlmSystem.cached]
      refine ⟨fun hlt => absurd hlt (Nat.lt_irrefl _), ?_⟩
      rintro ⟨i', a', call', now', later', attempt', backoff', m', he, hc', hp', hm', -⟩
      simp only [LlmEvent.answer.injEq] at he
      obtain ⟨rfl, rfl⟩ := he
      rw [hc] at hc'
      obtain rfl := Option.some.inj hc'
      rw [hp] at hp'
      simp only [LlmPhase.sending.injEq] at hp'
      rw [hp'.1, hm'] at hm
      exact absurd hm (by simp)
    | some m =>
      have hmem := List.mem_of_getElem? hc
      obtain ⟨-, hstart, -⟩ := (hs.shape call hmem).stores hp hm
      have hread := hs.read call hmem
      have hlast := hs.cached
      have hcached : (LlmSystem.cached ⟨m.ordinal, s.calls, s.stores⟩) = m := fromOrdinal_ordinal m
      show (StructuredMode.fromOrdinal m.ordinal).weakness < s.cached.weakness ↔ _
      rw [fromOrdinal_ordinal]
      constructor
      · intro hlt
        refine ⟨i, a, call, now, later, attempt, backoff, m, rfl, hc, hp, hm, s.cached, ?_, hlt⟩
        -- The last mode held is not the one read, so it was stored since.
        obtain ⟨hbound, -⟩ := List.getElem?_eq_some_iff.1 hread
        simp only [LlmSystem.held, List.length_cons] at hbound
        by_cases hend : s.stores.length ≤ call.readAt
        · have : call.readAt = s.stores.length := by omega
          rw [this] at hread
          rw [List.getLast?_eq_getElem?] at hlast
          rw [show (s.held base).length - 1 = s.stores.length from rfl, hread] at hlast
          rw [← Option.some.inj hlast] at hlt
          omega
        · have hdrop : (s.stores.drop call.readAt).getLast? = some s.cached := by
            rw [List.getLast?_drop, if_neg (by omega)]
            have : s.stores ≠ [] := by
              intro hnil
              rw [hnil] at hend
              exact hend (Nat.zero_le _)
            rw [LlmSystem.held, List.getLast?_cons_of_ne_nil this] at hlast
            exact hlast
          exact List.mem_of_getLast? hdrop
      · rintro ⟨i', a', call', now', later', attempt', backoff', m', he, hc', hp', hm', w, hw, hlt⟩
        simp only [LlmEvent.answer.injEq] at he
        obtain ⟨rfl, rfl⟩ := he
        rw [hc] at hc'
        obtain rfl := Option.some.inj hc'
        rw [hp] at hp'
        simp only [LlmPhase.sending.injEq] at hp'
        rw [← hp'.1, hm] at hm'
        obtain rfl := Option.some.inj hm'
        -- What was stored since is no weaker than what the cache holds.
        have hwheld : w ∈ s.held base := List.mem_cons_of_mem base (List.mem_of_mem_drop hw)
        have hle : w.weakness ≤ s.cached.weakness := by
          obtain ⟨front, hfront⟩ := List.getLast?_eq_some_iff.1 hlast
          rw [hfront] at hwheld
          unfold Descends at hd
          rw [hfront, List.pairwise_append] at hd
          rcases List.mem_append.1 hwheld with hw' | hw'
          · exact hd.2.2 w hw' _ (List.mem_singleton_self _)
          · rw [List.mem_singleton.1 hw']
        omega
  · refine ⟨fun hlt => absurd hlt (Nat.lt_irrefl _), ?_⟩
    rintro ⟨i, a, call, now, later, attempt, backoff, m, he, -⟩
    exact absurd he (by simp)

/-- A step in which no call was overtaken stores nothing stronger than what was held. -/
theorem descends_step {base : StructuredMode} {s t : LlmSystem} {e : LlmEvent}
    (hs : LadderInv base s) (hd : Descends base s) (h : llmStep s e = some t)
    (hguard : ¬ Overtaken s e) : Descends base t := by
  have hback := mt (movesBack_iff hs hd h).1 hguard
  have ht := (ladderInv_step hs h).cached
  have hstores : t.stores = s.stores ∨ ∃ m, t.stores = s.stores ++ [m] := by
    rcases llmStep_cases h with ⟨schema, -, rfl⟩ | ⟨i, a, call, now, later, attempt, backoff, -, -,
      -, rfl⟩ | ⟨i, result, call, -, -, -, rfl⟩
    · exact .inl rfl
    · cases hm : storedMode now a with
      | none => exact .inl (List.append_nil _)
      | some m => exact .inr ⟨m, rfl⟩
    · exact .inl rfl
  unfold Descends LlmSystem.held at hd ⊢
  rcases hstores with heq | ⟨m, heq⟩
  · rw [heq]
    exact hd
  · rw [LlmSystem.held, heq, ← List.cons_append, List.getLast?_concat] at ht
    obtain rfl := Option.some.inj ht
    rw [heq, ← List.cons_append, List.pairwise_append]
    refine ⟨hd, List.pairwise_singleton _ _, ?_⟩
    intro w hw w' hw'
    rw [List.mem_singleton.1 hw']
    -- What was held is no weaker than what the cache held last.
    obtain ⟨front, hfront⟩ := List.getLast?_eq_some_iff.1 hs.cached
    have hle : w.weakness ≤ s.cached.weakness := by
      rw [LlmSystem.held] at hfront
      rw [hfront] at hw hd
      rw [List.pairwise_append] at hd
      rcases List.mem_append.1 hw with hw | hw
      · exact hd.2.2 w hw _ (List.mem_singleton_self _)
      · rw [List.mem_singleton.1 hw]
    omega

theorem descends_of_run {v : UInt8} {s : LlmSystem}
    (h : LlmRun (fun s e => ¬ Overtaken s e) (.fresh v) s) : Descends (.fromOrdinal v) s :=
  (h.invariant (I := fun s => LadderInv (.fromOrdinal v) s ∧ Descends (.fromOrdinal v) s)
    ⟨ladderInv_fresh v, List.pairwise_singleton _ _⟩ fun _ _ _ hi hguard hone =>
      ⟨ladderInv_step hi.1 hone, descends_step hi.1 hi.2 hone hguard⟩).2

/-- The law of the ladder. In every run of any calls against any answers, each call sends the modes
    from the one it read on in their order, one to four requests each, sends the same attempt after
    a transient failure, and returns what the last answer says; only a success with a schema changes
    the cache. In a run in which no call is overtaken the cache never moves back, and a step from
    such a run moves it back exactly where a call is overtaken. -/
theorem ladderLaw (v : UInt8) :
    (∀ s, LlmRun (fun _ _ => True) (.fresh v) s →
      (∀ call ∈ s.calls, InOrder call.plan (call.requests.map Prod.fst) ∧
        SameAfterTransient call.requests ∧ ReturnsLast call) ∧
      ∀ e t, llmStep s e = some t → t.structuredMode ≠ s.structuredMode →
        SucceedsWithSchema s e) ∧
    ∀ s, LlmRun (fun s e => ¬ Overtaken s e) (.fresh v) s →
      (∀ t, LlmRun (fun s e => ¬ Overtaken s e) s t → s.cached.weakness ≤ t.cached.weakness) ∧
      ∀ e t, llmStep s e = some t →
        (t.cached.weakness < s.cached.weakness ↔ Overtaken s e) := by
  refine ⟨fun s h => ⟨fun call hcall => ?_, fun e t hone hne => ?_⟩, fun s h => ⟨fun t h' => ?_,
    fun e t hone => ?_⟩⟩
  · have hshape := (ladderInv_of_run h).shape call hcall
    exact ⟨hshape.sent.1, hshape.sent.2, hshape.returns⟩
  · exact succeeds_of_changed (ladderInv_of_run h) hone hne
  · induction h' with
    | refl => exact Nat.le_refl _
    | tail e hrun hguard hone ih =>
      have hreached := h.trans hrun
      have hback := mt (movesBack_iff (ladderInv_of_run hreached) (descends_of_run hreached)
        hone).1 hguard
      omega
  · exact movesBack_iff (ladderInv_of_run h) (descends_of_run h) hone

/-- A call with a schema that was refused once. -/
def refusedOnce : LlmCall where
  schema := some "s"
  start := .jsonSchema
  readAt := 0
  phase := .sending ⟨some .jsonObject, some .jsonObject⟩ [⟨some .prompt, none⟩] 0 300
  log := [(⟨some .jsonSchema, some (.jsonSchema "s")⟩, .status 400 "")]

theorem ladderLaw_refusedOnce : SameAfterTransient refusedOnce.requests :=
  ((((ladderLaw 0).1 ⟨0, [refusedOnce], []⟩ ((GuardedRun.refl.tail (.generate (some "s")) trivial
    rfl).tail (.answer 0 (.status 400 "")) trivial rfl)).1 refusedOnce
      (List.mem_singleton_self _)).2).1

/-- Two calls read the cache at the strongest mode; the first is refused and stores the next one,
    then the second succeeds and stores the strongest again. -/
theorem lateSuccess_movesBack :
    (([.generate (some "s"), .generate (some "s"), .answer 0 (.status 400 ""),
        .answer 0 (.status 200 "")] : List LlmEvent).foldlM llmStep (.fresh 0)).map
      LlmSystem.structuredMode = some 1 ∧
    (([.generate (some "s"), .generate (some "s"), .answer 0 (.status 400 ""),
        .answer 0 (.status 200 ""), .answer 1 (.status 200 "")] : List LlmEvent).foldlM llmStep
      (.fresh 0)).map LlmSystem.structuredMode = some 0 := by
  decide

end Spelunk
