import Spelunk.Lib.Transition
import Spelunk.Theory.KeyringSteps

/-!
# Which Server a Key Is Sent To

Runs of calls on one secret store, each stopped where it may be, or its answer lost.
A run keeps a log of what was called and answered; the invariants relate the log to
the keyring. A key that is sent to an origin was stored for it, or is the old key;
the old key goes to one origin, unless a lookup is stopped between the write that
moves it and its removal, since a later lookup for another origin finds it again.

## Main definitions

* `KeyEvent`, `keyStep`: A call with its faults, and what it does.
* `StoredFor`: A key was stored for an origin.
* `CutMigration`: A lookup stopped while it moves the old key.
* `KeysLaw`: What holds of a run.

## Theorems

* `effect_key`: What a call does to the key of an origin.
* `keysLaw`: The law.
* `oldKey_leaks`: Runs in which the old key goes where the law would not have it
  without its exceptions.
-/

namespace Spelunk

open Lib (Sql SqlError GuardedRun)

section Keys

variable [OriginParser]

/-- A call stores a key for an origin. -/
def KeyCall.Stores (call : KeyCall) (origin key : String) : Prop :=
  ∃ serverUrl, call = .setKey serverUrl key ∧ ServerKeys.normalizeOrigin serverUrl = .ok origin

/-- A call clears the key of an origin. -/
def KeyCall.Clears (call : KeyCall) (origin : String) : Prop :=
  call = .clearAll ∨ ∃ serverUrl, call = .clearOrigin serverUrl ∧
    ServerKeys.normalizeOrigin serverUrl = .ok origin

/-- A call looks up the key of an origin. -/
def KeyCall.LooksUp (call : KeyCall) (origin : String) : Prop :=
  ∃ auth cloudUrl serverUrl, call = .bearerFor auth cloudUrl serverUrl ∧
    ServerOrigin cloudUrl serverUrl origin

section Effects

variable {K K' : Keyring} {call : KeyCall} {r : Except SqlError KeyAnswer} {origin : String}

/-- What a call does to the key of an origin: nothing, unless it stores one, moves the
    old key there, or clears it. -/
theorem effect_key (h : Effect K call r K') (origin : String) :
    K'.key origin = K.key origin ∨
      (∃ key, call.Stores origin key ∧ K'.key origin = some key) ∨
      (call.LooksUp origin ∧ K.key origin = none ∧ K.legacy ≠ none ∧ K'.key origin = K.legacy) ∨
      (call.Clears origin ∧ K'.key origin = none) := by
  have hput : ∀ {o : String} {k : Option String}, origin ≠ o → (K.put o k).key origin = K.key origin :=
    fun hne => Keyring.key_put_of_ne K hne _
  cases h with
  | failed => exact Or.inl rfl
  | cloud _ _ => exact Or.inl rfl
  | known _ _ _ => exact Or.inl rfl
  | listed _ => exact Or.inl rfl
  | clearedLegacy _ _ _ _ => exact Or.inl rfl
  | clearedAll _ => exact Or.inr (Or.inr (Or.inr ⟨Or.inl rfl, rfl⟩))
  | @stored serverUrl key o _ hurl hread _ =>
      by_cases ho : origin = o
      · subst ho
        exact Or.inr (Or.inl ⟨key, ⟨serverUrl, rfl, hurl⟩, Keyring.key_put_self hread _ _⟩)
      · exact Or.inl (hput ho)
  | @migrated auth cloudUrl serverUrl o legacy _ hurl hread hnone hlegacy _ =>
      by_cases ho : origin = o
      · subst ho
        refine Or.inr (Or.inr (Or.inl ⟨⟨auth, cloudUrl, serverUrl, rfl, hurl⟩, hnone,
          by rw [hlegacy]; exact Option.some_ne_none _, ?_⟩))
        rw [hlegacy]
        exact Keyring.key_put_self hread _ _
      · exact Or.inl (hput ho)
  | @cut auth cloudUrl serverUrl o legacy e hurl hread hnone hlegacy =>
      by_cases ho : origin = o
      · subst ho
        refine Or.inr (Or.inr (Or.inl ⟨⟨auth, cloudUrl, serverUrl, rfl, hurl⟩, hnone,
          by rw [hlegacy]; exact Option.some_ne_none _, ?_⟩))
        rw [hlegacy]
        exact Keyring.key_put_self hread _ _
      · exact Or.inl (hput ho)
  | @cleared serverUrl o _ hurl hread _ _ =>
      by_cases ho : origin = o
      · subst ho
        exact Or.inr (Or.inr (Or.inr ⟨Or.inr ⟨serverUrl, rfl, hurl⟩, Keyring.key_put_self hread _ _⟩))
      · exact Or.inl (hput ho)

/-- The old key stays or goes; no call writes it. -/
theorem effect_legacy (h : Effect K call r K') : K'.legacy = K.legacy ∨ K'.legacy = none := by
  cases h with
  | migrated => exact Or.inr rfl
  | clearedLegacy => exact Or.inr rfl
  | failed | cloud | known | listed | clearedAll | stored | cut | cleared => exact Or.inl rfl

/-- A key that is answered for the origin of a server is the one in the map behind the
    call. -/
theorem effect_answer {auth : Option AuthTokens} {cloudUrl : Option String} {serverUrl : String}
    {answer : Option String}
    (h : Effect K (.bearerFor auth cloudUrl serverUrl) (.ok (.bearer answer)) K')
    (hurl : ServerOrigin cloudUrl serverUrl origin) :
    answer = K'.key origin ∧
      (K' = K ∧ (K.key origin ≠ none ∨ K.legacy = none) ∨
        K'.legacy = none ∧ K.key origin = none ∧ K.legacy = answer) := by
  rcases hurl with ⟨hurl, cloud, hcloud, hne⟩
  have horigin : ∀ {o : String}, ServerOrigin cloudUrl serverUrl o → o = origin :=
    fun ho => Except.ok.inj (ho.1.symm.trans hurl)
  cases h with
  | cloud hurl' hcloud' =>
      rw [hurl] at hurl'
      rw [hcloud] at hcloud'
      exact absurd ((Except.ok.inj hurl').trans (Except.ok.inj hcloud').symm) hne
  | known hurl' _ hknown =>
      rw [horigin hurl'] at hknown ⊢
      exact ⟨rfl, Or.inl ⟨rfl, hknown⟩⟩
  | migrated hurl' hread hnone hlegacy hr =>
      rw [horigin hurl'] at hnone ⊢
      rcases hr with hr | ⟨e, hr⟩
      · cases hr
        exact ⟨(Keyring.key_put_self hread origin _).symm, Or.inr ⟨rfl, hnone, hlegacy⟩⟩
      · cases hr

/-- What is answered for the cloud is the login's token. -/
theorem effect_token {auth : Option AuthTokens} {cloudUrl : Option String} {serverUrl : String}
    {answer : Option String}
    (h : Effect K (.bearerFor auth cloudUrl serverUrl) (.ok (.bearer answer)) K')
    (hurl : ServerKeys.normalizeOrigin serverUrl = .ok origin)
    (hcloud : ServerKeys.cloudOrigin ⟨none, cloudUrl⟩ = .ok origin) :
    answer = (auth.map (·.accessToken)).filter (fun token => token ≠ "") := by
  have hno : ∀ {o : String}, ¬ ServerOrigin cloudUrl serverUrl o := by
    rintro o ⟨ho, cloud, hcloud', hne⟩
    rw [hurl] at ho
    rw [hcloud] at hcloud'
    exact hne ((Except.ok.inj ho).symm.trans (Except.ok.inj hcloud'))
  cases h with
  | cloud _ _ => rfl
  | known hurl' _ _ => exact absurd hurl' hno
  | migrated hurl' _ _ _ _ => exact absurd hurl' hno

end Effects

variable [MapJson]

/-- A call, after how many operations of the store one fails or the process is
    stopped, and whether the answer is lost behind the last one. -/
structure KeyEvent where
  call : KeyCall
  failAfter : Option Nat
  lost : Bool

/-- What was called and answered. -/
abbrev KeyLog := List (KeyCall × Except SqlError KeyAnswer)

variable {σ : Type}

/-- The answer to an event. -/
def keyAnswer (store : SecretStore σ) (s : σ) (e : KeyEvent) : Except SqlError KeyAnswer :=
  if e.lost then .error .io else (e.call.run store ⟨s, e.failAfter⟩).1

/-- The store and the log after an event. -/
def keyStep (store : SecretStore σ) (w : σ × KeyLog) (e : KeyEvent) : σ × KeyLog :=
  ((e.call.run store ⟨w.1, e.failAfter⟩).2.db, w.2 ++ [(e.call, keyAnswer store w.1 e)])

/-- Runs whose events all meet a condition. -/
abbrev KeyRun (store : SecretStore σ) (guard : σ × KeyLog → KeyEvent → Prop) :
    σ × KeyLog → σ × KeyLog → Prop :=
  GuardedRun (fun w e w' => keyStep store w e = w') guard

section Step

variable {store : SecretStore σ} {view : σ → String → Option String}

/-- An event is a call with one of its effects. -/
theorem keyStep_effect (hstore : LawfulStore store view) (w : σ × KeyLog) (e : KeyEvent) :
    Effect (keyring (view w.1)) e.call (keyAnswer store w.1 e)
      (keyring (view (keyStep store w e).1)) := by
  have hrun := post_run hstore (keyring (view w.1)) e.call ⟨w.1, e.failAfter⟩ rfl
  have hplain : Effect (keyring (view w.1)) e.call (e.call.run store ⟨w.1, e.failAfter⟩).1
      (keyring (view (keyStep store w e).1)) := by
    rcases hr : (e.call.run store ⟨w.1, e.failAfter⟩).1 with err | a
    · exact hrun.2 err hr err
    · exact hrun.1 a hr
  unfold keyAnswer
  by_cases hlost : e.lost
  · rw [if_pos hlost]
    exact hplain.lost _
  · rw [if_neg hlost]
    exact hplain

end Step

section Laws

variable {store : SecretStore σ} {view : σ → String → Option String}

/-- A key was sent to an origin that is not the cloud. -/
def Sent (log : KeyLog) (origin key : String) : Prop :=
  ∃ auth cloudUrl serverUrl, ServerOrigin cloudUrl serverUrl origin ∧
    (KeyCall.bearerFor auth cloudUrl serverUrl, .ok (.bearer (some key))) ∈ log

/-- A key was stored for an origin: it is in the map the run starts with, or a call of
    the run stored it. -/
def StoredFor (K : Keyring) (log : KeyLog) (origin key : String) : Prop :=
  K.key origin = some key ∨ ∃ call r, (call, r) ∈ log ∧ call.Stores origin key

/-- The key of an origin in the map. -/
def HasKey (view : σ → String → Option String) (s : σ) (origin : String) (key : Option String) : Prop :=
  (keyring (view s)).key origin = key

/-- A lookup that is stopped while it moves the old key: the map has changed, and the
    old key is still there. -/
def CutMigration (store : SecretStore σ) (view : σ → String → Option String) (w : σ × KeyLog)
    (e : KeyEvent) : Prop :=
  (∃ origin, e.call.LooksUp origin) ∧
    keyring (view (keyStep store w e).1) ≠ keyring (view w.1) ∧
    (keyring (view (keyStep store w e).1)).legacy ≠ none

/-- Where a key of the map or of the log comes from: the origins that the old key may
    have gone to are `old`. -/
structure Accounted (K₀ : Keyring) (old : String → Prop) (K : Keyring) (log : KeyLog) : Prop where
  keys : ∀ origin key, K.key origin = some key →
    StoredFor K₀ log origin key ∨ old origin ∧ K₀.legacy = some key
  legacy : K.legacy = none ∨ K.legacy = K₀.legacy
  sent : ∀ origin key, Sent log origin key →
    StoredFor K₀ log origin key ∨ old origin ∧ K₀.legacy = some key

omit [MapJson] in
theorem StoredFor.append {K₀ : Keyring} {log : KeyLog} {origin key : String}
    (h : StoredFor K₀ log origin key) (entry : KeyCall × Except SqlError KeyAnswer) :
    StoredFor K₀ (log ++ [entry]) origin key := by
  rcases h with h | ⟨call, r, hmem, hstores⟩
  · exact Or.inl h
  · exact Or.inr ⟨call, r, List.mem_append_left _ hmem, hstores⟩

omit [MapJson] in
/-- A call keeps the account, if the old key goes only where it may. -/
theorem Accounted.step {K₀ K K' : Keyring} {old old' : String → Prop} {log : KeyLog} {call : KeyCall}
    {r : Except SqlError KeyAnswer} (h : Accounted K₀ old K log) (heffect : Effect K call r K')
    (hmono : ∀ origin, old origin → old' origin)
    (hmove : ∀ origin, call.LooksUp origin → K.key origin = none → K.legacy ≠ none →
      K'.key origin = K.legacy → old' origin) :
    Accounted K₀ old' K' (log ++ [(call, r)]) := by
  have hkeys : ∀ origin key, K'.key origin = some key →
      StoredFor K₀ (log ++ [(call, r)]) origin key ∨ old' origin ∧ K₀.legacy = some key := by
    intro origin key hkey
    rcases effect_key heffect origin with heq | ⟨stored, hstores, heq⟩ |
        ⟨hlooks, hnone, hlegacy, heq⟩ | ⟨_, heq⟩
    · rw [heq] at hkey
      rcases h.keys origin key hkey with hstored | ⟨hold, hlegacy⟩
      · exact Or.inl (hstored.append _)
      · exact Or.inr ⟨hmono origin hold, hlegacy⟩
    · rw [heq, Option.some.injEq] at hkey
      rw [← hkey]
      exact Or.inl (Or.inr ⟨call, r, List.mem_append_right _ List.mem_cons_self, hstores⟩)
    · refine Or.inr ⟨hmove origin hlooks hnone hlegacy heq, ?_⟩
      rw [heq] at hkey
      rcases h.legacy with hgone | hsame
      · exact absurd hgone hlegacy
      · rw [← hsame]
        exact hkey
    · rw [heq] at hkey
      cases hkey
  refine ⟨hkeys, ?_, ?_⟩
  · rcases effect_legacy heffect with heq | heq
    · rw [heq]
      exact h.legacy
    · exact Or.inl heq
  · rintro origin key ⟨auth, cloudUrl, serverUrl, hurl, hmem⟩
    rcases List.mem_append.mp hmem with hmem | hmem
    · rcases h.sent origin key ⟨auth, cloudUrl, serverUrl, hurl, hmem⟩ with hstored | ⟨hold, hlegacy⟩
      · exact Or.inl (hstored.append _)
      · exact Or.inr ⟨hmono origin hold, hlegacy⟩
    · -- The answer is the key in the map behind the call.
      rw [List.mem_singleton, Prod.mk.injEq] at hmem
      rcases hmem with ⟨hcall, hr⟩
      rw [← hcall, ← hr] at heffect
      exact hkeys origin key (effect_answer heffect hurl).1.symm

omit [MapJson] in
theorem accounted_start (K : Keyring) (old : String → Prop) : Accounted K old K [] where
  keys _ _ h := Or.inl (Or.inl h)
  legacy := Or.inr rfl
  sent := by
    rintro origin key ⟨auth, cloudUrl, serverUrl, _, hmem⟩
    exact absurd hmem List.not_mem_nil

/-- A key that is sent was stored for its origin, or is the old key. -/
theorem sent_of_run (hstore : LawfulStore store view) {s : σ} {w : σ × KeyLog}
    (h : KeyRun store (fun _ _ => True) (s, []) w) {origin key : String}
    (hsent : Sent w.2 origin key) :
    StoredFor (keyring (view s)) w.2 origin key ∨ (keyring (view s)).legacy = some key := by
  have haccount : Accounted (keyring (view s)) (fun _ => True) (keyring (view w.1)) w.2 := by
    refine h.invariant (I := fun w => Accounted (keyring (view s)) (fun _ => True)
      (keyring (view w.1)) w.2) (accounted_start _ _) ?_
    intro t e u ht _ hstep
    rw [← hstep]
    exact ht.step (keyStep_effect hstore t e) (fun _ h => h) (fun _ _ _ _ _ => trivial)
  rcases haccount.sent origin key hsent with hstored | ⟨-, hlegacy⟩
  · exact Or.inl hstored
  · exact Or.inr hlegacy

/-- Where no lookup is stopped while it moves the old key, that key goes to one origin. -/
theorem sent_once (hstore : LawfulStore store view) {s : σ} {w : σ × KeyLog}
    (h : KeyRun store (fun w e => ¬ CutMigration store view w e) (s, []) w) :
    ∃ target, ∀ origin key, Sent w.2 origin key →
      StoredFor (keyring (view s)) w.2 origin key ∨
        origin = target ∧ (keyring (view s)).legacy = some key := by
  -- Until it has moved, the old key has gone nowhere; then it is not there any more.
  have hinv : Accounted (keyring (view s)) (fun _ => False) (keyring (view w.1)) w.2 ∨
      ∃ target, (keyring (view w.1)).legacy = none ∧
        Accounted (keyring (view s)) (fun o => o = target) (keyring (view w.1)) w.2 := by
    refine h.invariant (I := fun w => Accounted (keyring (view s)) (fun _ => False)
      (keyring (view w.1)) w.2 ∨ ∃ target, (keyring (view w.1)).legacy = none ∧
        Accounted (keyring (view s)) (fun o => o = target) (keyring (view w.1)) w.2)
      (Or.inl (accounted_start _ _)) ?_
    intro t e u ht hguard hstep
    subst hstep
    have heffect := keyStep_effect hstore t e
    rcases ht with ht | ⟨target, hgone, ht⟩
    · by_cases hmoved : ∃ o, e.call.LooksUp o ∧ (keyring (view t.1)).key o = none ∧
          (keyring (view t.1)).legacy ≠ none ∧
          (keyring (view (keyStep store t e).1)).key o = (keyring (view t.1)).legacy
      · rcases hmoved with ⟨o, hlooks, hnone, hlegacy, hkey⟩
        refine Or.inr ⟨o, ?_, ht.step heffect (fun _ h => h.elim) ?_⟩
        · by_contra hleft
          refine hguard ⟨⟨o, hlooks⟩, fun heq => ?_, hleft⟩
          rw [heq, hnone] at hkey
          exact hlegacy hkey.symm
        · rintro o' ⟨auth', cloudUrl', serverUrl', hcall', hurl'⟩ - - -
          rcases hlooks with ⟨auth, cloudUrl, serverUrl, hcall, hurl⟩
          rw [hcall, KeyCall.bearerFor.injEq] at hcall'
          have hsame := hurl.1
          rw [hcall'.2.2] at hsame
          exact Except.ok.inj (hurl'.1.symm.trans hsame)
      · exact Or.inl (ht.step heffect (fun _ h => h.elim)
          (fun o hlooks hnone hlegacy hkey => (hmoved ⟨o, hlooks, hnone, hlegacy, hkey⟩).elim))
    · refine Or.inr ⟨target, ?_, ht.step heffect (fun _ h => h)
        (fun _ _ _ hlegacy _ => absurd hgone hlegacy)⟩
      rcases effect_legacy heffect with heq | heq
      · exact heq.trans hgone
      · exact heq
  rcases hinv with haccount | ⟨target, -, haccount⟩
  · refine ⟨"", fun origin key hsent => Or.inl ?_⟩
    exact (haccount.sent origin key hsent).resolve_right (fun h => h.1)
  · exact ⟨target, fun origin key hsent => haccount.sent origin key hsent⟩

/-- The key of an origin stays over a run that neither stores one for it nor clears it. -/
theorem hasKey_of_run (hstore : LawfulStore store view) {origin key : String} {w w' : σ × KeyLog}
    (h : KeyRun store (fun _ e => (∀ key, ¬ e.call.Stores origin key) ∧ ¬ e.call.Clears origin) w w')
    (hkey : HasKey view w.1 origin (some key)) : HasKey view w'.1 origin (some key) := by
  refine h.invariant (I := fun w => HasKey view w.1 origin (some key)) hkey ?_
  intro t e u ht hguard hstep
  subst hstep
  rcases effect_key (keyStep_effect hstore t e) origin with heq | ⟨stored, hstores, -⟩ |
      ⟨-, hnone, -⟩ | ⟨hclears, -⟩
  · exact heq.trans ht
  · exact absurd hstores (hguard.1 stored)
  · rw [HasKey, hnone] at ht
    cases ht
  · exact absurd hclears hguard.2

/-- Over a run that stores no key for an origin without one, only the old key is sent
    there. -/
theorem sent_of_cleared (hstore : LawfulStore store view) {origin : String} {s : σ} {w : σ × KeyLog}
    (h : KeyRun store (fun _ e => ∀ key, ¬ e.call.Stores origin key) (s, []) w)
    (hnone : HasKey view s origin none) {key : String} (hsent : Sent w.2 origin key) :
    (keyring (view s)).legacy = some key := by
  have hinv : Accounted (keyring (view s)) (fun _ => True) (keyring (view w.1)) w.2 ∧
      ∀ k, ¬ ∃ call r, (call, r) ∈ w.2 ∧ call.Stores origin k := by
    refine h.invariant (I := fun w => Accounted (keyring (view s)) (fun _ => True)
      (keyring (view w.1)) w.2 ∧ ∀ k, ¬ ∃ call r, (call, r) ∈ w.2 ∧ call.Stores origin k) ?_ ?_
    · exact ⟨accounted_start _ _, fun k ⟨_, _, hmem, _⟩ => absurd hmem List.not_mem_nil⟩
    · intro t e u ht hguard hstep
      subst hstep
      refine ⟨ht.1.step (keyStep_effect hstore t e) (fun _ h => h) (fun _ _ _ _ _ => trivial), ?_⟩
      rintro k ⟨call, r, hmem, hstores⟩
      rcases List.mem_append.mp hmem with hmem | hmem
      · exact ht.2 k ⟨call, r, hmem, hstores⟩
      · rw [List.mem_singleton, Prod.mk.injEq] at hmem
        rw [hmem.1] at hstores
        exact hguard k hstores
  rcases hinv.1.sent origin key hsent with (hstored | hstored) | ⟨-, hlegacy⟩
  · rw [show (keyring (view s)).key origin = none from hnone] at hstored
    cases hstored
  · exact absurd hstored (hinv.2 key)
  · exact hlegacy

/-- What holds of the calls on a store, over every run from `s` and at every store it
    may come to. -/
structure KeysLaw (store : SecretStore σ) (view : σ → String → Option String) (s : σ) : Prop where
  /-- A key that is sent was stored for the origin, or is the old key. -/
  sent : ∀ w, KeyRun store (fun _ _ => True) (s, []) w → ∀ origin key, Sent w.2 origin key →
    StoredFor (keyring (view s)) w.2 origin key ∨ (keyring (view s)).legacy = some key
  /-- The cloud is sent the token of the login. -/
  token : ∀ w e auth cloudUrl serverUrl origin answer, e.call = .bearerFor auth cloudUrl serverUrl →
    ServerKeys.normalizeOrigin serverUrl = .ok origin →
      ServerKeys.cloudOrigin ⟨none, cloudUrl⟩ = .ok origin →
        keyAnswer store w e = .ok (.bearer answer) →
          answer = (auth.map (·.accessToken)).filter (fun token => token ≠ "")
  /-- A key is there once it is stored or sent, -/
  stored : ∀ w e origin key a, e.call.Stores origin key → keyAnswer store w.1 e = .ok a →
    HasKey view (keyStep store w e).1 origin (some key)
  sentKept : ∀ w e auth cloudUrl serverUrl origin answer,
    e.call = .bearerFor auth cloudUrl serverUrl → ServerOrigin cloudUrl serverUrl origin →
      keyAnswer store w.1 e = .ok (.bearer answer) → HasKey view (keyStep store w e).1 origin answer
  /-- until it is replaced or cleared, -/
  kept : ∀ w w' origin key, HasKey view w.1 origin (some key) →
    KeyRun store (fun _ e => (∀ key, ¬ e.call.Stores origin key) ∧ ¬ e.call.Clears origin) w w' →
      HasKey view w'.1 origin (some key)
  /-- and it is then sent, unless an operation of the store fails. -/
  returned : ∀ w origin key auth cloudUrl serverUrl, HasKey view w origin (some key) →
    ServerOrigin cloudUrl serverUrl origin →
      keyAnswer store w ⟨.bearerFor auth cloudUrl serverUrl, none, false⟩ =
        .ok (.bearer (some key)) ∧
      ∀ failAfter lost a, keyAnswer store w ⟨.bearerFor auth cloudUrl serverUrl, failAfter, lost⟩ =
        .ok a → a = .bearer (some key)
  /-- The old key is sent to one origin, if no lookup is stopped while it moves it. -/
  once : ∀ w, KeyRun store (fun w e => ¬ CutMigration store view w e) (s, []) w →
    ∃ target, ∀ origin key, Sent w.2 origin key →
      StoredFor (keyring (view s)) w.2 origin key ∨
        origin = target ∧ (keyring (view s)).legacy = some key
  /-- An origin that was cleared is sent no key until one is stored, but for the old
      key, where the origin had a key of its own beside it. -/
  cleared : ∀ t e origin a w, e.call.Clears origin → e.call ≠ .clearAll →
    keyAnswer store t e = .ok a →
      KeyRun store (fun _ e => ∀ key, ¬ e.call.Stores origin key) ((keyStep store (t, []) e).1, []) w →
        ∀ key, Sent w.2 origin key →
          (keyring (view t)).key origin ≠ none ∧ (keyring (view t)).legacy = some key
  /-- A map that cannot be read stays as it is, and fails the calls that read it. -/
  unparsable : ∀ w e, (keyring (view w.1)).keys = none → e.call ≠ .clearAll →
    view (keyStep store w e).1 = view w.1 ∧
      ∀ a, keyAnswer store w.1 e = .ok a → ∃ auth cloudUrl serverUrl origin,
        e.call = .bearerFor auth cloudUrl serverUrl ∧
        ServerKeys.normalizeOrigin serverUrl = .ok origin ∧
        ServerKeys.cloudOrigin ⟨none, cloudUrl⟩ = .ok origin

/-- An answer is that of the call itself. -/
theorem keyAnswer_ok {s : σ} {e : KeyEvent} {a : KeyAnswer} (h : keyAnswer store s e = .ok a) :
    (e.call.run store ⟨s, e.failAfter⟩).1 = .ok a := by
  unfold keyAnswer at h
  by_cases hlost : e.lost
  · rw [if_pos hlost] at h
    cases h
  · rw [if_neg hlost] at h
    exact h

omit [MapJson] in
/-- What an answered call that clears an origin leaves. -/
theorem effect_cleared {K K' : Keyring} {call : KeyCall} {a : KeyAnswer} {origin : String}
    (h : Effect K call (.ok a) K') (hclears : call.Clears origin) (hall : call ≠ .clearAll) :
    K'.key origin = none ∧ (K.key origin ≠ none ∧ K'.legacy = K.legacy ∨ K'.legacy = none) := by
  rcases hclears with hcall | ⟨serverUrl, hcall, hurl⟩
  · exact absurd hcall hall
  · subst hcall
    cases h with
    | cleared hurl' hread hsome _ =>
        rw [← Except.ok.inj (hurl'.symm.trans hurl)]
        exact ⟨Keyring.key_put_self hread _ _, Or.inl ⟨hsome, rfl⟩⟩
    | clearedLegacy hurl' _ hnone _ =>
        rw [← Except.ok.inj (hurl'.symm.trans hurl)]
        exact ⟨hnone, Or.inr rfl⟩

omit [MapJson] in
/-- What an answered call that stores a key leaves. -/
theorem effect_stored {K K' : Keyring} {call : KeyCall} {a : KeyAnswer} {origin key : String}
    (h : Effect K call (.ok a) K') (hstores : call.Stores origin key) :
    K'.key origin = some key := by
  rcases hstores with ⟨serverUrl, hcall, hurl⟩
  subst hcall
  cases h with
  | stored hurl' hread _ =>
      rw [← Except.ok.inj (hurl'.symm.trans hurl)]
      exact Keyring.key_put_self hread _ _

/-- The calls on every lawful store meet the law. -/
theorem keysLaw (hstore : LawfulStore store view) (s : σ) : KeysLaw store view s where
  sent _ hrun _ _ hsent := sent_of_run hstore hrun hsent
  token w e auth cloudUrl serverUrl origin answer hcall hurl hcloud hanswer := by
    have heffect := keyStep_effect hstore (w, []) e
    rw [hanswer, hcall] at heffect
    exact effect_token heffect hurl hcloud
  stored w e origin key a hstores hanswer := by
    have heffect := keyStep_effect hstore w e
    rw [hanswer] at heffect
    exact effect_stored heffect hstores
  sentKept w e auth cloudUrl serverUrl origin answer hcall hurl hanswer := by
    have heffect := keyStep_effect hstore w e
    rw [hanswer, hcall] at heffect
    exact (effect_answer heffect hurl).1.symm
  kept _ _ _ _ hkey hrun := hasKey_of_run hstore hrun hkey
  returned w origin key auth cloudUrl serverUrl hkey hurl := by
    have hserves := serves_bearerFor hstore (keyring (view w)) hkey auth hurl
    refine ⟨?_, fun failAfter lost a ha => ?_⟩
    · rcases hserves.run_ok (c := ⟨w, none⟩) rfl rfl with ⟨a, ha, heq, -⟩
      rw [heq] at ha
      exact ha
    · exact hserves.post (c := ⟨w, failAfter⟩) rfl (keyAnswer_ok ha)
  once _ hrun := sent_once hstore hrun
  cleared t e origin a w hclears hall hanswer hrun key hsent := by
    have heffect := keyStep_effect hstore (t, []) e
    rw [hanswer] at heffect
    rcases effect_cleared heffect hclears hall with ⟨hnone, hold⟩
    have hlegacy := sent_of_cleared hstore hrun hnone hsent
    rcases hold with ⟨hsome, heq⟩ | heq
    · exact ⟨hsome, heq ▸ hlegacy⟩
    · rw [heq] at hlegacy
      cases hlegacy
  unparsable w e hnone hcall := by
    have hbad : ∃ message, ServerKeys.parseMap (view w.1 ServerKeys.keyServerKeysMap) =
        .error message := by
      rcases hparse : ServerKeys.parseMap (view w.1 ServerKeys.keyServerKeysMap) with message | map
      · exact ⟨message, rfl⟩
      · simp only [keyring, hparse] at hnone
        cases hnone
    have hpost := post_run_unparsable hstore hbad hcall ⟨w.1, e.failAfter⟩ rfl
    refine ⟨?_, fun a ha => (hpost.1 a (keyAnswer_ok ha)).2⟩
    rcases hr : (e.call.run store ⟨w.1, e.failAfter⟩).1 with err | a
    · exact hpost.2 err hr
    · exact (hpost.1 a hr).1

end Laws

/-- An origin that was cleared is sent no key until one is stored: the law without its
    exception. -/
def ClearedForGood (store : SecretStore σ) : Prop :=
  ∀ t e origin a w, e.call.Clears origin → e.call ≠ .clearAll → keyAnswer store t e = .ok a →
    KeyRun store (fun _ e => ∀ key, ¬ e.call.Stores origin key) ((keyStep store (t, []) e).1, []) w →
      ∀ key, ¬ Sent w.2 origin key

/-- The old key is sent to one origin: the law without its condition. -/
def SentOnce (store : SecretStore σ) (view : σ → String → Option String) (s : σ) : Prop :=
  ∀ w, KeyRun store (fun _ _ => True) (s, []) w →
    ∃ target, ∀ origin key, Sent w.2 origin key →
      StoredFor (keyring (view s)) w.2 origin key ∨
        origin = target ∧ (keyring (view s)).legacy = some key

end Keys

/-- The map's texts that occur below, and what they parse to. -/
def someMaps : List (String × KeyMap) :=
  [("\x7b\x7d", ∅),
    ("\x7b\"https://a.de\":\"sk-a\"\x7d", [⟨"https://a.de", "sk-a"⟩].toAList),
    ("\x7b\"https://a.de\":\"sk-old\"\x7d", [⟨"https://a.de", "sk-old"⟩].toAList),
    ("\x7b\"https://b.de\":\"sk-old\",\"https://a.de\":\"sk-old\"\x7d",
      [⟨"https://b.de", "sk-old"⟩, ⟨"https://a.de", "sk-old"⟩].toAList)]

theorem someMaps_parse : ∀ p ∈ someMaps, trim p.1.toList ≠ [] ∧
    (someMaps.find? (fun q => q.1 = p.1)).map (·.2.entries) = some p.2.entries := by
  decide +kernel

/-- A reader and writer of these texts. -/
@[reducible] def someMapJson : MapJson where
  parse raw := (someMaps.find? (fun p => p.1 = raw)).map (·.2)
  render m := (someMaps.find? (fun p => p.2.entries = m.entries)).map (·.1)
  parse_render := by
    intro m raw h
    rcases Option.map_eq_some_iff.mp h with ⟨p, hp, rfl⟩
    have hmem := List.mem_of_find?_eq_some hp
    have heq := List.find?_some hp
    rw [decide_eq_true_eq] at heq
    rcases someMaps_parse p hmem with ⟨hblank, hparse⟩
    rcases Option.map_eq_some_iff.mp hparse with ⟨q, hq, hentries⟩
    refine ⟨hblank, q.2, by rw [hq]; rfl, fun o => ?_⟩
    rw [AList.ext (hentries.trans heq)]

/-- The origins of URLs that are origins. -/
@[reducible] def bareOrigins : OriginParser := ⟨.ok⟩

/-- A file with the old key, and with a key for one origin. -/
def bothKeys : FileStore.File :=
  some [⟨"server_key", .string "sk-old"⟩,
    ⟨"server_keys", .string "\x7b\"https://a.de\":\"sk-a\"\x7d"⟩].toAList

/-- A file with the old key alone. -/
def oldKey : FileStore.File := some [⟨"server_key", .string "sk-old"⟩].toAList

theorem keysLaw_file : @KeysLaw bareOrigins someMapJson _ FileStore.store FileStore.view bothKeys :=
  @keysLaw bareOrigins someMapJson _ _ _ (@lawful_fileStore) bothKeys

section Leaks

local instance : MapJson := someMapJson

local instance : OriginParser := bareOrigins

def lookupA : KeyCall := .bearerFor none none "https://a.de"

def lookupB : KeyCall := .bearerFor none none "https://b.de"

/-- The key of one origin is cleared, and then the old key is sent to it. -/
theorem cleared_answers :
    keyAnswer FileStore.store bothKeys ⟨.clearOrigin "https://a.de", none, false⟩ =
        .ok (.origin "https://a.de") ∧
      (keyStep FileStore.store ((keyStep FileStore.store (bothKeys, [])
        ⟨.clearOrigin "https://a.de", none, false⟩).1, []) ⟨lookupA, none, false⟩).2 =
          [(lookupA, .ok (.bearer (some "sk-old")))] := by
  decide +kernel

/-- A lookup is stopped before it has removed the old key, and then this is sent to
    another origin too. -/
theorem cut_answers :
    (keyStep FileStore.store (keyStep FileStore.store (keyStep FileStore.store (oldKey, [])
      ⟨lookupA, some 6, false⟩) ⟨lookupB, none, false⟩) ⟨lookupA, none, false⟩).2 =
        [(lookupA, .error .io), (lookupB, .ok (.bearer (some "sk-old"))),
          (lookupA, .ok (.bearer (some "sk-old")))] := by
  decide +kernel

theorem serverOrigin_a : ServerOrigin none "https://a.de" "https://a.de" :=
  ⟨rfl, ServerKeys.defaultCloudUrl, rfl, by decide +kernel⟩

theorem serverOrigin_b : ServerOrigin none "https://b.de" "https://b.de" :=
  ⟨rfl, ServerKeys.defaultCloudUrl, rfl, by decide +kernel⟩

/-- Neither law holds without its exception. -/
theorem oldKey_leaks : ¬ ClearedForGood FileStore.store ∧
    ¬ SentOnce FileStore.store FileStore.view oldKey := by
  constructor
  · intro hlaw
    refine hlaw bothKeys ⟨.clearOrigin "https://a.de", none, false⟩ "https://a.de" _ _
      (Or.inr ⟨_, rfl, rfl⟩) (fun h => by cases h) cleared_answers.1
      (GuardedRun.refl.tail ⟨lookupA, none, false⟩ (fun key h => ?_) rfl) "sk-old"
      ⟨none, none, "https://a.de", serverOrigin_a, ?_⟩
    · rcases h with ⟨_, h, -⟩
      cases h
    · rw [cleared_answers.2]
      exact List.mem_cons_self
  · intro hlaw
    rcases hlaw _ (((GuardedRun.refl.tail ⟨lookupA, some 6, false⟩ trivial rfl).tail
      ⟨lookupB, none, false⟩ trivial rfl).tail ⟨lookupA, none, false⟩ trivial rfl) with
      ⟨target, honce⟩
    rw [cut_answers] at honce
    have hstored : ∀ origin, ¬ StoredFor (keyring (FileStore.view oldKey))
        [(lookupA, .error .io), (lookupB, .ok (.bearer (some "sk-old"))),
          (lookupA, .ok (.bearer (some "sk-old")))] origin "sk-old" := by
      rintro origin (h | ⟨call, r, hmem, serverUrl, hcall, -⟩)
      · cases h
      · rw [hcall] at hmem
        simp only [lookupA, lookupB, List.mem_cons, Prod.mk.injEq, reduceCtorEq, false_and,
          List.not_mem_nil, or_self] at hmem
    have ha := honce "https://a.de" "sk-old" ⟨none, none, _, serverOrigin_a,
      List.mem_cons_of_mem _ (List.mem_cons_of_mem _ List.mem_cons_self)⟩
    have hb := honce "https://b.de" "sk-old" ⟨none, none, _, serverOrigin_b,
      List.mem_cons_of_mem _ List.mem_cons_self⟩
    have heq := (ha.resolve_left (hstored _)).1.trans (hb.resolve_left (hstored _)).1.symm
    exact absurd heq (by decide +kernel)

end Leaks

end Spelunk
