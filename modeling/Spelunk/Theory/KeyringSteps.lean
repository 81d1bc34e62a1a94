import Mathlib.Logic.Function.Basic
import Spelunk.Core.ServerKeys

/-!
# The Keyring Behind the Secret Store

What the calls on the keys do, said of the keyring they work on: the old key, and
the map of origins to keys, where it can be read. A secret store is lawful if its
operations are those of a map of entries, and one that fails has had its effect or
none. The file store is. Over any lawful store every call, cut where it may be,
moves the keyring by one of the `Effect`s.

## Main definitions

* `LawfulStore`: The operations are those of a map of entries.
* `Keyring`: The old key and the map.
* `Effect`: What a call does to a keyring, and answers.

## Theorems

* `lawful_fileStore`: The file store is lawful.
* `post_run`: Every call is one of the effects.
* `serves_bearerFor`: A key that is there is answered.
* `post_run_unparsable`: A map that cannot be read stays as it is.
-/

namespace Spelunk

open Lib (Sql SqlError Conn)

open Lib.Sql (Post Survives Serves)

/-- The operations are those of a map of entries. A failed one has had its effect or
    none. -/
structure LawfulStore {σ : Type} (store : SecretStore σ) (view : σ → String → Option String) :
    Prop where
  get : ∀ v key, Survives (fun s => view s = v) (store.get key)
    (fun a s => a = v key ∧ view s = v) (fun s => view s = v)
  set : ∀ v key value, Survives (fun s => view s = v) (store.set key value)
    (fun _ s => view s = Function.update v key (some value))
    (fun s => view s = v ∨ view s = Function.update v key (some value))
  delete : ∀ v key, Survives (fun s => view s = v) (store.delete key)
    (fun _ s => view s = Function.update v key none)
    (fun s => view s = v ∨ view s = Function.update v key none)

section File

/-- The entries of a file. -/
def FileStore.view (file : File) (key : String) : Option String :=
  ((file.getD ∅).lookup key).bind TomlValue.asStr

theorem fileView_insert (table : TomlTable) (key value : String) :
    FileStore.view (some (table.insert key (.string value))) =
      Function.update (FileStore.view (some table)) key (some value) := by
  funext k
  by_cases hk : k = key
  · rw [hk, Function.update_self]
    simp only [FileStore.view, Option.getD_some, AList.lookup_insert,
      Option.bind_some, TomlValue.asStr]
  · rw [Function.update_of_ne hk]
    simp only [FileStore.view, Option.getD_some, AList.lookup_insert_ne hk]

theorem fileView_erase (table : TomlTable) (key : String) :
    FileStore.view (some (table.erase key)) =
      Function.update (FileStore.view (some table)) key none := by
  funext k
  by_cases hk : k = key
  · rw [hk, Function.update_self]
    simp only [FileStore.view, Option.getD_some, AList.lookup_erase,
      Option.bind_none]
  · rw [Function.update_of_ne hk]
    simp only [FileStore.view, Option.getD_some, AList.lookup_erase_ne hk]

/-- A file that is not there reads as an empty table. -/
theorem fileView_getD (file : FileStore.File) :
    FileStore.view (some (file.getD ∅)) = FileStore.view file := rfl

theorem fileView_of_entries_nil {table : TomlTable} (h : table.entries = []) :
    FileStore.view (some table) = FileStore.view none := by
  have hempty : table = ∅ := AList.ext h
  rw [hempty]
  rfl

/-- A write leaves the file as it was, or with the new table. -/
theorem survives_writeTable {v : String → Option String} (table : TomlTable) :
    Survives (fun s => FileStore.view s = v) (FileStore.writeTable table)
      (fun _ s => FileStore.view s = FileStore.view (some table))
      (fun s => FileStore.view s = v ∨ FileStore.view s = FileStore.view (some table)) := by
  refine Survives.bind (Q := fun _ s => FileStore.view s = v)
    (Survives.execute (fun s hs => ⟨s, rfl, hs⟩) (fun _ hs => Or.inl hs)) (fun _ => ?_)
  refine Survives.bind (Q := fun _ s => FileStore.view s = FileStore.view (some table))
    (Survives.execute (fun s _ => ⟨some table, rfl, rfl⟩) (fun _ hs => Or.inl hs)) (fun _ => ?_)
  exact Survives.execute (fun s hs => ⟨s, rfl, hs⟩) (fun _ hs => Or.inr hs)

theorem survives_readTable (v : String → Option String) :
    Survives (fun s => FileStore.view s = v) FileStore.readTable
      (fun table s => FileStore.view (some table) = v ∧ FileStore.view s = v)
      (fun s => FileStore.view s = v) :=
  Survives.query (fun s hs => ⟨(fileView_getD s).trans hs, hs⟩) (fun _ hs => hs)

theorem lawful_fileStore : LawfulStore FileStore.store FileStore.view where
  get v key := by
    refine Survives.bind (survives_readTable v) (fun table => ?_)
    refine Survives.of_pre (fun htable => ?_)
    rw [← htable]
    exact Survives.ok _ (fun _ hs => ⟨rfl, hs⟩)
  set v key value := by
    refine Survives.bind (Survives.mono (survives_readTable v) (fun _ hs => hs) (fun _ _ hs => hs)
      (fun _ hs => Or.inl hs)) (fun table => ?_)
    refine Survives.of_pre (fun htable => ?_)
    rw [← htable, ← fileView_insert]
    exact survives_writeTable _
  delete v key := by
    refine Survives.bind (Survives.mono (survives_readTable v) (fun _ hs => hs) (fun _ _ hs => hs)
      (fun _ hs => Or.inl hs)) (fun table => ?_)
    refine Survives.of_pre (fun htable => ?_)
    rw [← htable, ← fileView_erase]
    by_cases hmem : key ∉ table
    · rw [if_pos hmem]
      have hsame : FileStore.view (some (table.erase key)) = FileStore.view (some table) := by
        rw [fileView_erase]
        refine Function.update_eq_self_iff.mpr ?_
        simp only [FileStore.view, Option.getD_some, AList.lookup_eq_none.mpr hmem,
        Option.bind_none]
      exact Survives.ok () (fun _ hs => hs.trans hsame.symm)
    · rw [if_neg hmem]
      by_cases hempty : (table.erase key).entries = []
      · rw [if_pos hempty, fileView_of_entries_nil hempty]
        exact Survives.execute (fun _ _ => ⟨none, rfl, rfl⟩) (fun _ hs => Or.inl hs)
      · rw [if_neg hempty]
        exact survives_writeTable _

end File

/-- The old key, and the map of origins to keys where it can be read. -/
@[ext] structure Keyring where
  legacy : Option String
  keys : Option (String → Option String)

namespace Keyring

/-- The key of an origin. -/
def key (K : Keyring) (origin : String) : Option String := K.keys.bind (· origin)

/-- The map with a key for an origin. -/
noncomputable def put (K : Keyring) (origin : String) (key : Option String) : Keyring :=
  { K with keys := K.keys.map (fun keys => Function.update keys origin key) }

theorem key_put_self {K : Keyring} (h : K.keys ≠ none) (origin : String) (key : Option String) :
    (K.put origin key).key origin = key := by
  rcases Option.ne_none_iff_exists'.mp h with ⟨keys, hkeys⟩
  simp only [put, Keyring.key, hkeys, Option.map_some, Option.bind_some, Function.update_self]

theorem key_put_of_ne (K : Keyring) {origin other : String} (h : other ≠ origin)
    (key : Option String) : (K.put origin key).key other = K.key other := by
  cases hkeys : K.keys with
  | none => simp only [put, Keyring.key, hkeys, Option.map_none]
  | some keys =>
      simp only [put, Keyring.key, hkeys, Option.map_some, Option.bind_some,
        Function.update_of_ne h]

end Keyring

variable [MapJson]

/-- The keyring that entries hold. -/
def keyring (v : String → Option String) : Keyring where
  legacy := v ServerKeys.keyServerKey
  keys := (ServerKeys.parseMap (v ServerKeys.keyServerKeysMap)).toOption.map
    (fun map origin => map.lookup origin)

section Entries

variable {v : String → Option String}

theorem keyring_setMap {map : KeyMap} {raw : String} (h : MapJson.render map = some raw) :
    keyring (Function.update v ServerKeys.keyServerKeysMap (some raw)) =
      { keyring v with keys := some (fun origin => map.lookup origin) } := by
  rcases MapJson.parse_render map raw h with ⟨hblank, map', hparse, hlookup⟩
  have hne : ServerKeys.keyServerKey ≠ ServerKeys.keyServerKeysMap := by decide
  refine Keyring.ext ?_ ?_
  · simp only [keyring, Function.update_of_ne hne]
  · simp only [keyring, Function.update_self, ServerKeys.parseMap, if_neg hblank, hparse]
    exact congrArg some (funext hlookup)

theorem keyring_deleteMap :
    keyring (Function.update v ServerKeys.keyServerKeysMap none) =
      { keyring v with keys := some (fun _ => none) } := by
  have hne : ServerKeys.keyServerKey ≠ ServerKeys.keyServerKeysMap := by decide
  refine Keyring.ext ?_ ?_
  · simp only [keyring, Function.update_of_ne hne]
  · simp only [keyring, Function.update_self, ServerKeys.parseMap]
    exact congrArg some (funext (fun origin => AList.lookup_empty origin))

theorem keyring_deleteLegacy :
    keyring (Function.update v ServerKeys.keyServerKey none) = { keyring v with legacy := none } := by
  have hne : ServerKeys.keyServerKeysMap ≠ ServerKeys.keyServerKey := by decide
  refine Keyring.ext ?_ ?_
  · simp only [keyring, Function.update_self]
  · simp only [keyring, Function.update_of_ne hne]

end Entries

section Programs

variable {σ : Type} {store : SecretStore σ} {view : σ → String → Option String}

/-- The store holds a keyring. -/
def Holds (view : σ → String → Option String) (K : Keyring) (s : σ) : Prop := keyring (view s) = K

theorem survives_holds {α : Type} {K : Keyring} {m : Sql σ α} {Q : α → σ → Prop} {E : σ → Prop}
    (h : ∀ v, keyring v = K → Survives (fun s => view s = v) m Q E) :
    Survives (Holds view K) m Q E :=
  fun c hc => h (view c.db) hc c rfl

theorem post_holds {α : Type} {K : Keyring} {m : Sql σ α} {Q : α → σ → Prop} {E : σ → Prop}
    (h : ∀ v, keyring v = K → Post (fun s => view s = v) m Q E) : Post (Holds view K) m Q E :=
  fun c hc => h (view c.db) hc c rfl

variable (hstore : LawfulStore store view) (K : Keyring)

include hstore

theorem survives_getLegacy :
    Survives (Holds view K) (store.get ServerKeys.keyServerKey)
      (fun a s => a = K.legacy ∧ Holds view K s) (Holds view K) := by
  refine survives_holds (fun v hv => ?_)
  refine Survives.mono (hstore.get v ServerKeys.keyServerKey) (fun _ hs => hs) ?_ ?_
  · intro a s hs
    exact ⟨by rw [hs.1, ← hv]; rfl, by rw [Holds, hs.2]; exact hv⟩
  · intro s hs
    rw [Holds, hs]
    exact hv

theorem survives_deleteLegacy :
    Survives (Holds view K) (store.delete ServerKeys.keyServerKey)
      (fun _ s => Holds view { K with legacy := none } s)
      (fun s => Holds view K s ∨ Holds view { K with legacy := none } s) := by
  refine survives_holds (fun v hv => ?_)
  have hafter : ∀ s, view s = Function.update v ServerKeys.keyServerKey none →
      Holds view { K with legacy := none } s := by
    intro s hs
    rw [Holds, hs, keyring_deleteLegacy, hv]
  refine Survives.mono (hstore.delete v ServerKeys.keyServerKey) (fun _ hs => hs)
    (fun _ s hs => hafter s hs) ?_
  intro s hs
  rcases hs with hs | hs
  · exact Or.inl (by rw [Holds, hs]; exact hv)
  · exact Or.inr (hafter s hs)

theorem survives_deleteMap :
    Survives (Holds view K) (store.delete ServerKeys.keyServerKeysMap)
      (fun _ s => Holds view { K with keys := some (fun _ => none) } s)
      (fun s => Holds view K s ∨ Holds view { K with keys := some (fun _ => none) } s) := by
  refine survives_holds (fun v hv => ?_)
  have hafter : ∀ s, view s = Function.update v ServerKeys.keyServerKeysMap none →
      Holds view { K with keys := some (fun _ => none) } s := by
    intro s hs
    rw [Holds, hs, keyring_deleteMap, hv]
  refine Survives.mono (hstore.delete v ServerKeys.keyServerKeysMap) (fun _ hs => hs)
    (fun _ s hs => hafter s hs) ?_
  intro s hs
  rcases hs with hs | hs
  · exact Or.inl (by rw [Holds, hs]; exact hv)
  · exact Or.inr (hafter s hs)

/-- A map that can be read is read. -/
theorem survives_readMap (hread : K.keys ≠ none) :
    Survives (Holds view K) (ServerKeys.readMap store)
      (fun map s => K.keys = some (fun origin => map.lookup origin) ∧ Holds view K s)
      (Holds view K) := by
  refine survives_holds (fun v hv => ?_)
  have hkeep : ∀ s, view s = v → Holds view K s := by
    intro s hs
    rw [Holds, hs]
    exact hv
  refine Survives.bind (Survives.mono (hstore.get v ServerKeys.keyServerKeysMap) (fun _ hs => hs)
    (fun _ _ hs => hs) hkeep) (fun raw => ?_)
  refine Survives.of_pre (fun hraw => ?_)
  have hkeys : K.keys = (ServerKeys.parseMap raw).toOption.map (fun map origin => map.lookup origin) := by
    rw [hraw, ← hv]
    rfl
  rcases hparse : ServerKeys.parseMap raw with message | map
  · rw [hparse] at hkeys
    exact absurd hkeys hread
  · rw [hparse] at hkeys
    exact Survives.ok map (fun s hs => ⟨hkeys, hkeep s hs⟩)

/-- Whatever the map, reading it changes nothing. -/
theorem post_readMap :
    Post (Holds view K) (ServerKeys.readMap store)
      (fun map s => K.keys = some (fun origin => map.lookup origin) ∧ Holds view K s)
      (Holds view K) := by
  refine post_holds (fun v hv => ?_)
  have hkeep : ∀ s, view s = v → Holds view K s := by
    intro s hs
    rw [Holds, hs]
    exact hv
  refine Post.bind (Post.mono (Post.of_survives (hstore.get v ServerKeys.keyServerKeysMap))
    (fun _ hs => hs) (fun _ _ hs => hs) hkeep) (fun raw => ?_)
  refine Post.of_pre (fun hraw => ?_)
  rcases hparse : ServerKeys.parseMap raw with message | map
  · exact Post.fail _ hkeep
  · refine Post.ok map (fun s hs => ⟨?_, hkeep s hs⟩)
    rw [← hv, keyring, ← hraw, hparse]
    rfl

/-- A write of a map leaves the map there was, or the new one. -/
theorem post_writeMap (map : KeyMap) :
    Post (Holds view K) (ServerKeys.writeMap store map)
      (fun _ s => Holds view { K with keys := some (fun origin => map.lookup origin) } s)
      (fun s => Holds view K s ∨
        Holds view { K with keys := some (fun origin => map.lookup origin) } s) := by
  rw [ServerKeys.writeMap]
  cases hrender : MapJson.render map with
  | none => exact Post.fail _ (fun _ hs => Or.inl hs)
  | some raw =>
      refine post_holds (fun v hv => ?_)
      have hafter : ∀ s, view s = Function.update v ServerKeys.keyServerKeysMap (some raw) →
          Holds view { K with keys := some (fun origin => map.lookup origin) } s := by
        intro s hs
        rw [Holds, hs, keyring_setMap hrender, hv]
      refine Post.mono (Post.of_survives (hstore.set v ServerKeys.keyServerKeysMap raw))
        (fun _ hs => hs) (fun _ s hs => hafter s hs) ?_
      intro s hs
      rcases hs with hs | hs
      · exact Or.inl (by rw [Holds, hs]; exact hv)
      · exact Or.inr (hafter s hs)

end Programs

variable [OriginParser]

/-- The origin of a request, where it is not the cloud's. -/
def ServerOrigin (cloudUrl : Option String) (serverUrl origin : String) : Prop :=
  ServerKeys.normalizeOrigin serverUrl = .ok origin ∧
    ∃ cloud, ServerKeys.cloudOrigin ⟨none, cloudUrl⟩ = .ok cloud ∧ origin ≠ cloud

/-- What a call does to a keyring and answers. A call may be stopped, or answer an
    error, with its whole effect done; a lookup that moves the old key may be stopped
    with the map written and the old key still there. -/
inductive Effect (K : Keyring) : KeyCall → Except SqlError KeyAnswer → Keyring → Prop where
  | failed (call : KeyCall) (e : SqlError) : Effect K call (.error e) K
  | stored {serverUrl key origin : String} {r : Except SqlError KeyAnswer}
      (hurl : ServerKeys.normalizeOrigin serverUrl = .ok origin) (hread : K.keys ≠ none)
      (hr : r = .ok (.origin origin) ∨ ∃ e, r = .error e) :
      Effect K (.setKey serverUrl key) r (K.put origin (some key))
  | cloud {auth : Option AuthTokens} {cloudUrl : Option String} {serverUrl origin : String}
      (hurl : ServerKeys.normalizeOrigin serverUrl = .ok origin)
      (hcloud : ServerKeys.cloudOrigin ⟨none, cloudUrl⟩ = .ok origin) :
      Effect K (.bearerFor auth cloudUrl serverUrl)
        (.ok (.bearer ((auth.map (·.accessToken)).filter (fun token => token ≠ "")))) K
  | known {auth : Option AuthTokens} {cloudUrl : Option String} {serverUrl origin : String}
      (hurl : ServerOrigin cloudUrl serverUrl origin) (hread : K.keys ≠ none)
      (hknown : K.key origin ≠ none ∨ K.legacy = none) :
      Effect K (.bearerFor auth cloudUrl serverUrl) (.ok (.bearer (K.key origin))) K
  | migrated {auth : Option AuthTokens} {cloudUrl : Option String} {serverUrl origin legacy : String}
      {r : Except SqlError KeyAnswer} (hurl : ServerOrigin cloudUrl serverUrl origin)
      (hread : K.keys ≠ none) (hnone : K.key origin = none) (hlegacy : K.legacy = some legacy)
      (hr : r = .ok (.bearer (some legacy)) ∨ ∃ e, r = .error e) :
      Effect K (.bearerFor auth cloudUrl serverUrl) r
        { K.put origin (some legacy) with legacy := none }
  | cut {auth : Option AuthTokens} {cloudUrl : Option String} {serverUrl origin legacy : String}
      {e : SqlError} (hurl : ServerOrigin cloudUrl serverUrl origin) (hread : K.keys ≠ none)
      (hnone : K.key origin = none) (hlegacy : K.legacy = some legacy) :
      Effect K (.bearerFor auth cloudUrl serverUrl) (.error e) (K.put origin (some legacy))
  | cleared {serverUrl origin : String} {r : Except SqlError KeyAnswer}
      (hurl : ServerKeys.normalizeOrigin serverUrl = .ok origin) (hread : K.keys ≠ none)
      (hsome : K.key origin ≠ none) (hr : r = .ok (.origin origin) ∨ ∃ e, r = .error e) :
      Effect K (.clearOrigin serverUrl) r (K.put origin none)
  | clearedLegacy {serverUrl origin : String} {r : Except SqlError KeyAnswer}
      (hurl : ServerKeys.normalizeOrigin serverUrl = .ok origin) (hread : K.keys ≠ none)
      (hnone : K.key origin = none) (hr : r = .ok (.origin origin) ∨ ∃ e, r = .error e) :
      Effect K (.clearOrigin serverUrl) r { K with legacy := none }
  | clearedAll {r : Except SqlError KeyAnswer} (hr : r = .ok .cleared ∨ ∃ e, r = .error e) :
      Effect K .clearAll r { K with keys := some (fun _ => none) }
  | listed {origins : List String} {legacy : Bool} (hread : K.keys ≠ none) :
      Effect K .listOrigins (.ok (.origins origins legacy)) K

omit [MapJson] in
/-- An answer that was lost on the way is an error. -/
theorem Effect.lost {K K' : Keyring} {call : KeyCall} {r : Except SqlError KeyAnswer}
    (h : Effect K call r K') (e : SqlError) : Effect K call (.error e) K' := by
  cases h with
  | failed => exact .failed call e
  | stored hurl hread _ => exact .stored hurl hread (Or.inr ⟨e, rfl⟩)
  | cloud _ _ => exact .failed _ e
  | known _ _ _ => exact .failed _ e
  | migrated hurl hread hnone hlegacy _ =>
      exact .migrated hurl hread hnone hlegacy (Or.inr ⟨e, rfl⟩)
  | cut hurl hread hnone hlegacy => exact .cut hurl hread hnone hlegacy
  | cleared hurl hread hsome _ => exact .cleared hurl hread hsome (Or.inr ⟨e, rfl⟩)
  | clearedLegacy hurl hread hnone _ => exact .clearedLegacy hurl hread hnone (Or.inr ⟨e, rfl⟩)
  | clearedAll _ => exact .clearedAll (Or.inr ⟨e, rfl⟩)
  | listed _ => exact .failed _ e

section Calls

variable {σ : Type} {store : SecretStore σ} {view : σ → String → Option String}

/-- A part of a call, from a keyring: whatever it answers is one of the call's effects. -/
def Runs {α : Type} (view : σ → String → Option String) (K : Keyring) (call : KeyCall)
    (g : α → KeyAnswer) (m : Sql σ α) : Prop :=
  Post (Holds view K) m (fun a s => Effect K call (.ok (g a)) (keyring (view s)))
    (fun s => ∀ e, Effect K call (.error e) (keyring (view s)))

omit [MapJson] [OriginParser] in
/-- The map that was read, with a key for an origin. -/
theorem put_eq {K : Keyring} {map : KeyMap} (hkeys : K.keys = some (fun o => map.lookup o))
    (origin key : String) :
    { K with keys := some (fun o => (map.insert origin key).lookup o) } =
      K.put origin (some key) := by
  refine Keyring.ext rfl ?_
  simp only [Keyring.put, hkeys, Option.map_some]
  refine congrArg some (funext (fun o => ?_))
  by_cases ho : o = origin
  · rw [ho, AList.lookup_insert, Function.update_self]
  · rw [AList.lookup_insert_ne ho, Function.update_of_ne ho]

omit [MapJson] [OriginParser] in
/-- The map that was read, without an origin. -/
theorem put_none_eq {K : Keyring} {map : KeyMap} (hkeys : K.keys = some (fun o => map.lookup o))
    (origin : String) :
    { K with keys := some (fun o => (map.erase origin).lookup o) } = K.put origin none := by
  refine Keyring.ext rfl ?_
  simp only [Keyring.put, hkeys, Option.map_some]
  refine congrArg some (funext (fun o => ?_))
  by_cases ho : o = origin
  · rw [ho, AList.lookup_erase, Function.update_self]
  · rw [AList.lookup_erase_ne ho, Function.update_of_ne ho]

section Parts

variable {K : Keyring} {call : KeyCall} {α β : Type} {g : β → KeyAnswer}

theorem failed_of_holds {s : σ} (h : Holds view K s) (e : SqlError) :
    Effect K call (.error e) (keyring (view s)) := by
  rw [show keyring (view s) = K from h]
  exact .failed call e

/-- A computation that needs no store leaves it as it is. -/
theorem runs_lift {x : Except String α} {f : α → Sql σ β}
    (hf : ∀ a, x = .ok a → Runs view K call g (f a)) :
    Runs view K call g ((ServerKeys.lift x).andThen f) := by
  cases x with
  | error message =>
      refine Post.bind (Q := fun _ _ => False) (Post.fail _ ?_) (fun _ _ hc => hc.elim)
      exact fun _ hs e => failed_of_holds hs e
  | ok a =>
      refine Post.bind (Q := fun b s => b = a ∧ Holds view K s)
        (Post.ok a (fun _ hs => ⟨rfl, hs⟩)) (fun b => Post.of_pre (fun hb => ?_))
      rw [hb]
      exact hf a rfl

/-- A call that reads the map goes on from it. -/
theorem runs_readMap (hstore : LawfulStore store view) {f : KeyMap → Sql σ β}
    (hf : ∀ map, K.keys = some (fun o => map.lookup o) → Runs view K call g (f map)) :
    Runs view K call g ((ServerKeys.readMap store).andThen f) :=
  Post.bind (Post.mono (post_readMap hstore K) (fun _ hs => hs) (fun _ _ hs => hs)
    (fun _ hs e => failed_of_holds hs e)) (fun map => Post.of_pre (hf map))

/-- A call that ends with an operation which has its effect or none. -/
theorem runs_last {m : Sql σ Unit} {L : Keyring} {b : β}
    (hm : Post (Holds view K) m (fun _ s => Holds view L s)
      (fun s => Holds view K s ∨ Holds view L s))
    (heffect : ∀ r, (r = .ok (g b) ∨ ∃ e, r = .error e) → Effect K call r L) :
    Runs view K call g (m.andThen (fun _ => Sql.ok b)) := by
  refine Post.bind (Q := fun _ s => Holds view L s)
    (Post.mono hm (fun _ hs => hs) (fun _ _ hs => hs) ?_) (fun _ => Post.ok b ?_)
  · intro s hs e
    rcases hs with hs | hs
    · exact failed_of_holds hs e
    · rw [show keyring (view s) = L from hs]
      exact heffect _ (Or.inr ⟨e, rfl⟩)
  · intro s hs
    rw [show keyring (view s) = L from hs]
    exact heffect _ (Or.inl rfl)

end Parts

variable (hstore : LawfulStore store view) (K : Keyring)

include hstore

theorem runs_setKey (serverUrl key : String) :
    Runs view K (.setKey serverUrl key) .origin
      (ServerKeys.setKeyForOrigin serverUrl key store) := by
  refine runs_lift (fun origin hurl => runs_readMap hstore (fun map hkeys => ?_))
  have hread : K.keys ≠ none := by rw [hkeys]; exact Option.some_ne_none _
  refine runs_last (L := K.put origin (some key)) ?_ (fun r hr => .stored hurl hread hr)
  rw [← put_eq hkeys]
  exact post_writeMap hstore K _

theorem runs_clearOrigin (serverUrl : String) :
    Runs view K (.clearOrigin serverUrl) .origin (ServerKeys.clearOrigin serverUrl store) := by
  refine runs_lift (fun origin hurl => runs_readMap hstore (fun map hkeys => ?_))
  have hread : K.keys ≠ none := by rw [hkeys]; exact Option.some_ne_none _
  have hkey : K.key origin = map.lookup origin := by rw [Keyring.key, hkeys]; rfl
  by_cases hmem : origin ∈ map
  · rw [if_pos hmem]
    have hsome : K.key origin ≠ none := by
      rw [hkey]
      exact fun h => AList.lookup_eq_none.mp h hmem
    refine runs_last (L := K.put origin none) ?_ (fun r hr => .cleared hurl hread hsome hr)
    rw [← put_none_eq hkeys]
    exact post_writeMap hstore K _
  · rw [if_neg hmem]
    have hnone : K.key origin = none := by
      rw [hkey]
      exact AList.lookup_eq_none.mpr hmem
    exact runs_last (Post.of_survives (survives_deleteLegacy hstore K))
      (fun r hr => .clearedLegacy hurl hread hnone hr)

theorem runs_listOrigins :
    Runs view K .listOrigins (fun a : List String × Bool => .origins a.1 a.2)
      (ServerKeys.listOrigins store) := by
  refine runs_readMap hstore (fun map hkeys => ?_)
  have hread : K.keys ≠ none := by rw [hkeys]; exact Option.some_ne_none _
  refine Post.bind (Post.mono (Post.of_survives (survives_getLegacy hstore K)) (fun _ hs => hs)
    (fun _ _ hs => hs) (fun _ hs e => failed_of_holds hs e)) (fun legacy => Post.ok _ ?_)
  intro s hs
  rw [show keyring (view s) = K from hs.2]
  exact .listed hread

theorem runs_serverKeyForOrigin {auth : Option AuthTokens} {cloudUrl : Option String}
    {serverUrl origin : String} (hurl : ServerOrigin cloudUrl serverUrl origin) :
    Runs view K (.bearerFor auth cloudUrl serverUrl) .bearer
      (ServerKeys.serverKeyForOrigin origin store) := by
  refine runs_readMap hstore (fun map hkeys => ?_)
  have hread : K.keys ≠ none := by rw [hkeys]; exact Option.some_ne_none _
  have hkey : K.key origin = map.lookup origin := by rw [Keyring.key, hkeys]; rfl
  cases hlookup : map.lookup origin with
  | some key =>
      rw [hlookup] at hkey
      refine Post.ok (some key) (fun s hs => ?_)
      rw [show keyring (view s) = K from hs, ← hkey]
      exact .known hurl hread (Or.inl (by rw [hkey]; exact Option.some_ne_none _))
  | none =>
      rw [hlookup] at hkey
      refine Post.bind (Post.mono (Post.of_survives (survives_getLegacy hstore K)) (fun _ hs => hs)
        (fun _ _ hs => hs) (fun _ hs e => failed_of_holds hs e)) (fun legacy => ?_)
      refine Post.of_pre (fun hlegacy => ?_)
      cases legacy with
      | none =>
          refine Post.ok none (fun s hs => ?_)
          rw [show keyring (view s) = K from hs, ← hkey]
          exact .known hurl hread (Or.inr hlegacy.symm)
      | some legacy =>
          -- Behind the write the old key is still there; behind the removal it is not.
          have hwritten := post_writeMap hstore K (map.insert origin legacy)
          rw [put_eq hkeys] at hwritten
          refine Post.bind (Q := fun _ s => Holds view (K.put origin (some legacy)) s)
            (Post.mono hwritten (fun _ hs => hs) (fun _ _ hs => hs) ?_) (fun _ => ?_)
          · intro s hs e
            rcases hs with hs | hs
            · exact failed_of_holds hs e
            · rw [show keyring (view s) = _ from hs]
              exact .cut hurl hread hkey hlegacy.symm
          · refine Post.bind (Post.mono (Post.of_survives (survives_deleteLegacy hstore
              (K.put origin (some legacy)))) (fun _ hs => hs) (fun _ _ hs => hs) ?_)
              (fun _ => Post.ok (some legacy) ?_)
            · intro s hs e
              rcases hs with hs | hs
              · rw [show keyring (view s) = _ from hs]
                exact .cut hurl hread hkey hlegacy.symm
              · rw [show keyring (view s) = _ from hs]
                exact .migrated hurl hread hkey hlegacy.symm (Or.inr ⟨e, rfl⟩)
            · intro s hs
              rw [show keyring (view s) = _ from hs]
              exact .migrated hurl hread hkey hlegacy.symm (Or.inl rfl)

theorem runs_bearerFor (auth : Option AuthTokens) (cloudUrl : Option String) (serverUrl : String) :
    Runs view K (.bearerFor auth cloudUrl serverUrl) .bearer
      (ServerKeys.bearerFor ⟨none, cloudUrl⟩ auth serverUrl store) := by
  refine runs_lift (fun origin hurl => runs_lift (fun cloud hcloud => ?_))
  by_cases heq : origin = cloud
  · rw [if_pos heq]
    refine Post.ok _ (fun s hs => ?_)
    rw [show keyring (view s) = K from hs]
    exact .cloud hurl (by rw [heq]; exact hcloud)
  · rw [if_neg heq]
    exact runs_serverKeyForOrigin hstore K ⟨hurl, cloud, hcloud, heq⟩

theorem post_run (call : KeyCall) :
    Post (Holds view K) (call.run store) (fun a s => Effect K call (.ok a) (keyring (view s)))
      (fun s => ∀ e, Effect K call (.error e) (keyring (view s))) := by
  cases call with
  | setKey serverUrl key =>
      exact Post.bind (runs_setKey hstore K serverUrl key) (fun a => Post.ok _ (fun _ hs => hs))
  | bearerFor auth cloudUrl serverUrl =>
      exact Post.bind (runs_bearerFor hstore K auth cloudUrl serverUrl)
        (fun a => Post.ok _ (fun _ hs => hs))
  | clearOrigin serverUrl =>
      exact Post.bind (runs_clearOrigin hstore K serverUrl) (fun a => Post.ok _ (fun _ hs => hs))
  | clearAll =>
      exact runs_last (g := fun a => a) (b := KeyAnswer.cleared)
        (Post.of_survives (survives_deleteMap hstore K)) (fun r hr => .clearedAll hr)
  | listOrigins =>
      exact Post.bind (runs_listOrigins hstore K) (fun a => Post.ok _ (fun _ hs => hs))

/-- A key that is there is answered. -/
theorem serves_bearerFor {origin key : String} (hkey : K.key origin = some key)
    (auth : Option AuthTokens) {cloudUrl : Option String} {serverUrl : String}
    (hurl : ServerOrigin cloudUrl serverUrl origin) :
    Serves (Holds view K) ((KeyCall.bearerFor auth cloudUrl serverUrl).run store)
      (fun a _ => a = .bearer (some key)) := by
  have hread : K.keys ≠ none := by
    intro hnone
    rw [Keyring.key, hnone] at hkey
    cases hkey
  rcases hurl with ⟨hurl, cloud, hcloud, hne⟩
  have hlookup : Serves (Holds view K) (ServerKeys.serverKeyForOrigin origin store)
      (fun a _ => a = some key) := by
    refine Serves.bind (Survives.mono (survives_readMap hstore K hread) (fun _ hs => hs)
      (fun _ _ hs => hs) (fun _ _ => trivial)) (fun map => Serves.of_pre (fun hkeys => ?_))
    have hmap : map.lookup origin = some key := by
      rw [← hkey, Keyring.key, hkeys]
      rfl
    rw [hmap]
    exact Serves.ok _ (fun _ _ => rfl)
  refine Serves.bind (Q := fun a _ => a = some key) ?_
    (fun a => Serves.ok _ (fun _ ha => by rw [ha]))
  simp only [ServerKeys.bearerFor, hurl, hcloud]
  refine Serves.bind (Q := fun o s => o = origin ∧ Holds view K s)
    (Serves.ok origin (fun _ hs => ⟨rfl, hs⟩)) (fun o => Serves.of_pre (fun ho => ?_))
  refine Serves.bind (Q := fun c s => c = cloud ∧ Holds view K s)
    (Serves.ok cloud (fun _ hs => ⟨rfl, hs⟩)) (fun c => Serves.of_pre (fun hc => ?_))
  rw [ho, hc, if_neg hne]
  exact hlookup

section Unparsable

variable {v : String → Option String}
  (hbad : ∃ message, ServerKeys.parseMap (v ServerKeys.keyServerKeysMap) = .error message)

include hbad

omit [OriginParser] in
theorem post_readMap_unparsable :
    Post (fun s => view s = v) (ServerKeys.readMap store) (fun _ _ => False)
      (fun s => view s = v) := by
  rcases hbad with ⟨message, hparse⟩
  refine Post.bind (Post.of_survives (hstore.get v ServerKeys.keyServerKeysMap)) (fun raw => ?_)
  refine Post.of_pre (fun hraw => ?_)
  rw [hraw, hparse]
  exact Post.fail _ (fun _ hs => hs)

/-- A map that cannot be read fails every call that reads it, and stays as it is. -/
theorem post_run_unparsable {call : KeyCall} (hcall : call ≠ .clearAll) :
    Post (fun s => view s = v) (call.run store)
      (fun _ s => view s = v ∧ ∃ auth cloudUrl serverUrl origin,
        call = .bearerFor auth cloudUrl serverUrl ∧
        ServerKeys.normalizeOrigin serverUrl = .ok origin ∧
        ServerKeys.cloudOrigin ⟨none, cloudUrl⟩ = .ok origin)
      (fun s => view s = v) := by
  have hread : ∀ {α : Type} (f : KeyMap → Sql σ α) (Q : α → σ → Prop),
      Post (fun s => view s = v) ((ServerKeys.readMap store).andThen f) Q (fun s => view s = v) :=
    fun f Q => Post.bind (post_readMap_unparsable hstore hbad) (fun _ _ hc => hc.elim)
  have hlift : ∀ {α β : Type} (x : Except String α) (f : α → Sql σ β) (Q : β → σ → Prop),
      (∀ a, x = .ok a → Post (fun s => view s = v) (f a) Q (fun s => view s = v)) →
        Post (fun s => view s = v) ((ServerKeys.lift x).andThen f) Q (fun s => view s = v) := by
    intro α β x f Q hf
    cases x with
    | error message =>
        exact Post.bind (Q := fun _ _ => False) (Post.fail _ (fun _ hs => hs))
          (fun _ _ hc => hc.elim)
    | ok a =>
        refine Post.bind (Q := fun b s => b = a ∧ view s = v)
          (Post.ok a (fun _ hs => ⟨rfl, hs⟩)) (fun b => Post.of_pre (fun hb => ?_))
        rw [hb]
        exact hf a rfl
  cases call with
  | clearAll => exact absurd rfl hcall
  | setKey serverUrl key =>
      exact Post.bind (Q := fun _ _ => False)
        (hlift _ _ _ (fun _ _ => hread _ _)) (fun _ _ hc => hc.elim)
  | clearOrigin serverUrl =>
      exact Post.bind (Q := fun _ _ => False)
        (hlift _ _ _ (fun _ _ => hread _ _)) (fun _ _ hc => hc.elim)
  | listOrigins =>
      exact Post.bind (Q := fun _ _ => False) (hread _ _) (fun _ _ hc => hc.elim)
  | bearerFor auth cloudUrl serverUrl =>
      refine Post.bind (Q := fun _ s => view s = v ∧ ∃ origin,
        ServerKeys.normalizeOrigin serverUrl = .ok origin ∧
        ServerKeys.cloudOrigin ⟨none, cloudUrl⟩ = .ok origin) ?_
        (fun _ => Post.ok _ (fun _ hs => ⟨hs.1, auth, cloudUrl, serverUrl, hs.2.choose, rfl,
          hs.2.choose_spec⟩))
      refine hlift _ _ _ (fun origin hurl => hlift _ _ _ (fun cloud hcloud => ?_))
      by_cases heq : origin = cloud
      · rw [if_pos heq]
        exact Post.ok _ (fun _ hs => ⟨hs, origin, hurl, by rw [heq]; exact hcloud⟩)
      · rw [if_neg heq]
        exact hread _ _

end Unparsable

end Calls

end Spelunk
