import Mathlib.Data.List.AList
import Mathlib.Data.List.Sort
import Mathlib.Data.String.Basic
import Spelunk.Core.Csv
import Spelunk.Lib.Sql

/-!
# Server Keys

The bearer keys of the servers a user has access to. They live in a secret store,
in one entry that maps the origin of a server to its key; an older version had a
single key for all servers, in an entry of its own. That key moves into the map
the first time a key is looked up that the map does not have. The cloud is no
server of this kind: requests to it carry the access token of the login.

A secret store is an interface of three operations. Any of them may fail, and a
process may be stopped between two of them, which leaves behind what an operation
that fails without an effect leaves.

## Main definitions

* `SecretStore`: The interface.
* `FileStore`: The store in a file.
* `readMap`, `writeMap`: The entry with the map.
* `serverKeyForOrigin`, `bearerFor`: What is sent to a server.
* `setKeyForOrigin`, `clearOrigin`, `clearAll`, `listOrigins`: The commands.
-/

namespace Spelunk

open Lib (Sql SqlError)

/-- The operations of a secret store. -/
structure SecretStore (σ : Type) where
  get : String → Sql σ (Option String)
  set : String → String → Sql σ Unit
  delete : String → Sql σ Unit

/-- A value of `secrets.toml`: a string, or anything else a user wrote there. -/
inductive TomlValue where
  | string (value : String)
  | other
deriving DecidableEq, Repr

def TomlValue.asStr : TomlValue → Option String
  | .string value => some value
  | .other => none

/-- The keys and values of `secrets.toml`. -/
abbrev TomlTable := AList (fun _ : String => TomlValue)

namespace FileStore

/-- The file, where there is one. -/
abbrev File := Option TomlTable

def readTable : Sql File TomlTable := Sql.query (fun file => file.getD ∅)

/-- Write the file: its directory, its contents, and its permissions. -/
def writeTable (table : TomlTable) : Sql File Unit := do
  Sql.execute (fun file : File => .ok file)
  Sql.execute (fun _ : File => .ok (some table))
  Sql.execute (fun file : File => .ok file)

def get (key : String) : Sql File (Option String) := do
  let table ← readTable
  pure ((table.lookup key).bind TomlValue.asStr)

def set (key value : String) : Sql File Unit := do
  let table ← readTable
  writeTable (table.insert key (.string value))

/-- Take a key out; a file that would be empty is removed. -/
def delete (key : String) : Sql File Unit := do
  let table ← readTable
  if key ∉ table then pure ()
  else if (table.erase key).entries = [] then Sql.execute (fun _ : File => .ok none)
  else writeTable (table.erase key)

/-- The store in a file. -/
def store : SecretStore File := ⟨get, set, delete⟩

end FileStore

/-- The map of origins to keys. -/
abbrev KeyMap := AList (fun _ : String => String)

/-- The text of the map's entry: a JSON object. Its parser reads what was written. -/
class MapJson where
  parse : String → Option KeyMap
  render : KeyMap → Option String
  parse_render : ∀ m raw, render m = some raw → trim raw.toList ≠ [] ∧
    ∃ m', parse raw = some m' ∧ ∀ origin, m'.lookup origin = m.lookup origin

/-- The origin of a URL, or why it has none. -/
class OriginParser where
  normalizeOrigin : String → Except String String

/-- The tokens of a login. -/
structure AuthTokens where
  accessToken : String
deriving DecidableEq, Repr

/-- The environment variables that decide a bearer. -/
structure KeyEnv where
  serverKey : Option String
  cloudUrl : Option String

namespace ServerKeys

def keyServerKey : String := "server_key"
def keyServerKeysMap : String := "server_keys"
def defaultCloudUrl : String := "https://api.spelunk.cloud"

variable {σ : Type} [MapJson] [OriginParser]

/-- A computation that needs no store. -/
def lift {α : Type} : Except String α → Sql σ α
  | .ok a => pure a
  | .error message => Sql.fail (.refused message)

def normalizeOrigin (url : String) : Except String String := OriginParser.normalizeOrigin url

/-- The origin of the cloud. -/
def cloudOrigin (env : KeyEnv) : Except String String :=
  normalizeOrigin ((env.cloudUrl.filter (fun v => trim v.toList ≠ [])).getD defaultCloudUrl)

def parseMap (raw : Option String) : Except String KeyMap :=
  match raw with
  | none => .ok ∅
  | some raw =>
      if trim raw.toList = [] then .ok ∅
      else
        match MapJson.parse raw with
        | some map => .ok map
        | none => .error "parsing the server_keys map from the secret store"

def readMap (store : SecretStore σ) : Sql σ KeyMap := do
  let raw ← store.get keyServerKeysMap
  lift (parseMap raw)

def writeMap (store : SecretStore σ) (map : KeyMap) : Sql σ Unit :=
  match MapJson.render map with
  | some raw => store.set keyServerKeysMap raw
  | none => Sql.fail (.refused "serialising the server_keys map")

/-- The key of a server: the map's, or else the old one, which moves into the map. -/
def serverKeyForOrigin (origin : String) (store : SecretStore σ) : Sql σ (Option String) := do
  let map ← readMap store
  match map.lookup origin with
  | some key => pure (some key)
  | none => do
      match ← store.get keyServerKey with
      | none => pure none
      | some legacy => do
          writeMap store (map.insert origin legacy)
          store.delete keyServerKey
          pure (some legacy)

/-- What a request to a URL carries. -/
def bearerFor (env : KeyEnv) (auth : Option AuthTokens) (serverUrl : String)
    (store : SecretStore σ) : Sql σ (Option String) :=
  match env.serverKey with
  | some v => pure (some v)
  | none => do
      let origin ← lift (normalizeOrigin serverUrl)
      let cloud ← lift (cloudOrigin env)
      if origin = cloud then
        pure ((auth.map (·.accessToken)).filter (fun token => token ≠ ""))
      else serverKeyForOrigin origin store

/-- `auth set-key --server`. -/
def setKeyForOrigin (serverUrl key : String) (store : SecretStore σ) : Sql σ String := do
  let origin ← lift (normalizeOrigin serverUrl)
  let map ← readMap store
  writeMap store (map.insert origin key)
  pure origin

/-- `auth list-servers`: the origins in order, and whether the old key is there. -/
def listOrigins (store : SecretStore σ) : Sql σ (List String × Bool) := do
  let map ← readMap store
  let legacy ← store.get keyServerKey
  pure (map.keys.insertionSort (· ≤ ·), legacy.isSome)

/-- `logout --servers`. -/
def clearAll (store : SecretStore σ) : Sql σ Unit := store.delete keyServerKeysMap

/-- `logout --server`. -/
def clearOrigin (serverUrl : String) (store : SecretStore σ) : Sql σ String := do
  let origin ← lift (normalizeOrigin serverUrl)
  let map ← readMap store
  if origin ∈ map then writeMap store (map.erase origin) else store.delete keyServerKey
  pure origin

end ServerKeys

/-- A call on the keys. -/
inductive KeyCall where
  | setKey (serverUrl key : String)
  | bearerFor (auth : Option AuthTokens) (cloudUrl : Option String) (serverUrl : String)
  | clearOrigin (serverUrl : String)
  | clearAll
  | listOrigins
deriving DecidableEq

/-- What a call answers. -/
inductive KeyAnswer where
  | origin (origin : String)
  | bearer (bearer : Option String)
  | cleared
  | origins (origins : List String) (legacy : Bool)
deriving DecidableEq, Repr

/-- Execute a call, with `SPELUNK_SERVER_KEY` unset. -/
def KeyCall.run {σ : Type} [MapJson] [OriginParser] (store : SecretStore σ) :
    KeyCall → Sql σ KeyAnswer
  | .setKey serverUrl key => do
      return .origin (← ServerKeys.setKeyForOrigin serverUrl key store)
  | .bearerFor auth cloudUrl serverUrl => do
      return .bearer (← ServerKeys.bearerFor ⟨none, cloudUrl⟩ auth serverUrl store)
  | .clearOrigin serverUrl => do
      return .origin (← ServerKeys.clearOrigin serverUrl store)
  | .clearAll => do
      let _ ← ServerKeys.clearAll store
      return .cleared
  | .listOrigins => do
      let (origins, legacy) ← ServerKeys.listOrigins store
      return .origins origins legacy

end Spelunk
