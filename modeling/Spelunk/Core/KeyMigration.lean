import Spelunk.Core.ExportDump
import Spelunk.Core.RelayStream
import Spelunk.Lib.Process

/-!
# The Migration of the Server Key

A personal configuration file of an older version has the server key in it. Loading it moves the
key into the secret store and takes its line out of the file. Processes that load at the same time
read and write the same file and the same entry of the store, in any order; each call can fail.

What a file says, besides its lines, is up to a reader of TOML: whether it can be read, and the
key it has.

## Main definitions

* `isServerKeyLine`, `removeServerKeyLines`: The line that is taken out.
* `ConfigWorld`, `ConfigOp`: The file and the entry, and the calls.
* `loadProgram`: What a load does to them.
-/

namespace Spelunk

open Lib (Prog Machinery)

/-- A line that assigns `server_key`. -/
def isServerKeyLine (line : String) : Bool :=
  match stripPrefix "server_key".toList (trim line.toList) with
  | some rest => (rest.dropWhile isWhiteSpace).head? = some '='
  | none => false

/-- The text that `remove_server_key_from` writes. -/
def removeServerKeyLines (existing : String) : String :=
  withLineEnds ((lines existing).filter fun line => !isServerKeyLine line)

/-- The file, if there is one, and the entry `server_key` of the secret store. -/
@[ext] structure ConfigWorld where
  file : Option String
  key : Option String
deriving DecidableEq, Repr

/-- The calls on them. -/
inductive ConfigOp where
  | readFile
  | writeFile (text : String)
  | getKey
  | setKey (key : String)
deriving DecidableEq, Repr

/-- What a read of the file comes to. -/
inductive FileRead where
  | failed
  | missing
  | text (raw : String)
deriving DecidableEq, Repr

/-- What a call answers; a write answers whether it succeeded, a lookup whether and what. -/
abbrev ConfigOp.Res : ConfigOp → Type
  | .readFile => FileRead
  | .writeFile _ => Bool
  | .getKey => Option (Option String)
  | .setKey _ => Bool

/-- What a call does. A write that fails may leave anything in the file, a store that fails may
    have stored. -/
def ConfigOp.exec : (o : ConfigOp) → ConfigWorld → o.Res → ConfigWorld → Prop
  | .readFile, s, r, t => t = s ∧
      (r = .failed ∨ r = match s.file with
        | none => .missing
        | some raw => .text raw)
  | .writeFile text, s, r, t =>
      (r = true ∧ t = { s with file := some text }) ∨ r = false ∧ t.key = s.key
  | .getKey, s, r, t => t = s ∧ (r = none ∨ r = some s.key)
  | .setKey key, s, r, t =>
      (r = true ∧ t = { s with key := some key }) ∨
        r = false ∧ (t = s ∨ t = { s with key := some key })

/-- `remove_server_key_from`; the answer is whether it succeeded. -/
def removeServerKeyFrom : Prog ConfigOp ConfigOp.Res Bool :=
  .call .readFile fun
    | .failed => .ret false
    | .missing => .ret true
    | .text existing =>
      .call (.writeFile (removeServerKeyLines existing)) fun written => .ret written

/-- What `load_with_store` does to the file and the store. The reader of a file answers nothing if
    the file is refused, and else the key in it, if there is one. -/
def loadProgram (bareKey : String → Option (Option String)) : Prog ConfigOp ConfigOp.Res Bool :=
  .call .readFile fun
    | .failed => .ret false
    | .missing => .ret true
    | .text raw =>
      match bareKey raw with
      | none => .ret false
      | some none => .ret true
      | some (some bare) =>
        .call .getKey fun
          | none => .ret false
          | some (some _) => removeServerKeyFrom
          | some none =>
            .call (.setKey bare) fun stored =>
              if stored then removeServerKeyFrom else .ret false

/-- Processes that load, any of which can be killed between two calls. -/
def loadMachinery (ι : Type) (bareKey : String → Option (Option String)) :
    Machinery ι ConfigWorld ConfigOp ConfigOp.Res Unit (fun _ => Bool) where
  exec := fun _ => ConfigOp.exec
  die := fun _ s => s
  prog := fun _ => loadProgram bareKey

end Spelunk
