import Mathlib.Algebra.GroupWithZero.Nat

/-!
# Entity Identity

The content-addressed identity of a memory entry: the lowercase hex digest of
the canonical JSON of exactly `{body, kind, title}`. The canonical text is
written out here the way the JSON serializer writes a sorted map of strings;
the digest itself comes from a hashing library, so it is a parameter
(`Sha256`) and no result below assumes anything about it.

## Main definitions

* `Sha256`: The digest, from text to lowercase hex.
* `canonicalBytes`: The canonical JSON text of an entry.
* `entityId`: The identity of an entry.
* `NoCollision`: The digest tells texts apart.
* `workedSha256`: A digest to evaluate with.
* `NoteRecord`: One parsed line.
* `NoteRecord.resolveEntityId`: Its identity, recomputed when absent.
-/

namespace Spelunk

/-- The hashing library: a text's UTF-8 bytes to the lowercase hex of their
    SHA-256. -/
class Sha256 where
  /-- Digest of a text, hex-encoded. -/
  hexDigest : String → String

/-- One hexadecimal digit, lowercase. -/
def hexDigit (n : Nat) : Char :=
  if n < 10 then Char.ofNat (48 + n) else Char.ofNat (87 + n)

/-- One character of a JSON string. The two-character escapes are the ones the
    serializer has; every other control character is written `\u00xx`, and
    everything else, non-ASCII included, is written raw. -/
def escapeChar (c : Char) : List Char :=
  if c = '"' then ['\\', '"']
  else if c = '\\' then ['\\', '\\']
  else if c = '\n' then ['\\', 'n']
  else if c = '\r' then ['\\', 'r']
  else if c = '\t' then ['\\', 't']
  else if c.toNat = 8 then ['\\', 'b']
  else if c.toNat = 12 then ['\\', 'f']
  else if c.toNat < 32 then
    ['\\', 'u', '0', '0', hexDigit (c.toNat / 16), hexDigit (c.toNat % 16)]
  else [c]

/-- A string as a JSON string literal. -/
def jsonString (s : String) : List Char :=
  '"' :: s.toList.flatMap escapeChar ++ ['"']

/-- The canonical JSON text of an entry: keys in code-point order, compact
    separators. -/
def canonicalBytes (kind title body : String) : String :=
  String.ofList ("\x7b\"body\":".toList ++ jsonString body ++ ",\"kind\":".toList ++ jsonString kind
    ++ ",\"title\":".toList ++ jsonString title ++ "\x7d".toList)

/-- The canonical identity of an entry. -/
def entityId [Sha256] (kind title body : String) : String :=
  Sha256.hexDigest (canonicalBytes kind title body)

/-- The digest tells these texts apart. -/
def NoCollision [Sha256] (texts : List String) : Prop :=
  ∀ a ∈ texts, ∀ b ∈ texts, Sha256.hexDigest a = Sha256.hexDigest b → a = b

/-- A digest to evaluate with. The worked example of the identity's design has
    its real digest; every other text stands for itself, so that distinct texts
    keep distinct digests. -/
@[reducible] def workedSha256 : Sha256 where
  hexDigest text :=
    if text = canonicalBytes "decision" "HTTP layer" "use axum" then
      "cc308a1ca5d849191e1710cc9def561377a9ef37e4fcb895e5aa3b1896e43603"
    else text

example : canonicalBytes "decision" "HTTP layer" "use axum"
    = "\x7b\"body\":\"use axum\",\"kind\":\"decision\",\"title\":\"HTTP layer\"\x7d" := by
  decide

end Spelunk

namespace Spelunk

/-! ### Note Records

The wire form of a memory entry: one line of the append-only `refs/notes`
log. Two machines recording one decision write lines of equal identity but
with their own `id` and `created_at`, and old lines predate several fields, so
every field that may be missing on the wire is an option here.
-/

/-- One line of the notes log. `id` and `supersededBy` are row ids of the
    machine that wrote the line; they are not identities. -/
@[ext] structure NoteRecord where
  /-- 0 for a line that predates the field. -/
  schemaVersion : Nat
  id : Int
  kind : String
  title : String
  body : String
  tags : List String
  linkedFiles : List String
  createdAt : Int
  status : String
  sourceRef : Option String
  validAt : Option Int
  invalidAt : Option Int
  supersededBy : Option Int
  remoteId : Option String
  /-- Absent on a legacy line. -/
  entityId : Option String
  /-- The successor's identity, portable across machines. -/
  supersededByEntityId : Option String
deriving DecidableEq, Repr

namespace NoteRecord

/-- The stored identity, or the one recomputed from the content. -/
def resolveEntityId [Sha256] (r : NoteRecord) : String :=
  r.entityId.getD (Spelunk.entityId r.kind r.title r.body)

end NoteRecord

end Spelunk
