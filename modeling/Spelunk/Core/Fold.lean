import Mathlib.Data.Int.ConditionallyCompleteOrder
import Mathlib.Data.Prod.Lex
import Mathlib.Data.String.Basic
import Mathlib.Order.ConditionallyCompleteLattice.Basic
import Spelunk.Core.Identity
import Spelunk.Lib.FirstMin
import Spelunk.Lib.Grouping
import Spelunk.Lib.Merge

/-!
# Folding the Copies of One Entity

Readers of the notes log collapse the copies of each entity into one record:
the copy of least `baseKey` supplies most fields, the others are merged onto it
one at a time, and the successor is resolved over the whole group.

## Main definitions

* `baseKey`: The order that picks the base copy.
* `mergeInto`: Merges one more copy onto the base.
* `resolveSupersededByEntityId`: The successor of a whole group.
* `foldGroup`: One group to one record.
* `foldRecords`: All groups of a list of records.
* `bestStep`: One pair of the pass.
* `bestCopies`: The position of each entity's base copy.
* `anchorCommits`: The anchor of each entity.
-/

namespace Spelunk

/-- An option in the order that puts an absent value first. -/
def optKey {α : Type*} : Option α → WithBot α
  | none => ⊥
  | some x => (x : WithBot α)

/-- The tuple `baseKey` returns, in lexicographic order. -/
abbrev BaseKey := Int ×ₗ Int ×ₗ WithBot String ×ₗ WithBot String ×ₗ WithBot Int

/-- Earliest recording wins; the trailing fields only break a tie. -/
def baseKey (r : NoteRecord) : BaseKey :=
  toLex (r.createdAt, toLex (r.id, toLex (optKey r.sourceRef,
    toLex (optKey r.remoteId, optKey r.supersededBy))))

/-- Index of the copy every base-sourced field is taken from: the first of
    least key. A group always holds the record that created it, so `none` is
    the case the code panics on and never reaches. -/
def baseIndex (group : List NoteRecord) : Option Nat :=
  match group.zipIdx with
  | [] => none
  | first :: rest => some (Lib.firstMin (fun p => baseKey p.1) first rest).2

/-- Keep the smallest present value. -/
def minSome (a b : Option Int) : Option Int :=
  match a, b with
  | some a, some b => some (min a b)
  | a, b => a.or b

/-- Add-wins union: an incoming member is added, none is ever dropped. -/
def unionInto (base other : List String) : List String :=
  Lib.sortDedup (base ++ other)

/-- Merge one more copy onto the base. The successor is not folded here. -/
def mergeInto (base other : NoteRecord) : NoteRecord :=
  { base with
    status := if other.status = "archived" then "archived" else base.status
    schemaVersion := max base.schemaVersion other.schemaVersion
    validAt := minSome base.validAt other.validAt
    invalidAt := minSome base.invalidAt other.invalidAt
    tags := unionInto base.tags other.tags
    linkedFiles := unionInto base.linkedFiles other.linkedFiles }

/-- The order among the copies that name a successor: latest first, then
    `baseKey`, then the value itself. -/
def successorKey (r : NoteRecord) : Intᵒᵈ ×ₗ BaseKey ×ₗ WithBot String :=
  toLex (OrderDual.toDual r.createdAt, toLex (baseKey r, optKey r.supersededByEntityId))

/-- The successor carried by the most recent copy that carries one. -/
def resolveSupersededByEntityId (group : List NoteRecord) : Option String :=
  match group.filter (fun r => r.supersededByEntityId.isSome) with
  | [] => none
  | first :: rest => (Lib.firstMin successorKey first rest).supersededByEntityId

/-- Fold one entity's copies onto its base copy. -/
def foldGroup (group : List NoteRecord) : Option NoteRecord := do
  let supersededByEntityId := resolveSupersededByEntityId group
  let baseIdx ← baseIndex group
  let base ← group[baseIdx]?
  let base := (Lib.swapRemove group baseIdx).foldl mergeInto base
  return { base with supersededByEntityId := supersededByEntityId }

/-- Collapse each entity of `records` into one record, in first-encounter
    order. -/
def foldRecords [Sha256] (records : List NoteRecord) : List NoteRecord :=
  (Lib.groupBy NoteRecord.resolveEntityId records).filterMap (fun group => foldGroup group.2)

end Spelunk

namespace Spelunk

/-! ### Anchors

The commit that carries an entity's base copy: where the entity was first written.
One pass over the `(commit, record)` pairs keeps for each entity the position of the
best copy so far; a hash map is a function from its keys.
-/

variable [Sha256]

/-- One pair of the pass, with its position. A slot always holds a position of the list, so the
    lookup that fails is the one the code panics on and never reaches. -/
def bestStep (records : List (String × NoteRecord)) (best : String → Option ℕ)
    (p : (String × NoteRecord) × ℕ) : String → Option ℕ :=
  let entity := p.1.2.resolveEntityId
  match best entity with
  | none => Function.update best entity (some p.2)
  | some slot =>
      match records[slot]? with
      | none => best
      | some held =>
          if baseKey p.1.2 < baseKey held.2 then Function.update best entity (some p.2) else best

/-- The position of each entity's base copy. -/
def bestCopies (records : List (String × NoteRecord)) : String → Option ℕ :=
  records.zipIdx.foldl (bestStep records) fun _ => none

/-- Each entity's base copy with the commit that carries it. -/
def anchoredCopy (records : List (String × NoteRecord)) (entity : String) :
    Option (String × NoteRecord) :=
  (bestCopies records entity).bind fun i => records[i]?

/-- Map each entity to the commit its note is anchored to. -/
def anchorCommits (records : List (String × NoteRecord)) (entity : String) : Option String :=
  (anchoredCopy records entity).map (·.1)

end Spelunk
