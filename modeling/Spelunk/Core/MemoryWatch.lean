import Mathlib.Data.List.DropRight
import Spelunk.Core.ServerLlm

/-!
# Watching the Memory Stream

`memory watch` reads server-sent events from one connection after another. A chunk is decoded
for itself and its text goes behind what is left of the line before; every complete line is
taken at once. The id of an event becomes the one that is sent with the next connection when
the event is dispatched.

The text is a list over any alphabet, with the sign that stands for a character of ASCII; what
is read is read over characters. What a printed event looks like, how long it is waited
before a reconnect and how often that is done are left out.

## Main definitions

* `WatchState`, `watchLine`: The accumulators, and what a line does.
* `watchChunks`: The loop over the chunks of a connection.
* `lastEventIdHeader`: What is sent with a connection.
-/

namespace Spelunk

section Lines

variable {α : Type} [DecidableEq α]

/-- The complete lines of a text, and what is left of it. -/
def cutLines (newline : α) : List α → List (List α) × List α
  | [] => ([], [])
  | c :: rest =>
    if c = newline then ([] :: (cutLines newline rest).1, (cutLines newline rest).2)
    else match cutLines newline rest with
      | ([], left) => ([], c :: left)
      | (line :: lines, left) => ((c :: line) :: lines, left)

/-- The data of the events that were printed, the id to resume after, and the accumulators of the
    event that is read. -/
structure WatchState (α : Type) where
  printed : List (List α)
  lastEventId : Option (List α)
  currentData : Option (List α)
  currentId : Option (List α)
deriving DecidableEq

def idPrefix : List Char := "id: ".toList

/-- One complete line. -/
def watchLine (sign : Char → α) (s : WatchState α) (rawLine : List α) : WatchState α :=
  let line := rawLine.rdropWhile (· = sign '\r')
  if line = [] then
    match s.currentData with
    | some data =>
      if data ≠ [] then
        ⟨s.printed ++ [data], s.currentId.or s.lastEventId, none, none⟩
      else { s with currentData := none }
    | none => { s with lastEventId := s.currentId.or s.lastEventId, currentId := none }
  else match (dataPrefix.map sign).isPrefixOf? line with
    | some data =>
      { s with currentData := some (s.currentData.elim data fun e => e ++ sign '\n' :: data) }
    | none =>
      match (idPrefix.map sign).isPrefixOf? line with
      | some id => { s with currentId := some id }
      | none => s

/-- The lines of a whole text. -/
def watchText (sign : Char → α) (s : WatchState α) (text : List α) : WatchState α :=
  (cutLines (sign '\n') text).1.foldl (watchLine sign) s

end Lines

/-- The loop over the chunks of a connection, with what is left of a line. -/
def watchChunks : WatchState Char × List Char → List (List UInt8) → WatchState Char × List Char
  | state, [] => state
  | (s, buf), chunk :: chunks =>
    let cut := cutLines '\n' (buf ++ Lib.Utf8.fromUtf8Lossy chunk)
    watchChunks (cut.1.foldl (watchLine id) s, cut.2) chunks

/-- A connection: what it prints, and the id to resume after. -/
def watchConnection (lastEventId : Option (List Char)) (chunks : List (List UInt8)) :
    WatchState Char :=
  (watchChunks (⟨[], lastEventId, none, none⟩, []) chunks).1

/-- What a header may hold: visible ASCII characters and tabs. -/
def headerChar (c : Char) : Bool := c = '\t' || (0x20 ≤ c.toNat && c.toNat < 0x7f)

/-- The `Last-Event-ID` of a connection; without a request if it is no header value. -/
def lastEventIdHeader : Option (List Char) → Option (Option (List Char))
  | none => some none
  | some id => if id.all headerChar then some (some id) else none

end Spelunk
