import Spelunk.Core.GitNotes
import Spelunk.Core.Relay
import Spelunk.Lib.Framing

/-!
# The Relay's Event Stream

The relay keeps a connection to the team server's stream open and reads frames from
it, each ended by a blank line. A frame with data wakes the relay up to catch up, and
a frame with an id is remembered. The network hands the bytes over in chunks that
have nothing to do with frames. A stream that ends with an error of the network is
left out: nothing is read from it after that.

## Main definitions

* `findDoubleNewline`: The first frame terminator.
* `sseFrames`: The frames of the stream.
* `readFrame`: What a frame says.
* `streamOnce`: What one connection does to the session.
-/

namespace Spelunk

open Lib.Utf8 (fromUtf8Lossy)

/-- Cap on the unresolved receive buffer. -/
def maxSseBufferBytes : ℕ := 1024 * 1024

/-- The offset of the first two line ends in a row. -/
def findDoubleNewline : List UInt8 → Option ℕ
  | a :: b :: rest =>
      if a = newline ∧ b = newline then some 0 else (findDoubleNewline (b :: rest)).map (· + 1)
  | _ => none

section FindDoubleNewline

variable {s t : List UInt8} {n : ℕ}

theorem findDoubleNewline_le (h : findDoubleNewline s = some n) : n + 2 ≤ s.length := by
  fun_induction findDoubleNewline s generalizing n with
  | case1 a b rest hab =>
    cases h
    simp only [List.length_cons]
    omega
  | case2 a b rest hab ih =>
    obtain ⟨m, hm, rfl⟩ := Option.map_eq_some_iff.1 h
    have hle := ih hm
    rw [List.length_cons]
    omega
  | case3 s hs => cases h

/-- What arrives later moves no terminator. -/
theorem findDoubleNewline_append (t : List UInt8) (h : findDoubleNewline s = some n) :
    findDoubleNewline (s ++ t) = some n := by
  fun_induction findDoubleNewline s generalizing n with
  | case1 a b rest hab =>
    cases h
    exact if_pos hab
  | case2 a b rest hab ih =>
    obtain ⟨m, hm, rfl⟩ := Option.map_eq_some_iff.1 h
    have hrec := ih hm
    rw [List.cons_append, List.cons_append, findDoubleNewline, if_neg hab, ← List.cons_append,
      hrec]
    rfl
  | case3 s hs => cases h

/-- A terminator that was not complete ends in what arrives later. -/
theorem findDoubleNewline_lt (hs : findDoubleNewline s = none)
    (h : findDoubleNewline (s ++ t) = some n) : s.length < n + 2 := by
  fun_induction findDoubleNewline s generalizing n with
  | case1 a b rest hab => cases hs
  | case2 a b rest hab ih =>
    rw [Option.map_eq_none_iff] at hs
    rw [List.cons_append, List.cons_append, findDoubleNewline, if_neg hab,
      ← List.cons_append] at h
    obtain ⟨m, hm, rfl⟩ := Option.map_eq_some_iff.1 h
    have hlt := ih hs hm
    rw [List.length_cons]
    omega
  | case3 s hshort =>
    rcases s with _ | ⟨a, _ | ⟨b, rest⟩⟩
    · simp
    · simp
    · exact absurd rfl (hshort a b rest)

end FindDoubleNewline

/-- The frames of the stream, with their terminators. -/
def sseFrames : Lib.Splitter UInt8 where
  find s := (findDoubleNewline s).map (· + 2)
  pos h := by
    obtain ⟨m, -, rfl⟩ := Option.map_eq_some_iff.1 h
    omega
  le h := by
    obtain ⟨m, hm, rfl⟩ := Option.map_eq_some_iff.1 h
    exact findDoubleNewline_le hm
  append t h := by
    obtain ⟨m, hm, rfl⟩ := Option.map_eq_some_iff.1 h
    rw [findDoubleNewline_append t hm]
    rfl
  lt hs h := by
    obtain ⟨m, hm, rfl⟩ := Option.map_eq_some_iff.1 h
    exact findDoubleNewline_lt (Option.map_eq_none_iff.1 hs) hm

/-- What a frame says: whether it has data, and its id. -/
structure SseFrame where
  sawData : Bool
  frameId : Option String
deriving DecidableEq, Repr

/-- `str::strip_prefix`. -/
def stripPrefix (start line : List Char) : Option (List Char) :=
  if start.isPrefixOf line then some (line.drop start.length) else none

theorem stripPrefix_append (start rest : List Char) :
    stripPrefix start (start ++ rest) = some rest := by
  rw [stripPrefix, if_pos (List.isPrefixOf_iff_prefix.2 (List.prefix_append _ _)),
    List.drop_left]

/-- One line of a frame. -/
def SseFrame.readLine (f : SseFrame) (line : String) : SseFrame :=
  match stripPrefix "data:".toList line.toList with
  | some rest => if trim rest ≠ [] then { f with sawData := true } else f
  | none =>
      match stripPrefix "id:".toList line.toList with
      | some rest => { f with frameId := some (String.ofList (trim rest)) }
      | none => f

def readFrame (bytes : List UInt8) : SseFrame :=
  (lines (String.ofList (fromUtf8Lossy bytes))).foldl SseFrame.readLine ⟨false, none⟩

/-- What a frame does to the session. -/
def SseFrame.events (f : SseFrame) : List RelayEvent :=
  (match f.frameId with
    | some id => [.frameId id]
    | none => []) ++ if f.sawData then [.catchUp] else []

/-- One connection whose bytes arrive in these chunks: what it does to the session, and how the
    stream ends. The first catch-up comes before any byte is read. -/
def streamOnce (chunks : List (List UInt8)) : List RelayEvent × Lib.Stop UInt8 :=
  let (frames, stop) := sseFrames.receive maxSseBufferBytes [] chunks
  (.catchUp :: frames.flatMap fun f => (readFrame f).events, stop)

end Spelunk
