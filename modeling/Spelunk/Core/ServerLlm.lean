import Spelunk.Core.Csv
import Spelunk.Lib.Utf8

/-!
# The LLM Backend

`ServerLlm::generate`: the ladder of attempts at a chat-completions endpoint, run
by any number of calls over one cached structured mode, and the loop that reads the
tokens out of the SSE reply.

The structured modes are tried from the cached one on. A request that fails in a
transient way is sent again up to three times; a 400 or 422 steps down to the next
mode; a success stores its mode in the cache.

The reply is decoded chunk by chunk into a buffer, and every event that is complete
is taken from the front of it. The events' text is read over any alphabet that has
the ASCII signs, for the sake of the proofs; `Char` is what the code reads.

## Main definitions

* `StructuredMode`, `isTransientStatus`: The ladder.
* `LlmCall`, `answered`: A call and what it does with the answer to its request.
* `LlmSystem`, `llmStep`: The calls over one cache, one event at a time.
* `handleLines`, `drain`, `readStream`: The stream loop.
-/

namespace Spelunk

open Lib.Utf8 (fromUtf8Lossy)

/-! ### The ladder -/

/-- How the endpoint is asked to constrain its output, strongest first. -/
inductive StructuredMode where
  | jsonSchema
  | jsonObject
  | prompt
deriving DecidableEq, Repr

/-- The `response_format` of a request; the schema is passed on unread. -/
inductive ResponseFormat where
  | jsonSchema (schema : String)
  | jsonObject
deriving DecidableEq, Repr

namespace StructuredMode

def ordered : List StructuredMode := [.jsonSchema, .jsonObject, .prompt]

def fromOrdinal (v : UInt8) : StructuredMode := ordered[v.toNat]?.getD .prompt

def ordinal : StructuredMode → UInt8
  | .jsonSchema => 0
  | .jsonObject => 1
  | .prompt => 2

def responseFormat (schema : String) : StructuredMode → Option ResponseFormat
  | .jsonSchema => some (.jsonSchema schema)
  | .jsonObject => some .jsonObject
  | .prompt => none

end StructuredMode

/-- The statuses after which the same request is sent again. -/
def isTransientStatus (code : ℕ) : Bool :=
  code = 408 || code = 425 || code = 429 || (500 ≤ code && code ≤ 599)

/-- A 2xx status. -/
def isSuccess (code : ℕ) : Bool := 200 ≤ code && code ≤ 299

def maxTransientRetries : ℕ := 3

/-- One attempt of a call: the mode, none without a schema, and its `response_format`. -/
structure Attempt where
  mode : Option StructuredMode
  responseFormat : Option ResponseFormat
deriving DecidableEq, Repr

/-- The attempts of a call that finds `cached`: the modes from the cached one on, or one
    unconstrained request. -/
def attempts (cached : UInt8) : Option String → List Attempt
  | some schema =>
      (StructuredMode.ordered.drop (StructuredMode.fromOrdinal cached).ordinal.toNat).map
        fun m => ⟨some m, m.responseFormat schema⟩
  | none => [⟨none, none⟩]

/-- What comes back for a request. -/
inductive UpstreamAnswer where
  | dropped (error : String)
  | status (code : ℕ) (body : String)
deriving DecidableEq, Repr

/-- What a call fails with. -/
inductive LlmError where
  | calling (error : String)
  | status (code : ℕ) (body : List Char)
  | reading (error : String)
  | exhausted
deriving DecidableEq, Repr

/-- The text of an error. -/
def LlmError.text : LlmError → String
  | .calling e => s!"calling LLM server: {e}"
  | .status code body => s!"LLM server returned an error (HTTP {code}): {String.ofList body}"
  | .reading e => s!"reading SSE byte chunk: {e}"
  | .exhausted => "LLM request exhausted all attempts without a response"

/-- Where a call stands. Sending: the attempt at hand, those after it, how often it was
    tried before, and the pause before the next try. Then the reply is read. -/
inductive LlmPhase where
  | sending (now : Attempt) (later : List Attempt) (attempt : ℕ) (backoff : ℕ)
  | streaming
  | returned (result : Except LlmError Unit)
deriving DecidableEq

/-- A call of `generate`. `log` and `readAt` are read by no step: the requests sent with
    what came back, and how many stores to the cache there were when the call read it. -/
structure LlmCall where
  schema : Option String
  start : StructuredMode
  readAt : ℕ
  phase : LlmPhase
  log : List (Attempt × UpstreamAnswer)

/-- A call begins: with a schema it reads the cache. -/
def beginCall (cached : UInt8) (stores : ℕ) (schema : Option String) : LlmCall where
  schema := schema
  start := StructuredMode.fromOrdinal cached
  readAt := stores
  phase := match attempts cached schema with
    | now :: later => .sending now later 0 300
    | [] => .returned (.error .exhausted)
  log := []

/-- The `'modes` loop from an answer to the request at hand to the next request, the
    reply or the end. -/
def answered (now : Attempt) (later : List Attempt) (attempt backoff : ℕ) :
    UpstreamAnswer → LlmPhase
  | .dropped e =>
      if attempt < maxTransientRetries then
        .sending now later (attempt + 1) (min (backoff * 2) 8000)
      else .returned (.error (.calling e))
  | .status code body =>
      if isSuccess code then .streaming
      else if isTransientStatus code && attempt < maxTransientRetries then
        .sending now later (attempt + 1) (min (backoff * 2) 8000)
      else match later with
        | next :: rest =>
            if code = 400 ∨ code = 422 then .sending next rest 0 300
            else .returned (.error (.status code (trim body.toList)))
        | [] => .returned (.error (.status code (trim body.toList)))

/-- The calls over one cache. `stores` is read by no step: the modes stored so far. -/
structure LlmSystem where
  structuredMode : UInt8
  calls : List LlmCall
  stores : List StructuredMode

/-- What happens: a call begins, the request of a call comes back, the reply of a call has
    been read to its end or to an error. -/
inductive LlmEvent where
  | generate (schema : Option String)
  | answer (i : ℕ) (a : UpstreamAnswer)
  | streamed (i : ℕ) (result : Except String Unit)

/-- The mode an answer makes the call store, if any. -/
def storedMode (now : Attempt) : UpstreamAnswer → Option StructuredMode
  | .dropped _ => none
  | .status code _ => if isSuccess code then now.mode else none

/-- The calls after an event, where the event can happen. -/
def llmStep (s : LlmSystem) : LlmEvent → Option LlmSystem
  | .generate schema =>
      some { s with calls := s.calls ++ [beginCall s.structuredMode s.stores.length schema] }
  | .answer i a =>
      match s.calls[i]? with
      | some call =>
          match call.phase with
          | .sending now later attempt backoff =>
              some {
                structuredMode := match storedMode now a with
                  | some mode => mode.ordinal
                  | none => s.structuredMode
                calls := s.calls.set i { call with
                  phase := answered now later attempt backoff a
                  log := call.log ++ [(now, a)] }
                stores := s.stores ++ (storedMode now a).toList }
          | _ => none
      | none => none
  | .streamed i result =>
      match s.calls[i]? with
      | some call =>
          match call.phase with
          | .streaming =>
              some { s with calls := s.calls.set i { call with
                phase := .returned (match result with
                  | .ok () => .ok ()
                  | .error e => .error (.reading e)) } }
          | _ => none
      | none => none

/-! ### The stream -/

section Text

variable {α : Type} [DecidableEq α]

/-- `buffer.find("\n\n")`: the text before the first blank line and the text after it. -/
def splitBlank (newline : α) : List α → Option (List α × List α)
  | [] => none
  | [_] => none
  | a :: b :: rest =>
      if a = newline ∧ b = newline then some ([], rest)
      else (splitBlank newline (b :: rest)).map fun (event, after) => (a :: event, after)

/-- A line without the carriage return before its newline. -/
def dropReturn (ret : α) (line : List α) : List α :=
  if line.getLast? = some ret then line.dropLast else line

/-- `event.lines()`, with `line` read so far. What follows the last newline is a line as it is,
    unless it is empty. -/
def linesFrom (newline ret : α) (line : List α) : List α → List (List α)
  | [] => if line = [] then [] else [line]
  | c :: rest =>
      if c = newline then dropReturn ret line :: linesFrom newline ret [] rest
      else linesFrom newline ret (line ++ [c]) rest

def eventLines (newline ret : α) (text : List α) : List (List α) := linesFrom newline ret [] text

/-- The `delta` of a choice, over the alphabet of its text. -/
structure Delta (α : Type) where
  content : Option (List α)
  reasoningContent : Option (List α)
deriving DecidableEq

end Text

def dataPrefix : List Char := "data: ".toList

def doneMark : List Char := "[DONE]".toList

/-- What the loop carries: the buffer, the tokens the channel took, and whether content
    and reasoning were seen. -/
structure StreamState where
  buffer : List Char
  sent : List (List Char)
  sawContent : Bool
  sawReasoning : Bool
deriving DecidableEq

def StreamState.fresh : StreamState := ⟨[], [], false, false⟩

/-- Whether a loop goes on, ends the stream loop, or returns because the channel is closed. -/
inductive Flow where
  | goOn
  | breakStream
  | closed
deriving DecidableEq

section Loop

/- `serde_json::from_str::<StreamChunk>`, and whether the receiver takes the n-th token. -/
variable (decode : List Char → Option (List (Delta Char))) (takes : ℕ → Bool)

/-- The choices of one event. -/
def sendChoices : List (Delta Char) → StreamState → StreamState × Flow
  | [], s => (s, .goOn)
  | delta :: rest, s =>
      let s := if delta.reasoningContent.any (· ≠ []) then { s with sawReasoning := true } else s
      match delta.content with
      | none => sendChoices rest s
      | some content =>
          if content = [] then sendChoices rest s
          else
            let s := { s with sawContent := true }
            if takes s.sent.length then sendChoices rest { s with sent := s.sent ++ [content] }
            else (s, .closed)

/-- The lines of one event. -/
def handleLines : List (List Char) → StreamState → StreamState × Flow
  | [], s => (s, .goOn)
  | line :: rest, s =>
      match dataPrefix.isPrefixOf? line with
      | none => handleLines rest s
      | some data =>
          if data = doneMark then (s, .breakStream)
          else if data = [] then handleLines rest s
          else match decode data with
            | none => handleLines rest s
            | some choices =>
                match sendChoices takes choices s with
                | (s, .goOn) => handleLines rest s
                | (s, flow) => (s, flow)

/-- The loop over the complete events of the buffer. Every turn takes at least the blank
    line out of it, so as many turns as it has characters are enough. -/
def drain : ℕ → StreamState → StreamState × Flow
  | 0, s => (s, .goOn)
  | n + 1, s =>
      match splitBlank '\n' s.buffer with
      | none => (s, .goOn)
      | some (event, after) =>
          match handleLines decode takes (eventLines '\n' '\r' event)
              { s with buffer := after } with
          | (s, .goOn) => drain n s
          | (s, flow) => (s, flow)

/-- The loop over the chunks of the reply, each a piece of the body or a read error. The
    result is that of `generate`. -/
def readStream : List (Except String (List UInt8)) → StreamState →
    StreamState × Except String Unit
  | [], s => (s, .ok ())
  | .error e :: _, s => (s, .error e)
  | .ok bytes :: rest, s =>
      let s := { s with buffer := s.buffer ++ fromUtf8Lossy bytes }
      match drain decode takes s.buffer.length s with
      | (s, .goOn) => readStream rest s
      | (s, _) => (s, .ok ())

/-- The tokens the channel of a call takes from the reply. -/
def tokensSent (stream : List (Except String (List UInt8))) : List (List Char) :=
  (readStream decode takes stream .fresh).1.sent

end Loop

end Spelunk
