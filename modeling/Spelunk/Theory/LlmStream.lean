import Spelunk.Core.ServerLlm

/-!
# What the LLM Stream Sends

What the channel takes depends on the text of the chunks alone, not on where one
chunk ends: the loop over the buffer takes the complete events in order, and stops
at the first `[DONE]` or when the channel is closed (`tokensSent_eq`). The text of
the chunks, though, is not the text of the bytes: a cut inside a character leaves
replacement characters in its place.

`Lib.Utf8.cells` puts the two texts side by side. Events, lines, the prefix and the
end mark are made of ASCII signs, which no cut goes through, so both texts are read
in the same way cell by cell (`tokens_flatMap`), and what is sent is the answer
exactly where no cut goes through a character of the content that is sent.

## Main definitions

* `tokens`: The contents of the events of a whole text.
* `answerText`: The content of a reply, decoded as a whole.
* `TakesLiterally`: What is relied on of the JSON reader.
* `Uncut`: No cut goes through a character of the content sent.

## Theorems

* `tokensSent_eq`: The stream loop against the tokens of the whole text.
* `contentSent_eq_iff`: What is sent is the answer exactly where it is uncut.
* `llmStreamLaw`: Two ways of cutting one reply.
-/

namespace Spelunk

open Lib.Utf8 (fromUtf8Lossy cells Cell intact Ascii)

/-! ### A whole text -/

/-- The events of a text that a blank line ends. -/
def completeEvents {α : Type} [DecidableEq α] (newline : α) : List α → List (List α)
  | [] => []
  | [_] => []
  | a :: b :: rest =>
      if a = newline ∧ b = newline then [] :: completeEvents newline rest
      else match completeEvents newline (b :: rest) with
        | [] => []
        | event :: events => (a :: event) :: events

section Reading

variable {α : Type} [DecidableEq α] (sign : Char → α)

/-- What the lines of an event carry after `data: `. -/
def eventData (event : List α) : List (List α) :=
  (eventLines (sign '\n') (sign '\r') event).filterMap (dataPrefix.map sign).isPrefixOf?

def dataOf (text : List α) : List (List α) :=
  (completeEvents (sign '\n') text).flatMap (eventData sign)

/-- The contents of the choices of an event that are not empty. -/
def contentsOf (choices : List (Delta α)) : List (List α) :=
  (choices.filterMap Delta.content).filter (· ≠ [])

/-- The contents of what one line carries. -/
def lineTokens (decode : List α → Option (List (Delta α))) (data : List α) : List (List α) :=
  if data = [] then [] else contentsOf ((decode data).getD [])

/-- The contents of the lines before the first `[DONE]`. -/
def tokensOf (decode : List α → Option (List (Delta α))) (data : List (List α)) : List (List α) :=
  (data.takeWhile (· ≠ doneMark.map sign)).flatMap (lineTokens decode)

/-- The contents of a text: of its complete events before the first `[DONE]`. -/
def tokens (decode : List α → Option (List (Delta α))) (text : List α) : List (List α) :=
  tokensOf sign decode (dataOf sign text)

end Reading

/-- What a channel takes of the tokens offered, after it took `n`. -/
def delivered {β : Type} (takes : ℕ → Bool) : ℕ → List β → List β
  | _, [] => []
  | n, x :: xs => if takes n then x :: delivered takes (n + 1) xs else []

theorem delivered_map {β γ : Type} (takes : ℕ → Bool) (g : β → γ) (xs : List β) (n : ℕ) :
    delivered takes n (xs.map g) = (delivered takes n xs).map g := by
  induction xs generalizing n with
  | nil => rfl
  | cons x xs ih =>
    simp only [List.map_cons, delivered, ih]
    split <;> rfl

/-! ### The loop against the whole text -/

section Loop

variable (decode : List Char → Option (List (Delta Char))) (takes : ℕ → Bool)

/-- A loop that starts at `s` with `offered` to send ends at `r`: where it goes on `later` is
    left to send, else it has sent what it will. -/
def Sends (takes : ℕ → Bool) (s : StreamState) (r : StreamState × Flow)
    (offered later : List (List Char)) : Prop :=
  s.sent ++ delivered takes s.sent.length offered =
    match r.2 with
    | .goOn => r.1.sent ++ delivered takes r.1.sent.length later
    | _ => r.1.sent

theorem contentsOf_cons (delta : Delta Char) (rest : List (Delta Char)) :
    contentsOf (delta :: rest) =
      (match delta.content with
      | some content => if content = [] then [] else [content]
      | none => []) ++ contentsOf rest := by
  unfold contentsOf
  rw [List.filterMap_cons]
  cases hd : delta.content with
  | none => rfl
  | some content =>
    by_cases hc : content = []
    · simp [hc]
    · simp [hc]

/-- The choices of an event, one after the other. -/
theorem sends_choices (choices : List (Delta Char)) (s : StreamState) (later : List (List Char)) :
    Sends takes s (sendChoices takes choices s) (contentsOf choices ++ later) later ∧
      (sendChoices takes choices s).1.buffer = s.buffer := by
  induction choices generalizing s with
  | nil => exact ⟨rfl, rfl⟩
  | cons delta rest ih =>
    rw [contentsOf_cons]
    simp only [sendChoices]
    generalize hs' : (if delta.reasoningContent.any (· ≠ []) then
      { s with sawReasoning := true } else s) = s'
    have sent : s'.sent = s.sent := by rw [← hs']; split <;> rfl
    have buffer : s'.buffer = s.buffer := by rw [← hs']; split <;> rfl
    cases hc : delta.content with
    | none =>
      have := ih s'
      rw [buffer] at this
      unfold Sends at this ⊢
      rw [sent] at this
      exact this
    | some content =>
      simp only
      by_cases he : content = []
      · rw [if_pos he, if_pos he]
        have := ih s'
        rw [buffer] at this
        unfold Sends at this ⊢
        rw [sent] at this
        exact this
      · rw [if_neg he, if_neg he]
        by_cases ht : takes s'.sent.length
        · rw [if_pos ht]
          have := ih { s' with sawContent := true, sent := s'.sent ++ [content] }
          refine ⟨?_, this.2.trans buffer⟩
          have hgo := this.1
          unfold Sends at hgo ⊢
          rw [← hgo]
          rw [sent] at ht
          simp [delivered, sent, ht]
        · rw [if_neg ht]
          refine ⟨?_, buffer⟩
          unfold Sends
          rw [sent] at ht
          simp [delivered, sent, ht]

/-- What one line adds to what the event carries. -/
theorem eventData_cons (line : List Char) (rest : List (List Char)) :
    (line :: rest).filterMap (dataPrefix.map id).isPrefixOf? =
      (dataPrefix.isPrefixOf? line).toList ++ rest.filterMap (dataPrefix.map id).isPrefixOf? := by
  rw [List.map_id, List.filterMap_cons]
  cases dataPrefix.isPrefixOf? line <;> rfl

theorem tokensOf_cons (data : List Char) (rest : List (List Char)) :
    tokensOf id decode (data :: rest) =
      if data = doneMark then [] else lineTokens decode data ++ tokensOf id decode rest := by
  unfold tokensOf
  rw [List.map_id, List.takeWhile_cons]
  by_cases h : data = doneMark
  · simp [h]
  · simp [h]

/-- The lines of an event, one after the other. -/
theorem sends_lines (ls : List (List Char)) (s : StreamState) (later : List (List Char)) :
    Sends takes s (handleLines decode takes ls s)
      (tokensOf id decode (ls.filterMap (dataPrefix.map id).isPrefixOf? ++ later))
      (tokensOf id decode later) ∧
    (handleLines decode takes ls s).1.buffer = s.buffer := by
  induction ls generalizing s with
  | nil => exact ⟨rfl, rfl⟩
  | cons line rest ih =>
    rw [eventData_cons, List.append_assoc]
    simp only [handleLines]
    cases hp : dataPrefix.isPrefixOf? line with
    | none => exact ih s
    | some data =>
      simp only [Option.toList_some, List.singleton_append, tokensOf_cons]
      by_cases hdone : data = doneMark
      · rw [if_pos hdone, if_pos hdone]
        exact ⟨by simp [Sends, delivered], rfl⟩
      rw [if_neg hdone, if_neg hdone]
      by_cases hempty : data = []
      · rw [if_pos hempty, lineTokens, if_pos hempty, List.nil_append]
        exact ih s
      rw [if_neg hempty, lineTokens, if_neg hempty]
      cases hd : decode data with
      | none => exact ih s
      | some choices =>
        have hone := sends_choices takes choices s
          (tokensOf id decode (rest.filterMap (dataPrefix.map id).isPrefixOf? ++ later))
        simp only [Option.getD_some]
        rcases hr : sendChoices takes choices s with ⟨s', flow⟩
        rw [hr] at hone
        cases flow with
        | goOn =>
          have hrest := ih s'
          refine ⟨?_, hrest.2.trans hone.2⟩
          have hgo := hrest.1
          have hstart := hone.1
          unfold Sends at hgo hstart ⊢
          rw [hstart]
          exact hgo
        | breakStream => exact hone
        | closed => exact hone

/-- A text whose first blank line is found has the text before it as its first event, whatever
    follows. -/
theorem completeEvents_of_splitBlank {text event after : List Char}
    (h : splitBlank '\n' text = some (event, after)) (t : List Char) :
    completeEvents '\n' (text ++ t) = event :: completeEvents '\n' (after ++ t) ∧
      after.length < text.length := by
  induction text generalizing event with
  | nil => simp [splitBlank] at h
  | cons a text ih =>
    cases text with
    | nil => simp [splitBlank] at h
    | cons b rest =>
      simp only [splitBlank] at h
      by_cases hab : a = '\n' ∧ b = '\n'
      · rw [if_pos hab] at h
        simp only [Option.some.injEq, Prod.mk.injEq] at h
        obtain ⟨rfl, rfl⟩ := h
        simp only [List.cons_append, completeEvents, if_pos hab, List.length_cons]
        exact ⟨trivial, by omega⟩
      · rw [if_neg hab] at h
        obtain ⟨⟨e, r⟩, hsplit, heq⟩ := Option.map_eq_some_iff.1 h
        simp only [Prod.mk.injEq] at heq
        obtain ⟨rfl, rfl⟩ := heq
        have hrec := ih hsplit
        rw [List.cons_append] at hrec
        simp only [List.cons_append, completeEvents, if_neg hab, hrec.1, List.length_cons]
        exact ⟨trivial, by have := hrec.2; simp only [List.length_cons] at this; omega⟩

/-- Without a blank line there is no complete event. -/
theorem completeEvents_of_splitBlank_none {text : List Char} (h : splitBlank '\n' text = none) :
    completeEvents '\n' text = [] := by
  induction text with
  | nil => rfl
  | cons a text ih =>
    cases text with
    | nil => rfl
    | cons b rest =>
      simp only [splitBlank] at h
      by_cases hab : a = '\n' ∧ b = '\n'
      · rw [if_pos hab] at h
        exact absurd h (Option.some_ne_none _)
      · rw [if_neg hab] at h
        simp only [completeEvents, if_neg hab, ih (Option.map_eq_none_iff.1 h)]

/-- The loop over the complete events of the buffer, whatever text comes after it. -/
theorem sends_drain (n : ℕ) (s : StreamState) (hn : s.buffer.length ≤ n) :
    (∀ t, Sends takes s (drain decode takes n s) (tokens id decode (s.buffer ++ t))
      (tokens id decode ((drain decode takes n s).1.buffer ++ t))) ∧
    ((drain decode takes n s).2 = .goOn →
      splitBlank '\n' (drain decode takes n s).1.buffer = none) := by
  induction n generalizing s with
  | zero =>
    have hnil : s.buffer = [] := List.eq_nil_of_length_eq_zero (by omega)
    exact ⟨fun t => rfl, fun _ => by simp [drain, hnil, splitBlank]⟩
  | succ n ih =>
    simp only [drain]
    cases hb : splitBlank '\n' s.buffer with
    | none => exact ⟨fun t => rfl, fun _ => hb⟩
    | some found =>
      obtain ⟨event, after⟩ := found
      have hlines := sends_lines decode takes (eventLines '\n' '\r' event)
        { s with buffer := after }
      have hevents := fun t => (completeEvents_of_splitBlank hb t).1
      have hlen := (completeEvents_of_splitBlank hb []).2
      have htokens : ∀ t, tokens id decode (s.buffer ++ t) =
          tokensOf id decode ((eventLines '\n' '\r' event).filterMap
            (dataPrefix.map id).isPrefixOf? ++ dataOf id (after ++ t)) := by
        intro t
        unfold tokens dataOf
        rw [id, hevents t, List.flatMap_cons]
        rfl
      simp only
      rcases hr : handleLines decode takes (eventLines '\n' '\r' event)
        { s with buffer := after } with ⟨s', flow⟩
      simp only [hr] at hlines
      cases flow with
      | goOn =>
        have hbuffer : s'.buffer = after := (hlines []).2
        have hrest := ih s' (by rw [hbuffer]; omega)
        refine ⟨fun t => ?_, hrest.2⟩
        have hgo := hrest.1 t
        have hstart := (hlines (dataOf id (after ++ t))).1
        unfold Sends at hgo hstart ⊢
        rw [htokens t]
        refine hstart.trans ?_
        rw [hbuffer] at hgo
        exact hgo
      | breakStream =>
        refine ⟨fun t => ?_, fun h => absurd h (by simp)⟩
        rw [htokens t]
        exact (hlines (dataOf id (after ++ t))).1
      | closed =>
        refine ⟨fun t => ?_, fun h => absurd h (by simp)⟩
        rw [htokens t]
        exact (hlines (dataOf id (after ++ t))).1

end Loop

/-- The chunks of a reply that arrive before a read error, if there is one. -/
def received : List (Except String (List UInt8)) → List (List UInt8)
  | .ok bytes :: rest => bytes :: received rest
  | _ => []

theorem readStream_sent (decode : List Char → Option (List (Delta Char))) (takes : ℕ → Bool)
    (stream : List (Except String (List UInt8))) (s : StreamState)
    (hs : splitBlank '\n' s.buffer = none) :
    (readStream decode takes stream s).1.sent = s.sent ++ delivered takes s.sent.length
      (tokens id decode (s.buffer ++ (received stream).flatMap fromUtf8Lossy)) := by
  have hend : ∀ s : StreamState, splitBlank '\n' s.buffer = none →
      s.sent = s.sent ++ delivered takes s.sent.length (tokens id decode (s.buffer ++ [])) := by
    intro s hs
    simp [tokens, dataOf, completeEvents_of_splitBlank_none hs, tokensOf, delivered]
  induction stream generalizing s with
  | nil => exact hend s hs
  | cons item rest ih =>
    cases item with
    | error e => exact hend s hs
    | ok bytes =>
      simp only [readStream, received, List.flatMap_cons]
      obtain ⟨hsends, hnone⟩ := sends_drain decode takes
        (s.buffer ++ fromUtf8Lossy bytes).length
        { s with buffer := s.buffer ++ fromUtf8Lossy bytes } le_rfl
      have hgo := hsends ((received rest).flatMap fromUtf8Lossy)
      rw [← List.append_assoc]
      rcases hr : drain decode takes (s.buffer ++ fromUtf8Lossy bytes).length
        { s with buffer := s.buffer ++ fromUtf8Lossy bytes } with ⟨s', flow⟩
      rw [hr] at hgo hnone
      unfold Sends at hgo
      cases flow with
      | goOn => exact (ih s' (hnone rfl)).trans hgo.symm
      | breakStream => exact hgo.symm
      | closed => exact hgo.symm

/-- What the channel takes depends on the text of the chunks alone. -/
theorem tokensSent_eq (decode : List Char → Option (List (Delta Char))) (takes : ℕ → Bool)
    (stream : List (Except String (List UInt8))) :
    tokensSent decode takes stream =
      delivered takes 0 (tokens id decode ((received stream).flatMap fromUtf8Lossy)) :=
  readStream_sent decode takes stream .fresh rfl

/-! ### The text of the whole beside that of the pieces -/

/-- A way to read a cell as text that leaves what no cut goes through as it is and makes no ASCII
    sign of anything else. -/
structure Reads (f : Cell → List Char) : Prop where
  same : ∀ c, f (intact c) = [c]
  foreign : ∀ x : Cell, ¬ x.Intact → f x ≠ [] ∧ ∀ c ∈ f x, ¬ Ascii c

/-- The text of the whole. -/
theorem reads_whole : Reads fun x => [x.whole] where
  same _ := rfl
  foreign x hx := ⟨List.cons_ne_nil _ _, fun c hc => by
    rw [List.mem_singleton.1 hc]
    exact (x.not_intact hx).1⟩

/-- The text of the pieces. -/
theorem reads_cut : Reads Cell.cut where
  same _ := rfl
  foreign x hx := ⟨by
      have := (x.not_intact hx).2.1
      intro h
      rw [h] at this
      simp at this,
    fun c hc => by
      rw [(x.not_intact hx).2.2 c hc]
      exact Lib.Utf8.not_ascii_replacement⟩

variable {f : Cell → List Char}

section Readers

/-- A cell that is not an ASCII sign is read as text without that sign. -/
theorem Reads.cases (h : Reads f) {a : Char} (ha : Ascii a) (x : Cell) :
    x = intact a ∨ (x ≠ intact a ∧ ∃ y ys, f x = y :: ys ∧ a ∉ y :: ys) := by
  by_cases hx : x.Intact
  · by_cases hw : x.whole = a
    · exact .inl (hw ▸ hx.eq_intact)
    · refine .inr ⟨fun he => hw (by rw [he]; rfl), x.whole, [], ?_, ?_⟩
      · rw [hx.eq_intact, h.same]
        rfl
      · rw [List.mem_singleton]
        exact fun he => hw he.symm
  · refine .inr ⟨fun he => hx (by rw [he]; rfl), ?_⟩
    obtain ⟨hne, hforeign⟩ := h.foreign x hx
    obtain ⟨y, ys, hy⟩ := List.exists_cons_of_ne_nil hne
    exact ⟨y, ys, hy, fun hm => hforeign a (hy ▸ hm) ha⟩

theorem Reads.ne_nil (h : Reads f) (x : Cell) : f x ≠ [] := by
  by_cases hx : x.Intact
  · rw [hx.eq_intact, h.same]
    exact List.cons_ne_nil _ _
  · exact (h.foreign x hx).1

theorem Reads.flatMap_eq_nil (h : Reads f) {t : List Cell} : t.flatMap f = [] ↔ t = [] := by
  rw [List.flatMap_eq_nil_iff]
  refine ⟨fun hall => ?_, fun ht => by simp [ht]⟩
  cases t with
  | nil => rfl
  | cons x t => exact absurd (hall x List.mem_cons_self) (h.ne_nil x)

theorem ascii_newline : Ascii '\n' := by decide

theorem ascii_return : Ascii '\r' := by decide

theorem ascii_of_all {signs : List Char} (h : signs.all (fun c => decide (Ascii c)) = true) :
    ∀ c ∈ signs, Ascii c :=
  fun c hc => of_decide_eq_true (List.all_eq_true.1 h c hc)

theorem ascii_dataPrefix : ∀ c ∈ dataPrefix, Ascii c := ascii_of_all rfl

theorem ascii_doneMark : ∀ c ∈ doneMark, Ascii c := ascii_of_all rfl

/-- A text without a newline in front goes to the first event. -/
theorem completeEvents_append {xs : List Char} (hxs : '\n' ∉ xs) (t : List Char) :
    completeEvents '\n' (xs ++ t) =
      match completeEvents '\n' t with
      | [] => []
      | event :: events => (xs ++ event) :: events := by
  induction xs with
  | nil =>
    rw [List.nil_append]
    cases completeEvents '\n' t <;> rfl
  | cons x xs ih =>
    have hx : x ≠ '\n' := fun he => hxs (by rw [he]; exact List.mem_cons_self)
    have hrec := ih fun hm => hxs (List.mem_cons_of_mem x hm)
    rw [List.cons_append]
    cases hcons : xs ++ t with
    | nil =>
      rw [(List.append_eq_nil_iff.1 hcons).2]
      rfl
    | cons b rest =>
      rw [hcons] at hrec
      simp only [completeEvents, hx, false_and, if_false, hrec]
      cases completeEvents '\n' t <;> rfl

/-- A sign before a text that does not end an event with it. -/
theorem Reads.completeEvents_cons (h : Reads f) {a b : Cell} {rest : List Cell}
    (hab : ¬ (a = intact '\n' ∧ b = intact '\n'))
    (ih : completeEvents '\n' ((b :: rest).flatMap f) =
      (completeEvents (intact '\n') (b :: rest)).map (List.flatMap f)) :
    completeEvents '\n' ((a :: b :: rest).flatMap f) =
      (completeEvents (intact '\n') (a :: b :: rest)).map (List.flatMap f) := by
  have hmap : (completeEvents (intact '\n') (a :: b :: rest)).map (List.flatMap f) =
      match (completeEvents (intact '\n') (b :: rest)).map (List.flatMap f) with
      | [] => []
      | event :: events => (f a ++ event) :: events := by
    simp only [completeEvents, if_neg hab]
    cases completeEvents (intact '\n') (b :: rest) <;> rfl
  rw [hmap, ← ih, List.flatMap_cons]
  rcases h.cases ascii_newline a with rfl | ⟨-, y, ys, hy, hnot⟩
  · rcases h.cases ascii_newline b with rfl | ⟨-, z, zs, hz, hnotz⟩
    · exact absurd ⟨rfl, rfl⟩ hab
    · -- The second sign is no newline, so the first begins the event.
      have hzn : z ≠ '\n' := fun he => hnotz (by rw [he]; exact List.mem_cons_self)
      rw [h.same, List.flatMap_cons, hz]
      simp only [List.nil_append, List.cons_append, completeEvents, hzn, and_false, if_false]
      cases completeEvents '\n' (z :: (zs ++ rest.flatMap f)) <;> rfl
  · rw [hy, completeEvents_append hnot]

theorem Reads.completeEvents (h : Reads f) (t : List Cell) :
    completeEvents '\n' (t.flatMap f) =
      (Spelunk.completeEvents (intact '\n') t).map (List.flatMap f) := by
  induction t using Spelunk.completeEvents.induct (intact '\n') with
  | case1 => rfl
  | case2 a =>
    rcases h.cases ascii_newline a with rfl | ⟨-, y, ys, hy, hnot⟩
    · simp [h.same, Spelunk.completeEvents]
    · rw [List.flatMap_cons, hy, completeEvents_append hnot]
      rfl
  | case3 a b rest hab ih =>
    obtain ⟨rfl, rfl⟩ := hab
    simp [List.flatMap_cons, h.same, Spelunk.completeEvents, ih]
  | case4 a b rest hab _ ih => exact h.completeEvents_cons hab ih
  | case5 a b rest hab event events _ ih => exact h.completeEvents_cons hab ih

theorem linesFrom_append {xs : List Char} (hxs : '\n' ∉ xs) (line t : List Char) :
    linesFrom '\n' '\r' line (xs ++ t) = linesFrom '\n' '\r' (line ++ xs) t := by
  induction xs generalizing line with
  | nil => rw [List.nil_append, List.append_nil]
  | cons x xs ih =>
    have hx : x ≠ '\n' := fun he => hxs (by rw [he]; exact List.mem_cons_self)
    rw [List.cons_append, linesFrom, if_neg hx, ih fun hm => hxs (List.mem_cons_of_mem x hm),
      List.append_assoc, List.singleton_append]

theorem Reads.dropReturn (h : Reads f) (line : List Cell) :
    dropReturn '\r' (line.flatMap f) =
      (Spelunk.dropReturn (intact '\r') line).flatMap f := by
  rcases List.eq_nil_or_concat' line with rfl | ⟨front, x, rfl⟩
  · rfl
  rcases h.cases ascii_return x with rfl | ⟨hx, y, ys, hy, hnot⟩
  · simp [Spelunk.dropReturn, h.same]
  · have hlast : (front.flatMap f ++ y :: ys).getLast? ≠ some '\r' := by
      intro he
      rw [List.getLast?_append_of_ne_nil _ (List.cons_ne_nil y ys)] at he
      exact hnot (List.mem_of_getLast? he)
    simp only [Spelunk.dropReturn, List.flatMap_append, List.flatMap_singleton, hy]
    rw [if_neg hlast, if_neg (by simpa using hx)]
    simp [hy]

theorem Reads.linesFrom (h : Reads f) (t line : List Cell) :
    linesFrom '\n' '\r' (line.flatMap f) (t.flatMap f) =
      (Spelunk.linesFrom (intact '\n') (intact '\r') line t).map
        (List.flatMap f) := by
  induction t generalizing line with
  | nil =>
    simp only [List.flatMap_nil, Spelunk.linesFrom, h.flatMap_eq_nil]
    split <;> rfl
  | cons x t ih =>
    rw [List.flatMap_cons]
    rcases h.cases ascii_newline x with rfl | ⟨hx, y, ys, hy, hnot⟩
    · have hrec := ih []
      rw [List.flatMap_nil] at hrec
      rw [h.same, List.singleton_append, Spelunk.linesFrom, if_pos rfl, Spelunk.linesFrom,
        if_pos rfl, hrec, h.dropReturn, List.map_cons]
    · rw [hy, linesFrom_append hnot, ← hy, Spelunk.linesFrom, if_neg hx, ← ih]
      simp

/-- A prefix of ASCII signs is found in both texts alike. -/
theorem Reads.isPrefixOf? (h : Reads f) {pre : List Char} (hpre : ∀ c ∈ pre, Ascii c)
    (t : List Cell) :
    pre.isPrefixOf? (t.flatMap f) =
      ((pre.map intact).isPrefixOf? t).map (List.flatMap f) := by
  induction pre generalizing t with
  | nil => rfl
  | cons p pre ih =>
    cases t with
    | nil => rfl
    | cons x t =>
      rw [List.flatMap_cons]
      rcases h.cases (hpre p List.mem_cons_self) x with rfl | ⟨hx, y, ys, hy, hnot⟩
      · have hrec := ih (fun c hc => hpre c (List.mem_cons_of_mem p hc)) t
        simpa [List.isPrefixOf?, h.same] using hrec
      · have hyp : p ≠ y := fun he => hnot (by rw [he]; exact List.mem_cons_self)
        have hxp : intact p ≠ x := fun he => hx he.symm
        simp [List.isPrefixOf?, hy, hyp, hxp]

theorem Reads.flatMap_eq (h : Reads f) {pre : List Char} (hpre : ∀ c ∈ pre, Ascii c)
    (t : List Cell) : t.flatMap f = pre ↔ t = pre.map intact := by
  induction pre generalizing t with
  | nil => exact h.flatMap_eq_nil
  | cons p pre ih =>
    cases t with
    | nil => simp
    | cons x t =>
      rw [List.flatMap_cons]
      rcases h.cases (hpre p List.mem_cons_self) x with rfl | ⟨hx, y, ys, hy, hnot⟩
      · have hrec := ih (fun c hc => hpre c (List.mem_cons_of_mem p hc)) t
        simpa [h.same] using hrec
      · have hyp : y ≠ p := fun he => hnot (by rw [he]; exact List.mem_cons_self)
        simp [hy, hyp, hx]

/-- A delta over the cells, read as text. -/
def Delta.read (f : Cell → List Char) (d : Delta Cell) : Delta Char where
  content := d.content.map (List.flatMap f)
  reasoningContent := d.reasoningContent.map (List.flatMap f)

theorem Reads.contentsOf (h : Reads f) (choices : List (Delta Cell)) :
    contentsOf (choices.map (Delta.read f)) =
      (Spelunk.contentsOf choices).map (List.flatMap f) := by
  unfold Spelunk.contentsOf
  rw [List.filterMap_map]
  have hread : Delta.content ∘ Delta.read f = fun d => d.content.map (List.flatMap f) := rfl
  have hempty : ((· ≠ []) ∘ List.flatMap f : List Cell → Bool) = fun t => decide (t ≠ []) := by
    funext t
    simp [h.flatMap_eq_nil]
  rw [hread, ← List.map_filterMap, List.filter_map, hempty]

variable {decode : List Char → Option (List (Delta Char))}
  {origin : List Cell → Option (List (Delta Cell))}

theorem Reads.lineTokens (h : Reads f)
    (hread : ∀ p, decode (p.flatMap f) = (origin p).map (List.map (Delta.read f)))
    (data : List Cell) :
    lineTokens decode (data.flatMap f) =
      (Spelunk.lineTokens origin data).map (List.flatMap f) := by
  unfold Spelunk.lineTokens
  by_cases hd : data = []
  · rw [if_pos hd, if_pos (h.flatMap_eq_nil.2 hd)]
    rfl
  · rw [if_neg hd, if_neg (mt h.flatMap_eq_nil.1 hd), hread, ← h.contentsOf]
    cases origin data <;> rfl

theorem Reads.dataOf (h : Reads f) (t : List Cell) :
    dataOf id (t.flatMap f) = (Spelunk.dataOf intact t).map (List.flatMap f) := by
  unfold Spelunk.dataOf eventData eventLines
  simp only [id, h.completeEvents, List.flatMap_map, List.map_flatMap, List.map_id]
  congr 1
  funext event
  have hlines := h.linesFrom event []
  rw [List.flatMap_nil] at hlines
  rw [hlines, List.filterMap_map, List.map_filterMap]
  congr 1
  funext line
  exact h.isPrefixOf? ascii_dataPrefix line

/-- A text is read cell by cell. -/
theorem Reads.tokens (h : Reads f)
    (hread : ∀ p, decode (p.flatMap f) = (origin p).map (List.map (Delta.read f)))
    (t : List Cell) :
    tokens id decode (t.flatMap f) =
      (Spelunk.tokens intact origin t).map (List.flatMap f) := by
  have hdone : ((· ≠ doneMark) ∘ List.flatMap f : List Cell → Bool) =
      fun data => decide (data ≠ doneMark.map intact) := by
    funext data
    simp [h.flatMap_eq ascii_doneMark]
  unfold Spelunk.tokens tokensOf
  rw [h.dataOf, List.map_id, List.takeWhile_map, hdone, List.flatMap_map, List.map_flatMap]
  congr 1
  funext data
  exact h.lineTokens hread data

end Readers

/-! ### What is sent against the answer -/

/-- What is relied on of the JSON reader: characters outside ASCII occur in strings alone and are
    taken as they are, so each may stand for others outside ASCII with the same effect on what is
    read. `origin` is what the reader makes of the cells of a text. -/
structure TakesLiterally (decode : List Char → Option (List (Delta Char)))
    (origin : List Cell → Option (List (Delta Cell))) : Prop where
  whole : ∀ p : List Cell,
    decode (p.map Cell.whole) = (origin p).map (List.map (Delta.read fun x => [x.whole]))
  cut : ∀ p : List Cell,
    decode (p.flatMap Cell.cut) = (origin p).map (List.map (Delta.read Cell.cut))

section Law

variable (decode : List Char → Option (List (Delta Char)))
  (origin : List Cell → Option (List (Delta Cell))) (takes : ℕ → Bool)

/-- The content the channel takes from a reply. -/
def contentSent (stream : List (Except String (List UInt8))) : List Char :=
  (tokensSent decode takes stream).flatten

/-- The content of the bytes of a reply: of the complete events before the first `[DONE]`, as far
    as the channel takes them. -/
def answerText (bytes : List UInt8) : List Char :=
  (delivered takes 0 (tokens id decode (fromUtf8Lossy bytes))).flatten

/-- No cut goes through a character of the content that is sent. -/
def Uncut (pieces : List (List UInt8)) : Prop :=
  ∀ token ∈ delivered takes 0 (tokens intact origin (cells pieces)), ∀ x ∈ token, x.Intact

variable {decode origin takes}

/-- What is sent is the answer exactly where no cut goes through a character of it. -/
theorem contentSent_eq_iff (h : TakesLiterally decode origin)
    (stream : List (Except String (List UInt8))) :
    contentSent decode takes stream = answerText decode takes (received stream).flatten ↔
      Uncut origin takes (received stream) := by
  have hwhole : ∀ p : List Cell, p.flatMap (fun x => [x.whole]) = p.map Cell.whole :=
    fun p => List.map_eq_flatMap.symm
  have hjoin : ∀ (f : Cell → List Char) (ts : List (List Cell)),
      (ts.map (List.flatMap f)).flatten = ts.flatten.flatMap f := by
    intro f ts
    induction ts with
    | nil => rfl
    | cons token ts ih => rw [List.map_cons, List.flatten_cons, ih, List.flatten_cons,
        List.flatMap_append]
  have hsent : contentSent decode takes stream =
      (delivered takes 0 (tokens intact origin (cells (received stream)))).flatten.flatMap
        Cell.cut := by
    rw [contentSent, tokensSent_eq, ← Lib.Utf8.cells_cut, reads_cut.tokens h.cut, delivered_map,
      hjoin]
  have hanswer : answerText decode takes (received stream).flatten =
      (delivered takes 0 (tokens intact origin (cells (received stream)))).flatten.map
        Cell.whole := by
    rw [answerText, ← Lib.Utf8.cells_whole, ← hwhole,
      reads_whole.tokens (fun p => by rw [hwhole]; exact h.whole p), delivered_map,
      hjoin, hwhole]
  rw [hsent, hanswer, Lib.Utf8.flatMap_cut_eq_map_whole_iff]
  simp only [List.mem_flatten, Uncut]
  exact ⟨fun hall token ht x hx => hall x ⟨token, ht, hx⟩,
    fun hall x ⟨token, ht, hx⟩ => hall token ht x hx⟩

/-- Two ways of cutting the bytes of one reply into chunks send the same content, and that is the
    answer, exactly where neither cuts through a character of the content. -/
theorem llmStreamLaw (h : TakesLiterally decode origin)
    (first second : List (Except String (List UInt8)))
    (hbytes : (received first).flatten = (received second).flatten) :
    (contentSent decode takes first = contentSent decode takes second ∧
      contentSent decode takes first = answerText decode takes (received first).flatten) ↔
    Uncut origin takes (received first) ∧ Uncut origin takes (received second) := by
  rw [← contentSent_eq_iff h first, ← contentSent_eq_iff h second, ← hbytes]
  constructor
  · rintro ⟨hsame, hanswer⟩
    exact ⟨hanswer, hsame ▸ hanswer⟩
  · rintro ⟨hfirst, hsecond⟩
    exact ⟨hfirst.trans hsecond.symm, hfirst⟩

end Law

/-! ### A stream cut inside a character -/

/-- What stands before and after the content in an event with one choice. -/
def openChoice : List Char := "\x7b\"choices\":[\x7b\"delta\":\x7b\"content\":\"".toList

def closeChoice : List Char := "\"\x7d\x7d]\x7d".toList

/-- A reader of one-choice events whose content has no escapes, over any alphabet. -/
def plainDelta {α : Type} [DecidableEq α] (sign : Char → α) (p : List α) :
    Option (List (Delta α)) :=
  match (openChoice.map sign).isPrefixOf? p with
  | none => none
  | some rest =>
      if rest.dropWhile (· ≠ sign '"') = closeChoice.map sign ∧
          sign '\\' ∉ rest.takeWhile (· ≠ sign '"') then
        some [⟨some (rest.takeWhile (· ≠ sign '"')), none⟩]
      else none

theorem ascii_openChoice : ∀ c ∈ openChoice, Ascii c := ascii_of_all rfl

theorem ascii_closeChoice : ∀ c ∈ closeChoice, Ascii c := ascii_of_all rfl

theorem Reads.until (h : Reads f) {a : Char} (ha : Ascii a) (t : List Cell) :
    (t.flatMap f).takeWhile (· ≠ a) = (t.takeWhile (· ≠ intact a)).flatMap f ∧
      (t.flatMap f).dropWhile (· ≠ a) = (t.dropWhile (· ≠ intact a)).flatMap f := by
  induction t with
  | nil => exact ⟨rfl, rfl⟩
  | cons x t ih =>
    rcases h.cases ha x with rfl | ⟨hx, y, ys, hy, hnot⟩
    · simp [h.same]
    · have hall : ∀ c ∈ f x, (decide (c ≠ a)) = true := by
        intro c hc
        rw [decide_eq_true_eq]
        exact fun he => hnot (hy ▸ he ▸ hc)
      rw [List.flatMap_cons, List.takeWhile_append_of_pos hall, List.dropWhile_append_of_pos hall,
        ih.1, ih.2, List.takeWhile_cons, List.dropWhile_cons]
      simp [hx]

theorem Reads.mem (h : Reads f) {a : Char} (ha : Ascii a) (t : List Cell) :
    a ∈ t.flatMap f ↔ intact a ∈ t := by
  rw [List.mem_flatMap]
  constructor
  · rintro ⟨x, hx, hax⟩
    rcases h.cases ha x with rfl | ⟨-, y, ys, hy, hnot⟩
    · exact hx
    · exact absurd (hy ▸ hax) hnot
  · intro hm
    exact ⟨_, hm, by rw [h.same]; exact List.mem_singleton_self a⟩

theorem Reads.plainDelta (h : Reads f) (p : List Cell) :
    plainDelta id (p.flatMap f) = (Spelunk.plainDelta intact p).map (List.map (Delta.read f)) := by
  unfold Spelunk.plainDelta
  rw [List.map_id, List.map_id, h.isPrefixOf? ascii_openChoice]
  cases (openChoice.map intact).isPrefixOf? p with
  | none => rfl
  | some rest =>
    have hquote := h.until (show Ascii '"' by decide) rest
    simp only [Option.map_some, id, hquote.1, hquote.2,
      h.flatMap_eq ascii_closeChoice, h.mem (show Ascii '\\' by decide)]
    split <;> rfl

theorem takesLiterally_plainDelta : TakesLiterally (plainDelta id) (plainDelta intact) where
  whole p := by
    have h := reads_whole.plainDelta p
    rwa [← List.map_eq_flatMap] at h
  cut p := reads_cut.plainDelta p

/-- The bytes of an event whose content is `é`, up to the first byte of it, and those after. -/
def accentHead : List UInt8 :=
  (dataPrefix ++ openChoice).map (fun c => c.toNat.toUInt8) ++ [0xC3]

def accentTail : List UInt8 :=
  0xA9 :: (closeChoice ++ ['\n', '\n']).map fun c => c.toNat.toUInt8

theorem llmStreamLaw_whole :
    contentSent (plainDelta id) (fun _ => true) [.ok (accentHead ++ accentTail)] =
      contentSent (plainDelta id) (fun _ => true)
        [.ok accentHead.dropLast, .ok (0xC3 :: accentTail)] :=
  ((llmStreamLaw takesLiterally_plainDelta [.ok (accentHead ++ accentTail)]
    [.ok accentHead.dropLast, .ok (0xC3 :: accentTail)] (by decide)).2 (by
      unfold Uncut
      decide)).1

/-- A chunk that ends inside the `é` sends replacement characters. -/
theorem cutCharacter_replaced :
    (received [.ok accentHead, .ok accentTail]).flatten =
      (received [.ok (accentHead ++ accentTail)]).flatten ∧
    contentSent (plainDelta id) (fun _ => true) [.ok (accentHead ++ accentTail)] = ['é'] ∧
    contentSent (plainDelta id) (fun _ => true) [.ok accentHead, .ok accentTail] ≠ ['é'] := by
  decide

end Spelunk
