import Spelunk.Core.RelayStream

/-!
# One Stream, Cut Anywhere

What the relay takes out of its event stream is to depend on the bytes alone, and the
bound on its buffer is to end a connection only where what is pending holds no
complete frame (`ReadsAlike`). The bound is checked before the frames of a chunk are
taken out, so a chunk that completes a frame can still be too much. That is the only
way the cut shows.

## Main definitions

* `ReadsAlike`: Two cuts of a stream make no difference.
* `WithinBuffer`: The condition on a cut.

## Theorems

* `framingLaw`: Two cuts make no difference exactly where both meet it.
* `framing_manyFrames`: Small frames in one large chunk.
-/

namespace Spelunk

open Lib (Splitter Stop)

/-- The complete frames that a connection takes out of its stream. -/
def streamFrames (chunks : List (List UInt8)) : List (List UInt8) :=
  (sseFrames.receive maxSseBufferBytes [] chunks).1

/-- Two cuts of a stream make no difference: the same frames, so the same ids and catch-ups in the
    same order, and neither is ended by the bound but where more than it is pending without a
    frame terminator. -/
structure ReadsAlike (cut₁ cut₂ : List (List UInt8)) : Prop where
  frames : streamFrames cut₁ = streamFrames cut₂
  events : (streamOnce cut₁).1 = (streamOnce cut₂).1
  bound : ∀ cut ∈ [cut₁, cut₂], ∀ left, (streamOnce cut).2 = .exceeded left →
    maxSseBufferBytes < left.length ∧ findDoubleNewline left = none

/-- No chunk of the cut takes what is pending above the bound while a frame in it is complete. -/
def WithinBuffer (cut : List (List UInt8)) : Prop :=
  sseFrames.InBound maxSseBufferBytes [] cut

theorem find_sseFrames_eq_none {s : List UInt8} :
    sseFrames.find s = none ↔ findDoubleNewline s = none :=
  Option.map_eq_none_iff

/-- The frames of a cut within the buffer are those of the stream before the first that is too
    long. -/
theorem streamFrames_of_withinBuffer {cut : List (List UInt8)} (h : WithinBuffer cut) :
    streamFrames cut =
      (sseFrames.drain cut.flatten).1.takeWhile (fun f => f.length ≤ maxSseBufferBytes) :=
  Splitter.frames_receive rfl h

theorem withinBuffer_iff {cut : List (List UInt8)} : WithinBuffer cut ↔
    ∀ left, (streamOnce cut).2 = .exceeded left →
      maxSseBufferBytes < left.length ∧ findDoubleNewline left = none := by
  refine Splitter.inBound_iff.trans (forall_congr' fun left => ?_)
  constructor
  · exact fun h hleft => ⟨Splitter.lt_of_exceeded hleft, find_sseFrames_eq_none.1 (h hleft)⟩
  · exact fun h hleft => find_sseFrames_eq_none.2 (h hleft).2

theorem events_eq (cut : List (List UInt8)) :
    (streamOnce cut).1 = .catchUp :: (streamFrames cut).flatMap fun f => (readFrame f).events :=
  rfl

/-- Two cuts of one stream make no difference exactly where both are within the buffer. -/
theorem framingLaw (cut₁ cut₂ : List (List UInt8)) (hsame : cut₁.flatten = cut₂.flatten) :
    ReadsAlike cut₁ cut₂ ↔ WithinBuffer cut₁ ∧ WithinBuffer cut₂ := by
  constructor
  · intro h
    exact ⟨withinBuffer_iff.2 (h.bound cut₁ (by simp)), withinBuffer_iff.2 (h.bound cut₂ (by simp))⟩
  · rintro ⟨h₁, h₂⟩
    have hframes : streamFrames cut₁ = streamFrames cut₂ := by
      rw [streamFrames_of_withinBuffer h₁, streamFrames_of_withinBuffer h₂, hsame]
    refine ⟨hframes, by rw [events_eq, events_eq, hframes], fun cut hcut => ?_⟩
    rcases List.mem_cons.1 hcut with rfl | hcut
    · exact withinBuffer_iff.1 h₁
    · rw [List.mem_singleton] at hcut
      subst hcut
      exact withinBuffer_iff.1 h₂

/-- `data: x` and a blank line. -/
def smallFrame : List UInt8 := [0x64, 0x61, 0x74, 0x61, 0x3A, 0x20, 0x78, 0x0A, 0x0A]

/-- A frame in one chunk, and cut inside its terminator. -/
theorem framingLaw_smallFrame :
    ReadsAlike [smallFrame] [smallFrame.take 8, smallFrame.drop 8] := by
  exact (framingLaw _ _ (by decide)).2 ⟨Splitter.inBound_of_length_le (by decide),
    Splitter.inBound_of_length_le (by decide)⟩

/-- In one chunk, more than 1 MiB of small frames end the connection though they are complete. -/
theorem not_readsAlike_replicate {n : ℕ} (hn : maxSseBufferBytes < (n + 1) * smallFrame.length) :
    ¬ ReadsAlike [(List.replicate (n + 1) smallFrame).flatten]
      (List.replicate (n + 1) smallFrame) := by
  intro h
  have hlen : (List.replicate (n + 1) smallFrame).flatten.length = (n + 1) * smallFrame.length := by
    rw [List.length_flatten, List.map_replicate, List.sum_replicate_nat]
  have hstop : (streamOnce [(List.replicate (n + 1) smallFrame).flatten]).2 =
      .exceeded (List.replicate (n + 1) smallFrame).flatten := by
    unfold streamOnce Splitter.receive
    rw [List.nil_append, hlen, if_pos hn]
  have hfind : findDoubleNewline (List.replicate (n + 1) smallFrame).flatten = some 7 := by
    rw [List.replicate_succ, List.flatten_cons]
    exact findDoubleNewline_append _ (by decide)
  have hnone := (h.bound _ (by simp) _ hstop).2
  rw [hfind] at hnone
  cases hnone

/-- A little more than 1 MiB of small frames, in one chunk and in a chunk for each. -/
theorem framing_manyFrames :
    [(List.replicate 116509 smallFrame).flatten].flatten =
      (List.replicate 116509 smallFrame).flatten ∧
    ¬ ReadsAlike [(List.replicate 116509 smallFrame).flatten] (List.replicate 116509 smallFrame) :=
  ⟨by rw [List.flatten_singleton], not_readsAlike_replicate (by decide)⟩

end Spelunk
