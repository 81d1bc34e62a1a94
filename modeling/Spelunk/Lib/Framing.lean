import Mathlib.Data.List.TakeWhile
import Mathlib.Order.Basic

/-!
# Frames out of a Stream

A stream that is received in chunks and cut into frames. A `Splitter` finds the end
of the first frame of what is pending, and what arrives later moves no end that it
has found. `drain` takes out every frame that is complete, so what it gives is the
same for the whole and for its pieces in turn (`drain_append`).

`receive` is a reader with a bound on what may be pending, checked as each chunk
arrives and before the frames in it are taken out. Where no chunk takes a buffer with
a complete frame above the bound (`InBound`), the frames depend on the stream alone:
they are those before the first that is longer than the bound (`frames_receive`).

## Main definitions

* `Splitter`: Finds the first frame.
* `Splitter.drain`: The complete frames and the rest.
* `Splitter.receive`: The reader.
* `Splitter.InBound`: The bound is met by whole frames.

## Theorems

* `drain_append`: Draining in two pieces.
* `frames_receive`: What the reader takes out, in terms of the stream.
* `inBound_iff`: The bound ends such a reader only where no frame is complete.
-/

namespace Spelunk.Lib

/-- Finds the length of the first frame of what is pending. -/
structure Splitter (α : Type) where
  find : List α → Option ℕ
  pos : ∀ {s n}, find s = some n → 0 < n
  le : ∀ {s n}, find s = some n → n ≤ s.length
  /-- What arrives later moves no end. -/
  append : ∀ {s n} t, find s = some n → find (s ++ t) = some n
  /-- A frame that was not complete ends in what arrives later. -/
  lt : ∀ {s t n}, find s = none → find (s ++ t) = some n → s.length < n

/-- How a reader ends: with its stream, or with more pending than it bears. -/
inductive Stop (α : Type) where
  | closed
  | exceeded (pending : List α)
deriving DecidableEq, Repr

namespace Splitter

variable {α : Type} (k : Splitter α)

/-- The complete frames of what is pending, and what is left. -/
def drain (s : List α) : List (List α) × List α :=
  match _h : k.find s with
  | none => ([], s)
  | some n => (s.take n :: (drain (s.drop n)).1, (drain (s.drop n)).2)
termination_by s.length
decreasing_by
  all_goals
    have hpos := k.pos _h
    have hle := k.le _h
    rw [List.length_drop]
    omega

/-- Read chunks until the stream ends, or until more than `limit` is pending when a chunk has
    arrived. -/
def receive (limit : ℕ) : List α → List (List α) → List (List α) × Stop α
  | _, [] => ([], .closed)
  | pending, chunk :: rest =>
      if limit < (pending ++ chunk).length then ([], .exceeded (pending ++ chunk))
      else
        let (frames, left) := k.drain (pending ++ chunk)
        let (more, stop) := receive limit left rest
        (frames ++ more, stop)

/-- No chunk takes what is pending above the limit while a frame in it is complete. -/
def InBound (limit : ℕ) : List α → List (List α) → Prop
  | _, [] => True
  | pending, chunk :: rest =>
      if limit < (pending ++ chunk).length then k.find (pending ++ chunk) = none
      else InBound limit (k.drain (pending ++ chunk)).2 rest

variable {k}

/-! ### Draining -/

theorem drain_of_none {s : List α} (h : k.find s = none) : k.drain s = ([], s) := by
  rw [drain.eq_def]
  split
  · rfl
  · next hn =>
    rw [h] at hn
    cases hn

theorem drain_of_some {s : List α} {n : ℕ} (h : k.find s = some n) :
    k.drain s = (s.take n :: (k.drain (s.drop n)).1, (k.drain (s.drop n)).2) := by
  rw [drain.eq_def]
  split
  · next hn =>
    rw [h] at hn
    cases hn
  · next hn =>
    rw [h, Option.some.injEq] at hn
    rw [hn]

/-- Draining in two pieces. -/
theorem drain_append (s t : List α) :
    k.drain (s ++ t) = ((k.drain s).1 ++ (k.drain ((k.drain s).2 ++ t)).1,
      (k.drain ((k.drain s).2 ++ t)).2) := by
  induction hl : s.length using Nat.strongRecOn generalizing s with
  | ind l ih =>
    subst hl
    cases hs : k.find s with
    | none =>
      rw [drain_of_none hs]
      rfl
    | some n =>
      have hpos := k.pos hs
      have hle := k.le hs
      have hshort : (s.drop n).length < s.length := by
        rw [List.length_drop]
        omega
      rw [drain_of_some hs, drain_of_some (k.append t hs), List.take_append_of_le_length hle,
        List.drop_append_of_le_length hle, ih _ hshort _ rfl]
      rfl

/-- What is left holds no complete frame. -/
theorem find_drain (s : List α) : k.find (k.drain s).2 = none := by
  induction hl : s.length using Nat.strongRecOn generalizing s with
  | ind l ih =>
    subst hl
    cases hs : k.find s with
    | none => rwa [drain_of_none hs]
    | some n =>
      have hpos := k.pos hs
      have hle := k.le hs
      rw [drain_of_some hs]
      exact ih _ (by rw [List.length_drop]; omega) _ rfl

/-- No frame is longer than what was pending. -/
theorem length_le_of_mem_drain {s f : List α} (hf : f ∈ (k.drain s).1) :
    f.length ≤ s.length := by
  induction hl : s.length using Nat.strongRecOn generalizing s with
  | ind l ih =>
    subst hl
    cases hs : k.find s with
    | none =>
      rw [drain_of_none hs] at hf
      exact absurd hf List.not_mem_nil
    | some n =>
      have hpos := k.pos hs
      have hle := k.le hs
      have hlen : (s.drop n).length = s.length - n := List.length_drop
      rw [drain_of_some hs] at hf
      rcases List.mem_cons.1 hf with rfl | hf
      · exact List.length_take_le' n s
      · have hsub := ih _ (by omega) hf rfl
        omega

theorem length_drain_le (s : List α) : (k.drain s).2.length ≤ s.length := by
  induction hl : s.length using Nat.strongRecOn generalizing s with
  | ind l ih =>
    subst hl
    cases hs : k.find s with
    | none => rw [drain_of_none hs]
    | some n =>
      have hpos := k.pos hs
      have hle := k.le hs
      have hlen : (s.drop n).length = s.length - n := List.length_drop
      rw [drain_of_some hs]
      exact (ih _ (by omega) (s.drop n) rfl).trans (by omega)

/-- A frame that was not complete at `s` is longer than `s`. -/
theorem takeWhile_drain_append {s : List α} (t : List α) {limit : ℕ} (hs : k.find s = none)
    (hlimit : limit < s.length) :
    (k.drain (s ++ t)).1.takeWhile (fun f => f.length ≤ limit) = [] := by
  cases ht : k.find (s ++ t) with
  | none =>
    rw [drain_of_none ht]
    rfl
  | some n =>
    have hn := k.lt hs ht
    have hle := k.le ht
    have hlen : ((s ++ t).take n).length = n := by
      rw [List.length_take]
      omega
    rw [drain_of_some ht, List.takeWhile_cons_of_neg]
    rw [hlen, decide_eq_true_eq]
    omega

/-! ### Reading in chunks -/

/-- The frames that such a reader takes out depend on the stream alone. -/
theorem frames_receive {limit : ℕ} {pending : List α} {cut : List (List α)}
    (hpending : k.find pending = none) (h : k.InBound limit pending cut) :
    (k.receive limit pending cut).1 =
      (k.drain (pending ++ cut.flatten)).1.takeWhile (fun f => f.length ≤ limit) := by
  induction cut generalizing pending with
  | nil =>
    rw [List.flatten_nil, List.append_nil, drain_of_none hpending]
    rfl
  | cons chunk rest ih =>
    unfold receive
    unfold InBound at h
    rw [List.flatten_cons, ← List.append_assoc]
    by_cases hover : limit < (pending ++ chunk).length
    · rw [if_pos hover] at h ⊢
      exact (takeWhile_drain_append _ h hover).symm
    · rw [if_neg hover] at h ⊢
      have hall : ∀ f ∈ (k.drain (pending ++ chunk)).1, decide (f.length ≤ limit) = true :=
        fun f hf => decide_eq_true
          ((length_le_of_mem_drain hf).trans (Nat.le_of_not_lt hover))
      rw [drain_append (pending ++ chunk) rest.flatten, List.takeWhile_append_of_pos hall,
        ← ih (find_drain _) h]

/-- The bound ends such a reader only where no frame is complete. -/
theorem inBound_iff {limit : ℕ} {pending : List α} {cut : List (List α)} :
    k.InBound limit pending cut ↔
      ∀ left, (k.receive limit pending cut).2 = .exceeded left → k.find left = none := by
  induction cut generalizing pending with
  | nil => simp [InBound, receive]
  | cons chunk rest ih =>
    unfold receive InBound
    by_cases hover : limit < (pending ++ chunk).length
    · rw [if_pos hover, if_pos hover]
      constructor
      · rintro h left hleft
        cases hleft
        exact h
      · exact fun h => h _ rfl
    · rw [if_neg hover, if_neg hover]
      exact ih

/-- A stream that is no longer than the bound may be cut anywhere. -/
theorem inBound_of_length_le {limit : ℕ} {pending : List α} {cut : List (List α)}
    (h : pending.length + cut.flatten.length ≤ limit) : k.InBound limit pending cut := by
  induction cut generalizing pending with
  | nil => trivial
  | cons chunk rest ih =>
    rw [List.flatten_cons, List.length_append] at h
    have hlen : (pending ++ chunk).length = pending.length + chunk.length := List.length_append
    have hleft := length_drain_le (k := k) (pending ++ chunk)
    unfold InBound
    rw [if_neg (by omega)]
    exact ih (by omega)

/-- A reader that is ended by the bound has more pending. -/
theorem lt_of_exceeded {limit : ℕ} {pending left : List α} {cut : List (List α)}
    (h : (k.receive limit pending cut).2 = .exceeded left) : limit < left.length := by
  induction cut generalizing pending with
  | nil => cases h
  | cons chunk rest ih =>
    unfold receive at h
    by_cases hover : limit < (pending ++ chunk).length
    · rw [if_pos hover] at h
      cases h
      exact hover
    · rw [if_neg hover] at h
      exact ih h

end Splitter

end Spelunk.Lib
