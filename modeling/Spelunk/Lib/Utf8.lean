import Mathlib.Data.List.Basic
import Mathlib.Tactic.Common

/-!
# Lossy UTF-8

The decoder that puts U+FFFD for every maximal part of a byte string that is not UTF-8, as a
machine that takes one byte at a time, and what becomes of a text when its bytes are decoded in
pieces.

A piece that ends inside a character gives U+FFFD for the bytes it has and the next piece gives
U+FFFD for every byte that was owed. `cells` decodes the whole and the pieces at once: each cell is
a character of the whole beside what the pieces have in its place. A cell is either untouched or
holds at least two replacement characters where the whole has one character outside ASCII
(`Cell.sound`), so the structure that ASCII signs give a text is the same in both, and a text that
holds a cut character is longer than the whole.

## Main definitions

* `Pending`, `feed`, `fromUtf8Lossy`: The decoder.
* `Cell`, `cells`: The whole and the pieces side by side.
* `asciiByte`: The byte of an ASCII character.

## Theorems

* `cells_whole`, `cells_cut`: The two texts of the cells.
* `flatMap_cut_eq_map_whole_iff`: The two texts agree exactly where no cell is cut.
* `decodeFrom_append_ascii`: The text on both sides of an ASCII byte is decoded by itself.
* `exists_byte_of_mem_decodeFrom`: An ASCII character of the text is a byte of it.
* `fromUtf8Lossy_map_asciiByte`: A text in ASCII is decoded to itself.
-/

namespace Spelunk.Lib.Utf8

/-- U+FFFD REPLACEMENT CHARACTER. -/
def replacement : Char := Char.ofNat 0xFFFD

/-- Where the decoder stands between two bytes: how many bytes the character begun still owes (0
between characters), the range the next byte has to lie in, and the bits read so far. The ranges
leave out the overlong forms, so what comes out of more than one byte is never an ASCII
character. -/
structure Pending where
  owed : ℕ
  low : ℕ
  high : ℕ
  bits : ℕ
  low_ge : 0x80 ≤ low
  high_le : high ≤ 0xBF
  last_bits : owed = 1 → 2 ≤ bits
  next_bits : 2 ≤ owed → 2 ≤ bits * 64 + (low - 0x80)
deriving DecidableEq, Repr

/-- Between characters. -/
def between : Pending :=
  ⟨0, 0x80, 0xBF, 0, by decide, by decide, by decide, by decide⟩

/-- The character of a code point. The ranges of the second byte leave out the surrogates and what
lies above U+10FFFF, so the other branch is never taken. -/
def scalar (n : ℕ) : Char := if n.isValidChar then Char.ofNat n else replacement

/-- The first byte of a character. -/
def lead (b : ℕ) : List Char × Pending :=
  if b < 0x80 then ([Char.ofNat b], between)
  else if h : 0xC2 ≤ b ∧ b ≤ 0xDF then
    ([], ⟨1, 0x80, 0xBF, b - 0xC0, by omega, by omega, by omega, by omega⟩)
  else if b = 0xE0 then ([], ⟨2, 0xA0, 0xBF, 0, by omega, by omega, by omega, by omega⟩)
  else if b = 0xED then ([], ⟨2, 0x80, 0x9F, 0xD, by omega, by omega, by omega, by omega⟩)
  else if h : 0xE1 ≤ b ∧ b ≤ 0xEF then
    ([], ⟨2, 0x80, 0xBF, b - 0xE0, by omega, by omega, by omega, by omega⟩)
  else if b = 0xF0 then ([], ⟨3, 0x90, 0xBF, 0, by omega, by omega, by omega, by omega⟩)
  else if h : 0xF1 ≤ b ∧ b ≤ 0xF3 then
    ([], ⟨3, 0x80, 0xBF, b - 0xF0, by omega, by omega, by omega, by omega⟩)
  else if b = 0xF4 then ([], ⟨3, 0x80, 0x8F, 4, by omega, by omega, by omega, by omega⟩)
  else ([replacement], between)

/-- The bits of a character with one byte more. -/
def Pending.more (s : Pending) (b : ℕ) : ℕ := s.bits * 64 + (b - 0x80)

/-- The character goes on after a byte of its range. -/
def Pending.next (s : Pending) (b : ℕ) (owed : 2 ≤ s.owed) (low : s.low ≤ b) : Pending :=
  ⟨s.owed - 1, 0x80, 0xBF, s.more b, by omega, by omega,
    fun _ => by have := s.next_bits owed; unfold Pending.more; omega,
    fun _ => by have := s.next_bits owed; unfold Pending.more; omega⟩

/-- One byte: the characters it completes and where the decoder stands then. A byte outside the
range ends the character begun as one replacement character and is read again as a first byte. -/
def feed (s : Pending) (b : ℕ) : List Char × Pending :=
  if s.owed = 0 then lead b
  else if h : s.low ≤ b ∧ b ≤ s.high then
    if ho : 2 ≤ s.owed then ([], s.next b ho h.1) else ([scalar (s.more b)], between)
  else (replacement :: (lead b).1, (lead b).2)

/-- The end of the bytes. -/
def flush (s : Pending) : List Char := if s.owed = 0 then [] else [replacement]

/-- The text of the bytes from a state. -/
def decodeFrom (s : Pending) : List UInt8 → List Char
  | [] => flush s
  | b :: bs => (feed s b.toNat).1 ++ decodeFrom (feed s b.toNat).2 bs

/-- `String::from_utf8_lossy`. -/
def fromUtf8Lossy (bytes : List UInt8) : List Char := decodeFrom between bytes

/-! ### The whole beside its pieces -/

/-- A character is in ASCII. -/
def Ascii (c : Char) : Prop := c.toNat < 0x80

instance (c : Char) : Decidable (Ascii c) := inferInstanceAs (Decidable (_ < _))

/-- A character of the whole and what the pieces have in its place. -/
structure Cell where
  whole : Char
  cut : List Char
  sound : cut = [whole] ∨ (¬ Ascii whole ∧ 2 ≤ cut.length ∧ ∀ c ∈ cut, c = replacement)
deriving DecidableEq

/-- A character no cut goes through. -/
def intact (c : Char) : Cell := ⟨c, [c], .inl rfl⟩

@[simp] theorem intact_whole (c : Char) : (intact c).whole = c := rfl

@[simp] theorem intact_cut (c : Char) : (intact c).cut = [c] := rfl

/-- No cut went through the cell. -/
def Cell.Intact (x : Cell) : Prop := x.cut = [x.whole]

instance (x : Cell) : Decidable x.Intact := inferInstanceAs (Decidable (_ = _))

theorem Cell.Intact.eq_intact {x : Cell} (h : x.Intact) : x = intact x.whole := by
  cases x
  unfold intact
  congr

theorem Cell.not_intact {x : Cell} (h : ¬ x.Intact) :
    ¬ Ascii x.whole ∧ 2 ≤ x.cut.length ∧ ∀ c ∈ x.cut, c = replacement :=
  x.sound.resolve_left h

theorem Cell.one_le_length (x : Cell) : 1 ≤ x.cut.length := by
  rcases x.sound with h | ⟨-, h, -⟩
  · rw [h]
    exact Nat.le_refl 1
  · omega

theorem not_ascii_replacement : ¬ Ascii replacement := by decide

theorem toNat_ofNat {n : ℕ} (hv : n.isValidChar) : (Char.ofNat n).toNat = n := by
  unfold Char.ofNat
  rw [dif_pos hv]
  unfold Char.ofNatAux Char.toNat
  simp

/-- A character of several bytes is not in ASCII. -/
theorem not_ascii_scalar {n : ℕ} (h : 0x80 ≤ n) : ¬ Ascii (scalar n) := by
  unfold scalar
  by_cases hv : n.isValidChar
  · rw [if_pos hv]
    have hn := toNat_ofNat hv
    unfold Ascii
    omega
  · rw [if_neg hv]
    exact not_ascii_replacement

/-- What the pieces have made of the character begun, before the byte that ends it: nothing while no
cut went through it, else replacement characters only. -/
structure Broken where
  text : List Char
  all : ∀ c ∈ text, c = replacement
deriving DecidableEq

def Broken.none : Broken := ⟨[], by simp⟩

/-- A byte more of a character that was cut. -/
def Broken.more (k : Broken) : Broken :=
  ⟨k.text ++ [replacement], by
    intro c hc
    rcases List.mem_append.1 hc with h | h
    · exact k.all c h
    · exact List.mem_singleton.1 h⟩

/-- The bytes with a mark, `none`, where a piece ends. -/
def marks (pieces : List (List UInt8)) : List (Option UInt8) :=
  pieces.flatMap fun piece => piece.map some ++ [none]

/-- The cell of a character begun that a byte outside the range, or the end, breaks off. -/
def brokenOff (k : Broken) : Cell :=
  if h : 2 ≤ k.text.length then ⟨replacement, k.text, .inr ⟨not_ascii_replacement, h, k.all⟩⟩
  else intact replacement

/-- The cell of a character that its last byte completes. -/
def completed (s : Pending) (b : ℕ) (last : s.owed = 1) (k : Broken) : Cell :=
  if h : k.text = [] then intact (scalar (s.more b))
  else ⟨scalar (s.more b), k.more.text, .inr
    ⟨not_ascii_scalar (by have := s.last_bits last; unfold Pending.more; omega),
      by
        have := List.length_pos_iff.2 h
        simp only [Broken.more, List.length_append, List.length_singleton]
        omega,
      k.more.all⟩⟩

/-- One byte of the whole and of its pieces: the cells it completes, where the decoder of the whole
stands then, and what the pieces have made of the character begun. -/
def cellFeed (s : Pending) (k : Broken) (b : ℕ) : List Cell × Pending × Broken :=
  if h0 : s.owed = 0 then ((lead b).1.map intact, (lead b).2, .none)
  else if h : s.low ≤ b ∧ b ≤ s.high then
    if ho : 2 ≤ s.owed then ([], s.next b ho h.1, if k.text = [] then k else k.more)
    else ([completed s b (by omega) k], between, .none)
  else (brokenOff k :: (lead b).1.map intact, (lead b).2, .none)

/-- A piece ends: a character begun and not cut before becomes one replacement character. -/
def cellCut (s : Pending) (k : Broken) : Broken :=
  if s.owed ≠ 0 ∧ k.text = [] then k.more else k

/-- The cells of marked bytes. -/
def cellsFrom (s : Pending) (k : Broken) : List (Option UInt8) → List Cell
  | [] => if s.owed = 0 then [] else [brokenOff k]
  | none :: ms => cellsFrom s (cellCut s k) ms
  | some b :: ms =>
    (cellFeed s k b.toNat).1 ++ cellsFrom (cellFeed s k b.toNat).2.1 (cellFeed s k b.toNat).2.2 ms

/-- The whole beside its pieces. -/
def cells (pieces : List (List UInt8)) : List Cell := cellsFrom between .none (marks pieces)

theorem brokenOff_whole (k : Broken) : (brokenOff k).whole = replacement := by
  unfold brokenOff
  by_cases h : 2 ≤ k.text.length
  · rw [dif_pos h]
  · rw [dif_neg h, intact_whole]

/-- What a character broken off leaves in the pieces. -/
theorem brokenOff_cut (k : Broken) :
    (brokenOff k).cut = if k.text = [] then [replacement] else k.text := by
  unfold brokenOff
  by_cases h : 2 ≤ k.text.length
  · rw [dif_pos h, if_neg (by intro h'; rw [h'] at h; simp at h)]
  · rw [dif_neg h, intact_cut]
    by_cases h' : k.text = []
    · rw [if_pos h']
    · rw [if_neg h']
      obtain ⟨c, hc⟩ : ∃ c, k.text = [c] := by
        have := List.length_pos_iff.2 h'
        exact List.length_eq_one_iff.1 (by omega)
      rw [hc, k.all c (by rw [hc]; exact List.mem_singleton_self c)]

theorem completed_whole (s : Pending) (b : ℕ) (last : s.owed = 1) (k : Broken) :
    (completed s b last k).whole = scalar (s.more b) := by
  unfold completed
  by_cases h : k.text = []
  · rw [dif_pos h, intact_whole]
  · rw [dif_neg h]

theorem completed_cut (s : Pending) (b : ℕ) (last : s.owed = 1) (k : Broken) :
    (completed s b last k).cut =
      if k.text = [] then [scalar (s.more b)] else k.text ++ [replacement] := by
  unfold completed
  by_cases h : k.text = []
  · rw [dif_pos h, if_pos h, intact_cut]
  · rw [dif_neg h, if_neg h]
    rfl

theorem map_whole_intact (cs : List Char) : (cs.map intact).map Cell.whole = cs := by
  rw [List.map_map]
  exact List.map_id cs

theorem flatMap_cut_intact (cs : List Char) : (cs.map intact).flatMap Cell.cut = cs := by
  rw [List.flatMap_map]
  exact List.flatMap_singleton' cs

/-- The decoder of the whole takes no notice of the pieces. -/
theorem cellFeed_whole (s : Pending) (k : Broken) (b : ℕ) :
    (cellFeed s k b).1.map Cell.whole = (feed s b).1 ∧ (cellFeed s k b).2.1 = (feed s b).2 := by
  unfold cellFeed feed
  by_cases h0 : s.owed = 0
  · rw [dif_pos h0, if_pos h0, map_whole_intact]
    exact ⟨rfl, rfl⟩
  rw [dif_neg h0, if_neg h0]
  by_cases h : s.low ≤ b ∧ b ≤ s.high
  · rw [dif_pos h, dif_pos h]
    by_cases ho : 2 ≤ s.owed
    · rw [dif_pos ho, dif_pos ho]
      exact ⟨rfl, rfl⟩
    · rw [dif_neg ho, dif_neg ho]
      exact ⟨by rw [List.map_singleton, completed_whole], rfl⟩
  · rw [dif_neg h, dif_neg h]
    exact ⟨by rw [List.map_cons, brokenOff_whole, map_whole_intact], rfl⟩

theorem cellsFrom_whole (ms : List (Option UInt8)) (s : Pending) (k : Broken) :
    (cellsFrom s k ms).map Cell.whole = decodeFrom s (ms.filterMap id) := by
  induction ms generalizing s k with
  | nil =>
    simp only [cellsFrom, List.filterMap_nil, decodeFrom, flush]
    split
    · rfl
    · rw [List.map_singleton, brokenOff_whole]
  | cons m ms ih =>
    cases m with
    | none => exact ih s (cellCut s k)
    | some b =>
      have hb := cellFeed_whole s k b.toNat
      simp only [cellsFrom, List.map_append, ih, hb.1, hb.2, List.filterMap_cons, id, decodeFrom]

/-- The text of the pieces, from a state of the decoder of the piece at hand. -/
def piecesFrom (s : Pending) : List (Option UInt8) → List Char
  | [] => flush s
  | none :: ms => flush s ++ piecesFrom between ms
  | some b :: ms => (feed s b.toNat).1 ++ piecesFrom (feed s b.toNat).2 ms

/-- Where the decoder of the piece stands: where that of the whole does, or, where a cut went
through the character begun, between characters. -/
def pieceState (s : Pending) (k : Broken) : Pending := if k.text = [] then s else between

/-- A byte that goes on with a character is no first byte. -/
theorem lead_tail {b : ℕ} (low : 0x80 ≤ b) (high : b ≤ 0xBF) :
    lead b = ([replacement], between) := by
  unfold lead
  rw [if_neg (by omega), dif_neg (by omega), if_neg (by omega), if_neg (by omega),
    dif_neg (by omega), if_neg (by omega), dif_neg (by omega), if_neg (by omega)]

/-- One byte, in the pieces: what they made of the character begun and what the byte adds is what
the completed cells hold and what they have made of the character begun then. -/
theorem cellFeed_cut (s : Pending) (k : Broken) (b : ℕ) (hk : s.owed = 0 → k.text = []) :
    k.text ++ (feed (pieceState s k) b).1 =
        (cellFeed s k b).1.flatMap Cell.cut ++ (cellFeed s k b).2.2.text ∧
      (feed (pieceState s k) b).2 = pieceState (cellFeed s k b).2.1 (cellFeed s k b).2.2 ∧
      ((cellFeed s k b).2.1.owed = 0 → (cellFeed s k b).2.2.text = []) := by
  unfold cellFeed
  by_cases h0 : s.owed = 0
  · rw [dif_pos h0, flatMap_cut_intact]
    simp only [pieceState, hk h0, if_pos, feed, h0, Broken.none, List.nil_append, List.append_nil]
    exact ⟨trivial, trivial, fun _ => trivial⟩
  rw [dif_neg h0]
  by_cases h : s.low ≤ b ∧ b ≤ s.high
  · have low := s.low_ge
    have high := s.high_le
    have tail : lead b = ([replacement], between) := lead_tail (by omega) (by omega)
    rw [dif_pos h]
    by_cases ho : 2 ≤ s.owed
    · rw [dif_pos ho]
      by_cases hk0 : k.text = []
      · simp only [pieceState, hk0, if_pos, feed, if_neg h0, dif_pos h, dif_pos ho,
          List.flatMap_nil, List.append_nil]
        exact ⟨trivial, trivial, fun _ => trivial⟩
      · have hm : k.more.text ≠ [] := by simp [Broken.more]
        simp only [pieceState, hk0, if_false, feed, show between.owed = 0 from rfl, if_pos, tail,
          List.flatMap_nil, List.nil_append, hm]
        refine ⟨rfl, trivial, fun h1 => ?_⟩
        simp only [Pending.next] at h1
        omega
    · rw [dif_neg ho]
      by_cases hk0 : k.text = []
      · simp only [pieceState, hk0, if_pos, feed, if_neg h0, dif_pos h, dif_neg ho,
          List.flatMap_singleton, completed_cut, Broken.none, List.append_nil, List.nil_append]
        exact ⟨trivial, trivial, fun _ => trivial⟩
      · simp only [pieceState, hk0, if_false, feed, show between.owed = 0 from rfl, if_pos, tail,
          List.flatMap_singleton, completed_cut, Broken.none, List.append_nil]
        exact ⟨trivial, trivial, fun _ => trivial⟩
  · rw [dif_neg h, List.flatMap_cons, brokenOff_cut, flatMap_cut_intact]
    by_cases hk0 : k.text = []
    · simp only [pieceState, hk0, if_pos, feed, if_neg h0, dif_neg h, Broken.none, List.append_nil,
        List.nil_append]
      exact ⟨rfl, trivial, fun _ => trivial⟩
    · simp only [pieceState, hk0, if_false, feed, show between.owed = 0 from rfl, if_pos,
        Broken.none, List.append_nil]
      exact ⟨trivial, trivial, fun _ => trivial⟩

theorem cellsFrom_cut (ms : List (Option UInt8)) (s : Pending) (k : Broken)
    (hk : s.owed = 0 → k.text = []) :
    (cellsFrom s k ms).flatMap Cell.cut = k.text ++ piecesFrom (pieceState s k) ms := by
  induction ms generalizing s k with
  | nil =>
    simp only [cellsFrom, piecesFrom, pieceState, flush]
    by_cases h0 : s.owed = 0
    · simp [h0, hk h0]
    · by_cases hk0 : k.text = []
      · simp [h0, hk0, brokenOff_cut]
      · simp [h0, hk0, brokenOff_cut, between]
  | cons m ms ih =>
    cases m with
    | none =>
      simp only [cellsFrom, piecesFrom]
      by_cases h0 : s.owed = 0
      · rw [ih s _ (fun _ => by simp [cellCut, h0, hk h0])]
        simp only [cellCut, h0, hk h0, ne_eq, not_true, false_and, if_false, pieceState, if_pos,
          flush, List.nil_append]
        -- Between characters a state is as good as the state at the start.
        cases ms with
        | nil => simp [piecesFrom, flush, h0, between]
        | cons m ms =>
          cases m with
          | none => simp [piecesFrom, flush, h0, between]
          | some b => simp [piecesFrom, feed, h0, between]
      · rw [ih s _ (fun h => absurd h h0)]
        by_cases hk0 : k.text = []
        · simp [cellCut, h0, hk0, pieceState, flush, Broken.more]
        · simp [cellCut, h0, hk0, pieceState, flush, between]
    | some b =>
      have hb := cellFeed_cut s k b.toNat hk
      simp only [cellsFrom, piecesFrom, List.flatMap_append]
      rw [ih _ _ hb.2.2, ← List.append_assoc, ← hb.1, hb.2.1, List.append_assoc]

theorem filterMap_marks (pieces : List (List UInt8)) :
    (marks pieces).filterMap id = pieces.flatten := by
  induction pieces with
  | nil => rfl
  | cons piece pieces ih =>
    rw [List.flatten_cons, ← ih]
    simp [marks]

theorem piecesFrom_piece (piece : List UInt8) (ms : List (Option UInt8)) (s : Pending) :
    piecesFrom s (piece.map some ++ none :: ms) = decodeFrom s piece ++ piecesFrom between ms := by
  induction piece generalizing s with
  | nil => rfl
  | cons b bs ih => simp only [List.map_cons, List.cons_append, piecesFrom, decodeFrom, ih,
      List.append_assoc]

theorem piecesFrom_marks (pieces : List (List UInt8)) :
    piecesFrom between (marks pieces) = pieces.flatMap fromUtf8Lossy := by
  induction pieces with
  | nil => rfl
  | cons piece pieces ih =>
    rw [List.flatMap_cons, ← ih, fromUtf8Lossy, ← piecesFrom_piece]
    simp [marks]

/-- The characters of the cells are the text of the whole. -/
theorem cells_whole (pieces : List (List UInt8)) :
    (cells pieces).map Cell.whole = fromUtf8Lossy pieces.flatten := by
  rw [cells, cellsFrom_whole, filterMap_marks, fromUtf8Lossy]

/-- What the cells hold in the place of the characters is the text of the pieces. -/
theorem cells_cut (pieces : List (List UInt8)) :
    (cells pieces).flatMap Cell.cut = pieces.flatMap fromUtf8Lossy := by
  rw [cells, cellsFrom_cut _ _ _ (fun _ => rfl), ← piecesFrom_marks]
  rfl

theorem length_le_flatMap_cut (xs : List Cell) : xs.length ≤ (xs.flatMap Cell.cut).length := by
  induction xs with
  | nil => exact Nat.le_refl _
  | cons x xs ih =>
    rw [List.flatMap_cons, List.length_append, List.length_cons]
    have := x.one_le_length
    omega

/-- The two texts agree exactly where no cell is cut: a cut character is at least two. -/
theorem flatMap_cut_eq_map_whole_iff (xs : List Cell) :
    xs.flatMap Cell.cut = xs.map Cell.whole ↔ ∀ x ∈ xs, x.Intact := by
  constructor
  · induction xs with
    | nil => simp
    | cons x xs ih =>
      intro h
      rw [List.flatMap_cons, List.map_cons] at h
      by_cases hx : x.Intact
      · rw [show x.cut = [x.whole] from hx, List.singleton_append, List.cons.injEq] at h
        exact List.forall_mem_cons.2 ⟨hx, ih h.2⟩
      · have hlen := congrArg List.length h
        have := x.not_intact hx |>.2.1
        have := length_le_flatMap_cut xs
        rw [List.length_append, List.length_cons, List.length_map] at hlen
        omega
  · intro h
    induction xs with
    | nil => rfl
    | cons x xs ih =>
      rw [List.flatMap_cons, List.map_cons, ih fun y hy => h y (List.mem_cons_of_mem x hy),
        show x.cut = [x.whole] from h x List.mem_cons_self, List.singleton_append]

/-! ### ASCII bytes -/

/-- An ASCII byte ends whatever was begun and stands for itself. -/
theorem feed_ascii (s : Pending) {b : ℕ} (hb : b < 0x80) :
    feed s b = (flush s ++ [Char.ofNat b], between) := by
  have hlead : lead b = ([Char.ofNat b], between) := by
    unfold lead
    rw [if_pos hb]
  have hlow := s.low_ge
  unfold feed flush
  by_cases ho : s.owed = 0
  · rw [if_pos ho, if_pos ho, hlead, List.nil_append]
  · rw [if_neg ho, if_neg ho, dif_neg (by omega), hlead, List.singleton_append]

/-- The text on both sides of an ASCII byte is decoded by itself. -/
theorem decodeFrom_append_ascii (x y : List UInt8) (s : Pending) {b : UInt8}
    (hb : b.toNat < 0x80) :
    decodeFrom s (x ++ b :: y) = decodeFrom s x ++ Char.ofNat b.toNat :: decodeFrom between y := by
  induction x generalizing s with
  | nil =>
    show (feed s b.toNat).1 ++ decodeFrom (feed s b.toNat).2 y = flush s ++ _
    rw [feed_ascii s hb, List.append_assoc]
    rfl
  | cons a x ih => rw [List.cons_append, decodeFrom, decodeFrom, ih, List.append_assoc]

theorem fromUtf8Lossy_append_ascii (x y : List UInt8) {b : UInt8} (hb : b.toNat < 0x80) :
    fromUtf8Lossy (x ++ b :: y) = fromUtf8Lossy x ++ Char.ofNat b.toNat :: fromUtf8Lossy y :=
  decodeFrom_append_ascii x y between hb

/-- The ASCII characters that a byte completes are that byte. -/
theorem toNat_of_mem_lead {b : ℕ} {c : Char} (hc : c ∈ (lead b).1) (ha : Ascii c) :
    c.toNat = b := by
  have hrep := not_ascii_replacement
  unfold lead at hc
  split at hc
  · next hb =>
    rw [List.mem_singleton] at hc
    subst hc
    exact toNat_ofNat (.inl (by omega))
  · split_ifs at hc <;> simp at hc
    exact absurd (hc ▸ ha) hrep

theorem toNat_of_mem_feed {s : Pending} {b : ℕ} {c : Char} (hc : c ∈ (feed s b).1)
    (ha : Ascii c) : c.toNat = b := by
  unfold feed at hc
  by_cases ho : s.owed = 0
  · rw [if_pos ho] at hc
    exact toNat_of_mem_lead hc ha
  · rw [if_neg ho] at hc
    by_cases hr : s.low ≤ b ∧ b ≤ s.high
    · rw [dif_pos hr] at hc
      by_cases h2 : 2 ≤ s.owed
      · rw [dif_pos h2] at hc
        exact absurd hc List.not_mem_nil
      · rw [dif_neg h2, List.mem_singleton] at hc
        have hlast := s.last_bits (by omega)
        have hmore : 0x80 ≤ s.more b := by
          unfold Pending.more
          omega
        exact absurd (hc ▸ ha) (not_ascii_scalar hmore)
    · rw [dif_neg hr] at hc
      rcases List.mem_cons.1 hc with rfl | hc
      · exact absurd ha not_ascii_replacement
      · exact toNat_of_mem_lead hc ha

/-- An ASCII character of the text is a byte of it. -/
theorem exists_byte_of_mem_decodeFrom {bytes : List UInt8} {s : Pending} {c : Char}
    (hc : c ∈ decodeFrom s bytes) (ha : Ascii c) : ∃ b ∈ bytes, b.toNat = c.toNat := by
  induction bytes generalizing s with
  | nil =>
    unfold decodeFrom flush at hc
    split at hc
    · exact absurd hc List.not_mem_nil
    · rw [List.mem_singleton] at hc
      exact absurd (hc ▸ ha) not_ascii_replacement
  | cons b bytes ih =>
    rw [decodeFrom, List.mem_append] at hc
    rcases hc with hc | hc
    · exact ⟨b, List.mem_cons_self, (toNat_of_mem_feed hc ha).symm⟩
    · obtain ⟨b', hb', hb'c⟩ := ih hc
      exact ⟨b', List.mem_cons_of_mem _ hb', hb'c⟩

/-- The byte of an ASCII character. -/
def asciiByte (c : Char) : UInt8 := UInt8.ofNat c.toNat

theorem toNat_asciiByte {c : Char} (ha : Ascii c) : (asciiByte c).toNat = c.toNat := by
  have ha : c.toNat < 0x80 := ha
  unfold asciiByte
  rw [UInt8.toNat_ofNat']
  omega

/-- A text in ASCII is decoded to itself. -/
theorem fromUtf8Lossy_map_asciiByte {cs : List Char} (ha : ∀ c ∈ cs, Ascii c) :
    fromUtf8Lossy (cs.map asciiByte) = cs := by
  unfold fromUtf8Lossy
  induction cs with
  | nil => rfl
  | cons c cs ih =>
    have hc := toNat_asciiByte (ha c List.mem_cons_self)
    have hlt : (asciiByte c).toNat < 0x80 := hc ▸ ha c List.mem_cons_self
    rw [List.map_cons, decodeFrom, feed_ascii between hlt, hc, Char.ofNat_toNat,
      ih fun d hd => ha d (List.mem_cons_of_mem _ hd)]
    rfl

end Spelunk.Lib.Utf8
