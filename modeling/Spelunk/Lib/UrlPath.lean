import Mathlib.Data.List.Basic

/-!
# Paths of URLs

Bytes of a URL written as themselves or as `%` and two digits, for any choice of the bytes that are
written so, and read back; and the path of a URL of a web scheme, which its parser cuts at slashes
of both kinds, rids of dots, and encodes once more. Texts are bytes of ASCII.

## Main definitions

* `percentEncode`: The text of bytes.
* `percentDecode`: The bytes of a text.
* `pathPieces`: The pieces of a path.
* `resolveDots`: The path without dots.

## Theorems

* `percentDecode_percentEncode`: Encoded bytes are read back.
* `percentEncode_percentEncode`: Encoding twice is encoding once.
* `resolveDots_of_forall`: A path without dots stays.
* `mem_resolveDots`: What is left where dots are resolved.
-/

namespace Spelunk

namespace Lib

variable {set again : UInt8 → Bool}

/-- A digit of base sixteen, in upper case. -/
def upperHexDigit (n : ℕ) : UInt8 := UInt8.ofNat (if n < 10 then 48 + n else 55 + n)

/-- The value of a digit of base sixteen, in either case. -/
def hexDigitValue (b : UInt8) : Option ℕ :=
  if 48 ≤ b ∧ b ≤ 57 then some (b.toNat - 48)
  else if 65 ≤ b ∧ b ≤ 70 then some (b.toNat - 55)
  else if 97 ≤ b ∧ b ≤ 102 then some (b.toNat - 87)
  else none

/-- The sign in front of two digits. -/
def percentSign : UInt8 := 37

/-- The text of one byte. -/
def percentUnit (set : UInt8 → Bool) (b : UInt8) : List UInt8 :=
  if set b then [percentSign, upperHexDigit (b.toNat / 16), upperHexDigit (b.toNat % 16)] else [b]

/-- The text of bytes. -/
def percentEncode (set : UInt8 → Bool) (bytes : List UInt8) : List UInt8 :=
  bytes.flatMap (percentUnit set)

/-- The byte of two digits at the head of a text. -/
def hexPair : List UInt8 → Option UInt8
  | h :: l :: _ =>
    match hexDigitValue h, hexDigitValue l with
    | some x, some y => some (UInt8.ofNat (16 * x + y))
    | _, _ => none
  | _ => none

/-- The bytes of a text; a sign without two digits is itself. -/
def percentDecode : List UInt8 → List UInt8
  | [] => []
  | [a] => [a]
  | [a, b] => [a, b]
  | a :: h :: l :: rest =>
    if a = percentSign then
      match hexPair [h, l] with
      | some b => b :: percentDecode rest
      | none => a :: percentDecode (h :: l :: rest)
    else a :: percentDecode (h :: l :: rest)

theorem percentEncode_cons (b : UInt8) (bytes : List UInt8) :
    percentEncode set (b :: bytes) = percentUnit set b ++ percentEncode set bytes :=
  List.flatMap_cons ..

theorem percentEncode_append (a b : List UInt8) :
    percentEncode set (a ++ b) = percentEncode set a ++ percentEncode set b :=
  List.flatMap_append ..

/-- A byte that is not the sign is itself. -/
theorem percentDecode_cons {b : UInt8} (h : b ≠ percentSign) (t : List UInt8) :
    percentDecode (b :: t) = b :: percentDecode t := by
  rcases t with _ | ⟨x, _ | ⟨y, t⟩⟩
  · rfl
  · rfl
  · rw [percentDecode, if_neg h]

theorem hexPair_upperHexDigit (b : UInt8) :
    hexPair [upperHexDigit (b.toNat / 16), upperHexDigit (b.toNat % 16)] = some b := by
  have hvalue : ∀ n < 16, hexDigitValue (upperHexDigit n) = some n := by decide
  rw [hexPair, hvalue _ (by have := b.toNat_lt; omega), hvalue _ (Nat.mod_lt _ (by omega))]
  dsimp only
  rw [Nat.div_add_mod, UInt8.ofNat_toNat]

/-- The digits of a byte are read as it. -/
theorem percentDecode_escape (b : UInt8) (t : List UInt8) :
    percentDecode (percentSign :: upperHexDigit (b.toNat / 16) ::
      upperHexDigit (b.toNat % 16) :: t) = b :: percentDecode t := by
  rw [percentDecode, if_pos rfl, hexPair_upperHexDigit]

/-- Encoded bytes are read back if the sign is encoded. -/
theorem percentDecode_percentEncode (hset : set percentSign = true) (bytes : List UInt8) :
    percentDecode (percentEncode set bytes) = bytes := by
  induction bytes with
  | nil => rfl
  | cons b bytes ih =>
    rw [percentEncode_cons, percentUnit]
    split
    · exact (percentDecode_escape b _).trans (congrArg _ ih)
    · next hb =>
      have hne : b ≠ percentSign := fun heq => hb (heq ▸ hset)
      exact (percentDecode_cons hne _).trans (congrArg _ ih)

/-- A set that leaves the texts of bytes alone. -/
def LeavesEscapes (again : UInt8 → Bool) : Prop :=
  again percentSign = false ∧ ∀ n < 16, again (upperHexDigit n) = false

/-- Encoding twice is encoding once, what either of the two encodes. -/
theorem percentEncode_percentEncode (h : LeavesEscapes again) (bytes : List UInt8) :
    percentEncode again (percentEncode set bytes) =
      percentEncode (fun b => set b || again b) bytes := by
  obtain ⟨hsign, hdigit⟩ := h
  induction bytes with
  | nil => rfl
  | cons b bytes ih =>
    have hhigh := hdigit (b.toNat / 16) (by have := b.toNat_lt; omega)
    have hlow := hdigit (b.toNat % 16) (Nat.mod_lt _ (by omega))
    have hunit : percentEncode again (percentUnit set b) =
        percentUnit (fun b => set b || again b) b := by
      rw [percentUnit, percentUnit]
      rcases hb : set b with _ | _
      · simp [percentEncode, percentUnit]
      · simp [percentEncode, percentUnit, hsign, hhigh, hlow]
    rw [percentEncode_cons, percentEncode_append, ih, hunit, percentEncode_cons]

/-- What is in a text: the sign, digits, and the bytes that are not encoded. -/
theorem mem_percentEncode {x : UInt8} {bytes : List UInt8} (hx : x ∈ percentEncode set bytes) :
    x = percentSign ∨ (∃ n < 16, x = upperHexDigit n) ∨ x ∈ bytes ∧ set x = false := by
  obtain ⟨b, hb, hx⟩ := List.mem_flatMap.1 hx
  rw [percentUnit] at hx
  split at hx
  · rcases List.mem_cons.1 hx with rfl | hx
    · exact .inl rfl
    rcases List.mem_cons.1 hx with rfl | hx
    · exact .inr (.inl ⟨_, by have := b.toNat_lt; omega, rfl⟩)
    · exact .inr (.inl ⟨_, Nat.mod_lt b.toNat (by omega), List.mem_singleton.1 hx⟩)
  · next hset =>
    rw [List.mem_singleton.1 hx]
    exact .inr (.inr ⟨hb, Bool.not_eq_true _ ▸ hset⟩)

/-! ### The path of a URL -/

/-- The bytes that a parser encodes in a path: blanks and some more, but nothing of the text of an
    encoded byte. -/
structure PathSet where
  encodes : UInt8 → Bool
  leaves : LeavesEscapes encodes

/-- In a web scheme both slashes end a piece of the path. -/
def endsPiece (b : UInt8) : Bool := b = 0x2F || b = 0x5C

/-- The path ends at a question mark or a hash. -/
def endsPath (b : UInt8) : Bool := b = 0x3F || b = 0x23

/-- The pieces of a path, behind its first slash. -/
def pathPieces (path : List UInt8) : List (List UInt8) :=
  (path.takeWhile fun b => !endsPath b).splitOnP endsPiece

/-- The spellings of a dot: as itself and as `%2e`, in both cases. -/
def dotSpellings : List (List UInt8) := [[0x2E], [0x25, 0x32, 0x65], [0x25, 0x32, 0x45]]

def isSingleDot (piece : List UInt8) : Bool := dotSpellings.contains piece

def isDoubleDot (piece : List UInt8) : Bool :=
  (dotSpellings.flatMap fun a => dotSpellings.map (a ++ ·)).contains piece

/-- One piece of a path: two dots take a segment away, one dot is nothing, and either of them at
    the end leaves an empty segment. -/
def dotStep (set : PathSet) (out : List (List UInt8)) (piece : List UInt8) (last : Bool) :
    List (List UInt8) :=
  if isDoubleDot piece then out.dropLast ++ if last then [[]] else []
  else if isSingleDot piece then out ++ if last then [[]] else []
  else out ++ [percentEncode set.encodes piece]

/-- The path state. -/
def resolveDots (set : PathSet) : List (List UInt8) → List (List UInt8) → List (List UInt8)
  | out, [] => out
  | out, piece :: rest => resolveDots set (dotStep set out piece rest.isEmpty) rest

section Path

variable {set : PathSet} {out pieces : List (List UInt8)} {piece segment : List UInt8}

theorem percentDecode_of_isSingleDot (h : isSingleDot piece = true) :
    percentDecode piece = [0x2E] := by
  have hall : ∀ s ∈ dotSpellings, percentDecode s = [0x2E] := by decide
  exact hall piece (List.contains_iff_mem.1 h)

theorem percentDecode_of_isDoubleDot (h : isDoubleDot piece = true) :
    percentDecode piece = [0x2E, 0x2E] := by
  have hall : ∀ s ∈ dotSpellings.flatMap fun a => dotSpellings.map (a ++ ·),
      percentDecode s = [0x2E, 0x2E] := by decide
  exact hall piece (List.contains_iff_mem.1 h)

/-- A path without dots stays. -/
theorem resolveDots_of_forall
    (h : ∀ piece ∈ pieces, isSingleDot piece = false ∧ isDoubleDot piece = false) :
    resolveDots set out pieces = out ++ pieces.map (percentEncode set.encodes) := by
  induction pieces generalizing out with
  | nil => rw [resolveDots, List.map_nil, List.append_nil]
  | cons piece pieces ih =>
    obtain ⟨hsingle, hdouble⟩ := h piece List.mem_cons_self
    have hrest := fun p hp => h p (List.mem_cons_of_mem _ hp)
    rw [resolveDots, dotStep, hsingle, hdouble, if_neg Bool.false_ne_true,
      if_neg Bool.false_ne_true, ih hrest, List.map_cons, List.append_assoc,
      List.singleton_append]

theorem mem_dotStep {last : Bool} (h : segment ∈ dotStep set out piece last) :
    segment ∈ out ∨ segment = [] ∨ isSingleDot piece = false ∧ isDoubleDot piece = false ∧
      segment = percentEncode set.encodes piece := by
  have hempty : segment ∈ (if last then [[]] else [] : List (List UInt8)) → segment = [] := by
    cases last
    · exact fun he => absurd he List.not_mem_nil
    · exact List.mem_singleton.1
  rw [dotStep] at h
  split at h
  · exact (List.mem_append.1 h).imp (List.dropLast_subset _ ·) fun he => .inl (hempty he)
  · next hdouble =>
    split at h
    · exact (List.mem_append.1 h).imp id fun he => .inl (hempty he)
    · next hsingle =>
      exact (List.mem_append.1 h).imp id fun he => .inr ⟨by simpa using hsingle,
        by simpa using hdouble, List.mem_singleton.1 he⟩

/-- What is left where dots are resolved: nothing but empty segments and pieces that are no
    dots. -/
theorem mem_resolveDots (h : segment ∈ resolveDots set out pieces) :
    segment ∈ out ∨ segment = [] ∨ ∃ piece ∈ pieces,
      isSingleDot piece = false ∧ isDoubleDot piece = false ∧
        segment = percentEncode set.encodes piece := by
  induction pieces generalizing out with
  | nil => exact .inl h
  | cons piece pieces ih =>
    rcases ih h with hout | hnil | ⟨p, hp, hfacts⟩
    · exact (mem_dotStep hout).imp id (Or.imp id fun hfacts =>
        ⟨piece, List.mem_cons_self, hfacts⟩)
    · exact .inr (.inl hnil)
    · exact .inr (.inr ⟨p, List.mem_cons_of_mem _ hp, hfacts⟩)

end Path

end Lib

end Spelunk
