import Mathlib.Data.List.Induction
import Spelunk.Core.NoteId

/-!
# Note Ids through JSON

An id is written as a number when it reads as one, and it reads as one in more spellings
than a number is written in: with a plus sign, with zeros in front, as minus zero. What
comes back is the number's own spelling. So an id survives unless it reads as a number and
is spelled in one of these other ways; every id that came in as a number survives, those
beyond the signed range as strings.

## Main definitions

* `paddedSpelling`: A plus sign, zeros in front, or minus zero.

## Theorems

* `toDigits_ofDigitChars`: Digits without zeros in front are those of their number.
* `parseI64_decimalText`: A number is read back from its decimal text.
* `decimalText_parseI64`: Which spellings are decimal texts.
* `noteIdLaw`: Which ids survive.
-/

namespace Spelunk

/-- The spellings of numbers that no number is written in. -/
def paddedSpelling : List Char → Bool
  | '+' :: _ => true
  | '-' :: '0' :: _ => true
  | '0' :: _ :: _ => true
  | _ => false

section Digits

theorem digitChar_of_isDigit {c : Char} (h : c.isDigit = true) :
    c.toNat - '0'.toNat < 10 ∧ Nat.digitChar (c.toNat - '0'.toNat) = c := by
  simp only [Char.isDigit, Bool.and_eq_true, decide_eq_true_eq, UInt32.le_iff_toNat_le] at h
  have hlow : 48 ≤ c.toNat := h.1
  have hhigh : c.toNat ≤ 57 := h.2
  have hzero : '0'.toNat = 48 := rfl
  rw [hzero]
  refine ⟨by omega, Char.toNat_inj.mp ?_⟩
  rw [Nat.toNat_digitChar_of_lt_ten (by omega)]
  omega

/-- Digits without zeros in front are those of their number. -/
theorem toDigits_ofDigitChars {digits : List Char} (hne : digits ≠ [])
    (hdigits : ∀ c ∈ digits, c.isDigit = true) (hzero : ∀ c rest, digits ≠ '0' :: c :: rest) :
    Nat.toDigits 10 (Nat.ofDigitChars 10 digits 0) = digits := by
  induction digits using List.reverseRecOn with
  | nil => exact absurd rfl hne
  | append_singleton digits d ih =>
      have hd := digitChar_of_isDigit (hdigits d (List.mem_append_right _ List.mem_cons_self))
      rw [Nat.ofDigitChars_append, Nat.ofDigitChars_cons, Nat.ofDigitChars_nil]
      rcases digits with _ | ⟨c, rest⟩
      · rw [Nat.ofDigitChars_nil, Nat.mul_zero, Nat.zero_add, Nat.toDigits_of_lt_base hd.1, hd.2]
        rfl
      · have hprefix := ih (List.cons_ne_nil _ _)
          (fun x hx => hdigits x (List.mem_append_left _ hx))
          (fun x tail heq => hzero x (tail ++ [d]) (by rw [heq]; rfl))
        have hpos : 0 < Nat.ofDigitChars 10 (c :: rest) 0 := by
          by_contra hnot
          -- The digits in front are a single zero.
          rw [Nat.eq_zero_of_not_pos hnot, Nat.toDigits_zero] at hprefix
          exact hzero d [] (by rw [← hprefix]; rfl)
        rw [← Nat.toDigits_append_toDigits (by decide) hpos hd.1, hprefix,
          Nat.toDigits_of_lt_base hd.1, hd.2]

theorem digitsValue_eq_some {digits : List Char} {n : ℕ} : digitsValue digits = some n ↔
    digits ≠ [] ∧ (∀ c ∈ digits, c.isDigit = true) ∧ Nat.ofDigitChars 10 digits 0 = n := by
  rw [digitsValue]
  split
  · next h =>
    refine ⟨fun h' => absurd h' (by simp), fun ⟨hne, hall, _⟩ => ?_⟩
    rcases h with h | h
    · exact absurd h hne
    · exact absurd (List.all_eq_true.mpr hall) h
  · next h =>
    rw [not_or, not_not] at h
    rw [Option.some.injEq]
    exact ⟨fun h' => ⟨h.1, List.all_eq_true.mp h.2, h'⟩, fun h' => h'.2.2⟩

theorem digitsValue_toDigits (n : ℕ) : digitsValue (Nat.toDigits 10 n) = some n :=
  digitsValue_eq_some.mpr ⟨Nat.toDigits_ne_nil,
    fun _ hc => Nat.isDigit_of_mem_toDigits (by decide) (by decide) hc,
    Nat.ofDigitChars_ten_toDigits⟩

/-- The digits of a number have no zero in front but those of zero. -/
theorem head?_toDigits {n : ℕ} (h : 0 < n) : (Nat.toDigits 10 n).head? ≠ some '0' := by
  induction n using Nat.strongRecOn with
  | ind n ih =>
      by_cases hlt : n < 10
      · rw [Nat.toDigits_of_lt_base hlt]
        intro hzero
        have hchar := congrArg Char.toNat (Option.some.inj hzero)
        rw [Nat.toNat_digitChar_of_lt_ten hlt] at hchar
        have : '0'.toNat = 48 := rfl
        omega
      · rw [Nat.toDigits_of_base_le (by decide) (Nat.le_of_not_lt hlt), List.head?_append_of_ne_nil]
        · exact ih (n / 10) (by omega) (by omega)
        · exact Nat.toDigits_ne_nil

theorem toDigits_ofDigitChars_iff {digits : List Char} (hne : digits ≠ [])
    (hdigits : ∀ c ∈ digits, c.isDigit = true) :
    Nat.toDigits 10 (Nat.ofDigitChars 10 digits 0) = digits ↔
      ∀ c rest, digits ≠ '0' :: c :: rest := by
  refine ⟨fun h c rest heq => ?_, toDigits_ofDigitChars hne hdigits⟩
  rcases Nat.eq_zero_or_pos (Nat.ofDigitChars 10 digits 0) with hzero | hpos
  · rw [hzero, Nat.toDigits_zero, heq] at h
    exact absurd h (by simp)
  · have hhead := head?_toDigits hpos
    rw [h, heq] at hhead
    exact hhead rfl

/-- Digits that start with a zero but are not zero have another one behind it. -/
theorem ofDigitChars_pos_of_zero {digits : List Char}
    (hpos : 0 < Nat.ofDigitChars 10 digits 0) (hhead : digits.head? = some '0') :
    ∃ c rest, digits = '0' :: c :: rest := by
  rcases digits with _ | ⟨d, _ | ⟨c, rest⟩⟩
  · exact absurd hhead (by simp)
  · rw [List.head?_cons, Option.some.injEq] at hhead
    rw [hhead] at hpos
    exact absurd hpos (by decide)
  · rw [List.head?_cons, Option.some.injEq] at hhead
    exact ⟨c, rest, by rw [hhead]⟩

end Digits

section Spelling

theorem paddedSpelling_minus (digits : List Char) :
    paddedSpelling ('-' :: digits) = true ↔ digits.head? = some '0' := by
  rcases digits with _ | ⟨c, rest⟩
  · simp [paddedSpelling]
  · by_cases hc : c = '0'
    · subst hc
      simp [paddedSpelling]
    · have hfalse : paddedSpelling ('-' :: c :: rest) = false := by
        unfold paddedSpelling
        split
        · next heq => exact absurd (List.cons.inj heq).1 (by decide)
        · next heq => exact absurd (List.cons.inj (List.cons.inj heq).2).1 hc
        · next heq => exact absurd (List.cons.inj heq).1 (by decide)
        · rfl
      rw [hfalse, List.head?_cons, Option.some.injEq]
      exact ⟨fun h => absurd h (by simp), fun h => absurd h hc⟩

theorem paddedSpelling_digits {l : List Char} (h : ∀ c ∈ l, c.isDigit = true) :
    paddedSpelling l = true ↔ ∃ c rest, l = '0' :: c :: rest := by
  unfold paddedSpelling
  split
  · exact absurd (h '+' List.mem_cons_self) (by decide)
  · exact absurd (h '-' List.mem_cons_self) (by decide)
  · next c rest => exact ⟨fun _ => ⟨c, rest, rfl⟩, fun _ => rfl⟩
  · next hnot =>
    exact ⟨fun hfalse => absurd hfalse (by simp), fun ⟨c, rest, heq⟩ => absurd heq (hnot c rest)⟩

theorem parseI64_of_digits {s : String} {digits : List Char} (hs : s.toList = digits)
    (hdigit : ∀ c ∈ digits, c.isDigit = true) :
    parseI64 s = (digitsValue digits).bind fun n =>
      if n < i64Bound then some (n : ℤ) else none := by
  rw [parseI64, hs]
  split
  · exact absurd (hdigit '-' List.mem_cons_self) (by decide)
  · exact absurd (hdigit '+' List.mem_cons_self) (by decide)
  · rfl

/-- A signed number is read back from its decimal text. -/
theorem parseI64_decimalText (n : ℤ) : parseI64 (decimalText n) =
    if -(i64Bound : ℤ) ≤ n ∧ n < i64Bound then some n else none := by
  cases n with
  | ofNat n =>
      have htext : (decimalText (Int.ofNat n)).toList = Nat.toDigits 10 n := String.toList_ofList
      rw [parseI64_of_digits htext
        (fun _ hc => Nat.isDigit_of_mem_toDigits (by decide) (by decide) hc), digitsValue_toDigits,
        Option.bind_some]
      have hcast : Int.ofNat n = (n : ℤ) := rfl
      by_cases h : n < i64Bound
      · rw [if_pos h, if_pos ⟨by omega, by omega⟩]
        rfl
      · rw [if_neg h, if_neg (fun h' => h (by omega))]
  | negSucc n =>
      rw [parseI64, decimalText, String.toList_ofList]
      simp only []
      rw [digitsValue_toDigits, Option.bind_some]
      by_cases h : n + 1 ≤ i64Bound
      · rw [if_pos h, if_pos ⟨by omega, by omega⟩]
        rfl
      · rw [if_neg h, if_neg (fun h' => h (by omega))]

/-- The spellings of numbers that are not padded are their decimal texts. -/
theorem decimalText_parseI64 {s : String} {n : ℤ} (h : parseI64 s = some n) :
    decimalText n = s ↔ paddedSpelling s.toList = false := by
  have hlist : decimalText n = s ↔ (decimalText n).toList = s.toList := String.toList_inj.symm
  rw [hlist]
  rw [parseI64] at h
  split at h
  · next digits hs =>
    rcases Option.bind_eq_some_iff.mp h with ⟨m, hm, hn⟩
    rcases digitsValue_eq_some.mp hm with ⟨hne, hdigit, hvalue⟩
    have hnm : n = -(m : ℤ) := by
      split at hn
      · exact (Option.some.inj hn).symm
      · exact absurd hn (by simp)
    rw [hs, hnm]
    rcases m with _ | k
    · -- Minus zero, in any length.
      have hhead : digits.head? = some '0' := by
        by_contra hnot
        have hsame := (toDigits_ofDigitChars_iff hne hdigit).mpr
          (fun c rest heq => hnot (by rw [heq]; rfl))
        rw [hvalue, Nat.toDigits_zero] at hsame
        exact hnot (by rw [← hsame]; rfl)
      rw [(paddedSpelling_minus digits).mpr hhead]
      exact ⟨fun heq => absurd heq (by simp [decimalText]), fun heq => absurd heq (by simp)⟩
    · have htext : (decimalText (-((k + 1 : ℕ) : ℤ))).toList = '-' :: Nat.toDigits 10 (k + 1) := by
        show (decimalText (Int.negSucc k)).toList = _
        rw [decimalText, String.toList_ofList]
      rw [htext, List.cons_inj_right, ← hvalue, toDigits_ofDigitChars_iff hne hdigit,
        ← Bool.not_eq_true, paddedSpelling_minus]
      constructor
      · intro hzero hhead
        rcases ofDigitChars_pos_of_zero (hvalue ▸ Nat.succ_pos k) hhead with ⟨c, rest, heq⟩
        exact hzero c rest heq
      · intro hhead c rest heq
        exact hhead (by rw [heq]; rfl)
  · next digits hs =>
    rcases Option.bind_eq_some_iff.mp h with ⟨m, hm, hn⟩
    have hnm : n = (m : ℤ) := by
      split at hn
      · exact (Option.some.inj hn).symm
      · exact absurd hn (by simp)
    rw [hs, hnm]
    refine ⟨fun heq => ?_, fun hfalse => absurd hfalse (by simp [paddedSpelling])⟩
    have hplus : '+' ∈ Nat.toDigits 10 m := by
      have htext : (decimalText (m : ℤ)).toList = Nat.toDigits 10 m := String.toList_ofList
      rw [← htext, heq]
      exact List.mem_cons_self
    exact absurd (Nat.isDigit_of_mem_toDigits (by decide) (by decide) hplus) (by decide)
  · next hminus hplus =>
    rcases Option.bind_eq_some_iff.mp h with ⟨m, hm, hn⟩
    rcases digitsValue_eq_some.mp hm with ⟨hne, hdigit, hvalue⟩
    have hnm : n = (m : ℤ) := by
      split at hn
      · exact (Option.some.inj hn).symm
      · exact absurd hn (by simp)
    have htext : (decimalText (m : ℤ)).toList = Nat.toDigits 10 m := String.toList_ofList
    rw [hnm, htext, ← hvalue, toDigits_ofDigitChars_iff hne hdigit, ← Bool.not_eq_true,
      paddedSpelling_digits hdigit]
    constructor
    · rintro hzero ⟨c, rest, heq⟩
      exact hzero c rest heq
    · exact fun hnot c rest heq => hnot ⟨c, rest, heq⟩

end Spelling

namespace NoteId

/-- The readings of a number: signed, or beyond the signed range. -/
theorem deserialize_number {n : ℤ} (hlow : -(i64Bound : ℤ) ≤ n) (hhigh : n < u64Bound) :
    deserialize (.number n) = .ok ⟨decimalText n, decimalText_ne_empty n⟩ := by
  cases n with
  | ofNat n =>
      have hcast : Int.ofNat n = (n : ℤ) := rfl
      rw [deserialize, if_pos (by omega)]
      rfl
  | negSucc n =>
      rw [deserialize, if_pos (by omega)]
      rfl

theorem parseI64_range {s : String} {n : ℤ} (h : parseI64 s = some n) :
    -(i64Bound : ℤ) ≤ n ∧ n < i64Bound := by
  have hone : ∀ {digits : List Char}, ((digitsValue digits).bind fun m =>
      if m < i64Bound then some (m : ℤ) else none) = some n →
        -(i64Bound : ℤ) ≤ n ∧ n < i64Bound := by
    intro digits hm
    rcases Option.bind_eq_some_iff.mp hm with ⟨m, _, hm⟩
    split at hm
    · next hlt =>
      rw [← Option.some.inj hm]
      exact ⟨by omega, by exact_mod_cast hlt⟩
    · exact absurd hm (by simp)
  rw [parseI64] at h
  split at h
  · rcases Option.bind_eq_some_iff.mp h with ⟨m, _, hm⟩
    split at hm
    · next hle =>
      rw [← Option.some.inj hm]
      have hpos : 0 < i64Bound := by decide
      exact ⟨by omega, by omega⟩
    · exact absurd hm (by simp)
  · exact hone h
  · exact hone h

/-- What comes back of an id. -/
theorem deserialize_serialize (id : NoteId) : deserialize id.serialize =
    .ok (match id.asI64 with
      | some n => fromI64 n
      | none => id) := by
  rw [serialize]
  rcases h : id.asI64 with _ | n
  · simp only [deserialize, fromStr, dif_neg id.ne_empty]
  · have hrange := parseI64_range h
    have hbounds : i64Bound < u64Bound := by decide
    exact deserialize_number hrange.1 (by omega)

/-- An id survives JSON if it does not read as a number or is spelled as the number is;
    and every id that was a number on the wire survives. -/
theorem noteIdLaw (s : String) (wire : ℤ) :
    (∀ id, fromStr s = .ok id → (deserialize id.serialize = .ok id ↔
      parseI64 s = none ∨ paddedSpelling s.toList = false)) ∧
    (∀ id, deserialize (.number wire) = .ok id → deserialize id.serialize = .ok id) := by
  constructor
  · intro id hid
    have htoken : id.token = s := by
      rw [fromStr] at hid
      split at hid
      · exact absurd hid (by simp)
      · rw [← Except.ok.inj hid]
    rw [deserialize_serialize, Except.ok.injEq, asI64, htoken]
    rcases h : parseI64 s with _ | n
    · simp
    · simp only [reduceCtorEq, false_or]
      rw [← decimalText_parseI64 h, NoteId.ext_iff, htoken]
      rfl
  · intro id hid
    have htoken : id.token = decimalText wire ∧ (-(i64Bound : ℤ) ≤ wire) := by
      cases wire with
      | ofNat n =>
          rw [deserialize] at hid
          split at hid
          · rw [← Except.ok.inj hid]
            have hcast : Int.ofNat n = (n : ℤ) := rfl
            exact ⟨rfl, by omega⟩
          · exact absurd hid (by simp)
      | negSucc n =>
          rw [deserialize] at hid
          split at hid
          · rw [← Except.ok.inj hid]
            exact ⟨rfl, by omega⟩
          · exact absurd hid (by simp)
    rw [deserialize_serialize, Except.ok.injEq, asI64, htoken.1, parseI64_decimalText]
    split
    · next heq =>
      split at heq
      · rw [NoteId.ext_iff, htoken.1, ← Option.some.inj heq]
        rfl
      · exact absurd heq (by simp)
    · rfl

/-- Minus seven survives as it is spelled, and so does the greatest unsigned number. -/
theorem noteIdLaw_edges :
    deserialize (serialize ⟨"-7", by decide⟩) = .ok ⟨"-7", by decide⟩ ∧
    deserialize (serialize ⟨"18446744073709551615", by decide⟩)
      = .ok ⟨"18446744073709551615", by decide⟩ :=
  ⟨((noteIdLaw "-7" 0).1 ⟨"-7", by decide⟩ (by decide)).mpr (Or.inr (by decide)),
    (noteIdLaw "-7" 18446744073709551615).2 ⟨"18446744073709551615", by decide⟩ (by decide +kernel)⟩

/-- An id with zeros in front comes back as another one. -/
theorem noteId_zeroInFront :
    ∃ id, fromStr "007" = .ok id ∧ deserialize id.serialize ≠ .ok id :=
  ⟨⟨"007", by decide⟩, by decide, by decide⟩

end NoteId

end Spelunk
