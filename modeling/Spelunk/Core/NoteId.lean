import Mathlib.Algebra.GroupWithZero.Nat
import Mathlib.Data.List.Basic

/-!
# Note Ids

The id of a memory entry as its backend gave it out: a text that is not empty. Only the
backends that number their rows read a number in it. In JSON an id that reads as a signed
64-bit number is a number, so that scripts find the `"id": 42` they always found, and any
other id is a string; a reader takes both.

JSON has one kind of number. The reader hands an integer that is not negative to
`visit_u64`, a negative one to `visit_i64`, and refuses one that fits neither.

## Main definitions

* `parseI64`: A signed number, as the standard library reads it.
* `NoteId`, `NoteId.fromStr`, `NoteId.fromI64`: Ids and how they are made.
* `NoteId.serialize`, `NoteId.deserialize`: To JSON and back.
-/

namespace Spelunk

/-- The number of a run of decimal digits. -/
def digitsValue (digits : List Char) : Option ℕ :=
  if digits = [] ∨ ¬ digits.all Char.isDigit then none else some (Nat.ofDigitChars 10 digits 0)

def i64Bound : ℕ := 2 ^ 63

def u64Bound : ℕ := 2 ^ 64

/-- `str::parse::<i64>`: a sign may stand in front, of either kind. -/
def parseI64 (s : String) : Option ℤ :=
  match s.toList with
  | '-' :: digits =>
      (digitsValue digits).bind fun n => if n ≤ i64Bound then some (-(n : ℤ)) else none
  | '+' :: digits =>
      (digitsValue digits).bind fun n => if n < i64Bound then some (n : ℤ) else none
  | digits =>
      (digitsValue digits).bind fun n => if n < i64Bound then some (n : ℤ) else none

/-- A signed number in decimal. -/
def decimalText : ℤ → String
  | .ofNat n => String.ofList (Nat.toDigits 10 n)
  | .negSucc n => String.ofList ('-' :: Nat.toDigits 10 (n + 1))

/-- An id: a text that is not empty. -/
@[ext] structure NoteId where
  token : String
  ne_empty : token ≠ ""
deriving DecidableEq

/-- An id in JSON. -/
inductive NoteIdJson where
  | number (n : ℤ)
  | string (s : String)
deriving DecidableEq, Repr

theorem decimalText_ne_empty (n : ℤ) : decimalText n ≠ "" := by
  intro h
  have hnil : (decimalText n).toList = [] := by rw [h]; rfl
  cases n with
  | ofNat n =>
      rw [decimalText, String.toList_ofList] at hnil
      exact Nat.toDigits_ne_nil hnil
  | negSucc n =>
      rw [decimalText, String.toList_ofList] at hnil
      exact absurd hnil (List.cons_ne_nil _ _)

namespace NoteId

def fromI64 (id : ℤ) : NoteId := ⟨decimalText id, decimalText_ne_empty id⟩

/-- The number the id reads as, if it reads as one. -/
def asI64 (id : NoteId) : Option ℤ := parseI64 id.token

/-- Every text but the empty one is an id. -/
def fromStr (s : String) : Except String NoteId :=
  if h : s = "" then .error "memory entry id must not be empty" else .ok ⟨s, h⟩

def serialize (id : NoteId) : NoteIdJson :=
  match id.asI64 with
  | some n => .number n
  | none => .string id.token

def visitI64 (v : ℤ) : NoteId := fromI64 v

def visitU64 (v : ℕ) : NoteId := ⟨decimalText v, decimalText_ne_empty v⟩

def deserialize : NoteIdJson → Except String NoteId
  | .number (.ofNat n) =>
      if n < u64Bound then .ok (visitU64 n)
      else .error "invalid type: floating point, expected a memory entry id (integer or string)"
  | .number (.negSucc n) =>
      if n < i64Bound then .ok (visitI64 (.negSucc n))
      else .error "invalid type: floating point, expected a memory entry id (integer or string)"
  | .string s => fromStr s

end NoteId

end Spelunk
