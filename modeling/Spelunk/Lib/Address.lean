import Mathlib.Algebra.GroupWithZero.Nat
import Mathlib.Data.List.Infix
import Mathlib.Data.List.TakeWhile
import Mathlib.Tactic.Common
import Spelunk.Lib.Split

/-!
# Addresses in Texts

Two readers of address literals. The strict one is that of a standard library: a dotted quad has
four numbers without a needless zero, and an IPv6 literal has eight groups, or fewer around one
`::`, the last two of which may be a dotted quad. The lenient one is that of the URL standard,
which reads an IPv6 literal character by character, and numbers in three bases. What the strict
reader takes, the lenient one takes for the same address.

## Main definitions

* `parseIpv4`, `parseIpv6`: The strict readers.
* `ipv4Parser`, `ipv6Parser`: The readers of the URL standard.

## Theorems

* `ipv6Parser_of_parseIpv6`: The readers agree on an IPv6 literal.
* `ipv4Parser_of_parseIpv4`: The readers agree on a dotted quad.
* `ipv6Parser_of_notMem_colon`: A text without a colon is no IPv6 literal.
* `ipv6Parser_of_mem_bracket`: A text with a bracket is none.
-/

namespace Spelunk.Lib

/-- The value of a digit, in any base up to sixteen. -/
def digitValue (c : Char) : ℕ :=
  if c.isDigit then c.toNat - '0'.toNat
  else if 'a' ≤ c ∧ c ≤ 'f' then c.toNat - 'a'.toNat + 10
  else if 'A' ≤ c ∧ c ≤ 'F' then c.toNat - 'A'.toNat + 10
  else 0

def isHexDigit (c : Char) : Bool := c.isDigit || ('a' ≤ c && c ≤ 'f') || ('A' ≤ c && c ≤ 'F')

/-- The number that digits write, behind a number already read. -/
def numberFrom (base : ℕ) (n : ℕ) (t : List Char) : ℕ :=
  t.foldl (fun n c => n * base + digitValue c) n

/-! ### The strict readers -/

/-- A number of a dotted quad: up to three digits, no needless zero in front, at most 255. -/
def octet (t : List Char) : Option ℕ :=
  if t ≠ [] ∧ t.length ≤ 3 ∧ t.all Char.isDigit ∧ (t.head? = some '0' → t.length = 1) ∧
      numberFrom 10 0 t ≤ 255 then some (numberFrom 10 0 t)
  else none

/-- `Ipv4Addr::from_str`. -/
def parseIpv4 (t : List Char) : Option (ℕ × ℕ × ℕ × ℕ) :=
  match t.splitOn '.' with
  | [a, b, c, d] => do return (← octet a, ← octet b, ← octet c, ← octet d)
  | _ => none

/-- A group of an IPv6 literal: up to four hexadecimal digits. -/
def hexGroup (t : List Char) : Option ℕ :=
  if t ≠ [] ∧ t.length ≤ 4 ∧ t.all isHexDigit then some (numberFrom 16 0 t) else none

/-- The two groups that a dotted quad stands for. -/
def quadGroups (q : ℕ × ℕ × ℕ × ℕ) : List ℕ :=
  [q.1 * 256 + q.2.1, q.2.2.1 * 256 + q.2.2.2]

/-- The last group of a literal, which may be a dotted quad. -/
def lastGroup (t : List Char) : Option (List ℕ) :=
  match hexGroup t with
  | some v => some [v]
  | none => (parseIpv4 t).map quadGroups

/-- The groups at the end of a literal. -/
def lastGroups : List (List Char) → Option (List ℕ)
  | [] => some []
  | t :: ts => if ts = [] then lastGroup t else do return (← hexGroup t) :: (← lastGroups ts)

/-- The text of a side of `::`, split into groups. -/
def side (t : List Char) : List (List Char) := if t = [] then [] else t.splitOn ':'

/-- What stands before and after the first `::`. -/
def cutDouble : List Char → Option (List Char × List Char)
  | [] => none
  | c :: rest =>
    if c = ':' ∧ rest.head? = some ':' then some ([], rest.tail)
    else (cutDouble rest).map fun p => (c :: p.1, p.2)

/-- `Ipv6Addr::from_str`: the eight groups. A `::` stands for one group of zeros at least, and a
    dotted quad is at the end only. -/
def parseIpv6 (t : List Char) : Option (List ℕ) :=
  match cutDouble t with
  | none => (lastGroups (side t)).bind fun groups =>
      if groups.length = 8 then some groups else none
  | some (front, back) =>
      ((side front).mapM hexGroup).bind fun before => (lastGroups (side back)).bind fun after =>
        if before.length + after.length ≤ 7 then
          some (before ++ List.replicate (8 - before.length - after.length) 0 ++ after)
        else none

/-! ### The readers of the URL standard -/

/-- The number of an embedded dotted quad, digit by digit: none is read yet, or this one. -/
def embeddedNumber : Option ℕ → List Char → Option ℕ
  | piece, [] => piece
  | none, c :: t => if c.isDigit then embeddedNumber (some (digitValue c)) t else none
  | some n, c :: t =>
    if c.isDigit ∧ n ≠ 0 ∧ n * 10 + digitValue c ≤ 255 then
      embeddedNumber (some (n * 10 + digitValue c)) t
    else none

/-- The dotted quad at the end of an IPv6 literal. -/
def embeddedQuad (t : List Char) : Option (List ℕ) :=
  match t.splitOn '.' with
  | [a, b, c, d] => do
      return quadGroups (← embeddedNumber none a, ← embeddedNumber none b,
        ← embeddedNumber none c, ← embeddedNumber none d)
  | _ => none

/-- The loop over an IPv6 literal: the input left, the pieces so far, and where `::` stands. -/
def ipv6Loop : ℕ → List Char → List ℕ → Option ℕ → Option (List ℕ × Option ℕ)
  | 0, _, _, _ => none
  | fuel + 1, input, pieces, compress =>
    match input with
    | [] => some (pieces, compress)
    | c :: rest =>
      if pieces.length = 8 then none
      else if c = ':' then
        if compress.isSome then none
        else ipv6Loop fuel rest (pieces ++ [0]) (some (pieces.length + 1))
      else
        let digits := ((c :: rest).take 4).takeWhile isHexDigit
        match (c :: rest).drop digits.length with
        | [] => some (pieces ++ [numberFrom 16 0 digits], compress)
        | x :: next =>
          if x = '.' then
            if digits = [] ∨ 6 < pieces.length then none
            else (embeddedQuad (c :: rest)).map fun q => (pieces ++ q, compress)
          else if x = ':' then
            if next = [] then none
            else ipv6Loop fuel next (pieces ++ [numberFrom 16 0 digits]) compress
          else none

/-- The pieces behind `::` are moved to the end of the address; without it there are eight. -/
def expandPieces (pieces : List ℕ) : Option ℕ → Option (List ℕ)
  | some at_ => some (pieces.take at_ ++ List.replicate (8 - pieces.length) 0 ++ pieces.drop at_)
  | none => if pieces.length = 8 then some pieces else none

/-- The IPv6 parser of the URL standard. -/
def ipv6Parser (t : List Char) : Option (List ℕ) :=
  (if t.head? = some ':' then
    if t.tail.head? = some ':' then ipv6Loop (t.length + 1) t.tail.tail [0] (some 1) else none
  else ipv6Loop (t.length + 1) t [] none).bind fun p => expandPieces p.1 p.2

/-- The IPv4 number parser of the URL standard: decimal, or octal or hexadecimal by its prefix. -/
def ipv4Number (t : List Char) : Option ℕ :=
  if t = [] then none
  else if t.take 2 = ['0', 'x'] ∨ t.take 2 = ['0', 'X'] then
    if (t.drop 2).all isHexDigit then some (numberFrom 16 0 (t.drop 2)) else none
  else if t.head? = some '0' ∧ 2 ≤ t.length then
    if t.tail.all fun c => '0' ≤ c && c ≤ '7' then some (numberFrom 8 0 t.tail) else none
  else if t.all Char.isDigit then some (numberFrom 10 0 t) else none

/-- The parts of a host at its dots, without an empty last one. -/
def dotParts (t : List Char) : List (List Char) :=
  let parts := t.splitOn '.'
  if parts.getLast? = some [] ∧ 1 < parts.length then parts.dropLast else parts

/-- The ends-in-a-number checker. -/
def endsInNumber (t : List Char) : Bool :=
  if (t.splitOn '.').getLast? = some [] ∧ (t.splitOn '.').length = 1 then false
  else
    match (dotParts t).getLast? with
    | none => false
    | some last => (last ≠ [] && last.all Char.isDigit) || (ipv4Number last).isSome

/-- The IPv4 parser of the URL standard: up to four numbers, of which the last fills the rest. -/
def ipv4Parser (t : List Char) : Option ℕ :=
  let parts := dotParts t
  if 4 < parts.length then none
  else (parts.mapM ipv4Number).bind fun numbers =>
    if numbers.dropLast.any fun n => 255 < n then none
    else if 256 ^ (5 - numbers.length) ≤ numbers.getLastD 0 then none
    else some (numbers.getLastD 0 +
      ((numbers.dropLast.zipIdx).map fun p => p.1 * 256 ^ (3 - p.2)).sum)

/-! ### Numbers and quads -/

section Agreement

variable {t : List Char} {n : ℕ}

theorem le_numberFrom {base : ℕ} (hbase : 1 ≤ base) (n : ℕ) (t : List Char) :
    n ≤ numberFrom base n t := by
  induction t generalizing n with
  | nil => exact Nat.le_refl n
  | cons c t ih =>
    calc n ≤ n * base := Nat.le_mul_of_pos_right n hbase
      _ ≤ n * base + digitValue c := Nat.le_add_right _ _
      _ ≤ _ := ih _

theorem embeddedNumber_digits (hn : n ≠ 0) (hd : t.all Char.isDigit)
    (hle : numberFrom 10 n t ≤ 255) : embeddedNumber (some n) t = some (numberFrom 10 n t) := by
  induction t generalizing n with
  | nil => rfl
  | cons c t ih =>
    rw [List.all_cons, Bool.and_eq_true] at hd
    have hnext : n * 10 + digitValue c ≤ 255 := (le_numberFrom (by decide) _ t).trans hle
    rw [embeddedNumber, if_pos ⟨hd.1, hn, hnext⟩]
    exact ih (by omega) hd.2 hle

/-- What an octet is. -/
theorem octet_eq_some (h : octet t = some n) :
    t ≠ [] ∧ t.length ≤ 3 ∧ t.all Char.isDigit ∧ (t.head? = some '0' → t.length = 1) ∧
      n ≤ 255 ∧ n = numberFrom 10 0 t := by
  unfold octet at h
  split at h
  · next hc =>
    cases h
    exact ⟨hc.1, hc.2.1, hc.2.2.1, hc.2.2.2.1, hc.2.2.2.2, rfl⟩
  · cases h

theorem embeddedNumber_of_octet (h : octet t = some n) : embeddedNumber none t = some n := by
  obtain ⟨hne, -, hd, hzero, hle, rfl⟩ := octet_eq_some h
  rcases t with _ | ⟨c, t⟩
  · exact absurd rfl hne
  rw [List.all_cons, Bool.and_eq_true] at hd
  rw [embeddedNumber, if_pos hd.1]
  have hfrom : numberFrom 10 0 (c :: t) = numberFrom 10 (digitValue c) t := by
    rw [numberFrom, List.foldl_cons, Nat.zero_mul, Nat.zero_add, numberFrom]
  rw [hfrom] at hle ⊢
  by_cases hc : c = '0'
  · have hlen := hzero (by rw [hc, List.head?_cons])
    rw [List.length_cons, Nat.succ.injEq, List.length_eq_zero_iff] at hlen
    rw [hlen]
    rfl
  · refine embeddedNumber_digits (fun h0 => hc ?_) hd.2 hle
    rw [digitValue, if_pos hd.1] at h0
    have hge : '0'.toNat ≤ c.toNat := by
      have := (Char.isDigit_iff_toNat.1 hd.1).1
      exact this
    exact Char.toNat_inj.1 (Nat.le_antisymm (Nat.sub_eq_zero_iff_le.1 h0) hge)

/-- The numbers of a dotted quad. -/
theorem exists_octets {q : ℕ × ℕ × ℕ × ℕ} (h : parseIpv4 t = some q) :
    ∃ a b c d, t.splitOn '.' = [a, b, c, d] ∧ octet a = some q.1 ∧ octet b = some q.2.1 ∧
      octet c = some q.2.2.1 ∧ octet d = some q.2.2.2 := by
  unfold parseIpv4 at h
  split at h
  · next a b c d hs =>
    rcases ha : octet a with _ | na
    · simp [ha] at h
    rcases hb : octet b with _ | nb
    · simp [ha, hb] at h
    rcases hc : octet c with _ | nc
    · simp [ha, hb, hc] at h
    rcases hd : octet d with _ | nd
    · simp [ha, hb, hc, hd] at h
    simp only [ha, hb, hc, hd, Option.pure_def, Option.bind_eq_bind, Option.bind_some,
      Option.some.injEq] at h
    subst h
    exact ⟨a, b, c, d, hs, ha, hb, hc, hd⟩
  · cases h

theorem embeddedQuad_of_parseIpv4 {q : ℕ × ℕ × ℕ × ℕ} (h : parseIpv4 t = some q) :
    embeddedQuad t = some (quadGroups q) := by
  obtain ⟨a, b, c, d, hs, ha, hb, hc, hd⟩ := exists_octets h
  rw [embeddedQuad, hs]
  simp only [embeddedNumber_of_octet ha, embeddedNumber_of_octet hb, embeddedNumber_of_octet hc,
    embeddedNumber_of_octet hd, Option.pure_def, Option.bind_eq_bind, Option.bind_some]

/-- The number of the URL standard. -/
theorem ipv4Number_of_octet (h : octet t = some n) : ipv4Number t = some n := by
  obtain ⟨hne, -, hd, hzero, -, rfl⟩ := octet_eq_some h
  have hx : ∀ x : Char, x.isDigit = false → t.take 2 ≠ ['0', x] := by
    intro x hx htake
    have hmem : x ∈ t := List.mem_of_mem_take (htake ▸ List.mem_cons_of_mem _ List.mem_cons_self)
    rw [List.all_eq_true.1 hd x hmem] at hx
    cases hx
  rw [ipv4Number, if_neg hne, if_neg, if_neg, if_pos hd]
  · rintro ⟨h0, h2⟩
    have := hzero h0
    omega
  · rintro (h | h)
    · exact hx 'x' (by decide) h
    · exact hx 'X' (by decide) h

/-- A dotted quad is the address of its four numbers. -/
theorem ipv4Parser_of_parseIpv4 {a b c d : ℕ} (h : parseIpv4 t = some (a, b, c, d)) :
    endsInNumber t = true ∧ ipv4Parser t = some (d + (a * 256 ^ 3 + b * 256 ^ 2 + c * 256)) := by
  obtain ⟨ta, tb, tc, td, hs, ha, hb, hc, hd⟩ := exists_octets h
  have hdne : td ≠ [] := (octet_eq_some hd).1
  have hparts : dotParts t = [ta, tb, tc, td] := by
    rw [dotParts, hs]
    exact if_neg fun hlast => hdne (Option.some.inj hlast.1)
  constructor
  · have hlast : [ta, tb, tc, td].getLast? = some td := rfl
    rw [endsInNumber, hs, if_neg (fun hone => Nat.succ_succ_ne_one _ hone.2), hparts, hlast]
    refine Bool.or_eq_true_iff.2 (.inr ?_)
    rw [ipv4Number_of_octet hd]
    rfl
  · have hmap : ([ta, tb, tc, td].mapM ipv4Number) = some [a, b, c, d] := by
      simp only [List.mapM_cons, List.mapM_nil, ipv4Number_of_octet ha, ipv4Number_of_octet hb,
        ipv4Number_of_octet hc, ipv4Number_of_octet hd, Option.pure_def, Option.bind_eq_bind,
        Option.bind_some]
    have hle := fun {s m} (h : octet s = some m) => (octet_eq_some h).2.2.2.2.1
    rw [ipv4Parser, hparts, if_neg (show ¬4 < [ta, tb, tc, td].length by simp), hmap,
      Option.bind_some]
    have ha := hle ha
    have hb := hle hb
    have hc := hle hc
    have hd := hle hd
    dsimp only at ha hb hc hd
    rw [if_neg (by simp; omega), if_neg (by simp; omega)]
    simp
    omega

/-! ### The loop over an IPv6 literal -/

variable {pieces groups : List ℕ} {compress : Option ℕ} {fuel v : ℕ}

theorem isHexDigit_colon : isHexDigit ':' = false := by decide

theorem isHexDigit_dot : isHexDigit '.' = false := by decide

theorem hexGroup_eq_some (h : hexGroup t = some v) :
    t ≠ [] ∧ t.length ≤ 4 ∧ t.all isHexDigit ∧ v = numberFrom 16 0 t := by
  unfold hexGroup at h
  split at h
  · next hc =>
    cases h
    exact ⟨hc.1, hc.2.1, hc.2.2, rfl⟩
  · cases h

/-- The digits that the loop reads at a group: all of it. -/
theorem takeWhile_hex (hlen : t.length ≤ 4) (hhex : t.all isHexDigit) (rest : List Char)
    (hrest : ∀ x, rest.head? = some x → isHexDigit x = false) :
    ((t ++ rest).take 4).takeWhile isHexDigit = t := by
  rw [List.take_append, List.take_of_length_le hlen,
    List.takeWhile_append_of_pos (fun c hc => List.all_eq_true.1 hhex c hc)]
  rcases rest with _ | ⟨x, rest⟩
  · rw [List.take_nil, List.takeWhile_nil, List.append_nil]
  · rcases 4 - t.length with _ | k
    · rw [List.take_zero, List.takeWhile_nil, List.append_nil]
    · rw [List.take_succ_cons, List.takeWhile_cons_of_neg (by simp [hrest x rfl]),
        List.append_nil]

/-- A group and a colon behind it. -/
theorem ipv6Loop_group (h : hexGroup t = some v) (hp : pieces.length < 8) {next : List Char}
    (hne : next ≠ []) :
    ipv6Loop (fuel + 1) (t ++ ':' :: next) pieces compress =
      ipv6Loop fuel next (pieces ++ [v]) compress := by
  obtain ⟨htne, hlen, hhex, rfl⟩ := hexGroup_eq_some h
  have htake := takeWhile_hex hlen hhex (':' :: next) (by
    rintro x ⟨⟩
    exact isHexDigit_colon)
  have hdrop : (t ++ ':' :: next).drop t.length = ':' :: next := List.drop_left
  rcases t with _ | ⟨c, t⟩
  · exact absurd rfl htne
  have hc : c ≠ ':' := by
    rintro rfl
    exact absurd (List.all_eq_true.1 hhex ':' List.mem_cons_self) (by decide)
  rw [List.cons_append] at htake hdrop ⊢
  rw [ipv6Loop]
  simp only [if_neg hp.ne, if_neg hc, htake, hdrop]
  rw [if_neg (by decide), if_pos trivial, if_neg hne]

/-- A group at the end of the input. -/
theorem ipv6Loop_lastHex (h : hexGroup t = some v) (hp : pieces.length < 8) :
    ipv6Loop (fuel + 1) t pieces compress = some (pieces ++ [v], compress) := by
  obtain ⟨htne, hlen, hhex, rfl⟩ := hexGroup_eq_some h
  have htake := takeWhile_hex hlen hhex [] (by rintro x ⟨⟩)
  rw [List.append_nil] at htake
  rcases t with _ | ⟨c, t⟩
  · exact absurd rfl htne
  have hc : c ≠ ':' := by
    rintro rfl
    exact absurd (List.all_eq_true.1 hhex ':' List.mem_cons_self) (by decide)
  rw [ipv6Loop]
  simp only [if_neg hp.ne, if_neg hc, htake, List.drop_length]

/-- What a dotted quad starts with. -/
theorem exists_first_octet {q : ℕ × ℕ × ℕ × ℕ} (h : parseIpv4 t = some q) :
    ∃ a rest, t = a ++ '.' :: rest ∧ a ≠ [] ∧ a.length ≤ 3 ∧ a.all Char.isDigit := by
  obtain ⟨a, b, c, d, hs, ha, -, -, -⟩ := exists_octets h
  obtain ⟨hne, hlen, hd, -, -, -⟩ := octet_eq_some ha
  refine ⟨a, ['.'].intercalate [b, c, d], ?_, hne, hlen, hd⟩
  have hjoin : ['.'].intercalate (t.splitOn '.') = t := List.intercalate_splitOn '.'
  rw [← hjoin, hs, List.intercalate_cons_cons, List.append_assoc, List.singleton_append]

/-- A dotted quad at the end of the input. -/
theorem ipv6Loop_lastQuad {q : ℕ × ℕ × ℕ × ℕ} (h : parseIpv4 t = some q)
    (hp : pieces.length ≤ 6) :
    ipv6Loop (fuel + 1) t pieces compress = some (pieces ++ quadGroups q, compress) := by
  obtain ⟨a, rest, rfl, hne, hlen, hd⟩ := exists_first_octet h
  have hhex : a.all isHexDigit := List.all_eq_true.2 fun c hc => by
    rw [isHexDigit, List.all_eq_true.1 hd c hc, Bool.true_or, Bool.true_or]
  have htake := takeWhile_hex (hlen.trans (by decide)) hhex ('.' :: rest) (by
    rintro x ⟨⟩
    exact isHexDigit_dot)
  have hdrop : (a ++ '.' :: rest).drop a.length = '.' :: rest := List.drop_left
  have hquad := embeddedQuad_of_parseIpv4 h
  rcases a with _ | ⟨c, a⟩
  · exact absurd rfl hne
  have hc : c ≠ ':' := by
    rintro rfl
    exact absurd (List.all_eq_true.1 hhex ':' List.mem_cons_self) (by decide)
  rw [List.cons_append] at htake hdrop hquad ⊢
  rw [ipv6Loop]
  simp only [if_neg (show ¬pieces.length = 8 by omega), if_neg hc, htake, hdrop]
  rw [if_pos trivial, if_neg (by simpa using hp), hquad, Option.map_some]

/-- The last group. -/
theorem ipv6Loop_last (h : lastGroup t = some groups) (hp : pieces.length + groups.length ≤ 8) :
    ipv6Loop (fuel + 1) t pieces compress = some (pieces ++ groups, compress) := by
  unfold lastGroup at h
  split at h
  · next v hv =>
    cases h
    exact ipv6Loop_lastHex hv (Nat.lt_of_succ_le hp)
  · obtain ⟨q, hq, rfl⟩ := Option.map_eq_some_iff.1 h
    exact ipv6Loop_lastQuad hq (by simpa [quadGroups] using hp)

theorem ne_nil_of_lastGroup (h : lastGroup t = some groups) : t ≠ [] := by
  rintro rfl
  have hnone : lastGroup [] = none := by decide
  rw [hnone] at h
  cases h

theorem intercalate_ne_nil {p : List Char} (hp : p ≠ []) (ts : List (List Char)) :
    [':'].intercalate (p :: ts) ≠ [] := by
  rcases ts with _ | ⟨q, ts⟩
  · rwa [List.intercalate_singleton]
  · rw [List.intercalate_cons_cons]
    simp [hp]

/-- The first of the last groups is not empty. -/
theorem lastGroups_cons {ts : List (List Char)} (h : lastGroups (t :: ts) = some groups) :
    t ≠ [] := by
  rw [lastGroups] at h
  split at h
  · exact ne_nil_of_lastGroup h
  · rintro rfl
    have hnone : hexGroup [] = none := by decide
    simp [hnone] at h

/-- The groups at the end of the input. -/
theorem ipv6Loop_lastGroups {ts : List (List Char)} (hne : ts ≠ [])
    (h : lastGroups ts = some groups) (hp : pieces.length + groups.length ≤ 8)
    (hfuel : ([':'].intercalate ts).length < fuel) :
    ipv6Loop fuel ([':'].intercalate ts) pieces compress = some (pieces ++ groups, compress) := by
  induction ts generalizing fuel pieces groups with
  | nil => exact absurd rfl hne
  | cons t ts ih =>
    rcases fuel with _ | fuel
    · exact absurd hfuel (Nat.not_lt_zero _)
    rw [lastGroups] at h
    split at h
    · next hts =>
      rw [hts, List.intercalate_singleton]
      exact ipv6Loop_last h hp
    · next hts =>
      rcases hv : hexGroup t with _ | v
      · simp [hv] at h
      rcases hgs : lastGroups ts with _ | gs
      · simp [hv, hgs] at h
      simp only [hv, hgs, Option.pure_def, Option.bind_eq_bind, Option.bind_some,
        Option.some.injEq] at h
      subst h
      rw [List.length_cons] at hp
      obtain ⟨p, ts, rfl⟩ := List.exists_cons_of_ne_nil hts
      rw [List.intercalate_cons_cons, List.append_assoc, List.singleton_append] at hfuel ⊢
      rw [ipv6Loop_group hv (by omega) (intercalate_ne_nil (lastGroups_cons hgs) ts),
        ih hts hgs (by rw [List.length_append, List.length_singleton]; omega) (by
          rw [List.length_append, List.length_cons] at hfuel
          omega), List.append_assoc, List.singleton_append]

/-- The groups in front of `::`. -/
theorem ipv6Loop_front {ts : List (List Char)} {back : List Char} (hne : ts ≠ [])
    (h : ts.mapM hexGroup = some groups) (hp : pieces.length + groups.length ≤ 8)
    (hfuel : ([':'].intercalate ts ++ ':' :: ':' :: back).length < fuel) :
    ∃ fuel', (':' :: back).length < fuel' ∧
      ipv6Loop fuel ([':'].intercalate ts ++ ':' :: ':' :: back) pieces compress =
        ipv6Loop fuel' (':' :: back) (pieces ++ groups) compress := by
  induction ts generalizing fuel pieces groups with
  | nil => exact absurd rfl hne
  | cons t ts ih =>
    rcases fuel with _ | fuel
    · exact absurd hfuel (Nat.not_lt_zero _)
    rw [List.mapM_cons] at h
    rcases hv : hexGroup t with _ | v
    · simp [hv] at h
    rcases hgs : ts.mapM hexGroup with _ | gs
    · simp [hv, hgs] at h
    simp only [hv, hgs, Option.pure_def, Option.bind_eq_bind, Option.bind_some,
      Option.some.injEq] at h
    subst h
    rw [List.length_cons] at hp
    rcases ts with _ | ⟨p, ts⟩
    · rw [List.mapM_nil, Option.pure_def, Option.some.injEq] at hgs
      subst hgs
      rw [List.intercalate_singleton] at hfuel ⊢
      refine ⟨fuel, ?_, ipv6Loop_group hv (by omega) (List.cons_ne_nil _ _)⟩
      rw [List.length_append, List.length_cons] at hfuel
      omega
    · rw [List.intercalate_cons_cons, List.append_assoc, List.append_assoc,
        List.singleton_append] at hfuel ⊢
      rw [ipv6Loop_group hv (by omega) (by simp)]
      have hpieces : (pieces ++ [v]).length + gs.length ≤ 8 := by
        rw [List.length_append, List.length_singleton]
        omega
      have hrest : ([':'].intercalate (p :: ts) ++ ':' :: ':' :: back).length < fuel := by
        rw [List.length_append, List.length_cons] at hfuel
        omega
      obtain ⟨fuel', hfuel', heq⟩ := ih (List.cons_ne_nil _ _) hgs hpieces hrest
      refine ⟨fuel', hfuel', ?_⟩
      rw [heq, List.append_assoc, List.singleton_append]

/-! ### The readers agree on IPv6 literals -/

theorem eq_of_cutDouble {front back : List Char} (h : cutDouble t = some (front, back)) :
    t = front ++ ':' :: ':' :: back := by
  induction t generalizing front with
  | nil => cases h
  | cons c t ih =>
    rw [cutDouble] at h
    split at h
    · next hc =>
      obtain ⟨rfl, hnext⟩ := hc
      cases h
      rcases t with _ | ⟨x, t⟩
      · cases hnext
      · rw [List.head?_cons, Option.some.injEq] at hnext
        rw [hnext, List.tail_cons, List.nil_append]
    · obtain ⟨p, hp, heq⟩ := Option.map_eq_some_iff.1 h
      cases heq
      rw [ih hp, List.cons_append]

theorem intercalate_side (t : List Char) : [':'].intercalate (side t) = t := by
  unfold side
  split
  · next h => rw [h, List.intercalate_nil]
  · exact List.intercalate_splitOn ':'

theorem side_ne_nil (h : t ≠ []) : side t ≠ [] := by
  rw [side, if_neg h]
  exact List.splitOn_ne_nil _ _

/-- A text with a first group does not start with a colon. -/
theorem head?_ne_colon {p : List Char} {ts : List (List Char)} (hts : side t = p :: ts)
    (hp : p ≠ []) (rest : List Char) : (t ++ rest).head? ≠ some ':' := by
  have hsep : ':' ∉ p := by
    unfold side at hts
    split at hts
    · cases hts
    · exact notMem_of_mem_splitOn (hts ▸ List.mem_cons_self)
  obtain ⟨c, p, rfl⟩ := List.exists_cons_of_ne_nil hp
  have hhead : ∃ tail, t = c :: tail := by
    have hjoin := intercalate_side t
    rw [hts] at hjoin
    rcases ts with _ | ⟨q, ts⟩
    · exact ⟨p, by rw [← hjoin, List.intercalate_singleton]⟩
    · exact ⟨_, by rw [← hjoin, List.intercalate_cons_cons, List.cons_append, List.cons_append]⟩
  obtain ⟨tail, rfl⟩ := hhead
  intro hc
  rw [List.cons_append, List.head?_cons, Option.some.injEq] at hc
  exact hsep (hc ▸ List.mem_cons_self)

/-- What stands behind `::`. -/
theorem ipv6Loop_back {back : List Char} (h : lastGroups (side back) = some groups)
    (hp : pieces.length + groups.length ≤ 8) (hfuel : back.length < fuel) :
    ipv6Loop fuel back pieces compress = some (pieces ++ groups, compress) := by
  rcases fuel with _ | fuel
  · exact absurd hfuel (Nat.not_lt_zero _)
  by_cases hback : back = []
  · rw [hback, side, if_pos rfl, lastGroups, Option.some.injEq] at h
    rw [hback, ← h, List.append_nil, ipv6Loop]
  · have hloop : ipv6Loop (fuel + 1) ([':'].intercalate (side back)) pieces compress =
        some (pieces ++ groups, compress) :=
      ipv6Loop_lastGroups (side_ne_nil hback) h hp (by rwa [intercalate_side])
    rwa [intercalate_side] at hloop

/-- What the strict reader takes for an IPv6 literal, the URL standard takes for the same. -/
theorem ipv6Parser_of_parseIpv6 (h : parseIpv6 t = some groups) :
    ipv6Parser t = some groups := by
  unfold parseIpv6 at h
  split at h
  · obtain ⟨gs, hgs, h⟩ := Option.bind_eq_some_iff.1 h
    split at h
    · next hlen =>
      cases h
      have hne : t ≠ [] := by
        rintro rfl
        rw [side, if_pos rfl, lastGroups, Option.some.injEq] at hgs
        rw [← hgs] at hlen
        exact absurd hlen (by decide)
      obtain ⟨p, ts, hts⟩ := List.exists_cons_of_ne_nil (side_ne_nil hne)
      have hhead := head?_ne_colon hts (lastGroups_cons (hts ▸ hgs)) []
      rw [List.append_nil] at hhead
      rw [ipv6Parser, if_neg hhead,
        ipv6Loop_back hgs (by rw [List.length_nil]; omega) (Nat.lt_succ_self _),
        Option.bind_some, List.nil_append, expandPieces, if_pos hlen]
    · cases h
  · next front back hcut =>
    obtain ⟨before, hbefore, h⟩ := Option.bind_eq_some_iff.1 h
    obtain ⟨after, hafter, h⟩ := Option.bind_eq_some_iff.1 h
    split at h
    · next hlen =>
      cases h
      have ht := eq_of_cutDouble hcut
      have hexpand : expandPieces (before ++ [0] ++ after) (some (before.length + 1)) =
          some (before ++ List.replicate (8 - before.length - after.length) 0 ++ after) := by
        have hsplit : 8 - before.length - after.length =
            8 - (before ++ [0] ++ after).length + 1 := by
          simp only [List.length_append, List.length_singleton]
          omega
        have hcut : before.length + 1 = (before ++ [0]).length := by
          rw [List.length_append, List.length_singleton]
        rw [expandPieces, hcut, List.take_left, List.drop_left, hsplit, List.replicate_succ]
        simp only [List.append_assoc, List.cons_append, List.nil_append]
      by_cases hfront : front = []
      · rw [hfront, side, if_pos rfl, List.mapM_nil, Option.pure_def,
          Option.some.injEq] at hbefore
        subst hbefore
        rw [hfront, List.nil_append] at ht
        rw [ipv6Parser, ht, if_pos (List.head?_cons ..), List.tail_cons,
          if_pos (List.head?_cons ..), List.tail_cons,
          ipv6Loop_back hafter (by rw [List.length_singleton]; omega)
            (by rw [List.length_cons, List.length_cons]; omega), Option.bind_some]
        exact hexpand
      · obtain ⟨p, ts, hts⟩ := List.exists_cons_of_ne_nil (side_ne_nil hfront)
        have hp : p ≠ [] := by
          rintro rfl
          rw [hts, List.mapM_cons, show hexGroup [] = none by decide] at hbefore
          cases hbefore
        have hhead := head?_ne_colon hts hp (':' :: ':' :: back)
        rw [← ht] at hhead
        have hlength : ([':'].intercalate (side front) ++ ':' :: ':' :: back).length <
            t.length + 1 := by
          rw [intercalate_side, ← ht]
          exact Nat.lt_succ_self _
        obtain ⟨fuel, hfuel, hloop⟩ : ∃ fuel, (':' :: back).length < fuel ∧
            ipv6Loop (t.length + 1) ([':'].intercalate (side front) ++ ':' :: ':' :: back) [] none =
              ipv6Loop fuel (':' :: back) ([] ++ before) none :=
          ipv6Loop_front (side_ne_nil hfront) hbefore (by rw [List.length_nil]; omega) hlength
        rw [intercalate_side, ← ht] at hloop
        rw [ipv6Parser, if_neg hhead, hloop]
        rcases fuel with _ | fuel
        · exact absurd hfuel (Nat.not_lt_zero _)
        rw [List.nil_append, ipv6Loop, if_neg (by omega), if_pos rfl,
          if_neg (by rw [Option.isSome_none]; exact Bool.false_ne_true),
          ipv6Loop_back hafter (by rw [List.length_append, List.length_singleton]; omega)
            (by rw [List.length_cons] at hfuel; omega), Option.bind_some]
        exact hexpand
    · cases h

/-! ### What is no IPv6 literal -/

/-- An IPv6 literal has a colon. -/
theorem mem_colon_of_parseIpv6 (h : parseIpv6 t = some groups) : ':' ∈ t := by
  unfold parseIpv6 at h
  split at h
  · obtain ⟨gs, hgs, h⟩ := Option.bind_eq_some_iff.1 h
    split at h
    · next hlen =>
      by_contra hcolon
      have hshort : gs.length ≤ 2 := by
        unfold side at hgs
        split at hgs
        · rw [lastGroups, Option.some.injEq] at hgs
          rw [← hgs]
          exact Nat.zero_le _
        · rw [List.splitOn_eq_singleton hcolon, lastGroups, if_pos rfl, lastGroup] at hgs
          split at hgs
          · cases hgs
            exact Nat.le_succ 1
          · obtain ⟨q, -, rfl⟩ := Option.map_eq_some_iff.1 hgs
            exact Nat.le_refl 2
      omega
    · cases h
  · next front back hcut =>
    rw [eq_of_cutDouble hcut]
    exact List.mem_append_right _ List.mem_cons_self

theorem mem_of_mem_intercalate {sep c : Char} {ts : List (List Char)}
    (h : c ∈ [sep].intercalate ts) : c = sep ∨ ∃ p ∈ ts, c ∈ p := by
  induction ts with
  | nil => cases h
  | cons p ts ih =>
    rcases ts with _ | ⟨q, ts⟩
    · rw [List.intercalate_singleton] at h
      exact .inr ⟨p, List.mem_cons_self, h⟩
    · rw [List.intercalate_cons_cons, List.mem_append, List.mem_append, List.mem_singleton] at h
      rcases h with (h | h) | h
      · exact .inr ⟨p, List.mem_cons_self, h⟩
      · exact .inl h
      · rcases ih h with h | ⟨r, hr, hc⟩
        · exact .inl h
        · exact .inr ⟨r, List.mem_cons_of_mem _ hr, hc⟩

/-- A dotted quad is made of digits and dots. -/
theorem mem_of_parseIpv4 {q : ℕ × ℕ × ℕ × ℕ} (h : parseIpv4 t = some q) {c : Char}
    (hc : c ∈ t) : c.isDigit ∨ c = '.' := by
  obtain ⟨ta, tb, tc, td, hs, ha, hb, hq, hd⟩ := exists_octets h
  have hjoin : ['.'].intercalate (t.splitOn '.') = t := List.intercalate_splitOn '.'
  have hdigits := fun {s m} (h : octet s = some m) => List.all_eq_true.1 (octet_eq_some h).2.2.1
  rw [← hjoin, hs] at hc
  rcases mem_of_mem_intercalate hc with h | ⟨p, hp, hcp⟩
  · exact .inr h
  · left
    simp only [List.mem_cons, List.not_mem_nil, or_false] at hp
    rcases hp with rfl | rfl | rfl | rfl
    · exact hdigits ha c hcp
    · exact hdigits hb c hcp
    · exact hdigits hq c hcp
    · exact hdigits hd c hcp

theorem mem_of_hexGroups {ts : List (List Char)} (h : ts.mapM hexGroup = some groups)
    {p : List Char} (hp : p ∈ ts) {c : Char} (hc : c ∈ p) : isHexDigit c := by
  induction ts generalizing groups with
  | nil => cases hp
  | cons t ts ih =>
    rw [List.mapM_cons] at h
    rcases hv : hexGroup t with _ | v
    · simp [hv] at h
    rcases hgs : ts.mapM hexGroup with _ | gs
    · simp [hv, hgs] at h
    rcases List.mem_cons.1 hp with rfl | hp
    · exact List.all_eq_true.1 (hexGroup_eq_some hv).2.2.1 c hc
    · exact ih hgs hp

theorem mem_of_lastGroups {ts : List (List Char)} (h : lastGroups ts = some groups)
    {p : List Char} (hp : p ∈ ts) {c : Char} (hc : c ∈ p) : isHexDigit c ∨ c = '.' := by
  induction ts generalizing groups with
  | nil => cases hp
  | cons t ts ih =>
    rw [lastGroups] at h
    split at h
    · next hts =>
      rw [hts, List.mem_singleton] at hp
      subst hp
      unfold lastGroup at h
      split at h
      · next v hv => exact .inl (List.all_eq_true.1 (hexGroup_eq_some hv).2.2.1 c hc)
      · obtain ⟨q, hq, -⟩ := Option.map_eq_some_iff.1 h
        refine (mem_of_parseIpv4 hq hc).imp_left fun hd => ?_
        rw [isHexDigit, hd, Bool.true_or, Bool.true_or]
    · rcases hv : hexGroup t with _ | v
      · simp [hv] at h
      rcases hgs : lastGroups ts with _ | gs
      · simp [hv, hgs] at h
      rcases List.mem_cons.1 hp with rfl | hp
      · exact .inl (List.all_eq_true.1 (hexGroup_eq_some hv).2.2.1 c hc)
      · exact ih hgs hp

/-- An IPv6 literal is made of digits, dots and colons. -/
theorem mem_of_parseIpv6 (h : parseIpv6 t = some groups) {c : Char} (hc : c ∈ t) :
    isHexDigit c ∨ c = '.' ∨ c = ':' := by
  unfold parseIpv6 at h
  split at h
  · obtain ⟨gs, hgs, -⟩ := Option.bind_eq_some_iff.1 h
    rw [← intercalate_side t] at hc
    rcases mem_of_mem_intercalate hc with h | ⟨p, hp, hc⟩
    · exact .inr (.inr h)
    · exact (mem_of_lastGroups hgs hp hc).imp_right .inl
  · next front back hcut =>
    obtain ⟨before, hbefore, h⟩ := Option.bind_eq_some_iff.1 h
    obtain ⟨after, hafter, -⟩ := Option.bind_eq_some_iff.1 h
    rw [eq_of_cutDouble hcut, List.mem_append, List.mem_cons, List.mem_cons] at hc
    rcases hc with hc | hc | hc | hc
    · rw [← intercalate_side front] at hc
      rcases mem_of_mem_intercalate hc with h | ⟨p, hp, hc⟩
      · exact .inr (.inr h)
      · exact .inl (mem_of_hexGroups hbefore hp hc)
    · exact .inr (.inr hc)
    · exact .inr (.inr hc)
    · rw [← intercalate_side back] at hc
      rcases mem_of_mem_intercalate hc with h | ⟨p, hp, hc⟩
      · exact .inr (.inr h)
      · exact (mem_of_lastGroups hafter hp hc).imp_right .inl

/-- A text without a colon is no IPv6 literal to the URL standard. -/
theorem ipv6Parser_of_notMem_colon (h : ':' ∉ t) : ipv6Parser t = none := by
  have hloop : ∀ p, ipv6Loop (t.length + 1) t [] none = some p → expandPieces p.1 p.2 = none := by
    intro p hp
    rcases t with _ | ⟨c, t⟩
    · cases hp
      decide
    rw [ipv6Loop] at hp
    split at hp
    · cases hp
    have hc : c ≠ ':' := fun hc => h (hc ▸ List.mem_cons_self)
    rw [if_neg hc] at hp
    dsimp only at hp
    split at hp
    · cases hp
      rw [expandPieces, if_neg (by simp)]
    · next x next hdrop =>
      split at hp
      · split at hp
        · cases hp
        · obtain ⟨q, hq, rfl⟩ := Option.map_eq_some_iff.1 hp
          unfold embeddedQuad at hq
          split at hq
          · simp only [Option.pure_def, Option.bind_eq_bind, Option.bind_eq_some_iff,
              Option.some.injEq] at hq
            obtain ⟨_, -, _, -, _, -, _, -, rfl⟩ := hq
            rw [expandPieces, if_neg (by simp [quadGroups])]
          · cases hq
      · have hx : x ≠ ':' := by
          rintro rfl
          exact h (List.mem_of_mem_drop (hdrop ▸ List.mem_cons_self))
        rw [if_neg hx] at hp
        cases hp
  have hhead : t.head? ≠ some ':' := fun hhead => h (List.mem_of_head? hhead)
  rw [ipv6Parser, if_neg hhead, Option.bind_eq_none_iff]
  exact hloop

theorem embeddedNumber_mem (h : embeddedNumber compress t = some n) (hmem : ']' ∈ t) : False := by
  induction t generalizing compress with
  | nil => cases hmem
  | cons c t ih =>
    cases compress with
    | none =>
      rw [embeddedNumber] at h
      split at h
      · next hd =>
        rcases List.mem_cons.1 hmem with rfl | hmem
        · exact absurd hd (by decide)
        · exact ih h hmem
      · cases h
    | some m =>
      rw [embeddedNumber] at h
      split at h
      · next hd =>
        rcases List.mem_cons.1 hmem with rfl | hmem
        · exact absurd hd.1 (by decide)
        · exact ih h hmem
      · cases h

theorem embeddedQuad_mem (h : embeddedQuad t = some groups) (hmem : ']' ∈ t) : False := by
  unfold embeddedQuad at h
  split at h
  · next a b c d hs =>
    simp only [Option.pure_def, Option.bind_eq_bind, Option.bind_eq_some_iff] at h
    obtain ⟨na, ha, nb, hb, nc, hc, nd, hd, -⟩ := h
    have hjoin : ['.'].intercalate (t.splitOn '.') = t := List.intercalate_splitOn '.'
    rw [← hjoin, hs] at hmem
    simp only [List.intercalate_cons_cons, List.intercalate_singleton, List.mem_append,
      List.mem_singleton] at hmem
    rcases hmem with (hmem | hdot) | (hmem | hdot) | (hmem | hdot) | hmem
    · exact embeddedNumber_mem ha hmem
    · exact absurd hdot (by decide)
    · exact embeddedNumber_mem hb hmem
    · exact absurd hdot (by decide)
    · exact embeddedNumber_mem hc hmem
    · exact absurd hdot (by decide)
    · exact embeddedNumber_mem hd hmem
  · cases h

theorem ipv6Loop_mem {input : List Char} (hmem : ']' ∈ input) :
    ipv6Loop fuel input pieces compress = none := by
  induction fuel generalizing input pieces compress with
  | zero => rfl
  | succ fuel ih =>
    rcases input with _ | ⟨c, rest⟩
    · cases hmem
    rw [ipv6Loop]
    split
    · rfl
    split
    · next hc =>
      split
      · rfl
      · rcases List.mem_cons.1 hmem with h | h
        · exact absurd (h.trans hc) (by decide)
        · exact ih h
    · -- The digits have no bracket, so it is behind them.
      have hbehind : ']' ∈ (c :: rest).drop
          (((c :: rest).take 4).takeWhile isHexDigit).length := by
        have htake : (c :: rest).take (((c :: rest).take 4).takeWhile isHexDigit).length =
            ((c :: rest).take 4).takeWhile isHexDigit :=
          (List.prefix_iff_eq_take.1
            ((List.takeWhile_prefix _).trans (List.take_prefix 4 _))).symm
        rw [← List.take_append_drop (((c :: rest).take 4).takeWhile isHexDigit).length
          (c :: rest), htake] at hmem
        rcases List.mem_append.1 hmem with h | h
        · exact absurd (List.mem_takeWhile_imp h) (by decide)
        · exact h
      dsimp only
      split
      · next hnil =>
        rw [hnil] at hbehind
        cases hbehind
      · next x next hdrop =>
        rw [hdrop] at hbehind
        split
        · split
          · rfl
          · rw [Option.map_eq_none_iff, Option.eq_none_iff_forall_ne_some]
            exact fun q hq => embeddedQuad_mem hq hmem
        · split
          · next hx =>
            split
            · rfl
            · rcases List.mem_cons.1 hbehind with h | h
              · exact absurd (h.trans hx) (by decide)
              · exact ih h
          · rfl

/-- A text with a closing bracket is no IPv6 literal. -/
theorem ipv6Parser_of_mem_bracket (hmem : ']' ∈ t) : ipv6Parser t = none := by
  rw [ipv6Parser]
  split
  · next hc =>
    split
    · next hcc =>
      rcases t with _ | ⟨a, _ | ⟨b, t⟩⟩
      · cases hc
      · cases hcc
      · rw [List.head?_cons, Option.some.injEq] at hc
        rw [List.tail_cons, List.head?_cons, Option.some.injEq] at hcc
        subst hc hcc
        rcases List.mem_cons.1 hmem with h | h
        · exact absurd h (by decide)
        rcases List.mem_cons.1 h with h | h
        · exact absurd h (by decide)
        rw [List.tail_cons, List.tail_cons, ipv6Loop_mem h, Option.bind_none]
    · rfl
  · rw [ipv6Loop_mem hmem, Option.bind_none]

end Agreement

end Spelunk.Lib
