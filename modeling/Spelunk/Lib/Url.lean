import Mathlib.Data.List.DropRight
import Spelunk.Lib.Address

/-!
# The URL Standard

How a parser of the URL standard reads a URL of a web scheme: which characters it removes before it
starts, where the authority of the URL ends, and which host the authority names. Paths, queries
and fragments are never refused and are kept as they stand.

## Main definitions

* `DomainToAscii`: The mapping of internationalized names.
* `hostParser`: The host that a text names.
* `parseUrl`: The URL that a text is.

## Theorems

* `parseUrl_append`: A text with a scheme in front.
* `exists_authority`: The authority of a text whose characters are removed.
* `rtakeWhile_cleaned`: What stands behind its last `@`.
-/

namespace Spelunk.Lib

/-- Percent-decoding and the mapping of internationalized names, which are a library of their own.
    A name of lower-case letters, digits and dots is its own ASCII form. -/
structure DomainToAscii where
  run : List Char → Option (List Char)
  plain : ∀ t : List Char, t ≠ [] → (∀ c ∈ t, c.isLower ∨ c.isDigit ∨ c = '.') → run t = some t

/-- What a URL names as its host. -/
inductive Host where
  | domain (name : List Char)
  | ipv4 (address : ℕ)
  | ipv6 (pieces : List ℕ)
deriving DecidableEq, Repr

/-- The code points that a domain cannot have. -/
def forbiddenDomain (c : Char) : Bool :=
  c.toNat ≤ 0x20 || c.toNat = 0x7F ||
    ['#', '/', ':', '<', '>', '?', '@', '[', '\\', ']', '^', '|', '%'].contains c

/-- The host parser. -/
def hostParser (ascii : DomainToAscii) (t : List Char) : Option Host :=
  if t.head? = some '[' then
    if t.getLast? = some ']' then (ipv6Parser t.tail.dropLast).map .ipv6 else none
  else (ascii.run t).bind fun name =>
    if name = [] ∨ name.any forbiddenDomain then none
    else if endsInNumber name then (ipv4Parser name).map .ipv4
    else some (.domain name)

/-! ### The parser -/

inductive Scheme where
  | http
  | https
deriving DecidableEq, Repr

def Scheme.defaultPort : Scheme → ℕ
  | .http => 80
  | .https => 443

structure Url where
  scheme : Scheme
  userinfo : List Char
  host : Host
  port : Option ℕ
  rest : List Char
deriving DecidableEq, Repr

/-- What a text is to the parser; URLs of other schemes are not looked at. -/
inductive Parsed where
  | failure
  | other
  | url (u : Url)
deriving DecidableEq, Repr

def isC0OrSpace (c : Char) : Bool := c.toNat ≤ 0x20

def isTabOrNewline (c : Char) : Bool := c = '\t' || c = '\n' || c = '\r'

/-- Tabs and newlines are removed everywhere, other controls and spaces at the end. -/
def cleaned (atEnd : Bool) (t : List Char) : List Char :=
  (if atEnd then t.rdropWhile isC0OrSpace else t).filter fun c => !isTabOrNewline c

/-- The input as the parser reads it. -/
def stripInput (t : List Char) : List Char := cleaned true (t.dropWhile isC0OrSpace)

def isSlash (c : Char) : Bool := c = '/' || c = '\\'

def endsAuthority (c : Char) : Bool := c = '/' || c = '?' || c = '#' || c = '\\'

/-- The text of the host, and of the port when a colon outside brackets is behind it. -/
def hostEnd : Bool → List Char → List Char × Option (List Char)
  | _, [] => ([], none)
  | inBrackets, c :: t =>
    if c = ':' ∧ inBrackets = false then ([], some t)
    else
      let p := hostEnd (if c = '[' then true else if c = ']' then false else inBrackets) t
      (c :: p.1, p.2)

/-- The port: the default of the scheme is as good as none. -/
def portParser (scheme : Scheme) : Option (List Char) → Option (Option ℕ)
  | none => some none
  | some t =>
    if t.all Char.isDigit ∧ numberFrom 10 0 t ≤ 65535 then
      some (if t = [] ∨ numberFrom 10 0 t = scheme.defaultPort then none
        else some (numberFrom 10 0 t))
    else none

/-- The URL behind the colon of its scheme. Any number of slashes is passed over. -/
def parseAuthority (ascii : DomainToAscii) (scheme : Scheme) (t : List Char) : Option Url :=
  let t := t.dropWhile isSlash
  let authority := t.takeWhile fun c => !endsAuthority c
  let p := hostEnd false (authority.rtakeWhile (· ≠ '@'))
  if p.1 = [] then none
  else (hostParser ascii p.1).bind fun host => (portParser scheme p.2).map fun port =>
    ⟨scheme, authority.rdropWhile (· ≠ '@'), host, port, t.dropWhile fun c => !endsAuthority c⟩

/-- The scheme in front of the first colon: a letter, and letters, digits, `+`, `-` or `.`. -/
def schemeName (t : List Char) : Option (List Char) :=
  let name := t.takeWhile (· ≠ ':')
  if ':' ∈ t ∧ name.head?.any Char.isAlpha ∧
      name.all (fun c => c.isAlphanum || c = '+' || c = '-' || c = '.') then
    some (name.map Char.toLower)
  else none

/-- The basic parser without a base URL. -/
def parseUrl (ascii : DomainToAscii) (input : List Char) : Parsed :=
  let t := stripInput input
  let after := (t.dropWhile (· ≠ ':')).tail
  match schemeName t with
  | none => .failure
  | some name =>
    if name = "http".toList then
      ((parseAuthority ascii .http after).map Parsed.url).getD .failure
    else if name = "https".toList then
      ((parseAuthority ascii .https after).map Parsed.url).getD .failure
    else .other

/-! ### Removed characters -/

section Cleaned

variable {a b t : List Char} {x : Char} {e : Bool}

theorem not_tab_of_not_c0 (hx : isC0OrSpace x = false) : isTabOrNewline x = false := by
  rcases h : isTabOrNewline x with _ | _
  · rfl
  · have hcases : x = '\t' ∨ x = '\n' ∨ x = '\r' := by
      simpa [isTabOrNewline, or_assoc] using h
    rcases hcases with rfl | rfl | rfl
    · exact absurd hx (by decide)
    · exact absurd hx (by decide)
    · exact absurd hx (by decide)

/-- Only what is behind a character that stays is at the end. -/
theorem cleaned_append_cons (hx : isC0OrSpace x = false) (e : Bool) (a b : List Char) :
    cleaned e (a ++ x :: b) = cleaned false a ++ x :: cleaned e b := by
  have hfilter : ∀ c : List Char, (a ++ x :: c).filter (fun c => !isTabOrNewline c) =
      a.filter (fun c => !isTabOrNewline c) ++ x :: c.filter fun c => !isTabOrNewline c := by
    intro c
    rw [List.filter_append, List.filter_cons_of_pos (by rw [not_tab_of_not_c0 hx]; rfl)]
  rcases e with _ | _
  · exact hfilter b
  · exact (congrArg _ (rdropWhile_append_cons a b hx)).trans (hfilter _)

/-- A text that keeps its characters, in front of another. -/
theorem cleaned_append (h : ∀ c ∈ a, isC0OrSpace c = false) (e : Bool) (b : List Char) :
    cleaned e (a ++ b) = a ++ cleaned e b := by
  induction a with
  | nil => rfl
  | cons x a ih =>
    have hx := h x List.mem_cons_self
    calc cleaned e ([] ++ x :: (a ++ b)) = cleaned false [] ++ x :: cleaned e (a ++ b) :=
          cleaned_append_cons hx e [] (a ++ b)
      _ = x :: a ++ cleaned e b := by
          rw [ih fun c hc => h c (List.mem_cons_of_mem _ hc)]
          rfl

theorem mem_of_mem_cleaned (h : x ∈ cleaned e t) : x ∈ t := by
  have hmem := (List.mem_filter.1 h).1
  split at hmem
  · exact (List.rdropWhile_prefix _ _).subset hmem
  · exact hmem

/-- The authority of a text is the text's own, with characters removed. -/
theorem exists_authority (r : List Char)
    (hne : ∀ e, cleaned e (r.takeWhile fun c => !endsAuthority c) ≠ []) :
    ∃ e, ((cleaned true r).dropWhile isSlash).takeWhile (fun c => !endsAuthority c) =
      cleaned e (r.takeWhile fun c => !endsAuthority c) := by
  set authority := r.takeWhile fun c => !endsAuthority c with hauthority
  have hnoEnd : ∀ e, ∀ c ∈ cleaned e authority, (!endsAuthority c) = true := by
    intro e c hc
    have hmem : c ∈ r.takeWhile fun c => !endsAuthority c := mem_of_mem_cleaned hc
    have hp := @List.mem_takeWhile_imp _ (fun c => !endsAuthority c) _ _ hmem
    exact hp
  -- The authority does not start with a slash, so none is passed over.
  have hstart : ∀ e rest, (cleaned e authority ++ rest).dropWhile isSlash =
      cleaned e authority ++ rest := by
    intro e rest
    obtain ⟨c, tail, hcons⟩ := List.exists_cons_of_ne_nil (hne e)
    have hc := hnoEnd e c (hcons ▸ List.mem_cons_self)
    have hslash : isSlash c = false := by
      rcases h : isSlash c with _ | _
      · rfl
      · have hcases : c = '/' ∨ c = '\\' := by simpa [isSlash] using h
        rcases hcases with rfl | rfl
        · exact absurd hc (by decide)
        · exact absurd hc (by decide)
    rw [hcons, List.cons_append, List.dropWhile_cons_of_neg (by simp [hslash])]
  rcases hbehind : r.dropWhile fun c => !endsAuthority c with _ | ⟨x, rest⟩
  · have hr : r = authority := by
      have hwhole : authority ++ r.dropWhile (fun c => !endsAuthority c) = r :=
        List.takeWhile_append_dropWhile
      rw [hbehind, List.append_nil] at hwhole
      exact hwhole.symm
    refine ⟨true, ?_⟩
    have hwhole := hstart true []
    rw [List.append_nil] at hwhole
    rw [hr, hwhole]
    exact List.takeWhile_eq_self_iff.2 (hnoEnd true)
  · have hr : r = authority ++ x :: rest := by
      rw [← hbehind]
      exact (List.takeWhile_append_dropWhile).symm
    have hx : endsAuthority x = true := by
      have := List.head?_dropWhile_not (fun c => !endsAuthority c) r
      rw [hbehind] at this
      simpa using this
    have hc0 : isC0OrSpace x = false := by
      have hcases : x = '/' ∨ x = '?' ∨ x = '#' ∨ x = '\\' := by
        simpa [endsAuthority, or_assoc] using hx
      rcases hcases with rfl | rfl | rfl | rfl
      · decide
      · decide
      · decide
      · decide
    refine ⟨false, ?_⟩
    rw [hr, cleaned_append_cons hc0, hstart, List.takeWhile_append_of_pos (hnoEnd false),
      List.takeWhile_cons_of_neg (by simp [hx]), List.append_nil]

/-- What stands behind the last `@` of a text whose characters are removed. -/
theorem rtakeWhile_cleaned (e : Bool) (t : List Char) :
    (cleaned e t).rtakeWhile (· ≠ '@') = cleaned e (t.rtakeWhile (· ≠ '@')) := by
  have hnone : ∀ c ∈ cleaned e (t.rtakeWhile (· ≠ '@')), decide (c ≠ '@') = true := by
    intro c hc
    have hmem : c ∈ t.rtakeWhile fun c => decide (c ≠ '@') := mem_of_mem_cleaned hc
    have hp := @List.mem_rtakeWhile_imp _ (fun c => decide (c ≠ '@')) _ _ hmem
    exact hp
  have hsplit : t.rdropWhile (· ≠ '@') ++ t.rtakeWhile (· ≠ '@') = t :=
    List.rdropWhile_append_rtakeWhile
  rcases List.eq_nil_or_concat (t.rdropWhile (· ≠ '@')) with hnil | ⟨front, x, hfront⟩
  · rw [hnil, List.nil_append] at hsplit
    rw [hsplit] at hnone ⊢
    exact List.rtakeWhile_eq_self_iff.2 hnone
  · rw [List.concat_eq_append] at hfront
    have hx : x = '@' := by
      have hne : t.rdropWhile (· ≠ '@') ≠ [] := by
        rw [hfront]
        exact List.append_ne_nil_of_right_ne_nil _ (List.cons_ne_nil _ _)
      have hlast := List.rdropWhile_last_not (fun c => decide (c ≠ '@')) t hne
      have hx : (t.rdropWhile (· ≠ '@')).getLast? = some x := by
        rw [hfront, List.getLast?_concat]
      rw [List.getLast?_eq_some_getLast hne, Option.some.injEq] at hx
      rw [hx] at hlast
      simpa using hlast
    subst hx
    rw [hfront, List.append_assoc, List.singleton_append] at hsplit
    conv_lhs => rw [← hsplit, cleaned_append_cons (by decide)]
    rw [List.rtakeWhile, List.reverse_append, List.reverse_cons, List.append_assoc,
      List.takeWhile_append_of_pos (fun c hc => hnone c (List.mem_reverse.1 hc)),
      List.singleton_append, List.takeWhile_cons_of_neg (by decide), List.append_nil,
      List.reverse_reverse]

end Cleaned

/-! ### A text with a scheme in front -/

/-- A text that starts as a URL of a web scheme. -/
theorem parseUrl_append (ascii : DomainToAscii) (r : List Char) :
    parseUrl ascii ("http://".toList ++ r) =
        ((parseAuthority ascii .http (cleaned true r)).map Parsed.url).getD .failure ∧
      parseUrl ascii ("https://".toList ++ r) =
        ((parseAuthority ascii .https (cleaned true r)).map Parsed.url).getD .failure := by
  have hslashes : ∀ scheme, parseAuthority ascii scheme ('/' :: '/' :: cleaned true r) =
      parseAuthority ascii scheme (cleaned true r) := fun scheme => rfl
  have hkept : ∀ a : List Char, (a.all fun c => !isC0OrSpace c) = true →
      ∀ c ∈ a, isC0OrSpace c = false := by
    intro a ha c hc
    have h := List.all_eq_true.1 ha c hc
    rwa [Bool.not_eq_true'] at h
  have hhttp : "http://".toList = ['h', 't', 't', 'p', ':', '/', '/'] := rfl
  have hhttps : "https://".toList = ['h', 't', 't', 'p', 's', ':', '/', '/'] := rfl
  constructor
  · have hstrip : stripInput ("http://".toList ++ r) = "http://".toList ++ cleaned true r := by
      rw [hhttp]
      exact cleaned_append (hkept ['h', 't', 't', 'p', ':', '/', '/'] rfl) true r
    rw [parseUrl, hstrip, ← hslashes, hhttp]
    rfl
  · have hstrip : stripInput ("https://".toList ++ r) = "https://".toList ++ cleaned true r := by
      rw [hhttps]
      exact cleaned_append (hkept ['h', 't', 't', 'p', 's', ':', '/', '/'] rfl) true r
    rw [parseUrl, hstrip, ← hslashes, hhttps]
    rfl

end Spelunk.Lib
