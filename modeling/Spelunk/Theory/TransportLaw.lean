import Spelunk.Core.Transport
import Spelunk.Lib.Url

/-!
# The Host That Is Connected To

The check of the transport against the parser that opens the connection. A URL that the check
lets through is `https` to the parser, or the parser refuses it, or its host is a loopback host to
the parser too; and no URL that names a loopback host in its canonical form is refused.

## Main definitions

* `LoopbackHost`: A host that is loopback to the parser.
* `CanonicalUrl`: An `http` URL of a loopback host as it is serialized.

## Theorems

* `parseAuthority_loopback`: The parser's host, where the check has found a loopback host.
* `transportLaw`: The check is sound, and complete on canonical URLs.
-/

namespace Spelunk

open Lib

/-- A host that is loopback to the parser. -/
def LoopbackHost : Host → Prop
  | .domain name => name = "localhost".toList
  | .ipv4 address => address / 256 ^ 3 = 127
  | .ipv6 pieces => pieces = ipv6Localhost

section Sound

variable {host hostPort : List Char}

theorem hostIsLoopback_cases (h : hostIsLoopback host = true) :
    host = "localhost".toList ∨ (∃ b c d, parseIpv4 host = some (127, b, c, d)) ∨
      parseIpv6 host = some ipv6Localhost := by
  unfold hostIsLoopback at h
  split at h
  · next hl => exact .inl hl
  · right
    split at h
    · next v4 hv4 =>
      obtain ⟨a, b, c, d⟩ := v4
      rw [decide_eq_true_eq] at h
      dsimp only at h
      subst h
      exact .inl ⟨b, c, d, hv4⟩
    · right
      rcases hv6 : parseIpv6 host with _ | pieces
      · rw [hv6] at h
        cases h
      · rw [hv6, Option.any_some, decide_eq_true_eq] at h
        rw [h]

/-- What a loopback host is made of. -/
theorem plain_of_loopback (h : hostIsLoopback host = true) {c : Char} (hc : c ∈ host) :
    isC0OrSpace c = false ∧ c ≠ '[' := by
  have hdigit : ∀ d : Char, isHexDigit d ∨ d = '.' ∨ d = ':' →
      isC0OrSpace d = false ∧ d ≠ '[' := by
    intro d hd
    constructor
    · rcases hc0 : isC0OrSpace d with _ | _
      · rfl
      · exfalso
        have hle : d.toNat ≤ 32 := of_decide_eq_true hc0
        rcases hd with hd | rfl | rfl
        · simp only [isHexDigit, Char.isDigit, Bool.or_eq_true, Bool.and_eq_true,
            decide_eq_true_eq, ge_iff_le, Char.le_def, UInt32.le_iff_toNat_le] at hd
          have hval : d.val.toNat ≤ 32 := hle
          have h0 : '0'.val.toNat = 48 := rfl
          have ha : 'a'.val.toNat = 97 := rfl
          have hA : 'A'.val.toNat = 65 := rfl
          have h0' : (48 : UInt32).toNat = 48 := rfl
          omega
        · exact absurd hle (by decide)
        · exact absurd hle (by decide)
    · rintro rfl
      revert hd
      decide
  rcases hostIsLoopback_cases h with rfl | ⟨a, b, d, hv4⟩ | hv6
  · have hall : "localhost".toList.all (fun c => !isC0OrSpace c && c ≠ '[') = true := rfl
    simpa using List.all_eq_true.1 hall c hc
  · refine hdigit c ((mem_of_parseIpv4 hv4 hc).imp (fun hd => ?_) .inl)
    rw [isHexDigit, hd, Bool.true_or, Bool.true_or]
  · exact hdigit c (mem_of_parseIpv6 hv6 hc)

theorem ne_nil_of_loopback (h : hostIsLoopback host = true) : host ≠ [] := by
  rintro rfl
  exact absurd h (by decide)

/-- A loopback host without a colon. -/
theorem notMem_colon (h : hostIsLoopback host = true) (hcolon : ':' ∉ host) :
    host = "localhost".toList ∨ ∃ b c d, parseIpv4 host = some (127, b, c, d) := by
  rcases hostIsLoopback_cases h with h | h | h
  · exact .inl h
  · exact .inr h
  · exact absurd (mem_colon_of_parseIpv6 h) hcolon

/-- A loopback host with a colon. -/
theorem ipv6_of_mem_colon (h : hostIsLoopback host = true) (hcolon : ':' ∈ host) :
    parseIpv6 host = some ipv6Localhost := by
  rcases hostIsLoopback_cases h with rfl | ⟨b, c, d, h⟩ | h
  · exact absurd hcolon (by decide)
  · rcases mem_of_parseIpv4 h hcolon with hd | hd
    · exact absurd hd (by decide)
    · exact absurd hd (by decide)
  · exact h

/-! ### The parser's host -/

/-- Within brackets the text of the host goes on. -/
theorem hostEnd_inside (hhost : ']' ∉ host) (m : List Char) :
    hostEnd true host = (host, none) ∧
      hostEnd true (host ++ ']' :: m) =
        (host ++ ']' :: (hostEnd false m).1, (hostEnd false m).2) := by
  induction host with
  | nil => exact ⟨rfl, rfl⟩
  | cons c host ih =>
    have hc : c ≠ ']' := fun h => hhost (h ▸ List.mem_cons_self)
    obtain ⟨hnil, hcons⟩ := ih fun h => hhost (List.mem_cons_of_mem _ h)
    have hstate : (if c = '[' then true else if c = ']' then false else true) = true := by
      rw [if_neg hc, ite_self]
    constructor
    · rw [hostEnd, if_neg (by simp), hstate, hnil]
    · rw [List.cons_append, hostEnd, if_neg (by simp), hstate, hcons, List.cons_append]

/-- Outside brackets it ends at a colon. -/
theorem hostEnd_outside (hhost : ∀ c ∈ host, c ≠ ':' ∧ c ≠ '[') (m : List Char) :
    hostEnd false host = (host, none) ∧ hostEnd false (host ++ ':' :: m) = (host, some m) := by
  induction host with
  | nil => exact ⟨rfl, rfl⟩
  | cons c host ih =>
    obtain ⟨hc, hopen⟩ := hhost c List.mem_cons_self
    obtain ⟨hnil, hcons⟩ := ih fun d hd => hhost d (List.mem_cons_of_mem _ hd)
    have hstate : (if c = '[' then true else if c = ']' then false else false) = false := by
      rw [if_neg hopen, ite_self]
    constructor
    · rw [hostEnd, if_neg (fun h => hc h.1), hstate, hnil]
    · rw [List.cons_append, hostEnd, if_neg (fun h => hc h.1), hstate, hcons]

/-- The host of a text in brackets. -/
theorem bracketed_host (ascii : DomainToAscii) (h : hostIsLoopback host = true)
    (hhost : ']' ∉ host) {q : List Char} (hq : q = [] ∨ ∃ m, q = ']' :: m) {parsed : Host}
    (hparsed : hostParser ascii (hostEnd false ('[' :: host ++ q)).1 = some parsed) :
    LoopbackHost parsed := by
  have hopen : hostEnd false ('[' :: host ++ q) =
      ('[' :: (hostEnd true (host ++ q)).1, (hostEnd true (host ++ q)).2) := rfl
  rw [hopen] at hparsed
  rcases hq with rfl | ⟨m, rfl⟩
  · -- The bracket is not closed.
    rw [List.append_nil, (hostEnd_inside hhost []).1, hostParser, if_pos (List.head?_cons ..),
      if_neg] at hparsed
    · cases hparsed
    · intro hlast
      have hmem := List.mem_of_getLast? hlast
      rcases List.mem_cons.1 hmem with h | h
      · exact absurd h (by decide)
      · exact hhost h
  · rw [(hostEnd_inside hhost m).2, hostParser, if_pos (List.head?_cons ..)] at hparsed
    split at hparsed
    · obtain ⟨pieces, hpieces, rfl⟩ := Option.map_eq_some_iff.1 hparsed
      rw [List.tail_cons] at hpieces
      rcases hmore : (hostEnd false m).1 with _ | ⟨x, more⟩
      · rw [hmore, List.dropLast_concat] at hpieces
        by_cases hcolon : ':' ∈ host
        · rw [ipv6Parser_of_parseIpv6 (ipv6_of_mem_colon h hcolon), Option.some.injEq] at hpieces
          exact hpieces.symm
        · rw [ipv6Parser_of_notMem_colon hcolon] at hpieces
          cases hpieces
      · rw [hmore, List.dropLast_append_of_ne_nil (List.cons_ne_nil _ _),
          List.dropLast_cons_cons, ipv6Parser_of_mem_bracket
            (List.mem_append_right _ List.mem_cons_self)] at hpieces
        cases hpieces
    · cases hparsed

/-- The host of a text without a colon. -/
theorem plain_host (ascii : DomainToAscii) (h : hostIsLoopback host = true) (hcolon : ':' ∉ host)
    {parsed : Host} (hparsed : hostParser ascii host = some parsed) : LoopbackHost parsed := by
  have hhead : host.head? ≠ some '[' := fun hhead =>
    (plain_of_loopback h (List.mem_of_head? hhead)).2 rfl
  have hplain : ∀ c ∈ host, c.isLower ∨ c.isDigit ∨ c = '.' := by
    intro c hc
    rcases notMem_colon h hcolon with rfl | ⟨a, b, d, hv4⟩
    · have hall : "localhost".toList.all Char.isLower = true := rfl
      exact .inl (List.all_eq_true.1 hall c hc)
    · exact .inr (mem_of_parseIpv4 hv4 hc)
  rw [hostParser, if_neg hhead, ascii.plain host (ne_nil_of_loopback h) hplain,
    Option.bind_some] at hparsed
  split at hparsed
  · cases hparsed
  rcases notMem_colon h hcolon with rfl | ⟨b, c, d, hv4⟩
  · rw [if_neg (by decide), Option.some.injEq] at hparsed
    subst hparsed
    rfl
  · obtain ⟨hends, haddress⟩ := ipv4Parser_of_parseIpv4 hv4
    obtain ⟨ta, tb, tc, td, -, -, hb, hc, hd⟩ := exists_octets hv4
    rw [if_pos hends, haddress, Option.map_some, Option.some.injEq] at hparsed
    subst hparsed
    have hb := (octet_eq_some hb).2.2.2.2.1
    have hc := (octet_eq_some hc).2.2.2.2.1
    have hd := (octet_eq_some hd).2.2.2.2.1
    dsimp only at hb hc hd
    show (d + (127 * 256 ^ 3 + b * 256 ^ 2 + c * 256)) / 256 ^ 3 = 127
    omega

/-- What a URL that the parser takes has as its host. -/
theorem parseAuthority_eq_some {ascii : DomainToAscii} {scheme : Scheme} {t : List Char} {u : Url}
    (h : parseAuthority ascii scheme t = some u) {p : List Char × Option (List Char)}
    (hp : hostEnd false (((t.dropWhile isSlash).takeWhile fun c => !endsAuthority c).rtakeWhile
      (· ≠ '@')) = p) :
    u.scheme = scheme ∧ hostParser ascii p.1 = some u.host ∧
      ∃ port, portParser scheme p.2 = some port := by
  unfold parseAuthority at h
  dsimp only at h
  rw [hp] at h
  split at h
  · cases h
  · obtain ⟨parsed, hparsed, h⟩ := Option.bind_eq_some_iff.1 h
    obtain ⟨port, hport, rfl⟩ := Option.map_eq_some_iff.1 h
    exact ⟨rfl, hparsed, port, hport⟩

theorem exists_append_takeWhile (t : List Char) (x : Char) :
    ∃ q, t = t.takeWhile (· ≠ x) ++ q ∧ (q = [] ∨ ∃ m, q = x :: m) ∧ x ∉ t.takeWhile (· ≠ x) := by
  refine ⟨t.dropWhile (· ≠ x), List.takeWhile_append_dropWhile.symm, ?_, fun h => ?_⟩
  · rcases hq : t.dropWhile (· ≠ x) with _ | ⟨y, m⟩
    · exact .inl rfl
    · have hy := List.head?_dropWhile_not (fun c => decide (c ≠ x)) t
      rw [hq] at hy
      have heq : y = x := by simpa using hy
      exact .inr ⟨m, by rw [heq]⟩
  · have hp := @List.mem_takeWhile_imp _ (fun c => decide (c ≠ x)) _ _ h
    exact absurd rfl (of_decide_eq_true hp)

theorem cleaned_rest {q : List Char} {x : Char} (hx : isC0OrSpace x = false)
    (hq : q = [] ∨ ∃ m, q = x :: m) (e : Bool) :
    cleaned e q = [] ∨ ∃ m, cleaned e q = x :: m := by
  rcases hq with rfl | ⟨m, rfl⟩
  · exact .inl (by cases e <;> rfl)
  · exact .inr ⟨cleaned e m, cleaned_append_cons hx e [] m⟩

/-- The text of the host and the port, as the check and as the parser see it. -/
theorem loopback_of_hostPort (ascii : DomainToAscii) (hloop : hostIsLoopback host = true)
    (hhost : (∃ q, hostPort = '[' :: host ++ q ∧ (q = [] ∨ ∃ m, q = ']' :: m) ∧ ']' ∉ host) ∨
      (hostPort = host ∧ 1 < host.count ':') ∨
      ∃ q, hostPort = host ++ q ∧ (q = [] ∨ ∃ m, q = ':' :: m) ∧ ':' ∉ host) (e : Bool) :
    cleaned e hostPort ≠ [] ∧ ∀ scheme parsed port,
      hostParser ascii (hostEnd false (cleaned e hostPort)).1 = some parsed →
      portParser scheme (hostEnd false (cleaned e hostPort)).2 = some port →
      LoopbackHost parsed := by
  have hplain := fun c hc => (plain_of_loopback hloop (c := c) hc).1
  have hne := ne_nil_of_loopback hloop
  rcases hhost with ⟨q, rfl, hq, hnot⟩ | ⟨rfl, hcount⟩ | ⟨q, rfl, hq, hnot⟩
  · have hopen : ∀ c ∈ '[' :: host, isC0OrSpace c = false := by
      rintro c hc
      rcases List.mem_cons.1 hc with rfl | hc
      · decide
      · exact hplain c hc
    rw [cleaned_append hopen]
    refine ⟨List.cons_ne_nil _ _, fun scheme parsed port hparsed _ => ?_⟩
    exact bracketed_host ascii hloop hnot (cleaned_rest (by decide) hq e) hparsed
  · have hself : cleaned e hostPort = hostPort := by
      have happend := cleaned_append hplain e []
      have hnil : cleaned e [] = [] := by cases e <;> rfl
      rwa [List.append_nil, hnil, List.append_nil] at happend
    rw [hself]
    refine ⟨hne, fun scheme parsed port _ hport => ?_⟩
    -- A second colon is in the port, which is refused.
    obtain ⟨q, heq, hq, hnot⟩ := exists_append_takeWhile hostPort ':'
    have hinside : ∀ c ∈ hostPort.takeWhile (· ≠ ':'), c ≠ ':' ∧ c ≠ '[' := fun c hc =>
      ⟨fun h => hnot (h ▸ hc), (plain_of_loopback hloop
        ((List.takeWhile_prefix _).subset hc)).2⟩
    have hcountQ : 1 < q.count ':' := by
      rw [heq, List.count_append, List.count_eq_zero.2 hnot, Nat.zero_add] at hcount
      exact hcount
    rcases hq with rfl | ⟨m, rfl⟩
    · exact absurd hcountQ (by decide)
    rw [List.count_cons_self] at hcountQ
    have hm : ':' ∈ m := List.count_pos_iff.1 (Nat.lt_of_succ_lt_succ hcountQ)
    rw [heq, (hostEnd_outside hinside m).2, portParser, if_neg] at hport
    · cases hport
    · rintro ⟨hall, -⟩
      exact absurd (List.all_eq_true.1 hall ':' hm) (by decide)
  · rw [cleaned_append hplain]
    refine ⟨List.append_ne_nil_of_left_ne_nil hne _, fun scheme parsed port hparsed _ => ?_⟩
    have hinside : ∀ c ∈ host, c ≠ ':' ∧ c ≠ '[' := fun c hc =>
      ⟨fun h => hnot (h ▸ hc), (plain_of_loopback hloop hc).2⟩
    have hend : (hostEnd false (host ++ cleaned e q)).1 = host := by
      rcases cleaned_rest (by decide) hq e with hnil | ⟨m, hcons⟩
      · rw [hnil, List.append_nil, (hostEnd_outside hinside []).1]
      · rw [hcons, (hostEnd_outside hinside m).2]
    rw [hend] at hparsed
    exact plain_host ascii hloop hnot hparsed

/-- What the check reads behind the scheme. -/
theorem urlHost_eq {url rest : List Char} (hrest : stripPrefix "http://".toList url = some rest)
    (h : (rest.takeWhile fun c => !endsAuthority c).rtakeWhile (· ≠ '@') = hostPort) :
    urlHost url =
      match stripPrefix ['['] hostPort with
      | some afterBracket => some (afterBracket.takeWhile (· ≠ ']'))
      | none =>
        if 1 < hostPort.count ':' then some hostPort else some (hostPort.takeWhile (· ≠ ':')) := by
  rw [urlHost, hrest, ← h]
  rfl

/-- Where the check has found a loopback host, so has the parser. -/
theorem parseAuthority_loopback (ascii : DomainToAscii) (r : List Char)
    (h : isLoopbackUrl ("http://".toList ++ r) = true) {u : Url}
    (hu : parseAuthority ascii .http (cleaned true r) = some u) :
    u.scheme = .http ∧ LoopbackHost u.host := by
  set hostPort := (r.takeWhile fun c => !endsAuthority c).rtakeWhile (· ≠ '@') with hhostPort
  have hrest := stripPrefix_append "http://".toList r
  have hurlHost := urlHost_eq hrest hhostPort.symm
  obtain ⟨host, hloop, hhost⟩ : ∃ host, hostIsLoopback host = true ∧
      ((∃ q, hostPort = '[' :: host ++ q ∧ (q = [] ∨ ∃ m, q = ']' :: m) ∧ ']' ∉ host) ∨
        (hostPort = host ∧ 1 < host.count ':') ∨
        ∃ q, hostPort = host ++ q ∧ (q = [] ∨ ∃ m, q = ':' :: m) ∧ ':' ∉ host) := by
    rw [isLoopbackUrl, hurlHost] at h
    rcases hopen : stripPrefix ['['] hostPort with _ | afterBracket
    · rw [hopen] at h
      dsimp only at h
      split at h
      · next hcount => exact ⟨hostPort, h, .inr (.inl ⟨rfl, hcount⟩)⟩
      · exact ⟨_, h, .inr (.inr (exists_append_takeWhile hostPort ':'))⟩
    · rw [hopen] at h
      obtain ⟨q, heq, hq, hnot⟩ := exists_append_takeWhile afterBracket ']'
      refine ⟨_, h, .inl ⟨q, ?_, hq, hnot⟩⟩
      unfold stripPrefix at hopen
      split at hopen
      · next hstarts =>
        obtain ⟨tail, htail⟩ := List.isPrefixOf_iff_prefix.1 hstarts
        rw [← htail, List.singleton_append, List.length_singleton, List.drop_one,
          List.tail_cons, Option.some.injEq] at hopen
        rw [← htail, List.singleton_append, hopen, List.cons_append, ← heq]
      · cases hopen
  have hclean := loopback_of_hostPort ascii hloop hhost
  obtain ⟨e, hauthority⟩ := exists_authority r fun e hnil => by
    have hcut := rtakeWhile_cleaned e (r.takeWhile fun c => !endsAuthority c)
    rw [hnil, List.rtakeWhile_nil] at hcut
    exact (hclean e).1 hcut.symm
  obtain ⟨hscheme, hparsed, port, hport⟩ := parseAuthority_eq_some hu rfl
  rw [hauthority, rtakeWhile_cleaned] at hparsed hport
  exact ⟨hscheme, (hclean e).2 _ _ port hparsed hport⟩

end Sound

/-! ### Canonical URLs -/

/-- A loopback host as it is serialized. -/
inductive CanonicalHost where
  | localhost
  | ipv4 (b c d : UInt8)
  | ipv6

/-- A number in decimal. -/
def octetText (n : UInt8) : List Char := Nat.toDigits 10 n.toNat

def CanonicalHost.text : CanonicalHost → List Char
  | .localhost => "localhost".toList
  | .ipv4 b c d => ['.'].intercalate [['1', '2', '7'], octetText b, octetText c, octetText d]
  | .ipv6 => "[::1]".toList

/-- An `http` URL of a loopback host as it is serialized. What would end the userinfo is escaped
    in it. -/
structure CanonicalUrl where
  userinfo : Option (List Char)
  userinfo_escaped : ∀ t ∈ userinfo, ∀ c ∈ t, endsAuthority c = false ∧ c ≠ '@'
  host : CanonicalHost
  port : Option UInt16
  path : List (List Char)
  query : Option (List Char)
  fragment : Option (List Char)

def CanonicalUrl.userinfoText (u : CanonicalUrl) : List Char := u.userinfo.elim [] (· ++ ['@'])

def CanonicalUrl.portText (u : CanonicalUrl) : List Char :=
  u.port.elim [] fun p => ':' :: Nat.toDigits 10 p.toNat

def CanonicalUrl.behindAuthority (u : CanonicalUrl) : List Char :=
  u.path.flatMap ('/' :: ·) ++ u.query.elim [] ('?' :: ·) ++ u.fragment.elim [] ('#' :: ·)

def CanonicalUrl.text (u : CanonicalUrl) : List Char :=
  "http://".toList ++
    (u.userinfoText ++ (u.host.text ++ u.portText) ++ u.behindAuthority)

section Canonical

variable (u : CanonicalUrl)

theorem octet_octetText (n : UInt8) : octet (octetText n) = some n.toNat := by
  have hall : ∀ n < 256, octet (Nat.toDigits 10 n) = some n := by decide +kernel
  exact hall n.toNat n.toNat_lt

theorem isDigit_of_mem_digits {n : ℕ} {c : Char} (hc : c ∈ Nat.toDigits 10 n) : c.isDigit = true :=
  Nat.isDigit_of_mem_toDigits (by decide) (by decide) hc

/-- The address that a canonical dotted quad is read as. -/
theorem parseIpv4_canonical (b c d : UInt8) :
    parseIpv4 (CanonicalHost.ipv4 b c d).text =
      some (127, b.toNat, c.toNat, d.toNat) := by
  have hdots : ∀ p ∈ [['1', '2', '7'], octetText b, octetText c, octetText d], '.' ∉ p := by
    have hdigits : ∀ n : UInt8, '.' ∉ octetText n := fun n h =>
      absurd (isDigit_of_mem_digits h) (by decide)
    intro p hp
    simp only [List.mem_cons, List.not_mem_nil, or_false] at hp
    rcases hp with rfl | rfl | rfl | rfl
    · decide
    · exact hdigits b
    · exact hdigits c
    · exact hdigits d
  have hsplit : (CanonicalHost.ipv4 b c d).text.splitOn '.' =
      [['1', '2', '7'], octetText b, octetText c, octetText d] :=
    List.splitOn_intercalate _ hdots (List.cons_ne_nil _ _)
  rw [parseIpv4, hsplit]
  simp only [octet_octetText, show octet ['1', '2', '7'] = some 127 by decide,
    Option.pure_def, Option.bind_eq_bind, Option.bind_some]

/-- What a canonical host other than a bracketed one is made of. -/
theorem plain_canonical {host : CanonicalHost} (hhost : host ≠ .ipv6) {c : Char}
    (hc : c ∈ host.text) : c.isDigit ∨ c.isLower ∨ c = '.' := by
  cases host with
  | localhost =>
    have hall : "localhost".toList.all Char.isLower = true := rfl
    exact .inr (.inl (List.all_eq_true.1 hall c hc))
  | ipv4 b d e => exact (mem_of_parseIpv4 (parseIpv4_canonical b d e) hc).imp_right .inr
  | ipv6 => exact absurd rfl hhost

theorem not_delimiter {c : Char} (h : c.isDigit ∨ c.isLower ∨ c = '.') :
    endsAuthority c = false ∧ c ≠ '@' ∧ c ≠ ':' ∧ c ≠ '[' := by
  refine ⟨?_, ?_, ?_, ?_⟩
  · rcases he : endsAuthority c with _ | _
    · rfl
    · have hcases : c = '/' ∨ c = '?' ∨ c = '#' ∨ c = '\\' := by
        simpa [endsAuthority, or_assoc] using he
      rcases hcases with rfl | rfl | rfl | rfl
      · exact absurd h (by decide)
      · exact absurd h (by decide)
      · exact absurd h (by decide)
      · exact absurd h (by decide)
  · rintro rfl
    exact absurd h (by decide)
  · rintro rfl
    exact absurd h (by decide)
  · rintro rfl
    exact absurd h (by decide)

/-- The characters of the host and the port end neither the authority nor the userinfo. -/
theorem mem_hostPort {c : Char} (hc : c ∈ u.host.text ++ u.portText) :
    endsAuthority c = false ∧ c ≠ '@' := by
  rcases List.mem_append.1 hc with hc | hc
  · by_cases hhost : u.host = .ipv6
    · have hall : "[::1]".toList.all (fun c => !endsAuthority c && c ≠ '@') = true := rfl
      rw [hhost] at hc
      simpa using List.all_eq_true.1 hall c hc
    · have h := not_delimiter (plain_canonical hhost hc)
      exact ⟨h.1, h.2.1⟩
  · unfold CanonicalUrl.portText at hc
    rcases hport : u.port with _ | p
    · rw [hport] at hc
      cases hc
    · rw [hport, Option.elim_some, List.mem_cons] at hc
      rcases hc with rfl | hc
      · decide
      · have h := not_delimiter (.inl (isDigit_of_mem_digits hc))
        exact ⟨h.1, h.2.1⟩

/-- What is behind the authority starts by ending it. -/
theorem behindAuthority_start :
    u.behindAuthority = [] ∨ ∃ x rest, u.behindAuthority = x :: rest ∧ endsAuthority x = true := by
  unfold CanonicalUrl.behindAuthority
  rcases u.path with _ | ⟨segment, path⟩
  · rcases u.query with _ | query
    · rcases u.fragment with _ | fragment
      · exact .inl rfl
      · exact .inr ⟨'#', fragment, rfl, rfl⟩
    · exact .inr ⟨'?', _, rfl, rfl⟩
  · exact .inr ⟨'/', _, rfl, rfl⟩

/-- The authority of a canonical URL. -/
theorem authority_canonical :
    (u.userinfoText ++ (u.host.text ++ u.portText) ++ u.behindAuthority).takeWhile
      (fun c => !endsAuthority c) = u.userinfoText ++ (u.host.text ++ u.portText) := by
  have hall : ∀ c ∈ u.userinfoText ++ (u.host.text ++ u.portText), (!endsAuthority c) = true := by
    intro c hc
    rcases List.mem_append.1 hc with hc | hc
    · unfold CanonicalUrl.userinfoText at hc
      rcases hinfo : u.userinfo with _ | t
      · rw [hinfo] at hc
        cases hc
      · rw [hinfo, Option.elim_some, List.mem_append, List.mem_singleton] at hc
        rcases hc with hc | rfl
        · rw [(u.userinfo_escaped t (by rw [hinfo]; rfl) c hc).1]
          rfl
        · rfl
    · rw [(mem_hostPort u hc).1]
      rfl
  rw [List.takeWhile_append_of_pos hall]
  rcases behindAuthority_start u with hnil | ⟨x, rest, hcons, hx⟩
  · rw [hnil, List.takeWhile_nil, List.append_nil]
  · rw [hcons, List.takeWhile_cons_of_neg (by simp [hx]), List.append_nil]

/-- What is behind the userinfo of a canonical URL. -/
theorem hostPort_canonical :
    (u.userinfoText ++ (u.host.text ++ u.portText)).rtakeWhile (· ≠ '@') =
      u.host.text ++ u.portText := by
  have hall : ∀ c ∈ u.host.text ++ u.portText, decide (c ≠ '@') = true := fun c hc =>
    decide_eq_true (mem_hostPort u hc).2
  unfold CanonicalUrl.userinfoText
  rcases u.userinfo with _ | t
  · exact List.rtakeWhile_eq_self_iff.2 hall
  · rw [Option.elim_some, List.append_assoc, List.singleton_append, List.rtakeWhile,
      List.reverse_append, List.reverse_cons, List.append_assoc,
      List.takeWhile_append_of_pos (fun c hc => hall c (List.mem_reverse.1 hc)),
      List.singleton_append, List.takeWhile_cons_of_neg (by decide), List.append_nil,
      List.reverse_reverse]

/-- A port has no colon besides its own. -/
theorem portText_cases : u.portText = [] ∨ ∃ digits, u.portText = ':' :: digits ∧
    ':' ∉ digits := by
  unfold CanonicalUrl.portText
  rcases u.port with _ | p
  · exact .inl rfl
  · exact .inr ⟨_, rfl, fun h => absurd (isDigit_of_mem_digits h) (by decide)⟩

/-- A canonical URL of a loopback host is loopback to the check. -/
theorem isLoopbackUrl_canonical : isLoopbackUrl u.text = true := by
  have hrest : stripPrefix "http://".toList u.text =
      some (u.userinfoText ++ (u.host.text ++ u.portText) ++ u.behindAuthority) :=
    stripPrefix_append _ _
  have hurlHost := urlHost_eq hrest (authority_canonical u ▸ hostPort_canonical u)
  rw [isLoopbackUrl, hurlHost]
  by_cases hhost : u.host = .ipv6
  · rw [hhost]
    rfl
  · have hplain := fun c hc => (not_delimiter (plain_canonical hhost (c := c) hc)).2.2
    have hbracket : stripPrefix ['['] (u.host.text ++ u.portText) = none := by
      rw [stripPrefix, if_neg]
      intro hstarts
      obtain ⟨tail, htail⟩ := List.isPrefixOf_iff_prefix.1 hstarts
      have hmem : '[' ∈ u.host.text ++ u.portText := htail ▸ List.mem_cons_self
      rcases List.mem_append.1 hmem with h | h
      · exact (hplain _ h).2 rfl
      · rcases portText_cases u with hport | ⟨digits, hport, -⟩
        · rw [hport] at h
          cases h
        · have hstart : (u.host.text ++ u.portText).head? = some '[' := by
            rw [← htail]
            rfl
          rcases hhead : u.host.text with _ | ⟨x, text⟩
          · rw [hhead, hport] at hstart
            cases hstart
          · rw [hhead, List.cons_append, List.head?_cons, Option.some.injEq] at hstart
            exact (hplain x (hhead ▸ List.mem_cons_self)).2 hstart
    have hnot : u.host.text.count ':' = 0 :=
      List.count_eq_zero.2 fun h => (hplain _ h).1 rfl
    have hcount : ¬1 < (u.host.text ++ u.portText).count ':' := by
      rw [List.count_append, hnot]
      rcases portText_cases u with hport | ⟨digits, hport, hdigits⟩
      · rw [hport, List.count_nil]
        decide
      · rw [hport, List.count_cons_self, List.count_eq_zero.2 hdigits]
        decide
    have htake : (u.host.text ++ u.portText).takeWhile (· ≠ ':') = u.host.text := by
      rw [List.takeWhile_append_of_pos fun c hc => decide_eq_true (hplain c hc).1]
      rcases portText_cases u with hport | ⟨digits, hport, -⟩
      · rw [hport, List.takeWhile_nil, List.append_nil]
      · rw [hport, List.takeWhile_cons_of_neg (by decide), List.append_nil]
    rw [hbracket]
    dsimp only
    rw [if_neg hcount, htake]
    show hostIsLoopback u.host.text = true
    rcases hcases : u.host with _ | ⟨b, c, d⟩ | _
    · decide
    · have hne : (CanonicalHost.ipv4 b c d).text ≠ "localhost".toList := by
        intro h
        have hparse := parseIpv4_canonical b c d
        rw [h] at hparse
        exact absurd hparse (by rw [show parseIpv4 "localhost".toList = none by decide]; simp)
      rw [hostIsLoopback, if_neg hne, parseIpv4_canonical]
      rfl
    · exact absurd hcases hhost

end Canonical

/-- The check of the transport against the parser that connects: what the check lets through is
    `https`, or refused by the parser, or `http` to a host that is loopback to the parser; and a
    canonical URL of a loopback host is let through, whatever its other parts. -/
theorem transportLaw (ascii : DomainToAscii) :
    (∀ url, validateTransportUrl url = .ok () →
      (∃ u, parseUrl ascii url = .url u ∧ u.scheme = .https) ∨ parseUrl ascii url = .failure ∨
        ∃ u, parseUrl ascii url = .url u ∧ u.scheme = .http ∧ LoopbackHost u.host) ∧
      ∀ u : CanonicalUrl, validateTransportUrl u.text = .ok () := by
  constructor
  · intro url h
    unfold validateTransportUrl at h
    split at h
    · next hstarts =>
      obtain ⟨r, rfl⟩ := List.isPrefixOf_iff_prefix.1 hstarts
      rw [(parseUrl_append ascii r).2]
      rcases hu : parseAuthority ascii .https (cleaned true r) with _ | u
      · exact .inr (.inl rfl)
      · exact .inl ⟨u, rfl, (parseAuthority_eq_some hu rfl).1⟩
    · split at h
      · next hstarts =>
        split at h
        · next hloop =>
          obtain ⟨r, rfl⟩ := List.isPrefixOf_iff_prefix.1 hstarts
          rw [(parseUrl_append ascii r).1]
          rcases hu : parseAuthority ascii .http (cleaned true r) with _ | u
          · exact .inr (.inl rfl)
          · exact .inr (.inr ⟨u, rfl, parseAuthority_loopback ascii r hloop hu⟩)
        · cases h
      · cases h
  · intro u
    have hhttp : "http://".toList.isPrefixOf u.text = true :=
      List.isPrefixOf_iff_prefix.2 (List.prefix_append _ _)
    by_cases hhttps : "https://".toList.isPrefixOf u.text = true
    · exact if_pos hhttps
    · rw [validateTransportUrl, if_neg hhttps, if_pos hhttp, if_pos (isLoopbackUrl_canonical u)]

/-- Names of lower-case letters, digits and dots only, and no other names. -/
def plainNames : DomainToAscii where
  run t := if t ≠ [] ∧ (t.all fun c => c.isLower || c.isDigit || c = '.') then some t else none
  plain _ hne h := if_pos ⟨hne, List.all_eq_true.2 fun c hc => by simpa [or_assoc] using h c hc⟩

example : parseUrl plainNames "http://user@localhost:80\\@evil".toList =
    .url ⟨.http, "user@".toList, .domain "localhost".toList, none, "\\@evil".toList⟩ := by
  decide +kernel

end Spelunk
