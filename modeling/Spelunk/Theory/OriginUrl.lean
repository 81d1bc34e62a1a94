import Mathlib
import Spelunk.Core.ProjectId
import Spelunk.Lib.GitConfig

/-!
# The URL in a Config

`extractOriginUrl` takes the lines of a config one at a time. What it finds is the first of the URLs
of the origin whose header has a line of its own and reads `[remote "origin"]`, and whose key reads
`url`.

## Main definitions

* `PlainSetting`: A URL that is seen.

## Theorems

* `extractOriginUrl_configText`: The first URL that is seen is the one that is found.
* `originUrlLaw`: When that is the URL of the origin.
-/

namespace Spelunk

open Lib

/-! ### Lines and what is trimmed of them -/

section Lines

variable {inOrigin : Bool}

theorem originUrlFrom_append_nil (inOrigin : Bool) (ls : List String) :
    originUrlFrom inOrigin (ls ++ [String.ofList []]) = originUrlFrom inOrigin ls := by
  induction ls generalizing inOrigin with
  | nil =>
    cases inOrigin
    · simp [originUrlFrom, trim]
    · simp [originUrlFrom, trim, urlLine, stripPrefix]
  | cons line ls ih =>
    rw [List.cons_append, originUrlFrom, originUrlFrom, ih, ih]

theorem trim_stripCarriageReturn (t : List Char) : trim (stripCarriageReturn t) = trim t := by
  unfold stripCarriageReturn
  split
  · next h =>
    obtain ⟨init, rfl⟩ := List.getLast?_eq_some_iff.1 h
    rw [List.dropLast_concat, trim_append_whiteSpace init (by decide)]
  · rfl

theorem originUrlFrom_map (inOrigin : Bool) (ls rest : List String) (f : List Char → List Char)
    (hf : ∀ t, trim (f t) = trim t) :
    originUrlFrom inOrigin (ls.map (fun l => String.ofList (f l.toList)) ++ rest) =
      originUrlFrom inOrigin (ls ++ rest) := by
  induction ls generalizing inOrigin with
  | nil => rfl
  | cons line ls ih =>
    rw [List.map_cons, List.cons_append, List.cons_append, originUrlFrom, originUrlFrom,
      String.toList_ofList, hf, ih, ih]

/-- Line ends do not matter. -/
theorem originUrlFrom_lines (inOrigin : Bool) (t : List Char) :
    originUrlFrom inOrigin (lines (String.ofList t)) =
      originUrlFrom inOrigin ((t.splitOn '\n').map String.ofList) := by
  have hne : t.splitOn '\n' ≠ [] := List.splitOn_ne_nil _ _
  obtain ⟨init, last, hparts⟩ := List.eq_nil_or_concat (t.splitOn '\n') |>.resolve_left hne
  rw [List.concat_eq_append] at hparts
  have hmap : ∀ rest : List String,
      originUrlFrom inOrigin ((init.map stripCarriageReturn).map String.ofList ++ rest) =
        originUrlFrom inOrigin (init.map String.ofList ++ rest) := by
    intro rest
    rw [← originUrlFrom_map inOrigin (init.map String.ofList) rest _ trim_stripCarriageReturn]
    simp [Function.comp_def]
  rw [lines, String.toList_ofList, hparts, List.dropLast_concat, List.getLast?_concat]
  rcases last with _ | ⟨c, last⟩
  · rw [List.append_nil, List.map_append, ← List.append_nil (List.map String.ofList _), hmap,
      List.append_nil]
    exact (originUrlFrom_append_nil _ _).symm
  · rw [List.map_append, hmap, List.map_append]
    rfl

end Lines

/-! ### White space -/

section WhiteSpace

variable {a b t : List Char} {c : Char}

theorem isWhiteSpace_of_isConfigSpace (h : isConfigSpace c = true) : isWhiteSpace c = true := by
  simp only [isConfigSpace, Bool.or_eq_true, decide_eq_true_eq] at h
  rcases h with (rfl | rfl) | rfl
  all_goals rfl

theorem isWhiteSpace_of_isKeyChar (h : isKeyChar c = true) : isWhiteSpace c = false := by
  have hrange : (65 ≤ c.toNat ∧ c.toNat ≤ 90) ∨ (97 ≤ c.toNat ∧ c.toNat ≤ 122) ∨
      (48 ≤ c.toNat ∧ c.toNat ≤ 57) ∨ c.toNat = 45 := by
    simp only [isKeyChar, Char.isAlphanum, Char.isAlpha, Char.isUpper, Char.isLower, Char.isDigit,
      Bool.or_eq_true, Bool.and_eq_true, decide_eq_true_eq] at h
    rcases h with ((h | h) | h) | rfl
    · exact .inl ⟨h.1, h.2⟩
    · exact .inr (.inl ⟨h.1, h.2⟩)
    · exact .inr (.inr (.inl ⟨h.1, h.2⟩))
    · exact .inr (.inr (.inr rfl))
  simp only [isWhiteSpace, Bool.or_eq_false_iff, Bool.and_eq_false_iff, decide_eq_false_iff_not,
    beq_eq_false_iff_ne]
  omega

theorem trim_append_left (ha : ∀ c ∈ a, isWhiteSpace c = true) (b : List Char) :
    trim (a ++ b) = trim b := by
  rw [trim, List.dropWhile_append, List.dropWhile_eq_nil_iff.2 ha]
  rfl

/-- A text that begins with a character that stays. -/
theorem trim_cons (hc : isWhiteSpace c = false) (t : List Char) :
    trim (c :: t) = c :: t.rdropWhile isWhiteSpace := by
  rw [trim, List.dropWhile_cons_of_neg (by simp [hc])]
  exact rdropWhile_append_cons [] t hc

theorem exists_trim (t : List Char) : ∃ a b, t = a ++ (trim t ++ b) ∧
    (∀ c ∈ a, isWhiteSpace c = true) ∧ ∀ c ∈ b, isWhiteSpace c = true := by
  refine ⟨t.takeWhile isWhiteSpace, (t.dropWhile isWhiteSpace).rtakeWhile isWhiteSpace, ?_,
    fun c hc => List.mem_takeWhile_imp hc, fun c hc => List.mem_rtakeWhile_imp hc⟩
  rw [trim, List.rdropWhile_append_rtakeWhile, List.takeWhile_append_dropWhile]

end WhiteSpace

/-! ### Lines with a header -/

section Headers

/-- `[remote "origin"]`. -/
def originLine : List Char :=
  ['[', 'r', 'e', 'm', 'o', 't', 'e', ' ', '"', 'o', 'r', 'i', 'g', 'i', 'n', '"', ']']

theorem isOriginHeader_originLine : isOriginHeader originLine = true := by decide

/-- A subsection whose text begins with a word and a quote is the word. -/
theorem subsectionText_eq {chars : List (Bool × Char)} {word a b : List Char}
    (hchars : ∀ x ∈ chars, x.1 = false → x.2 ≠ '"' ∧ x.2 ≠ '\\')
    (hword : ∀ c ∈ word, c ≠ '"' ∧ c ≠ '\\')
    (h : subsectionText chars ++ '"' :: a = word ++ '"' :: b) :
    chars = word.map (false, ·) ∧ a = b := by
  induction word generalizing chars with
  | nil =>
    rcases chars with _ | ⟨⟨_ | _, c⟩, chars⟩
    · exact ⟨rfl, (List.cons.inj h).2⟩
    · exact absurd (List.cons.inj h).1 (hchars _ List.mem_cons_self rfl).1
    · exact absurd (List.cons.inj h).1 (by decide)
  | cons x word ih =>
    have hx := hword x List.mem_cons_self
    rcases chars with _ | ⟨⟨_ | _, c⟩, chars⟩
    · exact absurd (List.cons.inj h).1.symm hx.1
    · obtain ⟨hc, hrest⟩ := List.cons.inj h
      obtain ⟨hmap, hab⟩ := ih (fun x hx => hchars x (List.mem_cons_of_mem _ hx))
        (fun c hc => hword c (List.mem_cons_of_mem _ hc)) hrest
      rw [List.map_cons, ← hmap]
      exact ⟨congrArg (fun c => (false, c) :: chars) hc, hab⟩
    · exact absurd (List.cons.inj h).1.symm hx.2

/-- Where a line goes on, it does not go on with a bracket that closes. -/
theorem head?_line_ne (hs : List (List Char × ConfigHeader)) {gap : List Char} (tail : ConfigTail)
    (hhs : ∀ h ∈ hs, ∀ c ∈ h.1, isConfigSpace c = true)
    (hgap : ∀ c ∈ gap, isConfigSpace c = true) :
    (headersText hs ++ (gap ++ tail.text)).head? ≠ some ']' := by
  have hspace : ∀ (gap t : List Char), (∀ c ∈ gap, isConfigSpace c = true) →
      t.head? ≠ some ']' → (gap ++ t).head? ≠ some ']' := by
    intro gap t hgap ht
    rcases gap with _ | ⟨c, gap⟩
    · exact ht
    · intro h
      have hc := hgap c List.mem_cons_self
      rw [Option.some.inj h] at hc
      exact absurd hc (by decide)
  rcases hs with _ | ⟨⟨g, h⟩, hs⟩
  · refine hspace gap _ hgap ?_
    rcases tail with _ | ⟨sign, text, hsign⟩ | e
    · exact fun h => nomatch h
    · intro h
      rcases hsign.1 with rfl | rfl
      · exact absurd (Option.some.inj h) (by decide)
      · exact absurd (Option.some.inj h) (by decide)
    · rcases hkey : e.key with _ | ⟨k, key⟩
      · exact absurd hkey e.key_ne_nil
      · intro h
        have hk : isKeyChar k = true := e.key_chars k (hkey ▸ List.mem_cons_self)
        rw [ConfigTail.text, ConfigEntry.text, hkey] at h
        rw [Option.some.inj h] at hk
        exact absurd hk (by decide)
  · rw [headersText, List.append_assoc]
    refine hspace g _ (hhs _ List.mem_cons_self) ?_
    exact fun h => absurd (Option.some.inj h) (by decide)

/-- A line of white space alone. -/
theorem line_blank {hs : List (List Char × ConfigHeader)} {gap : List Char} {tail : ConfigTail}
    (h : ∀ c ∈ headersText hs ++ (gap ++ tail.text), isWhiteSpace c = true) :
    hs = [] ∧ tail = .blank := by
  rw [List.forall_mem_append, List.forall_mem_append] at h
  obtain ⟨hheaders, -, htail⟩ := h
  constructor
  · rcases hs with _ | ⟨⟨g, hd⟩, hs⟩
    · rfl
    · have := hheaders '[' (List.mem_append_right _ List.mem_cons_self)
      exact absurd this (by decide)
  · rcases tail with _ | ⟨sign, text, hsign⟩ | e
    · rfl
    · have := htail sign List.mem_cons_self
      rcases hsign.1 with rfl | rfl
      · exact absurd this (by decide)
      · exact absurd this (by decide)
    · rcases hkey : e.key with _ | ⟨k, key⟩
      · exact absurd hkey e.key_ne_nil
      · have hk := isWhiteSpace_of_isKeyChar (e.key_chars k (hkey ▸ List.mem_cons_self))
        have := htail k (List.mem_append_left _ (hkey ▸ List.mem_cons_self))
        rw [hk] at this
        cases this

/-- The name of a section stands up to the first character that is no part of it. -/
theorem takeWhile_name (h : ConfigHeader) (t : List Char) :
    (h.name ++ (h.subText ++ ']' :: t)).takeWhile isNameChar = h.name := by
  rw [List.takeWhile_append_of_pos h.name_chars]
  rcases hsub : h.sub with _ | ⟨gap, chars⟩
  · rw [ConfigHeader.subText, hsub, Option.elim_none, List.nil_append,
      List.takeWhile_cons_of_neg (by decide), List.append_nil]
  · rw [ConfigHeader.subText, hsub, Option.elim_some]
    rcases hgap : gap with _ | ⟨g, gap⟩
    · exact absurd hgap (h.gap_ne_nil _ hsub)
    · have hspace := h.gap_space _ hsub g (hgap ▸ List.mem_cons_self)
      have hnot : ¬isNameChar g = true := by
        simp only [isConfigSpace, Bool.or_eq_true, decide_eq_true_eq] at hspace
        rcases hspace with (rfl | rfl) | rfl
        all_goals decide
      rw [List.cons_append, List.cons_append, List.takeWhile_cons_of_neg hnot, List.append_nil]

/-- A header whose line begins with the name of the origin, and what follows it. -/
theorem header_eq {h : ConfigHeader} {rest t : List Char}
    (heq : h.name ++ (h.subText ++ ']' :: rest) =
      'r' :: 'e' :: 'm' :: 'o' :: 't' :: 'e' :: ' ' :: '"' :: 'o' :: 'r' :: 'i' :: 'g' :: 'i' ::
        'n' :: '"' :: t) :
    h.opens = "remote.origin".toList ∧ h.text = originLine ∧ ']' :: rest = t := by
  have hname : h.name = ['r', 'e', 'm', 'o', 't', 'e'] := by
    rw [← takeWhile_name h rest, heq]
    rfl
  rw [hname] at heq
  have heq' : ['r', 'e', 'm', 'o', 't', 'e'] ++ (h.subText ++ ']' :: rest) =
      ['r', 'e', 'm', 'o', 't', 'e'] ++
        (' ' :: '"' :: 'o' :: 'r' :: 'i' :: 'g' :: 'i' :: 'n' :: '"' :: t) := heq
  have htail := List.append_cancel_left heq'
  rcases hsub : h.sub with _ | ⟨gap, chars⟩
  · rw [ConfigHeader.subText, hsub] at htail
    exact absurd (List.cons.inj htail).1 (by decide)
  · have hgap : gap = [' '] := by
      have htake := congrArg (List.takeWhile isConfigSpace) htail
      rw [ConfigHeader.subText, hsub, Option.elim_some, List.append_assoc,
        List.takeWhile_append_of_pos (h.gap_space _ hsub), List.cons_append,
        List.takeWhile_cons_of_neg (by decide), List.append_nil] at htake
      exact htake
    rw [ConfigHeader.subText, hsub, Option.elim_some, hgap] at htail
    have hquoted : (subsectionText chars ++ ['"']) ++ ']' :: rest =
        ['o', 'r', 'i', 'g', 'i', 'n'] ++ '"' :: t := (List.cons.inj (List.cons.inj htail).2).2
    rw [List.append_assoc, List.singleton_append] at hquoted
    have hword : ∀ c ∈ ['o', 'r', 'i', 'g', 'i', 'n'], c ≠ '"' ∧ c ≠ '\\' := by
      intro c hc
      simp only [List.mem_cons, List.not_mem_nil, or_false] at hc
      rcases hc with rfl | rfl | rfl | rfl | rfl | rfl
      all_goals decide
    obtain ⟨hchars, hrest⟩ := subsectionText_eq
      (fun x hx => (h.sub_chars _ hsub x hx).2) hword hquoted
    dsimp only at hchars
    refine ⟨?_, ?_, hrest⟩
    · rw [ConfigHeader.opens, hname, hsub, hchars]
      rfl
    · rw [ConfigHeader.text, ConfigHeader.subText, hname, hsub, hgap, hchars]
      rfl

/-- A header has one bracket that opens. -/
theorem dropWhile_header (h : ConfigHeader) (t : List Char) :
    (h.name ++ (h.subText ++ ']' :: t)).dropWhile (· = '[') =
      h.name ++ (h.subText ++ ']' :: t) := by
  rcases hname : h.name with _ | ⟨x, name⟩
  · rcases hsub : h.sub with _ | ⟨gap, chars⟩
    · rw [ConfigHeader.subText, hsub]
      rfl
    · rw [ConfigHeader.subText, hsub, Option.elim_some]
      rcases hgap : gap with _ | ⟨g, gap⟩
      · exact absurd hgap (h.gap_ne_nil _ hsub)
      · have hspace := h.gap_space _ hsub g (hgap ▸ List.mem_cons_self)
        have hg : g ≠ '[' := fun h => absurd (h ▸ hspace) (by decide)
        exact List.dropWhile_cons_of_neg (by simpa using hg)
  · have hchar := h.name_chars x (hname ▸ List.mem_cons_self)
    have hx : x ≠ '[' := fun h => absurd (h ▸ hchar) (by decide)
    exact List.dropWhile_cons_of_neg (by simpa using hx)

/-- There is no white space between the bracket and the name. -/
theorem header_front {h : ConfigHeader} {a rest t : List Char}
    (ha : ∀ c ∈ a, isWhiteSpace c = true)
    (heq : h.name ++ (h.subText ++ ']' :: rest) = a ++ 'r' :: t) : a = [] := by
  rcases a with _ | ⟨w, a⟩
  · rfl
  exfalso
  have hw := ha w List.mem_cons_self
  rcases hname : h.name with _ | ⟨x, name⟩
  · rw [hname, List.nil_append] at heq
    have hdrop := congrArg (List.dropWhile isWhiteSpace) heq
    rw [List.dropWhile_append_of_pos ha, List.dropWhile_cons_of_neg (by decide)] at hdrop
    rcases hsub : h.sub with _ | ⟨gap, chars⟩
    · rw [ConfigHeader.subText, hsub, Option.elim_none, List.nil_append,
        List.dropWhile_cons_of_neg (by decide)] at hdrop
      exact absurd (List.cons.inj hdrop).1 (by decide)
    · rw [ConfigHeader.subText, hsub, Option.elim_some, List.append_assoc,
        List.dropWhile_append_of_pos fun c hc =>
          isWhiteSpace_of_isConfigSpace (h.gap_space _ hsub c hc),
        List.cons_append, List.dropWhile_cons_of_neg (by decide)] at hdrop
      exact absurd (List.cons.inj hdrop).1 (by decide)
  · rw [hname, List.cons_append, List.cons_append] at heq
    have hchar := h.name_chars x (hname ▸ List.mem_cons_self)
    rw [(List.cons.inj heq).1, isNameChar, Bool.or_eq_true, decide_eq_true_eq] at hchar
    rcases hchar with hchar | rfl
    · rw [isWhiteSpace_of_isKeyChar hchar] at hw
      cases hw
    · exact absurd hw (by decide)

/-- A line with headers is taken for that of the origin exactly if it reads `[remote "origin"]`, and
    then that is what it opens. -/
theorem isOriginHeader_line {l : ConfigLine} {g : List Char} {h : ConfigHeader}
    {hs : List (List Char × ConfigHeader)} (hl : l.headers = (g, h) :: hs) :
    (trim l.text).head? = some '[' ∧
      (isOriginHeader (trim l.text) = true →
        trim l.text = originLine ∧ hs = [] ∧ h.opens = "remote.origin".toList) := by
  set rest := headersText hs ++ (l.gap ++ l.tail.text) with hrest
  have htext : l.text = g ++ (('[' :: (h.name ++ h.subText)) ++ ']' :: rest) := by
    rw [ConfigLine.text, hl, headersText, ConfigHeader.text, hrest]
    simp
  have hg : ∀ c ∈ g, isWhiteSpace c = true := fun c hc =>
    isWhiteSpace_of_isConfigSpace (l.headers_space (g, h) (hl ▸ List.mem_cons_self) c hc)
  have htrim : trim l.text = '[' :: (h.name ++ (h.subText ++ ']' ::
      rest.rdropWhile isWhiteSpace)) := by
    rw [htext, trim_append_left hg, List.cons_append, trim_cons (by decide),
      rdropWhile_append_cons _ _ (by decide), List.append_assoc]
  refine ⟨by rw [htrim]; rfl, fun horigin => ?_⟩
  set X := h.name ++ (h.subText ++ ']' :: rest.rdropWhile isWhiteSpace) with hX
  have hhead : X.dropWhile (· = '[') = X := dropWhile_header h _
  rw [htrim, isOriginHeader, List.dropWhile_cons_of_pos (by decide), hhead,
    decide_eq_true_eq] at horigin
  obtain ⟨a, b, hab, ha, hb⟩ := exists_trim (X.rdropWhile (· = ']'))
  set q := X.rtakeWhile (· = ']') with hq
  have hbrackets : ∀ c ∈ q, c = ']' := fun c hc => by
    simpa using List.mem_rtakeWhile_imp hc
  have hsplit : X = a ++ ('r' :: 'e' :: 'm' :: 'o' :: 't' :: 'e' :: ' ' :: '"' :: 'o' :: 'r' ::
      'i' :: 'g' :: 'i' :: 'n' :: '"' :: (b ++ q)) := by
    rw [← List.rdropWhile_append_rtakeWhile (p := (· = ']')) (l := X), hab, horigin,
      List.append_assoc, List.append_assoc]
    rfl
  have hnil : a = [] := header_front ha hsplit
  rw [hnil, List.nil_append] at hsplit
  obtain ⟨hopens, hline, hrest'⟩ := header_eq hsplit
  -- Behind the bracket there is nothing but brackets, and that is not how a line goes on.
  have hb' : b = [] := by
    rcases b with _ | ⟨w, b⟩
    · rfl
    · have hw := hb w List.mem_cons_self
      rw [← (List.cons.inj hrest').1] at hw
      exact absurd hw (by decide)
  rw [hb', List.nil_append] at hrest'
  have hrnil : rest.rdropWhile isWhiteSpace = [] := by
    rcases hr : rest.rdropWhile isWhiteSpace with _ | ⟨c, r⟩
    · rfl
    · have hc : c = ']' := hbrackets c (by
        rw [← hrest', hr]
        exact List.mem_cons_of_mem _ List.mem_cons_self)
      obtain ⟨s, hs'⟩ := List.rdropWhile_prefix isWhiteSpace rest
      refine absurd ?_ (head?_line_ne hs l.tail ?_ l.gap_space)
      · rw [← hrest, ← hs', hr, hc]
        rfl
      · exact fun x hx => l.headers_space x (hl ▸ List.mem_cons_of_mem _ hx)
  obtain ⟨hhs, -⟩ := line_blank (List.rdropWhile_eq_nil_iff.1 hrnil)
  refine ⟨?_, hhs, hopens⟩
  rw [htrim, hX, hrnil, ← hline, ConfigHeader.text]

end Headers

/-! ### Lines without a header -/

section Entries

/-- Without the characters of its key at its front a text has no `url`. -/
theorem stripPrefix_cons_ne {c d : Char} (start t : List Char) (h : c ≠ d) :
    stripPrefix (c :: start) (d :: t) = none := by
  rw [stripPrefix, if_neg (by simp [h])]

theorem urlLine_comment {sign : Char} (hsign : sign = '#' ∨ sign = ';') (t : List Char) :
    urlLine (sign :: t) = none := by
  have hu : 'u' ≠ sign := by
    rcases hsign with rfl | rfl
    all_goals decide
  rw [urlLine]
  exact congrArg (Option.bind · _) (stripPrefix_cons_ne ['r', 'l'] t hu)

/-- A word in front of a text lies in the part whose end it cannot pass. -/
theorem isPrefix_of_append {w a b : List Char} (h : w <+: a ++ b) (hb : ∀ c ∈ b.head?, c ∉ w) :
    w <+: a := by
  rcases List.prefix_or_prefix_of_prefix h (List.prefix_append a b) with hwa | ⟨w', rfl⟩
  · exact hwa
  rcases w' with _ | ⟨c, w'⟩
  · rw [List.append_nil]
  · obtain ⟨t, ht⟩ := (List.prefix_append_right_inj a).1 h
    rw [← ht] at hb
    exact absurd (List.mem_append_right _ List.mem_cons_self) (hb c rfl)

/-- What is left of the line of a key: its white space is gone at both ends. -/
theorem trim_entry (e : ConfigEntry) :
    trim e.text = e.key ++
      (e.raw.elim [] fun raw => e.gap ++ '=' :: raw.rdropWhile isWhiteSpace) := by
  have hkey : ∀ c ∈ e.key, isWhiteSpace c = false := fun c hc =>
    isWhiteSpace_of_isKeyChar (e.key_chars c hc)
  have hfront : ∀ t, trim (e.key ++ t) = (e.key ++ t).rdropWhile isWhiteSpace := by
    intro t
    rcases h : e.key with _ | ⟨k, key⟩
    · exact absurd h e.key_ne_nil
    · rw [List.cons_append, trim, List.dropWhile_cons_of_neg]
      rw [hkey k (h ▸ List.mem_cons_self)]
      exact Bool.false_ne_true
  rw [ConfigEntry.text, hfront]
  rcases e.raw with _ | raw
  · have hself : e.key.rdropWhile isWhiteSpace = e.key := by
      refine List.rdropWhile_eq_self_iff.2 fun hne => ?_
      rw [hkey _ (List.getLast_mem hne)]
      exact Bool.false_ne_true
    have hgap : ∀ c ∈ e.gap.reverse, isWhiteSpace c = true := fun c hc =>
      isWhiteSpace_of_isConfigSpace (e.gap_space c (List.mem_reverse.1 hc))
    rw [Option.elim_none, Option.elim_none, List.append_nil, List.append_nil]
    conv_lhs => rw [List.rdropWhile]
    rw [List.reverse_append, List.dropWhile_append_of_pos hgap]
    exact hself
  · rw [Option.elim_some, Option.elim_some, ← List.append_assoc,
      rdropWhile_append_cons _ _ (by decide), List.append_assoc]

/-- The line of a key is that of a URL exactly if the key reads `url` and has a value. -/
theorem urlLine_entry (e : ConfigEntry) :
    urlLine (trim e.text) = if e.key = "url".toList then e.raw.map trim else none := by
  set t := e.raw.elim [] fun raw => e.gap ++ '=' :: raw.rdropWhile isWhiteSpace with ht
  have hdrop : stripPrefix ['='] (t.dropWhile isWhiteSpace) =
      e.raw.map (·.rdropWhile isWhiteSpace) := by
    rw [ht]
    rcases e.raw with _ | raw
    · rfl
    · rw [Option.elim_some, List.dropWhile_append_of_pos fun c hc =>
        isWhiteSpace_of_isConfigSpace (e.gap_space c hc), List.dropWhile_cons_of_neg (by decide)]
      exact stripPrefix_append ['='] _
  have hnext : ∀ c ∈ t.head?, c ∉ "url".toList := by
    rw [ht]
    rcases e.raw with _ | raw
    · exact fun c hc => nomatch hc
    · rcases hgap : e.gap with _ | ⟨g, gap⟩
      · rintro c hc
        rw [← Option.mem_some.1 hc]
        decide
      · rintro c hc hmem
        have hg := e.gap_space g (hgap ▸ List.mem_cons_self)
        rw [Option.mem_some.1 hc] at hg
        have hletter : c ∈ ['u', 'r', 'l'] := hmem
        simp only [List.mem_cons, List.not_mem_nil, or_false] at hletter
        rcases hletter with rfl | rfl | rfl
        all_goals exact absurd hg (by decide)
  rw [trim_entry, ← ht]
  by_cases hurl : "url".toList <+: e.key
  · obtain ⟨k, hk⟩ := hurl
    rw [urlLine, ← hk, List.append_assoc, stripPrefix_append, Option.bind_some]
    rcases k with _ | ⟨x, k⟩
    · rw [List.nil_append, hdrop, List.append_nil, if_pos rfl, Option.map_map]
      exact congrArg (Option.map · e.raw) (funext trim_rdropWhile)
    · have hx := e.key_chars x (hk ▸ List.mem_append_right _ List.mem_cons_self)
      have heq : '=' ≠ x := fun h => absurd (h ▸ hx) (by decide)
      rw [List.cons_append, List.dropWhile_cons_of_neg (by simp [isWhiteSpace_of_isKeyChar hx]),
        stripPrefix_cons_ne _ _ heq, if_neg]
      · rfl
      · intro h
        exact absurd (congrArg List.length h) (by simp)
  · rw [urlLine, stripPrefix, if_neg, if_neg]
    · rfl
    · exact fun h => hurl (h ▸ List.prefix_rfl)
    · rw [List.isPrefixOf_iff_prefix]
      exact fun h => hurl (isPrefix_of_append h hnext)

end Entries

/-! ### Whole configs -/

section Configs

/-- A URL is seen if the header of its section has a line of its own that reads `[remote "origin"]`,
    and it has one too and its key reads `url`. -/
def isPlainSetting (s : Setting) : Bool :=
  trim s.header.text = originLine && s.line.headers.isEmpty && s.entry.key = "url".toList

/-- The URLs of the origin, in order. -/
def originUrls (doc : List ConfigLine) : List Setting :=
  settings "remote.origin".toList "url".toList doc

/-- Whether the loop takes a section for that of the origin. -/
def readsOrigin (opened : Option ConfigLine) : Bool :=
  opened.any fun l => trim l.text = originLine

theorem readsOrigin_sectionAfter {l : ConfigLine} {x : List Char × ConfigHeader}
    {hs : List (List Char × ConfigHeader)} (hl : l.headers = x :: hs)
    (opened : Option ConfigLine) :
    readsOrigin (sectionAfter "remote.origin".toList opened l) = isOriginHeader (trim l.text) := by
  obtain ⟨-, horigin⟩ := isOriginHeader_line hl
  by_cases h : isOriginHeader (trim l.text) = true
  · obtain ⟨htrim, hhs, hopens⟩ := horigin h
    rw [h, sectionAfter, hl, hhs, List.getLast?_singleton]
    dsimp only
    rw [if_pos hopens]
    exact decide_eq_true htrim
  · have hne : trim l.text ≠ originLine := fun heq => h (heq ▸ isOriginHeader_originLine)
    have hlast : (x :: hs).getLast? = some ((x :: hs).getLast (by simp)) :=
      List.getLast?_eq_some_getLast (by simp)
    rw [Bool.not_eq_true] at h
    rw [h, sectionAfter, hl, hlast]
    dsimp only
    split
    · exact decide_eq_false hne
    · rfl

/-- One line without headers: what the loop does with it. -/
theorem originUrlFrom_entries {l : ConfigLine} (hl : l.headers = []) (inOrigin : Bool)
    (rest : List String) :
    originUrlFrom inOrigin (String.ofList l.text :: rest) =
      if inOrigin then (urlLine (trim l.tail.text)).orElse fun _ => originUrlFrom inOrigin rest
      else originUrlFrom inOrigin rest := by
  have htrim : trim l.text = trim l.tail.text := by
    rw [ConfigLine.text, hl, headersText, List.nil_append]
    exact trim_append_left (fun c hc => isWhiteSpace_of_isConfigSpace (l.gap_space c hc)) _
  have hhead : (trim l.tail.text).head? ≠ some '[' := by
    rcases l.tail with _ | ⟨sign, text, hsign⟩ | e
    · exact fun h => nomatch h
    · rcases hsign.1 with rfl | rfl
      all_goals
        rw [ConfigTail.text, trim_cons (by decide)]
        exact fun h => absurd (Option.some.inj h) (by decide)
    · rcases hkey : e.key with _ | ⟨k, key⟩
      · exact absurd hkey e.key_ne_nil
      · have hk := e.key_chars k (hkey ▸ List.mem_cons_self)
        rw [ConfigTail.text, trim_entry, hkey]
        intro h
        rw [Option.some.inj h] at hk
        exact absurd hk (by decide)
  rw [originUrlFrom, String.toList_ofList, htrim, if_neg hhead]

/-- What is set is on the line. -/
theorem of_mem_settingOf {key : List Char} {opened : Option ConfigLine} {l : ConfigLine}
    {s : Setting} (h : s ∈ (settingOf key opened l).toList) :
    s.line = l ∧ l.tail = .entry s.entry ∧ s.entry.raw = some s.raw := by
  rw [Option.mem_toList, settingOf.eq_def] at h
  rcases opened with _ | header
  · cases h
  rcases htail : l.tail with _ | ⟨sign, text, hsign⟩ | e
  · rw [htail] at h
    cases h
  · rw [htail] at h
    cases h
  · rw [htail] at h
    dsimp only at h
    split at h
    · obtain ⟨raw, hraw, rfl⟩ := Option.map_eq_some_iff.1 h
      exact ⟨rfl, rfl, hraw⟩
    · cases h

/-- What is seen of one line without headers. -/
theorem plain_settingOf {l : ConfigLine} (hl : l.headers = []) (opened : Option ConfigLine) :
    ((settingOf "url".toList opened l).toList.find? isPlainSetting).map (fun s => trim s.raw) =
      if readsOrigin opened then urlLine (trim l.tail.text) else none := by
  rcases htail : l.tail with _ | ⟨sign, text, hsign⟩ | e
  · rw [settingOf.eq_def, htail]
    cases opened
    all_goals exact (ite_self none).symm
  · have hurl : urlLine (trim (ConfigTail.comment sign text hsign).text) = none := by
      rw [ConfigTail.text, trim_cons (by rcases hsign.1 with rfl | rfl; all_goals decide)]
      exact urlLine_comment hsign.1 _
    rw [hurl, settingOf.eq_def, htail]
    cases opened
    all_goals exact (ite_self none).symm
  · rcases opened with _ | header
    · rw [settingOf.eq_def, htail]
      rfl
    have hurl : urlLine (trim (ConfigTail.entry e).text) =
        if e.key = "url".toList then e.raw.map trim else none := urlLine_entry e
    have hsetting : settingOf "url".toList (some header) l =
        if e.key.map Char.toLower = "url".toList then e.raw.map fun raw => ⟨header, l, e, raw⟩
        else none := by
      rw [settingOf.eq_def, htail]
    rw [hurl, hsetting]
    by_cases hkey : e.key = "url".toList
    · rw [if_pos hkey, hkey, if_pos (by decide)]
      rcases e.raw with _ | raw
      · exact (ite_self none).symm
      by_cases htrim : trim header.text = originLine
      · have hplain : isPlainSetting ⟨header, l, e, raw⟩ = true := by
          rw [isPlainSetting, hl, hkey]
          simp [htrim]
        have hreads : readsOrigin (some header) = true := decide_eq_true htrim
        rw [hreads, Option.map_some, Option.toList_some, List.find?_cons_of_pos hplain]
        rfl
      · have hplain : ¬isPlainSetting ⟨header, l, e, raw⟩ = true := by
          rw [isPlainSetting]
          simp [htrim]
        have hreads : readsOrigin (some header) = false := decide_eq_false htrim
        rw [hreads, Option.map_some, Option.toList_some, List.find?_cons_of_neg hplain]
        rfl
    · rw [if_neg hkey, ite_self]
      have hplain : ∀ raw, ¬isPlainSetting ⟨header, l, e, raw⟩ = true := fun raw => by
        rw [isPlainSetting, decide_eq_false hkey, Bool.and_false]
        exact Bool.false_ne_true
      split
      · rcases e.raw with _ | raw
        · rfl
        · rw [Option.map_some, Option.toList_some, List.find?_cons_of_neg (hplain raw)]
          rfl
      · rfl

/-- The first URL that is seen is the one that the loop returns. -/
theorem originUrlFrom_doc (opened : Option ConfigLine) (doc : List ConfigLine) :
    originUrlFrom (readsOrigin opened) (doc.map fun l => String.ofList l.text) =
      ((settingsFrom "remote.origin".toList "url".toList opened doc).find? isPlainSetting).map
        fun s => trim s.raw := by
  induction doc generalizing opened with
  | nil => rfl
  | cons l doc ih =>
    rw [List.map_cons, settingsFrom, List.find?_append]
    rcases hl : l.headers with _ | ⟨x, hs⟩
    · have hafter : sectionAfter "remote.origin".toList opened l = opened := by
        rw [sectionAfter, hl]
        rfl
      rw [originUrlFrom_entries hl, hafter, ih]
      rw [Option.map_or, plain_settingOf hl]
      by_cases hreads : readsOrigin opened = true
      · rw [if_pos hreads, if_pos hreads, Option.orElse_eq_or]
      · rw [if_neg hreads, if_neg hreads, Option.none_or]
    · -- A line with a header sets nothing that is seen.
      have hskip : (settingOf "url".toList
          (sectionAfter "remote.origin".toList opened l) l).toList.find? isPlainSetting = none := by
        refine List.find?_eq_none.2 fun s hs => ?_
        rw [isPlainSetting, (of_mem_settingOf hs).1, hl]
        simp
      obtain ⟨hhead, -⟩ := isOriginHeader_line hl
      rw [hskip, Option.none_or, originUrlFrom, String.toList_ofList, if_pos hhead,
        ← readsOrigin_sectionAfter hl opened, ih]

/-- What is found in a config whose values do not go on in the next line. -/
theorem extractOriginUrl_configText {doc : List ConfigLine} (hdoc : ∀ l ∈ doc, '\n' ∉ l.text) :
    extractOriginUrl (String.ofList (configText doc)) =
      ((originUrls doc).find? isPlainSetting).map fun s => trim s.raw := by
  rw [extractOriginUrl, originUrlFrom_lines, configText]
  rcases hnil : doc with _ | ⟨l, rest⟩
  · decide
  · rw [← hnil, List.splitOn_intercalate, List.map_map]
    · exact originUrlFrom_doc none doc
    · intro t ht
      obtain ⟨l, hl, rfl⟩ := List.mem_map.1 ht
      exact hdoc l hl
    · rw [hnil]
      exact List.cons_ne_nil _ _

end Configs

/-! ### The URL of the origin -/

section Law

theorem mem_settingsFrom {name key : List Char} {opened : Option ConfigLine}
    {doc : List ConfigLine} {s : Setting} (h : s ∈ settingsFrom name key opened doc) :
    s.line ∈ doc ∧ s.line.tail = .entry s.entry ∧ s.entry.raw = some s.raw := by
  induction doc generalizing opened with
  | nil => exact absurd h List.not_mem_nil
  | cons l doc ih =>
    rw [settingsFrom, List.mem_append] at h
    rcases h with h | h
    · obtain ⟨hline, htail, hraw⟩ := of_mem_settingOf h
      rw [hline]
      exact ⟨List.mem_cons_self, htail, hraw⟩
    · obtain ⟨hmem, htail, hraw⟩ := ih h
      exact ⟨List.mem_cons_of_mem _ hmem, htail, hraw⟩

/-- Signs are not trimmed. -/
theorem countP_trim (t : List Char) : (trim t).countP isValueSign = t.countP isValueSign := by
  have hnone : ∀ l : List Char, (∀ c ∈ l, isWhiteSpace c = true) → l.countP isValueSign = 0 := by
    intro l hl
    refine List.countP_eq_zero.2 fun c hc hsign => ?_
    have hw := hl c hc
    simp only [isValueSign, Bool.or_eq_true, decide_eq_true_eq] at hsign
    rcases hsign with ((rfl | rfl) | rfl) | rfl
    all_goals exact absurd hw (by decide)
  obtain ⟨a, b, hab, ha, hb⟩ := exists_trim t
  conv_rhs => rw [hab, List.countP_append, List.countP_append, hnone a ha, hnone b hb]
  omega

/-- What stands behind the key is the value exactly if there is no sign in it and the white space
    around it is that of a config. -/
theorem configValue_eq_trim_iff {raw : List Char} (hline : '\n' ∉ raw) :
    configValue raw = some (trim raw) ↔
      (∀ c ∈ raw, isValueSign c = false) ∧ configTrim raw = trim raw := by
  constructor
  · intro h
    have hsignless : ∀ c ∈ raw, isValueSign c = false := by
      by_contra hsign
      push Not at hsign
      obtain ⟨c, hc, hsign⟩ := hsign
      have hlt := countP_configValue_lt h ⟨c, hc, by simpa using hsign⟩
      rw [countP_trim] at hlt
      exact lt_irrefl _ hlt
    rw [configValue_of_signless hline hsignless] at h
    exact ⟨hsignless, Option.some.inj h⟩
  · rintro ⟨hsignless, htrim⟩
    rw [configValue_of_signless hline hsignless, htrim]

/-- The URL that is found in a config is the URL of the origin, as git reads it, exactly if the
    first URL of the origin is seen and its value is written plainly, or it is not seen and the
    first that is seen happens to have its value. -/
theorem originUrlLaw {doc : List ConfigLine} (hdoc : ∀ l ∈ doc, '\n' ∉ l.text) {first : Setting}
    {rest : List Setting} (hurls : originUrls doc = first :: rest) :
    extractOriginUrl (String.ofList (configText doc)) = configValue first.raw ↔
      (isPlainSetting first = true ∧ (∀ c ∈ first.raw, isValueSign c = false) ∧
        configTrim first.raw = trim first.raw) ∨
      (isPlainSetting first = false ∧
        (rest.find? isPlainSetting).map (fun s => trim s.raw) = configValue first.raw) := by
  have hfirst : first ∈ originUrls doc := hurls ▸ List.mem_cons_self
  obtain ⟨hmem, htail, hraw⟩ := mem_settingsFrom hfirst
  have hline : '\n' ∉ first.raw := by
    intro h
    refine hdoc _ hmem ?_
    rw [ConfigLine.text, htail, ConfigTail.text, ConfigEntry.text, hraw]
    simp [h]
  rw [extractOriginUrl_configText hdoc, hurls]
  by_cases hplain : isPlainSetting first = true
  · rw [List.find?_cons_of_pos hplain, Option.map_some, eq_comm, configValue_eq_trim_iff hline]
    simp [hplain]
  · rw [List.find?_cons_of_neg hplain]
    simp [hplain]

/-- `[remote "origin"]`, on a line of its own. -/
def plainHeader : ConfigLine where
  headers := [([], {
    name := ['r', 'e', 'm', 'o', 't', 'e']
    sub := some ([' '], ['o', 'r', 'i', 'g', 'i', 'n'].map (false, ·))
    name_chars := List.all_eq_true.1 rfl
    gap_ne_nil := fun s hs => by cases hs; exact List.cons_ne_nil _ _
    gap_space := fun s hs => by cases hs; exact List.all_eq_true.1 rfl
    sub_chars := fun s hs x hx => by
      cases hs
      simp only [List.map_cons, List.map_nil, List.mem_cons, List.not_mem_nil, or_false] at hx
      rcases hx with rfl | rfl | rfl | rfl | rfl | rfl
      all_goals decide })]
  gap := []
  tail := .blank
  headers_space := fun h hh c hc => by
    rw [List.mem_singleton.1 hh] at hc
    exact absurd hc List.not_mem_nil
  gap_space := fun _ hc => absurd hc List.not_mem_nil

/-- `url = h:r`. -/
def plainUrl : ConfigEntry where
  key := ['u', 'r', 'l']
  gap := [' ']
  raw := some [' ', 'h', ':', 'r']
  key_head := fun c hc => by cases hc; rfl
  key_ne_nil := List.cons_ne_nil _ _
  key_chars := List.all_eq_true.1 rfl
  gap_space := List.all_eq_true.1 rfl
  raw_value := fun r hr => by cases hr; rfl

def plainUrlLine : ConfigLine where
  headers := []
  gap := ['\t']
  tail := .entry plainUrl
  headers_space := fun _ hh => absurd hh List.not_mem_nil
  gap_space := List.all_eq_true.1 rfl

theorem originUrlLaw_plain :
    extractOriginUrl (String.ofList (configText [plainHeader, plainUrlLine])) =
      some ['h', ':', 'r'] := by
  have hdoc : ∀ l ∈ [plainHeader, plainUrlLine], '\n' ∉ l.text := by
    intro l hl
    rcases List.mem_pair.1 hl with rfl | rfl
    · exact fun h => absurd (List.contains_iff_mem.2 h) (by decide)
    · exact fun h => absurd (List.contains_iff_mem.2 h) (by decide)
  have hurls : originUrls [plainHeader, plainUrlLine] =
      [⟨plainHeader, plainUrlLine, plainUrl, [' ', 'h', ':', 'r']⟩] := rfl
  have hsignless : ∀ c ∈ [' ', 'h', ':', 'r'], isValueSign c = false := fun c hc => by
    have := List.all_eq_true.1 (rfl : [' ', 'h', ':', 'r'].all (!isValueSign ·) = true) c hc
    simpa using this
  exact (originUrlLaw hdoc hurls).2 (.inl ⟨by decide, hsignless, by decide⟩)

end Law

end Spelunk
