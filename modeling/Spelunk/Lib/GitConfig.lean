import Mathlib.Data.List.Count
import Spelunk.Lib.Split

/-!
# The Format of a git Config

The text of a config, line by line: the headers that open a section, and behind
them a comment or a key with its value. A value may have quotes, escapes, a
comment behind it, and may go on in the next line.

## Main definitions

* `ConfigHeader`, `ConfigEntry`, `ConfigLine`: What a config is written with.
* `configText`: The text.
* `configValue`: The value that a text stands for.
* `settings`: What a config sets a key of a section to, in order.

## Theorems

* `eq_of_configValue_eq`: A text with a sign in it is not its own value.
* `configValue_of_signless`: The value of a text without signs is the text, trimmed.
-/

namespace Spelunk.Lib

/-- White space in a line. -/
def isConfigSpace (c : Char) : Bool := c = ' ' || c = '\t' || c = '\r'

def isKeyChar (c : Char) : Bool := c.isAlphanum || c = '-'

/-- A character of the name of a section. -/
def isNameChar (c : Char) : Bool := isKeyChar c || c = '.'

/-- The text of a subsection; `true` is an escape. -/
def subsectionText : List (Bool × Char) → List Char
  | [] => []
  | (true, c) :: rest => '\\' :: c :: subsectionText rest
  | (false, c) :: rest => c :: subsectionText rest

/-- `[name]` or `[name "subsection"]`. -/
structure ConfigHeader where
  name : List Char
  sub : Option (List Char × List (Bool × Char))
  name_chars : ∀ c ∈ name, isNameChar c = true
  gap_ne_nil : ∀ s ∈ sub, s.1 ≠ []
  gap_space : ∀ s ∈ sub, ∀ c ∈ s.1, isConfigSpace c = true
  sub_chars : ∀ s ∈ sub, ∀ x ∈ s.2, x.2 ≠ '\n' ∧ (x.1 = false → x.2 ≠ '"' ∧ x.2 ≠ '\\')

def ConfigHeader.subText (h : ConfigHeader) : List Char :=
  h.sub.elim [] fun s => s.1 ++ '"' :: (subsectionText s.2 ++ ['"'])

def ConfigHeader.text (h : ConfigHeader) : List Char := '[' :: (h.name ++ (h.subText ++ [']']))

/-- The section that is opened: the letter case matters behind the first dot only if it is
    quoted. -/
def ConfigHeader.opens (h : ConfigHeader) : List Char :=
  h.name.map Char.toLower ++ h.sub.elim [] fun s => '.' :: s.2.map (·.2)

/-- What an escape stands for: nothing before a line end. -/
def escaped : Char → Option (List Char)
  | '\n' => some []
  | 't' => some ['\t']
  | 'b' => some ['\x08']
  | 'n' => some ['\n']
  | '\\' => some ['\\']
  | '"' => some ['"']
  | _ => none

/-- Reading a value: what is read, the white space since, and whether a quote is open. -/
def valueFrom (value pending : List Char) (quoted : Bool) : List Char → Option (List Char)
  | [] => if quoted then none else some value
  | c :: rest =>
    if c = '\n' then none
    else if isConfigSpace c = true ∧ quoted = false then
      -- White space in front of a value is no part of it.
      valueFrom value (if value = [] then [] else pending ++ [c]) quoted rest
    else if (c = '#' ∨ c = ';') ∧ quoted = false then
      if '\n' ∈ rest then none else some value
    else if c = '"' then valueFrom (value ++ pending) [] (!quoted) rest
    else if c = '\\' then
      match rest with
      | [] => none
      | e :: rest => (escaped e).bind fun l => valueFrom (value ++ pending ++ l) [] quoted rest
    else valueFrom (value ++ pending ++ [c]) [] quoted rest

/-- The value of a text, if it is one. -/
def configValue (raw : List Char) : Option (List Char) := valueFrom [] [] false raw

/-- `key`, or `key = value`. -/
structure ConfigEntry where
  key : List Char
  gap : List Char
  raw : Option (List Char)
  key_head : ∀ c ∈ key.head?, c.isAlpha = true
  key_ne_nil : key ≠ []
  key_chars : ∀ c ∈ key, isKeyChar c = true
  gap_space : ∀ c ∈ gap, isConfigSpace c = true
  raw_value : ∀ r ∈ raw, (configValue r).isSome = true

def ConfigEntry.text (e : ConfigEntry) : List Char :=
  e.key ++ (e.gap ++ e.raw.elim [] ('=' :: ·))

/-- What ends a line. -/
inductive ConfigTail where
  | blank
  | comment (sign : Char) (text : List Char) (h : (sign = '#' ∨ sign = ';') ∧ '\n' ∉ text)
  | entry (e : ConfigEntry)

def ConfigTail.text : ConfigTail → List Char
  | .blank => []
  | .comment sign text _ => sign :: text
  | .entry e => e.text

/-- The headers of a line, each with the white space in front of it, and its end. -/
structure ConfigLine where
  headers : List (List Char × ConfigHeader)
  gap : List Char
  tail : ConfigTail
  headers_space : ∀ h ∈ headers, ∀ c ∈ h.1, isConfigSpace c = true
  gap_space : ∀ c ∈ gap, isConfigSpace c = true

def headersText : List (List Char × ConfigHeader) → List Char
  | [] => []
  | (gap, h) :: rest => gap ++ (h.text ++ headersText rest)

def ConfigLine.text (l : ConfigLine) : List Char :=
  headersText l.headers ++ (l.gap ++ l.tail.text)

/-- The text of a config. -/
def configText (doc : List ConfigLine) : List Char :=
  ['\n'].intercalate (doc.map ConfigLine.text)

/-- A key that is set: the line of the header of its section, its own line, and the text of the
    value. -/
structure Setting where
  header : ConfigLine
  line : ConfigLine
  entry : ConfigEntry
  raw : List Char

/-- The line of the header of the section, behind a line, if the section is open there. -/
def sectionAfter (name : List Char) (opened : Option ConfigLine) (l : ConfigLine) :
    Option ConfigLine :=
  match l.headers.getLast? with
  | some h => if h.2.opens = name then some l else none
  | none => opened

/-- What a line sets the key to. -/
def settingOf (key : List Char) (opened : Option ConfigLine) (l : ConfigLine) : Option Setting :=
  match opened, l.tail with
  | some header, .entry e =>
    if e.key.map Char.toLower = key then e.raw.map fun raw => ⟨header, l, e, raw⟩ else none
  | _, _ => none

def settingsFrom (name key : List Char) (opened : Option ConfigLine) :
    List ConfigLine → List Setting
  | [] => []
  | l :: rest =>
    let opened := sectionAfter name opened l
    (settingOf key opened l).toList ++ settingsFrom name key opened rest

/-- What a config sets a key of a section to. -/
def settings (name key : List Char) (doc : List ConfigLine) : List Setting :=
  settingsFrom name key none doc

/-! ### Values without signs -/

/-- The characters that are not themselves in a value. -/
def isValueSign (c : Char) : Bool := c = '"' || c = '\\' || c = '#' || c = ';'

/-- A text without the white space of a config around it. -/
def configTrim (t : List Char) : List Char :=
  (t.dropWhile isConfigSpace).rdropWhile isConfigSpace

theorem valueFrom_space {value pending : List Char} {c : Char} (rest : List Char)
    (hc : isConfigSpace c = true) :
    valueFrom value pending false (c :: rest) =
      valueFrom value (if value = [] then [] else pending ++ [c]) false rest := by
  have hnl : c ≠ '\n' := fun h => absurd (h ▸ hc) (by decide)
  rw [valueFrom.eq_def]
  dsimp only
  rw [if_neg hnl, if_pos ⟨hc, rfl⟩]

theorem valueFrom_letter {value pending : List Char} {quoted : Bool} {c : Char} (rest : List Char)
    (hnl : c ≠ '\n') (hspace : isConfigSpace c = false) (hsign : isValueSign c = false) :
    valueFrom value pending quoted (c :: rest) =
      valueFrom (value ++ pending ++ [c]) [] quoted rest := by
  simp only [isValueSign, Bool.or_eq_false_iff, decide_eq_false_iff_not] at hsign
  rw [valueFrom.eq_def]
  dsimp only
  rw [if_neg hnl, if_neg fun h => absurd h.1 (by simp [hspace]),
    if_neg fun h => h.1.elim hsign.1.2 hsign.2, if_neg hsign.1.1.1, if_neg hsign.1.1.2]

/-- A value that has begun goes on to the last character that is not white space. -/
theorem valueFrom_signless {value pending raw : List Char} (hvalue : value ≠ [])
    (hpending : ∀ c ∈ pending, isConfigSpace c = true) (hline : '\n' ∉ raw)
    (hraw : ∀ c ∈ raw, isValueSign c = false) :
    valueFrom value pending false raw =
      some (value ++ (pending ++ raw).rdropWhile isConfigSpace) := by
  induction raw generalizing value pending with
  | nil =>
    rw [valueFrom, List.append_nil, List.rdropWhile_eq_nil_iff.2 hpending, List.append_nil]
    rfl
  | cons c raw ih =>
    have hnl : c ≠ '\n' := fun h => hline (h ▸ List.mem_cons_self)
    have hrest : '\n' ∉ raw := fun h => hline (List.mem_cons_of_mem _ h)
    have hsigns : ∀ c ∈ raw, isValueSign c = false := fun x hx => hraw x (List.mem_cons_of_mem _ hx)
    by_cases hspace : isConfigSpace c = true
    · rw [valueFrom_space _ hspace, if_neg hvalue, ih hvalue ?_ hrest hsigns, List.append_assoc,
        List.singleton_append]
      intro x hx
      rcases List.mem_append.1 hx with hx | hx
      · exact hpending x hx
      · exact List.mem_singleton.1 hx ▸ hspace
    · rw [valueFrom_letter _ hnl (by simpa using hspace) (hraw c List.mem_cons_self),
        ih (by simp) (fun _ h => absurd h List.not_mem_nil) hrest hsigns,
        rdropWhile_append_cons _ _ (by simpa using hspace)]
      simp

/-- The value of a text without signs is the text, trimmed. -/
theorem configValue_of_signless {raw : List Char} (hline : '\n' ∉ raw)
    (hraw : ∀ c ∈ raw, isValueSign c = false) : configValue raw = some (configTrim raw) := by
  unfold configValue configTrim
  induction raw with
  | nil => rfl
  | cons c raw ih =>
    have hnl : c ≠ '\n' := fun h => hline (h ▸ List.mem_cons_self)
    have hrest : '\n' ∉ raw := fun h => hline (List.mem_cons_of_mem _ h)
    have hsigns : ∀ c ∈ raw, isValueSign c = false := fun x hx => hraw x (List.mem_cons_of_mem _ hx)
    by_cases hspace : isConfigSpace c = true
    · rw [valueFrom_space _ hspace, if_pos rfl, ih hrest hsigns, List.dropWhile_cons_of_pos hspace]
    · rw [valueFrom_letter _ hnl (by simpa using hspace) (hraw c List.mem_cons_self),
        valueFrom_signless (by simp) (fun _ h => absurd h List.not_mem_nil) hrest hsigns,
        List.dropWhile_cons_of_neg hspace]
      exact congrArg some (rdropWhile_append_cons [] _ (by simpa using hspace)).symm

/-! ### Values of texts with signs -/

theorem countP_escaped {e : Char} {l : List Char} (h : escaped e = some l) :
    l.countP isValueSign ≤ [e].countP isValueSign := by
  unfold escaped at h
  split at h
  all_goals first
    | cases h
      decide
    | cases h

/-- No sign comes into a value that is not in its text. -/
theorem countP_valueFrom_le {value pending raw v : List Char} {quoted : Bool}
    (h : valueFrom value pending quoted raw = some v) :
    v.countP isValueSign ≤
      value.countP isValueSign + pending.countP isValueSign + raw.countP isValueSign := by
  fun_induction valueFrom value pending quoted raw with
  | case1 => cases h
  | case2 =>
    cases h
    omega
  | case3 => cases h
  | case4 value pending quoted c rest hnl hspace ih =>
    have := ih h
    rw [List.countP_cons]
    split at this
    · rw [List.countP_nil] at this
      omega
    · rw [List.countP_append, List.countP_singleton] at this
      omega
  | case5 => cases h
  | case6 =>
    cases h
    omega
  | case7 value pending quoted rest _ _ _ ih =>
    have := ih h
    rw [List.countP_append, List.countP_nil] at this
    rw [List.countP_cons]
    omega
  | case8 => cases h
  | case9 value pending quoted e rest _ _ _ _ ih =>
    obtain ⟨l, hl, h⟩ := Option.bind_eq_some_iff.1 h
    have := ih l h
    have := countP_escaped hl
    simp only [List.countP_append, List.countP_cons, List.countP_nil] at *
    omega
  | case10 value pending quoted c rest _ _ _ _ _ ih =>
    have := ih h
    simp only [List.countP_append, List.countP_cons, List.countP_nil] at *
    omega

/-- The first sign of a text outside a quote is lost. -/
theorem countP_valueFrom_lt {value pending raw v : List Char} {quoted : Bool}
    (hquoted : quoted = false) (h : valueFrom value pending quoted raw = some v)
    (hsign : ∃ c ∈ raw, isValueSign c = true) :
    v.countP isValueSign <
      value.countP isValueSign + pending.countP isValueSign + raw.countP isValueSign := by
  fun_induction valueFrom value pending quoted raw with
  | case1 => cases h
  | case2 =>
    obtain ⟨c, hc, -⟩ := hsign
    exact absurd hc List.not_mem_nil
  | case3 => cases h
  | case4 value pending quoted c rest hnl hspace ih =>
    obtain ⟨x, hx, hsign⟩ := hsign
    rcases List.mem_cons.1 hx with rfl | hx
    · -- White space is no sign.
      have hnot : ∀ c, isConfigSpace c = true → isValueSign c = false := by
        intro c hc
        simp only [isConfigSpace, Bool.or_eq_true, decide_eq_true_eq] at hc
        rcases hc with (rfl | rfl) | rfl
        all_goals rfl
      rw [hnot x hspace.1] at hsign
      cases hsign
    · have := ih hquoted h ⟨x, hx, hsign⟩
      rw [List.countP_cons]
      split at this
      · rw [List.countP_nil] at this
        omega
      · rw [List.countP_append, List.countP_singleton] at this
        omega
  | case5 => cases h
  | case6 value pending quoted c rest _ _ hcomment =>
    cases h
    have hc : isValueSign c = true := by
      rcases hcomment.1 with rfl | rfl
      all_goals rfl
    rw [List.countP_cons, if_pos hc]
    omega
  | case7 value pending quoted rest =>
    have := countP_valueFrom_le h
    rw [List.countP_append, List.countP_nil] at this
    rw [List.countP_cons, if_pos (by rfl)]
    omega
  | case8 => cases h
  | case9 value pending quoted e rest =>
    obtain ⟨l, hl, h⟩ := Option.bind_eq_some_iff.1 h
    have := countP_valueFrom_le h
    have := countP_escaped hl
    have hback : isValueSign '\\' = true := rfl
    simp only [List.countP_append, List.countP_cons, List.countP_nil, hback, if_true] at *
    omega
  | case10 value pending quoted c rest _ _ hcomment hquote hback ih =>
    obtain ⟨x, hx, hsign⟩ := hsign
    rcases List.mem_cons.1 hx with rfl | hx
    · simp only [isValueSign, Bool.or_eq_true, decide_eq_true_eq] at hsign
      rcases hsign with ((h | h) | h) | h
      · exact absurd h hquote
      · exact absurd h hback
      · exact absurd ⟨.inl h, hquoted⟩ hcomment
      · exact absurd ⟨.inr h, hquoted⟩ hcomment
    · have := ih hquoted h ⟨x, hx, hsign⟩
      simp only [List.countP_append, List.countP_cons, List.countP_nil] at *
      omega

/-- A text with a sign in it is not its own value: the value has fewer of them. -/
theorem countP_configValue_lt {raw v : List Char} (h : configValue raw = some v)
    (hsign : ∃ c ∈ raw, isValueSign c = true) :
    v.countP isValueSign < raw.countP isValueSign := by
  have := countP_valueFrom_lt rfl h hsign
  rw [List.countP_nil] at this
  omega

end Spelunk.Lib
