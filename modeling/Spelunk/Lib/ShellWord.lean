import Mathlib.Data.List.Basic

/-!
# Words of a Shell

How a POSIX shell takes the next word of a command line: quotes of both kinds and backslashes are
removed, and a blank or an operator ends the word. A word with an expansion in it is not read; what
it stands for is not known before the shell runs.

## Main definitions

* `shellWord`: The next word, and what follows it.
* `singleQuoted`: A text in single quotes.

## Theorems

* `shellWord_singleQuoted`: A text in single quotes is one word, and is the text.
-/

namespace Spelunk.Lib

/-- What ends a word outside of quotes. -/
def endsWord (c : Char) : Bool :=
  c = ' ' || c = '\t' || c = '\n' || c = ';' || c = '&' || c = '|' || c = '<' || c = '>' ||
    c = '(' || c = ')'

/-- What the shell expands outside of quotes. -/
def expands (c : Char) : Bool :=
  c = '$' || c.toNat = 96 || c = '*' || c = '?' || c = '[' || c = '~' || c = '#'

/-- Where the reader is. -/
inductive Quoting where
  | bare
  | single
  | double
deriving DecidableEq, Repr

/-- The rest of a word, and what follows it. -/
def shellWordFrom (word : List Char) (q : Quoting) : List Char → Option (List Char × List Char)
  | [] => if q = .bare then some (word, []) else none
  | c :: rest =>
    match q with
    | .bare =>
      if c = '\'' then shellWordFrom word .single rest
      else if c = '"' then shellWordFrom word .double rest
      else if c = '\\' then
        match rest with
        | [] => none
        -- A backslash and a line end are nothing.
        | e :: rest => shellWordFrom (if e = '\n' then word else word ++ [e]) .bare rest
      else if endsWord c then some (word, c :: rest)
      else if expands c then none
      else shellWordFrom (word ++ [c]) .bare rest
    | .single =>
      if c = '\'' then shellWordFrom word .bare rest else shellWordFrom (word ++ [c]) .single rest
    | .double =>
      if c = '"' then shellWordFrom word .bare rest
      else if c = '$' ∨ c.toNat = 96 then none
      else if c = '\\' then
        match rest with
        | [] => none
        | e :: rest =>
          shellWordFrom
            (word ++ if e = '\n' then [] else
              if e = '$' ∨ e.toNat = 96 ∨ e = '"' ∨ e = '\\' then [e] else ['\\', e]) .double rest
      else shellWordFrom (word ++ [c]) .double rest

/-- The next word of a line that begins with one. -/
def shellWord (line : List Char) : Option (List Char × List Char) :=
  match line with
  | [] => none
  | c :: _ => if endsWord c then none else shellWordFrom [] .bare line

/-- What stands for one character of a text in single quotes. -/
def quotedChar (c : Char) : List Char := if c = '\'' then ['\'', '\\', '\'', '\''] else [c]

/-- A text in single quotes; a quote of the text ends them, stands behind a backslash and begins
    them again. -/
def singleQuoted (t : List Char) : List Char := '\'' :: t.flatMap quotedChar ++ ['\'']

theorem shellWordFrom_quotedChar (word : List Char) (c : Char) (rest : List Char) :
    shellWordFrom word .single (quotedChar c ++ rest) =
      shellWordFrom (word ++ [c]) .single rest := by
  unfold quotedChar
  split
  · next hc =>
    -- The quotes end, the quote is escaped, and they begin again.
    subst hc
    have hend : shellWordFrom word .single ('\'' :: '\\' :: '\'' :: '\'' :: rest) =
        shellWordFrom word .bare ('\\' :: '\'' :: '\'' :: rest) := by
      rw [shellWordFrom.eq_def]
      exact if_pos rfl
    have hescape : shellWordFrom word .bare ('\\' :: '\'' :: '\'' :: rest) =
        shellWordFrom (word ++ ['\'']) .bare ('\'' :: rest) := by
      rw [shellWordFrom.eq_def]
      rfl
    have hopen : shellWordFrom (word ++ ['\'']) .bare ('\'' :: rest) =
        shellWordFrom (word ++ ['\'']) .single rest := by
      rw [shellWordFrom.eq_def]
      rfl
    exact hend.trans (hescape.trans hopen)
  · next hc =>
    rw [shellWordFrom.eq_def]
    exact if_neg hc

/-- Inside of the quotes every character is read as itself. -/
theorem shellWordFrom_quoted (word t rest : List Char) :
    shellWordFrom word .single (t.flatMap quotedChar ++ rest) =
      shellWordFrom (word ++ t) .single rest := by
  induction t generalizing word with
  | nil => rw [List.flatMap_nil, List.nil_append, List.append_nil]
  | cons c t ih =>
    rw [List.flatMap_cons, List.append_assoc, shellWordFrom_quotedChar, ih, List.append_assoc,
      List.singleton_append]

/-- A text in single quotes is one word, and is the text. -/
theorem shellWord_singleQuoted (t : List Char) {rest : List Char}
    (hrest : ∀ c ∈ rest.head?, endsWord c = true) :
    shellWord (singleQuoted t ++ rest) = some (t, rest) := by
  have hopen : shellWord (singleQuoted t ++ rest) = shellWordFrom [] .single
      (t.flatMap quotedChar ++ '\'' :: rest) := by
    rw [singleQuoted, List.cons_append, List.cons_append, List.append_assoc, List.singleton_append,
      shellWord, if_neg (by decide), shellWordFrom.eq_def]
    rfl
  rw [hopen, shellWordFrom_quoted, List.nil_append]
  rcases rest with _ | ⟨c, rest⟩
  · rfl
  · have hc := hrest c rfl
    have hplain : c ≠ '\'' ∧ c ≠ '"' ∧ c ≠ '\\' := by
      refine ⟨?_, ?_, ?_⟩
      all_goals
        rintro rfl
        exact absurd hc (by decide)
    have hclose : shellWordFrom t .single ('\'' :: c :: rest) =
        shellWordFrom t .bare (c :: rest) := by
      rw [shellWordFrom.eq_def]
      exact if_pos rfl
    rw [hclose, shellWordFrom.eq_def]
    dsimp only
    rw [if_neg hplain.1, if_neg hplain.2.1, if_neg hplain.2.2, if_pos hc]

end Spelunk.Lib
