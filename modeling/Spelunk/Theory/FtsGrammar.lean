import Mathlib.Data.List.Basic
import Spelunk.Core.FtsQuery

/-!
# The Grammar of Full-Text Queries

What the index reads in a query. Its lexer takes one character at a time: spaces part the
tokens, a double quote opens a literal, in which two double quotes stand for one and a
NUL is an error, and letters and digits make words, among them the operators. Of its
expressions only the literals joined by `OR` are kept; any other text is refused.

Whatever was typed, the query that is built from it is read back as the terms that were
typed: the lexer leaves each literal where the next `OR` starts, because that starts with
a space.

## Main definitions

* `FtsToken`, `FtsState`, `lexStep`: The lexer.
* `parseFts5`: The literals of a query.

## Theorems

* `lexes_literal`: A term that was quoted is read as one literal.
* `ftsLaw`: What is read of a built query.
-/

namespace Spelunk

/-- A token of a query. -/
inductive FtsToken where
  | literal (value : List Char)
  | word (text : List Char)
deriving DecidableEq, Repr

/-- What the lexer is in. `closed` is behind a double quote in a literal: its end, or the
    first half of a quote in it. -/
inductive FtsState where
  | between
  | word (text : List Char)
  | literal (value : List Char)
  | closed (value : List Char)
deriving DecidableEq, Repr

/-- The characters of a word: letters, digits, the underscore, all beyond ASCII. -/
def isBareword (c : Char) : Bool :=
  c.isAlphanum || c = '_' || 128 ≤ c.toNat || c.toNat = 26

def isFtsSpace (c : Char) : Bool := c = ' ' || c = '\t' || c = '\n' || c = '\r'

/-- The first character of a token, or a space. -/
def openToken (c : Char) : Option FtsState :=
  if isFtsSpace c then some .between
  else if c = '"' then some (.literal [])
  else if isBareword c then some (.word [c])
  else none

/-- One character, with the tokens so far. -/
def lexStep : FtsState × List FtsToken → Char → Option (FtsState × List FtsToken)
  | (.between, tokens), c => (openToken c).map (·, tokens)
  | (.word text, tokens), c =>
      if isBareword c then some (.word (text ++ [c]), tokens)
      else (openToken c).map (·, tokens ++ [.word text])
  | (.literal value, tokens), c =>
      if c = nul then none
      else if c = '"' then some (.closed value, tokens)
      else some (.literal (value ++ [c]), tokens)
  | (.closed value, tokens), c =>
      if c = '"' then some (.literal (value ++ ['"']), tokens)
      else (openToken c).map (·, tokens ++ [.literal value])

/-- The tokens at the end of the text; an open literal is unterminated. -/
def lexEnd : FtsState × List FtsToken → Option (List FtsToken)
  | (.between, tokens) => some tokens
  | (.word text, tokens) => some (tokens ++ [.word text])
  | (.literal _, _) => none
  | (.closed value, tokens) => some (tokens ++ [.literal value])

/-- Literals with the operator `OR` between them. -/
def literalsOf : List FtsToken → Option (List String)
  | [.literal value] => some [String.ofList value]
  | .literal value :: .word text :: rest =>
      if text = ['O', 'R'] then (literalsOf rest).map (String.ofList value :: ·) else none
  | _ => none

/-- The literals of a query; `none` where it is anything but literals joined by `OR`. -/
def parseFts5 (query : String) : Option (List String) :=
  ((query.toList.foldlM lexStep (.between, [])).bind lexEnd).bind literalsOf

example : parseFts5 "\"a\" OR \"b\"\"c\"" = some ["a", "b\"c"] := by decide

example : parseFts5 "\"a\" AND \"b\"" = none := by decide

section Lexer

variable (value body : List Char) (tokens : List FtsToken)

/-- The body of a literal is read character by character. -/
theorem lexes_body (h : nul ∉ body) :
    (body.flatMap escapeQuote).foldlM lexStep (.literal value, tokens)
      = some (.literal (value ++ body), tokens) := by
  induction body generalizing value with
  | nil => rw [List.append_nil]; rfl
  | cons c body ih =>
      rw [List.mem_cons, not_or] at h
      rw [List.flatMap_cons, List.foldlM_append]
      have hone : (escapeQuote c).foldlM lexStep (.literal value, tokens)
          = some (.literal (value ++ [c]), tokens) := by
        unfold escapeQuote
        by_cases hc : c = '"'
        · rw [if_pos hc, hc]
          rfl
        · rw [if_neg hc, List.foldlM_cons, lexStep, if_neg (Ne.symm h.1), if_neg hc]
          rfl
      rw [hone]
      exact (ih (value ++ [c]) h.2).trans (by rw [List.append_assoc]; rfl)

/-- A term that was quoted is read up to the quote that closes it. -/
theorem lexes_literal (term : String) :
    (fts5QuoteLiteral term).toList.foldlM lexStep (.between, tokens)
      = some (.closed (term.toList.filter (· ≠ nul)), tokens) := by
  have hbody : nul ∉ term.toList.filter (· ≠ nul) := by
    intro h
    exact absurd (List.mem_filter.mp h).2 (by simp)
  rw [fts5QuoteLiteral, String.toList_ofList, List.foldlM_cons]
  have hopen : lexStep (.between, tokens) '"' = some (.literal [], tokens) := rfl
  rw [hopen]
  show (List.foldlM lexStep (FtsState.literal [], tokens) _) = _
  rw [List.foldlM_append, lexes_body [] _ tokens hbody]
  rfl

/-- The operator behind a literal ends it. -/
theorem lexes_or :
    " OR ".toList.foldlM lexStep (.closed value, tokens)
      = some (.between, tokens ++ [.literal value] ++ [.word ['O', 'R']]) := by
  rfl

end Lexer

/-- The tokens of a query with those terms. -/
def ftsTokens (first : List Char) : List String → List FtsToken
  | [] => [.literal first]
  | term :: terms => .literal first :: .word ['O', 'R'] ::
      ftsTokens (term.toList.filter (· ≠ nul)) terms

theorem literalsOf_ftsTokens (first : List Char) (terms : List String) :
    literalsOf (ftsTokens first terms) = some (String.ofList first :: terms.map withoutNul) := by
  induction terms generalizing first with
  | nil => rfl
  | cons term terms ih =>
      rw [ftsTokens, literalsOf, if_pos rfl, ih]
      rfl

/-- The terms are read one behind the other. -/
theorem lexes_terms (terms : List String) (out : String) (value : List Char)
    (tokens : List FtsToken)
    (hout : out.toList.foldlM lexStep (.between, []) = some (.closed value, tokens)) :
    ((terms.foldl (fun out term => out ++ " OR " ++ fts5QuoteLiteral term) out).toList.foldlM
      lexStep (.between, [])).bind lexEnd = some (tokens ++ ftsTokens value terms) := by
  induction terms generalizing out value tokens with
  | nil =>
      rw [List.foldl_nil, hout]
      rfl
  | cons term terms ih =>
      rw [List.foldl_cons, ih (out ++ " OR " ++ fts5QuoteLiteral term)
        (term.toList.filter (· ≠ nul)) (tokens ++ [.literal value] ++ [.word ['O', 'R']])]
      · rw [ftsTokens, List.append_assoc, List.append_assoc]
        rfl
      · rw [String.toList_append, String.toList_append, List.foldlM_append, List.foldlM_append,
          hout]
        show (List.foldlM lexStep (FtsState.closed value, tokens) " OR ".toList >>= fun s =>
          List.foldlM lexStep s (fts5QuoteLiteral term).toList) = _
        rw [lexes_or]
        exact lexes_literal _ term

/-- A built query is literals joined by `OR`, and its literals are the words that were
    typed, without their NULs; and a quoted term is the literal of the term. -/
theorem ftsLaw (query term : String) :
    parseFts5 (fts5MatchQuery query) = some
      (if splitWhitespace query = [] then [""] else (splitWhitespace query).map withoutNul) ∧
    parseFts5 (fts5QuoteLiteral term) = some [withoutNul term] := by
  constructor
  · rw [parseFts5, fts5MatchQuery]
    rcases splitWhitespace query with _ | ⟨first, terms⟩
    · decide
    · rw [if_neg (List.cons_ne_nil _ _)]
      simp only []
      rw [lexes_terms terms _ _ _ (lexes_literal [] first)]
      exact literalsOf_ftsTokens _ terms
  · rw [parseFts5, lexes_literal]
    rfl

end Spelunk
