import Spelunk.Core.Csv

/-!
# Full-Text Queries

A search term is handed to the full-text index as a string literal: in double quotes,
with every double quote in it written twice. NULs are dropped, since the index would take
one for the end of the query. The terms of a query are its words, joined by `OR`.

## Main definitions

* `splitWhitespace`: The words of a text.
* `fts5QuoteLiteral`: One term as a literal.
* `fts5MatchQuery`: A query of several terms.
-/

namespace Spelunk

/-- The character that ends a C string. -/
def nul : Char := Char.ofNat 0

/-- `split_whitespace`: the runs of characters that are not white space. -/
def splitWhitespace (s : String) : List String :=
  ((s.toList.splitOnP isWhiteSpace).filter (· ≠ [])).map String.ofList

/-- A term without its NULs. -/
def withoutNul (term : String) : String := String.ofList (term.toList.filter (· ≠ nul))

/-- A double quote is written twice. -/
def escapeQuote (c : Char) : List Char := if c = '"' then ['"', '"'] else [c]

/-- A term as a string literal. -/
def fts5QuoteLiteral (term : String) : String :=
  String.ofList ('"' :: ((term.toList.filter (· ≠ nul)).flatMap escapeQuote ++ ['"']))

/-- The terms of a query, each a literal, any of which may match. -/
def fts5MatchQuery (query : String) : String :=
  match splitWhitespace query with
  | [] => "\"\""
  | first :: terms => terms.foldl (fun out term => out ++ " OR " ++ fts5QuoteLiteral term)
      (fts5QuoteLiteral first)

end Spelunk
