import Mathlib.Data.Nat.Notation

/-!
# Mention Tokens

The symbols a chunk mentions: its text without comments and literals, cut into words, of
which those that look like a symbol are taken, each once and at most forty.

Which characters are letters or digits is an argument.

## Main definitions

* `CommentStyle`, `commentStyle`: The comments of a language.
* `stripCommentsAndStrings`: The text without comments and literals.
* `identRuns`: The words of a text.
* `extractMentionTokens`: The tokens.
-/

namespace Spelunk

def mentionStopwords : List String := [
  -- Rust
  "fn", "let", "mut", "pub", "use", "mod", "struct", "enum", "impl", "trait", "type", "where",
  "async", "await", "move", "dyn", "ref", "box", "unsafe", "true", "false", "self", "super",
  "crate", "extern",
  -- Common types / builtins
  "None", "Some", "Ok", "Err", "Vec", "String", "str", "bool", "usize", "i32", "i64", "u32",
  "u64", "f32", "f64", "isize", "u8", "i8", "u16", "i16",
  -- Python
  "def", "class", "import", "from", "with", "pass", "raise", "yield", "lambda", "global",
  "nonlocal", "assert", "del",
  -- JavaScript / TypeScript
  "var", "const", "function", "typeof", "instanceof", "new", "delete", "export", "default",
  "extends", "static",
  -- Go
  "func", "package", "interface", "chan", "select", "defer", "goto", "fallthrough",
  -- Java / C
  "void", "null", "class", "int", "long", "double", "float", "char", "byte", "short", "final",
  "this", "super", "throws", "throw", "catch", "finally",
  -- Control flow (shared)
  "if", "else", "for", "while", "do", "switch", "case", "break", "continue", "return", "match",
  "in", "not", "and", "or", "is",
  -- Very common but not meaningful
  "get", "set", "add", "new", "into", "from", "with", "data", "val"]

/-- The starts of a line comment, and the block comment: how it opens and closes, and whether it
    nests. -/
structure CommentStyle where
  linePrefixes : List (List Char)
  block : Option (List Char × List Char × Bool)

/-- `comment_style`; `none` for a language that is left as it is. -/
def commentStyle (language : String) : Option CommentStyle :=
  if language = "rust" then
    some ⟨["//".toList], some ("/*".toList, "*/".toList, true)⟩
  else if language ∈ ["javascript", "jsx", "typescript", "tsx", "go", "java", "c", "cpp", "csharp",
      "kotlin", "swift", "proto"] then
    some ⟨["//".toList], some ("/*".toList, "*/".toList, false)⟩
  else if language ∈ ["python", "ruby"] then some ⟨["#".toList], none⟩
  else if language ∈ ["php", "hcl"] then
    some ⟨["//".toList, "#".toList], some ("/*".toList, "*/".toList, false)⟩
  else if language = "sql" then
    some ⟨["--".toList], some ("/*".toList, "*/".toList, false)⟩
  else if language = "css" then some ⟨[], some ("/*".toList, "*/".toList, false)⟩
  else none

/-- Where the scan is: in the code, in a line comment, in a block comment of some depth, or in a
    literal with its quote. -/
inductive ScanMode where
  | code
  | line
  | block (depth : ℕ)
  | literal (quote : Char)
deriving DecidableEq, Repr

/-- What the code goes on with at a text: what is written, how much more of the text belongs to what
    begins there, and the mode behind it. -/
def CommentStyle.enter (style : CommentStyle) (c : Char) (rest : List Char) :
    List Char × ℕ × ScanMode :=
  match style.block.filter fun b => b.1.isPrefixOf (c :: rest) with
  | some (opening, _, _) => ([' '], opening.length - 1, .block 1)
  | none =>
    match style.linePrefixes.find? fun p => p.isPrefixOf (c :: rest) with
    | some p => ([], p.length - 1, .line)
    | none =>
      if c = '"' ∨ c = '\'' ∨ c = '\x60' then ([' '], 0, .literal c)
      else ([c], 0, .code)

/-- The scan of `strip_comments_and_strings`, with the number of characters it is to pass over. -/
def CommentStyle.strip (style : CommentStyle) : ℕ → ScanMode → List Char → List Char
  | _, _, [] => []
  | skip + 1, mode, _ :: rest => style.strip skip mode rest
  | 0, .code, c :: rest =>
    let next := style.enter c rest
    next.1 ++ style.strip next.2.1 next.2.2 rest
  | 0, .line, c :: rest =>
    if c = '\n' then c :: style.strip 0 .code rest else style.strip 0 .line rest
  | 0, .block depth, c :: rest =>
    match style.block with
    | none => style.strip 0 .code rest
    | some (opening, closing, nests) =>
      if nests ∧ opening.isPrefixOf (c :: rest) then
        style.strip (opening.length - 1) (.block (depth + 1)) rest
      else if closing.isPrefixOf (c :: rest) then
        style.strip (closing.length - 1) (if depth ≤ 1 then .code else .block (depth - 1)) rest
      else style.strip 0 (.block depth) rest
  | 0, .literal quote, c :: rest =>
    if c = '\\' ∧ rest ≠ [] then style.strip 1 (.literal quote) rest
    else if c = quote then style.strip 0 .code rest
    else style.strip 0 (.literal quote) rest

/-- `strip_comments_and_strings`. -/
def stripCommentsAndStrings (content : List Char) (language : String) : List Char :=
  match commentStyle language with
  | none => content
  | some style => style.strip 0 .code content

section Tokens

variable (isAlphanumeric : Char → Bool)

def isIdentChar (c : Char) : Bool := isAlphanumeric c || c = '_'

/-- The words of a text, behind one that is read. -/
def identRuns : List Char → List Char → List (List Char)
  | run, [] => if run = [] then [] else [run]
  | run, c :: rest =>
    if isIdentChar isAlphanumeric c then identRuns (run ++ [c]) rest
    else (if run = [] then [] else [run]) ++ identRuns [] rest

/-- A word that is taken for a symbol. -/
def looksLikeSymbol (run : List Char) : Bool :=
  3 ≤ run.length && run.length ≤ 50 && !run.all Char.isDigit &&
    String.ofList run ∉ mentionStopwords

/-- `extract_mention_tokens`. -/
def extractMentionTokens (content language : String) : List String :=
  (((identRuns isAlphanumeric [] (stripCommentsAndStrings content.toList language)).filter
    looksLikeSymbol).eraseDups.take 40).map String.ofList

end Tokens

end Spelunk
