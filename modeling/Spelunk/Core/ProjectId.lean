import Spelunk.Core.RelayStream
import Spelunk.Lib.UrlPath

/-!
# The Id of a Project

The id under which a server keeps what it knows of a repository, from the URL of
its remote, and that URL from the text of the git config; and the way of such an id in the path of
a request.

## Main definitions

* `Lowercase`: `str::to_lowercase`.
* `normaliseGitUrl`: The id that a URL comes to.
* `extractOriginUrl`: The URL in a config.
* `encodeProjectId`: An id as one segment of a path.
* `servedItems`: What the server reads of a path.
-/

namespace Spelunk

/-- `str::to_lowercase`, which leaves the signs of a URL where they are, works on both sides of a
    slash for itself, and has nothing to do in a text that is lower-case. -/
structure Lowercase where
  run : List Char → List Char
  slash : ∀ s t, run (s ++ '/' :: t) = run s ++ '/' :: run t
  sign : ∀ s c, c ∈ ['/', ':', '@'] → (run s).count c = s.count c
  infix_fixed : ∀ s t, t <:+: run s → run t = t

/-- What stands behind the first place of a text. -/
def behindFirst (sep : List Char) : List Char → Option (List Char)
  | [] => none
  | c :: rest =>
    if sep.isPrefixOf (c :: rest) then some ((c :: rest).drop sep.length)
    else behindFirst sep rest

/-- `replacen(':', "/", 1)`. -/
def colonToSlash : List Char → List Char
  | [] => []
  | c :: rest => if c = ':' then '/' :: rest else c :: colonToSlash rest

/-- `strip_suffix(".git")`, or the text. -/
def stripGit (t : List Char) : List Char :=
  if ['.', 'g', 'i', 't'].isSuffixOf t then t.take (t.length - 4) else t

/-- `normalise_git_url`. -/
def normaliseGitUrl (lower : Lowercase) (url : List Char) : List Char :=
  let withoutScheme := (behindFirst [':', '/', '/'] url).getD url
  let withoutUser := (behindFirst ['@'] withoutScheme).getD withoutScheme
  lower.run (stripGit (colonToSlash withoutUser))

/-- What a trimmed line has behind `url =`. -/
def urlLine (trimmed : List Char) : Option (List Char) :=
  (stripPrefix "url".toList trimmed).bind fun rest =>
    (stripPrefix ['='] (rest.dropWhile isWhiteSpace)).map trim

/-- Whether a trimmed line, which begins with a bracket, is the header of the origin. -/
def isOriginHeader (trimmed : List Char) : Bool :=
  trim ((trimmed.dropWhile (· = '[')).rdropWhile (· = ']')) = "remote \"origin\"".toList

/-- The loop of `extract_origin_url_from_git_config`, with its flag `in_origin`. -/
def originUrlFrom (inOrigin : Bool) : List String → Option (List Char)
  | [] => none
  | line :: rest =>
    let trimmed := trim line.toList
    if trimmed.head? = some '[' then originUrlFrom (isOriginHeader trimmed) rest
    else if inOrigin then (urlLine trimmed).orElse fun _ => originUrlFrom inOrigin rest
    else originUrlFrom inOrigin rest

/-- `extract_origin_url_from_git_config`. -/
def extractOriginUrl (config : String) : Option (List Char) := originUrlFrom false (lines config)

/-! ### Ids in the path of a request -/

/-- The bytes of `PROJECT_ID_SEGMENT`: `CONTROLS` with what is no ASCII, and blank, quotation mark,
    hash, less, greater, question mark, backquote, braces, slash and percent. -/
def projectIdSegment (b : UInt8) : Bool :=
  b ≤ 0x1F || 0x7F ≤ b ||
    [0x20, 0x22, 0x23, 0x3C, 0x3E, 0x3F, 0x60, 0x7B, 0x7D, 0x2F, 0x25].contains b

/-- `encode_project_id` and `encode_path_segment`, of the UTF-8 of a string. -/
def encodeProjectId (id : List UInt8) : List UInt8 := Lib.percentEncode projectIdSegment id

/-- `RemoteMemoryBackend::url` behind the address of the server: the path of strings, which are
    fixed ones of letters and digits, an id of a project and an id of a note. -/
def requestUrlPath (items : List (List UInt8)) : List UInt8 :=
  [0x2F].intercalate (items.map encodeProjectId)

/-- What the server reads in the segments of a path that its client's URL parser was given. -/
def servedItems (set : Lib.PathSet) (path : List UInt8) : List (List UInt8) :=
  (Lib.resolveDots set [] (Lib.pathPieces path)).map Lib.percentDecode

end Spelunk
