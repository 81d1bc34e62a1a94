import Spelunk.Core.Chunker

/-!
# The Walk over a Syntax Tree

`walk_node`: a node of a kind that a language has a chunk for becomes a chunk. A node that
is too large is cut by the sliding window, and one that is a container of others leaves
its text to them, unless none of them became a chunk. The walk goes no deeper than
`MAX_WALK_DEPTH` and enters no node once it has `MAX_CHUNKS` chunks.

A node carries what the parser says of it and the comment that `preceding_comment` finds
in front of it. `extract_name`, which reads the name off the node by the rules of its
language, is a parameter.

## Main definitions

* `SyntaxNode`: A node and its children.
* `wholeChunk`, `windowedChunks`: The chunks of a node.
* `walkNode`: The walk.
-/

namespace Spelunk

/-- `NodeSpec`: a kind of node that becomes a chunk. -/
structure NodeSpec where
  kind : String
  chunkKind : ChunkKind
  nameField : Option String
deriving DecidableEq, Repr

/-- What the parser says of a node, with its text and the comment in front of it. Rows are
    counted from zero. -/
structure NodeData where
  kind : String
  named : Bool
  text : String
  startRow : ℕ
  endRow : ℕ
  comment : Option String
deriving DecidableEq, Repr

/-- A node and its children. -/
inductive SyntaxNode where
  | node (data : NodeData) (children : List SyntaxNode)

def SyntaxNode.data : SyntaxNode → NodeData
  | .node data _ => data

def SyntaxNode.children : SyntaxNode → List SyntaxNode
  | .node _ children => children

/-- `WalkCtx`. -/
structure WalkCtx where
  filePath : String
  language : String
  specs : List NodeSpec
  extractName : SyntaxNode → NodeSpec → Option String

/-- `MAX_WALK_DEPTH`. -/
def maxWalkDepth : ℕ := 512

/-- `MAX_CHUNKS`. -/
def maxChunks : ℕ := 100000

/-- The spec of a kind. -/
def WalkCtx.spec (ctx : WalkCtx) (kind : String) : Option NodeSpec :=
  ctx.specs.find? fun s => s.kind = kind

/-- A keyword token has no named child. -/
def hasNamedChild (children : List SyntaxNode) : Bool := children.any fun c => c.data.named

/-- The scope of what is below a node. -/
def scopeLabel (spec : NodeSpec) (name parentScope : Option String) : Option String :=
  match spec.chunkKind with
  | .impl | .classKind => name.map fun n => spec.kind ++ " " ++ n
  | _ => parentScope

def ChunkKind.isContainer : ChunkKind → Bool
  | .moduleKind | .impl | .classKind | .trait | .interface => true
  | _ => false

/-- The chunk of a whole node. -/
def wholeChunk (ctx : WalkCtx) (spec : NodeSpec) (data : NodeData)
    (name parentScope : Option String) : Chunk where
  filePath := ctx.filePath
  language := ctx.language
  kind := spec.chunkKind
  name := name
  startLine := data.startRow + 1
  endLine := data.endRow + 1
  content := data.text
  docstring := data.comment
  parentScope := parentScope
  summary := none

/-- `push_windowed`: the windows of a node, at their lines in the file. -/
def windowedChunks (cap : ℕ) (ctx : WalkCtx) (data : NodeData) (name parentScope : Option String) :
    List Chunk :=
  (slidingWindow cap data.text ctx.filePath ctx.language name data.comment parentScope).map
    fun sub => {
      sub with
      startLine := sub.startLine + data.startRow
      endLine := sub.endLine + data.startRow }

mutual

/-- `walk_node_inner`. -/
def walkNode (cap : ℕ) (ctx : WalkCtx) (parentScope : Option String) (out : List Chunk)
    (depth : ℕ) : SyntaxNode → List Chunk
  | .node data children =>
    if maxWalkDepth ≤ depth ∨ maxChunks ≤ out.length then out
    else
      match ctx.spec data.kind with
      | none => walkChildren cap ctx parentScope out (depth + 1) children
      | some spec =>
        if hasNamedChild children = false then
          walkChildren cap ctx parentScope out (depth + 1) children
        else
          let name := ctx.extractName (.node data children) spec
          let scope := scopeLabel spec name parentScope
          if cap < estimateTokens data.text then
            if spec.chunkKind.isContainer then
              let after := walkChildren cap ctx scope out (depth + 1) children
              if after.length = out.length then
                after ++ windowedChunks cap ctx data name parentScope
              else after
            else
              walkChildren cap ctx scope (out ++ windowedChunks cap ctx data name parentScope)
                (depth + 1) children
          else
            walkChildren cap ctx scope (out ++ [wholeChunk ctx spec data name parentScope])
              (depth + 1) children

/-- The children of a node, one after the other. -/
def walkChildren (cap : ℕ) (ctx : WalkCtx) (parentScope : Option String) (out : List Chunk)
    (depth : ℕ) : List SyntaxNode → List Chunk
  | [] => out
  | child :: rest =>
    walkChildren cap ctx parentScope (walkNode cap ctx parentScope out depth child) depth rest

end

end Spelunk
