import Spelunk.Core.TsWalker
import Spelunk.Theory.LineText

/-!
# What the Walk Emits

The walk pushes the chunks of a node at once, one chunk or the windows of its text, and
asks whether it has too many only when it comes to a node. So what it emits is the pushes
of the whole tree, in order, up to the first after which there are `MAX_CHUNKS`: a tree
with fewer chunks has all of them, and one with more has exactly as many as are allowed if
some push ends there, and more if one goes across.

## Main definitions

* `Visits`: The nodes the walk comes to, with their scope and depth.
* `pushes`: The pushes of a tree.
* `takePushes`: The pushes up to the limit.

## Theorems

* `walkNode_eq`: The walk is the pushes up to the limit.
* `pushes_of_visits`: The pushes of a node are among those of the tree.
* `tsWalkLaw`: What is emitted, and when it is not too much.
* `tsWalk_manyRules`: A stylesheet with too many chunks.
-/

namespace Spelunk

/-- What holds of a node if of its children holds of all. -/
theorem SyntaxNode.induction {motive : SyntaxNode → Prop}
    (node : ∀ data children, (∀ c ∈ children, motive c) → motive (.node data children)) :
    ∀ n, motive n
  | .node data children => node data children fun c _ => SyntaxNode.induction node c

/-! ### The pushes -/

section Pushes

variable (cap : ℕ) (ctx : WalkCtx)

/-- The scope of the children of a node. -/
def childScope (scope : Option String) (n : SyntaxNode) : Option String :=
  match ctx.spec n.data.kind with
  | none => scope
  | some spec =>
    if hasNamedChild n.children = false then scope
    else scopeLabel spec (ctx.extractName n spec) scope

/-- What a node becomes, if it becomes anything. -/
def matched (n : SyntaxNode) : Option NodeSpec :=
  (ctx.spec n.data.kind).filter fun _ => hasNamedChild n.children

mutual

/-- The pushes of a tree, if there were no limit. -/
def pushes (scope : Option String) (depth : ℕ) : SyntaxNode → List (List Chunk)
  | .node data children =>
    if maxWalkDepth ≤ depth then []
    else
      let below := childPushes (childScope ctx scope (.node data children)) (depth + 1) children
      match matched ctx (.node data children) with
      | none => below
      | some spec =>
        let name := ctx.extractName (.node data children) spec
        if cap < estimateTokens data.text then
          if spec.chunkKind.isContainer then
            if below.flatten = [] then below ++ [windowedChunks cap ctx data name scope] else below
          else windowedChunks cap ctx data name scope :: below
        else [wholeChunk ctx spec data name scope] :: below

def childPushes (scope : Option String) (depth : ℕ) : List SyntaxNode → List (List Chunk)
  | [] => []
  | child :: rest => pushes scope depth child ++ childPushes scope depth rest

end

theorem mem_childPushes {scope : Option String} {depth : ℕ} {children : List SyntaxNode}
    {push : List Chunk} : push ∈ childPushes cap ctx scope depth children ↔
      ∃ c ∈ children, push ∈ pushes cap ctx scope depth c := by
  induction children with
  | nil => simp [childPushes]
  | cons c children ih =>
    rw [childPushes, List.mem_append, ih]
    simp

end Pushes

/-- The pushes up to the limit. -/
def takePushes : List Chunk → List (List Chunk) → List Chunk
  | out, [] => out
  | out, push :: rest => if maxChunks ≤ out.length then out else takePushes (out ++ push) rest

theorem takePushes_full {out : List Chunk} (h : maxChunks ≤ out.length) (ps : List (List Chunk)) :
    takePushes out ps = out := by
  cases ps with
  | nil => rfl
  | cons push rest => exact if_pos h

theorem takePushes_cons {out : List Chunk} (h : ¬maxChunks ≤ out.length) (push : List Chunk)
    (rest : List (List Chunk)) :
    takePushes out (push :: rest) = takePushes (out ++ push) rest := if_neg h

theorem takePushes_append (out : List Chunk) (ps qs : List (List Chunk)) :
    takePushes out (ps ++ qs) = takePushes (takePushes out ps) qs := by
  induction ps generalizing out with
  | nil => rfl
  | cons push ps ih =>
    by_cases h : maxChunks ≤ out.length
    · rw [takePushes_full h, takePushes_full h, takePushes_full h]
    · rw [List.cons_append, takePushes_cons h, takePushes_cons h, ih]

theorem length_le_takePushes (out : List Chunk) (ps : List (List Chunk)) :
    out.length ≤ (takePushes out ps).length := by
  induction ps generalizing out with
  | nil => exact le_rfl
  | cons push ps ih =>
    by_cases h : maxChunks ≤ out.length
    · rw [takePushes_full h]
    · rw [takePushes_cons h]
      have := ih (out ++ push)
      rw [List.length_append] at this
      omega

/-- Nothing is added exactly if there is nothing to add. -/
theorem length_takePushes_eq_iff {out : List Chunk} (h : ¬maxChunks ≤ out.length)
    (ps : List (List Chunk)) :
    (takePushes out ps).length = out.length ↔ ps.flatten = [] := by
  induction ps with
  | nil => simp [takePushes]
  | cons push ps ih =>
    rw [takePushes_cons h, List.flatten_cons]
    by_cases hpush : push = []
    · rw [hpush, List.append_nil, List.nil_append]
      exact ih
    · have hmore := length_le_takePushes (out ++ push) ps
      have := List.length_pos_iff.2 hpush
      rw [List.length_append] at hmore
      refine iff_of_false (by omega) fun hnil => hpush (List.append_eq_nil_iff.1 hnil).1

theorem takePushes_nothing {out : List Chunk} {ps : List (List Chunk)} (h : ps.flatten = []) :
    takePushes out ps = out := by
  induction ps with
  | nil => rfl
  | cons push ps ih =>
    rw [List.flatten_cons] at h
    obtain ⟨hpush, hrest⟩ := List.append_eq_nil_iff.1 h
    by_cases hfull : maxChunks ≤ out.length
    · exact takePushes_full hfull _
    · rw [takePushes_cons hfull, hpush, List.append_nil, ih hrest]

/-! ### The walk -/

section Walk

variable {cap : ℕ} {ctx : WalkCtx}

theorem walkChildren_eq_of {children : List SyntaxNode}
    (h : ∀ c ∈ children, ∀ scope out depth,
      walkNode cap ctx scope out depth c = takePushes out (pushes cap ctx scope depth c))
    (scope : Option String) (out : List Chunk) (depth : ℕ) :
    walkChildren cap ctx scope out depth children =
      takePushes out (childPushes cap ctx scope depth children) := by
  induction children generalizing out with
  | nil => rw [walkChildren, childPushes, takePushes]
  | cons c children ih =>
    rw [walkChildren, childPushes, takePushes_append, h c List.mem_cons_self,
      ih fun d hd => h d (List.mem_cons_of_mem c hd)]

/-- The walk is the pushes up to the limit. -/
theorem walkNode_eq (n : SyntaxNode) (scope : Option String) (out : List Chunk) (depth : ℕ) :
    walkNode cap ctx scope out depth n = takePushes out (pushes cap ctx scope depth n) := by
  induction n using SyntaxNode.induction generalizing scope out depth with
  | node data children ih =>
    have hchildren := walkChildren_eq_of ih
    unfold walkNode pushes
    by_cases hfull : maxChunks ≤ out.length
    · rw [if_pos (Or.inr hfull), takePushes_full hfull]
    by_cases hdepth : maxWalkDepth ≤ depth
    · rw [if_pos (Or.inl hdepth), if_pos hdepth]
      rfl
    rw [if_neg (not_or.2 ⟨hdepth, hfull⟩), if_neg hdepth]
    rcases hspec : ctx.spec data.kind with _ | spec
    · simp only [childScope, matched, SyntaxNode.data, hspec, Option.filter_none]
      exact hchildren scope out (depth + 1)
    rcases hnamed : hasNamedChild children with _ | _
    · simp only [childScope, matched, SyntaxNode.data, SyntaxNode.children, hspec, hnamed,
        Option.filter_some, if_true, Bool.false_eq_true, if_false]
      exact hchildren scope out (depth + 1)
    · simp only [childScope, matched, SyntaxNode.data, SyntaxNode.children, hspec, hnamed,
        Option.filter_some, if_true, Bool.true_eq_false, if_false]
      set name := ctx.extractName (.node data children) spec
      by_cases hover : cap < estimateTokens data.text
      · rw [if_pos hover, if_pos hover]
        by_cases hcontainer : spec.chunkKind.isContainer = true
        · rw [if_pos hcontainer, if_pos hcontainer, hchildren]
          set below := childPushes cap ctx (scopeLabel spec name scope) (depth + 1) children
          by_cases hbelow : below.flatten = []
          · rw [if_pos ((length_takePushes_eq_iff hfull below).2 hbelow), if_pos hbelow,
              takePushes_append, takePushes_nothing hbelow, takePushes_cons hfull]
            rfl
          · rw [if_neg fun h => hbelow ((length_takePushes_eq_iff hfull below).1 h),
              if_neg hbelow]
        · rw [if_neg hcontainer, if_neg hcontainer, hchildren, takePushes_cons hfull]
      · rw [if_neg hover, if_neg hover, hchildren, takePushes_cons hfull]

/-- The walk of the children emits something exactly if they have something to push. -/
theorem walkChildren_eq_nil_iff (children : List SyntaxNode) (scope : Option String)
    (depth : ℕ) : walkChildren cap ctx scope [] depth children = [] ↔
      (childPushes cap ctx scope depth children).flatten = [] := by
  rw [walkChildren_eq_of (fun c _ scope out depth => walkNode_eq c scope out depth),
    ← List.length_eq_zero_iff]
  have hroom : ¬maxChunks ≤ ([] : List Chunk).length := by decide
  exact length_takePushes_eq_iff hroom _

/-! ### The nodes -/

/-- The nodes the walk comes to, from a scope and a depth, if it goes deep enough. -/
inductive Visits (ctx : WalkCtx) : Option String → ℕ → SyntaxNode → Option String → ℕ →
    SyntaxNode → Prop where
  | here (scope : Option String) (depth : ℕ) (n : SyntaxNode) :
      Visits ctx scope depth n scope depth n
  | child {scope scope' : Option String} {depth depth' : ℕ} {n c m : SyntaxNode} :
      c ∈ n.children → Visits ctx (childScope ctx scope n) (depth + 1) c scope' depth' m →
      Visits ctx scope depth n scope' depth' m

theorem Visits.depth_le {scope scope' : Option String} {depth depth' : ℕ} {n m : SyntaxNode}
    (h : Visits ctx scope depth n scope' depth' m) : depth ≤ depth' := by
  induction h with
  | here => exact le_rfl
  | child _ _ ih => omega

/-- The pushes of the children are among those of a node. -/
theorem mem_pushes_of_child {scope : Option String} {depth : ℕ} {n c : SyntaxNode}
    (hdepth : depth < maxWalkDepth) (hc : c ∈ n.children) {push : List Chunk}
    (h : push ∈ pushes cap ctx (childScope ctx scope n) (depth + 1) c) :
    push ∈ pushes cap ctx scope depth n := by
  cases n with
  | node data children =>
    have hbelow := (mem_childPushes cap ctx).2 ⟨c, hc, h⟩
    unfold pushes
    rw [if_neg (not_le.2 hdepth)]
    dsimp only
    rcases matched ctx (.node data children) with _ | spec
    · exact hbelow
    dsimp only
    split
    · split
      · split
        · exact List.mem_append_left _ hbelow
        · exact hbelow
      · exact List.mem_cons_of_mem _ hbelow
    · exact List.mem_cons_of_mem _ hbelow

/-- The pushes of a node are among those of the tree. -/
theorem pushes_of_visits {scope scope' : Option String} {depth depth' : ℕ} {n m : SyntaxNode}
    (h : Visits ctx scope depth n scope' depth' m) (hdepth : depth' < maxWalkDepth)
    {push : List Chunk} (hpush : push ∈ pushes cap ctx scope' depth' m) :
    push ∈ pushes cap ctx scope depth n := by
  induction h with
  | here => exact hpush
  | child hc hrest ih =>
    have := hrest.depth_le
    exact mem_pushes_of_child (by omega) hc (ih hdepth hpush)

/-- The push of a node itself. -/
inductive OwnPush (cap : ℕ) (ctx : WalkCtx) (scope : Option String) (n : SyntaxNode) :
    List Chunk → Prop where
  | whole {spec : NodeSpec} : matched ctx n = some spec → estimateTokens n.data.text ≤ cap →
      OwnPush cap ctx scope n [wholeChunk ctx spec n.data (ctx.extractName n spec) scope]
  | windowed {spec : NodeSpec} : matched ctx n = some spec → cap < estimateTokens n.data.text →
      OwnPush cap ctx scope n (windowedChunks cap ctx n.data (ctx.extractName n spec) scope)

/-- Every push is that of a node. -/
theorem visits_of_mem_pushes {scope : Option String} {depth : ℕ} {n : SyntaxNode}
    {push : List Chunk} (h : push ∈ pushes cap ctx scope depth n) :
    ∃ scope' depth' m, Visits ctx scope depth n scope' depth' m ∧
      OwnPush cap ctx scope' m push := by
  induction n using SyntaxNode.induction generalizing scope depth with
  | node data children ih =>
    have hbelow : push ∈ childPushes cap ctx (childScope ctx scope (.node data children))
        (depth + 1) children → ∃ scope' depth' m,
          Visits ctx scope depth (.node data children) scope' depth' m ∧
            OwnPush cap ctx scope' m push := by
      intro hmem
      obtain ⟨c, hc, hpush⟩ := (mem_childPushes cap ctx).1 hmem
      obtain ⟨scope', depth', m, hvisits, hown⟩ := ih c hc hpush
      exact ⟨scope', depth', m, Visits.child hc hvisits, hown⟩
    unfold pushes at h
    split at h
    · exact absurd h List.not_mem_nil
    dsimp only at h
    rcases hspec : matched ctx (.node data children) with _ | spec
    · rw [hspec] at h
      exact hbelow h
    rw [hspec] at h
    dsimp only at h
    by_cases hover : cap < estimateTokens data.text
    · have hown : ∃ scope' depth' m, Visits ctx scope depth (.node data children) scope' depth' m ∧
          OwnPush cap ctx scope' m (windowedChunks cap ctx data
            (ctx.extractName (.node data children) spec) scope) :=
        ⟨scope, depth, _, Visits.here .., OwnPush.windowed hspec hover⟩
      rw [if_pos hover] at h
      split at h
      · split at h
        · rcases List.mem_append.1 h with h | h
          · exact hbelow h
          · rw [List.mem_singleton.1 h]
            exact hown
        · exact hbelow h
      · rcases List.mem_cons.1 h with rfl | h
        · exact hown
        · exact hbelow h
    · rw [if_neg hover] at h
      rcases List.mem_cons.1 h with rfl | h
      · exact ⟨scope, depth, _, Visits.here .., OwnPush.whole hspec (not_lt.1 hover)⟩
      · exact hbelow h

/-- A node that becomes something and is not an oversized container whose children emit
something has a push of its own. -/
theorem exists_ownPush {scope : Option String} {depth : ℕ} {n : SyntaxNode}
    (hdepth : depth < maxWalkDepth) {spec : NodeSpec} (hspec : matched ctx n = some spec)
    (hnot : cap < estimateTokens n.data.text → spec.chunkKind.isContainer = true →
      walkChildren cap ctx (childScope ctx scope n) [] (depth + 1) n.children = []) :
    ∃ push ∈ pushes cap ctx scope depth n, OwnPush cap ctx scope n push := by
  cases n with
  | node data children =>
    unfold pushes
    rw [if_neg (not_le.2 hdepth), hspec]
    dsimp only
    by_cases hover : cap < estimateTokens data.text
    · refine ⟨_, ?_, OwnPush.windowed hspec hover⟩
      rw [if_pos hover]
      by_cases hcontainer : spec.chunkKind.isContainer = true
      · have hnone : (childPushes cap ctx (childScope ctx scope (.node data children)) (depth + 1)
            children).flatten = [] := (walkChildren_eq_nil_iff ..).1 (hnot hover hcontainer)
        rw [if_pos hcontainer, if_pos hnone]
        exact List.mem_append_right _ (List.mem_singleton.2 rfl)
      · rw [if_neg hcontainer]
        exact List.mem_cons_self
    · refine ⟨_, ?_, OwnPush.whole hspec (not_lt.1 hover)⟩
      rw [if_neg hover]
      exact List.mem_cons_self

end Walk

/-! ### The limit -/

/-- No push goes across the limit. -/
def NoneAcross (ps : List (List Chunk)) : Prop :=
  ∀ front push back, ps = front ++ push :: back → front.flatten.length < maxChunks →
    front.flatten.length + push.length ≤ maxChunks

theorem length_takePushes_le_iff {out : List Chunk} (hout : out.length ≤ maxChunks)
    (ps : List (List Chunk)) :
    (takePushes out ps).length ≤ maxChunks ↔
      ∀ front push back, ps = front ++ push :: back →
        out.length + front.flatten.length < maxChunks →
          out.length + front.flatten.length + push.length ≤ maxChunks := by
  induction ps generalizing out with
  | nil => exact iff_of_true hout fun front push back h => absurd h (by simp)
  | cons push ps ih =>
    by_cases hfull : maxChunks ≤ out.length
    · rw [takePushes_full hfull]
      exact iff_of_true hout fun front push back _ h => by omega
    rw [takePushes_cons hfull]
    by_cases hroom : (out ++ push).length ≤ maxChunks
    · rw [ih hroom]
      rw [List.length_append] at hroom ⊢
      constructor
      · intro h front push' back heq hlt
        rcases front with _ | ⟨first, front⟩
        · cases heq
          simpa using hroom
        · cases heq
          rw [List.flatten_cons, List.length_append] at hlt ⊢
          have := h front push' back rfl (by omega)
          omega
      · intro h front push' back heq hlt
        have := h (push :: front) push' back (by rw [heq]; rfl) (by
          rw [List.flatten_cons, List.length_append]
          omega)
        rw [List.flatten_cons, List.length_append] at this
        omega
    · rw [takePushes_full (by omega)]
      refine iff_of_false hroom fun h => hroom ?_
      have := h [] push ps rfl (by simpa using hfull)
      simpa using this

theorem takePushes_of_lt {out : List Chunk} {ps : List (List Chunk)}
    (h : (takePushes out ps).length < maxChunks) : takePushes out ps = out ++ ps.flatten := by
  induction ps generalizing out with
  | nil => simp [takePushes]
  | cons push ps ih =>
    by_cases hfull : maxChunks ≤ out.length
    · rw [takePushes_full hfull] at h
      omega
    · rw [takePushes_cons hfull] at h ⊢
      rw [ih h, List.flatten_cons, List.append_assoc]

theorem mem_takePushes {out : List Chunk} {ps : List (List Chunk)} {c : Chunk}
    (h : c ∈ takePushes out ps) : c ∈ out ∨ ∃ push ∈ ps, c ∈ push := by
  induction ps generalizing out with
  | nil => exact Or.inl h
  | cons push ps ih =>
    by_cases hfull : maxChunks ≤ out.length
    · rw [takePushes_full hfull] at h
      exact Or.inl h
    · rw [takePushes_cons hfull] at h
      rcases ih h with h | ⟨push', hpush', hc⟩
      · rcases List.mem_append.1 h with h | h
        · exact Or.inl h
        · exact Or.inr ⟨push, List.mem_cons_self, h⟩
      · exact Or.inr ⟨push', List.mem_cons_of_mem push hpush', hc⟩

/-! ### The lines of a node -/

/-- How many rows a text is on. -/
def rowsOf (text : String) : ℕ := text.toList.count '\n' + 1

/-- A node whose rows are those of its text, where the text stands in the source. -/
def InSource (source : String) (data : NodeData) : Prop :=
  ∃ front back, source = front ++ data.text ++ back ∧
    data.startRow = front.toList.count '\n' ∧ data.endRow + 1 = data.startRow + rowsOf data.text

theorem length_splitOn_newline (cs : List Char) :
    (cs.splitOn '\n').length = cs.count '\n' + 1 := by
  induction cs with
  | nil => rfl
  | cons c cs ih =>
    rw [List.splitOn_cons_eq_if_modifyHead, List.count_cons]
    split
    · rw [List.length_cons, ih]
    · rw [List.length_modifyHead, ih]

theorem length_lines_le (text : String) : (lines text).length ≤ rowsOf text := by
  have hlen := length_splitOn_newline text.toList
  have hpos := List.length_pos_iff.2 (List.splitOn_ne_nil '\n' text.toList)
  unfold lines rowsOf
  rw [List.length_map, List.length_append, List.length_map, List.length_dropLast, hlen]
  split
  · simp
  · rcases (text.toList.splitOn '\n').getLast? with _ | last <;> simp

/-- Lines that are joined are on as many rows. -/
theorem rowsOf_joinLines {ls : List String} (hls : ∀ line ∈ ls, '\n' ∉ line.toList) {a b : ℕ}
    (h : a < b) (hb : b ≤ ls.length) : rowsOf (joinLines ls a b) = b - a := by
  have hlen : ((ls.drop a).take (b - a)).length = b - a := by
    rw [List.length_take, List.length_drop]
    omega
  have hsplit := splitOn_intercalate
    (fun l hl => hls l (List.mem_of_mem_drop (List.mem_of_mem_take hl)))
    (List.ne_nil_of_length_pos (l := (ls.drop a).take (b - a)) (by omega))
  unfold rowsOf joinLines
  rw [← length_splitOn_newline, hsplit, List.length_map, hlen]

/-- The text of a chunk and where it stands: the text of the node, within the cap, or some
    lines of it. -/
def SpanOf (cap : ℕ) (data : NodeData) (c : Chunk) : Prop :=
  (c.content = data.text ∧ c.startLine = data.startRow + 1 ∧ c.endLine = data.endRow + 1 ∧
    estimateTokens c.content ≤ cap) ∨
  ∃ a b, a < b ∧ b ≤ (lines data.text).length ∧ c.content = joinLines (lines data.text) a b ∧
    c.startLine = data.startRow + a + 1 ∧ c.endLine = data.startRow + b

theorem SpanOf.rows {cap : ℕ} {source : String} {data : NodeData} {c : Chunk}
    (h : SpanOf cap data c) (hsource : InSource source data) :
    c.endLine + 1 = c.startLine + rowsOf c.content := by
  rcases h with ⟨hcontent, hstart, hend, -⟩ | ⟨a, b, hlt, hle, hcontent, hstart, hend⟩
  · obtain ⟨-, -, -, -, hrows⟩ := hsource
    rw [hcontent]
    omega
  · rw [hcontent, rowsOf_joinLines (fun l hl => newline_notMem_of_mem_lines hl) hlt hle]
    omega

section Own

variable {cap : ℕ} {ctx : WalkCtx} {scope : Option String} {n : SyntaxNode} {push : List Chunk}

/-- The chunks of a push of a node. -/
theorem OwnPush.spanOf (h : OwnPush cap ctx scope n push) {c : Chunk} (hc : c ∈ push) :
    SpanOf cap n.data c := by
  cases h with
  | whole hspec hcap =>
    rw [List.mem_singleton.1 hc]
    exact Or.inl ⟨rfl, rfl, rfl, hcap⟩
  | windowed hspec hover =>
    obtain ⟨sub, hsub, rfl⟩ := List.mem_map.1 hc
    obtain ⟨w, hw, rfl⟩ := List.mem_map.1 hsub
    obtain ⟨hlt, hle, -⟩ := slidingWindow_windows cap n.data.text hw
    refine Or.inr ⟨w.1, w.2, hlt, hle, rfl, ?_, ?_⟩
    · dsimp only
      omega
    · dsimp only
      omega

/-- A push of a node has its name, its comment and its scope. -/
theorem OwnPush.identity (h : OwnPush cap ctx scope n push) {c : Chunk} (hc : c ∈ push) :
    ∃ spec, matched ctx n = some spec ∧ c.name = ctx.extractName n spec ∧
      c.docstring = n.data.comment ∧ c.parentScope = scope := by
  cases h with
  | whole hspec hcap =>
    rw [List.mem_singleton.1 hc]
    exact ⟨_, hspec, rfl, rfl, rfl⟩
  | windowed hspec hover =>
    obtain ⟨sub, hsub, rfl⟩ := List.mem_map.1 hc
    obtain ⟨w, hw, rfl⟩ := List.mem_map.1 hsub
    exact ⟨_, hspec, rfl, rfl, rfl⟩

/-- Every line of a node is in its push. -/
theorem OwnPush.exists_line (h : OwnPush cap ctx scope n push) {source : String}
    (hsource : InSource source n.data) {k : ℕ} (hk : k < (lines n.data.text).length) :
    ∃ c ∈ push, c.startLine ≤ n.data.startRow + k + 1 ∧ n.data.startRow + k + 1 ≤ c.endLine := by
  cases h with
  | whole hspec hcap =>
    obtain ⟨-, -, -, -, hrows⟩ := hsource
    have hle := length_lines_le n.data.text
    refine ⟨_, List.mem_singleton.2 rfl, ?_, ?_⟩
    · dsimp only [wholeChunk]
      omega
    · dsimp only [wholeChunk]
      omega
  | windowed hspec hover =>
    rename_i spec
    obtain ⟨sub, hsub, hstart, hend⟩ := (slidingWindow_covers cap n.data.text ctx.filePath
      ctx.language (ctx.extractName n spec) n.data.comment scope).exists_window
      (Nat.succ_pos k) hk
    refine ⟨_, List.mem_map_of_mem hsub, ?_, ?_⟩
    · dsimp only
      omega
    · dsimp only
      omega

end Own

/-- What the walk of a tree emits. Every chunk is the text of a node within the cap or some
lines of it, at its place in the file and with the name, the comment and the scope of the
node. If the walk does not come to the limit, every line of a node that becomes something
is in such a chunk, unless the node is an oversized container whose children emit
something. The limit holds exactly if no push goes across it. -/
theorem tsWalkLaw (cap : ℕ) (ctx : WalkCtx) (source : String) (root : SyntaxNode)
    (hsource : ∀ scope depth n, Visits ctx none 0 root scope depth n → InSource source n.data) :
    (∀ c ∈ walkNode cap ctx none [] 0 root, ∃ scope depth n spec,
        Visits ctx none 0 root scope depth n ∧ matched ctx n = some spec ∧
          c.name = ctx.extractName n spec ∧ c.docstring = n.data.comment ∧ c.parentScope = scope ∧
            SpanOf cap n.data c ∧ c.endLine + 1 = c.startLine + rowsOf c.content) ∧
      ((walkNode cap ctx none [] 0 root).length < maxChunks →
        ∀ scope depth n spec, Visits ctx none 0 root scope depth n → depth < maxWalkDepth →
          matched ctx n = some spec →
          (cap < estimateTokens n.data.text → spec.chunkKind.isContainer = true →
            walkChildren cap ctx (childScope ctx scope n) [] (depth + 1) n.children = []) →
          ∀ k < (lines n.data.text).length, ∃ c ∈ walkNode cap ctx none [] 0 root,
            c.name = ctx.extractName n spec ∧ c.docstring = n.data.comment ∧ c.parentScope = scope ∧
              SpanOf cap n.data c ∧ c.startLine ≤ n.data.startRow + k + 1 ∧
                n.data.startRow + k + 1 ≤ c.endLine) ∧
      ((walkNode cap ctx none [] 0 root).length ≤ maxChunks ↔
        NoneAcross (pushes cap ctx none 0 root)) := by
  have hwalk : walkNode cap ctx none [] 0 root = takePushes [] (pushes cap ctx none 0 root) :=
    walkNode_eq root none [] 0
  refine ⟨fun c hc => ?_, ?_, ?_⟩
  · rw [hwalk] at hc
    rcases mem_takePushes hc with hc | ⟨push, hpush, hc⟩
    · exact absurd hc List.not_mem_nil
    · obtain ⟨scope, depth, n, hvisits, hown⟩ := visits_of_mem_pushes hpush
      obtain ⟨spec, hspec, hname, hdoc, hscope⟩ := hown.identity hc
      have hspan := hown.spanOf hc
      exact ⟨scope, depth, n, spec, hvisits, hspec, hname, hdoc, hscope, hspan,
        hspan.rows (hsource scope depth n hvisits)⟩
  · intro htotal scope depth n spec hvisits hdepth hspec hnot k hk
    rw [hwalk] at htotal ⊢
    rw [takePushes_of_lt htotal, List.nil_append]
    obtain ⟨push, hpush, hown⟩ := exists_ownPush hdepth hspec hnot
    obtain ⟨c, hc, hrange⟩ := hown.exists_line (hsource scope depth n hvisits) hk
    obtain ⟨spec', hspec', hname, hdoc, hscope⟩ := hown.identity hc
    rw [hspec] at hspec'
    cases hspec'
    exact ⟨c, List.mem_flatten.2 ⟨push, pushes_of_visits hvisits hdepth hpush, hc⟩, hname, hdoc,
      hscope, hown.spanOf hc, hrange⟩
  · rw [hwalk, length_takePushes_le_iff (Nat.zero_le _)]
    simp only [NoneAcross, List.length_nil, Nat.zero_add]

/-! ### A stylesheet with many rules -/

def cssCtx : WalkCtx where
  filePath := "site.css"
  language := "css"
  specs := [⟨"rule_set", .rule, none⟩]
  extractName := fun _ _ => some "a"

/-- The rule `a{}`, which is a chunk. -/
def smallRule : SyntaxNode :=
  .node ⟨"rule_set", true, "a\x7b\x7d", 0, 0, none⟩
    [.node ⟨"selectors", true, "a", 0, 0, none⟩ [],
      .node ⟨"block", true, "\x7b\x7d", 0, 0, none⟩ []]

theorem inSource_smallRule {scope scope' : Option String} {depth depth' : ℕ} {n : SyntaxNode}
    (h : Visits cssCtx scope depth smallRule scope' depth' n) :
    InSource "a\x7b\x7d" n.data := by
  cases h with
  | here => exact ⟨"", "", rfl, rfl, rfl⟩
  | child hc hrest =>
    rcases List.mem_pair.1 hc with rfl | rfl
    · cases hrest with
      | here => exact ⟨"", "\x7b\x7d", rfl, rfl, rfl⟩
      | child hc => exact absurd hc List.not_mem_nil
    · cases hrest with
      | here => exact ⟨"a", "", rfl, rfl, rfl⟩
      | child hc => exact absurd hc List.not_mem_nil

/-- The chunk of a rule. -/
theorem tsWalkLaw_smallRule : ∃ c ∈ walkNode 512 cssCtx none [] 0 smallRule,
    c.name = some "a" ∧ c.startLine ≤ 1 ∧ 1 ≤ c.endLine := by
  have hlaw := tsWalkLaw 512 cssCtx "a\x7b\x7d" smallRule fun _ _ _ h => inSource_smallRule h
  obtain ⟨c, hc, hname, -, -, -, hrange⟩ := hlaw.2.1 (by decide) none 0 smallRule
    ⟨"rule_set", .rule, none⟩ (Visits.here ..) (by decide) rfl
    (fun hover => absurd hover (by decide)) 0 (by decide)
  exact ⟨c, hc, hname, hrange⟩

/-- The lines of a rule with a line of some spaces. -/
def bigRuleLines (spaces : ℕ) : List String :=
  ["a\x7b", String.ofList (List.replicate spaces ' '), "\x7d"]

def bigRule (spaces : ℕ) : SyntaxNode :=
  .node ⟨"rule_set", true, "\n".intercalate (bigRuleLines spaces), 0, 2, none⟩
    [.node ⟨"selectors", true, "a", 0, 0, none⟩ []]

def stylesheet (rules spaces : ℕ) : SyntaxNode :=
  .node ⟨"stylesheet", true, "".intercalate (List.replicate rules "a\x7b\x7d") ++
      "\n".intercalate (bigRuleLines spaces), 0, 2, none⟩
    (List.replicate rules smallRule ++ [bigRule spaces])

section Stylesheet

variable {spaces : ℕ}

theorem bigRule_over (h : 2048 < spaces) :
    512 < estimateTokens ("\n".intercalate (bigRuleLines spaces)) := by
  have hlength : ("\n".intercalate (bigRuleLines spaces)).length = spaces + 5 := by
    rw [bigRuleLines, String.intercalate_cons_cons, String.intercalate_cons_cons,
      String.intercalate_singleton]
    simp only [String.length_append, String.length_ofList, List.length_replicate]
    have hopen : "a\x7b".length = 2 := rfl
    have hclose : "\x7d".length = 1 := rfl
    have hnewline : "\n".length = 1 := rfl
    omega
  unfold estimateTokens
  rw [hlength]
  omega

theorem length_windows_bigRule (h : 2048 < spaces) (name scope : Option String) :
    (windowedChunks 512 cssCtx (bigRule spaces).data name scope).length = 3 := by
  have hnewline : ∀ line ∈ bigRuleLines spaces, '\n' ∉ line.toList := by
    intro line hline
    simp only [bigRuleLines, List.mem_cons, List.not_mem_nil, or_false] at hline
    rcases hline with rfl | rfl | rfl
    · decide
    · rw [String.toList_ofList]
      exact fun hmem => absurd (List.eq_of_mem_replicate hmem) (by decide)
    · decide
  have hspaces : beforeLineEnd (String.ofList (List.replicate spaces ' ')) =
      String.ofList (List.replicate spaces ' ') := by
    refine beforeLineEnd_eq_iff.2 fun hreturn => ?_
    unfold EndsInReturn at hreturn
    rw [String.toList_ofList] at hreturn
    exact absurd (List.eq_of_mem_replicate (List.mem_of_getLast? hreturn)) (by decide)
  have hlines : (lines (bigRule spaces).data.text).map String.length = [2, spaces, 1] := by
    have hread := lines_intercalate hnewline (List.cons_ne_nil _ _)
    have hlast : (bigRuleLines spaces).getLast (List.cons_ne_nil _ _) = "\x7d" := rfl
    have hfirst : beforeLineEnd "a\x7b" = "a\x7b" := by decide
    have hfront : (bigRuleLines spaces).dropLast.map beforeLineEnd =
        ["a\x7b", String.ofList (List.replicate spaces ' ')] := by
      rw [← hspaces]
      exact congrArg (· :: _) hfirst
    rw [hlast, if_neg (by decide), hfront] at hread
    refine (congrArg (List.map String.length) hread).trans ?_
    simp only [List.cons_append, List.nil_append, List.map_cons, List.map_nil,
      String.length_ofList, List.length_replicate]
    rfl
  have hwindows : windowsFrom [2, spaces, 1] 2048 256 0 = [(0, 1), (1, 2), (2, 3)] := by
    have h1 : 2048 < 2 + (spaces + 1) := by omega
    have h2 : 2048 < spaces + (1 + 1) := by omega
    have h3 : 256 < spaces + 1 := by omega
    simp [windowsFrom, windowEnd, takeLines, stepBack, stepBackFrom, h1, h2]
  unfold windowedChunks slidingWindow
  rw [List.length_map, List.length_map, hlines]
  exact congrArg List.length hwindows

theorem pushes_stylesheet (rules : ℕ) (h : 2048 < spaces) : ∃ c push,
    pushes 512 cssCtx none 0 (stylesheet rules spaces) = List.replicate rules [c] ++ [push] ∧
      push.length = 3 := by
  obtain ⟨c, hsmall⟩ : ∃ c, pushes 512 cssCtx none 1 smallRule = [[c]] := ⟨_, rfl⟩
  have hbig : pushes 512 cssCtx none 1 (bigRule spaces) =
      [windowedChunks 512 cssCtx (bigRule spaces).data (some "a") none] :=
    if_pos (bigRule_over h)
  refine ⟨c, _, ?_, length_windows_bigRule h (some "a") none⟩
  have hall : ∀ k,
      childPushes 512 cssCtx none 1 (List.replicate k smallRule ++ [bigRule spaces]) =
        List.replicate k [c] ++
          [windowedChunks 512 cssCtx (bigRule spaces).data (some "a") none] := by
    intro k
    induction k with
    | zero => rw [List.replicate_zero, List.nil_append, childPushes, hbig]; rfl
    | succ k ih =>
      rw [List.replicate_succ, List.cons_append, childPushes, hsmall, ih]
      rfl
  exact hall rules

end Stylesheet

/-- Rules on one line up to the limit, but for one, and a rule of three windows behind them. -/
theorem tsWalk_manyRules :
    maxChunks < (walkNode 512 cssCtx none [] 0 (stylesheet 99999 4096)).length := by
  obtain ⟨c, push, hpushes, hlength⟩ := pushes_stylesheet 99999 (by decide : 2048 < 4096)
  rw [walkNode_eq, hpushes]
  by_contra hnot
  have hfront : (List.replicate 99999 [c]).flatten.length = 99999 := by
    rw [List.flatten_replicate_singleton, List.length_replicate]
  have hacross := (length_takePushes_le_iff (Nat.zero_le _) _).1 (not_lt.1 hnot)
    (List.replicate 99999 [c]) push [] rfl
  rw [hfront, hlength] at hacross
  have hover := hacross (by decide)
  exact absurd hover (by decide)

end Spelunk
