import Spelunk.Core.Mentions
import Spelunk.Theory.EmbedQueue

/-!
# What Dropped Chunks Leave

A chunk whose text has a secret is not stored. Its row is the only thing that is left out:
the mention edges are those of all named chunks of the file, and the structural edges
those of the whole text. So the index keeps the name and the tokens of a chunk that was
dropped, and two files that differ in dropped chunks alone leave different rows.

## Main definitions

* `NoTrace`: What is stored of a dropped chunk is in a kept one.
* `Covered`: What a dropped chunk needs for it.
* `SameButHash`: The rows of two databases, apart from the hashes of the files.

## Theorems

* `mentionTokens_infix`: A token is a piece of the text of its chunk.
* `mentionEdges_perm`: The mentions of a file are those of the kept and of the dropped chunks.
* `secretTraceLaw`: When dropped chunks leave no trace.
* `secret_tokens`: A function with a key.
-/

namespace Spelunk

open CodeDb RunState

/-! ### Tokens -/

section Tokens

variable {isAlphanumeric : Char → Bool}

theorem identRuns_cons {run rest : List Char} {c : Char}
    (h : isIdentChar isAlphanumeric c = false) :
    identRuns isAlphanumeric run (c :: rest) =
      (if run = [] then [] else [run]) ++ identRuns isAlphanumeric [] rest := by
  rw [identRuns, h]
  rfl

/-- A word is the one that is read, if it ends here. -/
theorem eq_of_mem_pending {run w : List Char} (h : w ∈ if run = [] then [] else [run]) :
    w = run := by
  split at h
  · exact absurd h List.not_mem_nil
  · exact List.mem_singleton.1 h

/-- A word of a text is a piece of it. -/
theorem infix_of_mem_identRuns {chars run w : List Char}
    (h : w ∈ identRuns isAlphanumeric run chars) : w <:+: run ++ chars := by
  induction chars generalizing run with
  | nil => exact eq_of_mem_pending h ▸ (List.prefix_append _ _).isInfix
  | cons c rest ih =>
    rw [identRuns] at h
    split at h
    · have hrest := ih h
      rwa [List.append_assoc, List.singleton_append] at hrest
    · rcases List.mem_append.1 h with h | h
      · rw [eq_of_mem_pending h]
        exact (List.prefix_append _ _).isInfix
      · have hrest := ih h
        exact hrest.trans ((List.suffix_cons c rest).trans (List.suffix_append _ _)).isInfix

/-- What the code goes on with: a blank and a span, a line comment, or the character. -/
theorem CommentStyle.enter_cases (style : CommentStyle) (c : Char) (rest : List Char) :
    (∃ skip mode, style.enter c rest = ([' '], skip, mode)) ∨
    (∃ skip, style.enter c rest = ([], skip, .line)) ∨
    style.enter c rest = ([c], 0, .code) := by
  unfold CommentStyle.enter
  split
  · exact .inl ⟨_, _, rfl⟩
  · split
    · exact .inr (.inl ⟨_, rfl⟩)
    · split
      · exact .inl ⟨_, _, rfl⟩
      · exact .inr (.inr rfl)

variable (hblank : isIdentChar isAlphanumeric ' ' = false)
  (hline : isIdentChar isAlphanumeric '\n' = false)
include hblank hline

/-- A word of the stripped text is one piece of the text. A word that is read goes on in the code
    only; a line comment leaves nothing in its place, but ends at a line end. -/
theorem infix_of_mem_strip (style : CommentStyle) (chars : List Char) :
    (∀ run w, w ∈ identRuns isAlphanumeric run (style.strip 0 .code chars) →
      w <:+: run ++ chars) ∧
    ∀ skip mode run w, mode = .line ∨ run = [] →
      w ∈ identRuns isAlphanumeric run (style.strip skip mode chars) →
        w <:+: run ∨ w <:+: chars := by
  induction chars with
  | nil =>
    have hnil : ∀ skip mode, style.strip skip mode [] = [] := by
      intro skip mode
      unfold CommentStyle.strip
      rfl
    refine ⟨fun run w h => ?_, fun skip mode run w _ h => ?_⟩
    · rw [hnil] at h
      exact eq_of_mem_pending h ▸ (List.prefix_append _ _).isInfix
    · rw [hnil] at h
      exact .inl (eq_of_mem_pending h ▸ List.infix_rfl)
  | cons c rest ih =>
    obtain ⟨ihCode, ihSpan⟩ := ih
    have hrest : ∀ {w : List Char}, w <:+: rest → w <:+: c :: rest := fun h =>
      h.trans (List.suffix_cons c rest).isInfix
    have hcode : ∀ run w, w ∈ identRuns isAlphanumeric run (style.strip 0 .code (c :: rest)) →
        w <:+: run ++ c :: rest := by
      intro run w h
      have hpending : ∀ {w : List Char}, w <:+: run ∨ w <:+: rest → w <:+: run ++ c :: rest := by
        rintro w (h | h)
        · exact h.trans (List.prefix_append _ _).isInfix
        · exact (hrest h).trans (List.suffix_append _ _).isInfix
      rw [CommentStyle.strip] at h
      rcases style.enter_cases c rest with ⟨skip, mode, hnext⟩ | ⟨skip, hnext⟩ | hnext
      · simp only [hnext, List.singleton_append] at h
        rw [identRuns_cons hblank] at h
        rcases List.mem_append.1 h with h | h
        · exact hpending (.inl (eq_of_mem_pending h ▸ List.infix_rfl))
        · rcases ihSpan skip mode [] w (.inr rfl) h with h | h
          · exact hpending (.inl (h.trans (List.nil_infix)))
          · exact hpending (.inr h)
      · simp only [hnext, List.nil_append] at h
        exact hpending (ihSpan skip .line run w (.inl rfl) h)
      · simp only [hnext, List.singleton_append] at h
        rw [identRuns] at h
        split at h
        · have hlonger := ihCode (run ++ [c]) w h
          rwa [List.append_assoc, List.singleton_append] at hlonger
        · rcases List.mem_append.1 h with h | h
          · exact hpending (.inl (eq_of_mem_pending h ▸ List.infix_rfl))
          · exact hpending (.inr (ihCode [] w h))
    refine ⟨hcode, fun skip mode run w hrun h => ?_⟩
    cases skip with
    | succ skip =>
      rw [CommentStyle.strip] at h
      exact (ihSpan skip mode run w hrun h).imp_right hrest
    | zero =>
      cases mode with
      | code =>
        rcases hrun with hmode | rfl
        · exact nomatch hmode
        · exact .inr (hcode [] w h)
      | line =>
        rw [CommentStyle.strip] at h
        split at h
        · next hc =>
          rw [hc, identRuns_cons hline] at h
          rcases List.mem_append.1 h with h | h
          · exact .inl (eq_of_mem_pending h ▸ List.infix_rfl)
          · exact .inr (hrest (ihCode [] w h))
        · exact (ihSpan 0 .line run w hrun h).imp_right hrest
      | block depth =>
        have hempty : run = [] := hrun.resolve_left nofun
        rw [CommentStyle.strip] at h
        split at h
        · exact (ihSpan 0 .code run w (.inr hempty) h).imp_right hrest
        · split at h
          · exact (ihSpan _ _ run w (.inr hempty) h).imp_right hrest
          · split at h <;> exact (ihSpan _ _ run w (.inr hempty) h).imp_right hrest
      | literal quote =>
        have hempty : run = [] := hrun.resolve_left nofun
        rw [CommentStyle.strip] at h
        split at h
        · exact (ihSpan _ _ run w (.inr hempty) h).imp_right hrest
        · split at h <;> exact (ihSpan _ _ run w (.inr hempty) h).imp_right hrest

/-- A token is a piece of the text of its chunk. -/
theorem mentionTokens_infix {content language tok : String}
    (h : tok ∈ extractMentionTokens isAlphanumeric content language) :
    tok.toList <:+: content.toList := by
  obtain ⟨w, hw, rfl⟩ := List.mem_map.1 h
  have hrun := List.mem_of_mem_filter (List.mem_eraseDups.1 (List.mem_of_mem_take hw))
  rw [String.toList_ofList]
  unfold stripCommentsAndStrings at hrun
  split at hrun
  · exact infix_of_mem_identRuns hrun
  · exact (infix_of_mem_strip hblank hline _ _).1 [] w hrun

end Tokens

/-! ### What is stored of a chunk -/

/-- The texts of a chunk that its row keeps. -/
def ParsedChunk.texts (c : ParsedChunk) : List String :=
  c.content :: (c.name.toList ++ c.docstring.toList ++ c.parentScope.toList)

/-- The names of an edge. -/
def EdgeRow.names (e : EdgeRow) : List String := e.sourceName.toList ++ [e.targetName]

/-- A chunk has a text as a piece of one of its own. -/
def ParsedChunk.Has (c : ParsedChunk) (x : String) : Prop :=
  ∃ t ∈ c.texts, x.toList <:+: t.toList

/-- A row with the texts of a chunk. -/
structure RowOf {R : Type} (d : ParsedChunk) (r : ChunkRow R) : Prop where
  name : r.name = d.name
  content : r.content = d.content
  docstring : r.docstring = d.docstring
  parentScope : r.parentScope = d.parentScope

section Trace

variable {R : Type} [Zero R] (env : Extractors)

/-- The chunks with a secret. -/
def Extractors.dropped (chunks : List ParsedChunk) : List ParsedChunk :=
  chunks.filter fun c => env.containsSecret c.embeddingText

/-- A chunk that is kept has the text. -/
def Extractors.InKept (chunks : List ParsedChunk) (x : String) : Prop :=
  ∃ c ∈ env.storable chunks, c.Has x

/-- An edge that stems from a chunk: a mention, or a structural edge on its lines. -/
def Extractors.StemsFrom (language : String) (w : FileWork) (d : ParsedChunk) (e : EdgeRow) :
    Prop :=
  e ∈ env.mentionEdges w.row.path language [d] ∨
    (e ∈ w.edges.getD [] ∧ d.startLine ≤ e.line ∧ e.line ≤ d.endLine)

/-- What is stored of a dropped chunk is in a kept one. -/
structure NoTrace (language : String) (w : FileWork) (db : CodeDb R) : Prop where
  rows : ∀ d ∈ env.dropped w.chunks, ∀ r ∈ db.chunks, r.path = w.row.path → RowOf d r →
    ∀ x ∈ d.texts, env.InKept w.chunks x
  edges : ∀ d ∈ env.dropped w.chunks, ∀ e ∈ db.edges, e.sourceFile = w.row.path →
    env.StemsFrom language w d e → ∀ x ∈ e.names, env.InKept w.chunks x

/-- The name and the tokens of a chunk are in kept ones if it mentions a symbol under a name, and so
    are the names of the structural edges on its lines. -/
structure Extractors.Covered (language : String) (w : FileWork) (d : ParsedChunk) : Prop where
  mentions : ∀ name, d.name = some name → ∀ tok ∈ env.mentions d.content language,
    env.InKept w.chunks name ∧ env.InKept w.chunks tok
  structural : ∀ e ∈ w.edges.getD [], d.startLine ≤ e.line → e.line ≤ d.endLine →
    ∀ x ∈ e.names, env.InKept w.chunks x

/-- The row of a file without its hash. -/
def FileRow.unhashed (f : FileRow) : FileRow := { f with hash := "" }

/-- The rows of two databases are the same apart from the hashes of the files. -/
structure SameButHash (db db' : CodeDb R) : Prop where
  files : db.files.map FileRow.unhashed = db'.files.map FileRow.unhashed
  chunks : db.chunks = db'.chunks
  embeddings : db.embeddings = db'.embeddings
  edges : db.edges.Perm db'.edges

theorem mem_mentionEdges {path language : String} {chunks : List ParsedChunk} {e : EdgeRow} :
    e ∈ env.mentionEdges path language chunks ↔ ∃ c ∈ chunks, ∃ name, c.name = some name ∧
      ∃ tok ∈ env.mentions c.content language,
        e = ⟨path, some name, tok, CodeDb.mentionKind, 0⟩ := by
  unfold Extractors.mentionEdges
  rw [List.mem_flatMap]
  refine exists_congr fun c => and_congr_right fun _ => ?_
  cases c.name with
  | none => exact iff_of_false List.not_mem_nil (by rintro ⟨_, h, -⟩; exact nomatch h)
  | some name =>
    rw [List.mem_map]
    constructor
    · rintro ⟨tok, htok, rfl⟩
      exact ⟨name, rfl, tok, htok, rfl⟩
    · rintro ⟨_, hname, tok, htok, rfl⟩
      exact ⟨tok, htok, by rw [Option.some.inj hname]⟩

/-- The mentions of a file are those of the kept and of the dropped chunks. -/
theorem mentionEdges_perm (path language : String) (chunks : List ParsedChunk) :
    (env.mentionEdges path language chunks).Perm
      (env.mentionEdges path language (env.storable chunks) ++
        env.mentionEdges path language (env.dropped chunks)) := by
  have hsplit := (List.filter_append_perm (fun c => env.containsSecret c.embeddingText)
    chunks).symm.trans List.perm_append_comm
  unfold Extractors.mentionEdges
  rw [← List.flatMap_append]
  exact hsplit.flatMap_right _

omit [Zero R] in
/-- What a run does with a source file. -/
theorem fileWork_text {force : Bool} {db : CodeDb R} {f : WalkedFile} {language : String}
    (hkind : f.kind = .text language) {w : FileWork} (hw : env.fileWork force db f = some w) :
    (∃ hash, w.row = ⟨f.path, language, hash, f.mtime⟩) ∧
      w.mentions = env.mentionEdges f.path language w.chunks := by
  simp only [Extractors.fileWork, hkind, Extractors.textWork] at hw
  split at hw
  · cases hw
  · split at hw
    · cases hw
    · obtain ⟨source, -, hw⟩ := Option.bind_eq_some_iff.1 hw
      split at hw
      · cases hw
      · obtain ⟨chunks, -, rfl⟩ := Option.map_eq_some_iff.1 hw
        exact ⟨⟨_, rfl⟩, rfl⟩

/-- A kept chunk has not the texts of a dropped one. -/
theorem not_rowOf_chunkRow {chunks : List ParsedChunk} {c d : ParsedChunk}
    (hc : c ∈ env.storable chunks) (hd : d ∈ env.dropped chunks) (path : String) (id : ℕ) :
    ¬ RowOf d (env.chunkRow (R := R) path c id) := by
  intro h
  have htext : c.embeddingText = d.embeddingText := by
    unfold ParsedChunk.embeddingText
    rw [← h.name, ← h.docstring, ← h.content]
    rfl
  have hkept := (List.mem_filter.1 hc).2
  rw [htext, (List.mem_filter.1 hd).2] at hkept
  exact absurd hkept (by decide)

/-- When a file leaves no trace of its dropped chunks. -/
theorem noTrace_iff {language : String} {w : FileWork} {s s' : RunState R}
    (hcut : Recut env w s s') (happlied : FileApplied env w s.db s'.db)
    (hmentions : w.mentions = env.mentionEdges w.row.path language w.chunks)
    (hfile : ∀ e ∈ w.edges.getD [] ++ w.mentions, e.sourceFile = w.row.path) :
    NoTrace env language w s'.db ↔ ∀ d ∈ env.dropped w.chunks, env.Covered language w d := by
  have hstored : ∀ e ∈ w.edges.getD [] ++ w.mentions, e ∈ s'.db.edges := by
    intro e he
    rw [happlied.edges]
    exact List.mem_append_right _ he
  constructor
  · refine fun h d hd => ⟨fun name hname tok htok => ?_, fun e he hfrom hto => ?_⟩
    · have hedge : (⟨w.row.path, some name, tok, CodeDb.mentionKind, 0⟩ : EdgeRow) ∈
          env.mentionEdges w.row.path language [d] :=
        (mem_mentionEdges env).2 ⟨d, List.mem_singleton_self _, name, hname, tok, htok, rfl⟩
      have hwritten : (⟨w.row.path, some name, tok, CodeDb.mentionKind, 0⟩ : EdgeRow) ∈
          w.mentions := by
        rw [hmentions]
        exact (mem_mentionEdges env).2
          ⟨d, List.mem_of_mem_filter hd, name, hname, tok, htok, rfl⟩
      have hnames := h.edges d hd _ (hstored _ (List.mem_append_right _ hwritten)) rfl (.inl hedge)
      exact ⟨hnames name (by simp [EdgeRow.names]), hnames tok (by simp [EdgeRow.names])⟩
    · have hmem := List.mem_append_left w.mentions he
      exact h.edges d hd e (hstored e hmem) (hfile e hmem) (.inr ⟨he, hfrom, hto⟩)
  · refine fun h => ⟨fun d hd r hr hpath hrow => ?_, fun d hd e _ _ hstems x hx => ?_⟩
    · rcases hcut.mem_chunks.1 hr with ⟨-, hne⟩ | hnew
      · exact absurd hpath hne
      · obtain ⟨p, hp, rfl⟩ := (mem_storedRows env).1 hnew
        exact absurd hrow
          (not_rowOf_chunkRow env (List.fst_mem_of_mem_zipIdx hp) hd w.row.path p.2)
    · rcases hstems with hmention | ⟨he, hfrom, hto⟩
      · obtain ⟨c, hc, name, hname, tok, htok, rfl⟩ := (mem_mentionEdges env).1 hmention
        rw [List.mem_singleton.1 hc] at hname htok
        obtain ⟨hinName, hinTok⟩ := (h d hd).mentions name hname tok htok
        simp only [EdgeRow.names, Option.toList_some, List.cons_append, List.nil_append,
          List.mem_cons, List.not_mem_nil, or_false] at hx
        rcases hx with rfl | rfl
        · exact hinName
        · exact hinTok
      · exact (h d hd).structural e he hfrom hto x hx

theorem noTrace_processFile {force : Bool} {s : RunState R} {f : WalkedFile} {language : String}
    (hkind : f.kind = .text language) {w : FileWork} (hw : env.fileWork force s.db f = some w) :
    NoTrace env language w (env.processFile force s f).db ↔
      ∀ d ∈ env.dropped w.chunks, env.Covered language w d := by
  obtain ⟨hpath, hfile⟩ := fileWork_path env force hw
  refine noTrace_iff env (recut_processFile env hw) (fileApplied_processFile env force hw)
    (hpath ▸ (fileWork_text env hkind hw).2) fun e he => ?_
  rw [hpath]
  exact hfile e he

theorem FileRow.path_of_unhashed {row row' : FileRow} (h : row.unhashed = row'.unhashed) :
    row.path = row'.path := by
  have hpath := congrArg FileRow.path h
  exact hpath

omit [Zero R] in
/-- Rows of a file that differ in the hash. -/
theorem files_upsertFile {db : CodeDb R} {row row' : FileRow}
    (h : row.unhashed = row'.unhashed) :
    (db.upsertFile row).files.map FileRow.unhashed =
      (db.upsertFile row').files.map FileRow.unhashed := by
  have hpath : row.path = row'.path := FileRow.path_of_unhashed h
  unfold CodeDb.upsertFile
  rw [← hpath]
  split
  · simp only [List.map_map]
    refine List.map_congr_left fun g _ => ?_
    simp only [Function.comp_apply]
    by_cases hg : g.path = row.path
    · rw [if_pos hg, if_pos hg]
      exact h
    · rw [if_neg hg, if_neg hg]
  · simp only [List.map_append, List.map_singleton]
    rw [h]

/-- Two files with the same kept chunks and structural edges. -/
theorem sameButHash_iff {language : String} {w w' : FileWork} {s s₁ s₂ : RunState R}
    (hcut : Recut env w s s₁) (hcut' : Recut env w' s s₂)
    (happlied : FileApplied env w s.db s₁.db) (happlied' : FileApplied env w' s.db s₂.db)
    (hrow : w.row.unhashed = w'.row.unhashed)
    (hmentions : w.mentions = env.mentionEdges w.row.path language w.chunks)
    (hmentions' : w'.mentions = env.mentionEdges w'.row.path language w'.chunks)
    (hkept : env.storable w'.chunks = env.storable w.chunks) (hedges : w'.edges = w.edges) :
    SameButHash s₁.db s₂.db ↔
      (env.mentionEdges w.row.path language (env.dropped w.chunks)).Perm
        (env.mentionEdges w.row.path language (env.dropped w'.chunks)) := by
  have hpath : w'.row.path = w.row.path := (FileRow.path_of_unhashed hrow).symm
  have hperm : s₁.db.edges.Perm s₂.db.edges ↔
      (env.mentionEdges w.row.path language (env.dropped w.chunks)).Perm
        (env.mentionEdges w.row.path language (env.dropped w'.chunks)) := by
    rw [happlied.edges, happlied'.edges, hedges, hpath, List.perm_append_left_iff,
      List.perm_append_left_iff, hmentions, hmentions', hpath,
      (mentionEdges_perm env w.row.path language w.chunks).congr_left,
      (mentionEdges_perm env w.row.path language w'.chunks).congr_right, hkept,
      List.perm_append_left_iff]
  refine ⟨fun h => hperm.1 h.edges, fun h => ⟨?_, ?_, ?_, hperm.2 h⟩⟩
  · rw [hcut.files, hcut'.files]
    exact files_upsertFile hrow
  · rw [hcut.chunks, hcut'.chunks, hkept, hpath]
  · rw [hcut.embeddings, hcut'.embeddings, hpath]

end Trace

/-! ### The law -/

section Law

variable {R : Type} [Zero R]

/-- Dropped chunks of a source file. They leave no trace if and only if each is covered; the rows of
    two files with the same kept chunks and structural edges are the same if and only if their
    dropped chunks have the same mentions. With the tokens of the source, what a kept chunk
    mentions is in it. -/
theorem secretTraceLaw (env : Extractors) (force : Bool) {s : RunState R} {f : WalkedFile}
    {language : String} (hkind : f.kind = .text language) {w : FileWork}
    (hw : env.fileWork force s.db f = some w) :
    (NoTrace env language w (env.processFile force s f).db ↔
      ∀ d ∈ env.dropped w.chunks, env.Covered language w d) ∧
    (∀ (force' : Bool) (f' : WalkedFile) (w' : FileWork), f'.path = f.path → f'.kind = f.kind →
      f'.mtime = f.mtime → env.fileWork force' s.db f' = some w' →
      env.storable w'.chunks = env.storable w.chunks → w'.edges = w.edges →
      (SameButHash (env.processFile force s f).db (env.processFile force' s f').db ↔
        (env.mentionEdges f.path language (env.dropped w.chunks)).Perm
          (env.mentionEdges f.path language (env.dropped w'.chunks)))) ∧
    ∀ isAlphanumeric : Char → Bool, isIdentChar isAlphanumeric ' ' = false →
      isIdentChar isAlphanumeric '\n' = false →
      env.mentions = extractMentionTokens isAlphanumeric →
      ∀ c ∈ env.storable w.chunks, ∀ e ∈ env.mentionEdges f.path language [c],
        ∀ x ∈ e.names, env.InKept w.chunks x := by
  obtain ⟨⟨hash, hrow⟩, hmentions⟩ := fileWork_text env hkind hw
  have hpath : w.row.path = f.path := (fileWork_path env force hw).1
  refine ⟨noTrace_processFile env hkind hw, ?_, ?_⟩
  · intro force' f' w' hpath' hkind' hmtime hw' hkept hedges
    obtain ⟨⟨hash', hrow'⟩, hmentions'⟩ := fileWork_text env (hkind'.trans hkind) hw'
    have hpaths : w'.row.path = f'.path := (fileWork_path env force' hw').1
    rw [← hpath]
    refine sameButHash_iff env (recut_processFile env hw) (recut_processFile env hw')
      (fileApplied_processFile env force hw) (fileApplied_processFile env force' hw') ?_
      (hpath ▸ hmentions) (hpaths ▸ hmentions') hkept hedges
    rw [hrow, hrow', hpath', hmtime]
    rfl
  · intro isAlphanumeric hblank hline hsource c hc e he x hx
    obtain ⟨c', hc', name, hname, tok, htok, rfl⟩ := (mem_mentionEdges env).1 he
    rw [List.mem_singleton.1 hc'] at hname htok
    refine ⟨c, hc, ?_⟩
    simp only [EdgeRow.names, Option.toList_some, List.cons_append, List.nil_append,
      List.mem_cons, List.not_mem_nil, or_false] at hx
    rcases hx with rfl | rfl
    · exact ⟨x, by simp [ParsedChunk.texts, hname], List.infix_rfl⟩
    · rw [hsource] at htok
      exact ⟨c.content, List.mem_cons_self, mentionTokens_infix hblank hline htok⟩

end Law

/-! ### A function with a key -/

/-- A file of one function, which is a function with a key if it has more than a name. -/
def keyedFunction : Extractors where
  hash source := source
  parse _ _ source := some [⟨"function", some "deploy", 1, 1, source, none, none⟩]
  extract _ _ _ := some []
  mentions := extractMentionTokens Char.isAlphanum
  parseDoc _ _ _ := []
  pdfPages _ := none
  containsSecret text := decide ("AKIA".toList <:+: text.toList)
  estimateTokens _ := 3

/-- The file with a text. -/
def deployFile (source : String) : WalkedFile where
  path := "deploy.rs"
  kind := .text "rust"
  binary := false
  tooLarge := false
  contents := some source
  mtime := 1

/-- What a run does with it. -/
def deployWork (source : String) : FileWork where
  row := ⟨"deploy.rs", "rust", source, 1⟩
  edges := some []
  mentions := keyedFunction.mentionEdges "deploy.rs" "rust"
    [⟨"function", some "deploy", 1, 1, source, none, none⟩]
  chunks := [⟨"function", some "deploy", 1, 1, source, none, none⟩]

theorem fileWork_deployFile (source : String) :
    keyedFunction.fileWork false (.empty : CodeDb ℕ) (deployFile source) =
      some (deployWork source) := rfl

theorem secretTraceLaw_plain :
    NoTrace keyedFunction "rust" (deployWork "fn deploy() {}")
      (keyedFunction.processFile false (.start (.empty : CodeDb ℕ))
        (deployFile "fn deploy() {}")).db := by
  refine (secretTraceLaw keyedFunction false (s := .start .empty) rfl
    (fileWork_deployFile "fn deploy() {}")).1.2 fun d hd => ?_
  have hnone : keyedFunction.dropped (deployWork "fn deploy() {}").chunks = [] := by
    decide +kernel
  rw [hnone] at hd
  exact absurd hd List.not_mem_nil

/-- The name and the tokens of a function with a key are stored as its mentions. -/
theorem secret_tokens :
    ¬ ∀ (env : Extractors) (force : Bool) (s : RunState ℕ) (f : WalkedFile) (language : String)
      (w : FileWork), f.kind = .text language → env.fileWork force s.db f = some w →
        NoTrace env language w (env.processFile force s f).db := by
  intro hall
  have hwork := fileWork_deployFile "fn deploy() { login(AKIA7); }"
  have htrace := hall keyedFunction false (.start .empty) _ "rust" _ rfl hwork
  rw [noTrace_processFile keyedFunction rfl hwork] at htrace
  have hdropped : ⟨"function", some "deploy", 1, 1, "fn deploy() { login(AKIA7); }", none,
      none⟩ ∈ keyedFunction.dropped (deployWork "fn deploy() { login(AKIA7); }").chunks :=
    List.mem_filter.2 ⟨List.mem_singleton_self _, by decide +kernel⟩
  have htoken : "login" ∈ keyedFunction.mentions "fn deploy() { login(AKIA7); }" "rust" := by
    decide +kernel
  obtain ⟨-, c, hc, -⟩ := (htrace _ hdropped).mentions "deploy" rfl "login" htoken
  have hkept : keyedFunction.storable (deployWork "fn deploy() { login(AKIA7); }").chunks = [] := by
    decide +kernel
  rw [hkept] at hc
  exact absurd hc List.not_mem_nil

end Spelunk
