import Spelunk.Core.ClaudeHistory
import Spelunk.Theory.HarvestLoop

/-!
# A Harvest Confined to Its Repository

What a harvest of the history sends, and exactly when all of it is of this repository. The
entries are chosen by the text of their path, so a directory whose name only begins with
that of the root passes; the path is the root or below it exactly where the text of the
root ends a name (`below_iff_endsName`).

A path is below another as `Path::starts_with` has it: by names, where `..` is one.

## Main definitions

* `RepoRoot.Below`: A path is the root or below it.
* `RepoRoot.EndsName`: The text of the root ends a name of a path.
* `ClaudeHarvest.Sends`: The condition for a session to be sent.
* `ClaudeHarvest.SentFrom`: What is demanded of a session that is sent.

## Theorems

* `below_iff_endsName`: When a path that begins with the root is below it.
* `mem_newSessions`: Which sessions are sent, and as what.
* `mem_harvestedShas`: The local database reports every reference it has.
* `claudeHistoryLaw`: The harvest of the history.
* `claude_sibling`: Runs that go wrong.
-/

namespace Spelunk

/-! ### Paths below the root -/

/-- The names on the way to a path. -/
def pathNames (path : List Char) : List (List Char) :=
  (path.splitOn '/').filter fun name => name ≠ [] ∧ name ≠ ['.']

theorem pathNames_append_cons (a b : List Char) :
    pathNames (a ++ '/' :: b) = pathNames a ++ pathNames b := by
  unfold pathNames
  rw [List.splitOn_append_cons_self, List.filter_append]

theorem pathNames_name {name : List Char} (h : name ≠ [] ∧ '/' ∉ name ∧ name ≠ ['.']) :
    pathNames name = [name] := by
  unfold pathNames
  rw [List.splitOn_eq_singleton h.2.1, List.filter_cons_of_pos (by simpa using ⟨h.1, h.2.2⟩),
    List.filter_nil]

theorem pathNames_flatMap {names : List (List Char)}
    (h : ∀ name ∈ names, name ≠ [] ∧ '/' ∉ name ∧ name ≠ ['.']) (rest : List Char) :
    pathNames (names.flatMap ('/' :: ·) ++ '/' :: rest) = names ++ pathNames rest := by
  induction names using List.reverseRecOn generalizing rest with
  | nil => exact pathNames_append_cons [] rest
  | append_singleton init last ih =>
    have hinit := fun name hname => h name (List.mem_append_left _ hname)
    have hlast := h last (List.mem_append_right _ (List.mem_singleton_self last))
    have hshape : (init ++ [last]).flatMap ('/' :: ·) ++ '/' :: rest =
        init.flatMap ('/' :: ·) ++ '/' :: (last ++ '/' :: rest) := by
      simp
    rw [hshape, ih hinit, pathNames_append_cons, pathNames_name hlast, List.append_assoc]

/-- A name that is prolonged is another name. -/
theorem exists_longer_name {name : List Char} (hslash : '/' ∉ name) {c : Char} (hc : c ≠ '/')
    (rest : List Char) :
    ∃ more others, (name ++ c :: rest).splitOn '/' = (name ++ c :: more) :: others := by
  induction name with
  | nil =>
    obtain ⟨more, others, h⟩ := List.exists_cons_of_ne_nil (List.splitOn_ne_nil '/' rest)
    refine ⟨more, others, ?_⟩
    rw [List.nil_append, List.splitOn_cons_eq_if_modifyHead, if_neg (by simpa using hc), h]
    rfl
  | cons d name ih =>
    obtain ⟨more, others, h⟩ := ih fun hd => hslash (List.mem_cons_of_mem _ hd)
    refine ⟨more, others, ?_⟩
    have hd : d ≠ '/' := fun heq => hslash (heq ▸ List.mem_cons_self)
    rw [List.cons_append, List.splitOn_cons_eq_if_modifyHead, if_neg (by simpa using hd), h]
    rfl

namespace RepoRoot

variable (root : RepoRoot)

/-- A path is the root or below it. -/
def Below (path : List Char) : Prop := ['/'] <+: path ∧ root.names <+: pathNames path

/-- The text of the root ends a name of a path that begins with it. -/
def EndsName (path : List Char) : Prop :=
  root.names = [] ∨ path.drop root.text.length = [] ∨ ['/'] <+: path.drop root.text.length

variable {root}

/-- When a path that begins with the root is below it. -/
theorem below_iff_endsName {path : List Char} (h : root.text <+: path) :
    root.Below path ↔ root.EndsName path := by
  obtain ⟨rest, rfl⟩ := h
  unfold Below EndsName
  rw [List.drop_left]
  by_cases hnames : root.names = []
  · rw [text, if_pos hnames, hnames]
    exact iff_of_true ⟨⟨rest, rfl⟩, List.nil_prefix⟩ (.inl rfl)
  rw [or_iff_right hnames, text, if_neg hnames]
  have hproper : ∀ name ∈ root.names, name ≠ [] ∧ '/' ∉ name ∧ name ≠ ['.'] :=
    fun name hname => ⟨(root.proper name hname).1, (root.proper name hname).2.1,
      (root.proper name hname).2.2.1⟩
  generalize root.names = names at hnames hproper
  obtain ⟨init, last, rfl⟩ := (List.eq_nil_or_concat' names).resolve_left hnames
  have hinit := fun name hname => hproper name (List.mem_append_left _ hname)
  have hlast := hproper last (List.mem_append_right _ (List.mem_singleton_self last))
  have hshape : (init ++ [last]).flatMap ('/' :: ·) ++ rest =
      init.flatMap ('/' :: ·) ++ '/' :: (last ++ rest) := by
    simp
  have habsolute : ['/'] <+: init.flatMap ('/' :: ·) ++ '/' :: (last ++ rest) := by
    cases init with
    | nil => exact ⟨_, rfl⟩
    | cons name init => exact ⟨_, rfl⟩
  rw [hshape, and_iff_right habsolute, pathNames_flatMap hinit, List.prefix_append_right_inj]
  match rest with
  | [] =>
    rw [List.append_nil, pathNames_name hlast]
    exact iff_of_true List.prefix_rfl (.inl rfl)
  | c :: rest =>
    by_cases hc : c = '/'
    · rw [hc, pathNames_append_cons, pathNames_name hlast]
      exact iff_of_true (List.prefix_append _ _) (.inr ⟨rest, rfl⟩)
    · obtain ⟨more, others, hsplit⟩ := exists_longer_name hlast.2.1 hc rest
      have hlonger : last ++ c :: more ≠ [] ∧ last ++ c :: more ≠ ['.'] := by
        obtain ⟨d, last', rfl⟩ := List.exists_cons_of_ne_nil hlast.1
        simp
      refine iff_of_false (fun hpre => ?_) ?_
      · rw [pathNames, hsplit, List.filter_cons_of_pos (by simpa using hlonger)] at hpre
        have heq := (List.cons_prefix_cons.1 hpre).1
        exact List.cons_ne_nil c more (List.append_right_eq_self.1 heq.symm)
      · rintro (hnil | hpre)
        · exact List.cons_ne_nil c rest hnil
        · exact hc (List.cons_prefix_cons.1 hpre).1.symm

end RepoRoot

/-! ### The sessions that are sent -/

/-- The local database reports every reference it has. -/
theorem mem_harvestedShas {db : MemoryDb} {r : NoteRow} (hr : r ∈ db.notes) {ref : String}
    (href : r.sourceRef = some ref) : ref ∈ db.harvestedShas :=
  List.mem_append_left _ (List.mem_filterMap.2 ⟨r, hr, href⟩)

namespace ClaudeHarvest

section Sent

variable (parseAsOf : String → Option EpochSeconds) (parseLine : List Char → Option HistoryEntry)
  (h : ClaudeHarvest)

/-- The entries of a session. -/
def entriesOf (threshold : ℤ) (id : String) : List HistoryEntry :=
  ((h.entries parseLine).filter (h.keeps threshold)).filter fun e => e.sessionId = id

variable [SecretScan]

/-- The condition for a session to be sent. -/
def Sends (threshold : ℤ) (known : List String) (id : String) : Prop :=
  h.llm = true ∧ h.confirm = true ∧ h.sinceMs parseAsOf = some threshold ∧
    h.knownRefs = some known ∧ h.entriesOf parseLine threshold id ≠ [] ∧
    sessionKey id ∉ known ∧
    containsSecret (combinedText (h.entriesOf parseLine threshold id)) = false ∧
    trim (combinedText (h.entriesOf parseLine threshold id)).toList ≠ []

/-- What is demanded of a session that is sent: it is made of entries of this repository that are
    not too old, its whole text has no secret, and it was not harvested before. -/
def SentFrom (harvested : List String) (threshold : ℤ) (s : ClaudeSession) : Prop :=
  s.combined = capText (combinedText (h.entriesOf parseLine threshold s.sessionId)) ∧
    containsSecret (combinedText (h.entriesOf parseLine threshold s.sessionId)) = false ∧
    sessionKey s.sessionId ∉ harvested ∧
    ∀ e ∈ h.entriesOf parseLine threshold s.sessionId,
      threshold ≤ e.timestamp ∧ h.repoRoot.Below e.project.toList

variable {parseAsOf parseLine h}

omit [SecretScan] in
theorem of_mem_entriesOf {threshold : ℤ} {id : String} {e : HistoryEntry}
    (he : e ∈ h.entriesOf parseLine threshold id) :
    threshold ≤ e.timestamp ∧ h.repoRoot.text <+: e.project.toList := by
  have hkeeps := (List.mem_filter.1 (List.mem_filter.1 he).1).2
  unfold keeps at hkeeps
  simp only [Bool.and_eq_true, Bool.not_eq_true', decide_eq_false_iff_not, not_lt,
    List.isPrefixOf_iff_prefix] at hkeeps
  exact hkeeps

omit [SecretScan] in
theorem mem_sessions {threshold : ℤ} {id : String} {group : List HistoryEntry} :
    (id, group) ∈ h.sessions parseLine threshold ↔
      group = h.entriesOf parseLine threshold id ∧ group ≠ [] := by
  unfold sessions
  rw [Lib.groupBy_eq, List.mem_map]
  constructor
  · rintro ⟨k, hk, heq⟩
    obtain ⟨rfl, rfl⟩ := Prod.mk.inj heq
    obtain ⟨e, he, hid⟩ := (Lib.mem_firstKeys _ _ _).1 hk
    exact ⟨rfl, List.ne_nil_of_mem (List.mem_filter.2 ⟨he, decide_eq_true hid⟩)⟩
  · rintro ⟨rfl, hne⟩
    obtain ⟨e, he⟩ := List.exists_mem_of_ne_nil _ hne
    obtain ⟨he, hid⟩ := List.mem_filter.1 he
    exact ⟨id, (Lib.mem_firstKeys _ _ _).2 ⟨e, he, of_decide_eq_true hid⟩, rfl⟩

/-- Which sessions are sent, and as what. -/
theorem mem_newSessions {order : IterationOrder (String × List HistoryEntry)}
    {s : ClaudeSession} :
    s ∈ h.newSessions parseAsOf parseLine order ↔ ∃ threshold known,
      h.Sends parseAsOf parseLine threshold known s.sessionId ∧
        s.combined = capText (combinedText (h.entriesOf parseLine threshold s.sessionId)) := by
  unfold newSessions Sends
  by_cases hasks : (h.llm && h.confirm) = true
  · rw [if_pos hasks]
    obtain ⟨hllm, hconfirm⟩ := Bool.and_eq_true_iff.1 hasks
    cases hsince : h.sinceMs parseAsOf with
    | none => simp
    | some threshold =>
      cases hknown : h.knownRefs with
      | none => simp
      | some known =>
        simp only [List.mem_filterMap, (order.perm _).mem_iff, Prod.exists, mem_sessions, hllm,
          hconfirm, Option.some.injEq, true_and]
        constructor
        · rintro ⟨id, group, ⟨rfl, hne⟩, hsome⟩
          unfold sessionOf at hsome
          by_cases hkey : sessionKey id ∈ known
          · rw [if_pos hkey] at hsome
            exact nomatch hsome
          rw [if_neg hkey] at hsome
          by_cases hsecret :
              containsSecret (combinedText (h.entriesOf parseLine threshold id)) = true
          · rw [if_pos hsecret] at hsome
            exact nomatch hsome
          rw [if_neg hsecret] at hsome
          by_cases hblank : trim (combinedText (h.entriesOf parseLine threshold id)).toList = []
          · rw [if_pos hblank] at hsome
            exact nomatch hsome
          rw [if_neg hblank] at hsome
          obtain rfl := Option.some.inj hsome
          exact ⟨threshold, known, ⟨rfl, rfl, hne, hkey, Bool.eq_false_iff.2 hsecret, hblank⟩, rfl⟩
        · rintro ⟨threshold, known, ⟨rfl, rfl, hne, hkey, hsecret, hblank⟩, hcombined⟩
          refine ⟨s.sessionId, _, ⟨rfl, hne⟩, ?_⟩
          rw [sessionOf, if_neg hkey, if_neg (by simp [hsecret]), if_neg hblank, ← hcombined]
  · rw [if_neg hasks]
    refine iff_of_false List.not_mem_nil ?_
    rintro ⟨_, _, ⟨hllm, hconfirm, -⟩, -⟩
    exact hasks (by rw [hllm, hconfirm]; rfl)

/-- A session that is sent is as demanded exactly where its entries have the root end a name, and it
    was not harvested before. -/
theorem sentFrom_iff {harvested : List String} {threshold : ℤ} {known : List String}
    {s : ClaudeSession} (hsends : h.Sends parseAsOf parseLine threshold known s.sessionId)
    (hcombined : s.combined =
      capText (combinedText (h.entriesOf parseLine threshold s.sessionId))) :
    h.SentFrom parseLine harvested threshold s ↔
      sessionKey s.sessionId ∉ harvested ∧
        ∀ e ∈ h.entriesOf parseLine threshold s.sessionId,
          h.repoRoot.EndsName e.project.toList := by
  obtain ⟨-, -, -, -, -, -, hsecret, -⟩ := hsends
  unfold SentFrom
  rw [and_iff_right hcombined, and_iff_right hsecret]
  refine and_congr_right fun _ => forall₂_congr fun e he => ?_
  rw [and_iff_right (of_mem_entriesOf he).1,
    RepoRoot.below_iff_endsName (of_mem_entriesOf he).2]

end Sent

end ClaudeHarvest

section Law

variable [SecretScan] (parseAsOf : String → Option EpochSeconds)
  (parseLine : List Char → Option HistoryEntry)
  (order : IterationOrder (String × List HistoryEntry)) (h : ClaudeHarvest)

/-- A run that lives, sends only sessions that are as demanded, and gives every entry the reference
    of a session of its batch. -/
def ClaudeHarvest.Confined (harvested : List String) (run : HarvestRun ClaudeSession) : Prop :=
  run.dead = false ∧
    (∀ a ∈ run.asked, ∀ s ∈ a.batch, ∃ threshold ∈ h.sinceMs parseAsOf,
      h.SentFrom parseLine harvested threshold s) ∧
    ∀ p ∈ run.stored, ∃ s ∈ p.1, p.2.sourceRef = some (sessionKey s.sessionId)

/-- The harvest of the history: every message is made of sessions that are sent; and it is confined
    exactly where the root ends a name in the path of every entry of a session that is sent, none of
    these was harvested before without that the store reports it, and all steps of the loop obey. An
    entry has the reference of a session exactly where it gives its id. -/
theorem claudeHistoryLaw (fromStr : List Char → Option (List ReplyEntry)) (world : HarvestWorld)
    (harvested : List String) :
    let sent := h.newSessions parseAsOf parseLine order
    let run := h.harvestClaudeCode parseAsOf parseLine order fromStr world
    (∀ a ∈ run.asked, claudeTask.userMessage world.contextLength a.batch = some a.message ∧
        ∀ s ∈ a.batch, s ∈ sent) ∧
      (h.Confined parseAsOf parseLine harvested run ↔
        (∀ threshold known id, h.Sends parseAsOf parseLine threshold known id →
          sessionKey id ∉ harvested ∧
            ∀ e ∈ h.entriesOf parseLine threshold id, h.repoRoot.EndsName e.project.toList) ∧
        HarvestObeys fromStr claudeTask world (fun s => sessionKey s.sessionId)
          (sent.toChunks (max h.batchSize 1))) ∧
      ∀ (batch : List ClaudeSession) (e : ReplyEntry),
        (∃ s ∈ batch, claudeTask.source.sourceRef batch e = sessionKey s.sessionId) ↔
          ∃ s ∈ batch, e.key.getD "" = s.sessionId := by
  intro sent run
  have hflatten : (sent.toChunks (max h.batchSize 1)).flatten = sent := Lib.flatten_toChunks _ _
  have hasked : ∀ a ∈ run.asked,
      claudeTask.userMessage world.contextLength a.batch = some a.message ∧
        ∀ s ∈ a.batch, s ∈ sent := by
    intro a ha
    have hmem := asked_of_work _ a ha
    rw [hflatten] at hmem
    exact hmem
  refine ⟨hasked, ?_, ?_⟩
  · rw [← good_harvestBatches_iff]
    constructor
    · rintro ⟨hdead, hsent, hstored⟩
      have hgood : run.Good fun s => sessionKey s.sessionId := ⟨hdead, hstored⟩
      refine ⟨fun threshold known id hsends => ?_, hgood⟩
      have hmem : (⟨id, capText (combinedText (h.entriesOf parseLine threshold id))⟩ :
          ClaudeSession) ∈ sent :=
        ClaudeHarvest.mem_newSessions.2 ⟨threshold, known, hsends, rfl⟩
      have hall := asked_harvestBatches _ hgood
      rw [hflatten] at hall
      rw [← hall, List.mem_flatten] at hmem
      obtain ⟨batch, hbatch, hs⟩ := hmem
      obtain ⟨a, ha, rfl⟩ := List.mem_map.1 hbatch
      obtain ⟨threshold', hthreshold, hfrom⟩ := hsent a ha _ hs
      obtain rfl := Option.some.inj (hsends.2.2.1.symm.trans hthreshold)
      exact (ClaudeHarvest.sentFrom_iff hsends rfl).1 hfrom
    · rintro ⟨hsends, hgood⟩
      refine ⟨hgood.1, fun a ha s hs => ?_, hgood.2⟩
      obtain ⟨threshold, known, hsend, hcombined⟩ :=
        ClaudeHarvest.mem_newSessions.1 ((hasked a ha).2 s hs)
      exact ⟨threshold, hsend.2.2.1,
        (ClaudeHarvest.sentFrom_iff hsend hcombined).2 (hsends threshold known _ hsend)⟩
  · intro batch _
    refine exists_congr fun s => and_congr_right fun _ => ?_
    exact String.append_right_inj "claude-code:"

end Law

/-- A harvest of a history of one line. -/
def oneLineHarvest : ClaudeHarvest where
  llm := true
  confirm := true
  history := some "x"
  repoRoot := ⟨["Users".toList, "test".toList, "myproject".toList], by decide⟩
  since := none
  knownRefs := some []
  batchSize := 5

/-- The entry of a directory beside the root. -/
def siblingEntry : HistoryEntry := ⟨"hello", [], 0, "/Users/test/myproject-extra", "a"⟩

/-- A session of a directory beside the root is sent; a session is sent again that the store does not
    report, as that of a team, which keeps no reference; a context too short for the least output
    ends the program; and an entry gets the reference of a session that is not in the batch. -/
theorem claude_sibling :
    let _ : SecretScan := ⟨fun _ => false⟩
    (∃ a ∈ (oneLineHarvest.harvestClaudeCode (fun _ => none)
        (fun _ => some siblingEntry) ⟨id, .refl⟩ (fun _ => none) (takingWorld 8192)).asked,
      a.batch = [⟨"a", "hello"⟩]) ∧
    oneLineHarvest.entriesOf (fun _ => some siblingEntry) 0 "a" = [siblingEntry] ∧
    ¬ oneLineHarvest.repoRoot.Below siblingEntry.project.toList ∧
    ¬ oneLineHarvest.SentFrom (fun _ => some siblingEntry) ["claude-code:a"] 0 ⟨"a", "hello"⟩ ∧
    (∀ fromStr, (harvestBatches fromStr claudeTask (takingWorld 1023) [[⟨"a", "hello"⟩]]
      .start).dead = true) ∧
    (storeEntry claudeTask (takingWorld 8192) 0 [⟨"a", "hello"⟩] .start
      (⟨some "b", none, none, none, none⟩, 0)).refs = [some "claude-code:b"] := by
  intro _
  have hsent : oneLineHarvest.newSessions (fun _ => none) (fun _ => some siblingEntry)
      ⟨id, .refl⟩ = [⟨"a", "hello"⟩] := by decide +kernel
  have hchunks : (List.toChunks (max oneLineHarvest.batchSize 1)
      [(⟨"a", "hello"⟩ : ClaudeSession)]) = [[⟨"a", "hello"⟩]] := by decide
  refine ⟨?_, by decide, ?_, fun h => h.2.2.1 (by decide), ?_, by decide⟩
  · have halive : ¬ (HarvestRun.start : HarvestRun ClaudeSession).dead = true :=
      Bool.false_ne_true
    have hroom : ¬ (takingWorld 8192).contextLength / 2 < claudeTask.outputLeast := by decide
    rw [ClaudeHarvest.harvestClaudeCode, hsent, hchunks, harvestBatches, if_neg halive]
    obtain ⟨message, hmessage⟩ : ∃ message, claudeTask.userMessage
        (takingWorld 8192).contextLength [⟨"a", "hello"⟩] = some message := ⟨_, rfl⟩
    rw [hmessage]
    dsimp only
    rw [if_neg hroom, dif_neg fun h => absurd h.2 (by decide), harvestBatches]
    exact ⟨_, List.mem_cons_self, rfl⟩
  · rw [RepoRoot.below_iff_endsName (by decide)]
    unfold RepoRoot.EndsName
    decide
  · exact fun _ => harvestBatches_dead (by decide) (List.cons_ne_nil _ _) _

end Spelunk
