import Spelunk.Core.HarvestRun

/-!
# Commit Log Records

The records of `git log` are separated by a text that a body may have in it too. A body
with a line that ends in three dashes is cut there: what follows has too few parts and is
left out. All other commits are read as they are.

## Main definitions

* `GitCommit.read`: A commit as it should be read.
* `GitCommit.kept`: What is read of a body.

## Theorems

* `parseCommitLog_logText`: What is read.
* `commitLogLaw`: When the log is read as it is.
* `commitLog_dashes`: A body with a line of three dashes.
-/

namespace Spelunk

open Lib (splitText splitTextFrom)

/-- A commit as it should be read. -/
def GitCommit.read (c : GitCommit) : LogCommit :=
  ⟨String.ofList c.sha, String.ofList (trim c.subject), String.ofList (trim c.body)⟩

/-- What is read of a body: what stands before the first line that ends in three dashes. -/
def GitCommit.kept (c : GitCommit) : List Char := (splitText recordEnd c.body).headD []

/-- The commits of some pieces. -/
def readPieces (pieces : List (List Char)) : List LogCommit :=
  (pieces.filter fun s => trim s ≠ []).filterMap parseCommit

theorem readPieces_append (a b : List (List Char)) :
    readPieces (a ++ b) = readPieces a ++ readPieces b := by
  unfold readPieces
  rw [List.filter_append, List.filterMap_append]

theorem recordEnd_ne_nil : recordEnd ≠ [] := by decide

theorem nul_notMem_recordEnd : nul ∉ recordEnd := by decide

/-! ### Pieces -/

theorem splitNul4_take {entry : List Char} {a b c : List Char} {rest : List (List Char)}
    (h : entry.splitOn nul = a :: b :: c :: rest) :
    ∃ rest', splitNul4 entry = a :: b :: c :: rest' := by
  unfold splitNul4
  simp only [h]
  split
  · exact ⟨rest, rfl⟩
  · exact ⟨_, rfl⟩

/-- A piece that is no record. -/
theorem parseCommit_short {entry : List Char} (h : (entry.splitOn nul).length ≤ 2) :
    parseCommit entry = none := by
  have hparts : splitNul4 entry = entry.splitOn nul := if_pos (h.trans (by decide))
  unfold parseCommit
  rw [hparts]
  match entry.splitOn nul, h with
  | [], _ => rfl
  | [_], _ => rfl
  | [_, _], _ => rfl

theorem parseCommit_nulFree {s : List Char} (h : nul ∉ s) : parseCommit s = none := by
  refine parseCommit_short ?_
  rw [List.splitOn_eq_singleton h]
  exact Nat.le_succ 1

theorem parseCommit_nulEnd {s : List Char} (h : nul ∉ s) : parseCommit (s ++ [nul]) = none := by
  refine parseCommit_short ?_
  rw [List.splitOn_append_cons_self, List.splitOn_eq_singleton h]
  exact Nat.le_refl 2

theorem readPieces_nulFree {pieces : List (List Char)} (h : ∀ s ∈ pieces, nul ∉ s) :
    readPieces pieces = [] :=
  List.filterMap_eq_nil_iff.2 fun s hs => parseCommit_nulFree (h s (List.mem_filter.1 hs).1)

/-- The start of a record, up to its body. -/
def GitCommit.start (c : GitCommit) : List Char := c.sha ++ nul :: (c.subject ++ [nul])

namespace GitCommit

variable (c : GitCommit)

theorem newline_notMem_sha : '\n' ∉ c.sha := fun h => absurd (c.hex_sha _ h) (by decide)

theorem isWhiteSpace_hex {x : Char} (h : x ∈ "0123456789abcdef".toList) :
    isWhiteSpace x = false := by
  revert x
  simp [isWhiteSpace]

theorem nul_notMem_sha : nul ∉ c.sha := fun h => absurd (c.hex_sha _ h) (by decide)

theorem trim_sha : trim c.sha = c.sha := by
  have hclean : ∀ x ∈ c.sha, isWhiteSpace x = false := by
    intro x hx
    exact isWhiteSpace_hex (c.hex_sha x hx)
  unfold trim
  rw [List.dropWhile_eq_self_iff.2, List.rdropWhile_eq_self_iff.2]
  · intro hne
    simp [hclean _ (List.getLast_mem hne)]
  · intro hlength
    simp [hclean _ (List.getElem_mem hlength)]

/-- A record that is cut behind some of its body. -/
theorem readPieces_start {b tail : List Char} (hb : nul ∉ b) (htail : tail = [] ∨ tail = [nul]) :
    readPieces [c.start ++ b ++ tail] =
      [⟨String.ofList c.sha, String.ofList (trim c.subject), String.ofList (trim b)⟩] := by
  have hparts : ∃ rest, (c.start ++ b ++ tail).splitOn nul = c.sha :: c.subject :: b :: rest := by
    have hstart : c.start ++ b ++ tail = c.sha ++ nul :: (c.subject ++ nul :: (b ++ tail)) := by
      simp [start]
    rw [hstart, List.splitOn_append_cons_self, List.splitOn_eq_singleton c.nul_notMem_sha,
      List.splitOn_append_cons_self, List.splitOn_eq_singleton c.nul_subject]
    rcases htail with rfl | rfl
    · exact ⟨[], by rw [List.append_nil, List.splitOn_eq_singleton hb]; rfl⟩
    · exact ⟨[[]], by rw [List.splitOn_append_cons_self, List.splitOn_eq_singleton hb]; rfl⟩
  obtain ⟨rest, hrest⟩ := hparts
  obtain ⟨rest', hrest'⟩ := splitNul4_take hrest
  have hblank : trim (c.start ++ b ++ tail) ≠ [] := by
    intro hnil
    have hpos : 0 < c.sha.length := by rw [c.length_sha]; decide
    have hmem := List.getElem_mem hpos
    have hwhite := trim_eq_nil_iff.1 hnil c.sha[0] (by simp [start])
    rw [isWhiteSpace_hex (c.hex_sha _ hmem)] at hwhite
    exact absurd hwhite (by decide)
  have hcommit : parseCommit (c.start ++ b ++ tail) =
      some ⟨String.ofList c.sha, String.ofList (trim c.subject), String.ofList (trim b)⟩ := by
    unfold parseCommit
    rw [hrest']
    simp only [c.trim_sha]
  unfold readPieces
  rw [List.filter_cons_of_pos (by simpa using hblank), List.filter_nil, List.filterMap_cons,
    hcommit]
  rfl

/-- The pieces of a record. -/
theorem splitText_record (rest : List Char) : ∃ init last,
    splitTextFrom recordEnd 0 c.start c.body = init ++ [last] ∧
      splitText recordEnd (c.record ++ rest) =
        init ++ (last ++ [nul]) :: splitText recordEnd rest := by
  have hsplit : ∀ {a : List Char}, '\n' ∉ a → ¬ recordEnd <:+: a := fun ha hin =>
    ha (hin.subset (by decide))
  obtain ⟨init, last, hbody, hrest⟩ := Lib.splitTextFrom_append_cons recordEnd_ne_nil
    nul_notMem_recordEnd c.body (recordEnd ++ rest) c.start
  refine ⟨init, last, hbody, ?_⟩
  rw [Lib.splitTextFrom_sep recordEnd_ne_nil] at hrest
  rw [← hrest]
  have hrecord : c.record ++ rest =
      c.sha ++ nul :: (c.subject ++ nul :: (c.body ++ nul :: (recordEnd ++ rest))) := by
    simp [record]
  have hstart : c.start = [] ++ c.sha ++ [nul] ++ c.subject ++ [nul] := by simp [start]
  rw [hrecord, hstart]
  unfold splitText
  rw [Lib.splitTextFrom_line recordEnd_ne_nil nul_notMem_recordEnd
      (hsplit c.newline_notMem_sha),
    Lib.splitTextFrom_line recordEnd_ne_nil nul_notMem_recordEnd (hsplit c.newline_subject)]

/-- A record is read as one commit. -/
theorem parse_record (rest : List Char) :
    readPieces (splitText recordEnd (c.record ++ rest)) =
      ⟨String.ofList c.sha, String.ofList (trim c.subject), String.ofList (trim c.kept)⟩ ::
        readPieces (splitText recordEnd rest) := by
  obtain ⟨init, last, hbody, hpieces⟩ := c.splitText_record rest
  rw [hpieces, List.append_cons, readPieces_append]
  rw [Lib.splitTextFrom_eq recordEnd_ne_nil] at hbody
  have hnul : ∀ s ∈ splitText recordEnd c.body, nul ∉ s := fun s hs hmem =>
    c.nul_body (Lib.mem_of_mem_splitText hs hmem)
  refine congrArg (· ++ readPieces (splitText recordEnd rest)) (?_ :
    readPieces (init ++ [last ++ [nul]]) = [_])
  unfold kept
  cases hsplit : splitText recordEnd c.body with
  | nil => exact absurd hsplit (Lib.splitText_ne_nil recordEnd_ne_nil _)
  | cons first others =>
    rw [hsplit] at hbody hnul
    rw [List.modifyHead_cons] at hbody
    have hfirst := hnul first List.mem_cons_self
    rcases List.eq_nil_or_concat others with rfl | ⟨middle, final, rfl⟩
    · -- The body has no such line: the record is one piece.
      rw [← List.nil_append [c.start ++ first]] at hbody
      obtain ⟨rfl, hlast⟩ := List.append_inj' hbody.symm rfl
      obtain rfl := List.singleton_inj.1 hlast
      exact c.readPieces_start hfirst (.inr rfl)
    · -- The first piece ends with the body's first part; the others are no records.
      have hparts : init = (c.start ++ first) :: middle ∧ last = final := by
        have hconcat : init ++ [last] = ((c.start ++ first) :: middle) ++ [final] := by
          rw [← hbody, List.concat_eq_append]
          rfl
        obtain ⟨hinit, hlast⟩ := List.append_inj' hconcat rfl
        exact ⟨hinit, List.singleton_inj.1 hlast⟩
      obtain ⟨rfl, rfl⟩ := hparts
      have hlast : nul ∉ last := hnul last (by simp)
      have hmiddle : ∀ s ∈ middle, nul ∉ s := fun s hs => hnul s (by simp [hs])
      have hend : readPieces [last ++ [nul]] = [] := by
        refine List.filterMap_eq_nil_iff.2 fun s hs => ?_
        obtain rfl := List.mem_singleton.1 (List.mem_filter.1 hs).1
        exact parseCommit_nulEnd hlast
      have hhead := c.readPieces_start hfirst (.inl rfl)
      rw [List.append_nil] at hhead
      rw [readPieces_append, hend, List.append_nil, ← List.singleton_append, readPieces_append,
        readPieces_nulFree hmiddle, List.append_nil, hhead]
      rfl

end GitCommit

/-- What is read of a log: every commit, with its body up to the first line that ends in three
    dashes. -/
theorem parseCommitLog_logText (commits : List GitCommit) :
    parseCommitLog (logText commits) = commits.map fun c =>
      ⟨String.ofList c.sha, String.ofList (trim c.subject), String.ofList (trim c.kept)⟩ := by
  show readPieces (splitText recordEnd (logText commits)) = _
  induction commits with
  | nil => rfl
  | cons c commits ih =>
    unfold logText at ih ⊢
    rw [List.flatMap_cons, c.parse_record, ih, List.map_cons]

/-! ### Bodies -/

/-- A character that is no white space is not trimmed. -/
theorem count_trim {c : Char} (hc : isWhiteSpace c = false) (s : List Char) :
    (trim s).count c = s.count c := by
  have hnone : ∀ l : List Char, (∀ x ∈ l, isWhiteSpace x = true) → l.count c = 0 := by
    intro l hl
    refine List.count_eq_zero.2 fun hmem => ?_
    rw [hl c hmem] at hc
    exact absurd hc (by decide)
  have hfront : (s.dropWhile isWhiteSpace).count c = s.count c := by
    conv_rhs => rw [← List.takeWhile_append_dropWhile (p := isWhiteSpace) (l := s)]
    rw [List.count_append, hnone _ fun x hx => List.mem_takeWhile_imp hx, Nat.zero_add]
  rw [← hfront]
  unfold trim List.rdropWhile
  rw [List.count_reverse]
  conv_rhs => rw [← List.count_reverse, ← List.takeWhile_append_dropWhile (p := isWhiteSpace)
    (l := (s.dropWhile isWhiteSpace).reverse)]
  rw [List.count_append, hnone _ fun x hx => List.mem_takeWhile_imp hx, Nat.zero_add]

namespace GitCommit

variable (c : GitCommit)

/-- The whole body is read if and only if no line of it ends in three dashes. -/
theorem trim_kept_iff : trim c.kept = trim c.body ↔ ¬ recordEnd <:+: c.body := by
  constructor
  · intro heq hin
    obtain ⟨first, second, rest, t, hsplit, hbody⟩ :=
      Lib.exists_head_splitText recordEnd_ne_nil hin
    have hkept : c.kept = first := by
      unfold kept
      rw [hsplit]
      rfl
    have hcount := congrArg (List.count '-') heq
    rw [count_trim (by decide), count_trim (by decide), hkept, hbody, List.count_append,
      List.count_append] at hcount
    have hdashes : recordEnd.count '-' = 3 := by decide
    omega
  · intro hnot
    unfold kept
    rw [Lib.splitText_of_not_infix recordEnd_ne_nil hnot]
    rfl

end GitCommit

/-! ### The law -/

/-- The log is read as it is if and only if no line of a body ends in three dashes, the last line
    apart. -/
theorem commitLogLaw (commits : List GitCommit) :
    parseCommitLog (logText commits) = commits.map GitCommit.read ↔
      ∀ c ∈ commits, ¬ recordEnd <:+: c.body := by
  rw [parseCommitLog_logText, List.map_inj_left]
  refine forall₂_congr fun c _ => ?_
  rw [← c.trim_kept_iff]
  unfold GitCommit.read
  rw [LogCommit.mk.injEq]
  exact ⟨fun h => String.ofList_injective h.2.2, fun h => ⟨rfl, rfl, congrArg _ h⟩⟩

/-- A commit with a rule of three dashes between two paragraphs. -/
def ruledCommit : GitCommit where
  sha := List.replicate 40 'a'
  subject := "Add a cache".toList
  body := "Why\n---\nIt was slow\n".toList
  length_sha := by decide
  hex_sha := fun c hc => List.eq_of_mem_replicate hc ▸ by decide
  newline_subject := by decide
  nul_subject := by decide
  nul_body := by decide

/-- The second paragraph is lost. -/
theorem commitLog_dashes : ¬ ∀ commits : List GitCommit,
    parseCommitLog (logText commits) = commits.map GitCommit.read := by
  intro hall
  have hread := hall [ruledCommit]
  rw [parseCommitLog_logText, List.map_singleton, List.map_singleton] at hread
  have hbody := congrArg (fun l => l.map LogCommit.body) hread
  revert hbody
  decide

end Spelunk
