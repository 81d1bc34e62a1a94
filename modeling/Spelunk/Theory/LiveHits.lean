import Mathlib.Algebra.GroupWithZero.Nat
import Mathlib.Data.List.TakeWhile
import Spelunk.Core.LiveSearch
import Spelunk.Theory.LineText

/-!
# Live Search Hits

The search takes the first hits of the walk, up to the limit: of each file whose text has the
query in it, the leaves that have it, or the lines if no leaf has. A text that goes over the
end of a line can be in the file and in none of these, and then the file is left out.

## Main definitions

* `LiveFile.Holds`: A file whose text has the query in it.
* `LiveFile.Visible`: A leaf or a line of it has.
* `LiveFile.hits`: What it contributes where there is no limit.
* `LiveMatch.LiesIn`: A match is where it says.

## Theorems

* `searchLiveSubstring_eq`: The first hits of all files.
* `visible_of_oneLine`: A query of one line is always visible.
* `liveLaw`: What the search finds, and when it drops nothing.
* `live_lineBreak`: A query over the end of a line.
-/

namespace Spelunk

/-- A query that is looked for as a plain string. -/
structure PlainQuery where
  text : String
  ne_empty : text ≠ ""
  plain : '$' ∉ text.toList

/-- The files of a tree, each under its path. -/
structure LiveTree where
  files : List LiveFile
  distinct : (files.map LiveFile.path).Nodup

section Hits

variable (lower : Char → List Char)

/-- A file whose text has the needle in it. -/
def LiveFile.Holds (f : LiveFile) (needle : List Char) : Prop :=
  ∃ source, f.source = some source ∧ needle <:+: toLowercase lower source.toList

/-- A leaf or a line of the file has the needle in it. -/
def LiveFile.Visible (f : LiveFile) (needle : List Char) : Prop :=
  ∃ source, f.source = some source ∧
    ((∃ node ∈ f.namedLeaves.getD [],
        needle <:+: toLowercase lower (node.text source.toList)) ∨
      ∃ line ∈ lines source, needle <:+: toLowercase lower line.toList)

/-- In how many places the needle is seen in a file that has it: in leaves, or in lines if it
    is in no leaf. -/
def LiveFile.visibleCount (f : LiveFile) (needle : List Char) : ℕ :=
  match f.source with
  | none => 0
  | some source =>
    if containsLower lower source.toList needle then
      let leaves := (f.namedLeaves.getD []).countP fun node =>
        containsLower lower (node.text source.toList) needle
      if leaves = 0 then
        (lines source).countP fun line => containsLower lower line.toList needle
      else leaves
    else 0

/-- What a file contributes where there is no limit. -/
def LiveFile.hits (f : LiveFile) (needle : List Char) : List LiveMatch :=
  match f.source with
  | none => []
  | some source =>
    if containsLower lower source.toList needle then
      let nodes := f.nodeMatches lower source.toList needle
      if nodes = [] then f.lineMatches lower source.toList needle else nodes
    else []

/-- The match's text is at the lines of the file that the match names. -/
def LiveMatch.LiesIn (m : LiveMatch) (src : List Char) : Prop :=
  ∃ before after, src = before ++ m.text ++ after ∧
    m.startLine = before.count '\n' + 1 ∧ m.endLine = (before ++ m.text).count '\n' + 1

/-- The map of characters does not touch line ends, makes none and drops nothing. -/
structure KeepsLineEnds (lower : Char → List Char) : Prop where
  newline : ∀ c, '\n' ∈ lower c ↔ c = '\n'
  carriageReturn : ∀ c, '\r' ∈ lower c ↔ c = '\r'
  newline_eq : lower '\n' = ['\n']
  carriageReturn_eq : lower '\r' = ['\r']
  ne_nil : ∀ c, lower c ≠ []

variable {lower}

theorem pushMatches_eq {limit : ℕ} {out : List LiveMatch} (h : out.length ≤ limit)
    (found : List LiveMatch) : pushMatches limit out found = (out ++ found).take limit := by
  induction found generalizing out with
  | nil =>
    rw [List.append_nil, List.take_of_length_le h]
    rfl
  | cons m found ih =>
    unfold pushMatches
    split
    · next hfull =>
      rw [List.take_append_of_le_length hfull, List.take_of_length_le h]
    · next hroom =>
      rw [ih (by rw [List.length_append, List.length_singleton]; omega), List.append_assoc]
      rfl

theorem searchLiveFile_eq {needle : List Char} {limit : ℕ} {out : List LiveMatch}
    (h : out.length < limit) (f : LiveFile) :
    searchLiveFile lower needle limit out f = (out ++ f.hits lower needle).take limit := by
  have hout : out.take limit = out := List.take_of_length_le h.le
  unfold searchLiveFile LiveFile.hits
  cases f.source with
  | none => simp [hout]
  | some source =>
    simp only
    by_cases hin : containsLower lower source.toList needle = true
    · rw [if_pos hin, if_pos hin, pushMatches_eq h.le]
      by_cases hnodes : f.nodeMatches lower source.toList needle = []
      · rw [if_pos hnodes, hnodes, List.append_nil, hout, if_pos rfl, pushMatches_eq h.le]
      · have hpos := List.length_pos_iff.2 hnodes
        rw [if_neg hnodes, if_neg]
        rw [List.length_take, List.length_append]
        omega
    · rw [if_neg hin, if_neg hin, List.append_nil, hout]

/-- The first hits of all files. -/
theorem searchLiveSubstring_eq (query : String) (files : List LiveFile) (limit : ℕ) :
    searchLiveSubstring lower query files limit =
      (files.flatMap fun f => f.hits lower (toLowercase lower query.toList)).take limit := by
  have hfold : ∀ (files : List LiveFile) (out : List LiveMatch), out.length ≤ limit →
      files.foldl (fun out f => if limit ≤ out.length then out
        else searchLiveFile lower (toLowercase lower query.toList) limit out f) out =
        (out ++ files.flatMap fun f => f.hits lower (toLowercase lower query.toList)).take
          limit := by
    intro files
    induction files with
    | nil =>
      intro out hout
      rw [List.flatMap_nil, List.append_nil, List.take_of_length_le hout]
      rfl
    | cons f files ih =>
      intro out hout
      rw [List.foldl_cons, List.flatMap_cons]
      by_cases hfull : limit ≤ out.length
      · rw [if_pos hfull, ih out hout, List.take_append_of_le_length hfull,
          List.take_append_of_le_length hfull]
      · rw [if_neg hfull, searchLiveFile_eq (by omega), ih _ (List.length_take_le _ _),
          ← List.append_assoc]
        -- What is cut off of the file's hits is behind the limit anyway.
        generalize out ++ f.hits lower (toLowercase lower query.toList) = l
        rcases Nat.le_total l.length limit with hle | hge
        · rw [List.take_of_length_le hle]
        · rw [List.take_append_of_le_length hge, List.take_append_of_le_length
            (by rw [List.length_take]; omega), List.take_take, Nat.min_self]
  exact hfold files [] (Nat.zero_le _)

theorem searchLiveQuery_eq
    {searchLiveMatches : String → List LiveFile → ℕ → List LiveMatch} (query : PlainQuery)
    (files : List LiveFile) (limit : ℕ) :
    searchLiveQuery lower searchLiveMatches query.text files limit =
      (files.flatMap fun f => f.hits lower (toLowercase lower query.text.toList)).take limit := by
  unfold searchLiveQuery
  rw [if_neg query.plain, searchLiveSubstring_eq]
  by_cases hlimit : limit = 0
  · rw [if_pos (.inr hlimit), hlimit, List.take_zero]
  · rw [if_neg (not_or.2 ⟨query.ne_empty, hlimit⟩)]

theorem hits_ne_nil_iff {f : LiveFile} {needle : List Char} :
    f.hits lower needle ≠ [] ↔ f.Holds lower needle ∧ f.Visible lower needle := by
  unfold LiveFile.hits LiveFile.Holds LiveFile.Visible
  cases f.source with
  | none => simp
  | some source =>
    have hnodes : f.nodeMatches lower source.toList needle = [] ↔
        ¬ ∃ node ∈ f.namedLeaves.getD [],
          needle <:+: toLowercase lower (node.text source.toList) := by
      unfold LiveFile.nodeMatches containsLower
      rw [List.map_eq_nil_iff, List.filter_eq_nil_iff]
      simp
    have hlines : f.lineMatches lower source.toList needle = [] ↔
        ¬ ∃ line ∈ lines source, needle <:+: toLowercase lower line.toList := by
      unfold LiveFile.lineMatches containsLower
      rw [List.map_eq_nil_iff, List.filter_eq_nil_iff, String.ofList_toList]
      constructor
      · rintro h ⟨line, hline, hin⟩
        obtain ⟨i, hi⟩ := List.getElem?_of_mem hline
        exact h (line, i) (List.mk_mem_zipIdx_iff_getElem?.2 hi) (decide_eq_true hin)
      · intro h p hp hin
        exact h ⟨p.1, List.fst_mem_of_mem_zipIdx hp, of_decide_eq_true hin⟩
    have hcontains : containsLower lower source.toList needle = true ↔
        needle <:+: toLowercase lower source.toList := decide_eq_true_iff
    simp only [Option.some.injEq, exists_eq_left', hcontains]
    by_cases hin : needle <:+: toLowercase lower source.toList
    · rw [if_pos hin]
      by_cases hnil : f.nodeMatches lower source.toList needle = []
      · rw [if_pos hnil, ne_eq, hlines, not_not]
        have hno := hnodes.1 hnil
        exact ⟨fun h => ⟨hin, .inr h⟩, fun h => h.2.resolve_left hno⟩
      · rw [if_neg hnil]
        have hyes := not_not.1 (mt hnodes.2 hnil)
        exact iff_of_true hnil ⟨hin, .inl hyes⟩
    · rw [if_neg hin]
      simp [hin]

theorem length_hits (f : LiveFile) (needle : List Char) :
    (f.hits lower needle).length = f.visibleCount lower needle := by
  unfold LiveFile.hits LiveFile.visibleCount
  cases f.source with
  | none => rfl
  | some source =>
    have hleaves : (f.nodeMatches lower source.toList needle).length =
        (f.namedLeaves.getD []).countP fun node =>
          containsLower lower (node.text source.toList) needle := by
      rw [LiveFile.nodeMatches, List.length_map, List.countP_eq_length_filter]
    have hlines : (f.lineMatches lower source.toList needle).length =
        (lines source).countP fun line => containsLower lower line.toList needle := by
      rw [LiveFile.lineMatches, List.length_map, ← List.countP_eq_length_filter,
        String.ofList_toList]
      conv_rhs => rw [← List.zipIdx_map_fst 0 (lines source), List.countP_map]
      rfl
    dsimp only
    split
    · rw [← hleaves, ← hlines]
      by_cases hnil : f.nodeMatches lower source.toList needle = []
      · rw [if_pos hnil, if_pos (List.length_eq_zero_iff.2 hnil)]
      · rw [if_neg hnil, if_neg (mt List.length_eq_zero_iff.1 hnil)]
    · rfl

/-- A hit has the needle in it and is where it says. -/
theorem of_mem_hits {f : LiveFile} {needle : List Char} {m : LiveMatch}
    (h : m ∈ f.hits lower needle) :
    f.path = m.filePath ∧ needle <:+: toLowercase lower m.text ∧
      ∃ source, f.source = some source ∧ m.LiesIn source.toList := by
  unfold LiveFile.hits at h
  cases hsource : f.source with
  | none =>
    rw [hsource] at h
    exact absurd h List.not_mem_nil
  | some source =>
    rw [hsource] at h
    dsimp only at h
    have hnode : m ∈ f.nodeMatches lower source.toList needle →
        f.path = m.filePath ∧ needle <:+: toLowercase lower m.text ∧
          ∃ source', some source = some source' ∧ m.LiesIn source'.toList := by
      intro hm
      obtain ⟨node, hnode, rfl⟩ := List.mem_map.1 hm
      refine ⟨rfl, of_decide_eq_true (List.mem_filter.1 hnode).2, source, rfl,
        source.toList.take node.start, source.toList.drop (node.start + node.length), ?_, rfl, ?_⟩
      · rw [LeafNode.text, ← List.take_add, List.take_append_drop]
      · rw [LeafNode.text, ← List.take_add]
        exact rfl
    have hline : m ∈ f.lineMatches lower source.toList needle →
        f.path = m.filePath ∧ needle <:+: toLowercase lower m.text ∧
          ∃ source', some source = some source' ∧ m.LiesIn source'.toList := by
      intro hm
      obtain ⟨⟨line, i⟩, hp, rfl⟩ := List.mem_map.1 hm
      obtain ⟨hmem, hin⟩ := List.mem_filter.1 hp
      rw [String.ofList_toList] at hmem
      have hi := List.mk_mem_zipIdx_iff_getElem?.1 hmem
      obtain ⟨before, after, heq, hcount⟩ := place_of_lines hi
      have hnone := newline_notMem_of_mem_lines (List.mem_of_getElem? hi)
      refine ⟨rfl, of_decide_eq_true hin, source, rfl, before, after, heq, ?_, ?_⟩
      · exact congrArg (· + 1) hcount.symm
      · simp [List.count_append, hcount, List.count_eq_zero_of_not_mem hnone]
    split at h
    · split at h
      · exact hline h
      · exact hnode h
    · exact absurd h List.not_mem_nil

theorem toLowercase_intercalate (hlower : KeepsLineEnds lower) (parts : List (List Char)) :
    toLowercase lower (['\n'].intercalate parts) =
      ['\n'].intercalate (parts.map (toLowercase lower)) := by
  induction parts with
  | nil => rfl
  | cons p parts ih =>
    cases parts with
    | nil => simp
    | cons q parts =>
      rw [List.intercalate_cons_cons, List.map_cons, List.map_cons, List.intercalate_cons_cons,
        ← List.map_cons, ← ih]
      simp only [toLowercase, List.flatMap_append, List.flatMap_singleton, hlower.newline_eq]

/-- A query of one line is always visible where the file has it. -/
theorem visible_of_oneLine (hlower : KeepsLineEnds lower) {query : List Char}
    (hne : query ≠ []) (hnewline : '\n' ∉ query) (hreturn : '\r' ∉ query) {f : LiveFile}
    (h : f.Holds lower (toLowercase lower query)) :
    f.Visible lower (toLowercase lower query) := by
  obtain ⟨source, hsource, hin⟩ := h
  refine ⟨source, hsource, .inr ?_⟩
  have hneedle : toLowercase lower query ≠ [] := by
    obtain ⟨c, query, rfl⟩ := List.exists_cons_of_ne_nil hne
    rw [toLowercase, List.flatMap_cons]
    exact mt List.append_eq_nil_iff.1 fun h => hlower.ne_nil c h.1
  have hno : '\n' ∉ toLowercase lower query := by
    intro hmem
    obtain ⟨c, hc, hlow⟩ := List.mem_flatMap.1 hmem
    exact hnewline ((hlower.newline c).1 hlow ▸ hc)
  have hno' : '\r' ∉ toLowercase lower query := by
    intro hmem
    obtain ⟨c, hc, hlow⟩ := List.mem_flatMap.1 hmem
    exact hreturn ((hlower.carriageReturn c).1 hlow ▸ hc)
  -- The needle is in the lowered form of a part between newlines.
  have hsplit : source.toList = ['\n'].intercalate (source.toList.splitOn '\n') :=
    (List.intercalate_splitOn '\n').symm
  rw [hsplit, toLowercase_intercalate hlower] at hin
  obtain ⟨low, hlow, hpart⟩ := Lib.exists_infix_of_intercalate hno hneedle hin
  obtain ⟨part, hmem, rfl⟩ := List.mem_map.1 hlow
  obtain ⟨line, hline, hcases⟩ := exists_line_of_part hmem (fun hnil => by
    rw [hnil] at hpart
    exact hneedle (List.infix_nil.1 hpart))
  refine ⟨line, hline, ?_⟩
  rcases hcases with rfl | rfl
  · exact hpart
  · rw [toLowercase.eq_1 lower (_ ++ _), List.flatMap_append, List.flatMap_singleton,
      hlower.carriageReturn_eq] at hpart
    rcases Lib.infix_of_append_cons hno' hpart with hpart | hpart
    · exact hpart
    · exact absurd (List.infix_nil.1 hpart) hneedle

/-- What the search finds, and when it drops nothing. -/
theorem liveLaw (lower : Char → List Char)
    (searchLiveMatches : String → List LiveFile → ℕ → List LiveMatch) (query : PlainQuery)
    (tree : LiveTree) (limit : ℕ) :
    let needle := toLowercase lower query.text.toList
    let found := searchLiveQuery lower searchLiveMatches query.text tree.files limit
    found.length ≤ limit ∧
    (∀ m ∈ found, needle <:+: toLowercase lower m.text ∧
      ∃ f ∈ tree.files, f.path = m.filePath ∧
        ∃ source, f.source = some source ∧ m.LiesIn source.toList) ∧
    ((∀ f ∈ tree.files, f.Holds lower needle →
        (∃ m ∈ found, m.filePath = f.path) ∨ found.length = limit) ↔
      limit ≤ (tree.files.map fun f => f.visibleCount lower needle).sum ∨
        ∀ f ∈ tree.files, f.Holds lower needle → f.Visible lower needle) ∧
    (KeepsLineEnds lower → '\n' ∉ query.text.toList → '\r' ∉ query.text.toList →
      ∀ f ∈ tree.files, f.Holds lower needle → f.Visible lower needle) := by
  intro needle found
  have hfound : found = (tree.files.flatMap fun f => f.hits lower needle).take limit :=
    searchLiveQuery_eq query tree.files limit
  have hlength : (tree.files.flatMap fun f => f.hits lower needle).length =
      (tree.files.map fun f => f.visibleCount lower needle).sum := by
    rw [List.length_flatMap]
    simp only [length_hits]
  refine ⟨?_, ?_, ?_, ?_⟩
  · rw [hfound]
    exact List.length_take_le _ _
  · intro m hm
    rw [hfound] at hm
    obtain ⟨f, hf, hmf⟩ := List.mem_flatMap.1 (List.mem_of_mem_take hm)
    obtain ⟨hpath, hin, hplace⟩ := of_mem_hits hmf
    exact ⟨hin, f, hf, hpath, hplace⟩
  · rw [← hlength]
    by_cases hfull : limit ≤ (tree.files.flatMap fun f => f.hits lower needle).length
    · refine iff_of_true (fun f _ _ => .inr ?_) (.inl hfull)
      rw [hfound, List.length_take, Nat.min_eq_left hfull]
    · have hall : found = tree.files.flatMap fun f => f.hits lower needle := by
        rw [hfound, List.take_of_length_le (by omega)]
      rw [or_iff_right hfull]
      refine forall₂_congr fun f hf => forall_congr' fun hholds => ?_
      rw [or_iff_left (by rw [hall]; omega)]
      constructor
      · rintro ⟨m, hm, hpath⟩
        rw [hall] at hm
        obtain ⟨g, hg, hmg⟩ := List.mem_flatMap.1 hm
        have hgf : g = f :=
          List.inj_on_of_nodup_map tree.distinct hg hf ((of_mem_hits hmg).1.trans hpath)
        exact (hits_ne_nil_iff.1 (List.ne_nil_of_mem (hgf ▸ hmg))).2
      · intro hvisible
        obtain ⟨m, hm⟩ := List.exists_mem_of_ne_nil _ (hits_ne_nil_iff.2 ⟨hholds, hvisible⟩)
        refine ⟨m, ?_, (of_mem_hits hm).1.symm⟩
        rw [hall]
        exact List.mem_flatMap.2 ⟨f, hf, hm⟩
  · intro hlower hnewline hreturn f _ hholds
    exact visible_of_oneLine hlower
      (fun h => query.ne_empty (String.toList_eq_nil_iff.1 h)) hnewline hreturn hholds

/-- A query over the end of a line: the file has it, and no line of it does. -/
theorem live_lineBreak :
    let lower := fun c : Char => [c.toLower]
    let f : LiveFile := ⟨"notes.txt", some "ab\ncd", none, none⟩
    f.Holds lower (toLowercase lower "b\nc".toList) ∧
      searchLiveQuery lower (fun _ _ _ => []) "b\nc" [f] 10 = [] := by
  intro lower f
  exact ⟨⟨"ab\ncd", rfl, by decide⟩, by decide⟩

end Hits

end Spelunk
