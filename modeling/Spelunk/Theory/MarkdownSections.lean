import Spelunk.Core.Markdown
import Spelunk.Theory.LineText

/-!
# The Sections of a Document

The sections of a document are cut before its heading lines and nowhere else, and no line
that is not blank is lost. Two things go wrong. A heading is looked for line by line, so a
line of a fenced code block that looks like one begins a section. And the lines of a
section that is cut again are read again from its text, where a line that ends in a
carriage return loses it.

## Main definitions

* `AtxLine`: What a heading line is.
* `SectionsCover`: What sections are of the first lines of a document.
* `Fenced`: The lines inside the fenced code blocks.
* `IsSection`: The ranges between heading lines.
* `LineAt`: The loop invariant.

## Theorems

* `sectionsCover_markdownSections`: The sections are a partition.
* `mem_markdownSections_iff`: They are the ranges between heading lines.
* `markdownLaw`: When fenced lines begin no section and every chunk has the text of its
  lines.
* `markdown_fencedHeading`: A comment of a shell script that begins a section.
-/

namespace Spelunk

/-! ### The partition -/

/-- A heading line: one to six hashes, and nothing or a space and what follows it. -/
def AtxLine (line heading : String) : Prop :=
  ∃ hashes rest, 1 ≤ hashes ∧ hashes ≤ 6 ∧
    line.toList = List.replicate hashes '#' ++ rest ∧ (rest = [] ∨ rest.head? = some ' ') ∧
    heading = String.ofList (trim rest)

theorem atxHeading_eq_some_iff {line heading : String} :
    atxHeading line = some heading ↔ AtxLine line heading := by
  have hsplit := List.takeWhile_append_dropWhile (p := (· = '#')) (l := line.toList)
  have hhashes : line.toList.takeWhile (· = '#') =
      List.replicate (line.toList.takeWhile (· = '#')).length '#' := by
    refine List.eq_replicate_iff.2 ⟨rfl, fun c hc => ?_⟩
    simpa using List.mem_takeWhile_imp hc
  have hcount : line.toList.length - (line.toList.dropWhile (· = '#')).length =
      (line.toList.takeWhile (· = '#')).length := by
    have := congrArg List.length hsplit
    rw [List.length_append] at this
    omega
  unfold atxHeading
  dsimp only
  rw [hcount]
  constructor
  · intro h
    split at h
    · cases h
    split at h
    · cases h
    next hrange hrest =>
      cases h
      refine ⟨_, _, by omega, by omega, hhashes ▸ hsplit.symm, ?_, rfl⟩
      by_contra hnot
      exact hrest ⟨fun he => hnot (Or.inl he), fun he => hnot (Or.inr he)⟩
  · rintro ⟨hashes, rest, h1, h6, hline, hrest, rfl⟩
    have hdrop : line.toList.dropWhile (· = '#') = rest := by
      rw [hline, List.dropWhile_append_of_pos (by simp)]
      rcases rest with _ | ⟨c, cs⟩
      · rfl
      · have hc : c = ' ' := by simpa using hrest
        rw [hc]
        rfl
    have htake : (line.toList.takeWhile (· = '#')).length = hashes := by
      rw [← hcount, hdrop, hline, List.length_append, List.length_replicate]
      omega
    rw [htake, hdrop, if_neg (by omega), if_neg]
    rintro ⟨hne, hhead⟩
    exact hrest.elim hne hhead

/-- Sections of the first lines of a document. -/
structure SectionsCover (ls : List String) (n : ℕ) (sections : List MarkdownSection) : Prop where
  /-- They are ranges of lines, one behind the other. -/
  range : ∀ s ∈ sections, s.start < s.stop ∧ s.stop ≤ n
  consecutive : sections.IsChain fun s t => s.stop = t.start
  first : ∀ s, sections.head? = some s → s.start = 0
  last : ∀ s, sections.getLast? = some s → s.stop = n
  all : sections = [] → n = 0
  /-- A section has the title of the heading it begins with; the first may have none. -/
  title : ∀ s ∈ sections, (∃ line, ls[s.start]? = some line ∧ s.title = atxHeading line) ∧
    (s.title = none → s.start = 0)
  /-- No other line of it is a heading. -/
  inside : ∀ s ∈ sections, ∀ i line, s.start < i → i < s.stop → ls[i]? = some line →
    atxHeading line = none

namespace SectionsCover

variable {ls : List String} {n : ℕ} {sections : List MarkdownSection}

/-- A section that begins with the next line. -/
theorem begin (h : SectionsCover ls n sections) {line heading : String}
    (hline : ls[n]? = some line) (hheading : atxHeading line = some heading) :
    SectionsCover ls (n + 1)
      (sections ++ [{ start := n, title := some heading, stop := n + 1 }]) where
  range := by
    intro s hs
    rcases List.mem_append.1 hs with hs | hs
    · have := h.range s hs
      omega
    · rw [List.mem_singleton.1 hs]
      exact ⟨Nat.lt_succ_self n, le_rfl⟩
  consecutive := by
    refine List.isChain_append.2 ⟨h.consecutive, List.IsChain.singleton _, ?_⟩
    intro s hs t ht
    cases ht
    exact h.last s hs
  first := by
    intro s hs
    rcases sections with _ | ⟨t, ts⟩
    · cases hs
      exact h.all rfl
    · exact h.first s hs
  last := by
    intro s hs
    rw [List.getLast?_append, List.getLast?_singleton] at hs
    cases hs
    rfl
  all := fun hnil => absurd hnil (by simp)
  title := by
    intro s hs
    rcases List.mem_append.1 hs with hs | hs
    · exact h.title s hs
    · rw [List.mem_singleton.1 hs]
      exact ⟨⟨line, hline, hheading.symm⟩, fun hnone => by cases hnone⟩
  inside := by
    intro s hs i text hstart hstop
    rcases List.mem_append.1 hs with hs | hs
    · exact h.inside s hs i text hstart hstop
    · rw [List.mem_singleton.1 hs] at hstart hstop
      dsimp only at hstart hstop
      omega

/-- One more line of the last section. -/
theorem extend {start : ℕ} {title : Option String}
    (h : SectionsCover ls n (sections ++ [{ start, title, stop := n }])) {line : String}
    (hline : ls[n]? = some line) (hheading : atxHeading line = none) :
    SectionsCover ls (n + 1) (sections ++ [{ start, title, stop := n + 1 }]) where
  range := by
    intro s hs
    rcases List.mem_append.1 hs with hs | hs
    · have := h.range s (List.mem_append_left _ hs)
      omega
    · have := h.range _ (List.mem_append_right sections (List.mem_singleton.2 rfl))
      rw [List.mem_singleton.1 hs]
      dsimp only at this ⊢
      omega
  consecutive := by
    obtain ⟨hchain, -, hlast⟩ := List.isChain_append.1 h.consecutive
    refine List.isChain_append.2 ⟨hchain, List.IsChain.singleton _, ?_⟩
    intro s hs t ht
    cases ht
    exact hlast s hs { start, title, stop := n } rfl
  first := by
    intro s hs
    rcases sections with _ | ⟨t, ts⟩
    · cases hs
      exact h.first { start, title, stop := n } rfl
    · exact h.first s hs
  last := by
    intro s hs
    rw [List.getLast?_append, List.getLast?_singleton] at hs
    cases hs
    rfl
  all := fun hnil => absurd hnil (by simp)
  title := by
    intro s hs
    rcases List.mem_append.1 hs with hs | hs
    · exact h.title s (List.mem_append_left _ hs)
    · have := h.title _ (List.mem_append_right sections (List.mem_singleton.2 rfl))
      rw [List.mem_singleton.1 hs]
      exact this
  inside := by
    intro s hs i text hstart hstop htext
    rcases List.mem_append.1 hs with hs | hs
    · exact h.inside s (List.mem_append_left _ hs) i text hstart hstop htext
    · have hold := h.inside _ (List.mem_append_right sections (List.mem_singleton.2 rfl)) i text
      rw [List.mem_singleton.1 hs] at hstart hstop
      dsimp only at hstart hstop hold
      rcases Nat.lt_succ_iff_lt_or_eq.1 hstop with hlt | rfl
      · exact hold hstart hlt htext
      · rw [hline] at htext
        cases htext
        exact hheading

end SectionsCover

/-- The loop in front of a line. -/
structure LineAt (ls : List String) (n : ℕ) (s : MarkdownState) : Prop where
  /-- In front of the first heading there are the lines of the preamble. -/
  before : s.openSection = none →
    s.flushed = [] ∧ s.preamble = List.range n ∧
      ∀ i line, i < n → ls[i]? = some line → atxHeading line = none
  /-- Behind it a section is open. -/
  behind : ∀ start title, s.openSection = some (start, title) →
    s.preamble = [] ∧ SectionsCover ls n (s.flushed ++ [{ start, title := some title, stop := n }])

namespace LineAt

variable {ls : List String} {n : ℕ} {s : MarkdownState}

/-- What a flush leaves. -/
theorem flush (h : LineAt ls n s) (hn : n ≤ ls.length) :
    SectionsCover ls n (s.flush n).flushed ∧ (s.flush n).preamble = [] := by
  unfold MarkdownState.flush
  rcases hopen : s.openSection with _ | ⟨start, title⟩
  · obtain ⟨hflushed, hpreamble, hnone⟩ := h.before hopen
    rcases n with _ | n
    · rw [hpreamble]
      refine ⟨?_, hpreamble⟩
      dsimp only [List.range_zero]
      rw [hflushed]
      exact ⟨by simp, List.IsChain.nil, by simp, by simp, fun _ => rfl, by simp, by simp⟩
    · rw [hpreamble, List.range_succ_eq_map]
      dsimp only
      rw [hflushed, List.nil_append]
      have hline := List.getElem?_eq_getElem (l := ls) (i := 0) (by omega)
      refine ⟨⟨?_, List.IsChain.singleton _, ?_, ?_, by simp, ?_, ?_⟩, rfl⟩
      · simp
      · rintro t ⟨⟩
        rfl
      · rintro t ⟨⟩
        rfl
      · intro t ht
        rw [List.mem_singleton.1 ht]
        exact ⟨⟨_, hline, (hnone 0 _ (Nat.succ_pos n) hline).symm⟩, fun _ => rfl⟩
      · intro t ht i line _ hstop hi
        rw [List.mem_singleton.1 ht] at hstop
        exact hnone i line hstop hi
  · obtain ⟨hpreamble, hcover⟩ := h.behind start title hopen
    exact ⟨hcover, hpreamble⟩

/-- One line. -/
theorem line (h : LineAt ls n s) {text : String} (htext : ls[n]? = some text) :
    LineAt ls (n + 1) (s.line n text) := by
  have hn := (List.getElem?_eq_some_iff.1 htext).1
  unfold MarkdownState.line
  rcases hheading : atxHeading text with _ | heading
  · dsimp only
    rcases hopen : s.openSection with _ | ⟨start, title⟩
    · rw [if_pos rfl]
      obtain ⟨hflushed, hpreamble, hnone⟩ := h.before hopen
      refine ⟨fun _ => ⟨hflushed, ?_, ?_⟩, fun start title hsome => ?_⟩
      · rw [List.range_succ, ← hpreamble]
      · intro i line hi hline
        rcases Nat.lt_succ_iff_lt_or_eq.1 hi with hlt | rfl
        · exact hnone i line hlt hline
        · rw [htext] at hline
          cases hline
          exact hheading
      · cases hsome
    · rw [if_neg (by simp)]
      obtain ⟨hpreamble, hcover⟩ := h.behind start title hopen
      refine ⟨fun hnone => absurd (hopen.symm.trans hnone) (by simp), ?_⟩
      intro start' title' hsome
      rw [hopen] at hsome
      cases hsome
      exact ⟨hpreamble, hcover.extend htext hheading⟩
  · obtain ⟨hcover, hpreamble⟩ := h.flush hn.le
    refine ⟨fun hnone => by simp at hnone, ?_⟩
    rintro start title ⟨⟩
    exact ⟨hpreamble, hcover.begin htext hheading⟩

/-- All lines. -/
theorem lines {rest : List String} (h : LineAt ls n s) (hrest : ls.drop n = rest) :
    LineAt ls (n + rest.length) (s.lines n rest) := by
  induction rest generalizing n s with
  | nil => exact h
  | cons text rest ih =>
    have htext : ls[n]? = some text := by
      rw [← List.head?_drop, hrest]
      rfl
    have hdrop : ls.drop (n + 1) = rest := by
      rw [← List.drop_drop, hrest]
      rfl
    have := ih (h.line htext) hdrop
    rw [List.length_cons, Nat.add_comm rest.length 1, ← Nat.add_assoc]
    exact this

end LineAt

/-- The sections are a partition of the lines. -/
theorem sectionsCover_markdownSections (ls : List String) :
    SectionsCover ls ls.length (markdownSections ls) := by
  have hinitial : LineAt ls 0 MarkdownState.initial :=
    ⟨fun _ => ⟨rfl, rfl, fun i _ hi => absurd hi (Nat.not_lt_zero i)⟩, fun _ _ h => by cases h⟩
  have hall := hinitial.lines (List.drop_zero (l := ls))
  rw [Nat.zero_add] at hall
  exact (hall.flush le_rfl).1

/-! ### The ranges between headings -/

/-- A heading line. -/
def HeadingAt (ls : List String) (i : ℕ) : Prop :=
  ∃ line heading, ls[i]? = some line ∧ atxHeading line = some heading

/-- A range of lines that begins with a heading line or with the first line and goes up to
    the next heading line or to the end. -/
structure IsSection (ls : List String) (start stop : ℕ) : Prop where
  lt : start < stop
  le : stop ≤ ls.length
  begins : 0 < start → HeadingAt ls start
  ends : stop < ls.length → HeadingAt ls stop
  inside : ∀ i, start < i → i < stop → ¬HeadingAt ls i

namespace SectionsCover

variable {ls : List String} {n : ℕ} {sections : List MarkdownSection}

theorem next (h : SectionsCover ls n sections) {s : MarkdownSection} (hs : s ∈ sections)
    (hstop : s.stop < n) : ∃ t ∈ sections, t.start = s.stop := by
  obtain ⟨front, back, rfl⟩ := List.append_of_mem hs
  rcases back with _ | ⟨t, back⟩
  · exact absurd (h.last s (by simp)) hstop.ne
  · have hchain := (List.isChain_append.1 h.consecutive).2.1
    exact ⟨t, by simp, ((List.isChain_cons_cons.1 hchain).1).symm⟩

/-- Every line is in a section. -/
theorem exists_section (h : SectionsCover ls n sections) {i : ℕ} (hi : i < n) :
    ∃ s ∈ sections, s.start ≤ i ∧ i < s.stop := by
  induction i with
  | zero =>
    rcases sections with _ | ⟨s, rest⟩
    · exact absurd (h.all rfl) hi.ne'
    · have := h.range s List.mem_cons_self
      have hstart := h.first s rfl
      exact ⟨s, List.mem_cons_self, by omega, by omega⟩
  | succ i ih =>
    obtain ⟨s, hs, hstart, hstop⟩ := ih (by omega)
    by_cases hlt : i + 1 < s.stop
    · exact ⟨s, hs, by omega, hlt⟩
    · obtain ⟨t, ht, hbegin⟩ := h.next hs (by omega)
      have := h.range t ht
      exact ⟨t, ht, by omega, by omega⟩

/-- A section that does not begin with the first line begins with a heading. -/
theorem heading_of_pos (h : SectionsCover ls n sections) {s : MarkdownSection}
    (hs : s ∈ sections) (hpos : 0 < s.start) : HeadingAt ls s.start := by
  obtain ⟨⟨line, hline, htitle⟩, hnone⟩ := h.title s hs
  rcases hs' : s.title with _ | heading
  · exact absurd (hnone hs') hpos.ne'
  · exact ⟨line, heading, hline, htitle.symm.trans hs'⟩

theorem not_headingAt (h : SectionsCover ls n sections) {s : MarkdownSection}
    (hs : s ∈ sections) {i : ℕ} (hstart : s.start < i) (hstop : i < s.stop) :
    ¬HeadingAt ls i := by
  rintro ⟨line, heading, hline, hheading⟩
  rw [h.inside s hs i line hstart hstop hline] at hheading
  cases hheading

end SectionsCover

/-- The sections are the ranges between heading lines. -/
theorem mem_markdownSections_iff {ls : List String} {start stop : ℕ} :
    (∃ s ∈ markdownSections ls, s.start = start ∧ s.stop = stop) ↔ IsSection ls start stop := by
  have hcover := sectionsCover_markdownSections ls
  constructor
  · rintro ⟨s, hs, rfl, rfl⟩
    obtain ⟨hlt, hle⟩ := hcover.range s hs
    refine ⟨hlt, hle, hcover.heading_of_pos hs, fun hstop => ?_, fun i => hcover.not_headingAt hs⟩
    obtain ⟨t, ht, hbegin⟩ := hcover.next hs hstop
    rw [← hbegin]
    exact hcover.heading_of_pos ht (by omega)
  · intro h
    have hlt := h.lt
    have hle := h.le
    obtain ⟨s, hs, hstart, hstop⟩ := hcover.exists_section (i := start) (by omega)
    have hbegin : s.start = start := by
      by_contra hne
      exact hcover.not_headingAt hs (by omega) hstop (h.begins (by omega))
    refine ⟨s, hs, hbegin, ?_⟩
    have hrange := hcover.range s hs
    rcases Nat.lt_trichotomy s.stop stop with hshort | heq | hlong
    · obtain ⟨t, ht, ht'⟩ := hcover.next hs (by omega)
      refine absurd ?_ (h.inside s.stop (by omega) hshort)
      rw [← ht']
      exact hcover.heading_of_pos ht (by omega)
    · exact heq
    · exact absurd (h.ends (by omega)) (hcover.not_headingAt hs (by omega) hlong)

/-! ### Fenced code blocks -/

/-- A line without its first spaces, three at most. -/
def withoutIndent : ℕ → List Char → List Char
  | 0, cs => cs
  | _ + 1, [] => []
  | k + 1, c :: cs => if c = ' ' then withoutIndent k cs else c :: cs

/-- The fence a line begins with: three or more backticks or tildes, how many, and what
    follows them. -/
def fenceOf (line : String) : Option (Char × ℕ × List Char) :=
  match withoutIndent 3 line.toList with
  | [] => none
  | c :: cs =>
    let count := ((c :: cs).takeWhile (· = c)).length
    if (c = '\x60' ∨ c = '~') ∧ 3 ≤ count then some (c, count, (c :: cs).dropWhile (· = c))
    else none

/-- The open fence behind a line, from that in front of it. A block ends with a fence of its
    kind that is as long and has only white space behind it, and what follows an opening
    fence of backticks has none. -/
def fenceStep (fence : Option (Char × ℕ)) (line : String) : Option (Char × ℕ) :=
  match fence, fenceOf line with
  | none, some (c, count, info) =>
    if c = '\x60' ∧ '\x60' ∈ info then none else some (c, count)
  | some (c, count), some (c', count', info) =>
    if c' = c ∧ count ≤ count' ∧ info.all isWhiteSpace then none else some (c, count)
  | fence, none => fence

/-- A line inside a fenced code block. -/
def Fenced (ls : List String) (i : ℕ) : Prop :=
  ∃ line fence, ls[i]? = some line ∧ (ls.take i).foldl fenceStep none = some fence ∧
    fenceStep (some fence) line = some fence

theorem Fenced.pos {ls : List String} {i : ℕ} (h : Fenced ls i) : 0 < i := by
  obtain ⟨line, fence, -, hfence, -⟩ := h
  rcases i with _ | i
  · rw [List.take_zero] at hfence
    cases hfence
  · exact Nat.succ_pos i

/-! ### The chunks -/

/-- The lines of a range, as a list. -/
theorem mem_range_iff {ls : List String} {start stop : ℕ} {line : String} :
    line ∈ (ls.drop start).take (stop - start) ↔
      ∃ i, start ≤ i ∧ i < stop ∧ ls[i]? = some line := by
  rw [List.mem_iff_getElem?]
  constructor
  · rintro ⟨j, hj⟩
    rw [List.getElem?_take] at hj
    split at hj
    · exact ⟨start + j, by omega, by omega, by rwa [List.getElem?_drop] at hj⟩
    · cases hj
  · rintro ⟨i, hstart, hstop, hline⟩
    refine ⟨i - start, ?_⟩
    rw [List.getElem?_take, if_pos (by omega), List.getElem?_drop, Nat.add_sub_cancel' hstart,
      hline]

/-- A range with a line that is not blank has a text that is not blank. -/
theorem trim_joinLines_ne_nil {ls : List String} (hls : ∀ line ∈ ls, '\n' ∉ line.toList)
    {start stop i : ℕ} (hstart : start ≤ i) (hstop : i < stop) {line : String}
    (hline : ls[i]? = some line) (hne : trim line.toList ≠ []) :
    trim (joinLines ls start stop).toList ≠ [] := by
  have hmem := mem_range_iff.2 ⟨i, hstart, hstop, hline⟩
  intro hblank
  refine hne (trim_eq_nil_iff.2 fun c hc => trim_eq_nil_iff.1 hblank c ?_)
  have hsplit := splitOn_intercalate
    (fun l hl => hls l (List.mem_of_mem_drop (List.mem_of_mem_take hl))) (List.ne_nil_of_mem hmem)
  have hpart : line.toList ∈ (joinLines ls start stop).toList.splitOn '\n' := by
    rw [joinLines, hsplit]
    exact List.mem_map_of_mem hmem
  exact Lib.mem_of_mem_splitOn hpart hc

section Chunks

variable {cap : ℕ} {filePath : String} {ls : List String} {s : MarkdownSection}

/-- Every line of a section that is not blank is in one of its chunks. -/
theorem exists_chunk_of_section (cap : ℕ) (filePath : String) 
    (hls : ∀ line ∈ ls, '\n' ∉ line.toList) {i : ℕ} (hstart : s.start ≤ i) (hstop : i < s.stop) {line : String}
    (hline : ls[i]? = some line) (hne : trim line.toList ≠ []) :
    ∃ c ∈ s.chunks cap filePath ls, c.startLine ≤ i + 1 ∧ i + 1 ≤ c.endLine := by
  have hmem := mem_range_iff.2 ⟨i, hstart, hstop, hline⟩
  unfold MarkdownSection.chunks
  rw [if_neg (trim_joinLines_ne_nil hls hstart hstop hline hne)]
  split
  · have hpart : ∀ l ∈ (ls.drop s.start).take (s.stop - s.start), '\n' ∉ l.toList :=
      fun l hl => hls l (List.mem_of_mem_drop (List.mem_of_mem_take hl))
    have hsome := List.ne_nil_of_mem hmem
    obtain ⟨-, hge, hlast⟩ := length_lines_intercalate hpart hsome
    have hcover := slidingWindow_covers cap (joinLines ls s.start s.stop) filePath "markdown"
      s.title none none
    have hget : ((ls.drop s.start).take (s.stop - s.start))[i - s.start]? = some line := by
      rw [List.getElem?_take, if_pos (by omega), List.getElem?_drop, Nat.add_sub_cancel' hstart,
        hline]
    have hin := (List.getElem?_eq_some_iff.1 hget).1
    have hread : i - s.start < (lines (joinLines ls s.start s.stop)).length := by
      by_contra hnot
      unfold joinLines at hnot
      have hempty := hlast (by omega)
      have hend : i - s.start = ((ls.drop s.start).take (s.stop - s.start)).length - 1 := by omega
      rw [hend, ← List.getLast?_eq_getElem?, List.getLast?_eq_some_getLast hsome, hempty] at hget
      cases hget
      exact hne rfl
    obtain ⟨c, hc, hfrom, hto⟩ := hcover.exists_window (k := i - s.start + 1) (by omega) hread
    refine ⟨_, List.mem_map_of_mem hc, ?_, ?_⟩
    · dsimp only
      omega
    · dsimp only
      omega
  · refine ⟨_, List.mem_singleton.2 rfl, ?_, ?_⟩
    · dsimp only
      omega
    · dsimp only
      omega

/-- The chunks of a section are in it and have its title. -/
theorem range_of_mem_chunks (hls : ∀ line ∈ ls, '\n' ∉ line.toList) (hlt : s.start < s.stop)
    (hle : s.stop ≤ ls.length) {c : Chunk} (hc : c ∈ s.chunks cap filePath ls) :
    c.name = s.title ∧ s.start + 1 ≤ c.startLine ∧ c.endLine ≤ s.stop := by
  unfold MarkdownSection.chunks at hc
  by_cases hblank : trim (joinLines ls s.start s.stop).toList = []
  · rw [if_pos hblank] at hc
    exact absurd hc List.not_mem_nil
  rw [if_neg hblank] at hc
  by_cases hover : s.Oversized cap ls
  · rw [if_pos hover] at hc
    obtain ⟨sub, hsub, rfl⟩ := List.mem_map.1 hc
    have hlen : ((ls.drop s.start).take (s.stop - s.start)).length = s.stop - s.start := by
      rw [List.length_take, List.length_drop]
      omega
    have hpart : ∀ l ∈ (ls.drop s.start).take (s.stop - s.start), '\n' ∉ l.toList :=
      fun l hl => hls l (List.mem_of_mem_drop (List.mem_of_mem_take hl))
    have hread := (length_lines_intercalate hpart (List.ne_nil_of_length_pos (by omega))).1
    obtain ⟨hone, -, hrange⟩ := (slidingWindow_covers cap (joinLines ls s.start s.stop) filePath
      "markdown" s.title none none).range sub hsub
    unfold joinLines at hrange
    obtain ⟨w, -, rfl⟩ := List.mem_map.1 hsub
    dsimp only at hone hrange ⊢
    exact ⟨rfl, by omega, by omega⟩
  · rw [if_neg hover] at hc
    rw [List.mem_singleton.1 hc]
    exact ⟨rfl, le_rfl, le_rfl⟩

/-- The chunks of a section have the text of its lines exactly if it is not cut again, or
no line of it but the last ends in a carriage return. -/
theorem section_content_iff (hls : ∀ line ∈ ls, '\n' ∉ line.toList) (hlt : s.start < s.stop)
    (hle : s.stop ≤ ls.length) :
    (∀ c ∈ s.chunks cap filePath ls, c.content = joinLines ls (c.startLine - 1) c.endLine) ↔
      (trim (joinLines ls s.start s.stop).toList ≠ [] → s.Oversized cap ls →
        ∀ i line, s.start ≤ i → i + 1 < s.stop → ls[i]? = some line → ¬EndsInReturn line) := by
  unfold MarkdownSection.chunks
  by_cases hblank : trim (joinLines ls s.start s.stop).toList = []
  · rw [if_pos hblank]
    exact iff_of_true (fun c hc => absurd hc List.not_mem_nil) fun h => absurd hblank h
  rw [if_neg hblank]
  by_cases hover : s.Oversized cap ls
  · rw [if_pos hover]
    have hpart : ∀ l ∈ (ls.drop s.start).take (s.stop - s.start), '\n' ∉ l.toList :=
      fun l hl => hls l (List.mem_of_mem_drop (List.mem_of_mem_take hl))
    have hlen : ((ls.drop s.start).take (s.stop - s.start)).length = s.stop - s.start := by
      rw [List.length_take, List.length_drop]
      omega
    have hsome : (ls.drop s.start).take (s.stop - s.start) ≠ [] :=
      List.ne_nil_of_length_pos (by omega)
    have hread := (length_lines_intercalate hpart hsome).1
    have hcover := slidingWindow_covers cap (joinLines ls s.start s.stop) filePath "markdown"
      s.title none none
    have hcontent : ∀ c ∈ slidingWindow cap (joinLines ls s.start s.stop) filePath "markdown"
        s.title none none, joinLines ls (c.startLine + s.start - 1) (c.endLine + s.start) =
          joinLines ((ls.drop s.start).take (s.stop - s.start)) (c.startLine - 1) c.endLine := by
      intro c hc
      obtain ⟨hone, -, hrange⟩ := hcover.range c hc
      unfold joinLines at hrange
      rw [joinLines_part (by omega)]
      congr 1 <;> omega
    have hiff := windows_content_iff hpart hsome hcover
    refine Iff.trans ?_ (hiff.trans ?_)
    · constructor
      · intro h c hc
        rw [← hcontent c hc]
        exact h _ (List.mem_map_of_mem hc)
      · intro h c hc
        obtain ⟨sub, hsub, rfl⟩ := List.mem_map.1 hc
        exact (h sub hsub).trans (hcontent sub hsub).symm
    · rw [hlen]
      constructor
      · intro h _ _ i line hstart hstop hline
        refine h (i - s.start) line ?_ (by omega)
        rw [List.getElem?_take, if_pos (by omega), List.getElem?_drop, Nat.add_sub_cancel' hstart,
          hline]
      · intro h j line hline hj
        rw [List.getElem?_take, if_pos (by omega), List.getElem?_drop] at hline
        exact h hblank hover (s.start + j) line (by omega) (by omega) hline
  · rw [if_neg hover]
    refine iff_of_true (fun c hc => ?_) fun _ h => absurd h hover
    rw [List.mem_singleton.1 hc]
    rfl

end Chunks

/-- The chunks of a document have the text of their lines exactly if those of its sections
have. -/
theorem content_parseMarkdown_iff (cap : ℕ) (source filePath : String) :
    (∀ c ∈ parseMarkdown cap source filePath,
        c.content = joinLines (lines source) (c.startLine - 1) c.endLine) ↔
      ∀ s ∈ markdownSections (lines source), ∀ c ∈ s.chunks cap filePath (lines source),
        c.content = joinLines (lines source) (c.startLine - 1) c.endLine := by
  unfold parseMarkdown
  dsimp only
  by_cases h : (markdownSections (lines source)).flatMap
      (MarkdownSection.chunks cap filePath (lines source)) = []
  · rw [if_pos h]
    refine iff_of_true (slidingWindow_covers cap source filePath "markdown" none none none).content
      fun s hs c hc => ?_
    exact absurd (h ▸ List.mem_flatMap.2 ⟨s, hs, hc⟩) List.not_mem_nil
  · rw [if_neg h]
    constructor
    · exact fun hall s hs c hc => hall c (List.mem_flatMap.2 ⟨s, hs, hc⟩)
    · intro hall c hc
      obtain ⟨s, hs, hc⟩ := List.mem_flatMap.1 hc
      exact hall s hs c hc

/-- The sections of every document are a partition of its lines, and no line that is not
blank is lost. Its fenced lines begin no section and its chunks have the text of their
lines exactly if no fenced line is a heading line and no range that is cut again has a line
before its last that ends in a carriage return. -/
theorem markdownLaw (cap : ℕ) (source filePath : String) :
    SectionsCover (lines source) (lines source).length (markdownSections (lines source)) ∧
      (∀ line heading, atxHeading line = some heading ↔ AtxLine line heading) ∧
      (∀ s ∈ markdownSections (lines source), ∀ c ∈ s.chunks cap filePath (lines source),
        c.name = s.title ∧ s.start + 1 ≤ c.startLine ∧ c.endLine ≤ s.stop) ∧
      (∀ i line, (lines source)[i]? = some line → trim line.toList ≠ [] →
        ∃ c ∈ parseMarkdown cap source filePath, c.startLine ≤ i + 1 ∧ i + 1 ≤ c.endLine) ∧
      ((∀ i, Fenced (lines source) i → ∀ s ∈ markdownSections (lines source), s.start ≠ i) ∧
          (∀ c ∈ parseMarkdown cap source filePath,
            c.content = joinLines (lines source) (c.startLine - 1) c.endLine) ↔
        (∀ i, Fenced (lines source) i → ¬HeadingAt (lines source) i) ∧
          ∀ start stop, IsSection (lines source) start stop →
            trim (joinLines (lines source) start stop).toList ≠ [] →
              cap < estimateTokens (joinLines (lines source) start stop) →
                ∀ i line, start ≤ i → i + 1 < stop → (lines source)[i]? = some line →
                  ¬EndsInReturn line) := by
  have hls : ∀ line ∈ lines source, '\n' ∉ line.toList :=
    fun line hline => newline_notMem_of_mem_lines hline
  have hcover := sectionsCover_markdownSections (lines source)
  refine ⟨hcover, fun line heading => atxHeading_eq_some_iff, ?_, ?_, ?_⟩
  · intro s hs c hc
    obtain ⟨hlt, hle⟩ := hcover.range s hs
    exact range_of_mem_chunks hls hlt hle hc
  · intro i line hline hne
    obtain ⟨s, hs, hstart, hstop⟩ :=
      hcover.exists_section (List.getElem?_eq_some_iff.1 hline).1
    obtain ⟨c, hc, hrange⟩ := exists_chunk_of_section cap filePath hls hstart hstop hline hne
    have hmem := List.mem_flatMap.2 ⟨s, hs, hc⟩
    refine ⟨c, ?_, hrange⟩
    unfold parseMarkdown
    rw [if_neg (List.ne_nil_of_mem hmem)]
    exact hmem
  · refine and_congr ?_ ?_
    · refine forall_congr' fun i => imp_congr_right fun hfenced => ?_
      constructor
      · intro h hheading
        obtain ⟨s, hs, hstart, hstop⟩ := hcover.exists_section (i := i) (by
          obtain ⟨line, -, hline, -⟩ := hheading
          exact (List.getElem?_eq_some_iff.1 hline).1)
        by_cases heq : s.start = i
        · exact h s hs heq
        · exact hcover.not_headingAt hs (by omega) hstop hheading
      · rintro h s hs rfl
        exact h (hcover.heading_of_pos hs hfenced.pos)
    · rw [content_parseMarkdown_iff]
      constructor
      · intro h start stop hsection hne hover
        obtain ⟨s, hs, rfl, rfl⟩ := mem_markdownSections_iff.2 hsection
        obtain ⟨hlt, hle⟩ := hcover.range s hs
        exact (section_content_iff hls hlt hle).1 (h s hs) hne hover
      · intro h s hs
        obtain ⟨hlt, hle⟩ := hcover.range s hs
        exact (section_content_iff hls hlt hle).2
          fun hne hover => h _ _ (mem_markdownSections_iff.1 ⟨s, hs, rfl, rfl⟩) hne hover

/-- A comment of a script in a fenced block begins a section. -/
theorem markdown_fencedHeading :
    Fenced (lines "# Use\n\x60\x60\x60sh\n# build\nmake\n\x60\x60\x60\n") 2 ∧
      markdownSections (lines "# Use\n\x60\x60\x60sh\n# build\nmake\n\x60\x60\x60\n") =
        [⟨0, some "Use", 2⟩, ⟨2, some "build", 5⟩] :=
  ⟨⟨"# build", ('\x60', 3), by decide, by decide, by decide⟩, by decide⟩

end Spelunk
