import Spelunk.Theory.SlidingWindow

/-!
# Lines of a Text of Lines

A text that is joined from lines and cut into lines again. The lines come back but for two
things: an empty last line starts no line, and a carriage return that ends a line is taken
for a part of the line end in front of the next one.

## Main definitions

* `EndsInReturn`: A line that ends in a carriage return.

## Theorems

* `intercalate_inj`: A joined text has the lines it was joined from.
* `place_of_lines`: The lines of a text are where their number says.
* `lines_intercalate`, `getElem?_lines_intercalate`: The lines of a joined text.
* `WindowsCover.exists_window`: Every line is in a window.
-/

namespace Spelunk

/-- A line that ends in a carriage return. -/
def EndsInReturn (line : String) : Prop := line.toList.getLast? = some '\r'

/-- A line as it is read in front of a line end. -/
def beforeLineEnd (line : String) : String := String.ofList (stripCarriageReturn line.toList)

theorem beforeLineEnd_eq_iff {line : String} : beforeLineEnd line = line ↔ ¬EndsInReturn line := by
  unfold beforeLineEnd EndsInReturn stripCarriageReturn
  split
  · next h =>
    refine iff_of_false (fun he => ?_) (not_not.2 h)
    have hlist := congrArg (fun s : String => s.toList.length) he
    have hpos : line.toList ≠ [] := fun hnil => by simp [hnil] at h
    have := List.length_pos_iff.2 hpos
    simp only [String.toList_ofList, List.length_dropLast] at hlist
    omega
  · next h => exact iff_of_true (String.ofList_toList ..) h

/-- The lines of a text have no newline in them. -/
theorem newline_notMem_of_mem_lines {s line : String} (h : line ∈ lines s) :
    '\n' ∉ line.toList := by
  obtain ⟨part, hpart, rfl⟩ := List.mem_map.1 h
  rw [String.toList_ofList]
  rcases List.mem_append.1 hpart with hpart | hpart
  · obtain ⟨raw, hraw, rfl⟩ := List.mem_map.1 hpart
    have hnot := Lib.notMem_of_mem_splitOn (List.dropLast_subset _ hraw)
    unfold stripCarriageReturn
    split
    · exact fun hmem => hnot (List.dropLast_subset _ hmem)
    · exact hnot
  · cases hlast : (s.toList.splitOn '\n').getLast? with
    | none => simp [hlast] at hpart
    | some last =>
      rw [hlast] at hpart
      have hmem := List.mem_of_getLast? hlast
      cases last with
      | nil => simp at hpart
      | cons c cs =>
        simp only [Option.toList_some, List.mem_singleton] at hpart
        exact hpart ▸ Lib.notMem_of_mem_splitOn hmem

/-- A line is a part of the text between newlines, but for a carriage return at its end. -/
theorem exists_part_of_lines {s line : String} {i : ℕ} (h : (lines s)[i]? = some line) :
    ∃ part, (s.toList.splitOn '\n')[i]? = some part ∧ line.toList <+: part := by
  unfold lines at h
  rcases List.eq_nil_or_concat (s.toList.splitOn '\n') with hnil | ⟨front, last, hparts⟩
  · exact absurd hnil (List.splitOn_ne_nil _ _)
  · rw [hparts] at h ⊢
    dsimp only at h
    rw [List.concat_eq_append, List.dropLast_concat, List.getLast?_concat, List.getElem?_map,
      Option.map_eq_some_iff] at h
    obtain ⟨l, hl, rfl⟩ := h
    rw [String.toList_ofList, List.concat_eq_append]
    by_cases hi : i < front.length
    · rw [List.getElem?_append_left (by simpa using hi), List.getElem?_map,
        Option.map_eq_some_iff] at hl
      obtain ⟨part, hpart, rfl⟩ := hl
      refine ⟨part, by rw [List.getElem?_append_left hi, hpart], ?_⟩
      unfold stripCarriageReturn
      split
      · exact List.dropLast_prefix part
      · exact List.prefix_rfl
    · rw [List.getElem?_append_right (by simpa using hi), List.length_map] at hl
      rw [List.getElem?_append_right (by omega)]
      cases last with
      | nil => simp at hl
      | cons c cs =>
        exact ⟨l, hl, List.prefix_rfl⟩

/-- A part of the text between newlines is a line, but for a carriage return at its end. -/
theorem exists_line_of_part {s : String} {part : List Char} (h : part ∈ s.toList.splitOn '\n')
    (hne : part ≠ []) :
    ∃ line ∈ lines s, part = line.toList ∨ part = line.toList ++ ['\r'] := by
  unfold lines
  rcases List.eq_nil_or_concat (s.toList.splitOn '\n') with hnil | ⟨front, last, hparts⟩
  · exact absurd hnil (List.splitOn_ne_nil _ _)
  · rw [hparts, List.concat_eq_append] at h ⊢
    dsimp only
    rw [List.dropLast_concat, List.getLast?_concat]
    rcases List.mem_append.1 h with h | h
    · refine ⟨String.ofList (stripCarriageReturn part), List.mem_map_of_mem
        (List.mem_append_left _ (List.mem_map_of_mem h)), ?_⟩
      rw [String.toList_ofList, stripCarriageReturn]
      split
      · next hlast =>
        obtain ⟨l, rfl⟩ := List.getLast?_eq_some_iff.1 hlast
        exact .inr (by rw [List.dropLast_concat])
      · exact .inl rfl
    · obtain rfl := List.mem_singleton.1 h
      obtain ⟨c, cs, rfl⟩ := List.exists_cons_of_ne_nil hne
      exact ⟨String.ofList (c :: cs), List.mem_map_of_mem
        (List.mem_append_right _ (by simp)), .inl (String.toList_ofList ..).symm⟩

/-- The lines of a text are where their number says. -/
theorem place_of_lines {s line : String} {i : ℕ} (h : (lines s)[i]? = some line) :
    ∃ before after, s.toList = before ++ line.toList ++ after ∧ before.count '\n' = i := by
  obtain ⟨part, hpart, rest, rfl⟩ := exists_part_of_lines h
  obtain ⟨before, after, heq, hcount⟩ := Lib.place_of_splitOn hpart
  exact ⟨before, rest ++ after, by rw [heq]; simp, hcount⟩

section Joined

variable {part : List String} (hpart : ∀ line ∈ part, '\n' ∉ line.toList)

include hpart

theorem splitOn_intercalate (hne : part ≠ []) :
    ("\n".intercalate part).toList.splitOn '\n' = part.map String.toList := by
  rw [String.toList_intercalate]
  refine List.splitOn_intercalate '\n' (fun line hline => ?_) (by simpa using hne)
  obtain ⟨l, hl, rfl⟩ := List.mem_map.1 hline
  exact hpart l hl

/-- A joined text has the lines it was joined from. -/
theorem intercalate_inj {part' : List String} (hpart' : ∀ line ∈ part', '\n' ∉ line.toList)
    (hne : part ≠ []) (hne' : part' ≠ []) (h : "\n".intercalate part = "\n".intercalate part') :
    part = part' := by
  have hsplit := splitOn_intercalate hpart hne
  rw [h, splitOn_intercalate hpart' hne'] at hsplit
  exact (List.map_injective_iff.2 (fun _ _ h => String.toList_injective h) hsplit).symm

/-- The lines of a joined text. -/
theorem lines_intercalate (hne : part ≠ []) :
    lines ("\n".intercalate part) = part.dropLast.map beforeLineEnd ++
      if part.getLast hne = "" then [] else [part.getLast hne] := by
  have hlast : (part.map String.toList).getLast? = some (part.getLast hne).toList := by
    rw [List.getLast?_map, List.getLast?_eq_some_getLast hne]
    rfl
  unfold lines
  rw [splitOn_intercalate hpart hne]
  dsimp only
  rw [hlast, List.map_append, ← List.map_dropLast, List.map_map, List.map_map]
  congr 1
  by_cases h : part.getLast hne = ""
  · rw [if_pos h, h]
    rfl
  · rw [if_neg h]
    have hlist : (part.getLast hne).toList ≠ [] := fun he => h (String.toList_eq_nil_iff.1 he)
    rcases hl : (part.getLast hne).toList with _ | ⟨c, cs⟩
    · exact absurd hl hlist
    · have hback : String.ofList (c :: cs) = part.getLast hne := by
        rw [← hl, String.ofList_toList]
      exact congrArg (fun l => [l]) hback

/-- The lines of a joined text one by one, but for an empty last one. -/
theorem getElem?_lines_intercalate (hne : part ≠ []) {j : ℕ}
    (hj : j < (lines ("\n".intercalate part)).length) :
    (lines ("\n".intercalate part))[j]? =
      if j + 1 < part.length then part[j]?.map beforeLineEnd else part[j]? := by
  rw [lines_intercalate hpart hne] at hj ⊢
  have hlen : (part.dropLast.map beforeLineEnd).length = part.length - 1 := by simp
  have hpos := List.length_pos_iff.2 hne
  by_cases h : j + 1 < part.length
  · rw [if_pos h, List.getElem?_append_left (by omega), List.getElem?_map,
      List.getElem?_dropLast, if_pos (by omega)]
  · rw [if_neg h]
    rw [List.length_append, hlen] at hj
    rw [List.getElem?_append_right (by omega), hlen]
    by_cases hlast : part.getLast hne = ""
    · rw [if_pos hlast] at hj
      simp only [List.length_nil] at hj
      omega
    · rw [if_neg hlast] at hj ⊢
      simp only [List.length_cons, List.length_nil] at hj
      have hj' : j = part.length - 1 := by omega
      rw [hj', Nat.sub_self, List.getElem?_cons_zero, ← List.getLast?_eq_getElem?,
        List.getLast?_eq_some_getLast hne]

theorem length_lines_intercalate (hne : part ≠ []) :
    (lines ("\n".intercalate part)).length ≤ part.length ∧
      part.length ≤ (lines ("\n".intercalate part)).length + 1 ∧
      ((lines ("\n".intercalate part)).length < part.length → part.getLast hne = "") := by
  have hpos := List.length_pos_iff.2 hne
  rw [lines_intercalate hpart hne, List.length_append, List.length_map, List.length_dropLast]
  by_cases h : part.getLast hne = ""
  · rw [if_pos h]
    simp only [List.length_nil]
    exact ⟨by omega, by omega, fun _ => h⟩
  · rw [if_neg h]
    simp only [List.length_cons, List.length_nil]
    exact ⟨by omega, by omega, fun hlt => by omega⟩

end Joined

/-- Ranges without a gap reach every line between their ends. -/
theorem exists_mem_of_noGap {chunks : List Chunk} {k : ℕ} (hne : chunks ≠ [])
    (hchain : chunks.IsChain fun c d => d.startLine ≤ c.endLine + 1)
    (hbegin : ∀ c, chunks.head? = some c → c.startLine ≤ k)
    (hend : ∀ c, chunks.getLast? = some c → k ≤ c.endLine) :
    ∃ c ∈ chunks, c.startLine ≤ k ∧ k ≤ c.endLine := by
  induction chunks with
  | nil => exact absurd rfl hne
  | cons c cs ih =>
    by_cases hk : k ≤ c.endLine
    · exact ⟨c, List.mem_cons_self, hbegin c rfl, hk⟩
    · obtain ⟨hnext, hrest⟩ := List.isChain_cons.1 hchain
      rcases cs with _ | ⟨d, cs⟩
      · exact absurd (hend c rfl) hk
      · have hstart : d.startLine ≤ k := by
          have := hnext d rfl
          omega
        obtain ⟨e, he, hrange⟩ := ih (by simp) hrest
          (fun e he => by cases he; exact hstart) (fun e he => hend e (by
            rw [List.getLast?_cons_cons]
            exact he))
        exact ⟨e, List.mem_cons_of_mem c he, hrange⟩

/-- Every line is in a window. -/
theorem WindowsCover.exists_window {ls : List String} {budgetChars : ℕ} {chunks : List Chunk}
    (h : WindowsCover ls budgetChars chunks) {k : ℕ} (h1 : 1 ≤ k) (hk : k ≤ ls.length) :
    ∃ c ∈ chunks, c.startLine ≤ k ∧ k ≤ c.endLine := by
  have hls : ls ≠ [] := List.ne_nil_of_length_pos (by omega)
  have hfirst := h.first
  have hlast := h.last
  rw [if_neg hls] at hfirst hlast
  refine exists_mem_of_noGap (fun hnil => by simp [hnil] at hfirst) h.noGap
    (fun c hc => ?_) (fun c hc => ?_)
  · rw [hc, Option.map_some, Option.some_inj] at hfirst
    omega
  · rw [hc, Option.map_some, Option.some_inj] at hlast
    omega

/-! ### Windows of a text of lines -/

/-- Some lines of some lines. -/
theorem joinLines_part {ls : List String} {start stop a b : ℕ} (h : b ≤ stop - start) :
    joinLines ((ls.drop start).take (stop - start)) a b = joinLines ls (start + a) (start + b) := by
  unfold joinLines
  congr 1
  rw [List.drop_take, List.take_take, List.drop_drop]
  congr 1
  omega

/-- Lines that are joined to the same text are the same. -/
theorem getElem?_eq_of_joinLines_eq {ls ls' : List String}
    (hls : ∀ line ∈ ls, '\n' ∉ line.toList) (hls' : ∀ line ∈ ls', '\n' ∉ line.toList) {a b : ℕ}
    (hb : b ≤ ls.length) (hb' : b ≤ ls'.length) (h : joinLines ls a b = joinLines ls' a b)
    {j : ℕ} (ha : a ≤ j) (hj : j < b) : ls[j]? = ls'[j]? := by
  have hne : ∀ l : List String, b ≤ l.length → (l.drop a).take (b - a) ≠ [] := by
    intro l hl hnil
    have := congrArg List.length hnil
    rw [List.length_take, List.length_drop, List.length_nil] at this
    omega
  have heq := intercalate_inj
    (fun line hline => hls line (List.mem_of_mem_drop (List.mem_of_mem_take hline)))
    (fun line hline => hls' line (List.mem_of_mem_drop (List.mem_of_mem_take hline)))
    (hne ls hb) (hne ls' hb') h
  have hget := congrArg (·[j - a]?) heq
  simp only [List.getElem?_take, List.getElem?_drop, if_pos (show j - a < b - a by omega),
    Nat.add_sub_cancel' ha] at hget
  exact hget

theorem joinLines_congr {ls ls' : List String} {a b : ℕ}
    (h : ∀ j, a ≤ j → j < b → ls[j]? = ls'[j]?) : joinLines ls a b = joinLines ls' a b := by
  unfold joinLines
  congr 1
  refine List.ext_getElem? fun i => ?_
  rw [List.getElem?_take, List.getElem?_take, List.getElem?_drop, List.getElem?_drop]
  by_cases hi : i < b - a
  · rw [if_pos hi, if_pos hi]
    exact h (a + i) (by omega) (by omega)
  · rw [if_neg hi, if_neg hi]

/-- The windows of a text of lines have the text of these lines exactly if none of them but
the last ends in a carriage return. -/
theorem windows_content_iff {part : List String} (hpart : ∀ line ∈ part, '\n' ∉ line.toList)
    (hne : part ≠ []) {budgetChars : ℕ} {chunks : List Chunk}
    (h : WindowsCover (lines ("\n".intercalate part)) budgetChars chunks) :
    (∀ c ∈ chunks, c.content = joinLines part (c.startLine - 1) c.endLine) ↔
      ∀ j line, part[j]? = some line → j + 1 < part.length → ¬EndsInReturn line := by
  obtain ⟨hle, hge, -⟩ := length_lines_intercalate hpart hne
  constructor
  · intro hcontent j line hline hlast
    obtain ⟨c, hc, hstart, hend⟩ := h.exists_window (k := j + 1) (by omega) (by omega)
    obtain ⟨hone, -, hrange⟩ := h.range c hc
    have hsame := getElem?_eq_of_joinLines_eq (fun line hline => newline_notMem_of_mem_lines hline)
      hpart hrange (by omega) ((h.content c hc).symm.trans (hcontent c hc)) (j := j) (by omega)
      (by omega)
    rw [getElem?_lines_intercalate hpart hne (by omega), if_pos hlast, hline, Option.map_some,
      Option.some_inj] at hsame
    exact beforeLineEnd_eq_iff.1 hsame
  · intro hreturn c hc
    obtain ⟨hone, -, hrange⟩ := h.range c hc
    rw [h.content c hc]
    refine joinLines_congr fun j _ hj => ?_
    rw [getElem?_lines_intercalate hpart hne (by omega)]
    split
    · next hlast =>
      have hline := List.getElem?_eq_getElem (l := part) (i := j) (by omega)
      rw [hline, Option.map_some, beforeLineEnd_eq_iff.2 (hreturn j _ hline hlast)]
    · rfl

end Spelunk
