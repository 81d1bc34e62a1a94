import Mathlib.Data.List.DropRight
import Spelunk.Lib.Split

/-!
# Comma-Separated Columns

Tags and linked files live in one text column each, joined by commas. A reader
splits the column, trims every member and drops the empty ones; a writer that
adds members keeps the ones present and appends the rest. `CleanMember` is what
survives a round trip: a member that is not empty, has no comma in it, and has
nothing to trim.

## Main definitions

* `trim`: White space removed from both ends.
* `splitCsv`: The members of a column.
* `joinCsv`: A column from its members.
* `unionCsv`: A column with members added.
* `CleanMember`: A member that a round trip keeps.

## Theorems

* `cleanMember_of_mem_splitCsv`: What is read is clean.
* `splitCsv_joinCsv`: Clean members are read back as they were.
* `mem_splitCsv_unionCsv`: The union has the members of both sides.
* `splitCsv_unionCsv`: What is read from a union.
* `unionCsv_unionCsv`: The same members a second time.
-/

namespace Spelunk

/-- The characters `str::trim` removes: Unicode White_Space. -/
def isWhiteSpace (c : Char) : Bool :=
  let n := c.toNat
  (9 ≤ n && n ≤ 13) || n == 0x20 || n == 0x85 || n == 0xA0 || n == 0x1680 ||
    (0x2000 ≤ n && n ≤ 0x200A) || n == 0x2028 || n == 0x2029 || n == 0x202F || n == 0x205F ||
    n == 0x3000

/-- White space removed from both ends. -/
def trim (s : List Char) : List Char :=
  (s.dropWhile isWhiteSpace).rdropWhile isWhiteSpace

/-- The members of a text: split at commas, trimmed, the empty ones dropped. -/
def csvMembers (s : List Char) : List String :=
  (((s.splitOn ',').map trim).filter (fun p => p ≠ [])).map String.ofList

/-- The members of a column. -/
def splitCsv : Option String → List String
  | none => []
  | some s => if s = "" then [] else csvMembers s.toList

/-- The members joined by commas. -/
def joinCsv (l : List String) : String :=
  ",".intercalate l

/-- One incoming value, trimmed, added to the members unless it is empty or
    present. -/
def addMember (merged : List String) (v : String) : List String :=
  let v := String.ofList (trim v.toList)
  if v ≠ "" ∧ v ∉ merged then merged ++ [v] else merged

/-- `incoming` members added to a column. A NULL column that gains nothing stays
    NULL. -/
def unionCsv (current : Option String) (incoming : List String) : Option String :=
  let merged := incoming.foldl addMember (splitCsv current)
  if merged = [] ∧ current = none then none else some (joinCsv merged)

/-- A member that a round trip through a column keeps. -/
structure CleanMember (t : String) : Prop where
  ne_nil : t.toList ≠ []
  no_comma : ',' ∉ t.toList
  trimmed : trim t.toList = t.toList

section Trim

theorem mem_of_mem_trim {s : List Char} {c : Char} (h : c ∈ trim s) : c ∈ s :=
  (List.dropWhile_suffix _).subset ((List.rdropWhile_prefix _ _).subset h)

theorem trim_eq_nil_iff {s : List Char} : trim s = [] ↔ ∀ c ∈ s, isWhiteSpace c = true := by
  unfold trim
  rw [List.rdropWhile_eq_nil_iff]
  constructor
  · intro h c hc
    rw [← List.takeWhile_append_dropWhile (p := isWhiteSpace) (l := s)] at hc
    rcases List.mem_append.1 hc with hc | hc
    · exact List.mem_takeWhile_imp hc
    · exact h c hc
  · exact fun h c hc => h c ((List.dropWhile_suffix _).subset hc)

theorem trim_append_whiteSpace (s : List Char) {c : Char} (h : isWhiteSpace c = true) :
    trim (s ++ [c]) = trim s := by
  unfold trim
  rw [List.dropWhile_append]
  by_cases hnil : (s.dropWhile isWhiteSpace).isEmpty = true
  · rw [if_pos hnil, List.isEmpty_iff.1 hnil, List.dropWhile_cons_of_pos h]
    rfl
  · rw [if_neg hnil, List.rdropWhile_concat_pos _ _ _ h]

/-- White space at the end is trimmed anyway. -/
theorem trim_rdropWhile (s : List Char) : trim (s.rdropWhile isWhiteSpace) = trim s := by
  induction s using List.reverseRecOn with
  | nil => rfl
  | append_singleton s c ih =>
    by_cases hc : isWhiteSpace c = true
    · rw [List.rdropWhile_concat_pos _ _ _ hc, ih, trim_append_whiteSpace s hc]
    · rw [List.rdropWhile_concat_neg _ _ _ hc]

/-- Trimming once is trimming enough. -/
theorem trim_trim (s : List Char) : trim (trim s) = trim s := by
  have hfront : (trim s).dropWhile isWhiteSpace = trim s := by
    rw [List.dropWhile_eq_self_iff]
    intro hpos
    -- The first character of what is left was kept by the first pass.
    have hprefix : trim s <+: s.dropWhile isWhiteSpace := List.rdropWhile_prefix _ _
    have hne : s.dropWhile isWhiteSpace ≠ [] := by
      intro hnil
      rw [trim, hnil] at hpos
      exact absurd hpos (by simp)
    have hhead := List.head_dropWhile_not isWhiteSpace hne
    have hsame : (trim s)[0] = (s.dropWhile isWhiteSpace).head hne := by
      rw [List.head_eq_getElem]
      exact hprefix.getElem hpos
    rw [hsame, hhead]
    exact Bool.false_ne_true
  rw [trim, hfront]
  exact List.rdropWhile_idempotent _ _

end Trim

section Split

theorem cleanMember_of_mem_csvMembers {s : List Char} {t : String} (h : t ∈ csvMembers s) :
    CleanMember t := by
  simp only [csvMembers, List.mem_map, List.mem_filter, decide_eq_true_eq] at h
  rcases h with ⟨p, ⟨⟨q, hq, rfl⟩, hne⟩, rfl⟩
  exact ⟨by rwa [String.toList_ofList],
    by rw [String.toList_ofList]; exact fun hc => Lib.notMem_of_mem_splitOn hq (mem_of_mem_trim hc),
    by rw [String.toList_ofList, trim_trim]⟩

theorem splitCsv_some (s : String) : splitCsv (some s) = csvMembers s.toList := by
  by_cases hs : s = ""
  · rw [hs]
    rfl
  · exact if_neg hs

/-- What is read from a column is clean. -/
theorem cleanMember_of_mem_splitCsv {col : Option String} {t : String} (h : t ∈ splitCsv col) :
    CleanMember t := by
  rcases col with _ | s
  · exact absurd h List.not_mem_nil
  · exact cleanMember_of_mem_csvMembers (splitCsv_some s ▸ h)

theorem csvMembers_append_comma (s r : List Char) :
    csvMembers (s ++ ',' :: r) = csvMembers s ++ csvMembers r := by
  simp only [csvMembers, List.splitOn_append_cons_self, List.map_append, List.filter_append]

theorem csvMembers_of_cleanMember {t : String} (h : CleanMember t) :
    csvMembers t.toList = [t] := by
  simp only [csvMembers, List.splitOn_eq_singleton h.no_comma, List.map_cons, List.map_nil,
    h.trimmed]
  rw [List.filter_cons_of_pos (by simpa using h.ne_nil)]
  simp only [List.filter_nil, List.map_cons, List.map_nil, String.ofList_toList]

/-- A joined column has the members of its parts. -/
theorem splitCsv_joinCsv_eq_flatMap (l : List String) :
    splitCsv (some (joinCsv l)) = l.flatMap (fun t => csvMembers t.toList) := by
  rw [splitCsv_some, joinCsv, String.toList_intercalate]
  induction l with
  | nil => rfl
  | cons t l ih =>
      rcases l with _ | ⟨u, l⟩
      · simp
      · rw [List.map_cons, List.map_cons, List.intercalate_cons_cons, ← List.map_cons,
          List.flatMap_cons, ← ih, List.append_assoc]
        exact csvMembers_append_comma _ _

/-- Clean members are read back as they were. -/
theorem splitCsv_joinCsv {l : List String} (h : ∀ t ∈ l, CleanMember t) :
    splitCsv (some (joinCsv l)) = l := by
  rw [splitCsv_joinCsv_eq_flatMap, List.flatMap_congr
    (fun t ht => csvMembers_of_cleanMember (h t ht)), List.flatMap_singleton']

end Split

section Union

theorem addMember_of_cleanMember {merged : List String} {v : String} (h : CleanMember v) :
    addMember merged v = if v ∈ merged then merged else merged ++ [v] := by
  have hv : String.ofList (trim v.toList) = v := by rw [h.trimmed, String.ofList_toList]
  have hne : v ≠ "" := by
    rintro rfl
    exact h.ne_nil rfl
  simp only [addMember, hv]
  by_cases hmem : v ∈ merged
  · rw [if_neg (fun hc => hc.2 hmem), if_pos hmem]
  · rw [if_pos ⟨hne, hmem⟩, if_neg hmem]

theorem mem_foldl_addMember {incoming : List String} (h : ∀ v ∈ incoming, CleanMember v)
    (merged : List String) (t : String) :
    t ∈ incoming.foldl addMember merged ↔ t ∈ merged ∨ t ∈ incoming := by
  induction incoming generalizing merged with
  | nil => simp
  | cons v incoming ih =>
      have hv := h v List.mem_cons_self
      rw [List.foldl_cons, ih (fun u hu => h u (List.mem_cons_of_mem _ hu)),
        addMember_of_cleanMember hv, List.mem_cons]
      by_cases hmem : v ∈ merged
      · rw [if_pos hmem]
        constructor
        · rintro (h | h)
          · exact Or.inl h
          · exact Or.inr (Or.inr h)
        · rintro (h | rfl | h)
          · exact Or.inl h
          · exact Or.inl hmem
          · exact Or.inr h
      · rw [if_neg hmem, List.mem_append, List.mem_singleton, or_assoc]

theorem foldl_addMember_of_subset {incoming merged : List String}
    (hclean : ∀ v ∈ incoming, CleanMember v) (h : ∀ v ∈ incoming, v ∈ merged) :
    incoming.foldl addMember merged = merged := by
  induction incoming with
  | nil => rfl
  | cons v incoming ih =>
      rw [List.foldl_cons, addMember_of_cleanMember (hclean v List.mem_cons_self),
        if_pos (h v List.mem_cons_self)]
      exact ih (fun u hu => hclean u (List.mem_cons_of_mem _ hu))
        (fun u hu => h u (List.mem_cons_of_mem _ hu))

theorem unionCsv_eq (current : Option String) (incoming : List String) :
    unionCsv current incoming
      = if incoming.foldl addMember (splitCsv current) = [] ∧ current = none then none
        else some (joinCsv (incoming.foldl addMember (splitCsv current))) := rfl

/-- What is read from a union, clean members having been added. -/
theorem splitCsv_unionCsv (current : Option String) {incoming : List String}
    (h : ∀ v ∈ incoming, CleanMember v) :
    splitCsv (unionCsv current incoming) = incoming.foldl addMember (splitCsv current) := by
  have hclean : ∀ t ∈ incoming.foldl addMember (splitCsv current), CleanMember t := by
    intro t ht
    rcases (mem_foldl_addMember h _ t).mp ht with ht | ht
    · exact cleanMember_of_mem_splitCsv ht
    · exact h t ht
  rw [unionCsv_eq]
  split
  · next hnil => exact hnil.1.symm
  · exact splitCsv_joinCsv hclean

/-- The union has the members of both sides. -/
theorem mem_splitCsv_unionCsv (current : Option String) {incoming : List String}
    (h : ∀ v ∈ incoming, CleanMember v) (t : String) :
    t ∈ splitCsv (unionCsv current incoming) ↔ t ∈ splitCsv current ∨ t ∈ incoming := by
  rw [splitCsv_unionCsv current h, mem_foldl_addMember h]

/-- A column that has every incoming member is not rewritten. -/
theorem unionCsv_of_subset {l incoming : List String} (hl : ∀ t ∈ l, CleanMember t)
    (h : ∀ v ∈ incoming, CleanMember v) (hsub : ∀ v ∈ incoming, v ∈ l) :
    unionCsv (some (joinCsv l)) incoming = some (joinCsv l) := by
  rw [unionCsv_eq, splitCsv_joinCsv hl, foldl_addMember_of_subset h hsub, if_neg (by simp)]

/-- Adding the same members again changes nothing. -/
theorem unionCsv_unionCsv (current : Option String) {incoming : List String}
    (h : ∀ v ∈ incoming, CleanMember v) :
    unionCsv (unionCsv current incoming) incoming = unionCsv current incoming := by
  by_cases hnil : incoming.foldl addMember (splitCsv current) = [] ∧ current = none
  · have hnone : unionCsv current incoming = none := by rw [unionCsv_eq, if_pos hnil]
    have hcur := hnil.2
    subst hcur
    rw [hnone, hnone]
  · rw [unionCsv_eq current, if_neg hnil]
    refine unionCsv_of_subset (fun t ht => ?_) h (fun v hv => ?_)
    · rcases (mem_foldl_addMember h _ t).mp ht with ht | ht
      · exact cleanMember_of_mem_splitCsv ht
      · exact h t ht
    · exact (mem_foldl_addMember h _ v).mpr (Or.inr hv)

end Union

end Spelunk
