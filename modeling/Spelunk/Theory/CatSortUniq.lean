import Mathlib.Data.List.Dedup
import Mathlib.Data.W.Basic
import Mathlib.Logic.Equiv.List
import Spelunk.Theory.CarrierBounds

/-!
# A Git that Does What Is Relied On

The cleanup of a text and the merge of notes, as far as the lines of a note go:
a cleaned text has each of its lines ended, and a merged note has the lines of both
sides sorted, each once. Everything that is proved about runs holds of them.

## Main definitions

* `unlines`: Lines to a text.
* `stripText`: The cleanup of a text.
* `catSortUniq`: The merge.

## Theorems

* `noteLines_unlines`: A text of lines has those lines.
* `catSortUniq_documented`: They do what is relied on.
-/

namespace Spelunk

/-- Lines to a text, each with its line end. -/
def unlines (lines : List String) : String :=
  String.ofList (lines.flatMap (fun line => line.toList ++ ['\n']))

/-- The cleanup of a text: white space at the end of lines and empty lines go. -/
def stripText (body : String) : String :=
  unlines (noteLines body)

/-- The lines of both sides, sorted, each once. -/
def sortUniq (lines : List String) : List String :=
  (lines.insertionSort (· ≤ ·)).dedup

/-- The merge of notes, by the union of the lines of each. -/
def catSortUniq (ours theirs : NotesCommit) : NotesTree :=
  (ours.tree.map (·.1) ++ theirs.tree.map (·.1)).dedup.map (fun object =>
    (object, unlines (sortUniq (ours.tree.linesAt object ++ theirs.tree.linesAt object))))

section Lines

/-- A text of lines has those lines. -/
theorem noteLines_unlines {lines : List String} (h : ∀ line ∈ lines, NoteLine line) :
    noteLines (unlines lines) = lines := by
  induction lines with
  | nil => rfl
  | cons line rest ih =>
      rw [unlines, List.flatMap_cons, List.append_assoc, List.singleton_append,
        noteLines_append_newline, String.ofList_toList,
        noteLines_of_noteLine (h line List.mem_cons_self)]
      exact congrArg (line :: ·) (ih (fun l hl => h l (List.mem_cons_of_mem _ hl)))

theorem cleanText_unlines {lines : List String} (h : ∀ line ∈ lines, NoteLine line) :
    CleanText (unlines lines) := by
  induction lines with
  | nil =>
      intro part hpart
      rw [List.mem_singleton.mp hpart]
      rfl
  | cons line rest ih =>
      intro part hpart
      rw [unlines, String.toList_ofList, List.flatMap_cons, List.append_assoc,
        List.singleton_append, List.splitOn_append_cons_self] at hpart
      rcases List.mem_append.mp hpart with hpart | hpart
      · exact cleanText_of_noteLine (h line List.mem_cons_self) part hpart
      · refine ih (fun l hl => h l (List.mem_cons_of_mem _ hl)) part ?_
        rwa [unlines, String.toList_ofList]

theorem mem_sortUniq {line : String} {lines : List String} :
    line ∈ sortUniq lines ↔ line ∈ lines := by
  rw [sortUniq, List.mem_dedup, List.mem_insertionSort]

theorem count_sortUniq_le (line : String) (lines : List String) :
    (sortUniq lines).count line ≤ 1 :=
  List.nodup_iff_count_le_one.mp (List.nodup_dedup _) line

end Lines

section Merge

/-- The note of a commit in a tree made from a list of commits. -/
theorem note_map {objects : List String} (text : String → String) (object : String) :
    NotesTree.note (objects.map (fun o => (o, text o))) object
      = if object ∈ objects then some (text object) else none := by
  induction objects with
  | nil => rfl
  | cons o rest ih =>
      rw [NotesTree.note, List.map_cons, List.lookup_cons]
      by_cases h : object = o
      · subst h
        rw [beq_self_eq_true, if_pos List.mem_cons_self]
      · rw [beq_eq_false_iff_ne.mpr h, ← NotesTree.note, ih]
        simp [h]

/-- A commit without an entry has no lines. -/
theorem linesAt_of_notMem {tree : NotesTree} {object : String} (h : object ∉ tree.map (·.1)) :
    tree.linesAt object = [] := by
  have hnone : tree.note object = none := by
    rw [NotesTree.note, List.lookup_eq_none_iff]
    intro p hp
    rw [bne_iff_ne]
    exact fun heq => h (List.mem_map.mpr ⟨p, hp, heq.symm⟩)
  rw [NotesTree.linesAt, hnone]
  rfl

/-- The lines of a merged note. -/
theorem linesAt_catSortUniq (ours theirs : NotesCommit) (object : String) :
    (catSortUniq ours theirs).linesAt object
      = sortUniq (ours.tree.linesAt object ++ theirs.tree.linesAt object) := by
  rw [NotesTree.linesAt, catSortUniq, note_map]
  split
  · rw [Option.getD_some, noteLines_unlines]
    intro line hline
    rcases List.mem_append.mp (mem_sortUniq.mp hline) with hline | hline
    · exact noteLine_of_mem hline
    · exact noteLine_of_mem hline
  · next h =>
    rw [List.mem_dedup, List.mem_append, not_or] at h
    rw [linesAt_of_notMem h.1, linesAt_of_notMem h.2]
    rfl

theorem clean_catSortUniq (ours theirs : NotesCommit) : (catSortUniq ours theirs).Clean := by
  intro object body hbody
  rw [catSortUniq, note_map] at hbody
  split at hbody
  · rw [Option.mem_some_iff] at hbody
    subst hbody
    refine cleanText_unlines (fun line hline => ?_)
    rcases List.mem_append.mp (mem_sortUniq.mp hline) with hline | hline
    · exact noteLine_of_mem hline
    · exact noteLine_of_mem hline
  · exact absurd hbody (by simp)

end Merge

section Ids

/-- A text as numbers. -/
def textCode (s : String) : List Nat :=
  s.toList.map Char.toNat

/-- The notes as numbers. -/
def treeCode (tree : NotesTree) : List (List Nat × List Nat) :=
  tree.map (Prod.map textCode textCode)

/-- A history as a tree whose nodes are labelled with what a commit says itself. -/
def NotesCommit.shape : NotesCommit →
    WType (fun label : (List Nat × List (List Nat × List Nat)) × Fin 3 => Fin label.2)
  | .root stamp tree => ⟨((textCode stamp, treeCode tree), 0), Fin.elim0⟩
  | .child stamp tree parent => ⟨((textCode stamp, treeCode tree), 1), fun _ => parent.shape⟩
  | .merge stamp tree ours theirs => ⟨((textCode stamp, treeCode tree), 2),
      fun k => if k = (0 : Fin 2) then ours.shape else theirs.shape⟩

/-- The id of a commit, different for different commits. -/
def NotesCommit.code (c : NotesCommit) : String :=
  String.ofList (List.replicate (Encodable.encode c.shape) '0')

end Ids

/-- A Git of them. -/
@[reducible] def catSortUniqGit : Git where
  mergeTrees := catSortUniq
  stripspace := stripText
  oid := NotesCommit.code

/-- They do what is relied on. -/
theorem catSortUniq_documented :
    @Git.Documented catSortUniqGit := by
  refine @Git.Documented.mk catSortUniqGit ?_ ?_ ?_ ?_ ?_
  · exact fun body => noteLines_unlines (fun line hline => noteLine_of_mem hline)
  · exact fun body _ => cleanText_unlines (fun line hline => noteLine_of_mem hline)
  · intro ours theirs _ _ object line
    show line ∈ (catSortUniq ours theirs).linesAt object ↔ _
    rw [linesAt_catSortUniq, mem_sortUniq, List.mem_append]
  · exact fun ours theirs _ _ => clean_catSortUniq ours theirs
  · intro ours theirs _ _ _ _ object line
    show ((catSortUniq ours theirs).linesAt object).count line ≤ _
    rw [linesAt_catSortUniq]
    by_cases h : line ∈ ours.tree.linesAt object ++ theirs.tree.linesAt object
    · refine (count_sortUniq_le _ _).trans (le_max_iff.mpr ?_)
      rcases List.mem_append.mp h with h | h
      · exact Or.inl (List.count_pos_iff.mpr h)
      · exact Or.inr (List.count_pos_iff.mpr h)
    · rw [List.count_eq_zero.mpr (fun hmem => h (mem_sortUniq.mp hmem))]
      exact Nat.zero_le _

end Spelunk
