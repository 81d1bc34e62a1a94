import Spelunk.Core.GitNotes

/-!
# Notes Refs

The two refs the carrier lives on, as git keeps them: a notes ref points to a
commit, a commit has a tree of notes and the commits it was made from, and a
commit never changes. A writer adds one line to one note and makes a child of the
commit it found; a merge makes a commit of two.

What a reader takes from a note are its lines without the white space at their
ends, the empty ones dropped. That is also what git's own cleanup of a note's text
leaves alone.

## Main definitions

* `NotesCommit`: A commit of a notes ref.
* `NotesCommit.Reaches`: Being an ancestor.
* `noteLines`, `NotesTree.linesAt`: The lines of a note.
* `appendLine`: The text a writer writes back.
* `NotesCommit.Grown`: Histories in which notes only gained lines.

## Theorems

* `noteLines_appendLine`: A writer adds its line and keeps the others.
* `NotesCommit.Grown.sub`: A descendant has the lines of its ancestors.
-/

namespace Spelunk

/-- A commit of a notes ref. `stamp` stands for its author, date and message. -/
inductive NotesCommit where
  | root (stamp : String) (tree : NotesTree)
  | child (stamp : String) (tree : NotesTree) (parent : NotesCommit)
  | merge (stamp : String) (tree : NotesTree) (ours theirs : NotesCommit)
deriving DecidableEq, Repr

namespace NotesCommit

def tree : NotesCommit → NotesTree
  | root _ tree => tree
  | child _ tree _ => tree
  | merge _ tree _ _ => tree

/-- `a` is the commit or one of its ancestors. -/
def Reaches (a : NotesCommit) : NotesCommit → Prop
  | root stamp tree => a = root stamp tree
  | child stamp tree parent => a = child stamp tree parent ∨ Reaches a parent
  | merge stamp tree ours theirs =>
      a = merge stamp tree ours theirs ∨ Reaches a ours ∨ Reaches a theirs

instance decidableReaches (a : NotesCommit) : (c : NotesCommit) → Decidable (Reaches a c)
  | root stamp tree => inferInstanceAs (Decidable (a = root stamp tree))
  | child stamp tree parent =>
      have := decidableReaches a parent
      inferInstanceAs (Decidable (a = child stamp tree parent ∨ Reaches a parent))
  | merge stamp tree ours theirs =>
      have := decidableReaches a ours
      have := decidableReaches a theirs
      inferInstanceAs (Decidable (a = merge stamp tree ours theirs ∨
        Reaches a ours ∨ Reaches a theirs))

theorem Reaches.refl (c : NotesCommit) : Reaches c c := by
  cases c with
  | root => rfl
  | child => exact Or.inl rfl
  | merge => exact Or.inl rfl

theorem Reaches.trans {a b c : NotesCommit} (hab : Reaches a b) (hbc : Reaches b c) :
    Reaches a c := by
  induction c with
  | root => exact hbc ▸ hab
  | child stamp tree parent ih =>
      rcases hbc with rfl | hbc
      · exact hab
      · exact Or.inr (ih hbc)
  | merge stamp tree ours theirs iho iht =>
      rcases hbc with rfl | hbc | hbc
      · exact hab
      · exact Or.inr (Or.inl (iho hbc))
      · exact Or.inr (Or.inr (iht hbc))

end NotesCommit

/-- The lines of a note's text, without white space at their ends and without the
    empty ones. -/
def noteLines (body : String) : List String :=
  (((body.toList.splitOn '\n').map (·.rdropWhile isWhiteSpace)).filter (· ≠ [])).map String.ofList

/-- The text a writer writes back: what was there, and its line. -/
def appendLine (existing : Option String) (line : String) : String :=
  match existing with
  | some body =>
      if trim body.toList ≠ [] then
        String.ofList (body.toList.rdropWhile (· = '\n')) ++ "\n" ++ line
      else line
  | none => line

namespace NotesTree

/-- The notes with the text of one of them replaced. -/
def set (tree : NotesTree) (object body : String) : NotesTree :=
  (object, body) :: tree.filter (fun p => p.1 ≠ object)

/-- The lines of the note of a commit. -/
def linesAt (tree : NotesTree) (object : String) : List String :=
  noteLines ((tree.note object).getD "")

/-- Every line is in the other tree as well. -/
def Sub (tree tree' : NotesTree) : Prop :=
  ∀ object, ∀ line ∈ tree.linesAt object, line ∈ tree'.linesAt object

theorem note_set_self (tree : NotesTree) (object body : String) :
    (tree.set object body).note object = some body := by
  simp only [note, set, List.lookup_cons, beq_self_eq_true]

theorem note_set_of_ne (tree : NotesTree) {object other : String} (h : other ≠ object)
    (body : String) : (tree.set object body).note other = tree.note other := by
  have hne : (other == object) = false := by simpa using h
  simp only [note, set, List.lookup_cons, hne]
  induction tree with
  | nil => rfl
  | cons p tree ih =>
      by_cases hp : p.1 = object
      · rw [List.filter_cons_of_neg (by simpa using hp), ih, List.lookup_cons,
          show (other == p.1) = false by rw [hp]; exact hne]
      · rw [List.filter_cons_of_pos (by simpa using hp), List.lookup_cons, List.lookup_cons, ih]

/-- The lines of a replaced note, and of the others. -/
theorem linesAt_set (tree : NotesTree) (object body other : String) :
    (tree.set object body).linesAt other
      = if other = object then noteLines body else tree.linesAt other := by
  rw [linesAt]
  split
  · next h => rw [h, note_set_self, Option.getD_some]
  · next h => rw [note_set_of_ne tree h, linesAt]

theorem Sub.refl (tree : NotesTree) : tree.Sub tree := fun _ _ h => h

theorem Sub.trans {tree tree' tree'' : NotesTree} (h : tree.Sub tree') (h' : tree'.Sub tree'') :
    tree.Sub tree'' :=
  fun object line hl => h' object line (h object line hl)

end NotesTree

section Lines

theorem noteLines_append_newline (s r : List Char) :
    noteLines (String.ofList (s ++ '\n' :: r))
      = noteLines (String.ofList s) ++ noteLines (String.ofList r) := by
  simp only [noteLines, String.toList_ofList, List.splitOn_append_cons_self, List.map_append,
    List.filter_append]

/-- Line ends at the end of a text start no line. -/
theorem noteLines_rdropWhile (s : List Char) :
    noteLines (String.ofList (s.rdropWhile (· = '\n'))) = noteLines (String.ofList s) := by
  induction s using List.reverseRecOn with
  | nil => rfl
  | append_singleton s c ih =>
      by_cases hc : c = '\n'
      · subst hc
        rw [List.rdropWhile_concat_pos _ _ _ (by simp), ih, noteLines_append_newline]
        exact (List.append_nil _).symm
      · rw [List.rdropWhile_concat_neg _ _ _ (by simpa using hc)]

/-- A line as a note has it. -/
structure NoteLine (line : String) : Prop where
  ne_nil : line.toList ≠ []
  no_newline : '\n' ∉ line.toList
  trimmed : line.toList.rdropWhile isWhiteSpace = line.toList

theorem CleanLine.noteLine {line : String} (h : CleanLine line) : NoteLine line := by
  refine ⟨h.ne_nil, h.no_newline, ?_⟩
  rw [← h.trimmed]
  exact List.rdropWhile_idempotent _ _

theorem noteLines_of_noteLine {line : String} (h : NoteLine line) : noteLines line = [line] := by
  simp only [noteLines, List.splitOn_eq_singleton h.no_newline, List.map_cons, List.map_nil,
    h.trimmed]
  rw [List.filter_cons_of_pos (by simpa using h.ne_nil)]
  simp only [List.filter_nil, List.map_cons, List.map_nil, String.ofList_toList]

/-- The lines of a text are lines. -/
theorem noteLine_of_mem {body line : String} (h : line ∈ noteLines body) : NoteLine line := by
  rcases List.mem_map.mp h with ⟨s, hs, rfl⟩
  rcases List.mem_filter.mp hs with ⟨hs, hne⟩
  rcases List.mem_map.mp hs with ⟨part, hpart, rfl⟩
  refine ⟨by simpa using hne, fun hmem => ?_, ?_⟩
  · rw [String.toList_ofList] at hmem
    exact Lib.notMem_of_mem_splitOn hpart ((List.rdropWhile_prefix _ _).subset hmem)
  · rw [String.toList_ofList]
    exact List.rdropWhile_idempotent _ _

/-- A text of white space has no lines. -/
theorem noteLines_of_trim_eq_nil {body : String} (h : trim body.toList = []) :
    noteLines body = [] := by
  have hall := trim_eq_nil_iff.mp h
  rw [noteLines, List.map_eq_nil_iff, List.filter_eq_nil_iff]
  intro p hp
  rcases List.mem_map.mp hp with ⟨q, hq, rfl⟩
  have hnil : q.rdropWhile isWhiteSpace = [] :=
    List.rdropWhile_eq_nil_iff.mpr (fun c hc => hall c (Lib.mem_of_mem_splitOn hq hc))
  simp [hnil]

theorem appendLine_text (s : List Char) (line : String) :
    String.ofList s ++ "\n" ++ line = String.ofList (s ++ '\n' :: line.toList) := by
  rw [String.append_assoc, ← String.toList_inj]
  simp

/-- A writer adds its line and keeps the others. -/
theorem noteLines_appendLine {line : String} (h : CleanLine line) (existing : Option String) :
    noteLines (appendLine existing line) = noteLines (existing.getD "") ++ [line] := by
  rcases existing with _ | body
  · exact noteLines_of_noteLine h.noteLine
  · rw [appendLine, Option.getD_some]
    split
    · rw [appendLine_text, noteLines_append_newline, noteLines_rdropWhile, String.ofList_toList,
        String.ofList_toList, noteLines_of_noteLine h.noteLine]
    · next hblank =>
      rw [noteLines_of_noteLine h.noteLine, noteLines_of_trim_eq_nil (not_not.mp hblank), List.nil_append]

end Lines

/-- No line of the text has white space at its end. -/
def CleanText (body : String) : Prop :=
  ∀ line ∈ body.toList.splitOn '\n', line.rdropWhile isWhiteSpace = line

/-- No line of a note has white space at its end. -/
def NotesTree.Clean (tree : NotesTree) : Prop :=
  ∀ object, ∀ body ∈ tree.note object, CleanText body

section Clean

theorem cleanText_of_noteLine {line : String} (h : NoteLine line) : CleanText line := by
  intro part hpart
  rw [List.splitOn_eq_singleton h.no_newline, List.mem_singleton] at hpart
  rw [hpart, h.trimmed]

/-- A text whose last line ends are dropped has no other lines. -/
theorem mem_splitOn_rdropWhile {s line : List Char}
    (h : line ∈ (s.rdropWhile (· = '\n')).splitOn '\n') : line ∈ s.splitOn '\n' := by
  induction s using List.reverseRecOn with
  | nil => exact h
  | append_singleton s c ih =>
      by_cases hc : c = '\n'
      · subst hc
        rw [List.rdropWhile_concat_pos _ _ _ (by simp)] at h
        rw [List.splitOn_append_cons_self]
        exact List.mem_append_left _ (ih h)
      · rwa [List.rdropWhile_concat_neg _ _ _ (by simpa using hc)] at h

theorem cleanText_appendLine {line : String} (h : CleanLine line) {existing : Option String}
    (hexisting : ∀ body ∈ existing, CleanText body) : CleanText (appendLine existing line) := by
  rcases existing with _ | body
  · exact cleanText_of_noteLine h.noteLine
  · rw [appendLine]
    split
    · rw [appendLine_text, CleanText, String.toList_ofList, List.splitOn_append_cons_self]
      intro part hpart
      rcases List.mem_append.mp hpart with hpart | hpart
      · exact hexisting body rfl part (mem_splitOn_rdropWhile hpart)
      · exact cleanText_of_noteLine h.noteLine part hpart
    · exact cleanText_of_noteLine h.noteLine

end Clean

namespace NotesCommit

/-- Notes only ever gained lines. -/
def Grown : NotesCommit → Prop
  | root _ _ => True
  | child _ tree parent => parent.Grown ∧ parent.tree.Sub tree
  | merge _ tree ours theirs =>
      (ours.Grown ∧ ours.tree.Sub tree) ∧ theirs.Grown ∧ theirs.tree.Sub tree

/-- A descendant has the lines of its ancestors. -/
theorem Grown.sub {a c : NotesCommit} (h : c.Grown) (hac : Reaches a c) : a.tree.Sub c.tree := by
  induction c with
  | root => exact hac ▸ NotesTree.Sub.refl _
  | child stamp tree parent ih =>
      rcases hac with rfl | hac
      · exact NotesTree.Sub.refl _
      · exact (ih h.1 hac).trans h.2
  | merge stamp tree ours theirs iho iht =>
      rcases hac with rfl | hac | hac
      · exact NotesTree.Sub.refl _
      · exact (iho h.1.1 hac).trans h.1.2
      · exact (iht h.2.1 hac).trans h.2.2

end NotesCommit

end Spelunk
