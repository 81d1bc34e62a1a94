import Mathlib.Data.List.Basic
import Mathlib.Data.List.DropRight
import Mathlib.Data.List.Infix
import Mathlib.Data.Nat.Notation

/-!
# Splitting a List

What the parts of a list split at a separator are made of, and that the chunks of a list
make it up; and the parts of a list split at a text, as `str::split` cuts it.

## Main definitions

* `splitText`: The parts of a list split at a text.

## Theorems

* `notMem_of_mem_splitOn`: No part has the separator in it.
* `mem_of_mem_splitOn`: The parts are made of the list's elements.
* `exists_infix_of_intercalate`: A text without the separator is in one of the parts.
* `place_of_splitOn`: Where a part is in the list.
* `flatten_toChunks`: The chunks are the list.
* `splitText_of_not_infix`, `exists_head_splitText`: The first part of a split at a text.
* `rdropWhile_append_cons`: The end of a list lies behind an element that stays.
* `splitTextFrom_append_cons`: A split goes on behind an element that is not in the text.
-/

namespace Spelunk.Lib

variable {α : Type} [BEq α] [LawfulBEq α] {s p : List α} {sep : α}

/-- No part of a split has the separator in it. -/
theorem notMem_of_mem_splitOn (h : p ∈ s.splitOn sep) : sep ∉ p := by
  induction s generalizing p with
  | nil =>
      rw [show ([] : List α).splitOn sep = [[]] from rfl, List.mem_singleton] at h
      rw [h]
      exact List.not_mem_nil
  | cons x s ih =>
      rw [List.splitOn_cons_eq_if_modifyHead] at h
      split at h
      · rcases List.mem_cons.mp h with rfl | h
        · exact List.not_mem_nil
        · exact ih h
      · next hx =>
        rcases hs : s.splitOn sep with _ | ⟨q, rest⟩
        · exact absurd hs (List.splitOn_ne_nil _ _)
        · rw [hs, List.modifyHead_cons] at h
          rcases List.mem_cons.mp h with rfl | h
          · have hq := ih (hs ▸ List.mem_cons_self : q ∈ s.splitOn sep)
            rw [List.mem_cons]
            rintro (rfl | hmem)
            · exact hx (beq_self_eq_true _)
            · exact hq hmem
          · exact ih (hs ▸ List.mem_cons_of_mem _ h)

omit [LawfulBEq α] in
/-- The parts of a split are made of the list's elements. -/
theorem mem_of_mem_splitOn {c : α} (hp : p ∈ s.splitOn sep) (hc : c ∈ p) : c ∈ s := by
  induction s generalizing p with
  | nil =>
      rw [show ([] : List α).splitOn sep = [[]] from rfl, List.mem_singleton] at hp
      rwa [hp] at hc
  | cons x s ih =>
      rw [List.splitOn_cons_eq_if_modifyHead] at hp
      split at hp
      · rcases List.mem_cons.mp hp with rfl | hp
        · exact absurd hc List.not_mem_nil
        · exact List.mem_cons_of_mem _ (ih hp hc)
      · rcases hs : s.splitOn sep with _ | ⟨q, rest⟩
        · exact absurd hs (List.splitOn_ne_nil _ _)
        · rw [hs, List.modifyHead_cons] at hp
          rcases List.mem_cons.mp hp with rfl | hp
          · rcases List.mem_cons.mp hc with rfl | hc
            · exact List.mem_cons_self
            · exact List.mem_cons_of_mem _ (ih (hs ▸ List.mem_cons_self) hc)
          · exact List.mem_cons_of_mem _ (ih (hs ▸ List.mem_cons_of_mem _ hp) hc)

omit [BEq α] [LawfulBEq α] in
/-- A text without the element that stands between two others is in one of them. -/
theorem infix_of_append_cons {b c : List α} {x : α} (hx : x ∉ s) (h : s <:+: b ++ x :: c) :
    s <:+: b ∨ s <:+: c := by
  rcases List.infix_append_iff.1 h with h | h | ⟨l₁, l₂, rfl, h₁, h₂⟩
  · exact .inl h
  · rcases List.infix_cons_iff.1 h with h | h
    · rcases List.prefix_cons_iff.1 h with rfl | ⟨t, rfl, -⟩
      · exact .inl (List.nil_infix ..)
      · exact absurd List.mem_cons_self hx
    · exact .inr h
  · rcases List.prefix_cons_iff.1 h₂ with rfl | ⟨t, rfl, -⟩
    · exact .inl (by rw [List.append_nil]; exact h₁.isInfix)
    · exact absurd (List.mem_append_right _ List.mem_cons_self) hx

omit [BEq α] [LawfulBEq α] in
/-- A text without the separator that is in a joined list is in one of the parts. -/
theorem exists_infix_of_intercalate {x : α} {parts : List (List α)} (hx : x ∉ s) (hne : s ≠ [])
    (h : s <:+: [x].intercalate parts) : ∃ p ∈ parts, s <:+: p := by
  induction parts with
  | nil => exact absurd (List.infix_nil.1 h) hne
  | cons p parts ih =>
    cases parts with
    | nil =>
      rw [List.intercalate_singleton] at h
      exact ⟨p, List.mem_cons_self, h⟩
    | cons q parts =>
      rw [List.intercalate_cons_cons, List.append_assoc, List.singleton_append] at h
      rcases infix_of_append_cons hx h with h | h
      · exact ⟨p, List.mem_cons_self, h⟩
      · obtain ⟨r, hr, hin⟩ := ih h
        exact ⟨r, List.mem_cons_of_mem _ hr, hin⟩

/-- The part behind so many separators is where the list has had so many. -/
theorem place_of_splitOn {i : ℕ} (h : (s.splitOn sep)[i]? = some p) :
    ∃ before after, s = before ++ p ++ after ∧ before.count sep = i := by
  have hjoin : ∀ (parts : List (List α)) (i : ℕ), (∀ q ∈ parts, sep ∉ q) →
      parts[i]? = some p →
      ∃ before after, [sep].intercalate parts = before ++ p ++ after ∧
        before.count sep = i := by
    intro parts
    induction parts with
    | nil => simp
    | cons q parts ih =>
      intro i hsep hi
      cases i with
      | zero =>
        rw [List.getElem?_cons_zero, Option.some.injEq] at hi
        subst hi
        cases parts with
        | nil => exact ⟨[], [], by simp, rfl⟩
        | cons r parts =>
          exact ⟨[], sep :: [sep].intercalate (r :: parts), by
            rw [List.intercalate_cons_cons]; simp, rfl⟩
      | succ i =>
        rw [List.getElem?_cons_succ] at hi
        cases parts with
        | nil => simp at hi
        | cons r parts =>
          obtain ⟨before, after, heq, hcount⟩ :=
            ih i (fun q hq => hsep q (List.mem_cons_of_mem _ hq)) hi
          refine ⟨q ++ sep :: before, after, ?_, ?_⟩
          · rw [List.intercalate_cons_cons, heq]
            simp
          · rw [List.count_append, List.count_cons_self, hcount,
              List.count_eq_zero_of_not_mem (hsep q List.mem_cons_self), Nat.zero_add]
  have hplace := hjoin (s.splitOn sep) i (fun q hq => notMem_of_mem_splitOn hq) h
  rwa [List.intercalate_splitOn] at hplace

/-- The loop over the elements, with the chunk it fills and those that are full. -/
theorem flatten_toChunks_go {β : Type} (n : Nat) (l : List β) (chunk : Array β)
    (full : Array (List β)) :
    (List.toChunks.go n l chunk full).flatten = full.toList.flatten ++ (chunk.toList ++ l) := by
  induction l generalizing chunk full with
  | nil =>
      rw [List.toChunks.go]
      simp
  | cons x l ih =>
      rw [List.toChunks.go]
      split
      · rw [ih]
        simp
      · rw [ih]
        simp

/-- The chunks of a list make it up. -/
theorem flatten_toChunks {β : Type} (n : Nat) (l : List β) : (l.toChunks n).flatten = l := by
  rcases l with _ | ⟨x, l⟩
  · rfl
  · rcases n with _ | n
    · exact List.append_nil _
    · rw [List.toChunks, flatten_toChunks_go]
      · simp
      · exact fun h => absurd h (Nat.succ_ne_zero n)

/-! ### Splitting at a text -/

section Text

variable {α : Type} [BEq α] [LawfulBEq α]

/-- The parts of a list split at the places where a text stands, from the first on; the part that is
    read, and how many elements are passed over. -/
def splitTextFrom (sep : List α) : ℕ → List α → List α → List (List α)
  | _, piece, [] => [piece]
  | skip + 1, piece, _ :: rest => splitTextFrom sep skip piece rest
  | 0, piece, c :: rest =>
    if sep.isPrefixOf (c :: rest) then piece :: splitTextFrom sep (sep.length - 1) [] rest
    else splitTextFrom sep 0 (piece ++ [c]) rest

/-- The parts of a list split at a text. -/
def splitText (sep s : List α) : List (List α) := splitTextFrom sep 0 [] s

variable {sep : List α}

omit [LawfulBEq α] in
theorem splitTextFrom_skip (piece a s : List α) :
    splitTextFrom sep a.length piece (a ++ s) = splitTextFrom sep 0 piece s := by
  induction a with
  | nil => rfl
  | cons c a ih => exact ih

theorem splitTextFrom_sep (hsep : sep ≠ []) (piece s : List α) :
    splitTextFrom sep 0 piece (sep ++ s) = piece :: splitText sep s := by
  obtain ⟨c, rest, rfl⟩ := List.exists_cons_of_ne_nil hsep
  have hprefix : (c :: rest).isPrefixOf (c :: (rest ++ s)) = true :=
    List.isPrefixOf_iff_prefix.2 (List.prefix_append (c :: rest) s)
  rw [List.cons_append, splitTextFrom, if_pos hprefix]
  exact congrArg _ (splitTextFrom_skip [] rest s)

theorem splitTextFrom_cons {piece s : List α} {c : α} (h : ¬ sep <+: c :: s) :
    splitTextFrom sep 0 piece (c :: s) = splitTextFrom sep 0 (piece ++ [c]) s := by
  rw [splitTextFrom, if_neg (mt List.isPrefixOf_iff_prefix.1 h)]

omit [BEq α] [LawfulBEq α] in
/-- A text is empty, starts with the separator, or starts with another element. -/
theorem splitText_induction (hsep : sep ≠ []) {P : List α → Prop} (nil : P [])
    (found : ∀ s, P s → P (sep ++ s)) (other : ∀ c s, ¬ sep <+: c :: s → P s → P (c :: s))
    (s : List α) : P s := by
  induction hn : s.length using Nat.strong_induction_on generalizing s with
  | _ n ih =>
    cases s with
    | nil => exact nil
    | cons c s =>
      by_cases h : sep <+: c :: s
      · obtain ⟨t, ht⟩ := h
        rw [← ht]
        refine found t (ih t.length ?_ t rfl)
        have hlength := congrArg List.length ht
        have hpos := List.length_pos_iff.2 hsep
        rw [List.length_append] at hlength
        omega
      · refine other c s h (ih s.length ?_ s rfl)
        rw [List.length_cons] at hn
        omega

theorem splitTextFrom_eq (hsep : sep ≠ []) (piece s : List α) :
    splitTextFrom sep 0 piece s = (splitText sep s).modifyHead (piece ++ ·) := by
  unfold splitText
  induction s using splitText_induction hsep generalizing piece with
  | nil => simp [splitTextFrom]
  | found s ih =>
    rw [splitTextFrom_sep hsep, splitTextFrom_sep hsep]
    simp
  | other c s h ih =>
    rw [splitTextFrom_cons h, splitTextFrom_cons h, ih, ih ([] ++ [c]), List.modifyHead_modifyHead]
    congr 1
    funext t
    simp

theorem splitText_ne_nil (hsep : sep ≠ []) (s : List α) : splitText sep s ≠ [] := by
  induction s using splitText_induction hsep with
  | nil => simp [splitText, splitTextFrom]
  | found s ih =>
    unfold splitText
    rw [splitTextFrom_sep hsep]
    exact List.cons_ne_nil _ _
  | other c s h ih =>
    have hcons : splitText sep (c :: s) = (splitText sep s).modifyHead ([c] ++ ·) := by
      rw [← splitTextFrom_eq hsep]
      exact splitTextFrom_cons h
    rw [hcons]
    exact fun hnil => ih (List.modifyHead_eq_nil_iff.1 hnil)

/-- A text without the separator is one part. -/
theorem splitText_of_not_infix (hsep : sep ≠ []) {s : List α} (h : ¬ sep <:+: s) :
    splitText sep s = [s] := by
  induction s using splitText_induction hsep with
  | nil => rfl
  | found s => exact absurd (List.infix_append' [] sep s) h
  | other c s hprefix ih =>
    have hrest : ¬ sep <:+: s := fun hs => h (hs.trans (List.infix_cons (List.infix_refl s)))
    unfold splitText
    rw [splitTextFrom_cons hprefix, splitTextFrom_eq hsep, ih hrest]
    rfl

/-- The first part of a text with the separator is what stands before it. -/
theorem exists_head_splitText (hsep : sep ≠ []) {s : List α} (h : sep <:+: s) :
    ∃ first second rest t, splitText sep s = first :: second :: rest ∧ s = first ++ sep ++ t := by
  induction s using splitText_induction hsep with
  | nil => exact absurd (List.infix_nil.1 h) hsep
  | found s =>
    obtain ⟨second, rest, hrest⟩ := List.exists_cons_of_ne_nil (splitText_ne_nil hsep s)
    refine ⟨[], second, rest, s, ?_, rfl⟩
    unfold splitText at hrest ⊢
    rw [splitTextFrom_sep hsep]
    exact congrArg _ hrest
  | other c s hprefix ih =>
    obtain ⟨first, second, rest, t, hsplit, hs⟩ :=
      ih ((List.infix_cons_iff.1 h).resolve_left hprefix)
    refine ⟨c :: first, second, rest, t, ?_, by rw [hs]; rfl⟩
    unfold splitText
    rw [splitTextFrom_cons hprefix, splitTextFrom_eq hsep, hsplit]
    rfl

/-- No occurrence of the separator goes over an element that is not in it. -/
theorem splitTextFrom_append_cons (hsep : sep ≠ []) {x : α} (hx : x ∉ sep) (a b piece : List α) :
    ∃ init last, splitTextFrom sep 0 piece a = init ++ [last] ∧
      splitTextFrom sep 0 piece (a ++ x :: b) = init ++ splitTextFrom sep 0 (last ++ [x]) b := by
  induction a using splitText_induction hsep generalizing piece with
  | nil =>
    refine ⟨[], piece, rfl, splitTextFrom_cons ?_⟩
    rintro ⟨t, ht⟩
    obtain ⟨c, rest, rfl⟩ := List.exists_cons_of_ne_nil hsep
    exact hx ((List.cons.inj ht).1 ▸ List.mem_cons_self)
  | found a ih =>
    obtain ⟨init, last, ha, hab⟩ := ih []
    refine ⟨piece :: init, last, ?_, ?_⟩
    · rw [splitTextFrom_sep hsep]
      exact congrArg _ ha
    · rw [List.append_assoc, splitTextFrom_sep hsep]
      exact congrArg _ hab
  | other c a hprefix ih =>
    obtain ⟨init, last, ha, hab⟩ := ih (piece ++ [c])
    refine ⟨init, last, by rw [splitTextFrom_cons hprefix, ha], ?_⟩
    rw [List.cons_append, splitTextFrom_cons, hab]
    intro hlong
    rw [← List.cons_append] at hlong
    rcases Nat.lt_or_ge (c :: a).length sep.length with hlt | hge
    · have hthrough : (c :: a) ++ [x] <+: (c :: a) ++ x :: b :=
        (List.prefix_append_right_inj _).2 ⟨b, rfl⟩
      have hle : ((c :: a) ++ [x]).length ≤ sep.length := by simpa using Nat.succ_le_of_lt hlt
      have hin := List.prefix_of_prefix_length_le hthrough hlong hle
      exact hx (hin.subset (List.mem_append_right _ (List.mem_singleton_self x)))
    · exact hprefix (List.prefix_of_prefix_length_le hlong (List.prefix_append _ _) hge)

/-- A text without the separator goes to the part that is read. -/
theorem splitTextFrom_line (hsep : sep ≠ []) {x : α} (hx : x ∉ sep) {a : List α}
    (ha : ¬ sep <:+: a) (b piece : List α) :
    splitTextFrom sep 0 piece (a ++ x :: b) = splitTextFrom sep 0 (piece ++ a ++ [x]) b := by
  obtain ⟨init, last, hpiece, hrest⟩ := splitTextFrom_append_cons hsep hx a b piece
  rw [splitTextFrom_eq hsep, splitText_of_not_infix hsep ha] at hpiece
  obtain ⟨rfl, hlast⟩ : [] = init ∧ [piece ++ a] = [last] := List.append_inj' hpiece rfl
  obtain rfl := List.singleton_inj.1 hlast
  exact hrest

omit [LawfulBEq α] in
/-- The parts of a split are made of the list's elements. -/
theorem mem_of_mem_splitText {s p : List α} {c : α} (hp : p ∈ splitText sep s) (hc : c ∈ p) :
    c ∈ s := by
  have hfrom : ∀ (skip : ℕ) (piece s : List α), p ∈ splitTextFrom sep skip piece s →
      c ∈ piece ∨ c ∈ s := by
    intro skip piece s hp
    induction s generalizing skip piece with
    | nil =>
      cases skip <;> exact .inl (List.mem_singleton.1 hp ▸ hc)
    | cons x s ih =>
      cases skip with
      | succ skip => exact (ih skip piece hp).imp_right (List.mem_cons_of_mem x)
      | zero =>
        rw [splitTextFrom] at hp
        split at hp
        · rcases List.mem_cons.1 hp with rfl | hp
          · exact .inl hc
          · exact ((ih _ [] hp).resolve_left List.not_mem_nil) |> List.mem_cons_of_mem x |> .inr
        · rcases ih 0 (piece ++ [x]) hp with h | h
          · rcases List.mem_append.1 h with h | h
            · exact .inl h
            · exact .inr (List.mem_singleton.1 h ▸ List.mem_cons_self)
          · exact .inr (List.mem_cons_of_mem x h)
  exact (hfrom 0 [] s hp).resolve_left List.not_mem_nil

end Text

/-- What is removed at the end of a list lies behind an element that stays. -/
theorem rdropWhile_append_cons {β : Type*} {p : β → Bool} {x : β} (a b : List β)
    (hx : p x = false) : (a ++ x :: b).rdropWhile p = a ++ x :: b.rdropWhile p := by
  induction b using List.reverseRecOn with
  | nil =>
    rw [List.rdropWhile_nil]
    exact List.rdropWhile_concat_neg _ _ _ (by simp [hx])
  | append_singleton b y ih =>
    rw [← List.cons_append, ← List.append_assoc]
    by_cases hy : p y = true
    · rw [List.rdropWhile_concat_pos _ _ _ hy, List.rdropWhile_concat_pos _ _ _ hy, ih]
    · rw [List.rdropWhile_concat_neg _ _ _ hy, List.rdropWhile_concat_neg _ _ _ hy,
        List.append_assoc, List.cons_append]

end Spelunk.Lib
