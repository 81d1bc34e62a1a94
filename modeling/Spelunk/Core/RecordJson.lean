import Spelunk.Core.GitNotes

/-!
# A Record as One Line of JSON

The text the serializer writes for a record: an object with the fields in the order of
their declaration, compact separators, and no optional field that is absent. String
literals are those of the canonical text.

## Main definitions

* `recordJson`: The line of a record.

## Theorems

* `cleanLine_recordJson`: It is one line, whatever characters the fields have.
-/

namespace Spelunk

def jsonInt : Int → List Char
  | .ofNat n => Nat.toDigits 10 n
  | .negSucc n => '-' :: Nat.toDigits 10 (n + 1)

def jsonArray (l : List String) : List Char :=
  '[' :: [','].intercalate (l.map jsonString) ++ [']']

/-- A field with its name. -/
def jsonField (name : String) (value : List Char) : List Char :=
  jsonString name ++ ':' :: value

/-- A field that is left out when it has no value. -/
def jsonOption {α : Type*} (name : String) (value : α → List Char) : Option α → List (List Char)
  | none => []
  | some x => [jsonField name (value x)]

/-- The fields of a record as they are written. -/
def recordFields (r : NoteRecord) : List (List Char) :=
  [jsonField "schema_version" (Nat.toDigits 10 r.schemaVersion), jsonField "id" (jsonInt r.id),
    jsonField "kind" (jsonString r.kind), jsonField "title" (jsonString r.title),
    jsonField "body" (jsonString r.body), jsonField "tags" (jsonArray r.tags),
    jsonField "linked_files" (jsonArray r.linkedFiles),
    jsonField "created_at" (jsonInt r.createdAt), jsonField "status" (jsonString r.status)] ++
  jsonOption "source_ref" jsonString r.sourceRef ++ jsonOption "valid_at" jsonInt r.validAt ++
  jsonOption "invalid_at" jsonInt r.invalidAt ++
  jsonOption "superseded_by" jsonInt r.supersededBy ++
  jsonOption "remote_id" jsonString r.remoteId ++ jsonOption "entity_id" jsonString r.entityId ++
  jsonOption "superseded_by_entity_id" jsonString r.supersededByEntityId

/-- The line of a record. -/
def recordJson (r : NoteRecord) : String :=
  String.ofList ('\x7b' :: [','].intercalate (recordFields r) ++ ['\x7d'])

/-! ### One line -/

theorem isDigit_toDigits {n : ℕ} {c : Char} (h : c ∈ Nat.toDigits 10 n) : c.isDigit = true :=
  Nat.isDigit_of_mem_toDigits (by decide) (by decide) h

theorem newline_notMem_toDigits (n : ℕ) : '\n' ∉ Nat.toDigits 10 n :=
  fun h => absurd (isDigit_toDigits h) (by decide)

theorem newline_notMem_jsonInt (n : Int) : '\n' ∉ jsonInt n := by
  cases n with
  | ofNat n => exact newline_notMem_toDigits n
  | negSucc n => exact List.not_mem_cons_of_ne_of_not_mem (by decide) (newline_notMem_toDigits _)

theorem hexDigit_ne_newline {n : ℕ} (h : n < 16) : hexDigit n ≠ '\n' := by
  revert n
  decide

/-- Every control character is escaped. -/
theorem newline_notMem_escapeChar (c : Char) : '\n' ∉ escapeChar c := by
  unfold escapeChar
  by_cases hn : c = '\n'
  · subst hn
    decide
  have hlow : c.toNat / 16 < 16 ∨ ¬ c.toNat < 32 := by omega
  split_ifs with hquote hback hr ht h8 h12 h32
  all_goals try decide
  · have hhex := hexDigit_ne_newline (hlow.resolve_right (not_not.2 h32))
    have hhex' := hexDigit_ne_newline (Nat.mod_lt c.toNat (by decide : 0 < 16))
    simp only [List.mem_cons, List.not_mem_nil, or_false, not_or]
    exact ⟨by decide, by decide, by decide, by decide, hhex.symm, hhex'.symm⟩
  · exact fun h => hn (List.mem_singleton.1 h).symm

theorem newline_notMem_jsonString (s : String) : '\n' ∉ jsonString s := by
  simp only [jsonString, List.cons_append, List.mem_cons, List.mem_append, List.mem_flatMap,
    List.not_mem_nil, or_false, not_or]
  refine ⟨by decide, ?_, by decide⟩
  rintro ⟨c, -, h⟩
  exact newline_notMem_escapeChar c h

theorem mem_intercalate_comma {c : Char} {l : List (List Char)} (h : c ∈ [','].intercalate l) :
    c = ',' ∨ ∃ s ∈ l, c ∈ s := by
  induction l with
  | nil => cases h
  | cons s l ih =>
    cases l with
    | nil => exact Or.inr ⟨s, List.mem_singleton_self s, by simpa using h⟩
    | cons t l =>
      rw [List.intercalate_cons_cons, List.append_assoc, List.mem_append, List.mem_append] at h
      rcases h with h | h | h
      · exact Or.inr ⟨s, List.mem_cons_self, h⟩
      · exact Or.inl (List.mem_singleton.1 h)
      · rcases ih h with h | ⟨u, hu, hc⟩
        · exact Or.inl h
        · exact Or.inr ⟨u, List.mem_cons_of_mem s hu, hc⟩

theorem newline_notMem_intercalate {l : List (List Char)} (h : ∀ s ∈ l, '\n' ∉ s) :
    '\n' ∉ [','].intercalate l := by
  intro hmem
  rcases mem_intercalate_comma hmem with hc | ⟨s, hs, hc⟩
  · exact absurd hc (by decide)
  · exact h s hs hc

theorem newline_notMem_jsonArray (l : List String) : '\n' ∉ jsonArray l := by
  have hitems : '\n' ∉ [','].intercalate (l.map jsonString) := by
    refine newline_notMem_intercalate fun s hs => ?_
    obtain ⟨t, -, rfl⟩ := List.mem_map.1 hs
    exact newline_notMem_jsonString t
  simp only [jsonArray, List.cons_append, List.mem_cons, List.mem_append, List.not_mem_nil,
    or_false, not_or]
  exact ⟨by decide, hitems, by decide⟩

theorem newline_notMem_jsonField {name : String} {value : List Char} (h : '\n' ∉ value) :
    '\n' ∉ jsonField name value := by
  simp only [jsonField, List.mem_append, List.mem_cons, not_or]
  exact ⟨newline_notMem_jsonString name, by decide, h⟩

theorem newline_notMem_jsonOption {α : Type*} {name : String} {value : α → List Char}
    (h : ∀ x, '\n' ∉ value x) (o : Option α) : ∀ s ∈ jsonOption name value o, '\n' ∉ s := by
  intro s hs
  cases o with
  | none => cases hs
  | some x =>
    rw [List.mem_singleton.1 hs]
    exact newline_notMem_jsonField (h x)

theorem newline_notMem_recordFields (r : NoteRecord) : ∀ s ∈ recordFields r, '\n' ∉ s := by
  intro s hs
  simp only [recordFields, List.mem_append, List.mem_cons, List.not_mem_nil, or_false] at hs
  have hstring := newline_notMem_jsonString
  have hint := newline_notMem_jsonInt
  rcases hs with ((((((hs | hs) | hs) | hs) | hs) | hs) | hs) | hs
  · rcases hs with rfl | rfl | rfl | rfl | rfl | rfl | rfl | rfl | rfl
    all_goals apply newline_notMem_jsonField
    · exact newline_notMem_toDigits _
    · exact hint _
    · exact hstring _
    · exact hstring _
    · exact hstring _
    · exact newline_notMem_jsonArray _
    · exact newline_notMem_jsonArray _
    · exact hint _
    · exact hstring _
  · exact newline_notMem_jsonOption hstring _ s hs
  · exact newline_notMem_jsonOption hint _ s hs
  · exact newline_notMem_jsonOption hint _ s hs
  · exact newline_notMem_jsonOption hint _ s hs
  · exact newline_notMem_jsonOption hstring _ s hs
  · exact newline_notMem_jsonOption hstring _ s hs
  · exact newline_notMem_jsonOption hstring _ s hs

/-- A record is one line with nothing to trim, whatever characters its fields have. -/
theorem cleanLine_recordJson (r : NoteRecord) : CleanLine (recordJson r) := by
  unfold recordJson
  refine ⟨?_, ?_, ?_⟩
  · rw [String.toList_ofList]
    exact List.cons_ne_nil _ _
  · rw [String.toList_ofList]
    simp only [List.cons_append, List.mem_cons, List.mem_append, List.not_mem_nil, or_false, not_or]
    exact ⟨by decide, newline_notMem_intercalate (newline_notMem_recordFields r), by decide⟩
  · rw [String.toList_ofList, trim, List.cons_append, List.dropWhile_cons_of_neg (by decide),
      ← List.cons_append, List.rdropWhile_concat_neg _ _ _ (by decide)]

end Spelunk
