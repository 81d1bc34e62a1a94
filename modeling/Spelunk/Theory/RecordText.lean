import Spelunk.Core.RecordJson

/-!
# The Line of a Record Determines It

Every value of a record's line can be told from what follows it, and an optional field from
the fields behind it by its name. So a line is the line of one record, and a library that
reads lines back is possible.

## Main definitions

* `unescapeHead`: Reads the first character of an escaped text.
* `Delimited`: Values that are told from what follows them.
* `Tail`: What may stand behind an optional field.
* `recordJsonLibrary`: A library that reads back the lines of records.

## Theorems

* `unescapeHead_escapeChar`: An escaped character is read back.
* `jsonString_append_inj`: A literal is told from what follows it.
* `canonicalBytes_inj`: The canonical text determines the content.
* `canonicalIdentityLaw`: The bytes and the identity determine it.
* `delimited_toDigits`, `delimited_jsonInt`, `delimited_jsonString`, `delimited_jsonArray`:
  The values.
* `optionText_append_inj`: An optional field.
* `recordJson_injective`: The whole line.
-/

namespace Spelunk

/-! ### The Canonical Text

The text that is digested determines the content: an escaped character is read back
whatever follows it, so a string literal is told from what comes behind its closing
quotation mark, and the three literals of the text one after the other.
-/

/-- The value of a hexadecimal digit as the serializer writes it. -/
def hexValue (c : Char) : ℕ :=
  if c.toNat < 58 then c.toNat - 48 else c.toNat - 87

/-- The first character of an escaped text, and what is left of the text. -/
def unescapeHead : List Char → Option (Char × List Char)
  | [] => none
  | c :: rest =>
    if c ≠ '\\' then some (c, rest)
    else match rest with
      | 'n' :: rest => some ('\n', rest)
      | 'r' :: rest => some ('\r', rest)
      | 't' :: rest => some ('\t', rest)
      | 'b' :: rest => some (Char.ofNat 8, rest)
      | 'f' :: rest => some (Char.ofNat 12, rest)
      | 'u' :: '0' :: '0' :: a :: b :: rest => some (Char.ofNat (hexValue a * 16 + hexValue b), rest)
      | c :: rest => some (c, rest)
      | [] => none

theorem hexValue_hexDigit {n : ℕ} (h : n < 16) : hexValue (hexDigit n) = n := by
  revert n
  decide

/-- An escaped character is read back, whatever follows it. -/
theorem unescapeHead_escapeChar (c : Char) (rest : List Char) :
    unescapeHead (escapeChar c ++ rest) = some (c, rest) := by
  unfold escapeChar
  by_cases hquote : c = '"'
  · subst hquote; rfl
  rw [if_neg hquote]
  by_cases hback : c = '\\'
  · subst hback; rfl
  rw [if_neg hback]
  by_cases hn : c = '\n'
  · subst hn; rfl
  rw [if_neg hn]
  by_cases hr : c = '\r'
  · subst hr; rfl
  rw [if_neg hr]
  by_cases ht : c = '\t'
  · subst ht; rfl
  rw [if_neg ht]
  by_cases h8 : c.toNat = 8
  · rw [if_pos h8, ← Char.ofNat_toNat c, h8]; rfl
  rw [if_neg h8]
  by_cases h12 : c.toNat = 12
  · rw [if_pos h12, ← Char.ofNat_toNat c, h12]; rfl
  rw [if_neg h12]
  by_cases h32 : c.toNat < 32
  · rw [if_pos h32]
    have hvalue : hexValue (hexDigit (c.toNat / 16)) * 16 + hexValue (hexDigit (c.toNat % 16)) =
        c.toNat := by
      rw [hexValue_hexDigit (by omega), hexValue_hexDigit (by omega)]
      omega
    simp only [List.cons_append, List.nil_append, unescapeHead, ne_eq, not_true_eq_false, if_false,
      hvalue, Char.ofNat_toNat]
  · rw [if_neg h32]
    simp only [List.cons_append, List.nil_append, unescapeHead, ne_eq, hback, not_false_eq_true,
      if_true]

/-- No escape begins with a quotation mark. -/
theorem escapeChar_append_ne_quote (c : Char) (s rest : List Char) :
    escapeChar c ++ s ≠ '"' :: rest := by
  intro h
  have hread := unescapeHead_escapeChar c s
  rw [h] at hread
  have hc : c = '"' := by
    simp only [unescapeHead, ne_eq] at hread
    have := congrArg (Option.map Prod.fst) hread
    simpa using this.symm
  subst hc
  cases h

/-- A string literal is told from what follows it. -/
theorem jsonString_append_inj {s t : String} {r r' : List Char}
    (h : jsonString s ++ r = jsonString t ++ r') : s = t ∧ r = r' := by
  have key : ∀ (s t : List Char), s.flatMap escapeChar ++ '"' :: r = t.flatMap escapeChar ++ '"' :: r' →
      s = t ∧ r = r' := by
    intro s
    induction s with
    | nil =>
      intro t h
      cases t with
      | nil => exact ⟨rfl, (List.cons.inj h).2⟩
      | cons d t =>
        rw [List.flatMap_cons, List.append_assoc] at h
        exact absurd h.symm (escapeChar_append_ne_quote d _ r)
    | cons c s ih =>
      intro t h
      cases t with
      | nil =>
        rw [List.flatMap_cons, List.append_assoc] at h
        exact absurd h (escapeChar_append_ne_quote c _ r')
      | cons d t =>
        rw [List.flatMap_cons, List.flatMap_cons, List.append_assoc, List.append_assoc] at h
        have hread := unescapeHead_escapeChar c (s.flatMap escapeChar ++ '"' :: r)
        rw [h, unescapeHead_escapeChar, Option.some.injEq, Prod.mk.injEq] at hread
        obtain ⟨hst, hr⟩ := ih t hread.2.symm
        exact ⟨by rw [hread.1, hst], hr⟩
  simp only [jsonString, List.cons_append, List.append_assoc, List.nil_append,
    List.cons.injEq, true_and] at h
  obtain ⟨hst, hr⟩ := key _ _ h
  exact ⟨String.toList_inj.1 hst, hr⟩

/-- Literals between fixed texts are told apart. -/
theorem literals_inj {p q u v : List Char} {a b c a' b' c' : String}
    (h : p ++ jsonString a ++ q ++ jsonString b ++ u ++ jsonString c ++ v =
      p ++ jsonString a' ++ q ++ jsonString b' ++ u ++ jsonString c' ++ v) :
    a = a' ∧ b = b' ∧ c = c' := by
  simp only [List.append_assoc] at h
  obtain ⟨ha, h⟩ := jsonString_append_inj (List.append_cancel_left h)
  obtain ⟨hb, h⟩ := jsonString_append_inj (List.append_cancel_left h)
  obtain ⟨hc, -⟩ := jsonString_append_inj (List.append_cancel_left h)
  exact ⟨ha, hb, hc⟩

/-- The canonical text determines the content. -/
theorem canonicalBytes_inj {kind title body kind' title' body' : String}
    (h : canonicalBytes kind title body = canonicalBytes kind' title' body') :
    kind = kind' ∧ title = title' ∧ body = body' := by
  obtain ⟨hbody, hkind, htitle⟩ := literals_inj (String.ofList_injective h)
  exact ⟨hkind, htitle, hbody⟩

/-- The bytes that are digested are the same exactly for the same content; so, where the digest tells
    the two texts apart, is the identity. -/
theorem canonicalIdentityLaw [Sha256] (k₁ t₁ b₁ k₂ t₂ b₂ : String) :
    ((canonicalBytes k₁ t₁ b₁).toUTF8 = (canonicalBytes k₂ t₂ b₂).toUTF8 ↔
        k₁ = k₂ ∧ t₁ = t₂ ∧ b₁ = b₂) ∧
      (NoCollision [canonicalBytes k₁ t₁ b₁, canonicalBytes k₂ t₂ b₂] →
        (entityId k₁ t₁ b₁ = entityId k₂ t₂ b₂ ↔ k₁ = k₂ ∧ t₁ = t₂ ∧ b₁ = b₂)) := by
  have hsame : k₁ = k₂ ∧ t₁ = t₂ ∧ b₁ = b₂ → canonicalBytes k₁ t₁ b₁ = canonicalBytes k₂ t₂ b₂ := by
    rintro ⟨rfl, rfl, rfl⟩
    rfl
  refine ⟨⟨fun h => canonicalBytes_inj (String.toByteArray_inj.1 h), fun h => ?_⟩,
    fun hcollision => ⟨fun h => canonicalBytes_inj ?_, fun h => ?_⟩⟩
  · rw [hsame h]
  · exact hcollision _ List.mem_cons_self _ (List.mem_cons_of_mem _ (List.mem_singleton_self _)) h
  · rw [entityId, entityId, hsame h]

end Spelunk

namespace Spelunk

/-! ### Values -/

/-- A text that starts with no digit. -/
def Separated (r : List Char) : Prop :=
  ∃ c rest, r = c :: rest ∧ c.isDigit = false

/-- A value is told from what follows it. -/
def Delimited {α : Type*} (text : α → List Char) : Prop :=
  ∀ a b r r', Separated r → Separated r' → text a ++ r = text b ++ r' → a = b ∧ r = r'

theorem separated_comma (r : List Char) : Separated (',' :: r) := ⟨',', r, rfl, rfl⟩

theorem separated_brace (r : List Char) : Separated ('\x7d' :: r) := ⟨'\x7d', r, rfl, rfl⟩

theorem delimited_toDigits : Delimited (Nat.toDigits 10) := by
  have htake : ∀ n r, Separated r →
      (Nat.toDigits 10 n ++ r).takeWhile Char.isDigit = Nat.toDigits 10 n := by
    rintro n r ⟨c, rest, rfl, hc⟩
    rw [List.takeWhile_append_of_pos fun d hd => isDigit_toDigits hd,
      List.takeWhile_cons_of_neg (by rw [hc]; decide), List.append_nil]
  intro m n r r' hr hr' h
  have hdigits : Nat.toDigits 10 m = Nat.toDigits 10 n := by
    rw [← htake m r hr, h, htake n r' hr']
  refine ⟨?_, ?_⟩
  · rw [← Nat.ofDigitChars_ten_toDigits (n := m), hdigits, Nat.ofDigitChars_ten_toDigits]
  · rw [hdigits] at h
    exact List.append_cancel_left h

theorem toDigits_append_ne_minus (n : ℕ) (r s : List Char) : Nat.toDigits 10 n ++ r ≠ '-' :: s := by
  intro h
  cases hdigits : Nat.toDigits 10 n with
  | nil => exact Nat.toDigits_ne_nil hdigits
  | cons c l =>
    rw [hdigits] at h
    have hc : c.isDigit = true := isDigit_toDigits (n := n) (hdigits ▸ List.mem_cons_self)
    rw [(List.cons.inj h).1] at hc
    exact absurd hc (by decide)

theorem delimited_jsonInt : Delimited jsonInt := by
  intro m n r r' hr hr' h
  cases m with
  | ofNat m =>
    cases n with
    | ofNat n =>
      obtain ⟨rfl, hrest⟩ := delimited_toDigits m n r r' hr hr' h
      exact ⟨rfl, hrest⟩
    | negSucc n => exact absurd h (toDigits_append_ne_minus m r _)
  | negSucc m =>
    cases n with
    | ofNat n => exact absurd h.symm (toDigits_append_ne_minus n r' _)
    | negSucc n =>
      obtain ⟨hmn, hrest⟩ := delimited_toDigits (m + 1) (n + 1) r r' hr hr' (List.cons.inj h).2
      exact ⟨by rw [Nat.succ.inj hmn], hrest⟩

theorem delimited_jsonString : Delimited jsonString :=
  fun _ _ _ _ _ _ h => jsonString_append_inj h

/-- A separated list without its first element. -/
theorem intercalate_cons (a : List Char) (l : List (List Char)) :
    [','].intercalate (a :: l) = a ++ l.flatMap (',' :: ·) := by
  induction l generalizing a with
  | nil => simp
  | cons b l ih =>
    rw [List.intercalate_cons_cons, ih, List.flatMap_cons, List.append_assoc]
    rfl

theorem items_append_inj {l l' : List String} {r r' : List Char}
    (h : l.flatMap (fun s => ',' :: jsonString s) ++ ']' :: r =
      l'.flatMap (fun s => ',' :: jsonString s) ++ ']' :: r') : l = l' ∧ r = r' := by
  induction l generalizing l' with
  | nil =>
    cases l' with
    | nil => exact ⟨rfl, (List.cons.inj h).2⟩
    | cons t l' => exact absurd (List.cons.inj h).1 (by decide)
  | cons s l ih =>
    cases l' with
    | nil => exact absurd (List.cons.inj h).1 (by decide)
    | cons t l' =>
      rw [List.flatMap_cons, List.flatMap_cons, List.append_assoc, List.append_assoc] at h
      obtain ⟨rfl, hrest⟩ := jsonString_append_inj (List.cons.inj h).2
      obtain ⟨rfl, hr⟩ := ih hrest
      exact ⟨rfl, hr⟩

theorem delimited_jsonArray : Delimited jsonArray := by
  intro l l' r r' _ _ h
  have hitems : ∀ (s : String) (l : List String), [','].intercalate ((s :: l).map jsonString) =
      jsonString s ++ l.flatMap fun s => ',' :: jsonString s := by
    intro s l
    rw [List.map_cons, intercalate_cons, List.flatMap_map]
  have hbody : [','].intercalate (l.map jsonString) ++ ']' :: r =
      [','].intercalate (l'.map jsonString) ++ ']' :: r' := by
    simpa only [jsonArray, List.cons_append, List.append_assoc, List.nil_append, List.cons.injEq,
      true_and] using h
  cases l with
  | nil =>
    cases l' with
    | nil => exact ⟨rfl, (List.cons.inj hbody).2⟩
    | cons t l' =>
      rw [hitems] at hbody
      exact absurd (List.cons.inj hbody).1 (by decide)
  | cons s l =>
    cases l' with
    | nil =>
      rw [hitems] at hbody
      exact absurd (List.cons.inj hbody).1 (by decide)
    | cons t l' =>
      rw [hitems, hitems, List.append_assoc, List.append_assoc] at hbody
      obtain ⟨rfl, hrest⟩ := jsonString_append_inj hbody
      obtain ⟨rfl, hr⟩ := items_append_inj hrest
      exact ⟨rfl, hr⟩

/-! ### Fields -/

theorem jsonField_append_inj {α : Type*} {text : α → List Char} (htext : Delimited text)
    {name : String} {a b : α} {r r' : List Char} (hr : Separated r) (hr' : Separated r')
    (h : jsonField name (text a) ++ r = jsonField name (text b) ++ r') : a = b ∧ r = r' := by
  rw [jsonField, jsonField, List.append_assoc, List.append_assoc] at h
  exact htext a b r r' hr hr' (List.cons.inj (List.append_cancel_left h)).2

/-- An optional field behind others. -/
def optionText {α : Type*} (name : String) (text : α → List Char) (o : Option α) : List Char :=
  (jsonOption name text o).flatMap (',' :: ·)

/-- What may stand behind an optional field: other fields, of these names, and the end. -/
structure Tail (names : List String) (t : List Char) : Prop where
  separated : Separated t
  named : ∀ name rest, t = ',' :: (jsonString name ++ rest) → name ∈ names

theorem Tail.nil : Tail [] ['\x7d'] :=
  ⟨separated_brace [], fun _ _ h => absurd (List.cons.inj h).1 (by decide)⟩

theorem Tail.option {α : Type*} {names : List String} {t : List Char} (h : Tail names t)
    (name : String) (text : α → List Char) (o : Option α) :
    Tail (name :: names) (optionText name text o ++ t) := by
  cases o with
  | none => exact ⟨h.separated, fun n rest ht => List.mem_cons_of_mem _ (h.named n rest ht)⟩
  | some a =>
    have htext : optionText name text (some a) ++ t =
        ',' :: (jsonString name ++ (':' :: text a ++ t)) := by
      simp [optionText, jsonOption, jsonField]
    rw [htext]
    refine ⟨separated_comma _, fun n rest hn => ?_⟩
    rw [(jsonString_append_inj (List.cons.inj hn).2).1]
    exact List.mem_cons_self

/-- An optional field is told from what stands behind it. -/
theorem optionText_append_inj {α : Type*} {text : α → List Char} (htext : Delimited text)
    {name : String} {names : List String} (hname : name ∉ names) {o o' : Option α}
    {t t' : List Char} (ht : Tail names t) (ht' : Tail names t')
    (h : optionText name text o ++ t = optionText name text o' ++ t') : o = o' ∧ t = t' := by
  have hsome : ∀ (a : α) (t : List Char), optionText name text (some a) ++ t =
      ',' :: (jsonField name (text a) ++ t) := by
    intro a t
    simp [optionText, jsonOption]
  have hfield : ∀ (a : α) (t : List Char), ',' :: (jsonField name (text a) ++ t) =
      ',' :: (jsonString name ++ (':' :: text a ++ t)) := by
    intro a t
    simp [jsonField]
  cases o with
  | none =>
    cases o' with
    | none => exact ⟨rfl, h⟩
    | some b =>
      rw [hsome, hfield] at h
      exact absurd (ht.named name _ h) hname
  | some a =>
    cases o' with
    | none =>
      rw [hsome, hfield] at h
      exact absurd (ht'.named name _ h.symm) hname
    | some b =>
      rw [hsome, hsome] at h
      obtain ⟨rfl, hrest⟩ :=
        jsonField_append_inj htext ht.separated ht'.separated (List.cons.inj h).2
      exact ⟨rfl, hrest⟩

/-! ### Records -/

/-- The optional fields of a record and the end of its line. -/
def recordTail (r : NoteRecord) : List Char :=
  optionText "source_ref" jsonString r.sourceRef ++ (optionText "valid_at" jsonInt r.validAt ++
    (optionText "invalid_at" jsonInt r.invalidAt ++
      (optionText "superseded_by" jsonInt r.supersededBy ++
        (optionText "remote_id" jsonString r.remoteId ++
          (optionText "entity_id" jsonString r.entityId ++
            (optionText "superseded_by_entity_id" jsonString r.supersededByEntityId ++
              ['\x7d']))))))

/-- The line of a record, field by field. -/
theorem toList_recordJson (r : NoteRecord) : (recordJson r).toList =
    '\x7b' :: (jsonField "schema_version" (Nat.toDigits 10 r.schemaVersion) ++
      ',' :: (jsonField "id" (jsonInt r.id) ++ ',' :: (jsonField "kind" (jsonString r.kind) ++
      ',' :: (jsonField "title" (jsonString r.title) ++
      ',' :: (jsonField "body" (jsonString r.body) ++ ',' :: (jsonField "tags" (jsonArray r.tags) ++
      ',' :: (jsonField "linked_files" (jsonArray r.linkedFiles) ++
      ',' :: (jsonField "created_at" (jsonInt r.createdAt) ++
      ',' :: (jsonField "status" (jsonString r.status) ++ recordTail r))))))))) := by
  rw [recordJson, String.toList_ofList, recordFields]
  simp only [List.cons_append, List.nil_append, intercalate_cons, List.flatMap_cons,
    List.flatMap_append, List.append_assoc, recordTail, optionText]

theorem recordTail_inj {r r' : NoteRecord} (h : recordTail r = recordTail r') :
    r.sourceRef = r'.sourceRef ∧ r.validAt = r'.validAt ∧ r.invalidAt = r'.invalidAt ∧
      r.supersededBy = r'.supersededBy ∧ r.remoteId = r'.remoteId ∧ r.entityId = r'.entityId ∧
        r.supersededByEntityId = r'.supersededByEntityId := by
  have h₁ := fun r : NoteRecord =>
    Tail.nil.option "superseded_by_entity_id" jsonString r.supersededByEntityId
  have h₂ := fun r : NoteRecord => (h₁ r).option "entity_id" jsonString r.entityId
  have h₃ := fun r : NoteRecord => (h₂ r).option "remote_id" jsonString r.remoteId
  have h₄ := fun r : NoteRecord => (h₃ r).option "superseded_by" jsonInt r.supersededBy
  have h₅ := fun r : NoteRecord => (h₄ r).option "invalid_at" jsonInt r.invalidAt
  have h₆ := fun r : NoteRecord => (h₅ r).option "valid_at" jsonInt r.validAt
  have hint := delimited_jsonInt
  have hstring := delimited_jsonString
  obtain ⟨hsource, h⟩ := optionText_append_inj hstring (by decide) (h₆ r) (h₆ r') h
  obtain ⟨hvalid, h⟩ := optionText_append_inj hint (by decide) (h₅ r) (h₅ r') h
  obtain ⟨hinvalid, h⟩ := optionText_append_inj hint (by decide) (h₄ r) (h₄ r') h
  obtain ⟨hby, h⟩ := optionText_append_inj hint (by decide) (h₃ r) (h₃ r') h
  obtain ⟨hremote, h⟩ := optionText_append_inj hstring (by decide) (h₂ r) (h₂ r') h
  obtain ⟨hentity, h⟩ := optionText_append_inj hstring (by decide) (h₁ r) (h₁ r') h
  obtain ⟨hsuccessor, -⟩ := optionText_append_inj hstring (by decide) Tail.nil Tail.nil h
  exact ⟨hsource, hvalid, hinvalid, hby, hremote, hentity, hsuccessor⟩

theorem separated_recordTail (r : NoteRecord) : Separated (recordTail r) :=
  (((((((Tail.nil.option _ _ _).option _ _ _).option _ _ _).option _ _ _).option _ _ _).option
    _ _ _).option _ _ _).separated

/-- The line of a record determines it. -/
theorem recordJson_injective : Function.Injective recordJson := by
  intro r r' h
  have hcomma := separated_comma
  have hint := delimited_jsonInt
  have hstring := delimited_jsonString
  have hlist := delimited_jsonArray
  replace h := congrArg String.toList h
  rw [toList_recordJson, toList_recordJson] at h
  obtain ⟨hschema, h⟩ :=
    jsonField_append_inj delimited_toDigits (hcomma _) (hcomma _) (List.cons.inj h).2
  obtain ⟨hid, h⟩ := jsonField_append_inj hint (hcomma _) (hcomma _) (List.cons.inj h).2
  obtain ⟨hkind, h⟩ := jsonField_append_inj hstring (hcomma _) (hcomma _) (List.cons.inj h).2
  obtain ⟨htitle, h⟩ := jsonField_append_inj hstring (hcomma _) (hcomma _) (List.cons.inj h).2
  obtain ⟨hbody, h⟩ := jsonField_append_inj hstring (hcomma _) (hcomma _) (List.cons.inj h).2
  obtain ⟨htags, h⟩ := jsonField_append_inj hlist (hcomma _) (hcomma _) (List.cons.inj h).2
  obtain ⟨hfiles, h⟩ := jsonField_append_inj hlist (hcomma _) (hcomma _) (List.cons.inj h).2
  obtain ⟨hcreated, h⟩ := jsonField_append_inj hint (hcomma _) (hcomma _) (List.cons.inj h).2
  obtain ⟨hstatus, h⟩ := jsonField_append_inj hstring (separated_recordTail r)
    (separated_recordTail r') (List.cons.inj h).2
  obtain ⟨hsource, hvalid, hinvalid, hby, hremote, hentity, hsuccessor⟩ := recordTail_inj h
  exact NoteRecord.ext hschema hid hkind htitle hbody htags hfiles hcreated hstatus hsource hvalid
    hinvalid hby hremote hentity hsuccessor

open Classical in
/-- A library that writes records as they are written, and reads back the lines of records. -/
@[reducible] noncomputable def recordJsonLibrary : NoteJson where
  toLine := recordJson
  ofLine := fun line => if h : ∃ r, recordJson r = line then some h.choose else none

theorem ofLine_recordJson (r : NoteRecord) :
    recordJsonLibrary.ofLine (recordJson r) = some r := by
  have h : ∃ r', recordJson r' = recordJson r := ⟨r, rfl⟩
  exact (dif_pos h).trans (congrArg some (recordJson_injective h.choose_spec))

end Spelunk
