import Mathlib.Data.List.Forall2
import Spelunk.Core.ExportDump

/-!
# The Dump Format

What `verify_rendered` accepts, in one statement (`verifyRendered_ok_iff`): a header
line, lines that are records, a footer line last, and a footer that agrees with them.
A rendered dump has that shape, so it reads back; and whatever has it with the same
footer has the same digests, so, where the digest has no collision on the lines
involved, the same lines.

## Main definitions

* `DumpRecord`: A record as the reader sees it.
* `Accepted`: What the lines of an accepted text look like.
* `PrintsDump`: What is relied on of the JSON library, on the lines of one dump.

## Theorems

* `lines_withLineEnds`: The lines of a text of lines.
* `verifyRendered_ok_iff`: What is accepted.
* `verifyRendered_render`: A rendered dump reads back.
* `eq_of_accepted`: The lines of an accepted text with the footer of a dump.
* `dumpFormatLaw`: The law of the format.
-/

namespace Spelunk

open List (Forall₂)

/-! ### Lines -/

/-- A text that is one line: it has no line end in it and is not taken to end in half of one. -/
def OneLine (line : String) : Prop :=
  '\n' ∉ line.toList ∧ line.toList.getLast? ≠ some '\r'

instance (line : String) : Decidable (OneLine line) := inferInstanceAs (Decidable (_ ∧ _))

theorem lines_cons {line : String} (h : OneLine line) (rest : String) :
    lines (String.ofList (line.toList ++ '\n' :: rest.toList)) = line :: lines rest := by
  have hparts : (line.toList ++ '\n' :: rest.toList).splitOn '\n' =
      line.toList :: rest.toList.splitOn '\n' := by
    rw [List.splitOn_append_cons_self, List.splitOn_eq_singleton h.1]
    rfl
  have hne : rest.toList.splitOn '\n' ≠ [] := List.splitOn_ne_nil _ _
  have hstrip : stripCarriageReturn line.toList = line.toList := if_neg h.2
  simp only [lines, String.toList_ofList, hparts, List.dropLast_cons_of_ne_nil hne,
    List.getLast?_cons_of_ne_nil hne, List.map_cons, hstrip]
  simp

theorem withLineEnds_cons (line : String) (rest : List String) :
    withLineEnds (line :: rest) =
      String.ofList (line.toList ++ '\n' :: (withLineEnds rest).toList) := by
  unfold withLineEnds
  rw [List.flatMap_cons, String.toList_ofList, List.append_assoc]
  rfl

/-- The lines of a text of lines, whatever follows it. -/
theorem lines_withLineEnds {ls : List String} (h : ∀ line ∈ ls, OneLine line) (s : String) :
    lines (withLineEnds ls ++ s) = ls ++ lines s := by
  induction ls with
  | nil => simp [withLineEnds]
  | cons line rest ih =>
    have htail : String.ofList (line.toList ++ '\n' :: (withLineEnds rest).toList) ++ s =
        String.ofList (line.toList ++ '\n' :: (withLineEnds rest ++ s).toList) := by
      apply String.toList_inj.1
      simp
    rw [withLineEnds_cons, htail, lines_cons (h line List.mem_cons_self),
      ih fun l hl => h l (List.mem_cons_of_mem line hl), List.cons_append]

theorem lines_empty : lines "" = [] := rfl

/-- A text that is not empty has a line. -/
theorem lines_ne_nil {s : String} (h : s ≠ "") : lines s ≠ [] := by
  have hlist : s.toList ≠ [] := fun he =>
    h (String.toList_inj.1 (he.trans String.toList_empty.symm))
  have hne : s.toList.splitOn '\n' ≠ [] := List.splitOn_ne_nil _ _
  intro hnil
  simp only [lines, List.map_eq_nil_iff, List.append_eq_nil_iff] at hnil
  obtain ⟨part, hpart⟩ : ∃ part, s.toList.splitOn '\n' = [part] := by
    obtain ⟨front, part, hparts⟩ := (List.eq_nil_or_concat' _).resolve_left hne
    rw [hparts, List.dropLast_concat] at hnil
    exact ⟨part, by rw [hparts, hnil.1]; rfl⟩
  have hjoin : ['\n'].intercalate (s.toList.splitOn '\n') = s.toList :=
    List.intercalate_splitOn '\n'
  cases part with
  | nil =>
    rw [hpart] at hjoin
    exact hlist hjoin.symm
  | cons c cs =>
    rw [hpart] at hnil
    simp at hnil

/-! ### What a line is -/

/-- A record as the reader sees it. -/
inductive DumpRecord where
  | entity (kind reference : String)
  | relationship (kind source target : String)
deriving DecidableEq

namespace DumpRecord

def ofValue (v : JsonValue) : Option DumpRecord :=
  match v.getStr "record" with
  | some "entity" =>
      (v.getStr "type").bind fun t => (v.getStr "ref").map fun r => .entity t r
  | some "relationship" =>
      (v.getStr "type").bind fun t => (v.getStr "from").bind fun source =>
        (v.getStr "to").map fun target => .relationship t source target
  | _ => none

/-- The reference of an entity. -/
def ref : DumpRecord → Option String
  | .entity _ r => some r
  | .relationship .. => none

/-- The endpoints of a relationship. -/
def ends : DumpRecord → List String
  | .entity .. => []
  | .relationship _ source target => [source, target]

/-- The counts with one record more. -/
def count (c : Counts) : DumpRecord → Counts
  | .entity t _ => c.addEntity t
  | .relationship t _ _ => c.addRelationship t

end DumpRecord

section Reader

variable [Sha256] (codec : DumpCodec)

/-- The record of a line. -/
def recordOf (line : String) : Option DumpRecord :=
  (codec.value line).toOption.bind DumpRecord.ofValue

/-- A line is read as a footer. -/
def IsFooter (line : String) (footer : DumpFooter) : Prop :=
  (∃ v, codec.value line = .ok v ∧ v.getStr "record" = some "footer") ∧
    codec.footer line = .ok footer

/-- What has been gathered with one record more. -/
def DumpReading.add (s : DumpReading) (line : String) (r : DumpRecord) : DumpReading where
  perRecord := s.perRecord ++ [Sha256.hexDigest line]
  counts := r.count s.counts
  footer := s.footer
  refs := s.refs ++ r.ref.toList
  endpoints := s.endpoints ++ r.ends

variable {codec}

omit [Sha256] in
theorem recordOf_footer {line : String} {footer : DumpFooter} (h : IsFooter codec line footer) :
    recordOf codec line = none := by
  obtain ⟨⟨v, hv, hrecord⟩, -⟩ := h
  simp [recordOf, hv, Except.toOption, DumpRecord.ofValue, hrecord]

/-- One line, before the footer: it is the footer or a record. -/
theorem readRecord_ok_iff {s t : DumpReading} (hs : s.footer = none) {line : String} :
    readRecord codec s line = .ok t ↔
      (∃ footer, IsFooter codec line footer ∧ t = { s with footer := some footer }) ∨
        ∃ r, recordOf codec line = some r ∧ t = s.add line r := by
  unfold readRecord IsFooter recordOf
  rw [hs]
  simp only [Option.isSome_none, Bool.false_eq_true, if_false]
  cases hv : codec.value line with
  | error e => simp [Except.toOption]
  | ok v =>
    simp only [Except.toOption, Option.bind_some, Except.ok.injEq, exists_eq_left',
      DumpRecord.ofValue]
    split
    · next hrecord =>
      cases hf : codec.footer line with
      | error e => simp [hrecord]
      | ok footer => simp [hrecord, eq_comm]
    · next hrecord =>
      cases v.getStr "type" with
      | none => simp [hrecord]
      | some k =>
        cases v.getStr "ref" with
        | none => simp [hrecord]
        | some r =>
          simp [hrecord, DumpReading.add, DumpRecord.count, DumpRecord.ref,
            DumpRecord.ends, hs, eq_comm]
    · next hrecord =>
      cases v.getStr "type" with
      | none => simp [hrecord]
      | some k =>
        cases v.getStr "from" with
        | none => simp [hrecord]
        | some source =>
          cases v.getStr "to" with
          | none => simp [hrecord]
          | some target =>
            simp [hrecord, DumpReading.add, DumpRecord.count, DumpRecord.ref,
              DumpRecord.ends, hs, eq_comm]
    · next h₁ h₂ h₃ =>
      constructor
      · intro h
        exact absurd h (by simp)
      · rintro (⟨footer, ⟨hrecord, -⟩, -⟩ | ⟨r, hr, -⟩)
        · exact absurd hrecord h₁
        · split at hr
          · next hrecord => exact absurd hrecord h₂
          · next hrecord => exact absurd hrecord h₃
          · exact absurd hr (by simp)

/-- What has been gathered after lines that are records. -/
def DumpReading.addAll (s : DumpReading) : List String → List DumpRecord → DumpReading
  | line :: ls, r :: rs => (s.add line r).addAll ls rs
  | _, _ => s

theorem DumpReading.addAll_eq (s : DumpReading) {ls : List String} {rs : List DumpRecord}
    (h : ls.length = rs.length) : s.addAll ls rs =
      ⟨s.perRecord ++ ls.map Sha256.hexDigest, rs.foldl DumpRecord.count s.counts, s.footer,
        s.refs ++ rs.filterMap DumpRecord.ref, s.endpoints ++ rs.flatMap DumpRecord.ends⟩ := by
  induction ls generalizing s rs with
  | nil =>
    have hnil : rs = [] := List.eq_nil_of_length_eq_zero h.symm
    subst hnil
    simp [DumpReading.addAll]
  | cons line ls ih =>
    cases rs with
    | nil => exact absurd h (by simp)
    | cons r rs =>
      rw [DumpReading.addAll, ih _ (Nat.succ.inj h)]
      cases hr : r.ref <;> simp [DumpReading.add, hr]

/-- The lines after the header, up to a footer: records and the footer last. -/
theorem readRecords_ok_iff {s t : DumpReading} {footer : DumpFooter} (hs : s.footer = none)
    (ht : t.footer = some footer) {ls : List String} :
    readRecords codec s ls = .ok t ↔ ∃ recs line rs, ls = recs ++ [line] ∧
      Forall₂ (fun line r => recordOf codec line = some r) recs rs ∧ IsFooter codec line footer ∧
        t = { s.addAll recs rs with footer := some footer } := by
  induction ls generalizing s with
  | nil =>
    simp only [readRecords, Except.ok.injEq]
    constructor
    · rintro rfl
      rw [hs] at ht
      exact absurd ht (by simp)
    · rintro ⟨recs, line, rs, h, -⟩
      exact absurd h (by simp)
  | cons line rest ih =>
    simp only [readRecords]
    constructor
    · intro h
      cases hone : readRecord codec s line with
      | error e => simp [hone] at h
      | ok s' =>
        simp only [hone] at h
        rcases (readRecord_ok_iff hs).1 hone with ⟨f, hfooter, rfl⟩ | ⟨r, hr, rfl⟩
        · cases rest with
          | nil =>
            simp only [readRecords, Except.ok.injEq] at h
            subst h
            obtain rfl : f = footer := Option.some.inj ht
            exact ⟨[], line, [], rfl, .nil, hfooter, rfl⟩
          | cons next rest => simp [readRecords, readRecord] at h
        · obtain ⟨recs, last, rs, rfl, hall, hfooter, rfl⟩ := (ih (s := s.add line r) hs).1 h
          exact ⟨line :: recs, last, r :: rs, rfl, .cons hr hall, hfooter, rfl⟩
    · rintro ⟨recs, last, rs, hls, hall, hfooter, rfl⟩
      cases recs with
      | nil =>
        obtain ⟨rfl, rfl⟩ := List.cons.inj hls
        cases hall
        rw [(readRecord_ok_iff hs).2 (.inl ⟨footer, hfooter, rfl⟩)]
        rfl
      | cons first recs =>
        obtain ⟨rfl, rfl⟩ := List.cons.inj hls
        cases hall with
        | @cons _ r _ rs hr hall =>
          rw [(readRecord_ok_iff hs).2 (.inr ⟨r, hr, rfl⟩)]
          exact (ih (s := s.add line r) hs).2 ⟨recs, last, rs, rfl, hall, hfooter, rfl⟩

omit [Sha256] in
/-- No reference stands twice. -/
theorem firstShared_eq_none_iff {seen refs : List String} :
    firstShared seen refs = none ↔ refs.Nodup ∧ ∀ r ∈ refs, r ∉ seen := by
  induction refs generalizing seen with
  | nil => simp [firstShared]
  | cons r refs ih =>
    simp only [firstShared]
    by_cases hr : r ∈ seen
    · rw [if_pos hr]
      exact ⟨fun h => absurd h (by simp), fun h => absurd hr (h.2 r List.mem_cons_self)⟩
    · rw [if_neg hr, ih, List.nodup_cons]
      constructor
      · rintro ⟨hnodup, hseen⟩
        refine ⟨⟨fun hmem => hseen r hmem List.mem_cons_self, hnodup⟩, fun q hq => ?_⟩
        rcases List.mem_cons.1 hq with rfl | hq
        · exact hr
        · exact fun hmem => hseen q hq (List.mem_cons_of_mem r hmem)
      · rintro ⟨⟨hnot, hnodup⟩, hseen⟩
        refine ⟨hnodup, fun q hq hmem => ?_⟩
        rcases List.mem_cons.1 hmem with rfl | hmem
        · exact hnot hq
        · exact hseen q (List.mem_cons_of_mem r hq) hmem

variable (codec) in
/-- What the lines of an accepted text look like. -/
structure Accepted (headerLine : String) (recs : List String) (rs : List DumpRecord)
    (footerLine : String) (footer : DumpFooter) : Prop where
  header : checkHeader codec headerLine = .ok ()
  records : Forall₂ (fun line r => recordOf codec line = some r) recs rs
  last : IsFooter codec footerLine footer
  counts : footer.counts = rs.foldl DumpRecord.count .zero
  digest : footer.digest = finishDigest ((headerLine :: recs).map Sha256.hexDigest)
  refs : (rs.filterMap DumpRecord.ref).Nodup
  ends : ∀ r ∈ rs.flatMap DumpRecord.ends, r ∈ rs.filterMap DumpRecord.ref

/-- What is accepted. -/
theorem verifyRendered_ok_iff {text : String} {readBack : ReadBack} :
    verifyRendered codec text = .ok readBack ↔
      ∃ headerLine recs rs footerLine footer,
        lines text = headerLine :: (recs ++ [footerLine]) ∧
        Accepted codec headerLine recs rs footerLine footer ∧
        readBack = ⟨(headerLine :: recs).map Sha256.hexDigest, footer.counts⟩ := by
  have hcheck : ∀ {s : DumpReading} {footer : DumpFooter}, s.footer = some footer →
      (checkReading s = .ok readBack ↔ footer.counts = s.counts ∧
        footer.digest = finishDigest s.perRecord ∧ s.refs.Nodup ∧ (∀ r ∈ s.endpoints, r ∈ s.refs) ∧
          readBack = ⟨s.perRecord, s.counts⟩) := by
    intro s footer hs
    unfold checkReading
    rw [hs]
    simp only
    by_cases hcounts : footer.counts = s.counts
    · rw [if_neg (not_not.2 hcounts)]
      by_cases hdigest : footer.digest = finishDigest s.perRecord
      · rw [if_neg (not_not.2 hdigest)]
        cases hshared : firstShared [] s.refs with
        | some r =>
          refine ⟨fun h => absurd h (by simp), fun h => ?_⟩
          rw [firstShared_eq_none_iff.2 ⟨h.2.2.1, fun _ _ => List.not_mem_nil⟩] at hshared
          exact absurd hshared (by simp)
        | none =>
          have hnodup := (firstShared_eq_none_iff.1 hshared).1
          cases hfind : s.endpoints.find? (· ∉ s.refs) with
          | some r =>
            refine ⟨fun h => absurd h (by simp), fun h => ?_⟩
            have hmem := List.mem_of_find?_eq_some hfind
            have hnot := List.find?_some hfind
            exact absurd (h.2.2.2.1 r hmem) (of_decide_eq_true hnot)
          | none =>
            have hall : ∀ r ∈ s.endpoints, r ∈ s.refs := by
              intro r hr
              have := List.find?_eq_none.1 hfind r hr
              simpa using this
            simp only [Except.ok.injEq, hcounts, hdigest, hnodup, true_and]
            exact ⟨fun h => ⟨hall, h.symm⟩, fun h => h.2.symm⟩
      · rw [if_pos hdigest]
        exact ⟨fun h => absurd h (by simp), fun h => absurd h.2.1 hdigest⟩
    · rw [if_pos hcounts]
      exact ⟨fun h => absurd h (by simp), fun h => absurd h.1 hcounts⟩
  unfold verifyRendered
  constructor
  · intro h
    cases hl : lines text with
    | nil => simp [hl] at h
    | cons headerLine rest =>
      simp only [hl] at h
      cases hh : checkHeader codec headerLine with
      | error e => simp [hh] at h
      | ok u =>
        simp only [hh] at h
        cases hr : readRecords codec ⟨[Sha256.hexDigest headerLine], .zero, none, [], []⟩ rest with
        | error e => simp [hr] at h
        | ok s =>
          simp only [hr] at h
          cases hf : s.footer with
          | none => simp [checkReading, hf] at h
          | some footer =>
            obtain ⟨hcounts, hdigest, hrefs, hends, rfl⟩ := (hcheck hf).1 h
            obtain ⟨recs, line, rs, rfl, hall, hfooter, rfl⟩ := (readRecords_ok_iff rfl hf).1 hr
            rw [DumpReading.addAll_eq _ hall.length_eq] at hcounts hdigest hrefs hends ⊢
            simp only [List.nil_append, List.singleton_append] at hcounts hdigest hrefs hends ⊢
            exact ⟨headerLine, recs, rs, line, footer, rfl,
              ⟨hh, hall, hfooter, hcounts, hdigest, hrefs, hends⟩, by rw [hcounts]; rfl⟩
  · rintro ⟨headerLine, recs, rs, footerLine, footer, hl, hacc, rfl⟩
    let start : DumpReading := ⟨[Sha256.hexDigest headerLine], .zero, none, [], []⟩
    have hread : readRecords codec start (recs ++ [footerLine]) =
        .ok { start.addAll recs rs with footer := some footer } :=
      (readRecords_ok_iff rfl rfl).2
        ⟨recs, footerLine, rs, rfl, hacc.records, hacc.last, rfl⟩
    simp only [start] at hread
    simp only [hl, hacc.header, hread]
    rw [hcheck rfl]
    rw [DumpReading.addAll_eq _ hacc.records.length_eq]
    simp only [List.nil_append, List.singleton_append]
    exact ⟨hacc.counts, hacc.digest, hacc.refs, hacc.ends, by rw [hacc.counts]; rfl⟩

end Reader

/-! ### A rendered dump -/

/-- What is relied on of the JSON library, on the lines of one dump: what is printed is one line and
    is read as what was printed, and the footer is not read as a header, having none of its
    members. -/
structure PrintsDump [Sha256] (codec : DumpCodec) (d : Dump) (generatedAt : ℤ) : Prop where
  recordLine : ∀ line ∈ d.recordLines codec generatedAt, OneLine line
  footerLine : OneLine (codec.print (d.footer codec generatedAt).toJson)
  header : codec.header (codec.print (DumpHeader.new generatedAt).toJson) =
    .ok (DumpHeader.new generatedAt)
  value : ∀ v ∈ d.recordValues, codec.value (codec.print v) = .ok v
  footerValue : codec.value (codec.print (d.footer codec generatedAt).toJson) =
    .ok (d.footer codec generatedAt).toJson
  footer : codec.footer (codec.print (d.footer codec generatedAt).toJson) =
    .ok (d.footer codec generatedAt)
  footerNoHeader : ∀ header,
    codec.header (codec.print (d.footer codec generatedAt).toJson) ≠ .ok header

theorem find?_optional {α : Type} {key k : String} (h : key ≠ k) (f : α → JsonValue)
    (o : Option α) : (optional key f o).reverse.find? (·.1 = k) = none := by
  cases o <;> simp [optional, h]

theorem find?_optionalList {key k : String} (h : key ≠ k) (items : List String) :
    (optionalList key items).reverse.find? (·.1 = k) = none := by
  cases items <;> simp [optionalList, h]

theorem ofValue_entry (e : MemoryEntry) :
    DumpRecord.ofValue e.toJson = some (.entity e.kindTag e.reference) := by
  simp [DumpRecord.ofValue, MemoryEntry.toJson, JsonValue.getStr, JsonValue.get, find?_optional,
    find?_optionalList, JsonValue.asStr, e.isEntity]

theorem ofValue_project (p : DumpProject) :
    DumpRecord.ofValue p.toJson = some (.entity p.kindTag p.reference) := by
  simp [DumpRecord.ofValue, DumpProject.toJson, JsonValue.getStr, JsonValue.get, find?_optional,
    JsonValue.asStr, p.isEntity]

theorem ofValue_usage (u : CommandUsage) :
    DumpRecord.ofValue u.toJson = some (.entity u.kindTag u.reference) := by
  simp [DumpRecord.ofValue, CommandUsage.toJson, JsonValue.getStr, JsonValue.get,
    JsonValue.asStr, u.isEntity]

theorem ofValue_relationship (r : Relationship) :
    DumpRecord.ofValue r.toJson = some (.relationship r.kindTag r.fromRef r.toRef) := by
  simp [DumpRecord.ofValue, Relationship.toJson, JsonValue.getStr, JsonValue.get, find?_optional,
    JsonValue.asStr, r.isRelationship]

namespace Dump

/-- The records of a dump as a reader sees them. -/
def records (d : Dump) : List DumpRecord :=
  d.entries.map (fun e => .entity e.kindTag e.reference) ++
    d.projects.map (fun p => .entity p.kindTag p.reference) ++
    d.usage.map (fun u => .entity u.kindTag u.reference) ++
    d.relationships.map fun r => .relationship r.kindTag r.fromRef r.toRef

theorem forall₂_recordValues (d : Dump) :
    Forall₂ (fun v r => DumpRecord.ofValue v = some r) d.recordValues d.records := by
  have hmap : ∀ {α : Type} (f : α → JsonValue) (g : α → DumpRecord),
      (∀ a, DumpRecord.ofValue (f a) = some (g a)) → ∀ as : List α,
        Forall₂ (fun v r => DumpRecord.ofValue v = some r) (as.map f) (as.map g) := by
    intro α f g h as
    rw [List.forall₂_map_left_iff, List.forall₂_map_right_iff, List.forall₂_same]
    exact fun a _ => h a
  exact List.rel_append (List.rel_append (List.rel_append
    (hmap _ _ ofValue_entry d.entries) (hmap _ _ ofValue_project d.projects))
    (hmap _ _ ofValue_usage d.usage)) (hmap _ _ ofValue_relationship d.relationships)

theorem counts_eq (d : Dump) : d.counts = d.records.foldl DumpRecord.count .zero := by
  simp only [counts, records, List.foldl_append, List.foldl_map, DumpRecord.count]

theorem filterMap_ref (d : Dump) : d.records.filterMap DumpRecord.ref = d.references := by
  simp only [records, references, List.filterMap_append, List.filterMap_map]
  have hentity : ∀ {α : Type} (f : α → String) (k : α → String) (as : List α),
      as.filterMap (DumpRecord.ref ∘ fun a => .entity (k a) (f a)) = as.map f := by
    intro α f k as
    exact congrFun List.filterMap_eq_map' as
  have hlink : d.relationships.filterMap
      (DumpRecord.ref ∘ fun r => .relationship r.kindTag r.fromRef r.toRef) = [] := by
    rw [List.filterMap_eq_nil_iff]
    exact fun _ _ => rfl
  rw [hentity, hentity, hentity, hlink, List.append_nil]

theorem flatMap_ends (d : Dump) :
    d.records.flatMap DumpRecord.ends = d.relationships.flatMap fun r => [r.fromRef, r.toRef] := by
  have hnone : ∀ {α : Type} (as : List α), as.flatMap (fun _ => ([] : List String)) = [] :=
    fun as => List.flatMap_eq_nil_iff.2 fun _ _ => rfl
  simp [records, List.flatMap_append, List.flatMap_map, DumpRecord.ends, hnone]

end Dump

section Format

variable [Sha256] {codec : DumpCodec} {d : Dump} {generatedAt : ℤ}

theorem isFooter_of_printsDump (h : PrintsDump codec d generatedAt) :
    IsFooter codec (codec.print (d.footer codec generatedAt).toJson)
      (d.footer codec generatedAt) :=
  ⟨⟨_, h.footerValue, rfl⟩, h.footer⟩

/-- The lines of a rendered dump. -/
theorem lines_render (h : PrintsDump codec d generatedAt) (s : String) :
    lines ((d.render codec generatedAt).text ++ s) = d.recordLines codec generatedAt ++
      [codec.print (d.footer codec generatedAt).toJson] ++ lines s := by
  refine lines_withLineEnds ?_ s
  intro line hline
  rcases List.mem_append.1 hline with hline | hline
  · exact h.recordLine line hline
  · rw [List.mem_singleton.1 hline]
    exact h.footerLine

/-- A rendered dump has the shape. -/
theorem accepted_render (h : PrintsDump codec d generatedAt) (hrefs : d.references.Nodup)
    (hends : ∀ r ∈ d.relationships, r.fromRef ∈ d.references ∧ r.toRef ∈ d.references) :
    Accepted codec (codec.print (DumpHeader.new generatedAt).toJson)
      (d.recordValues.map codec.print) d.records
      (codec.print (d.footer codec generatedAt).toJson) (d.footer codec generatedAt) where
  header := by
    unfold checkHeader
    rw [h.header]
    rfl
  records := by
    rw [List.forall₂_map_left_iff]
    refine (List.forall₂_iff_zip.2 ⟨d.forall₂_recordValues.length_eq, fun {v r} hzip => ?_⟩)
    have hv := h.value v (List.of_mem_zip hzip).1
    have hr := List.forall₂_zip d.forall₂_recordValues hzip
    simp [recordOf, hv, Except.toOption, hr]
  last := isFooter_of_printsDump h
  counts := d.counts_eq
  digest := rfl
  refs := by
    rw [d.filterMap_ref]
    exact hrefs
  ends := by
    rw [d.filterMap_ref, d.flatMap_ends]
    intro r hr
    obtain ⟨link, hlink, hmem⟩ := List.mem_flatMap.1 hr
    rcases List.mem_cons.1 hmem with rfl | hmem
    · exact (hends link hlink).1
    · rw [List.mem_singleton.1 hmem]
      exact (hends link hlink).2

/-- A rendered dump reads back. -/
theorem verifyRendered_render (h : PrintsDump codec d generatedAt) (hrefs : d.references.Nodup)
    (hends : ∀ r ∈ d.relationships, r.fromRef ∈ d.references ∧ r.toRef ∈ d.references) :
    verifyRendered codec (d.render codec generatedAt).text =
      .ok ⟨(d.render codec generatedAt).perRecord, (d.render codec generatedAt).footer.counts⟩ := by
  refine verifyRendered_ok_iff.2 ⟨_, _, _, _, _, ?_, accepted_render h hrefs hends, rfl⟩
  have := lines_render h ""
  rw [String.append_empty, lines_empty, List.append_nil] at this
  exact this

/-! ### Altered texts -/

/-- A text that is not accepted. -/
def RefusedText (codec : DumpCodec) (text : String) : Prop :=
  ∀ readBack, verifyRendered codec text ≠ .ok readBack

/-- What is digested for a list of lines: each line, and the digests joined. -/
def digested (ls : List String) : List String :=
  ls ++ [String.join (ls.map Sha256.hexDigest)]

/-- A digest in hexadecimal has 64 digits. -/
def HexDigest64 : Prop := ∀ text, (Sha256.hexDigest text).length = 64

omit [Sha256] in
theorem join_inj {n : ℕ} (hn : 0 < n) {ds ds' : List String} (h : ∀ s ∈ ds, s.length = n)
    (h' : ∀ s ∈ ds', s.length = n) (he : String.join ds = String.join ds') : ds = ds' := by
  induction ds generalizing ds' with
  | nil =>
    cases ds' with
    | nil => rfl
    | cons s rest =>
      have hlen := congrArg String.length he
      rw [String.join_nil, String.join_cons, String.length_append,
        h' s List.mem_cons_self] at hlen
      exact absurd hlen (by simp; omega)
  | cons s rest ih =>
    cases ds' with
    | nil =>
      have hlen := congrArg String.length he
      rw [String.join_nil, String.join_cons, String.length_append, h s List.mem_cons_self] at hlen
      exact absurd hlen (by simp; omega)
    | cons s' rest' =>
      rw [String.join_cons, String.join_cons] at he
      have hlist := congrArg String.toList he
      rw [String.toList_append, String.toList_append] at hlist
      have hlen : s.toList.length = s'.toList.length := by
        rw [String.length_toList, String.length_toList, h s List.mem_cons_self,
          h' s' List.mem_cons_self]
      obtain ⟨hhead, htail⟩ := List.append_inj hlist hlen
      rw [String.toList_inj.1 hhead, ih (fun q hq => h q (List.mem_cons_of_mem s hq))
        (fun q hq => h' q (List.mem_cons_of_mem s' hq)) (String.toList_inj.1 htail)]

/-- Without collisions, one digest over the lines is the lines. -/
theorem eq_of_finishDigest (hhex : HexDigest64) {ls ls' : List String}
    (hfree : NoCollision (digested ls ++ digested ls'))
    (he : finishDigest (ls.map Sha256.hexDigest) = finishDigest (ls'.map Sha256.hexDigest)) :
    ls = ls' := by
  have hprefix : Sha256.hexDigest (String.join (ls.map Sha256.hexDigest)) =
      Sha256.hexDigest (String.join (ls'.map Sha256.hexDigest)) := by
    have hlist := congrArg String.toList he
    unfold finishDigest at hlist
    rw [String.toList_append, String.toList_append] at hlist
    exact String.toList_inj.1 (List.append_cancel_left hlist)
  have hjoin := hfree _ (by simp [digested]) _ (by simp [digested]) hprefix
  have hhexes : ∀ ks : List String, ∀ s ∈ ks.map Sha256.hexDigest, s.length = 64 := by
    intro ks s hs
    obtain ⟨line, -, rfl⟩ := List.mem_map.1 hs
    exact hhex line
  have hdigests := join_inj (by decide) (hhexes ls) (hhexes ls') hjoin
  have hinj : ∀ a ∈ ls, ∀ b ∈ ls', Sha256.hexDigest a = Sha256.hexDigest b → a = b := by
    intro a ha b hb
    exact hfree a (by simp [digested, ha]) b (by simp [digested, hb])
  clear hfree he hprefix hjoin
  induction ls generalizing ls' with
  | nil => exact (List.map_eq_nil_iff.1 hdigests.symm).symm
  | cons a ls ih =>
    cases ls' with
    | nil => exact absurd hdigests (by simp)
    | cons b ls' =>
      rw [List.map_cons, List.map_cons, List.cons.injEq] at hdigests
      rw [hinj a List.mem_cons_self b List.mem_cons_self hdigests.1,
        ih hdigests.2 fun x hx y hy => hinj x (List.mem_cons_of_mem a hx) y
          (List.mem_cons_of_mem b hy)]

/-- An accepted text with the footer line of a dump among its lines has the lines of that dump. -/
theorem eq_of_accepted (hhex : HexDigest64) (h : PrintsDump codec d generatedAt) {text : String}
    (hfree : NoCollision (digested (lines text).dropLast ++
      digested (d.recordLines codec generatedAt)))
    (hfooter : codec.print (d.footer codec generatedAt).toJson ∈ lines text) {readBack : ReadBack}
    (hok : verifyRendered codec text = .ok readBack) :
    lines text = lines (d.render codec generatedAt).text := by
  have hrender := lines_render h ""
  rw [String.append_empty, lines_empty, List.append_nil] at hrender
  obtain ⟨headerLine, recs, rs, footerLine, footer, hl, hacc, -⟩ := verifyRendered_ok_iff.1 hok
  -- The footer line of the dump is no header and no record, so it is the last line.
  have hlast : footerLine = codec.print (d.footer codec generatedAt).toJson := by
    rw [hl] at hfooter
    rcases List.mem_cons.1 hfooter with he | hmem
    · have hheader := hacc.header
      unfold checkHeader at hheader
      rw [← he] at hheader
      cases hc : codec.header (codec.print (d.footer codec generatedAt).toJson) with
      | error e => simp [hc] at hheader
      | ok header => exact absurd hc (h.footerNoHeader header)
    · rcases List.mem_append.1 hmem with hmem | hmem
      · obtain ⟨i, hi, hget⟩ := List.getElem_of_mem hmem
        have hrecord := (List.forall₂_iff_get.1 hacc.records).2 i hi
          (hacc.records.length_eq ▸ hi)
        simp only [List.get_eq_getElem, hget] at hrecord
        rw [recordOf_footer (isFooter_of_printsDump h)] at hrecord
        exact absurd hrecord (by simp)
      · exact (List.mem_singleton.1 hmem).symm
  have hsame : footer = d.footer codec generatedAt := by
    have := hacc.last.2
    rw [hlast, h.footer] at this
    exact (Except.ok.inj this).symm
  have hdrop : (lines text).dropLast = headerLine :: recs := by
    rw [hl, ← List.cons_append, List.dropLast_concat]
  rw [hdrop] at hfree
  have hlines := eq_of_finishDigest hhex hfree (by
    rw [← hacc.digest, hsame]
    rfl)
  rw [hl, hrender, ← List.cons_append, hlines, hlast]

/-- The references of the entities of a text, and the endpoints of its relationships. -/
def refsOf (codec : DumpCodec) (text : String) : List String :=
  ((lines text).tail.filterMap (recordOf codec)).filterMap DumpRecord.ref

def endsOf (codec : DumpCodec) (text : String) : List String :=
  ((lines text).tail.filterMap (recordOf codec)).flatMap DumpRecord.ends

/-- The records of an accepted text. -/
theorem filterMap_recordOf {headerLine footerLine : String} {recs : List String}
    {rs : List DumpRecord} {footer : DumpFooter}
    (hacc : Accepted codec headerLine recs rs footerLine footer) :
    (recs ++ [footerLine]).filterMap (recordOf codec) = rs := by
  rw [List.filterMap_append, List.filterMap_cons_none (recordOf_footer hacc.last),
    List.filterMap_nil, List.append_nil]
  have hall := hacc.records
  clear hacc
  induction hall with
  | nil => rfl
  | cons hr _ ih => rw [List.filterMap_cons_some hr, ih]

/-- The law of the dump format. A rendered dump with distinct references and endpoints that are
    entities reads back with its own digests and counts. A text that keeps its footer line and has
    other lines is refused, and so is a rendered dump with anything after it, and any text without
    a footer, with lines after a footer, with a reference that two entities share, or with an
    endpoint that is no entity. -/
theorem dumpFormatLaw (hhex : HexDigest64) (h : PrintsDump codec d generatedAt)
    (hrefs : d.references.Nodup)
    (hends : ∀ r ∈ d.relationships, r.fromRef ∈ d.references ∧ r.toRef ∈ d.references) :
    verifyRendered codec (d.render codec generatedAt).text =
      .ok ⟨(d.render codec generatedAt).perRecord, (d.render codec generatedAt).footer.counts⟩ ∧
    (∀ text, NoCollision (digested (lines text).dropLast ++
        digested (d.recordLines codec generatedAt)) →
      codec.print (d.footer codec generatedAt).toJson ∈ lines text →
      lines text ≠ lines (d.render codec generatedAt).text → RefusedText codec text) ∧
    (∀ suffix, suffix ≠ "" → RefusedText codec ((d.render codec generatedAt).text ++ suffix)) ∧
    (∀ text, (∀ line ∈ lines text, ∀ footer, ¬ IsFooter codec line footer) →
      RefusedText codec text) ∧
    (∀ text first before line after footer, lines text = first :: (before ++ line :: after) →
      IsFooter codec line footer → after ≠ [] → RefusedText codec text) ∧
    (∀ text, ¬ (refsOf codec text).Nodup → RefusedText codec text) ∧
    ∀ text, ∀ r ∈ endsOf codec text, r ∉ refsOf codec text → RefusedText codec text := by
  have hafter : ∀ text first before line after footer,
      lines text = first :: (before ++ line :: after) → IsFooter codec line footer → after ≠ [] →
        RefusedText codec text := by
    intro text first before line after footer hl hfooter hne readBack hok
    obtain ⟨headerLine, recs, rs, footerLine, f, hl', hacc, -⟩ := verifyRendered_ok_iff.1 hok
    rw [hl] at hl'
    obtain ⟨-, htail⟩ := List.cons.inj hl'
    -- The line stands before the last, so it is read as a record.
    obtain ⟨front, last, rfl⟩ := (List.eq_nil_or_concat' after).resolve_left hne
    have hrecs : before ++ line :: front = recs := by
      rw [← List.cons_append, ← List.append_assoc] at htail
      exact (List.append_inj' htail rfl).1
    have hmem : line ∈ recs := hrecs ▸ List.mem_append_right before List.mem_cons_self
    obtain ⟨i, hi, hget⟩ := List.getElem_of_mem hmem
    have hrecord := (List.forall₂_iff_get.1 hacc.records).2 i hi (hacc.records.length_eq ▸ hi)
    simp only [List.get_eq_getElem, hget] at hrecord
    rw [recordOf_footer hfooter] at hrecord
    exact absurd hrecord (by simp)
  refine ⟨verifyRendered_render h hrefs hends, ?_, ?_, ?_, hafter, ?_, ?_⟩
  · intro text hfree hfooter hne readBack hok
    exact hne (eq_of_accepted hhex h hfree hfooter hok)
  · intro suffix hne
    refine hafter _ (codec.print (DumpHeader.new generatedAt).toJson)
      (d.recordValues.map codec.print) _ (lines suffix) _ ?_ (isFooter_of_printsDump h)
      (lines_ne_nil hne)
    rw [lines_render h suffix, List.append_assoc]
    rfl
  · intro text hnone readBack hok
    obtain ⟨headerLine, recs, rs, footerLine, footer, hl, hacc, -⟩ := verifyRendered_ok_iff.1 hok
    refine hnone footerLine ?_ footer hacc.last
    rw [hl]
    simp
  · intro text hshared readBack hok
    obtain ⟨headerLine, recs, rs, footerLine, footer, hl, hacc, -⟩ := verifyRendered_ok_iff.1 hok
    refine hshared ?_
    rw [refsOf, hl, List.tail_cons, filterMap_recordOf hacc]
    exact hacc.refs
  · intro text r hend href readBack hok
    obtain ⟨headerLine, recs, rs, footerLine, footer, hl, hacc, -⟩ := verifyRendered_ok_iff.1 hok
    rw [refsOf, hl, List.tail_cons, filterMap_recordOf hacc] at href
    rw [endsOf, hl, List.tail_cons, filterMap_recordOf hacc] at hend
    exact href (hacc.ends r hend)

end Format

/-! ### A dump of one project -/

def oneProject : Dump where
  entries := []
  projects := [{
    record := "entity"
    kindTag := "project"
    reference := "p1"
    rootPath := "/w"
    registeredAt := none
    isEntity := rfl }]
  usage := []
  relationships := []

def oneProjectHeader : String :=
  "\x7b\"record\":\"header\",\"format\":\"portable-dump\",\"format_version\":1," ++
    "\"generated_at\":0,\"generator\":\"spelunk-export/0.9.9\"\x7d"

def oneProjectRecord : String :=
  "\x7b\"record\":\"entity\",\"type\":\"project\",\"ref\":\"p1\",\"root_path\":\"/w\"\x7d"

def oneProjectDigest : String :=
  "cfbb6e5033e92e89357f6e490b714f785cce8d74aba99be106a9f416c688215f"

def oneProjectFooter : String :=
  "\x7b\"record\":\"footer\",\"counts\":\x7b\"entity\":\x7b\"project\":1\x7d,\"relationship\":\x7b\x7d\x7d," ++
    "\"digest\":\"sha256:" ++ oneProjectDigest ++ "\"\x7d"

/-- The digests of the lines of this dump, and of the first two joined. -/
@[reducible] def oneProjectSha256 : Sha256 where
  hexDigest text :=
    if text = oneProjectHeader then
      "20cc831d6104f0351536071c9b5b6e4681a56f138652b210c33d3fd4dde9a00b"
    else if text = oneProjectRecord then
      "6e3071baa054c11633a66b9c7d01be47f115d143c98e78a658fca019cfc5fecd"
    else oneProjectDigest

/-- The JSON library on the lines of this dump. -/
def oneProjectCodec : DumpCodec where
  print
    | .obj (("record", .str "header") :: _) => oneProjectHeader
    | .obj (("record", .str "entity") :: _) => oneProjectRecord
    | _ => oneProjectFooter
  value line :=
    if line = oneProjectRecord then
      .ok (.obj [("record", .str "entity"), ("type", .str "project"), ("ref", .str "p1"),
        ("root_path", .str "/w")])
    else if line = oneProjectFooter then
      .ok (DumpFooter.toJson ⟨"footer", ⟨[("project", 1)], []⟩, "sha256:" ++ oneProjectDigest⟩)
    else .error "expected value"
  header line :=
    if line = oneProjectHeader then .ok (DumpHeader.new 0) else .error "missing field"
  footer line :=
    if line = oneProjectFooter then
      .ok ⟨"footer", ⟨[("project", 1)], []⟩, "sha256:" ++ oneProjectDigest⟩
    else .error "missing field"

theorem hexDigest64_oneProject : @HexDigest64 oneProjectSha256 := by
  intro text
  show (if _ then _ else if _ then _ else _ : String).length = 64
  split
  · rfl
  · split <;> rfl

theorem oneProject_lines_ne : oneProjectFooter ≠ oneProjectRecord ∧
    oneProjectFooter ≠ oneProjectHeader ∧ oneProjectRecord ≠ oneProjectHeader := by
  decide +kernel

theorem oneProjectCodec_lines :
    oneProjectCodec.header oneProjectHeader = .ok (DumpHeader.new 0) ∧
    oneProjectCodec.value oneProjectRecord =
      .ok (.obj [("record", .str "entity"), ("type", .str "project"), ("ref", .str "p1"),
        ("root_path", .str "/w")]) ∧
    oneProjectCodec.value oneProjectFooter =
      .ok (DumpFooter.toJson ⟨"footer", ⟨[("project", 1)], []⟩, "sha256:" ++ oneProjectDigest⟩) ∧
    oneProjectCodec.footer oneProjectFooter =
      .ok ⟨"footer", ⟨[("project", 1)], []⟩, "sha256:" ++ oneProjectDigest⟩ ∧
    ∀ header, oneProjectCodec.header oneProjectFooter ≠ .ok header := by
  simp [oneProjectCodec, oneProject_lines_ne]

theorem footer_oneProject : @Dump.footer oneProjectSha256 oneProjectCodec oneProject 0 =
    ⟨"footer", ⟨[("project", 1)], []⟩, "sha256:" ++ oneProjectDigest⟩ := by
  decide +kernel

theorem oneLine_oneProject :
    OneLine oneProjectHeader ∧ OneLine oneProjectRecord ∧ OneLine oneProjectFooter := by
  decide +kernel

theorem printsDump_oneProject : @PrintsDump oneProjectSha256 oneProjectCodec oneProject 0 := by
  obtain ⟨hheader, hrecord, hvalue, hfooter, hnone⟩ := oneProjectCodec_lines
  have hprint : oneProjectCodec.print (@Dump.footer oneProjectSha256 oneProjectCodec oneProject
      0).toJson = oneProjectFooter := by
    rw [footer_oneProject]
    rfl
  refine @PrintsDump.mk oneProjectSha256 _ _ _ ?_ ?_ hheader ?_ ?_ ?_ ?_
  · intro line hline
    rcases List.mem_cons.1 hline with rfl | hline
    · exact oneLine_oneProject.1
    · rw [List.mem_singleton.1 hline]
      exact oneLine_oneProject.2.1
  · rw [hprint]
    exact oneLine_oneProject.2.2
  · intro v hv
    rw [List.mem_singleton.1 hv]
    exact hrecord
  · rw [hprint, footer_oneProject]
    exact hvalue
  · rw [hprint, footer_oneProject]
    exact hfooter
  · rw [hprint]
    exact hnone

theorem dumpFormatLaw_oneProject :
    @verifyRendered oneProjectSha256 oneProjectCodec
        (@Dump.render oneProjectSha256 oneProjectCodec oneProject 0).text =
      .ok ⟨(@Dump.render oneProjectSha256 oneProjectCodec oneProject 0).perRecord,
        (@Dump.render oneProjectSha256 oneProjectCodec oneProject 0).footer.counts⟩ :=
  (@dumpFormatLaw oneProjectSha256 oneProjectCodec oneProject 0 hexDigest64_oneProject
    printsDump_oneProject (by decide) (fun _ h => absurd h List.not_mem_nil)).1

end Spelunk
