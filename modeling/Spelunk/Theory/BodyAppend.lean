import Spelunk.Core.Carrier
import Spelunk.Core.RecordJson

/-!
# Appending to a Note

A note is a text that other tools write to as well. The writers read it, put the line of a
record behind it and hand the whole to git. Lines are told from the pieces between line
ends: an empty piece at the end is no line, and a carriage return at the end of one does not
count.

## Main definitions

* `pieces`, `classify`: What stands between line ends, and what a reader takes it for.
* `classRecords`: The records of a text from the classes of its lines.
* `Appended`: The new text beside the old one.
* `readAfter`, `Writes`: What a program writes, whatever its calls answer.

## Theorems

* `map_classify_pieces`: Lines and pieces are classified alike.
* `appended_appendLine`: The text a writer writes back.
* `writes_writeLine`: A writer appends to the text it has read last.
* `appendLaw`: A writer appends exactly its record.
-/

namespace Spelunk

open Lib (Prog)

/-! ### Pieces and lines -/

/-- What stands between line ends. -/
def pieces (s : String) : List (List Char) := s.toList.splitOn '\n'

theorem splitOn_append_replicate (s : List Char) (k : ℕ) :
    (s ++ List.replicate k '\n').splitOn '\n' = s.splitOn '\n' ++ List.replicate k [] := by
  induction k with
  | zero => simp
  | succ k ih =>
    rw [List.replicate_succ', ← List.append_assoc, List.splitOn_append_cons_self, ih]
    simp [List.replicate_succ']

/-- A text is what is left of it without its last line ends, and these. -/
theorem rdropWhile_append_replicate (s : List Char) :
    ∃ k, s = s.rdropWhile (· = '\n') ++ List.replicate k '\n' := by
  induction s using List.reverseRecOn with
  | nil => exact ⟨0, rfl⟩
  | append_singleton s c ih =>
    by_cases hc : c = '\n'
    · subst hc
      obtain ⟨k, hk⟩ := ih
      refine ⟨k + 1, ?_⟩
      rw [List.rdropWhile_concat_pos _ _ _ (by simp), List.replicate_succ', ← List.append_assoc,
        ← hk]
    · exact ⟨0, by rw [List.rdropWhile_concat_neg _ _ _ (by simpa using hc)]; simp⟩

section Classes

variable [NoteJson]

/-- How a piece is classified. -/
def classify (piece : List Char) : Option NoteRecord := parseSpelunkLine (String.ofList piece)

theorem classify_of_trim_eq_nil {piece : List Char} (h : trim piece = []) :
    classify piece = none := by
  simp only [classify, parseSpelunkLine, String.toList_ofList, h, if_true]

/-- The carriage return of a line end does not matter. -/
theorem classify_stripCarriageReturn (piece : List Char) :
    classify (stripCarriageReturn piece) = classify piece := by
  have htrim : trim (stripCarriageReturn piece) = trim piece := by
    unfold stripCarriageReturn
    split_ifs with h
    · obtain ⟨init, rfl⟩ := List.getLast?_eq_some_iff.1 h
      rw [List.dropLast_concat, trim_append_whiteSpace init (by decide)]
    · rfl
  simp only [classify, parseSpelunkLine, String.toList_ofList, htrim]

/-- The lines of a text are classified as its pieces are; an empty piece at the end is no line. -/
theorem map_classify_pieces (s : String) :
    ∃ j, (pieces s).map classify = (lines s).map parseSpelunkLine ++ List.replicate j none := by
  have hstrip : ∀ l : List (List Char),
      ((l.map stripCarriageReturn).map String.ofList).map parseSpelunkLine = l.map classify := by
    intro l
    rw [List.map_map, List.map_map]
    exact List.map_congr_left fun p _ => classify_stripCarriageReturn p
  obtain ⟨init, z, hparts⟩ : ∃ init z, s.toList.splitOn '\n' = init ++ [z] :=
    ⟨_, _, (List.dropLast_append_getLast (List.splitOn_ne_nil _ _)).symm⟩
  unfold pieces lines
  simp only [hparts, List.getLast?_append, List.getLast?_singleton, Option.some_or,
    List.dropLast_concat]
  cases z with
  | nil =>
    refine ⟨1, ?_⟩
    rw [List.append_nil, hstrip, List.map_append]
    congr 1
  | cons c z =>
    refine ⟨0, ?_⟩
    rw [List.map_append, List.map_append, List.map_append, hstrip]
    simp [classify]

/-- A last piece that is not empty is a line. -/
theorem map_parseSpelunkLine_lines {s : String} {init : List (List Char)} {z : List Char}
    (h : pieces s = init ++ [z]) {record : NoteRecord}
    (hrecord : classify z = some record) :
    (lines s).map parseSpelunkLine = init.map classify ++ [some record] := by
  obtain ⟨j, hj⟩ := map_classify_pieces s
  rw [h, List.map_append, List.map_cons, List.map_nil, hrecord] at hj
  cases j with
  | zero => rw [hj, List.replicate_zero, List.append_nil]
  | succ j =>
    rw [List.replicate_succ', ← List.append_assoc] at hj
    have hlast := (List.append_inj' hj rfl).2
    cases hlast

/-- The records of a text from the classes of its lines. -/
def classRecords : List (Option NoteRecord) → Except CarrierError (List NoteRecord)
  | [] => .ok []
  | none :: rest => classRecords rest
  | some record :: rest =>
      if 1 < record.schemaVersion then .error (.schemaMismatch record.schemaVersion 1)
      else (classRecords rest).map (record :: ·)

theorem parseLines_eq (l : List String) : parseLines l = classRecords (l.map parseSpelunkLine) := by
  induction l with
  | nil => rfl
  | cons line l ih =>
    rw [parseLines, List.map_cons]
    cases hline : parseSpelunkLine line with
    | none => exact ih
    | some record => simp only [classRecords, ih]

omit [NoteJson] in
/-- Foreign lines at the end add nothing. -/
theorem classRecords_append_none {l r : List (Option NoteRecord)} (h : ∀ o ∈ r, o = none) :
    classRecords (l ++ r) = classRecords l := by
  induction l with
  | nil =>
    induction r with
    | nil => rfl
    | cons o r ih =>
      rw [h o List.mem_cons_self]
      exact ih fun o' ho' => h o' (List.mem_cons_of_mem o ho')
  | cons o l ih =>
    cases o with
    | none => exact ih
    | some record => simp only [List.cons_append, classRecords, ih]

omit [NoteJson] in
/-- A record at the end comes last. -/
theorem classRecords_concat (l : List (Option NoteRecord)) {record : NoteRecord}
    (h : record.schemaVersion ≤ 1) :
    classRecords (l ++ [some record]) = (classRecords l).map (· ++ [record]) := by
  induction l with
  | nil => simp only [List.nil_append, classRecords, if_neg (Nat.not_lt.2 h)]; rfl
  | cons o l ih =>
    cases o with
    | none => exact ih
    | some r =>
      simp only [List.cons_append, classRecords, ih]
      split_ifs
      · rfl
      · cases classRecords l <;> rfl

/-! ### The appended text -/

/-- What a writer makes of the text that was there: the pieces that are kept, then the line of the
    record. Only empty pieces at the end go, or the white space of a text that has nothing else. -/
structure Appended (old : String) (record : NoteRecord) (body : String) : Prop where
  parsed : parseRecords body = (parseRecords old).map (· ++ [record])
  kept : ∃ kept dropped, pieces old = kept ++ dropped ∧
    pieces body = kept ++ [(recordJson record).toList] ∧
    ((∀ piece ∈ dropped, piece = []) ∨ trim old.toList = [] ∧ kept = []) ∧
    -- Every kept line is classified as before, and the new one as the record.
    (lines body).map parseSpelunkLine = kept.map classify ++ [some record]
  classes : ∃ j, (pieces old).map classify =
    (lines old).map parseSpelunkLine ++ List.replicate j none

/-- The records of a text from its pieces. -/
theorem parseRecords_eq_pieces (s : String) :
    parseRecords s = classRecords ((pieces s).map classify) := by
  obtain ⟨j, hj⟩ := map_classify_pieces s
  rw [hj, classRecords_append_none fun o ho => List.eq_of_mem_replicate ho, parseRecords,
    parseLines_eq]

/-- The line of a record behind pieces that are kept. -/
theorem appended_of_pieces {old body : String} {record : NoteRecord}
    (hschema : record.schemaVersion ≤ 1)
    (hread : NoteJson.ofLine (recordJson record) = some record) {kept dropped : List (List Char)}
    (hold : pieces old = kept ++ dropped)
    (hbody : pieces body = kept ++ [(recordJson record).toList])
    (hdropped : (∀ piece ∈ dropped, piece = []) ∨ trim old.toList = [] ∧ kept = []) :
    Appended old record body := by
  have hclass : classify (recordJson record).toList = some record := by
    rw [classify, String.ofList_toList, parseSpelunkLine_of_cleanLine (cleanLine_recordJson record),
      hread]
  have hlines := map_parseSpelunkLine_lines hbody hclass
  have hforeign : ∀ o ∈ dropped.map classify, o = none := by
    intro o ho
    obtain ⟨piece, hpiece, rfl⟩ := List.mem_map.1 ho
    refine classify_of_trim_eq_nil ?_
    rcases hdropped with hempty | ⟨hblank, -⟩
    · rw [hempty piece hpiece]
      rfl
    · refine trim_eq_nil_iff.2 fun c hc => trim_eq_nil_iff.1 hblank c ?_
      have hmem : piece ∈ pieces old := hold ▸ List.mem_append_right kept hpiece
      exact Lib.mem_of_mem_splitOn hmem hc
  refine ⟨?_, ⟨kept, dropped, hold, hbody, hdropped, hlines⟩, map_classify_pieces old⟩
  rw [parseRecords_eq_pieces old, hold, List.map_append, classRecords_append_none hforeign,
    parseRecords, parseLines_eq, hlines, classRecords_concat _ hschema]

/-- The text a writer writes back. -/
theorem appended_appendLine {record : NoteRecord} (hschema : record.schemaVersion ≤ 1)
    (hread : NoteJson.ofLine (recordJson record) = some record) (existing : Option String) :
    Appended (existing.getD "") record (appendLine existing (recordJson record)) := by
  have hnew : pieces (recordJson record) = [(recordJson record).toList] :=
    List.splitOn_eq_singleton (cleanLine_recordJson record).no_newline
  cases existing with
  | none => exact appended_of_pieces hschema hread (List.nil_append _).symm hnew (Or.inr ⟨rfl, rfl⟩)
  | some old =>
    rw [Option.getD_some, appendLine]
    by_cases hblank : trim old.toList = []
    · rw [if_neg (not_not.2 hblank)]
      exact appended_of_pieces hschema hread (List.nil_append _).symm hnew (Or.inr ⟨hblank, rfl⟩)
    · rw [if_pos hblank, appendLine_text]
      obtain ⟨k, hk⟩ := rdropWhile_append_replicate old.toList
      have hold : pieces old =
          (old.toList.rdropWhile (· = '\n')).splitOn '\n' ++ List.replicate k [] := by
        rw [pieces, ← splitOn_append_replicate, ← hk]
      have hbody : pieces (String.ofList (old.toList.rdropWhile (· = '\n') ++
          '\n' :: (recordJson record).toList)) =
          (old.toList.rdropWhile (· = '\n')).splitOn '\n' ++ [(recordJson record).toList] := by
        rw [pieces, String.toList_ofList, List.splitOn_append_cons_self, ← hnew, pieces]
      exact appended_of_pieces hschema hread hold hbody
        (Or.inl fun piece hpiece => List.eq_of_mem_replicate hpiece)

end Classes

/-! ### The writers -/

/-- The note text a program has read last. -/
def readAfter (o : CarrierOp) (r : o.Res) (read : Option (Option String)) :
    Option (Option String) :=
  match o, r with
  | .showNote _, some body => some body
  | _, _ => read

/-- Whatever its calls answer, a program writes notes only that are in `P` of the text it has read
    last, and it ends in `Q`. -/
def Writes {α : Type} (P : Option String → String → Prop)
    (Q : α → Option (Option String) → Prop) :
    CarrierProg α → Option (Option String) → Prop
  | .ret a, read => Q a read
  | .call o k, read =>
      (∀ object body, o = .addNote object body → ∃ existing, read = some existing ∧
        P existing body) ∧ ∀ r, Writes P Q (k r) (readAfter o r read)

section Writers

variable {α β : Type} {P : Option String → String → Prop}

theorem Writes.bind {Q : α → Option (Option String) → Prop} {R : β → Option (Option String) → Prop}
    {p : CarrierProg α} {f : α → CarrierProg β} {read : Option (Option String)}
    (hp : Writes P Q p read) (hf : ∀ a read, Q a read → Writes P R (f a) read) :
    Writes P R (p.bind f) read := by
  induction p generalizing read with
  | ret a => exact hf a read hp
  | call o k ih => exact ⟨hp.1, fun r => ih r (hp.2 r)⟩

/-- A call that writes no note. -/
theorem Writes.call {o : CarrierOp} (ho : ∀ object body, o ≠ .addNote object body)
    {read : Option (Option String)} :
    Writes P (fun r read' => read' = readAfter o r read) (.call o .ret) read :=
  ⟨fun object body h => absurd h (ho object body), fun _ => rfl⟩

theorem writes_readNoteBody (object : String) (attempts : ℕ) (read : Option (Option String)) :
    Writes P (fun result read' => ∀ existing, result = .ok existing → read' = some existing)
      (readNoteBody object attempts) read := by
  induction attempts generalizing read with
  | zero => exact fun existing h => by cases h
  | succ attempts ih =>
    refine Writes.bind (Writes.call (o := .showNote object) (by simp)) fun r read' hr => ?_
    cases r with
    | none => exact ih read'
    | some body =>
      intro existing h
      cases h
      exact hr

theorem writes_writeLine {object line : String}
    (h : ∀ existing, P existing (appendLine existing line)) (read : Option (Option String)) :
    Writes P (fun _ _ => True) (writeLine object line) read := by
  refine Writes.bind (writes_readNoteBody object noteReadAttempts read) fun result read' hread => ?_
  cases result with
  | error e => trivial
  | ok existing =>
    refine ⟨fun object' body hcall => ⟨existing, hread existing rfl, ?_⟩, fun r => trivial⟩
    cases hcall
    exact h existing

theorem writes_withWriterLock {body : CarrierProg (Except AppendError Unit)}
    (h : ∀ read, Writes P (fun _ _ => True) body read) (read : Option (Option String)) :
    Writes P (fun _ _ => True) (withWriterLock body) read := by
  have hdrop : ∀ (lock : WriterLock) (read : Option (Option String)),
      Writes P (fun _ _ => True) lock.drop read := by
    intro lock read
    cases lock with
    | held => exact ⟨fun _ _ hcall => (by cases hcall), fun _ => trivial⟩
    | unlocked => trivial
  refine Writes.bind (Q := fun _ _ => True) ?_ fun result read' _ => ?_
  · refine Writes.bind (Writes.call (o := .lockNotes) (by simp)) fun r read' hr => ?_
    cases r <;> trivial
  · cases result with
    | error e => trivial
    | ok lock =>
      exact Writes.bind (h read') fun result read'' _ =>
        Writes.bind (hdrop lock read'') fun _ _ _ => trivial

end Writers

/-- Whatever git answers, a writer appends exactly its record to the note it has read. -/
theorem appendLaw [NoteJson] (record : NoteRecord) (hschema : record.schemaVersion ≤ 1)
    (hwrite : NoteJson.toLine record = recordJson record)
    (hread : NoteJson.ofLine (NoteJson.toLine record) = some record) :
    Writes (fun existing body => Appended (existing.getD "") record body) (fun _ _ => True)
        (appendToGitNotes record) none ∧
      ∀ object, Writes (fun existing body => Appended (existing.getD "") record body)
        (fun _ _ => True) (appendRecord object record) none := by
  have hline : ∀ object read, Writes
      (fun existing body => Appended (existing.getD "") record body) (fun _ _ => True)
      (writeLine object (NoteJson.toLine record)) read := by
    intro object read
    refine writes_writeLine (fun existing => ?_) read
    rw [hwrite] at hread ⊢
    exact appended_appendLine hschema hread existing
  refine ⟨writes_withWriterLock (fun read => ?_) none,
    fun object => writes_withWriterLock (hline object) none⟩
  refine Writes.bind (Writes.call (o := .revParseHead) (by simp)) fun head read' _ => ?_
  cases head with
  | none => trivial
  | some head => exact hline head read'

section Runs

/-- A record with a quotation mark, line ends and a line separator in its fields. -/
def quotedRecord : NoteRecord where
  schemaVersion := 1
  id := 7
  kind := "note"
  title := "a \"quoted\"\ntitle"
  body := "two\r\nlines\u2028"
  tags := []
  linkedFiles := ["a.rs"]
  createdAt := 10
  status := "active"
  sourceRef := none
  validAt := none
  invalidAt := none
  supersededBy := none
  remoteId := none
  entityId := none
  supersededByEntityId := none

/-- The JSON library on the line of this record. -/
@[reducible] def quotedJson : NoteJson where
  toLine := recordJson
  ofLine := fun line => if line = recordJson quotedRecord then some quotedRecord else none

theorem appendLaw_quotedRecord :
    Writes (fun existing body => @Appended quotedJson (existing.getD "") quotedRecord body)
        (fun _ _ => True) (@appendToGitNotes quotedJson quotedRecord) none ∧
      ∀ object, Writes
        (fun existing body => @Appended quotedJson (existing.getD "") quotedRecord body)
        (fun _ _ => True) (@appendRecord quotedJson object quotedRecord) none :=
  @appendLaw quotedJson quotedRecord (by decide) rfl (if_pos rfl)

/-- A blank line at the end of the text is not there any more. -/
theorem append_dropsBlankLine :
    lines "prose\n\n" = ["prose", ""] ∧
      lines (appendLine (some "prose\n\n") (recordJson quotedRecord)) =
        ["prose", recordJson quotedRecord] := by
  decide +kernel

end Runs

end Spelunk
