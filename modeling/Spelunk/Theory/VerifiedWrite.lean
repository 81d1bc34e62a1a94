import Spelunk.Theory.DumpFormat

/-!
# The Verified Write

Every way a call of `write_verified` may end, over a file system in which every step
may fail (`writeVerified_cases`): refused before anything is created, stopped with the
temporary removed, stopped at the renaming, or done.

A call that stops at the renaming keeps its temporary, and so does one that stops
earlier and cannot remove it. The next call then finds a file in its way and is
refused. In every other case the write is all or nothing.

## Main definitions

* `Verified`: A text reads back with the expected digests.
* `Checked`: The bytes land and are verified.
* `RenameFails`, `LeavesTemp`: Where the temporary stays behind.
* `AllOrNothing`: What a verified write is meant to do.

## Theorems

* `writeVerified_cases`: The ways a call may end.
* `verifiedWriteLaw`: The write is all or nothing where it does not leave its temporary.
* `notAllOrNothing_ontoDirectory`: A dump written onto a directory.
-/

namespace Spelunk

section Write

variable [Sha256] (codec : DumpCodec) (text : String) (expected : List String) (out : FilePath)
  (faults : WriteFaults) (fs : FileTree)

/-- The sibling temporary. -/
def FilePath.temp (out : FilePath) : FilePath := out.withExtension "partial"

/-- A text that reads back with the expected digests. -/
def Verified : Prop :=
  ∃ readBack, verifyRendered codec text = .ok readBack ∧ readBack.perRecord = expected

/-- The bytes land, are read back and are verified. -/
def Checked : Prop :=
  faults.write = none ∧ faults.readBack = false ∧ Verified codec text expected

/-- The temporary is this call's own. -/
def CreatesTemp : Prop := fs out.temp = none ∧ faults.create = false

def RenameFails : Prop := faults.rename = true ∨ fs out = some .directory

/-- The calls that leave their temporary behind: the renaming fails, or an earlier step does and the
    temporary cannot be removed. -/
def LeavesTemp : Prop :=
  CreatesTemp out faults fs ∧
    ((Checked codec text expected faults ∧ RenameFails out faults fs) ∨
      (¬ Checked codec text expected faults ∧ faults.remove = true))

/-- What a verified write is meant to do: after an error, what was there is unchanged, nothing else
    is, and a retry is not refused for the file of this call; after a success, the output holds the
    text, which is verified; and a file that was at the temporary path stays as it is. -/
structure AllOrNothing (r : FileTree × Except WriteError Unit) : Prop where
  unchanged : ∀ e, r.2 = .error e → ∀ p, fs p ≠ none → r.1 p = fs p
  nothingLeft : ∀ e, r.2 = .error e → ∀ p, fs p = none → r.1 p = none
  retried : ∀ e, r.2 = .error e → e ≠ .alreadyExists → ∀ again,
    (writeVerified codec text expected out again r.1).2 ≠ .error .alreadyExists
  landed : r.2 = .ok () → r.1 out = some (.file text.toUTF8) ∧ Verified codec text expected ∧
    ∀ p, p ≠ out → r.1 p = fs p
  foreign : fs out.temp ≠ none → r.1 out.temp = fs out.temp

/-! ### File trees -/

omit [Sha256] in
@[simp] theorem FileTree.put_same (p : FilePath) (node : Option FileNode) :
    fs.put p node p = node :=
  if_pos rfl

omit [Sha256] in
@[simp] theorem FileTree.put_other {p q : FilePath} (h : q ≠ p) (node : Option FileNode) :
    fs.put p node q = fs q :=
  if_neg h

omit [Sha256] in
/-- A file that was not there, put and removed. -/
theorem FileTree.put_none {fs : FileTree} {p : FilePath} (h : fs p = none)
    (node : Option FileNode) : (fs.put p node).put p none = fs := by
  funext q
  by_cases hq : q = p
  · rw [hq, put_same, h]
  · rw [put_other _ hq, put_other _ hq]

omit [Sha256] in
theorem fromUTF8?_toUTF8 (s : String) : String.fromUTF8? s.toUTF8 = some s := by
  unfold String.fromUTF8?
  exact dif_pos s.isValidUTF8

/-! ### The ways a call may end -/

variable {codec text expected out faults fs}

/-- The check of a temporary that holds the text. -/
theorem checkWritten_ok_iff (hwrite : faults.write = none)
    (h : fs out.temp = some (.file text.toUTF8)) :
    checkWritten codec expected faults out.temp fs = .ok () ↔
      Checked codec text expected faults := by
  unfold checkWritten Checked Verified
  cases hread : faults.readBack with
  | true => simp
  | false =>
    simp only [Bool.false_eq_true, if_false, h, fromUTF8?_toUTF8, hwrite, true_and]
    cases hv : verifyRendered codec text with
    | error e => simp
    | ok readBack =>
      by_cases he : readBack.perRecord = expected
      · simp [he]
      · simp [he]

/-- No error of the check is about a file in the way. -/
theorem checkWritten_ne_alreadyExists :
    checkWritten codec expected faults out.temp fs ≠ .error .alreadyExists := by
  unfold checkWritten
  split
  · simp
  · split
    · split
      · simp
      · split
        · simp
        · split <;> simp
    · simp

omit [Sha256] in
/-- The renaming of the temporary onto the output. -/
theorem renameFile_temp (hfree : fs out.temp = none) (bytes : ByteArray) :
    renameFile faults out.temp out (fs.put out.temp (some (.file bytes))) = none ∧
        RenameFails out faults fs ∨
      renameFile faults out.temp out (fs.put out.temp (some (.file bytes))) =
          some (fs.put out (some (.file bytes))) ∧ ¬ RenameFails out faults fs := by
  unfold renameFile RenameFails
  cases hr : faults.rename with
  | true => simp
  | false =>
    simp only [Bool.false_eq_true, if_false, false_or, FileTree.put_same, FileTree.put_none hfree]
    by_cases hsame : out = out.temp
    · have hout : fs out ≠ some .directory := by
        rw [hsame, hfree]
        simp
      rw [← hsame, FileTree.put_same]
      exact .inr ⟨rfl, hout⟩
    · rw [FileTree.put_other _ hsame]
      cases fs out with
      | none => simp
      | some node =>
        cases node with
        | file b => simp
        | directory => simp

/-- A call, as its branches. -/
theorem writeVerified_eq (codec : DumpCodec) (text : String) (expected : List String)
    (out : FilePath) (faults : WriteFaults) (fs : FileTree) :
    writeVerified codec text expected out faults fs =
      if (fs out.temp).isSome then (fs, .error .alreadyExists)
      else if faults.create then (fs, .error .creating)
      else match faults.write with
        | some written =>
            (removeTemp faults out.temp (fs.put out.temp (some (.file written))), .error .writing)
        | none =>
            match checkWritten codec expected faults out.temp
                (fs.put out.temp (some (.file text.toUTF8))) with
            | .error e =>
                (removeTemp faults out.temp (fs.put out.temp (some (.file text.toUTF8))), .error e)
            | .ok () =>
                match renameFile faults out.temp out
                    (fs.put out.temp (some (.file text.toUTF8))) with
                | none => (fs.put out.temp (some (.file text.toUTF8)), .error .moving)
                | some fs => (fs, .ok ()) := rfl

/-- The ways a call may end. -/
theorem writeVerified_cases (codec : DumpCodec) (text : String) (expected : List String)
    (out : FilePath) (faults : WriteFaults) (fs : FileTree) :
    (fs out.temp ≠ none ∧
      writeVerified codec text expected out faults fs = (fs, .error .alreadyExists)) ∨
    (fs out.temp = none ∧ faults.create = true ∧
      writeVerified codec text expected out faults fs = (fs, .error .creating)) ∨
    (CreatesTemp out faults fs ∧ ¬ Checked codec text expected faults ∧
      ∃ e bytes, e ≠ .alreadyExists ∧ writeVerified codec text expected out faults fs =
        (removeTemp faults out.temp (fs.put out.temp (some (.file bytes))), .error e)) ∨
    (CreatesTemp out faults fs ∧ Checked codec text expected faults ∧ RenameFails out faults fs ∧
      writeVerified codec text expected out faults fs =
        (fs.put out.temp (some (.file text.toUTF8)), .error .moving)) ∨
    (CreatesTemp out faults fs ∧ Checked codec text expected faults ∧ ¬ RenameFails out faults fs ∧
      writeVerified codec text expected out faults fs =
        (fs.put out (some (.file text.toUTF8)), .ok ())) := by
  rw [writeVerified_eq]
  cases htemp : fs out.temp with
  | some node => exact .inl ⟨by simp, by simp⟩
  | none =>
    simp only [Option.isSome_none, Bool.false_eq_true, if_false]
    cases hcreate : faults.create with
    | true => exact .inr (.inl ⟨trivial, rfl, by simp⟩)
    | false =>
      have hown : CreatesTemp out faults fs := ⟨htemp, hcreate⟩
      simp only [Bool.false_eq_true, if_false]
      cases hwrite : faults.write with
      | some written =>
        have hnot : ¬ Checked codec text expected faults := fun h => by simp [h.1] at hwrite
        exact .inr (.inr (.inl ⟨hown, hnot, .writing, written, by simp, rfl⟩))
      | none =>
        have hiff : checkWritten codec expected faults out.temp
            (fs.put out.temp (some (.file text.toUTF8))) = .ok () ↔
              Checked codec text expected faults :=
          checkWritten_ok_iff hwrite (FileTree.put_same fs out.temp _)
        cases hcheck : checkWritten codec expected faults out.temp
            (fs.put out.temp (some (.file text.toUTF8))) with
        | error e =>
          rw [hcheck] at hiff
          have hne : e ≠ .alreadyExists := fun he =>
            checkWritten_ne_alreadyExists (he ▸ hcheck)
          exact .inr (.inr (.inl ⟨hown, fun h => by simpa using hiff.2 h, e, _, hne, rfl⟩))
        | ok u =>
          have hchecked := hiff.1 hcheck
          rcases renameFile_temp htemp text.toUTF8 with ⟨hrename, hfails⟩ | ⟨hrename, hfails⟩
          · exact .inr (.inr (.inr (.inl ⟨hown, hchecked, hfails, by rw [hrename]⟩)))
          · exact .inr (.inr (.inr (.inr ⟨hown, hchecked, hfails, by rw [hrename]⟩)))

/-- The temporary of an earlier call is in the way of the next. -/
theorem writeVerified_of_temp (again : WriteFaults) (h : fs out.temp ≠ none) :
    writeVerified codec text expected out again fs = (fs, .error .alreadyExists) :=
  if_pos (Option.isSome_iff_ne_none.2 h)

/-- With nothing at the temporary path, no call is refused for a file in its way. -/
theorem writeVerified_of_free (again : WriteFaults) (h : fs out.temp = none) :
    (writeVerified codec text expected out again fs).2 ≠ .error .alreadyExists := by
  rcases writeVerified_cases codec text expected out again fs with
    ⟨htemp, -⟩ | ⟨-, -, hr⟩ | ⟨-, -, e, bytes, hne, hr⟩ | ⟨-, -, -, hr⟩ | ⟨-, -, -, hr⟩
  · exact absurd h htemp
  all_goals rw [hr]; simp_all

/-- A failed call that changes nothing. -/
theorem allOrNothing_of_failed {e : WriteError}
    (hfree : e ≠ .alreadyExists → fs out.temp = none) :
    AllOrNothing codec text expected out fs (fs, .error e) where
  unchanged _ _ _ _ := rfl
  nothingLeft _ _ _ h := h
  retried e' he hne again := by
    obtain rfl : e = e' := Except.error.inj he
    exact writeVerified_of_free again (hfree hne)
  landed h := absurd h (by simp)
  foreign _ := rfl

/-- A failed call that leaves its temporary. -/
theorem not_allOrNothing_of_temp {e : WriteError} {bytes : ByteArray} (hfree : fs out.temp = none) :
    ¬ AllOrNothing codec text expected out fs
      (fs.put out.temp (some (.file bytes)), .error e) := by
  intro h
  have hleft : fs.put out.temp (some (.file bytes)) out.temp = none :=
    h.nothingLeft e rfl out.temp hfree
  rw [FileTree.put_same] at hleft
  exact absurd hleft (by simp)

/-- The law of the verified write. It is all or nothing exactly where it does not leave its
    temporary behind; where it does, every identical call after it is refused and changes nothing.
    Wherever it leaves it, what was there before is unchanged all the same. -/
theorem verifiedWriteLaw (codec : DumpCodec) (text : String) (expected : List String)
    (out : FilePath) (faults : WriteFaults) (fs : FileTree) :
    (AllOrNothing codec text expected out fs (writeVerified codec text expected out faults fs) ↔
      ¬ LeavesTemp codec text expected out faults fs) ∧
    (LeavesTemp codec text expected out faults fs →
      (∀ p, fs p ≠ none → (writeVerified codec text expected out faults fs).1 p = fs p) ∧
      ∀ again, writeVerified codec text expected out again
          (writeVerified codec text expected out faults fs).1 =
        ((writeVerified codec text expected out faults fs).1, .error .alreadyExists)) := by
  have hleft : ∀ e bytes, fs out.temp = none → writeVerified codec text expected out faults fs =
      (fs.put out.temp (some (.file bytes)), .error e) →
      (∀ p, fs p ≠ none → (writeVerified codec text expected out faults fs).1 p = fs p) ∧
      ∀ again, writeVerified codec text expected out again
          (writeVerified codec text expected out faults fs).1 =
        ((writeVerified codec text expected out faults fs).1, .error .alreadyExists) := by
    intro e bytes hfree hr
    rw [hr]
    refine ⟨fun p hp => FileTree.put_other fs ?_ _, fun again => ?_⟩
    · rintro rfl
      exact hp hfree
    · exact writeVerified_of_temp again (by simp)
  rcases writeVerified_cases codec text expected out faults fs with
    ⟨htemp, hr⟩ | ⟨hfree, hcreate, hr⟩ | ⟨hown, hnot, e, bytes, hne, hr⟩ |
    ⟨hown, hchecked, hfails, hr⟩ | ⟨hown, hchecked, hfails, hr⟩
  · have hnone : ¬ LeavesTemp codec text expected out faults fs := fun h => htemp h.1.1
    refine ⟨iff_of_true ?_ hnone, fun h => absurd h hnone⟩
    rw [hr]
    exact allOrNothing_of_failed fun h => absurd rfl h
  · have hnone : ¬ LeavesTemp codec text expected out faults fs := by
      intro h
      simp [h.1.2] at hcreate
    refine ⟨iff_of_true ?_ hnone, fun h => absurd h hnone⟩
    rw [hr]
    exact allOrNothing_of_failed fun _ => hfree
  · cases hremove : faults.remove with
    | true =>
      have hrun : writeVerified codec text expected out faults fs =
          (fs.put out.temp (some (.file bytes)), .error e) := by
        rw [hr, removeTemp, if_pos hremove]
      refine ⟨iff_of_false ?_ (not_not.2 ⟨hown, .inr ⟨hnot, hremove⟩⟩),
        fun _ => hleft e bytes hown.1 hrun⟩
      rw [hrun]
      exact not_allOrNothing_of_temp hown.1
    | false =>
      have hnone : ¬ LeavesTemp codec text expected out faults fs := by
        rintro ⟨-, ⟨hchecked, -⟩ | ⟨-, h⟩⟩
        · exact hnot hchecked
        · simp [hremove] at h
      have hrun : writeVerified codec text expected out faults fs = (fs, .error e) := by
        rw [hr, removeTemp, if_neg (by simp [hremove]), FileTree.put_none hown.1]
      refine ⟨iff_of_true ?_ hnone, fun h => absurd h hnone⟩
      rw [hrun]
      exact allOrNothing_of_failed fun _ => hown.1
  · refine ⟨iff_of_false ?_ (not_not.2 ⟨hown, .inl ⟨hchecked, hfails⟩⟩),
      fun _ => hleft _ _ hown.1 hr⟩
    rw [hr]
    exact not_allOrNothing_of_temp hown.1
  · have hnone : ¬ LeavesTemp codec text expected out faults fs := by
      rintro ⟨-, ⟨-, h⟩ | ⟨h, -⟩⟩
      · exact hfails h
      · exact h hchecked
    refine ⟨iff_of_true ?_ hnone, fun h => absurd h hnone⟩
    rw [hr]
    exact {
      unchanged := fun _ he => absurd he (by simp)
      nothingLeft := fun _ he => absurd he (by simp)
      retried := fun _ he => absurd he (by simp)
      landed := fun _ => ⟨FileTree.put_same fs out _, hchecked.2.2,
        fun p hp => FileTree.put_other fs hp _⟩
      foreign := fun h => absurd hown.1 h }

end Write

/-! ### A dump written onto a directory -/

/-- Nothing fails by itself. -/
def WriteFaults.none : WriteFaults where
  create := false
  write := Option.none
  readBack := false
  rename := false
  remove := false

def directoryPath : FilePath := ⟨["w"], some "export"⟩

/-- A tree with one directory. -/
def oneDirectory : FileTree := fun p => if p = directoryPath then some .directory else Option.none

theorem oneDirectory_temp : oneDirectory directoryPath.temp = Option.none := by
  decide +kernel

/-- Writing a dump onto a directory stops at the renaming, and the second try is refused. -/
theorem notAllOrNothing_ontoDirectory :
    let rendered := @Dump.render oneProjectSha256 oneProjectCodec oneProject 0
    let write := @writeVerified oneProjectSha256 oneProjectCodec rendered.text rendered.perRecord
      directoryPath WriteFaults.none
    ¬ @AllOrNothing oneProjectSha256 oneProjectCodec rendered.text rendered.perRecord directoryPath
        oneDirectory (write oneDirectory) ∧
      (write oneDirectory).2 = .error .moving ∧
      (write (write oneDirectory).1).2 = .error .alreadyExists := by
  intro rendered write
  have hverified : @Verified oneProjectSha256 oneProjectCodec rendered.text rendered.perRecord :=
    ⟨_, @verifyRendered_render oneProjectSha256 _ _ _ printsDump_oneProject (by decide)
      (fun _ h => absurd h List.not_mem_nil), rfl⟩
  have hmoving : write oneDirectory =
      (oneDirectory.put directoryPath.temp (some (.file rendered.text.toUTF8)),
        .error .moving) := by
    rcases @writeVerified_cases oneProjectSha256 oneProjectCodec rendered.text rendered.perRecord
        directoryPath WriteFaults.none oneDirectory with
      ⟨h, -⟩ | ⟨-, h, -⟩ | ⟨-, h, -⟩ | ⟨-, -, -, h⟩ | ⟨-, -, h, -⟩
    · exact absurd oneDirectory_temp h
    · exact absurd h (by simp [WriteFaults.none])
    · exact absurd ⟨rfl, rfl, hverified⟩ h
    · exact h
    · exact absurd (.inr (if_pos rfl)) h
  rw [hmoving]
  refine ⟨@not_allOrNothing_of_temp oneProjectSha256 _ _ _ _ _ _ _ oneDirectory_temp, rfl, ?_⟩
  have hagain := @writeVerified_of_temp oneProjectSha256 oneProjectCodec rendered.text
    rendered.perRecord directoryPath
    (oneDirectory.put directoryPath.temp (some (.file rendered.text.toUTF8))) WriteFaults.none
    (by simp)
  exact congrArg Prod.snd hagain

end Spelunk
