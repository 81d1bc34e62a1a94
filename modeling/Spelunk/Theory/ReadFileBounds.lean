import Spelunk.Core.ReadFileTool
import Spelunk.Lib.Slices

/-!
# Bounds of Reading a File

What a model can reach by the tool that reads files. A file is read only where the path leads
to an indexed file under the root; the text is the lines that were asked for. Two things are
let through: a path that is rooted only once its backslashes separate or that has a drive in
front, which is looked up as if it were relative, and a first line so large that eighty
cannot be added to it.

## Main definitions

* `Rooted`: A path that is absolute or has a drive in front, whatever the platform.
* `Climbs`, `Nameless`: A path that goes above the root, or to the root.
* `LeadsTo`: Where a path leads that is accepted.
* `ReadFileCall.Asks`: The lines that are asked for.
* `ReadFileFits`: What the tool is meant to do.

## Theorems

* `resolveSegments_eq_none_iff`, `length_of_resolveSegments`: The loop over the segments.
* `resolveIndexedPath_ok_iff`, `resolveIndexedPath_invalid_iff`: The checks.
* `readFileLaw`: Where the tool does what it is meant to.
* `readFile_rebased`: A rooted path that is read as a relative one, and a large first line.
-/

namespace Spelunk

/-- A path that is absolute, with either separator, or has a drive in front. -/
def Rooted (raw : List Char) : Prop :=
  raw.head? = some '/' ∨ raw.head? = some '\\' ∨ ∃ c rest, c.isAlpha = true ∧ raw = c :: ':' :: rest

/-- A segment that names something. -/
def isName (seg : List Char) : Bool := seg ≠ [] && seg ≠ ['.'] && seg ≠ ['.', '.']

/-- Somewhere the path has gone up more often than down. -/
def Climbs (raw : List Char) : Prop :=
  ∃ front, front <+: pathSegments raw ∧ front.countP isName < front.count ['.', '.']

/-- The path goes up as often as down. -/
def Nameless (raw : List Char) : Prop :=
  (pathSegments raw).countP isName = (pathSegments raw).count ['.', '.']

/-- The loop over the segments fails where the way up is longer than the way down. -/
theorem resolveSegments_eq_none_iff (parts segs : List (List Char)) :
    resolveSegments parts segs = none ↔
      ∃ front, front <+: segs ∧ parts.length + front.countP isName < front.count ['.', '.'] := by
  induction segs generalizing parts with
  | nil =>
    refine iff_of_false (by simp [resolveSegments]) ?_
    rintro ⟨front, hfront, hlt⟩
    rw [List.prefix_nil.1 hfront] at hlt
    simp at hlt
  | cons seg rest ih =>
    have hcons : (∃ front, front <+: seg :: rest ∧
        parts.length + front.countP isName < front.count ['.', '.']) ↔
        ∃ front, front <+: rest ∧ parts.length + (seg :: front).countP isName <
          (seg :: front).count ['.', '.'] := by
      constructor
      · rintro ⟨front, hfront, hlt⟩
        rcases List.prefix_cons_iff.1 hfront with rfl | ⟨front', rfl, hfront'⟩
        · simp at hlt
        · exact ⟨front', hfront', hlt⟩
      · rintro ⟨front, hfront, hlt⟩
        exact ⟨seg :: front, List.cons_prefix_cons.2 ⟨rfl, hfront⟩, hlt⟩
    rw [hcons]
    by_cases hblank : seg = [] ∨ seg = ['.']
    · have hname : isName seg = false := by rcases hblank with rfl | rfl <;> rfl
      have hup : seg ≠ ['.', '.'] := by rcases hblank with rfl | rfl <;> decide
      rw [resolveSegments, if_pos hblank, ih]
      simp [hname, hup]
    · rw [resolveSegments, if_neg hblank]
      by_cases hup : seg = ['.', '.']
      · subst hup
        rw [if_pos rfl]
        have hname : isName ['.', '.'] = false := rfl
        cases parts with
        | nil =>
          refine iff_of_true (if_pos rfl) ⟨[], List.nil_prefix, ?_⟩
          simp [hname]
        | cons part parts =>
          rw [if_neg (List.cons_ne_nil _ _), ih]
          refine exists_congr fun front => and_congr_right fun _ => ?_
          simp only [List.length_dropLast, List.length_cons, List.countP_cons, hname,
            List.count_cons_self, Nat.add_sub_cancel]
          simp
          omega
      · have hname : isName seg = true := by
          rw [not_or] at hblank
          simp [isName, hblank.1, hblank.2, hup]
        rw [if_neg hup, ih]
        refine exists_congr fun front => and_congr_right fun _ => ?_
        simp only [List.length_append, List.length_singleton, List.countP_cons, hname,
          List.count_cons_of_ne hup]
        simp
        omega

/-- What is left of the segments is what was gone down and not up again, and each is a name. -/
theorem length_of_resolveSegments {parts segs out : List (List Char)}
    (h : resolveSegments parts segs = some out) :
    out.length + segs.count ['.', '.'] = parts.length + segs.countP isName := by
  induction segs generalizing parts with
  | nil =>
    obtain rfl := Option.some.inj h
    rfl
  | cons seg rest ih =>
    rw [resolveSegments] at h
    split at h
    · next hblank =>
      have hname : isName seg = false := by rcases hblank with rfl | rfl <;> rfl
      have hup : seg ≠ ['.', '.'] := by rcases hblank with rfl | rfl <;> decide
      have hrest := ih h
      simp only [List.count_cons_of_ne hup, List.countP_cons, hname]
      simpa using hrest
    · next hblank =>
      split at h
      · next hup =>
        subst hup
        split at h
        · exact nomatch h
        · next hne =>
          have hrest := ih h
          have hpos := List.length_pos_iff.2 hne
          have hname : isName ['.', '.'] = false := rfl
          rw [List.length_dropLast] at hrest
          simp only [List.count_cons_self, List.countP_cons, hname]
          simp
          omega
      · next hup =>
        have hname : isName seg = true := by
          rw [not_or] at hblank
          simp [isName, hblank.1, hblank.2, hup]
        have hrest := ih h
        rw [List.length_append, List.length_singleton] at hrest
        simp only [List.count_cons_of_ne hup, List.countP_cons, hname]
        simp
        omega

theorem isName_of_resolveSegments {parts segs out : List (List Char)}
    (h : resolveSegments parts segs = some out) (hparts : ∀ p ∈ parts, isName p = true) :
    ∀ p ∈ out, isName p = true := by
  induction segs generalizing parts with
  | nil =>
    obtain rfl := Option.some.inj h
    exact hparts
  | cons seg rest ih =>
    rw [resolveSegments] at h
    split at h
    · exact ih h hparts
    · next hblank =>
      split at h
      · split at h
        · exact nomatch h
        · exact ih h fun p hp => hparts p (List.dropLast_subset _ hp)
      · next hup =>
        refine ih h fun p hp => ?_
        rcases List.mem_append.1 hp with hp | hp
        · exact hparts p hp
        · rw [not_or] at hblank
          simp [List.mem_singleton.1 hp, isName, hblank.1, hblank.2, hup]

theorem climbs_iff (raw : List Char) :
    Climbs raw ↔ resolveSegments [] (pathSegments raw) = none := by
  rw [resolveSegments_eq_none_iff]
  simp [Climbs]

theorem nameless_iff {raw : List Char} {parts : List (List Char)}
    (h : resolveSegments [] (pathSegments raw) = some parts) : Nameless raw ↔ parts = [] := by
  have hlength := length_of_resolveSegments h
  rw [List.length_nil, Nat.zero_add] at hlength
  rw [Nameless, ← List.length_eq_zero_iff]
  omega

section Checks

variable (platform : Platform) (env : ReadEnv)

/-- Where a path leads that is accepted: its segments without `.` and `..` make the path of an
    indexed file, and what the file system makes of it lies under the root. -/
def LeadsTo (raw : String) (canonical : List String) : Prop :=
  nul ∉ raw.toList ∧ platform.isRooted raw.toList = false ∧
    ∃ parts files root,
      resolveSegments [] (pathSegments raw.toList) = some parts ∧ parts ≠ [] ∧
      (∀ p ∈ parts, isName p = true) ∧
      env.files = some files ∧ joinSegments parts ∈ files ∧ env.projectRoot = some root ∧
      env.canonicalize root (joinSegments parts) = some canonical ∧ root <+: canonical

/-- Its text is none of a path in the project. -/
def Malformed (raw : String) : Prop :=
  nul ∈ raw.toList ∨ platform.isRooted raw.toList = true ∨ Climbs raw.toList ∨ Nameless raw.toList

variable {platform env}

theorem resolveIndexedPath_ok_iff {raw : String} {canonical : List String} :
    resolveIndexedPath platform env raw = .ok canonical ↔ LeadsTo platform env raw canonical := by
  constructor
  · intro h
    unfold resolveIndexedPath at h
    split_ifs at h with hnul hrooted
    split at h
    · exact nomatch h
    next parts hparts =>
    split_ifs at h with hnil
    split at h
    · exact nomatch h
    next files hfiles =>
    split_ifs at h with hfile
    split at h
    · exact nomatch h
    next root hroot =>
    split at h
    · exact nomatch h
    next target htarget =>
    split_ifs at h with hunder
    obtain rfl := Except.ok.inj h
    exact ⟨hnul, Bool.eq_false_iff.2 hrooted, parts, files, root, hparts, hnil,
      isName_of_resolveSegments hparts (by simp), hfiles, hfile, hroot, htarget, hunder⟩
  · rintro ⟨hnul, hrooted, parts, files, root, hparts, hnil, -, hfiles, hfile, hroot, htarget,
      hunder⟩
    unfold resolveIndexedPath
    rw [if_neg hnul, if_neg (Bool.eq_false_iff.1 hrooted), hparts]
    dsimp only
    rw [if_neg hnil, hfiles]
    dsimp only
    rw [if_neg (not_not.2 hfile), hroot]
    dsimp only
    rw [htarget]
    exact if_pos hunder

theorem resolveIndexedPath_invalid_iff {raw : String} :
    resolveIndexedPath platform env raw = .error .invalid ↔ Malformed platform raw := by
  constructor
  · intro h
    unfold resolveIndexedPath at h
    split_ifs at h with hnul hrooted
    · exact .inl hnul
    · exact .inr (.inl hrooted)
    split at h
    · next hparts => exact .inr (.inr (.inl ((climbs_iff _).2 hparts)))
    next parts hparts =>
    split_ifs at h with hnil
    · exact .inr (.inr (.inr ((nameless_iff hparts).2 hnil)))
    -- Behind the checks of the text no answer is that the text is wrong.
    split at h
    · exact nomatch h
    split_ifs at h
    · split at h
      · exact nomatch h
      split at h
      · exact nomatch h
      split_ifs at h
      exact nomatch h
    · exact nomatch h
  · intro h
    unfold resolveIndexedPath
    by_cases hnul : nul ∈ raw.toList
    · exact if_pos hnul
    rw [if_neg hnul]
    by_cases hrooted : platform.isRooted raw.toList = true
    · exact if_pos hrooted
    rw [if_neg hrooted]
    have h := (h.resolve_left hnul).resolve_left hrooted
    cases hparts : resolveSegments [] (pathSegments raw.toList) with
    | none => rfl
    | some parts =>
      rw [climbs_iff, hparts, nameless_iff hparts] at h
      exact if_pos (h.resolve_left nofun)

end Checks

/-- The lines that are asked for: from the first one on, and eighty where no last one is given. -/
def ReadFileCall.Asks (call : ReadFileCall) (line : ℕ) : Prop :=
  (call.startLine.map UInt64.toNat).getD 1 ≤ line ∧
    match call.endLine with
    | some last => line ≤ last.toNat
    | none => line < max 1 ((call.startLine.map UInt64.toNat).getD 1) + 80

instance (call : ReadFileCall) (line : ℕ) : Decidable (call.Asks line) := by
  unfold ReadFileCall.Asks
  cases call.endLine <;> exact inferInstance

/-- The lines of a text that are asked for. -/
def ReadFileCall.linesOf (call : ReadFileCall) (content : String) : List String :=
  (((lines content).zipIdx 1).filter fun p => call.Asks p.2).map Prod.fst

theorem asks_iff {call : ReadFileCall} {length last : ℕ}
    (h : call.rangeEnd ((call.startLine.map fun n => n.toNat - 1).getD 0) length = some last)
    {line : ℕ} (hpos : 1 ≤ line) (hle : line ≤ length) :
    call.Asks line ↔
      (call.startLine.map fun n => n.toNat - 1).getD 0 < line ∧ line ≤ last := by
  unfold ReadFileCall.rangeEnd at h
  unfold ReadFileCall.Asks
  cases hend : call.endLine with
  | some n =>
    rw [hend] at h
    obtain rfl := Option.some.inj h
    cases call.startLine <;> simp <;> omega
  | none =>
    rw [hend] at h
    dsimp only at h
    split_ifs at h
    obtain rfl := Option.some.inj h
    cases call.startLine <;> simp <;> omega

theorem linesOf_eq {call : ReadFileCall} {content : String} {last : ℕ}
    (h : call.rangeEnd ((call.startLine.map fun n => n.toNat - 1).getD 0) (lines content).length =
      some last) :
    call.linesOf content = ((lines content).take last).drop
      ((call.startLine.map fun n => n.toNat - 1).getD 0) := by
  have hrange := Lib.filter_zipIdx_range (lines content) 1
    ((call.startLine.map fun n => n.toNat - 1).getD 0) last
  rw [Nat.add_sub_cancel, Nat.add_sub_cancel] at hrange
  rw [← hrange, ReadFileCall.linesOf]
  refine congrArg (List.map Prod.fst) (List.filter_congr fun p hp => ?_)
  obtain ⟨hpos, hlt, -⟩ := List.mem_zipIdx hp
  exact decide_eq_decide.2 (asks_iff h hpos (by omega))

/-- What the tool is meant to do: it does not die, reads only what the path leads to under the
    root, takes no path that is rooted or climbs for one in the project, and tells exactly the lines
    that were asked for, under a header that names them. -/
structure ReadFileFits (platform : Platform) (env : ReadEnv) (call : ReadFileCall) : Prop where
  total : executeReadFile platform env call ≠ .overflow
  confined : ∀ canonical, resolveIndexedPath platform env call.path = .ok canonical →
    LeadsTo platform env call.path canonical
  refused : Rooted call.path.toList ∨ Climbs call.path.toList →
    resolveIndexedPath platform env call.path = .error .invalid
  exact : ∀ canonical content, resolveIndexedPath platform env call.path = .ok canonical →
    env.readToString canonical = some content →
    ∃ first last,
      executeReadFile platform env call =
        .result ⟨call.path, some (first, last)⟩ (some call.path)
          (call.path ++ ":" ++ toString first ++ "-" ++ toString last ++ "\n" ++
            "\n".intercalate (call.linesOf content)) ∧
      ∀ line, first ≤ line ∧ line ≤ last ↔
        call.Asks line ∧ 1 ≤ line ∧ line ≤ (lines content).length

theorem rangeEnd_le {call : ReadFileCall} {first length last : ℕ}
    (h : call.rangeEnd first length = some last) : last ≤ length := by
  unfold ReadFileCall.rangeEnd at h
  split at h
  · exact Option.some.inj h ▸ Nat.min_le_right _ _
  · split_ifs at h
    exact Option.some.inj h ▸ Nat.min_le_right _ _

/-- An accepted file that can be read: what the tool makes of it. -/
theorem executeReadFile_of_leads {platform : Platform} {env : ReadEnv} {call : ReadFileCall}
    {canonical : List String} {content : String} (hleads : LeadsTo platform env call.path canonical)
    (hread : env.readToString canonical = some content) :
    executeReadFile platform env call =
      match call.rangeEnd ((call.startLine.map fun n => n.toNat - 1).getD 0)
        (lines content).length with
      | none => .overflow
      | some last =>
        .result ⟨call.path, some ((call.startLine.map fun n => n.toNat - 1).getD 0 + 1, last)⟩
          (some call.path)
          (call.path ++ ":" ++
            toString ((call.startLine.map fun n => n.toNat - 1).getD 0 + 1) ++ "-" ++
            toString last ++ "\n" ++ "\n".intercalate (call.linesOf content)) := by
  unfold executeReadFile
  rw [resolveIndexedPath_ok_iff.2 hleads]
  dsimp only
  rw [hread]
  dsimp only
  cases hend : call.rangeEnd ((call.startLine.map fun n => n.toNat - 1).getD 0)
      (lines content).length with
  | none => rfl
  | some last =>
    dsimp only
    rw [linesOf_eq hend]
    split
    · rfl
    · next hlt =>
      rw [List.drop_of_length_le (by rw [List.length_take]; omega)]

/-- The addition fits unless the first line is among the last numbers and no last one is given. -/
theorem rangeEnd_eq_none_iff {call : ReadFileCall} {length : ℕ} :
    call.rangeEnd ((call.startLine.map fun n => n.toNat - 1).getD 0) length = none ↔
      call.endLine = none ∧ ∃ n ∈ call.startLine, usizeBound - 80 < n.toNat := by
  unfold ReadFileCall.rangeEnd
  cases call.endLine with
  | some n => simp
  | none =>
    have hfits : usizeBound ≤ (call.startLine.map fun n => n.toNat - 1).getD 0 + 80 ↔
        ∃ n ∈ call.startLine, usizeBound - 80 < n.toNat := by
      cases call.startLine with
      | none => simp [usizeBound]
      | some n =>
        simp [usizeBound]
        omega
    rw [← hfits]
    dsimp only
    split
    · next hlt => exact iff_of_false nofun fun h => absurd h.2 (Nat.not_le.2 hlt)
    · next hge => exact iff_of_true rfl ⟨rfl, Nat.not_lt.1 hge⟩

/-- Where the tool does what it is meant to: no file is read from a line on that is among the last
    numbers with no last line given, and a rooted path is rooted for the platform or has another
    flaw. -/
theorem readFileLaw (platform : Platform) (env : ReadEnv) (call : ReadFileCall) :
    ReadFileFits platform env call ↔
      ((∃ canonical content, LeadsTo platform env call.path canonical ∧
          env.readToString canonical = some content) →
        call.endLine = none → ∀ n ∈ call.startLine, n.toNat ≤ usizeBound - 80) ∧
      (Rooted call.path.toList → Malformed platform call.path) := by
  constructor
  · intro h
    constructor
    · rintro ⟨canonical, content, hleads, hread⟩ hend n hn
      by_contra hlarge
      refine h.total ?_
      rw [executeReadFile_of_leads hleads hread,
        rangeEnd_eq_none_iff.2 ⟨hend, n, hn, by omega⟩]
    · intro hrooted
      exact resolveIndexedPath_invalid_iff.1 (h.refused (.inl hrooted))
  · rintro ⟨hfirst, hrooted⟩
    have hread : ∀ canonical content, LeadsTo platform env call.path canonical →
        env.readToString canonical = some content →
        ∃ last, call.rangeEnd ((call.startLine.map fun n => n.toNat - 1).getD 0)
          (lines content).length = some last := by
      intro canonical content hleads hcontent
      refine Option.ne_none_iff_exists'.1 fun hnone => ?_
      obtain ⟨hend, n, hn, hlarge⟩ := rangeEnd_eq_none_iff.1 hnone
      have := hfirst ⟨canonical, content, hleads, hcontent⟩ hend n hn
      omega
    refine ⟨?_, fun canonical h => resolveIndexedPath_ok_iff.1 h, ?_, ?_⟩
    · cases hresolve : resolveIndexedPath platform env call.path with
      | error denied => simp [executeReadFile, hresolve]
      | ok canonical =>
        cases hcontent : env.readToString canonical with
        | none => simp [executeReadFile, hresolve, hcontent]
        | some content =>
          have hleads := resolveIndexedPath_ok_iff.1 hresolve
          obtain ⟨last, hlast⟩ := hread canonical content hleads hcontent
          rw [executeReadFile_of_leads hleads hcontent, hlast]
          exact nofun
    · rintro (h | h)
      · exact resolveIndexedPath_invalid_iff.2 (hrooted h)
      · exact resolveIndexedPath_invalid_iff.2 (.inr (.inr (.inl h)))
    · intro canonical content hresolve hcontent
      have hleads := resolveIndexedPath_ok_iff.1 hresolve
      obtain ⟨last, hlast⟩ := hread canonical content hleads hcontent
      refine ⟨_, last, by rw [executeReadFile_of_leads hleads hcontent, hlast], fun line => ?_⟩
      have hle := rangeEnd_le hlast
      constructor
      · rintro ⟨hfirst, hline⟩
        exact ⟨(asks_iff hlast (by omega) (by omega)).2 ⟨by omega, hline⟩, by omega, by omega⟩
      · rintro ⟨hasks, hpos, hlength⟩
        obtain ⟨hlt, hline⟩ := (asks_iff hlast hpos hlength).1 hasks
        exact ⟨by omega, hline⟩

/-- A project with one file. -/
def smallProject : ReadEnv where
  files := some ["src/lib.rs"]
  projectRoot := some ["home", "p"]
  canonicalize root rel := if rel = "src/lib.rs" then some (root ++ ["src", "lib.rs"]) else none
  readToString _ := some "fn main() \x7b\x7d\n"

theorem readFile_rebased :
    resolveIndexedPath .unix smallProject "\\src\\lib.rs" = .ok ["home", "p", "src", "lib.rs"] ∧
      Rooted "\\src\\lib.rs".toList ∧
      resolveIndexedPath .unix smallProject "C:/src/lib.rs" = .error .notIndexed ∧
      Rooted "C:/src/lib.rs".toList ∧
      executeReadFile .unix smallProject ⟨"src/lib.rs", some 18446744073709551615, none⟩ =
        .overflow := by
  refine ⟨by decide, .inr (.inl rfl), by decide, .inr (.inr ⟨_, _, by decide, rfl⟩), ?_⟩
  decide

end Spelunk
