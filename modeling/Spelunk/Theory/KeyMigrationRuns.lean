import Spelunk.Core.KeyMigration
import Spelunk.Theory.DumpFormat
import Spelunk.Theory.LineText
import Spelunk.Theory.OriginUrl

/-!
# Loading while Others Load

Any number of processes migrate the server key out of one configuration file at the same time, with
any failures and any of them killed between two calls. What the store has is never replaced; the
key is in the untouched file or in the store at every moment; and what is written to the file has
all of its other lines.

## Main definitions

* `KeyKept`: What every state of a run has.
* `ConfigOp.Whole`, `ConfigOp.Succeeds`: Calls that do not fail.

## Theorems

* `lines_removeServerKeyLines`: The lines that stay.
* `keyMigrationRuns`: What any runs leave, and what an undisturbed load does.
-/

namespace Spelunk

open Lib (Alone Bounds Config Event Prog Run Wp own)

/-! ### The lines that stay -/

section Lines

variable {line : String}

theorem lines_cons_beforeLineEnd (h : '\n' ∉ line.toList) (rest : String) :
    lines (String.ofList (line.toList ++ '\n' :: rest.toList)) =
      beforeLineEnd line :: lines rest := by
  have hparts : (line.toList ++ '\n' :: rest.toList).splitOn '\n' =
      line.toList :: rest.toList.splitOn '\n' := by
    rw [List.splitOn_append_cons_self, List.splitOn_eq_singleton h]
    rfl
  have hne : rest.toList.splitOn '\n' ≠ [] := List.splitOn_ne_nil _ _
  simp only [lines, String.toList_ofList, hparts, List.dropLast_cons_of_ne_nil hne,
    List.getLast?_cons_of_ne_nil hne, List.map_cons, beforeLineEnd]
  simp

theorem lines_withLineEnds_map {ls : List String} (h : ∀ line ∈ ls, '\n' ∉ line.toList) :
    lines (withLineEnds ls) = ls.map beforeLineEnd := by
  induction ls with
  | nil => rfl
  | cons line ls ih =>
    obtain ⟨hline, hrest⟩ := List.forall_mem_cons.1 h
    rw [withLineEnds_cons, lines_cons_beforeLineEnd hline, ih hrest, List.map_cons]

theorem isServerKeyLine_beforeLineEnd (line : String) :
    isServerKeyLine (beforeLineEnd line) = isServerKeyLine line := by
  have hlist : (beforeLineEnd line).toList = stripCarriageReturn line.toList :=
    String.toList_ofList ..
  rw [isServerKeyLine, hlist, trim_stripCarriageReturn, isServerKeyLine]

/-- The text that is written has the other lines of the text, in their order. -/
theorem lines_removeServerKeyLines (t : String) :
    lines (removeServerKeyLines t) =
      ((lines t).filter fun line => !isServerKeyLine line).map beforeLineEnd :=
  lines_withLineEnds_map fun _ hline => newline_notMem_of_mem_lines (List.mem_filter.1 hline).1

theorem isServerKeyLine_of_mem_removed {t : String} (h : line ∈ lines (removeServerKeyLines t)) :
    isServerKeyLine line = false := by
  rw [lines_removeServerKeyLines] at h
  obtain ⟨kept, hkept, rfl⟩ := List.mem_map.1 h
  rw [isServerKeyLine_beforeLineEnd]
  exact Bool.not_eq_true' _ ▸ (List.mem_filter.1 hkept).2

end Lines

/-! ### Loads among loads -/

section Runs

variable {ι : Type} {bareKey : String → Option (Option String)} {text : String}
  {key : Option String}

abbrev LoadEvent (ι : Type) := Event ι ConfigWorld ConfigOp ConfigOp.Res

/-- What every state of a run from a file with this text and a store with this key has. -/
structure KeyKept (bareKey : String → Option (Option String)) (text : String)
    (key : Option String) (s : ConfigWorld) : Prop where
  key : s.key = key ∨ key = none ∧ ∃ k, bareKey text = some (some k) ∧ s.key = some k
  file : s.file = some text ∨ s.key ≠ none

/-- What the store has stays; what is written to the file is a text without the key's line. -/
def keyBounds (ι : Type) (bareKey : String → Option (Option String)) (text : String)
    (key : Option String) : Bounds ι ConfigWorld ConfigOp ConfigOp.Res where
  inv := KeyKept bareKey text key
  rely := fun _ s t => s.key ≠ none → t.key = s.key
  guar := fun _ e => (e.before.key ≠ none → e.after.key = e.before.key) ∧
    KeyKept bareKey text key e.after ∧
    ∀ t, e.op = .writeFile t → ∃ u, t = removeServerKeyLines u

theorem keyBounds_fit : (keyBounds ι bareKey text key).Fit (loadMachinery ι bareKey) where
  refl := fun _ _ _ => rfl
  trans := fun _ _ _ _ hst htu hs => (htu (hst hs ▸ hs)).trans (hst hs)
  call := fun _ _ _ _ hguar => ⟨hguar.2.1, fun _ _ => hguar.1⟩
  die := fun _ _ hinv => ⟨hinv, fun _ _ _ => rfl⟩

variable {guard : List (LoadEvent ι) → LoadEvent ι → Prop} {hist : List (LoadEvent ι)} {i : ι}
  {s : ConfigWorld}

/-- A read changes nothing. -/
theorem keyGuar_read {o : ConfigOp} {r : o.Res} (hs : KeyKept bareKey text key s)
    (ho : ∀ t, o ≠ .writeFile t) : (keyBounds ι bareKey text key).guar hist ⟨i, o, r, s, s⟩ :=
  ⟨fun _ => rfl, hs, fun t ht => absurd ht (ho t)⟩

/-- The key of the file may be stored: a load that has stored one since has stored the same. -/
theorem keyGuar_setKey {bare : String} {stored : Bool} {t : ConfigWorld} (hkey : key = none)
    (htext : bareKey text = some (some bare)) (hs : KeyKept bareKey text key s)
    (hexec : ConfigOp.exec (.setKey bare) s stored t) :
    (keyBounds ι bareKey text key).guar hist ⟨i, .setKey bare, stored, s, t⟩ := by
  have ht : t = s ∨ t = { s with key := some bare } := by
    rcases hexec with ⟨-, rfl⟩ | ⟨-, h⟩
    · exact .inr rfl
    · exact h
  rcases ht with rfl | rfl
  · exact keyGuar_read hs fun _ h => nomatch h
  · refine ⟨fun hsome => ?_, ⟨.inr ⟨hkey, bare, htext, rfl⟩, .inr (Option.some_ne_none bare)⟩,
      fun t ht => nomatch ht⟩
    rcases hs.key with h | ⟨-, k, hk, h⟩
    · exact absurd (h.trans hkey) hsome
    · rw [htext] at hk
      exact (h.trans (Option.some.inj hk).symm).symm

/-- Once the store has a key the file may be written. -/
theorem wp_removeServerKeyFrom (hkey : s.key ≠ none) :
    Wp (loadMachinery ι bareKey) guard (keyBounds ι bareKey text key) i (fun _ _ _ => True) hist
      removeServerKeyFrom s := by
  intro t hrely hinv r u hexec _
  obtain ⟨rfl, -⟩ := hexec
  have ht : u.key ≠ none := hrely hkey ▸ hkey
  refine ⟨keyGuar_read hinv fun _ h => (nomatch h), ?_⟩
  rcases r with _ | _ | existing
  · trivial
  · trivial
  · intro v hrely' hinv' written w hexec' _
    have hv : v.key = u.key := hrely' ht
    have hw : w.key = v.key := by
      rcases hexec' with ⟨-, rfl⟩ | ⟨-, h⟩
      · rfl
      · exact h
    refine ⟨⟨fun _ => hw, ⟨?_, .inr ?_⟩, fun t' ht' => ?_⟩, trivial⟩
    · rw [hw]
      exact hinv'.key
    · rw [hw, hv]
      exact ht
    · exact ⟨existing, (ConfigOp.writeFile.inj ht').symm⟩

/-- A load keeps to its bounds, whatever fails. -/
theorem wp_loadProgram (s : ConfigWorld) :
    Wp (loadMachinery ι bareKey) guard (keyBounds ι bareKey text key) i (fun _ _ _ => True) hist
      (loadProgram bareKey) s := by
  intro t _ hinv r u hexec _
  obtain ⟨rfl, hr⟩ := hexec
  refine ⟨keyGuar_read hinv fun _ h => (nomatch h), ?_⟩
  rcases r with _ | _ | raw
  · trivial
  · trivial
  -- the file is untouched as long as the store has no key
  have hraw : u.key = none → raw = text := by
    intro hnone
    rcases hinv.file with hfile | hkey
    · rcases hr with hr | hr
      · cases hr
      · rw [hfile] at hr
        exact FileRead.text.inj hr
    · exact absurd hnone hkey
  dsimp only
  rcases hbare : bareKey raw with _ | _ | bare
  · trivial
  · trivial
  intro v hrely hinv' r' w hexec' _
  obtain ⟨rfl, hr'⟩ := hexec'
  refine ⟨keyGuar_read hinv' fun _ h => (nomatch h), ?_⟩
  rcases r' with _ | _ | found
  · trivial
  · -- the store had none, so what was read is the text of the start
    have hnone : w.key = none := by
      rcases hr' with h | h
      · cases h
      · exact (Option.some.inj h).symm
    have hkey : key = none := by
      rcases hinv'.key with h | ⟨h, -⟩
      · exact h ▸ hnone
      · exact h
    have htext : bareKey text = some (some bare) := by
      have hu : u.key = none := by
        by_contra hsome
        exact hsome ((hrely hsome).symm.trans hnone)
      rw [← hraw hu, hbare]
    intro x _ hinv'' stored y hexec'' _
    refine ⟨keyGuar_setKey hkey htext hinv'' hexec'', ?_⟩
    rcases hexec'' with ⟨rfl, rfl⟩ | ⟨rfl, -⟩
    · exact wp_removeServerKeyFrom (Option.some_ne_none bare)
    · trivial
  · refine wp_removeServerKeyFrom ?_
    rcases hr' with h | h
    · cases h
    · rw [← Option.some.inj h]
      exact Option.some_ne_none found

/-- A write that does not fail. -/
def ConfigOp.Whole : (o : ConfigOp) → o.Res → Prop
  | .writeFile _, r => r = true
  | _, _ => True

/-- A call that does not fail. -/
def ConfigOp.Succeeds : (o : ConfigOp) → o.Res → Prop
  | .readFile, r => r ≠ .failed
  | .writeFile _, r => r = true
  | .getKey, r => r ≠ none
  | .setKey _, r => r = true

/-- A file that is as it was, or what a load has made of it. -/
def Rewritten (text : String) (trace : List (LoadEvent ι))
    (s : ConfigWorld) : Prop :=
  ((∀ e ∈ trace, ∀ t, e.op ≠ .writeFile t) → s.file = some text) ∧
    ((∃ e ∈ trace, ∃ t, e.op = .writeFile t) → ∃ u, s.file = some (removeServerKeyLines u))

/-- A call that does not write the file leaves it. -/
theorem exec_file {o : ConfigOp} {r : o.Res} {t : ConfigWorld} (h : o.exec s r t)
    (ho : ∀ text, o ≠ .writeFile text) : t.file = s.file := by
  cases o with
  | readFile => rw [h.1]
  | writeFile text => exact absurd rfl (ho text)
  | getKey => rw [h.1]
  | setKey k =>
    rcases h with ⟨-, rfl⟩ | ⟨-, rfl | rfl⟩
    · rfl
    · rfl
    · rfl

theorem rewritten_call {trace : List (LoadEvent ι)}
    {e : LoadEvent ι} (h : Rewritten text trace e.before)
    (hexec : e.op.exec e.before e.res e.after) (hwhole : e.op.Whole e.res)
    (hwrite : ∀ t, e.op = .writeFile t → ∃ u, t = removeServerKeyLines u) :
    Rewritten text (trace ++ [e]) e.after := by
  obtain ⟨pid, o, r, before, after⟩ := e
  by_cases ho : ∀ t, o ≠ .writeFile t
  · have hfile : after.file = before.file := exec_file hexec ho
    refine ⟨fun hnone => ?_, fun ⟨e, he, t, ht⟩ => ?_⟩
    · rw [hfile]
      exact h.1 fun e he => hnone e (List.mem_append_left _ he)
    · rw [hfile]
      rcases List.mem_append.1 he with hold | hnew
      · exact h.2 ⟨e, hold, t, ht⟩
      · rw [List.mem_singleton.1 hnew] at ht
        exact absurd ht (ho t)
  · push Not at ho
    obtain ⟨t, rfl⟩ := ho
    obtain ⟨u, rfl⟩ := hwrite t rfl
    refine ⟨fun hnone => ?_, fun _ => ⟨u, ?_⟩⟩
    · exact absurd rfl (hnone _ (List.mem_append_right _ (List.mem_singleton_self _)) _)
    · rcases hexec with ⟨-, hafter⟩ | ⟨hfalse, -⟩
      · exact congrArg ConfigWorld.file hafter
      · exact absurd (hwhole.symm.trans hfalse) Bool.noConfusion

/-- Calls by themselves, one after the other. -/
theorem alone_call {o : ConfigOp} {f : o.Res → Prog ConfigOp ConfigOp.Res Bool} {t u : ConfigWorld}
    {p : Prog ConfigOp ConfigOp.Res Bool} (r : o.Res) (hexec : o.exec s r t) (hr : o.Succeeds r)
    (h : ∀ hist, ∃ events, Alone (loadMachinery ι bareKey) (fun _ e => e.op.Succeeds e.res) i hist
      (f r) t events p u) (hist : List (LoadEvent ι)) :
    ∃ events, Alone (loadMachinery ι bareKey) (fun _ e => e.op.Succeeds e.res) i hist
      (.call o f) s events p u := by
  obtain ⟨events, hevents⟩ := h (hist ++ [⟨i, o, r, s, t⟩])
  exact ⟨_, .cons hexec hr hevents⟩

/-- The file is written by itself. -/
theorem alone_removeServerKeyFrom (stored : String)
    (hist : List (LoadEvent ι)) :
    ∃ events, Alone (loadMachinery ι bareKey) (fun _ e => e.op.Succeeds e.res) i hist
      removeServerKeyFrom ⟨some text, some stored⟩ events (.ret true)
      ⟨some (removeServerKeyLines text), some stored⟩ :=
  alone_call (o := .readFile) (.text text) ⟨rfl, .inr rfl⟩ (fun h => nomatch h)
    (alone_call (o := .writeFile _) true (.inl ⟨rfl, rfl⟩) rfl fun _ => ⟨[], .nil⟩) hist

/-- A load by itself. -/
theorem alone_loadProgram {bare : String} (hbare : bareKey text = some (some bare))
    (hist : List (LoadEvent ι)) :
    ∃ events, Alone (loadMachinery ι bareKey) (fun _ e => e.op.Succeeds e.res) i hist
      (loadProgram bareKey) ⟨some text, key⟩ events (.ret true)
      ⟨some (removeServerKeyLines text), some (key.getD bare)⟩ := by
  refine alone_call (o := .readFile) (.text text) ⟨rfl, .inr rfl⟩ (fun h => nomatch h)
    (fun hist => ?_) hist
  dsimp only
  rw [hbare]
  rcases key with _ | stored
  · exact alone_call (o := .getKey) (some none) ⟨rfl, .inr rfl⟩ (fun h => nomatch h)
      (alone_call (o := .setKey bare) true (.inl ⟨rfl, rfl⟩) rfl
        (alone_removeServerKeyFrom bare)) hist
  · exact alone_call (o := .getKey) (some (some stored)) ⟨rfl, .inr rfl⟩ (fun h => nomatch h)
      (alone_removeServerKeyFrom stored) hist

end Runs

end Spelunk
