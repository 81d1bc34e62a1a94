import Mathlib.Algebra.GroupWithZero.Nat
import Mathlib.Data.List.Chain
import Spelunk.Core.Chunker

/-!
# The Sliding Window

What the windows of a text are. They cover it from its first line to its last without a
gap, in the order of their first lines; two that follow each other share no more than an
eighth of the budget, and one that exceeds the budget is a single line. A window can end
where the one before it ends: the line behind a window may be too long for the lines the
next one starts with, which are then a window of their own with nothing new in it.

## Main definitions

* `textOffset`: Where a line starts in the text of the lines.
* `WindowsCover`: What holds of every text.
* `LoopAt`, `NextFits`: The starts the loop comes to, and that the line behind a window
  fits behind the lines the next one starts with.

## Theorems

* `windowEnd_spec`, `stepBack_spec`: The two inner loops.
* `slidingWindow_covers`: The windows cover the text.
* `nextFits_of_short`: Lines of at most seven eighths of the budget always fit.
* `slidingWindowLaw`: Every window has a line of its own exactly if the lines fit.
* `slidingWindow_inside`: A window inside the one before it.
-/

namespace Spelunk

/-! ### Where lines start -/

/-- Where a line starts in the text of the lines, each with its line end. -/
def textOffset (lineChars : List ℕ) (k : ℕ) : ℕ :=
  ((lineChars.take k).map (· + 1)).sum

theorem textOffset_succ {lineChars : List ℕ} {k : ℕ} (h : k < lineChars.length) :
    textOffset lineChars (k + 1) = textOffset lineChars k + (lineChars.getD k 0 + 1) := by
  unfold textOffset
  rw [List.take_add_one, List.getElem?_eq_getElem h, List.getD_eq_getElem?_getD,
    List.getElem?_eq_getElem h, List.map_append, List.sum_append]
  simp only [Option.toList_some, List.map_cons, List.map_nil, List.sum_cons, List.sum_nil,
    add_zero, Option.getD_some]

theorem textOffset_mono (lineChars : List ℕ) {k l : ℕ} (h : k ≤ l) :
    textOffset lineChars k ≤ textOffset lineChars l := by
  induction l, h using Nat.le_induction with
  | base => exact le_rfl
  | succ l _ ih =>
    by_cases hl : l < lineChars.length
    · rw [textOffset_succ hl]
      omega
    · have hsame : textOffset lineChars (l + 1) = textOffset lineChars l := by
        unfold textOffset
        rw [List.take_of_length_le (by omega), List.take_of_length_le (by omega)]
      rwa [hsame]

theorem textOffset_add (lineChars : List ℕ) (k l : ℕ) :
    textOffset lineChars (k + l) = textOffset lineChars k + textOffset (lineChars.drop k) l := by
  unfold textOffset
  rw [List.take_add, List.map_append, List.sum_append]

theorem textOffset_cons (chars : ℕ) (rest : List ℕ) (k : ℕ) :
    textOffset (chars :: rest) (k + 1) = chars + 1 + textOffset rest k := by
  simp [textOffset]

/-- A joined text is as long as its lines with their line ends, but for the last. -/
theorem length_joinLines {ls : List String} {start stop : ℕ} (h : start < stop)
    (hstop : stop ≤ ls.length) :
    textOffset (ls.map String.length) start + (joinLines ls start stop).length + 1 =
      textOffset (ls.map String.length) stop := by
  have hjoin : ∀ part : List String, part ≠ [] →
      ("\n".intercalate part).length + 1 = textOffset (part.map String.length) part.length := by
    intro part hpart
    induction part with
    | nil => exact absurd rfl hpart
    | cons line part ih =>
      cases part with
      | nil => simp [textOffset, String.intercalate_singleton]
      | cons next part =>
        have hrest := ih (by simp)
        rw [String.intercalate_cons_cons, String.length_append, String.length_append,
          List.map_cons, List.length_cons, textOffset_cons, ← hrest]
        have hnewline : "\n".length = 1 := rfl
        omega
  have hpart : (ls.drop start).take (stop - start) ≠ [] := by
    intro hnil
    have hlen := congrArg List.length hnil
    simp at hlen
    omega
  have hlen : ((ls.drop start).take (stop - start)).length = stop - start := by
    simp
    omega
  have hoffset : textOffset (((ls.drop start).take (stop - start)).map String.length)
      (stop - start) = textOffset ((ls.map String.length).drop start) (stop - start) := by
    rw [List.map_take, List.map_drop]
    unfold textOffset
    rw [List.take_take, min_self]
  have hsplit := textOffset_add (ls.map String.length) start (stop - start)
  have hall := hjoin _ hpart
  rw [hlen, hoffset] at hall
  rw [Nat.add_sub_cancel' h.le] at hsplit
  unfold joinLines
  omega

/-! ### The inner loops -/

/-- The lines taken fit, and the next one does not. -/
theorem takeLines_spec (budgetChars acc : ℕ) (rest : List ℕ) :
    takeLines budgetChars acc rest ≤ rest.length ∧
      (0 < takeLines budgetChars acc rest →
        acc + textOffset rest (takeLines budgetChars acc rest) ≤ budgetChars) ∧
      (takeLines budgetChars acc rest < rest.length →
        budgetChars < acc + textOffset rest (takeLines budgetChars acc rest + 1)) := by
  induction rest generalizing acc with
  | nil => simp [takeLines]
  | cons chars rest ih =>
    obtain ⟨hlen, hfits, hnext⟩ := ih (acc + (chars + 1))
    unfold takeLines
    by_cases h : budgetChars < acc + (chars + 1)
    · rw [if_pos h]
      refine ⟨Nat.zero_le _, fun h0 => absurd h0 (lt_irrefl 0), fun _ => ?_⟩
      rw [textOffset_cons]
      omega
    · rw [if_neg h, List.length_cons, textOffset_cons, textOffset_cons]
      refine ⟨by omega, fun _ => ?_, fun hlt => ?_⟩
      · rcases Nat.eq_zero_or_pos (takeLines budgetChars (acc + (chars + 1)) rest) with h0 | hpos
        · rw [h0]
          simp only [textOffset, List.take_zero, List.map_nil, List.sum_nil]
          omega
        · have := hfits hpos
          omega
      · have := hnext (by omega)
        omega

/-- A window has its first line and then the lines that fit. -/
theorem windowEnd_spec (budgetChars : ℕ) {lineChars : List ℕ} {start : ℕ}
    (h : start < lineChars.length) :
    start < windowEnd lineChars budgetChars start ∧
      windowEnd lineChars budgetChars start ≤ lineChars.length ∧
      (start + 1 < windowEnd lineChars budgetChars start →
        textOffset lineChars (windowEnd lineChars budgetChars start) ≤
          textOffset lineChars start + budgetChars + 1) ∧
      (windowEnd lineChars budgetChars start < lineChars.length →
        textOffset lineChars start + budgetChars + 1 <
          textOffset lineChars (windowEnd lineChars budgetChars start + 1)) := by
  have hdrop := List.drop_eq_getElem_cons h
  have hend : windowEnd lineChars budgetChars start =
      start + 1 + takeLines budgetChars lineChars[start] (lineChars.drop (start + 1)) := by
    unfold windowEnd
    rw [hdrop]
  have hfirst := textOffset_succ h
  rw [List.getD_eq_getElem?_getD, List.getElem?_eq_getElem h, Option.getD_some] at hfirst
  obtain ⟨hlen, hfits, hnext⟩ :=
    takeLines_spec budgetChars lineChars[start] (lineChars.drop (start + 1))
  rw [List.length_drop] at hlen hnext
  rw [hend]
  refine ⟨by omega, by omega, fun hlt => ?_, fun hlt => ?_⟩
  · have := hfits (by omega)
    rw [textOffset_add, hfirst]
    omega
  · have := hnext (by omega)
    rw [add_assoc (start + 1), textOffset_add, hfirst]
    omega

theorem stepBackFrom_spec {lineChars : List ℕ} {overlapChars overlap stop : ℕ} (start : ℕ)
    (hstop : stop ≤ lineChars.length) (hoverlap : overlap ≤ overlapChars) :
    stepBackFrom lineChars overlapChars start overlap stop ≤ stop ∧
      overlap + textOffset lineChars stop ≤
        textOffset lineChars (stepBackFrom lineChars overlapChars start overlap stop) +
          overlapChars := by
  induction stop generalizing overlap with
  | zero =>
    refine ⟨le_rfl, ?_⟩
    rw [stepBackFrom]
    omega
  | succ nextStart ih =>
    have hlt : nextStart < lineChars.length := by omega
    have hsucc := textOffset_succ hlt
    unfold stepBackFrom
    split
    · dsimp only
      split
      · exact ⟨le_rfl, by omega⟩
      · next hfits =>
        obtain ⟨hle, hkept⟩ := ih (by omega) (not_lt.1 hfits)
        exact ⟨by omega, by omega⟩
    · exact ⟨le_rfl, by omega⟩

/-- The next window starts behind the start of a window, and the two share what fits. -/
theorem stepBack_spec {lineChars : List ℕ} (overlapChars : ℕ) {start stop : ℕ}
    (h : start < stop) (hstop : stop ≤ lineChars.length) :
    start < stepBack lineChars overlapChars start stop ∧
      stepBack lineChars overlapChars start stop ≤ stop ∧
      textOffset lineChars stop ≤
        textOffset lineChars (stepBack lineChars overlapChars start stop) + overlapChars := by
  obtain ⟨hle, hshared⟩ :=
    stepBackFrom_spec start hstop (Nat.zero_le overlapChars)
  exact ⟨lt_stepBackFrom lineChars overlapChars 0 h, hle, by rwa [zero_add] at hshared⟩

/-! ### The loop -/

section Loop

variable (lineChars : List ℕ) (budgetChars overlapChars : ℕ)

/-- From the start of a window to that of the next. -/
def LoopStep (start next : ℕ) : Prop :=
  windowEnd lineChars budgetChars start < lineChars.length ∧
    next = stepBack lineChars overlapChars start (windowEnd lineChars budgetChars start)

/-- The starts the loop comes to. -/
def LoopAt (start : ℕ) : Prop :=
  Relation.ReflTransGen (LoopStep lineChars budgetChars overlapChars) 0 start

/-- The line behind a window fits behind the lines the next window starts with, if there is
    such a line and there are such lines. -/
def NextFits (start : ℕ) : Prop :=
  ∀ next, LoopStep lineChars budgetChars overlapChars start next →
    next < windowEnd lineChars budgetChars start →
      textOffset lineChars (windowEnd lineChars budgetChars start) - textOffset lineChars next +
        lineChars.getD (windowEnd lineChars budgetChars start) 0 ≤ budgetChars

variable {lineChars budgetChars overlapChars}

theorem windowsFrom_last {start : ℕ} (h : start < lineChars.length)
    (hstop : lineChars.length ≤ windowEnd lineChars budgetChars start) :
    windowsFrom lineChars budgetChars overlapChars start =
      [(start, windowEnd lineChars budgetChars start)] := by
  rw [windowsFrom, if_pos h]
  exact if_pos hstop

theorem windowsFrom_step {start : ℕ} (h : start < lineChars.length)
    (hstop : windowEnd lineChars budgetChars start < lineChars.length) :
    windowsFrom lineChars budgetChars overlapChars start =
      (start, windowEnd lineChars budgetChars start) ::
        windowsFrom lineChars budgetChars overlapChars
          (stepBack lineChars overlapChars start (windowEnd lineChars budgetChars start)) := by
  rw [windowsFrom, if_pos h]
  exact if_neg (not_le.2 hstop)

/-- What holds of the last window, and of a window if of the next one, holds of all. -/
theorem loop_induction (budgetChars overlapChars : ℕ)
    {motive : ∀ start, start < lineChars.length → Prop}
    (last : ∀ start h, lineChars.length ≤ windowEnd lineChars budgetChars start → motive start h)
    (step : ∀ start h next hnext,
      LoopStep lineChars budgetChars overlapChars start next → motive next hnext → motive start h)
    (start : ℕ) (h : start < lineChars.length) : motive start h := by
  induction hrest : lineChars.length - start using Nat.strong_induction_on generalizing start with
  | _ rest ih =>
    by_cases hstop : windowEnd lineChars budgetChars start < lineChars.length
    · have hstart := lt_windowEnd budgetChars h
      obtain ⟨hlt, hle, -⟩ := stepBack_spec overlapChars hstart hstop.le
      have hnext := hle.trans_lt hstop
      exact step start h _ hnext ⟨hstop, rfl⟩ (ih _ (by omega) _ hnext rfl)
    · exact last start h (not_lt.1 hstop)

theorem head?_windowsFrom (budgetChars overlapChars : ℕ) {start : ℕ}
    (h : start < lineChars.length) :
    (windowsFrom lineChars budgetChars overlapChars start).head? =
      some (start, windowEnd lineChars budgetChars start) := by
  by_cases hstop : windowEnd lineChars budgetChars start < lineChars.length
  · rw [windowsFrom_step h hstop]
    rfl
  · rw [windowsFrom_last h (not_lt.1 hstop)]
    rfl

theorem getLast?_windowsFrom (budgetChars overlapChars : ℕ) {start : ℕ}
    (h : start < lineChars.length) :
    (windowsFrom lineChars budgetChars overlapChars start).getLast?.map Prod.snd =
      some lineChars.length := by
  induction start, h using loop_induction budgetChars overlapChars with
  | last start h hstop =>
    rw [windowsFrom_last h hstop]
    exact congrArg some (le_antisymm (windowEnd_spec budgetChars h).2.1 hstop)
  | step start h next hnext hstep ih =>
    obtain ⟨hstop, rfl⟩ := hstep
    have hhead := head?_windowsFrom budgetChars overlapChars hnext
    rw [windowsFrom_step h hstop]
    cases hrest : windowsFrom lineChars budgetChars overlapChars (stepBack lineChars overlapChars
      start (windowEnd lineChars budgetChars start)) with
    | nil => simp [hrest] at hhead
    | cons w ws => rwa [List.getLast?_cons_cons, ← hrest]

theorem mem_windowsFrom {start : ℕ} (h : start < lineChars.length) {w : ℕ × ℕ}
    (hw : w ∈ windowsFrom lineChars budgetChars overlapChars start) :
    w.1 < lineChars.length ∧ w.2 = windowEnd lineChars budgetChars w.1 := by
  induction start, h using loop_induction budgetChars overlapChars with
  | last start h hstop =>
    rw [windowsFrom_last h hstop, List.mem_singleton] at hw
    exact hw ▸ ⟨h, rfl⟩
  | step start h next hnext hstep ih =>
    obtain ⟨hstop, rfl⟩ := hstep
    rw [windowsFrom_step h hstop] at hw
    rcases List.mem_cons.1 hw with rfl | hw
    · exact ⟨h, rfl⟩
    · exact ih hw

/-- Windows that follow each other. -/
theorem isChain_windowsFrom {start : ℕ} (h : start < lineChars.length) :
    (windowsFrom lineChars budgetChars overlapChars start).IsChain fun v w =>
      LoopStep lineChars budgetChars overlapChars v.1 w.1 := by
  induction start, h using loop_induction budgetChars overlapChars with
  | last start h hstop =>
    rw [windowsFrom_last h hstop]
    exact List.IsChain.singleton _
  | step start h next hnext hstep ih =>
    obtain ⟨hstop, rfl⟩ := hstep
    rw [windowsFrom_step h hstop, List.isChain_cons]
    refine ⟨fun w hw => ?_, ih⟩
    rw [head?_windowsFrom budgetChars overlapChars hnext] at hw
    cases hw
    exact ⟨hstop, rfl⟩

/-- The next window ends behind a window exactly if the line behind it fits. -/
theorem windowEnd_lt_iff {start next : ℕ} (h : start < lineChars.length)
    (hstep : LoopStep lineChars budgetChars overlapChars start next) :
    windowEnd lineChars budgetChars start < windowEnd lineChars budgetChars next ↔
      (next < windowEnd lineChars budgetChars start →
        textOffset lineChars (windowEnd lineChars budgetChars start) - textOffset lineChars next +
          lineChars.getD (windowEnd lineChars budgetChars start) 0 ≤ budgetChars) := by
  obtain ⟨hstop, rfl⟩ := hstep
  obtain ⟨hlt, hle, -⟩ := stepBack_spec overlapChars (lt_windowEnd budgetChars h) hstop.le
  set stop := windowEnd lineChars budgetChars start
  set next := stepBack lineChars overlapChars start stop
  obtain ⟨hnext, hlen, hfits, hover⟩ := windowEnd_spec budgetChars (hle.trans_lt hstop)
  have hsucc := textOffset_succ hstop
  have hmono := textOffset_mono lineChars hle
  constructor
  · intro hends hback
    have hkept := hfits (by omega)
    have := textOffset_mono lineChars (Nat.succ_le_of_lt hends)
    simp only [Nat.succ_eq_add_one] at this
    omega
  · intro hline
    rcases hle.eq_or_lt with heq | hback
    · rwa [heq] at hnext ⊢
    · by_contra hnot
      have hbefore := hover (by omega)
      have := textOffset_mono lineChars (Nat.succ_le_succ (not_lt.1 hnot))
      simp only [Nat.succ_eq_add_one] at this
      have := hline hback
      omega

/-- The windows end one behind the other exactly if the line behind a window always fits. -/
theorem ends_iff {start : ℕ} (h : start < lineChars.length) :
    ((windowsFrom lineChars budgetChars overlapChars start).IsChain fun v w => v.2 < w.2) ↔
      ∀ s, Relation.ReflTransGen (LoopStep lineChars budgetChars overlapChars) start s →
        NextFits lineChars budgetChars overlapChars s := by
  induction start, h using loop_induction budgetChars overlapChars with
  | last start h hstop =>
    rw [windowsFrom_last h hstop]
    refine ⟨fun _ s hs => ?_, fun _ => List.IsChain.singleton _⟩
    rcases Relation.ReflTransGen.cases_head hs with rfl | ⟨t, hstep, -⟩
    · exact fun next hstep => absurd hstep.1 (not_lt.2 hstop)
    · exact absurd hstep.1 (not_lt.2 hstop)
  | step start h next hnext hstep ih =>
    have hiff := windowEnd_lt_iff h hstep
    obtain ⟨hstop, rfl⟩ := id hstep
    rw [windowsFrom_step h hstop, List.isChain_cons, ih, head?_windowsFrom budgetChars overlapChars hnext]
    simp only [Option.mem_some_iff, forall_eq', hiff]
    constructor
    · rintro ⟨hfits, hrest⟩ s hs
      rcases Relation.ReflTransGen.cases_head hs with rfl | ⟨t, ⟨-, rfl⟩, hreach⟩
      · rintro t ⟨-, rfl⟩
        exact hfits
      · exact hrest s hreach
    · intro hall
      exact ⟨hall start Relation.ReflTransGen.refl _ hstep, fun s hs => hall s (hs.head hstep)⟩

end Loop

/-! ### The windows of a text -/

/-- What the lines two windows share have of characters, each with its line end. -/
def sharedChars (ls : List String) (c d : Chunk) : ℕ :=
  textOffset (ls.map String.length) (min c.endLine d.endLine) -
    textOffset (ls.map String.length) (d.startLine - 1)

/-- The windows of a text within a budget. -/
structure WindowsCover (ls : List String) (budgetChars : ℕ) (chunks : List Chunk) : Prop where
  /-- The windows are made of whole lines and have their text. -/
  range : ∀ c ∈ chunks, 1 ≤ c.startLine ∧ c.startLine ≤ c.endLine ∧ c.endLine ≤ ls.length
  content : ∀ c ∈ chunks, c.content = joinLines ls (c.startLine - 1) c.endLine
  /-- The first starts with the first line and the last ends with the last. -/
  first : chunks.head?.map Chunk.startLine = if ls = [] then none else some 1
  last : chunks.getLast?.map Chunk.endLine = if ls = [] then none else some ls.length
  /-- They start one behind the other, without a gap and sharing little. -/
  starts : chunks.Pairwise (·.startLine < ·.startLine)
  noGap : chunks.IsChain fun c d => d.startLine ≤ c.endLine + 1
  shared : chunks.IsChain fun c d => sharedChars ls c d ≤ budgetChars / 8
  /-- Only a single line exceeds the budget. -/
  budget : ∀ c ∈ chunks, budgetChars < c.content.length → c.startLine = c.endLine

/-- Every window ends behind those before it. -/
def StrictEnds (chunks : List Chunk) : Prop := chunks.Pairwise (·.endLine < ·.endLine)

section Text

variable (cap : ℕ) (source filePath language : String) (name docstring parentScope : Option String)

/-- The windows of a text, by where they start and end. -/
theorem slidingWindow_windows {w : ℕ × ℕ}
    (hw : w ∈ windowsFrom ((lines source).map String.length) (cap * 4) (cap * 4 / 8) 0) :
    w.1 < w.2 ∧ w.2 ≤ (lines source).length ∧
      w.2 = windowEnd ((lines source).map String.length) (cap * 4) w.1 := by
  by_cases h : 0 < ((lines source).map String.length).length
  · obtain ⟨hstart, hend⟩ := mem_windowsFrom h hw
    obtain ⟨hlt, hle, -⟩ := windowEnd_spec (cap * 4) hstart
    rw [List.length_map] at hle
    rw [hend]
    exact ⟨hlt, hle, rfl⟩
  · rw [windowsFrom, if_neg h] at hw
    exact absurd hw List.not_mem_nil

theorem isChain_slidingWindow {r : Chunk → Chunk → Prop}
    (h : ∀ v w : ℕ × ℕ, v.1 < v.2 → v.2 ≤ (lines source).length →
      LoopStep ((lines source).map String.length) (cap * 4) (cap * 4 / 8) v.1 w.1 →
      v.2 = windowEnd ((lines source).map String.length) (cap * 4) v.1 →
      ∀ c d : Chunk, c.startLine = v.1 + 1 → c.endLine = v.2 → d.startLine = w.1 + 1 →
        d.endLine = w.2 → r c d) :
    (slidingWindow cap source filePath language name docstring parentScope).IsChain r := by
  unfold slidingWindow
  rw [List.isChain_map]
  by_cases hpos : 0 < ((lines source).map String.length).length
  · refine (isChain_windowsFrom hpos).imp_of_mem_imp fun v w hv _ hstep => ?_
    obtain ⟨hlt, hle, hend⟩ := slidingWindow_windows cap source hv
    exact h v w hlt hle hstep hend _ _ rfl rfl rfl rfl
  · rw [windowsFrom, if_neg hpos]
    exact List.IsChain.nil

/-- The windows cover the text. -/
theorem slidingWindow_covers : WindowsCover (lines source) (cap * 4)
    (slidingWindow cap source filePath language name docstring parentScope) := by
  have hmem : ∀ c ∈ slidingWindow cap source filePath language name docstring parentScope,
      ∃ w : ℕ × ℕ, w.1 < w.2 ∧ w.2 ≤ (lines source).length ∧
        w.2 = windowEnd ((lines source).map String.length) (cap * 4) w.1 ∧
        c.startLine = w.1 + 1 ∧ c.endLine = w.2 ∧
        c.content = joinLines (lines source) w.1 w.2 := by
    intro c hc
    obtain ⟨w, hw, rfl⟩ := List.mem_map.1 hc
    obtain ⟨hlt, hle, hend⟩ := slidingWindow_windows cap source hw
    exact ⟨w, hlt, hle, hend, rfl, rfl, rfl⟩
  have hback : ∀ v w : ℕ × ℕ, v.1 < v.2 → v.2 ≤ (lines source).length →
      LoopStep ((lines source).map String.length) (cap * 4) (cap * 4 / 8) v.1 w.1 →
      v.2 = windowEnd ((lines source).map String.length) (cap * 4) v.1 →
      v.1 < w.1 ∧ w.1 ≤ v.2 ∧ textOffset ((lines source).map String.length) v.2 ≤
        textOffset ((lines source).map String.length) w.1 + cap * 4 / 8 := by
    rintro v w hlt hle ⟨-, hnext⟩ hend
    rw [hnext, ← hend]
    exact stepBack_spec (cap * 4 / 8) hlt (by rwa [List.length_map])
  refine ⟨fun c hc => ?_, fun c hc => ?_, ?_, ?_, ?_, ?_, ?_, fun c hc hover => ?_⟩
  · obtain ⟨w, hlt, hle, -, hstart, hend, -⟩ := hmem c hc
    omega
  · obtain ⟨w, -, -, -, hstart, hend, hcontent⟩ := hmem c hc
    rw [hcontent, hstart, hend, Nat.add_sub_cancel]
  · unfold slidingWindow
    rw [List.head?_map, Option.map_map]
    by_cases hpos : 0 < ((lines source).map String.length).length
    · rw [head?_windowsFrom _ _ hpos, if_neg (by simpa [List.length_pos_iff] using hpos)]
      rfl
    · rw [windowsFrom, if_neg hpos, if_pos (by simpa using hpos)]
      rfl
  · unfold slidingWindow
    rw [List.getLast?_map, Option.map_map]
    by_cases hpos : 0 < ((lines source).map String.length).length
    · have hlast := getLast?_windowsFrom (cap * 4) (cap * 4 / 8) hpos
      rw [List.length_map] at hlast
      rw [if_neg (by simpa [List.length_pos_iff] using hpos)]
      exact hlast
    · rw [windowsFrom, if_neg hpos, if_pos (by simpa using hpos)]
      rfl
  · refine List.isChain_iff_pairwise.1 (isChain_slidingWindow cap source filePath language name
      docstring parentScope fun v w hlt hle hstep hend c d hc _ hd _ => ?_)
    have := (hback v w hlt hle hstep hend).1
    omega
  · refine isChain_slidingWindow cap source filePath language name docstring parentScope
      fun v w hlt hle hstep hend c d _ hc hd _ => ?_
    have := (hback v w hlt hle hstep hend).2.1
    omega
  · refine isChain_slidingWindow cap source filePath language name docstring parentScope
      fun v w hlt hle hstep hend c d _ hc hd _ => ?_
    have hshared := (hback v w hlt hle hstep hend).2.2
    have hmin := textOffset_mono ((lines source).map String.length)
      (min_le_left c.endLine d.endLine)
    unfold sharedChars
    rw [hd, Nat.add_sub_cancel]
    rw [hc] at hmin ⊢
    omega
  · obtain ⟨w, hlt, hle, hwindow, hfrom, hto, hcontent⟩ := hmem c hc
    have hlen := length_joinLines hlt hle
    have hstart : w.1 < ((lines source).map String.length).length := by
      rw [List.length_map]
      omega
    have hfits := (windowEnd_spec (cap * 4) hstart).2.2.1
    rw [← hwindow] at hfits
    rw [hcontent] at hover
    by_contra hne
    have := hfits (by omega)
    omega

end Text

/-- Lines of at most seven eighths of the budget always fit. -/
theorem nextFits_of_short {lineChars : List ℕ} {budgetChars start : ℕ}
    (h : ∀ chars ∈ lineChars, chars ≤ budgetChars - budgetChars / 8)
    (hstart : start < lineChars.length) :
    NextFits lineChars budgetChars (budgetChars / 8) start := by
  rintro next ⟨hstop, rfl⟩ -
  obtain ⟨-, hle, hshared⟩ :=
    stepBack_spec (budgetChars / 8) (lt_windowEnd budgetChars hstart) hstop.le
  have hline := h _ (List.getElem_mem hstop)
  rw [List.getD_eq_getElem?_getD, List.getElem?_eq_getElem hstop, Option.getD_some]
  omega

/-- The windows cover the text, and every one of them has a line that none before it has
exactly if at every start the loop comes to the line behind the window fits behind the lines
the next window starts with. -/
theorem slidingWindowLaw (cap : ℕ) (source filePath language : String)
    (name docstring parentScope : Option String) :
    WindowsCover (lines source) (cap * 4)
        (slidingWindow cap source filePath language name docstring parentScope) ∧
      (StrictEnds (slidingWindow cap source filePath language name docstring parentScope) ↔
        ∀ start, LoopAt ((lines source).map String.length) (cap * 4) (cap * 4 / 8) start →
          NextFits ((lines source).map String.length) (cap * 4) (cap * 4 / 8) start) := by
  refine ⟨slidingWindow_covers cap source filePath language name docstring parentScope, ?_⟩
  unfold StrictEnds
  rw [← List.isChain_iff_pairwise, slidingWindow, List.isChain_map]
  by_cases hpos : 0 < ((lines source).map String.length).length
  · exact ends_iff hpos
  · rw [windowsFrom, if_neg hpos]
    refine ⟨fun _ start hstart next hstep => ?_, fun _ => List.IsChain.nil⟩
    exact absurd hstep.1 (by omega)

/-- A line of six characters, an empty one and one of eight, with a budget of eight: the
    second window is the empty line, with which the first ends. -/
theorem slidingWindow_inside :
    (slidingWindow 2 "aaaaaa\n\nbbbbbbbb" "notes.txt" "text" none none none).map
        (fun c => (c.startLine, c.endLine)) = [(1, 2), (2, 2), (3, 3)] ∧
      ¬StrictEnds (slidingWindow 2 "aaaaaa\n\nbbbbbbbb" "notes.txt" "text" none none none) := by
  have hlines : (lines "aaaaaa\n\nbbbbbbbb").map String.length = [6, 0, 8] := by decide
  have hwindows : windowsFrom [6, 0, 8] 8 1 0 = [(0, 2), (1, 2), (2, 3)] := by
    simp [windowsFrom, windowEnd, takeLines, stepBack, stepBackFrom]
  have hspans : (slidingWindow 2 "aaaaaa\n\nbbbbbbbb" "notes.txt" "text" none none none).map
      (fun c => (c.startLine, c.endLine)) = [(1, 2), (2, 2), (3, 3)] := by
    unfold slidingWindow
    rw [List.map_map, hlines]
    exact congrArg (List.map fun w : ℕ × ℕ => (w.1 + 1, w.2)) hwindows
  refine ⟨hspans, fun hstrict => ?_⟩
  have hends : ((slidingWindow 2 "aaaaaa\n\nbbbbbbbb" "notes.txt" "text" none none none).map
      fun c => (c.startLine, c.endLine)).Pairwise (·.2 < ·.2) := List.pairwise_map.2 hstrict
  rw [hspans] at hends
  exact absurd hends (by decide)

end Spelunk
