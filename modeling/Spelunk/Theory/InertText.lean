import Spelunk.Core.Summariser

/-!
# Inert Text

What the filter for terminal sequences leaves of a text. The filter is a machine that is in
the text or in a sequence; a character is kept exactly where the machine is in the text and
the character is plain. So the result has no escape, no control character but the blanks
that are allowed, and no delete; but a control character of the second block is plain to
the filter, and is kept wherever it stands in the text.

## Main definitions

* `AnsiMode.next`: The mode after a character.
* `PlainChar`: What is kept in the text.
* `Inert`: What a terminal only shows.
* `Csi`, `Osc`: Complete sequences.

## Theorems

* `stripAnsi_append`: The filter goes on where it stopped.
* `mem_stripAnsi_iff`: What is kept.
* `stripAnsi_of_plain`: A plain text is kept as it is.
* `inertTextLaw`: When the result is inert.
* `strip_keeps_csi`: A sequence of one character and its parameters.
-/

namespace Spelunk

/-- The mode after a character. -/
def AnsiMode.next : AnsiMode → Char → AnsiMode
  | .text, c => if c = '\x1b' then .escape else .text
  | .escape, c => if c = '[' then .csi else if c = ']' then .osc else .text
  | .csi, c => if 0x40 ≤ c.toNat ∧ c.toNat ≤ 0x7e then .text else .csi
  | .osc, c => if c = '\x07' then .text else if c = '\x1b' then .oscEscape else .osc
  | .oscEscape, _ => .text

/-- What is kept in the text. -/
def PlainChar (c : Char) : Prop :=
  (c = '\n' ∨ c = '\r' ∨ c = '\t') ∨ 0x20 ≤ c.toNat ∧ c ≠ '\x7f'

instance (c : Char) : Decidable (PlainChar c) := inferInstanceAs (Decidable (_ ∨ _))

/-- A control character of the second block. -/
def IsC1 (c : Char) : Prop := 0x80 ≤ c.toNat ∧ c.toNat ≤ 0x9f

instance (c : Char) : Decidable (IsC1 c) := inferInstanceAs (Decidable (_ ∧ _))

/-- What a terminal only shows. -/
structure Inert (c : Char) : Prop where
  not_escape : c ≠ '\x1b'
  not_c0 : c.toNat < 0x20 → c = '\n' ∨ c = '\r' ∨ c = '\t'
  not_delete : c ≠ '\x7f'
  not_c1 : ¬ IsC1 c

/-- A complete control sequence: its end is the first character that can be one. -/
def Csi (s : List Char) : Prop :=
  ∃ params last, s = '\x1b' :: '[' :: params ++ [last] ∧
    (∀ c ∈ params, ¬ (0x40 ≤ c.toNat ∧ c.toNat ≤ 0x7e)) ∧ 0x40 ≤ last.toNat ∧ last.toNat ≤ 0x7e

/-- A complete operating system command. -/
def Osc (s : List Char) : Prop :=
  ∃ text : List Char, ('\x07' ∉ text ∧ '\x1b' ∉ text) ∧
    (s = '\x1b' :: ']' :: text ++ ['\x07'] ∨ s = '\x1b' :: ']' :: text ++ ['\x1b', '\\'])

theorem PlainChar.ne_escape {c : Char} (h : PlainChar c) : c ≠ '\x1b' := by
  rintro rfl
  exact absurd h (by decide)

theorem plainChar_iff (c : Char) : PlainChar c ↔
    (c ≠ '\x1b' ∧ (c.toNat < 0x20 → c = '\n' ∨ c = '\r' ∨ c = '\t') ∧ c ≠ '\x7f') := by
  constructor
  · intro h
    refine ⟨h.ne_escape, fun hlow => ?_, ?_⟩
    · exact h.elim id fun hhigh => absurd hhigh.1 (Nat.not_le.2 hlow)
    · rintro rfl
      exact absurd h (by decide)
  · rintro ⟨-, hlow, hdelete⟩
    by_cases h : c.toNat < 0x20
    · exact .inl (hlow h)
    · exact .inr ⟨Nat.not_lt.1 h, hdelete⟩

/-- A character is kept in the text if it is plain. -/
theorem stripAnsi_cons (mode : AnsiMode) (c : Char) (s : List Char) :
    stripAnsi mode (c :: s) =
      if mode = .text ∧ PlainChar c then c :: stripAnsi (mode.next c) s
      else stripAnsi (mode.next c) s := by
  cases mode with
  | text =>
    rw [stripAnsi, AnsiMode.next]
    by_cases hescape : c = '\x1b'
    · rw [if_pos hescape, if_pos hescape, if_neg fun h => h.2.ne_escape hescape]
    rw [if_neg hescape, if_neg hescape]
    by_cases hblank : c = '\n' ∨ c = '\r' ∨ c = '\t'
    · rw [if_pos hblank, if_pos ⟨rfl, .inl hblank⟩]
    rw [if_neg hblank]
    by_cases hcontrol : c.toNat < 0x20 ∨ c = '\x7f'
    · rw [if_pos hcontrol, if_neg]
      rintro ⟨-, hplain | ⟨hhigh, hdelete⟩⟩
      · exact hblank hplain
      · exact hcontrol.elim (Nat.not_lt.2 hhigh) hdelete
    · rw [if_neg hcontrol, if_pos]
      exact ⟨rfl, .inr ⟨Nat.not_lt.1 fun h => hcontrol (.inl h), fun h => hcontrol (.inr h)⟩⟩
  | escape =>
    have hmode : ¬ (AnsiMode.escape = .text ∧ PlainChar c) := fun h => nomatch h.1
    rw [if_neg hmode, stripAnsi, AnsiMode.next]
    split
    · rfl
    · split <;> rfl
  | csi =>
    have hmode : ¬ (AnsiMode.csi = .text ∧ PlainChar c) := fun h => nomatch h.1
    rw [if_neg hmode, stripAnsi, AnsiMode.next]
    split <;> rfl
  | osc =>
    have hmode : ¬ (AnsiMode.osc = .text ∧ PlainChar c) := fun h => nomatch h.1
    rw [if_neg hmode, stripAnsi, AnsiMode.next]
    split
    · rfl
    · split <;> rfl
  | oscEscape =>
    have hmode : ¬ (AnsiMode.oscEscape = .text ∧ PlainChar c) := fun h => nomatch h.1
    rw [if_neg hmode, stripAnsi, AnsiMode.next]

theorem stripAnsi_nil (mode : AnsiMode) : stripAnsi mode [] = [] := by
  cases mode <;> rfl

/-- The filter goes on where it stopped. -/
theorem stripAnsi_append (mode : AnsiMode) (s t : List Char) :
    stripAnsi mode (s ++ t) = stripAnsi mode s ++ stripAnsi (s.foldl AnsiMode.next mode) t := by
  induction s generalizing mode with
  | nil => rw [stripAnsi_nil]; rfl
  | cons c s ih =>
    rw [List.cons_append, stripAnsi_cons, stripAnsi_cons, List.foldl_cons, ih]
    split <;> rfl

/-- What is kept. -/
theorem mem_stripAnsi_iff {mode : AnsiMode} {s : List Char} {c : Char} :
    c ∈ stripAnsi mode s ↔ PlainChar c ∧ ∃ before after, s = before ++ c :: after ∧
      before.foldl AnsiMode.next mode = .text := by
  induction s generalizing mode with
  | nil =>
    rw [stripAnsi_nil]
    refine iff_of_false List.not_mem_nil ?_
    rintro ⟨-, before, after, h, -⟩
    exact absurd h.symm (by simp)
  | cons d s ih =>
    have hcases : (∃ before after, d :: s = before ++ c :: after ∧
        before.foldl AnsiMode.next mode = .text) ↔ (d = c ∧ mode = .text) ∨
        ∃ before after, s = before ++ c :: after ∧
          before.foldl AnsiMode.next (mode.next d) = .text := by
      constructor
      · rintro ⟨before, after, h, hmode⟩
        cases before with
        | nil => exact .inl ⟨(List.cons_eq_cons.1 h).1, hmode⟩
        | cons e before =>
          obtain ⟨rfl, hs⟩ := List.cons_eq_cons.1 h
          exact .inr ⟨before, after, hs, hmode⟩
      · rintro (⟨rfl, hmode⟩ | ⟨before, after, rfl, hmode⟩)
        · exact ⟨[], s, rfl, hmode⟩
        · exact ⟨d :: before, after, rfl, hmode⟩
    rw [hcases, stripAnsi_cons, and_or_left, ← ih]
    by_cases h : mode = .text ∧ PlainChar d
    · rw [if_pos h, List.mem_cons]
      refine or_congr ⟨?_, fun hc => hc.2.1.symm⟩ Iff.rfl
      rintro rfl
      exact ⟨h.2, rfl, h.1⟩
    · rw [if_neg h, or_iff_right]
      rintro ⟨hplain, rfl, hmode⟩
      exact h ⟨hmode, hplain⟩

theorem foldl_next_of_plain {s : List Char} (h : ∀ c ∈ s, PlainChar c) :
    s.foldl AnsiMode.next .text = .text := by
  induction s with
  | nil => rfl
  | cons c s ih =>
    rw [List.foldl_cons, AnsiMode.next, if_neg (h c List.mem_cons_self).ne_escape]
    exact ih fun d hd => h d (List.mem_cons_of_mem c hd)

/-- A plain text is kept as it is. -/
theorem stripAnsi_of_plain {s : List Char} (h : ∀ c ∈ s, PlainChar c) : stripAnsi .text s = s := by
  induction s with
  | nil => rfl
  | cons c s ih =>
    have hc := h c List.mem_cons_self
    rw [stripAnsi_cons, if_pos ⟨rfl, hc⟩, AnsiMode.next, if_neg hc.ne_escape,
      ih fun d hd => h d (List.mem_cons_of_mem c hd)]

/-! ### Complete sequences -/

/-- As long as the machine stays in a sequence nothing is kept. -/
theorem silent_of_stays {mode : AnsiMode} (hmode : mode ≠ .text) {s : List Char}
    (h : ∀ c ∈ s, mode.next c = mode) :
    s.foldl AnsiMode.next mode = mode ∧ stripAnsi mode s = [] := by
  induction s with
  | nil => exact ⟨rfl, stripAnsi_nil mode⟩
  | cons c s ih =>
    rw [List.foldl_cons, stripAnsi_cons, if_neg fun hc => hmode hc.1, h c List.mem_cons_self]
    exact ih fun d hd => h d (List.mem_cons_of_mem c hd)

/-- What is between the beginning of a sequence, at which it stays, and its end. -/
theorem silent_sequence {mode : AnsiMode} (hmode : mode ≠ .text) {opening body closing : List Char}
    (hopening : opening.foldl AnsiMode.next .text = mode ∧ stripAnsi .text opening = [])
    (hbody : ∀ c ∈ body, mode.next c = mode)
    (hclosing : closing.foldl AnsiMode.next mode = .text ∧ stripAnsi mode closing = []) :
    (opening ++ body ++ closing).foldl AnsiMode.next .text = .text ∧
      stripAnsi .text (opening ++ body ++ closing) = [] := by
  obtain ⟨hmiddle, hsilent⟩ := silent_of_stays hmode hbody
  rw [List.foldl_append, stripAnsi_append, List.foldl_append, stripAnsi_append, hopening.1,
    hopening.2, hmiddle, hsilent]
  exact hclosing

/-- A complete sequence begins and ends in the text, and nothing of it is kept. -/
theorem silent_of_complete {s : List Char} (h : Csi s ∨ Osc s) :
    s.foldl AnsiMode.next .text = .text ∧ stripAnsi .text s = [] := by
  have hcsi : ['\x1b', '['].foldl AnsiMode.next .text = .csi ∧
      stripAnsi .text ['\x1b', '['] = [] := ⟨rfl, rfl⟩
  have hosc : ['\x1b', ']'].foldl AnsiMode.next .text = .osc ∧
      stripAnsi .text ['\x1b', ']'] = [] := ⟨rfl, rfl⟩
  rcases h with ⟨params, last, rfl, hparams, hlast⟩ | ⟨text, htext, rfl | rfl⟩
  · have hmode : AnsiMode.csi ≠ .text := nofun
    refine silent_sequence hmode hcsi (fun c hc => ?_) ?_
    · rw [AnsiMode.next, if_neg (hparams c hc)]
    · rw [List.foldl_cons, stripAnsi, AnsiMode.next, if_pos hlast, if_pos hlast]
      exact ⟨rfl, rfl⟩
  all_goals
    have hmode : AnsiMode.osc ≠ .text := nofun
    refine silent_sequence hmode hosc (fun c hc => ?_) ⟨rfl, rfl⟩
    have hbell : c ≠ '\x07' := fun heq => htext.1 (heq ▸ hc)
    have hescape : c ≠ '\x1b' := fun heq => htext.2 (heq ▸ hc)
    rw [AnsiMode.next, if_neg hbell, if_neg hescape]

/-! ### The law -/

/-- The result is inert exactly where every control character of the second block in the text is
    inside of a sequence. It always has no escape, no other control character but the blanks, and
    no delete; filtering it again changes nothing; and a plain text is kept as it is, also where
    a complete sequence is inserted. -/
theorem inertTextLaw (s : List Char) :
    ((∀ c ∈ stripAnsi .text s, Inert c) ↔
      ∀ before c after, s = before ++ c :: after → IsC1 c →
        before.foldl AnsiMode.next .text ≠ .text) ∧
    (∀ c ∈ stripAnsi .text s,
      c ≠ '\x1b' ∧ (c.toNat < 0x20 → c = '\n' ∨ c = '\r' ∨ c = '\t') ∧ c ≠ '\x7f') ∧
    stripAnsi .text (stripAnsi .text s) = stripAnsi .text s ∧
    ((∀ c ∈ s, PlainChar c) → stripAnsi .text s = s) ∧
    ∀ a sequence b, (∀ c ∈ a, PlainChar c) → (∀ c ∈ b, PlainChar c) → Csi sequence ∨ Osc sequence →
      stripAnsi .text (a ++ sequence ++ b) = stripAnsi .text (a ++ b) := by
  have hplain : ∀ c ∈ stripAnsi .text s, PlainChar c := fun c hc => (mem_stripAnsi_iff.1 hc).1
  refine ⟨⟨fun h before c after hs hc hmode => ?_, fun h c hc => ?_⟩,
    fun c hc => (plainChar_iff c).1 (hplain c hc), stripAnsi_of_plain hplain, stripAnsi_of_plain, ?_⟩
  · have hkept : c ∈ stripAnsi .text s := by
      refine mem_stripAnsi_iff.2 ⟨.inr ⟨le_trans (by decide) hc.1, ?_⟩, before, after, hs, hmode⟩
      rintro rfl
      exact absurd hc (by decide)
    exact (h c hkept).not_c1 hc
  · obtain ⟨hkept, before, after, hs, hmode⟩ := mem_stripAnsi_iff.1 hc
    obtain ⟨hescape, hlow, hdelete⟩ := (plainChar_iff c).1 hkept
    exact ⟨hescape, hlow, hdelete, fun hc1 => h before c after hs hc1 hmode⟩
  · intro a sequence b ha _ hsequence
    obtain ⟨hmode, hsilent⟩ := silent_of_complete hsequence
    rw [stripAnsi_append, stripAnsi_append, List.foldl_append, foldl_next_of_plain ha, hsilent,
      hmode, List.append_nil, stripAnsi_append, foldl_next_of_plain ha]

/-- A control sequence whose introducer is a single character is kept. -/
theorem strip_keeps_csi :
    '\u009b' ∈ stripAnsi .text ['a', '\u009b', '3', '1', 'm'] ∧ ¬ Inert '\u009b' :=
  ⟨by decide, fun h => h.not_c1 (by decide)⟩

end Spelunk
