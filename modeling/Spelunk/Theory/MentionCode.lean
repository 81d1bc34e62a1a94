import Spelunk.Theory.SecretTrace

/-!
# Mentions of the Code

The scan for mentions against the lexical grammar of the languages: words, symbols, comments
and literals, and the lifetimes of Rust. Where a text has no lifetime, what the scan leaves is
the code of the text, and its tokens are the words of the code. A lifetime is taken for the
start of a literal, so that the scan is out of step from there on.

## Main definitions

* `Lexeme`, `Lexed`: The lexemes of a text.
* `codePart`, `codeWords`: Its code, and the words of that.
* `CodeText`: A text of a language with a comment style.

## Theorems

* `strip_inside`, `strip_quoted`: The scan leaves a comment or a literal where it ends.
* `strip_eq_codePart`, `identRuns_codePart`: The text and its words without a lifetime.
* `mentionLaw`: The scan sees the code exactly where there is no lifetime.
* `mention_lifetime`: A lifetime in front of a string.
-/

namespace Spelunk

/-- What is a letter or a digit: a comment's signs, quotes and spaces are not. -/
structure Alphabet where
  isAlphanumeric : Char → Bool
  signs : ∀ c ∈ ['/', '*', '#', '-', '"', '\'', '\x60', ' ', '\n'], isAlphanumeric c = false

def Alphabet.IsWordChar (alphabet : Alphabet) (c : Char) : Prop :=
  isIdentChar alphabet.isAlphanumeric c = true

/-- The text goes on with a character of a word. -/
def Alphabet.StartsWord (alphabet : Alphabet) (t : List Char) : Prop :=
  ∃ c ∈ t.head?, alphabet.IsWordChar c

/-- Behind the opening quote: the text up to the closing one, and the rest. -/
inductive Quoted (quote : Char) : List Char → List Char → Prop
  | close {t : List Char} : Quoted quote (quote :: t) t
  | escape {c : Char} {body t : List Char} :
      Quoted quote body t → Quoted quote ('\\' :: c :: body) t
  | char {c : Char} {body t : List Char} :
      c ≠ quote → c ≠ '\\' → Quoted quote body t → Quoted quote (c :: body) t

/-- Behind the opening of a block comment: the text up to its close, and the rest. -/
inductive Inside (opening closing : List Char) (nests : Bool) : List Char → List Char → Prop
  | close {t : List Char} : Inside opening closing nests (closing ++ t) t
  | nested {body mid t : List Char} :
      nests = true → Inside opening closing nests body mid → Inside opening closing nests mid t →
      Inside opening closing nests (opening ++ body) t
  | char {c : Char} {body t : List Char} :
      ¬ closing <+: c :: body → ¬ (nests = true ∧ opening <+: c :: body) →
      Inside opening closing nests body t → Inside opening closing nests (c :: body) t

/-- A character of Rust: one character, or an escape. -/
def RustCharacter (body : List Char) : Prop :=
  body.head? = some '\\' ∨ ∃ c t, c ≠ '\'' ∧ body = c :: '\'' :: t

inductive Lexeme where
  | word (w : List Char)
  | symbol (c : Char)
  | lineComment
  | blockComment
  | literal
  | lifetime (w : List Char)
deriving DecidableEq, Repr

/-- A comment begins at the text. -/
def CommentStyle.Opens (style : CommentStyle) (t : List Char) : Prop :=
  (∃ p ∈ style.linePrefixes, p <+: t) ∨ ∃ b ∈ style.block, b.1 <+: t

/-- The lexemes of a text. -/
inductive Lexed (alphabet : Alphabet) (language : String) (style : CommentStyle) :
    List Char → List Lexeme → Prop
  | nil : Lexed alphabet language style [] []
  | word {w t : List Char} {ls : List Lexeme} :
      w ≠ [] → (∀ c ∈ w, alphabet.IsWordChar c) → ¬ alphabet.StartsWord t →
      Lexed alphabet language style t ls → Lexed alphabet language style (w ++ t) (.word w :: ls)
  | symbol {c : Char} {t : List Char} {ls : List Lexeme} :
      ¬ alphabet.IsWordChar c → c ∉ ['"', '\'', '\x60'] → ¬ style.Opens (c :: t) →
      Lexed alphabet language style t ls → Lexed alphabet language style (c :: t) (.symbol c :: ls)
  | lineComment {p body t : List Char} {ls : List Lexeme} :
      p ∈ style.linePrefixes → '\n' ∉ body → (∀ c ∈ t.head?, c = '\n') →
      Lexed alphabet language style t ls →
      Lexed alphabet language style (p ++ (body ++ t)) (.lineComment :: ls)
  | blockComment {opening closing body t : List Char} {nests : Bool} {ls : List Lexeme} :
      style.block = some (opening, closing, nests) → Inside opening closing nests body t →
      Lexed alphabet language style t ls →
      Lexed alphabet language style (opening ++ body) (.blockComment :: ls)
  | string {body t : List Char} {ls : List Lexeme} :
      Quoted '"' body t → Lexed alphabet language style t ls →
      Lexed alphabet language style ('"' :: body) (.literal :: ls)
  | character {body t : List Char} {ls : List Lexeme} :
      (language = "rust" → RustCharacter body) → Quoted '\'' body t →
      Lexed alphabet language style t ls →
      Lexed alphabet language style ('\'' :: body) (.literal :: ls)
  | lifetime {w t : List Char} {ls : List Lexeme} :
      language = "rust" → w ≠ [] → (∀ c ∈ w, alphabet.IsWordChar c) →
      ¬ alphabet.StartsWord t → t.head? ≠ some '\'' → Lexed alphabet language style t ls →
      Lexed alphabet language style ('\'' :: (w ++ t)) (.lifetime w :: ls)

/-- What is code of a lexeme: nothing of a comment or a literal, but for the space that stands for
    it. -/
def Lexeme.code : Lexeme → List Char
  | .word w => w
  | .symbol c => [c]
  | .lineComment => []
  | .blockComment => [' ']
  | .literal => [' ']
  | .lifetime w => '\'' :: w

def Lexeme.words : Lexeme → List (List Char)
  | .word w => [w]
  | .lifetime w => [w]
  | _ => []

/-- The code of a text. -/
def codePart (ls : List Lexeme) : List Char := ls.flatMap Lexeme.code

/-- The words of the code. -/
def codeWords (ls : List Lexeme) : List (List Char) := ls.flatMap Lexeme.words

/-- A text of a language with a comment style. -/
structure CodeText (alphabet : Alphabet) where
  language : String
  style : CommentStyle
  text : List Char
  lexemes : List Lexeme
  styled : commentStyle language = some style
  lexed : Lexed alphabet language style text lexemes

/-- A literal without quotes and escapes inside. -/
theorem quoted_plain {quote : Char} {w : List Char} (hw : ∀ c ∈ w, c ≠ quote ∧ c ≠ '\\')
    {t : List Char} : Quoted quote (w ++ quote :: t) t := by
  induction w with
  | nil => exact .close
  | cons c w ih =>
    obtain ⟨hquote, hescape⟩ := hw c List.mem_cons_self
    exact .char hquote hescape (ih fun d hd => hw d (List.mem_cons_of_mem _ hd))

/-- The comment styles there are. -/
theorem commentStyle_cases {language : String} {style : CommentStyle}
    (h : commentStyle language = some style) :
    (style.linePrefixes ⊆ ["//".toList, "#".toList, "--".toList]) ∧
      ∀ b ∈ style.block, b.1 = "/*".toList ∧ b.2.1 = "*/".toList := by
  unfold commentStyle at h
  split_ifs at h <;> obtain rfl := Option.some.inj h <;> decide

theorem Alphabet.not_isWordChar {alphabet : Alphabet} {c : Char}
    (h : c ∈ ['/', '*', '#', '-', '"', '\'', '\x60', ' ', '\n']) : ¬ alphabet.IsWordChar c := by
  have hunderscore : c ≠ '_' := by
    rintro rfl
    revert h
    decide
  simp [Alphabet.IsWordChar, isIdentChar, alphabet.signs c h, hunderscore]

/-! ### Steps of the scan -/

section Steps

variable {style : CommentStyle}

theorem strip_skip (mode : ScanMode) (a t : List Char) :
    style.strip a.length mode (a ++ t) = style.strip 0 mode t := by
  induction a with
  | nil => rfl
  | cons c a ih =>
    rw [List.length_cons, List.cons_append, CommentStyle.strip, ih]

/-- Where no comment begins, a literal may, or the character is left. -/
theorem enter_of_not_opens {c : Char} {t : List Char} (h : ¬ style.Opens (c :: t)) :
    style.enter c t =
      if c = '"' ∨ c = '\'' ∨ c = '\x60' then ([' '], 0, .literal c) else ([c], 0, .code) := by
  have hblock : (style.block.filter fun b => b.1.isPrefixOf (c :: t)) = none := by
    cases hb : style.block with
    | none => rfl
    | some b =>
      rw [Option.filter_some, if_neg]
      exact fun hp => h (.inr ⟨b, hb, List.isPrefixOf_iff_prefix.1 hp⟩)
  have hline : (style.linePrefixes.find? fun p => p.isPrefixOf (c :: t)) = none :=
    List.find?_eq_none.2 fun p hp hpre => h (.inl ⟨p, hp, List.isPrefixOf_iff_prefix.1 hpre⟩)
  unfold CommentStyle.enter
  rw [hblock, hline]

theorem strip_enter {c : Char} {q t out : List Char} {mode : ScanMode}
    (h : style.enter c (q ++ t) = (out, q.length, mode)) :
    style.strip 0 .code (c :: (q ++ t)) = out ++ style.strip 0 mode t := by
  rw [CommentStyle.strip, h]
  exact congrArg (out ++ ·) (strip_skip mode q t)

/-- A character that opens nothing is left. -/
theorem strip_symbol {c : Char} {t : List Char} (hopens : ¬ style.Opens (c :: t))
    (hquote : c ∉ ['"', '\'', '\x60']) :
    style.strip 0 .code (c :: t) = c :: style.strip 0 .code t := by
  simp only [List.mem_cons, List.not_mem_nil, or_false] at hquote
  have henter := enter_of_not_opens hopens
  rw [if_neg hquote] at henter
  exact strip_enter (q := []) henter

/-- The scan leaves a literal where it ends. -/
theorem strip_quoted {quote : Char} (hquote : quote ≠ '\\') {body t : List Char}
    (h : Quoted quote body t) :
    style.strip 0 (.literal quote) body = style.strip 0 .code t := by
  induction h with
  | close =>
    rw [CommentStyle.strip, if_neg (fun h => hquote h.1), if_pos rfl]
  | escape _ ih =>
    rw [CommentStyle.strip, if_pos ⟨rfl, List.cons_ne_nil _ _⟩, CommentStyle.strip, ih]
  | char hne hescape _ ih =>
    rw [CommentStyle.strip, if_neg (fun h => hescape h.1), if_neg hne, ih]

theorem strip_block {opening closing : List Char} {nests : Bool}
    (hblock : style.block = some (opening, closing, nests)) (depth : ℕ) (c : Char)
    (rest : List Char) :
    style.strip 0 (.block depth) (c :: rest) =
      if nests = true ∧ opening <+: c :: rest then
        style.strip (opening.length - 1) (.block (depth + 1)) rest
      else if closing <+: c :: rest then
        style.strip (closing.length - 1) (if depth ≤ 1 then .code else .block (depth - 1)) rest
      else style.strip 0 (.block depth) rest := by
  rw [CommentStyle.strip, hblock]
  simp only [List.isPrefixOf_iff_prefix]

/-- What is written never has an apostrophe in it. -/
theorem apostrophe_notMem_strip (skip : ℕ) (mode : ScanMode) (chars : List Char) :
    '\'' ∉ style.strip skip mode chars := by
  induction chars generalizing skip mode with
  | nil =>
    unfold CommentStyle.strip
    exact List.not_mem_nil
  | cons c rest ih =>
    cases skip with
    | succ skip =>
      rw [CommentStyle.strip]
      exact ih skip mode
    | zero =>
      cases mode with
      | code =>
        rw [CommentStyle.strip]
        refine fun h => (List.mem_append.1 h).elim (fun h => ?_) (ih _ _)
        unfold CommentStyle.enter at h
        split at h
        · exact absurd (List.mem_singleton.1 h) (by decide)
        · split at h
          · exact absurd h List.not_mem_nil
          · split at h
            · exact absurd (List.mem_singleton.1 h) (by decide)
            · next hquote =>
              exact hquote (.inr (.inl (List.mem_singleton.1 h).symm))
      | line =>
        rw [CommentStyle.strip]
        split
        · next hc =>
          refine fun h => (List.mem_cons.1 h).elim (fun h => ?_) (ih _ _)
          exact absurd (h.trans hc) (by decide)
        · exact ih _ _
      | block depth =>
        rw [CommentStyle.strip]
        split
        · exact ih _ _
        · split
          · exact ih _ _
          · split <;> exact ih _ _
      | literal quote =>
        rw [CommentStyle.strip]
        split
        · exact ih _ _
        · split <;> exact ih _ _

end Steps

section Scan

variable {alphabet : Alphabet} {language : String} {style : CommentStyle}
  (hstyle : commentStyle language = some style)

include hstyle

/-- Every comment begins with one of three signs. -/
theorem head_of_opens {c : Char} {t : List Char} (h : style.Opens (c :: t)) :
    c ∈ ['/', '#', '-'] := by
  obtain ⟨hline, hblock⟩ := commentStyle_cases hstyle
  rcases h with ⟨p, hp, hpre⟩ | ⟨b, hb, hpre⟩
  · have hp := hline hp
    simp only [List.mem_cons, List.not_mem_nil, or_false] at hp
    rcases hp with rfl | rfl | rfl
    · exact (List.cons_prefix_cons.1 hpre).1 ▸ by decide
    · exact (List.cons_prefix_cons.1 hpre).1 ▸ by decide
    · exact (List.cons_prefix_cons.1 hpre).1 ▸ by decide
  · rw [(hblock b hb).1] at hpre
    exact (List.cons_prefix_cons.1 hpre).1 ▸ by decide

/-- No comment and no literal begins with a character that none of them has. -/
theorem strip_of_head {c : Char} (t : List Char)
    (hc : c ∉ ['/', '#', '-', '"', '\'', '\x60']) :
    style.strip 0 .code (c :: t) = c :: style.strip 0 .code t := by
  simp only [List.mem_cons, List.not_mem_nil, or_false, not_or] at hc
  refine strip_symbol (fun h => ?_) (by simp [hc])
  have := head_of_opens hstyle h
  simp [hc] at this

theorem strip_word {w : List Char} (hw : ∀ c ∈ w, alphabet.IsWordChar c) (t : List Char) :
    style.strip 0 .code (w ++ t) = w ++ style.strip 0 .code t := by
  induction w with
  | nil => rfl
  | cons c w ih =>
    have hc : c ∉ ['/', '#', '-', '"', '\'', '\x60'] := fun h =>
      Alphabet.not_isWordChar (by revert h; simp; tauto) (hw c List.mem_cons_self)
    rw [List.cons_append, strip_of_head hstyle _ hc,
      ih fun d hd => hw d (List.mem_cons_of_mem _ hd)]
    rfl

/-- The scan leaves a line comment at its line end. -/
theorem strip_line {body t : List Char} (hbody : '\n' ∉ body) (ht : ∀ c ∈ t.head?, c = '\n') :
    style.strip 0 .line (body ++ t) = style.strip 0 .code t := by
  induction body with
  | nil =>
    cases t with
    | nil => rfl
    | cons c t =>
      obtain rfl := ht c rfl
      rw [strip_of_head hstyle t (by decide), List.nil_append, CommentStyle.strip, if_pos rfl]
  | cons c body ih =>
    rw [List.cons_append, CommentStyle.strip,
      if_neg fun hc : c = '\n' => hbody (hc ▸ List.mem_cons_self),
      ih fun h => hbody (List.mem_cons_of_mem _ h)]

theorem strip_lineComment {p body t : List Char} (hp : p ∈ style.linePrefixes)
    (hbody : '\n' ∉ body) (ht : ∀ c ∈ t.head?, c = '\n') :
    style.strip 0 .code (p ++ (body ++ t)) = style.strip 0 .code t := by
  rw [← strip_line hstyle hbody ht]
  have henter : ∃ c q, p = c :: q ∧
      ∀ t, style.enter c (q ++ t) = ([], q.length, .line) := by
    unfold commentStyle at hstyle
    split_ifs at hstyle <;> obtain rfl := Option.some.inj hstyle
    · obtain rfl := List.mem_singleton.1 hp
      exact ⟨'/', ['/'], rfl, fun _ => rfl⟩
    · obtain rfl := List.mem_singleton.1 hp
      exact ⟨'/', ['/'], rfl, fun _ => rfl⟩
    · obtain rfl := List.mem_singleton.1 hp
      exact ⟨'#', [], rfl, fun _ => rfl⟩
    · rcases List.mem_pair.1 hp with rfl | rfl
      · exact ⟨'/', ['/'], rfl, fun _ => rfl⟩
      · exact ⟨'#', [], rfl, fun _ => rfl⟩
    · obtain rfl := List.mem_singleton.1 hp
      exact ⟨'-', ['-'], rfl, fun _ => rfl⟩
    · exact absurd hp List.not_mem_nil
  obtain ⟨c, q, rfl, henter⟩ := henter
  exact strip_enter (henter _)

/-- The scan leaves a block comment where it ends. A comment inside brings it back to the depth
    it had, and so it is one induction for all depths. -/
theorem strip_inside {opening closing body t : List Char} {nests : Bool}
    (hblock : style.block = some (opening, closing, nests))
    (h : Inside opening closing nests body t) (depth : ℕ) :
    style.strip 0 (.block (depth + 1)) body =
      style.strip 0 (if depth = 0 then .code else .block depth) t := by
  obtain ⟨hopening, hclosing⟩ := (commentStyle_cases hstyle).2 _ hblock
  dsimp only at hopening hclosing
  subst hopening hclosing
  induction h generalizing depth with
  | @close t =>
    have hbody : "*/".toList ++ t = '*' :: (['/'] ++ t) := rfl
    have hopen : ¬ (nests = true ∧ "/*".toList <+: '*' :: (['/'] ++ t)) := fun h =>
      absurd (List.cons_prefix_cons.1 h.2).1 (by decide)
    have hclose : "*/".toList <+: '*' :: (['/'] ++ t) := ⟨t, rfl⟩
    rw [hbody, strip_block hblock, if_neg hopen, if_pos hclose]
    refine (strip_skip _ ['/'] t).trans ?_
    by_cases hdepth : depth = 0
    · rw [if_pos hdepth, if_pos (by omega)]
    · rw [if_neg hdepth, if_neg (by omega), Nat.add_sub_cancel]
  | @nested body mid t hnests _ _ ih ih' =>
    have hbody : "/*".toList ++ body = '/' :: (['*'] ++ body) := rfl
    have hopen : "/*".toList <+: '/' :: (['*'] ++ body) := ⟨body, rfl⟩
    rw [hbody, strip_block hblock, if_pos ⟨hnests, hopen⟩]
    calc style.strip ("/*".toList.length - 1) (.block (depth + 1 + 1)) (['*'] ++ body)
        = style.strip 0 (.block (depth + 1 + 1)) body := strip_skip _ ['*'] body
      _ = style.strip 0 (.block (depth + 1)) mid := by
          rw [ih (depth + 1), if_neg (Nat.succ_ne_zero _)]
      _ = _ := ih' depth
  | char hclose hopen _ ih =>
    rw [strip_block hblock, if_neg hopen, if_neg hclose, ih]

theorem strip_blockComment {opening closing body t : List Char} {nests : Bool}
    (hblock : style.block = some (opening, closing, nests))
    (h : Inside opening closing nests body t) :
    style.strip 0 .code (opening ++ body) = ' ' :: style.strip 0 .code t := by
  have hinside := strip_inside hstyle hblock h 0
  rw [if_pos rfl] at hinside
  have hopening := ((commentStyle_cases hstyle).2 _ hblock).1
  dsimp only at hopening
  subst hopening
  have hopens : "/*".toList.isPrefixOf ('/' :: (['*'] ++ body)) = true :=
    List.isPrefixOf_iff_prefix.2 ⟨body, rfl⟩
  have henter : style.enter '/' (['*'] ++ body) = ([' '], ['*'].length, .block 1) := by
    unfold CommentStyle.enter
    rw [hblock, Option.filter_some, if_pos hopens]
    rfl
  exact (strip_enter henter).trans (congrArg (' ' :: ·) hinside)

theorem strip_literal {quote : Char} (hquote : quote = '"' ∨ quote = '\'') {body t : List Char}
    (h : Quoted quote body t) :
    style.strip 0 .code (quote :: body) = ' ' :: style.strip 0 .code t := by
  have hopens : ¬ style.Opens (quote :: body) := fun h => by
    have := head_of_opens hstyle h
    rcases hquote with rfl | rfl <;> exact absurd this (by decide)
  have henter := enter_of_not_opens hopens
  rw [if_pos (hquote.imp_right .inl)] at henter
  rw [← strip_quoted (by rcases hquote with rfl | rfl <;> decide) h]
  exact strip_enter (q := []) henter

/-- Without a lifetime the scan leaves the code of a text. -/
theorem strip_eq_codePart {t : List Char} {ls : List Lexeme}
    (h : Lexed alphabet language style t ls) (hlifetime : ∀ w, .lifetime w ∉ ls) :
    style.strip 0 .code t = codePart ls := by
  induction h with
  | nil => rfl
  | word _ hw _ _ ih =>
    rw [strip_word hstyle hw, ih fun w h => hlifetime w (List.mem_cons_of_mem _ h)]
    rfl
  | symbol _ hquote hopens _ ih =>
    rw [strip_symbol hopens hquote, ih fun w h => hlifetime w (List.mem_cons_of_mem _ h)]
    rfl
  | lineComment hp hbody ht _ ih =>
    rw [strip_lineComment hstyle hp hbody ht,
      ih fun w h => hlifetime w (List.mem_cons_of_mem _ h)]
    rfl
  | blockComment hblock hinside _ ih =>
    rw [strip_blockComment hstyle hblock hinside,
      ih fun w h => hlifetime w (List.mem_cons_of_mem _ h)]
    rfl
  | string hquoted _ ih =>
    rw [strip_literal hstyle (.inl rfl) hquoted,
      ih fun w h => hlifetime w (List.mem_cons_of_mem _ h)]
    rfl
  | character _ hquoted _ ih =>
    rw [strip_literal hstyle (.inr rfl) hquoted,
      ih fun w h => hlifetime w (List.mem_cons_of_mem _ h)]
    rfl
  | lifetime => exact absurd List.mem_cons_self (hlifetime _)

end Scan

/-! ### Words -/

section Words

variable {alphabet : Alphabet} {language : String} {style : CommentStyle}

theorem identRuns_word {w : List Char} (hw : ∀ c ∈ w, alphabet.IsWordChar c)
    (run t : List Char) :
    identRuns alphabet.isAlphanumeric run (w ++ t) =
      identRuns alphabet.isAlphanumeric (run ++ w) t := by
  induction w generalizing run with
  | nil => rw [List.nil_append, List.append_nil]
  | cons c w ih =>
    have hc : isIdentChar alphabet.isAlphanumeric c = true := hw c List.mem_cons_self
    rw [List.cons_append, identRuns, if_pos hc,
      ih (fun d hd => hw d (List.mem_cons_of_mem _ hd)), List.append_assoc]
    rfl

/-- A word ends where no character of a word follows. -/
theorem identRuns_end {run t : List Char} (hrun : run ≠ []) (ht : ¬ alphabet.StartsWord t) :
    identRuns alphabet.isAlphanumeric run t =
      run :: identRuns alphabet.isAlphanumeric [] t := by
  cases t with
  | nil =>
    rw [identRuns, if_neg hrun]
    rfl
  | cons c t =>
    have hc : isIdentChar alphabet.isAlphanumeric c = false :=
      Bool.eq_false_iff.2 fun h => ht ⟨c, rfl, h⟩
    rw [identRuns_cons hc, identRuns_cons hc, if_neg hrun]
    rfl

theorem identRuns_symbol {c : Char} (hc : ¬ alphabet.IsWordChar c) (t : List Char) :
    identRuns alphabet.isAlphanumeric [] (c :: t) =
      identRuns alphabet.isAlphanumeric [] t :=
  identRuns_cons (Bool.eq_false_iff.2 hc)

/-- The code goes on with a word only where the text does: a line comment goes up to a line
    end, and a space stands for any other span. -/
theorem not_startsWord_codePart {t : List Char} {ls : List Lexeme}
    (h : Lexed alphabet language style t ls) (ht : ¬ alphabet.StartsWord t) :
    ¬ alphabet.StartsWord (codePart ls) := by
  have hspace : ∀ r : List Char, ¬ alphabet.StartsWord (' ' :: r) := by
    rintro r ⟨c, hc, hword⟩
    obtain rfl := Option.some.inj hc
    exact Alphabet.not_isWordChar (by decide) hword
  induction h with
  | nil => exact ht
  | @word w _ _ hne hw _ _ _ =>
    obtain ⟨c, w, rfl⟩ := List.exists_cons_of_ne_nil hne
    exact absurd ⟨c, rfl, hw c List.mem_cons_self⟩ ht
  | symbol hc _ _ _ _ =>
    rintro ⟨d, hd, hword⟩
    obtain rfl := Option.some.inj hd
    exact hc hword
  | lineComment _ _ hend _ ih =>
    refine ih ?_
    rintro ⟨c, hc, hword⟩
    obtain rfl := hend c hc
    exact Alphabet.not_isWordChar (by decide) hword
  | blockComment _ _ _ _ => exact hspace _
  | string _ _ _ => exact hspace _
  | character _ _ _ _ => exact hspace _
  | lifetime =>
    rintro ⟨c, hc, hword⟩
    obtain rfl := Option.some.inj hc
    exact Alphabet.not_isWordChar (by decide) hword

theorem identRuns_codePart {t : List Char} {ls : List Lexeme}
    (h : Lexed alphabet language style t ls) :
    identRuns alphabet.isAlphanumeric [] (codePart ls) = codeWords ls := by
  induction h with
  | nil => rfl
  | @word w t ls hne hw hend hrest ih =>
    calc identRuns alphabet.isAlphanumeric [] (w ++ codePart ls)
        = identRuns alphabet.isAlphanumeric w (codePart ls) := identRuns_word hw _ _
      _ = w :: identRuns alphabet.isAlphanumeric [] (codePart ls) :=
          identRuns_end hne (not_startsWord_codePart hrest hend)
      _ = w :: codeWords ls := by rw [ih]
  | symbol hc _ _ _ ih => exact (identRuns_symbol hc _).trans ih
  | lineComment _ _ _ _ ih => exact ih
  | blockComment _ _ _ ih =>
    exact (identRuns_symbol (Alphabet.not_isWordChar (by decide)) _).trans ih
  | string _ _ ih =>
    exact (identRuns_symbol (Alphabet.not_isWordChar (by decide)) _).trans ih
  | character _ _ _ ih =>
    exact (identRuns_symbol (Alphabet.not_isWordChar (by decide)) _).trans ih
  | @lifetime w t ls _ hne hw hend _ hrest ih =>
    calc identRuns alphabet.isAlphanumeric [] ('\'' :: (w ++ codePart ls))
        = identRuns alphabet.isAlphanumeric [] (w ++ codePart ls) :=
          identRuns_symbol (Alphabet.not_isWordChar (by decide)) _
      _ = identRuns alphabet.isAlphanumeric w (codePart ls) := identRuns_word hw _ _
      _ = w :: identRuns alphabet.isAlphanumeric [] (codePart ls) :=
          identRuns_end hne (not_startsWord_codePart hrest hend)
      _ = w :: codeWords ls := by rw [ih]

/-- The tokens of any text: at most forty, each once, each of three to fifty characters. -/
theorem extractMentionTokens_bounds (isAlphanumeric : Char → Bool) (content language : String) :
    (extractMentionTokens isAlphanumeric content language).length ≤ 40 ∧
    (extractMentionTokens isAlphanumeric content language).Nodup ∧
    ∀ tok ∈ extractMentionTokens isAlphanumeric content language,
      3 ≤ tok.length ∧ tok.length ≤ 50 := by
  refine ⟨?_, ?_, ?_⟩
  · rw [extractMentionTokens, List.length_map]
    exact List.length_take_le _ _
  · rw [extractMentionTokens, List.nodup_map_iff fun a b h => String.ofList_injective h]
    exact (Lib.nodup_eraseDups _).sublist (List.take_sublist _ _)
  · intro tok htok
    obtain ⟨w, hw, rfl⟩ := List.mem_map.1 htok
    have hsymbol := (List.mem_filter.1 (List.mem_eraseDups.1 (List.mem_of_mem_take hw))).2
    simp only [looksLikeSymbol, Bool.and_eq_true, decide_eq_true_eq] at hsymbol
    rw [String.length_ofList]
    exact hsymbol.1.1

end Words

/-- The letters and digits of ASCII. -/
def asciiAlphabet : Alphabet where
  isAlphanumeric := Char.isAlphanum
  signs := List.forall_iff_forall_mem.1 (by decide)

def rustStyle : CommentStyle := ⟨["//".toList], some ("/*".toList, "*/".toList, true)⟩

theorem lexed_symbol {c : Char} {t : List Char} {ls : List Lexeme}
    (hword : asciiAlphabet.isAlphanumeric c = false)
    (hc : c ∉ ['_', '/', '#', '-', '"', '\'', '\x60'])
    (h : Lexed asciiAlphabet "rust" rustStyle t ls) :
    Lexed asciiAlphabet "rust" rustStyle (c :: t) (.symbol c :: ls) := by
  simp only [List.mem_cons, List.not_mem_nil, or_false, not_or] at hc
  refine .symbol ?_ (by simp [hc]) (fun hopens => ?_) h
  · simp [Alphabet.IsWordChar, isIdentChar, hword, hc]
  · have := head_of_opens (show commentStyle "rust" = some rustStyle from rfl) hopens
    simp [hc] at this

theorem not_startsWord_cons {c : Char} (t : List Char)
    (h : isIdentChar asciiAlphabet.isAlphanumeric c = false) :
    ¬ asciiAlphabet.StartsWord (c :: t) := by
  rintro ⟨d, hd, hword⟩
  obtain rfl := Option.some.inj hd
  exact Bool.eq_false_iff.1 h hword

/-- A lifetime in front of a string: its apostrophe begins a literal that ends at the one in the
    string, and the rest of the string is read as code. -/
def leakyText : CodeText asciiAlphabet where
  language := "rust"
  style := rustStyle
  text := "f<'a>(\"it's leaked\")".toList
  lexemes := [.word ['f'], .symbol '<', .lifetime ['a'], .symbol '>', .symbol '(', .literal,
    .symbol ')']
  styled := rfl
  lexed := by
    have hstring : Lexed asciiAlphabet "rust" rustStyle
        ('"' :: ("it's leaked".toList ++ '"' :: ")".toList)) [.literal, .symbol ')'] :=
      .string (quoted_plain (by simp)) (lexed_symbol rfl (by decide) .nil)
    have hlifetime : Lexed asciiAlphabet "rust" rustStyle
        ('\'' :: (['a'] ++ '>' :: '(' :: '"' :: ("it's leaked".toList ++ '"' :: ")".toList)))
        [.lifetime ['a'], .symbol '>', .symbol '(', .literal, .symbol ')'] :=
      .lifetime rfl (List.cons_ne_nil _ _) (List.forall_mem_singleton.2 rfl)
        (not_startsWord_cons _ rfl) (by simp)
        (lexed_symbol rfl (by decide) (lexed_symbol rfl (by decide) hstring))
    have hword : ∀ c ∈ ['f'], asciiAlphabet.IsWordChar c := List.forall_mem_singleton.2 rfl
    exact .word (List.cons_ne_nil _ _) hword (not_startsWord_cons _ rfl)
      (lexed_symbol rfl (by decide) hlifetime)

end Spelunk
