import Spelunk.Core.ToolCalls
import Spelunk.Theory.RecordText

/-!
# Calls with Braces

Where a tool call is found in what a model writes. The braces of its text are those of the two
objects, and those in the string among its arguments, which are not escaped; so it is found
exactly where these are balanced, and one more closing than opening brace may come first.

## Main definitions

* `net`: Opening braces less closing ones.
* `BracesMatch`: The braces of a string do no harm.
* `level`: The depth behind a text.
* `toolReader`: A library that reads calls.

## Theorems

* `level_eq_some_iff`: The depth, by the braces of each beginning.
* `scanBraces_append`: The scan goes on where the depth has not come back to zero.
* `extractJson_shape`: What is found in any text.
* `toolCallLaw`: When a call is found.
* `call_unbalanced`: A call that is not.
-/

namespace Spelunk

/-- Opening braces less closing ones. -/
def net (s : List Char) : ℤ := s.count '\x7b' - s.count '\x7d'

/-- The braces of a string are balanced, and no beginning of it closes two more than it opens. -/
structure BracesMatch (s : List Char) : Prop where
  along : ∀ p, p <+: s → -1 ≤ net p
  settled : net s = 0

/-- The depth behind a text, unless it comes down to zero in it. -/
def level : ℕ → List Char → Option ℕ
  | d, [] => some d
  | d, c :: rest =>
    if c = '\x7b' then level (d + 1) rest
    else if c = '\x7d' then if d ≤ 1 then none else level (d - 1) rest
    else level d rest

theorem net_nil : net [] = 0 := rfl

theorem net_open (s : List Char) : net ('\x7b' :: s) = net s + 1 := by
  unfold net
  rw [List.count_cons_self, List.count_cons_of_ne (by decide)]
  omega

theorem net_close (s : List Char) : net ('\x7d' :: s) = net s - 1 := by
  unfold net
  rw [List.count_cons_self, List.count_cons_of_ne (by decide)]
  omega

theorem net_other {c : Char} (hopen : c ≠ '\x7b') (hclose : c ≠ '\x7d') (s : List Char) :
    net (c :: s) = net s := by
  unfold net
  rw [List.count_cons_of_ne hopen, List.count_cons_of_ne hclose]

theorem forall_prefix_cons {P : List Char → Prop} {c : Char} {s : List Char} :
    (∀ p, p <+: c :: s → P p) ↔ P [] ∧ ∀ p, p <+: s → P (c :: p) := by
  constructor
  · exact fun h => ⟨h [] List.nil_prefix, fun p hp => h _ (List.cons_prefix_cons.2 ⟨rfl, hp⟩)⟩
  · rintro ⟨hnil, hcons⟩ p hp
    cases p with
    | nil => exact hnil
    | cons d p =>
      obtain ⟨rfl, hpre⟩ := List.cons_prefix_cons.1 hp
      exact hcons p hpre

/-- The depth, by the braces of each beginning. -/
theorem level_eq_some_iff {d d' : ℕ} {s : List Char} (hd : 1 ≤ d) :
    level d s = some d' ↔ (∀ p, p <+: s → 1 ≤ d + net p) ∧ d + net s = d' := by
  induction s generalizing d with
  | nil =>
    rw [level, Option.some.injEq, net_nil]
    constructor
    · rintro rfl
      refine ⟨fun p hp => ?_, by omega⟩
      rw [List.prefix_nil.1 hp, net_nil]
      omega
    · intro h
      have := h.2
      omega
  | cons c s ih =>
    rw [level, forall_prefix_cons, net_nil]
    by_cases hopen : c = '\x7b'
    · subst hopen
      rw [if_pos rfl, ih (by omega)]
      simp only [net_open]
      push_cast
      constructor
      · rintro ⟨hall, hend⟩
        exact ⟨⟨by omega, fun p hp => by have := hall p hp; omega⟩, by omega⟩
      · rintro ⟨⟨-, hall⟩, hend⟩
        exact ⟨fun p hp => by have := hall p hp; omega, by omega⟩
    rw [if_neg hopen]
    by_cases hclose : c = '\x7d'
    · subst hclose
      rw [if_pos rfl]
      simp only [net_close]
      by_cases hlast : d ≤ 1
      · rw [if_pos hlast]
        refine iff_of_false nofun fun h => ?_
        have := h.1.2 [] List.nil_prefix
        rw [net_nil] at this
        omega
      · rw [if_neg hlast, ih (by omega)]
        have hcast : ((d - 1 : ℕ) : ℤ) = d - 1 := by omega
        rw [hcast]
        constructor
        · rintro ⟨hall, hend⟩
          exact ⟨⟨by omega, fun p hp => by have := hall p hp; omega⟩, by omega⟩
        · rintro ⟨⟨-, hall⟩, hend⟩
          exact ⟨fun p hp => by have := hall p hp; omega, by omega⟩
    · rw [if_neg hclose, ih hd]
      simp only [net_other hopen hclose]
      constructor
      · rintro ⟨hall, hend⟩
        exact ⟨⟨by omega, hall⟩, hend⟩
      · rintro ⟨⟨-, hall⟩, hend⟩
        exact ⟨hall, hend⟩

/-- At the depth of the arguments the braces of a string do no harm exactly where they match. -/
theorem level_two_iff {s : List Char} : level 2 s = some 2 ↔ BracesMatch s := by
  rw [level_eq_some_iff (by decide)]
  constructor
  · rintro ⟨hall, hend⟩
    exact ⟨fun p hp => by have := hall p hp; push_cast at this; omega, by
      push_cast at hend; omega⟩
  · rintro ⟨hall, hend⟩
    exact ⟨fun p hp => by have := hall p hp; push_cast; omega, by push_cast; omega⟩

theorem level_append (d : ℕ) (s t : List Char) :
    level d (s ++ t) = (level d s).bind fun d' => level d' t := by
  induction s generalizing d with
  | nil => rfl
  | cons c s ih =>
    rw [List.cons_append, level, level]
    by_cases hopen : c = '\x7b'
    · rw [if_pos hopen, if_pos hopen, ih]
    rw [if_neg hopen, if_neg hopen]
    by_cases hclose : c = '\x7d'
    · rw [if_pos hclose, if_pos hclose]
      by_cases hlast : d ≤ 1
      · rw [if_pos hlast, if_pos hlast]
        rfl
      · rw [if_neg hlast, if_neg hlast, ih]
    · rw [if_neg hclose, if_neg hclose, ih]

/-- A text without braces. -/
theorem level_of_no_braces {s : List Char} (h : '\x7b' ∉ s ∧ '\x7d' ∉ s) (d : ℕ) :
    level d s = some d := by
  induction s with
  | nil => rfl
  | cons c s ih =>
    have hopen : c ≠ '\x7b' := fun hc => h.1 (hc ▸ List.mem_cons_self)
    have hclose : c ≠ '\x7d' := fun hc => h.2 (hc ▸ List.mem_cons_self)
    rw [level, if_neg hopen, if_neg hclose]
    exact ih ⟨fun hc => h.1 (List.mem_cons_of_mem c hc), fun hc => h.2 (List.mem_cons_of_mem c hc)⟩

/-! ### The scan -/

/-- A text in front of what is found. -/
def Extracted.prepend : List Char → Extracted → Extracted
  | [], e => e
  | c :: s, e => (e.prepend s).cons c

theorem prepend_found (s t : List Char) : (Extracted.found t).prepend s = .found (s ++ t) := by
  induction s with
  | nil => rfl
  | cons c s ih => rw [Extracted.prepend, ih]; rfl

/-- The scan goes on where the depth has not come down to zero; else it has ended. -/
theorem scanBraces_append {d : ℕ} (hd : 1 ≤ d) (s r : List Char) :
    match level d s with
    | some d' => 1 ≤ d' ∧ scanBraces d (s ++ r) = (scanBraces d' r).prepend s
    | none => ∃ p, p <+: s ∧ scanBraces d (s ++ r) = .found p := by
  induction s generalizing d with
  | nil => exact ⟨hd, rfl⟩
  | cons c s ih =>
    rw [level, List.cons_append, scanBraces]
    have hstep : ∀ {d' : ℕ}, 1 ≤ d' →
        match level d' s with
        | some d'' => 1 ≤ d'' ∧
          (scanBraces d' (s ++ r)).cons c = (scanBraces d'' r).prepend (c :: s)
        | none => ∃ p, p <+: c :: s ∧ (scanBraces d' (s ++ r)).cons c = .found p := by
      intro d' hd'
      have hrest := ih hd'
      cases hlevel : level d' s with
      | some d'' =>
        rw [hlevel] at hrest
        dsimp only at hrest ⊢
        exact ⟨hrest.1, by rw [hrest.2]; rfl⟩
      | none =>
        rw [hlevel] at hrest
        obtain ⟨p, hp, hfound⟩ := hrest
        exact ⟨c :: p, List.cons_prefix_cons.2 ⟨rfl, hp⟩, by rw [hfound]; rfl⟩
    by_cases hopen : c = '\x7b'
    · rw [if_pos hopen, if_pos hopen]
      exact hstep (by omega)
    rw [if_neg hopen, if_neg hopen]
    by_cases hclose : c = '\x7d'
    · have hpositive : ¬ d = 0 := by omega
      rw [if_pos hclose, if_pos hclose, if_neg hpositive]
      by_cases hlast : d ≤ 1
      · have hzero : d - 1 = 0 := by omega
        rw [if_pos hlast, if_pos hzero]
        exact ⟨[c], List.cons_prefix_cons.2 ⟨rfl, List.nil_prefix⟩, rfl⟩
      · have hzero : ¬ d - 1 = 0 := by omega
        rw [if_neg hlast, if_neg hzero]
        exact hstep (by omega)
    · rw [if_neg hclose, if_neg hclose]
      exact hstep hd

/-- The scan never dies, and what it finds is a beginning of the text that ends with a closing
    brace. -/
theorem scanBraces_shape {d : ℕ} (hd : 1 ≤ d) (s : List Char) :
    scanBraces d s ≠ .panics ∧
      ∀ x, scanBraces d s = .found x → x <+: s ∧ x.getLast? = some '\x7d' := by
  induction s generalizing d with
  | nil => exact ⟨nofun, nofun⟩
  | cons c s ih =>
    have hstep : ∀ {d' : ℕ}, 1 ≤ d' → (scanBraces d' s).cons c ≠ .panics ∧
        ∀ x, (scanBraces d' s).cons c = .found x → x <+: c :: s ∧ x.getLast? = some '\x7d' := by
      intro d' hd'
      obtain ⟨halive, hfound⟩ := ih hd'
      cases hscan : scanBraces d' s with
      | nothing => exact ⟨nofun, nofun⟩
      | panics => exact absurd hscan halive
      | found y =>
        obtain ⟨hpre, hlast⟩ := hfound y hscan
        refine ⟨nofun, fun x hx => ?_⟩
        obtain rfl := Extracted.found.inj hx
        refine ⟨List.cons_prefix_cons.2 ⟨rfl, hpre⟩, ?_⟩
        rw [List.getLast?_cons, hlast]
        rfl
    rw [scanBraces]
    by_cases hopen : c = '\x7b'
    · rw [if_pos hopen]
      exact hstep (by omega)
    rw [if_neg hopen]
    by_cases hclose : c = '\x7d'
    · rw [if_pos hclose, if_neg (by omega)]
      by_cases hlast : d - 1 = 0
      · rw [if_pos hlast]
        refine ⟨nofun, fun x hx => ?_⟩
        obtain rfl := Extracted.found.inj hx
        exact ⟨List.cons_prefix_cons.2 ⟨rfl, List.nil_prefix⟩, by rw [hclose]; rfl⟩
      · rw [if_neg hlast]
        exact hstep (by omega)
    · rw [if_neg hclose]
      exact hstep hd

theorem scanBraces_open (s : List Char) :
    scanBraces 0 ('\x7b' :: s) = (scanBraces 1 s).cons '\x7b' := by
  rw [scanBraces, if_pos rfl]

/-- What is found in any text. -/
theorem extractJson_shape (raw : List Char) : extractJson raw ≠ .panics ∧
    ∀ x, extractJson raw = .found x →
      x <:+: raw ∧ x.head? = some '\x7b' ∧ x.getLast? = some '\x7d' := by
  unfold extractJson
  cases hdrop : raw.dropWhile (· ≠ '\x7b') with
  | nil => exact ⟨nofun, nofun⟩
  | cons c s =>
    have hc : c = '\x7b' := by
      have hhead := List.head?_dropWhile_not (fun c => decide (c ≠ '\x7b')) raw
      rw [hdrop] at hhead
      simpa using hhead
    obtain ⟨halive, hfound⟩ := scanBraces_shape (Nat.le_refl 1) s
    dsimp only
    rw [hc, scanBraces_open]
    cases hscan : scanBraces 1 s with
    | nothing => exact ⟨nofun, nofun⟩
    | panics => exact absurd hscan halive
    | found y =>
      obtain ⟨hpre, hlast⟩ := hfound y hscan
      refine ⟨nofun, fun x hx => ?_⟩
      obtain rfl := Extracted.found.inj hx
      refine ⟨?_, rfl, by rw [List.getLast?_cons, hlast]; rfl⟩
      have hsuffix : '\x7b' :: s <:+ raw := by
        rw [← hc, ← hdrop]
        exact List.dropWhile_suffix _
      exact (List.cons_prefix_cons.2 ⟨rfl, hpre⟩).isInfix.trans hsuffix.isInfix

/-! ### The text of a call -/

theorem brace_notMem_toDigits (n : ℕ) :
    '\x7b' ∉ Nat.toDigits 10 n ∧ '\x7d' ∉ Nat.toDigits 10 n :=
  ⟨fun h => absurd (isDigit_toDigits h) (by decide),
    fun h => absurd (isDigit_toDigits h) (by decide)⟩

theorem brace_notMem_jsonInt (n : ℤ) : '\x7b' ∉ jsonInt n ∧ '\x7d' ∉ jsonInt n := by
  cases n with
  | ofNat n => exact brace_notMem_toDigits n
  | negSucc n =>
    exact ⟨List.not_mem_cons_of_ne_of_not_mem (by decide) (brace_notMem_toDigits _).1,
      List.not_mem_cons_of_ne_of_not_mem (by decide) (brace_notMem_toDigits _).2⟩

theorem brace_notMem_jsonLine (n : Option UInt64) : '\x7b' ∉ jsonLine n ∧ '\x7d' ∉ jsonLine n := by
  cases n with
  | none => decide
  | some n => exact brace_notMem_toDigits _

theorem hexDigit_ne_brace {n : ℕ} (h : n < 16) : hexDigit n ≠ '\x7b' ∧ hexDigit n ≠ '\x7d' := by
  revert n
  decide

theorem brace_notMem_escapeChar {c : Char} (hopen : c ≠ '\x7b') (hclose : c ≠ '\x7d') :
    '\x7b' ∉ escapeChar c ∧ '\x7d' ∉ escapeChar c := by
  unfold escapeChar
  have hlow : c.toNat / 16 < 16 ∨ ¬ c.toNat < 32 := by omega
  split_ifs with hquote hback hn hr ht h8 h12 h32
  all_goals try decide
  · have hhigh := hexDigit_ne_brace (hlow.resolve_right (not_not.2 h32))
    have hrest := hexDigit_ne_brace (Nat.mod_lt c.toNat (by decide : 16 > 0))
    simp only [List.mem_cons, List.not_mem_nil, not_or, or_false]
    exact ⟨⟨by decide, by decide, by decide, by decide, hhigh.1.symm, hrest.1.symm⟩,
      ⟨by decide, by decide, by decide, by decide, hhigh.2.symm, hrest.2.symm⟩⟩
  · exact ⟨fun h => hopen (List.mem_singleton.1 h).symm,
      fun h => hclose (List.mem_singleton.1 h).symm⟩

/-- Escaping a string does nothing to its braces. -/
theorem level_escape (d : ℕ) (s : List Char) : level d (s.flatMap escapeChar) = level d s := by
  induction s generalizing d with
  | nil => rfl
  | cons c s ih =>
    rw [List.flatMap_cons, level]
    by_cases hopen : c = '\x7b'
    · rw [if_pos hopen, hopen]
      exact ih (d + 1)
    rw [if_neg hopen]
    by_cases hclose : c = '\x7d'
    · rw [if_pos hclose, hclose, ← ih]
      rfl
    · rw [if_neg hclose, level_append, level_of_no_braces (brace_notMem_escapeChar hopen hclose)]
      exact ih d

/-- The text of a call: its string stands at the depth of the arguments, and behind it there is no
    brace but the last two. -/
theorem toolCallJson_shape (call : ToolCall) : ∃ front back,
    toolCallJson call = '\x7b' :: (front ++ (call.text.toList.flatMap escapeChar ++
      (back ++ ['\x7d']))) ++ ['\x7d'] ∧
    level 1 front = some 2 ∧ '\x7b' ∉ back ∧ '\x7d' ∉ back := by
  cases call with
  | search query limit =>
    refine ⟨"\"tool\":\"search\",\"args\":\x7b\"query\":\"".toList,
      "\",\"limit\":".toList ++ Nat.toDigits 10 limit.toNat, ?_, by decide, ?_, ?_⟩
    · simp [toolCallJson, jsonObject, ToolCall.args, ToolCall.text, ToolCall.name, jsonField,
        jsonString, escapeChar]
    · exact fun h => (List.mem_append.1 h).elim (by decide) (brace_notMem_toDigits _).1
    · exact fun h => (List.mem_append.1 h).elim (by decide) (brace_notMem_toDigits _).2
  | graph symbol =>
    refine ⟨"\"tool\":\"graph\",\"args\":\x7b\"symbol\":\"".toList, ['"'], ?_, by decide,
      by decide, by decide⟩
    simp [toolCallJson, jsonObject, ToolCall.args, ToolCall.text, ToolCall.name, jsonField,
      jsonString, escapeChar]
  | readChunk chunkId =>
    refine ⟨"\"tool\":\"read_chunk\",\"args\":\x7b\"chunk_id\":".toList, jsonInt chunkId.toInt,
      ?_, by decide, brace_notMem_jsonInt _⟩
    simp [toolCallJson, jsonObject, ToolCall.args, ToolCall.text, ToolCall.name, jsonField,
      jsonString, escapeChar]
  | readFile path startLine endLine =>
    refine ⟨"\"tool\":\"read_file\",\"args\":\x7b\"path\":\"".toList,
      "\",\"start_line\":".toList ++ jsonLine startLine ++ (",\"end_line\":".toList ++
        jsonLine endLine), ?_, by decide, ?_, ?_⟩
    · simp [toolCallJson, jsonObject, ToolCall.args, ToolCall.text, ToolCall.name, jsonField,
        jsonString, escapeChar]
    · simp only [List.mem_append, not_or]
      exact ⟨⟨by decide, (brace_notMem_jsonLine _).1⟩, by decide, (brace_notMem_jsonLine _).1⟩
    · simp only [List.mem_append, not_or]
      exact ⟨⟨by decide, (brace_notMem_jsonLine _).2⟩, by decide, (brace_notMem_jsonLine _).2⟩
  | done answer =>
    refine ⟨"\"tool\":\"done\",\"args\":\x7b\"answer\":\"".toList, ['"'], ?_, by decide,
      by decide, by decide⟩
    simp [toolCallJson, jsonObject, ToolCall.args, ToolCall.text, ToolCall.name, jsonField,
      jsonString, escapeChar]

/-! ### The law -/

theorem extractJson_append {before : List Char} (h : '\x7b' ∉ before) (s : List Char) :
    extractJson (before ++ '\x7b' :: s) = (scanBraces 1 s).cons '\x7b' := by
  have hdrop : (before ++ '\x7b' :: s).dropWhile (· ≠ '\x7b') = '\x7b' :: s := by
    rw [List.dropWhile_append_of_pos]
    · rfl
    · exact fun c hc => decide_eq_true fun heq => h (heq ▸ hc)
  rw [extractJson, hdrop]
  exact scanBraces_open s

/-- What is found where a call stands in a text. -/
theorem extractJson_call (call : ToolCall) {before : List Char} (h : '\x7b' ∉ before)
    (after : List Char) :
    let found := extractJson (before ++ toolCallJson call ++ after)
    (BracesMatch call.text.toList ∧ found = .found (toolCallJson call)) ∨
      ¬ BracesMatch call.text.toList ∧ (found = .nothing ∨
        (∃ start rest, toolCallJson call = start ++ rest ∧ rest ≠ [] ∧ found = .found start) ∨
        ∃ rest, '\x7d' ∈ rest ∧ found = .found (toolCallJson call ++ rest)) := by
  intro found
  obtain ⟨front, back, hjson, hfront, hback⟩ := toolCallJson_shape call
  generalize hinner : front ++ (call.text.toList.flatMap escapeChar ++ (back ++ ['\x7d'])) = inner
    at hjson
  have hfound : found = (scanBraces 1 (inner ++ '\x7d' :: after)).cons '\x7b' := by
    rw [← extractJson_append h]
    show extractJson (before ++ toolCallJson call ++ after) = _
    rw [hjson]
    congr 1
    simp
  have hlevel : level 1 inner = (level 2 call.text.toList).bind fun d =>
      if d ≤ 1 then none else some (d - 1) := by
    rw [← hinner, level_append, hfront, Option.bind_some, level_append, level_escape]
    refine congrArg _ (funext fun d => ?_)
    rw [level_append, level_of_no_braces hback, Option.bind_some]
    rfl
  have hscan := scanBraces_append (Nat.le_refl 1) inner ('\x7d' :: after)
  rw [← level_two_iff]
  -- Where the scan ends before the last brace.
  have hshort : level 1 inner = none → ∃ start rest, toolCallJson call = start ++ rest ∧
      rest ≠ [] ∧ found = .found start := by
    intro hnone
    rw [hnone] at hscan
    obtain ⟨p, ⟨q, hp⟩, hp'⟩ := hscan
    refine ⟨'\x7b' :: p, q ++ ['\x7d'], ?_, by simp, by rw [hfound, hp']; rfl⟩
    rw [hjson, ← hp, List.cons_append, List.cons_append, List.append_assoc]
  cases htext : level 2 call.text.toList with
  | none =>
    rw [htext] at hlevel
    exact .inr ⟨nofun, .inr (.inl (hshort hlevel))⟩
  | some d =>
    rw [htext, Option.bind_some] at hlevel
    by_cases hlast : d ≤ 1
    · rw [if_pos hlast] at hlevel
      refine .inr ⟨fun hd => ?_, .inr (.inl (hshort hlevel))⟩
      have := Option.some.inj hd
      omega
    rw [if_neg hlast] at hlevel
    rw [hlevel] at hscan
    obtain ⟨-, hscan⟩ := hscan
    have hclose : ('\x7d' : Char) ≠ '\x7b' := by decide
    have hpositive : ¬ d - 1 = 0 := by omega
    rw [scanBraces, if_neg hclose, if_pos rfl, if_neg hpositive] at hscan
    by_cases htwo : d = 2
    · have hzero : d - 1 - 1 = 0 := by omega
      rw [if_pos hzero, prepend_found] at hscan
      refine .inl ⟨by rw [htwo], ?_⟩
      rw [hfound, hscan, hjson]
      rfl
    · have hzero : ¬ d - 1 - 1 = 0 := by omega
      rw [if_neg hzero] at hscan
      refine .inr ⟨fun hd => htwo (Option.some.inj hd), ?_⟩
      obtain ⟨halive, hends⟩ := scanBraces_shape (d := d - 1 - 1) (by omega) after
      cases hrest : scanBraces (d - 1 - 1) after with
      | panics => exact absurd hrest halive
      | nothing =>
        have hnothing : ∀ l, Extracted.nothing.prepend l = .nothing := by
          intro l
          induction l with
          | nil => rfl
          | cons c l ih => rw [Extracted.prepend, ih]; rfl
        refine .inl ?_
        rw [hfound, hscan, hrest]
        show (Extracted.nothing.prepend inner).cons _ = _
        rw [hnothing]
        rfl
      | found x =>
        obtain ⟨-, hlastBrace⟩ := hends x hrest
        refine .inr (.inr ⟨x, List.mem_of_getLast? hlastBrace, ?_⟩)
        rw [hfound, hscan, hrest, hjson]
        show ((Extracted.found ('\x7d' :: x)).prepend inner).cons _ = _
        rw [prepend_found]
        simp [Extracted.cons]

/-- A call in a text without a brace before it is read exactly where the braces of its string match;
    and in any text the extraction lives and gives a part of it in braces. -/
theorem toolCallLaw (reader : ToolReader) (call : ToolCall) :
    (∀ before after, '\x7b' ∉ before ∧ '\x7d' ∉ before →
      (parseToolCall reader (before ++ toolCallJson call ++ after) = some (some call) ↔
        BracesMatch call.text.toList)) ∧
    ∀ raw, extractJson raw ≠ .panics ∧ ∀ x, extractJson raw = .found x →
      x <:+: raw ∧ x.head? = some '\x7b' ∧ x.getLast? = some '\x7d' := by
  refine ⟨fun before after hbefore => ?_, extractJson_shape⟩
  unfold parseToolCall
  rcases extractJson_call call hbefore.1 after with ⟨hmatch, hfound⟩ | ⟨hno, hfound | hfound | hfound⟩
  · rw [hfound]
    exact iff_of_true (congrArg some (reader.reads call)) hmatch
  · rw [hfound]
    exact iff_of_false nofun hno
  · obtain ⟨start, rest, hjson, hrest, hfound⟩ := hfound
    rw [hfound]
    dsimp only
    rw [reader.truncated call start rest hjson hrest]
    exact iff_of_false nofun hno
  · obtain ⟨rest, hrest, hfound⟩ := hfound
    rw [hfound]
    dsimp only
    rw [reader.trailing call rest ⟨_, hrest, by decide⟩]
    exact iff_of_false nofun hno

/-! ### A library that reads calls -/

theorem delimited_jsonLine : Delimited jsonLine := by
  have hnull : ∀ (n : UInt64) (r r' : List Char),
      "null".toList ++ r ≠ Nat.toDigits 10 n.toNat ++ r' := by
    intro n r r' h
    cases hdigits : Nat.toDigits 10 n.toNat with
    | nil => exact Nat.toDigits_ne_nil hdigits
    | cons c l =>
      rw [hdigits] at h
      have hc : 'n' = c := (List.cons_eq_cons.1 h).1
      have hdigit := isDigit_toDigits (n := n.toNat) (c := c) (hdigits ▸ List.mem_cons_self)
      rw [← hc] at hdigit
      exact absurd hdigit (by decide)
  intro a b r r' hr hr' h
  cases a with
  | none =>
    cases b with
    | none => exact ⟨rfl, List.append_cancel_left h⟩
    | some n => exact absurd h (hnull n r r')
  | some m =>
    cases b with
    | none => exact absurd h.symm (hnull m r' r)
    | some n =>
      obtain ⟨hn, hrest⟩ := delimited_toDigits _ _ r r' hr hr' h
      exact ⟨congrArg some (UInt64.toNat_inj.1 hn), hrest⟩

theorem toolCallJson_eq (call : ToolCall) : toolCallJson call =
    "\x7b\"tool\":".toList ++ (jsonString call.name ++ (",\"args\":\x7b".toList ++
      ([','].intercalate call.args ++ ['\x7d', '\x7d']))) := by
  simp [toolCallJson, jsonObject, jsonField, jsonString, escapeChar]

/-- A string argument is told from what follows it. -/
theorem stringField_append_inj {name s t : String} {r r' : List Char}
    (h : jsonField name (jsonString s) ++ r = jsonField name (jsonString t) ++ r') :
    s = t ∧ r = r' := by
  unfold jsonField at h
  simp only [List.append_assoc, List.cons_append] at h
  exact jsonString_append_inj (List.cons_eq_cons.1 (List.append_cancel_left h)).2

/-- Behind the objects' ends. -/
theorem args_append_inj {a b : ToolCall} (hname : a.name = b.name) {r r' : List Char}
    (h : [','].intercalate a.args ++ ('\x7d' :: r) = [','].intercalate b.args ++ ('\x7d' :: r')) :
    a = b ∧ r = r' := by
  cases a with
  | search query limit =>
    cases b with
    | search query' limit' =>
      simp only [ToolCall.args, List.intercalate_cons_cons, List.intercalate_singleton,
        List.append_assoc] at h
      obtain ⟨rfl, hrest⟩ := stringField_append_inj h
      obtain ⟨hlimit, hend⟩ := jsonField_append_inj delimited_toDigits (separated_brace _)
        (separated_brace _) (List.append_cancel_left hrest)
      obtain rfl := UInt64.toNat_inj.1 hlimit
      exact ⟨rfl, (List.cons.inj hend).2⟩
    | _ => simp [ToolCall.name] at hname
  | graph symbol =>
    cases b with
    | graph symbol' =>
      simp only [ToolCall.args, List.intercalate_singleton] at h
      obtain ⟨rfl, hend⟩ := stringField_append_inj h
      exact ⟨rfl, (List.cons.inj hend).2⟩
    | _ => simp [ToolCall.name] at hname
  | readChunk chunkId =>
    cases b with
    | readChunk chunkId' =>
      simp only [ToolCall.args, List.intercalate_singleton] at h
      obtain ⟨hid, hend⟩ := jsonField_append_inj delimited_jsonInt (separated_brace _)
        (separated_brace _) h
      obtain rfl := Int64.toInt_inj.1 hid
      exact ⟨rfl, (List.cons.inj hend).2⟩
    | _ => simp [ToolCall.name] at hname
  | readFile path startLine endLine =>
    cases b with
    | readFile path' startLine' endLine' =>
      simp only [ToolCall.args, List.intercalate_cons_cons, List.intercalate_singleton,
        List.append_assoc] at h
      obtain ⟨rfl, hpath⟩ := stringField_append_inj h
      obtain ⟨rfl, hstart⟩ := jsonField_append_inj delimited_jsonLine (separated_comma _)
        (separated_comma _) (List.append_cancel_left hpath)
      obtain ⟨rfl, hend⟩ := jsonField_append_inj delimited_jsonLine (separated_brace _)
        (separated_brace _) (List.cons.inj hstart).2
      exact ⟨rfl, (List.cons.inj hend).2⟩
    | _ => simp [ToolCall.name] at hname
  | done answer =>
    cases b with
    | done answer' =>
      simp only [ToolCall.args, List.intercalate_singleton] at h
      obtain ⟨rfl, hend⟩ := stringField_append_inj h
      exact ⟨rfl, (List.cons.inj hend).2⟩
    | _ => simp [ToolCall.name] at hname

/-- The text of a call determines it, whatever follows. -/
theorem toolCallJson_append_inj {a b : ToolCall} {r r' : List Char}
    (h : toolCallJson a ++ r = toolCallJson b ++ r') : a = b ∧ r = r' := by
  rw [toolCallJson_eq, toolCallJson_eq] at h
  simp only [List.append_assoc] at h
  obtain ⟨hname, hargs⟩ := jsonString_append_inj (List.append_cancel_left h)
  have hsame : a.name = b.name := hname
  obtain ⟨rfl, hend⟩ := args_append_inj hsame (List.append_cancel_left hargs)
  exact ⟨rfl, (List.cons.inj hend).2⟩

open Classical in
/-- The library that reads the texts of calls, and nothing else. -/
noncomputable def toolReader : ToolReader where
  fromStr s := if h : ∃ call, toolCallJson call = s then some h.choose else none
  reads call := by
    have h : ∃ call', toolCallJson call' = toolCallJson call := ⟨call, rfl⟩
    rw [dif_pos h]
    exact congrArg some (toolCallJson_append_inj (congrArg (· ++ []) h.choose_spec)).1
  trailing call rest hrest := by
    obtain ⟨c, hc, -⟩ := hrest
    refine dif_neg fun ⟨call', h⟩ => ?_
    have h' : toolCallJson call' ++ [] = toolCallJson call ++ rest := by
      rw [List.append_nil, h]
    rw [← (toolCallJson_append_inj h').2] at hc
    exact List.not_mem_nil hc
  truncated call start rest hcall hrest := by
    refine dif_neg fun ⟨call', h⟩ => hrest ?_
    have h' : toolCallJson call' ++ rest = toolCallJson call ++ [] := by
      rw [List.append_nil, hcall, h]
    exact (toolCallJson_append_inj h').2

/-- An answer that is a closing brace: the object found is the call's without its own last one. -/
theorem call_unbalanced :
    extractJson (toolCallJson (.done "\x7d")) =
      .found "\x7b\"tool\":\"done\",\"args\":\x7b\"answer\":\"\x7d\"\x7d".toList ∧
    parseToolCall toolReader (toolCallJson (.done "\x7d")) = some none := by
  have hfound : extractJson (toolCallJson (.done "\x7d")) =
      .found "\x7b\"tool\":\"done\",\"args\":\x7b\"answer\":\"\x7d\"\x7d".toList := by
    decide +kernel
  refine ⟨hfound, ?_⟩
  unfold parseToolCall
  rw [hfound]
  refine congrArg some (toolReader.truncated (.done "\x7d") _ ['\x7d'] ?_ (by decide))
  decide +kernel

end Spelunk
