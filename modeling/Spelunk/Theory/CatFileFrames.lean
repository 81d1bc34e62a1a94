import Mathlib.Data.List.TakeWhile
import Mathlib.Order.Basic
import Spelunk.Core.GitNotes

/-!
# Decoding Undoes the Framing

`Reply` is one reply as the decoder accepts it: the header words, and for a body the
byte behind it, which is never looked at. git writes the size in decimal and a line
end behind the body (`GitReply`). A reply is decoded to its text whatever follows it
(`parse_append_reply`), so replies are decoded in order, and what ends inside a reply
is an error.

The one way to the overflow is a header that names the largest `usize`
(`SizeAtLimit`).

## Main definitions

* `Word`, `Reply`: A reply that the decoder accepts and its parts.
* `Reply.encode`, `Reply.text`: Its bytes, and what it decodes to.
* `GitReply`: A reply as git frames it.
* `SizeAtLimit`: Where the sum overflows.
* `DecodesFrames`: What decoding an output is to give.

## Theorems

* `splitOn_fromUtf8Lossy`: The words of a header are those of its bytes.
* `parse_append_reply`, `parse_replies`: Replies are decoded in order.
* `parse_cut`: What ends inside a reply is an error.
* `sizeAtLimit_of_overflow`: What overflows has a header of the largest size.
* `decodingLaw`: Every output is decoded as it should be but those.
-/

namespace Spelunk

open Lib.Utf8 (fromUtf8Lossy asciiByte Ascii)

/-! ### Replies -/

/-- A word of a header line. -/
structure Word where
  bytes : List UInt8
  no_space : space ∉ bytes
  no_newline : newline ∉ bytes

/-- One reply. A size is read from its word, and that and one are no overflow. -/
inductive Reply where
  | missing (object reason : Word)
  | body (object kind size : Word) (bytes : List UInt8) (behind : UInt8)
      (size_eq : parseUsize (fromUtf8Lossy size.bytes) = some bytes.length)
      (fits : bytes.length + 1 < usizeBound)

/-- The words of a header on a line. -/
def headerLine (words : List Word) : List UInt8 :=
  [space].intercalate (words.map (·.bytes))

namespace Reply

/-- The bytes of a reply. -/
def encode : Reply → List UInt8
  | missing object reason => headerLine [object, reason] ++ [newline]
  | body object kind size bytes behind _ _ =>
      headerLine [object, kind, size] ++ newline :: (bytes ++ [behind])

/-- What a reply is decoded to. -/
def text : Reply → String
  | missing _ _ => ""
  | body _ _ _ bytes _ _ _ => String.ofList (fromUtf8Lossy bytes)

end Reply

/-- Behind whole replies stands a header that names the largest `usize`. -/
def SizeAtLimit (out : List UInt8) : Prop :=
  ∃ (replies : List Reply) (object kind size : Word) (rest : List UInt8),
    out = replies.flatMap Reply.encode ++ (headerLine [object, kind, size] ++ newline :: rest) ∧
      parseUsize (fromUtf8Lossy size.bytes) = some (usizeBound - 1)

/-! ### Headers -/

/-- The words of a header are those of its bytes, each decoded. -/
theorem splitOn_fromUtf8Lossy (bytes : List UInt8) :
    (fromUtf8Lossy bytes).splitOn ' ' = (bytes.splitOn space).map fromUtf8Lossy := by
  induction hn : bytes.length using Nat.strongRecOn generalizing bytes with
  | ind n ih =>
    subst hn
    by_cases hs : space ∈ bytes
    · obtain ⟨x, y, rfl⟩ := List.append_of_mem hs
      have hlen : (x ++ space :: y).length = x.length + y.length + 1 := by simp; omega
      rw [Lib.Utf8.fromUtf8Lossy_append_ascii x y (by decide : space.toNat < 0x80),
        show Char.ofNat space.toNat = ' ' from rfl, List.splitOn_append_cons_self,
        List.splitOn_append_cons_self, List.map_append, ih x.length (by omega) x rfl,
        ih y.length (by omega) y rfl]
    · have hno : ' ' ∉ fromUtf8Lossy bytes := by
        intro hc
        obtain ⟨b, hb, hbc⟩ := Lib.Utf8.exists_byte_of_mem_decodeFrom hc (by decide)
        have hb' : b = space := UInt8.toNat_inj.1 hbc
        exact hs (hb' ▸ hb)
      rw [List.splitOn_eq_singleton hs, List.splitOn_eq_singleton hno]
      rfl

/-- The words on a line are read back. -/
theorem splitOn_headerLine {words : List Word} (hne : words ≠ []) :
    (headerLine words).splitOn space = words.map (·.bytes) := by
  refine List.splitOn_intercalate space (fun w hw => ?_) (by simpa using hne)
  obtain ⟨word, -, rfl⟩ := List.mem_map.1 hw
  exact word.no_space

theorem newline_notMem_headerLine (words : List Word) : newline ∉ headerLine words := by
  unfold headerLine
  induction words with
  | nil => simp
  | cons w words ih =>
    rcases words with _ | ⟨v, words⟩
    · simpa using w.no_newline
    · rw [List.map_cons, List.map_cons, List.intercalate_cons_cons, ← List.map_cons]
      simp only [List.mem_append, List.mem_singleton, not_or]
      exact ⟨⟨w.no_newline, by decide⟩, ih⟩

/-- A header line is made of words. -/
theorem exists_words {header : List UInt8} (h : newline ∉ header) :
    ∃ words : List Word, words.map (·.bytes) = header.splitOn space ∧
      header = headerLine words := by
  have hwords : ∀ w ∈ header.splitOn space, space ∉ w ∧ newline ∉ w := by
    exact fun w hw => ⟨Lib.notMem_of_mem_splitOn hw, fun hc => h (Lib.mem_of_mem_splitOn hw hc)⟩
  refine ⟨(header.splitOn space).attach.map fun w =>
    ⟨w.1, (hwords w.1 w.2).1, (hwords w.1 w.2).2⟩, ?_, ?_⟩
  · simp
  · unfold headerLine
    rw [List.map_map]
    have hmap : (header.splitOn space).attach.map (fun w => w.1) = header.splitOn space := by simp
    exact (List.intercalate_splitOn space).symm.trans (congrArg _ hmap.symm)

/-! ### One line -/

section Line

variable {header rest : List UInt8}

/-- What the decoder makes of a line of some words, with the rest of the output. -/
def decodeLine (words : List (List UInt8)) (header rest : List UInt8) :
    Except BatchError (List String) :=
  match words with
  | [_, _] => (parseCatFileBatch rest).map ("" :: ·)
  | [_, _, size] =>
      match parseUsize (fromUtf8Lossy size) with
      | none => .error (.badSize (String.ofList (fromUtf8Lossy header)))
      | some size =>
          if usizeBound ≤ size + 1 then .error .overflow
          else if rest.length < size + 1 then .error .truncatedBody
          else
            (parseCatFileBatch (rest.drop (size + 1))).map
              (String.ofList (fromUtf8Lossy (rest.take size)) :: ·)
  | _ => .error (.unexpectedHeader (String.ofList (fromUtf8Lossy header)))

/-- The first line decides what the rest is read as. -/
theorem parse_line (h : newline ∉ header) :
    parseCatFileBatch (header ++ newline :: rest) =
      decodeLine (header.splitOn space) header rest := by
  have hkeep : ∀ b ∈ header, decide (b ≠ newline) = true :=
    fun b hb => decide_eq_true fun hc => h (hc ▸ hb)
  have htake : (header ++ newline :: rest).takeWhile (· ≠ newline) = header := by
    rw [List.takeWhile_append_of_pos hkeep]
    simp
  have hdrop : (header ++ newline :: rest).dropWhile (· ≠ newline) = newline :: rest := by
    rw [List.dropWhile_append_of_pos hkeep]
    simp
  rw [parseCatFileBatch.eq_def, if_neg (by simp)]
  split
  · next hnil =>
    rw [hdrop] at hnil
    cases hnil
  · next hcons =>
    rw [hdrop, List.cons.injEq] at hcons
    simp only [htake, splitOn_fromUtf8Lossy, ← hcons.2]
    unfold decodeLine
    rcases header.splitOn space with _ | ⟨a, _ | ⟨b, _ | ⟨c, _ | ⟨d, words⟩⟩⟩⟩ <;> rfl

/-- Bytes without a line end are no header. -/
theorem parse_noLine (h : newline ∉ header) (hne : header ≠ []) :
    parseCatFileBatch header = .error .headerWithNoNewline := by
  have hdrop : header.dropWhile (· ≠ newline) = [] :=
    List.dropWhile_eq_nil_iff.2 fun b hb => decide_eq_true fun hc => h (hc ▸ hb)
  rw [parseCatFileBatch.eq_def, if_neg hne]
  split
  · rfl
  · next hcons =>
    rw [hdrop] at hcons
    cases hcons

theorem parse_headerLine {words : List Word} (hne : words ≠ []) :
    parseCatFileBatch (headerLine words ++ newline :: rest) =
      decodeLine (words.map (·.bytes)) (headerLine words) rest := by
  rw [parse_line (newline_notMem_headerLine words), splitOn_headerLine hne]

end Line

/-! ### Replies in order -/

/-- A reply is decoded to its text, whatever follows. -/
theorem parse_append_reply (r : Reply) (rest : List UInt8) :
    parseCatFileBatch (r.encode ++ rest) = (parseCatFileBatch rest).map (r.text :: ·) := by
  cases r with
  | missing object reason =>
    rw [Reply.encode, List.append_assoc, List.singleton_append, parse_headerLine (by simp)]
    rfl
  | body object kind size bytes behind size_eq fits =>
    rw [Reply.encode, List.append_assoc, List.cons_append, parse_headerLine (by simp)]
    have hlen : (bytes ++ [behind] ++ rest).length = bytes.length + 1 + rest.length := by
      rw [List.length_append, List.length_append, List.length_singleton]
    have htake : (bytes ++ [behind] ++ rest).take bytes.length = bytes := by
      rw [List.append_assoc, List.take_left]
    have hdrop : (bytes ++ [behind] ++ rest).drop (bytes.length + 1) = rest := by
      rw [← List.length_singleton (a := behind), ← List.length_append, List.drop_left]
    simp only [List.map_cons, List.map_nil, decodeLine, size_eq, htake, hdrop]
    rw [if_neg (by omega), if_neg (by omega)]
    rfl

/-- Replies are decoded in order. -/
theorem parse_replies (replies : List Reply) (rest : List UInt8) :
    parseCatFileBatch (replies.flatMap Reply.encode ++ rest) =
      (parseCatFileBatch rest).map (replies.map Reply.text ++ ·) := by
  induction replies with
  | nil =>
    simp only [List.flatMap_nil, List.nil_append, List.map_nil]
    cases parseCatFileBatch rest <;> rfl
  | cons r replies ih =>
    rw [List.flatMap_cons, List.append_assoc, parse_append_reply, ih]
    cases parseCatFileBatch rest <;> rfl

theorem parse_nil : parseCatFileBatch [] = .ok [] := by
  rw [parseCatFileBatch.eq_def, if_pos rfl]

/-- What ends inside a reply is an error, and not the overflow. -/
theorem parse_cut {r : Reply} {cut : List UInt8} (hcut : cut <+: r.encode) (hne : cut ≠ [])
    (hwhole : cut ≠ r.encode) : ∃ e, e ≠ .overflow ∧ parseCatFileBatch cut = .error e := by
  have hline : ∀ words : List Word, cut <+: headerLine words →
      ∃ e, e ≠ .overflow ∧ parseCatFileBatch cut = .error e := fun words hw =>
    ⟨_, by simp, parse_noLine (fun hc => newline_notMem_headerLine words (hw.subset hc)) hne⟩
  cases r with
  | missing object reason =>
    rcases List.prefix_concat_iff.1 hcut with heq | hpre
    · exact absurd heq hwhole
    · exact hline _ hpre
  | body object kind size bytes behind size_eq fits =>
    by_cases hlen : cut.length ≤ (headerLine [object, kind, size]).length
    · exact hline _ (List.prefix_of_prefix_length_le hcut (List.prefix_append _ _) hlen)
    · -- The header is whole, so the cut goes through the body or the byte behind it.
      obtain ⟨d, rfl⟩ := List.prefix_of_prefix_length_le (List.prefix_append _ _) hcut
        (Nat.le_of_not_le hlen)
      have hd : d <+: newline :: (bytes ++ [behind]) := (List.prefix_append_right_inj _).1 hcut
      rcases d with _ | ⟨b, c⟩
      · simp at hlen
      · obtain ⟨rfl, hc⟩ := List.cons_prefix_cons.1 hd
        have hshort : c.length < bytes.length + 1 := by
          have hle := hc.length_le
          rw [List.length_append, List.length_singleton] at hle
          refine lt_of_le_of_ne hle fun heq => hwhole ?_
          rw [Reply.encode, hc.eq_of_length (by simpa using heq)]
        refine ⟨.truncatedBody, by simp, ?_⟩
        rw [parse_headerLine (by simp)]
        simp only [List.map_cons, List.map_nil, decodeLine, size_eq]
        rw [if_neg (by omega), if_pos hshort]

/-! ### The overflow -/

theorem lt_of_parseUsize {s : List Char} {n : ℕ} (h : parseUsize s = some n) : n < usizeBound := by
  unfold parseUsize at h
  simp only at h
  split_ifs at h with h1 h2 <;> simp_all

theorem SizeAtLimit.prepend {out : List UInt8} (r : Reply) (h : SizeAtLimit out) :
    SizeAtLimit (r.encode ++ out) := by
  obtain ⟨replies, object, kind, size, rest, rfl, hsize⟩ := h
  exact ⟨r :: replies, object, kind, size, rest, by rw [List.flatMap_cons, List.append_assoc],
    hsize⟩

/-- What overflows has a header of the largest size. -/
theorem sizeAtLimit_of_overflow {out : List UInt8}
    (h : parseCatFileBatch out = .error .overflow) : SizeAtLimit out := by
  induction hn : out.length using Nat.strongRecOn generalizing out with
  | ind n ih =>
    subst hn
    by_cases hline : newline ∈ out
    · obtain ⟨header, rest, rfl, hheader⟩ := List.eq_append_cons_of_mem hline
      have hrest : rest.length < (header ++ newline :: rest).length := by
        rw [List.length_append, List.length_cons]
        omega
      obtain ⟨words, hwords, rfl⟩ := exists_words hheader
      rw [parse_line hheader, ← hwords] at h
      rcases words with _ | ⟨a, _ | ⟨b, _ | ⟨c, _ | ⟨d, words⟩⟩⟩⟩
      · cases h
      · cases h
      · -- A missing object.
        simp only [List.map_cons, List.map_nil, decodeLine] at h
        have hr : parseCatFileBatch rest = .error .overflow := by
          cases hp : parseCatFileBatch rest <;> simp_all [Except.map]
        have hlim := (ih rest.length hrest hr rfl).prepend (.missing a b)
        rwa [Reply.encode, List.append_assoc, List.singleton_append] at hlim
      · -- A body, whole or with the size that overflows.
        simp only [List.map_cons, List.map_nil, decodeLine] at h
        cases hsize : parseUsize (fromUtf8Lossy c.bytes) with
        | none => simp [hsize] at h
        | some size =>
          simp only [hsize] at h
          have hlt := lt_of_parseUsize hsize
          by_cases hbig : usizeBound ≤ size + 1
          · refine ⟨[], a, b, c, rest, rfl, ?_⟩
            rw [hsize]
            congr
            omega
          · rw [if_neg hbig] at h
            by_cases hshort : rest.length < size + 1
            · rw [if_pos hshort] at h
              cases h
            · rw [if_neg hshort] at h
              have hr : parseCatFileBatch (rest.drop (size + 1)) = .error .overflow := by
                cases hp : parseCatFileBatch (rest.drop (size + 1)) <;> simp_all [Except.map]
              have hbehind : size < rest.length := by omega
              have hlen : (rest.take size).length = size := by
                rw [List.length_take]
                omega
              have hlim := (ih _ (by rw [List.length_drop]; omega) hr rfl).prepend
                (.body a b c (rest.take size) rest[size] (by rw [hlen, hsize])
                  (by rw [hlen]; omega))
              have hsplit : rest.take size ++ ([rest[size]] ++ rest.drop (size + 1)) =
                  rest := by
                rw [List.singleton_append, ← List.drop_eq_getElem_cons, List.take_append_drop]
              rwa [Reply.encode, List.append_assoc, List.cons_append, List.append_assoc,
                hsplit] at hlim
      · cases h
    · by_cases hne : out = []
      · rw [hne, parse_nil] at h
        cases h
      · rw [parse_noLine hline hne] at h
        cases h

theorem overflow_of_sizeAtLimit {out : List UInt8} (h : SizeAtLimit out) :
    parseCatFileBatch out = .error .overflow := by
  obtain ⟨replies, object, kind, size, rest, rfl, hsize⟩ := h
  rw [parse_replies, parse_headerLine (by simp)]
  simp only [List.map_cons, List.map_nil, decodeLine, hsize]
  rw [if_pos (by unfold usizeBound; omega)]
  rfl

/-! ### The law -/

/-- A size in decimal. -/
def decimal (n : ℕ) : List UInt8 := (Nat.toDigits 10 n).map asciiByte

theorem isDigit_of_mem_toDigits {n : ℕ} {c : Char} (hc : c ∈ Nat.toDigits 10 n) :
    c.isDigit = true :=
  Nat.isDigit_of_mem_toDigits (by decide) (by decide) hc

theorem ascii_of_isDigit {c : Char} (hc : c.isDigit = true) : Ascii c ∧ '0' ≤ c := by
  simp only [Char.isDigit, Bool.and_eq_true, decide_eq_true_eq, UInt32.le_iff_toNat_le] at hc
  exact ⟨Nat.lt_of_le_of_lt hc.2 (by decide), hc.1⟩

/-- A size that git writes is read as that size. -/
theorem parseUsize_decimal {n : ℕ} (hn : n < usizeBound) :
    parseUsize (fromUtf8Lossy (decimal n)) = some n := by
  have hplus : (Nat.toDigits 10 n).head? ≠ some '+' := by
    intro hc
    exact absurd (isDigit_of_mem_toDigits (List.mem_of_mem_head? hc)) (by decide)
  rw [decimal, Lib.Utf8.fromUtf8Lossy_map_asciiByte
    fun c hc => (ascii_of_isDigit (isDigit_of_mem_toDigits hc)).1]
  unfold parseUsize
  simp only [if_neg hplus]
  rw [if_neg, Nat.ofDigitChars_ten_toDigits, if_pos hn]
  rintro (hc | hc)
  · exact Nat.toDigits_ne_nil hc
  · exact hc (List.all_eq_true.2 fun c hc => isDigit_of_mem_toDigits hc)

theorem digit_of_mem_decimal {n : ℕ} {b : UInt8} (hb : b ∈ decimal n) : 0x30 ≤ b.toNat := by
  obtain ⟨c, hc, rfl⟩ := List.mem_map.1 hb
  obtain ⟨hascii, hge⟩ := ascii_of_isDigit (isDigit_of_mem_toDigits hc)
  rw [Lib.Utf8.toNat_asciiByte hascii]
  exact hge

/-- A size as a word of a header. -/
def decimalWord (n : ℕ) : Word where
  bytes := decimal n
  no_space hc := absurd (digit_of_mem_decimal hc) (by decide)
  no_newline hc := absurd (digit_of_mem_decimal hc) (by decide)

/-- A reply of git: a line for what it could not read, or a body with its size before it and a line
    end behind it. -/
inductive GitReply where
  | missing (object reason : Word)
  | body (object kind : Word) (bytes : List UInt8) (fits : bytes.length + 1 < usizeBound)

namespace GitReply

def encode : GitReply → List UInt8
  | missing object reason => headerLine [object, reason] ++ [newline]
  | body object kind bytes _ =>
      headerLine [object, kind, decimalWord bytes.length] ++ newline :: (bytes ++ [newline])

def text : GitReply → String
  | missing _ _ => ""
  | body _ _ bytes _ => String.ofList (fromUtf8Lossy bytes)

/-- It is a reply that the decoder accepts. -/
def toReply : GitReply → Reply
  | missing object reason => .missing object reason
  | body object kind bytes fits =>
      .body object kind (decimalWord bytes.length) bytes newline
        (parseUsize_decimal (by omega)) fits

theorem encode_toReply (r : GitReply) : r.toReply.encode = r.encode := by
  cases r <;> rfl

theorem text_toReply (r : GitReply) : r.toReply.text = r.text := by
  cases r <;> rfl

/-- Replies of git are decoded in order, whatever follows them. -/
theorem parse_append (replies : List GitReply) (rest : List UInt8) :
    parseCatFileBatch (replies.flatMap encode ++ rest) =
      (parseCatFileBatch rest).map (replies.map text ++ ·) := by
  have h := parse_replies (replies.map toReply) rest
  simpa only [List.flatMap_map, List.map_map, Function.comp_def, encode_toReply,
    text_toReply] using h

end GitReply

/-- What decoding an output is to give: the replies of git in order, an error where it ends inside
    one, and never the overflow. -/
structure DecodesFrames (out : List UInt8) : Prop where
  whole : ∀ replies : List GitReply, out = replies.flatMap GitReply.encode →
    parseCatFileBatch out = .ok (replies.map GitReply.text)
  cut : ∀ (replies : List GitReply) (r : GitReply) (part : List UInt8), part <+: r.encode →
    part ≠ [] → part ≠ r.encode → out = replies.flatMap GitReply.encode ++ part →
      ∃ e, e ≠ .overflow ∧ parseCatFileBatch out = .error e
  safe : parseCatFileBatch out ≠ .error .overflow

/-- Every output is decoded as it should be, but one that names the largest size. -/
theorem decodingLaw (out : List UInt8) : DecodesFrames out ↔ ¬ SizeAtLimit out := by
  constructor
  · exact fun h hlim => h.safe (overflow_of_sizeAtLimit hlim)
  · refine fun hlim => ⟨?_, ?_, fun h => hlim (sizeAtLimit_of_overflow h)⟩
    · rintro replies rfl
      have h := GitReply.parse_append replies []
      rw [List.append_nil, parse_nil] at h
      rw [h]
      simp [Except.map]
    · rintro replies r part hpart hne hwhole rfl
      rw [← r.encode_toReply] at hpart hwhole
      obtain ⟨e, hover, he⟩ := parse_cut hpart hne hwhole
      exact ⟨e, hover, by rw [GitReply.parse_append, he]; rfl⟩

/-- `a b 18446744073709551615` and a line end. -/
def largestSize : List UInt8 :=
  [0x61, 0x20, 0x62, 0x20, 0x31, 0x38, 0x34, 0x34, 0x36, 0x37, 0x34, 0x34, 0x30, 0x37, 0x33, 0x37,
    0x30, 0x39, 0x35, 0x35, 0x31, 0x36, 0x31, 0x35, 0x0A]

/-- A header may name the largest `usize`. -/
theorem decoding_overflows : ¬ DecodesFrames largestSize := by
  refine fun h => h.safe (overflow_of_sizeAtLimit ⟨[], ⟨[0x61], by decide, by decide⟩,
    ⟨[0x62], by decide, by decide⟩, decimalWord (usizeBound - 1), [], by decide, ?_⟩)
  exact parseUsize_decimal (by decide)

end Spelunk
