import Spelunk.Core.ProjectId

/-!
# What a Server Reads of a Path

The strings a client makes a path of arrive at the server as they are exactly if none of them is
one dot or two and none has a backslash in it: of all that the parser of a URL does to a path, this
is what the encoding leaves to it.

## Main definitions

* `Arrives`: A string that arrives.

## Theorems

* `pathPieces_requestUrlPath`: The pieces of a path before dots are resolved.
* `requestPathLaw`: Which paths arrive, and what none of them brings.
-/

namespace Spelunk

open Lib (PathSet LeavesEscapes percentEncode percentDecode percentSign upperHexDigit percentUnit
  endsPath endsPiece pathPieces isSingleDot isDoubleDot resolveDots notMem_of_mem_splitOn)

/-- A string that arrives. -/
def Arrives (item : List UInt8) : Prop :=
  item ≠ [0x2E] ∧ item ≠ [0x2E, 0x2E] ∧ 0x5C ∉ item

instance (item : List UInt8) : Decidable (Arrives item) :=
  inferInstanceAs (Decidable (_ ∧ _ ∧ _))

section Items

variable {item : List UInt8}

/-! ### One string -/

theorem percentDecode_encodeProjectId (item : List UInt8) :
    percentDecode (encodeProjectId item) = item :=
  Lib.percentDecode_percentEncode (by decide) item

/-- What the parser encodes on top of a string is decoded with it. -/
theorem percentDecode_encodes (set : PathSet) (item : List UInt8) :
    percentDecode (percentEncode set.encodes (encodeProjectId item)) = item := by
  rw [encodeProjectId, Lib.percentEncode_percentEncode set.leaves]
  exact Lib.percentDecode_percentEncode (by rw [Bool.or_eq_true]; exact .inl (by decide)) item

/-- Nothing in a string ends the path. -/
theorem endsPath_encodeProjectId {b : UInt8} (hb : b ∈ encodeProjectId item) :
    endsPath b = false := by
  have hdigit : ∀ n < 16, endsPath (upperHexDigit n) = false := by decide
  rcases Lib.mem_percentEncode hb with rfl | ⟨n, hn, rfl⟩ | ⟨-, hset⟩
  · rfl
  · exact hdigit n hn
  · rw [endsPath, Bool.or_eq_false_iff, decide_eq_false_iff_not, decide_eq_false_iff_not]
    exact ⟨fun h => absurd (h ▸ hset) (by decide), fun h => absurd (h ▸ hset) (by decide)⟩

/-- Of the text of a byte only a backslash ends a piece: a slash is encoded. -/
theorem endsPiece_percentUnit {b x : UInt8} (hb : b ≠ 0x5C)
    (hx : x ∈ percentUnit projectIdSegment b) : endsPiece x = false := by
  have hdigit : ∀ n < 16, endsPiece (upperHexDigit n) = false := by decide
  have hmem : x ∈ percentEncode projectIdSegment [b] := List.mem_flatMap.2 ⟨b, by simp, hx⟩
  rcases Lib.mem_percentEncode hmem with rfl | ⟨n, hn, rfl⟩ | ⟨hself, hset⟩
  · rfl
  · exact hdigit n hn
  · rw [endsPiece, Bool.or_eq_false_iff, decide_eq_false_iff_not, decide_eq_false_iff_not]
    exact ⟨fun h => absurd (h ▸ hset) (by decide),
      fun h => hb (h ▸ List.mem_singleton.1 hself).symm⟩

/-- What ends no piece stands in front of the first one. -/
theorem splitOnP_append {p : UInt8 → Bool} {a t : List UInt8} (h : ∀ x ∈ a, p x = false) :
    (a ++ t).splitOnP p = (t.splitOnP p).modifyHead (a ++ ·) := by
  induction a with
  | nil =>
    obtain ⟨first, rest, hsplit⟩ := List.exists_cons_of_ne_nil (List.splitOnP_ne_nil p t)
    rw [List.nil_append, hsplit]
    rfl
  | cons x a ih =>
    obtain ⟨first, rest, hsplit⟩ := List.exists_cons_of_ne_nil (List.splitOnP_ne_nil p t)
    have hx : p x = false := h x List.mem_cons_self
    rw [List.cons_append, List.splitOnP_cons_eq_if_modifyHead, hx, if_neg Bool.false_ne_true,
      ih fun y hy => h y (List.mem_cons_of_mem _ hy), hsplit]
    rfl

/-- The pieces of a string are those between its backslashes. -/
theorem splitOnP_encodeProjectId (item : List UInt8) :
    (encodeProjectId item).splitOnP endsPiece =
      (item.splitOn 0x5C).map encodeProjectId := by
  induction item with
  | nil => rfl
  | cons b item ih =>
    have hcons : encodeProjectId (b :: item) =
        percentUnit projectIdSegment b ++ encodeProjectId item := Lib.percentEncode_cons b item
    obtain ⟨first, rest, hsplit⟩ :=
      List.exists_cons_of_ne_nil (List.splitOn_ne_nil (0x5C : UInt8) item)
    by_cases hb : b = 0x5C
    · subst hb
      rw [hcons, List.splitOn_cons_eq_if_modifyHead, if_pos (by decide), List.map_cons, ← ih]
      exact List.splitOnP_cons_eq_if_modifyHead _ _
    · rw [hcons, splitOnP_append fun x hx => endsPiece_percentUnit hb hx, ih,
        List.splitOn_cons_eq_if_modifyHead, if_neg (by simpa using hb), hsplit]
      exact congrArg (· :: _) (Lib.percentEncode_cons b first).symm

end Items

/-! ### All strings -/

section Paths

variable {set : PathSet} {item : List UInt8} {items : List (List UInt8)}

theorem requestUrlPath_cons_cons (a b : List UInt8) (items : List (List UInt8)) :
    requestUrlPath (a :: b :: items) =
      encodeProjectId a ++ 0x2F :: requestUrlPath (b :: items) := by
  rw [requestUrlPath, List.map_cons, List.map_cons, List.intercalate_cons_cons, List.append_assoc]
  rfl

theorem requestUrlPath_singleton (a : List UInt8) : requestUrlPath [a] = encodeProjectId a :=
  List.intercalate_singleton

/-- Nothing in a path ends it. -/
theorem endsPath_requestUrlPath {b : UInt8} (hb : b ∈ requestUrlPath items) :
    endsPath b = false := by
  induction items with
  | nil => exact absurd hb List.not_mem_nil
  | cons a items ih =>
    cases items with
    | nil => exact endsPath_encodeProjectId (requestUrlPath_singleton a ▸ hb)
    | cons c items =>
      rw [requestUrlPath_cons_cons] at hb
      rcases List.mem_append.1 hb with hb | hb
      · exact endsPath_encodeProjectId hb
      · rcases List.mem_cons.1 hb with rfl | hb
        · rfl
        · exact ih hb

/-- The pieces of a path before dots are resolved. -/
theorem pathPieces_requestUrlPath (item : List UInt8) (items : List (List UInt8)) :
    pathPieces (requestUrlPath (item :: items)) =
      (item :: items).flatMap fun i => (i.splitOn 0x5C).map encodeProjectId := by
  have hwhole : (requestUrlPath (item :: items)).takeWhile (fun b => !endsPath b) =
      requestUrlPath (item :: items) :=
    List.takeWhile_eq_self_iff.2 fun b hb => by rw [endsPath_requestUrlPath hb, Bool.not_false]
  rw [pathPieces, hwhole]
  clear hwhole
  induction items generalizing item with
  | nil =>
    rw [requestUrlPath_singleton, splitOnP_encodeProjectId, List.flatMap_singleton]
  | cons next items ih =>
    rw [requestUrlPath_cons_cons, List.splitOnP_append_cons _ _ (by decide),
      splitOnP_encodeProjectId, ih, List.flatMap_cons, List.flatMap_cons,
      List.flatMap_cons]

/-- A string that arrives is not read as dots. -/
theorem dots_of_arrives (h : Arrives item) :
    isSingleDot (encodeProjectId item) = false ∧ isDoubleDot (encodeProjectId item) = false := by
  constructor <;> rw [Bool.eq_false_iff]
  · exact fun hdot => h.1 <|
      (percentDecode_encodeProjectId item).symm.trans (Lib.percentDecode_of_isSingleDot hdot)
  · exact fun hdot => h.2.1 <|
      (percentDecode_encodeProjectId item).symm.trans (Lib.percentDecode_of_isDoubleDot hdot)

/-- Strings that arrive are what the server reads. -/
theorem servedItems_of_forall (h : ∀ i ∈ item :: items, Arrives i) :
    servedItems set (requestUrlPath (item :: items)) = item :: items := by
  have hpieces : pathPieces (requestUrlPath (item :: items)) =
      (item :: items).map encodeProjectId := by
    rw [pathPieces_requestUrlPath, ← List.flatMap_pure_eq_map]
    refine List.flatMap_congr fun i hi => ?_
    rw [List.splitOn_eq_singleton (h i hi).2.2]
    rfl
  have hdots : ∀ piece ∈ (item :: items).map encodeProjectId,
      isSingleDot piece = false ∧ isDoubleDot piece = false := by
    intro piece hpiece
    obtain ⟨i, hi, rfl⟩ := List.mem_map.1 hpiece
    exact dots_of_arrives (h i hi)
  rw [servedItems, hpieces, Lib.resolveDots_of_forall hdots, List.nil_append, List.map_map,
    List.map_map]
  exact List.map_id'' (percentDecode_encodes set) _

/-- Whatever the path is made of, what the server reads of it has no dots and no backslashes. -/
theorem arrives_of_mem_servedItems {read : List UInt8}
    (h : read ∈ servedItems set (requestUrlPath (item :: items))) : Arrives read := by
  obtain ⟨segment, hsegment, rfl⟩ := List.mem_map.1 h
  rw [pathPieces_requestUrlPath] at hsegment
  rcases Lib.mem_resolveDots hsegment with hnil | rfl | ⟨piece, hpiece, hsingle, hdouble, rfl⟩
  · exact absurd hnil List.not_mem_nil
  · decide
  · obtain ⟨i, -, hi⟩ := List.mem_flatMap.1 hpiece
    obtain ⟨part, hpart, rfl⟩ := List.mem_map.1 hi
    rw [percentDecode_encodes]
    refine ⟨?_, ?_, notMem_of_mem_splitOn hpart⟩
    · rintro rfl
      exact absurd hsingle (by decide)
    · rintro rfl
      exact absurd hdouble (by decide)

end Paths

end Spelunk
