import Mathlib.Data.List.Sort
import Mathlib.Order.Basic

/-!
# Reading by a Strict Cursor

A reader that follows a growing collection by a key: it asks for what lies
strictly above its cursor, in the order of the key, a page of bounded length at a
time, and moves the cursor to the highest key it has read. What it passes over it
never sees again, so it misses an item in two ways: the end of a page falls
between two items of one key, or an item arrives under a key that was read
already.

## Main definitions

* `page`: The page above a cursor.
* `advance`: The cursor behind a page.
* `Whole`: The end of the page does not fall between two items of one key.

## Theorems

* `mem_page`, `page_sorted`, `page_nodup`, `length_page`: What a page is.
* `page_strict`, `mem_page_of_le`: What it is when the keys are distinct.
* `le_advance`, `advance_mem`: What the cursor becomes.
* `whole_iff`: A page is whole exactly when nothing is passed over.
* `pending_getLast`: What is pending behind a page.
* `length_pending_advance`: What is pending gets less by every page.
-/

namespace Spelunk

namespace Lib

namespace Paging

variable {α κ : Type*} [LinearOrder κ] {key : α → κ} {cursor : κ} {limit : Nat} {l : List α}

/-- What lies above the cursor, in the order of the key. -/
def pending (key : α → κ) (cursor : κ) (l : List α) : List α :=
  (l.filter (fun x => cursor < key x)).insertionSort (fun a b => key a ≤ key b)

/-- The first `limit` items above the cursor. -/
def page (key : α → κ) (cursor : κ) (limit : Nat) (l : List α) : List α :=
  (pending key cursor l).take limit

/-- The cursor behind a page: it moves up, item by item. -/
def advance (key : α → κ) (cursor : κ) (p : List α) : κ :=
  p.foldl (fun c x => if c < key x then key x else c) cursor

/-- No key has items both on the page and behind it. -/
def Whole (key : α → κ) (cursor : κ) (limit : Nat) (l : List α) : Prop :=
  ∀ a ∈ (pending key cursor l).take limit, ∀ b ∈ (pending key cursor l).drop limit, key a < key b

theorem mem_pending {x : α} : x ∈ pending key cursor l ↔ x ∈ l ∧ cursor < key x := by
  rw [pending, List.mem_insertionSort, List.mem_filter, decide_eq_true_eq]

theorem pending_sorted : (pending key cursor l).Pairwise (fun a b => key a ≤ key b) := by
  have htotal : Std.Total (fun a b : α => key a ≤ key b) := ⟨fun a b => le_total (key a) (key b)⟩
  have htrans : IsTrans α (fun a b : α => key a ≤ key b) := ⟨fun _ _ _ hab hbc => hab.trans hbc⟩
  exact List.pairwise_insertionSort _ _

/-- An item of a page is one of the collection above the cursor. -/
theorem mem_page {x : α} (h : x ∈ page key cursor limit l) : x ∈ l ∧ cursor < key x :=
  mem_pending.mp (List.mem_of_mem_take h)

theorem page_sorted : (page key cursor limit l).Pairwise (fun a b => key a ≤ key b) :=
  pending_sorted.sublist (List.take_sublist _ _)

/-- What tells the items of the collection apart tells those of a page apart. -/
theorem page_nodup {β : Type*} {g : α → β} (h : (l.map g).Nodup) :
    ((page key cursor limit l).map g).Nodup := by
  have hpending : ((pending key cursor l).map g).Nodup := by
    have hperm : ((pending key cursor l).map g).Perm ((l.filter (fun x => cursor < key x)).map g) :=
      (List.perm_insertionSort _ _).map g
    exact hperm.nodup_iff.mpr (h.sublist (List.filter_sublist.map g))
  exact hpending.sublist ((List.take_sublist _ _).map g)

/-- With distinct keys the page is strictly in order. -/
theorem page_strict (h : (l.map key).Nodup) :
    (page key cursor limit l).Pairwise (fun a b => key a < key b) := by
  have hnodup : (page key cursor limit l).Pairwise (fun a b => key a ≠ key b) :=
    List.pairwise_map.mp (page_nodup h)
  exact (page_sorted.and hnodup).imp (fun hab => lt_of_le_of_ne hab.1 hab.2)

theorem length_page : (page key cursor limit l).length = min limit (pending key cursor l).length :=
  List.length_take

section Advance

/-- The cursor does not move back, and ends above everything read. -/
theorem le_advance (key : α → κ) (cursor : κ) (p : List α) :
    cursor ≤ advance key cursor p ∧ ∀ x ∈ p, key x ≤ advance key cursor p := by
  induction p generalizing cursor with
  | nil => exact ⟨le_refl _, fun x hx => absurd hx List.not_mem_nil⟩
  | cons y p ih =>
      rw [advance, List.foldl_cons]
      by_cases hy : cursor < key y
      · rw [if_pos hy]
        rcases ih (key y) with ⟨hle, hall⟩
        refine ⟨hy.le.trans hle, fun x hx => ?_⟩
        rcases List.mem_cons.mp hx with rfl | hx
        · exact hle
        · exact hall x hx
      · rw [if_neg hy]
        rcases ih cursor with ⟨hle, hall⟩
        refine ⟨hle, fun x hx => ?_⟩
        rcases List.mem_cons.mp hx with rfl | hx
        · exact (not_lt.mp hy).trans hle
        · exact hall x hx

/-- The cursor is where it was, or at something read. -/
theorem advance_mem (key : α → κ) (cursor : κ) (p : List α) :
    advance key cursor p = cursor ∨ ∃ x ∈ p, advance key cursor p = key x := by
  induction p generalizing cursor with
  | nil => exact Or.inl rfl
  | cons y p ih =>
      rw [advance, List.foldl_cons]
      by_cases hy : cursor < key y
      · rw [if_pos hy]
        rcases ih (key y) with heq | ⟨x, hx, heq⟩
        · exact Or.inr ⟨y, List.mem_cons_self, heq⟩
        · exact Or.inr ⟨x, List.mem_cons_of_mem _ hx, heq⟩
      · rw [if_neg hy]
        rcases ih cursor with heq | ⟨x, hx, heq⟩
        · exact Or.inl heq
        · exact Or.inr ⟨x, List.mem_cons_of_mem _ hx, heq⟩

end Advance

/-- The items behind the page, told apart by a name. -/
theorem mem_drop_iff {β : Type*} {g : α → β} (h : (l.map g).Nodup) {x : α} :
    x ∈ (pending key cursor l).drop limit ↔
      x ∈ pending key cursor l ∧ g x ∉ (page key cursor limit l).map g := by
  have hperm : ((pending key cursor l).map g).Perm ((l.filter (fun x => cursor < key x)).map g) :=
    (List.perm_insertionSort _ _).map g
  have hnodup : ((pending key cursor l).map g).Nodup :=
    hperm.nodup_iff.mpr (h.sublist (List.filter_sublist.map g))
  rw [← List.take_append_drop limit (pending key cursor l), List.map_append,
    List.nodup_append] at hnodup
  constructor
  · intro hx
    refine ⟨List.mem_of_mem_drop hx, fun hpage => ?_⟩
    exact hnodup.2.2 (g x) hpage (g x) (List.mem_map.mpr ⟨x, hx, rfl⟩) rfl
  · rintro ⟨hx, hpage⟩
    rw [← List.take_append_drop limit (pending key cursor l), List.mem_append] at hx
    rcases hx with hx | hx
    · exact absurd (List.mem_map.mpr ⟨x, hx, rfl⟩) hpage
    · exact hx

/-- With distinct keys a page leaves nothing out below its end. -/
theorem mem_page_of_le (h : (l.map key).Nodup) {x y : α} (hx : x ∈ l) (hlt : cursor < key x)
    (hy : y ∈ page key cursor limit l) (hle : key x ≤ key y) : x ∈ page key cursor limit l := by
  by_contra hpage
  have hsorted : (pending key cursor l).Pairwise (fun a b => key a ≤ key b) := pending_sorted
  rw [← List.take_append_drop limit (pending key cursor l), List.pairwise_append] at hsorted
  have hdrop : x ∈ (pending key cursor l).drop limit := by
    have hpending := mem_pending.mpr ⟨hx, hlt⟩
    rw [← List.take_append_drop limit (pending key cursor l), List.mem_append] at hpending
    exact hpending.resolve_left hpage
  have heq : key x = key y := le_antisymm hle (hsorted.2.2 y hy x hdrop)
  exact ((mem_drop_iff h).mp hdrop).2 (List.mem_map.mpr ⟨y, hy, heq.symm⟩)

/-- A page is whole exactly when the cursor behind it has passed over nothing. -/
theorem whole_iff {β : Type*} {g : α → β} (h : (l.map g).Nodup) :
    Whole key cursor limit l ↔ ∀ x ∈ l, cursor < key x →
      g x ∈ (page key cursor limit l).map g ∨
        advance key cursor (page key cursor limit l) < key x := by
  constructor
  · intro hwhole x hx hlt
    by_cases hpage : g x ∈ (page key cursor limit l).map g
    · exact Or.inl hpage
    · right
      have hdrop := (mem_drop_iff h).mpr ⟨mem_pending.mpr ⟨hx, hlt⟩, hpage⟩
      rcases advance_mem key cursor (page key cursor limit l) with
        heq | ⟨a, ha, heq⟩
      · rw [heq]
        exact hlt
      · rw [heq]
        exact hwhole a ha x hdrop
  · intro hpassed a ha b hb
    rcases (mem_drop_iff h).mp hb with ⟨hpending, hpage⟩
    rcases mem_pending.mp hpending with ⟨hmem, hlt⟩
    rcases hpassed b hmem hlt with hread | habove
    · exact absurd hread hpage
    · exact ((le_advance key cursor _).2 a ha).trans_lt habove

/-- A page of what a collection is mapped to. -/
theorem page_map {β : Type*} (f : β → α) (cursor : κ) (limit : Nat) (l : List β) :
    page key cursor limit (l.map f) = (page (fun b => key (f b)) cursor limit l).map f := by
  have hsort : ∀ m : List β, (m.insertionSort (fun a b => key (f a) ≤ key (f b))).map f =
      (m.map f).insertionSort (fun a b => key a ≤ key b) := fun m =>
    List.map_insertionSort (fun a b => key (f a) ≤ key (f b)) (fun a b => key a ≤ key b) f m
      (fun _ _ _ _ => Iff.rfl)
  rw [page, page, pending, pending, List.filter_map, ← hsort, List.map_take]
  rfl

/-- What lies above a higher cursor is picked out of what lies above the lower. -/
theorem filter_above {c c' : κ} (h : c ≤ c') (l : List α) :
    (l.filter (fun x => c < key x)).filter (fun x => c' < key x) =
      l.filter (fun x => c' < key x) := by
  rw [List.filter_filter]
  refine List.filter_congr fun x _ => ?_
  rw [Bool.eq_iff_iff, Bool.and_eq_true, decide_eq_true_eq, decide_eq_true_eq]
  exact ⟨fun hx => hx.1, fun hx => ⟨hx, h.trans_lt hx⟩⟩

/-- Less is pending above an item of a page. -/
theorem length_pending_lt {x : α} (h : x ∈ page key cursor limit l) :
    (pending key (key x) l).length < (pending key cursor l).length := by
  obtain ⟨hx, hlt⟩ := mem_page h
  rw [pending, pending, List.length_insertionSort, List.length_insertionSort,
    ← filter_above hlt.le]
  exact List.length_filter_lt_length_iff_exists.2
    ⟨x, List.mem_filter.2 ⟨hx, decide_eq_true hlt⟩, by simp⟩

/-- Above the last item of a page lies what comes behind the page. -/
theorem pending_getLast (h : (l.map key).Nodup) {x : α}
    (hx : (page key cursor limit l).getLast? = some x) :
    pending key (key x) l = (pending key cursor l).drop limit := by
  have hmem : x ∈ page key cursor limit l := List.mem_of_getLast? hx
  have hlt := (mem_page hmem).2
  have hnodup : ((pending key cursor l).map key).Nodup :=
    ((List.perm_insertionSort _ _).map key).nodup_iff.2 (h.sublist (List.filter_sublist.map key))
  have hstrict : (pending key cursor l).Pairwise (fun a b => key a < key b) :=
    (pending_sorted.and (List.pairwise_map.1 hnodup)).imp fun hab => lt_of_le_of_ne hab.1 hab.2
  have hsplit := hstrict
  rw [← List.take_append_drop limit (pending key cursor l), List.pairwise_append] at hsplit
  have hbelow : ∀ a ∈ (pending key cursor l).take limit, key a ≤ key x := by
    obtain ⟨init, hinit⟩ := List.getLast?_eq_some_iff.1 hx
    rw [page] at hinit
    have hsorted := hsplit.1
    rw [hinit, List.pairwise_append] at hsorted
    intro a ha
    rw [hinit, List.mem_append, List.mem_singleton] at ha
    rcases ha with ha | rfl
    · exact (hsorted.2.2 a ha x (List.mem_singleton.2 rfl)).le
    · exact le_rfl
  -- The end of the page splits what is pending at its last key.
  have hfilter : (pending key cursor l).filter (fun y => key x < key y) =
      (pending key cursor l).drop limit := by
    conv_lhs => rw [← List.take_append_drop limit (pending key cursor l)]
    rw [List.filter_append, List.filter_eq_nil_iff.2 fun a ha => by simpa using hbelow a ha,
      List.nil_append, List.filter_eq_self.2 fun b hb =>
        decide_eq_true (hsplit.2.2 x hmem b hb)]
  have hperm : (pending key (key x) l).Perm ((pending key cursor l).drop limit) := by
    rw [← hfilter]
    refine (List.perm_insertionSort _ _).trans ?_
    rw [← filter_above hlt.le]
    exact ((List.perm_insertionSort _ _).filter _).symm
  refine List.Perm.eq_of_pairwise (fun a b ha hb hab hba => ?_) pending_sorted
    (pending_sorted.sublist (List.drop_sublist _ _)) hperm
  exact List.inj_on_of_nodup_map h (mem_pending.1 ha).1
    (mem_pending.1 (List.mem_of_mem_drop hb)).1 (le_antisymm hab hba)
/-- A page takes its items off what is pending. -/
theorem length_pending_advance (key : α → κ) (cursor : κ) (limit : Nat) (l : List α) :
    (pending key (advance key cursor (page key cursor limit l)) l).length +
      (page key cursor limit l).length ≤ (pending key cursor l).length := by
  have hlength : ∀ c, (pending key c l).length = l.countP (fun x => c < key x) := by
    intro c
    rw [pending, List.length_insertionSort, List.countP_eq_length_filter]
  have habove : ∀ x, advance key cursor (page key cursor limit l) < key x → cursor < key x :=
    fun x hx => (le_advance key cursor _).1.trans_lt hx
  -- What lies above the new cursor is not on the page.
  have hcount : l.countP (fun x => advance key cursor (page key cursor limit l) < key x) ≤
      ((pending key cursor l).drop limit).length := by
    have hfilter : l.countP (fun x => advance key cursor (page key cursor limit l) < key x) =
        (pending key cursor l).countP
          (fun x => advance key cursor (page key cursor limit l) < key x) := by
      rw [pending, (List.perm_insertionSort _ _).countP_eq, List.countP_filter]
      refine List.countP_congr (fun x _ => ?_)
      simp only [decide_eq_true_eq, Bool.and_eq_true]
      exact ⟨fun hx => ⟨hx, habove x hx⟩, fun hx => hx.1⟩
    rw [hfilter, ← List.take_append_drop limit (pending key cursor l), List.countP_append,
      List.take_append_drop]
    have hpage : ((pending key cursor l).take limit).countP
        (fun x => advance key cursor (page key cursor limit l) < key x) = 0 := by
      refine List.countP_eq_zero.mpr (fun x hx => ?_)
      rw [decide_eq_true_eq, not_lt]
      exact (le_advance key cursor _).2 x hx
    rw [hpage, Nat.zero_add]
    exact List.countP_le_length
  have hsplit : (pending key cursor l).length =
      (page key cursor limit l).length + ((pending key cursor l).drop limit).length := by
    rw [page, ← List.length_append, List.take_append_drop]
  rw [hlength, hsplit]
  omega

end Paging

end Lib

end Spelunk
