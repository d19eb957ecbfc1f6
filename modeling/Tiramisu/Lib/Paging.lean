import Mathlib.Data.List.Sort
import Mathlib.Order.Defs.LinearOrder

/-!
# Keyset paging

A list in strictly increasing order of its keys is served in pages.  A cursor
is the key of the last element served, a page holds the first elements beyond
it, and the pager gives the next cursor as long as elements are left.  A client
that follows the cursors sees the list once, in order.
-/

namespace Paging

open List

variable {α β κ : Type}

/-- The cursor behind the elements served. -/
def endOf (key : α → κ) (served : List α) : Option κ := served.getLast?.map key

section Order

variable [LinearOrder κ]

/-- The elements a cursor leaves to be served. -/
def beyond (key : α → κ) (cursor : Option κ) (l : List α) : List α :=
  l.filter fun x => cursor.all fun k => k < key x

theorem beyond_endOf {key : α → κ} {served left : List α}
    (h : (served ++ left).Pairwise fun x y => key x < key y) :
    beyond key (endOf key served) (served ++ left) = left := by
  rcases eq_nil_or_concat' served with rfl | ⟨init, last, rfl⟩
  · simp [beyond, endOf]
  -- the last element served is below what is left and not below itself
  have hend : endOf key (init ++ [last]) = some (key last) := by simp [endOf]
  obtain ⟨hserved, -, hcross⟩ := pairwise_append.mp h
  have hnot : ∀ x ∈ init ++ [last], ¬ key last < key x := by
    intro x hx
    rcases mem_append.mp hx with hx | hx
    · have hlt : key x < key last := (pairwise_append.mp hserved).2.2 x hx last (by simp)
      exact hlt.le.not_gt
    · rw [mem_singleton.mp hx]
      exact lt_irrefl _
  have hleft : ∀ x ∈ left, key last < key x := fun x hx => hcross last (by simp) x hx
  rw [beyond, hend, filter_append, filter_eq_nil_iff.mpr (by simpa using hnot),
    nil_append, filter_eq_self.mpr (by simpa using hleft)]

/-- `ORDER BY key`. -/
def inOrder (key : α → κ) (l : List α) : List α := l.insertionSort fun x y => key x ≤ key y

theorem mem_inOrder {key : α → κ} {l : List α} {x : α} : x ∈ inOrder key l ↔ x ∈ l :=
  mem_insertionSort _

theorem pairwise_inOrder {key : α → κ} {l : List α} (h : l.Pairwise fun x y => key x ≠ key y) :
    (inOrder key l).Pairwise fun x y => key x < key y := by
  have hle : (inOrder key l).Pairwise fun x y => key x ≤ key y := pairwise_insertionSort _ l
  have hne : (inOrder key l).Pairwise fun x y => key x ≠ key y :=
    ((perm_insertionSort _ l).pairwise_iff fun h => h.symm).mpr h
  exact (hle.and hne).imp fun h => lt_of_le_of_ne h.1 h.2

/-- Filtering before or after sorting is the same when the keys differ. -/
theorem inOrder_filter {key : α → κ} {l : List α} (p : α → Bool)
    (h : l.Pairwise fun x y => key x ≠ key y) :
    inOrder key (l.filter p) = (inOrder key l).filter p := by
  have hperm : (inOrder key (l.filter p)).Perm ((inOrder key l).filter p) :=
    (perm_insertionSort _ _).trans ((perm_insertionSort _ l).filter p).symm
  have hstrict : ∀ x y, x ∈ inOrder key (l.filter p) → y ∈ (inOrder key l).filter p →
      key x < key y → key y < key x → x = y :=
    fun x y _ _ hxy hyx => absurd hyx hxy.le.not_gt
  exact hperm.eq_of_pairwise hstrict (pairwise_inOrder (h.filter p)) ((pairwise_inOrder h).filter p)

end Order

/-- A client: it asks with the cursor it was given until there is none. -/
def follow (list : Option κ → List β × Option κ) : ℕ → Option κ → Option (List (List β))
  | 0, _ => none
  | fuel + 1, cursor =>
    match (list cursor).2 with
    | none => some [(list cursor).1]
    | some next => (follow list fuel (some next)).map ((list cursor).1 :: ·)

/-- Every page holds the next `n` elements and a cursor as long as more are left. -/
structure Serves (key : α → κ) (item : α → β) (n : ℕ) (all : List α)
    (list : Option κ → List β × Option κ) : Prop where
  items : ∀ served left, all = served ++ left →
    (list (endOf key served)).1 = (left.take n).map item
  next : ∀ served left, all = served ++ left →
    (list (endOf key served)).2 = if left.length ≤ n then none else endOf key (left.take n)

section Client

variable {key : α → κ} {item : α → β} {n : ℕ} {all : List α}
  {list : Option κ → List β × Option κ}

theorem endOf_append {served left : List α} (h : left ≠ []) :
    endOf key (served ++ left) = endOf key left := by
  rw [endOf, endOf, getLast?_append_of_ne_nil _ h]

theorem Serves.follow_from (h : Serves key item n all list) (hn : 0 < n) {fuel : ℕ}
    {served left : List α} (hall : all = served ++ left) (hfuel : left.length < fuel) :
    ∃ pages, follow list fuel (endOf key served) = some pages ∧
      pages.flatten = left.map item := by
  induction fuel generalizing served left with
  | zero => omega
  | succ fuel ih =>
    have hitems := h.items served left hall
    have hnext := h.next served left hall
    by_cases hlast : left.length ≤ n
    · rw [if_pos hlast] at hnext
      refine ⟨[left.map item], ?_, by simp⟩
      rw [follow, hnext, hitems, take_of_length_le hlast]
    rw [if_neg hlast] at hnext
    have hne : left.take n ≠ [] := by
      intro hnil
      have hlen := congrArg List.length hnil
      rw [length_take, length_nil] at hlen
      omega
    have hsplit : all = (served ++ left.take n) ++ left.drop n := by
      rw [append_assoc, take_append_drop, hall]
    have hshort : (left.drop n).length < fuel := by
      rw [length_drop]
      omega
    obtain ⟨pages, hpages, hflat⟩ := ih hsplit hshort
    rw [endOf_append hne, ← hnext] at hpages
    refine ⟨(left.take n).map item :: pages, ?_, ?_⟩
    · cases hcursor : (list (endOf key served)).2 with
      | none =>
        rw [hnext, endOf] at hcursor
        simp [hne] at hcursor
      | some cursor =>
        rw [hcursor] at hpages
        simp only [follow, hcursor, hpages, hitems, Option.map_some]
    · rw [flatten_cons, hflat, ← map_append, take_append_drop]

/-- Enough requests bring the whole list, once and in order. -/
theorem Serves.follow_all (h : Serves key item n all list) (hn : 0 < n) {fuel : ℕ}
    (hfuel : all.length < fuel) :
    ∃ pages, follow list fuel none = some pages ∧ pages.flatten = all.map item := by
  have hall : all = [] ++ all := rfl
  exact h.follow_from hn hall hfuel

end Client

end Paging
