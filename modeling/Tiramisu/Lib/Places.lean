import Mathlib.Data.List.Basic

/-!
# Parties by their number

A list gives each party of a system its place in its code.  One party moves by
`List.set`, and a new party joins at the end.
-/

namespace Places

open List

variable {α : Type*} {l : List α} {i j : ℕ} {x y : α}

theorem of_set (h : (l.set i x)[j]? = some y) : j = i ∧ y = x ∨ j ≠ i ∧ l[j]? = some y := by
  rw [getElem?_set] at h
  by_cases hij : i = j
  · subst hij
    rw [if_pos rfl] at h
    by_cases hlt : i < l.length
    · rw [if_pos hlt] at h
      exact .inl ⟨rfl, (Option.some.inj h).symm⟩
    · rw [if_neg hlt] at h
      cases h
  · rw [if_neg hij] at h
    exact .inr ⟨fun hji => hij hji.symm, h⟩

theorem of_join (h : (l ++ [x])[j]? = some y) : j = l.length ∧ y = x ∨ l[j]? = some y := by
  rcases Nat.lt_trichotomy j l.length with hlt | heq | hgt
  · exact .inr (by rwa [getElem?_append_left hlt] at h)
  · subst heq
    rw [getElem?_concat_length] at h
    exact .inl ⟨rfl, (Option.some.inj h).symm⟩
  · rw [getElem?_eq_none (by rw [length_append, length_singleton]; omega)] at h
    cases h

theorem set_self (h : l[i]? = some x) : (l.set i y)[i]? = some y := by
  rw [getElem?_set_self (List.getElem?_eq_some_iff.mp h).1]

theorem set_other (h : l[j]? = some x) (hji : j ≠ i) : (l.set i y)[j]? = some x := by
  rwa [getElem?_set_ne hji.symm]

theorem join (h : l[j]? = some x) : (l ++ [y])[j]? = some x := by
  rwa [getElem?_append_left (List.getElem?_eq_some_iff.mp h).1]

theorem mem_set (h : l[i]? = some x) : y ∈ l.set i y :=
  mem_of_getElem? (set_self h)

theorem exists_set {P : α → Prop} (h : ∃ z ∈ l, P z) (hi : l[i]? = some x) (hxy : P x → P y) :
    ∃ z ∈ l.set i y, P z := by
  obtain ⟨z, hz, hP⟩ := h
  obtain ⟨j, hj⟩ := mem_iff_getElem?.mp hz
  by_cases hji : j = i
  · subst hji
    cases hi.symm.trans hj
    exact ⟨y, mem_set hi, hxy hP⟩
  · exact ⟨z, mem_of_getElem? (set_other hj hji), hP⟩

theorem exists_of_set {P : α → Prop} (h : ∃ z ∈ l.set i y, P z) : P y ∨ ∃ z ∈ l, P z := by
  obtain ⟨z, hz, hP⟩ := h
  rcases mem_or_eq_of_mem_set hz with hz | rfl
  · exact .inr ⟨z, hz, hP⟩
  · exact .inl hP

theorem forall_set {P : α → Prop} (h : ∀ z ∈ l, P z) (hy : P y) : ∀ z ∈ l.set i y, P z := by
  intro z hz
  rcases mem_or_eq_of_mem_set hz with hz | rfl
  · exact h z hz
  · exact hy

theorem forall_join {P : α → Prop} (h : ∀ z ∈ l, P z) (hx : P x) : ∀ z ∈ l ++ [x], P z :=
  forall_mem_append.mpr ⟨h, forall_mem_singleton.mpr hx⟩

/-- How many parties are in `p`, before and after one of them has moved. -/
theorem count_set (p : α → Bool) (h : l[i]? = some x) :
    (l.set i y).countP p + (p x).toNat = l.countP p + (p y).toNat := by
  obtain ⟨hlt, rfl⟩ := List.getElem?_eq_some_iff.mp h
  rw [countP_set hlt]
  cases hx : p l[i] with
  | false => cases p y <;> simp
  | true =>
    have hpos : 0 < l.countP p := countP_pos_iff.mpr ⟨l[i], getElem_mem hlt, hx⟩
    cases p y <;> simp <;> omega

theorem count_join (p : α → Bool) : (l ++ [x]).countP p = l.countP p + (p x).toNat := by
  rw [countP_append]
  cases hx : p x <;> simp [hx]

theorem one_le_count {p : α → Bool} (hi : l[i]? = some x) (hx : p x = true) : 1 ≤ l.countP p :=
  countP_pos_iff.mpr ⟨x, mem_of_getElem? hi, hx⟩

/-- A party alone in `p` is the only one. -/
theorem eq_of_count_le_one {p : α → Bool} (h : l.countP p ≤ 1) (hi : l[i]? = some x)
    (hx : p x = true) (hj : l[j]? = some y) (hy : p y = true) : i = j := by
  induction l generalizing i j with
  | nil => simp at hi
  | cons z l ih =>
    rw [countP_cons] at h
    cases i with
    | zero =>
      obtain rfl : z = x := by simpa using hi
      cases j with
      | zero => rfl
      | succ j =>
        have hone : 1 ≤ l.countP p := one_le_count (i := j) (by simpa using hj) hy
        rw [if_pos hx] at h
        omega
    | succ i =>
      have hone : 1 ≤ l.countP p := one_le_count (i := i) (by simpa using hi) hx
      cases j with
      | zero =>
        obtain rfl : z = y := by simpa using hj
        rw [if_pos hy] at h
        omega
      | succ j =>
        have hij : i = j := ih (by omega) (by simpa using hi) (by simpa using hj)
        rw [hij]

end Places
