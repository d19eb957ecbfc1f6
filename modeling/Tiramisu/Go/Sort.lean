import Mathlib.Data.List.Sort

/-!
# The package `sort`

`sort.Slice` is not stable and asks its `less` to be a strict weak order on the
elements of the slice.  A `Sorter` is any function it may be: it permutes the
slice, and sorts it where `less` is such an order.  `sort.Search` finds the first
index of a test that is false up to it and true from it on.
-/

namespace Tiramisu.Go

open List

variable {α : Type}

structure StrictWeakOn (less : α → α → Bool) (l : List α) : Prop where
  irrefl : ∀ a ∈ l, less a a = false
  trans : ∀ a ∈ l, ∀ b ∈ l, ∀ c ∈ l, less a b = true → less b c = true → less a c = true
  incomparable : ∀ a ∈ l, ∀ b ∈ l, ∀ c ∈ l, less a b = false → less b a = false →
    less b c = false → less c b = false → less a c = false ∧ less c a = false

namespace StrictWeakOn

variable {less : α → α → Bool} {l : List α} {a b c : α}

lemma asymm (h : StrictWeakOn less l) (ha : a ∈ l) (hb : b ∈ l) (hab : less a b = true) :
    less b a = false := by
  rw [← Bool.not_eq_true]
  intro hba
  have haa := h.trans a ha b hb a ha hab hba
  rw [h.irrefl a ha] at haa
  cases haa

/-- What is not below may be equal: the order the sorted slice has. -/
lemma not_less_trans (h : StrictWeakOn less l) (ha : a ∈ l) (hb : b ∈ l) (hc : c ∈ l)
    (hba : less b a = false) (hcb : less c b = false) : less c a = false := by
  rw [← Bool.not_eq_true]
  intro hca
  cases hab : less a b with
  | true =>
    rw [h.trans c hc a ha b hb hca hab] at hcb
    cases hcb
  | false =>
    cases hbc : less b c with
    | true =>
      rw [h.trans b hb c hc a ha hbc hca] at hba
      cases hba
    | false =>
      rw [(h.incomparable a ha b hb c hc hab hba hbc hcb).2] at hca
      cases hca

/-- Where different elements compare exactly one way, a strict weak order is a comparison without a
circle of three. -/
lemma iff_no_circle (hirrefl : ∀ a ∈ l, less a a = false)
    (htotal : ∀ a ∈ l, ∀ b ∈ l, a ≠ b → less a b = !less b a) :
    StrictWeakOn less l ↔ ∀ a ∈ l, ∀ b ∈ l, ∀ c ∈ l, less a b = true → less b c = true →
      less c a = false := by
  refine ⟨fun h a ha b hb c hc hab hbc => h.asymm ha hc (h.trans a ha b hb c hc hab hbc),
    fun h => ⟨hirrefl, fun a ha b hb c hc hab hbc => ?_, fun a ha b hb c hc hab hba hbc hcb => ?_⟩⟩
  · by_cases hac : a = c
    · subst hac
      have hne : a ≠ b := by
        rintro rfl
        rw [hirrefl a ha] at hab
        cases hab
      rw [htotal a ha b hb hne, hbc] at hab
      cases hab
    · rw [htotal a ha c hc hac, h a ha b hb c hc hab hbc]
      rfl
  · obtain rfl : a = b := by
      by_contra hne
      rw [htotal a ha b hb hne, hba] at hab
      cases hab
    exact ⟨hbc, hcb⟩

end StrictWeakOn

structure Sorter where
  slice : {α : Type} → (α → α → Bool) → List α → List α
  perm : ∀ {α : Type} (less : α → α → Bool) (l : List α), (slice less l).Perm l
  sorted : ∀ {α : Type} (less : α → α → Bool) (l : List α), StrictWeakOn less l →
    (slice less l).Pairwise fun a b => less b a = false

/-- Insertion sort is one of them. -/
def Sorter.insertion : Sorter where
  slice less l := (l.attach.insertionSort fun a b => less b.1 a.1 = false).map Subtype.val
  perm less l := by
    have hperm := (perm_insertionSort (fun a b : { x // x ∈ l } => less b.1 a.1 = false)
      l.attach).map Subtype.val
    rwa [attach_map_subtype_val] at hperm
  sorted less l h := by
    have : Std.Total fun a b : { x // x ∈ l } => less b.1 a.1 = false := ⟨fun a b => by
      cases hba : less b.1 a.1 with
      | false => exact Or.inl rfl
      | true => exact Or.inr (h.asymm b.2 a.2 hba)⟩
    have : IsTrans { x // x ∈ l } fun a b => less b.1 a.1 = false :=
      ⟨fun a b c hba hcb => h.not_less_trans a.2 b.2 c.2 hba hcb⟩
    rw [pairwise_map]
    exact pairwise_insertionSort _ _

section Keys

variable {β : Type} {key : β → α} {less : α → α → Bool} {l l' : List β}

lemma strictWeakOn_key (h : StrictWeakOn less (l.map key)) :
    StrictWeakOn (fun x y => less (key x) (key y)) l where
  irrefl _ hx := h.irrefl _ (mem_map_of_mem hx)
  trans _ hx _ hy _ hz := h.trans _ (mem_map_of_mem hx) _ (mem_map_of_mem hy) _
    (mem_map_of_mem hz)
  incomparable _ hx _ hy _ hz := h.incomparable _ (mem_map_of_mem hx) _
    (mem_map_of_mem hy) _ (mem_map_of_mem hz)

/-- Where different keys compare one way or the other, the sorted keys are the same
for every listing and every sorter. -/
theorem Sorter.keys_eq (S S' : Sorter) (hperm : (l.map key).Perm (l'.map key))
    (hweak : StrictWeakOn less (l.map key))
    (htotal : ∀ a ∈ l.map key, ∀ b ∈ l.map key, less a b = false → less b a = false → a = b) :
    (S.slice (fun x y => less (key x) (key y)) l).map key
      = (S'.slice (fun x y => less (key x) (key y)) l').map key := by
  have hweak' : StrictWeakOn less (l'.map key) :=
    ⟨fun a ha => hweak.irrefl a (hperm.mem_iff.mpr ha),
      fun a ha b hb c hc => hweak.trans a (hperm.mem_iff.mpr ha) b (hperm.mem_iff.mpr hb) c
        (hperm.mem_iff.mpr hc),
      fun a ha b hb c hc => hweak.incomparable a (hperm.mem_iff.mpr ha) b (hperm.mem_iff.mpr hb) c
        (hperm.mem_iff.mpr hc)⟩
  have hl := (S.perm (fun x y => less (key x) (key y)) l).map key
  have hl' := (S'.perm (fun x y => less (key x) (key y)) l').map key
  have hsorted : ((S.slice (fun x y => less (key x) (key y)) l).map key).Pairwise
      fun a b => less b a = false :=
    pairwise_map.mpr (S.sorted _ l (strictWeakOn_key hweak))
  have hsorted' : ((S'.slice (fun x y => less (key x) (key y)) l').map key).Pairwise
      fun a b => less b a = false :=
    pairwise_map.mpr (S'.sorted _ l' (strictWeakOn_key hweak'))
  refine List.Perm.eq_of_pairwise (fun a b ha hb hba hab => ?_) hsorted hsorted'
    (hl.trans (hperm.trans hl'.symm))
  exact htotal a (hl.mem_iff.mp ha) b (hperm.mem_iff.mpr (hl'.mem_iff.mp hb)) hab hba

end Keys

/-! ### Binary search -/

/-- The loop of `sort.Search` over `[i, j)`; every round makes it shorter. -/
def searchLoop (f : ℕ → Bool) : ℕ → ℕ → ℕ → ℕ
  | 0, i, _ => i
  | fuel + 1, i, j =>
    if i < j then
      if f ((i + j) / 2) then searchLoop f fuel i ((i + j) / 2)
      else searchLoop f fuel ((i + j) / 2 + 1) j
    else i

def search (n : ℕ) (f : ℕ → Bool) : ℕ := searchLoop f n 0 n

section Search

variable {f : ℕ → Bool} {n : ℕ}

/-- The test is false before `i` and true from `j` on. -/
lemma searchLoop_spec (hmono : ∀ a b, a ≤ b → b < n → f a = true → f b = true) {fuel i j : ℕ}
    (hfuel : j - i ≤ fuel) (hij : i ≤ j) (hj : j ≤ n) (hlow : ∀ k < i, f k = false)
    (hhigh : ∀ k, j ≤ k → k < n → f k = true) :
    searchLoop f fuel i j ≤ n ∧ (∀ k < searchLoop f fuel i j, f k = false) ∧
      ∀ k, searchLoop f fuel i j ≤ k → k < n → f k = true := by
  induction fuel generalizing i j with
  | zero =>
    obtain rfl : i = j := by omega
    exact ⟨hj, hlow, hhigh⟩
  | succ fuel ih =>
    rw [searchLoop]
    split_ifs with hlt hmid
    · apply ih (by omega) (by omega) (by omega) hlow
      intro k hk hkn
      exact hmono _ k hk hkn hmid
    · apply ih (by omega) (by omega) hj _ hhigh
      intro k hk
      rw [← Bool.not_eq_true]
      intro hfk
      exact hmid (hmono k _ (by omega) (by omega) hfk)
    · obtain rfl : i = j := by omega
      exact ⟨hj, hlow, hhigh⟩

/-- A test that stays true is true exactly from the index on. -/
lemma search_le_iff (hmono : ∀ a b, a ≤ b → b < n → f a = true → f b = true) {k : ℕ} (hk : k < n) :
    search n f ≤ k ↔ f k = true := by
  obtain ⟨-, hlow, hhigh⟩ := searchLoop_spec hmono (Nat.sub_le n 0) (Nat.zero_le n) (Nat.le_refl n)
    (fun k hk => absurd hk (Nat.not_lt_zero k)) (fun k hk hkn => absurd hkn (Nat.not_lt.mpr hk))
  constructor
  · intro hle
    exact hhigh k hle hk
  · intro hfk
    by_contra hlt
    rw [hlow k (not_le.mp hlt)] at hfk
    cases hfk

/-- Where a test stays true along a list, the search finds what a look at every element finds. -/
lemma getElem?_search {α : Type*} {l : List α} {test : α → Bool}
    (h : l.Pairwise fun a b => test a = true → test b = true) :
    l[search l.length fun i => l[i]?.any test]? = l.find? test := by
  have hget : ∀ k (hk : k < l.length), l[k]?.any test = test l[k] := fun k hk => by
    rw [getElem?_eq_getElem hk, Option.any_some]
  have hmono : ∀ a b, a ≤ b → b < l.length → l[a]?.any test = true → l[b]?.any test = true := by
    intro a b hab hb ha
    rcases hab.eq_or_lt with rfl | hlt
    · exact ha
    rw [hget a (hlt.trans hb)] at ha
    rw [hget b hb]
    exact pairwise_iff_getElem.mp h a b _ hb hlt ha
  have hfirst := fun k hk => (search_le_iff hmono (k := k) hk).trans (by rw [hget k hk])
  generalize search l.length (fun i => l[i]?.any test) = n at hfirst ⊢
  rcases lt_or_ge n l.length with hn | hn
  · rw [getElem?_eq_getElem hn, eq_comm, find?_eq_some_iff_getElem]
    refine ⟨(hfirst n hn).mp le_rfl, n, hn, rfl, fun j hj => ?_⟩
    simpa using (hfirst j (hj.trans hn)).not.mp (not_le.mpr hj)
  · rw [getElem?_eq_none hn, eq_comm, find?_eq_none]
    intro a ha hta
    obtain ⟨k, hk, rfl⟩ := getElem_of_mem ha
    exact absurd ((hfirst k hk).mpr hta) (not_le.mpr (hk.trans_le hn))

/-- The first element with the property is one that rules it out for those before it. -/
lemma find?_of_pairwise {α : Type*} {l : List α} {test : α → Bool} {R : α → α → Prop} {s : α}
    (h : l.Pairwise R) (hs : s ∈ l) (htest : test s = true) (hR : ∀ t, R t s → ¬ test t = true) :
    l.find? test = some s := by
  induction l with
  | nil => exact absurd hs not_mem_nil
  | cons t l ih =>
    obtain ⟨ht, hl⟩ := pairwise_cons.mp h
    rcases mem_cons.mp hs with rfl | hs
    · exact find?_cons_of_pos htest
    · rw [find?_cons_of_neg (hR t (ht s hs))]
      exact ih hl hs

end Search

end Tiramisu.Go
