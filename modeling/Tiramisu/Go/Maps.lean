import Mathlib.Algebra.BigOperators.Group.List.Basic
import Mathlib.Algebra.Ring.Int.Defs
import Tiramisu.Lib.Writes

/-!
# Go maps

A Go map is an association list with distinct keys.  `insertAll` is the loop
that stores a slice of values under a key computed from each, `insertFrom` the
loop that copies one map into another, and `sum` adds up a quantity over the
stored values.
-/

namespace Tiramisu.Go

open AList List

abbrev GoMap (κ ν : Type) := AList (fun _ : κ => ν)

namespace GoMap

variable {κ ν : Type} [DecidableEq κ]

/-- `for _, v := range vs { m[key(v)] = v }`. -/
def insertAll (key : ν → κ) (m : GoMap κ ν) (vs : List ν) : GoMap κ ν :=
  vs.foldl (fun m v => m.insert (key v) v) m

variable {key : ν → κ} {m : GoMap κ ν} {vs : List ν} {k : κ}

lemma lookup_insertAll_of_forall_ne (h : ∀ v ∈ vs, key v ≠ k) :
    (insertAll key m vs).lookup k = m.lookup k := by
  induction vs generalizing m with
  | nil => rfl
  | cons v vs ih =>
    have hv : k ≠ key v := (h v (by simp)).symm
    rw [insertAll, foldl_cons, ← insertAll, ih fun w hw => h w (by simp [hw])]
    exact lookup_insert_ne hv

/-- A value that no other value of the slice shares its key with is found. -/
lemma lookup_insertAll_of_mem {v : ν} (hv : v ∈ vs) (h : ∀ w ∈ vs, key w = key v → w = v) :
    (insertAll key m vs).lookup (key v) = some v := by
  induction vs generalizing m with
  | nil => simp at hv
  | cons w vs ih =>
    rw [insertAll, foldl_cons, ← insertAll]
    by_cases hmem : v ∈ vs
    · exact ih hmem fun u hu => h u (by simp [hu])
    obtain rfl : v = w := by simpa [hmem] using hv
    have hne : ∀ u ∈ vs, key u ≠ key v := by
      intro u hu hk
      exact hmem (h u (by simp [hu]) hk ▸ hu)
    rw [lookup_insertAll_of_forall_ne hne]
    exact lookup_insert _

/-- `for k, v := range src { m[k] = f(v) }`. -/
def insertFrom {ν' : Type} (f : ν → ν') (m : GoMap κ ν') (src : GoMap κ ν) : GoMap κ ν' :=
  src.entries.foldl (fun m e => m.insert e.1 (f e.2)) m

lemma lookup_insertFrom {ν' : Type} (f : ν → ν') (m : GoMap κ ν') (src : GoMap κ ν) :
    (insertFrom f m src).lookup k = ((src.lookup k).map f).or (m.lookup k) := by
  have hmem : ∀ e ∈ src.entries, src.lookup e.1 = some e.2 := fun e he =>
    mem_lookup_iff.mpr he
  cases h : src.lookup k with
  | none =>
    refine Writes.foldl_of_miss (fun m : GoMap κ ν' => m.lookup k) ?_ m
    intro e he m
    refine lookup_insert_ne fun hk => ?_
    rw [hk, hmem e he] at h
    cases h
  | some v =>
    refine Writes.foldl_of_hit (fun m : GoMap κ ν' => m.lookup k) (fun e => e.1 = k)
      ?_ ?_ ⟨⟨k, v⟩, mem_lookup_iff.mp h, rfl⟩ m
    · intro e _ he m
      exact lookup_insert_ne (Ne.symm he)
    · rintro ⟨k', v'⟩ he rfl m
      cases (hmem _ he).symm.trans h
      exact lookup_insert m

/-! ### Adding up -/

def sum (f : ν → ℤ) (m : GoMap κ ν) : ℤ := (m.entries.map fun e => f e.2).sum

variable {f : ν → ℤ} {v : ν}

lemma sum_erase (h : m.lookup k = some v) : sum f (m.erase k) = sum f m - f v := by
  have hlist : ∀ l : List (Sigma fun _ : κ => ν), l.dlookup k = some v →
      (l.map fun e => f e.2).sum = f v + ((l.kerase k).map fun e => f e.2).sum := by
    intro l
    induction l with
    | nil => simp
    | cons e l ih =>
      intro hl
      obtain ⟨k', v'⟩ := e
      by_cases hk : k = k'
      · subst hk
        rw [dlookup_cons_eq, Option.some.injEq] at hl
        subst hl
        simp
      · rw [dlookup_cons_ne _ _ hk] at hl
        rw [kerase_cons_ne hk, map_cons, map_cons, sum_cons, sum_cons,
          ih hl]
        omega
  have hm : sum f m = f v + sum f (m.erase k) := hlist m.entries h
  omega

lemma sum_erase_of_lookup_eq_none (h : m.lookup k = none) : sum f (m.erase k) = sum f m := by
  have hl : m.entries.kerase k = m.entries :=
    kerase_of_notMem_keys (lookup_eq_none.mp h)
  show ((m.entries.kerase k).map fun e => f e.2).sum = sum f m
  rw [hl, sum]

lemma sum_insert (k : κ) (v : ν) : sum f (m.insert k v) = f v + sum f (m.erase k) := by
  rw [sum, entries_insert, map_cons, sum_cons]
  rfl

end GoMap

end Tiramisu.Go
