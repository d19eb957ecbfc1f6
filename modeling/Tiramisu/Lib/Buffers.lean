import Mathlib.Data.Int.Notation
import Tiramisu.Lib.Writes

/-!
# Backing arrays and who owns them

Slices of a garbage-collected language share backing arrays.  A `Heap` holds
the arrays, addressed by their place; a `Slice` is a prefix of one of them, and
its capacity is the array's whole length.  `Exclusive` says that no array has
two owners and that none of the arrays parked in a free pool has one.
-/

namespace Buffers

open List

/-- The arrays, in the order they were allocated. -/
structure Heap (β : Type) where
  arrays : List (List β)

structure Slice where
  buf : ℕ
  len : ℕ
  deriving DecidableEq, Repr

namespace Heap

variable {β : Type}

def array (h : Heap β) (buf : ℕ) : List β := (h.arrays[buf]?).getD []

def cap (h : Heap β) (buf : ℕ) : ℕ := (h.array buf).length

def read (h : Heap β) (s : Slice) : List β := (h.array s.buf).take s.len

/-- `s[lo:hi]`: the upper bound is checked against the capacity. -/
def window (h : Heap β) (s : Slice) (lo hi : ℤ) : Option (List β) :=
  if 0 ≤ lo ∧ lo ≤ hi ∧ hi ≤ h.cap s.buf then
    some (((h.array s.buf).drop lo.toNat).take (hi - lo).toNat)
  else none

def alloc (h : Heap β) (array : List β) : ℕ × Heap β :=
  (h.arrays.length, ⟨h.arrays ++ [array]⟩)

/-- `copy(buf, data)` for data that fits. -/
def store (h : Heap β) (buf : ℕ) (data : List β) : Heap β :=
  ⟨h.arrays.modify buf fun a => data ++ a.drop data.length⟩

variable {h : Heap β} {s : Slice} {a data : List β} {buf buf' : ℕ}

@[simp] lemma length_store : (h.store buf data).arrays.length = h.arrays.length := by
  simp [store]

@[simp] lemma length_alloc : (h.alloc a).2.arrays.length = h.arrays.length + 1 := by
  simp [alloc]

lemma array_store_ne (hne : buf' ≠ buf) : (h.store buf data).array buf' = h.array buf' := by
  simp [array, store, Ne.symm hne]

lemma array_store_self (hlt : buf < h.arrays.length) :
    (h.store buf data).array buf = data ++ (h.array buf).drop data.length := by
  simp [array, store, hlt]

lemma array_alloc_of_lt (hlt : buf < h.arrays.length) : (h.alloc a).2.array buf = h.array buf := by
  simp [array, alloc, getElem?_append_left hlt]

lemma array_alloc_self : (h.alloc a).2.array (h.alloc a).1 = a := by
  simp [array, alloc]

lemma length_read (hfit : s.len ≤ h.cap s.buf) : (h.read s).length = s.len := by
  rw [read, length_take]
  exact Nat.min_eq_left hfit

lemma read_store_self (hlt : buf < h.arrays.length) :
    (h.store buf data).read ⟨buf, data.length⟩ = data := by
  simp [read, array_store_self hlt]

lemma cap_store (hfit : data.length ≤ h.cap buf) : (h.store buf data).cap buf' = h.cap buf' := by
  by_cases hne : buf' = buf
  · subst hne
    by_cases hlt : buf' < h.arrays.length
    · rw [cap, array_store_self hlt, length_append, length_drop]
      exact Nat.add_sub_cancel' hfit
    · simp [cap, array, store, hlt]
  · rw [cap, array_store_ne hne, cap]

/-- Inside the slice a window shows the slice's own data. -/
lemma window_eq_some {lo hi : ℤ} (hlo : 0 ≤ lo) (hle : lo ≤ hi) (hhi : hi ≤ s.len)
    (hfit : s.len ≤ h.cap s.buf) :
    h.window s lo hi = some (((h.read s).drop lo.toNat).take (hi - lo).toNat) := by
  have hcap : hi ≤ h.cap s.buf := by omega
  rw [window, if_pos ⟨hlo, hle, hcap⟩, read, drop_take, take_take,
    Nat.min_eq_left (by omega)]

end Heap

/-! ### Ownership -/

/-- No two owners share an array, and the pool holds only arrays without one. -/
structure Exclusive {ι : Type} (owner : ι → Option ℕ) (pool : List ℕ) : Prop where
  inj : ∀ {i j buf}, owner i = some buf → owner j = some buf → i = j
  nodup : pool.Nodup
  apart : ∀ {i buf}, owner i = some buf → buf ∉ pool

namespace Exclusive

variable {ι : Type} {owner : ι → Option ℕ} {pool : List ℕ} {i : ι} {buf : ℕ}

/-- The pool hands out its first array; it is then nobody's. -/
lemma handOut (h : Exclusive owner (buf :: pool)) :
    Exclusive owner pool ∧ (∀ j, owner j ≠ some buf) ∧ buf ∉ pool :=
  ⟨⟨h.inj, (nodup_cons.mp h.nodup).2, fun hj hmem => h.apart hj (mem_cons_of_mem _ hmem)⟩,
    fun _ hj => h.apart hj (by simp), (nodup_cons.mp h.nodup).1⟩

variable [DecidableEq ι]

/-- An owner lets go of its array. -/
lemma forget (h : Exclusive owner pool) : Exclusive (Function.update owner i none) pool := by
  have hold : ∀ {j b}, Function.update owner i none j = some b → owner j = some b := by
    intro j b hj
    rcases Writes.of_update hj with ⟨-, hnone⟩ | ⟨-, hj⟩
    · cases hnone
    · exact hj
  exact ⟨fun hj hk => h.inj (hold hj) (hold hk), h.nodup, fun hj => h.apart (hold hj)⟩

/-- An owner hands its array back to the pool. -/
lemma giveBack (h : Exclusive owner pool) (hi : owner i = some buf) :
    Exclusive (Function.update owner i none) (pool ++ [buf]) := by
  refine ⟨h.forget.inj, ?_, fun {j b} hj hmem => ?_⟩
  · exact nodup_append.mpr ⟨h.nodup, by simp, fun a ha b hb hab => h.apart hi (by simp_all)⟩
  rcases Writes.of_update hj with ⟨-, hnone⟩ | ⟨hji, hj⟩
  · cases hnone
  rcases mem_append.mp hmem with hmem | hmem
  · exact h.apart hj hmem
  · obtain rfl : b = buf := by simpa using hmem
    exact hji (h.inj hj hi)

/-- A place takes an array that nobody has. -/
lemma take (h : Exclusive owner pool) (hfree : ∀ j, owner j ≠ some buf) (hpool : buf ∉ pool) :
    Exclusive (Function.update owner i (some buf)) pool := by
  refine ⟨fun {j k b} hj hk => ?_, h.nodup, fun {j b} hj => ?_⟩
  · rcases Writes.of_update hj with ⟨hji, hb⟩ | ⟨-, hj⟩ <;>
      rcases Writes.of_update hk with ⟨hki, hb'⟩ | ⟨-, hk⟩
    · rw [hji, hki]
    · exact absurd (hk.trans hb.symm) (hfree k)
    · exact absurd (hj.trans hb'.symm) (hfree j)
    · exact h.inj hj hk
  · rcases Writes.of_update hj with ⟨-, hb⟩ | ⟨-, hj⟩
    · cases hb
      exact hpool
    · exact h.apart hj

end Exclusive

end Buffers
