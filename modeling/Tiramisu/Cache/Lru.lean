import Mathlib.Algebra.Order.BigOperators.Group.List
import Mathlib.Algebra.Order.Ring.Int
import Mathlib.Data.List.Nodup
import Tiramisu.Go.Numbers

/-!
# The least-recently-used cache

`simpleLRUCache`: one shard.  The entries are kept from the most to the least
recently used one; the map `items` is the index of this list by key, so that no
two entries share a key.  The sum of the sizes is an `int64`.
-/

namespace Tiramisu.Cache

open List Go

variable {ν : Type}

structure CacheEntry (ν : Type) where
  key : String
  value : ν
  size : ℤ
  expiresAt : ℤ
  lastPromoted : ℤ

structure SimpleLRUCache (ν : Type) where
  capacity : ℤ
  ttl : ℤ
  currentSize : ℤ
  order : List (CacheEntry ν)
  nodup : (order.map CacheEntry.key).Nodup

/-- The list without the element filed under a key. -/
def without (key : String) (order : List (CacheEntry ν)) : List (CacheEntry ν) :=
  order.eraseP (·.key = key)

lemma nodup_without {order : List (CacheEntry ν)} (h : (order.map CacheEntry.key).Nodup)
    (key : String) : ((without key order).map CacheEntry.key).Nodup :=
  (eraseP_sublist.map _).nodup h

lemma mem_of_mem_without {order : List (CacheEntry ν)} {key : String} {e : CacheEntry ν}
    (h : e ∈ without key order) : e ∈ order :=
  eraseP_sublist.subset h

/-- With distinct keys the entry itself is taken out. -/
lemma without_split {order : List (CacheEntry ν)} (h : (order.map CacheEntry.key).Nodup)
    {e : CacheEntry ν} (he : e ∈ order) :
    ∃ front back, order = front ++ e :: back ∧ without e.key order = front ++ back := by
  obtain ⟨x, front, back, -, hx, rfl, hwithout⟩ :=
    exists_of_eraseP (p := (·.key = e.key)) he (by simp)
  cases inj_on_of_nodup_map h mem_append_cons_self he (of_decide_eq_true hx)
  exact ⟨front, back, rfl, hwithout⟩

lemma key_ne_of_mem_without {order : List (CacheEntry ν)} (h : (order.map CacheEntry.key).Nodup)
    {key : String} {e : CacheEntry ν} (he : e ∈ without key order) : e.key ≠ key := by
  rintro rfl
  obtain ⟨front, back, rfl, hwithout⟩ := without_split h (mem_of_mem_without he)
  rw [map_append, map_cons, nodup_middle, nodup_cons, ← map_append, ← hwithout] at h
  exact h.1 (mem_map_of_mem he)

lemma nodup_cons_without {order : List (CacheEntry ν)} (h : (order.map CacheEntry.key).Nodup)
    (e : CacheEntry ν) : ((e :: without e.key order).map CacheEntry.key).Nodup := by
  rw [map_cons, nodup_cons]
  refine ⟨fun hmem => ?_, nodup_without h e.key⟩
  obtain ⟨x, hx, heq⟩ := mem_map.mp hmem
  exact key_ne_of_mem_without h hx heq

namespace SimpleLRUCache

def find (c : SimpleLRUCache ν) (key : String) : Option (CacheEntry ν) :=
  c.order.find? (·.key = key)

def removeElement (c : SimpleLRUCache ν) (e : CacheEntry ν) : SimpleLRUCache ν where
  capacity := c.capacity
  ttl := c.ttl
  currentSize := int64 (c.currentSize - e.size)
  order := without e.key c.order
  nodup := nodup_without c.nodup e.key

/-- An entry with new contents moves to the front. -/
def refresh (c : SimpleLRUCache ν) (e : CacheEntry ν) (currentSize : ℤ) : SimpleLRUCache ν where
  capacity := c.capacity
  ttl := c.ttl
  currentSize := currentSize
  order := e :: without e.key c.order
  nodup := nodup_cons_without c.nodup e

/-- `Delete`. -/
def delete (c : SimpleLRUCache ν) (key : String) : SimpleLRUCache ν × Bool :=
  match c.find key with
  | none => (c, false)
  | some e => (c.removeElement e, true)

/-- The lazy promotion of `Get`, if the entry is still there. -/
def promote (c : SimpleLRUCache ν) (key : String) (now : ℤ) : SimpleLRUCache ν :=
  match c.find key with
  | none => c
  | some e => c.refresh { e with lastPromoted := now } c.currentSize

/-- The eviction loop of `Put`; it runs at most once for each entry. -/
def evict (size : ℤ) : ℕ → SimpleLRUCache ν → SimpleLRUCache ν
  | 0, c => c
  | n + 1, c =>
    if int64 (c.currentSize + size) > c.capacity then
      match c.order.getLast? with
      | some oldest => evict size n (c.removeElement oldest)
      | none => c
    else c

def put (c : SimpleLRUCache ν) (key : String) (value : ν) (size now : ℤ) : SimpleLRUCache ν :=
  match c.find key with
  | some entry =>
    c.refresh ⟨entry.key, value, size, now + c.ttl, now⟩
      (int64 (int64 (c.currentSize - entry.size) + size))
  | none =>
    (evict size c.order.length c).refresh ⟨key, value, size, now + c.ttl, now⟩
      (int64 ((evict size c.order.length c).currentSize + size))

/-- `CleanupExpired`, with the number of entries it has removed. -/
def cleanupExpired (c : SimpleLRUCache ν) (now : ℤ) : SimpleLRUCache ν × ℕ :=
  let toRemove := c.order.filter fun e => e.expiresAt < now
  (toRemove.foldl removeElement c, toRemove.length)

variable {c : SimpleLRUCache ν} {key k : String}
variable {e : CacheEntry ν} {order : List (CacheEntry ν)} {value : ν} {size now : ℤ}

lemma key_of_find (h : c.find key = some e) : e.key = key := by
  simpa using find?_some h

lemma find_eq_none_iff : c.find key = none ↔ ∀ e ∈ c.order, e.key ≠ key := by
  simp [find]

lemma find_removeElement (h : c.find k = none ∨ e.key = k) : (c.removeElement e).find k = none := by
  rw [find_eq_none_iff]
  intro x hx
  rcases h with h | rfl
  · exact find_eq_none_iff.mp h x (mem_of_mem_without hx)
  · exact key_ne_of_mem_without c.nodup hx

lemma find_refresh {d : ℤ} (h : c.find k = none) (hk : e.key ≠ k) :
    (c.refresh e d).find k = none := by
  rw [find_eq_none_iff]
  intro x hx
  rcases mem_cons.mp hx with rfl | hx
  · exact hk
  · exact find_eq_none_iff.mp h x (mem_of_mem_without hx)

lemma find_delete_self : (c.delete key).1.find key = none := by
  unfold delete
  cases h : c.find key with
  | none => exact h
  | some e => exact find_removeElement (.inr (key_of_find h))

lemma find_delete (h : c.find k = none) : (c.delete key).1.find k = none := by
  unfold delete
  split
  · exact h
  · exact find_removeElement (.inl h)

lemma find_promote (now : ℤ) (h : c.find k = none) : (c.promote key now).find k = none := by
  unfold promote
  cases he : c.find key with
  | none => exact h
  | some e =>
    refine find_refresh h fun hk => ?_
    rw [← hk, key_of_find he, he] at h
    cases h

/-- What every removal of an entry keeps is kept by the eviction. -/
lemma evict_preserves {P : SimpleLRUCache ν → Prop}
    (hP : ∀ c e, e ∈ c.order → P c → P (c.removeElement e)) (size : ℤ) (n : ℕ) (h : P c) :
    P (evict size n c) := by
  induction n generalizing c with
  | zero => exact h
  | succ n ih =>
    unfold evict
    split_ifs
    · split
      · rename_i oldest hlast
        exact ih (hP c oldest (mem_of_getLast? hlast) h)
      · exact h
    · exact h

lemma find_evict (size : ℤ) (n : ℕ) (h : c.find k = none) : (evict size n c).find k = none := by
  apply evict_preserves (P := fun c => c.find k = none) _ size n h
  exact fun c e _ h => find_removeElement (.inl h)

/-- Storing one key brings no other key in. -/
lemma find_put (h : c.find k = none) (hk : key ≠ k) : (c.put key value size now).find k = none := by
  unfold put
  split
  · rename_i entry he
    exact find_refresh h (by rwa [key_of_find he])
  · exact find_refresh (find_evict size _ h) hk

lemma length_removeElement (he : e ∈ c.order) :
    (c.removeElement e).order.length + 1 = c.order.length := by
  obtain ⟨front, back, horder, hwithout⟩ := without_split c.nodup he
  change (without e.key c.order).length + 1 = _
  rw [hwithout, horder, length_append, length_append, length_cons, Nat.add_assoc]

/-- The eviction stops when the new entry fits or nothing is left. -/
lemma evict_fits (size : ℤ) (c : SimpleLRUCache ν) :
    int64 ((evict size c.order.length c).currentSize + size) ≤ (evict size c.order.length c).capacity ∨
      (evict size c.order.length c).order = [] := by
  have hfuel : ∀ n (c : SimpleLRUCache ν), c.order.length = n →
      int64 ((evict size n c).currentSize + size) ≤ (evict size n c).capacity ∨
        (evict size n c).order = [] := by
    intro n
    induction n with
    | zero => exact fun c h => .inr (length_eq_zero_iff.mp h)
    | succ n ih =>
      intro c h
      unfold evict
      split_ifs with hfull
      · split
        · rename_i oldest hlast
          refine ih _ ?_
          have hmem := length_removeElement (mem_of_getLast? hlast)
          omega
        · rename_i hlast
          exact .inr (getLast?_eq_none_iff.mp hlast)
      · exact .inl (not_lt.mp hfull)
  exact hfuel _ c rfl

/-! ### The size on the books -/

def total (c : SimpleLRUCache ν) : ℤ := (c.order.map CacheEntry.size).sum

/-- `currentSize` is the sum of the sizes. -/
def Booked (c : SimpleLRUCache ν) : Prop := c.currentSize = int64 c.total

lemma sum_without (h : (order.map CacheEntry.key).Nodup) (he : e ∈ order) :
    ((without e.key order).map CacheEntry.size).sum
      = (order.map CacheEntry.size).sum - e.size := by
  obtain ⟨front, back, rfl, hwithout⟩ := without_split h he
  simp only [hwithout, map_append, map_cons, sum_append, sum_cons]
  omega

lemma mem_without (he : e ∈ order) (hk : e.key ≠ key) : e ∈ without key order := by
  rw [without, mem_eraseP_of_neg (by simpa using hk)]
  exact he

lemma mem_of_find (h : c.find key = some e) : e ∈ c.order :=
  mem_of_find?_eq_some h

lemma total_removeElement (he : e ∈ c.order) : (c.removeElement e).total = c.total - e.size :=
  sum_without c.nodup he

/-- The entry of a key takes new contents. -/
lemma total_refresh {e' : CacheEntry ν} {n : ℤ} (he : e ∈ c.order) (hkey : e'.key = e.key) :
    (c.refresh e' n).total = c.total - e.size + e'.size := by
  unfold total refresh
  rw [map_cons, sum_cons, hkey, sum_without c.nodup he]
  omega

/-- A new key comes in. -/
lemma order_refresh_new {n : ℤ} (hnone : c.find e.key = none) :
    (c.refresh e n).order = e :: c.order := by
  have hall : without e.key c.order = c.order := by
    apply eraseP_of_forall_not
    intro x hx
    simpa using find_eq_none_iff.mp hnone x hx
  exact congrArg (e :: ·) hall

lemma total_refresh_new {n : ℤ} (hnone : c.find e.key = none) :
    (c.refresh e n).total = c.total + e.size := by
  unfold total
  rw [order_refresh_new hnone, map_cons, sum_cons]
  omega

lemma booked_refresh {e' : CacheEntry ν} {n : ℤ} (he : e ∈ c.order) (hkey : e'.key = e.key)
    (hn : n = int64 (c.total - e.size + e'.size)) : (c.refresh e' n).Booked := by
  rw [Booked, total_refresh he hkey]
  exact hn

lemma booked_removeElement (h : c.Booked) (he : e ∈ c.order) : (c.removeElement e).Booked := by
  unfold Booked at h ⊢
  rw [total_removeElement he, ← int64_int64_sub, ← h]
  rfl

lemma booked_evict (size : ℤ) (n : ℕ) (h : c.Booked) : (evict size n c).Booked :=
  evict_preserves (fun _ _ he h => booked_removeElement h he) size n h

lemma booked_put (h : c.Booked) : (c.put key value size now).Booked := by
  unfold put
  split
  · rename_i entry hfind
    apply booked_refresh (mem_of_find hfind)
    · rfl
    · rw [h, int64_int64_sub, int64_int64_add]
  · rename_i hnone
    have hbooked := booked_evict size c.order.length h
    unfold Booked at hbooked ⊢
    rw [total_refresh_new (find_evict size _ hnone), refresh, hbooked, int64_int64_add]

lemma booked_promote (now : ℤ) (h : c.Booked) : (c.promote key now).Booked := by
  unfold promote
  split
  · exact h
  rename_i e hfind
  apply booked_refresh (mem_of_find hfind)
  · rfl
  · rw [h, Int.sub_add_cancel]

lemma booked_delete (h : c.Booked) : (c.delete key).1.Booked := by
  unfold delete
  split
  · exact h
  · rename_i e hfind
    exact booked_removeElement h (mem_of_find hfind)

/-- What every removal of an expired entry keeps is kept by `CleanupExpired`. -/
lemma cleanupExpired_preserves {P : SimpleLRUCache ν → Prop} (now : ℤ)
    (hP : ∀ c e, e ∈ c.order → e.expiresAt < now → P c → P (c.removeElement e)) (h : P c) :
    P (c.cleanupExpired now).1 := by
  have hfold : ∀ (l : List (CacheEntry ν)) (c : SimpleLRUCache ν), P c →
      (l.map CacheEntry.key).Nodup → (∀ e ∈ l, e ∈ c.order ∧ e.expiresAt < now) →
      P (l.foldl removeElement c) := by
    intro l
    induction l with
    | nil => exact fun c h _ _ => h
    | cons x xs ih =>
      intro c h hnodup hl
      rw [map_cons, nodup_cons] at hnodup
      rw [foldl_cons]
      obtain ⟨hx, hexpired⟩ := hl x mem_cons_self
      apply ih _ (hP c x hx hexpired h) hnodup.2
      intro e he
      refine (hl e (mem_cons_of_mem x he)).imp_left fun hmem => mem_without hmem fun heq => ?_
      exact hnodup.1 (heq ▸ mem_map_of_mem he)
  apply hfold _ c h
  · exact (filter_sublist.map _).nodup c.nodup
  · exact fun e he => (mem_filter.mp he).imp_right of_decide_eq_true

/-! ### The bound -/

lemma length_refresh {e' : CacheEntry ν} {d : ℤ} (he : e ∈ c.order) (hkey : e'.key = e.key) :
    (c.refresh e' d).order.length = c.order.length := by
  have hlen := length_removeElement he
  unfold refresh
  unfold removeElement at hlen
  rw [length_cons, hkey, hlen]

@[simp] lemma capacity_evict (size : ℤ) (n : ℕ) (c : SimpleLRUCache ν) :
    (evict size n c).capacity = c.capacity :=
  evict_preserves (P := fun d => d.capacity = c.capacity) (fun _ _ _ h => h) size n rfl

/-- No entry is larger than `bound`, the cache is within its capacity or has at most one
entry, and one more entry is within the range of its counter. -/
structure Within (bound : ℕ) (c : SimpleLRUCache ν) : Prop where
  range : IsInt (max c.capacity bound + bound)
  sizes : ∀ e ∈ c.order, 0 ≤ e.size ∧ e.size ≤ bound
  fits : c.total ≤ c.capacity ∨ c.order.length ≤ 1

variable {bound : ℕ}

lemma within_removeElement (h : c.Within bound) (he : e ∈ c.order) :
    (c.removeElement e).Within bound := by
  refine ⟨h.range, ?_, ?_⟩
  · exact fun x hx => h.sizes x (mem_of_mem_without hx)
  · have hsize := h.sizes e he
    have hlength := length_removeElement he
    rw [total_removeElement he]
    rcases h.fits with hfits | hone
    · left
      change _ ≤ c.capacity
      omega
    · right
      omega

lemma within_refresh {e' : CacheEntry ν} {n : ℤ} (h : c.Within bound) (he : e ∈ c.order)
    (hkey : e'.key = e.key) (hsize : 0 ≤ e'.size ∧ e'.size ≤ e.size) :
    (c.refresh e' n).Within bound := by
  refine ⟨h.range, ?_, ?_⟩
  · intro x hx
    rcases mem_cons.mp hx with rfl | hx
    · exact ⟨hsize.1, hsize.2.trans (h.sizes e he).2⟩
    · exact h.sizes x (mem_of_mem_without hx)
  · rw [total_refresh he hkey, length_refresh he hkey]
    rcases h.fits with hfits | hone
    · left
      change _ ≤ c.capacity
      omega
    · exact .inr hone

lemma within_evict (size : ℤ) (n : ℕ) (h : c.Within bound) : (evict size n c).Within bound :=
  evict_preserves (fun _ _ he h => within_removeElement h he) size n h

lemma within_promote (now : ℤ) (h : c.Within bound) : (c.promote key now).Within bound := by
  unfold promote
  split
  · exact h
  · rename_i e hfind
    have he := mem_of_find hfind
    apply within_refresh h he
    · rfl
    · exact ⟨(h.sizes e he).1, le_rfl⟩

lemma within_delete (h : c.Within bound) : (c.delete key).1.Within bound := by
  unfold delete
  split
  · exact h
  · rename_i e hfind
    exact within_removeElement h (mem_of_find hfind)

lemma Within.total_le (h : c.Within bound) : 0 ≤ c.total ∧ c.total ≤ max c.capacity bound := by
  constructor
  · apply sum_nonneg
    simpa using fun e he => (h.sizes e he).1
  rcases h.fits with hfits | hone
  · exact hfits.trans (le_max_left ..)
  apply le_max_of_le_right
  have hsizes := h.sizes
  unfold total
  match hc : c.order with
  | [] => simp
  | [e] => simpa using (hsizes e (by simp [hc])).2
  | _ :: _ :: _ => simp [hc] at hone

/-- Nothing is lost of the sum. -/
lemma Within.currentSize_eq (h : c.Within bound) (hbooked : c.Booked) :
    c.currentSize = c.total := by
  have htotal := h.total_le
  have hrange := h.range
  rw [hbooked]
  apply int64_eq
  unfold IsInt at *
  omega

lemma within_put (h : c.Within bound) (hbooked : c.Booked) (hsize : 0 ≤ size ∧ size ≤ bound)
    (hsmaller : ∀ e, c.find key = some e → size ≤ e.size) :
    (c.put key value size now).Within bound := by
  unfold put
  split
  · rename_i e hfind
    apply within_refresh h (mem_of_find hfind)
    · rfl
    · exact ⟨hsize.1, hsmaller e hfind⟩
  rename_i hnone
  have hevict := within_evict size c.order.length h
  have hnone' : (evict size c.order.length c).find key = none := find_evict size _ hnone
  refine ⟨hevict.range, ?_, ?_⟩
  · rw [order_refresh_new hnone']
    exact forall_mem_cons.mpr ⟨hsize, hevict.sizes⟩
  rw [total_refresh_new hnone', order_refresh_new hnone']
  rcases evict_fits size c with hfits | hempty
  · left
    have htotal := hevict.total_le
    have hrange := hevict.range
    rw [hevict.currentSize_eq (booked_evict size _ hbooked),
      int64_eq (by unfold IsInt at *; omega)] at hfits
    exact hfits
  · right
    rw [hempty]
    exact le_rfl

lemma capacity_put : (c.put key value size now).capacity = c.capacity := by
  unfold put
  split
  · rfl
  · exact capacity_evict ..

lemma length_put_pos : 0 < (c.put key value size now).order.length := by
  unfold put
  split <;> exact Nat.succ_pos _

end SimpleLRUCache

end Tiramisu.Cache
