import Mathlib.Data.List.Forall2
import Tiramisu.Cache.Lru
import Tiramisu.Go.Maps
import Tiramisu.Lib.Places
import Tiramisu.Lib.Runs

/-!
# The map and the list of the least-recently-used cache

The map `items` leads from a key to an element of the list `order`, and the
entry an element holds is changed in place.  Elements are numbered in the order
of their making.  The map and the list are kept apart here, as in the source,
and together they stand for the single list of `SimpleLRUCache`.
-/

namespace Tiramisu.Cache

open Transition List
open Go

variable {ν : Type}

structure ElementCache (ν : Type) where
  capacity : ℤ
  ttl : ℤ
  currentSize : ℤ
  items : GoMap String ℕ
  order : List ℕ
  values : List (CacheEntry ν)

def second : ℤ := 10 ^ 9

/-- What `Get` finds under the read side of the lock. -/
inductive Look (ν : Type)
  | missing
  | expired
  | due (value : ν)
  | hit (value : ν)

def moveToFront (order : List ℕ) (elem : ℕ) : List ℕ :=
  if elem ∈ order then elem :: order.erase elem else order

namespace ElementCache

def newSimpleLRUCache (capacity ttl : ℤ) : ElementCache ν where
  capacity := if capacity = 0 then 500 * 1024 * 1024 else capacity
  ttl := if ttl = 0 then 24 * 3600 * second else ttl
  currentSize := 0
  items := ∅
  order := []
  values := []

def removeElement (c : ElementCache ν) (elem : ℕ) : ElementCache ν :=
  match c.values[elem]? with
  | none => c
  | some e => { c with
      items := c.items.erase e.key
      order := c.order.erase elem
      currentSize := int64 (c.currentSize - e.size) }

def look (c : ElementCache ν) (key : String) (now : ℤ) : Look ν :=
  match (c.items.lookup key).bind (c.values[·]?) with
  | none => .missing
  | some e =>
    if e.expiresAt < now then .expired
    else if 10 * second < now - e.lastPromoted then .due e.value
    else .hit e.value

/-- The second critical section of a `Get` that has found its entry expired. -/
def getRemove (c : ElementCache ν) (key : String) : ElementCache ν :=
  match c.items.lookup key with
  | some elem => c.removeElement elem
  | none => c

/-- The second critical section of a `Get` that promotes its entry. -/
def getPromote (c : ElementCache ν) (key : String) (now : ℤ) : ElementCache ν :=
  match c.items.lookup key with
  | some elem =>
    match c.values[elem]? with
    | some e => { c with
        order := moveToFront c.order elem
        values := c.values.set elem { e with lastPromoted := now } }
    | none => c
  | none => c

def get (c : ElementCache ν) (key : String) (now : ℤ) : ElementCache ν × Option ν :=
  match c.look key now with
  | .missing => (c, none)
  | .expired => (c.getRemove key, none)
  | .due value => (c.getPromote key now, some value)
  | .hit value => (c, some value)

/-- The eviction loop of `Put`; it runs at most once for each element. -/
def evict (size : ℤ) : ℕ → ElementCache ν → ElementCache ν
  | 0, c => c
  | n + 1, c =>
    if int64 (c.currentSize + size) > c.capacity then
      match c.order.getLast? with
      | some oldest => evict size n (c.removeElement oldest)
      | none => c
    else c

def pushFront (c : ElementCache ν) (e : CacheEntry ν) : ElementCache ν :=
  { c with
    items := c.items.insert e.key c.values.length
    order := c.values.length :: c.order
    values := c.values ++ [e]
    currentSize := int64 (c.currentSize + e.size) }

def put (c : ElementCache ν) (key : String) (value : ν) (size now : ℤ) : ElementCache ν :=
  match c.items.lookup key with
  | some elem =>
    match c.values[elem]? with
    | some e => { c with
        currentSize := int64 (int64 (c.currentSize - e.size) + size)
        order := moveToFront c.order elem
        values := c.values.set elem ⟨e.key, value, size, now + c.ttl, now⟩ }
    | none => c
  | none => (evict size c.order.length c).pushFront ⟨key, value, size, now + c.ttl, now⟩

def delete (c : ElementCache ν) (key : String) : ElementCache ν × Bool :=
  match c.items.lookup key with
  | some elem => (c.removeElement elem, true)
  | none => (c, false)

def cleanupExpired (c : ElementCache ν) (now : ℤ) : ElementCache ν × ℕ :=
  let toRemove := c.order.filter fun elem => (c.values[elem]?).any fun e => e.expiresAt < now
  (toRemove.foldl removeElement c, toRemove.length)

end ElementCache

/-- A call, or the second critical section of a `Get`, after other calls have come
in between. -/
inductive CacheLabel (ν : Type)
  | put (key : String) (value : ν) (size now : ℤ)
  | get (key : String) (now : ℤ)
  | getRemove (key : String)
  | getPromote (key : String) (now : ℤ)
  | delete (key : String)
  | cleanupExpired (now : ℤ)

namespace ElementCache

def apply (c : ElementCache ν) : CacheLabel ν → ElementCache ν
  | .put key value size now => c.put key value size now
  | .get key now => (c.get key now).1
  | .getRemove key => c.getRemove key
  | .getPromote key now => c.getPromote key now
  | .delete key => (c.delete key).1
  | .cleanupExpired now => (c.cleanupExpired now).1

def Step (c : ElementCache ν) (l : CacheLabel ν) (c' : ElementCache ν) : Prop := c.apply l = c'

/-! ### Two lists side by side -/

section Lists

variable {α β : Type} {R : α → β → Prop} {xs : List α} {ys : List β} {x : α} {y : β}

section

variable (h : List.Forall₂ R xs ys)

include h

lemma exists_left (hx : x ∈ xs) : ∃ y ∈ ys, R x y := by
  induction h with
  | nil => cases hx
  | @cons a b l1 l2 hab _ ih =>
    rcases mem_cons.mp hx with rfl | hx
    · exact ⟨b, mem_cons_self, hab⟩
    · obtain ⟨y, hy, hxy⟩ := ih hx
      exact ⟨y, mem_cons_of_mem b hy, hxy⟩

lemma exists_right (hy : y ∈ ys) : ∃ x ∈ xs, R x y :=
  exists_left (R := flip R) (Forall₂.flip h) hy

lemma forall₂_getLast :
    xs.getLast? = none ∧ ys.getLast? = none ∨
      ∃ x y, xs.getLast? = some x ∧ ys.getLast? = some y ∧ R x y := by
  have hrev := forall₂_reverse_iff.mpr h
  rw [← head?_reverse, ← head?_reverse]
  generalize xs.reverse = us at hrev ⊢
  generalize ys.reverse = vs at hrev ⊢
  cases hrev with
  | nil => exact Or.inl ⟨rfl, rfl⟩
  | cons hab _ => exact Or.inr ⟨_, _, rfl, rfl, hab⟩

end

end Lists

/-! ### What the map and the list stand for -/

structure Views (c : ElementCache ν) (a : SimpleLRUCache ν) : Prop where
  capacity : a.capacity = c.capacity
  ttl : a.ttl = c.ttl
  currentSize : a.currentSize = c.currentSize
  order : List.Forall₂ (fun elem e => c.values[elem]? = some e) c.order a.order
  items : ∀ key elem, c.items.lookup key = some elem ↔
    elem ∈ c.order ∧ ∃ e, c.values[elem]? = some e ∧ e.key = key

variable {c : ElementCache ν} {a : SimpleLRUCache ν} {key : String} {elem : ℕ}
  {e e' : CacheEntry ν}

lemma Views.entry (h : Views c a) (hmem : elem ∈ c.order) (he : c.values[elem]? = some e) :
    e ∈ a.order := by
  obtain ⟨y, hy, hval⟩ := exists_left h.order hmem
  cases he.symm.trans hval
  exact hy

/-- Distinct keys make distinct elements. -/
lemma nodup_of_forall₂ {values : List (CacheEntry ν)} {xs : List ℕ} {ys : List (CacheEntry ν)}
    (h : List.Forall₂ (fun elem e => values[elem]? = some e) xs ys)
    (hkeys : (ys.map CacheEntry.key).Nodup) : xs.Nodup := by
  induction h with
  | nil => exact nodup_nil
  | @cons x y l1 l2 hxy htail ih =>
    rw [map_cons, nodup_cons] at hkeys
    apply nodup_cons.mpr
    refine ⟨fun hmem => ?_, ih hkeys.2⟩
    obtain ⟨z, hz, hval⟩ := exists_left htail hmem
    cases hxy.symm.trans hval
    exact hkeys.1 (mem_map_of_mem hz)

lemma Views.nodup (h : Views c a) : c.order.Nodup := nodup_of_forall₂ h.order a.nodup

lemma find_of_mem (he : e ∈ a.order) : a.find e.key = some e := by
  cases hfind : a.find e.key with
  | none => exact absurd rfl (SimpleLRUCache.find_eq_none_iff.mp hfind e he)
  | some x =>
    have hkey := SimpleLRUCache.key_of_find hfind
    have hx := SimpleLRUCache.mem_of_find hfind
    rw [inj_on_of_nodup_map a.nodup hx he hkey]

lemma Views.find_some (h : Views c a) (hkey : c.items.lookup key = some elem) :
    ∃ e, elem ∈ c.order ∧ c.values[elem]? = some e ∧ a.find key = some e := by
  obtain ⟨hmem, e, he, rfl⟩ := (h.items key elem).mp hkey
  exact ⟨e, hmem, he, find_of_mem (h.entry hmem he)⟩

lemma Views.find_none (h : Views c a) (hkey : c.items.lookup key = none) : a.find key = none := by
  rw [SimpleLRUCache.find_eq_none_iff]
  rintro e he rfl
  obtain ⟨elem, hmem, hval⟩ := exists_right h.order he
  rw [(h.items e.key elem).mpr ⟨hmem, e, hval, rfl⟩] at hkey
  cases hkey

/-- The element of a key and the entry of the key leave together. -/
lemma forall₂_erase {values : List (CacheEntry ν)} {xs : List ℕ} {ys : List (CacheEntry ν)}
    (h : List.Forall₂ (fun elem e => values[elem]? = some e) xs ys)
    (hkeys : (ys.map CacheEntry.key).Nodup) (hmem : elem ∈ xs) (he : values[elem]? = some e) :
    List.Forall₂ (fun elem e => values[elem]? = some e) (xs.erase elem) (without e.key ys) := by
  induction h with
  | nil => cases hmem
  | @cons x y l1 l2 hxy htail ih =>
    rw [map_cons, nodup_cons] at hkeys
    by_cases hx : x = elem
    · subst hx
      cases he.symm.trans hxy
      have hys : without e.key (e :: l2) = l2 := by simp [without]
      rw [erase_cons_head, hys]
      exact htail
    · have hmem' : elem ∈ l1 := (mem_cons.mp hmem).resolve_left (Ne.symm hx)
      obtain ⟨z, hz, hval⟩ := exists_left htail hmem'
      cases he.symm.trans hval
      have hy : y.key ≠ e.key := by
        intro heq
        exact hkeys.1 (heq ▸ mem_map_of_mem hz)
      have hys : without e.key (y :: l2) = y :: without e.key l2 := by simp [without, hy]
      rw [erase_cons_tail (by simpa using hx), hys]
      exact .cons hxy (ih hkeys.2 hmem')

/-- Two elements of one key are one. -/
lemma Views.eq_of_key (h : Views c a) {elem' : ℕ} (hmem : elem ∈ c.order)
    (he : c.values[elem]? = some e) (hmem' : elem' ∈ c.order) (he' : c.values[elem']? = some e')
    (hkey : e'.key = e.key) : elem' = elem := by
  have hfirst := (h.items e.key elem).mpr ⟨hmem, e, he, rfl⟩
  have hsecond := (h.items e.key elem').mpr ⟨hmem', e', he', hkey⟩
  exact Option.some.inj (hsecond.symm.trans hfirst)

lemma views_removeElement (h : Views c a) (hmem : elem ∈ c.order)
    (he : c.values[elem]? = some e) : Views (c.removeElement elem) (a.removeElement e) := by
  unfold removeElement
  rw [he]
  constructor
  · exact h.capacity
  · exact h.ttl
  · unfold SimpleLRUCache.removeElement
    rw [h.currentSize]
  · exact forall₂_erase h.order a.nodup hmem he
  intro key elem'
  rw [h.nodup.mem_erase_iff]
  by_cases hkey : key = e.key
  · subst hkey
    rw [AList.lookup_erase]
    constructor
    · intro hnone
      cases hnone
    · rintro ⟨⟨hne, hmem'⟩, e', he', hkey⟩
      exact absurd (h.eq_of_key hmem he hmem' he' hkey) hne
  · rw [AList.lookup_erase_ne hkey, h.items]
    constructor
    · rintro ⟨hmem', e', he', rfl⟩
      refine ⟨⟨?_, hmem'⟩, e', he', rfl⟩
      rintro rfl
      cases he.symm.trans he'
      exact hkey rfl
    · rintro ⟨⟨-, hmem'⟩, hentry⟩
      exact ⟨hmem', hentry⟩

/-- An element takes new contents under the same key and moves to the front. -/
lemma views_refresh (h : Views c a) (hmem : elem ∈ c.order) (he : c.values[elem]? = some e)
    (hkey : e'.key = e.key) (n : ℤ) :
    Views { c with
      currentSize := n
      order := moveToFront c.order elem
      values := c.values.set elem e' } (a.refresh e' n) := by
  have hfront : moveToFront c.order elem = elem :: c.order.erase elem := if_pos hmem
  constructor
  · exact h.capacity
  · exact h.ttl
  · rfl
  · dsimp only
    rw [hfront]
    refine .cons (Places.set_self he) ?_
    rw [hkey]
    have herase := forall₂_erase h.order a.nodup hmem he
    refine ((forall₂_and_left _ _).mpr ⟨fun _ => id, herase⟩).imp fun x y ⟨hx, hxy⟩ => ?_
    have hne : x ≠ elem := (h.nodup.mem_erase_iff.mp hx).1
    exact Places.set_other hxy hne
  · intro key elem'
    dsimp only
    have hsame : elem' ∈ moveToFront c.order elem ↔ elem' ∈ c.order := by
      rw [hfront, mem_cons, h.nodup.mem_erase_iff]
      constructor
      · rintro (rfl | ⟨-, hin⟩)
        · exact hmem
        · exact hin
      · intro hin
        by_cases heq : elem' = elem
        · exact Or.inl heq
        · exact Or.inr ⟨heq, hin⟩
    rw [h.items, hsame]
    apply and_congr_right
    intro _
    by_cases heq : elem' = elem
    · subst heq
      rw [Places.set_self he, he]
      simp [hkey]
    · rw [getElem?_set_ne (Ne.symm heq)]

lemma views_pushFront (h : Views c a) (hnone : c.items.lookup e.key = none) :
    Views (c.pushFront e) (a.refresh e (int64 (a.currentSize + e.size))) := by
  have hbound : ∀ x ∈ c.order, x < c.values.length := by
    intro x hx
    obtain ⟨y, -, hxy⟩ := exists_left h.order hx
    exact (List.getElem?_eq_some_iff.mp hxy).1
  constructor
  · exact h.capacity
  · exact h.ttl
  · unfold SimpleLRUCache.refresh pushFront
    rw [h.currentSize]
  · rw [SimpleLRUCache.order_refresh_new (h.find_none hnone)]
    refine .cons getElem?_concat_length ?_
    exact h.order.imp fun x y hxy => Places.join hxy
  · intro key elem'
    unfold pushFront
    by_cases hnew : elem' = c.values.length
    · subst hnew
      rw [getElem?_concat_length]
      by_cases hkey : key = e.key
      · subst hkey
        rw [AList.lookup_insert]
        simp
      rw [AList.lookup_insert_ne hkey, h.items]
      constructor
      · rintro ⟨hmem, -⟩
        exact absurd (hbound _ hmem) (Nat.lt_irrefl _)
      · rintro ⟨-, e', he', hkey'⟩
        cases he'
        exact absurd hkey'.symm hkey
    · rw [mem_cons, or_iff_right hnew]
      have hvalue : elem' ∈ c.order → (c.values ++ [e])[elem']? = c.values[elem']? := fun hmem =>
        getElem?_append_left (hbound _ hmem)
      by_cases hkey : key = e.key
      · subst hkey
        rw [AList.lookup_insert]
        constructor
        · intro heq
          exact absurd (Option.some.inj heq).symm hnew
        · rintro ⟨hmem, e', he', hkey'⟩
          rw [hvalue hmem] at he'
          rw [(h.items e.key elem').mpr ⟨hmem, e', he', hkey'⟩] at hnone
          cases hnone
      · rw [AList.lookup_insert_ne hkey, h.items]
        apply and_congr_right
        intro hmem
        rw [hvalue hmem]

/-! ### The calls -/

lemma views_evict (size : ℤ) (n : ℕ) (h : Views c a) :
    Views (evict size n c) (SimpleLRUCache.evict size n a) := by
  induction n generalizing c a with
  | zero => exact h
  | succ n ih =>
    unfold evict SimpleLRUCache.evict
    rw [h.currentSize, h.capacity]
    split
    · rcases forall₂_getLast h.order with ⟨hnone, hnone'⟩ | ⟨elem, e, hlast, hlast', he⟩
      · rw [hnone, hnone']
        exact h
      · rw [hlast, hlast']
        exact ih (views_removeElement h (mem_of_getLast? hlast) he)
    · exact h

lemma lookup_evict (size : ℤ) (n : ℕ) (h : Views c a) (hnone : c.items.lookup key = none) :
    (evict size n c).items.lookup key = none := by
  have hviews := views_evict size n h
  cases hkey : (evict size n c).items.lookup key with
  | none => rfl
  | some elem =>
    obtain ⟨e, -, -, hfind⟩ := hviews.find_some hkey
    rw [SimpleLRUCache.find_evict size n (h.find_none hnone)] at hfind
    cases hfind

lemma views_put (value : ν) (size now : ℤ) (h : Views c a) :
    Views (c.put key value size now) (a.put key value size now) := by
  unfold put SimpleLRUCache.put
  cases hkey : c.items.lookup key with
  | none =>
    rw [h.find_none hkey, h.ttl]
    have hlength : c.order.length = a.order.length := h.order.length_eq
    rw [hlength]
    exact views_pushFront (views_evict size _ h) (lookup_evict size _ h hkey)
  | some elem =>
    obtain ⟨e, hmem, he, hfind⟩ := h.find_some hkey
    rw [hfind, h.ttl]
    dsimp only
    rw [he]
    dsimp only
    rw [h.currentSize]
    apply views_refresh h hmem he
    rfl

lemma views_getPromote (now : ℤ) (h : Views c a) :
    Views (c.getPromote key now) (a.promote key now) := by
  unfold getPromote SimpleLRUCache.promote
  cases hkey : c.items.lookup key with
  | none =>
    rw [h.find_none hkey]
    exact h
  | some elem =>
    obtain ⟨e, hmem, he, hfind⟩ := h.find_some hkey
    rw [hfind]
    dsimp only
    rw [he]
    rw [h.currentSize]
    apply views_refresh h hmem he
    rfl

lemma views_delete (h : Views c a) : Views (c.delete key).1 (a.delete key).1 := by
  unfold delete SimpleLRUCache.delete
  cases hkey : c.items.lookup key with
  | none =>
    rw [h.find_none hkey]
    exact h
  | some elem =>
    obtain ⟨e, hmem, he, hfind⟩ := h.find_some hkey
    rw [hfind]
    exact views_removeElement h hmem he

lemma getRemove_eq_delete (c : ElementCache ν) (key : String) :
    c.getRemove key = (c.delete key).1 := by
  unfold getRemove delete
  split <;> rfl

lemma values_removeElement (c : ElementCache ν) (elem : ℕ) :
    (c.removeElement elem).values = c.values := by
  unfold removeElement
  split <;> rfl

lemma views_foldl_removeElement {xs : List ℕ} {ys : List (CacheEntry ν)} (h : Views c a)
    (hxs : List.Forall₂ (fun elem e => c.values[elem]? = some e) xs ys) (hnodup : xs.Nodup)
    (hmem : ∀ x ∈ xs, x ∈ c.order) :
    Views (xs.foldl removeElement c) (ys.foldl SimpleLRUCache.removeElement a) := by
  induction xs generalizing c a ys with
  | nil =>
    cases hxs
    exact h
  | cons x xs ih =>
    cases hxs with
    | @cons _ y _ ys hxy htail =>
      obtain ⟨hx, hnodup⟩ := nodup_cons.mp hnodup
      rw [foldl_cons, foldl_cons]
      apply ih (views_removeElement h (hmem x mem_cons_self) hxy)
      · rw [values_removeElement]
        exact htail
      · exact hnodup
      intro z hz
      have hne : z ≠ x := by
        rintro rfl
        exact hx hz
      unfold removeElement
      rw [hxy]
      exact h.nodup.mem_erase_iff.mpr ⟨hne, hmem z (mem_cons_of_mem x hz)⟩

lemma views_cleanupExpired (now : ℤ) (h : Views c a) :
    Views (c.cleanupExpired now).1 (a.cleanupExpired now).1 := by
  apply views_foldl_removeElement h
  · refine rel_filter (fun elem e he => ?_) h.order
    simp only [he, Option.any_some]
  · exact h.nodup.filter _
  · exact fun x hx => (mem_filter.mp hx).1

/-! ### Whole runs -/

/-- What a call other than `Put` does to the list. -/
inductive Tends (a : SimpleLRUCache ν) : SimpleLRUCache ν → Prop
  | none : Tends a a
  | delete (key : String) : Tends a (a.delete key).1
  | promote (key : String) (now : ℤ) : Tends a (a.promote key now)
  | cleanupExpired (now : ℤ) : Tends a (a.cleanupExpired now).1

lemma Tends.booked {a' : SimpleLRUCache ν} (h : Tends a a') (hbooked : a.Booked) : a'.Booked := by
  cases h with
  | none => exact hbooked
  | delete key => exact SimpleLRUCache.booked_delete hbooked
  | promote key now => exact SimpleLRUCache.booked_promote now hbooked
  | cleanupExpired now =>
    exact SimpleLRUCache.cleanupExpired_preserves now
      (fun _ _ he _ h => SimpleLRUCache.booked_removeElement h he) hbooked

lemma Tends.within {a' : SimpleLRUCache ν} {bound : ℕ} (h : Tends a a') (hwithin : a.Within bound) :
    a'.Within bound := by
  cases h with
  | none => exact hwithin
  | delete key => exact SimpleLRUCache.within_delete hwithin
  | promote key now => exact SimpleLRUCache.within_promote now hwithin
  | cleanupExpired now =>
    exact SimpleLRUCache.cleanupExpired_preserves now
      (fun _ _ he _ h => SimpleLRUCache.within_removeElement h he) hwithin

lemma views_get (now : ℤ) (h : Views c a) : ∃ a', Tends a a' ∧ Views (c.get key now).1 a' := by
  unfold get
  split
  · exact ⟨a, .none, h⟩
  · rw [getRemove_eq_delete]
    exact ⟨_, .delete key, views_delete h⟩
  · exact ⟨_, .promote key now, views_getPromote now h⟩
  · exact ⟨a, .none, h⟩

/-- The list does what the map and the list do. -/
lemma views_apply (h : Views c a) (l : CacheLabel ν) :
    (∃ key value size now, l = .put key value size now ∧
      Views (c.apply l) (a.put key value size now)) ∨ ∃ a', Tends a a' ∧ Views (c.apply l) a' := by
  cases l with
  | put key value size now => exact .inl ⟨_, _, _, _, rfl, views_put value size now h⟩
  | get key now => exact .inr (views_get now h)
  | getRemove key =>
    have hsame : c.apply (.getRemove key) = (c.delete key).1 := getRemove_eq_delete c key
    rw [hsame]
    exact .inr ⟨_, .delete key, views_delete h⟩
  | getPromote key now => exact .inr ⟨_, .promote key now, views_getPromote now h⟩
  | delete key => exact .inr ⟨_, .delete key, views_delete h⟩
  | cleanupExpired now => exact .inr ⟨_, .cleanupExpired now, views_cleanupExpired now h⟩

lemma views_new (capacity ttl : ℤ) : Views (newSimpleLRUCache capacity ttl : ElementCache ν)
    ⟨(newSimpleLRUCache capacity ttl : ElementCache ν).capacity,
      (newSimpleLRUCache capacity ttl : ElementCache ν).ttl, 0, [], nodup_nil⟩ := by
  refine ⟨rfl, rfl, rfl, .nil, fun key elem => ?_⟩
  constructor
  · intro h
    cases h
  · rintro ⟨h, -⟩
    cases h

lemma isInt_zero : IsInt 0 := by decide

/-- The map and the list stand for a list cache with its books in order. -/
lemma sound_of_run {capacity ttl : ℤ} {ls : List (CacheLabel ν)}
    (hrun : Run Step (newSimpleLRUCache capacity ttl) ls c) : ∃ a, Views c a ∧ a.Booked := by
  apply hrun.invariant (I := fun c => ∃ a, Views c a ∧ a.Booked)
  · rintro s l t ⟨a, hviews, hbooked⟩ rfl
    rcases views_apply hviews l with ⟨key, value, size, now, -, hput⟩ | ⟨a', htends, hviews'⟩
    · exact ⟨_, hput, SimpleLRUCache.booked_put hbooked⟩
    · exact ⟨a', hviews', htends.booked hbooked⟩
  · refine ⟨_, views_new capacity ttl, ?_⟩
    exact (int64_eq isInt_zero).symm

/-- A `Put` is of at most `bound` bytes and makes no entry larger. -/
def Modest (bound : ℕ) (c : ElementCache ν) : CacheLabel ν → Prop
  | .put key _ size _ => (0 ≤ size ∧ size ≤ bound) ∧
      ∀ elem ∈ c.items.lookup key, ∀ e ∈ c.values[elem]?, size ≤ e.size
  | _ => True

instance (bound : ℕ) (c : ElementCache ν) (l : CacheLabel ν) : Decidable (c.Modest bound l) := by
  unfold Modest
  split <;> infer_instance

lemma Views.smaller {bound : ℕ} {value : ν} {size now : ℤ} (h : Views c a)
    (hmodest : c.Modest bound (.put key value size now)) (hfind : a.find key = some e) :
    size ≤ e.size := by
  cases hkey : c.items.lookup key with
  | none =>
    rw [h.find_none hkey] at hfind
    cases hfind
  | some elem =>
    obtain ⟨e', -, he', hfind'⟩ := h.find_some hkey
    cases hfind.symm.trans hfind'
    exact hmodest.2 elem hkey e he'

/-- Under modest `Put`s the list is within its capacity or has at most one entry. -/
lemma within_of_run {capacity ttl : ℤ} {bound : ℕ} {ls : List (CacheLabel ν)}
    (hrange : IsInt (max (newSimpleLRUCache capacity ttl : ElementCache ν).capacity bound + bound))
    (hrun : Run (Guarded (Modest bound) Step) (newSimpleLRUCache capacity ttl) ls c) :
    ∃ a, Views c a ∧ a.Booked ∧ a.Within bound := by
  apply hrun.invariant (I := fun c => ∃ a, Views c a ∧ a.Booked ∧ a.Within bound)
  · rintro s l t ⟨a, hviews, hbooked, hwithin⟩ ⟨hmodest, rfl⟩
    rcases views_apply hviews l with ⟨key, value, size, now, rfl, hput⟩ | ⟨a', htends, hviews'⟩
    · refine ⟨_, hput, SimpleLRUCache.booked_put hbooked, ?_⟩
      exact SimpleLRUCache.within_put hwithin hbooked hmodest.1 fun e => hviews.smaller hmodest
    · exact ⟨a', hviews', htends.booked hbooked, htends.within hwithin⟩
  · refine ⟨_, views_new capacity ttl, (int64_eq isInt_zero).symm, hrange, ?_, ?_⟩
    · exact forall_mem_nil _
    · exact .inr (Nat.zero_le 1)

/-- The entries from the front of the list to its back. -/
def entries (c : ElementCache ν) : List (CacheEntry ν) := c.order.filterMap (c.values[·]?)

lemma Views.entries_eq (h : Views c a) : c.entries = a.order := by
  have hlists : ∀ (xs : List ℕ) (ys : List (CacheEntry ν)),
      List.Forall₂ (fun elem e => c.values[elem]? = some e) xs ys →
        xs.filterMap (c.values[·]?) = ys := by
    intro xs ys hxy
    induction hxy with
    | nil => rfl
    | cons hval _ ih => rw [filterMap_cons_some hval, ih]
  exact hlists _ _ h.order

end ElementCache

open ElementCache

/-- `currentSize` is the `int64` sum of the sizes, and the map and the list lead to each
other.  Under modest `Put`s it is the sum itself, and after every one of them the cache
is within its capacity or has a single entry. -/
theorem lru_books_agree {capacity ttl : ℤ} {ls : List (CacheLabel ν)} {c : ElementCache ν}
    (hrun : Run Step (newSimpleLRUCache capacity ttl) ls c) :
    c.currentSize = int64 (c.entries.map CacheEntry.size).sum ∧ c.order.Nodup ∧
      (∀ elem ∈ c.order, ∃ e, c.values[elem]? = some e ∧ c.items.lookup e.key = some elem) ∧
      (∀ key elem, c.items.lookup key = some elem →
        elem ∈ c.order ∧ ∃ e, c.values[elem]? = some e ∧ e.key = key) ∧
      ∀ bound : ℕ,
        IsInt (max (newSimpleLRUCache capacity ttl : ElementCache ν).capacity bound + bound) →
        Run (Guarded (Modest bound) Step) (newSimpleLRUCache capacity ttl) ls c →
        c.currentSize = (c.entries.map CacheEntry.size).sum ∧
          ∀ key value size now, c.Modest bound (.put key value size now) →
            (c.put key value size now).currentSize ≤ c.capacity ∨
              (c.put key value size now).order.length = 1 := by
  obtain ⟨a, hviews, hbooked⟩ := sound_of_run hrun
  refine ⟨?_, hviews.nodup, fun elem hmem => ?_, fun key elem => (hviews.items key elem).mp,
    fun bound hrange hguarded => ?_⟩
  · rw [hviews.entries_eq, ← hviews.currentSize]
    exact hbooked
  · obtain ⟨e, -, he⟩ := exists_left hviews.order hmem
    exact ⟨e, he, (hviews.items e.key elem).mpr ⟨hmem, e, he, rfl⟩⟩
  obtain ⟨a, hviews, hbooked, hwithin⟩ := within_of_run hrange hguarded
  constructor
  · rw [hviews.entries_eq, ← hviews.currentSize]
    exact hwithin.currentSize_eq hbooked
  intro key value size now hmodest
  have hput : Views (c.put key value size now) (a.put key value size now) :=
    views_put value size now hviews
  have hin : (a.put key value size now).Within bound :=
    SimpleLRUCache.within_put hwithin hbooked hmodest.1 fun e => hviews.smaller hmodest
  have hpos : 0 < (a.put key value size now).order.length := SimpleLRUCache.length_put_pos
  rw [← hput.currentSize, ← hviews.capacity, hput.order.length_eq,
    hin.currentSize_eq (SimpleLRUCache.booked_put hbooked)]
  rcases hin.fits with hfits | hone
  · left
    rwa [SimpleLRUCache.capacity_put] at hfits
  · right
    omega

/-- An entry becomes smaller, then a new key pushes the oldest entry out. -/
theorem third_entry_evicts_first :
    ∃ c : ElementCache Unit, Run (Guarded (Modest 40) Step) (newSimpleLRUCache 100 0)
        [.put "a" () 40 0, .put "b" () 40 1, .put "a" () 30 2] c ∧ c.currentSize = 70 ∧
      ((c.put "c" () 40 3).currentSize ≤ c.capacity ∨ (c.put "c" () 40 3).order.length = 1) := by
  have hrun : Run (Guarded (Modest 40) Step) (newSimpleLRUCache 100 0)
      [.put "a" () 40 0, .put "b" () 40 1, .put "a" () 30 2]
      ([.put "a" () 40 0, .put "b" () 40 1, .put "a" () 30 2].foldl apply
        (newSimpleLRUCache 100 0)) :=
    .cons ⟨by decide +kernel, rfl⟩ (.cons ⟨by decide +kernel, rfl⟩
      (.cons ⟨by decide +kernel, rfl⟩ (.nil _)))
  refine ⟨_, hrun, by decide +kernel, ?_⟩
  exact ((lru_books_agree (hrun.mono fun _ _ _ h => h.2)).2.2.2.2 40 (by decide) hrun).2 "c" () 40 3
    (by decide +kernel)

/-- An entry is overwritten with a larger one, and nothing is evicted. -/
theorem overwrite_passes_capacity :
    ∃ c : ElementCache Unit, Run Step (newSimpleLRUCache 100 0)
        [.put "a" () 40 0, .put "b" () 40 1, .put "a" () 90 2] c ∧
      c.currentSize = 130 ∧ c.capacity = 100 ∧ c.order.length = 2 := by
  have hrun : Run Step (newSimpleLRUCache 100 0)
      [.put "a" () 40 0, .put "b" () 40 1, .put "a" () 90 2]
      ([.put "a" () 40 0, .put "b" () 40 1, .put "a" () 90 2].foldl apply
        (newSimpleLRUCache 100 0)) :=
    .cons rfl (.cons rfl (.cons rfl (.nil _)))
  exact ⟨_, hrun, by decide +kernel, by decide +kernel, by decide +kernel⟩

end Tiramisu.Cache
