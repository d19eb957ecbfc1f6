import Tiramisu.Cache.Elements

/-!
# Expired entries and fresh ones

`Get` finds an entry expired under the read side of the lock and removes it
under the write side, where it only looks whether the key is still there.  A
`Put` between the two gives the entry a new value and a new life, and the
removal takes it away all the same.
-/

namespace Tiramisu.Cache

open Transition List

variable {ν : Type} {c c' : ElementCache ν} {a : SimpleLRUCache ν} {e : CacheEntry ν}
  {key : String} {value : ν} {stop size now : ℤ}

/-! ### Entries that stay -/

namespace SimpleLRUCache

/-- The list has the value under its key, with its end. -/
def Stores (key : String) (value : ν) (stop : ℤ) (a : SimpleLRUCache ν) : Prop :=
  ∃ e ∈ a.order, e.key = key ∧ e.value = value ∧ e.expiresAt = stop

section

variable (h : a.Stores key value stop) (k : String)

include h

lemma Stores.delete (hk : k ≠ key) : (a.delete k).1.Stores key value stop := by
  obtain ⟨e, he, rfl, hentry⟩ := h
  refine ⟨e, ?_, rfl, hentry⟩
  unfold SimpleLRUCache.delete
  split
  · exact he
  · rename_i x hx
    rw [← key_of_find hx] at hk
    exact mem_without he hk.symm

lemma Stores.cleanupExpired (hlive : now ≤ stop) :
    (a.cleanupExpired now).1.Stores key value stop := by
  refine cleanupExpired_preserves now (fun d x hx hexpired h => ?_) h
  obtain ⟨e, he, rfl, hvalue, rfl⟩ := h
  refine ⟨e, mem_without he fun hkey => ?_, rfl, hvalue, rfl⟩
  cases inj_on_of_nodup_map d.nodup he hx hkey
  exact absurd hexpired (not_lt.mpr hlive)

lemma Stores.promote (now : ℤ) : (a.promote k now).Stores key value stop := by
  obtain ⟨e, he, hentry⟩ := h
  unfold SimpleLRUCache.promote
  split
  · exact ⟨e, he, hentry⟩
  rename_i x hx
  by_cases hkey : e.key = x.key
  · cases inj_on_of_nodup_map a.nodup he (mem_of_find hx) hkey
    exact ⟨_, mem_cons_self, hentry⟩
  · exact ⟨e, mem_cons_of_mem _ (mem_without he hkey), hentry⟩

end

lemma stores_put : (a.put key value size now).Stores key value (now + a.ttl) := by
  unfold put
  split
  · rename_i x hx
    have hkey : x.key = key := key_of_find hx
    exact ⟨_, mem_cons_self, hkey, rfl, rfl⟩
  · exact ⟨_, mem_cons_self, rfl, rfl, rfl⟩

/-- A `Put` brings in nothing but its own entry. -/
lemma mem_of_mem_put (he : e ∈ (a.put key value size now).order) (hkey : e.key ≠ key) :
    e ∈ a.order := by
  unfold put at he
  split at he
  · rename_i x hx
    rcases mem_cons.mp he with rfl | he
    · exact absurd (key_of_find hx) hkey
    · exact mem_of_mem_without he
  · rcases mem_cons.mp he with rfl | he
    · exact absurd rfl hkey
    · exact evict_preserves (P := fun d => ∀ e ∈ d.order, e ∈ a.order)
        (fun _ _ _ h e he => h e (mem_of_mem_without he)) size _ (fun _ => id) e
        (mem_of_mem_without he)

end SimpleLRUCache

namespace ElementCache

/-- An entry whose time is not over is found. -/
lemma Views.get_of_mem (h : Views c a) (he : e ∈ a.order) (hlive : now ≤ e.expiresAt) :
    c.look e.key now ≠ .expired ∧ (c.get e.key now).2 = some e.value := by
  obtain ⟨elem, hmem, hval⟩ := exists_right h.order he
  have hkey : c.items.lookup e.key = some elem := (h.items e.key elem).mpr ⟨hmem, e, hval, rfl⟩
  have hlook : c.look e.key now = .due e.value ∨ c.look e.key now = .hit e.value := by
    unfold look
    rw [hkey, Option.bind_some, hval]
    dsimp only
    rw [if_neg (not_lt.mpr hlive)]
    split_ifs
    · exact .inl rfl
    · exact .inr rfl
  unfold get
  rcases hlook with hlook | hlook
  · rw [hlook]
    exact ⟨nofun, rfl⟩
  · rw [hlook]
    exact ⟨nofun, rfl⟩

/-- Until `stop` nobody puts or deletes anything under the key, the entry is not evicted,
and no `Get` that found an earlier entry expired comes to its removal. -/
def Spares (key : String) (stop : ℤ) (c : ElementCache ν) : CacheLabel ν → Prop
  | .put k value size now => k ≠ key ∧ ((c.put k value size now).items.lookup key).isSome
  | .get _ now | .cleanupExpired now => now ≤ stop
  | .getRemove k | .delete k => k ≠ key
  | .getPromote _ _ => True

instance (c : ElementCache ν) : (l : CacheLabel ν) → Decidable (c.Spares key stop l)
  | .put k value size now => inferInstanceAs
      (Decidable (k ≠ key ∧ ((c.put k value size now).items.lookup key).isSome))
  | .get _ now | .cleanupExpired now => inferInstanceAs (Decidable (now ≤ stop))
  | .getRemove k | .delete k => inferInstanceAs (Decidable (k ≠ key))
  | .getPromote _ _ => .isTrue trivial

lemma stores_apply {l : CacheLabel ν} (h : Views c a) (hstores : a.Stores key value stop)
    (hspares : c.Spares key stop l) :
    ∃ b : SimpleLRUCache ν, Views (c.apply l) b ∧ b.Stores key value stop := by
  have hdelete : ∀ k, k ≠ key →
      ∃ b : SimpleLRUCache ν, Views (c.getRemove k) b ∧ b.Stores key value stop := by
    intro k hk
    rw [getRemove_eq_delete]
    exact ⟨_, views_delete h, hstores.delete k hk⟩
  cases l with
  | put k v size now =>
    have hput : Views (c.put k v size now) (a.put k v size now) := views_put v size now h
    obtain ⟨e, he, rfl, hvalue, rfl⟩ := hstores
    obtain ⟨elem, helem⟩ := Option.isSome_iff_exists.mp hspares.2
    obtain ⟨x, -, -, hx⟩ := hput.find_some helem
    have hkey := SimpleLRUCache.key_of_find hx
    have hmem := SimpleLRUCache.mem_of_find hx
    have hold := SimpleLRUCache.mem_of_mem_put hmem (hkey ▸ hspares.1.symm)
    cases inj_on_of_nodup_map a.nodup hold he hkey
    exact ⟨_, hput, _, hmem, rfl, hvalue, rfl⟩
  | get k now =>
    change ∃ b : SimpleLRUCache ν, Views (c.get k now).1 b ∧ _
    unfold get
    split
    · exact ⟨a, h, hstores⟩
    · rename_i hlook
      refine hdelete k fun hk => ?_
      obtain ⟨e, he, rfl, -, rfl⟩ := hstores
      exact (h.get_of_mem he hspares).1 (hk ▸ hlook)
    · exact ⟨_, views_getPromote now h, hstores.promote k now⟩
    · exact ⟨a, h, hstores⟩
  | getRemove k => exact hdelete k hspares
  | getPromote k now => exact ⟨_, views_getPromote now h, hstores.promote k now⟩
  | delete k => exact ⟨_, views_delete h, hstores.delete k hspares⟩
  | cleanupExpired now => exact ⟨_, views_cleanupExpired now h, hstores.cleanupExpired hspares⟩

end ElementCache

open ElementCache

/-- What is put is found until its time is over, unless it is deleted or evicted or a `Get`
that found the entry before it expired removes it.  Such a removal always takes it away. -/
theorem fresh_value_is_found {capacity ttl : ℤ} {ls ls' : List (CacheLabel ν)} (value : ν)
    (size now : ℤ) (hrun : Run Step (newSimpleLRUCache capacity ttl) ls c)
    (hrest : Run (Guarded (Spares key (now + c.ttl)) Step) (c.put key value size now) ls' c') :
    (∀ time ≤ now + c.ttl, c'.look key time ≠ .expired ∧ (c'.get key time).2 = some value) ∧
      ∀ time, ((c'.getRemove key).get key time).2 = none := by
  obtain ⟨a, hviews, -⟩ := sound_of_run hrun
  have hstart : (a.put key value size now).Stores key value (now + c.ttl) :=
    hviews.ttl ▸ SimpleLRUCache.stores_put
  obtain ⟨b, hb, e, he, rfl, rfl, hstop⟩ : ∃ b : SimpleLRUCache ν,
      Views c' b ∧ b.Stores key value (now + c.ttl) := by
    refine hrest.invariant (I := fun d => ∃ b : SimpleLRUCache ν, Views d b ∧ b.Stores _ _ _) ?_
      ⟨_, views_put value size now hviews, hstart⟩
    rintro s l t ⟨b, hb, hstores⟩ ⟨hspares, rfl⟩
    exact stores_apply hb hstores hspares
  refine ⟨fun time htime => hb.get_of_mem he (hstop ▸ htime), fun time => ?_⟩
  have hgone : Views (c'.getRemove e.key) (b.delete e.key).1 :=
    getRemove_eq_delete c' e.key ▸ views_delete hb
  have hlook : (c'.getRemove e.key).look e.key time = .missing := by
    unfold look
    cases hkey : (c'.getRemove e.key).items.lookup e.key with
    | none => rfl
    | some elem =>
      obtain ⟨x, -, -, hx⟩ := hgone.find_some hkey
      cases SimpleLRUCache.find_delete_self.symm.trans hx
  unfold ElementCache.get
  rw [hlook]

/-- An expired entry, removed by a `Get` and stored again. -/
def storedAgain : ElementCache ℕ :=
  ((newSimpleLRUCache 100 10).put "a" 1 8 0 |>.get "a" 11).1.put "a" 2 8 11

theorem value_put_after_removal_is_found :
    ∃ c, Run (Guarded (Spares "a" 21) Step) storedAgain [.put "b" 3 8 12, .cleanupExpired 20] c ∧
      (c.get "a" 21).2 = some 2 := by
  have hrun : Run Step (newSimpleLRUCache 100 10) [.put "a" 1 8 0, .get "a" 11] _ :=
    .cons rfl (.cons rfl (.nil _))
  have hrest : Run (Guarded (Spares "a" 21) Step) storedAgain
      [.put "b" 3 8 12, .cleanupExpired 20] _ :=
    .cons ⟨by decide +kernel, rfl⟩ (.cons ⟨by decide +kernel, rfl⟩ (.nil _))
  exact ⟨_, hrest, ((fresh_value_is_found 2 8 11 hrun hrest).1 21 (by decide +kernel)).2⟩

/-- The key is used again before the expired entry is removed. -/
theorem value_put_before_removal_is_lost :
    ∃ c c' : ElementCache ℕ, Run Step (newSimpleLRUCache 100 10) [.put "a" 1 8 0] c ∧
      c.look "a" 11 = .expired ∧ Run Step c [.put "a" 2 8 11, .getRemove "a"] c' ∧
      (c'.get "a" 11).2 = none :=
  ⟨_, _, .cons rfl (.nil _), rfl, .cons rfl (.cons rfl (.nil _)), rfl⟩

end Tiramisu.Cache
