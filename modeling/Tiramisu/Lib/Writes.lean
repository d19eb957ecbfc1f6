import Mathlib.Data.List.AList
import Mathlib.Data.List.Basic
import Mathlib.Logic.Function.Basic

/-!
# Reading after a series of writes

A loop writes one entry after the other into a state.  What is read at one
place afterwards is what the entries that hit the place wrote, if they agree,
and what was there before if none hits it.  What is found in a table after one
write is the entry that was written or an old one.
-/

namespace Writes

open Function

variable {σ ε γ : Type*} (read : σ → γ) {write : σ → ε → σ} {es : List ε}

theorem foldl_of_miss (h : ∀ e ∈ es, ∀ s, read (write s e) = read s) (s : σ) :
    read (es.foldl write s) = read s := by
  induction es generalizing s with
  | nil => rfl
  | cons e es ih =>
    rw [List.foldl_cons, ih (fun e he => h e (by simp [he])), h e (by simp)]

theorem foldl_of_hit (hits : ε → Prop) {v : γ}
    (hmiss : ∀ e ∈ es, ¬ hits e → ∀ s, read (write s e) = read s)
    (hhit : ∀ e ∈ es, hits e → ∀ s, read (write s e) = v) (hex : ∃ e ∈ es, hits e) (s : σ) :
    read (es.foldl write s) = v := by
  induction es generalizing s with
  | nil => simp at hex
  | cons e es ih =>
    by_cases htail : ∃ e ∈ es, hits e
    · exact ih (fun e he => hmiss e (by simp [he])) (fun e he => hhit e (by simp [he])) htail _
    -- the head is the last entry that hits the place
    have hhead : hits e := by
      obtain ⟨e', he', hh⟩ := hex
      rcases List.mem_cons.mp he' with rfl | he'
      · exact hh
      · exact absurd ⟨e', he', hh⟩ htail
    have hrest : ∀ e' ∈ es, ∀ s, read (write s e') = read s := fun e' he' =>
      hmiss e' (by simp [he']) fun hh => htail ⟨e', he', hh⟩
    rw [List.foldl_cons, foldl_of_miss read hrest, hhit e (by simp) hhead]

variable {κ ν : Type*} [DecidableEq κ] {f : κ → Option ν} {m : AList fun _ : κ => ν} {k k' : κ}
  {v v' : ν}

theorem of_update {x : Option ν} (h : update f k x k' = some v) :
    (k' = k ∧ x = some v) ∨ (k' ≠ k ∧ f k' = some v) := by
  by_cases hk : k' = k
  · subst hk
    exact Or.inl ⟨rfl, by rwa [update_self] at h⟩
  · exact Or.inr ⟨hk, by rwa [update_of_ne hk] at h⟩

theorem mem_iff : k ∈ m ↔ ∃ v, m.lookup k = some v := by
  rw [← AList.lookup_isSome, Option.isSome_iff_exists]

theorem lookup_insert (v : ν) :
    (m.insert k v).lookup k' = update (fun l => m.lookup l) k (some v) k' := by
  by_cases hk : k' = k
  · subst hk
    rw [AList.lookup_insert, update_self]
  · rw [AList.lookup_insert_ne hk, update_of_ne hk]

theorem lookup_erase :
    (m.erase k).lookup k' = update (fun l => m.lookup l) k none k' := by
  by_cases hk : k' = k
  · subst hk
    rw [AList.lookup_erase, update_self]
  · rw [AList.lookup_erase_ne hk, update_of_ne hk]

theorem of_insert (h : (m.insert k v).lookup k' = some v') :
    (k' = k ∧ v = v') ∨ (k' ≠ k ∧ m.lookup k' = some v') := by
  rw [lookup_insert] at h
  exact (of_update h).imp_left fun hk => ⟨hk.1, Option.some.inj hk.2⟩

theorem of_erase (h : (m.erase k).lookup k' = some v) : k' ≠ k ∧ m.lookup k' = some v := by
  rw [lookup_erase] at h
  exact (of_update h).resolve_left fun hk => by cases hk.2

end Writes
