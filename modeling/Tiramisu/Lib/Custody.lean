import Mathlib.Logic.Basic
import Mathlib.Data.Nat.Notation

/-!
# Resources under locks

Parties share resources that others may refer to, each under a lock of its own
key.  A party may take a resource away, or start referring to it, only while it
holds the lock; then no reference is ever left without its resource, and
whoever holds a lock can count on what it has seen of the resource behind it.
-/

namespace Custody

/-- Who holds each lock, which resources are there, and who refers to them. -/
structure View (κ ρ : Type) where
  holder : κ → Option ℕ
  present : κ → Prop
  refers : κ → ρ → Prop

variable {κ ρ : Type} {V V' V'' : View κ ρ} {i j : ℕ} {k : κ}

/-- No reference is left without its resource. -/
def Sound (V : View κ ρ) : Prop := ∀ k x, V.refers k x → V.present k

/-- At one key a lock in use stays with its holder, the resource stays, and no
reference is added. -/
structure Steady (V V' : View κ ρ) (k : κ) : Prop where
  holder : ∀ i, V.holder k = some i → V'.holder k = some i
  present : V.present k → V'.present k
  refers : ∀ x, V'.refers k x → V.refers k x

/-- What a party does at other keys than those it holds is steady; where it
holds the lock it answers for the references. -/
def Moves (i : ℕ) (V V' : View κ ρ) : Prop :=
  ∀ k, Steady V V' k ∨ (V.holder k = some i ∧ ∀ x, V'.refers k x → V'.present k)

/-- What a party can count on: nothing is disturbed where it holds the lock. -/
def Respects (i : ℕ) (V V' : View κ ρ) : Prop := ∀ k, V.holder k = some i → Steady V V' k

lemma Steady.refl (V : View κ ρ) (k : κ) : Steady V V k := ⟨fun _ h => h, id, fun _ h => h⟩

lemma Steady.trans (h : Steady V V' k) (h' : Steady V' V'' k) : Steady V V'' k :=
  ⟨fun i hi => h'.holder i (h.holder i hi), fun hp => h'.present (h.present hp),
    fun x hx => h.refers x (h'.refers x hx)⟩

lemma Respects.refl (i : ℕ) (V : View κ ρ) : Respects i V V := fun k _ => .refl V k

lemma Respects.trans (h : Respects i V V') (h' : Respects i V' V'') : Respects i V V'' := by
  intro k hk
  have hfirst := h k hk
  exact hfirst.trans (h' k (hfirst.holder i hk))

lemma Moves.of_steady (h : ∀ k, Steady V V' k) : Moves i V V' := fun k => Or.inl (h k)

lemma Moves.respects (h : Moves i V V') (hij : j ≠ i) : Respects j V V' := by
  intro k hk
  rcases h k with hsteady | ⟨hi, -⟩
  · exact hsteady
  · exact absurd (Option.some.inj (hk.symm.trans hi)) hij

/-- No move of any party leaves a reference without its resource. -/
theorem Sound.moves (h : Sound V) (hm : Moves i V V') : Sound V' := by
  intro k x hx
  rcases hm k with hsteady | ⟨-, hown⟩
  · exact hsteady.present (h k x (hsteady.refers x hx))
  · exact hown x hx

end Custody
