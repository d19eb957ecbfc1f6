import Tiramisu.Lib.Parallel

/-!
# Programs that act on what they are told

A program whose operations are in order as long as the answers it gets are.
`Manners` says which operations are in order for each party, which answers an
invariant gives them, and what one such operation does; along every run the
parties keep to their operations and every step does what it may.
-/

namespace Protocol

open Transition

variable {Op : Type} {Res : Op → Type} {χ σ α β : Type}

namespace Program

/-- As long as the answers are in `A`, the program performs only operations in
`P` and ends with a value in `R`. -/
def UsesTold (P : Op → Prop) (A : (o : Op) → Res o → Prop) (R : α → Prop) :
    Program Op Res α → Prop
  | ret a => R a
  | perform o k => P o ∧ ∀ r, A o r → (k r).UsesTold P A R

variable {P : Op → Prop} {A : (o : Op) → Res o → Prop} {R : α → Prop}

theorem told_ret {a : α} (h : R a) : (ret a : Program Op Res α).UsesTold P A R := h

theorem told_done {a : α} : (ret a : Program Op Res α).UsesTold P A fun _ => True := trivial

theorem told_op_bind {o : Op} {k : Res o → Program Op Res α} (h : P o)
    (hk : ∀ r, A o r → (k r).UsesTold P A R) : (op o >>= k).UsesTold P A R :=
  ⟨h, hk⟩

theorem UsesTold.bind {R' : β → Prop} {p : Program Op Res α} {f : α → Program Op Res β}
    (hp : p.UsesTold P A R) (hf : ∀ a, R a → (f a).UsesTold P A R') :
    (p >>= f).UsesTold P A R' := by
  induction p with
  | ret a => exact hf a hp
  | perform o k ih => exact ⟨hp.1, fun r hr => ih r (hp.2 r hr)⟩

end Program

/-- The operations that are in order for each party, the answers they get and
what they do to the state, while everybody keeps the invariant. -/
structure Manners (S : System Op Res χ σ) where
  inv : σ → Prop
  own : ℕ → Op → Prop
  told : ℕ → (o : Op) → Res o → Prop
  does : ℕ → σ → σ → Prop
  act : ∀ {i o c w r u}, own i o → inv w → (S.machine i).exec o c w = some (r, u) →
    inv u ∧ told i o r ∧ does i w u
  leave : ∀ {i w}, inv w → inv (S.leave i w) ∧ does i w (S.leave i w)

namespace Manners

variable {S : System Op Res χ σ} (N : Manners S)

structure Kept (cfg : Config Op Res α σ) : Prop where
  inv : N.inv cfg.state
  procs : ∀ i (p : Program Op Res α), cfg.procs[i]? = some p →
    p.UsesTold (N.own i) (N.told i) fun _ => True

variable {N} {cfg cfg' : Config Op Res α σ} {i : ℕ} {m : Move χ}

theorem Kept.step (h : N.Kept cfg) (hstep : S.Step cfg (i, m) cfg') :
    N.Kept cfg' ∧ N.does i cfg.state cfg'.state := by
  cases m with
  | retire =>
    obtain ⟨-, rfl⟩ := System.step_retire hstep
    obtain ⟨hinv, hdoes⟩ := N.leave h.inv
    exact ⟨⟨hinv, h.procs⟩, hdoes⟩
  | act c =>
    obtain ⟨o, k, r, w, hproc, hex, rfl⟩ := System.step_act hstep
    obtain ⟨hown, hk⟩ := h.procs i _ hproc
    obtain ⟨hinv, htold, hdoes⟩ := N.act hown h.inv hex
    refine ⟨⟨hinv, fun j p hp => ?_⟩, hdoes⟩
    by_cases hij : i = j
    · subst hij
      have hlt : i < cfg.procs.length := (List.getElem?_eq_some_iff.mp hproc).1
      obtain rfl : k r = p := by simpa [List.getElem?_set_self hlt] using hp
      exact hk r htold
    · rw [List.getElem?_set_ne hij] at hp
      exact h.procs j p hp

theorem Kept.run {ls : List (ℕ × Move χ)} (h : N.Kept cfg) (hrun : Run S.Step cfg ls cfg') :
    N.Kept cfg' :=
  hrun.invariant (fun _ _ _ hs hst => (hs.step hst).1) h

end Manners

end Protocol
