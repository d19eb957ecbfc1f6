import Mathlib.Data.List.Range
import Tiramisu.Lib.Program

/-!
# Programs that run to their end

`Finishes` is total correctness for a program that runs alone: whatever the
environment chooses, no operation is stuck and the program ends in the
postcondition.
-/

namespace Protocol

variable {Op : Type} {Res : Op → Type} {χ σ α β : Type} (M : Machine Op Res χ σ)

def Finishes (Q : α → σ → Prop) : Program Op Res α → σ → Prop
  | .ret a, w => Q a w
  | .perform o k, w => ∀ c, ∃ r w', M.exec o c w = some (r, w') ∧ Finishes Q (k r) w'

variable {M} {Q Q' : α → σ → Prop} {p : Program Op Res α} {w w' : σ}

theorem Finishes.mono (h : Finishes M Q p w) (hQ : ∀ a v, Q a v → Q' a v) : Finishes M Q' p w := by
  induction p generalizing w with
  | ret a => exact hQ a w h
  | perform o k ih =>
    intro c
    obtain ⟨r, w', hex, hk⟩ := h c
    exact ⟨r, w', hex, ih r hk⟩

theorem Finishes.bind {Q : β → σ → Prop} {f : α → Program Op Res β}
    (h : Finishes M (fun a v => Finishes M Q (f a) v) p w) : Finishes M Q (p >>= f) w := by
  induction p generalizing w with
  | ret a => exact h
  | perform o k ih =>
    intro c
    obtain ⟨r, w', hex, hk⟩ := h c
    exact ⟨r, w', hex, ih r hk⟩

/-- Wherever its steps have led to an end, the postcondition holds. -/
theorem Finishes.result {ok : Op → χ → σ → Prop} {a : α} (h : Finishes M Q p w)
    (hsteps : Steps M ok p w (.ret a) w') : Q a w' := by
  generalize hq : Program.ret a = q at hsteps
  induction hsteps with
  | refl p w =>
    subst hq
    exact h
  | step hok hex hrest ih =>
    obtain ⟨r, v, hex', hk⟩ := h _
    cases hex.symm.trans hex'
    exact ih hk hq

/-- A list of choices that is long enough takes the program to its end. -/
theorem Finishes.ends (h : Finishes M Q p w) (cs : ℕ → χ) :
    ∃ n a w', runAlone M (fun _ _ _ => True) ((List.range n).map cs) p w = (.ret a, w') ∧ Q a w' := by
  induction p generalizing w cs with
  | ret a => exact ⟨0, a, w, rfl, h⟩
  | perform o k ih =>
    obtain ⟨r, v, hex, hk⟩ := h (cs 0)
    obtain ⟨n, a, w', hrun, hQ⟩ := ih r hk fun i => cs (i + 1)
    refine ⟨n + 1, a, w', ?_, hQ⟩
    rw [List.range_succ_eq_map, List.map_cons, List.map_map]
    simp only [runAlone, if_true, hex]
    exact hrun

/-! ### Programs that can run to their end -/

variable (M) in
/-- The environment can choose so that the program ends in the postcondition. -/
def CanFinish (Q : α → σ → Prop) : Program Op Res α → σ → Prop
  | .ret a, w => Q a w
  | .perform o k, w => ∃ c r w', M.exec o c w = some (r, w') ∧ CanFinish Q (k r) w'

theorem CanFinish.bind {Q : β → σ → Prop} {f : α → Program Op Res β}
    (h : CanFinish M (fun a v => CanFinish M Q (f a) v) p w) : CanFinish M Q (p >>= f) w := by
  induction p generalizing w with
  | ret a => exact h
  | perform o k ih =>
    obtain ⟨c, r, w', hex, hk⟩ := h
    exact ⟨c, r, w', hex, ih r hk⟩

theorem CanFinish.mono (h : CanFinish M Q p w) (hQ : ∀ a v, Q a v → Q' a v) :
    CanFinish M Q' p w := by
  induction p generalizing w with
  | ret a => exact hQ a w h
  | perform o k ih =>
    obtain ⟨c, r, w', hex, hk⟩ := h
    exact ⟨c, r, w', hex, ih r hk⟩

theorem CanFinish.steps (h : CanFinish M Q p w) :
    ∃ a w', Steps M (fun _ _ _ => True) p w (.ret a) w' ∧ Q a w' := by
  induction p generalizing w with
  | ret a => exact ⟨a, w, .refl _ _, h⟩
  | perform o k ih =>
    obtain ⟨c, r, v, hex, hk⟩ := h
    obtain ⟨a, w', hsteps, hQ⟩ := ih r hk
    exact ⟨a, w', .step trivial hex hsteps, hQ⟩

end Protocol
